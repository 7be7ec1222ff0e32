import Mathlib.Data.List.Forall2
import MatchChain.Proofs.Code.Testable
import MatchChain.Proofs.Match.WellFormed

/-!
# What the operations of a chain become

Reading a chain turns its clauses into branches, one each and in order, and lets only its last operation
give a fallback or the assertion that some branch is always taken. `Clause` says what a branch takes
from its clause, `ValidCaptures` which selections it may have.
-/

set_option autoImplicit false

namespace MatchChain

variable {calls : List Call} {e : Expr} {m : MatchExpr}

/-! ## Chains -/

namespace Chain

/-- The calls that an expression chains, from the matcher's on: each later one is a call of a member of
    what the one before gives. -/
inductive Spells (matcher : String) : List Call → Expr → Prop where
  | root (span s : Span) (args : List Expr) :
      Spells matcher [⟨span, .ident s matcher, args⟩] (.call span (.ident s matcher) args false)
  | link {calls : List Call} {object : Expr} (span s : Span) (property : String) (args : List Expr) :
      Spells matcher calls object →
      Spells matcher (calls ++ [⟨span, .member s object property false, args⟩])
        (.call span (.member s object property false) args false)

variable {matcher : String}

theorem Spells.ne_nil (h : Spells matcher calls e) : calls ≠ [] := by
  cases h with
  | root => exact List.cons_ne_nil _ _
  | link => exact List.append_ne_nil_of_right_ne_nil _ (List.cons_ne_nil _ _)

/-- The last call is the expression itself. -/
theorem Spells.span {root : Call} {operations : List Call}
    (h : Spells matcher (root :: operations) e) : (operations.getLast?.getD root).span = e.span := by
  generalize hcalls : root :: operations = calls at h
  have hlast : calls.getLast? = some (operations.getLast?.getD root) := by
    rw [← hcalls, List.getLast?_cons]
  cases h with
  | root => exact congrArg Call.span (Option.some.inj hlast).symm
  | link span s property args h =>
    rw [List.getLast?_concat] at hlast
    exact congrArg Call.span (Option.some.inj hlast).symm

/-- After the root, every call is of a named operation. -/
theorem Spells.operation?_isSome (h : Spells matcher calls e) :
    ∀ c ∈ calls.tail, c.operation?.isSome = true := by
  induction h with
  | root => exact nofun
  | link span s property args h ih =>
    intro c hc
    rw [List.tail_append_of_ne_nil h.ne_nil] at hc
    rcases List.mem_append.mp hc with hc | hc
    · exact ih c hc
    · rw [List.mem_singleton.mp hc]
      rfl

/-- Flattening from a depth on succeeds where the calls that an expression chains still fit, and puts
    them before the later ones. -/
theorem flattenFrom_eq_some_iff {depth : Nat} {later : List Call} :
    flattenFrom matcher depth later e = some calls ↔
      ∃ front, Spells matcher front e ∧ depth + front.length ≤ maxCalls ∧ calls = front ++ later := by
  fun_induction flattenFrom matcher depth later e with
  | case1 depth later span s name args hdepth =>
    refine iff_of_false (Option.some_ne_none calls).symm ?_
    rintro ⟨front, hfront, hlength, -⟩
    have := List.length_pos_iff.mpr hfront.ne_nil
    omega
  | case2 depth later span s name args hdepth hname =>
    obtain rfl := eq_of_beq hname
    constructor
    · rintro ⟨⟩
      exact ⟨_, .root span s args, Nat.lt_of_not_le hdepth, rfl⟩
    · rintro ⟨front, ⟨⟩, -, rfl⟩
      rfl
  | case3 depth later span s name args hdepth hname =>
    refine iff_of_false (Option.some_ne_none calls).symm ?_
    rintro ⟨front, ⟨⟩, -, -⟩
    exact hname (beq_self_eq_true matcher)
  | case4 depth later span s object property args hdepth =>
    refine iff_of_false (Option.some_ne_none calls).symm ?_
    rintro ⟨front, hfront, hlength, -⟩
    have := List.length_pos_iff.mpr hfront.ne_nil
    omega
  | case5 depth later span s object property args hdepth ih =>
    refine ih.trans ⟨?_, ?_⟩
    · rintro ⟨front, hfront, hlength, rfl⟩
      refine ⟨_, .link span s property args hfront, ?_, by rw [List.append_assoc]; rfl⟩
      rw [List.length_append, List.length_singleton]
      omega
    · rintro ⟨_, ⟨⟩ | ⟨_, _, _, _, hfront⟩, hlength, rfl⟩
      rw [List.length_append, List.length_singleton] at hlength
      exact ⟨_, hfront, by omega, by rw [List.append_assoc]; rfl⟩
  | case6 depth later e hident hmember =>
    refine iff_of_false (Option.some_ne_none calls).symm ?_
    rintro ⟨front, hfront, -, -⟩
    cases hfront with
    | root span s args => exact hident span s matcher args rfl
    | link span s property args _ => exact hmember span s _ property args rfl

/-- Flattening gives the calls that an expression chains, unless there are too many. -/
theorem flatten_eq_some_iff :
    flatten matcher e = some calls ↔ Spells matcher calls e ∧ calls.length ≤ maxCalls := by
  rw [flatten, flattenFrom_eq_some_iff]
  constructor
  · rintro ⟨front, hfront, hlength, rfl⟩
    rw [List.append_nil]
    exact ⟨hfront, by omega⟩
  · rintro ⟨hcalls, hlength⟩
    exact ⟨calls, hcalls, by omega, (List.append_nil _).symm⟩

theorem spells_of_flatten (h : flatten matcher e = some calls) :
    Spells matcher calls e :=
  (flatten_eq_some_iff.mp h).1

end Chain

/-! ## Captures -/

/-- A branch selects nothing, or a single alternative selects one thing without a name or several under
    different names. -/
def Branch.ValidCaptures (b : Branch) : Prop :=
  b.selections = [] ∨ (∃ p, b.patterns = [p]) ∧
    ((∃ s, b.selections = [s] ∧ s.name = none) ∨
      ∃ labels : List String, b.selections.map (·.name) = labels.map some ∧ labels.Nodup)

/-- What code generation needs of a branch: an alternative, a test for each of them, and captures that
    can be handed over. -/
structure Branch.Compilable (b : Branch) : Prop where
  alternatives : b.patterns ≠ []
  testable : ∀ p ∈ b.patterns, p.Testable
  captures : b.ValidCaptures

/-- Each element of a list is related to one of a list that is related to it. -/
theorem exists_of_forall₂ {α β : Type} {R : α → β → Prop} {as : List α} {bs : List β} (h : List.Forall₂ R as bs)
    {a : α} (ha : a ∈ as) : ∃ b ∈ bs, R a b := by
  induction h with
  | nil => cases ha
  | cons hab _ ih =>
    rcases List.mem_cons.mp ha with rfl | ha
    · exact ⟨_, List.mem_cons_self, hab⟩
    · obtain ⟨b, hb, hR⟩ := ih ha
      exact ⟨b, List.mem_cons_of_mem _ hb, hR⟩

namespace MatchNames

variable {names : MatchNames}

/-- After a selection without a name nothing may be selected. -/
theorem selectionFault?_after_anonymous {ss : List Select} :
    selectionFault? true [] ss = none ↔ ss = [] := by
  cases ss with
  | nil => exact iff_of_true rfl rfl
  | cons s ss =>
    obtain ⟨span, name, inner⟩ := s
    cases name <;> simp [selectionFault?]

/-- Selections without a fault are a single one without a name, if no name was taken before, or have
    different names that were not taken. -/
theorem selectionFault?_eq_none_iff : ∀ {ss : List Select} {taken : List String},
    selectionFault? false taken ss = none ↔
      (∃ s, ss = [s] ∧ s.name = none ∧ taken = []) ∨
        ∃ labels : List String, ss.map (·.name) = labels.map some ∧ labels.Nodup ∧
          ∀ label ∈ labels, label ∉ taken
  | [], _ => iff_of_true rfl (.inr ⟨[], rfl, .nil, by simp⟩)
  | ⟨span, none, inner⟩ :: ss, taken => by
    have hunnamed : ¬ ∃ labels : List String, (⟨span, none, inner⟩ :: ss : List Select).map (·.name)
        = labels.map some ∧ labels.Nodup ∧ ∀ label ∈ labels, label ∉ taken := by
      rintro ⟨labels, hlabels, -⟩
      cases labels <;> simp at hlabels
    rw [or_iff_left hunnamed]
    cases taken with
    | nil =>
      refine selectionFault?_after_anonymous.trans ⟨?_, ?_⟩
      · rintro rfl
        exact ⟨_, rfl, rfl, rfl⟩
      · rintro ⟨s, hs, -, -⟩
        exact (List.cons.inj hs).2
    | cons => simp [selectionFault?]
  | ⟨span, some name, inner⟩ :: ss, taken => by
    rw [selectionFault?, or_iff_right (by rintro ⟨s, hs, hname, -⟩; cases hs; cases hname)]
    by_cases hname : name ∈ taken
    · rw [if_pos (by simpa using hname)]
      refine iff_of_false (Option.some_ne_none _) ?_
      rintro ⟨labels, hlabels, -, hfresh⟩
      obtain ⟨_, rest, rfl, ⟨⟩, -⟩ := List.map_eq_cons_iff.mp hlabels.symm
      exact hfresh name List.mem_cons_self hname
    · rw [if_neg (by simpa using hname), if_neg Bool.false_ne_true, selectionFault?_eq_none_iff]
      constructor
      · rintro (⟨s, -, -, htaken⟩ | ⟨labels, hlabels, hnodup, hfresh⟩)
        · exact absurd htaken (List.cons_ne_nil _ _)
        · simp only [List.mem_cons, not_or] at hfresh
          refine ⟨name :: labels, by rw [List.map_cons, hlabels, List.map_cons], ?_, ?_⟩
          · exact List.nodup_cons.mpr ⟨fun hmem => (hfresh name hmem).1 rfl, hnodup⟩
          · intro label hlabel
            rcases List.mem_cons.mp hlabel with rfl | hlabel
            · exact hname
            · exact (hfresh label hlabel).2
      · rintro ⟨labels, hlabels, hnodup, hfresh⟩
        obtain ⟨_, rest, rfl, ⟨⟩, hrest⟩ := List.map_eq_cons_iff.mp hlabels.symm
        obtain ⟨hnew, hnodup⟩ := List.nodup_cons.mp hnodup
        refine .inr ⟨rest, hrest.symm, hnodup, ?_⟩
        intro label hlabel htaken
        rcases List.mem_cons.mp htaken with rfl | htaken
        · exact hnew hlabel
        · exact hfresh label (List.mem_cons_of_mem _ hlabel) htaken

theorem captureFault?_eq_none_iff {b : Branch} : captureFault? b = none ↔ b.ValidCaptures := by
  unfold captureFault? Branch.ValidCaptures
  split
  · rename_i hselections
    exact iff_of_true rfl (.inl hselections)
  · rename_i first rest hselections
    rw [hselections, or_iff_right (List.cons_ne_nil first rest)]
    have hne : b.patterns ≠ [] := by
      intro hnil
      rw [Branch.selections, hnil] at hselections
      cases hselections
    by_cases hlength : 1 < b.patterns.length
    · rw [if_pos hlength]
      refine iff_of_false (Option.some_ne_none _) ?_
      rintro ⟨⟨p, hp⟩, -⟩
      rw [hp] at hlength
      exact Nat.lt_irrefl 1 hlength
    · have hone : ∃ p, b.patterns = [p] := by
        refine List.length_eq_one_iff.mp ?_
        have := List.length_pos_iff.mpr hne
        omega
      rw [if_neg hlength, selectionFault?_eq_none_iff, and_iff_right hone]
      simp

/-! ## Clauses -/

/-- What a branch takes from the call of its clause: the last argument is the handler, a function
    between a single pattern and the handler is the guard, and the other arguments are the
    alternatives. -/
structure Clause (names : MatchNames) (c : Call) (b : Branch) : Prop where
  span : b.span = c.span
  arguments : ∃ patterns handler, c.args = patterns ++ b.guard.toList ++ [handler] ∧
    b.handler = .ofExpr handler ∧
    List.Forall₂ (fun arg p => names.pattern arg = .ok p) patterns b.patterns
  guarded : b.guard.isSome ↔ ∃ p guard handler, c.args = [p, guard, handler] ∧ guard.isFunc = true

theorem forall₂_of_mapM {ε α β : Type} {f : α → Except ε β} : ∀ {as : List α} {bs : List β},
    as.mapM f = .ok bs → List.Forall₂ (fun a b => f a = .ok b) as bs
  | [], bs, h => by
    cases h
    exact .nil
  | a :: as, bs, h => by
    rw [List.mapM_cons] at h
    obtain ⟨b, hb, h⟩ := exists_of_bind_eq_ok h
    obtain ⟨bs', hbs, h⟩ := exists_of_bind_eq_ok h
    cases h
    exact .cons hb (forall₂_of_mapM hbs)

/-- Splitting off the guard loses no argument, and finds one exactly where a function follows a single
    pattern. -/
theorem splitGuard_spec (args : List Expr) :
    args = (splitGuard args).1 ++ (splitGuard args).2.toList ∧
      ((splitGuard args).2.isSome ↔ ∃ p guard, args = [p, guard] ∧ guard.isFunc = true) := by
  unfold splitGuard
  split
  · rename_i p guard
    split
    · exact ⟨rfl, iff_of_true rfl ⟨p, guard, rfl, ‹_›⟩⟩
    · refine ⟨rfl, iff_of_false nofun ?_⟩
      rintro ⟨_, _, heq, hfunc⟩
      cases heq
      contradiction
  · rename_i hother
    refine ⟨by simp, iff_of_false nofun ?_⟩
    rintro ⟨p, guard, rfl, _⟩
    exact hother p guard rfl

theorem branch_reads {c : Call} {b : Branch} (h : branch names c.args c.span = .ok b) :
    names.Clause c b ∧ b.Compilable := by
  have hne := branch_patterns_ne_nil h
  unfold branch at h
  split at h
  · rename_i handler first others hargs
    obtain ⟨patterns, hpatterns, h⟩ := exists_of_bind_eq_ok h
    obtain ⟨hsplit, hguard⟩ := splitGuard_spec (first :: others).reverse
    have hall : c.args = (first :: others).reverse ++ [handler] := by
      rw [← List.reverse_reverse c.args, hargs, List.reverse_cons]
    dsimp only at h
    split at h
    · cases h
    · rename_i hfault
      cases h
      obtain ⟨hsupport, hcapture⟩ := Option.or_eq_none_iff.mp hfault
      refine ⟨⟨rfl, ⟨_, handler, ?_, rfl, forall₂_of_mapM hpatterns⟩, ?_⟩, hne, ?_,
        captureFault?_eq_none_iff.mp hcapture⟩
      · exact hall.trans (congrArg (· ++ [handler]) hsplit)
      · refine hguard.trans ⟨?_, ?_⟩
        · rintro ⟨p, guard, heq, hfunc⟩
          exact ⟨p, guard, handler, by rw [hall, heq]; rfl, hfunc⟩
        · rintro ⟨p, guard, handler', heq, hfunc⟩
          have happend : (first :: others).reverse ++ [handler] = [p, guard] ++ [handler'] :=
            hall.symm.trans heq
          exact ⟨p, guard, (List.append_inj' happend rfl).1, hfunc⟩
      · intro p hp
        exact (Pattern.unsupported?_eq_none_iff p).mp
          (List.findSome?_eq_none_iff.mp (Option.map_eq_none_iff.mp hsupport) p hp)
  · cases h

/-! ## Operations -/

/-- Whether a call registers a clause. -/
def isClause (names : MatchNames) (c : Call) : Bool :=
  c.operation?.any fun name => names.chain.operation name == .clause

/-- What an operation adds: a branch, or, at the end of the chain, a fallback or the assertion that some
    branch is always taken. -/
theorem apply_cases {m m' : MatchExpr} {c : Call} {isLast : Bool} (hc : c.operation?.isSome = true)
    (h : apply names m c isLast = .ok m') :
    (names.isClause c = true ∧ ∃ b, names.Clause c b ∧ b.Compilable ∧
        m' = { m with branches := m.branches ++ [b] }) ∨
      (names.isClause c = false ∧ isLast = true ∧
        ((∃ handler, c.args = [handler] ∧ m' = { m with fallback := some (.ofExpr handler) }) ∨
          c.args = [] ∧ ∃ exhaustive, m' = { m with exhaustive })) := by
  obtain ⟨name, hname⟩ := Option.isSome_iff_exists.mp hc
  unfold apply at h
  obtain ⟨args, hargs, h⟩ := exists_of_bind_eq_ok h
  have hplain : args = c.args := by
    unfold plainArgs at hargs
    split at hargs <;> cases hargs
    rfl
  subst hplain
  simp only [isClause, hname, Option.any_some, Option.getD_some] at h ⊢
  cases hop : names.chain.operation name with
  | clause =>
    simp only [hop] at h
    obtain ⟨b, hb, h⟩ := exists_of_bind_eq_ok h
    cases h
    exact .inl ⟨rfl, b, (branch_reads hb).1, (branch_reads hb).2, rfl⟩
  | unknown =>
    simp only [hop] at h
    cases h
  | fallback =>
    right
    simp only [hop] at h
    cases isLast with
    | false => cases h
    | true =>
      simp only [Bool.not_true, Bool.false_eq_true, if_false] at h
      rcases hone : c.args with _ | ⟨handler, _ | ⟨more, rest⟩⟩ <;> rw [hone] at h <;> cases h
      exact ⟨rfl, rfl, .inl ⟨handler, rfl, rfl⟩⟩
  | exhaustive | run =>
    right
    simp only [hop] at h
    cases isLast with
    | false => cases h
    | true =>
      simp only [Bool.not_true, Bool.false_eq_true, if_false] at h
      cases hnone : c.args with
      | cons =>
        rw [hnone] at h
        cases h
      | nil =>
        rw [hnone] at h
        cases h
        exact ⟨rfl, rfl, .inr ⟨rfl, _, rfl⟩⟩

/-- What reading operations adds to a match expression that has neither a fallback nor the assertion
    yet. -/
structure Adds (names : MatchNames) (calls : List Call) (m m' : MatchExpr) : Prop where
  subject : m'.subject = m.subject
  span : m'.span = m.span
  branches : ∃ bs, m'.branches = m.branches ++ bs ∧
    List.Forall₂ names.Clause (calls.filter names.isClause) bs ∧ ∀ b ∈ bs, b.Compilable
  others : ∀ c ∈ calls, names.isClause c = false →
    c.args = [] ∨ ∃ handler, c.args = [handler] ∧ m'.fallback = some (.ofExpr handler)
  fallback : ∀ handler, m'.fallback = some handler → ∃ c ∈ calls, ∃ e, c.args = [e] ∧ handler = .ofExpr e
  terminal : ¬ (m'.fallback.isSome = true ∧ m'.exhaustive = true)

theorem applyAll_adds : ∀ {calls : List Call} {m m' : MatchExpr},
    (∀ c ∈ calls, c.operation?.isSome = true) → m.fallback = none → m.exhaustive = false →
    applyAll names m calls = .ok m' → names.Adds calls m m'
  | [], m, m', _, hfallback, _, h => by
    cases h
    exact ⟨rfl, rfl, ⟨[], by simp, .nil, nofun⟩, nofun, by simp [hfallback], by simp [hfallback]⟩
  | c :: calls, m, m', hcalls, hfallback, hexhaustive, h => by
    obtain ⟨m₁, hc, h⟩ := exists_of_bind_eq_ok h
    rcases apply_cases (hcalls c List.mem_cons_self) hc with
      ⟨hclause, b, hb, hcompilable, rfl⟩ | ⟨hclause, hlast, hm₁⟩
    · have hadds := applyAll_adds (m := { m with branches := m.branches ++ [b] })
        (fun c' hc' => hcalls c' (List.mem_cons_of_mem c hc')) hfallback hexhaustive h
      obtain ⟨bs, hbs, hreads, hall⟩ := hadds.branches
      refine ⟨hadds.subject, hadds.span,
        ⟨b :: bs, by simp [hbs], ?_, List.forall_mem_cons.mpr ⟨hcompilable, hall⟩⟩, ?_, ?_, hadds.terminal⟩
      · rw [List.filter_cons_of_pos hclause]
        exact .cons hb hreads
      · refine List.forall_mem_cons.mpr ⟨fun hother => ?_, hadds.others⟩
        rw [hclause] at hother
        cases hother
      · intro handler hhandler
        obtain ⟨c', hc', harg⟩ := hadds.fallback handler hhandler
        exact ⟨c', List.mem_cons_of_mem c hc', harg⟩
    · -- An operation that ends the chain is the last one, so nothing is added after it.
      obtain rfl := List.isEmpty_iff.mp hlast
      cases h
      have hnone : [] = [c].filter names.isClause := by simp [hclause]
      rcases hm₁ with ⟨handler, harg, rfl⟩ | ⟨harg, exhaustive, rfl⟩
      · refine ⟨rfl, rfl, ⟨[], by simp, hnone ▸ .nil, nofun⟩, ?_, ?_, by simp [hexhaustive]⟩
        · exact List.forall_mem_singleton.mpr fun _ => .inr ⟨handler, harg, rfl⟩
        · rintro _ ⟨⟩
          exact ⟨c, List.mem_singleton_self c, handler, harg, rfl⟩
      · refine ⟨rfl, rfl, ⟨[], by simp, hnone ▸ .nil, nofun⟩, ?_, by simp [hfallback], by simp [hfallback]⟩
        exact List.forall_mem_singleton.mpr fun _ => .inl harg

theorem subject_eq_ok {root : Call} (h : subject root = .ok e) : root.args = [e] := by
  obtain ⟨args, hargs, h⟩ := exists_of_bind_eq_ok h
  unfold plainArgs at hargs
  split at hargs <;> cases hargs
  rcases hone : root.args with _ | ⟨only, _ | ⟨more, rest⟩⟩ <;> rw [hone] at h <;> cases h
  rfl

/-- Every match expression that is read from a chain is well-formed. -/
theorem ofCalls_wellFormed (hcalls : ∀ c ∈ calls.tail, c.operation?.isSome = true)
    (h : ofCalls names calls = .ok m) : m.WellFormed := by
  cases calls with
  | nil => cases h
  | cons root operations =>
    obtain ⟨subject, hsubject, h⟩ := exists_of_bind_eq_ok h
    have hadds := applyAll_adds hcalls rfl rfl h
    obtain ⟨bs, hbs, _, hall⟩ := hadds.branches
    refine ⟨by rw [hadds.subject]; exact subject_ne_spread hsubject, ?_⟩
    rw [hbs]
    exact fun b hb => (hall b hb).alternatives

/-- A match expression that is read from an expression takes its subject from the root of what the
    expression chains and the rest from the operations after it. -/
theorem read_operations (h : names.read e = .ok (some m)) :
    ∃ root operations, Chain.Spells names.matcher (root :: operations) e ∧ operations ≠ [] ∧
      root.args = [m.subject] ∧ m.span = e.span ∧
      names.Adds operations { m with branches := [], fallback := none, exhaustive := false } m := by
  unfold read at h
  split at h
  · rename_i calls hcalls
    obtain ⟨hflatten, hends⟩ := Option.filter_eq_some_iff.mp hcalls
    have hspells := Chain.spells_of_flatten hflatten
    cases calls with
    | nil => exact absurd rfl hspells.ne_nil
    | cons root operations =>
      have hoperations : operations ≠ [] := by
        rintro rfl
        cases hends
      cases hm : ofCalls names (root :: operations) with
      | error fault =>
        rw [hm] at h
        cases h
      | ok m₁ =>
        rw [hm] at h
        cases h
        obtain ⟨subject, hsubject, hm⟩ := exists_of_bind_eq_ok hm
        have hadds := applyAll_adds hspells.operation?_isSome rfl rfl hm
        refine ⟨root, operations, hspells, hoperations, ?_, ?_, ⟨rfl, rfl, hadds.branches, hadds.others, hadds.fallback,
          hadds.terminal⟩⟩
        · rw [hadds.subject]
          exact subject_eq_ok hsubject
        · rw [hadds.span]
          exact hspells.span
  · cases h

/-- A match expression that is read from an expression has the branches of the clauses that the
    expression chains, in order, and ends in one way only. -/
theorem read_adds (h : names.read e = .ok (some m)) :
    ∃ calls, Chain.Spells names.matcher calls e ∧
      List.Forall₂ names.Clause (calls.tail.filter names.isClause) m.branches ∧
      (∀ b ∈ m.branches, b.Compilable) ∧ ¬ (m.fallback.isSome = true ∧ m.exhaustive = true) := by
  obtain ⟨root, operations, hspells, _, _, _, hadds⟩ := read_operations h
  obtain ⟨bs, hbs, hreads, hall⟩ := hadds.branches
  rw [List.nil_append] at hbs
  subst hbs
  exact ⟨root :: operations, hspells, hreads, hall, hadds.terminal⟩

end MatchNames

end MatchChain
