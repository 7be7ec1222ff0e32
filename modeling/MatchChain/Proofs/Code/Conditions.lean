import Mathlib.Data.List.Forall2
import MatchChain.Code.Generate
import MatchChain.Proofs.Code.Tests
import MatchChain.Proofs.Match.Dispatch
import MatchChain.Proofs.Simulation.Conversions

/-!
# Conditions of branches

The condition that generated code tests before a branch is the truth of whether an alternative of the
branch accepts the subject. What patterns accept is the same in machines that agree.
-/

set_option autoImplicit false

namespace MatchChain

open Eval Outcome

/-! ## Alternatives -/

section Alternatives

variable {m : Machine}

theorem Eval.Tests.or {a e : Expr} {b c : Bool} (h : Tests m a b) (hnext : Tests m e c) (span : Span) :
    Tests m (.binary span .or a e) (b || c) := by
  intro m₁ hs
  obtain ⟨m₂, hs₂, hrun⟩ := h m₁ hs
  cases b with
  | true =>
    refine ⟨m₂, hs₂, ?_⟩
    rw [limit_expr_or, hrun]
    rfl
  | false =>
    obtain ⟨m₃, hs₃, hrun'⟩ := hnext m₂ (hs.trans hs₂)
    refine ⟨m₃, hs₂.trans hs₃, ?_⟩
    rw [limit_expr_or, hrun]
    exact hrun'

/-- Conditions joined from the left hold if one of them does. -/
theorem Eval.Tests.foldl_or {es : List Expr} {bs : List Bool} (h : List.Forall₂ (Tests m) es bs)
    (span : Span) : ∀ {a : Expr} {b : Bool}, Tests m a b →
      Tests m (es.foldl (fun left right => .binary span .or left right) a) (b || bs.any id) := by
  induction h with
  | nil =>
    intro a b ha
    rw [List.any_nil, Bool.or_false]
    exact ha
  | cons he _ ih =>
    intro a b ha
    rw [List.any_cons, ← Bool.or_assoc]
    exact ih (ha.or he span)

theorem Eval.Tests.joined_or {es : List Expr} {bs : List Bool} (h : List.Forall₂ (Tests m) es bs)
    {span : Span} {e : Expr} (he : Expr.joined? span .or es = some e) : Tests m e (bs.any id) := by
  cases h with
  | nil => cases he
  | cons hfirst hrest =>
    cases he
    exact Tests.foldl_or hrest span hfirst

namespace Emission

variable {em : Emission} {v : Value} {ps : List Pattern}

/-- The joined conditions of one alternative. -/
theorem joined_tests (hsafe : em.nullSafe = true) (hm : m.HasTestGlobals) (hv : Reads m em.subject v)
    {p : Pattern} (hp : p.unsupported? = none ∧ p.isShort = true) {e : Expr}
    (he : Expr.joined? em.span .and (p.tests em.style em.subject) = some e) :
    Tests m e (p.accepts m.heap v) :=
  have hall : TestAll m (p.tests em.style em.subject) (p.accepts m.heap v) :=
    Pattern.testAll_tests hsafe hm p hp.1 hp.2 hv
  hall.joined he

theorem tests_alternatives (hsafe : em.nullSafe = true) (hm : m.HasTestGlobals)
    (hv : Reads m em.subject v) (hps : ∀ p ∈ ps, p.unsupported? = none ∧ p.isShort = true)
    (hsome : ∀ p ∈ ps, (Expr.joined? em.span .and (p.tests em.style em.subject)).isSome) :
    List.Forall₂ (Tests m)
      ((ps.map fun p => Expr.joined? em.span .and (p.tests em.style em.subject)).filterMap id)
      (ps.map (·.accepts m.heap v)) := by
  induction ps with
  | nil => exact .nil
  | cons p ps ih =>
    obtain ⟨e, he⟩ := Option.isSome_iff_exists.mp (hsome p List.mem_cons_self)
    rw [List.map_cons, he, List.map_cons, List.filterMap_cons_some (f := id) (b := e) rfl]
    refine .cons (joined_tests hsafe hm hv (hps p List.mem_cons_self) he) (ih ?_ ?_)
    · exact fun q hq => hps q (List.mem_cons_of_mem p hq)
    · exact fun q hq => hsome q (List.mem_cons_of_mem p hq)

/-- The condition of a branch without its guard. -/
theorem tests_of_alternatives? (hsafe : em.nullSafe = true) (hm : m.HasTestGlobals)
    (hv : Reads m em.subject v) (hps : ∀ p ∈ ps, p.unsupported? = none ∧ p.isShort = true) {e : Expr}
    (he : em.alternatives? ps = some e) : Tests m e (ps.any (·.accepts m.heap v)) := by
  unfold alternatives? at he
  dsimp only at he
  split at he
  · cases he
  · rename_i hany
    have hsome : ∀ p ∈ ps, (Expr.joined? em.span .and (p.tests em.style em.subject)).isSome := by
      intro p hp
      rw [Option.isSome_iff_ne_none]
      intro hnone
      exact hany (List.any_eq_true.mpr ⟨_, List.mem_map_of_mem hp, by rw [hnone]; rfl⟩)
    have htests := Tests.joined_or (tests_alternatives hsafe hm hv hps hsome) he
    rwa [List.any_map] at htests

/-- Where a branch has no such condition, it is because an alternative accepts everything. -/
theorem any_accepts_of_alternatives? (hps : ∀ p ∈ ps, p.unsupported? = none) (hne : ps ≠ [])
    (he : em.alternatives? ps = none) (h : Heap) (v : Value) : ps.any (·.accepts h v) = true := by
  have hjoined : ∀ {es : List Expr} {op : BinaryOp}, Expr.joined? em.span op es = none → es = [] := by
    intro es op hnone
    cases es with
    | nil => rfl
    | cons => cases hnone
  unfold alternatives? at he
  dsimp only at he
  split at he
  · rename_i hany
    obtain ⟨o, ho, hnone⟩ := List.any_eq_true.mp hany
    obtain ⟨p, hp, rfl⟩ := List.mem_map.mp ho
    have hnil := hjoined (Option.isNone_iff_eq_none.mp hnone)
    exact List.any_eq_true.mpr ⟨p, hp, Pattern.accepts_of_tests_eq_nil p (hps p hp) hnil h v⟩
  · rename_i hany
    -- every alternative has conditions, so the list that is joined is as long as that of alternatives
    obtain ⟨p, hp⟩ := List.exists_mem_of_ne_nil ps hne
    cases ht : Expr.joined? em.span .and (p.tests em.style em.subject) with
    | none => exact absurd (List.any_eq_true.mpr ⟨_, List.mem_map_of_mem hp, by rw [ht]; rfl⟩) hany
    | some test =>
      have hmem : test ∈ (ps.map fun p =>
          Expr.joined? em.span .and (p.tests em.style em.subject)).filterMap id :=
        List.mem_filterMap.mpr ⟨_, List.mem_map_of_mem hp, ht⟩
      rw [hjoined he] at hmem
      cases hmem

end Emission

end Alternatives

/-! ## Agreement -/

/-- Values that stand for each other, or two functions. -/
def World.Similar (w : World) (v v' : Value) : Prop :=
  w.Rel v v' ∨ ∃ c d, v = .function c ∧ v' = .function d

namespace World.Similar

variable {w : World} {v v' : Value}

theorem literal (h : w.Similar v v') (l : LiteralPattern) : l.accepts v = l.accepts v' := by
  rcases h with h | ⟨_, _, rfl, rfl⟩
  · cases h <;> cases l <;> rfl
  · cases l <;> rfl

theorem typeTag (h : w.Similar v v') (tag : TypeTag) : tag.accepts v = tag.accepts v' := by
  unfold TypeTag.accepts
  rcases h with h | ⟨_, _, rfl, rfl⟩
  · rw [h.kindName, h.isNullish]
  · rfl

end World.Similar

namespace Agree

variable {names : String → Prop} {w : World} {m₁ m₂ : Machine}

theorem part (h : Agree names w m₁ m₂) {v v' : Value} (hv : w.Similar v v') (key : String) :
    w.Similar (m₁.heap.part v key) (m₂.heap.part v' key) := by
  have hmethod : ∀ fn, w.Similar (m₁.heap.methodPart fn) (m₂.heap.methodPart fn) := by
    intro fn
    cases fn with
    | none => exact .inl (.plain rfl)
    | some fn => exact .inr ⟨_, _, rfl, rfl⟩
  rcases hv with hv | ⟨_, _, rfl, rfl⟩
  · cases hv with
    | @plain v hp =>
      cases v with
      | str s =>
        unfold Heap.part
        dsimp only
        split
        · exact .inl (.plain rfl)
        · split
          · rename_i i _
            cases s.toList[i]? <;> exact .inl (.plain rfl)
          · exact hmethod _
      | undefined | null | bool | number | bigint => exact .inl (.plain rfl)
      | array | object | function => cases hp
    | array hc =>
      have hitems := h.items hc
      unfold Heap.part
      dsimp only
      rw [hitems.length]
      split
      · exact .inl (.plain rfl)
      · split
        · exact .inl (hitems.getElem? _).getD
        · exact hmethod _
    | object hc => exact .inl ((h.fields hc).get? key).getD
    | function hc => exact .inl (.plain rfl)
  · exact .inl (.plain rfl)

mutual

/-- A pattern accepts a value of one machine exactly if it accepts what stands for it in the other. -/
theorem accepts (h : Agree names w m₁ m₂) : ∀ (p : Pattern) {v v' : Value}, w.Similar v v' →
    p.accepts m₁.heap v = p.accepts m₂.heap v'
  | .literal l, v, v', hv => by
    rw [Pattern.accepts, Pattern.accepts, hv.literal]
  | .typeTag tag, v, v', hv => by
    rw [Pattern.accepts, Pattern.accepts, hv.typeTag]
  | .wildcard, v, v', hv => by
    rw [Pattern.accepts, Pattern.accepts]
  | .array elements, v, v', hv => by
    rcases hv with hv | ⟨_, _, rfl, rfl⟩
    · cases hv with
      | plain hp =>
        cases v with
        | array => cases hp
        | _ => simp only [Pattern.accepts]
      | array hc =>
        rw [Pattern.accepts, Pattern.accepts]
        exact h.acceptsStart elements (h.items hc)
      | object | function => simp only [Pattern.accepts]
    · simp only [Pattern.accepts]
  | .object fields, v, v', hv => by
    rw [Pattern.accepts, Pattern.accepts]
    exact h.acceptsFields fields hv
  | .select ⟨_, _, none⟩, v, v', hv => by
    rw [Pattern.accepts, Pattern.accepts, Pattern.acceptsInner, Pattern.acceptsInner]
  | .select ⟨_, _, some p⟩, v, v', hv => by
    rw [Pattern.accepts, Pattern.accepts, Pattern.acceptsInner, Pattern.acceptsInner]
    exact h.accepts p hv
  | .not _, v, v', _ | .when _, v, v', _ | .set _, v, v', _ | .map _ _, v, v', _ => by
    rw [Pattern.accepts, Pattern.accepts]

theorem acceptsStart (h : Agree names w m₁ m₂) : ∀ (ps : List Pattern) {vs vs' : List Value},
    w.RelList vs vs' → Pattern.acceptsStart m₁.heap vs ps = Pattern.acceptsStart m₂.heap vs' ps
  | [], vs, vs', _ => by
    rw [Pattern.acceptsStart, Pattern.acceptsStart]
  | p :: ps, _, _, .nil => by
    rw [Pattern.acceptsStart, Pattern.acceptsStart]
  | p :: ps, _, _, .cons hv hvs => by
    rw [Pattern.acceptsStart, Pattern.acceptsStart, h.accepts p (.inl hv), h.acceptsStart ps hvs]

theorem acceptsFields (h : Agree names w m₁ m₂) : ∀ (fs : List FieldPattern) {v v' : Value},
    w.Similar v v' → Pattern.acceptsFields m₁.heap v fs = Pattern.acceptsFields m₂.heap v' fs
  | [], v, v', _ => by
    rw [Pattern.acceptsFields, Pattern.acceptsFields]
  | ⟨name, p⟩ :: fs, v, v', hv => by
    rw [Pattern.acceptsFields, Pattern.acceptsFields, h.accepts p (h.part hv name),
      h.acceptsFields fs hv]

end

end Agree

theorem Agree.branch_accepts {names : String → Prop} {w : World} {m₁ m₂ : Machine}
    (h : Agree names w m₁ m₂) (b : Branch) {v v' : Value} (hv : w.Rel v v') :
    b.accepts m₁.heap v = b.accepts m₂.heap v' := by
  unfold Branch.accepts
  congr 1
  funext p
  exact h.accepts p (.inl hv)

end MatchChain
