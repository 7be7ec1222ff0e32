import MatchChain.Proofs.Code.Arguments
import MatchChain.Proofs.Code.Conditions
import MatchChain.Proofs.Simulation.OneSided

/-!
# Branches

Generated code runs on one machine, first-match dispatch on another that agrees with it. `Stage` says
what holds whenever a branch is reached. From there, conditions are true exactly if the branch takes
the subject, and blocks call handlers as dispatch does, so that the statements of all branches deliver
what dispatch selects.
-/

set_option autoImplicit false

namespace MatchChain

open Eval Outcome

/-! ## Selections run alike -/

namespace Sim

variable {names : String → Prop} {w : World} {s t : Nat} {v v' : Value}

theorem part (hv : w.Rel v v') (span : Span) (key : String) :
    Sim names w s t World.Rel (part span v key) (part span v' key) := by
  unfold Eval.part
  rw [hv.isNullish]
  split
  · exact pure (.plain rfl)
  · exact getProperty hv key span

theorem follow (hv : w.Rel v v') (span : Span) (keys : List String) :
    Sim names w s t World.Rel (follow span v keys) (follow span v' keys) :=
  foldlM hv fun key _ _ _ _ _ hab => part hab span key

theorem selectedFields (hv : w.Rel v v') (span : Span) (ps : List SelectedPath) :
    ∀ {w' : World} {fs fs' : Fields}, w ≤ w' → w'.RelFields fs fs' →
      Sim names w' s t World.RelFields (selectedFields span v fs ps) (selectedFields span v' fs' ps) := by
  induction ps with
  | nil => exact fun _ hfs => pure hfs
  | cons p ps ih =>
    intro w' fs fs' hle hfs
    rw [Eval.selectedFields, Eval.selectedFields]
    cases p.name with
    | none => exact ih hle hfs
    | some name =>
      refine (follow (hv.mono hle) span p.keys).bind fun w'' u u' hle' hu => ?_
      exact ih (World.le_trans hle hle') ((hfs.mono hle').set name hu)

theorem selection (hv : w.Rel v v') (span : Span) (ps : List SelectedPath) :
    Sim names w s t World.RelList (selection span v ps) (selection span v' ps) := by
  have hobject : Sim names w s t World.RelList
      (do return [← Eval.newObject (← Eval.selectedFields span v [] ps)])
      (do return [← Eval.newObject (← Eval.selectedFields span v' [] ps)]) :=
    (selectedFields hv span ps w.le_refl .nil).bind fun w' fs fs' _ hfs =>
      (newObject hfs).map fun _ _ _ _ ho => .cons ho .nil
  cases ps with
  | nil => exact pure .nil
  | cons p ps =>
    obtain ⟨name, keys⟩ := p
    cases name with
    | some name => exact hobject
    | none =>
      cases ps with
      | nil => exact (follow hv span keys).map fun _ _ _ _ hu => .cons hu .nil
      | cons => exact hobject

/-- What a handler is given. -/
theorem handed (hv : w.Rel v v') (span : Span) (ps : List SelectedPath) :
    Sim names w s t World.RelList (do return (← Eval.selection span v ps) ++ [v])
      (do return (← Eval.selection span v' ps) ++ [v']) :=
  (selection hv span ps).map fun _ _ _ hle hvs => hvs.append (.cons (hv.mono hle) .nil)

end Sim

/-! ## Calls and conditions in dispatch -/

namespace Eval

theorem limit_apply (span : Span) (fn : Expr) (arguments : Eval (List Value)) (m : Machine) :
    limit (apply · span fn arguments) m
      = (limit (callee · fn) m).bind (andThen fun
          | none, m' => some (.ok .undefined, m')
          | some (function, receiver), m' =>
            (Outcome.ofRun? (arguments.run.run m')).bind (andThen fun values m'' =>
              limit (call · function receiver values span) m'')) := by
  unfold apply
  rw [(growing_callee fn).limit_bind]
  congr 2
  funext found m'
  cases found with
  | none => exact limit_const _ m'
  | some found =>
    obtain ⟨function, receiver⟩ := found
    exact limit_const_bind _ _ m'

end Eval

theorem Branch.limit_takes (b : Branch) (span : Span) (v : Value) (m : Machine) :
    limit (b.takes · span v) m = if b.accepts m.heap v then
        match b.guard with
        | none => some (.ok true, m)
        | some guard => (limit (apply · span guard (return [v])) m).bind (andThen fun u m' =>
            some (.ok u.isTruthy, m'))
      else some (.ok false, m) := by
  unfold Branch.takes
  rw [limit_const_bind, run_get]
  show limit _ m = _
  by_cases haccepts : b.accepts m.heap v
  · simp only [haccepts, if_true]
    cases b.guard with
    | none => exact limit_const _ m
    | some guard =>
      dsimp only
      rw [(growing_apply span guard _).limit_bind]
      simp only [limit_pure]
  · simp only [haccepts]
    exact limit_const _ m

theorem MatchExpr.limit_select (e : MatchExpr) (v : Value) (b : Branch) (bs : List Branch)
    (m : Machine) :
    limit (e.select · v (b :: bs)) m = (limit (b.takes · e.span v) m).bind (andThen fun taken m' =>
      if taken then limit (b.handler.handle · e.span v b.paths) m' else limit (e.select · v bs) m') := by
  simp only [MatchExpr.select]
  rw [(b.growing_takes e.span v).limit_bind]
  congr 2
  funext taken m'
  cases taken <;> rfl

/-! ## The stage -/

/-- The generated code's name for the subject holds what stands for the value that is dispatched. -/
structure Stage (names : String → Prop) (w : World) (x : String) (v₁ v₂ : Value)
    (m₁ m₂ : Machine) : Prop where
  aligned : Aligned names w m₁ m₂
  hidden : ¬ names x
  subject : ∃ a isMutable, m₁.owner? x = some (a, ⟨v₁, isMutable⟩)
  value : w.Rel v₁ v₂

namespace Stage

variable {names : String → Prop} {w w' : World} {x : String} {v₁ v₂ : Value}
  {m₁ m₂ m₁' m₂' : Machine}

theorem lookup? (h : Stage names w x v₁ v₂ m₁ m₂) : m₁.lookup? x = some v₁ := by
  obtain ⟨a, isMutable, howner⟩ := h.subject
  exact Machine.lookup?_of_owner? howner

theorem moved (h : Stage names w x v₁ v₂ m₁ m₂) (hg : Grown names noNames w m₁ m₂ w' m₁' m₂')
    (h₁ : m₁.SamePlace m₁') (h₂ : m₂.SamePlace m₂') : Stage names w' x v₁ v₂ m₁' m₂' where
  aligned := h.aligned.moved hg h₁ h₂
  hidden := h.hidden
  subject := by rw [h.aligned.owner? hg h₁ h.hidden]; exact h.subject
  value := h.value.mono hg.le

theorem entered (h : Stage names w x v₁ v₂ m₁ m₂) :
    Stage names (w.withChain m₁.scopes.count m₂.env.current) x v₁ v₂ m₁.entered m₂ where
  aligned := h.aligned.entered_left
  hidden := h.hidden
  subject := by rw [h.aligned.owner?_entered]; exact h.subject
  value := h.value.mono (w.le_withChain _ _)

/-! ## Calls -/

/-- A call whose arguments only read the subject. -/
theorem apply (h : Stage names w x v₁ v₂ m₁ m₂) {fn : Expr} (hfn : fn.Within names) {es : List Expr}
    {f g : Eval (List Value)} (span : Span)
    (hargs : ∀ m, m.lookup? x = some v₁ → limit (args · es) m = Outcome.ofRun? (f.run.run m))
    (hsim : ∀ {w' s t}, w'.Rel v₁ v₂ → Sim names w' s t World.RelList f g) :
    Related names noNames w (fun w _ _ => w.Rel) m₁ m₂
      (limit (expr · (.call span fn es false)) m₁) (limit (Eval.apply · span fn g) m₂) := by
  rw [limit_expr_call, limit_apply]
  have hcallee := h.aligned.run (growing_callee fn) (growing_callee fn) fun n =>
    (simulated names n).callee h.aligned.chained hfn
  refine hcallee.bind (fun _ hx => hx) fun w₁ n₁ n₂ a b hg h₁ h₂ hab => ?_
  have hn := h.moved hg h₁ h₂
  cases hab with
  | none => exact .ok (.refl hg.agree) (.refl n₁) (.refl n₂) (.plain rfl)
  | @some p q hpq =>
    obtain ⟨function, receiver⟩ := p
    obtain ⟨function', receiver'⟩ := q
    dsimp only
    rw [hargs n₁ hn.lookup?]
    have hvalues := hsim hn.value n₁ n₂ hn.aligned.placed hn.aligned.agree
    refine hvalues.bind (fun _ hx => hx) fun w₂ k₁ k₂ vs vs' hg' h₁' h₂' hvs => ?_
    have hk := hn.moved hg' h₁' h₂'
    exact hk.aligned.run (growing_call ..) (growing_call ..) fun n =>
      (simulated names n).call span (hpq.1.mono hg'.le) (hpq.2.mono hg'.le) hvs

/-- A handler is called with what its branch selects. -/
theorem handle (h : Stage names w x v₁ v₂ m₁ m₂) {callee : Expr} (hfn : callee.Within names)
    {span : Span} {cs : List Capture} {ps : List SelectedPath}
    (hcs : List.Forall₂ (Capture.Follows span x v₁) cs ps) :
    Related names noNames w (fun w _ _ => w.Rel) m₁ m₂
      (limit (expr · (.call span callee ((Capture.value? span cs).toList ++ [.ident span x]) false)) m₁)
      (limit ((Handler.callable callee).handle · span v₂ ps) m₂) :=
  h.apply hfn span (fun m hm => Capture.limit_arguments hcs span m hm) fun hv => .handed hv span ps

/-- A guard is called with the subject. -/
theorem guard (h : Stage names w x v₁ v₂ m₁ m₂) {guard : Expr} (hguard : guard.Within names)
    (span : Span) :
    Related names noNames w (fun w _ _ => w.Rel) m₁ m₂
      (limit (expr · (.call span guard [.ident span x] false)) m₁)
      (limit (Eval.apply · span guard (return [v₂])) m₂) := by
  refine h.apply hguard span (f := return [v₁]) (fun m hm => ?_) fun hv => .pure (.cons hv .nil)
  rw [limit_args_cons (e := .ident span x) nofun, limit_expr_ident hm]
  simp only [Option.bind_some, andThen_ok, limit_args_nil]
  rfl

end Stage

/-! ## Globals -/

namespace Machine

/-- The globals that generated code uses are the built-in ones. -/
structure HasGlobals (m : Machine) : Prop extends HasTestGlobals m where
  stringify : m.Provides "JSON" "stringify" .stringify
  error : ∃ cell receiver, m.lookup? "Error" = some (.function cell) ∧
    m.heap.cells[cell]? = some (.native .error receiver)

end Machine

/-- The names of the globals that generated code uses. -/
def globalNames : List String := ["Array", "Number", "undefined", "JSON", "Error"]

namespace Aligned

variable {names : String → Prop} {w : World} {m₁ m₂ : Machine}

theorem native (h : Aligned names w m₁ m₂) {i j : Nat} (hc : w.cells i j) {fn : Native}
    {receiver : Value} (hj : m₂.heap.cells[j]? = some (.native fn receiver)) :
    ∃ receiver', m₁.heap.cells[i]? = some (.native fn receiver') := by
  obtain ⟨c, d, hi, hj', hcd⟩ := h.agree.cells i j hc
  rw [hj] at hj'
  cases hj'
  cases hcd with
  | native => exact ⟨_, hi⟩

theorem provides (h : Aligned names w m₁ m₂) {object key : String} {fn : Native}
    (hobject : names object) (hm : m₂.Provides object key fn) : m₁.Provides object key fn := by
  obtain ⟨cell, id, receiver, hlookup, hfield, hcell⟩ := hm
  have hfound : w.RelOption (m₁.lookup? object) (m₂.lookup? object) :=
    h.agree.lookup hobject h.chained
  rw [hlookup] at hfound
  cases hobj : m₁.lookup? object with
  | none =>
    rw [hobj] at hfound
    cases hfound
  | some found =>
    rw [hobj] at hfound
    cases hfound with
    | some hv =>
      cases hv with
      | plain hp => cases hp
      | @object i _ hc =>
        have hget := (h.agree.fields hc).get? key
        rw [hfield] at hget
        cases hkey : (m₁.heap.fields i).get? key with
        | none =>
          rw [hkey] at hget
          cases hget
        | some f =>
          rw [hkey] at hget
          cases hget with
          | some hf =>
            cases hf with
            | plain hp => cases hp
            | @function k _ hk =>
              obtain ⟨receiver', hnative⟩ := h.native hk hcell
              exact ⟨i, k, receiver', hobj, hkey, hnative⟩

/-- Globals that one machine has as they were built in, the other has so too. -/
theorem hasGlobals (h : Aligned names w m₁ m₂) (hnames : ∀ x ∈ globalNames, names x)
    (hm : m₂.HasGlobals) : m₁.HasGlobals := by
  have hlookup : ∀ x ∈ globalNames, w.RelOption (m₁.lookup? x) (m₂.lookup? x) := fun x hx =>
    h.agree.lookup (hnames x hx) h.chained
  refine ⟨⟨h.provides (hnames _ (by decide)) hm.isArray, h.provides (hnames _ (by decide)) hm.isNaN, ?_⟩,
    h.provides (hnames _ (by decide)) hm.stringify, ?_⟩
  · have hundefined := hlookup "undefined" (by decide)
    rw [hm.undefined] at hundefined
    generalize m₁.lookup? "undefined" = o at hundefined ⊢
    cases hundefined with
    | some hv =>
      cases hv with
      | plain => rfl
  · obtain ⟨cell, receiver, herror, hcell⟩ := hm.error
    have hfound := hlookup "Error" (by decide)
    rw [herror] at hfound
    generalize m₁.lookup? "Error" = o at hfound ⊢
    cases hfound with
    | some hv =>
      cases hv with
      | plain hp => cases hp
      | @function i _ hc =>
        obtain ⟨receiver', hnative⟩ := h.native hc hcell
        exact ⟨i, receiver', rfl, hnative⟩

end Aligned

/-! ## Conditions -/

namespace Stage

variable {names : String → Prop} {w : World} {x : String} {v₁ v₂ : Value} {m₁ m₂ : Machine}

/-- A test that holds exactly if the branch accepts the subject. -/
theorem tested (h : Stage names w x v₁ v₂ m₁ m₂) {b : Branch} {test : Expr}
    (htest : Tests m₁ test (b.accepts m₁.heap v₁)) :
    ∃ m₁', limit (expr · test) m₁ = some (.ok (.bool (b.accepts m₂.heap v₂)), m₁') ∧
      Grown names noNames w m₁ m₂ w m₁' m₂ ∧ m₁.SamePlace m₁' := by
  obtain ⟨m₁', hs, hrun⟩ := htest m₁ (.refl m₁)
  rw [h.aligned.agree.branch_accepts b h.value] at hrun
  exact ⟨m₁', hrun, h.aligned.agree.spawned_left hs, hs.samePlace⟩

/-- The condition of a branch is true exactly if the branch takes the subject. -/
theorem condition (h : Stage names w x v₁ v₂ m₁ m₂) (hm : m₁.HasTestGlobals) {em : Emission}
    (hsafe : em.nullSafe = true) (hsubject : em.subject = .ident em.span x) {b : Branch}
    (hps : ∀ p ∈ b.patterns, p.unsupported? = none ∧ p.isShort = true) (hne : b.patterns ≠ [])
    (hguard : ∀ g ∈ b.guard, g.Within names) {test : Expr} (he : em.condition? b = some test) :
    Related names noNames w (fun _ _ _ u taken => u.isTruthy = taken) m₁ m₂
      (limit (expr · test) m₁) (limit (b.takes · em.span v₂) m₂) := by
  have hreads : Reads m₁ em.subject v₁ := hsubject ▸ .ident h.lookup? em.span
  have haccepts : ∀ {e}, em.alternatives? b.patterns = some e → Tests m₁ e (b.accepts m₁.heap v₁) :=
    fun he => em.tests_of_alternatives? hsafe hm hreads hps he
  rw [b.limit_takes]
  unfold Emission.condition? at he
  cases hg : b.guard with
  | none =>
    simp only [hg] at he
    obtain ⟨m₁', hrun, hgrown, hplace⟩ := h.tested (haccepts he)
    rw [hrun]
    cases b.accepts m₂.heap v₂ <;> exact .ok hgrown hplace (.refl m₂) rfl
  | some guard =>
    simp only [hg, Option.some.injEq] at he
    have hcall : ∀ {w' m₁'}, Stage names w' x v₁ v₂ m₁' m₂ →
        Related names noNames w' (fun _ _ _ u taken => u.isTruthy = taken) m₁' m₂
          (limit (expr · (.call em.span guard [em.subject] false)) m₁')
          ((limit (Eval.apply · em.span guard (return [v₂])) m₂).bind (andThen fun u m' =>
            some (.ok u.isTruthy, m'))) := by
      intro w' m₁' hstage
      rw [hsubject]
      have hrun := hstage.guard (hguard guard hg) em.span
      generalize limit (expr · (.call em.span guard [.ident em.span x] false)) m₁' = o at hrun ⊢
      generalize limit (Eval.apply · em.span guard (return [v₂])) m₂ = o' at hrun ⊢
      cases hrun with
      | never => exact .never
      | ok hgrown h₁ h₂ hv => exact .ok hgrown h₁ h₂ hv.isTruthy
      | raised hgrown h₁ h₂ he => exact .raised hgrown h₁ h₂ he
    cases hall : em.alternatives? b.patterns with
    | none =>
      simp only [hall] at he
      subst he
      have haccept : b.accepts m₂.heap v₂ = true :=
        em.any_accepts_of_alternatives? (fun p hp => (hps p hp).1) hne hall _ _
      rw [if_pos haccept]
      exact hcall h
    | some first =>
      simp only [hall] at he
      subst he
      obtain ⟨m₁', hrun, hgrown, hplace⟩ := h.tested (haccepts hall)
      rw [limit_expr_and, hrun]
      cases b.accepts m₂.heap v₂ with
      | false => exact .ok hgrown hplace (.refl m₂) rfl
      | true => exact .after hgrown hplace (.refl m₂) (hcall (h.moved hgrown hplace (.refl m₂)))

end Stage

/-- A branch without a condition takes every value. -/
theorem Emission.limit_takes_of_condition? {em : Emission} {b : Branch}
    (hps : ∀ p ∈ b.patterns, p.unsupported? = none) (hne : b.patterns ≠ [])
    (he : em.condition? b = none) (span : Span) (v : Value) (m : Machine) :
    limit (b.takes · span v) m = some (.ok true, m) := by
  rw [b.limit_takes]
  unfold Emission.condition? at he
  cases hg : b.guard with
  | none =>
    simp only [hg] at he
    have haccept : b.accepts m.heap v = true := em.any_accepts_of_alternatives? hps hne he _ _
    rw [if_pos haccept]
  | some guard =>
    simp only [hg] at he
    cases he

end MatchChain
