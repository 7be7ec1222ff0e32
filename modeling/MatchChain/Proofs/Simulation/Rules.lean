import MatchChain.Proofs.Eval.Limit
import MatchChain.Proofs.Simulation.Conversions

/-!
# Computations that run alike

`Sim` says that two computations, run on machines that agree, end alike: both with values that stand
for each other, both with errors that do, or both without steps. What they leave behind agrees in a
larger world, and both are back in the place that they started from. There is one rule for each way to
put computations together.
-/

set_option autoImplicit false

namespace MatchChain

variable {w w' : World} {f f' : Flow} {e e' : EvalError}

namespace World

/-- Errors that are equal, up to a value that was thrown. -/
inductive RelError (w : World) : EvalError → EvalError → Prop
  | thrown {v v' : Value} {span : Span} : w.Rel v v' → RelError w (.thrown v span) (.thrown v' span)
  | type (fault : TypeFault) (span : Span) : RelError w (.type fault span) (.type fault span)
  | reference (x : String) (span : Span) : RelError w (.reference x span) (.reference x span)
  | callDepth (span : Span) : RelError w (.callDepth span) (.callDepth span)
  | unsupported (what : String) (span : Span) :
      RelError w (.unsupported what span) (.unsupported what span)

theorem RelError.mono (h : w ≤ w') (he : w.RelError e e') :
    w'.RelError e e' := by
  cases he with
  | thrown hv => exact .thrown (hv.mono h)
  | type => exact .type ..
  | reference => exact .reference ..
  | callDepth => exact .callDepth ..
  | unsupported => exact .unsupported ..

theorem RelError.isCatchable {w : World} (he : w.RelError e e') :
    e.isCatchable = e'.isCatchable := by cases he <;> rfl

/-- Statements that ended in the same way. -/
inductive RelFlow (w : World) : Flow → Flow → Prop
  | normal : RelFlow w .normal .normal
  | ret {v v' : Value} : w.Rel v v' → RelFlow w (.ret v) (.ret v')
  | breakTo (label : Option String) : RelFlow w (.breakTo label) (.breakTo label)
  | continueTo (label : Option String) : RelFlow w (.continueTo label) (.continueTo label)

/-- What an assignment writes to. -/
inductive RelPlace (names : String → Prop) (w : World) : Place → Place → Prop
  | named {x : String} : names x → RelPlace names w (.variable x) (.variable x)
  | property {v v' : Value} (key : String) : w.Rel v v' →
      RelPlace names w (.property v key) (.property v' key)

theorem RelPlace.mono {names : String → Prop} (h : w ≤ w') {p p' : Place}
    (hp : w.RelPlace names p p') : w'.RelPlace names p p' := by
  cases hp with
  | named hx => exact .named hx
  | property key hv => exact .property key (hv.mono h)

/-- Functions to call, with what they were read from. -/
def RelCallee (w : World) : Option (Value × Value) → Option (Value × Value) → Prop :=
  Option.Rel fun p q => w.Rel p.1 q.1 ∧ w.Rel p.2 q.2

/-- Results of a block: ways to end, or errors. -/
def RelResult (w : World) : Except EvalError Flow → Except EvalError Flow → Prop
  | .ok f, .ok f' => w.RelFlow f f'
  | .error e, .error e' => w.RelError e e'
  | _, _ => False

theorem RelFlow.mono (h : w ≤ w') (hf : w.RelFlow f f') :
    w'.RelFlow f f' := by
  cases hf with
  | normal => exact .normal
  | ret hv => exact .ret (hv.mono h)
  | breakTo => exact .breakTo _
  | continueTo => exact .continueTo _

theorem RelResult.mono (h : w ≤ w') {r r' : Except EvalError Flow}
    (hr : w.RelResult r r') : w'.RelResult r r' := by
  cases r with
  | ok f =>
    cases r' with
    | ok f' => exact RelFlow.mono h hr
    | error => exact hr.elim
  | error e =>
    cases r' with
    | ok => exact hr.elim
    | error e' => exact RelError.mono h hr

theorem RelFlow.result {w : World} (hf : w.RelFlow f f') : w.Rel f.result f'.result := by
  cases hf with
  | ret hv => exact hv
  | normal | breakTo | continueTo => exact .plain rfl

theorem RelFlow.afterLabel {w : World} (hf : w.RelFlow f f') (label : String) :
    w.RelFlow (f.afterLabel label) (f'.afterLabel label) := by
  cases hf with
  | normal => exact .normal
  | ret hv => exact .ret hv
  | continueTo => exact .continueTo _
  | breakTo target =>
    cases target with
    | none => exact .breakTo _
    | some target =>
      unfold Flow.afterLabel
      dsimp only
      split
      · exact .normal
      · exact .breakTo _

/-- What a loop does after rounds that ended in the same way. -/
inductive RelRound (w : World) : AfterRound → AfterRound → Prop
  | again : RelRound w .again .again
  | stop {f f' : Flow} : w.RelFlow f f' → RelRound w (.stop f) (.stop f')

theorem RelFlow.afterRound {w : World} (hf : w.RelFlow f f') (label : Option String) :
    w.RelRound (f.afterRound label) (f'.afterRound label) := by
  cases hf with
  | normal => exact .again
  | ret hv => exact .stop (.ret hv)
  | breakTo target =>
    cases target with
    | none => exact .stop .normal
    | some target =>
      unfold Flow.afterRound
      dsimp only
      split
      · exact .stop .normal
      · exact .stop (.breakTo _)
  | continueTo target =>
    cases target with
    | none => exact .again
    | some target =>
      unfold Flow.afterRound
      dsimp only
      split
      · exact .again
      · exact .stop (.continueTo _)

end World

/-! ## Where two machines stand -/

/-- Where two machines stand: in the scopes `s` and `t`, and with as many calls left to open. -/
structure Placed (w : World) (s t : Nat) (m₁ m₂ : Machine) : Prop where
  current₁ : m₁.env.current = s
  current₂ : m₂.env.current = t
  this : w.Rel m₁.this m₂.this
  room : m₁.callLimit + m₂.depth = m₂.callLimit + m₁.depth

theorem Placed.moved {s t : Nat} {m₁ m₂ m₁' m₂' : Machine} (h : Placed w s t m₁ m₂)
    (hle : w ≤ w') (h₁ : m₁.SamePlace m₁') (h₂ : m₂.SamePlace m₂') : Placed w' s t m₁' m₂' where
  current₁ := h₁.env ▸ h.current₁
  current₂ := h₂.env ▸ h.current₂
  this := by rw [h₁.this, h₂.this]; exact h.this.mono hle
  room := by rw [h₁.callLimit, h₂.callLimit, h₁.depth, h₂.depth]; exact h.room

/-! ## Runs that end alike -/

/-- Two runs from `m₁` and `m₂` ended alike, or neither ends. -/
inductive Related {α β : Type} (names own : String → Prop) (w : World)
    (R : World → Machine → Machine → α → β → Prop) (m₁ m₂ : Machine) :
    Option (Outcome α) → Option (Outcome β) → Prop
  | never : Related names own w R m₁ m₂ none none
  | ok {w' : World} {a : α} {b : β} {m₁' m₂' : Machine} : Grown names own w m₁ m₂ w' m₁' m₂' →
      m₁.SamePlace m₁' → m₂.SamePlace m₂' → R w' m₁' m₂' a b →
      Related names own w R m₁ m₂ (some (.ok a, m₁')) (some (.ok b, m₂'))
  | raised {w' : World} {e e' : EvalError} {m₁' m₂' : Machine} :
      Grown names own w m₁ m₂ w' m₁' m₂' → m₁.SamePlace m₁' → m₂.SamePlace m₂' → w'.RelError e e' →
      Related names own w R m₁ m₂ (some (.error e, m₁')) (some (.error e', m₂'))

/-- No names. -/
def noNames : String → Prop := fun _ => False

namespace Related

open Outcome

variable {α β γ δ : Type} {names own : String → Prop} {w w' : World}
  {R : World → Machine → Machine → α → β → Prop} {Q : World → Machine → Machine → γ → δ → Prop}
  {m₁ m₂ m₁' m₂' : Machine} {o₁ : Option (Outcome α)} {o₂ : Option (Outcome β)}

/-- Runs that go on from where others are. -/
theorem after (hg : Grown names own w m₁ m₂ w' m₁' m₂') (h₁ : m₁.SamePlace m₁')
    (h₂ : m₂.SamePlace m₂') (hr : Related names own w' R m₁' m₂' o₁ o₂) :
    Related names own w R m₁ m₂ o₁ o₂ := by
  cases hr with
  | never => exact .never
  | ok hg' h₁' h₂' hab => exact .ok (hg.trans hg') (h₁.trans h₁') (h₂.trans h₂') hab
  | raised hg' h₁' h₂' he => exact .raised (hg.trans hg') (h₁.trans h₁') (h₂.trans h₂') he

theorem imp {R' : World → Machine → Machine → α → β → Prop} (h : Related names own w R m₁ m₂ o₁ o₂)
    (hR : ∀ w' m₁' m₂' a b, R w' m₁' m₂' a b → R' w' m₁' m₂' a b) :
    Related names own w R' m₁ m₂ o₁ o₂ := by
  cases h with
  | never => exact .never
  | ok hg h₁ h₂ hab => exact .ok hg h₁ h₂ (hR _ _ _ _ _ hab)
  | raised hg h₁ h₂ he => exact .raised hg h₁ h₂ he

theorem mono {own' : String → Prop} (h : Related names own w R m₁ m₂ o₁ o₂) (hown : ∀ x, own x → own' x) :
    Related names own' w R m₁ m₂ o₁ o₂ := by
  cases h with
  | never => exact .never
  | ok hg h₁ h₂ hab => exact .ok (hg.mono hown) h₁ h₂ hab
  | raised hg h₁ h₂ he => exact .raised (hg.mono hown) h₁ h₂ he

/-- What follows runs that ended alike, which may change further names. -/
theorem bind {own' : String → Prop} (hown : ∀ x, own x → own' x)
    (h : Related names own w R m₁ m₂ o₁ o₂) {k : α → Machine → Option (Outcome γ)}
    {l : β → Machine → Option (Outcome δ)}
    (hk : ∀ w' m₁' m₂' a b, Grown names own w m₁ m₂ w' m₁' m₂' → m₁.SamePlace m₁' →
      m₂.SamePlace m₂' → R w' m₁' m₂' a b → Related names own' w' Q m₁' m₂' (k a m₁') (l b m₂')) :
    Related names own' w Q m₁ m₂ (o₁.bind (andThen k)) (o₂.bind (andThen l)) := by
  cases h with
  | never => exact .never
  | ok hg h₁ h₂ hab => exact .after (hg.mono hown) h₁ h₂ (hk _ _ _ _ _ hg h₁ h₂ hab)
  | raised hg h₁ h₂ he => exact .raised (hg.mono hown) h₁ h₂ he

/-- Runs inside a scope or a call, seen from outside. -/
theorem leaving {R' : World → Machine → Machine → α → β → Prop} {n₁ n₂ : Machine}
    {back₁ back₂ : Machine → Machine} (h₁ : Machine.LeadsBack back₁ n₁ m₁)
    (h₂ : Machine.LeadsBack back₂ n₂ m₂) (hg : Grown names own w m₁ m₂ w' n₁ n₂)
    (h : Related names own w' R n₁ n₂ o₁ o₂)
    (hR : ∀ w' m₁' m₂' a b, R w' m₁' m₂' a b → R' w' (back₁ m₁') (back₂ m₂') a b) :
    Related names own w R' m₁ m₂ (Outcome.leaving back₁ o₁) (Outcome.leaving back₂ o₂) := by
  have hback : ∀ {w'' m₁' m₂'}, Grown names own w' n₁ n₂ w'' m₁' m₂' → n₁.SamePlace m₁' →
      n₂.SamePlace m₂' → Grown names own w m₁ m₂ w'' (back₁ m₁') (back₂ m₂') := by
    intro w'' m₁' m₂' hg' hm₁ hm₂
    obtain ⟨_, hheap₁, hscopes₁, houtput₁⟩ := h₁ m₁' hm₁
    obtain ⟨_, hheap₂, hscopes₂, houtput₂⟩ := h₂ m₂' hm₂
    exact (hg.trans hg').congr hheap₁ hscopes₁ hheap₂ hscopes₂ houtput₁ houtput₂
  cases h with
  | never => exact .never
  | ok hg' hm₁ hm₂ hab =>
    exact .ok (hback hg' hm₁ hm₂) (h₁ _ hm₁).1 (h₂ _ hm₂).1 (hR _ _ _ _ _ hab)
  | raised hg' hm₁ hm₂ he => exact .raised (hback hg' hm₁ hm₂) (h₁ _ hm₁).1 (h₂ _ hm₂).1 he

end Related

/-- Two computations run alike on machines that agree and stand in the scopes `s` and `t`. -/
def Sim {α β : Type} (names : String → Prop) (w : World) (s t : Nat) (R : World → α → β → Prop)
    (f : Eval α) (g : Eval β) : Prop :=
  ∀ m₁ m₂, Placed w s t m₁ m₂ → Agree names w m₁ m₂ →
    Related names noNames w (fun w _ _ => R w) m₁ m₂ (Outcome.ofRun? (f.run.run m₁))
      (Outcome.ofRun? (g.run.run m₂))

namespace Sim

open Eval

variable {α β γ δ : Type} {names : String → Prop} {w : World} {s t : Nat} {R : World → α → β → Prop}
  {Q : World → γ → δ → Prop}

/-- A computation that leaves the machines as they are. -/
theorem keeping {f : Eval α} {g : Eval β}
    (h : ∀ m₁ m₂, Placed w s t m₁ m₂ → Agree names w m₁ m₂ → ∃ a b, f.run.run m₁ = (.ok a, m₁) ∧
      g.run.run m₂ = (.ok b, m₂) ∧ R w a b) : Sim names w s t R f g := by
  intro m₁ m₂ hp ha
  obtain ⟨a, b, h₁, h₂, hab⟩ := h m₁ m₂ hp ha
  rw [h₁, h₂]
  exact .ok (.refl ha) (.refl m₁) (.refl m₂) hab

theorem pure {a : α} {b : β} (h : R w a b) : Sim names w s t R (pure a) (pure b) :=
  keeping fun _ _ _ _ => ⟨a, b, rfl, rfl, h⟩

theorem raise (h : w.RelError e e') :
    Sim names w s t R (raise e : Eval α) (raise e' : Eval β) := by
  intro m₁ m₂ _ ha
  exact .raised (.refl ha) (.refl m₁) (.refl m₂) h

theorem typeError (fault : TypeFault) (span : Span) :
    Sim names w s t R (typeError fault span : Eval α) (typeError fault span : Eval β) :=
  raise (.type fault span)

theorem exhausted : Sim names w s t R (exhausted : Eval α) (exhausted : Eval β) :=
  fun _ _ _ _ => .never

theorem lift {r : Except EvalError α} {r' : Except EvalError β}
    (hok : ∀ a, r = .ok a → ∃ b, r' = .ok b ∧ R w a b)
    (herror : ∀ e, r = .error e → ∃ e', r' = .error e' ∧ w.RelError e e') :
    Sim names w s t R (lift r) (lift r') := by
  cases r with
  | ok a =>
    obtain ⟨b, rfl, hab⟩ := hok a rfl
    exact pure hab
  | error e =>
    obtain ⟨e', rfl, he⟩ := herror e rfl
    exact raise he

/-- That there are machines that agree may be used to prove that computations run alike. -/
theorem ofAgree {f : Eval α} {g : Eval β}
    (h : ∀ m₁ m₂, Agree names w m₁ m₂ → Sim names w s t R f g) : Sim names w s t R f g :=
  fun m₁ m₂ hp ha => h m₁ m₂ ha m₁ m₂ hp ha

theorem ofScopes {f : Eval α} {g : Eval β} (hs : w.scopes s t)
    (h : w.chains s t → Sim names w s t R f g) : Sim names w s t R f g :=
  ofAgree fun _ _ ha => h (ha.chained s t hs)

theorem bind {f : Eval α} {g : Eval β} {k : α → Eval γ} {l : β → Eval δ} (hf : Sim names w s t R f g)
    (hk : ∀ w' a b, w ≤ w' → R w' a b → Sim names w' s t Q (k a) (l b)) :
    Sim names w s t Q (f >>= k) (g >>= l) := by
  intro m₁ m₂ hp ha
  rw [ofRun?_bind, ofRun?_bind]
  refine (hf m₁ m₂ hp ha).bind (fun _ h => h) fun w' m₁' m₂' a b hg h₁ h₂ hab => ?_
  exact hk w' a b hg.le hab m₁' m₂' (hp.moved hg.le h₁ h₂) hg.agree

/-- What is done with the machines as they are. -/
theorem get {k : Machine → Eval α} {l : Machine → Eval β}
    (h : ∀ m₁ m₂, Placed w s t m₁ m₂ → Agree names w m₁ m₂ → Sim names w s t R (k m₁) (l m₂)) :
    Sim names w s t R (do k (← get)) (do l (← get)) := by
  intro m₁ m₂ hp ha
  rw [run_bind_ok (run_get m₁), run_bind_ok (run_get m₂)]
  exact h m₁ m₂ hp ha m₁ m₂ hp ha

theorem map {f : Eval α} {g : Eval β} {k : α → γ} {l : β → δ} (hf : Sim names w s t R f g)
    (hk : ∀ w' a b, w ≤ w' → R w' a b → Q w' (k a) (l b)) :
    Sim names w s t Q (do return k (← f)) (do return l (← g)) :=
  hf.bind fun w' a b hle hab => pure (hk w' a b hle hab)

theorem imp {Q : World → α → β → Prop} {f : Eval α} {g : Eval β} (h : Sim names w s t R f g)
    (hQ : ∀ w' a b, R w' a b → Q w' a b) : Sim names w s t Q f g := by
  intro m₁ m₂ hp ha
  exact (h m₁ m₂ hp ha).imp fun w' _ _ => hQ w'

/-- Errors become values. -/
theorem attempt {f g : Eval Flow} (h : Sim names w s t World.RelFlow f g) :
    Sim names w s t World.RelResult (attempt f) (attempt g) := by
  intro m₁ m₂ hp ha
  have hrun := h m₁ m₂ hp ha
  rw [ofRun?_attempt, ofRun?_attempt]
  generalize Outcome.ofRun? (f.run.run m₁) = o₁ at hrun
  generalize Outcome.ofRun? (g.run.run m₂) = o₂ at hrun
  cases hrun with
  | never => exact .never
  | ok hg h₁ h₂ hab => exact .ok hg h₁ h₂ hab
  | raised hg h₁ h₂ he => exact .ok hg h₁ h₂ he

/-! ## Lists -/

theorem mapM {r : γ → δ → Prop} {as : List γ} {bs : List δ} {f : γ → Eval α} {g : δ → Eval β}
    (hmono : ∀ {w w' a b}, w ≤ w' → R w a b → R w' a b) (hr : List.Forall₂ r as bs)
    (h : ∀ a b, r a b → ∀ w', w ≤ w' → Sim names w' s t R (f a) (g b)) :
    Sim names w s t (fun w => List.Forall₂ (R w)) (as.mapM f) (bs.mapM g) := by
  induction hr generalizing w with
  | nil => exact pure .nil
  | cons hab _ ih =>
    rw [List.mapM_cons, List.mapM_cons]
    refine (h _ _ hab w w.le_refl).bind fun w₁ x y hle hxy => ?_
    have htail := ih fun a b hr w₂ hle₂ => h a b hr w₂ (World.le_trans hle hle₂)
    exact htail.map fun w₂ _ _ hle₂ hrest => .cons (hmono hle₂ hxy) hrest

theorem foldlM {as : List γ} {f : α → γ → Eval α} {g : β → γ → Eval β} {a : α} {b : β}
    (hab : R w a b)
    (h : ∀ c ∈ as, ∀ w' a b, w ≤ w' → R w' a b → Sim names w' s t R (f a c) (g b c)) :
    Sim names w s t R (as.foldlM f a) (as.foldlM g b) := by
  induction as generalizing w a b with
  | nil => exact pure hab
  | cons c as ih =>
    rw [List.foldlM_cons, List.foldlM_cons]
    refine (h c List.mem_cons_self w a b w.le_refl hab).bind fun w₁ x y hle hxy => ?_
    exact ih hxy fun d hd w₂ x y hle₂ =>
      h d (List.mem_cons_of_mem c hd) w₂ x y (World.le_trans hle hle₂)

theorem forM {as : List γ} {f g : γ → Eval Unit}
    (h : ∀ a ∈ as, ∀ w', w ≤ w' → Sim names w' s t (fun _ => Eq) (f a) (g a)) :
    Sim names w s t (fun _ => Eq) (as.forM f) (as.forM g) := by
  induction as generalizing w with
  | nil => exact pure rfl
  | cons a as ih =>
    refine (h a List.mem_cons_self w w.le_refl).bind fun w₁ _ _ hle _ => ?_
    exact ih fun b hb w₂ hle₂ => h b (List.mem_cons_of_mem a hb) w₂ (World.le_trans hle hle₂)

theorem sequence {ss : List Stmt} {f g : Stmt → Eval Flow}
    (h : ∀ a ∈ ss, ∀ w', w ≤ w' → Sim names w' s t World.RelFlow (f a) (g a)) :
    Sim names w s t World.RelFlow (sequence f ss) (sequence g ss) := by
  induction ss generalizing w with
  | nil => exact pure .normal
  | cons a as ih =>
    rw [Eval.sequence, Eval.sequence]
    refine (h a List.mem_cons_self w w.le_refl).bind fun w₁ x y hle hxy => ?_
    cases hxy with
    | normal => exact ih fun b hb w₂ hle₂ => h b (List.mem_cons_of_mem a hb) w₂ (World.le_trans hle hle₂)
    | ret hv => exact pure (.ret hv)
    | breakTo label => exact pure (.breakTo label)
    | continueTo label => exact pure (.continueTo label)

/-! ## Scopes and frames -/

/-- In a scope of their own, computations stand in new scopes that bind the same names. -/
theorem withScope {f : Eval α} {g : Eval β} (hst : w.chains s t)
    (h : ∀ w' s' t', w ≤ w' → w'.scopes s' t' → Sim names w' s' t' R f g) :
    Sim names w s t R (withScope f) (withScope g) := by
  intro m₁ m₂ hp ha
  have hg : Grown names noNames w m₁ m₂ (w.withScope m₁.scopes.count m₂.scopes.count) m₁.entered
      m₂.entered := by
    have hd : Grown names noNames w m₁ m₂ _ _ _ := ha.deepened hst
    rw [← hp.current₁, ← hp.current₂] at hd
    exact hd.congr rfl rfl rfl rfl rfl rfl
  have hplace : Placed (w.withScope m₁.scopes.count m₂.scopes.count) m₁.scopes.count m₂.scopes.count
      m₁.entered m₂.entered := ⟨rfl, rfl, hp.this.mono hg.le, hp.room⟩
  have hrun := h _ _ _ hg.le (.inr ⟨rfl, rfl⟩) _ _ hplace hg.agree
  rw [ofRun?_withScope, ofRun?_withScope]
  exact hrun.leaving m₁.leadsBack_left m₂.leadsBack_left hg fun _ _ _ _ _ hab => hab

/-- The bodies of functions stand in new scopes too, inside the ones that the functions kept. -/
theorem withFrame {f : Eval α} {g : Eval β} {c d : Nat} {this this' : Value} (hcd : w.chains c d)
    (hthis : w.Rel this this')
    (h : ∀ w' s' t', w ≤ w' → w'.scopes s' t' → Sim names w' s' t' R f g) :
    Sim names w s t R (withFrame c this f) (withFrame d this' g) := by
  intro m₁ m₂ hp ha
  have hg : Grown names noNames w m₁ m₂ (w.withScope m₁.scopes.count m₂.scopes.count)
      (m₁.called c this) (m₂.called d this') := (ha.deepened hcd).congr rfl rfl rfl rfl rfl rfl
  have hplace : Placed (w.withScope m₁.scopes.count m₂.scopes.count) m₁.scopes.count m₂.scopes.count
      (m₁.called c this) (m₂.called d this') := by
    refine ⟨rfl, rfl, hthis.mono hg.le, ?_⟩
    have := hp.room
    show m₁.callLimit + (m₂.depth + 1) = m₂.callLimit + (m₁.depth + 1)
    omega
  have hrun := h _ _ _ hg.le (.inr ⟨rfl, rfl⟩) _ _ hplace hg.agree
  rw [ofRun?_withFrame, ofRun?_withFrame]
  exact hrun.leaving (m₁.leadsBack_returned c this) (m₂.leadsBack_returned d this') hg
    fun _ _ _ _ _ hab => hab

end Sim

end MatchChain
