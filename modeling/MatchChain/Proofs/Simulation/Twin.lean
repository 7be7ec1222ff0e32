import MatchChain.Proofs.Simulation.OneSided

/-!
# Runs that end side by side

`Related` says nothing about the machines that an error leaves behind. Where errors are caught, what is
needed of the machines has to hold after an error too: `Twin` relates how two runs ended, with a value or with
an error, together with what they left.
-/

set_option autoImplicit false

namespace MatchChain

open Eval Outcome

/-- Both ended with values that are related, or both with the same error. -/
def World.RelExcept {α β : Type} (R : World → α → β → Prop) (w : World) :
    Except EvalError α → Except EvalError β → Prop
  | .ok a, .ok b => R w a b
  | .error e, .error e' => w.RelError e e'
  | _, _ => False

/-- Two runs from `m₁` and `m₂` ended as `S` says, or neither ends. -/
inductive Twin {α β : Type} (names own : String → Prop) (w : World)
    (S : World → Machine → Machine → Except EvalError α → Except EvalError β → Prop) (m₁ m₂ : Machine) :
    Option (Outcome α) → Option (Outcome β) → Prop
  | never : Twin names own w S m₁ m₂ none none
  | ended {w' : World} {r : Except EvalError α} {r' : Except EvalError β} {m₁' m₂' : Machine} :
      Grown names own w m₁ m₂ w' m₁' m₂' → m₁.SamePlace m₁' → m₂.SamePlace m₂' → S w' m₁' m₂' r r' →
      Twin names own w S m₁ m₂ (some (r, m₁')) (some (r', m₂'))

namespace Twin

variable {α β γ δ : Type} {names own : String → Prop} {w w' : World}
  {S S' : World → Machine → Machine → Except EvalError α → Except EvalError β → Prop}
  {Q : World → Machine → Machine → Except EvalError γ → Except EvalError δ → Prop}
  {m₁ m₂ m₁' m₂' : Machine} {o₁ : Option (Outcome α)} {o₂ : Option (Outcome β)}

/-- Runs that are over at once. -/
theorem here (ha : Agree names w m₁ m₂) {r : Except EvalError α} {r' : Except EvalError β}
    (h : S w m₁ m₂ r r') : Twin names own w S m₁ m₂ (some (r, m₁)) (some (r', m₂)) :=
  .ended (.refl ha) (.refl m₁) (.refl m₂) h

theorem mono {own' : String → Prop} (h : Twin names own w S m₁ m₂ o₁ o₂) (hown : ∀ x, own x → own' x) :
    Twin names own' w S m₁ m₂ o₁ o₂ := by
  cases h with
  | never => exact .never
  | ended hg h₁ h₂ hr => exact .ended (hg.mono hown) h₁ h₂ hr

theorem imp (h : Twin names own w S m₁ m₂ o₁ o₂)
    (hS : ∀ w' m₁' m₂' r r', Grown names own w m₁ m₂ w' m₁' m₂' → m₁.SamePlace m₁' → m₂.SamePlace m₂' →
      S w' m₁' m₂' r r' → S' w' m₁' m₂' r r') : Twin names own w S' m₁ m₂ o₁ o₂ := by
  cases h with
  | never => exact .never
  | ended hg h₁ h₂ hr => exact .ended hg h₁ h₂ (hS _ _ _ _ _ hg h₁ h₂ hr)

/-- Runs that go on from where others are. -/
theorem after (hg : Grown names own w m₁ m₂ w' m₁' m₂') (h₁ : m₁.SamePlace m₁') (h₂ : m₂.SamePlace m₂')
    (hr : Twin names own w' S m₁' m₂' o₁ o₂) : Twin names own w S m₁ m₂ o₁ o₂ := by
  cases hr with
  | never => exact .never
  | ended hg' h₁' h₂' hr => exact .ended (hg.trans hg') (h₁.trans h₁') (h₂.trans h₂') hr

/-- What follows runs that ended side by side, which may change further names. -/
theorem bind {own' : String → Prop} (hown : ∀ x, own x → own' x) (h : Twin names own w S m₁ m₂ o₁ o₂)
    {k : Outcome α → Option (Outcome γ)} {l : Outcome β → Option (Outcome δ)}
    (hk : ∀ w' m₁' m₂' r r', Grown names own w m₁ m₂ w' m₁' m₂' → m₁.SamePlace m₁' → m₂.SamePlace m₂' →
      S w' m₁' m₂' r r' → Twin names own' w' Q m₁' m₂' (k (r, m₁')) (l (r', m₂'))) :
    Twin names own' w Q m₁ m₂ (o₁.bind k) (o₂.bind l) := by
  cases h with
  | never => exact .never
  | ended hg h₁ h₂ hr => exact .after (hg.mono hown) h₁ h₂ (hk _ _ _ _ _ hg h₁ h₂ hr)

/-- Runs inside a scope or a call, seen from outside. -/
theorem leaving {n₁ n₂ : Machine} {back₁ back₂ : Machine → Machine} (h₁ : Machine.LeadsBack back₁ n₁ m₁)
    (h₂ : Machine.LeadsBack back₂ n₂ m₂) (hg : Grown names own w m₁ m₂ w' n₁ n₂)
    (h : Twin names own w' S n₁ n₂ o₁ o₂)
    (hS : ∀ w'' m₁' m₂' r r', Grown names own w' n₁ n₂ w'' m₁' m₂' → n₁.SamePlace m₁' → n₂.SamePlace m₂' →
      Grown names own w m₁ m₂ w'' (back₁ m₁') (back₂ m₂') → S w'' m₁' m₂' r r' →
      S' w'' (back₁ m₁') (back₂ m₂') r r') :
    Twin names own w S' m₁ m₂ (Outcome.leaving back₁ o₁) (Outcome.leaving back₂ o₂) := by
  cases h with
  | never => exact .never
  | ended hg' hm₁ hm₂ hr =>
    obtain ⟨hp₁, hheap₁, hscopes₁, houtput₁⟩ := h₁ _ hm₁
    obtain ⟨hp₂, hheap₂, hscopes₂, houtput₂⟩ := h₂ _ hm₂
    have hback := (hg.trans hg').congr hheap₁ hscopes₁ hheap₂ hscopes₂ houtput₁ houtput₂
    exact .ended hback hp₁ hp₂ (hS _ _ _ _ _ hg' hm₁ hm₂ hback hr)

/-- What the second run ended with may be used too. -/
theorem withEnd (h : Twin names own w S m₁ m₂ o₁ o₂) :
    Twin names own w (fun w m₁' m₂' r r' => S w m₁' m₂' r r' ∧ o₂ = some (r', m₂')) m₁ m₂ o₁ o₂ := by
  cases h with
  | never => exact .never
  | ended hg h₁ h₂ hr => exact .ended hg h₁ h₂ ⟨hr, rfl⟩

/-- Runs that end side by side within any bound do so without a bound. -/
theorem ofBounded {F : Nat → Option (Outcome α)} {G : Nat → Option (Outcome β)}
    (hF : ∀ r, o₁ = some r ↔ ∃ k, F k = some r) (hG : ∀ r, o₂ = some r ↔ ∃ k, G k = some r)
    (h : ∀ k, Twin names own w S m₁ m₂ (F k) (G k)) : Twin names own w S m₁ m₂ o₁ o₂ := by
  cases o₁ with
  | some r =>
    obtain ⟨k, hk⟩ := (hF r).mp rfl
    have hrun := h k
    rw [hk] at hrun
    cases hk' : G k with
    | none =>
      rw [hk'] at hrun
      cases hrun
    | some r' =>
      rw [hk'] at hrun
      rw [(hG r').mpr ⟨k, hk'⟩]
      exact hrun
  | none =>
    cases o₂ with
    | none => exact .never
    | some r' =>
      obtain ⟨k, hk⟩ := (hG r').mp rfl
      have hrun := h k
      rw [hk] at hrun
      cases hk' : F k with
      | none =>
        rw [hk'] at hrun
        cases hrun
      | some r => cases (hF r).mpr ⟨k, hk'⟩

end Twin

theorem Related.twin {α β : Type} {names own : String → Prop} {w : World} {R : World → α → β → Prop}
    {m₁ m₂ : Machine} {o₁ : Option (Outcome α)} {o₂ : Option (Outcome β)}
    (h : Related names own w (fun w _ _ => R w) m₁ m₂ o₁ o₂) :
    Twin names own w (fun w _ _ => w.RelExcept R) m₁ m₂ o₁ o₂ := by
  cases h with
  | never => exact .never
  | ok hg h₁ h₂ hab => exact .ended hg h₁ h₂ hab
  | raised hg h₁ h₂ he => exact .ended hg h₁ h₂ he

/-! ## Constants that stay -/

/-- With as many steps as it needs, too, a run declares no names but `D` where it stands. -/
theorem Eval.declares_of_limit {α : Type} {D : String → Prop} {f : Nat → Eval α} (h : ∀ n, Balanced D (f n))
    {m m' : Machine} {r : Except EvalError α} (hrun : limit f m = some (r, m')) : m.Declares D m' := by
  obtain ⟨n, hn⟩ := eventually_of_limit hrun
  have hdeclares := h n m
  rw [hn n (Nat.le_refl n)] at hdeclares
  exact hdeclares

/-- A constant is found where it was if its name is not declared. -/
theorem Machine.Declares.owner? {D : String → Prop} {m m' : Machine} (h : m.Declares D m')
    (ho : m.scopes.Ordered) (ho' : m'.scopes.Ordered) (hcurrent : m.env.current < m.scopes.count) {x : String}
    (hx : ¬ D x) {a : Nat} {v : Variable} (howner : m.owner? x = some (a, v)) (hv : v.isMutable = false) :
    m'.owner? x = some (a, v) := by
  obtain ⟨hbinding, hle⟩ := Scopes.binding_of_owner? ho howner
  unfold Machine.owner?
  rw [h.place.env]
  refine Scopes.owner?_of_bound ho ho' ?_ (fun i hi => ?_) (fun i hi => ?_) howner
  · exact (h.others a (Nat.lt_of_le_of_lt hle hcurrent) x hx).constant v hbinding hv
  · exact (h.others i (Nat.lt_of_le_of_lt hi hcurrent) x hx).bound
  · exact h.parents i (Nat.lt_of_le_of_lt hi hcurrent)

end MatchChain
