import MatchChain.Proofs.Code.Tests
import MatchChain.Proofs.Simulation.Interpreter

/-!
# Steps of one machine alone

Runs that end alike may differ in steps that only the first machine takes: it makes cells that nothing
refers to, enters scopes of its own and binds names that the code does not use. Runs with as many steps
as they need end alike if they do so with any number of steps.
-/

set_option autoImplicit false

namespace MatchChain

variable {x : String}

open Eval

variable {names own : String → Prop} {w : World} {s t : Nat} {m₁ m₂ : Machine}

/-- Computations that run alike with any number of steps do so with as many as they need. -/
theorem Related.ofSim {α β : Type} {R : World → α → β → Prop} {f : Nat → Eval α} {g : Nat → Eval β}
    (hf : Growing f) (hg : Growing g) (h : ∀ n, Sim names w s t R (f n) (g n))
    (hp : Placed w s t m₁ m₂) (ha : Agree names w m₁ m₂) :
    Related names noNames w (fun w _ _ => R w) m₁ m₂ (limit f m₁) (limit g m₂) := by
  cases hlimit : limit f m₁ with
  | some r =>
    obtain ⟨n, hn⟩ := limit_eq_some.mp hlimit
    have hrun := h n m₁ m₂ hp ha
    rw [hn n (Nat.le_refl n)] at hrun
    cases hrun' : Outcome.ofRun? ((g n).run.run m₂) with
    | none =>
      rw [hrun'] at hrun
      cases hrun
    | some r' =>
      rw [hrun'] at hrun
      rw [limit_eq_some.mpr (hg.ends hrun')]
      exact hrun
  | none =>
    cases hlimit' : limit g m₂ with
    | none => exact .never
    | some r' =>
      obtain ⟨n, hn⟩ := limit_eq_some.mp hlimit'
      have hrun := h n m₁ m₂ hp ha
      rw [hn n (Nat.le_refl n)] at hrun
      cases hrun' : Outcome.ofRun? ((f n).run.run m₁) with
      | none =>
        rw [hrun'] at hrun
        cases hrun
      | some r =>
        rw [limit_eq_some.mpr (hf.ends hrun')] at hlimit
        cases hlimit

/-! ## Names that are not touched -/

/-- A name that nothing binds anew is found where it was. -/
theorem Kept.owner? {cells : Nat → Prop} {bindings : Nat → String → Prop} {m m' : Machine}
    (h : Kept cells bindings m m') (ho : m.scopes.Ordered) (ho' : m'.scopes.Ordered)
    (hx : ∀ i, ¬ bindings i x) {id : Nat} (hid : id < m.scopes.count) :
    m'.scopes.owner? id x = m.scopes.owner? id x :=
  Scopes.owner?_congr ho ho' (fun i hi => h.binding i (by omega) x (hx i))
    fun i hi => h.parent i (by omega)

theorem Grown.owner? {w' : World} {m₁' m₂' : Machine} (h : Grown names noNames w m₁ m₂ w' m₁' m₂')
    (ha : Agree names w m₁ m₂) (hx : ¬ names x) {id : Nat}
    (hid : id < m₁.scopes.count) : m₁'.scopes.owner? id x = m₁.scopes.owner? id x :=
  h.kept₁.owner? ha.ordered₁ h.agree.ordered₁ (fun _ hc => hc.elim False.elim fun hc => hx hc.1) hid

/-! ## Scopes, bindings and cells -/

namespace Agree

/-- The first machine enters a scope. -/
theorem entered_left (h : Agree names w m₁ m₂) (hst : w.chains m₁.env.current t) :
    Grown names own w m₁ m₂ (w.withChain m₁.scopes.count t) m₁.entered m₂ :=
  (h.deepened_left hst).congr rfl rfl rfl rfl rfl rfl

/-- The first machine enters a call. -/
theorem called_left (h : Agree names w m₁ m₂) (hst : w.chains s t) (this : Value) :
    Grown names own w m₁ m₂ (w.withChain m₁.scopes.count t) (m₁.called s this) m₂ :=
  (h.deepened_left hst).congr rfl rfl rfl rfl rfl rfl

/-- The first machine binds a name of its own. -/
theorem defined_own (h : Agree names w m₁ m₂) (hx : ¬ names x) (hown : own x)
    (scope : Nat) (v : Variable) : Grown names own w m₁ m₂ w (m₁.defined scope x v) m₂ where
  le := w.le_refl
  newCell _ _ hc := .inl hc
  newScope _ _ hs := .inl hs
  kept₁ := m₁.kept_defined _ (.inl hown) v
  kept₂ := .refl ..
  agree := h.defined_left hx scope v

/-- The second machine does. -/
theorem defined_own_right (h : Agree names w m₁ m₂) (hx : ¬ names x) (hown : own x)
    (scope : Nat) (v : Variable) : Grown names own w m₁ m₂ w m₁ (m₂.defined scope x v) where
  le := w.le_refl
  newCell _ _ hc := .inl hc
  newScope _ _ hs := .inl hs
  kept₁ := .refl ..
  kept₂ := m₂.kept_defined _ (.inl hown) v
  agree := h.defined_right hx scope v

/-- The first machine reads built-in methods. -/
theorem spawned_left (h : Agree names w m₁ m₂) {m₁' : Machine} (hs : m₁.Spawned m₁') :
    Grown names own w m₁ m₂ w m₁' m₂ := by
  obtain ⟨heap, hspawn, rfl⟩ := hs
  refine ⟨w.le_refl, fun _ _ hc => .inl hc, fun _ _ hs => .inl hs, ?_, .refl .., ?_⟩
  · have hsize : m₁.heap.size ≤ heap.size := by
      obtain ⟨made, _, heq⟩ := hspawn
      unfold Heap.size
      rw [heq, Array.size_append]
      exact Nat.le_add_right _ _
    refine ⟨hsize, Nat.le_refl _, fun i hi _ => ?_, fun _ _ => rfl, fun _ _ _ _ => rfl⟩
    have hcell := Array.getElem?_eq_getElem hi
    rw [hspawn.cell hcell, hcell]
  · refine h.ofHeaps (fun _ _ hc => hc) h.oneCell fun i j hc => ?_
    obtain ⟨c, d, hi, hj, hcd⟩ := h.cells i j hc
    exact ⟨c, d, hspawn.cell hi, hj, hcd⟩

end Agree

theorem Machine.Spawned.samePlace {m m' : Machine} (h : m.Spawned m') : m.SamePlace m' := by
  obtain ⟨heap, _, rfl⟩ := h
  exact ⟨rfl, rfl, rfl, rfl⟩

theorem Machine.samePlace_defined (m : Machine) (scope : Nat) (x : String) (v : Variable) :
    m.SamePlace (m.defined scope x v) := ⟨rfl, rfl, rfl, rfl⟩

theorem Machine.samePlace_allocated (m : Machine) (c : Cell) : m.SamePlace (m.allocated c) :=
  ⟨rfl, rfl, rfl, rfl⟩

/-! ## Machines that are about to run the same code -/

/-- The variable that a name refers to, and the scope that binds it. -/
def Machine.owner? (m : Machine) (x : String) : Option (Nat × Variable) :=
  m.scopes.owner? m.env.current x

theorem Machine.lookup?_of_owner? {m : Machine} {a : Nat} {u : Variable}
    (h : m.owner? x = some (a, u)) : m.lookup? x = some u.value := by
  show (m.owner? x).map _ = _
  rw [h]
  rfl

/-- Machines that agree, and stand where the same is seen. -/
structure Aligned (names : String → Prop) (w : World) (m₁ m₂ : Machine) : Prop where
  agree : Agree names w m₁ m₂
  chained : w.chains m₁.env.current m₂.env.current
  this : w.Rel m₁.this m₂.this
  room : m₁.callLimit + m₂.depth = m₂.callLimit + m₁.depth

namespace Aligned

variable {w' : World} {m₁' m₂' : Machine}

theorem placed (h : Aligned names w m₁ m₂) : Placed w m₁.env.current m₂.env.current m₁ m₂ :=
  ⟨rfl, rfl, h.this, h.room⟩

theorem current_lt (h : Aligned names w m₁ m₂) : m₁.env.current < m₁.scopes.count :=
  (h.agree.inBounds _ _ h.chained).1

/-- A name that is bound in the current scope is found there. -/
theorem lookup?_of_binding (h : Aligned names w m₁ m₂) {u : Variable}
    (hb : m₁.scopes.binding m₁.env.current x = some u) : m₁.lookup? x = some u.value := by
  refine Machine.lookup?_of_owner? (a := m₁.env.current) ?_
  unfold Machine.owner?
  rw [Scopes.owner?_eq h.agree.ordered₁, hb]

theorem moved (h : Aligned names w m₁ m₂) (hg : Grown names own w m₁ m₂ w' m₁' m₂')
    (h₁ : m₁.SamePlace m₁') (h₂ : m₂.SamePlace m₂') : Aligned names w' m₁' m₂' := by
  have hp := h.placed.moved hg.le h₁ h₂
  refine ⟨hg.agree, ?_, hp.this, hp.room⟩
  rw [h₁.env, h₂.env]
  exact hg.le.2.2 _ _ h.chained

theorem entered_left (h : Aligned names w m₁ m₂) :
    Aligned names (w.withChain m₁.scopes.count m₂.env.current) m₁.entered m₂ :=
  have hg : Grown names noNames w m₁ m₂ _ m₁.entered m₂ := h.agree.entered_left h.chained
  ⟨hg.agree, .inr ⟨rfl, rfl⟩, h.this.mono hg.le, h.room⟩

/-- The first machine is back from a scope that it entered. -/
theorem left_of_entered (h : Aligned names w m₁ m₂)
    (hg : Grown names own (w.withChain m₁.scopes.count m₂.env.current) m₁.entered m₂ w' m₁' m₂')
    (h₁ : m₁.entered.SamePlace m₁') :
    Grown names own w m₁ m₂ w' m₁'.left m₂' ∧ m₁.SamePlace m₁'.left :=
  ⟨((h.agree.entered_left h.chained).trans hg).congr rfl rfl rfl rfl rfl rfl,
    (m₁.leadsBack_left m₁' h₁).1⟩

/-- The same code runs alike. -/
theorem run {α β : Type} {R : World → α → β → Prop} {f : Nat → Eval α} {g : Nat → Eval β}
    (h : Aligned names w m₁ m₂) (hf : Growing f) (hg : Growing g)
    (hsim : ∀ n, Sim names w m₁.env.current m₂.env.current R (f n) (g n)) :
    Related names noNames w (fun w _ _ => R w) m₁ m₂ (limit f m₁) (limit g m₂) :=
  .ofSim hf hg hsim h.placed h.agree

/-- Code that does not use a name leaves its variable as it is. -/
theorem owner? (h : Aligned names w m₁ m₂) (hg : Grown names noNames w m₁ m₂ w' m₁' m₂')
    (h₁ : m₁.SamePlace m₁') (hx : ¬ names x) : m₁'.owner? x = m₁.owner? x := by
  unfold Machine.owner?
  rw [h₁.env]
  exact hg.owner? h.agree hx h.current_lt

theorem owner?_entered (h : Aligned names w m₁ m₂) (x : String) :
    m₁.entered.owner? x = m₁.owner? x :=
  Scopes.owner?_alloc_self h.agree.ordered₁ h.current_lt x

end Aligned

end MatchChain
