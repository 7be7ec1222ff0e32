import MatchChain.Proofs.Simulation.OneSided

/-!
# Machines that agree with themselves

A machine agrees with itself if all that it holds refers to cells and scopes that there are, and the
code of its functions is within the names. The machine that has run nothing yet does so for any names.
-/

set_option autoImplicit false

namespace MatchChain

/-- The cell that a value refers to, if it is a reference, is one of the first `n`. -/
def Value.Below (n : Nat) : Value → Prop
  | .array cell | .object cell | .function cell => cell < n
  | .undefined | .null | .bool _ | .number _ | .bigint _ | .str _ => True

instance (n : Nat) (v : Value) : Decidable (v.Below n) := by
  cases v <;> unfold Value.Below <;> infer_instance

/-- A cell that refers to the first `n` cells and, with code within the names, to the first `k` scopes. -/
def Cell.Below (names : String → Prop) (n k : Nat) : Cell → Prop
  | .items vs => ∀ v ∈ vs, v.Below n
  | .fields fs => ∀ p ∈ fs, p.2.Below n
  | .closure c => c.fn.Within names ∧ c.scope < k ∧ ∀ v ∈ c.this, v.Below n
  | .native _ v => v.Below n

/-- All that a machine holds is there, and within the names. -/
structure Machine.Closed (names : String → Prop) (m : Machine) : Prop where
  cells : ∀ c ∈ m.heap.cells, c.Below names m.heap.size m.scopes.count
  bindings : ∀ s x v, m.scopes.binding s x = some v → v.value.Below m.heap.size
  ordered : m.scopes.Ordered
  current : m.env.current < m.scopes.count
  this : m.this.Below m.heap.size

/-- Each of the first cells and scopes stands for itself. -/
def World.same (cells scopes : Nat) : World where
  cells i j := i = j ∧ i < cells
  scopes s t := s = t ∧ s < scopes
  chains s t := s = t ∧ s < scopes

theorem Value.Below.rel {n k : Nat} {v : Value} (h : v.Below n) : (World.same n k).Rel v v := by
  cases v with
  | array => exact .array ⟨rfl, h⟩
  | object => exact .object ⟨rfl, h⟩
  | function => exact .function ⟨rfl, h⟩
  | undefined | null | bool | number | bigint | str => exact .plain rfl

theorem Cell.Below.rel {names : String → Prop} {n k : Nat} {c : Cell} (h : c.Below names n k) :
    (World.same n k).RelCell names c c := by
  cases c with
  | items vs => exact .items (List.forall₂_same.mpr fun v hv => (h v hv).rel)
  | fields fs => exact .fields (List.forall₂_same.mpr fun p hp => ⟨rfl, (h p hp).rel⟩)
  | native fn v => exact .native (Value.Below.rel h)
  | closure c =>
    obtain ⟨fn, scope, this⟩ := c
    obtain ⟨hfn, hscope, hthis⟩ := h
    refine .closure hfn ⟨rfl, hscope⟩ ?_
    cases this with
    | none => exact .none
    | some this => exact .some (hthis this rfl).rel

/-- Some of the cells and scopes stand for themselves. -/
def World.on (cells scopes : Nat → Prop) : World where
  cells i j := i = j ∧ cells i
  scopes s t := s = t ∧ scopes s
  chains s t := s = t ∧ scopes s

/-- A machine agrees with itself on cells and scopes that refer to no others. -/
theorem Agree.on {names : String → Prop} {cells scopes : Nat → Prop} {m : Machine}
    (hcells : ∀ i, cells i → ∃ c, m.heap.cells[i]? = some c ∧ (World.on cells scopes).RelCell names c c)
    (hscopes : ∀ s, scopes s → s < m.scopes.count)
    (hparents : ∀ s p, scopes s → m.scopes.parent s = some p → scopes p)
    (hvalues : ∀ s x v, scopes s → m.scopes.binding s x = some v → (World.on cells scopes).Rel v.value v.value)
    (hordered : m.scopes.Ordered) : Agree names (World.on cells scopes) m m where
  oneCell i j i' j' := by
    rintro ⟨rfl, _⟩ ⟨rfl, _⟩
    exact Iff.rfl
  oneScope s t s' t' := by
    rintro ⟨rfl, _⟩ ⟨rfl, _⟩
    exact Iff.rfl
  cells i j := by
    rintro ⟨rfl, hi⟩
    obtain ⟨c, hc, hrel⟩ := hcells i hi
    exact ⟨c, c, hc, hc, hrel⟩
  inBounds s t := by
    rintro ⟨rfl, hs⟩
    exact ⟨hscopes s hs, hscopes s hs⟩
  chained _ _ hs := hs
  parents s t := by
    rintro ⟨rfl, hs⟩
    cases hp : m.scopes.parent s with
    | none => exact .none
    | some p => exact .some ⟨rfl, hparents s p hs hp⟩
  bindings s t := by
    rintro ⟨rfl, hs⟩ x _
    cases hb : m.scopes.binding s x with
    | none => exact .none
    | some v => exact .some ⟨hvalues s x v hs hb, rfl⟩
  seen _ _ hs := .both hs
  ordered₁ := hordered
  ordered₂ := hordered
  output := rfl

namespace Machine.Closed

variable {names : String → Prop} {m : Machine}

/-- A closed machine agrees with itself. -/
theorem agree (h : m.Closed names) :
    Agree names (World.same m.heap.size m.scopes.count) m m := by
  refine Agree.on (fun i hi => ?_) (fun _ hs => hs) (fun s p hs hp => ?_) (fun s x v _ hb => ?_) h.ordered
  · have hcell := Array.getElem?_eq_getElem hi
    exact ⟨_, hcell, (h.cells _ (Array.mem_of_getElem? hcell)).rel⟩
  · exact Nat.lt_trans (h.ordered s p hp) hs
  · exact (h.bindings s x v hb).rel

theorem aligned (h : m.Closed names) :
    Aligned names (World.same m.heap.size m.scopes.count) m m :=
  ⟨h.agree, ⟨rfl, h.current⟩, h.this.rel, rfl⟩

end Machine.Closed

/-- The machine that has run nothing yet is closed. -/
theorem Machine.closed_initial (names : String → Prop) : Machine.initial.Closed names := by
  have hsize : Machine.initial.heap.size = 10 := by
    show Machine.initial.heap.cells.size = 10
    rw [Machine.initial_cells]
    rfl
  have hcount : Machine.initial.scopes.count = 1 := by decide +kernel
  have hparent : Machine.initial.scopes.parent 0 = none := by decide +kernel
  have hvalues : ∀ p ∈ (Machine.initial.scopes.scope 0).bindings, p.2.value.Below 10 := by
    decide +kernel
  refine ⟨?_, ?_, ?_, ?_, ?_⟩
  · rw [hsize, Machine.initial_cells]
    simp [Cell.Below, Value.Below]
  · intro s x v hv
    rw [hsize]
    cases s with
    | zero =>
      obtain ⟨before, after, hsplit, _⟩ := List.lookup_eq_some_iff.mp hv
      exact hvalues (x, v) (by rw [hsplit]; simp)
    | succ s =>
      rw [Scopes.binding_of_count_le (by omega)] at hv
      cases hv
  · intro s p hp
    cases s with
    | zero =>
      rw [hparent] at hp
      cases hp
    | succ s =>
      rw [Scopes.parent_of_count_le (by omega)] at hp
      cases hp
  · decide +kernel
  · decide +kernel

end MatchChain
