import Mathlib.Data.List.Forall2
import MatchChain.Proofs.Eval.Run
import MatchChain.Proofs.Eval.Scopes
import MatchChain.Proofs.Simulation.Names

/-!
# Two machines side by side

Two runs of the same code from machines that differ in what the code cannot see: which numbers cells
and scopes have, cells that nothing refers to, scopes that bind none of the code's names, and what the
other names are bound to. A `World` says which cells and scopes stand for each other. `Agree` says that
the machines hold the same as far as the world and a set of names reach, and `Grown` that a world was
extended, by cells and scopes that are new, while everything out of its reach stayed as it was.
-/

set_option autoImplicit false

namespace MatchChain

/-- What stands for what in two machines. -/
structure World where
  cells : Nat → Nat → Prop
  /-- Scopes that bind the same names. -/
  scopes : Nat → Nat → Prop
  /-- Scopes from which the same variables are seen. -/
  chains : Nat → Nat → Prop

namespace World

instance : LE World where
  le w w' := (∀ i j, w.cells i j → w'.cells i j) ∧ (∀ s t, w.scopes s t → w'.scopes s t) ∧
    ∀ s t, w.chains s t → w'.chains s t

theorem le_refl (w : World) : w ≤ w := ⟨fun _ _ h => h, fun _ _ h => h, fun _ _ h => h⟩

theorem le_trans {w w' w'' : World} (h : w ≤ w') (h' : w' ≤ w'') : w ≤ w'' :=
  ⟨fun i j hc => h'.1 i j (h.1 i j hc), fun s t hs => h'.2.1 s t (h.2.1 s t hs),
    fun s t hc => h'.2.2 s t (h.2.2 s t hc)⟩

variable {w w' : World}

/-- Both values are the same, or refer to cells that stand for each other. -/
inductive Rel (w : World) : Value → Value → Prop
  | plain {v : Value} : v.isReference = false → Rel w v v
  | array {i j : Nat} : w.cells i j → Rel w (.array i) (.array j)
  | object {i j : Nat} : w.cells i j → Rel w (.object i) (.object j)
  | function {i j : Nat} : w.cells i j → Rel w (.function i) (.function j)

theorem Rel.mono (h : w ≤ w') {v v' : Value} (hv : w.Rel v v') : w'.Rel v v' := by
  cases hv with
  | plain hp => exact .plain hp
  | array hc => exact .array (h.1 _ _ hc)
  | object hc => exact .object (h.1 _ _ hc)
  | function hc => exact .function (h.1 _ _ hc)

def RelList (w : World) : List Value → List Value → Prop := List.Forall₂ w.Rel

theorem RelList.mono (h : w ≤ w') {vs vs' : List Value} (hv : w.RelList vs vs') :
    w'.RelList vs vs' := hv.imp fun _ _ hr => hr.mono h

def RelFields (w : World) : Fields → Fields → Prop :=
  List.Forall₂ fun p q => p.1 = q.1 ∧ w.Rel p.2 q.2

theorem RelFields.mono (h : w ≤ w') {fs fs' : Fields} (hf : w.RelFields fs fs') :
    w'.RelFields fs fs' := hf.imp fun _ _ hr => ⟨hr.1, hr.2.mono h⟩

def RelOption (w : World) : Option Value → Option Value → Prop := Option.Rel w.Rel

theorem RelOption.mono (h : w ≤ w') {o o' : Option Value} (ho : w.RelOption o o') :
    w'.RelOption o o' := by
  cases ho with
  | none => exact .none
  | some hv => exact .some (hv.mono h)

/-- Variables that can be assigned both or neither. -/
structure RelVariable (w : World) (v v' : Variable) : Prop where
  value : w.Rel v.value v'.value
  isMutable : v.isMutable = v'.isMutable

theorem RelVariable.mono (h : w ≤ w') {v v' : Variable} (hv : w.RelVariable v v') :
    w'.RelVariable v v' := ⟨hv.value.mono h, hv.isMutable⟩

/-- Cells with the same content. A function's code is within the names that the machines agree on. -/
inductive RelCell (names : String → Prop) (w : World) : Cell → Cell → Prop
  | items {vs vs' : List Value} : w.RelList vs vs' → RelCell names w (.items vs) (.items vs')
  | fields {fs fs' : Fields} : w.RelFields fs fs' → RelCell names w (.fields fs) (.fields fs')
  | closure {fn : Func} {s t : Nat} {this this' : Option Value} : fn.Within names → w.chains s t →
      w.RelOption this this' → RelCell names w (.closure ⟨fn, s, this⟩) (.closure ⟨fn, t, this'⟩)
  | native {fn : Native} {v v' : Value} : w.Rel v v' → RelCell names w (.native fn v) (.native fn v')

theorem RelCell.mono {names : String → Prop} (h : w ≤ w') {c c' : Cell}
    (hc : w.RelCell names c c') : w'.RelCell names c c' := by
  cases hc with
  | items hv => exact .items (hv.mono h)
  | fields hf => exact .fields (hf.mono h)
  | closure hfn hs ht => exact .closure hfn (h.2.2 _ _ hs) (ht.mono h)
  | native hv => exact .native (hv.mono h)

/-- What is seen from two scopes is the same: they bind the same names, or one of them binds none of
    the names and its parent sees what the other sees. -/
inductive Seen (names : String → Prop) (w : World) (s₁ s₂ : Scopes) (s t : Nat) : Prop
  | both : w.scopes s t → Seen names w s₁ s₂ s t
  | left {p : Nat} : (∀ x, names x → s₁.binding s x = none) → (∀ u, ¬ w.scopes s u) →
      s₁.parent s = some p → w.chains p t → Seen names w s₁ s₂ s t
  | right {p : Nat} : (∀ x, names x → s₂.binding t x = none) → (∀ u, ¬ w.scopes u t) →
      s₂.parent t = some p → w.chains s p → Seen names w s₁ s₂ s t

end World

/-- Numbers stand for each other one to one. -/
def OneToOne (r : Nat → Nat → Prop) : Prop := ∀ i j i' j', r i j → r i' j' → (i = i' ↔ j = j')

/-- Two machines hold the same as far as a world and a set of names reach. -/
structure Agree (names : String → Prop) (w : World) (m₁ m₂ : Machine) : Prop where
  oneCell : OneToOne w.cells
  oneScope : OneToOne w.scopes
  cells : ∀ i j, w.cells i j → ∃ c d, m₁.heap.cells[i]? = some c ∧ m₂.heap.cells[j]? = some d ∧
    w.RelCell names c d
  inBounds : ∀ s t, w.chains s t → s < m₁.scopes.count ∧ t < m₂.scopes.count
  chained : ∀ s t, w.scopes s t → w.chains s t
  parents : ∀ s t, w.scopes s t → Option.Rel w.chains (m₁.scopes.parent s) (m₂.scopes.parent t)
  bindings : ∀ s t, w.scopes s t → ∀ x, names x →
    Option.Rel w.RelVariable (m₁.scopes.binding s x) (m₂.scopes.binding t x)
  seen : ∀ s t, w.chains s t → w.Seen names m₁.scopes m₂.scopes s t
  ordered₁ : m₁.scopes.Ordered
  ordered₂ : m₂.scopes.Ordered
  output : m₁.output = m₂.output

namespace Agree

variable {names : String → Prop} {w : World} {m₁ m₂ : Machine}

theorem cell_lt (h : Agree names w m₁ m₂) {i j : Nat} (hc : w.cells i j) :
    i < m₁.heap.size ∧ j < m₂.heap.size := by
  obtain ⟨c, d, hi, hj, _⟩ := h.cells i j hc
  exact ⟨(Array.getElem?_eq_some_iff.mp hi).1, (Array.getElem?_eq_some_iff.mp hj).1⟩

/-- A name is found in scopes that stand for each other, or in neither machine. -/
theorem owner (h : Agree names w m₁ m₂) {x : String} (hx : names x) :
    ∀ {s t : Nat}, w.chains s t → Option.Rel
      (fun p q => w.scopes p.1 q.1 ∧ w.RelVariable p.2 q.2)
      (m₁.scopes.owner? s x) (m₂.scopes.owner? t x) := by
  -- each look outwards leaves a scope behind on one side or on both
  have hall : ∀ n s t, s + t < n → w.chains s t → Option.Rel
      (fun p q => w.scopes p.1 q.1 ∧ w.RelVariable p.2 q.2)
      (m₁.scopes.owner? s x) (m₂.scopes.owner? t x) := by
    intro n
    induction n with
    | zero => intro s t hn; exact absurd hn (Nat.not_lt_zero _)
    | succ n ih =>
      intro s t hn hc
      cases h.seen s t hc with
      | both hs =>
        have hb := h.bindings s t hs x hx
        have hp := h.parents s t hs
        rw [Scopes.owner?_eq h.ordered₁, Scopes.owner?_eq h.ordered₂]
        rcases hb₁ : m₁.scopes.binding s x with _ | v₁ <;>
          rcases hb₂ : m₂.scopes.binding t x with _ | v₂ <;> rw [hb₁, hb₂] at hb
        · rcases hp₁ : m₁.scopes.parent s with _ | p₁ <;>
            rcases hp₂ : m₂.scopes.parent t with _ | p₂ <;> rw [hp₁, hp₂] at hp
          · exact .none
          · cases hp
          · cases hp
          · have hlt₁ := h.ordered₁ s p₁ hp₁
            have hlt₂ := h.ordered₂ t p₂ hp₂
            cases hp with
            | some hchain => exact ih p₁ p₂ (by omega) hchain
        · cases hb
        · cases hb
        · cases hb with
          | some hv => exact .some ⟨hs, hv⟩
      | left hnone _ hp hchain =>
        have hlt := h.ordered₁ s _ hp
        rw [Scopes.owner?_eq h.ordered₁, hnone x hx, hp]
        exact ih _ t (by omega) hchain
      | right hnone _ hp hchain =>
        have hlt := h.ordered₂ t _ hp
        rw [Scopes.owner?_eq h.ordered₂, hnone x hx, hp]
        exact ih s _ (by omega) hchain
  intro s t hc
  exact hall (s + t + 1) s t (Nat.lt_succ_self _) hc

theorem lookup (h : Agree names w m₁ m₂) {x : String} (hx : names x) {s t : Nat} (hc : w.chains s t) :
    w.RelOption (m₁.scopes.lookup s x) (m₂.scopes.lookup t x) := by
  have howner := h.owner hx hc
  unfold Scopes.lookup
  generalize m₁.scopes.owner? s x = o at howner
  generalize m₂.scopes.owner? t x = o' at howner
  cases howner with
  | none => exact .none
  | some h => exact .some h.2.value

end Agree

/-! ## What stays -/

/-- From one machine to the next, all cells but the given ones are the same, and so is what scopes bind
    names to, but for the given scopes and names. -/
structure Kept (cells : Nat → Prop) (bindings : Nat → String → Prop) (m m' : Machine) : Prop where
  size : m.heap.size ≤ m'.heap.size
  count : m.scopes.count ≤ m'.scopes.count
  cell : ∀ i < m.heap.size, ¬ cells i → m'.heap.cells[i]? = m.heap.cells[i]?
  parent : ∀ s < m.scopes.count, m'.scopes.parent s = m.scopes.parent s
  binding : ∀ s < m.scopes.count, ∀ x, ¬ bindings s x → m'.scopes.binding s x = m.scopes.binding s x

namespace Kept

variable {cells cells' : Nat → Prop} {bindings bindings' : Nat → String → Prop} {m m' m'' : Machine}

theorem refl (cells : Nat → Prop) (bindings : Nat → String → Prop) (m : Machine) :
    Kept cells bindings m m :=
  ⟨Nat.le_refl _, Nat.le_refl _, fun _ _ _ => rfl, fun _ _ => rfl, fun _ _ _ _ => rfl⟩

theorem trans (h : Kept cells bindings m m') (h' : Kept cells' bindings' m' m'')
    (hcells : ∀ i < m.heap.size, cells' i → cells i)
    (hbindings : ∀ s < m.scopes.count, ∀ x, bindings' s x → bindings s x) :
    Kept cells bindings m m'' where
  size := Nat.le_trans h.size h'.size
  count := Nat.le_trans h.count h'.count
  cell i hi hc := (h'.cell i (Nat.lt_of_lt_of_le hi h.size) fun hc' => hc (hcells i hi hc')).trans
    (h.cell i hi hc)
  parent s hs := (h'.parent s (Nat.lt_of_lt_of_le hs h.count)).trans (h.parent s hs)
  binding s hs x hx := (h'.binding s (Nat.lt_of_lt_of_le hs h.count) x
    fun hx' => hx (hbindings s hs x hx')).trans (h.binding s hs x hx)

theorem congr (h : Kept cells bindings m m') (hheap : m''.heap = m'.heap)
    (hscopes : m''.scopes = m'.scopes) : Kept cells bindings m m'' where
  size := by rw [hheap]; exact h.size
  count := by rw [hscopes]; exact h.count
  cell := by rw [hheap]; exact h.cell
  parent := by rw [hscopes]; exact h.parent
  binding := by rw [hscopes]; exact h.binding

end Kept

/-- A world and its machines with more in them. What is new stands for what is new, and what the world
    does not reach is untouched, but for what is bound to the names `own`. -/
structure Grown (names own : String → Prop) (w : World) (m₁ m₂ : Machine) (w' : World)
    (m₁' m₂' : Machine) : Prop where
  le : w ≤ w'
  newCell : ∀ i j, w'.cells i j → w.cells i j ∨ m₁.heap.size ≤ i ∧ m₂.heap.size ≤ j
  newScope : ∀ s t, w'.scopes s t → w.scopes s t ∨ m₁.scopes.count ≤ s ∧ m₂.scopes.count ≤ t
  kept₁ : Kept (fun i => ∃ j, w.cells i j) (fun s x => own x ∨ names x ∧ ∃ t, w.scopes s t) m₁ m₁'
  kept₂ : Kept (fun j => ∃ i, w.cells i j) (fun t x => own x ∨ names x ∧ ∃ s, w.scopes s t) m₂ m₂'
  agree : Agree names w' m₁' m₂'

namespace Grown

variable {names own : String → Prop} {w w' w'' : World} {m₁ m₂ m₁' m₂' m₁'' m₂'' : Machine}

theorem refl (h : Agree names w m₁ m₂) : Grown names own w m₁ m₂ w m₁ m₂ :=
  ⟨w.le_refl, fun _ _ hc => .inl hc, fun _ _ hs => .inl hs, .refl .., .refl .., h⟩

theorem trans (h : Grown names own w m₁ m₂ w' m₁' m₂')
    (h' : Grown names own w' m₁' m₂' w'' m₁'' m₂'') : Grown names own w m₁ m₂ w'' m₁'' m₂'' where
  le := World.le_trans h.le h'.le
  newCell i j hc := (h'.newCell i j hc).elim (h.newCell i j) fun hlt =>
    .inr ⟨Nat.le_trans h.kept₁.size hlt.1, Nat.le_trans h.kept₂.size hlt.2⟩
  newScope s t hs := (h'.newScope s t hs).elim (h.newScope s t) fun hlt =>
    .inr ⟨Nat.le_trans h.kept₁.count hlt.1, Nat.le_trans h.kept₂.count hlt.2⟩
  kept₁ := h.kept₁.trans h'.kept₁
    (fun i hi ⟨j, hc⟩ => (h.newCell i j hc).elim (fun hc => ⟨j, hc⟩) fun hlt => by omega)
    (fun s hs x hx => hx.imp_right fun ⟨hx, t, ht⟩ =>
      ⟨hx, (h.newScope s t ht).elim (fun ht => ⟨t, ht⟩) fun hlt => by omega⟩)
  kept₂ := h.kept₂.trans h'.kept₂
    (fun j hj ⟨i, hc⟩ => (h.newCell i j hc).elim (fun hc => ⟨i, hc⟩) fun hlt => by omega)
    (fun t ht x hx => hx.imp_right fun ⟨hx, s, hs⟩ =>
      ⟨hx, (h.newScope s t hs).elim (fun hs => ⟨s, hs⟩) fun hlt => by omega⟩)
  agree := h'.agree

theorem mono {own' : String → Prop} (h : Grown names own w m₁ m₂ w' m₁' m₂')
    (hown : ∀ x, own x → own' x) : Grown names own' w m₁ m₂ w' m₁' m₂' where
  le := h.le
  newCell := h.newCell
  newScope := h.newScope
  kept₁ := (Kept.refl _ _ m₁).trans h.kept₁ (fun _ _ hc => hc) fun _ _ x hx => hx.imp_left (hown x)
  kept₂ := (Kept.refl _ _ m₂).trans h.kept₂ (fun _ _ hc => hc) fun _ _ x hx => hx.imp_left (hown x)
  agree := h.agree

end Grown

/-! ## Cells -/

/-- A world with a further pair of cells. -/
def World.withCell (w : World) (i j : Nat) : World :=
  { w with cells := fun a b => w.cells a b ∨ a = i ∧ b = j }

theorem World.le_withCell (w : World) (i j : Nat) : w ≤ w.withCell i j :=
  ⟨fun _ _ h => .inl h, fun _ _ h => h, fun _ _ h => h⟩

theorem World.RelVariable.option_mono {w w' : World} (h : w ≤ w') {o o' : Option Variable}
    (ho : Option.Rel w.RelVariable o o') : Option.Rel w'.RelVariable o o' := by
  cases ho with
  | none => exact .none
  | some hv => exact .some (hv.mono h)

namespace Agree

variable {names own : String → Prop} {w : World} {m₁ m₂ : Machine}

/-- New heaps, in which the world's cells and perhaps further ones have the same content. -/
theorem ofHeaps (h : Agree names w m₁ m₂) {h₁ h₂ : Heap} {cells : Nat → Nat → Prop}
    (hle : ∀ i j, w.cells i j → cells i j) (hone : OneToOne cells)
    (hcells : ∀ i j, cells i j → ∃ c d, h₁.cells[i]? = some c ∧ h₂.cells[j]? = some d ∧
      ({ w with cells } : World).RelCell names c d) :
    Agree names { w with cells } { m₁ with heap := h₁ } { m₂ with heap := h₂ } where
  oneCell := hone
  oneScope := h.oneScope
  cells := hcells
  inBounds := h.inBounds
  chained := h.chained
  parents := h.parents
  bindings s t hs x hx := by
    have hw : w ≤ { w with cells } := ⟨hle, fun _ _ h => h, fun _ _ h => h⟩
    exact World.RelVariable.option_mono hw (h.bindings s t hs x hx)
  seen s t hc := by
    cases h.seen s t hc with
    | both hs => exact .both hs
    | left hnone hno hp hchain => exact .left hnone hno hp hchain
    | right hnone hno hp hchain => exact .right hnone hno hp hchain
  ordered₁ := h.ordered₁
  ordered₂ := h.ordered₂
  output := h.output

end Agree

theorem Heap.cells_alloc (h : Heap) (c : Cell) (i : Nat) :
    (h.alloc c).2.cells[i]? = if i = h.size then some c else h.cells[i]? := Array.getElem?_push

theorem Machine.kept_allocated (cells : Nat → Prop) (bindings : Nat → String → Prop) (m : Machine)
    (c : Cell) : Kept cells bindings m (m.allocated c) where
  size := by
    show m.heap.cells.size ≤ (m.heap.cells.push c).size
    rw [Array.size_push]
    exact Nat.le_succ _
  count := Nat.le_refl _
  cell i hi _ := by
    show (m.heap.alloc c).2.cells[i]? = _
    rw [Heap.cells_alloc, if_neg (Nat.ne_of_lt hi)]
  parent _ _ := rfl
  binding _ _ _ _ := rfl

namespace Agree

variable {names own : String → Prop} {w : World} {m₁ m₂ : Machine}

/-- New cells with the same content stand for each other. -/
theorem allocated (h : Agree names w m₁ m₂) {c d : Cell} (hcd : w.RelCell names c d) :
    Grown names own w m₁ m₂ (w.withCell m₁.heap.size m₂.heap.size) (m₁.allocated c)
      (m₂.allocated d) where
  le := w.le_withCell _ _
  newCell i j hc := hc.imp_right fun ⟨hi, hj⟩ => ⟨hi ▸ Nat.le_refl _, hj ▸ Nat.le_refl _⟩
  newScope _ _ hs := .inl hs
  kept₁ := m₁.kept_allocated ..
  kept₂ := m₂.kept_allocated ..
  agree := by
    refine h.ofHeaps (fun _ _ hc => .inl hc) ?_ ?_
    · rintro i j i' j' (hc | ⟨rfl, rfl⟩) (hc' | ⟨rfl, rfl⟩)
      · exact h.oneCell i j i' j' hc hc'
      · have := h.cell_lt hc
        omega
      · have := h.cell_lt hc'
        omega
      · simp
    · rintro i j (hc | ⟨rfl, rfl⟩)
      · obtain ⟨c', d', hi, hj, hcd'⟩ := h.cells i j hc
        have hlt := h.cell_lt hc
        refine ⟨c', d', ?_, ?_, hcd'.mono (w.le_withCell _ _)⟩
        · rw [Heap.cells_alloc, if_neg (Nat.ne_of_lt hlt.1), hi]
        · rw [Heap.cells_alloc, if_neg (Nat.ne_of_lt hlt.2), hj]
      · refine ⟨c, d, ?_, ?_, hcd.mono (w.le_withCell _ _)⟩
        · rw [Heap.cells_alloc, if_pos rfl]
        · rw [Heap.cells_alloc, if_pos rfl]

/-- A cell that only the left machine has. -/
theorem allocated_left (h : Agree names w m₁ m₂) (c : Cell) :
    Grown names own w m₁ m₂ w (m₁.allocated c) m₂ where
  le := w.le_refl
  newCell _ _ hc := .inl hc
  newScope _ _ hs := .inl hs
  kept₁ := m₁.kept_allocated ..
  kept₂ := .refl ..
  agree := by
    refine h.ofHeaps (fun _ _ hc => hc) h.oneCell fun i j hc => ?_
    obtain ⟨c', d', hi, hj, hcd⟩ := h.cells i j hc
    refine ⟨c', d', ?_, hj, hcd⟩
    rw [Heap.cells_alloc, if_neg (Nat.ne_of_lt (h.cell_lt hc).1), hi]

/-- Cells that stand for each other are overwritten with the same content. -/
theorem written (h : Agree names w m₁ m₂) {i j : Nat} (hij : w.cells i j) {c d : Cell}
    (hcd : w.RelCell names c d) :
    Grown names own w m₁ m₂ w (m₁.written i c) (m₂.written j d) where
  le := w.le_refl
  newCell _ _ hc := .inl hc
  newScope _ _ hs := .inl hs
  kept₁ :=
    { size := Nat.le_of_eq (Array.size_setIfInBounds).symm
      count := Nat.le_refl _
      cell := fun k _ hk => Array.getElem?_setIfInBounds_ne fun heq : i = k => hk ⟨j, heq ▸ hij⟩
      parent := fun _ _ => rfl
      binding := fun _ _ _ _ => rfl }
  kept₂ :=
    { size := Nat.le_of_eq (Array.size_setIfInBounds).symm
      count := Nat.le_refl _
      cell := fun k _ hk => Array.getElem?_setIfInBounds_ne fun heq : j = k => hk ⟨i, heq ▸ hij⟩
      parent := fun _ _ => rfl
      binding := fun _ _ _ _ => rfl }
  agree := by
    refine h.ofHeaps (fun _ _ hc => hc) h.oneCell fun k l hc => ?_
    have hlt := h.cell_lt hij
    have hone := h.oneCell i j k l hij hc
    by_cases hk : i = k
    · obtain rfl := hk
      obtain rfl := hone.mp rfl
      exact ⟨c, d, Array.getElem?_setIfInBounds_self_of_lt hlt.1,
        Array.getElem?_setIfInBounds_self_of_lt hlt.2, hcd⟩
    · obtain ⟨c', d', hk', hl', hcd'⟩ := h.cells k l hc
      refine ⟨c', d', ?_, ?_, hcd'⟩
      · exact (Array.getElem?_setIfInBounds_ne hk).trans hk'
      · exact (Array.getElem?_setIfInBounds_ne fun hl => hk (hone.mpr hl)).trans hl'

end Agree

/-! ## Scopes -/

namespace World

/-- A world with a further pair of scopes that bind the same names. -/
def withScope (w : World) (s t : Nat) : World :=
  { w with scopes := fun a b => w.scopes a b ∨ a = s ∧ b = t
           chains := fun a b => w.chains a b ∨ a = s ∧ b = t }

/-- A world with a further pair of scopes from which the same is seen. -/
def withChain (w : World) (s t : Nat) : World :=
  { w with chains := fun a b => w.chains a b ∨ a = s ∧ b = t }

theorem le_withScope (w : World) (s t : Nat) : w ≤ w.withScope s t :=
  ⟨fun _ _ h => h, fun _ _ h => .inl h, fun _ _ h => .inl h⟩

theorem le_withChain (w : World) (s t : Nat) : w ≤ w.withChain s t :=
  ⟨fun _ _ h => h, fun _ _ h => h, fun _ _ h => .inl h⟩

theorem chains_option_mono {w w' : World} (h : w ≤ w') {o o' : Option Nat}
    (ho : Option.Rel w.chains o o') : Option.Rel w'.chains o o' := by
  cases ho with
  | none => exact .none
  | some hc => exact .some (h.2.2 _ _ hc)

end World

/-- A machine with a new scope inside another. -/
def Machine.deepened (m : Machine) (s : Nat) : Machine :=
  { m with scopes := (m.scopes.alloc (some s)).2 }

theorem Machine.kept_deepened (cells : Nat → Prop) (bindings : Nat → String → Prop) (m : Machine)
    (s : Nat) : Kept cells bindings m (m.deepened s) where
  size := Nat.le_refl _
  count := by
    show _ ≤ (m.scopes.alloc (some s)).2.count
    rw [Scopes.count_alloc]
    exact Nat.le_succ _
  cell _ _ _ := rfl
  parent t ht := by
    show (m.scopes.alloc (some s)).2.parent t = _
    rw [Scopes.parent_alloc, if_neg (Nat.ne_of_lt ht)]
  binding t _ x _ := Scopes.binding_alloc ..

/-- Scopes go on: what was there keeps its parent and, where it is not `touched`, what it binds the names to. -/
structure Scopes.Extends (names : String → Prop) (touched : Nat → Prop) (s s' : Scopes) : Prop where
  count : s.count ≤ s'.count
  parent : ∀ id < s.count, s'.parent id = s.parent id
  binding : ∀ id < s.count, ¬ touched id → ∀ x, names x → s'.binding id x = s.binding id x
  ordered : s.Ordered → s'.Ordered

namespace Scopes.Extends

variable {names : String → Prop} {touched : Nat → Prop} {s : Scopes}

theorem refl (s : Scopes) : Extends names touched s s :=
  ⟨Nat.le_refl _, fun _ _ => rfl, fun _ _ _ _ _ => rfl, fun h => h⟩

theorem define {id : Nat} {x : String} (hx : names x → touched id) (v : Variable) :
    Extends names touched s (s.define id x v) where
  count := Nat.le_of_eq (count_define ..).symm
  parent _ _ := parent_define ..
  binding other _ hother y hy := by
    rw [binding_define, if_neg]
    rintro ⟨rfl, _, rfl⟩
    exact hother (hx hy)
  ordered h := h.define _ _ _

theorem alloc {id : Nat} (hid : id < s.count) : Extends names touched s (s.alloc (some id)).2 where
  count := by
    rw [count_alloc]
    exact Nat.le_succ _
  parent other hother := by rw [parent_alloc, if_neg (Nat.ne_of_lt hother)]
  binding _ _ _ _ _ := binding_alloc ..
  ordered h := h.alloc hid

end Scopes.Extends

theorem Machine.kept_defined (cells : Nat → Prop) {bindings : Nat → String → Prop} (m : Machine)
    {s : Nat} {x : String} (hx : bindings s x) (v : Variable) :
    Kept cells bindings m (m.defined s x v) where
  size := Nat.le_refl _
  count := Nat.le_of_eq (Scopes.count_define ..).symm
  cell _ _ _ := rfl
  parent t _ := Scopes.parent_define ..
  binding t ht y hy := by
    show (m.scopes.define s x v).binding t y = _
    rw [Scopes.binding_define, if_neg]
    rintro ⟨rfl, _, rfl⟩
    exact hy hx

namespace Agree

variable {names own : String → Prop} {w : World} {m₁ m₂ m₁' m₂' : Machine}

/-- Only heaps, scopes and output matter. -/
theorem congr (h : Agree names w m₁ m₂) (hheap₁ : m₁'.heap = m₁.heap)
    (hscopes₁ : m₁'.scopes = m₁.scopes) (hheap₂ : m₂'.heap = m₂.heap)
    (hscopes₂ : m₂'.scopes = m₂.scopes) (houtput : m₁'.output = m₂'.output) :
    Agree names w m₁' m₂' where
  oneCell := h.oneCell
  oneScope := h.oneScope
  cells := by rw [hheap₁, hheap₂]; exact h.cells
  inBounds := by rw [hscopes₁, hscopes₂]; exact h.inBounds
  chained := h.chained
  parents := by rw [hscopes₁, hscopes₂]; exact h.parents
  bindings := by rw [hscopes₁, hscopes₂]; exact h.bindings
  seen := by rw [hscopes₁, hscopes₂]; exact h.seen
  ordered₁ := by rw [hscopes₁]; exact h.ordered₁
  ordered₂ := by rw [hscopes₂]; exact h.ordered₂
  output := houtput

end Agree

/-- Where the machines have got to does not matter to what has grown. -/
theorem Grown.congr {names own : String → Prop} {w w' : World} {m₁ m₂ m₁' m₂' m₁'' m₂'' : Machine}
    (h : Grown names own w m₁ m₂ w' m₁' m₂') (hheap₁ : m₁''.heap = m₁'.heap)
    (hscopes₁ : m₁''.scopes = m₁'.scopes) (hheap₂ : m₂''.heap = m₂'.heap)
    (hscopes₂ : m₂''.scopes = m₂'.scopes) (houtput₁ : m₁''.output = m₁'.output)
    (houtput₂ : m₂''.output = m₂'.output) : Grown names own w m₁ m₂ w' m₁'' m₂'' where
  le := h.le
  newCell := h.newCell
  newScope := h.newScope
  kept₁ := h.kept₁.congr hheap₁ hscopes₁
  kept₂ := h.kept₂.congr hheap₂ hscopes₂
  agree := h.agree.congr hheap₁ hscopes₁ hheap₂ hscopes₂
    (by rw [houtput₁, houtput₂]; exact h.agree.output)

namespace Agree

variable {names own : String → Prop} {w : World} {m₁ m₂ m₁' m₂' : Machine}

theorem not_scope_left (h : Agree names w m₁ m₂) (t : Nat) : ¬ w.scopes m₁.scopes.count t :=
  fun hs => Nat.lt_irrefl _ (h.inBounds _ _ (h.chained _ _ hs)).1

/-- New scopes, in which the world's scopes bind the names to the same, as before. A further pair of scopes is new in
    both machines and binds nothing. -/
theorem ofScopes (h : Agree names w m₁ m₂) {s₁ s₂ : Scopes} {scopes chains : Nat → Nat → Prop}
    (h₁ : m₁.scopes.Extends names (fun s => ∃ t, w.scopes s t) s₁)
    (h₂ : m₂.scopes.Extends names (fun t => ∃ s, w.scopes s t) s₂) (hle : w ≤ { w with scopes, chains })
    (hbindings : ∀ s t, w.scopes s t → ∀ x, names x → Option.Rel w.RelVariable (s₁.binding s x) (s₂.binding t x))
    (hscopes : ∀ s t, scopes s t → w.scopes s t ∨ (s = m₁.scopes.count ∧ t = m₂.scopes.count) ∧ chains s t ∧
      Option.Rel chains (s₁.parent s) (s₂.parent t) ∧ ∀ x, s₁.binding s x = none ∧ s₂.binding t x = none)
    (hchains : ∀ s t, chains s t → w.chains s t ∨ (s < s₁.count ∧ t < s₂.count) ∧
      ({ w with scopes, chains } : World).Seen names s₁ s₂ s t) :
    Agree names { w with scopes, chains } { m₁ with scopes := s₁ } { m₂ with scopes := s₂ } where
  oneCell := h.oneCell
  oneScope s t s' t' hs hs' := by
    rcases hscopes s t hs with hs | ⟨⟨rfl, rfl⟩, _⟩ <;> rcases hscopes s' t' hs' with hs' | ⟨⟨rfl, rfl⟩, _⟩
    · exact h.oneScope s t s' t' hs hs'
    · have := h.inBounds _ _ (h.chained _ _ hs)
      omega
    · have := h.inBounds _ _ (h.chained _ _ hs')
      omega
    · simp
  cells i j hc := by
    obtain ⟨c, d, hi, hj, hcd⟩ := h.cells i j hc
    exact ⟨c, d, hi, hj, hcd.mono hle⟩
  inBounds s t hc := by
    rcases hchains s t hc with hc | hc
    · exact (h.inBounds s t hc).imp (Nat.lt_of_lt_of_le · h₁.count) (Nat.lt_of_lt_of_le · h₂.count)
    · exact hc.1
  chained s t hs := (hscopes s t hs).elim (fun hs => hle.2.2 s t (h.chained s t hs)) fun hs => hs.2.1
  parents s t hs := by
    rcases hscopes s t hs with hs | hs
    · have hlt := h.inBounds s t (h.chained s t hs)
      rw [h₁.parent s hlt.1, h₂.parent t hlt.2]
      exact World.chains_option_mono hle (h.parents s t hs)
    · exact hs.2.2.1
  bindings s t hs x hx := by
    rcases hscopes s t hs with hs | hs
    · exact World.RelVariable.option_mono hle (hbindings s t hs x hx)
    · rw [(hs.2.2.2 x).1, (hs.2.2.2 x).2]
      exact .none
  seen s t hc := by
    rcases hchains s t hc with hc | hc
    · have hlt := h.inBounds s t hc
      cases h.seen s t hc with
      | both hs => exact .both (hle.2.1 s t hs)
      | left hnone hno hp hchain =>
        refine .left (fun x hx => ?_) (fun u hu => ?_) ((h₁.parent s hlt.1).trans hp) (hle.2.2 _ t hchain)
        · exact (h₁.binding s hlt.1 (fun hs => hs.elim hno) x hx).trans (hnone x hx)
        · exact (hscopes s u hu).elim (hno u) fun hu => Nat.ne_of_lt hlt.1 hu.1.1
      | right hnone hno hp hchain =>
        refine .right (fun x hx => ?_) (fun u hu => ?_) ((h₂.parent t hlt.2).trans hp) (hle.2.2 s _ hchain)
        · exact (h₂.binding t hlt.2 (fun ht => ht.elim hno) x hx).trans (hnone x hx)
        · exact (hscopes u t hu).elim (hno u) fun hu => Nat.ne_of_lt hlt.2 hu.1.2
    · exact hc.2
  ordered₁ := h₁.ordered h.ordered₁
  ordered₂ := h₂.ordered h.ordered₂
  output := h.output

/-- A name is bound to the same in scopes that stand for each other. -/
theorem defined (h : Agree names w m₁ m₂) {s t : Nat} (hst : w.scopes s t) {x : String}
    (hx : names x) {v v' : Variable} (hv : w.RelVariable v v') :
    Grown names own w m₁ m₂ w (m₁.defined s x v) (m₂.defined t x v') where
  le := w.le_refl
  newCell _ _ hc := .inl hc
  newScope _ _ hs := .inl hs
  kept₁ := m₁.kept_defined _ (.inr ⟨hx, t, hst⟩) v
  kept₂ := m₂.kept_defined _ (.inr ⟨hx, s, hst⟩) v'
  agree := by
    refine h.ofScopes (.define (fun _ => ⟨t, hst⟩) v) (.define (fun _ => ⟨s, hst⟩) v') w.le_refl
      (fun a b hs y hy => ?_) (fun _ _ hs => .inl hs) fun _ _ hc => .inl hc
    have hlt := h.inBounds a b (h.chained a b hs)
    have hone := h.oneScope s t a b hst hs
    rw [Scopes.binding_define, Scopes.binding_define]
    by_cases hy' : y = x
    · by_cases ha : s = a
      · rw [if_pos ⟨ha, hlt.1, hy'⟩, if_pos ⟨hone.mp ha, hlt.2, hy'⟩]
        exact .some hv
      · rw [if_neg (fun hc => ha hc.1), if_neg (fun hc => ha (hone.mpr hc.1))]
        exact h.bindings a b hs y hy
    · rw [if_neg (fun hc => hy' hc.2.2), if_neg (fun hc => hy' hc.2.2)]
      exact h.bindings a b hs y hy

/-- Scopes that differ in what names are bound to that the code does not use. -/
theorem rebound (h : Agree names w m₁ m₂) {s₁ s₂ : Scopes} (h₁ : ∀ touched, m₁.scopes.Extends names touched s₁)
    (h₂ : ∀ touched, m₂.scopes.Extends names touched s₂) :
    Agree names w { m₁ with scopes := s₁ } { m₂ with scopes := s₂ } := by
  refine h.ofScopes (h₁ _) (h₂ _) w.le_refl (fun s t hs x hx => ?_) (fun _ _ hs => .inl hs) fun _ _ hc => .inl hc
  have hlt := h.inBounds s t (h.chained s t hs)
  rw [(h₁ fun _ => False).binding s hlt.1 id x hx, (h₂ fun _ => False).binding t hlt.2 id x hx]
  exact h.bindings s t hs x hx

/-- The left machine binds a name that the code does not use. -/
theorem defined_left (h : Agree names w m₁ m₂) {x : String} (hx : ¬ names x) (s : Nat)
    (v : Variable) : Agree names w (m₁.defined s x v) m₂ :=
  h.rebound (fun _ => .define (absurd · hx) v) fun _ => .refl _

/-- The right machine does. -/
theorem defined_right (h : Agree names w m₁ m₂) {x : String} (hx : ¬ names x) (t : Nat)
    (v : Variable) : Agree names w m₁ (m₂.defined t x v) :=
  h.rebound (fun _ => .refl _) fun _ => .define (absurd · hx) v

/-- New scopes in ones from which the same is seen stand for each other. -/
theorem deepened (h : Agree names w m₁ m₂) {s t : Nat} (hst : w.chains s t) :
    Grown names own w m₁ m₂ (w.withScope m₁.scopes.count m₂.scopes.count) (m₁.deepened s)
      (m₂.deepened t) where
  le := w.le_withScope _ _
  newCell _ _ hc := .inl hc
  newScope a b hs := hs.imp_right fun ⟨ha, hb⟩ => ⟨ha ▸ Nat.le_refl _, hb ▸ Nat.le_refl _⟩
  kept₁ := m₁.kept_deepened ..
  kept₂ := m₂.kept_deepened ..
  agree := by
    refine h.ofScopes (.alloc (h.inBounds s t hst).1) (.alloc (h.inBounds s t hst).2) (w.le_withScope _ _)
      (fun a b hs x hx => ?_) (fun a b hs => hs.imp_right ?_) fun a b hc => hc.imp_right ?_
    · rw [Scopes.binding_alloc, Scopes.binding_alloc]
      exact h.bindings a b hs x hx
    · rintro ⟨rfl, rfl⟩
      refine ⟨⟨rfl, rfl⟩, .inr ⟨rfl, rfl⟩, ?_, fun x => ?_⟩
      · rw [Scopes.parent_alloc, Scopes.parent_alloc, if_pos rfl, if_pos rfl]
        exact .some (.inl hst)
      · rw [Scopes.binding_alloc, Scopes.binding_alloc]
        exact ⟨Scopes.binding_of_count_le (Nat.le_refl _) x, Scopes.binding_of_count_le (Nat.le_refl _) x⟩
    · rintro ⟨rfl, rfl⟩
      rw [Scopes.count_alloc, Scopes.count_alloc]
      exact ⟨⟨Nat.lt_succ_self _, Nat.lt_succ_self _⟩, .both (.inr ⟨rfl, rfl⟩)⟩

/-- From a new scope that only the left machine has, the same is seen as from the one around it. -/
theorem deepened_left (h : Agree names w m₁ m₂) {s t : Nat} (hst : w.chains s t) :
    Grown names own w m₁ m₂ (w.withChain m₁.scopes.count t) (m₁.deepened s) m₂ where
  le := w.le_withChain _ _
  newCell _ _ hc := .inl hc
  newScope _ _ hs := .inl hs
  kept₁ := m₁.kept_deepened ..
  kept₂ := .refl ..
  agree := by
    refine h.ofScopes (.alloc (h.inBounds s t hst).1) (.refl _) (w.le_withChain _ _) (fun a b hs x hx => ?_)
      (fun a b hs => .inl hs) fun a b hc => hc.imp_right ?_
    · rw [Scopes.binding_alloc]
      exact h.bindings a b hs x hx
    · rintro ⟨rfl, rfl⟩
      rw [Scopes.count_alloc]
      refine ⟨⟨Nat.lt_succ_self _, (h.inBounds s b hst).2⟩, .left (fun x hx => ?_) h.not_scope_left ?_ (.inl hst)⟩
      · rw [Scopes.binding_alloc, Scopes.binding_of_count_le (Nat.le_refl _)]
      · rw [Scopes.parent_alloc, if_pos rfl]

end Agree

end MatchChain
