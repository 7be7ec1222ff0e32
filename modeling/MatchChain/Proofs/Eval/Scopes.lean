import MatchChain.Eval.Scope

/-!
# Scopes by their bindings

What the operations on scopes do is said of three questions: how many scopes there are, what the
parent of a scope is, and what a scope binds a name to. Where parents are older than their scopes, a
name is found by asking scope after scope outwards (`owner?_eq`).
-/

set_option autoImplicit false

namespace MatchChain

variable {s : Scopes} {name : String} {id : Nat}

namespace Scopes

def count (s : Scopes) : Nat := s.scopes.size

def parent (s : Scopes) (id : Nat) : Option Nat := (s.scope id).parent

/-- What a scope itself binds a name to. -/
def binding (s : Scopes) (id : Nat) (name : String) : Option Variable :=
  (s.scope id).bindings.lookup name

/-- Every parent is older than its scope. -/
def Ordered (s : Scopes) : Prop := ∀ id p, s.parent id = some p → p < id

/-! ## New scopes -/

@[simp] theorem count_alloc (s : Scopes) (p : Option Nat) : (s.alloc p).2.count = s.count + 1 :=
  Array.size_push _

theorem scope_alloc (s : Scopes) (p : Option Nat) (id : Nat) :
    (s.alloc p).2.scope id = if id = s.count then { parent := p } else s.scope id := by
  unfold scope alloc count
  rw [Array.getElem?_push]
  split
  · rfl
  · rfl

theorem parent_alloc (s : Scopes) (p : Option Nat) (id : Nat) :
    (s.alloc p).2.parent id = if id = s.count then p else s.parent id := by
  unfold parent
  rw [scope_alloc]
  split <;> rfl

theorem scope_of_count_le (h : s.count ≤ id) : s.scope id = {} := by
  unfold scope
  rw [Array.getElem?_eq_none h]
  rfl

theorem binding_of_count_le (h : s.count ≤ id) (name : String) :
    s.binding id name = none := by
  unfold binding
  rw [scope_of_count_le h]
  rfl

theorem parent_of_count_le (h : s.count ≤ id) : s.parent id = none := by
  unfold parent
  rw [scope_of_count_le h]

@[simp] theorem binding_alloc (s : Scopes) (p : Option Nat) (id : Nat) (name : String) :
    (s.alloc p).2.binding id name = s.binding id name := by
  by_cases h : id = s.count
  · rw [binding_of_count_le (Nat.le_of_eq h.symm)]
    unfold binding
    rw [scope_alloc, if_pos h]
    rfl
  · unfold binding
    rw [scope_alloc, if_neg h]

theorem Ordered.alloc (h : s.Ordered) {p : Nat} (hp : p < s.count) :
    (s.alloc (some p)).2.Ordered := by
  intro id q hq
  rw [parent_alloc] at hq
  split at hq
  · rename_i hid
    cases hq
    exact hid ▸ hp
  · exact h id q hq

/-! ## New bindings -/

@[simp] theorem count_define (s : Scopes) (id : Nat) (name : String) (v : Variable) :
    (s.define id name v).count = s.count := Array.size_setIfInBounds

theorem scope_define (s : Scopes) (id : Nat) (name : String) (v : Variable) (other : Nat) :
    (s.define id name v).scope other = if id = other ∧ other < s.count
      then { s.scope id with
        bindings := (name, v) :: (s.scope id).bindings.filter (·.1 != name) }
      else s.scope other := by
  unfold define
  simp only [scope, count]
  rw [Array.getElem?_setIfInBounds]
  by_cases h : id = other
  · by_cases hlt : other < s.scopes.size
    · simp [h, hlt]
    · simp [h, hlt]
  · simp [h]

@[simp] theorem parent_define (s : Scopes) (id : Nat) (name : String) (v : Variable) (other : Nat) :
    (s.define id name v).parent other = s.parent other := by
  unfold parent
  rw [scope_define]
  split
  · rename_i h
    rw [h.1]
  · rfl

theorem lookup_filter_ne {bs : List (String × Variable)} {name other : String} (h : other ≠ name) :
    (bs.filter (·.1 != name)).lookup other = bs.lookup other := by
  induction bs with
  | nil => rfl
  | cons b bs ih =>
    obtain ⟨k, v⟩ := b
    by_cases hk : k = name
    · subst hk
      have hother : (other == k) = false := beq_eq_false_iff_ne.mpr h
      simp [List.lookup_cons, hother, ih]
    · have hkeep : (k != name) = true := bne_iff_ne.mpr hk
      simp only [List.filter_cons, hkeep, if_true, List.lookup_cons, ih]

theorem binding_define (s : Scopes) (id : Nat) (name : String) (v : Variable) (other : Nat)
    (key : String) : (s.define id name v).binding other key
      = if id = other ∧ other < s.count ∧ key = name then some v else s.binding other key := by
  unfold binding
  rw [scope_define]
  by_cases h : id = other ∧ other < s.count
  · rw [if_pos h]
    obtain ⟨rfl, hlt⟩ := h
    by_cases hkey : key = name
    · subst hkey
      simp [hlt]
    · have hne : (key == name) = false := beq_eq_false_iff_ne.mpr hkey
      simp [List.lookup_cons, hne, hkey, lookup_filter_ne hkey]
  · rw [if_neg h, if_neg (fun h' => h ⟨h'.1, h'.2.1⟩)]

theorem Ordered.define (h : s.Ordered) (id : Nat) (name : String) (v : Variable) :
    (s.define id name v).Ordered := by
  intro other q hq
  rw [parent_define] at hq
  exact h other q hq

/-! ## Finding names -/

/-- Parents get older, so as many looks as the scope's number allows are enough. -/
theorem ownerWithin_eq (h : s.Ordered) (name : String) :
    ∀ {fuel more id : Nat}, id < fuel → id < more →
      s.ownerWithin name fuel id = s.ownerWithin name more id := by
  intro fuel
  induction fuel with
  | zero => intro more id hid; exact absurd hid (Nat.not_lt_zero _)
  | succ fuel ih =>
    intro more id hid hmore
    obtain ⟨more, rfl⟩ := Nat.exists_eq_add_one.mpr (Nat.lt_of_le_of_lt (Nat.zero_le id) hmore)
    rw [ownerWithin, ownerWithin]
    cases (s.scope id).bindings.lookup name with
    | some v => rfl
    | none =>
      cases hp : (s.scope id).parent with
      | none => rfl
      | some p =>
        have hlt : p < id := h id p hp
        exact ih (by omega) (by omega)

/-- A name is bound where it is asked for, or further out. -/
theorem owner?_eq (h : s.Ordered) (id : Nat) (name : String) :
    s.owner? id name = match s.binding id name with
      | some v => some (id, v)
      | none => (s.parent id).bind (s.owner? · name) := by
  rw [owner?, ownerWithin]
  unfold binding parent
  cases (s.scope id).bindings.lookup name with
  | some v => rfl
  | none =>
    cases hp : (s.scope id).parent with
    | none => rfl
    | some p => exact ownerWithin_eq h name (h id p hp) (Nat.lt_succ_self p)

/-- Who owns a name depends on the bindings and parents of no younger scopes. -/
theorem owner?_congr {s s' : Scopes} (h : s.Ordered) (h' : s'.Ordered) :
    ∀ {id : Nat}, (∀ i ≤ id, s'.binding i name = s.binding i name) →
      (∀ i ≤ id, s'.parent i = s.parent i) → s'.owner? id name = s.owner? id name := by
  intro id
  induction id using Nat.strongRecOn with
  | _ id ih =>
    intro hb hp
    rw [owner?_eq h, owner?_eq h', hb id (Nat.le_refl id), hp id (Nat.le_refl id)]
    cases s.binding id name with
    | some v => rfl
    | none =>
      cases hparent : s.parent id with
      | none => rfl
      | some p =>
        have hlt := h id p hparent
        exact ih p hlt (fun i hi => hb i (by omega)) fun i hi => hp i (by omega)

theorem owner?_alloc (h : s.Ordered) {p : Nat} (hp : p < s.count)
    (hid : id < s.count) (name : String) :
    (s.alloc (some p)).2.owner? id name = s.owner? id name := by
  refine owner?_congr h (h.alloc hp) (fun i _ => binding_alloc ..) fun i hi => ?_
  rw [parent_alloc, if_neg (by omega)]

/-- A new scope sees what the scope around it sees. -/
theorem owner?_alloc_self (h : s.Ordered) {p : Nat} (hp : p < s.count) (name : String) :
    (s.alloc (some p)).2.owner? s.count name = s.owner? p name := by
  rw [owner?_eq (h.alloc hp), binding_alloc, binding_of_count_le (Nat.le_refl _), parent_alloc,
    if_pos rfl]
  exact owner?_alloc h hp hp name

theorem owner?_define_of_ne (h : s.Ordered) {name other : String} (hne : other ≠ name)
    (a : Nat) (v : Variable) (id : Nat) :
    (s.define a name v).owner? id other = s.owner? id other := by
  refine owner?_congr h (h.define a name v) (fun i _ => ?_) fun i _ => parent_define ..
  rw [binding_define, if_neg fun hc => hne hc.2.2]

/-- A name is found in the scope that it is bound in. -/
theorem owner?_define_self (h : s.Ordered) (hid : id < s.count) (name : String)
    (v : Variable) : (s.define id name v).owner? id name = some (id, v) := by
  rw [owner?_eq (h.define id name v), binding_define, if_pos ⟨rfl, hid, rfl⟩]

/-- Who owns a name binds it. -/
theorem binding_of_owner? (h : s.Ordered) {a : Nat} {v : Variable} :
    ∀ {id : Nat}, s.owner? id name = some (a, v) → s.binding a name = some v ∧ a ≤ id := by
  intro id
  induction id using Nat.strongRecOn with
  | _ id ih =>
    intro hu
    rw [owner?_eq h] at hu
    cases hb : s.binding id name with
    | some u =>
      rw [hb] at hu
      cases hu
      exact ⟨hb, Nat.le_refl _⟩
    | none =>
      rw [hb] at hu
      cases hp : s.parent id with
      | none =>
        rw [hp] at hu
        cases hu
      | some p =>
        rw [hp] at hu
        have hlt := h id p hp
        obtain ⟨hbind, hle⟩ := ih p hlt hu
        exact ⟨hbind, by omega⟩

/-- Where the same scopes bind a name, the same one owns it, whatever it binds the name to. -/
theorem owner?_of_bound {s s' : Scopes} (h : s.Ordered) (h' : s'.Ordered) {a : Nat}
    {v v' : Variable} (hv' : s'.binding a name = some v') :
    ∀ {id : Nat}, (∀ i ≤ id, (s'.binding i name).isSome = (s.binding i name).isSome) →
      (∀ i ≤ id, s'.parent i = s.parent i) → s.owner? id name = some (a, v) →
      s'.owner? id name = some (a, v') := by
  intro id
  induction id using Nat.strongRecOn with
  | _ id ih =>
    intro hb hp hu
    have hbound := hb id (Nat.le_refl id)
    rw [owner?_eq h] at hu
    rw [owner?_eq h', hp id (Nat.le_refl id)]
    cases hbinding : s.binding id name with
    | some u =>
      rw [hbinding] at hu
      cases hu
      rw [hv']
    | none =>
      rw [hbinding] at hu hbound
      have hnone : s'.binding id name = none :=
        Option.isNone_iff_eq_none.mp (Option.isSome_eq_false_iff.mp hbound)
      rw [hnone]
      cases hparent : s.parent id with
      | none =>
        rw [hparent] at hu
        cases hu
      | some p =>
        rw [hparent] at hu
        have hlt := h id p hparent
        exact ih p hlt (fun i hi => hb i (by omega)) (fun i hi => hp i (by omega)) hu

/-- A variable gets a new value where it is bound. -/
theorem owner?_define_owner (h : s.Ordered) {a id : Nat} {v : Variable}
    (hid : id < s.count) (hu : s.owner? id name = some (a, v)) (v' : Variable) :
    (s.define a name v').owner? id name = some (a, v') := by
  obtain ⟨hbinding, hle⟩ := binding_of_owner? h hu
  refine owner?_of_bound h (h.define a name v') ?_ (fun i _ => ?_) (fun i _ => parent_define ..) hu
  · rw [binding_define, if_pos ⟨rfl, by omega, rfl⟩]
  · rw [binding_define]
    split
    · rename_i hsame
      rw [← hsame.1, hbinding]
      rfl
    · rfl

end Scopes

end MatchChain
