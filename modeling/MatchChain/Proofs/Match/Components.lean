import Mathlib.Data.List.Basic
import MatchChain.Match.Basic
import MatchChain.Proofs.Match.Accepts

/-!
# Components that a pattern selects

Each selection of a pattern stands at a place, which is the steps to it from the whole value, and so
names a component of every value that the pattern is tried on. A component is a value, or a built-in
method, for which every read makes a function of its own: `Component.IsIn` says that a value is one.
-/

set_option autoImplicit false

namespace MatchChain

/-- A step from a value to something in it. -/
inductive Step where
  | field (name : String)
  | element (position : Nat)
deriving DecidableEq

/-- The key that a step reads: a name, or the text of a position. -/
def Step.key : Step → String
  | field name => name
  | element position => (Double.ofNat position).text

inductive Component where
  | value (v : Value)
  /-- A built-in method with the value that it belongs to. -/
  | method (fn : Native) (receiver : Value)

/-- What a value has under a key; undefined if it has nothing there. -/
def Heap.component (h : Heap) (v : Value) (key : String) : Component :=
  match v.method? key with
  | some fn => .method fn v
  | none => .value (h.part v key)

theorem Heap.component_object (h : Heap) (cell : Nat) (key : String) :
    h.component (.object cell) key = .value (((h.fields cell).get? key).getD .undefined) := by
  have hmethod : Value.method? (.object cell) key = none := by simp [Value.method?]
  rw [component, hmethod]
  rfl

theorem Heap.component_function (h : Heap) (cell : Nat) (key : String) :
    h.component (.function cell) key = .value .undefined := by
  have hmethod : Value.method? (.function cell) key = none := by simp [Value.method?]
  rw [component, hmethod]
  rfl

namespace Component

/-- The component one step further. Methods have none. -/
def step (h : Heap) (c : Component) (s : Step) : Component :=
  match c with
  | value v => h.component v s.key
  | method _ _ => .value .undefined

/-- The component at the end of a path. -/
def follow (h : Heap) (c : Component) (path : List Step) : Component := path.foldl (step h) c

/-- A value is the component: the value itself, or a function for the method. -/
def IsIn (h : Heap) (w : Value) : Component → Prop
  | value v => w = v
  | method fn receiver => ∃ cell, w = .function cell ∧ h.cells[cell]? = some (.native fn receiver)

theorem follow_concat (h : Heap) (c : Component) (path : List Step) (s : Step) :
    c.follow h (path ++ [s]) = (c.follow h path).step h s := by
  simp [follow]

theorem IsIn.mono {h h' : Heap} {w : Value} {c : Component} (hw : c.IsIn h w)
    (hcells : ∀ (i : Nat) (cell : Cell), h.cells[i]? = some cell → h'.cells[i]? = some cell) : c.IsIn h' w := by
  cases c with
  | value v => exact hw
  | method fn receiver =>
    obtain ⟨cell, rfl, hcell⟩ := hw
    exact ⟨cell, rfl, hcells cell _ hcell⟩

end Component

theorem Heap.Spawned.component {h h' : Heap} (hs : h.Spawned h') (v : Value) (key : String) :
    h'.component v key = h.component v key := by
  unfold Heap.component
  split
  · rfl
  · rw [hs.part_eq ‹_›]

/-! ## Places -/

/-- A selection with the steps that lead to it. -/
structure PlacedSelect where
  select : Select
  path : List Step

namespace Pattern

mutual

/-- The selections below a path with their places, each before those inside it, from left to right. -/
def placed (path : List Step) : Pattern → List PlacedSelect
  | array elements => elementPlaced path 0 elements
  | object fields => fieldPlaced path fields
  | select s => ⟨s, path⟩ :: innerPlaced path s
  | literal _ | typeTag _ | wildcard | not _ | when _ | set _ | map _ _ => []

def elementPlaced (path : List Step) (position : Nat) : List Pattern → List PlacedSelect
  | [] => []
  | p :: ps => p.placed (path ++ [.element position]) ++ elementPlaced path (position + 1) ps

def fieldPlaced (path : List Step) : List FieldPattern → List PlacedSelect
  | [] => []
  | ⟨name, p⟩ :: fs => p.placed (path ++ [.field name]) ++ fieldPlaced path fs

def innerPlaced (path : List Step) : Select → List PlacedSelect
  | ⟨_, _, none⟩ => []
  | ⟨_, _, some p⟩ => p.placed path

end

mutual

/-- A supported pattern has a place for each of its selections, in their order. -/
theorem map_select_placed : ∀ (p : Pattern) (path : List Step), p.unsupported? = none →
    (p.placed path).map (·.select) = p.selections
  | literal _, _, _ | typeTag _, _, _ | wildcard, _, _ => by
    rw [placed, selections, List.map_nil]
  | array elements, path, h => by
    rw [unsupported?] at h
    rw [placed, selections]
    exact map_select_elementPlaced elements path 0 h
  | object fields, path, h => by
    rw [unsupported?] at h
    rw [placed, selections]
    exact map_select_fieldPlaced fields path h
  | select s, path, h => by
    rw [unsupported?] at h
    rw [placed, selections, List.map_cons, map_select_innerPlaced s path h]
  | not _, _, h | when _, _, h | set _, _, h | map _ _, _, h => by
    rw [unsupported?] at h
    cases h

theorem map_select_elementPlaced : ∀ (ps : List Pattern) (path : List Step) (i : Nat),
    listUnsupported? ps = none → (elementPlaced path i ps).map (·.select) = listSelections ps
  | [], _, _, _ => by rw [elementPlaced, listSelections, List.map_nil]
  | p :: ps, path, i, h => by
    rw [listUnsupported?, Option.or_eq_none_iff] at h
    rw [elementPlaced, listSelections, List.map_append, map_select_placed p _ h.1,
      map_select_elementPlaced ps path (i + 1) h.2]

theorem map_select_fieldPlaced : ∀ (fs : List FieldPattern) (path : List Step),
    fieldUnsupported? fs = none → (fieldPlaced path fs).map (·.select) = fieldSelections fs
  | [], _, _ => by rw [fieldPlaced, fieldSelections, List.map_nil]
  | ⟨name, p⟩ :: fs, path, h => by
    rw [fieldUnsupported?, Option.or_eq_none_iff] at h
    rw [fieldPlaced, fieldSelections, List.map_append, map_select_placed p _ h.1,
      map_select_fieldPlaced fs path h.2]

theorem map_select_innerPlaced : ∀ (s : Select) (path : List Step),
    innerUnsupported? s = none → (innerPlaced path s).map (·.select) = innerSelections s
  | ⟨_, _, none⟩, _, _ => by rw [innerPlaced, innerSelections, List.map_nil]
  | ⟨_, _, some p⟩, path, h => by
    rw [innerUnsupported?] at h
    rw [innerPlaced, innerSelections, map_select_placed p path h]

end

end Pattern

/-- The selections of all alternatives with their places. -/
def Branch.placed (b : Branch) : List PlacedSelect := b.patterns.flatMap (Pattern.placed [])

theorem Branch.map_select_placed {b : Branch} (h : ∀ p ∈ b.patterns, p.unsupported? = none) :
    b.placed.map (·.select) = b.selections := by
  rw [placed, selections, List.map_flatMap]
  exact List.flatMap_congr fun p hp => p.map_select_placed [] (h p hp)

end MatchChain
