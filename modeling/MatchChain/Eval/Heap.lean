import MatchChain.Eval.Value
import MatchChain.Syntax.Basic

/-!
# The heap

Cells for arrays, objects and functions. A cell is never freed, so its number is its identity.
-/

set_option autoImplicit false

namespace MatchChain

/-- The properties of an object, in the order in which they were first set. -/
abbrev Fields := List (String × Value)

namespace Fields

def get? (fs : Fields) (key : String) : Option Value := fs.lookup key

/-- Overwrites a property in its place, or adds it at the end. -/
def set : Fields → String → Value → Fields
  | [], key, value => [(key, value)]
  | (k, v) :: fs, key, value => if k == key then (k, value) :: fs else (k, v) :: set fs key value

def contains (fs : Fields) (key : String) : Bool := (fs.get? key).isSome

/-- Sets properties one after another. -/
def setAll (fs : Fields) (entries : List (String × Value)) : Fields :=
  entries.foldl (fun fs (key, value) => fs.set key value) fs

end Fields

/-- A function of the program with the scope that it was made in. -/
structure Closure where
  fn : Func
  scope : Nat
  /-- What `this` was where an arrow function was made; other functions have their caller's. -/
  this : Option Value

inductive Cell where
  | items (values : List Value)
  | fields (props : Fields)
  | closure (c : Closure)
  /-- A built-in function with the value that it was read from. -/
  | native (fn : Native) (receiver : Value)

structure Heap where
  cells : Array Cell := #[]
deriving Inhabited

namespace Heap

def size (h : Heap) : Nat := h.cells.size

/-- A new cell and its number. -/
def alloc (h : Heap) (c : Cell) : Nat × Heap := (h.cells.size, { h with cells := h.cells.push c })

def write (h : Heap) (cell : Nat) (c : Cell) : Heap :=
  { h with cells := h.cells.setIfInBounds cell c }

/-- The elements of an array. -/
def items (h : Heap) (cell : Nat) : List Value :=
  match h.cells[cell]? with
  | some (.items values) => values
  | _ => []

/-- The properties of an object. -/
def fields (h : Heap) (cell : Nat) : Fields :=
  match h.cells[cell]? with
  | some (.fields props) => props
  | _ => []

/-- A property of an object; other values have none of their own. -/
def ownProperty? (h : Heap) (v : Value) (key : String) : Option Value :=
  match v with
  | .object cell => (h.fields cell).get? key
  | _ => none

end Heap

end MatchChain
