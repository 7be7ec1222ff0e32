/-!
# Interned strings

An interner gives every distinct string a number, counting from zero in the order of first
appearance. The empty string is there from the start, so it is number 0, and a number that was never
given out stands for the empty string.
-/

set_option autoImplicit false

namespace MatchChain

/-- The strings seen so far, each once, in the order of their numbers. -/
structure Interner where
  strings : Array String := #[""]

namespace Interner

def empty : Interner := {}

/-- The number of a string, and the interner that knows it. -/
def intern (table : Interner) (s : String) : Nat × Interner :=
  match table.strings.idxOf? s with
  | some i => (i, table)
  | none => (table.strings.size, ⟨table.strings.push s⟩)

def lookup (table : Interner) (i : Nat) : String := (table.strings[i]?).getD ""

/-- How many strings are known, the empty one included. -/
def size (table : Interner) : Nat := table.strings.size

end Interner

end MatchChain
