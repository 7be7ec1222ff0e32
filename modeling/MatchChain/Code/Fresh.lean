/-!
# Fresh names

Names for one match expression: its number in the file, then a number of the name.
-/

set_option autoImplicit false

namespace MatchChain

structure FreshNames where
  ordinal : Nat
  next : Nat := 0

namespace FreshNames

def name (ordinal n : Nat) : String := "__patty_" ++ toString ordinal ++ "_" ++ toString n

/-- The next name, and the supply without it. -/
def mint (f : FreshNames) : String × FreshNames :=
  (name f.ordinal f.next, { f with next := f.next + 1 })

/-- The next name if one is wanted. -/
def mintIf (f : FreshNames) (wanted : Bool) : Option String × FreshNames :=
  if wanted then (some f.mint.1, f.mint.2) else (none, f)

/-- The names that have been taken from the supply. -/
def taken (f : FreshNames) : List String := (List.range f.next).map (name f.ordinal)

end FreshNames

/-- Steps that may fail and take fresh names. What was taken is gone, even if a later step fails. -/
abbrev Naming (ε : Type) := ExceptT ε (StateM FreshNames)

namespace Naming

variable {ε : Type}

def fresh : Naming ε String := modifyGet FreshNames.mint

def freshIf (wanted : Bool) : Naming ε (Option String) := modifyGet (·.mintIf wanted)

end Naming

end MatchChain
