/-!
# Code units

Texts are measured and compared in units of sixteen bits: a character beyond the first plane counts
as two, a leading and a trailing one.
-/

set_option autoImplicit false

namespace MatchChain.Text

def charUnits (c : Char) : List Nat :=
  let n := c.toNat
  if n < 0x10000 then [n]
  else [0xD800 + (n - 0x10000) / 0x400, 0xDC00 + (n - 0x10000) % 0x400]

def units (cs : List Char) : List Nat := cs.flatMap charUnits

/-- The order of two sequences by their first difference; a part at the start comes first. -/
def compareLists : List Nat → List Nat → Ordering
  | [], [] => .eq
  | [], _ :: _ => .lt
  | _ :: _, [] => .gt
  | a :: as, b :: bs => (compare a b).then (compareLists as bs)

/-- The order of texts by their code units. -/
def compareUnits (a b : List Char) : Ordering := compareLists (units a) (units b)

/-- Whether a text occurs in another. -/
def occursIn (part : List Char) : List Char → Bool
  | [] => part.isEmpty
  | c :: cs => part.isPrefixOf (c :: cs) || occursIn part cs

end MatchChain.Text
