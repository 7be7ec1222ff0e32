import MatchChain.Number.Double

/-!
# Reading numbers

A decimal text is a sign, digits with at most one point and at least one digit, and an exponent;
the words for infinity and NaN are read in any case. The value is the nearest one, ties to even.
-/

set_option autoImplicit false

namespace MatchChain.Double

/-- The value of decimal digits. -/
def digitsValue (ds : List Char) : Nat :=
  ds.foldl (fun n c => 10 * n + (c.toNat - '0'.toNat)) 0

/-- An optional sign in front of a text; true for minus. -/
def takeSign : List Char → Bool × List Char
  | '-' :: cs => (true, cs)
  | '+' :: cs => (false, cs)
  | cs => (false, cs)

/-- An exponent with nothing after it. -/
def exponent? : List Char → Option Int
  | [] => some 0
  | c :: cs =>
    if c = 'e' ∨ c = 'E' then
      let (negative, ds) := takeSign cs
      if ds ≠ [] ∧ ds.all Char.isDigit then
        some (if negative then -(digitsValue ds : Int) else digitsValue ds)
      else none
    else none

/-- An unsigned decimal. -/
def decimal? (negative : Bool) (cs : List Char) : Option Double :=
  let whole := cs.takeWhile Char.isDigit
  let afterWhole := cs.dropWhile Char.isDigit
  let (fraction, rest) := match afterWhole with
    | '.' :: ds => (ds.takeWhile Char.isDigit, ds.dropWhile Char.isDigit)
    | other => ([], other)
  if whole = [] ∧ fraction = [] then none
  else (exponent? rest).map fun e =>
    ofDecimal negative (digitsValue (whole ++ fraction)) (e - fraction.length)

/-- Reads a number text. -/
def parse? (text : List Char) : Option Double :=
  let (negative, cs) := takeSign text
  let word := cs.map Char.toLower
  if word = "inf".toList ∨ word = "infinity".toList then some { infinity with negative }
  else if word = "nan".toList then some { nan with negative }
  else decimal? negative cs

end MatchChain.Double
