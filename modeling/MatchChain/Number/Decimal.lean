import MatchChain.Number.Double

/-!
# Shortest decimals

The text of a number is built from the decimal with the fewest digits that reads back as the same
binary value. For one digit, two digits and so on, the two neighbours of the value on that decimal
grid are tried, in exact arithmetic; the first grid with a hit wins, and of two hits the nearer one.
-/

set_option autoImplicit false

namespace MatchChain

/-- `digits * 10 ^ exponent`. -/
structure Decimal where
  digits : Nat
  exponent : Int
deriving DecidableEq, Inhabited

/-- Which of two equally near decimals is taken. -/
inductive Tie where
  | toEven
  | up
deriving DecidableEq

namespace Decimal

/-- Compares `digits * 10 ^ exponent` with `n * 2 ^ j`. -/
def compareBinary (d : Decimal) (n : Nat) (j : Int) : Ordering :=
  compare (d.digits * Nat.pow 10 d.exponent.toNat * Nat.pow 2 (-j).toNat)
    (n * Nat.pow 2 j.toNat * Nat.pow 10 (-d.exponent).toNat)

/-- Number of decimal digits of a natural; 0 has none. -/
def width (n : Nat) : Nat := if n = 0 then 0 else (Nat.toDigits 10 n).length

/-- The exponent of the leading decimal digit of `num / den`, both positive. -/
def leadingExponent (num den : Nat) : Int :=
  if den ≤ num then (width (num / den) : Int) - 1
  else -(width ((den + num - 1) / num - 1) : Int)

end Decimal

namespace Double

/-- Whether a decimal lies among the reals that round to this value. The ends of that interval
    belong to it when the significand is even, and its lower half is narrower at a power of two. -/
def readsBack (x : Double) (d : Decimal) : Bool :=
  let v := x.exact
  let narrow := v.significand == Nat.pow 2 52 && -1074 < v.scale
  let lo := d.compareBinary (4 * v.significand - if narrow then 1 else 2) (v.scale - 2)
  let hi := d.compareBinary (4 * v.significand + 2) (v.scale - 2)
  let even := v.significand % 2 == 0
  (lo == .gt || (even && lo == .eq)) && (hi == .lt || (even && hi == .eq))

/-- The neighbour on the grid of multiples of `10 ^ unit` that reads back, the nearer of two. -/
def onGrid? (tie : Tie) (x : Double) (unit : Int) : Option Decimal :=
  let num := x.exact.num * Nat.pow 10 (-unit).toNat
  let den := x.exact.den * Nat.pow 10 unit.toNat
  let below : Decimal := ⟨num / den, unit⟩
  let above : Decimal := ⟨num / den + 1, unit⟩
  match x.readsBack below, x.readsBack above with
  | false, false => none
  | true, false => some below
  | false, true => some above
  | true, true =>
    match compare (2 * (num % den)) den, tie with
    | .lt, _ => some below
    | .gt, _ => some above
    | .eq, .up => some above
    | .eq, .toEven => if below.digits % 2 == 0 then some below else some above

/-- The shortest decimal that reads back, for a finite value other than zero. -/
def shortest (tie : Tie) (x : Double) : Decimal :=
  let lead := Decimal.leadingExponent x.exact.num x.exact.den
  ((List.range 17).findSome? fun (n : Nat) => x.onGrid? tie (lead - n)).getD
    ⟨x.exact.num / x.exact.den, 0⟩

end Double

end MatchChain
