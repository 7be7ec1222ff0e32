/-!
# Binary64 numbers

The numbers of the language are IEEE binary64 values. A value is kept as its sign and its
*magnitude*, the remaining 63 bits read as a natural number. The magnitudes of finite values, then
infinity, then the NaNs follow each other in the order of the naturals, so comparison is comparison
of integers (`rank`), and a correctly rounded value is one division (`ofRatio`).

Comparison, conversion from and to integers, remainder, reading and printing are exact integer
arithmetic. Sum, product, quotient and power go through the hardware.
-/

set_option autoImplicit false

namespace MatchChain

/-- A binary64 value: its sign bit and the 63 bits below it. -/
structure Double where
  negative : Bool
  magnitude : Nat
deriving DecidableEq, Inhabited

namespace Double

/-- Magnitude of the infinities; every larger one is a NaN. -/
def infinityMagnitude : Nat := 0x7FF * Nat.pow 2 52

def zero : Double := ⟨false, 0⟩
def infinity : Double := ⟨false, infinityMagnitude⟩
def nan : Double := ⟨false, infinityMagnitude + Nat.pow 2 51⟩

def isNaN (d : Double) : Bool := infinityMagnitude < d.magnitude
def isInfinite (d : Double) : Bool := d.magnitude == infinityMagnitude
def isFinite (d : Double) : Bool := d.magnitude < infinityMagnitude
def isZero (d : Double) : Bool := d.magnitude == 0

def neg (d : Double) : Double := { d with negative := !d.negative }
def abs (d : Double) : Double := { d with negative := false }

def toFloat (d : Double) : Float :=
  Float.ofBits (UInt64.ofNat (d.magnitude + if d.negative then Nat.pow 2 63 else 0))

def ofFloat (x : Float) : Double :=
  let bits := x.toBits.toNat
  ⟨Nat.pow 2 63 ≤ bits, bits % Nat.pow 2 63⟩

/-! ## Exact values -/

/-- A finite magnitude is `significand * 2 ^ scale`. -/
structure Exact where
  significand : Nat
  scale : Int
deriving DecidableEq

/-- The exact value of a finite magnitude. -/
def exact (d : Double) : Exact :=
  let e : Nat := d.magnitude / Nat.pow 2 52
  let f : Nat := d.magnitude % Nat.pow 2 52
  if e = 0 then ⟨f, -1074⟩ else ⟨Nat.pow 2 52 + f, (e : Int) - 1075⟩

/-- The exact value as a quotient of naturals. -/
def Exact.num (x : Exact) : Nat := x.significand * Nat.pow 2 x.scale.toNat
def Exact.den (x : Exact) : Nat := Nat.pow 2 (-x.scale).toNat

/-- The integer nearest to `num / den`; a half goes to the even neighbour. -/
def roundHalfEven (num den : Nat) : Nat :=
  let q := num / den
  let r := num % den
  if 2 * r < den then q
  else if den < 2 * r then q + 1
  else if q % 2 = 0 then q else q + 1

/-- The largest `k` with `2 ^ k ≤ num / den`, for positive `num` and `den`. -/
def ratioLog2 (num den : Nat) : Int :=
  let k : Int := (num.log2 : Int) - den.log2
  if num * Nat.pow 2 (-k).toNat < den * Nat.pow 2 k.toNat then k - 1 else k

/-- The value nearest to `num / den`, ties to even; too large a quotient is infinity. The last bit
    of the result is worth `2 ^ q`, so its magnitude is its significand plus `2 ^ 52` for every
    step of `q` above the smallest. -/
def ofRatio (negative : Bool) (num den : Nat) : Double :=
  if num = 0 then ⟨negative, 0⟩
  else
    let q := max (ratioLog2 num den - 52) (-1074)
    let m := roundHalfEven (num * Nat.pow 2 (-q).toNat) (den * Nat.pow 2 q.toNat)
    ⟨negative, min ((q + 1074).toNat * Nat.pow 2 52 + m) infinityMagnitude⟩

def ofNat (n : Nat) : Double := ofRatio false n 1

def ofInt (i : Int) : Double := ofRatio (i < 0) i.natAbs 1

/-- The nearest value to `digits * 10 ^ exponent`. A decimal whose leading digit is far outside the
    range of finite values is settled without computing its power of ten. -/
def ofDecimal (negative : Bool) (digits : Nat) (exponent : Int) : Double :=
  if digits = 0 then ⟨negative, 0⟩
  else
    let lead := ((Nat.toDigits 10 digits).length : Int) + exponent
    if 400 < lead then ⟨negative, infinityMagnitude⟩
    else if lead < -400 then ⟨negative, 0⟩
    else ofRatio negative (digits * Nat.pow 10 exponent.toNat) (Nat.pow 10 (-exponent).toNat)

/-! ## Comparison -/

/-- Position of a value that is not NaN in the order of the reals; both zeros have the same. -/
def rank (d : Double) : Int := if d.negative then -(d.magnitude : Int) else d.magnitude

/-- IEEE equality: NaN differs from everything, the zeros are equal. -/
def eq (a b : Double) : Bool := !a.isNaN && !b.isNaN && a.rank == b.rank

/-- IEEE comparison: none when either side is NaN. -/
def compare? (a b : Double) : Option Ordering :=
  if a.isNaN || b.isNaN then none else some (compare a.rank b.rank)

def lt (a b : Double) : Bool := a.compare? b == some .lt
def le (a b : Double) : Bool := a.compare? b == some .lt || a.compare? b == some .eq

/-! ## Integers -/

/-- Whether a value is finite and has no fractional part. -/
def isIntegral (d : Double) : Bool :=
  d.isFinite && d.exact.num % d.exact.den == 0

/-- The integer part of a finite value, toward zero. -/
def truncate (d : Double) : Int :=
  let n : Nat := d.exact.num / d.exact.den
  if d.negative then -(n : Int) else n

/-- The low 32 bits of the integer part; a value that is not finite gives 0. -/
def toUInt32 (d : Double) : Nat :=
  if d.isFinite then (d.truncate.emod 0x100000000).toNat else 0

/-- The low 32 bits read as a signed word. -/
def toInt32 (d : Double) : Int := Int.bmod d.toUInt32 0x100000000

/-! ## Arithmetic -/

def add (a b : Double) : Double := ofFloat (a.toFloat + b.toFloat)
def sub (a b : Double) : Double := ofFloat (a.toFloat - b.toFloat)
def mul (a b : Double) : Double := ofFloat (a.toFloat * b.toFloat)
def div (a b : Double) : Double := ofFloat (a.toFloat / b.toFloat)
def pow (a b : Double) : Double := ofFloat (Float.pow a.toFloat b.toFloat)

/-- Remainder of the division that truncates: exact, with the sign of the dividend. -/
def mod (a b : Double) : Double :=
  if a.isNaN || b.isNaN || a.isInfinite || b.isZero then nan
  else if b.isInfinite then a
  else
    let x := a.exact
    let y := b.exact
    let r := (x.num * y.den) % (y.num * x.den)
    ofRatio a.negative r (x.den * y.den)

end Double

end MatchChain
