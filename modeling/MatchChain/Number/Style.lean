import MatchChain.Number.Decimal

/-!
# Number texts

A number is written from its shortest decimal. Where the decimal point goes, when an exponent is
used and how zero and infinity look differ between the four places that write numbers, so each of
them is one value of `NumberStyle`.
-/

set_option autoImplicit false

namespace MatchChain

/-- How a number is laid out. -/
structure NumberStyle where
  /-- A leading digit at `10 ^ e` is written without an exponent for `plainFrom ≤ e < plainBelow`. -/
  plainFrom : Int
  plainBelow : Int
  /-- Whether an integral value written without an exponent ends in `.0`. -/
  pointZero : Bool
  /-- Whether a positive exponent has a `+`. -/
  exponentPlus : Bool
  /-- Whether negative zero keeps its sign. -/
  signedZero : Bool
  infinity : String
  tie : Tie
deriving DecidableEq

namespace NumberStyle

/-- As a number literal in printed code. -/
def literal : NumberStyle where
  plainFrom := -400
  plainBelow := 21
  pointZero := false
  exponentPlus := false
  signedZero := true
  infinity := "Infinity"
  tie := .up

/-- As the field name that a numeric key of an object pattern stands for. -/
def fieldName : NumberStyle where
  plainFrom := -400
  plainBelow := 400
  pointZero := false
  exponentPlus := false
  signedZero := true
  infinity := "inf"
  tie := .up

/-- As the string that a running program gets from a number. -/
def runtime : NumberStyle where
  plainFrom := -7
  plainBelow := 21
  pointZero := false
  exponentPlus := true
  signedZero := false
  infinity := "Infinity"
  tie := .up

/-- As a JSON number that is no safe integer. -/
def json : NumberStyle where
  plainFrom := -5
  plainBelow := 16
  pointZero := true
  exponentPlus := true
  signedZero := true
  infinity := "null"
  tie := .toEven

def zeros (n : Nat) : List Char := List.replicate n '0'

/-- The decimal's digits, without trailing zeros, and the exponent of the leading one. -/
def significant (d : Decimal) : List Char × Int :=
  let ds := Nat.toDigits 10 d.digits
  ((ds.reverse.dropWhile (· == '0')).reverse, (ds.length : Int) - 1 + d.exponent)

/-- The digits `ds`, the first of which is worth `10 ^ lead`. -/
def layout (style : NumberStyle) (ds : List Char) (lead : Int) : List Char :=
  if style.plainFrom ≤ lead ∧ lead < style.plainBelow then
    if lead < 0 then '0' :: '.' :: (zeros (-lead - 1).toNat ++ ds)
    else
      let whole := lead.toNat + 1
      if ds.length ≤ whole then
        ds ++ zeros (whole - ds.length) ++ if style.pointZero then ['.', '0'] else []
      else ds.take whole ++ '.' :: ds.drop whole
  else
    let mantissa := match ds with
      | d :: e :: rest => d :: '.' :: e :: rest
      | short => short
    let sign := if lead < 0 then ['-'] else if style.exponentPlus then ['+'] else []
    mantissa ++ 'e' :: (sign ++ Nat.toDigits 10 lead.natAbs)

/-- The text of a number. -/
def render (style : NumberStyle) (x : Double) : String :=
  let sign := if x.negative then "-" else ""
  if x.isNaN then "NaN"
  else if x.isInfinite then sign ++ style.infinity
  else if x.isZero then
    (if style.signedZero then sign else "") ++ "0" ++ if style.pointZero then ".0" else ""
  else
    let (ds, lead) := significant (x.shortest style.tie)
    sign ++ String.ofList (style.layout ds lead)

end NumberStyle

namespace Double

/-- The text of a number literal. -/
def literalText (x : Double) : String := NumberStyle.literal.render x

/-- The string conversion of a number in a running program. -/
def text (x : Double) : String := NumberStyle.runtime.render x

/-- The field name of a numeric key in an object pattern. -/
def fieldText (x : Double) : String := NumberStyle.fieldName.render x

/-- The JSON text of a number: an integer up to `2 ^ 53 - 1` without a fraction, and `null` for
    what JSON cannot write. -/
def jsonText (x : Double) : String :=
  if !x.isFinite then "null"
  else if x.isIntegral && x.abs.le (ofNat (Nat.pow 2 53 - 1)) then toString x.truncate
  else NumberStyle.json.render x

end Double

end MatchChain
