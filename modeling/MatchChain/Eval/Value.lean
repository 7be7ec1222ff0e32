import MatchChain.Number.Double

/-!
# Run-time values

Arrays, objects and functions are references to cells of the heap, so that two values are the same
one exactly when they refer to the same cell.
-/

set_option autoImplicit false

namespace MatchChain

/-- The functions that every program has. -/
inductive Native where
  | isArray
  | isNaN
  | stringify
  | error
  | string
  | log
  | push
  | join
  | arrayIncludes
  | stringIncludes
  | toUpperCase
  | toLowerCase
deriving DecidableEq, Inhabited

def Native.name : Native → String
  | .isArray => "isArray"
  | .isNaN => "isNaN"
  | .stringify => "stringify"
  | .error => "Error"
  | .string => "String"
  | .log => "log"
  | .push => "push"
  | .join => "join"
  | .arrayIncludes | .stringIncludes => "includes"
  | .toUpperCase => "toUpperCase"
  | .toLowerCase => "toLowerCase"

inductive Value where
  | undefined
  | null
  | bool (b : Bool)
  | number (x : Double)
  /-- Digits, which are compared and not computed with. -/
  | bigint (digits : String)
  | str (text : String)
  | array (cell : Nat)
  | object (cell : Nat)
  | function (cell : Nat)
deriving DecidableEq, Inhabited

namespace Value

/-- The name of a value's kind, as programs ask for it. -/
def kindName : Value → String
  | undefined => "undefined"
  | null | array _ | object _ => "object"
  | bool _ => "boolean"
  | number _ => "number"
  | bigint _ => "bigint"
  | str _ => "string"
  | function _ => "function"

def isNullish : Value → Bool
  | undefined | null => true
  | _ => false

/-- Whether a value counts as true in a condition. -/
def isTruthy : Value → Bool
  | undefined | null => false
  | bool b => b
  | number x => !(x.isNaN || x.isZero)
  | bigint digits => digits != "0"
  | str text => text != ""
  | array _ | object _ | function _ => true

def text? : Value → Option String
  | str text => some text
  | _ => none

def number? : Value → Option Double
  | number x => some x
  | _ => none

/-- Whether a value refers to a cell. -/
def isReference : Value → Bool
  | array _ | object _ | function _ => true
  | _ => false

/-- Equality without conversion. Not-a-number differs from itself, and both zeros are equal. -/
def strictEq : Value → Value → Bool
  | undefined, undefined | null, null => true
  | bool a, bool b => a == b
  | number a, number b => a.eq b
  | bigint a, bigint b | str a, str b => a == b
  | array a, array b | object a, object b | function a, function b => a == b
  | _, _ => false

/-- Strict equality, except that not-a-number equals itself. -/
def sameValueZero : Value → Value → Bool
  | number a, number b => (a.isNaN && b.isNaN) || a.eq b
  | a, b => a.strictEq b

end Value

end MatchChain
