import MatchChain.Eval.Error
import MatchChain.Syntax.Operator
import MatchChain.Text.Units

/-!
# Operators on values

The operators that evaluate both operands. Bitwise ones work on words of thirty-two bits.
-/

set_option autoImplicit false

namespace MatchChain

/-- The index that a key names: digits, with a plus sign allowed, below the size of a word. -/
def Text.index? (key : String) : Option Nat :=
  let ds := match key.toList with
    | '+' :: ds => ds
    | ds => ds
  if ds.isEmpty || !ds.all Char.isDigit then none
  else
    let n := ds.foldl (fun n c => 10 * n + (c.toNat - '0'.toNat)) 0
    if n < Nat.pow 2 64 then some n else none

namespace Heap

/-- The word that a value stands for, modulo its size. -/
def word (h : Heap) (v : Value) : BitVec 32 := BitVec.ofNat 32 (h.toNumber v).toUInt32

/-- How far a value shifts. -/
def shiftAmount (h : Heap) (v : Value) : Nat := (h.toNumber v).toUInt32 % 32

/-- Whether values are added as texts. -/
def addsAsText : Value → Bool
  | .str _ | .array _ | .object _ => true
  | _ => false

def add (h : Heap) (a b : Value) : Value :=
  if addsAsText a || addsAsText b then .str (h.text a ++ h.text b)
  else .number ((h.toNumber a).add (h.toNumber b))

/-- The order of two values: of texts by code units, of all else by number. -/
def order? (h : Heap) : Value → Value → Option Ordering
  | .str a, .str b => some (Text.compareUnits a.toList b.toList)
  | a, b => (h.toNumber a).compare? (h.toNumber b)

/-- Whether a container has a key. -/
def hasKey (h : Heap) (span : Span) (key target : Value) : Except EvalError Bool :=
  match target with
  | .object cell => .ok ((h.fields cell).contains (h.text key))
  | .array cell =>
    let name := h.text key
    .ok (name == "length" || (Text.index? name).any (· < (h.items cell).length))
  | _ => .error (.type (.notSearchable (h.text key) (h.text target)) span)

/-- A binary operator on its operands. The ones that skip their right operand are decided before. -/
def binary (h : Heap) (span : Span) (op : BinaryOp) (a b : Value) : Except EvalError Value :=
  let arithmetic (f : Double → Double → Double) : Except EvalError Value :=
    .ok (.number (f (h.toNumber a) (h.toNumber b)))
  let signed (w : BitVec 32) : Except EvalError Value := .ok (.number (.ofInt w.toInt))
  match op with
  | .add => .ok (h.add a b)
  | .sub => arithmetic Double.sub
  | .mul => arithmetic Double.mul
  | .div => arithmetic Double.div
  | .mod => arithmetic Double.mod
  | .exp => arithmetic Double.pow
  | .strictEq => .ok (.bool (a.strictEq b))
  | .strictNotEq => .ok (.bool (!a.strictEq b))
  | .looseEq => .ok (.bool (h.looseEq a b))
  | .looseNotEq => .ok (.bool (!h.looseEq a b))
  | .lt => .ok (.bool (h.order? a b == some .lt))
  | .gt => .ok (.bool (h.order? a b == some .gt))
  | .ltEq => .ok (.bool (h.order? a b == some .lt || h.order? a b == some .eq))
  | .gtEq => .ok (.bool (h.order? a b == some .gt || h.order? a b == some .eq))
  | .bitAnd => signed (h.word a &&& h.word b)
  | .bitOr => signed (h.word a ||| h.word b)
  | .bitXor => signed (h.word a ^^^ h.word b)
  | .shl => signed (h.word a <<< h.shiftAmount b)
  | .shr => signed ((h.word a).sshiftRight (h.shiftAmount b))
  | .ushr => .ok (.number (.ofNat (h.word a >>> h.shiftAmount b).toNat))
  | .isIn => (h.hasKey span a b).map .bool
  | .instanceOf => .error (.unsupported "`instanceof`" span)
  | .and | .or | .nullish =>
    .error (.unsupported ("`" ++ op.text ++ "` without short-circuiting") span)

/-- The opposite of a big integer, by its digits. -/
def negateDigits (digits : String) : String :=
  match digits.toList with
  | '-' :: ds => String.ofList ds
  | _ => if digits == "0" then digits else "-" ++ digits

/-- A unary operator on its operand. -/
def unary (h : Heap) (span : Span) (op : UnaryOp) (v : Value) : Except EvalError Value :=
  match op with
  | .not => .ok (.bool (!v.isTruthy))
  | .neg =>
    match v with
    | .bigint digits => .ok (.bigint (negateDigits digits))
    | v => .ok (.number (h.toNumber v).neg)
  | .plus => .ok (.number (h.toNumber v))
  | .bitNot => .ok (.number (.ofInt (~~~(h.word v)).toInt))
  | .typeOf => .ok (.str v.kindName)
  | .void => .ok .undefined
  | .delete | .await => .error (.unsupported ("`" ++ op.text ++ "`") span)

end Heap

end MatchChain
