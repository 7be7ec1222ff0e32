import MatchChain.Syntax.Basic

/-!
# Where parentheses are needed

The tree has no parentheses. An operand is wrapped when it binds less tightly than its place asks
for, and in a few places where the text would be read differently: an operand of `??` among `&&` and
`||`, the base of a power, a callee of a construction that holds a call, and an expression that
starts like a block or a declaration.
-/

set_option autoImplicit false

namespace MatchChain

/-! Levels of tightness outside the binary operators, which take 3 to 14. -/

namespace Tightness

/-- Assignments, arrow functions and spreads. -/
def assignment : Nat := 1
def conditional : Nat := 2
def unary : Nat := 15
/-- Members, indices, calls and constructions. -/
def postfixed : Nat := 16
def primary : Nat := 17

end Tightness

namespace Expr

/-- How tightly an expression holds together; a higher number is tighter. A negative number is
    written with a sign, so it counts as a unary expression. -/
def tightness : Expr → Nat
  | assign .. | spread .. => Tightness.assignment
  | func _ fn => if fn.kind == .arrow then Tightness.assignment else Tightness.primary
  | conditional .. => Tightness.conditional
  | binary _ op _ _ => op.precedence
  | unary .. => Tightness.unary
  | num _ value => if value.negative then Tightness.unary else Tightness.primary
  | member .. | index .. | call .. | construct .. => Tightness.postfixed
  | ident .. | str .. | bigint .. | bool .. | null .. | thisRef .. | template .. | array ..
  | object .. => Tightness.primary

/-- The binary operator at the root. -/
def binaryOp? : Expr → Option BinaryOp
  | binary _ op _ _ => some op
  | _ => none

/-- Whether `child` as an operand of `parent` would mix `??` with `&&` or `||`. -/
def mixesNullish (parent : BinaryOp) (child : Expr) : Bool :=
  match parent, child.binaryOp? with
  | .nullish, some .and | .nullish, some .or => true
  | .and, some .nullish | .or, some .nullish => true
  | _, _ => false

/-- Whether `left` is a unary expression as the base of a power. -/
def isUnaryBase (parent : BinaryOp) (left : Expr) : Bool :=
  parent == .exp && left.tightness == Tightness.unary

/-- Whether the text may start with a brace or a function keyword, which at the start of a statement
    or of an arrow's body would be read as a block or a declaration. -/
def startsLikeBlock : Expr → Bool
  | object .. => true
  | func _ fn => fn.kind != .arrow
  | binary _ _ left _ => left.startsLikeBlock
  | conditional _ cond _ _ => cond.startsLikeBlock
  | assign _ _ target _ => target.startsLikeBlock
  | member _ base _ _ => base.startsLikeBlock
  | index _ base _ _ => base.startsLikeBlock
  | call _ callee _ _ => !callee.isFunc && callee.startsLikeBlock
  | _ => false

/-- Whether there is a call among the links of a callee. -/
def hasCallLink : Expr → Bool
  | call .. => true
  | member _ base _ _ => base.hasCallLink
  | index _ base _ _ => base.hasCallLink
  | _ => false

/-- The sign that an operand's text starts with, if it does. -/
def leadingSign? : Expr → Option UnaryOp
  | unary _ op _ => some op
  | num _ value => if value.negative then some .neg else none
  | _ => none

/-- Whether an operator and its operand would run together into another token. -/
def signsCollide (op : UnaryOp) (operand : Expr) : Bool :=
  (op == .neg && operand.leadingSign? == some .neg)
    || (op == .plus && operand.leadingSign? == some .plus)

def isNum : Expr → Bool
  | num .. => true
  | _ => false

end Expr

end MatchChain
