/-!
# Operators

The operators of the language with their spelling, and for binary operators how tightly they bind.
-/

set_option autoImplicit false

namespace MatchChain

inductive BinaryOp where
  | add | sub | mul | div | mod | exp
  | looseEq | looseNotEq | strictEq | strictNotEq
  | lt | ltEq | gt | gtEq
  | bitAnd | bitOr | bitXor
  | shl | shr | ushr
  | isIn | instanceOf
  | and | or | nullish
deriving DecidableEq, Inhabited

namespace BinaryOp

def text : BinaryOp → String
  | add => "+"
  | sub => "-"
  | mul => "*"
  | div => "/"
  | mod => "%"
  | exp => "**"
  | looseEq => "=="
  | looseNotEq => "!="
  | strictEq => "==="
  | strictNotEq => "!=="
  | lt => "<"
  | ltEq => "<="
  | gt => ">"
  | gtEq => ">="
  | bitAnd => "&"
  | bitOr => "|"
  | bitXor => "^"
  | shl => "<<"
  | shr => ">>"
  | ushr => ">>>"
  | isIn => "in"
  | instanceOf => "instanceof"
  | and => "&&"
  | or => "||"
  | nullish => "??"

/-- A higher number binds tighter. -/
def precedence : BinaryOp → Nat
  | nullish => 3
  | or => 4
  | and => 5
  | bitOr => 6
  | bitXor => 7
  | bitAnd => 8
  | looseEq | looseNotEq | strictEq | strictNotEq => 9
  | lt | ltEq | gt | gtEq | isIn | instanceOf => 10
  | shl | shr | ushr => 11
  | add | sub => 12
  | mul | div | mod => 13
  | exp => 14

/-- Only the power operator groups to the right. -/
def isRightAssoc (op : BinaryOp) : Bool := op == exp

end BinaryOp

inductive UnaryOp where
  | not | neg | plus | bitNot | typeOf | void | delete | await
deriving DecidableEq, Inhabited

namespace UnaryOp

def text : UnaryOp → String
  | not => "!"
  | neg => "-"
  | plus => "+"
  | bitNot => "~"
  | typeOf => "typeof"
  | void => "void"
  | delete => "delete"
  | await => "await"

/-- Whether the operator is spelled as a word. -/
def isWord : UnaryOp → Bool
  | typeOf | void | delete | await => true
  | _ => false

end UnaryOp

inductive AssignOp where
  | assign | add | sub | mul | div | mod | and | or | nullish
deriving DecidableEq, Inhabited

namespace AssignOp

def text : AssignOp → String
  | assign => "="
  | add => "+="
  | sub => "-="
  | mul => "*="
  | div => "/="
  | mod => "%="
  | and => "&&="
  | or => "||="
  | nullish => "??="

/-- The operation that a compound assignment performs; none for a plain one. -/
def binary? : AssignOp → Option BinaryOp
  | assign => none
  | add => some .add
  | sub => some .sub
  | mul => some .mul
  | div => some .div
  | mod => some .mod
  | and => some .and
  | or => some .or
  | nullish => some .nullish

end AssignOp

/-- The three declaration keywords. -/
inductive VarKind where
  | letVar | constVar | plainVar
deriving DecidableEq, Inhabited

def VarKind.text : VarKind → String
  | letVar => "let"
  | constVar => "const"
  | plainVar => "var"

end MatchChain
