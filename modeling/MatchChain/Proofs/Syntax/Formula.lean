import MatchChain.Proofs.Token.Spelling
import MatchChain.Syntax.Printer
import MatchChain.Syntax.Parser.Expr

/-!
# Formulas

A formula is an expression built from names, texts, truth values, `null` and `this` by operators,
members, indices, calls, array and object literals and arrow functions whose body is an expression.

`Expr.isFormula` looks at the shape of the tree only. `Expr.Written` adds what reading guarantees of a
formula, such as that a name is spelled like one and that an assignment has a target that can be
assigned to. `Tokens.expr` is the token list of a formula: the printer without its blanks.
-/

set_option autoImplicit false

namespace MatchChain

/-! ## The shape of formulas -/

namespace Formula

def isName : Binding → Bool
  | .ident .. => true
  | _ => false

mutual

/-- Whether an expression is a formula, or a spread one in a place that allows it. -/
def expr (spread : Bool) : Expr → Bool
  | .ident .. | .str .. | .bool .. | .null _ | .thisRef _ => true
  | .num .. | .bigint .. | .template .. | .construct .. => false
  | .array _ items => elements items
  | .object _ ps => props ps
  | .func _ fn => func fn
  | .unary _ _ operand => expr false operand
  | .binary _ _ left right => expr false left && expr false right
  | .conditional _ cond thenExpr elseExpr =>
    expr false cond && expr false thenExpr && expr false elseExpr
  | .assign _ _ target value => expr false target && expr false value
  | .member _ object _ _ => expr false object
  | .index _ object key _ => expr false object && expr false key
  | .call _ callee args _ => expr false callee && elements args
  | .spread _ operand => spread && expr false operand

/-- Arguments and array elements. -/
def elements : List Expr → Bool
  | [] => true
  | e :: es => expr true e && elements es

def props : List Property → Bool
  | [] => true
  | p :: ps => prop p && props ps

def prop : Property → Bool
  | .init _ key value _ => propKey key && expr false value
  | .spread _ value => expr false value

/-- Numbers are no formulas, as keys neither. -/
def propKey : PropKey → Bool
  | .ident _ | .str _ => true
  | .num _ => false
  | .computed e => expr false e

/-- Arrow functions whose parameters are names. -/
def func : Func → Bool
  | ⟨_, kind, _, ps, body, _, _⟩ => kind == .arrow && params ps && funcBody body

def params : List Param → Bool
  | [] => true
  | p :: ps => param p && params ps

def param : Param → Bool
  | ⟨_, target, default, _⟩ => isName target && default? default

def default? : Option Expr → Bool
  | none => true
  | some e => expr false e

def funcBody : FuncBody → Bool
  | .expr e => expr false e
  | .block _ => false

end

end Formula

/-- Whether an expression is built from the nodes of formulas only. -/
def Expr.isFormula (e : Expr) : Bool := Formula.expr false e

/-! ## What reading guarantees of a formula -/

namespace Written

/-- A property that stands alone has the name it reads as its key. -/
def IsAlone (key : PropKey) (value : Expr) : Prop :=
  ∃ span name, key = .ident name ∧ value = .ident span name

mutual

def expr (spread : Bool) : Expr → Prop
  | .ident _ name => IsName name
  | .str .. | .bool .. | .null _ | .thisRef _ => True
  | .num .. | .bigint .. | .template .. | .construct .. => False
  | .array _ items => elements items
  | .object _ ps => props ps
  | .func _ fn => func fn
  | .unary _ _ operand => expr false operand
  | .binary _ _ left right => expr false left ∧ expr false right
  | .conditional _ cond thenExpr elseExpr =>
    expr false cond ∧ expr false thenExpr ∧ expr false elseExpr
  | .assign _ _ target value =>
    Parser.isAssignable target = true ∧ expr false target ∧ expr false value
  | .member _ object property _ => expr false object ∧ IsWord property
  | .index _ object key _ => expr false object ∧ expr false key
  | .call _ callee args _ => expr false callee ∧ elements args
  | .spread _ operand => spread = true ∧ expr false operand

def elements : List Expr → Prop
  | [] => True
  | e :: es => expr true e ∧ elements es

def props : List Property → Prop
  | [] => True
  | p :: ps => prop p ∧ props ps

def prop : Property → Prop
  | .init _ key value shorthand =>
    propKey key ∧ expr false value ∧ (shorthand = true → IsAlone key value)
  | .spread _ value => expr false value

def propKey : PropKey → Prop
  | .ident name => IsWord name
  | .str _ => True
  | .num _ => False
  | .computed e => expr false e

def func : Func → Prop
  | ⟨_, kind, name, ps, body, _, isGenerator⟩ =>
    kind = .arrow ∧ name = none ∧ isGenerator = false ∧ params ps ∧ funcBody body

/-- The parameter that takes the rest of the arguments is the last. -/
def params : List Param → Prop
  | [] => True
  | p :: ps => param p ∧ (p.rest = true → ps = []) ∧ params ps

/-- The parameter that takes the rest of the arguments has no default. -/
def param : Param → Prop
  | ⟨_, target, default, rest⟩ =>
    (∃ span name, target = .ident span name ∧ IsName name) ∧ default? default ∧
      (rest = true → default = none)

def default? : Option Expr → Prop
  | none => True
  | some e => expr false e

def funcBody : FuncBody → Prop
  | .expr e => expr false e
  | .block _ => False

end

end Written

/-- A formula that could have been read. -/
def Expr.Written (e : Expr) : Prop := Written.expr false e

/-! ## The tokens of a formula -/

def BinaryOp.token : BinaryOp → TokenKind
  | add => .punct .plus
  | sub => .punct .minus
  | mul => .punct .star
  | div => .punct .slash
  | mod => .punct .percent
  | exp => .punct .starStar
  | looseEq => .punct .eqEq
  | looseNotEq => .punct .notEq
  | strictEq => .punct .eqEqEq
  | strictNotEq => .punct .notEqEq
  | lt => .punct .lt
  | ltEq => .punct .ltEq
  | gt => .punct .gt
  | gtEq => .punct .gtEq
  | bitAnd => .punct .amp
  | bitOr => .punct .pipe
  | bitXor => .punct .caret
  | shl => .punct .shl
  | shr => .punct .shr
  | ushr => .punct .ushr
  | isIn => .keyword .«in»
  | instanceOf => .keyword .«instanceof»
  | and => .punct .ampAmp
  | or => .punct .pipePipe
  | nullish => .punct .questionQuestion

def AssignOp.token : AssignOp → TokenKind
  | assign => .punct .eq
  | add => .punct .plusEq
  | sub => .punct .minusEq
  | mul => .punct .starEq
  | div => .punct .slashEq
  | mod => .punct .percentEq
  | and => .punct .ampAmpEq
  | or => .punct .pipePipeEq
  | nullish => .punct .questionQuestionEq

def UnaryOp.token : UnaryOp → TokenKind
  | not => .punct .bang
  | neg => .punct .minus
  | plus => .punct .plus
  | bitNot => .punct .tilde
  | typeOf => .keyword .«typeof»
  | void => .keyword .«void»
  | delete => .keyword .«delete»
  | await => .keyword .«await»

namespace BinaryOp

/-- The tightness that a place before the operator asks for. -/
def leftMin (op : BinaryOp) : Nat := if op.isRightAssoc then op.precedence + 1 else op.precedence

/-- The tightness that a place after the operator asks for. -/
def rightMin (op : BinaryOp) : Nat := if op.isRightAssoc then op.precedence else op.precedence + 1

theorem leftMin_le (op : BinaryOp) : op.leftMin ≤ op.precedence + 1 := by
  unfold leftMin
  split
  · exact Nat.le_refl _
  · exact Nat.le_succ _

theorem precedence_le_leftMin (op : BinaryOp) : op.precedence ≤ op.leftMin := by
  unfold leftMin
  split
  · exact Nat.le_succ _
  · exact Nat.le_refl _

theorem precedence_le_rightMin (op : BinaryOp) : op.precedence ≤ op.rightMin := by
  unfold rightMin
  split
  · exact Nat.le_refl _
  · exact Nat.le_succ _

theorem conditional_lt_precedence (op : BinaryOp) : Tightness.conditional < op.precedence := by
  cases op <;> decide

/-- An operator whose left operand may end in another operation leaves the right operand of that
    operation alone. -/
theorem precedence_lt_rightMin {op next : BinaryOp} (h : next.leftMin ≤ op.precedence) :
    next.precedence < op.rightMin := by
  revert h
  cases op <;> cases next <;> decide

theorem precedence_le (op : BinaryOp) : op.precedence ≤ 14 := by cases op <;> decide

theorem leftMin_le_primary (op : BinaryOp) : op.leftMin ≤ Tightness.primary := by cases op <;> decide

theorem rightMin_le_primary (op : BinaryOp) : op.rightMin ≤ Tightness.primary := by cases op <;> decide

end BinaryOp

namespace Tokens

def enclosed (opening closing : Punct) (kinds : List TokenKind) : List TokenKind :=
  .punct opening :: (kinds ++ [.punct closing])

theorem length_enclosed (opening closing : Punct) (kinds : List TokenKind) :
    (enclosed opening closing kinds).length = kinds.length + 2 := by
  rw [enclosed, List.length_cons, List.length_append, List.length_singleton]

def wrap (needed : Bool) (kinds : List TokenKind) : List TokenKind :=
  if needed then enclosed .lparen .rparen kinds else kinds

/-- The tokens of the expression `e` in a place that asks for some tightness. -/
def place (tightness : Nat) (e : Expr) (kinds : List TokenKind) : List TokenKind :=
  wrap (e.tightness < tightness) kinds

def separated : List (List TokenKind) → List TokenKind
  | [] => []
  | kinds :: more => kinds ++ more.flatMap (.punct .comma :: ·)

mutual

def expr : Expr → List TokenKind
  | .ident _ name => [.ident name]
  | .str _ text => [.str text]
  | .bool _ value => [.keyword (if value then .«true» else .«false»)]
  | .null _ => [.keyword .«null»]
  | .thisRef _ => [.keyword .«this»]
  | .num .. | .bigint .. | .template .. | .construct .. => []
  | .array _ elements => enclosed .lbracket .rbracket (separated (items elements))
  | .object _ properties => enclosed .lbrace .rbrace (separated (props properties))
  | .func _ fn => func fn
  | .unary _ op operand => op.token :: place Tightness.unary operand (expr operand)
  | .binary _ op left right =>
    wrap (left.tightness < op.leftMin || left.mixesNullish op || left.isUnaryBase op) (expr left)
      ++ op.token :: wrap (right.tightness < op.rightMin || right.mixesNullish op) (expr right)
  | .conditional _ cond thenExpr elseExpr =>
    place (Tightness.conditional + 1) cond (expr cond)
      ++ .punct .question :: (place Tightness.assignment thenExpr (expr thenExpr)
        ++ .punct .colon :: place Tightness.assignment elseExpr (expr elseExpr))
  | .assign _ op target value =>
    place Tightness.postfixed target (expr target)
      ++ op.token :: place Tightness.assignment value (expr value)
  | .member _ object property optional =>
    wrap (object.tightness < Tightness.postfixed || object.isNum) (expr object)
      ++ [.punct (if optional then .questionDot else .dot), Lexeme.wordKind property]
  | .index _ object key optional =>
    wrap (object.tightness < Tightness.postfixed || object.isNum) (expr object)
      ++ ((if optional then [.punct .questionDot] else []) ++ enclosed .lbracket .rbracket (expr key))
  | .call _ callee args optional =>
    wrap (callee.isFunc || callee.tightness < Tightness.postfixed) (expr callee)
      ++ ((if optional then [.punct .questionDot] else [])
        ++ enclosed .lparen .rparen (separated (items args)))
  | .spread _ operand => .punct .ellipsis :: place Tightness.assignment operand (expr operand)

def items : List Expr → List (List TokenKind)
  | [] => []
  | e :: es => place Tightness.assignment e (expr e) :: items es

def props : List Property → List (List TokenKind)
  | [] => []
  | p :: ps => prop p :: props ps

def prop : Property → List TokenKind
  | .init _ key value shorthand =>
    (if Print.isShorthand shorthand key value.identName? then [] else propKey key ++ [.punct .colon])
      ++ place Tightness.assignment value (expr value)
  | .spread _ value => .punct .ellipsis :: place Tightness.assignment value (expr value)

def propKey : PropKey → List TokenKind
  | .ident name => [Lexeme.wordKind name]
  | .str text => [.str text]
  | .num _ => []
  | .computed e => enclosed .lbracket .rbracket (place Tightness.assignment e (expr e))

def func : Func → List TokenKind
  | ⟨_, _, _, ps, body, isAsync, _⟩ =>
    (if isAsync then [.ident "async"] else [])
      ++ (enclosed .lparen .rparen (separated (params ps)) ++ .punct .arrow :: arrowBody body)

def arrowBody : FuncBody → List TokenKind
  | .expr e => wrap (e.startsLikeBlock || e.tightness < Tightness.assignment) (expr e)
  | .block _ => []

def params : List Param → List (List TokenKind)
  | [] => []
  | p :: ps => param p :: params ps

def param : Param → List TokenKind
  | ⟨_, target, default, rest⟩ =>
    (if rest then [.punct .ellipsis] else [])
      ++ (((Print.bindingName? target).map .ident).toList ++ default? default)

def default? : Option Expr → List TokenKind
  | none => []
  | some e => .punct .eq :: place Tightness.assignment e (expr e)

end

end Tokens

namespace Expr

theorem tightness_pos (e : Expr) : Tightness.assignment ≤ e.tightness := by
  cases e with
  | binary _ op =>
    show 1 ≤ op.precedence
    cases op <;> decide
  | func _ fn =>
    rw [tightness]
    split <;> decide
  | num _ value =>
    rw [tightness]
    split <;> decide
  | _ => exact Nat.le_of_ble_eq_true rfl

/-- Among the operands that need no parentheses after an operator, only unary ones are no postfixed or
    primary expressions. -/
theorem postfixed_le_of_unary_le {spread : Bool} {e : Expr} (h : Written.expr spread e)
    (hne : ∀ span op x, e ≠ .unary span op x) (ht : Tightness.unary ≤ e.tightness) :
    Tightness.postfixed ≤ e.tightness := by
  cases e with
  | unary span op x => exact absurd rfl (hne span op x)
  | num _ value =>
    exact h.elim
  | binary _ op => exact absurd (Nat.le_trans ht op.precedence_le) (by decide)
  | func _ fn =>
    rw [tightness] at ht ⊢
    split at ht
    · exact absurd ht (by decide)
    · rename_i hkind
      rw [if_neg hkind]
      decide
  | conditional | assign | spread => exact absurd ht (by simp [tightness, Tightness.unary, Tightness.conditional, Tightness.assignment])
  | _ => exact Nat.le_of_ble_eq_true rfl

end Expr

@[simp] theorem Print.place_assignment (e : Expr) (text : String) :
    Print.place Tightness.assignment e text = text := by
  simp [Print.place, Print.parenthesize, Nat.not_lt.mpr e.tightness_pos]

@[simp] theorem Tokens.place_assignment (e : Expr) (kinds : List TokenKind) :
    Tokens.place Tightness.assignment e kinds = kinds := by
  simp [Tokens.place, Tokens.wrap, Nat.not_lt.mpr e.tightness_pos]

end MatchChain
