import MatchChain.Syntax.Operator
import MatchChain.Token.Basic

/-!
# Syntax trees

Expressions, statements and binding patterns of the language. Every node carries the span it was read
from; a node that code generation made carries the span of the match expression it stands for.
Parentheses leave no trace in the tree: the printer works out where they are needed.
-/

set_option autoImplicit false

namespace MatchChain

inductive FuncKind where
  | arrow
  | expression
  | declaration
deriving DecidableEq, Inhabited

/-- What an import specifier binds: a named export, the default one, or the whole module. -/
inductive ImportKind where
  | named
  | default
  | star
deriving DecidableEq, Inhabited

structure ImportSpecifier where
  kind : ImportKind
  imported : String
  localName : String
  span : Span
deriving DecidableEq, Inhabited

mutual

inductive Expr where
  | ident (span : Span) (name : String)
  | str (span : Span) (text : String)
  | num (span : Span) (value : Double)
  | bigint (span : Span) (digits : String)
  | bool (span : Span) (value : Bool)
  | null (span : Span)
  | thisRef (span : Span)
  /-- A template literal; hole `i` stands between texts `i` and `i + 1`. -/
  | template (span : Span) (texts : List TemplateText) (holes : List Expr)
  | array (span : Span) (items : List Expr)
  | object (span : Span) (props : List Property)
  | func (span : Span) (fn : Func)
  | unary (span : Span) (op : UnaryOp) (operand : Expr)
  | binary (span : Span) (op : BinaryOp) (left right : Expr)
  | conditional (span : Span) (cond thenExpr elseExpr : Expr)
  | assign (span : Span) (op : AssignOp) (target value : Expr)
  | member (span : Span) (object : Expr) (property : String) (optional : Bool)
  | index (span : Span) (object key : Expr) (optional : Bool)
  | call (span : Span) (callee : Expr) (args : List Expr) (optional : Bool)
  | construct (span : Span) (callee : Expr) (args : List Expr)
  | spread (span : Span) (operand : Expr)

/-- A property of an object literal. -/
inductive Property where
  | init (span : Span) (key : PropKey) (value : Expr) (shorthand : Bool)
  | spread (span : Span) (value : Expr)

inductive PropKey where
  | ident (name : String)
  | str (text : String)
  | num (value : Double)
  | computed (expr : Expr)

structure Func where
  span : Span
  kind : FuncKind
  name : Option String
  params : List Param
  body : FuncBody
  isAsync : Bool
  isGenerator : Bool

structure Param where
  span : Span
  target : Binding
  default : Option Expr
  rest : Bool

inductive FuncBody where
  | expr (value : Expr)
  | block (body : List Stmt)

/-- What a declaration, a parameter or a catch clause binds. -/
inductive Binding where
  | ident (span : Span) (name : String)
  | array (span : Span) (elems : List BindingElem)
  | object (span : Span) (props : List BindingProp)

/-- An element of an array pattern. -/
inductive BindingElem where
  | hole
  | item (target : Binding) (default : Option Expr)
  | rest (target : Binding)

/-- A property of an object pattern; the rest is always a plain name. -/
inductive BindingProp where
  | item (key : PropKey) (value : Binding) (default : Option Expr) (shorthand : Bool)
  | rest (span : Span) (name : String)

inductive Stmt where
  | expr (span : Span) (value : Expr)
  | varDecl (span : Span) (kind : VarKind) (declarators : List Declarator)
  | funcDecl (span : Span) (fn : Func)
  | ret (span : Span) (value : Option Expr)
  | ifElse (span : Span) (cond : Expr) (thenBranch : Stmt) (elseBranch : Option Stmt)
  | block (span : Span) (body : List Stmt)
  | labeled (span : Span) (label : String) (body : Stmt)
  | breakTo (span : Span) (label : Option String)
  | continueTo (span : Span) (label : Option String)
  | throwing (span : Span) (value : Expr)
  | tryCatch (span : Span) (block : List Stmt) (handler : Option CatchClause)
      (finalizer : Option (List Stmt))
  | whileLoop (span : Span) (cond : Expr) (body : Stmt)
  | importDecl (span : Span) (specifiers : List ImportSpecifier) (source : String)
  | empty (span : Span)

structure CatchClause where
  param : Option Binding
  body : List Stmt

structure Declarator where
  span : Span
  target : Binding
  init : Option Expr

end

deriving instance Inhabited for Expr, Stmt, Binding, PropKey, Property, FuncBody, Func

/-- A program is its top-level statements. -/
abbrev Program := List Stmt

namespace Expr

def span : Expr → Span
  | ident s _ | str s _ | num s _ | bigint s _ | bool s _ | null s | thisRef s | template s _ _
  | array s _ | object s _ | func s _ | unary s _ _ | binary s _ _ _ | conditional s _ _ _
  | assign s _ _ _ | member s _ _ _ | index s _ _ _ | call s _ _ _ | construct s _ _
  | spread s _ => s

/-- The name of an expression's kind in messages. -/
def describe : Expr → String
  | ident .. => "identifier"
  | str .. => "string literal"
  | num .. => "number literal"
  | bigint .. => "bigint literal"
  | bool .. => "boolean literal"
  | null .. => "null"
  | thisRef .. => "this"
  | template .. => "template literal"
  | array .. => "array literal"
  | object .. => "object literal"
  | func .. => "function"
  | unary .. => "unary expression"
  | binary .. => "binary expression"
  | conditional .. => "conditional expression"
  | assign .. => "assignment"
  | member .. => "member access"
  | index .. => "index access"
  | call .. => "call expression"
  | construct .. => "new expression"
  | spread .. => "spread element"

/-- The name, if the expression is a bare identifier. -/
def identName? : Expr → Option String
  | ident _ name => some name
  | _ => none

def isCall : Expr → Bool
  | call .. => true
  | _ => false

def isFunc : Expr → Bool
  | func .. => true
  | _ => false

def isSpread : Expr → Bool
  | spread .. => true
  | _ => false

end Expr

namespace Stmt

def span : Stmt → Span
  | expr s _ | varDecl s _ _ | funcDecl s _ | ret s _ | ifElse s _ _ _ | block s _ | labeled s _ _
  | breakTo s _ | continueTo s _ | throwing s _ | tryCatch s _ _ _ | whileLoop s _ _
  | importDecl s _ _ | empty s => s

end Stmt

namespace Binding

def span : Binding → Span
  | ident s _ | array s _ | object s _ => s

def isIdent : Binding → Bool
  | ident .. => true
  | _ => false

end Binding

end MatchChain
