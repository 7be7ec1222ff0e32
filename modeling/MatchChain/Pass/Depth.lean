import MatchChain.Syntax.Basic

/-!
# How deep a walk goes

The walk of a program goes on into the code that a chain becomes, so its nesting is not that of the
program. `Depth` bounds it. A call that may be a link of a chain pays for its share of the code: a fixed
amount, an amount for every test and capture that its arguments can lead to, and what they hold
themselves.
-/

set_option autoImplicit false

namespace MatchChain.Depth

mutual

/-- How much an argument that stands for a pattern adds to the code, at most. -/
def breadth : Expr → Nat
  | .array _ items => 1 + breadths items
  | .object _ props => 1 + propBreadths props
  | .call _ _ args _ => 2 + breadths args
  | _ => 1

def breadths : List Expr → Nat
  | [] => 0
  | e :: es => breadth e + breadths es

def propBreadths : List Property → Nat
  | [] => 0
  | .init _ _ value _ :: ps => breadth value + propBreadths ps
  | .spread .. :: ps => propBreadths ps

end

/-- What a link of a chain pays, apart from its arguments. -/
def link : Nat := 256

mutual

/-- The depth that the walk of an expression needs. A target whose span is `known` has been walked
    before. -/
def expr (known : Span → Bool) : Expr → Nat
  | .ident .. | .str .. | .num .. | .bigint .. | .bool .. | .null _ | .thisRef _ => 4
  | .template _ _ holes => 4 + exprs known holes
  | .array _ items => 4 + exprs known items
  | .object _ ps => 4 + props known ps
  | .func _ fn => 4 + func known fn
  | .unary _ _ operand => 4 + expr known operand
  | .binary _ _ left right => 4 + max (expr known left) (expr known right)
  | .conditional _ cond thenExpr elseExpr =>
    4 + max (expr known cond) (max (expr known thenExpr) (expr known elseExpr))
  | .assign _ _ target value => 4 + max (expr known target) (expr known value)
  | .member _ object _ _ => 4 + expr known object
  | .index _ object key _ => 4 + max (expr known object) (expr known key)
  | .call _ (.func _ fn) args _ => 4 + max (4 + func known fn) (exprs known args)
  | .call _ callee args _ => link + 32 * breadths args + expr known callee + exprs known args
  | .construct _ callee args => 4 + max (expr known callee) (exprs known args)
  | .spread _ operand => 4 + expr known operand

def exprs (known : Span → Bool) : List Expr → Nat
  | [] => 0
  | e :: es => max (expr known e) (exprs known es)

def expr? (known : Span → Bool) : Option Expr → Nat
  | none => 0
  | some e => expr known e

def props (known : Span → Bool) : List Property → Nat
  | [] => 0
  | p :: ps => max (prop known p) (props known ps)

def prop (known : Span → Bool) : Property → Nat
  | .init _ key value _ => 4 + max (propKey known key) (expr known value)
  | .spread _ value => 4 + expr known value

def propKey (known : Span → Bool) : PropKey → Nat
  | .computed e => 4 + expr known e
  | _ => 4

def func (known : Span → Bool) : Func → Nat
  | ⟨_, _, _, ps, body, _, _⟩ => 4 + max (params known ps) (funcBody known body)

def params (known : Span → Bool) : List Param → Nat
  | [] => 0
  | ⟨_, target, default, _⟩ :: ps =>
    max (max (binding known target) (expr? known default)) (params known ps)

def funcBody (known : Span → Bool) : FuncBody → Nat
  | .expr e => expr known e
  | .block body => stmts known body

def binding (known : Span → Bool) : Binding → Nat
  | .ident .. => 4
  | .array _ es => 4 + elems known es
  | .object _ ps => 4 + bindingProps known ps

def elems (known : Span → Bool) : List BindingElem → Nat
  | [] => 0
  | e :: es => max (elem known e) (elems known es)

def elem (known : Span → Bool) : BindingElem → Nat
  | .hole => 4
  | .item target default => 4 + max (binding known target) (expr? known default)
  | .rest target => 4 + binding known target

def bindingProps (known : Span → Bool) : List BindingProp → Nat
  | [] => 0
  | p :: ps => max (bindingProp known p) (bindingProps known ps)

def bindingProp (known : Span → Bool) : BindingProp → Nat
  | .item key value default _ =>
    4 + max (propKey known key) (max (binding known value) (expr? known default))
  | .rest .. => 4

/-- The depth that the walk of a statement needs. The code of an assigned chain holds the target
    beside what is assigned. -/
def stmt (known : Span → Bool) : Stmt → Nat
  | .expr _ (.assign _ _ target value) =>
    4 + ((if known target.span then 4 else expr known target) + expr known value)
  | .expr _ e => 4 + expr known e
  | .varDecl _ _ ds => 4 + declarators known ds
  | .funcDecl _ fn => 4 + func known fn
  | .ret _ value => 4 + expr? known value
  | .ifElse _ cond thenBranch elseBranch =>
    4 + max (expr known cond) (max (stmt known thenBranch) (stmt? known elseBranch))
  | .block _ body => 4 + stmts known body
  | .labeled _ _ body => 4 + stmt known body
  | .throwing _ value => 4 + expr known value
  | .tryCatch _ body handler finalizer =>
    4 + max (stmts known body) (max (catchClause? known handler) (stmts? known finalizer))
  | .whileLoop _ cond body => 4 + max (expr known cond) (stmt known body)
  | .breakTo .. | .continueTo .. | .importDecl .. | .empty .. => 4

def stmts (known : Span → Bool) : List Stmt → Nat
  | [] => 4
  | s :: ss => max (4 + stmt known s) (stmts known ss)

def stmt? (known : Span → Bool) : Option Stmt → Nat
  | none => 0
  | some s => stmt known s

def stmts? (known : Span → Bool) : Option (List Stmt) → Nat
  | none => 0
  | some ss => stmts known ss

def declarators (known : Span → Bool) : List Declarator → Nat
  | [] => 0
  | ⟨_, target, init⟩ :: ds =>
    max (binding known target + expr? known init) (declarators known ds)

def catchClause? (known : Span → Bool) : Option CatchClause → Nat
  | none => 0
  | some ⟨none, body⟩ => stmts known body
  | some ⟨some param, body⟩ => max (binding known param) (stmts known body)

end

end MatchChain.Depth
