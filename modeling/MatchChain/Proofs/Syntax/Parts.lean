import MatchChain.Syntax.Basic

/-!
# The parts of a program

A part is anything in a tree that carries a span of its own. `Part.children` lists what a part holds
directly, so a property of every part of a tree is `Part.All` of a property of one part and its
children.

An `if` with an `else` is dangling if its first branch ends in an `if` that has none: written out, the
`else` would belong to that one.
-/

set_option autoImplicit false

namespace MatchChain

inductive Part where
  | expr (e : Expr)
  | stmt (s : Stmt)
  | binding (b : Binding)
  | param (p : Param)
  | property (p : Property)
  | declarator (d : Declarator)
  | func (fn : Func)
  | text (t : TemplateText)
  | specifier (s : ImportSpecifier)

namespace Part

def span : Part → Span
  | expr e => e.span
  | stmt s => s.span
  | binding b => b.span
  | param p => p.span
  | property (.init span _ _ _) | property (.spread span _) => span
  | declarator d => d.span
  | func fn => fn.span
  | text t => t.span
  | specifier s => s.span

/-! ## Children -/

def ofKey : PropKey → List Part
  | .computed e => [expr e]
  | _ => []

/-- A value that may be missing. -/
def ofValue (value : Option Expr) : List Part := value.toList.map expr

def ofElem : BindingElem → List Part
  | .hole => []
  | .item target default => binding target :: ofValue default
  | .rest target => [binding target]

def ofBindingProp : BindingProp → List Part
  | .item key value default _ => ofKey key ++ binding value :: ofValue default
  | .rest span name => [binding (.ident span name)]

def ofBody : FuncBody → List Part
  | .expr value => [expr value]
  | .block body => body.map stmt

def ofCatch (clause : CatchClause) : List Part := clause.param.toList.map binding ++ clause.body.map stmt

def ofExpr : Expr → List Part
  | .ident .. | .str .. | .num .. | .bigint .. | .bool .. | .null .. | .thisRef .. => []
  | .template _ texts holes => texts.map text ++ holes.map expr
  | .array _ items => items.map expr
  | .object _ props => props.map property
  | .func _ fn => [func fn]
  | .unary _ _ operand | .spread _ operand => [expr operand]
  | .binary _ _ left right => [expr left, expr right]
  | .conditional _ cond thenExpr elseExpr => [expr cond, expr thenExpr, expr elseExpr]
  | .assign _ _ target value => [expr target, expr value]
  | .member _ object _ _ => [expr object]
  | .index _ object key _ => [expr object, expr key]
  | .call _ callee args _ | .construct _ callee args => expr callee :: args.map expr

def ofStmt : Stmt → List Part
  | .expr _ value | .throwing _ value => [expr value]
  | .varDecl _ _ declarators => declarators.map declarator
  | .funcDecl _ fn => [func fn]
  | .ret _ value => ofValue value
  | .ifElse _ cond thenBranch elseBranch => expr cond :: stmt thenBranch :: elseBranch.toList.map stmt
  | .block _ body => body.map stmt
  | .labeled _ _ body => [stmt body]
  | .tryCatch _ body handler finalizer =>
    body.map stmt ++ handler.toList.flatMap ofCatch ++ (finalizer.getD []).map stmt
  | .whileLoop _ cond body => [expr cond, stmt body]
  | .importDecl _ specifiers _ => specifiers.map specifier
  | .breakTo .. | .continueTo .. | .empty .. => []

def children : Part → List Part
  | expr e => ofExpr e
  | stmt s => ofStmt s
  | binding (.ident ..) | text _ | specifier _ => []
  | binding (.array _ elems) => elems.flatMap ofElem
  | binding (.object _ props) => props.flatMap ofBindingProp
  | param p => binding p.target :: ofValue p.default
  | property (.init _ key value _) => ofKey key ++ [expr value]
  | property (.spread _ value) => [expr value]
  | declarator d => binding d.target :: ofValue d.init
  | func fn => fn.params.map param ++ ofBody fn.body

/-- The names that a part itself mentions, binds or jumps to. The name of a field is none of them. -/
def names : Part → List String
  | expr (.ident _ name) | binding (.ident _ name) | stmt (.labeled _ name _) => [name]
  | stmt (.breakTo _ label) | stmt (.continueTo _ label) => label.toList
  | func fn => fn.name.toList
  | specifier s => [s.localName]
  | _ => []

/-- The part and everything in it satisfy `P`. -/
inductive All (P : Part → Prop) : Part → Prop
  | intro {n : Part} : P n → (∀ m ∈ n.children, All P m) → All P n

variable {P Q : Part → Prop} {n : Part}

theorem All.here (h : All P n) : P n := by
  cases h with
  | intro hn _ => exact hn

theorem All.children (h : All P n) : ∀ m ∈ n.children, All P m := by
  cases h with
  | intro _ hchildren => exact hchildren

theorem All.imp (hPQ : ∀ n, P n → Q n) (h : All P n) : All Q n := by
  induction h with
  | intro hn _ ih => exact .intro (hPQ _ hn) ih

end Part

/-! ## Dangling branches -/

mutual

/-- Whether a statement ends in an `if` without `else`, to which an `else` after it would belong. -/
def Stmt.endsOpen : Stmt → Bool
  | .ifElse _ _ _ elseBranch => endsOpenElse elseBranch
  | .labeled _ _ body => body.endsOpen
  | .whileLoop _ _ body => body.endsOpen
  | _ => false

def endsOpenElse : Option Stmt → Bool
  | none => true
  | some s => s.endsOpen

end

/-- Whether an `else` stands after a branch that would take it. -/
def Stmt.isDangling : Stmt → Bool
  | .ifElse _ _ thenBranch (some _) => thenBranch.endsOpen
  | _ => false

def Part.isDangling : Part → Bool
  | .stmt s => s.isDangling
  | _ => false

/-- No statement of the program, at any depth, is dangling. -/
def Program.Attached (p : Program) : Prop := ∀ s ∈ p, (Part.stmt s).All (·.isDangling = false)

/-- Every identifier, binding and label of the program, at any depth, satisfies `A`. -/
def Program.EveryName (A : String → Prop) (p : Program) : Prop :=
  ∀ s ∈ p, (Part.stmt s).All fun n => ∀ x ∈ n.names, A x

end MatchChain
