import MatchChain.Syntax.Basic

/-!
# Visiting trees

`Visit` lists the expressions, statements and patterns of a tree in source order, each before what it
holds. Whether to look inside a function is up to the caller; an occurrence knows whether it lies
inside one. The analyses of the program are questions about this list.
-/

set_option autoImplicit false

namespace MatchChain

namespace Binding

mutual

/-- The names that a pattern binds, in source order. -/
def names : Binding → List String
  | ident _ name => [name]
  | array _ elems => elemNames elems
  | object _ props => propNames props

def elemNames : List BindingElem → List String
  | [] => []
  | .hole :: es => elemNames es
  | .item target _ :: es => target.names ++ elemNames es
  | .rest target :: es => target.names ++ elemNames es

def propNames : List BindingProp → List String
  | [] => []
  | .item _ value _ _ :: ps => value.names ++ propNames ps
  | .rest _ name :: ps => name :: propNames ps

end

end Binding

inductive Node where
  | expr (e : Expr)
  | stmt (s : Stmt)
  | binding (b : Binding)

/-- A node of a tree, and whether it lies inside a function of that tree. -/
structure Visit where
  node : Node
  nested : Bool

namespace Visit

mutual

/-- An expression and what it holds; `enter` says which functions to look into. -/
def ofExpr (enter : Func → Bool) (nested : Bool) : Expr → List Visit
  | e@(.ident ..) | e@(.str ..) | e@(.num ..) | e@(.bigint ..) | e@(.bool ..) | e@(.null ..)
  | e@(.thisRef ..) => [⟨.expr e, nested⟩]
  | e@(.template _ _ holes) => ⟨.expr e, nested⟩ :: ofExprs enter nested holes
  | e@(.array _ items) => ⟨.expr e, nested⟩ :: ofExprs enter nested items
  | e@(.object _ props) => ⟨.expr e, nested⟩ :: ofProps enter nested props
  | e@(.func _ fn) => ⟨.expr e, nested⟩ :: ofFunc enter fn
  | e@(.unary _ _ operand) => ⟨.expr e, nested⟩ :: ofExpr enter nested operand
  | e@(.binary _ _ left right) =>
    ⟨.expr e, nested⟩ :: (ofExpr enter nested left ++ ofExpr enter nested right)
  | e@(.conditional _ cond thenExpr elseExpr) =>
    ⟨.expr e, nested⟩ :: (ofExpr enter nested cond ++ ofExpr enter nested thenExpr
      ++ ofExpr enter nested elseExpr)
  | e@(.assign _ _ target value) =>
    ⟨.expr e, nested⟩ :: (ofExpr enter nested target ++ ofExpr enter nested value)
  | e@(.member _ object _ _) => ⟨.expr e, nested⟩ :: ofExpr enter nested object
  | e@(.index _ object key _) =>
    ⟨.expr e, nested⟩ :: (ofExpr enter nested object ++ ofExpr enter nested key)
  | e@(.call _ callee args _) =>
    ⟨.expr e, nested⟩ :: (ofExpr enter nested callee ++ ofExprs enter nested args)
  | e@(.construct _ callee args) =>
    ⟨.expr e, nested⟩ :: (ofExpr enter nested callee ++ ofExprs enter nested args)
  | e@(.spread _ operand) => ⟨.expr e, nested⟩ :: ofExpr enter nested operand

def ofExprs (enter : Func → Bool) (nested : Bool) : List Expr → List Visit
  | [] => []
  | e :: es => ofExpr enter nested e ++ ofExprs enter nested es

def ofExpr? (enter : Func → Bool) (nested : Bool) : Option Expr → List Visit
  | none => []
  | some e => ofExpr enter nested e

def ofProps (enter : Func → Bool) (nested : Bool) : List Property → List Visit
  | [] => []
  | .init _ key value _ :: ps =>
    ofKey enter nested key ++ ofExpr enter nested value ++ ofProps enter nested ps
  | .spread _ value :: ps => ofExpr enter nested value ++ ofProps enter nested ps

def ofKey (enter : Func → Bool) (nested : Bool) : PropKey → List Visit
  | .computed e => ofExpr enter nested e
  | _ => []

def ofFunc (enter : Func → Bool) : Func → List Visit
  | fn@⟨_, _, _, params, body, _, _⟩ =>
    if enter fn then ofParams enter params ++ ofBody enter body else []

def ofParams (enter : Func → Bool) : List Param → List Visit
  | [] => []
  | ⟨_, target, default, _⟩ :: ps =>
    ofBinding enter true target ++ ofExpr? enter true default ++ ofParams enter ps

def ofBody (enter : Func → Bool) : FuncBody → List Visit
  | .expr e => ofExpr enter true e
  | .block body => ofStmts enter true body

def ofBinding (enter : Func → Bool) (nested : Bool) : Binding → List Visit
  | b@(.ident ..) => [⟨.binding b, nested⟩]
  | b@(.array _ elems) => ⟨.binding b, nested⟩ :: ofElems enter nested elems
  | b@(.object _ props) => ⟨.binding b, nested⟩ :: ofBindingProps enter nested props

def ofElems (enter : Func → Bool) (nested : Bool) : List BindingElem → List Visit
  | [] => []
  | .hole :: es => ofElems enter nested es
  | .item target default :: es =>
    ofBinding enter nested target ++ ofExpr? enter nested default ++ ofElems enter nested es
  | .rest target :: es => ofBinding enter nested target ++ ofElems enter nested es

def ofBindingProps (enter : Func → Bool) (nested : Bool) : List BindingProp → List Visit
  | [] => []
  | .item key value default _ :: ps =>
    ofKey enter nested key ++ ofBinding enter nested value ++ ofExpr? enter nested default
      ++ ofBindingProps enter nested ps
  | .rest .. :: ps => ofBindingProps enter nested ps

/-- A statement and what it holds. -/
def ofStmt (enter : Func → Bool) (nested : Bool) : Stmt → List Visit
  | s@(.expr _ e) => ⟨.stmt s, nested⟩ :: ofExpr enter nested e
  | s@(.varDecl _ _ ds) => ⟨.stmt s, nested⟩ :: ofDeclarators enter nested ds
  | s@(.funcDecl _ fn) => ⟨.stmt s, nested⟩ :: ofFunc enter fn
  | s@(.ret _ value) => ⟨.stmt s, nested⟩ :: ofExpr? enter nested value
  | s@(.ifElse _ cond thenBranch elseBranch) =>
    ⟨.stmt s, nested⟩ :: (ofExpr enter nested cond ++ ofStmt enter nested thenBranch
      ++ ofStmt? enter nested elseBranch)
  | s@(.block _ body) => ⟨.stmt s, nested⟩ :: ofStmts enter nested body
  | s@(.labeled _ _ body) => ⟨.stmt s, nested⟩ :: ofStmt enter nested body
  | s@(.breakTo ..) | s@(.continueTo ..) | s@(.importDecl ..) | s@(.empty ..) =>
    [⟨.stmt s, nested⟩]
  | s@(.throwing _ value) => ⟨.stmt s, nested⟩ :: ofExpr enter nested value
  | s@(.tryCatch _ body handler finalizer) =>
    ⟨.stmt s, nested⟩ :: (ofStmts enter nested body ++ ofCatch enter nested handler
      ++ ofStmts? enter nested finalizer)
  | s@(.whileLoop _ cond body) =>
    ⟨.stmt s, nested⟩ :: (ofExpr enter nested cond ++ ofStmt enter nested body)

def ofStmts (enter : Func → Bool) (nested : Bool) : List Stmt → List Visit
  | [] => []
  | s :: ss => ofStmt enter nested s ++ ofStmts enter nested ss

def ofStmt? (enter : Func → Bool) (nested : Bool) : Option Stmt → List Visit
  | none => []
  | some s => ofStmt enter nested s

def ofStmts? (enter : Func → Bool) (nested : Bool) : Option (List Stmt) → List Visit
  | none => []
  | some ss => ofStmts enter nested ss

def ofDeclarators (enter : Func → Bool) (nested : Bool) : List Declarator → List Visit
  | [] => []
  | ⟨_, target, init⟩ :: ds =>
    ofBinding enter nested target ++ ofExpr? enter nested init ++ ofDeclarators enter nested ds

def ofCatch (enter : Func → Bool) (nested : Bool) : Option CatchClause → List Visit
  | none => []
  | some ⟨none, body⟩ => ofStmts enter nested body
  | some ⟨some param, body⟩ => ofBinding enter nested param ++ ofStmts enter nested body

end

/-- The name, if the node is an identifier. -/
def identName? (v : Visit) : Option String :=
  match v.node with
  | .expr (.ident _ name) => some name
  | _ => none

end Visit

/-- All identifiers that an expression mentions, inside functions too. -/
def Expr.identNames (e : Expr) : List String :=
  (Visit.ofExpr (fun _ => true) false e).filterMap Visit.identName?

/-- Everything in a program, inside functions too. -/
def Program.visits (p : Program) : List Visit := Visit.ofStmts (fun _ => true) false p

/-- Whether an expression anywhere in a program mentions a name. -/
def Program.mentions (p : Program) (name : String) : Bool :=
  p.visits.any (·.identName? == some name)

end MatchChain
