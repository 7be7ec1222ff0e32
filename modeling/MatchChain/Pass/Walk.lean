import MatchChain.Pass.Compile

/-!
# Walking a file

Statements are visited in source order, each before its parts. A statement that consists of a call
and where its value goes is offered for compilation first; every other call is offered as a value.
Generated code is walked again, so that match expressions inside handlers are compiled in their new
place.

The calls of a chain that could be read as one but not compiled are not offered again.
-/

set_option autoImplicit false

namespace MatchChain

/-- A statement after the walk: with its parts walked, or replaced by others. -/
inductive Walked where
  | same (s : Stmt)
  | replaced (ss : List Stmt)

namespace Walked

def toList : Walked → List Stmt
  | same s => [s]
  | replaced ss => ss

/-- One statement, in a place that holds only one. -/
def toStmt (span : Span) : Walked → Stmt
  | same s => s
  | replaced ss => .block span ss

end Walked

/-- The call that fixes a statement's shape, with its placement: the initial value of a single
    declarator or the right side of a plain assignment. -/
def Stmt.callSite? (s : Stmt) : Option (Expr × Placement) :=
  match s with
  | .varDecl _ _ [_] | .expr _ (.assign ..) =>
    s.site?.filter fun (value, placement) => value.isCall && placement.isStatement
  | _ => none

namespace Pass

mutual

/-- An expression. If it is a call it is offered for compilation, unless it has been. -/
def expr (ctx : PassContext) : (depth : Nat) → (offered : Bool) → Expr → Pass Expr
  | 0, _, _ => failure
  | n + 1, offered, e => do
    if offered || !e.isCall then parts ctx n offered e
    else
      match ← compile ctx e .value with
      | .generated (.expr code) => parts ctx n false code
      | .failed => parts ctx n true e
      | _ => parts ctx n false e

/-- The parts of an expression. If it was offered as a chain, so were the calls inside it. -/
def parts (ctx : PassContext) : (depth : Nat) → (offered : Bool) → Expr → Pass Expr
  | 0, _, _ => failure
  | n + 1, offered, e => do
    let walk := expr ctx n false
    match e with
    | .ident .. | .str .. | .num .. | .bigint .. | .bool .. | .null .. | .thisRef .. => return e
    | .template span texts holes => return .template span texts (← holes.mapM walk)
    | .array span items => return .array span (← items.mapM walk)
    | .object span props => return .object span (← props.mapM (prop ctx n))
    | .func span fn => return .func span (← func ctx n fn)
    | .unary span op operand => return .unary span op (← walk operand)
    | .binary span op left right => return .binary span op (← walk left) (← walk right)
    | .conditional span cond thenExpr elseExpr =>
      return .conditional span (← walk cond) (← walk thenExpr) (← walk elseExpr)
    | .assign span op target value =>
      return .assign span op (← walk target) (← walk value)
    | .member span object property optional =>
      return .member span (← expr ctx n offered object) property optional
    | .index span object key optional => return .index span (← walk object) (← walk key) optional
    | .call span callee args optional =>
      let callee ← if offered then parts ctx n true callee else walk callee
      return .call span callee (← args.mapM walk) optional
    | .construct span callee args => return .construct span (← walk callee) (← args.mapM walk)
    | .spread span operand => return .spread span (← walk operand)

def prop (ctx : PassContext) : (depth : Nat) → Property → Pass Property
  | 0, _ => failure
  | n + 1, .init span key value shorthand => do
    let key ← propKey ctx n key
    return .init span key (← expr ctx n false value) shorthand
  | n + 1, .spread span value => return .spread span (← expr ctx n false value)

def propKey (ctx : PassContext) : (depth : Nat) → PropKey → Pass PropKey
  | 0, _ => failure
  | n + 1, .computed e => return .computed (← expr ctx n false e)
  | _, key => return key

def func (ctx : PassContext) : (depth : Nat) → Func → Pass Func
  | 0, _ => failure
  | n + 1, fn => do
    let params ← fn.params.mapM fun p => do
      let target ← binding ctx n p.target
      return { p with target, default := ← p.default.mapM (expr ctx n false) }
    let body ← match fn.body with
      | .expr e => do pure (FuncBody.expr (← expr ctx n false e))
      | .block body => do pure (FuncBody.block (← stmts ctx n body))
    return { fn with params, body }

/-- A pattern, whose defaults and computed keys may hold match expressions too. -/
def binding (ctx : PassContext) : (depth : Nat) → Binding → Pass Binding
  | 0, _ => failure
  | n + 1, b => do
    match b with
    | .ident .. => return b
    | .array span elems => return .array span (← elems.mapM (bindingElem ctx n))
    | .object span props => return .object span (← props.mapM (bindingProp ctx n))

def bindingElem (ctx : PassContext) : (depth : Nat) → BindingElem → Pass BindingElem
  | 0, _ => failure
  | _ + 1, .hole => return .hole
  | n + 1, .item target default => do
    let target ← binding ctx n target
    return .item target (← default.mapM (expr ctx n false))
  | n + 1, .rest target => return .rest (← binding ctx n target)

def bindingProp (ctx : PassContext) : (depth : Nat) → BindingProp → Pass BindingProp
  | 0, _ => failure
  | n + 1, .item key value default shorthand => do
    let key ← propKey ctx n key
    let value ← binding ctx n value
    return .item key value (← default.mapM (expr ctx n false)) shorthand
  | _ + 1, .rest span name => return .rest span name

/-- Statements, some of which may be replaced by several. -/
def stmts (ctx : PassContext) : (depth : Nat) → List Stmt → Pass (List Stmt)
  | 0, _ => failure
  | n + 1, ss => return (← ss.mapM (stmt ctx n)).flatMap Walked.toList

/-- A statement: compiled with the call that fixes its shape, or else with its parts walked. -/
def stmt (ctx : PassContext) : (depth : Nat) → Stmt → Pass Walked
  | 0, _ => failure
  | n + 1, s => do
    match s.callSite? with
    | none => return .same (← stmtParts ctx n false s)
    | some (call, placement) =>
      let placement ← currentPlacement placement
      match ← compile ctx call placement with
      | .generated (.stmts code) =>
        shareTarget placement
        return .replaced (← stmts ctx n code)
      | .failed => return .same (← stmtParts ctx n true s)
      | _ => return .same (← stmtParts ctx n false s)

/-- The parts of a statement, whose call may have been offered already. -/
def stmtParts (ctx : PassContext) : (depth : Nat) → (offered : Bool) → Stmt → Pass Stmt
  | 0, _, _ => failure
  | n + 1, offered, s => do
    let walk := expr ctx n false
    let single (s : Stmt) : Pass Stmt := return (← stmt ctx n s).toStmt s.span
    match s with
    | .expr span (.assign aspan op target value) =>
      let target ← walkTarget walk target
      return .expr span (.assign aspan op target (← expr ctx n offered value))
    | .expr span e => return .expr span (← walk e)
    | .throwing span e => return .throwing span (← walk e)
    | .ret span value => return .ret span (← value.mapM walk)
    | .varDecl span kind ds =>
      return .varDecl span kind (← ds.mapM fun d => do
        let target ← binding ctx n d.target
        return { d with target, init := ← d.init.mapM (expr ctx n offered) })
    | .funcDecl span fn => return .funcDecl span (← func ctx n fn)
    | .ifElse span cond thenBranch elseBranch =>
      let cond ← walk cond
      let thenBranch ← single thenBranch
      return .ifElse span cond thenBranch (← elseBranch.mapM single)
    | .block span body => return .block span (← stmts ctx n body)
    | .labeled span label body => return .labeled span label (← single body)
    | .tryCatch span body handler finalizer =>
      let body ← stmts ctx n body
      let handler ← handler.mapM fun h => do
        let param ← h.param.mapM (binding ctx n)
        return { param, body := ← stmts ctx n h.body }
      return .tryCatch span body handler (← finalizer.mapM (stmts ctx n))
    | .whileLoop span cond body =>
      let cond ← walk cond
      return .whileLoop span cond (← single body)
    | .breakTo .. | .continueTo .. | .importDecl .. | .empty .. => return s

end

end Pass

end MatchChain
