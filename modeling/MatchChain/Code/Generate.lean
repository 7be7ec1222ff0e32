import MatchChain.Code.Error
import MatchChain.Code.Fresh
import MatchChain.Code.Handler
import MatchChain.Code.Placement
import MatchChain.Code.Sink
import MatchChain.Code.Test
import MatchChain.Match.Basic

/-!
# Generating code

Branches become conditions in order, each of which leaves through the sink. The subject is read once
into a fresh name unless it is harmless to repeat. All generated nodes carry the span of the match
expression.
-/

set_option autoImplicit false

namespace MatchChain

/-- Which subjects may be repeated in place. -/
inductive CostModel where
  /-- Names only: anything else may run code. -/
  | namesOnly
  /-- Also a plain field of a name. -/
  | trustFields
deriving DecidableEq, Inhabited

def CostModel.isCheap : CostModel → Expr → Bool
  | _, .ident .. => true
  | .trustFields, .member _ (.ident ..) _ false => true
  | _, _ => false

structure GenerateOptions where
  nullSafe : Bool := true
  cost : CostModel := .namesOnly
deriving DecidableEq

/-- What takes the place of a match expression, or of the statement around it. -/
inductive Generated where
  | expr (e : Expr)
  | stmts (ss : List Stmt)

/-! ## Checks -/

/-- Whether an expression is a value that cannot be called. -/
def Expr.isUncallable : Expr → Bool
  | .str .. | .num .. | .bigint .. | .bool .. | .null .. | .template .. | .array .. | .object .. =>
    true
  | _ => false

namespace Handler

def callee? : Handler → Option Expr
  | .callable callee => some callee
  | .inline _ => none

end Handler

namespace MatchExpr

/-- All handlers, the fallback last. -/
def handlers (m : MatchExpr) : List Handler := m.branches.map (·.handler) ++ m.fallback.toList

/-- A handler that cannot be called. -/
def handlerFault? (m : MatchExpr) : Option GenerateError :=
  ((m.handlers.filterMap Handler.callee?).find? Expr.isUncallable).map fun e =>
    .invalidHandler e.describe e.span

/-- The expressions that end up inside the wrapping function as they are. -/
def hosted (m : MatchExpr) : List Expr :=
  m.branches.flatMap (fun b => b.guard.toList ++ b.handler.callee?.toList)
    ++ (m.fallback.bind Handler.callee?).toList

/-- An expression that waits inside the wrapping function. -/
def awaitFault? (m : MatchExpr) : Option GenerateError :=
  (m.hosted.find? Expr.awaits).map fun e => .awaitInValue e.span

end MatchExpr

/-! ## Handlers -/

/-- How a branch runs its handler. -/
inductive Invocation where
  | moved (fn : Func)
  | called (callee : Expr)

/-- Moves a function into place if that keeps its meaning. -/
def Handler.plan (span : Span) (targetNames : List String) : Handler → Invocation
  | .callable callee => .called callee
  | .inline fn =>
    if (fn.refusal? targetNames).isSome then .called (.func span fn) else .moved fn

/-- The names that a moved handler binds around its body. -/
def Invocation.boundNames : Invocation → List String
  | .moved fn => fn.topLevelNames
  | .called _ => []

/-- The settings for one match expression. -/
structure Emission where
  span : Span
  nullSafe : Bool
  sink : Sink
  /-- What the tests read: the subject or the name that holds it. -/
  subject : Expr

namespace Emission

def style (em : Emission) : AccessStyle := ⟨em.span, em.nullSafe⟩

/-- A declaration of one target. -/
def declare (span : Span) (kind : VarKind) (target : Binding) (init : Option Expr) : Stmt :=
  .varDecl span kind [⟨span, target, init⟩]

/-- The arguments by position: the selection if there is one, then the subject. Destructuring needs
    a value even where no argument is given. -/
def argument? (em : Emission) (selection : Option Expr) (position : Nat) (target : Binding) :
    Option Expr :=
  match position, selection with
  | 0, some selection => some selection
  | 0, none | 1, _ => some em.subject
  | _, _ => if target.isIdent then none else some (.ident em.span "undefined")

/-- Parameters from a position on as declarations. -/
def parameters (em : Emission) (selection : Option Expr) (position : Nat) :
    List Param → List Stmt
  | [] => []
  | p :: ps =>
    declare em.span .letVar p.target (em.argument? selection position p.target)
      :: em.parameters selection (position + 1) ps

/-- The body of a moved function. Control that falls off its end delivers undefined. -/
def body (em : Emission) : FuncBody → List Stmt
  | .expr value => em.sink.exit em.span (some value)
  | .block ss =>
    let redirected := match em.sink with
      | .ret => ss
      | .assign .. => (em.sink.redirectAll? em.span ss).getD ss
    redirected ++ if listCanComplete ss then em.sink.exit em.span none else []

/-- The block that runs a handler and leaves. -/
def invoke (em : Emission) (selection : Option Expr) : Invocation → Stmt
  | .moved fn => .block em.span (em.parameters selection 0 fn.params ++ em.body fn.body)
  | .called callee =>
    let value := .call em.span callee (selection.toList ++ [em.subject]) false
    .block em.span (em.sink.exit em.span (some value))

/-! ## Branches -/

/-- The condition that some alternative matches; none if one of them always does. -/
def alternatives? (em : Emission) (patterns : List Pattern) : Option Expr :=
  let tests := patterns.map fun p => Expr.joined? em.span .and (p.tests em.style em.subject)
  if tests.any Option.isNone then none else Expr.joined? em.span .or (tests.filterMap id)

/-- The condition of a branch with its guard. -/
def condition? (em : Emission) (b : Branch) : Option Expr :=
  let test := em.alternatives? b.patterns
  match b.guard with
  | none => test
  | some guard =>
    let check := .call em.span guard [em.subject] false
    some <| match test with
      | some test => .binary em.span .and test check
      | none => check

/-- The selected components of a branch, as its handler receives them. -/
def selection? (em : Emission) (b : Branch) : Option Expr :=
  Capture.value? em.span (b.patterns.flatMap (Pattern.captures em.style em.subject))

/-- The statements of branches in order, and whether the last of them is always taken. What follows
    such a branch is left out. -/
def branches (em : Emission) : List (Branch × Invocation) → Except GenerateError (List Stmt × Bool)
  | [] => .ok ([], false)
  | (b, plan) :: rest => do
    b.patterns.forM (Pattern.checkTestable em.span)
    let block := em.invoke (em.selection? b) plan
    match em.condition? b with
    | none => return ([block], true)
    | some test =>
      let (stmts, always) ← em.branches rest
      return (.ifElse em.span test block none :: stmts, always)

/-- The statements that report a subject that nothing matches: it is shown as JSON if it can be. -/
def noMatch (em : Emission) (shown error : String) : List Stmt :=
  let span := em.span
  let assignShown (value : Expr) : List Stmt :=
    [.expr span (.assign span .assign (.ident span shown) value)]
  let message := .template span
    [⟨"Pattern matching error: no pattern matches value ", span⟩, ⟨"", span⟩] [.ident span shown]
  [declare span .letVar (.ident span shown) none,
   .tryCatch span (assignShown (em.style.globalCall "JSON" "stringify" em.subject))
    (some ⟨some (.ident span error), assignShown em.subject⟩) none,
   .throwing span (.construct span (.ident span "Error") [message])]

/-- What follows branches that do not cover every value. -/
def unmatched (em : Emission) (m : MatchExpr) : Naming GenerateError (List Stmt) := do
  match m.fallback.map (·.plan em.span em.sink.targetNames) with
  | some plan => return [em.invoke none plan]
  | none => if m.exhaustive then return [] else return em.noMatch (← Naming.fresh) (← Naming.fresh)

/-! ## Whole expressions -/

/-- A function with these parameters, called at once. -/
def callAtOnce (span : Span) (cache : Option (String × Expr)) (body : List Stmt) : Expr :=
  let params := cache.toList.map fun (name, _) =>
    { span, target := .ident span name, default := none, rest := false }
  let fn := { span, kind := .arrow, name := none, params, body := .block body,
              isAsync := false, isGenerator := false }
  .call span (.func span fn) (cache.toList.map (·.2)) false

/-- The labelled block in its place: what it assigns is declared before, and bound to its pattern
    or constant after. -/
def place (span : Span) (labeled : Stmt) (temp : Option String) : Placement → List Stmt
  | .declaration kind name =>
    match temp with
    | none => [declare span kind (.ident span name) none, labeled]
    | some temp => rebind temp kind (.ident span name)
  | .destructuring kind target =>
    match temp with
    | none => [labeled]
    | some temp => rebind temp kind target
  | .value | .assignment _ => [labeled]
where
  rebind (temp : String) (kind : VarKind) (target : Binding) : List Stmt :=
    [declare span .letVar (.ident span temp) none, labeled,
      declare span kind target (some (.ident span temp))]

end Emission

namespace Placement

/-- Whether the result goes through a name of its own: a constant cannot be assigned later, and a
    pattern only at once. -/
def needsTemp : Placement → Bool
  | declaration .constVar _ | destructuring .. => true
  | _ => false

/-- What is assigned, where `temp` is the result's own name if it has one. -/
def target? (span : Span) (temp : Option String) : Placement → Option Expr
  | value => none
  | declaration _ name => some (.ident span (temp.getD name))
  | destructuring .. => temp.map (.ident span)
  | assignment target => some target

/-- Where the branches deliver their values. -/
def sink (span : Span) (temp label : Option String) (placement : Placement) : Sink :=
  match placement.target? span temp, label with
  | some target, some label => .assign target label
  | _, _ => .ret

end Placement

namespace MatchExpr

/-- How each branch runs its handler. -/
def plans (m : MatchExpr) (sink : Sink) : List Invocation :=
  m.branches.map (·.handler.plan m.span sink.targetNames)

/-- Whether the subject is read into a name: it is not harmless to repeat, or a handler that is moved
    into place binds its name. -/
def needsCache (m : MatchExpr) (options : GenerateOptions) (sink : Sink) : Bool :=
  let fallback := m.fallback.map (·.plan m.span sink.targetNames)
  let bound := (m.plans sink ++ fallback.toList).flatMap Invocation.boundNames
  let isShadowed := (m.subject.identName?.map bound.contains).getD false
  !options.cost.isCheap m.subject || isShadowed

/-- The body in a labelled block, or in a function if there is no label. -/
def assemble (m : MatchExpr) (placement : Placement) (temp label cache : Option String) (body : List Stmt) :
    Generated :=
  match label with
  | none => .expr (Emission.callAtOnce m.span (cache.map (·, m.subject)) body)
  | some label =>
    let cached := cache.toList.map fun name =>
      Emission.declare m.span .constVar (.ident m.span name) (some m.subject)
    let labeled := .labeled m.span label (.block m.span (cached ++ body))
    .stmts (Emission.place m.span labeled temp placement)

open Naming (freshIf)

/-- The code that takes the place of a match expression, without the checks. -/
def emit (m : MatchExpr) (options : GenerateOptions) (placement : Placement) :
    Naming GenerateError Generated := do
  let temp ← freshIf placement.needsTemp
  let label ← freshIf placement.isStatement
  let sink := placement.sink m.span temp label
  let cache ← freshIf (m.needsCache options sink)
  let subject := (cache.map (Expr.ident m.span)).getD m.subject
  let em : Emission := { span := m.span, nullSafe := options.nullSafe, sink, subject }
  let (branches, always) ← em.branches (m.branches.zip (m.plans sink))
  let rest ← if always then pure [] else em.unmatched m
  return m.assemble placement temp label cache (branches ++ rest)

def code (m : MatchExpr) (options : GenerateOptions) (placement : Placement) :
    Naming GenerateError Generated := do
  if let some fault := m.handlerFault? then throw fault
  if !placement.isStatement then
    if let some fault := m.awaitFault? then throw fault
  m.emit options placement

/-- The code of a match expression, and its supply of names after that. `ordinal` tells its names from
    those of the other expressions in the file. -/
def attempt (m : MatchExpr) (options : GenerateOptions) (placement : Placement) (ordinal : Nat) :
    Except GenerateError Generated × FreshNames :=
  (m.code options placement).run.run { ordinal }

def generate (m : MatchExpr) (options : GenerateOptions) (placement : Placement) (ordinal : Nat) :
    Except GenerateError Generated :=
  (m.attempt options placement ordinal).1

end MatchExpr

end MatchChain
