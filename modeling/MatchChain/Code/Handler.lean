import MatchChain.Syntax.Visit

/-!
# Moving handlers into place

A handler written as a function may be replaced by its body: parameters become declarations and
returns leave the branch. That keeps its meaning unless the function depends on being called: on its
own `this` or `arguments`, on hoisting, on defaults, or on waiting. `Func.refusal?` tells.
-/

set_option autoImplicit false

namespace MatchChain

/-- Whether an expression waits for something, outside functions. -/
def Expr.awaits (e : Expr) : Bool :=
  (Visit.ofExpr (fun _ => false) false e).any fun v =>
    match v.node with
    | .expr (.unary _ .await _) => true
    | _ => false

/-- What a function binds and refers to, as far as it matters for moving its body. -/
structure HandlerFacts where
  /-- The names bound at the top of the body: parameters and declarations. -/
  topLevel : List String
  /-- Every name bound in the function, outside the functions in it. -/
  declared : List String
  declaresVar : Bool
  usesThis : Bool
  usesArguments : Bool

namespace Stmt

/-- The names that a statement declares for the statements beside it. -/
def lexicalNames : Stmt → List String
  | varDecl _ kind ds => if kind == .plainVar then [] else ds.flatMap (·.target.names)
  | funcDecl _ fn => fn.name.toList
  | _ => []

/-- The names that a statement itself declares, for whichever scope. -/
def declaredNames : Stmt → List String
  | varDecl _ _ ds => ds.flatMap (·.target.names)
  | funcDecl _ fn => fn.name.toList
  | tryCatch _ _ (some ⟨some param, _⟩) _ => param.names
  | _ => []

def isVar : Stmt → Bool
  | varDecl _ .plainVar _ => true
  | _ => false

end Stmt

namespace Func

/-- Arrow functions share `this` and `arguments` with what surrounds them. -/
def isArrow (fn : Func) : Bool := fn.kind == .arrow

/-- What the body and the parameters' defaults hold, looking into arrow functions only. -/
def visits (fn : Func) : List Visit :=
  let body := match fn.body with
    | .expr e => Visit.ofExpr isArrow false e
    | .block ss => Visit.ofStmts isArrow false ss
  body ++ fn.params.flatMap fun p => Visit.ofExpr? isArrow false p.default

/-- The names bound at the top of the body. -/
def topLevelNames (fn : Func) : List String :=
  let body := match fn.body with
    | .expr _ => []
    | .block ss => ss.flatMap Stmt.lexicalNames
  fn.params.flatMap (·.target.names) ++ body

def facts (fn : Func) : HandlerFacts :=
  let visits := fn.visits
  let own := visits.filterMap fun v =>
    match v.node with
    | .stmt s => if v.nested then none else some s
    | _ => none
  { topLevel := fn.topLevelNames
    declared := fn.topLevelNames ++ own.flatMap Stmt.declaredNames
    declaresVar := own.any Stmt.isVar
    usesThis := visits.any fun v => match v.node with
      | .expr (.thisRef _) => true
      | _ => false
    usesArguments := visits.any (·.identName? == some "arguments") }

end Func

/-- Why a handler is called and not moved. -/
inductive Refusal where
  | isAsync
  | isGenerator
  | unusualParameter
  | ownFrame
  | declaresVar
  | shadowsTarget
deriving DecidableEq

/-- The reason to call a function instead of moving its body into code that writes to the given
    names. -/
def Func.refusal? (fn : Func) (targetNames : List String) : Option Refusal :=
  let facts := fn.facts
  if fn.isAsync then some .isAsync
  else if fn.isGenerator then some .isGenerator
  else if fn.params.any fun p => p.rest || p.default.isSome then some .unusualParameter
  else if !fn.isArrow && (facts.usesThis || facts.usesArguments) then some .ownFrame
  else if facts.declaresVar then some .declaresVar
  else if targetNames.any facts.declared.contains then some .shadowsTarget
  else none

mutual

/-- Whether the end of a statement can be reached; false only if it certainly returns or throws. -/
def Stmt.canComplete : Stmt → Bool
  | .ret .. | .throwing .. => false
  | .block _ body => listCanComplete body
  | .ifElse _ _ thenBranch (some elseBranch) => thenBranch.canComplete || elseBranch.canComplete
  | .tryCatch _ body handler finalizer =>
    finallyCanComplete finalizer && (listCanComplete body || catchCanComplete handler)
  | _ => true

/-- Whether the end of a list of statements can be reached. -/
def listCanComplete : List Stmt → Bool
  | [] => true
  | [s] => s.canComplete
  | _ :: ss => listCanComplete ss

def catchCanComplete : Option CatchClause → Bool
  | none => false
  | some ⟨_, body⟩ => listCanComplete body

def finallyCanComplete : Option (List Stmt) → Bool
  | none => true
  | some body => listCanComplete body

end

end MatchChain
