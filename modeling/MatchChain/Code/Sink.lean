import MatchChain.Syntax.Visit

/-!
# Delivering results

Every branch delivers its value and leaves through the same sink: a return from the wrapping
function, or an assignment and a jump to the end of the labelled block. `redirectAll?` sends the returns
of a handler's body there.
-/

set_option autoImplicit false

namespace MatchChain

inductive Sink where
  | ret
  | assign (target : Expr) (label : String)

namespace Sink

/-- The statements that deliver a value, or undefined for none, and leave. -/
def exit (span : Span) (value : Option Expr) : Sink → List Stmt
  | ret => [.ret span value]
  | assign target label =>
    let value := value.getD (.ident span "undefined")
    [.expr span (.assign span .assign target value), .breakTo span (some label)]

/-- All names that the target mentions. A handler that declares one of them would divert the
    result. -/
def targetNames : Sink → List String
  | ret => []
  | assign target _ => target.identNames

end Sink

/-- One statement in place of several. -/
def Stmt.single (span : Span) : List Stmt → Stmt
  | [s] => s
  | ss => .block span ss

namespace Sink

mutual

/-- The statements in place of one whose returns are to leave through the sink; none if it has no
    return. The functions in it keep theirs. -/
def redirect? (sink : Sink) (span : Span) : Stmt → Option (List Stmt)
  | .ret _ value => some (sink.exit span value)
  | .block s body => (redirectAll? sink span body).map ([.block s ·])
  | .ifElse s cond thenBranch elseBranch =>
    match (redirect? sink span thenBranch).map (.single span), redirectElse? sink span elseBranch with
    | none, none => none
    | first, second => some [.ifElse s cond (first.getD thenBranch) (second.or elseBranch)]
  | .labeled s label body =>
    (redirect? sink span body).map fun body => [.labeled s label (.single span body)]
  | .whileLoop s cond body =>
    (redirect? sink span body).map fun body => [.whileLoop s cond (.single span body)]
  | .tryCatch s body handler finalizer =>
    match redirectAll? sink span body, redirectCatch? sink span handler,
        redirectFinally? sink span finalizer with
    | none, none, none => none
    | first, second, third =>
      some [.tryCatch s (first.getD body) (second.or handler) (third.or finalizer)]
  | _ => none

def redirectAll? (sink : Sink) (span : Span) : List Stmt → Option (List Stmt)
  | [] => none
  | s :: ss =>
    match redirect? sink span s, redirectAll? sink span ss with
    | none, none => none
    | first, rest => some (first.getD [s] ++ rest.getD ss)

def redirectElse? (sink : Sink) (span : Span) : Option Stmt → Option Stmt
  | none => none
  | some s => (redirect? sink span s).map (.single span)

def redirectCatch? (sink : Sink) (span : Span) : Option CatchClause → Option CatchClause
  | none => none
  | some ⟨param, body⟩ => (redirectAll? sink span body).map (⟨param, ·⟩)

def redirectFinally? (sink : Sink) (span : Span) : Option (List Stmt) → Option (List Stmt)
  | none => none
  | some body => redirectAll? sink span body

end

end Sink

end MatchChain
