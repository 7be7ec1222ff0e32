import MatchChain.Diagnostic.Basic

/-!
# Why no code is generated

As with chains that cannot be read, the expression stays as it is and a warning is given.
-/

set_option autoImplicit false

namespace MatchChain

inductive GenerateError where
  /-- The wrapping function is not asynchronous, so nothing in it may wait. -/
  | awaitInValue (span : Span)
  | invalidHandler (kind : String) (span : Span)
  | unsupportedPattern (kind : String) (span : Span)
deriving DecidableEq

namespace GenerateError

def span : GenerateError → Span
  | awaitInValue s | invalidHandler _ s | unsupportedPattern _ s => s

def code : GenerateError → Code
  | awaitInValue _ => .unhostableContext
  | invalidHandler .. => .invalidHandler
  | unsupportedPattern .. => .internalError

def message : GenerateError → String
  | awaitInValue _ =>
    "generated code cannot be placed here: `await` inside a match used as a value"
  | invalidHandler kind _ => kind ++ " cannot be used as a handler"
  | unsupportedPattern kind _ =>
    "internal error: `" ++ kind ++ "` pattern reached code generation"

def toDiagnostic (e : GenerateError) : Diagnostic :=
  (Diagnostic.warning e.code).withMessage e.message
    |>.withLabel e.span e.code.description
    |>.withNote "this match expression was left unchanged"

end GenerateError

end MatchChain
