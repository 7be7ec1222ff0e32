import MatchChain.Diagnostic.Basic

/-!
# Why a chain is not compiled

A chain that cannot be read stays in the program as it is, so these are reported as warnings.
-/

set_option autoImplicit false

namespace MatchChain

/-- What is wrong with the arguments of an operation. -/
inductive ClauseFault where
  | incomplete
  | terminalNotLast (name : String)
  | fallbackArity
  | terminalArguments (name : String)
  | patternArity (name : String)
  | selectionNameNotText
  | selectArity
deriving DecidableEq

namespace ClauseFault

def message : ClauseFault → String
  | incomplete => "a clause needs a pattern and a handler"
  | terminalNotLast name => "`." ++ name ++ "()` must end the chain"
  | fallbackArity => "the fallback takes exactly one handler"
  | terminalArguments name => "`." ++ name ++ "()` takes no arguments"
  | patternArity name => "wrong number of arguments to `" ++ name ++ "`"
  | selectionNameNotText => "the selection name must be a string literal"
  | selectArity => "`select` takes at most two arguments"

end ClauseFault

/-- What is wrong with the selections of a clause. -/
inductive CaptureFault where
  | severalAlternatives
  | secondAnonymous
  | repeatedName (name : String)
  | mixed
deriving DecidableEq

namespace CaptureFault

def message : CaptureFault → String
  | severalAlternatives =>
    "selections are not allowed in a clause with several alternative patterns"
  | secondAnonymous => "only one anonymous `select()` is allowed per clause"
  | repeatedName name => "selection `" ++ name ++ "` appears twice"
  | mixed => "anonymous and named selections cannot be mixed in one clause"

end CaptureFault

inductive MatchError where
  | unrecognizedOperation (name : String) (span : Span)
  | malformedClause (fault : ClauseFault) (span : Span)
  | unsupportedExpr (kind : String) (span : Span)
  | unsupportedKind (kind : String) (span : Span)
  | capture (fault : CaptureFault) (span : Span)
  | noSubject (span : Span)
  | severalSubjects (span : Span)
  | spread (span : Span)
deriving DecidableEq

namespace MatchError

def span : MatchError → Span
  | unrecognizedOperation _ s | malformedClause _ s | unsupportedExpr _ s | unsupportedKind _ s
  | capture _ s | noSubject s | severalSubjects s | spread s => s

def code : MatchError → Code
  | unrecognizedOperation .. => .unrecognizedOperation
  | malformedClause .. => .malformedClause
  | unsupportedExpr .. => .unsupportedPatternExpression
  | unsupportedKind .. => .unsupportedPatternKind
  | capture .. => .invalidCaptures
  | noSubject _ | severalSubjects _ => .subjectNotValue
  | spread _ => .spreadArgument

def message : MatchError → String
  | unrecognizedOperation name _ => "unrecognized chain operation `." ++ name ++ "()`"
  | malformedClause fault _ => "malformed clause arguments: " ++ fault.message
  | unsupportedExpr kind _ => "unsupported pattern expression: " ++ kind
  | unsupportedKind kind _ => "unsupported pattern kind `" ++ kind ++ "`"
  | capture fault _ => "invalid captures: " ++ fault.message
  | noSubject _ => "match subject is not a value-producing expression: no subject given"
  | severalSubjects _ =>
    "match subject is not a value-producing expression: expected exactly one subject"
  | spread _ => "spread arguments are not supported in a match chain"

def toDiagnostic (e : MatchError) : Diagnostic :=
  (Diagnostic.warning e.code).withMessage e.message
    |>.withLabel e.span e.code.description
    |>.withNote "this match expression was left unchanged"

end MatchError

end MatchChain
