import MatchChain.Diagnostic.Basic
import MatchChain.Syntax.Basic
import MatchChain.Token.Lexer

/-!
# Syntax errors

Why a text is not a program. Each cause knows its code, its message and its place.
-/

set_option autoImplicit false

namespace MatchChain

inductive SyntaxError where
  | lexical (cause : LexError)
  /-- Something else should stand where a token was found. -/
  | expected (what : String) (found : TokenKind) (span : Span)
  | expectedName (found : TokenKind) (span : Span)
  | namelessFunction (span : Span)
  | uninitializedConst (span : Span)
  | newlineAfterThrow (span : Span)
  | bareTry (span : Span)
  | misplacedRest (span : Span)
  | invalidTarget (target : Expr)
  | unsupported (what : String) (span : Span)
  /-- The nesting exceeds the depth given to the parser. -/
  | tooDeep (span : Span)

namespace SyntaxError

/-- A missing `token`, spelled as in messages. -/
def expectedToken (kind found : TokenKind) (span : Span) : SyntaxError :=
  .expected ("`" ++ kind.displayName ++ "`") found span

def code : SyntaxError → Code
  | lexical cause => cause.code
  | expected _ .eof _ => .unclosedDelimiter
  | expected .. => .unexpectedToken
  | expectedName .. | namelessFunction _ => .expectedIdentifier
  | uninitializedConst _ | newlineAfterThrow _ | bareTry _ | misplacedRest _ => .unexpectedToken
  | invalidTarget _ => .invalidAssignmentTarget
  | unsupported .. => .unsupportedSyntax
  | tooDeep _ => .internalError

def message : SyntaxError → String
  | lexical cause => cause.message
  | expected what found _ => "expected " ++ what ++ ", found `" ++ found.displayName ++ "`"
  | expectedName found _ => "expected identifier, found `" ++ found.displayName ++ "`"
  | namelessFunction _ => "expected function name"
  | uninitializedConst _ => "missing initializer in `const` declaration"
  | newlineAfterThrow _ => "illegal newline after `throw`"
  | bareTry _ => "`try` without `catch` or `finally`"
  | misplacedRest _ => "rest parameter must be last and cannot have a default"
  | invalidTarget target => "invalid assignment target: " ++ target.describe
  | unsupported what _ => "unsupported syntax: " ++ what
  | tooDeep _ => "nesting too deep"

def span : SyntaxError → Span
  | lexical cause => cause.span
  | expected _ _ s | expectedName _ s | namelessFunction s | uninitializedConst s
  | newlineAfterThrow s | bareTry s | misplacedRest s | unsupported _ s | tooDeep s => s
  | invalidTarget target => target.span

def toDiagnostic (e : SyntaxError) : Diagnostic :=
  ((Diagnostic.error e.code).withMessage e.message).withLabel e.span e.code.description

end SyntaxError

end MatchChain
