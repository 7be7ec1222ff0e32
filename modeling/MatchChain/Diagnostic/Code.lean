/-!
# Diagnostic codes

Every report carries a code. Its first digit names the phase that raised it: 0 for the lexer, 1 for
the parser, 2 for reading a match, 3 for generating code, 4 for running a program, 9 for the tool
itself.
-/

set_option autoImplicit false

namespace MatchChain

inductive Code where
  | unterminatedString
  | unexpectedCharacter
  | invalidNumber
  | unterminatedTemplate
  | invalidEscape
  | unterminatedComment
  | unexpectedToken
  | expectedExpression
  | unclosedDelimiter
  | expectedIdentifier
  | invalidAssignmentTarget
  | invalidBindingPattern
  | unsupportedSyntax
  | unrecognizedOperation
  | malformedClause
  | unsupportedPatternExpression
  | unsupportedPatternKind
  | invalidCaptures
  | subjectNotValue
  | spreadArgument
  | unhostableContext
  | invalidHandler
  | uncaughtException
  | typeError
  | unboundName
  | unsupportedEvaluation
  | callDepth
  | internalError
  | tooManyErrors
  | fileFailure
deriving DecidableEq, Inhabited

/-- The phase that raises a code. -/
inductive Phase where
  | lexing
  | parsing
  | lowering
  | generation
  | evaluation
  | tool
deriving DecidableEq

namespace Code

def all : List Code :=
  [unterminatedString, unexpectedCharacter, invalidNumber, unterminatedTemplate, invalidEscape,
    unterminatedComment, unexpectedToken, expectedExpression, unclosedDelimiter, expectedIdentifier,
    invalidAssignmentTarget, invalidBindingPattern, unsupportedSyntax, unrecognizedOperation,
    malformedClause, unsupportedPatternExpression, unsupportedPatternKind, invalidCaptures,
    subjectNotValue, spreadArgument, unhostableContext, invalidHandler, uncaughtException,
    typeError, unboundName, unsupportedEvaluation, callDepth, internalError, tooManyErrors,
    fileFailure]

/-- The code as it is written in reports. -/
def text : Code → String
  | unterminatedString => "E0001"
  | unexpectedCharacter => "E0002"
  | invalidNumber => "E0003"
  | unterminatedTemplate => "E0004"
  | invalidEscape => "E0005"
  | unterminatedComment => "E0006"
  | unexpectedToken => "E1001"
  | expectedExpression => "E1002"
  | unclosedDelimiter => "E1003"
  | expectedIdentifier => "E1004"
  | invalidAssignmentTarget => "E1005"
  | invalidBindingPattern => "E1006"
  | unsupportedSyntax => "E1007"
  | unrecognizedOperation => "E2001"
  | malformedClause => "E2002"
  | unsupportedPatternExpression => "E2003"
  | unsupportedPatternKind => "E2004"
  | invalidCaptures => "E2005"
  | subjectNotValue => "E2006"
  | spreadArgument => "E2007"
  | unhostableContext => "E3001"
  | invalidHandler => "E3002"
  | uncaughtException => "E4001"
  | typeError => "E4002"
  | unboundName => "E4003"
  | unsupportedEvaluation => "E4004"
  | callDepth => "E4005"
  | internalError => "E9001"
  | tooManyErrors => "E9002"
  | fileFailure => "E9003"

/-- One line that says what the code means. -/
def description : Code → String
  | unterminatedString => "unterminated string literal"
  | unexpectedCharacter => "unexpected character"
  | invalidNumber => "invalid number literal"
  | unterminatedTemplate => "unterminated template literal"
  | invalidEscape => "invalid escape sequence"
  | unterminatedComment => "unterminated block comment"
  | unexpectedToken => "unexpected token"
  | expectedExpression => "expected expression"
  | unclosedDelimiter => "unclosed delimiter"
  | expectedIdentifier => "expected identifier"
  | invalidAssignmentTarget => "invalid assignment target"
  | invalidBindingPattern => "invalid binding pattern"
  | unsupportedSyntax => "unsupported syntax"
  | unrecognizedOperation => "unrecognized chain operation"
  | malformedClause => "malformed clause arguments"
  | unsupportedPatternExpression => "unsupported pattern expression"
  | unsupportedPatternKind => "unsupported pattern kind"
  | invalidCaptures => "invalid capture set"
  | subjectNotValue => "match subject is not a value"
  | spreadArgument => "spread argument in match chain"
  | unhostableContext => "output context cannot host generated code"
  | invalidHandler => "handler cannot be compiled"
  | uncaughtException => "uncaught exception"
  | typeError => "type error"
  | unboundName => "unbound name"
  | unsupportedEvaluation => "unsupported in evaluation"
  | callDepth => "call depth exceeded"
  | internalError => "internal compiler error"
  | tooManyErrors => "too many errors"
  | fileFailure => "file I/O failure"

def phase : Code → Phase
  | unterminatedString | unexpectedCharacter | invalidNumber | unterminatedTemplate | invalidEscape
  | unterminatedComment => .lexing
  | unexpectedToken | expectedExpression | unclosedDelimiter | expectedIdentifier
  | invalidAssignmentTarget | invalidBindingPattern | unsupportedSyntax => .parsing
  | unrecognizedOperation | malformedClause | unsupportedPatternExpression | unsupportedPatternKind
  | invalidCaptures | subjectNotValue | spreadArgument => .lowering
  | unhostableContext | invalidHandler => .generation
  | uncaughtException | typeError | unboundName | unsupportedEvaluation | callDepth => .evaluation
  | internalError | tooManyErrors | fileFailure => .tool

/-- The code that is written this way. -/
def ofText? (s : String) : Option Code := all.find? (·.text == s)

/-- Raised while splitting a text into tokens. -/
def isLexical (c : Code) : Bool := c.phase == .lexing

/-- Raised before there is a program, by the lexer or the parser. -/
def isSyntactic (c : Code) : Bool := c.phase == .lexing || c.phase == .parsing

/-- Raised while compiling one match expression. -/
def isMatchError (c : Code) : Bool := c.phase == .lowering || c.phase == .generation

/-- Raised while running a program. -/
def isRuntime (c : Code) : Bool := c.phase == .evaluation

end Code

end MatchChain
