import MatchChain.Diagnostic.Code
import MatchChain.Source.Span

/-!
# Diagnostics

A diagnostic says what went wrong, at which places, and how to go on. Diagnostics are built by
adding to a bare one: `Diagnostic.error code |>.withMessage … |>.withLabel …`.
-/

set_option autoImplicit false

namespace MatchChain

inductive Severity where
  | error
  | warning
  | note
  | help
deriving DecidableEq, Inhabited

def Severity.text : Severity → String
  | .error => "error"
  | .warning => "warning"
  | .note => "note"
  | .help => "help"

/-- A place in the source and what is said about it. -/
structure Label where
  span : Span
  message : String
  isPrimary : Bool
deriving DecidableEq, Inhabited

structure Diagnostic where
  code : Code
  severity : Severity
  message : String := ""
  labels : List Label := []
  notes : List String := []
  suggestions : List String := []
deriving DecidableEq, Inhabited

namespace Diagnostic

def error (code : Code) : Diagnostic := { code, severity := .error }

def warning (code : Code) : Diagnostic := { code, severity := .warning }

def withMessage (d : Diagnostic) (message : String) : Diagnostic := { d with message }

/-- Adds a primary label. -/
def withLabel (d : Diagnostic) (span : Span) (message : String) : Diagnostic :=
  { d with labels := d.labels ++ [⟨span, message, true⟩] }

def withSecondaryLabel (d : Diagnostic) (span : Span) (message : String) : Diagnostic :=
  { d with labels := d.labels ++ [⟨span, message, false⟩] }

def withNote (d : Diagnostic) (note : String) : Diagnostic := { d with notes := d.notes ++ [note] }

def withSuggestion (d : Diagnostic) (suggestion : String) : Diagnostic :=
  { d with suggestions := d.suggestions ++ [suggestion] }

/-- The same report as a warning. -/
def asWarning (d : Diagnostic) : Diagnostic := { d with severity := .warning }

/-- The same report as an error. -/
def asError (d : Diagnostic) : Diagnostic := { d with severity := .error }

def isError (d : Diagnostic) : Bool := d.severity == .error

def isWarning (d : Diagnostic) : Bool := d.severity == .warning

/-- The span of the first primary label. -/
def primarySpan? (d : Diagnostic) : Option Span := (d.labels.find? (·.isPrimary)).map (·.span)

/-- The one-line form. -/
def headline (d : Diagnostic) : String :=
  d.severity.text ++ "[" ++ d.code.text ++ "]: " ++ d.message

/-- A broken invariant of the tool itself. -/
def internal (span : Span) (message : String) : Diagnostic :=
  (error .internalError).withMessage message |>.withLabel span "while compiling this"
    |>.withNote "this is a bug in pattyc"

/-- The report that stands for all errors past the limit. -/
def tooManyErrors (limit : Nat) (span : Span) : Diagnostic :=
  (error .tooManyErrors).withMessage ("aborting after " ++ toString limit ++ " errors")
    |>.withLabel span "error limit reached here"

end Diagnostic

end MatchChain
