import MatchChain.Diagnostic.Basic
import MatchChain.Source.Lines

/-!
# The diagnostic queue

A queue collects the diagnostics of one file. It refuses errors past a limit, drops a syntax error on
the line of the syntax error kept before it, and hands everything out sorted by position.
-/

set_option autoImplicit false

namespace MatchChain

/-- What a queue filters out. -/
structure QueueConfig where
  /-- Most errors kept; 0 keeps all. -/
  errorLimit : Nat := 50
  /-- Whether syntax errors on one line are reported once. -/
  deduplicate : Bool := true
deriving DecidableEq

def QueueConfig.unlimited : QueueConfig := { errorLimit := 0, deduplicate := false }

/-- A diagnostic with its position. -/
structure Queued where
  diagnostic : Diagnostic
  line : Nat
  column : Nat
deriving DecidableEq

structure DiagnosticQueue where
  config : QueueConfig := {}
  /-- In the order of insertion. -/
  entries : List Queued := []
  errorCount : Nat := 0
  warningCount : Nat := 0
  /-- Line of the syntax error kept last. -/
  lastSyntaxLine : Option Nat := none
  /-- The text that spans are positions in. -/
  source : Option String := none

namespace DiagnosticQueue

def ofConfig (config : QueueConfig) : DiagnosticQueue := { config }

def withSource (q : DiagnosticQueue) (source : String) : DiagnosticQueue :=
  { q with source := some source }

def limitReached (q : DiagnosticQueue) : Bool :=
  0 < q.config.errorLimit && q.config.errorLimit ≤ q.errorCount

def hasErrors (q : DiagnosticQueue) : Bool := 0 < q.errorCount

def length (q : DiagnosticQueue) : Nat := q.entries.length

def isEmpty (q : DiagnosticQueue) : Bool := q.entries.isEmpty

/-- Whether a diagnostic repeats the syntax error of its line. -/
def repeatsLine (q : DiagnosticQueue) (d : Diagnostic) (line : Nat) : Bool :=
  q.config.deduplicate && d.isError && d.code.isSyntactic && q.lastSyntaxLine == some line

/-- Adds a diagnostic at a position; false when it was filtered out. -/
def add (q : DiagnosticQueue) (d : Diagnostic) (line column : Nat) : Bool × DiagnosticQueue :=
  if d.isError && q.limitReached then (false, q)
  else if q.repeatsLine d line then (false, q)
  else
    let tracks := q.config.deduplicate && d.isError && d.code.isSyntactic
    (true, { q with
      entries := q.entries ++ [⟨d, line, column⟩]
      errorCount := if d.isError then q.errorCount + 1 else q.errorCount
      warningCount := if d.isWarning then q.warningCount + 1 else q.warningCount
      lastSyntaxLine := if tracks then some line else q.lastSyntaxLine })

/-- Where a diagnostic belongs: at its primary span, or at the start if there is none. -/
def positionOf (q : DiagnosticQueue) (d : Diagnostic) : Nat × Nat :=
  match d.primarySpan?, q.source with
  | some span, some source => positionIn source span.start
  | _, _ => (1, 1)

/-- Adds a diagnostic at its own position. -/
def push (q : DiagnosticQueue) (d : Diagnostic) : Bool × DiagnosticQueue :=
  let (line, column) := q.positionOf d
  q.add d line column

/-- Adds a diagnostic as an error, whatever its severity was. -/
def pushError (q : DiagnosticQueue) (d : Diagnostic) : DiagnosticQueue := (q.push d.asError).2

/-- Whether one entry comes before another, or at the same place. -/
def inOrder (a b : Queued) : Bool := a.line < b.line || (a.line == b.line && a.column ≤ b.column)

/-- All diagnostics by position, ties in the order of insertion, and the emptied queue. -/
def flush (q : DiagnosticQueue) : List Diagnostic × DiagnosticQueue :=
  ((q.entries.mergeSort inOrder).map (·.diagnostic),
    { q with entries := [], errorCount := 0, warningCount := 0, lastSyntaxLine := none })

/-- All diagnostics in the order of insertion. -/
def peek (q : DiagnosticQueue) : List Diagnostic := q.entries.map (·.diagnostic)

end DiagnosticQueue

end MatchChain
