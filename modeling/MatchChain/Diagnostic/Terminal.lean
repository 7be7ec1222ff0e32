import MatchChain.Diagnostic.Basic
import MatchChain.Source.Lines

/-!
# Terminal reports

The text form of diagnostics: a headline, then each label as a location, the source line and an
underline, then notes and help. Colours are escape sequences around single words.
-/

set_option autoImplicit false

namespace MatchChain

/-- When colours are used. -/
inductive ColorMode where
  | auto
  | always
  | never
deriving DecidableEq, Inhabited

def ColorMode.text : ColorMode → String
  | .auto => "auto"
  | .always => "always"
  | .never => "never"

/-- Whether to colour; `auto` does on a terminal. -/
def ColorMode.enabled : ColorMode → (isTerminal : Bool) → Bool
  | .auto, t => t
  | .always, _ => true
  | .never, _ => false

namespace Terminal

/-- How reports are written, and the file that labels point into. -/
structure Style where
  colors : Bool
  path : String := ""
  source : Option String := none

namespace Color

def error : String := "\x1b[1;31m"
def warning : String := "\x1b[1;33m"
def note : String := "\x1b[1;36m"
def help : String := "\x1b[1;32m"
def bold : String := "\x1b[1m"
def secondary : String := "\x1b[1;34m"
def reset : String := "\x1b[0m"

end Color

def paint (style : Style) (color text : String) : String :=
  if style.colors then color ++ text ++ Color.reset else text

def severityColor : Severity → String
  | .error => Color.error
  | .warning => Color.warning
  | .note => Color.note
  | .help => Color.help

private def repeated (n : Nat) (c : Char) : String := String.ofList (List.replicate n c)

/-- The underline of a label is as long as the part of its span on the first line, at least one and
    not past the end of the line. -/
def underlineWidth (source : String) (span : Span) (lineLength startColumn : Nat) : Nat :=
  let onLine := match Text.sliceBytes? span.start span.stop source.toList with
    | some text => (text.takeWhile (· != '\n')).length
    | none => 1
  min (max onLine 1) (max (lineLength - startColumn) 1)

def renderLabel (style : Style) (label : Label) : String :=
  let marker := if label.isPrimary then "-->" else "   "
  let color := if label.isPrimary then Color.error else Color.secondary
  match style.source with
  | none => "  " ++ marker ++ " " ++ label.span.render ++ ": " ++ paint style color label.message ++ "\n"
  | some source =>
    let table := LineTable.build source
    let (line, column) := table.position source label.span.start
    let text := table.lineText source line
    let gutter := repeated (toString line).length ' '
    let startColumn := column - 1
    let width := underlineWidth source label.span text.length startColumn
    let underline := repeated width (if label.isPrimary then '^' else '-')
    let said := if label.message = "" then "" else " " ++ paint style color label.message
    "  " ++ marker ++ " " ++ style.path ++ ":" ++ toString line ++ ":" ++ toString column ++ "\n"
      ++ "  " ++ gutter ++ " |\n"
      ++ "  " ++ toString line ++ " | " ++ text ++ "\n"
      ++ "  " ++ gutter ++ " | " ++ repeated startColumn ' ' ++ paint style color underline ++ said ++ "\n"

/-- A whole diagnostic, with an empty line after it. -/
def render (style : Style) (d : Diagnostic) : String :=
  let headline := paint style (severityColor d.severity) d.severity.text
    ++ paint style Color.bold ("[" ++ d.code.text ++ "]") ++ ": " ++ d.message ++ "\n"
  let labels := d.labels.map (renderLabel style)
  let notes := d.notes.map fun n => "  = " ++ paint style Color.bold "note" ++ ": " ++ n ++ "\n"
  let helps := d.suggestions.map fun s => "  = " ++ paint style Color.help "help" ++ ": " ++ s ++ "\n"
  headline ++ String.join labels ++ String.join notes ++ String.join helps ++ "\n"

private def plural (n : Nat) : String := if n = 1 then "" else "s"

/-- The closing line that counts errors and warnings; nothing when there are none. -/
def summary (style : Style) (errors warnings : Nat) : String :=
  let warned := toString warnings ++ " warning" ++ plural warnings
  if 0 < errors then
    paint style Color.error "error" ++ ": " ++ toString errors ++ " error" ++ plural errors
      ++ (if 0 < warnings then ", " ++ warned else "") ++ " emitted\n"
  else if 0 < warnings then paint style Color.warning "warning" ++ ": " ++ warned ++ " emitted\n"
  else ""

end Terminal

end MatchChain
