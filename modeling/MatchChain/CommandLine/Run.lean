import MatchChain.CommandLine.Arguments
import MatchChain.CommandLine.Folder
import MatchChain.Pass.Transform

/-!
# Running a command

A command reaches what is around it through `Surroundings`, so that what it does can be stated and
run without a system. It ends with 0 if code was written, whether or not there were warnings, with 1
if the input cannot be read or the output cannot be written, and with 2 if it was called wrongly.
-/

set_option autoImplicit false

namespace MatchChain

namespace CommandLine

/-- What a command can do in its surroundings. -/
structure Surroundings (m : Type → Type) where
  readInput : m (Except FileFault String)
  readFile : String → m (Except FileFault String)
  writeFile : String → String → m (Except FileFault Unit)
  writeOutput : String → m (Except FileFault Unit)
  report : String → m Unit
  /-- Whether what is reported goes to a terminal. -/
  isTerminal : Bool

/-- What stops a command that was called correctly. -/
inductive Failure where
  | unparsed (e : SyntaxError)
  | unreadable (path : String) (fault : FileFault)
  | unwritable (path : String) (fault : FileFault)

def Failure.toDiagnostic : Failure → Diagnostic
  | unparsed e => e.toDiagnostic
  | unreadable path fault => about "read" path fault
  | unwritable path fault => about "write" path fault
where
  /-- A fault of a file as a whole, which has no position. -/
  about (action path : String) (fault : FileFault) : Diagnostic :=
    (Diagnostic.error .fileFailure).withMessage
      ("cannot " ++ action ++ " `" ++ path ++ "`: " ++ fault.message)

section Running

variable {m : Type → Type} [Monad m] (around : Surroundings m)

/-- Reports a failure; the result is the status. -/
def fail (style : Terminal.Style) (failure : Failure) : m Nat := do
  around.report (Terminal.render style failure.toDiagnostic ++ Terminal.summary style 1 0)
  return 1

/-- What is reported about a compilation: its warnings and their number. -/
def warnings (style : Terminal.Style) (ds : List Diagnostic) : String :=
  String.join (ds.map (Terminal.render style)) ++
    if ds.isEmpty then "" else Terminal.summary style 0 ds.length

/-- The input's text; a lone dash is the standard input. -/
def readSource (input : String) : m (Except FileFault String) :=
  if input == "-" then around.readInput else around.readFile input

/-- Writes code to a file or to the standard output, with the name of where it went. -/
def writeCode (output : Option String) (code : String) : m (String × Except FileFault Unit) := do
  match output with
  | some path => return (path, ← around.writeFile path code)
  | none => return ("<stdout>", ← around.writeOutput code)

/-- Compiles a file; the result is the status. -/
def compile (options : Options) : m Nat := do
  let style : Terminal.Style :=
    { colors := options.color.enabled around.isTerminal, source := none, path := options.input }
  match ← readSource around options.input with
  | .error fault => fail around style (.unreadable options.input fault)
  | .ok source =>
    let style := { style with source := some source }
    match compileSource source options.config with
    | .error e => fail around style (.unparsed e)
    | .ok compiled =>
      around.report (warnings style compiled.diagnostics)
      match ← writeCode around options.output compiled.code with
      | (_, .ok ()) => return 0
      | (path, .error fault) => fail around style (.unwritable path fault)

/-- Runs a command line without the program's name; the result is the status. -/
def run (args : List String) : m Nat := do
  match Command.parse args with
  | .ok .help =>
    let _ ← around.writeOutput (usage ++ "\n")
    return 0
  | .error e =>
    around.report ("error: " ++ e.message ++ "\n\n" ++ usage ++ "\n")
    return 2
  | .ok (.compile options) => compile around options

end Running

/-! ## Without a system -/

/-- A folder, the text at the standard input, and what has been written so far. -/
structure Desk where
  folder : Folder := {}
  input : String := ""
  output : String := ""
  reported : String := ""
deriving DecidableEq, Inhabited

namespace Desk

/-- Reads the text at a path. -/
def readFile (d : Desk) (path : String) : Except FileFault String := do
  match ← d.folder.source path with
  | .file p => return (d.folder.file? p).getD ""
  | .input => return d.input
  | .output | .reports | .void | .full => return ""

/-- Writes text to a path. -/
def writeFile (d : Desk) (path text : String) : Except FileFault Desk := do
  match ← d.folder.destination path with
  | .file p => return { d with folder := d.folder.put p text }
  | .output => return { d with output := d.output ++ text }
  | .reports => return { d with reported := d.reported ++ text }
  | .input | .void => return d
  | .full => if text.isEmpty then return d else .error .noSpace

/-- A desk as surroundings. Reports do not go to a terminal. -/
def surroundings : Surroundings (StateM Desk) where
  readInput := return .ok (← get).input
  readFile path := return (← get).readFile path
  writeFile path text := modifyGet fun d =>
    match d.writeFile path text with
    | .ok d => (.ok (), d)
    | .error fault => (.error fault, d)
  writeOutput text := modifyGet fun d => (.ok (), { d with output := d.output ++ text })
  report text := modify fun d => { d with reported := d.reported ++ text }
  isTerminal := false

/-- Runs a command line at a desk: its status and what it leaves. -/
def run (d : Desk) (args : List String) : Nat × Desk :=
  (CommandLine.run surroundings args).run d

end Desk

end CommandLine

end MatchChain
