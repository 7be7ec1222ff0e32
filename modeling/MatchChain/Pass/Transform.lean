import MatchChain.Pass.Depth
import MatchChain.Pass.Imports
import MatchChain.Pass.Walk
import MatchChain.Syntax.Parser
import MatchChain.Syntax.Printer

/-!
# Transforming programs

The pass over a whole file. Every match expression is compiled on its own: one that fails leaves a
warning and does not affect the others.
-/

set_option autoImplicit false

namespace MatchChain

/-- What a pass makes of a program. -/
structure Transformed where
  program : Program
  /-- How many match expressions were replaced. -/
  replaced : Nat
  queue : DiagnosticQueue

namespace Pass

/-- The depth that the walk of a program needs, before any target has been walked. -/
def depthFor (p : Program) : Nat := Depth.stmts (fun _ => false) p

/-- The walk of a program with given names. -/
def walk (ctx : PassContext) (p : Program) (queue : DiagnosticQueue) : Option (Program × PassState) :=
  StateT.run (stmts ctx (depthFor p) p) { queue }

def program (ctx : PassContext) (p : Program) (queue : DiagnosticQueue) : Option Transformed :=
  (walk ctx p queue).map fun (program, state) =>
    { program, replaced := state.replaced, queue := state.queue }

end Pass

namespace Program

/-- Compiles all match expressions of a program. One that does not import the matcher, where imports
    are looked for, is left as it is. -/
def transform (p : Program) (config : PassConfig) (queue : DiagnosticQueue) : Transformed :=
  let unchanged : Transformed := { program := p, replaced := 0, queue }
  match config.resolve p with
  | none => unchanged
  | some names =>
    let t := (Pass.program { names, options := config.generate } p queue).getD unchanged
    if config.stripImport && 0 < t.replaced then
      { t with program := (t.program.stripImport names.matcher).getD t.program }
    else t

/-- The names that are made up when the match expressions of a program are compiled. -/
def minted (p : Program) (config : PassConfig) (queue : DiagnosticQueue) : List String :=
  match config.resolve p with
  | none => []
  | some names =>
    ((Pass.walk { names, options := config.generate } p queue).map (·.2.minted)).getD []

end Program

/-- The result of compiling a source text. -/
structure Compiled where
  code : String
  /-- Warnings about what was left as it is, by position. -/
  diagnostics : List Diagnostic
  replaced : Nat

/-- Reads, transforms and writes a source text. -/
def compileSource (source : String) (config : PassConfig) : Except SyntaxError Compiled := do
  let p ← Program.parse source
  let t := p.transform config (DiagnosticQueue.withSource {} source)
  return { code := t.program.print, diagnostics := t.queue.flush.1, replaced := t.replaced }

end MatchChain
