import MatchChain.Code.Generate
import MatchChain.Diagnostic.Queue
import MatchChain.Match.Reading
import MatchChain.Pass.Config

/-!
# Compiling one expression

The state of a pass over a file, and the attempt to compile a single call. A chain that cannot be
compiled costs a warning and is left as it is.
-/

set_option autoImplicit false

namespace MatchChain

/-- What a pass works with: the names of the file and how code is generated. -/
structure PassContext where
  names : MatchNames
  options : GenerateOptions

structure PassState where
  queue : DiagnosticQueue
  /-- The number of the next match expression. -/
  nextOrdinal : Nat := 0
  /-- How many match expressions have been replaced. -/
  replaced : Nat := 0
  /-- The targets of assignments whose value was replaced, by span, with what became of them. Every
      exit of such a value holds a copy of the target, which is compiled at the first one only. -/
  targets : List (Span × Option Expr) := []
  /-- The names that were made up, for code that was generated or could not be. -/
  minted : List String := []

/-- A step of a pass; none when its depth is used up. -/
abbrev Pass := StateT PassState Option

/-- What came of an attempt to compile a call. -/
inductive Attempt where
  | notAChain
  | failed
  | generated (code : Generated)

namespace Pass

def warn (d : Diagnostic) : Pass Unit := modify fun s => { s with queue := (s.queue.push d).2 }

/-- Takes the number of the next match expression. -/
def takeOrdinal : Pass Nat :=
  modifyGet fun s => (s.nextOrdinal, { s with nextOrdinal := s.nextOrdinal + 1 })

/-- Notes the names that were made up for a match expression. -/
def noteNames (names : FreshNames) : Pass Unit := modify fun s => { s with minted := s.minted ++ names.taken }

/-- Reads a call as a match expression and generates its code. -/
def compile (ctx : PassContext) (call : Expr) (placement : Placement) : Pass Attempt := do
  match ctx.names.recognize call with
  | none => return .notAChain
  | some calls =>
    match ctx.names.ofCalls calls with
    | .error e =>
      warn e.toDiagnostic
      return .failed
    | .ok m =>
      let (result, names) := m.attempt ctx.options placement (← takeOrdinal)
      noteNames names
      match result with
      | .error e =>
        warn e.toDiagnostic
        return .failed
      | .ok code =>
        modify fun s => { s with replaced := s.replaced + 1 }
        return .generated code

/-! ## Targets of assignments -/

/-- What has become of a target, if copies of it are in generated code. A plain name holds nothing
    that could be compiled, so none is kept. -/
def sharedTarget? (target : Expr) : Pass (Option (Option Expr)) := do
  match target with
  | .ident .. => return none
  | _ => return (← get).targets.lookup target.span

/-- Notes what has become of a target. -/
def setTarget (target : Expr) (walked : Option Expr) : Pass Unit :=
  modify fun s => { s with targets := (target.span, walked) :: s.targets }

/-- The placement with its target as it is now. -/
def currentPlacement : Placement → Pass Placement
  | .assignment target => do
    match ← sharedTarget? target with
    | some (some walked) => return .assignment walked
    | _ => return .assignment target
  | placement => return placement

/-- Notes that copies of a placement's target are in the generated code. -/
def shareTarget : Placement → Pass Unit
  | .assignment (.ident ..) => return
  | .assignment target => do
    if (← sharedTarget? target).isNone then setTarget target none
  | _ => return

/-- Walks a target, or takes what it has become if it is a copy of one that was walked before. -/
def walkTarget (walk : Expr → Pass Expr) (target : Expr) : Pass Expr := do
  match ← sharedTarget? target with
  | some (some walked) => return walked
  | some none =>
    let walked ← walk target
    setTarget target (some walked)
    return walked
  | none => walk target

end Pass

end MatchChain
