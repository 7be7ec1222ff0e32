import MatchChain.Code.Placement
import MatchChain.Match.Basic
import MatchChain.Proofs.Eval.Statements
import MatchChain.Proofs.Match.Accepts

/-!
# First-match dispatch

What a match expression means, told without the code that it becomes: the subject is evaluated once,
branches are tried in order, and the first that takes the subject's value hands it to its handler,
after what its patterns select. `MatchExpr.dispatch` runs a match expression in this way.
-/

set_option autoImplicit false

namespace MatchChain

/-! ## Selections -/

/-- A component that a pattern selects: its name if it has one, and the keys that lead to it. -/
structure SelectedPath where
  name : Option String
  keys : List String

namespace Pattern

mutual

/-- The components that a pattern selects below the given keys. -/
def paths (keys : List String) : Pattern → List SelectedPath
  | array elements => elementPaths keys 0 elements
  | object fields => fieldPaths keys fields
  | select s => ⟨s.name, keys⟩ :: innerPaths keys s
  | literal _ | typeTag _ | wildcard | not _ | when _ | set _ | map _ _ => []

def elementPaths (keys : List String) (position : Nat) : List Pattern → List SelectedPath
  | [] => []
  | p :: ps => p.paths (keys ++ [toString position]) ++ elementPaths keys (position + 1) ps

def fieldPaths (keys : List String) : List FieldPattern → List SelectedPath
  | [] => []
  | ⟨name, p⟩ :: fs => p.paths (keys ++ [name]) ++ fieldPaths keys fs

def innerPaths (keys : List String) : Select → List SelectedPath
  | ⟨_, _, none⟩ => []
  | ⟨_, _, some p⟩ => p.paths keys

end

end Pattern

namespace Branch

/-- Whether one of the alternatives accepts a value. -/
def accepts (b : Branch) (h : Heap) (v : Value) : Bool := b.patterns.any (·.accepts h v)

def paths (b : Branch) : List SelectedPath := b.patterns.flatMap (Pattern.paths [])

end Branch

/-- The expression that is called as a handler. -/
def Handler.code (span : Span) : Handler → Expr
  | .callable callee => callee
  | .inline fn => .func span fn

/-- What is shown of a value: its JSON text, undefined if it has none, and itself if asking fails. -/
def Heap.shown (h : Heap) (v : Value) : Value :=
  match h.json v with
  | .ok (some json) => .str json
  | .ok none => .undefined
  | .error _ => v

namespace Eval

/-- The component of a value that keys lead to. -/
def follow (span : Span) (v : Value) (keys : List String) : Eval Value := keys.foldlM (part span) v

/-- The selected components by their names. -/
def selectedFields (span : Span) (v : Value) (fs : Fields) : List SelectedPath → Eval Fields
  | [] => return fs
  | p :: ps =>
    match p.name with
    | none => selectedFields span v fs ps
    | some name => do selectedFields span v (fs.set name (← follow span v p.keys)) ps

/-- What a handler is given before the subject: nothing, the only component if it has no name, or an
    object with the named ones. -/
def selection (span : Span) (v : Value) : List SelectedPath → Eval (List Value)
  | [] => return []
  | [⟨none, keys⟩] => return [← follow span v keys]
  | paths => do return [← newObject (← selectedFields span v [] paths)]

/-- Calls what an expression gives. The arguments are made after it is evaluated. -/
def apply (n : Nat) (span : Span) (fn : Expr) (arguments : Eval (List Value)) : Eval Value := do
  match ← callee n fn with
  | none => return .undefined
  | some (function, receiver) => call n function receiver (← arguments) span

/-- Runs a step one call deeper. -/
def deeper {α : Type} (act : Eval α) : Eval α := ExceptT.mk do
  modify fun m => { m with depth := m.depth + 1 }
  let result ← act.run
  modify fun m => { m with depth := m.depth - 1 }
  return result

/-- Runs a step as a call does that needs no function. -/
def nested {α : Type} (span : Span) (act : Eval α) : Eval α := do
  let m ← get
  if m.callLimit ≤ m.depth then raise (.callDepth span) else deeper act

/-- Reports a value that nothing matches, as JSON if it can be. -/
def noMatch (span : Span) (v : Value) : Eval Value := do
  let shown ← text ((← get).heap.shown v)
  let message := "Pattern matching error: no pattern matches value " ++ shown
  raise (.thrown (← newObject (EvalError.errorFields "Error" message)) span)

end Eval

open Eval

/-! ## Branches -/

/-- Whether a branch takes a value: an alternative accepts it, and the guard, which is asked only then,
    passes it. -/
def Branch.takes (b : Branch) (n : Nat) (span : Span) (v : Value) : Eval Bool := do
  if b.accepts (← get).heap v then
    match b.guard with
    | none => return true
    | some guard => return (← apply n span guard (return [v])).isTruthy
  else return false

/-- Gives a handler the selected components and the value. -/
def Handler.handle (h : Handler) (n : Nat) (span : Span) (v : Value) (paths : List SelectedPath) :
    Eval Value :=
  apply n span (h.code span) do return (← selection span v paths) ++ [v]

namespace MatchExpr

/-- What happens to a value that no branch takes. -/
def otherwise (e : MatchExpr) (n : Nat) (v : Value) : Eval Value :=
  match e.fallback with
  | some h => h.handle n e.span v []
  | none => if e.exhaustive then return .undefined else noMatch e.span v

/-- Hands a value to the first of the branches that takes it. -/
def select (e : MatchExpr) (n : Nat) (v : Value) : List Branch → Eval Value
  | [] => e.otherwise n v
  | b :: bs => do
    if ← b.takes n e.span v then b.handler.handle n e.span v b.paths else e.select n v bs

end MatchExpr

/-! ## Contexts -/

/-- Where the value of a match expression goes. -/
inductive Context where
  /-- Anywhere a value is needed. -/
  | value
  | declaration (kind : VarKind) (name : String)
  | destructuring (kind : VarKind) (target : Binding)

namespace Context

def placement : Context → Placement
  | value => .value
  | declaration kind name => .declaration kind name
  | destructuring kind target => .destructuring kind target

/-- The branches of a match that stands for a value are tried inside a call. -/
def host {α : Type} (span : Span) (act : Eval α) : Context → Eval α
  | value => nested span act
  | declaration .. | destructuring .. => act

/-- Does with the result what the context does. -/
def deliver (n : Nat) (v : Value) : Context → Eval Unit
  | value => return
  | declaration kind name => define name v (kind != .constVar)
  | destructuring kind target => bindPattern n target v (kind != .constVar)

end Context

/-- Runs a match expression in its context. -/
def MatchExpr.dispatch (e : MatchExpr) (context : Context) (n : Nat) : Eval Value := do
  let v ← expr n e.subject
  let result ← context.host e.span (e.select n v e.branches)
  context.deliver n result
  return result

/-! ## More steps only go on -/

theorem growing_apply (span : Span) (fn : Expr) (arguments : Eval (List Value)) :
    Growing (apply · span fn arguments) := by
  refine (growing_callee fn).bind fun found => ?_
  cases found with
  | none => exact growing_const _
  | some found =>
    exact (growing_const arguments).bind fun values => growing_call found.1 found.2 values span

theorem Branch.growing_takes (b : Branch) (span : Span) (v : Value) :
    Growing (b.takes · span v) := by
  refine (growing_const get).bind fun m => ?_
  split
  · cases b.guard with
    | none => exact growing_const _
    | some guard => exact (growing_apply span guard _).bind fun _ => growing_const _
  · exact growing_const _

theorem Handler.growing_handle (h : Handler) (span : Span) (v : Value) (paths : List SelectedPath) :
    Growing (h.handle · span v paths) := growing_apply span _ _

namespace MatchExpr

theorem growing_otherwise (e : MatchExpr) (v : Value) : Growing (e.otherwise · v) := by
  unfold otherwise
  cases e.fallback with
  | some h => exact h.growing_handle e.span v []
  | none => exact growing_const _

theorem growing_select (e : MatchExpr) (v : Value) : ∀ bs, Growing (e.select · v bs)
  | [] => e.growing_otherwise v
  | b :: bs => by
    refine (b.growing_takes e.span v).bind fun taken => ?_
    cases taken with
    | true => exact b.handler.growing_handle e.span v b.paths
    | false => exact e.growing_select v bs

end MatchExpr

end MatchChain
