import MatchChain.Eval.Value

/-!
# Scopes

Scopes form chains by their parents and are shared: a function keeps the scope that it was made in
and sees later assignments there. An environment is the stack of scopes of the code that is running.
-/

set_option autoImplicit false

namespace MatchChain

/-- A variable: its value, and whether it can be assigned. -/
structure Variable where
  value : Value
  isMutable : Bool
deriving DecidableEq

structure Scope where
  bindings : List (String × Variable) := []
  parent : Option Nat := none
deriving Inhabited

/-- Why a variable was not assigned. -/
inductive AssignFault where
  | immutable
  | undefined
deriving DecidableEq

/-- All scopes, by number. A scope's parent is older than the scope. -/
structure Scopes where
  scopes : Array Scope := #[]
deriving Inhabited

namespace Scopes

/-- The oldest scope, which holds what every program sees. -/
def outermost : Nat := 0

def scope (s : Scopes) (id : Nat) : Scope := (s.scopes[id]?).getD {}

/-- A new scope inside another, or one on its own. -/
def alloc (s : Scopes) (parent : Option Nat) : Nat × Scopes :=
  (s.scopes.size, { s with scopes := s.scopes.push { parent } })

/-- Binds a name in a scope, over an earlier binding there. -/
def define (s : Scopes) (id : Nat) (name : String) (v : Variable) : Scopes :=
  let scope := s.scope id
  let others := scope.bindings.filter (·.1 != name)
  { s with scopes := s.scopes.setIfInBounds id { scope with bindings := (name, v) :: others } }

/-- The nearest scope from `id` outwards that binds a name, looking at no more than `fuel`. -/
def ownerWithin (s : Scopes) (name : String) : (fuel : Nat) → (id : Nat) → Option (Nat × Variable)
  | 0, _ => none
  | fuel + 1, id =>
    match (s.scope id).bindings.lookup name with
    | some v => some (id, v)
    | none =>
      match (s.scope id).parent with
      | some parent => s.ownerWithin name fuel parent
      | none => none

/-- The nearest scope from `id` outwards that binds a name, with its variable. -/
def owner? (s : Scopes) (id : Nat) (name : String) : Option (Nat × Variable) :=
  s.ownerWithin name (id + 1) id

def lookup (s : Scopes) (id : Nat) (name : String) : Option Value :=
  (s.owner? id name).map (·.2.value)

/-- Gives the nearest variable with a name a new value. -/
def assign (s : Scopes) (id : Nat) (name : String) (value : Value) : Except AssignFault Scopes :=
  match s.owner? id name with
  | none => .error .undefined
  | some (owner, v) =>
    if v.isMutable then .ok (s.define owner name { v with value }) else .error .immutable

end Scopes

/-- The scopes of the running code, innermost first, below an outermost one that stays. -/
structure Environment where
  inner : List Nat
  outermost : Nat
deriving DecidableEq, Inhabited

namespace Environment

def depth (e : Environment) : Nat := e.inner.length + 1

/-- The innermost scope, which functions made here keep. -/
def current (e : Environment) : Nat := e.inner.headD e.outermost

/-- Enters a new scope. -/
def push (e : Environment) (s : Scopes) : Environment × Scopes :=
  let (id, s) := s.alloc (some e.current)
  ({ e with inner := id :: e.inner }, s)

/-- Leaves the innermost scope; the outermost one stays. -/
def pop (e : Environment) : Environment := { e with inner := e.inner.tail }

/-- The environment of a function's body: one scope inside the one that the function kept. -/
def enclosed (captured : Nat) (s : Scopes) : Environment × Scopes :=
  let (id, s) := s.alloc (some captured)
  ({ inner := [], outermost := id }, s)

end Environment

end MatchChain
