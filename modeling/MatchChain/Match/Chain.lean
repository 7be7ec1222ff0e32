import MatchChain.Match.Basic

/-!
# Chains of calls

A chain reads `matcher(…).m₁(…).….mₖ(…)`. In the tree its last call is outermost; `flatten` gives the
calls from the root on.
-/

set_option autoImplicit false

namespace MatchChain

/-- A call that is not an optional one. -/
structure Call where
  span : Span
  callee : Expr
  args : List Expr

namespace Call

def toExpr (c : Call) : Expr := .call c.span c.callee c.args false

/-- The name after the last dot of the callee. -/
def operation? (c : Call) : Option String :=
  match c.callee with
  | .member _ _ property _ => some property
  | _ => none

end Call

namespace Chain

/-- A chain with more calls than this is left alone. -/
def maxCalls : Nat := 4096

/-- The calls of the chain that ends at an expression and goes on with `later`, of which there are
    `depth`. -/
def flattenFrom (matcher : String) (depth : Nat) (later : List Call) : Expr → Option (List Call)
  | .call span (.ident s name) args false =>
    if maxCalls ≤ depth then none
    else if name == matcher then some (⟨span, .ident s name, args⟩ :: later)
    else none
  | .call span (.member s object property false) args false =>
    if maxCalls ≤ depth then none
    else
      flattenFrom matcher (depth + 1) (⟨span, .member s object property false, args⟩ :: later)
        object
  | _ => none

/-- The calls of a chain rooted at the matcher, root first. -/
def flatten (matcher : String) (e : Expr) : Option (List Call) := flattenFrom matcher 0 [] e

end Chain

/-- What a chain's operation does. -/
inductive Operation where
  | clause
  | fallback
  | exhaustive
  | run
  | unknown
deriving DecidableEq

/-- Whether the operation ends a chain. -/
def Operation.isTerminal : Operation → Bool
  | .fallback | .exhaustive | .run => true
  | _ => false

/-- The operation with a name; of two with one name, the first in this order. -/
def ChainNames.operation (names : ChainNames) (name : String) : Operation :=
  if name == names.clause then .clause
  else if name == names.fallback then .fallback
  else if name == names.exhaustive then .exhaustive
  else if name == names.run then .run
  else .unknown

namespace MatchNames

/-- Whether the calls after the root end in an operation that ends a chain. -/
def endsChain (names : MatchNames) (calls : List Call) : Bool :=
  match calls.tail.getLast? with
  | some last =>
    match last.operation? with
    | some name => (names.chain.operation name).isTerminal
    | none => false
  | none => false

/-- The calls of a complete match expression. -/
def recognize (names : MatchNames) (e : Expr) : Option (List Call) :=
  (Chain.flatten names.matcher e).filter names.endsChain

end MatchNames

end MatchChain
