import MatchChain.Match.Pattern

/-!
# Match expressions

A match expression is a subject and branches tried in order: the first one whose patterns and guard
accept the subject hands it to its handler. When none does, a fallback runs, or the match fails.
-/

set_option autoImplicit false

namespace MatchChain

/-- What runs when a branch is taken. -/
inductive Handler where
  /-- A function written in place, whose body may be moved into the branch. -/
  | inline (fn : Func)
  /-- Any other expression, which is always called. -/
  | callable (callee : Expr)
deriving Inhabited

/-- The handler that an argument stands for. -/
def Handler.ofExpr : Expr → Handler
  | .func _ fn => .inline fn
  | e => .callable e

structure Branch where
  /-- Alternatives, any one of which is enough. -/
  patterns : List Pattern
  /-- A predicate that the subject has to satisfy besides. -/
  guard : Option Expr
  handler : Handler
  span : Span

namespace Branch

/-- The selections of all alternatives, in order. -/
def selections (b : Branch) : List Select := b.patterns.flatMap Pattern.selections

end Branch

structure MatchExpr where
  subject : Expr
  branches : List Branch
  fallback : Option Handler
  /-- Whether the chain asserts that some branch is always taken. -/
  exhaustive : Bool
  span : Span

/-- The names of the chain's operations. -/
structure ChainNames where
  clause : String := "with"
  fallback : String := "otherwise"
  exhaustive : String := "exhaustive"
  run : String := "run"
deriving DecidableEq

/-- The names by which a file refers to the match builder. -/
structure MatchNames where
  matcher : String := "match"
  /-- The namespace of pattern constructors, if the file has one. -/
  patterns : Option String := some "P"
  chain : ChainNames := {}
deriving DecidableEq

end MatchChain
