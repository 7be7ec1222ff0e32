import MatchChain.Syntax.Basic

/-!
# Where generated code goes

A match expression that is the whole of a declaration or assignment becomes statements that assign
the result and leave a labelled block; anywhere else it becomes a function that is called at once.
-/

set_option autoImplicit false

namespace MatchChain

/-- What a match expression is a part of. -/
inductive Placement where
  /-- Anywhere a value is needed. -/
  | value
  /-- The initial value of a single name. -/
  | declaration (kind : VarKind) (name : String)
  /-- The initial value of a destructuring pattern. -/
  | destructuring (kind : VarKind) (target : Binding)
  /-- The right side of an assignment statement. -/
  | assignment (target : Expr)

namespace Placement

def describe : Placement → String
  | value => "iife"
  | declaration .. => "block(var-decl)"
  | destructuring .. => "block(pattern-var-decl)"
  | assignment _ => "block(assignment)"

/-- Whether the generated code takes the place of a whole statement. -/
def isStatement : Placement → Bool
  | value => false
  | _ => true

/-- Where the initial value of a declared target goes. -/
def ofDeclarator (kind : VarKind) (d : Declarator) : Placement :=
  match d.target with
  | .ident _ name => declaration kind name
  | target => destructuring kind target

end Placement

/-- The expression whose value a statement is about, with its placement: the first initial value of a
    declaration, the right side of a plain assignment, or the expression that the statement is. -/
def Stmt.site? : Stmt → Option (Expr × Placement)
  | .varDecl _ kind (d :: _) => d.init.map fun value => (value, .ofDeclarator kind d)
  | .expr _ (.assign _ .assign target value) => some (value, .assignment target)
  | .expr _ e => some (e, .value)
  | _ => none

end MatchChain
