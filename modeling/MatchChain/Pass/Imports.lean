import MatchChain.Pass.Config
import MatchChain.Syntax.Visit

/-!
# Imports of the match builder

Only named imports at the top level count: a default or whole-module import binds no bare matcher.
-/

set_option autoImplicit false

namespace MatchChain

/-- The local names of the matcher and the pattern namespace. -/
structure Discovered where
  matcher : Option String := none
  patterns : Option String := none
deriving DecidableEq

namespace Program

/-- The specifiers of all top-level imports of the pattern module. -/
def patternSpecifiers (p : Program) : List ImportSpecifier :=
  p.flatMap fun
    | .importDecl _ specifiers source => if source == patternModule then specifiers else []
    | _ => []

/-- The first local name that a named import with one of these names is bound to. -/
def importedAs? (p : Program) (names : List String) : Option String :=
  (p.patternSpecifiers.find? fun s => s.kind == .named && names.contains s.imported).map (·.localName)

def discover (p : Program) : Discovered :=
  { matcher := p.importedAs? ["match"], patterns := p.importedAs? ["P", "Pattern"] }

end Program

/-- The names that a file uses; none if they are looked for and the file imports no matcher. -/
def PassConfig.resolve (config : PassConfig) (p : Program) : Option MatchNames :=
  if config.discoverImports then
    let found := p.discover
    found.matcher.map fun matcher => { config.names with matcher, patterns := found.patterns }
  else some config.names

/-- Whether a specifier is a named one that binds this name. -/
def ImportSpecifier.binds (s : ImportSpecifier) (name : String) : Bool :=
  s.kind == .named && s.localName == name

namespace Stmt

/-- A statement without the specifiers of the pattern module that bind a name. An import that is left
    without any is dropped; all else is kept as it is. -/
def withoutImport (name : String) : Stmt → Option Stmt
  | .importDecl span specifiers source =>
    if source == patternModule && specifiers.any (·.binds name) then
      let kept := specifiers.filter (!·.binds name)
      if kept.isEmpty then none else some (.importDecl span kept source)
    else some (.importDecl span specifiers source)
  | s => some s

end Stmt

/-- Whether an import of the matcher was taken out of a program, and the program then. Nothing is taken out
    while the matcher is still mentioned. -/
def Program.strip (p : Program) (matcher : String) : Bool × Program :=
  if p.mentions matcher then (false, p)
  else (p.patternSpecifiers.any (·.binds matcher), p.filterMap (Stmt.withoutImport matcher))

/-- The program without the matcher's import; none if the matcher is still mentioned or was never
    imported. -/
def Program.stripImport (p : Program) (matcher : String) : Option Program :=
  let (changed, stripped) := p.strip matcher
  if changed then some stripped else none

end MatchChain
