import MatchChain.Code.Generate

/-!
# Settings of a compilation
-/

set_option autoImplicit false

namespace MatchChain

/-- The module whose imports name the match builder. -/
def patternModule : String := "ts-pattern"

structure PassConfig where
  /-- The names in use; the imports of a file take their place if they are looked for. -/
  names : MatchNames := {}
  /-- Whether the matcher and the pattern namespace are taken from the file's imports. A file that
      does not import the matcher is left alone. -/
  discoverImports : Bool := true
  generate : GenerateOptions := {}
  /-- Whether the matcher's import is dropped once nothing mentions it. -/
  stripImport : Bool := false
deriving DecidableEq

end MatchChain
