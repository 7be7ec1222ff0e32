import MatchChain.Diagnostic.Terminal
import MatchChain.Pass.Config

/-!
# Arguments

A command line is read from left to right, and the first fault ends the reading. An option may
stand before or after the input, and of an option given twice the last one counts.
-/

set_option autoImplicit false

namespace MatchChain

namespace CommandLine

def usage : String := "Usage: pattyc [options] <input>

Compiles ts-pattern `match(..)` chains in <input> into plain conditionals
and writes the result to stdout.

Options:
  -o <path>            Write output to <path> instead of stdout
  --matcher <name>     Matcher name when imports are not scanned (default: match)
  --patterns <name>    Pattern namespace when imports are not scanned (default: P)
  --no-discover        Do not scan `ts-pattern` imports; use the names above
  --no-null-safe       Use plain `.`/`[]` access in generated pattern tests
  --strip-import       Remove the `match` import once every use is compiled
  --color <when>       auto, always or never (default: auto)
  -h, --help           Print this help"

/-- What to compile, and how. -/
structure Options where
  input : String
  /-- Where the code goes if not to the standard output. -/
  output : Option String
  config : PassConfig
  color : ColorMode

inductive Command where
  | compile (options : Options)
  | help

inductive UsageError where
  | missingValue (option : String)
  | unknownOption (option : String)
  | invalidValue (option value : String)
  | missingInput
  | extraArgument (arg : String)
deriving DecidableEq

def UsageError.message : UsageError → String
  | missingValue option => "missing value for `" ++ option ++ "`"
  | unknownOption option => "unknown option `" ++ option ++ "`"
  | invalidValue option value => "invalid value `" ++ value ++ "` for `" ++ option ++ "`"
  | missingInput => "missing input file"
  | extraArgument arg => "unexpected argument `" ++ arg ++ "`"

def color? : String → Option ColorMode
  | "auto" => some .auto
  | "always" => some .always
  | "never" => some .never
  | _ => none

/-- What has been read of a command line. -/
structure Draft where
  input : Option String := none
  output : Option String := none
  config : PassConfig := {}
  color : ColorMode := .auto

namespace Draft

def withMatcher (d : Draft) (name : String) : Draft :=
  { d with config.names.matcher := name }

def withPatterns (d : Draft) (name : String) : Draft :=
  { d with config.names.patterns := some name }

/-- The first argument that is no option is the input. A lone dash is no option. -/
def withInput (d : Draft) (arg : String) : Except UsageError Draft :=
  if arg.startsWith "-" && arg != "-" then .error (.unknownOption arg)
  else match d.input with
    | none => .ok { d with input := some arg }
    | some _ => .error (.extraArgument arg)

def finish (d : Draft) : Except UsageError Command :=
  match d.input with
  | some input => .ok (.compile { d with input })
  | none => .error .missingInput

/-- Reads the arguments after those that gave the draft. -/
def read (d : Draft) : List String → Except UsageError Command
  | [] => d.finish
  | "-h" :: _ | "--help" :: _ => .ok .help
  | "--no-discover" :: args => read { d with config.discoverImports := false } args
  | "--no-null-safe" :: args => read { d with config.generate.nullSafe := false } args
  | "--strip-import" :: args => read { d with config.stripImport := true } args
  | ["-o"] => .error (.missingValue "-o")
  | "-o" :: path :: args => read { d with output := some path } args
  | ["--matcher"] => .error (.missingValue "--matcher")
  | "--matcher" :: name :: args => read (d.withMatcher name) args
  | ["--patterns"] => .error (.missingValue "--patterns")
  | "--patterns" :: name :: args => read (d.withPatterns name) args
  | ["--color"] => .error (.missingValue "--color")
  | "--color" :: value :: args =>
    match color? value with
    | some color => read { d with color } args
    | none => .error (.invalidValue "--color" value)
  | arg :: args => do read (← d.withInput arg) args

end Draft

/-- Reads a command line without the program's name. -/
def Command.parse (args : List String) : Except UsageError Command := Draft.read {} args

end CommandLine

end MatchChain
