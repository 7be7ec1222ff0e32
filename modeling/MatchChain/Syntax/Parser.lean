import MatchChain.Syntax.Parser.Stmt

/-!
# From text to programs

The productions tied together. `Grammar.parse depth` follows references between productions at most
`depth` deep; five references lead from a statement to its first token, and every other one takes a
token, so `depthFor` of a text is more than it can need.
-/

set_option autoImplicit false

namespace MatchChain

namespace Grammar

/-- The production of each symbol, over a parser for the symbols it mentions. -/
def production (self : Grammar) : Grammar
  | .expr => Parser.expr self
  | .binary tightness => Parser.binary self tightness
  | .unary => Parser.unary self
  | .construct => Parser.construct self
  | .stmt => Parser.stmt self
  | .binding => Parser.binding self

/-- The grammar to a given depth. -/
def parse : (depth : Nat) → Grammar
  | 0, _ => do throw (.tooDeep (← Parser.here))
  | depth + 1, s => production (parse depth) s

end Grammar

/-- A depth that no text of this many characters reaches. -/
def depthFor (length : Nat) : Nat := 5 * length + 5

/-- Runs a parser on a source text from its first token, to a given depth. -/
def parseTo {α : Type} (depth : Nat) (source : String) (parser : Grammar → Parser α) : Except SyntaxError α :=
  match Token.lex source with
  | .error cause => .error (.lexical cause)
  | .ok tokens => (parser (Grammar.parse depth)).run' { tokens }

/-- Runs a parser on a source text to a depth that it does not reach. -/
def parseWith {α : Type} (source : String) (parser : Grammar → Parser α) : Except SyntaxError α :=
  parseTo (depthFor source.length) source parser

/-- A statement of a program. Another may always follow. -/
def Parser.programItem (self : Grammar) : Parser (Stmt × Bool) := do return (← self .stmt, true)

/-- Statements up to the end of the text. -/
def Parser.program (self : Grammar) : Parser Program := collect (·.atEnd) (programItem self)

/-- Reads a whole program. -/
def Program.parse (source : String) : Except SyntaxError Program := parseWith source Parser.program

/-- Reads a text that is one expression. -/
def Expr.parse (source : String) : Except SyntaxError Expr :=
  parseWith source fun self => do
    let e ← self .expr
    let _ ← Parser.expect .eof
    return e

end MatchChain
