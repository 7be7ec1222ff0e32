import MatchChain.Syntax.Error
import MatchChain.Token.Cursor

/-!
# Parsers

A parser reads a value off the front of a token list. The productions of the grammar refer to each
other through `Symbol`: a production is written over a parser `self` for every symbol, and
`Grammar.parse` ties the knot to a given depth.

Lists are read by two combinators, `collect` and `chain`. Both stop at the latest when the tokens
that are left are used up, because every round that goes on takes one.
-/

set_option autoImplicit false

namespace MatchChain

abbrev Parser := StateT Cursor (Except SyntaxError)

/-- What the productions of the grammar may ask for. -/
inductive Symbol where
  /-- An expression, assignments and arrow functions included. -/
  | expr
  /-- Operands joined by binary operators that bind at least this tightly. -/
  | binary (tightness : Nat)
  /-- An operand with its leading operators. -/
  | unary
  /-- An object construction, from its keyword on. -/
  | construct
  | stmt
  /-- A name or a destructuring pattern. -/
  | binding

/-- What a symbol stands for in the tree. -/
abbrev Symbol.Result : Symbol → Type
  | stmt => Stmt
  | binding => Binding
  | _ => Expr

/-- A parser for every symbol. -/
abbrev Grammar := (s : Symbol) → Parser s.Result

namespace Parser

/-! ## Single tokens -/

def current : Parser Token := return (← get).current

def kind : Parser TokenKind := return (← get).kind

def here : Parser Span := return (← get).current.span

def next : Parser Token := modifyGet fun c => (c.current, c.advance)

def check (k : TokenKind) : Parser Bool := return (← get).check k

/-- Takes the token if it is the next one, and says whether it was. -/
def eat (k : TokenKind) : Parser Bool := do
  if (← get).check k then
    modify Cursor.advance
    return true
  else
    return false

/-- The span from `start` to the end of the last token taken. -/
def spanFrom (start : Span) : Parser Span := return start.upTo (← get).previousSpan

/-- Fails at the next token, where `what` should stand. -/
def failExpected {α : Type} (what : String) : Parser α := do
  let token ← current
  throw (.expected what token.kind token.span)

def expect (k : TokenKind) : Parser Span := do
  let token ← current
  if token.kind == k then
    modify Cursor.advance
    return token.span
  else
    throw (.expectedToken k token.kind token.span)

def name : Parser (String × Span) := do
  let token ← current
  match token.kind with
  | .ident name =>
    modify Cursor.advance
    return (name, token.span)
  | found => throw (.expectedName found token.span)

/-- A name after a dot or as an object key, where keywords are names too. -/
def propertyName : Parser String := do
  match ← kind with
  | .keyword word =>
    modify Cursor.advance
    return word.text
  | _ => return (← name).1

/-- Whether the next token is a name with this spelling. -/
def atWord (word : String) : Parser Bool := return (← get).kind == .ident word

def expectWord (word : String) : Parser Unit := do
  if ← atWord word then modify Cursor.advance else failExpected ("`" ++ word ++ "`")

/-- The end of a statement: a semicolon, or nothing before a closing brace, a line break or the end
    of the text. -/
def endStatement : Parser Unit := do
  if ← eat (.punct .semicolon) then return
  let token ← current
  match token.kind with
  | .punct .rbrace | .eof => return
  | found =>
    if token.newlineBefore then return else throw (.expectedToken (.punct .semicolon) found token.span)

def unsupported {α : Type} (what : String) (span : Span) : Parser α := throw (.unsupported what span)

/-! ## Lists -/

/-- `collect` for at most `rounds` rounds. -/
def collectFor {α : Type} (stop : Cursor → Bool) (item : Parser (α × Bool)) :
    (rounds : Nat) → List α → Parser (List α)
  | 0, _ => do throw (.tooDeep (← here))
  | rounds + 1, found => do
    if stop (← get) then return found.reverse
    let (x, more) ← item
    if more then collectFor stop item rounds (x :: found) else return (x :: found).reverse

/-- Items until the stop condition holds or an item says that it is the last. -/
def collect {α : Type} (stop : Cursor → Bool) (item : Parser (α × Bool)) : Parser (List α) := do
  collectFor stop item ((← get).remaining + 1) []

/-- An item, and whether a comma follows. -/
def itemOf {α : Type} (item : Parser α) : Parser (α × Bool) := do
  let x ← item
  return (x, ← eat (.punct .comma))

/-- Items with commas between them, and possibly one after the last, up to a closing token. -/
def commaList {α : Type} (close : TokenKind) (item : Parser α) : Parser (List α) := do
  let items ← collect (·.check close) (itemOf item)
  let _ ← expect close
  return items

/-- `chain` for at most `rounds` rounds. -/
def chainFor {α : Type} (link : α → Parser (Option α)) : (rounds : Nat) → α → Parser α
  | 0, _ => do throw (.tooDeep (← here))
  | rounds + 1, x => do
    match ← link x with
    | some y => chainFor link rounds y
    | none => return x

/-- A value extended by one link after another for as long as there is one. -/
def chain {α : Type} (link : α → Parser (Option α)) (x : α) : Parser α := do
  chainFor link ((← get).remaining + 1) x

end Parser

end MatchChain
