import MatchChain.Diagnostic.Code
import MatchChain.Number.Reading
import MatchChain.Text.Quoted
import MatchChain.Token.Basic
import MatchChain.Token.Template

/-!
# From text to tokens

At each place the longest rule that fits is taken: a blank, a comment, a number, a string, a template
literal, a word or punctuation. `Lexeme.read` looks at one place; `Token.lexAt` goes through a whole
text. Blanks and comments leave no token, but the token after them knows whether they held a line
break.

A lexeme always takes its first character, so the rest of the text gets shorter with every step.
-/

set_option autoImplicit false

namespace MatchChain

/-- Why a text has no tokens, and where. -/
inductive LexError where
  | unterminatedString (span : Span)
  | unterminatedTemplate (span : Span)
  | unterminatedComment (span : Span)
  | invalidEscape (span : Span)
  | invalidNumber (span : Span) (text : String)
  | unexpectedCharacter (span : Span) (char : Char)
deriving DecidableEq

namespace LexError

def span : LexError → Span
  | unterminatedString s | unterminatedTemplate s | unterminatedComment s | invalidEscape s
  | invalidNumber s _ | unexpectedCharacter s _ => s

def code : LexError → Code
  | unterminatedString _ => .unterminatedString
  | unterminatedTemplate _ => .unterminatedTemplate
  | unterminatedComment _ => .unterminatedComment
  | invalidEscape _ => .invalidEscape
  | invalidNumber _ _ => .invalidNumber
  | unexpectedCharacter _ _ => .unexpectedCharacter

def message : LexError → String
  | unterminatedString _ => "unterminated string literal"
  | unterminatedTemplate _ => "unterminated template literal"
  | unterminatedComment _ => "unterminated block comment"
  | invalidEscape _ => "invalid escape sequence"
  | invalidNumber _ text => "invalid number literal `" ++ text ++ "`"
  | unexpectedCharacter _ c => "unexpected character `" ++ c.toString ++ "`"

end LexError

/-! ## Character classes -/

/-- What separates tokens. -/
def isSeparator (c : Char) : Bool :=
  c == ' ' || c == '\t' || c == '\r' || c == '\n' || c == '\x0c'

def isWordStart (c : Char) : Bool := c.isAlpha || c == '_' || c == '$'

def isWordPart (c : Char) : Bool := c.isAlphanum || c == '_' || c == '$'

/-- A digit or the underscore that may stand between digits. -/
def isDigitPart (c : Char) : Bool := c.isDigit || c == '_'

/-- What counts as a line break between two tokens. -/
def isLineBreak (c : Char) : Bool :=
  c == '\n' || c == '\r' || c == '\u2028' || c == '\u2029'

/-! ## Lengths of the longer lexemes -/

/-- Characters of an exponent at the start of a text, 0 if there is none. -/
def exponentLength : List Char → Nat
  | [] => 0
  | e :: cs =>
    if e = 'e' ∨ e = 'E' then
      let sign := match cs with
        | s :: _ => if s = '+' ∨ s = '-' then 1 else 0
        | [] => 0
      let digits := ((cs.drop sign).takeWhile Char.isDigit).length
      if digits = 0 then 0 else 1 + sign + digits
    else 0

/-- Characters of a fraction at the start of a text, the point included. -/
def fractionLength : List Char → Nat
  | '.' :: cs => 1 + (cs.takeWhile isDigitPart).length
  | _ => 0

/-- The forms of a number literal. -/
inductive NumberForm where
  | decimal
  | hex
  | binary
  | bigint
deriving DecidableEq

/-- Form and length of the number literal at the start of a text that starts with a digit, or with a
    point and a digit. -/
def numberForm (cs : List Char) : NumberForm × Nat :=
  let digits (isDigit : Char → Bool) := ((cs.drop 2).takeWhile fun c => isDigit c || c == '_').length
  let hex := digits fun c => (Text.hexDigit? c).isSome
  let binary := digits fun c => c == '0' || c == '1'
  let second := (cs.drop 1).head?
  if cs.head? = some '0' ∧ (second = some 'x' ∨ second = some 'X') ∧ hex ≠ 0 then (.hex, 2 + hex)
  else if cs.head? = some '0' ∧ (second = some 'b' ∨ second = some 'B') ∧ binary ≠ 0 then
    (.binary, 2 + binary)
  else
    let whole := (cs.takeWhile isDigitPart).length
    let rest := cs.drop whole
    if whole ≠ 0 ∧ rest.head? = some 'n' then (.bigint, whole + 1)
    else
      let mantissa := whole + fractionLength rest
      (.decimal, mantissa + exponentLength (cs.drop mantissa))

/-- Characters of a string body at the start of a text, the closing quote included, and whether the
    quote was found. The body ends before a line break or a lone backslash at the end. -/
def stringLength (quote : Char) : List Char → Nat × Bool
  | [] => (0, false)
  | '\\' :: _ :: cs =>
    let (length, closed) := stringLength quote cs
    (length + 2, closed)
  | c :: cs =>
    if c = quote then (1, true)
    else if c = '\n' ∨ c = '\r' ∨ c = '\\' then (0, false)
    else
      let (length, closed) := stringLength quote cs
      (length + 1, closed)

/-- Characters of a block comment after its opening, the closing included. -/
def commentLength? : List Char → Option Nat
  | [] => none
  | '*' :: '/' :: _ => some 2
  | _ :: cs => (commentLength? cs).map (· + 1)

/-! ## One lexeme -/

/-- What stands at one place of a text: something without a token, a token, or a fault. `extra`
    counts the characters taken after the first. -/
inductive Lexeme where
  | skip (extra : Nat)
  | token (extra : Nat) (kind : TokenKind)
  | fault (error : LexError)
deriving Inhabited

namespace Lexeme

/-- The span of `cs` when it starts at byte `offset`. -/
def spanOf (offset : Nat) (cs : List Char) : Span :=
  ⟨clampOffset offset, clampOffset (offset + Text.byteLength cs)⟩

def withoutUnderscores (cs : List Char) : List Char := cs.filter (· != '_')

/-- A whole number in the given base, if it has digits and fits in 64 bits. -/
def wordValue? (base : Nat) (digits : List Char) : Option Double :=
  (Text.digits? base digits).bind fun n => if n < Nat.pow 2 64 then some (Double.ofNat n) else none

/-- The token of a number literal. -/
def number (offset : Nat) (form : NumberForm) (text : List Char) : Except LexError TokenKind :=
  let digits := withoutUnderscores text
  let value : Option TokenKind := match form with
    | .decimal => (Double.parse? digits).map .num
    | .hex => (wordValue? 16 (digits.drop 2)).map .num
    | .binary => (wordValue? 2 (digits.drop 2)).map .num
    | .bigint => some (.bigint (String.ofList digits.dropLast))
  match value with
  | some kind => .ok kind
  | none => .error (.invalidNumber (spanOf offset text) (String.ofList text))

/-- The texts and holes of a template literal after its head, which starts at byte `offset`: each
    hole is two bytes after the text before it, and one byte before the text after it. -/
def templateTail (offset : Nat) :
    List (List Char × List Char) → Except LexError (List TemplateText × List TemplateHole)
  | [] => .ok ([], [])
  | (code, raw) :: rest =>
    let textAt := offset + 2 + Text.byteLength code + 1
    match Text.cook? raw with
    | none => .error (.invalidEscape (spanOf textAt raw))
    | some text =>
      match templateTail (textAt + Text.byteLength raw) rest with
      | .error e => .error e
      | .ok (texts, holes) =>
        .ok (⟨String.ofList text, spanOf textAt raw⟩ :: texts,
          ⟨code, spanOf (offset + 2) code⟩ :: holes)

/-- The parts of a template literal whose backtick is at byte `offset`. -/
def templateParts (offset : Nat) (raw : RawTemplate) : Except LexError TemplateParts :=
  match Text.cook? raw.head with
  | none => .error (.invalidEscape (spanOf (offset + 1) raw.head))
  | some text =>
    match templateTail (offset + 1 + Text.byteLength raw.head) raw.tail with
    | .error e => .error e
    | .ok (texts, holes) => .ok ⟨⟨String.ofList text, spanOf (offset + 1) raw.head⟩ :: texts, holes⟩

def ofExcept (extra : Nat) : Except LexError TokenKind → Lexeme
  | .ok kind => .token extra kind
  | .error e => .fault e

/-- A word is a keyword or an identifier. -/
def wordKind (word : String) : TokenKind :=
  match Keyword.ofText? word with
  | some k => .keyword k
  | none => .ident word

/-- The lexeme at a place: `c` is the character at byte `offset`, `cs` what follows it. -/
def read (offset : Nat) (c : Char) (cs : List Char) : Lexeme :=
  if isSeparator c then .skip 0
  else if c = '/' ∧ cs.head? = some '/' then .skip (cs.takeWhile (· != '\n')).length
  else if c = '/' ∧ cs.head? = some '*' then
    match commentLength? (cs.drop 1) with
    | some n => .skip (1 + n)
    | none => .fault (.unterminatedComment (spanOf offset (c :: cs)))
  else if c.isDigit ∨ (c = '.' ∧ cs.head?.any Char.isDigit) then
    let (form, length) := numberForm (c :: cs)
    ofExcept (length - 1) (number offset form ((c :: cs).take length))
  else if c = '"' ∨ c = '\'' then
    let (length, closed) := stringLength c cs
    let span := spanOf offset (c :: cs.take length)
    if closed then
      match Text.cook? (cs.take (length - 1)) with
      | some text => .token length (.str (String.ofList text))
      | none => .fault (.invalidEscape span)
    else .fault (.unterminatedString span)
  else if c = '\x60' then
    match RawTemplate.read? cs with
    | none => .fault (.unterminatedTemplate (spanOf offset (c :: cs)))
    | some (raw, rest) =>
      ofExcept (cs.length - rest.length) ((templateParts offset raw).map .template)
  else if isWordStart c then
    let part := cs.takeWhile isWordPart
    .token part.length (wordKind (String.ofList (c :: part)))
  else
    match Punct.ofStart? (c :: cs) with
    | some p => .token (p.text.length - 1) (.punct p)
    | none => .fault (.unexpectedCharacter (spanOf offset [c]) c)

end Lexeme

/-! ## A whole text -/

/-- What stands between the last token and the current place. -/
structure Gap where
  lineBreak : Bool := false
  lineFeed : Bool := false

def Gap.over (gap : Gap) (cs : List Char) : Gap :=
  ⟨gap.lineBreak || cs.any isLineBreak, gap.lineFeed || cs.any (· == '\n')⟩

namespace Token

/-- The tokens of a text that starts at byte `offset`, after those found already. -/
def lexFrom (offset : Nat) (gap : Gap) (found : Array Token) :
    List Char → Except LexError (Array Token)
  | [] => .ok (found.push ⟨.eof, Lexeme.spanOf offset [], gap.lineFeed⟩)
  | c :: cs =>
    match Lexeme.read offset c cs with
    | .fault e => .error e
    | .skip extra =>
      let text := c :: cs.take extra
      lexFrom (offset + Text.byteLength text) (gap.over text) found (cs.drop extra)
    | .token extra kind =>
      let text := c :: cs.take extra
      let token : Token := ⟨kind, Lexeme.spanOf offset text, gap.lineBreak⟩
      lexFrom (offset + Text.byteLength text) {} (found.push token) (cs.drop extra)
termination_by cs => cs.length
decreasing_by all_goals simp only [List.length_drop, List.length_cons]; omega

/-- The tokens of a text that starts at byte `base` of its file; the last one is the end of file. -/
def lexAt (base : Nat) (text : List Char) : Except LexError (Array Token) :=
  lexFrom base {} #[] text

/-- The tokens of a source text. -/
def lex (source : String) : Except LexError (Array Token) := lexAt 0 source.toList

end Token

end MatchChain
