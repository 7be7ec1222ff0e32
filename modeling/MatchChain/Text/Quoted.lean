import MatchChain.Text.Bytes
import MatchChain.Text.Letters

/-!
# Escapes in string and template literals

`cook?` reads the raw text of a literal: each escape sequence becomes the character it names, a line
continuation disappears, everything else stands for itself. `quote` and `escapeTemplate` are the
writing side: they produce raw text that cooks back to what was written.
-/

set_option autoImplicit false

namespace MatchChain.Text

/-! ## Reading -/

/-- The value of a hexadecimal digit, in either case. -/
def hexDigit? (c : Char) : Option Nat :=
  if c.isDigit then some (c.toNat - '0'.toNat)
  else if 'a' ≤ c ∧ c ≤ 'f' then some (c.toNat - 'a'.toNat + 10)
  else if 'A' ≤ c ∧ c ≤ 'F' then some (c.toNat - 'A'.toNat + 10)
  else none

/-- The value of one or more digits in a base of at most sixteen. -/
def digits? (base : Nat) (ds : List Char) : Option Nat :=
  if ds = [] then none
  else ds.foldlM (fun n c => (hexDigit? c).bind fun d => if d < base then some (base * n + d) else none) 0

/-- The character with a hexadecimal code, if there is one. The number may have a plus sign. -/
def scalar? (ds : List Char) : Option Char :=
  let digits := match ds with
    | '+' :: rest => rest
    | other => other
  (digits? 16 digits).bind fun n => if n.isValidChar then some (Char.ofNat n) else none

/-- A code of a fixed number of characters, each of one byte. -/
def fixedScalar? (ds : List Char) : Option Char :=
  if byteLength ds = ds.length then scalar? ds else none

/-- A code between braces, of one to six bytes. -/
def bracedScalar? (ds : List Char) : Option Char :=
  if ds = [] ∨ 6 < byteLength ds then none else scalar? ds

/-- The character that an escape with a single letter stands for. -/
def namedEscape? : Char → Option Char
  | 'n' => some '\n'
  | 't' => some '\t'
  | 'r' => some '\r'
  | 'b' => some '\x08'
  | 'f' => some '\x0c'
  | 'v' => some '\x0b'
  | _ => none

/-- Whether a backslash before this character continues the literal on the next line. -/
def isLineEnd (c : Char) : Bool := c == '\n' || c == '\u2028' || c == '\u2029'

/-- Cooks a raw text. Inside a braced escape, `code` holds the characters read since the opening
    brace; the end of the text closes it like a brace. -/
def cookFrom : (code : Option (List Char)) → List Char → Option (List Char)
  | some code, [] => (bracedScalar? code).map ([·])
  | some code, c :: cs =>
    if c = '}' then (bracedScalar? code).bind fun d => (cookFrom none cs).map (d :: ·)
    else cookFrom (some (code ++ [c])) cs
  | none, [] => some []
  | none, '\\' :: 'u' :: '{' :: cs => cookFrom (some []) cs
  | none, '\\' :: 'u' :: a :: b :: c :: d :: cs =>
    (fixedScalar? [a, b, c, d]).bind fun e => (cookFrom none cs).map (e :: ·)
  | none, '\\' :: 'u' :: _ => none
  | none, '\\' :: 'x' :: a :: b :: cs =>
    (fixedScalar? [a, b]).bind fun e => (cookFrom none cs).map (e :: ·)
  | none, '\\' :: 'x' :: _ => none
  | none, '\\' :: '\r' :: '\n' :: cs => cookFrom none cs
  | none, '\\' :: '\r' :: cs => cookFrom none cs
  | none, '\\' :: c :: cs =>
    if isLineEnd c then cookFrom none cs
    else if c.isDigit then
      if c = '0' ∧ !cs.head?.any Char.isDigit then (cookFrom none cs).map ('\x00' :: ·) else none
    else (cookFrom none cs).map ((namedEscape? c).getD c :: ·)
  | none, ['\\'] => none
  | none, c :: cs => (cookFrom none cs).map (c :: ·)

/-- The text that the raw text of a literal stands for, unless an escape is malformed. -/
def cook? (raw : List Char) : Option (List Char) := cookFrom none raw

/-! ## Writing -/

/-- Four lower-case hexadecimal digits. -/
def hex4 (n : Nat) : List Char :=
  let ds := Nat.toDigits 16 n
  List.replicate (4 - ds.length) '0' ++ ds

/-- A character inside single quotes. -/
def quoteChar (c : Char) : List Char :=
  if c = '\'' then ['\\', '\'']
  else if c = '\\' then ['\\', '\\']
  else if c = '\n' then ['\\', 'n']
  else if c = '\r' then ['\\', 'r']
  else if c = '\t' then ['\\', 't']
  else if c = '\u2028' ∨ c = '\u2029' ∨ isControl c then '\\' :: 'u' :: hex4 c.toNat
  else [c]

/-- A text as a string literal in single quotes. -/
def quote (text : String) : String :=
  String.ofList ('\'' :: (text.toList.flatMap quoteChar ++ ['\'']))

/-- A text as it stands in a template literal. A dollar is escaped only before a brace. -/
def escapeTemplate : List Char → List Char
  | [] => []
  | c :: cs =>
    (if c = '\x60' then ['\\', '\x60']
     else if c = '\\' then ['\\', '\\']
     else if c = '\r' then ['\\', 'r']
     else if c = '$' ∧ cs.head? = some '{' then ['\\', '$']
     else [c]) ++ escapeTemplate cs

end MatchChain.Text
