import MatchChain.Eval.Heap
import MatchChain.Number.Style
import MatchChain.Text.Quoted

/-!
# JSON text of values

Undefined and functions have no text: in an array they become null, in an object they are left out.
A value that refers to itself, through any number of others, has none either, and that is an error.
-/

set_option autoImplicit false

namespace MatchChain

/-- Why a value has no JSON text. -/
inductive JsonFault where
  | bigint
  | circular
deriving DecidableEq

def JsonFault.message : JsonFault → String
  | .bigint => "Do not know how to serialize a BigInt"
  | .circular => "Converting circular structure to JSON"

namespace Json

def escapeChar (c : Char) : List Char :=
  match c with
  | '"' => ['\\', '"']
  | '\\' => ['\\', '\\']
  | '\x08' => ['\\', 'b']
  | '\x0c' => ['\\', 'f']
  | '\n' => ['\\', 'n']
  | '\r' => ['\\', 'r']
  | '\t' => ['\\', 't']
  | c => if c.toNat < 0x20 then ['\\', 'u'] ++ Text.hex4 c.toNat else [c]

def quote (text : String) : String := "\"" ++ String.ofList (text.toList.flatMap escapeChar) ++ "\""

end Json

namespace Heap

/-- The JSON text of a value inside the cells `opened`, or nothing at all if values nest deeper than this. -/
def jsonWithin (h : Heap) : (depth : Nat) → (opened : List Nat) → Value →
    ExceptT JsonFault Option (Option String)
  | 0, _, _ => ExceptT.mk none
  | n + 1, opened, v =>
    match v with
    | .undefined | .function _ => return none
    | .null => return some "null"
    | .bool b => return some (if b then "true" else "false")
    | .number x => return some x.jsonText
    | .bigint _ => throw .bigint
    | .str text => return some (Json.quote text)
    | .array cell =>
      if opened.contains cell then throw .circular
      else do
        let texts ← (h.items cell).mapM fun x => do
          return (← h.jsonWithin n (cell :: opened) x).getD "null"
        return some ("[" ++ ",".intercalate texts ++ "]")
    | .object cell =>
      if opened.contains cell then throw .circular
      else do
        let texts ← (h.fields cell).mapM fun (key, x) => do
          return (← h.jsonWithin n (cell :: opened) x).map (Json.quote key ++ ":" ++ ·)
        return some ("\x7b" ++ ",".intercalate (texts.filterMap id) ++ "\x7d")

/-- The JSON text of a value; none where there is nothing to write. The open cells are different, so
    nesting is never deeper than there are cells. -/
def json (h : Heap) (v : Value) : Except JsonFault (Option String) :=
  (h.jsonWithin (h.size + 2) [] v).run.getD (.error .circular)

end Heap

end MatchChain
