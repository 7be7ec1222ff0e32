import MatchChain.Eval.Heap
import MatchChain.Number.Reading
import MatchChain.Number.Style
import MatchChain.Text.Letters

/-!
# Conversions

Text and number of a value, and the equality that converts. The text of an array or an error object
is made from that of its parts.
-/

set_option autoImplicit false

namespace MatchChain

/-- The number that a text stands for. Spelled-out infinities are the only words among them. -/
def Text.toNumber (text : String) : Double :=
  let cs := Text.trim text.toList
  if cs.isEmpty then .zero
  else match String.ofList cs with
    | "Infinity" | "+Infinity" => .infinity
    | "-Infinity" => Double.infinity.neg
    | _ =>
      if cs.any Text.isAlphabetic && !cs.any (fun c => c == 'e' || c == 'E') then .nan
      else (Double.parse? cs).getD .nan

namespace Heap

def functionText (h : Heap) (cell : Nat) : String :=
  match h.cells[cell]? with
  | some (.native fn _) => "function " ++ fn.name ++ "() \x7b [native code] \x7d"
  | _ => "function () \x7b ... \x7d"

/-- The text of a value inside the cells `opened`, nested at most this deep. A value inside itself
    leaves no trace. -/
def textWithin (h : Heap) : (depth : Nat) → (opened : List Nat) → Value → String
  | 0, _, _ => ""
  | n + 1, opened, v =>
    match v with
    | .undefined => "undefined"
    | .null => "null"
    | .bool b => if b then "true" else "false"
    | .number x => x.text
    | .bigint digits => digits
    | .str text => text
    | .array cell =>
      if opened.contains cell then ""
      else ",".intercalate ((h.items cell).map fun x =>
        if x.isNullish then "" else h.textWithin n (cell :: opened) x)
    | .object cell =>
      if opened.contains cell then ""
      else match (h.fields cell).get? "name", (h.fields cell).get? "message" with
        | some name, some message =>
          h.textWithin n (cell :: opened) name ++ ": " ++ h.textWithin n (cell :: opened) message
        | _, _ => "[object Object]"
    | .function cell => h.functionText cell

/-- The text of a value, as templates and sums make it. The open cells are different, so nesting is
    never deeper than there are cells. -/
def text (h : Heap) (v : Value) : String := h.textWithin (h.size + 1) [] v

/-- The number of a value, as arithmetic and comparisons make it. -/
def toNumber (h : Heap) : Value → Double
  | .null => .zero
  | .bool b => if b then .ofNat 1 else .zero
  | .number x => x
  | .str text => Text.toNumber text
  | .array cell =>
    match h.items cell with
    | [] => .zero
    | [only] => Text.toNumber (h.text only)
    | _ => .nan
  | .undefined | .bigint _ | .object _ | .function _ => .nan

/-- Whether a text is loosely equal to a text or number. -/
def textLooseEq (text : String) : Value → Bool
  | .str other => text == other
  | .number x => (Text.toNumber text).eq x
  | _ => false

/-- Equality with conversion: null and undefined are equal to each other alone, numbers, texts and
    truth values are compared as numbers, and arrays and objects by their text. -/
def looseEq (h : Heap) (a b : Value) : Bool :=
  if a.isNullish || b.isNullish then a.isNullish && b.isNullish
  else match a, b with
    | .number _, .str _ | .number _, .bool _ | .str _, .number _ | .bool _, .number _
    | .bool _, .str _ | .str _, .bool _ => (h.toNumber a).eq (h.toNumber b)
    | .array _, .str _ | .array _, .number _ | .object _, .str _ | .object _, .number _ =>
      textLooseEq (h.text a) b
    | .str _, .array _ | .number _, .array _ | .str _, .object _ | .number _, .object _ =>
      textLooseEq (h.text b) a
    | _, _ => a.strictEq b

end Heap

end MatchChain
