import MatchChain.Eval.Machine
import MatchChain.Text.Casing

/-!
# Built-in functions

What every program finds in its outermost scope, and what the built-in functions do.
-/

set_option autoImplicit false

namespace MatchChain

namespace Eval

/-- The elements of a receiver that has to be an array. -/
def receiverItems (fn : Native) (receiver : Value) (span : Span) : Eval (Nat × List Value) := do
  match receiver with
  | .array cell => return (cell, ← items cell)
  | _ => typeError (.wrongReceiver fn receiver.kindName "an array") span

/-- A receiver that has to be a text. -/
def receiverText (fn : Native) (receiver : Value) (span : Span) : Eval (List Char) := do
  match receiver with
  | .str s => return s.toList
  | _ => typeError (.wrongReceiver fn receiver.kindName "a string") span

/-- The text of an argument, with one for a missing argument. -/
def textOr (missing : String) (v : Value) : Eval String :=
  if v == .undefined then return missing else text v

/-- The text of an element that is joined to others; null and undefined leave no trace. -/
def joinedText (v : Value) : Eval String := if v.isNullish then return "" else text v

/-- Calls a built-in function. -/
def callNative (fn : Native) (receiver : Value) (args : List Value) (span : Span) : Eval Value := do
  let first := args.headD .undefined
  match fn with
  | .isArray => return .bool (match first with
      | .array _ => true
      | _ => false)
  | .isNaN => return .bool (first.number?.any Double.isNaN)
  | .stringify =>
    match (← get).heap.json first with
    | .ok (some text) => return .str text
    | .ok none => return .undefined
    | .error fault => typeError (.unserializable fault) span
  | .error => newObject (EvalError.errorFields "Error" (← textOr "" first))
  | .string => return .str (← text first)
  | .log =>
    let line := " ".intercalate (← args.mapM text)
    modify fun m => { m with output := m.output.push line }
    return .undefined
  | .push =>
    let (cell, values) ← receiverItems fn receiver span
    write cell (.items (values ++ args))
    return .number (.ofNat (values.length + args.length))
  | .join =>
    let (_, values) ← receiverItems fn receiver span
    let separator ← textOr "," first
    return .str (separator.intercalate (← values.mapM joinedText))
  | .arrayIncludes =>
    let (_, values) ← receiverItems fn receiver span
    return .bool (values.any (·.sameValueZero first))
  | .stringIncludes =>
    let cs ← receiverText fn receiver span
    return .bool (Text.occursIn (← text first).toList cs)
  | .toUpperCase => return .str (String.ofList (Text.toUpper (← receiverText fn receiver span)))
  | .toLowerCase => return .str (String.ofList (Text.toLower (← receiverText fn receiver span)))

/-! ## The outermost scope -/

/-- An object that holds built-in functions. -/
def nativeObject (entries : List (String × Native)) : Eval Value := do
  newObject (← entries.mapM fun (key, fn) => do return (key, ← newMethod fn .undefined))

/-- Binds the built-in names, none of which can be assigned. -/
def defineGlobals : Eval Unit := do
  define "undefined" .undefined false
  define "NaN" (.number .nan) false
  define "Infinity" (.number .infinity) false
  define "Array" (← nativeObject [("isArray", .isArray)]) false
  define "Number" (← nativeObject [("isNaN", .isNaN)]) false
  define "JSON" (← nativeObject [("stringify", .stringify)]) false
  define "console" (← nativeObject [("log", .log)]) false
  define "Error" (← newMethod .error .undefined) false
  define "String" (← newMethod .string .undefined) false

end Eval

/-- A machine with one empty scope. -/
def Machine.bare : Machine := { scopes := (Scopes.alloc {} none).2 }

/-- A machine that has run nothing yet. -/
def Machine.initial : Machine := (Eval.defineGlobals.run.run Machine.bare).2

end MatchChain
