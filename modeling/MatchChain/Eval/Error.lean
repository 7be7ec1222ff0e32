import MatchChain.Diagnostic.Basic
import MatchChain.Eval.Convert
import MatchChain.Eval.Json

/-!
# Run-time errors

What stops a program. All but the last kind can be caught by the program itself, as a value.
-/

set_option autoImplicit false

namespace MatchChain

/-- A value was used in a way that it does not allow. -/
inductive TypeFault where
  | notCallable (shown : String)
  | notConstructor (shown : String)
  | notIterable (kind : String)
  | unreadable (target key : String)
  | unwritable (target key : String)
  | undestructurable (target : String)
  | notSearchable (key target : String)
  | invalidLength
  | constantAssignment
  | unserializable (fault : JsonFault)
  | wrongReceiver (fn : Native) (kind expected : String)
deriving DecidableEq

def TypeFault.message : TypeFault → String
  | notCallable shown => shown ++ " is not a function"
  | notConstructor shown => shown ++ " is not a constructor"
  | notIterable kind => kind ++ " is not iterable"
  | unreadable target key =>
    "Cannot read properties of " ++ target ++ " (reading '" ++ key ++ "')"
  | unwritable target key => "Cannot set properties of " ++ target ++ " (setting '" ++ key ++ "')"
  | undestructurable target => "Cannot destructure '" ++ target ++ "' as it is " ++ target ++ "."
  | notSearchable key target =>
    "Cannot use 'in' operator to search for '" ++ key ++ "' in " ++ target
  | invalidLength => "Invalid array length"
  | constantAssignment => "Assignment to constant variable."
  | unserializable fault => fault.message
  | wrongReceiver fn kind expected =>
    fn.name ++ " called on " ++ kind ++ ", expected " ++ expected

/-- How deep calls of the program's functions may nest. -/
def maxCallDepth : Nat := 128

inductive EvalError where
  | thrown (value : Value) (span : Span)
  | type (fault : TypeFault) (span : Span)
  | reference (name : String) (span : Span)
  | callDepth (span : Span)
  | unsupported (what : String) (span : Span)
deriving DecidableEq

namespace EvalError

def span : EvalError → Span
  | thrown _ s | type _ s | reference _ s | callDepth s | unsupported _ s => s

def code : EvalError → Code
  | thrown .. => .uncaughtException
  | type .. => .typeError
  | reference .. => .unboundName
  | unsupported .. => .unsupportedEvaluation
  | callDepth _ => .callDepth

/-- The message, which shows a thrown value as it is now. -/
def message (h : Heap) : EvalError → String
  | thrown value _ => "uncaught exception: " ++ h.text value
  | type fault _ => "TypeError: " ++ fault.message
  | reference name _ => "ReferenceError: " ++ name ++ " is not defined"
  | callDepth _ => "RangeError: maximum call depth of " ++ toString maxCallDepth ++ " exceeded"
  | unsupported what _ => "cannot evaluate " ++ what

def toDiagnostic (h : Heap) (e : EvalError) : Diagnostic :=
  ((Diagnostic.error e.code).withMessage (e.message h)).withLabel e.span e.code.description

/-- Whether the program can catch the error. -/
def isCatchable : EvalError → Bool
  | unsupported .. => false
  | _ => true

/-- The properties of an error object. -/
def errorFields (name message : String) : Fields :=
  [("name", .str name), ("message", .str message)]

/-- What the program catches: the thrown value, or the properties of a new error object. -/
def caught : EvalError → Value ⊕ Fields
  | thrown value _ => .inl value
  | type fault _ => .inr (errorFields "TypeError" fault.message)
  | reference name _ => .inr (errorFields "ReferenceError" (name ++ " is not defined"))
  | callDepth _ => .inr (errorFields "RangeError" "Maximum call stack size exceeded")
  | unsupported what _ => .inr (errorFields "Error" what)

/-- The message of a thrown error object or a type error. -/
def thrownMessage? (h : Heap) : EvalError → Option String
  | thrown value _ => (h.ownProperty? value "message").map h.text
  | type fault _ => some fault.message
  | _ => none

end EvalError

end MatchChain
