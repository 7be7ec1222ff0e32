import MatchChain.Eval.Operator
import MatchChain.Eval.Scope

/-!
# The machine

The state that a running program changes, and the steps it is changed by. A step ends with a value,
with an error, or because the given number of steps is used up; in every case the state is what it
was changed to.
-/

set_option autoImplicit false

namespace MatchChain

structure Machine where
  heap : Heap := {}
  scopes : Scopes := {}
  env : Environment := ⟨[], Scopes.outermost⟩
  /-- What `this` means in the running function. -/
  this : Value := .undefined
  /-- How many calls of the program's functions are running. -/
  depth : Nat := 0
  /-- How many of them may. -/
  callLimit : Nat := maxCallDepth
  /-- The most that have been running at once. -/
  deepest : Nat := 0
  /-- The lines that the program has written. -/
  output : Array String := #[]

/-- Why a step ended without a value. -/
inductive Halt where
  | raised (e : EvalError)
  | exhausted
deriving DecidableEq

abbrev Eval := ExceptT Halt (StateM Machine)

namespace Eval

def raise {α : Type} (e : EvalError) : Eval α := throw (.raised e)

def typeError {α : Type} (fault : TypeFault) (span : Span) : Eval α := raise (.type fault span)

def exhausted {α : Type} : Eval α := throw .exhausted

/-- The result of an operator on values. -/
def lift {α : Type} : Except EvalError α → Eval α
  | .ok a => pure a
  | .error e => raise e

/-- The error of a step as a value. -/
def attempt {α : Type} (act : Eval α) : Eval (Except EvalError α) := ExceptT.mk do
  match ← act.run with
  | .ok a => return .ok (.ok a)
  | .error (.raised e) => return .ok (.error e)
  | .error .exhausted => return .error .exhausted

/-! ## Cells -/

def alloc (c : Cell) : Eval Nat :=
  modifyGet fun m =>
    let (cell, heap) := m.heap.alloc c
    (cell, { m with heap })

def newArray (values : List Value) : Eval Value := return .array (← alloc (.items values))

def newObject (props : Fields) : Eval Value := return .object (← alloc (.fields props))

def newMethod (fn : Native) (receiver : Value) : Eval Value :=
  return .function (← alloc (.native fn receiver))

/-- A function of the program as a value. An arrow function keeps the current `this`. -/
def newClosure (fn : Func) : Eval Value := do
  let m ← get
  let this := if fn.kind == .arrow then some m.this else none
  return .function (← alloc (.closure { fn, scope := m.env.current, this }))

def write (cell : Nat) (c : Cell) : Eval Unit := modify fun m => { m with heap := m.heap.write cell c }

def text (v : Value) : Eval String := return (← get).heap.text v

def items (cell : Nat) : Eval (List Value) := return (← get).heap.items cell

def fields (cell : Nat) : Eval Fields := return (← get).heap.fields cell

/-! ## Variables -/

def define (name : String) (value : Value) (isMutable : Bool) : Eval Unit :=
  modify fun m => { m with scopes := m.scopes.define m.env.current name { value, isMutable } }

def lookup? (name : String) : Eval (Option Value) := do
  let m ← get
  return m.scopes.lookup m.env.current name

def lookup (name : String) (span : Span) : Eval Value := do
  match ← lookup? name with
  | some v => return v
  | none => raise (.reference name span)

def assign (name : String) (value : Value) (span : Span) : Eval Unit := do
  let m ← get
  match m.scopes.owner? m.env.current name with
  | none => raise (.reference name span)
  | some (owner, v) =>
    if v.isMutable then
      modify fun m => { m with scopes := m.scopes.define owner name { v with value } }
    else typeError .constantAssignment span

/-- Runs a step in a scope of its own. -/
def withScope {α : Type} (act : Eval α) : Eval α := ExceptT.mk do
  modify fun m =>
    let (env, scopes) := m.env.push m.scopes
    { m with env, scopes }
  let result ← act.run
  modify fun m => { m with env := m.env.pop }
  return result

/-- Runs a step as the body of a function that kept a scope. -/
def withFrame {α : Type} (captured : Nat) (this : Value) (act : Eval α) : Eval α := ExceptT.mk do
  let (outerEnv, outerThis) ← modifyGet fun m =>
    let (env, scopes) := Environment.enclosed captured m.scopes
    let depth := m.depth + 1
    ((m.env, m.this), { m with env, scopes, this, depth, deepest := max m.deepest depth })
  let result ← act.run
  modify fun m => { m with env := outerEnv, this := outerThis, depth := m.depth - 1 }
  return result

/-! ## Properties -/

/-- The built-in method of an array with this name. -/
def arrayMethod? : String → Option Native
  | "push" => some .push
  | "join" => some .join
  | "includes" => some .arrayIncludes
  | _ => none

/-- The built-in method of a text with this name. -/
def stringMethod? : String → Option Native
  | "includes" => some .stringIncludes
  | "toUpperCase" => some .toUpperCase
  | "toLowerCase" => some .toLowerCase
  | _ => none

/-- A method bound to its receiver; undefined if there is none. -/
def method (receiver : Value) : Option Native → Eval Value
  | some fn => newMethod fn receiver
  | none => return .undefined

/-- Reads a property. Every read of a built-in method makes a new function. -/
def getProperty (target : Value) (key : String) (span : Span) : Eval Value := do
  match target with
  | .undefined | .null => typeError (.unreadable (← text target) key) span
  | .array cell =>
    let values ← items cell
    if key == "length" then return .number (.ofNat values.length)
    match Text.index? key with
    | some i => return (values[i]?).getD .undefined
    | none => method target (arrayMethod? key)
  | .str s =>
    if key == "length" then return .number (.ofNat (Text.units s.toList).length)
    match Text.index? key with
    | some i => return ((s.toList[i]?).map fun c => .str c.toString).getD .undefined
    | none => method target (stringMethod? key)
  | .object cell => return ((← fields cell).get? key).getD .undefined
  | .bool _ | .number _ | .bigint _ | .function _ => return .undefined

/-- A list cut or filled up with undefined to a length. -/
def resize (values : List Value) (length : Nat) : List Value :=
  values.take length ++ List.replicate (length - values.length) .undefined

/-- Writes a property. Writing to a plain value does nothing, and so does writing to a key of an
    array that is no index. -/
def setProperty (target : Value) (key : String) (value : Value) (span : Span) : Eval Unit := do
  match target with
  | .undefined | .null => typeError (.unwritable (← text target) key) span
  | .object cell => write cell (.fields ((← fields cell).set key value))
  | .array cell =>
    let values ← items cell
    if key == "length" then
      let length := (← get).heap.toNumber value
      if length.lt .zero || !length.isIntegral then typeError .invalidLength span
      write cell (.items (resize values length.truncate.toNat))
    else if let some i := Text.index? key then
      write cell (.items ((resize values (max values.length (i + 1))).set i value))
  | .bool _ | .number _ | .bigint _ | .str _ | .function _ => return

/-- The elements of an array or the characters of a text. -/
def iterate (v : Value) (span : Span) : Eval (List Value) := do
  match v with
  | .array cell => items cell
  | .str s => return s.toList.map fun c => .str c.toString
  | _ => typeError (.notIterable v.kindName) span

/-- The properties of an object outside the given ones, as a new object. -/
def restOf (v : Value) (taken : List String) : Eval Value := do
  match v with
  | .object cell => newObject ((← fields cell).filter fun (key, _) => !taken.contains key)
  | _ => newObject []

/-- The value that a catch clause binds. -/
def caught (e : EvalError) : Eval Value :=
  match e.caught with
  | .inl value => return value
  | .inr props => newObject props

end Eval

end MatchChain
