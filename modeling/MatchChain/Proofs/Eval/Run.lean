import MatchChain.Eval.Interpreter

/-!
# Runs of single steps

What each operation of the machine does to a machine, one equation per operation. The later modules
take runs apart with these and never look inside the monad. A scope or a call frame is entered and
left by a function on machines, so that what happens in between can be spoken about.
-/

set_option autoImplicit false

namespace MatchChain

namespace Machine

/-- The machine in a new scope inside the current one. -/
def entered (m : Machine) : Machine :=
  { m with env := (m.env.push m.scopes).1, scopes := (m.env.push m.scopes).2 }

/-- The machine outside the scope that it is in. -/
def left (m : Machine) : Machine := { m with env := m.env.pop }

/-- The machine at the start of a function's body. -/
def called (m : Machine) (captured : Nat) (this : Value) : Machine :=
  { m with
    env := (Environment.enclosed captured m.scopes).1
    scopes := (Environment.enclosed captured m.scopes).2
    this
    depth := m.depth + 1
    deepest := max m.deepest (m.depth + 1) }

/-- The machine after a function's body, where `caller` is what it was before. -/
def returned (m caller : Machine) : Machine :=
  { m with env := caller.env, this := caller.this, depth := m.depth - 1 }

/-- The machine with one more cell. -/
def allocated (m : Machine) (c : Cell) : Machine := { m with heap := (m.heap.alloc c).2 }

/-- The machine with a cell overwritten. -/
def written (m : Machine) (cell : Nat) (c : Cell) : Machine :=
  { m with heap := m.heap.write cell c }

/-- The machine with a name bound in one of its scopes. -/
def defined (m : Machine) (scope : Nat) (name : String) (v : Variable) : Machine :=
  { m with scopes := m.scopes.define scope name v }

/-- The function value of a piece of code where the machine stands. -/
def closure (m : Machine) (fn : Func) : Closure :=
  { fn, scope := m.env.current, this := if fn.kind == .arrow then some m.this else none }

end Machine

namespace Eval

variable {α β : Type}

@[simp] theorem run_pure (a : α) (m : Machine) : (pure a : Eval α).run.run m = (.ok a, m) := rfl

theorem run_bind (f : Eval α) (k : α → Eval β) (m : Machine) :
    (f >>= k).run.run m = match f.run.run m with
      | (.ok a, m') => (k a).run.run m'
      | (.error e, m') => (.error e, m') := by
  rw [ExceptT.run_bind, StateT.run_bind]
  rcases f.run.run m with ⟨_ | _, m'⟩ <;> rfl

/-- A bind whose first step ends with a value goes on from there. -/
theorem run_bind_ok {f : Eval α} {k : α → Eval β} {m m' : Machine} {a : α}
    (h : f.run.run m = (.ok a, m')) : (f >>= k).run.run m = (k a).run.run m' := by
  rw [run_bind, h]

theorem run_bind_error {f : Eval α} {k : α → Eval β} {m m' : Machine} {e : Halt}
    (h : f.run.run m = (.error e, m')) : (f >>= k).run.run m = (.error e, m') := by
  rw [run_bind, h]

@[simp] theorem run_get (m : Machine) : (get : Eval Machine).run.run m = (.ok m, m) := rfl

@[simp] theorem run_modify (f : Machine → Machine) (m : Machine) :
    (modify f : Eval PUnit).run.run m = (.ok ⟨⟩, f m) := rfl

@[simp] theorem run_raise (e : EvalError) (m : Machine) :
    (raise e : Eval α).run.run m = (.error (.raised e), m) := rfl

@[simp] theorem run_typeError (fault : TypeFault) (span : Span) (m : Machine) :
    (typeError fault span : Eval α).run.run m = (.error (.raised (.type fault span)), m) := rfl

@[simp] theorem run_exhausted (m : Machine) :
    (exhausted : Eval α).run.run m = (.error .exhausted, m) := rfl

@[simp] theorem run_lift (r : Except EvalError α) (m : Machine) :
    (lift r).run.run m = (r.mapError .raised, m) := by
  cases r <;> rfl

theorem run_attempt (act : Eval α) (m : Machine) :
    (attempt act).run.run m = match act.run.run m with
      | (.ok a, m') => (.ok (.ok a), m')
      | (.error (.raised e), m') => (.ok (.error e), m')
      | (.error .exhausted, m') => (.error .exhausted, m') := by
  show StateT.run (do match ← act.run with | _ => _) m = _
  rw [StateT.run_bind]
  rcases act.run.run m with ⟨(_ | _) | _, m'⟩ <;> rfl

/-! ## Scopes and frames -/

theorem run_withScope (act : Eval α) (m : Machine) :
    (withScope act).run.run m =
      ((act.run.run m.entered).1, (act.run.run m.entered).2.left) := rfl

theorem run_withFrame (captured : Nat) (this : Value) (act : Eval α) (m : Machine) :
    (withFrame captured this act).run.run m =
      ((act.run.run (m.called captured this)).1,
        (act.run.run (m.called captured this)).2.returned m) := rfl

/-! ## Cells -/

@[simp] theorem run_alloc (c : Cell) (m : Machine) :
    (alloc c).run.run m = (.ok m.heap.size, m.allocated c) := rfl

@[simp] theorem run_newObject (props : Fields) (m : Machine) :
    (newObject props).run.run m = (.ok (.object m.heap.size), m.allocated (.fields props)) := rfl

@[simp] theorem run_newMethod (fn : Native) (receiver : Value) (m : Machine) :
    (newMethod fn receiver).run.run m =
      (.ok (.function m.heap.size), m.allocated (.native fn receiver)) := rfl

@[simp] theorem run_newClosure (fn : Func) (m : Machine) :
    (newClosure fn).run.run m =
      (.ok (.function m.heap.size), m.allocated (.closure (m.closure fn))) := rfl

@[simp] theorem run_write (cell : Nat) (c : Cell) (m : Machine) :
    (write cell c).run.run m = (.ok ⟨⟩, m.written cell c) := rfl

@[simp] theorem run_text (v : Value) (m : Machine) :
    (text v).run.run m = (.ok (m.heap.text v), m) := rfl

@[simp] theorem run_items (cell : Nat) (m : Machine) :
    (items cell).run.run m = (.ok (m.heap.items cell), m) := rfl

@[simp] theorem run_fields (cell : Nat) (m : Machine) :
    (fields cell).run.run m = (.ok (m.heap.fields cell), m) := rfl

/-! ## Variables -/

@[simp] theorem run_define (name : String) (value : Value) (isMutable : Bool) (m : Machine) :
    (define name value isMutable).run.run m =
      (.ok ⟨⟩, m.defined m.env.current name { value, isMutable }) := rfl

@[simp] theorem run_lookup? (name : String) (m : Machine) :
    (lookup? name).run.run m = (.ok (m.lookup? name), m) := rfl

theorem run_lookup (name : String) (span : Span) (m : Machine) :
    (lookup name span).run.run m = match m.lookup? name with
      | some v => (.ok v, m)
      | none => (.error (.raised (.reference name span)), m) := by
  rw [lookup, run_bind_ok (run_lookup? name m)]
  cases m.lookup? name <;> rfl

theorem run_assign (name : String) (value : Value) (span : Span) (m : Machine) :
    (assign name value span).run.run m = match m.scopes.owner? m.env.current name with
      | none => (.error (.raised (.reference name span)), m)
      | some (owner, v) =>
        if v.isMutable then (.ok ⟨⟩, m.defined owner name { v with value })
        else (.error (.raised (.type .constantAssignment span)), m) := by
  rw [assign, run_bind_ok (run_get m)]
  cases m.scopes.owner? m.env.current name with
  | none => rfl
  | some found =>
    obtain ⟨owner, v⟩ := found
    dsimp only
    split <;> rfl

/-! ## The outermost scope -/

theorem run_newEntry (key : String) (fn : Native) (m : Machine) :
    ([(key, fn)].mapM fun (key, fn) => do return (key, ← newMethod fn .undefined) : Eval Fields).run.run m
      = (.ok [(key, .function m.heap.size)], m.allocated (.native fn .undefined)) := rfl

theorem run_nativeObject (key : String) (fn : Native) (m : Machine) :
    (nativeObject [(key, fn)]).run.run m =
      (.ok (.object (m.heap.size + 1)), (m.allocated (.native fn .undefined)).allocated
        (.fields [(key, .function m.heap.size)])) := by
  have hsize : (m.allocated (.native fn .undefined)).heap.size = m.heap.size + 1 := Array.size_push ..
  rw [nativeObject, run_bind_ok (run_newEntry key fn m), run_newObject, hsize]

end Eval

/-- The heap of a machine that has run nothing holds the built-in objects and functions. -/
theorem Machine.initial_cells : Machine.initial.heap.cells =
    #[.native .isArray .undefined, .fields [("isArray", .function 0)],
      .native .isNaN .undefined, .fields [("isNaN", .function 2)],
      .native .stringify .undefined, .fields [("stringify", .function 4)],
      .native .log .undefined, .fields [("log", .function 6)],
      .native .error .undefined, .native .string .undefined] := by
  simp only [Machine.initial, Eval.defineGlobals, Eval.run_bind, Eval.run_define, Eval.run_nativeObject,
    Eval.run_newMethod, Machine.allocated, Machine.defined, Heap.alloc, Heap.size, Machine.bare]
  rfl

end MatchChain
