import Mathlib.Control.Monad.Basic
import MatchChain.Code.Generate
import MatchChain.Proofs.Eval.Chains

/-!
# Handlers that are called

A handler that is no function written in place is the callee of a call. It is evaluated there as it is
anywhere else, and what it gives is called with the arguments. Two things follow from its place. An
access is called on what it reads from, so that the function finds it as `this`; anything else is called
on undefined. And where an optional link ends the chain of the handler, the call ends with it: nothing is
called, no argument is evaluated, and the value is undefined.
-/

set_option autoImplicit false

namespace MatchChain

/-- Whether a value can be called. -/
def Heap.isCallable (h : Heap) : Value → Bool
  | .function cell =>
    match h.cells[cell]? with
    | some (.native ..) | some (.closure _) => true
    | _ => false
  | _ => false

namespace Eval

open Outcome

theorem limit_call_uncallable {m : Machine} {f : Value} (h : m.heap.isCallable f = false) (this : Value)
    (values : List Value) (span : Span) :
    limit (call · f this values span) m = some (.error (.type (.notCallable (m.heap.text f)) span), m) := by
  have hstep : ∀ n, (call (n + 1) f this values span).run.run m
      = (.error (.raised (.type (.notCallable (m.heap.text f)) span)), m) := by
    intro n
    cases f with
    | function cell =>
      rw [Eval.call, run_bind_ok (run_get m)]
      cases hcell : m.heap.cells[cell]? with
      | none => rfl
      | some c =>
        cases c with
        | items | fields => rfl
        | native | closure => simp [Heap.isCallable, hcell] at h
    | undefined | null | bool | number | bigint | str | array | object => rfl
  rw [limit_succ]
  exact limit_eq_some.mpr ⟨0, fun k _ => by rw [hstep]; rfl⟩

/-- Evaluates arguments, and calls a value with what they give. -/
noncomputable def callWith (span : Span) (f receiver : Value) (arguments : List Expr) (m : Machine) :
    Option (Outcome Value) :=
  (limit (args · arguments) m).bind (andThen fun values m' => limit (call · f receiver values span) m')

/-- What a call comes to, told by what its callee gives. -/
def CallsValue (span : Span) (fn : Expr) (arguments : List Expr) (m : Machine)
    (outcome : Option (Outcome Value)) : Prop :=
  match limit (expr · fn) m with
  | none => outcome = none
  | some (.error e, m') => outcome = some (.error e, m')
  | some (.ok f, m') =>
    EndsEarly m fn ∧ outcome = some (.ok .undefined, m') ∨
      ¬ EndsEarly m fn ∧ ∃ receiver, IsReceiver m fn receiver ∧
        outcome = callWith span f receiver arguments m' ∧
        ∀ values m'', limit (args · arguments) m' = some (.ok values, m'') → m''.heap.isCallable f = false →
          outcome = some (.error (.type (.notCallable (m''.heap.text f)) span), m'')

theorem limit_call_callsValue (span : Span) (fn : Expr) (arguments : List Expr) (m : Machine) :
    CallsValue span fn arguments m (limit (expr · (.call span fn arguments false)) m) := by
  unfold CallsValue
  rw [limit_expr_of_link fn, limit_link_of_callee fn, limit_expr_call]
  rcases hcallee : limit (callee · fn) m with _ | ⟨e | _ | ⟨f, receiver⟩, m'⟩
  · rfl
  · rfl
  · have hends : EndsEarly m fn := by
      rw [endsEarly_iff, limit_link_of_callee, hcallee]
      exact ⟨m', rfl⟩
    exact .inl ⟨hends, rfl⟩
  · have hends : ¬ EndsEarly m fn := by
      rw [endsEarly_iff, limit_link_of_callee, hcallee]
      rintro ⟨_, ⟨⟩⟩
    refine .inr ⟨hends, receiver, isReceiver_of_callee hcallee, rfl, ?_⟩
    intro values m'' hargs hf
    show (limit (args · arguments) m').bind _ = _
    rw [hargs]
    exact limit_call_uncallable hf receiver values span

end Eval

namespace Emission

open Eval

/-- A machine with the name `owner` for an object whose field `self` is a function that returns its
    `this`. -/
def ownerMachine : Machine :=
  let self : Func := ⟨default, .expression, none, [], .block [.ret default (some (.thisRef default))], false, false⟩
  ((Machine.initial.allocated (.closure ⟨self, Scopes.outermost, none⟩)).allocated
    (.fields [("self", .function 10)])).defined Scopes.outermost "owner" ⟨.object 11, true⟩

def ownMethod : Expr := .member default (.ident default "owner") "self" false

def endedMethod : Expr := .member default (.ident default "undefined") "self" true

end Emission

end MatchChain
