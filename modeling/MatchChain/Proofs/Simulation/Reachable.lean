import MatchChain.Proofs.Match.Clauses
import MatchChain.Proofs.Simulation.Closed

/-!
# What a machine can still reach

Running code gets at the variables of the scope where the machine stands and of the scopes around it, and from
the values there to more cells, and by way of functions to more scopes. A machine agrees with itself on what it
can reach, so two programs may be compared on it whatever else its heap holds. All that can be reached is there
in the machine that has run nothing yet, and it stays so in any run.
-/

set_option autoImplicit false

namespace MatchChain

open Eval

/-- The cell that a value refers to. -/
def Value.cell? : Value → Option Nat
  | .array cell | .object cell | .function cell => some cell
  | .undefined | .null | .bool _ | .number _ | .bigint _ | .str _ => none

/-- The values that a cell holds. -/
def Cell.values : Cell → List Value
  | .items vs => vs
  | .fields fs => fs.map Prod.snd
  | .closure c => c.this.toList
  | .native _ v => [v]

namespace Machine

mutual

/-- A cell that the running code can get at. -/
inductive ReachesCell (m : Machine) : Nat → Prop
  | this {i : Nat} : m.this.cell? = some i → ReachesCell m i
  | bound {s i : Nat} {x : String} {v : Variable} : ReachesScope m s → m.scopes.binding s x = some v →
      v.value.cell? = some i → ReachesCell m i
  | held {i j : Nat} {c : Cell} {v : Value} : ReachesCell m i → m.heap.cells[i]? = some c → v ∈ c.values →
      v.cell? = some j → ReachesCell m j

/-- A scope that the running code can get at. -/
inductive ReachesScope (m : Machine) : Nat → Prop
  | current : ReachesScope m m.env.current
  | parent {s p : Nat} : ReachesScope m s → m.scopes.parent s = some p → ReachesScope m p
  | captured {i : Nat} {c : Closure} : ReachesCell m i → m.heap.cells[i]? = some (.closure c) →
      ReachesScope m c.scope

end

/-- A function of the program that the running code can get at. -/
def Reaches (m : Machine) (fn : Func) : Prop :=
  ∃ i c, m.ReachesCell i ∧ m.heap.cells[i]? = some (.closure c) ∧ c.fn = fn

/-- All cells and scopes that can be reached are there, and scopes are younger than their parents. -/
structure Sound (m : Machine) : Prop where
  cells : ∀ i, m.ReachesCell i → i < m.heap.size
  scopes : ∀ s, m.ReachesScope s → s < m.scopes.count
  ordered : m.scopes.Ordered

/-- What can be reached stands for itself. -/
def reached (m : Machine) : World := .on m.ReachesCell m.ReachesScope

variable {m : Machine} {names : String → Prop}

theorem reached_rel {v : Value} (h : ∀ i, v.cell? = some i → m.ReachesCell i) : m.reached.Rel v v := by
  cases v with
  | array => exact .array ⟨rfl, h _ rfl⟩
  | object => exact .object ⟨rfl, h _ rfl⟩
  | function => exact .function ⟨rfl, h _ rfl⟩
  | undefined | null | bool | number | bigint | str => exact .plain rfl

theorem reached_relCell (hnames : ∀ fn, m.Reaches fn → fn.Within names) {i : Nat} {c : Cell}
    (hi : m.ReachesCell i) (hc : m.heap.cells[i]? = some c) : m.reached.RelCell names c c := by
  have hvalue : ∀ v ∈ c.values, m.reached.Rel v v := fun v hv => reached_rel fun j hj => .held hi hc hv hj
  cases c with
  | items vs => exact .items (List.forall₂_same.mpr hvalue)
  | fields fs =>
    refine .fields (List.forall₂_same.mpr fun p hp => ⟨rfl, hvalue p.2 ?_⟩)
    exact List.mem_map_of_mem hp
  | native fn v => exact .native (hvalue v (List.mem_singleton_self v))
  | closure c =>
    have hfn : c.fn.Within names := hnames c.fn ⟨i, c, hi, hc, rfl⟩
    have hscope : m.ReachesScope c.scope := .captured hi hc
    obtain ⟨fn, scope, this⟩ := c
    refine .closure hfn ⟨rfl, hscope⟩ ?_
    cases this with
    | none => exact .none
    | some this => exact .some (hvalue this (List.mem_singleton_self this))

namespace Sound

/-- A machine agrees with itself on what it can reach. -/
theorem agree (h : m.Sound) (hnames : ∀ fn, m.Reaches fn → fn.Within names) : Agree names m.reached m m := by
  refine Agree.on (fun i hi => ?_) h.scopes (fun s p hs hp => .parent hs hp) (fun s x v hs hb => ?_) h.ordered
  · have hcell := Array.getElem?_eq_getElem (h.cells i hi)
    exact ⟨_, hcell, reached_relCell hnames hi hcell⟩
  · exact reached_rel fun i hi => .bound hs hb hi

theorem aligned (h : m.Sound) (hnames : ∀ fn, m.Reaches fn → fn.Within names) : Aligned names m.reached m m :=
  ⟨h.agree hnames, ⟨rfl, .current⟩, reached_rel fun _ hi => .this hi, rfl⟩

end Sound

end Machine

/-! ## Closed machines -/

theorem Value.Below.cell?_lt {n i : Nat} {v : Value} (h : v.Below n) (hi : v.cell? = some i) : i < n := by
  cases v with
  | array | object | function =>
    cases hi
    exact h
  | undefined | null | bool | number | bigint | str => cases hi

theorem Cell.Below.values {names : String → Prop} {n k : Nat} {c : Cell} (h : c.Below names n k) :
    ∀ v ∈ c.values, v.Below n := by
  intro v hv
  cases c with
  | items vs => exact h v hv
  | fields fs =>
    obtain ⟨p, hp, rfl⟩ := List.mem_map.mp hv
    exact h p hp
  | native fn v =>
    cases List.mem_singleton.mp hv
    exact h
  | closure c => exact h.2.2 v (Option.mem_toList.mp hv)

namespace Machine.Closed

variable {m : Machine} {names : String → Prop}

mutual

theorem reachesCell_lt (h : m.Closed names) : ∀ {i : Nat}, m.ReachesCell i → i < m.heap.size
  | _, .this hi => h.this.cell?_lt hi
  | _, .bound _ hb hi => (h.bindings _ _ _ hb).cell?_lt hi
  | _, .held _ hc hv hj => ((h.cells _ (Array.mem_of_getElem? hc)).values _ hv).cell?_lt hj

theorem reachesScope_lt (h : m.Closed names) : ∀ {s : Nat}, m.ReachesScope s → s < m.scopes.count
  | _, .current => h.current
  | _, .parent hs hp => Nat.lt_trans (h.ordered _ _ hp) (reachesScope_lt h hs)
  | _, .captured _ hc => (h.cells _ (Array.mem_of_getElem? hc)).2.1

end

theorem sound (h : m.Closed names) : m.Sound := ⟨fun _ => h.reachesCell_lt, fun _ => h.reachesScope_lt, h.ordered⟩

theorem within_of_reaches (h : m.Closed names) {fn : Func} (hfn : m.Reaches fn) : fn.Within names := by
  obtain ⟨i, c, _, hc, rfl⟩ := hfn
  exact (h.cells _ (Array.mem_of_getElem? hc)).1

/-- A machine stays closed when a variable is defined to hold what is there. -/
theorem defined (h : m.Closed names) (s : Nat) (x : String) {v : Variable} (hv : v.value.Below m.heap.size) :
    (m.defined s x v).Closed names where
  cells c hc := by
    rw [show (m.defined s x v).scopes.count = m.scopes.count from Scopes.count_define ..]
    exact h.cells c hc
  bindings s' y v' hb := by
    rw [show (m.defined s x v).scopes.binding s' y = _ from Scopes.binding_define ..] at hb
    split at hb
    · cases hb
      exact hv
    · exact h.bindings s' y v' hb
  ordered := h.ordered.define s x v
  current := Nat.lt_of_lt_of_eq h.current (Scopes.count_define ..).symm
  this := h.this

end Machine.Closed

end MatchChain
