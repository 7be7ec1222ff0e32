import Mathlib.Logic.Relation
import MatchChain.Proofs.Simulation.Conversions

/-!
# Values that have a JSON text

Writing follows the elements of arrays and the properties of objects, and remembers the cells that it is
inside of. It ends: the cells that are open are different ones, so nesting stays below the number of cells.
It fails exactly for a big integer that it comes to, or a cell that lies inside itself. A cell that is found
on two ways without lying inside itself is written twice.
-/

set_option autoImplicit false

namespace MatchChain

namespace Value

/-- The cell of an array or object. -/
def container? : Value → Option Nat
  | array cell | object cell => some cell
  | _ => none

def isBigint : Value → Bool
  | bigint _ => true
  | _ => false

end Value

namespace Heap

variable {h : Heap} {n : Nat} {opened : List Nat} {v w : Value}

/-- The elements of an array, or the values of an object's properties. -/
def parts (h : Heap) : Value → List Value
  | .array cell => h.items cell
  | .object cell => (h.fields cell).map (·.2)
  | _ => []

/-- The second value is the first or found somewhere inside it. -/
def Reaches (h : Heap) : Value → Value → Prop := Relation.ReflTransGen fun v w => w ∈ h.parts v

/-- The cell of the value is found again inside it. -/
def OnCycle (h : Heap) (v : Value) : Prop := ∃ x ∈ h.parts v, ∃ w, h.Reaches x w ∧ w.container? = v.container?

theorem cell_of_mem_parts {x : Value} (hx : x ∈ h.parts v) : ∃ cell < h.size, v.container? = some cell := by
  cases v with
  | array cell =>
    refine ⟨cell, Nat.lt_of_not_le fun hle => ?_, rfl⟩
    rw [parts, items, Array.getElem?_eq_none hle] at hx
    cases hx
  | object cell =>
    refine ⟨cell, Nat.lt_of_not_le fun hle => ?_, rfl⟩
    rw [parts, fields, Array.getElem?_eq_none hle] at hx
    cases hx
  | undefined | null | bool | number | bigint | str | function => cases hx

/-! ## How writing ends -/

/-- Whether a text is written: with success, not at all for a reason, or not within the depth. -/
def ending {α : Type} (text : ExceptT JsonFault Option α) : Option (Except JsonFault Unit) :=
  text.run.map (·.map fun _ => ())

theorem ending_bind_pure {α β : Type} (text : ExceptT JsonFault Option α) (g : α → β) :
    ending (text >>= fun a => pure (g a)) = ending text := by
  rcases htext : text.run with _ | _ | a <;> simp [ending, htext, Except.map]

/-- A list is written if all of it is; otherwise it ends like the first item that is not. -/
theorem ending_mapM {α β : Type} (f : α → ExceptT JsonFault Option β) (xs : List α) :
    (ending (xs.mapM f) = some (.ok ()) ∧ ∀ x ∈ xs, ending (f x) = some (.ok ())) ∨
      ∃ x ∈ xs, ending (f x) ≠ some (.ok ()) ∧ ending (xs.mapM f) = ending (f x) := by
  induction xs with
  | nil => exact .inl ⟨rfl, List.forall_mem_nil _⟩
  | cons x xs ih =>
    have hfirst : ending (f x) ≠ some (.ok ()) → ending ((x :: xs).mapM f) = ending (f x) := by
      rw [List.mapM_cons]
      rcases hx : (f x).run with _ | _ | y <;> simp [ending, ExceptT.run_bind, hx, Except.map]
    have hrest : ending (f x) = some (.ok ()) → ending ((x :: xs).mapM f) = ending (xs.mapM f) := by
      rw [List.mapM_cons]
      rcases hx : (f x).run with _ | _ | y
      · simp [ending, hx]
      · simp [ending, hx, Except.map]
      · intro _
        rw [← ending_bind_pure (xs.mapM f) (y :: ·)]
        simp [ending, ExceptT.run_bind, hx]
    by_cases hx : ending (f x) = some (.ok ())
    · rw [hrest hx]
      rcases ih with ⟨hok, hall⟩ | ⟨z, hz, hne, heq⟩
      · exact .inl ⟨hok, List.forall_mem_cons.mpr ⟨hx, hall⟩⟩
      · exact .inr ⟨z, List.mem_cons_of_mem _ hz, hne, heq⟩
    · exact .inr ⟨x, List.mem_cons_self, hx, hfirst hx⟩

/-- How the value ends inside the open cells. -/
def jsonEnding (h : Heap) (n : Nat) (opened : List Nat) (v : Value) : Option (Except JsonFault Unit) :=
  ending (h.jsonWithin n opened v)

/-- The cells that are open inside a value. -/
def inside (opened : List Nat) (v : Value) : List Nat := v.container?.toList ++ opened

/-- What one level of writing can come to. -/
inductive Level (h : Heap) (n : Nat) (opened : List Nat) (v : Value) : Option (Except JsonFault Unit) → Prop
  | bigint : v.isBigint = true → Level h n opened v (some (.error .bigint))
  | circular {cell : Nat} : v.container? = some cell → cell ∈ opened → Level h n opened v (some (.error .circular))
  | written : v.isBigint = false → (∀ cell, v.container? = some cell → cell ∉ opened) →
      (∀ x ∈ h.parts v, h.jsonEnding n (inside opened v) x = some (.ok ())) → Level h n opened v (some (.ok ()))
  | part {x : Value} : (∀ cell, v.container? = some cell → cell ∉ opened) → x ∈ h.parts v →
      h.jsonEnding n (inside opened v) x ≠ some (.ok ()) → Level h n opened v (h.jsonEnding n (inside opened v) x)

/-- Arrays and objects are written alike. -/
theorem level_of_cell {α β : Type} {cell : Nat} (hcell : v.container? = some cell) {xs : List α} {part : α → Value}
    (hparts : h.parts v = xs.map part) {f : α → ExceptT JsonFault Option β} {g : List β → Option String}
    (hv : h.jsonWithin (n + 1) opened v = if opened.contains cell then throw .circular
      else xs.mapM f >>= fun texts => pure (g texts))
    (hf : ∀ x, ending (f x) = h.jsonEnding n (cell :: opened) (part x)) : Level h n opened v (h.jsonEnding (n + 1) opened v) := by
  have hinside : inside opened v = cell :: opened := by rw [inside, hcell]; rfl
  have hplain : v.isBigint = false := by cases v <;> first | rfl | cases hcell
  rw [jsonEnding, hv]
  by_cases hopen : cell ∈ opened
  · rw [if_pos (List.contains_iff_mem.mpr hopen)]
    exact .circular hcell hopen
  · rw [if_neg (by simpa using hopen), ending_bind_pure]
    have hfresh : ∀ c, v.container? = some c → c ∉ opened := by
      rintro c hc
      obtain rfl : cell = c := Option.some.inj (hcell.symm.trans hc)
      exact hopen
    rcases ending_mapM f xs with ⟨hok, hall⟩ | ⟨x, hx, hne, heq⟩
    · rw [hok]
      refine .written hplain hfresh ?_
      rw [hparts, hinside]
      exact List.forall_mem_map.mpr fun x hx => (hf x).symm.trans (hall x hx)
    · rw [heq, hf, ← hinside]
      rw [hf, ← hinside] at hne
      exact .part hfresh (hparts ▸ List.mem_map_of_mem hx) hne

theorem level (h : Heap) (n : Nat) (opened : List Nat) (v : Value) :
    Level h n opened v (h.jsonEnding (n + 1) opened v) := by
  cases v with
  | array cell => exact level_of_cell rfl (List.map_id _).symm rfl fun x => ending_bind_pure _ _
  | object cell => exact level_of_cell rfl rfl rfl fun x => ending_bind_pure _ _
  | bigint digits => exact .bigint rfl
  | undefined | null | bool | number | str | function => exact .written rfl (by rintro _ ⟨⟩) (List.forall_mem_nil _)

/-! ## Writing ends -/

/-- Different cells are open, so there are no more of them than cells, and some depth is left. -/
theorem jsonEnding_ne_none (hnodup : opened.Nodup) (hopened : ∀ cell ∈ opened, cell < h.size)
    (hdepth : h.size < n + opened.length) : h.jsonEnding n opened v ≠ none := by
  induction n generalizing opened v with
  | zero =>
    have hlength := length_le_of_nodup hnodup hopened
    omega
  | succ n ih =>
    have hlevel := h.level n opened v
    generalize h.jsonEnding (n + 1) opened v = e at hlevel ⊢
    cases hlevel with
    | bigint | circular | written => rintro ⟨⟩
    | part hfresh hx =>
      obtain ⟨cell, hlt, hcell⟩ := cell_of_mem_parts hx
      rw [inside, hcell]
      refine ih (List.nodup_cons.mpr ⟨hfresh cell hcell, hnodup⟩) (List.forall_mem_cons.mpr ⟨hlt, hopened⟩) ?_
      show h.size < n + (opened.length + 1)
      omega

theorem jsonWithin_run (h : Heap) (v : Value) : (h.jsonWithin (h.size + 2) [] v).run = some (h.json v) := by
  have hends : h.jsonEnding (h.size + 2) [] v ≠ none :=
    jsonEnding_ne_none .nil (List.forall_mem_nil _) (by rw [List.length_nil]; omega)
  rw [json]
  rcases hrun : (h.jsonWithin (h.size + 2) [] v).run with _ | r
  · rw [jsonEnding, ending, hrun] at hends
    exact absurd rfl hends
  · rfl

theorem jsonEnding_eq (h : Heap) (v : Value) :
    h.jsonEnding (h.size + 2) [] v = some ((h.json v).map fun _ => ()) := by
  rw [jsonEnding, ending, jsonWithin_run]
  rfl

/-! ## Faults -/

/-- The step to a part is the first one on a way to whatever the part holds. -/
theorem Reaches.head {x : Value} (hx : x ∈ h.parts v) (hw : h.Reaches x w) : h.Reaches v w :=
  Relation.ReflTransGen.head hx hw

theorem cell_mem_inside {cell : Nat} : cell ∈ inside opened v ↔ v.container? = some cell ∨ cell ∈ opened := by
  simp [inside]

theorem bigint_of_error (hend : h.jsonEnding n opened v = some (.error .bigint)) :
    ∃ w, h.Reaches v w ∧ w.isBigint = true := by
  induction n generalizing opened v with
  | zero => cases hend
  | succ n ih =>
    have hlevel := h.level n opened v
    generalize h.jsonEnding (n + 1) opened v = e at hlevel hend
    cases hlevel with
    | bigint hbigint => exact ⟨v, .refl, hbigint⟩
    | circular | written => cases hend
    | part _ hx =>
      obtain ⟨w, hw, hbigint⟩ := ih hend
      exact ⟨w, hw.head hx, hbigint⟩

/-- A value is circular only for a cell inside itself, or one that was open already. -/
theorem cycle_of_error (hend : h.jsonEnding n opened v = some (.error .circular)) :
    ∃ w, h.Reaches v w ∧ (h.OnCycle w ∨ ∃ cell ∈ opened, w.container? = some cell) := by
  induction n generalizing opened v with
  | zero => cases hend
  | succ n ih =>
    have hlevel := h.level n opened v
    generalize h.jsonEnding (n + 1) opened v = e at hlevel hend
    cases hlevel with
    | bigint | written => cases hend
    | circular hcell hopen => exact ⟨v, .refl, .inr ⟨_, hopen, hcell⟩⟩
    | @part x _ hx =>
      obtain ⟨w, hw, hcycle | ⟨cell, hcell, heq⟩⟩ := ih hend
      · exact ⟨w, hw.head hx, .inl hcycle⟩
      · rcases cell_mem_inside.mp hcell with hv | hopen
        · -- the cell that is found again is that of the value itself
          exact ⟨v, .refl, .inl ⟨x, hx, w, hw, heq.trans hv.symm⟩⟩
        · exact ⟨w, hw.head hx, .inr ⟨cell, hopen, heq⟩⟩

/-- Nothing inside a value that is written is a big integer, an open cell, or inside itself. -/
theorem faultless_of_written (hend : h.jsonEnding n opened v = some (.ok ())) (hw : h.Reaches v w) :
    w.isBigint = false ∧ (∀ cell ∈ opened, w.container? ≠ some cell) ∧ ¬ h.OnCycle w := by
  induction n generalizing opened v w with
  | zero => cases hend
  | succ n ih =>
    have hlevel := h.level n opened v
    generalize h.jsonEnding (n + 1) opened v = e at hlevel hend
    cases hlevel with
    | bigint | circular => cases hend
    | part _ _ hne => exact absurd hend hne
    | written hplain hfresh hparts =>
      rcases Relation.ReflTransGen.cases_head hw with rfl | ⟨x, hx, hw⟩
      · refine ⟨hplain, fun cell hcell hv => hfresh cell hv hcell, ?_⟩
        rintro ⟨x, hx, w, hw, heq⟩
        obtain ⟨cell, _, hcell⟩ := cell_of_mem_parts hx
        exact (ih (hparts x hx) hw).2.1 cell (cell_mem_inside.mpr (.inl hcell)) (heq.trans hcell)
      · obtain ⟨hbigint, hopened, hcycle⟩ := ih (hparts x hx) hw
        exact ⟨hbigint, fun cell hcell => hopened cell (cell_mem_inside.mpr (.inr hcell)), hcycle⟩

theorem json_error_iff (h : Heap) (v : Value) :
    (∃ fault, h.json v = .error fault) ↔ ∃ w, h.Reaches v w ∧ (w.isBigint = true ∨ h.OnCycle w) := by
  have hend := h.jsonEnding_eq v
  constructor
  · rintro ⟨_ | _, hjson⟩ <;> rw [hjson] at hend
    · obtain ⟨w, hw, hbigint⟩ := bigint_of_error hend
      exact ⟨w, hw, .inl hbigint⟩
    · obtain ⟨w, hw, hcycle | ⟨_, ⟨⟩, _⟩⟩ := cycle_of_error hend
      exact ⟨w, hw, .inr hcycle⟩
  · rintro ⟨w, hw, hcause⟩
    cases hjson : h.json v with
    | error fault => exact ⟨fault, rfl⟩
    | ok text =>
      rw [hjson] at hend
      obtain ⟨hbigint, _, hcycle⟩ := faultless_of_written hend hw
      rcases hcause with hcause | hcause
      · rw [hbigint] at hcause
        cases hcause
      · exact absurd hcause hcycle

theorem bind_some_ne_none {α : Type} (texts : ExceptT JsonFault Option α) (g : α → String) :
    (texts >>= fun a => pure (some (g a))).run.getD (.error .circular) ≠ .ok none := by
  rcases htexts : texts.run with _ | _ | a <;> simp [htexts, Except.map]

/-- Only undefined and functions have nothing to write. -/
theorem json_eq_none_iff (h : Heap) (v : Value) :
    h.json v = .ok none ↔ v = .undefined ∨ ∃ cell, v = .function cell := by
  cases v with
  | undefined => exact iff_of_true rfl (.inl rfl)
  | function cell => exact iff_of_true rfl (.inr ⟨cell, rfl⟩)
  | array cell => exact iff_of_false (bind_some_ne_none _ _) (by simp)
  | object cell => exact iff_of_false (bind_some_ne_none _ _) (by simp)
  | null | bool | number | bigint | str => exact iff_of_false (by rintro ⟨⟩) (by simp)

/-- Writing a value ends, whatever the heap. It fails exactly if a big integer or a cell inside itself is found by
    following elements and properties, is circular only for such a cell, and has nothing to write exactly for
    undefined and functions. -/
theorem json_exact (h : Heap) (v : Value) :
    (h.jsonWithin (h.size + 2) [] v).run = some (h.json v) ∧
    ((∃ fault, h.json v = .error fault) ↔ ∃ w, h.Reaches v w ∧ (w.isBigint = true ∨ h.OnCycle w)) ∧
    (h.json v = .error .circular → ∃ w, h.Reaches v w ∧ h.OnCycle w) ∧
    (h.json v = .ok none ↔ v = .undefined ∨ ∃ cell, v = .function cell) := by
  refine ⟨h.jsonWithin_run v, h.json_error_iff v, fun hjson => ?_, h.json_eq_none_iff v⟩
  have hend := h.jsonEnding_eq v
  rw [hjson] at hend
  obtain ⟨w, hw, hcycle | ⟨_, ⟨⟩, _⟩⟩ := cycle_of_error hend
  exact ⟨w, hw, hcycle⟩

/-- An array that holds another one twice is no cycle. -/
example : (Heap.mk #[.items [.array 1, .array 1], .items []]).json (.array 0) = .ok (some "[[],[]]") := by decide +kernel

end Heap

end MatchChain
