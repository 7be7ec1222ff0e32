import Mathlib.Algebra.Group.Nat.Defs
import MatchChain.Eval.Machine
import MatchChain.Match.Pattern

/-!
# What a pattern accepts

The meaning of a pattern: which values it accepts, given the heap that their parts are in. It is
defined on the tree of the pattern and knows nothing of conditions or code.

Reading a built-in method makes a function cell that nothing else refers to. `Spawned` relates a heap
to the same heap with such cells at its end, and `Alike` two values that differ at most in which
function they are. What a pattern accepts depends on neither.
-/

set_option autoImplicit false

namespace MatchChain

namespace Heap

/-- A built-in method as a value: the function that reading it makes next. -/
def methodPart (h : Heap) : Option Native → Value
  | some _ => .function h.size
  | none => .undefined

/-- The part of a value under a key, as a read finds it that lets null and undefined pass. -/
def part (h : Heap) (v : Value) (key : String) : Value :=
  match v with
  | .array cell =>
    if key == "length" then .number (.ofNat (h.items cell).length)
    else match Text.index? key with
      | some i => ((h.items cell)[i]?).getD .undefined
      | none => h.methodPart (Eval.arrayMethod? key)
  | .str s =>
    if key == "length" then .number (.ofNat (Text.units s.toList).length)
    else match Text.index? key with
      | some i => ((s.toList[i]?).map fun c => .str c.toString).getD .undefined
      | none => h.methodPart (Eval.stringMethod? key)
  | .object cell => ((h.fields cell).get? key).getD .undefined
  | .undefined | .null | .bool _ | .number _ | .bigint _ | .function _ => .undefined

end Heap

/-- The built-in method that a value has under a key. Lengths and positions come before methods. -/
def Value.method? (v : Value) (key : String) : Option Native :=
  if key == "length" || (Text.index? key).isSome then none
  else match v with
    | .array _ => Eval.arrayMethod? key
    | .str _ => Eval.stringMethod? key
    | .undefined | .null | .bool _ | .number _ | .bigint _ | .object _ | .function _ => none

/-- A method is the function that reading it makes. -/
theorem Heap.part_of_method? (h : Heap) {v : Value} {key : String} {fn : Native} (hv : v.method? key = some fn) :
    h.part v key = .function h.size := by
  unfold Value.method? at hv
  split at hv
  · cases hv
  · rename_i hkey
    simp only [Bool.or_eq_true, not_or, Bool.not_eq_true, Option.isSome_eq_false_iff,
      Option.isNone_iff_eq_none] at hkey
    cases v with
    | array | str =>
      simp only [part, hkey.1, hkey.2, Bool.false_eq_true, if_false, hv]
      rfl
    | undefined | null | bool | number | bigint | object | function => cases hv

/-- Reads a property; null and undefined have none. -/
def Eval.part (span : Span) (v : Value) (key : String) : Eval Value :=
  if v.isNullish then return .undefined else getProperty v key span

/-- Whether a value is the literal. Only not-a-number is asked for by its kind. -/
def LiteralPattern.accepts (v : Value) : LiteralPattern → Bool
  | str text => v.strictEq (.str text)
  | num x => v.strictEq (.number x)
  | bool b => v.strictEq (.bool b)
  | bigint digits => v.strictEq (.bigint digits)
  | null => v.strictEq .null
  | undefined => v.strictEq .undefined
  | nan => v.number?.any Double.isNaN

def TypeTag.accepts (v : Value) (tag : TypeTag) : Bool :=
  match tag.kindName? with
  | some name => v.kindName == name
  | none => v.isNullish

namespace Pattern

mutual

/-- Whether a value matches. The kinds that no code is generated for accept nothing. -/
def accepts (h : Heap) (v : Value) : Pattern → Bool
  | literal l => l.accepts v
  | typeTag tag => tag.accepts v
  | wildcard => true
  | array elements =>
    match v with
    | .array cell => acceptsStart h (h.items cell) elements
    | _ => false
  | object fields => acceptsFields h v fields
  | select s => acceptsInner h v s
  | not _ | when _ | set _ | map _ _ => false

/-- Whether values start with ones that match, in order. -/
def acceptsStart (h : Heap) (values : List Value) : List Pattern → Bool
  | [] => true
  | p :: ps =>
    match values with
    | [] => false
    | v :: vs => p.accepts h v && acceptsStart h vs ps

/-- Whether the parts of a value under the names match. -/
def acceptsFields (h : Heap) (v : Value) : List FieldPattern → Bool
  | [] => true
  | ⟨name, p⟩ :: fs => p.accepts h (h.part v name) && acceptsFields h v fs

def acceptsInner (h : Heap) (v : Value) : Select → Bool
  | ⟨_, _, none⟩ => true
  | ⟨_, _, some p⟩ => p.accepts h v

end

mutual

/-- Whether all arrays in the pattern are shorter than the first integer that is no exact number. -/
def isShort : Pattern → Bool
  | array elements => decide (elements.length < 2 ^ 53) && listIsShort elements
  | object fields => fieldsAreShort fields
  | select s => innerIsShort s
  | literal _ | typeTag _ | wildcard | not _ | when _ | set _ | map _ _ => true

def listIsShort : List Pattern → Bool
  | [] => true
  | p :: ps => p.isShort && listIsShort ps

def fieldsAreShort : List FieldPattern → Bool
  | [] => true
  | ⟨_, p⟩ :: fs => p.isShort && fieldsAreShort fs

def innerIsShort : Select → Bool
  | ⟨_, _, none⟩ => true
  | ⟨_, _, some p⟩ => p.isShort

end

end Pattern

/-! ## Values that differ in nothing that a pattern sees -/

def Value.isArray : Value → Bool
  | .array _ => true
  | _ => false

/-- Equal, or both functions. -/
def Value.Alike (v w : Value) : Prop :=
  v = w ∨ ∃ c d, v = .function c ∧ w = .function d

namespace Value.Alike

variable {v w : Value}

@[refl] theorem refl (v : Value) : Alike v v := .inl rfl

theorem kindName (h : Alike v w) : v.kindName = w.kindName := by
  rcases h with rfl | ⟨_, _, rfl, rfl⟩ <;> rfl

theorem isNullish (h : Alike v w) : v.isNullish = w.isNullish := by
  rcases h with rfl | ⟨_, _, rfl, rfl⟩ <;> rfl

theorem literal (h : Alike v w) (l : LiteralPattern) : l.accepts v = l.accepts w := by
  rcases h with rfl | ⟨_, _, rfl, rfl⟩
  · rfl
  · cases l <;> rfl

/-- A value that is no reference is equal to both or to neither. -/
theorem strictEq {k : Value} (h : Alike v w) (hk : k.isReference = false) :
    v.strictEq k = w.strictEq k := by
  rcases h with rfl | ⟨_, _, rfl, rfl⟩
  · rfl
  · cases k <;> first | rfl | cases hk

/-- Functions have no parts. -/
theorem part_eq (h : Alike v w) (heap : Heap) (key : String) : heap.part v key = heap.part w key := by
  rcases h with rfl | ⟨_, _, rfl, rfl⟩ <;> rfl

end Value.Alike

/-! ## Heaps with more built-in functions -/

def Cell.isNative : Cell → Bool
  | .native .. => true
  | _ => false

/-- The second heap is the first with built-in functions at its end. -/
def Heap.Spawned (h h' : Heap) : Prop :=
  ∃ made : Array Cell, (∀ c ∈ made, c.isNative = true) ∧ h'.cells = h.cells ++ made

namespace Heap.Spawned

variable {h h' h'' : Heap}

@[refl] theorem refl (h : Heap) : Spawned h h := ⟨#[], by simp, by simp⟩

theorem trans (first : Spawned h h') (second : Spawned h' h'') : Spawned h h'' := by
  obtain ⟨made, hmade, heq⟩ := first
  obtain ⟨more, hmore, heq'⟩ := second
  refine ⟨made ++ more, ?_, by rw [heq', heq, Array.append_assoc]⟩
  intro c hc
  exact (Array.mem_append.mp hc).elim (hmade c) (hmore c)

/-- A cell is what it was, or a new built-in function. -/
theorem cells (hs : Spawned h h') (i : Nat) :
    h'.cells[i]? = h.cells[i]? ∨
      h.cells[i]? = none ∧ ∃ fn receiver, h'.cells[i]? = some (.native fn receiver) := by
  obtain ⟨made, hmade, heq⟩ := hs
  rw [heq, Array.getElem?_append]
  split
  · exact .inl rfl
  · rename_i hi
    have hnone : h.cells[i]? = none := Array.getElem?_eq_none (Nat.le_of_not_lt hi)
    cases hc : made[i - h.cells.size]? with
    | none => exact .inl hnone.symm
    | some c =>
      obtain ⟨hlt, hget⟩ := Array.getElem?_eq_some_iff.mp hc
      have hnative := hmade c (hget ▸ Array.getElem_mem hlt)
      cases c with
      | native fn receiver => exact .inr ⟨hnone, fn, receiver, rfl⟩
      | items | fields | closure => cases hnative

theorem cell {i : Nat} {c : Cell} (hs : Spawned h h') (hc : h.cells[i]? = some c) :
    h'.cells[i]? = some c := by
  rcases hs.cells i with hi | ⟨hnone, _⟩
  · rw [hi, hc]
  · rw [hnone] at hc
    cases hc

theorem items (hs : Spawned h h') (i : Nat) : h'.items i = h.items i := by
  unfold Heap.items
  rcases hs.cells i with hi | ⟨hnone, _, _, hi⟩
  · rw [hi]
  · rw [hi, hnone]

theorem fields (hs : Spawned h h') (i : Nat) : h'.fields i = h.fields i := by
  unfold Heap.fields
  rcases hs.cells i with hi | ⟨hnone, _, _, hi⟩
  · rw [hi]
  · rw [hi, hnone]

/-- A value without a method under a key has the same part there in a heap with more functions. -/
theorem part_eq (hs : Spawned h h') {v : Value} {key : String}
    (hv : v.method? key = none) : h'.part v key = h.part v key := by
  have hmethod : ∀ {fn : Option Native}, fn = none → h'.methodPart fn = h.methodPart fn := by
    rintro _ rfl
    rfl
  cases v with
  | array cell =>
    unfold Heap.part
    dsimp only
    rw [hs.items]
    split
    · rfl
    · split
      · rfl
      · refine hmethod ?_
        simpa [Value.method?, *] using hv
  | str s =>
    unfold Heap.part
    dsimp only
    split
    · rfl
    · split
      · rfl
      · refine hmethod ?_
        simpa [Value.method?, *] using hv
  | object cell =>
    unfold Heap.part
    dsimp only
    rw [hs.fields]
  | undefined | null | bool | number | bigint | function => rfl

/-- Parts are the same, but for which function a method is. -/
theorem part (hs : Spawned h h') (v : Value) (key : String) :
    (h'.part v key).Alike (h.part v key) := by
  cases hv : v.method? key with
  | none => rw [hs.part_eq hv]
  | some fn => exact .inr ⟨_, _, h'.part_of_method? hv, h.part_of_method? hv⟩

end Heap.Spawned

end MatchChain
