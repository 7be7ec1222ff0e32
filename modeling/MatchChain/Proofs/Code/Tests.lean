import MatchChain.Code.Test
import MatchChain.Proofs.Eval.Chains
import MatchChain.Proofs.Match.Accepts
import MatchChain.Proofs.Number.Integers

/-!
# Conditions decide matching

The conditions that a pattern becomes, joined by *and*, are true of a target exactly if the pattern
accepts the target's value. They raise no error, whatever the value is: an access lets null and
undefined pass, and no built-in function that is called can fail. They leave the machine as it was,
but for function cells that nothing refers to, one for every built-in method that a path reads.

The target of a condition is a path from a name, and a longer path is evaluated anew for each of its
conditions. So the induction over the pattern carries what a path *reads* in every machine that the
conditions before can have left (`Reads`), and gives of each condition what it *tests* there (`Tests`).
-/

set_option autoImplicit false

namespace MatchChain

variable {object key : String} {fn : Native} {b : Bool}

theorem Heap.text_str (h : Heap) (text : String) : h.text (.str text) = text := rfl

theorem Heap.text_number (h : Heap) (x : Double) : h.text (.number x) = x.text := rfl

/-- The machine after a read: a method is a new function. -/
def Machine.afterRead (m : Machine) (v : Value) (key : String) : Machine :=
  match v.method? key with
  | some fn => m.allocated (.native fn v)
  | none => m

namespace Eval

open Outcome

/-! ## Accesses -/

/-- A read finds the part. If that is a method, a function for it is left. -/
theorem run_part (span : Span) (v : Value) (key : String) (m : Machine) :
    (part span v key).run.run m = (.ok (m.heap.part v key), m.afterRead v key) := by
  unfold Machine.afterRead Value.method?
  cases v with
  | array cell =>
    simp only [part, Value.isNullish, Bool.false_eq_true, if_false, getProperty, Heap.part]
    rw [run_bind_ok (run_items cell m)]
    cases key == "length" with
    | true => rfl
    | false =>
      cases Text.index? key with
      | some i => rfl
      | none => cases arrayMethod? key <;> rfl
  | str s =>
    simp only [part, Value.isNullish, Bool.false_eq_true, if_false, getProperty, Heap.part]
    cases key == "length" with
    | true => rfl
    | false =>
      cases Text.index? key with
      | some i => rfl
      | none => cases stringMethod? key <;> rfl
  | undefined | null | bool | number | bigint | object | function =>
    simp only [ite_self]
    rfl

/-- An access of an expression under a key, by a name or by a literal. -/
inductive IsAccess (span : Span) (e : Expr) (key : String) (optional : Bool) : Expr → Prop
  | member : IsAccess span e key optional (.member span e key optional)
  | index {literal : Expr} {k : Value} : literalValue? literal = some k → (∀ h : Heap, h.text k = key) →
    IsAccess span e key optional (.index span e literal optional)

namespace IsAccess

variable {span : Span} {e e' : Expr} {key : String} {optional : Bool}

theorem accessed (h : IsAccess span e key optional e') : e'.accessed? = some e := by
  cases h <;> rfl

theorem isPlain (h : IsAccess span e key optional e') (inner : Span) (f : Expr) : e' ≠ .spread inner f := by
  cases h <;> exact Expr.noConfusion

theorem not_ident (h : IsAccess span e key optional e') (inner : Span) (name : String) : e' ≠ .ident inner name := by
  cases h <;> exact Expr.noConfusion

/-- What the access finds in a value. -/
theorem found_eq (h : IsAccess span e key optional e') (v : Value) (m : Machine) :
    found e' v m = if optional && v.isNullish then some (.ok none, m) else linked (getProperty v key span) m := by
  cases h with
  | member => rfl
  | index hliteral hkey => simp only [found, limit_expr_literal hliteral, Option.bind_some, andThen_ok, hkey]

/-- An optional access reads a part of what stands before it. A chain that ended before reads as
    undefined, and so does this access. -/
theorem limit_expr (h : IsAccess span e key true e') (m : Machine) :
    limit (expr · e') m
      = (limit (expr · e) m).bind (andThen fun v m' =>
          Outcome.ofRun? ((part span v key).run.run m')) := by
  rw [limit_expr_of_link e', limit_link_access h.accessed, limit_expr_of_link e]
  rcases limit (link · e) m with _ | ⟨_ | _ | v, m'⟩
  · rfl
  · rfl
  · rfl
  · simp only [Option.bind_some, andThen_ok, chained_some, h.found_eq, Bool.true_and, Option.getD_some, part, linked]
    split
    · rfl
    · rcases Outcome.ofRun? ((getProperty v key span).run.run m') with _ | ⟨_ | w, m''⟩ <;> rfl

end IsAccess

/-- The kind of what an expression gives. -/
theorem limit_expr_typeOf_of_ok {e : Expr} {m m' : Machine} {v : Value}
    (h : limit (expr · e) m = some (.ok v, m')) (span : Span) :
    limit (expr · (.unary span .typeOf e)) m = some (.ok (.str v.kindName), m') := by
  by_cases hident : ∃ inner name, e = .ident inner name
  · obtain ⟨inner, name, rfl⟩ := hident
    cases hlookup : m.lookup? name with
    | none =>
      have hraise : limit (expr · (.ident inner name)) m = some (.error (.reference name inner), m) := by
        rw [limit_succ]
        simp only [Eval.expr]
        rw [limit_const, run_lookup, hlookup]
        rfl
      rw [hraise] at h
      cases h
    | some w =>
      rw [limit_expr_ident hlookup] at h
      cases h
      exact limit_expr_typeOf_ident hlookup span inner
  · rw [limit_expr_typeOf (fun inner name he => hident ⟨inner, name, he⟩), h]
    rfl

end Eval

namespace AccessStyle

open Eval

variable (style : AccessStyle)

theorem isAccess_field (e : Expr) (name : String) :
    IsAccess style.span e name style.nullSafe (style.field e name) := by
  unfold field
  split
  · exact .member
  · exact .index rfl fun h => h.text_str name

theorem isAccess_element (e : Expr) (i : Nat) :
    IsAccess style.span e (Double.ofNat i).text style.nullSafe (style.element e i) :=
  .index rfl fun h => h.text_number _

theorem isAccess_length (e : Expr) : IsAccess style.span e "length" style.nullSafe (style.length e) := .member

end AccessStyle

namespace Machine

/-- A machine that differs from another in new built-in functions on the heap alone. -/
def Spawned (m m' : Machine) : Prop := ∃ h, m.heap.Spawned h ∧ m' = { m with heap := h }

namespace Spawned

variable {m m' m'' : Machine}

@[refl] theorem refl (m : Machine) : Spawned m m := ⟨m.heap, .refl _, rfl⟩

theorem trans (first : Spawned m m') (second : Spawned m' m'') : Spawned m m'' := by
  obtain ⟨h, hs, rfl⟩ := first
  obtain ⟨h', hs', rfl⟩ := second
  exact ⟨h', hs.trans hs', rfl⟩

theorem heap (hs : Spawned m m') : m.heap.Spawned m'.heap := by
  obtain ⟨h, hs, rfl⟩ := hs
  exact hs

theorem lookup? (hs : Spawned m m') (name : String) : m'.lookup? name = m.lookup? name := by
  obtain ⟨h, _, rfl⟩ := hs
  rfl

theorem afterRead (m : Machine) (v : Value) (key : String) : Spawned m (m.afterRead v key) := by
  unfold Machine.afterRead
  split
  · rename_i fn _
    refine ⟨_, ⟨#[.native fn v], ?_, by simp [Heap.alloc]⟩, rfl⟩
    intro c hc
    rw [Array.mem_singleton.mp hc]
    rfl
  · rfl

end Spawned

/-- A built-in function is found under a key of a global object. -/
def Provides (m : Machine) (object key : String) (fn : Native) : Prop :=
  ∃ cell id receiver, m.lookup? object = some (.object cell) ∧
    (m.heap.fields cell).get? key = some (.function id) ∧
    m.heap.cells[id]? = some (.native fn receiver)

theorem Provides.spawned {m m' : Machine}
    (h : m.Provides object key fn) (hs : m.Spawned m') : m'.Provides object key fn := by
  obtain ⟨cell, id, receiver, hlookup, hfield, hcell⟩ := h
  refine ⟨cell, id, receiver, ?_, ?_, hs.heap.cell hcell⟩
  · rw [hs.lookup?, hlookup]
  · rw [hs.heap.fields, hfield]

/-- The globals that conditions use are the built-in ones. -/
structure HasTestGlobals (m : Machine) : Prop where
  isArray : m.Provides "Array" "isArray" .isArray
  isNaN : m.Provides "Number" "isNaN" .isNaN
  undefined : m.lookup? "undefined" = some .undefined

end Machine

namespace Eval

open Outcome

/-- In every machine that `m` can have become, the expression gives the value, or another function
    in place of a function. -/
structure Reads (m : Machine) (e : Expr) (v : Value) : Prop where
  isPlain : ∀ span inner, e ≠ .spread span inner
  gives : ∀ m₁, m.Spawned m₁ → ∃ w m₂, m₁.Spawned m₂ ∧ w.Alike v ∧
    limit (expr · e) m₁ = some (.ok w, m₂)

/-- In every machine that `m` can have become, the condition is true or false as given. -/
def Tests (m : Machine) (e : Expr) (b : Bool) : Prop :=
  ∀ m₁, m.Spawned m₁ → ∃ m₂, m₁.Spawned m₂ ∧ limit (expr · e) m₁ = some (.ok (.bool b), m₂)

variable {m : Machine} {style : AccessStyle} {e : Expr} {v : Value}

/-! ## Targets -/

theorem Reads.ident {name : String} (h : m.lookup? name = some v) (span : Span) :
    Reads m (.ident span name) v := by
  refine ⟨nofun, fun m₁ hs => ⟨v, m₁, .refl _, .refl _, limit_expr_ident ?_ span⟩⟩
  rw [hs.lookup?, h]

/-- A longer path reads the part of what the path before it reads. -/
theorem Reads.access (h : Reads m e v) {span : Span} {key : String} {e' : Expr} (he : IsAccess span e key true e') :
    Reads m e' (m.heap.part v key) := by
  refine ⟨he.isPlain, fun m₁ hs => ?_⟩
  obtain ⟨w, m₂, hs₂, hw, hrun⟩ := h.gives m₁ hs
  refine ⟨m₂.heap.part w key, m₂.afterRead w key, hs₂.trans (.afterRead m₂ w key), ?_, ?_⟩
  · rw [hw.part_eq]
    exact (hs.trans hs₂).heap.part v key
  · rw [he.limit_expr, hrun]
    simp only [Option.bind_some, andThen_ok, run_part]
    rfl

theorem Reads.field (h : Reads m e v) (hsafe : style.nullSafe = true) (name : String) :
    Reads m (style.field e name) (m.heap.part v name) :=
  h.access (hsafe ▸ style.isAccess_field e name)

theorem Reads.element (h : Reads m e v) (hsafe : style.nullSafe = true) (i : Nat) :
    Reads m (style.element e i) (m.heap.part v (Double.ofNat i).text) :=
  h.access (hsafe ▸ style.isAccess_element e i)

theorem Reads.length (h : Reads m e v) (hsafe : style.nullSafe = true) :
    Reads m (style.length e) (m.heap.part v "length") :=
  h.access (hsafe ▸ style.isAccess_length e)

/-! ## Single conditions -/

/-- An operator between a target and something constant. -/
theorem Reads.operator (h : Reads m e v) {op : BinaryOp} (hop : ∀ w, op.keepsLeft? w = none)
    {value : Expr} {k : Value}
    (hvalue : ∀ m₁, m.Spawned m₁ → limit (expr · value) m₁ = some (.ok k, m₁))
    (hb : ∀ (heap : Heap) (w : Value), w.Alike v → heap.binary style.span op w k = .ok (.bool b)) :
    Tests m (.binary style.span op e value) b := by
  intro m₁ hs
  obtain ⟨w, m₂, hs₂, hw, hrun⟩ := h.gives m₁ hs
  refine ⟨m₂, hs₂, ?_⟩
  rw [limit_expr_operator hop, hrun]
  simp only [Option.bind_some, andThen_ok, hvalue m₂ (hs.trans hs₂), hb m₂.heap w hw]

/-- A built-in function of a global object, as a callee. -/
theorem limit_callee_global (h : m.Provides object key fn) (span : Span) :
    ∃ id cell receiver, m.heap.cells[id]? = some (.native fn receiver) ∧
      limit (callee · (.member span (.ident span object) key false)) m
        = some (.ok (some (.function id, .object cell)), m) := by
  obtain ⟨cell, id, receiver, hlookup, hfield, hcell⟩ := h
  refine ⟨id, cell, receiver, hcell, ?_⟩
  have hget : (getProperty (.object cell) key span).run.run m = (.ok (.function id), m) := by
    show (Except.ok (((m.heap.fields cell).get? key).getD .undefined), m) = _
    rw [hfield]
    rfl
  rw [limit_callee_member, limit_link_start rfl, limit_expr_ident hlookup]
  simp only [Option.bind_some, andThen_ok, hget]
  rfl

/-- A call of a built-in function of a global object, with an argument that only reads. -/
theorem limit_globalCall
    (h : m.Provides object key fn) (hplain : ∀ span inner, e ≠ .spread span inner) {m' : Machine}
    (hs : m.Spawned m') (he : limit (expr · e) m = some (.ok v, m')) (style : AccessStyle) :
    ∃ receiver, limit (expr · (style.globalCall object key e)) m
      = Outcome.ofRun? ((callNative fn receiver [v] style.span).run.run m') := by
  obtain ⟨id, cell, receiver, hcell, hcallee⟩ := limit_callee_global h style.span
  refine ⟨receiver, ?_⟩
  rw [AccessStyle.globalCall, limit_expr_call, hcallee]
  simp only [Option.bind_some, andThen_ok, limit_args_cons hplain, limit_args_nil, he]
  exact limit_call_native (hs.heap.cell hcell) _ _ _

/-- A call of a built-in function of a global object, with a target as its argument. -/
theorem Reads.globalCall (h : Reads m e v)
    (hfn : m.Provides object key fn)
    (hb : ∀ (m₁ : Machine) (receiver w : Value), w.Alike v →
      (callNative fn receiver [w] style.span).run.run m₁ = (.ok (.bool b), m₁)) :
    Tests m (style.globalCall object key e) b := by
  intro m₁ hs
  obtain ⟨w, m₂, hs₂, hw, hrun⟩ := h.gives m₁ hs
  obtain ⟨receiver, hcall⟩ := limit_globalCall (hfn.spawned hs) h.isPlain hs₂ hrun style
  refine ⟨m₂, hs₂, ?_⟩
  rw [hcall, hb m₂ receiver w hw]
  rfl

theorem Reads.strictEq (h : Reads m e v) {value : Expr} {k : Value} (hk : k.isReference = false)
    (hvalue : ∀ m₁, m.Spawned m₁ → limit (expr · value) m₁ = some (.ok k, m₁)) :
    Tests m (.binary style.span .strictEq e value) (v.strictEq k) := by
  refine h.operator (fun _ => rfl) hvalue fun heap w hw => ?_
  rw [← hw.strictEq hk]
  rfl

theorem Reads.literal (h : Reads m e v) (hm : m.HasTestGlobals) (l : LiteralPattern) :
    Tests m (l.test style e) (l.accepts v) := by
  cases l with
  | str | num | bool | bigint | null =>
    exact h.strictEq rfl fun m₁ _ => limit_expr_literal rfl m₁
  | undefined =>
    refine h.strictEq rfl fun m₁ hs => limit_expr_ident ?_ _
    rw [hs.lookup?, hm.undefined]
  | nan =>
    refine h.globalCall hm.isNaN fun m₁ receiver w hw => ?_
    rw [← hw.literal]
    rfl

theorem Reads.typeTag (h : Reads m e v) (tag : TypeTag) :
    Tests m (tag.test style e) (tag.accepts v) := by
  unfold TypeTag.test TypeTag.accepts
  cases tag.kindName? with
  | some name =>
    intro m₁ hs
    obtain ⟨w, m₂, hs₂, hw, hrun⟩ := h.gives m₁ hs
    refine ⟨m₂, hs₂, ?_⟩
    rw [limit_expr_operator (fun _ => rfl), limit_expr_typeOf_of_ok hrun, ← hw.kindName]
    simp only [Option.bind_some, andThen_ok, limit_expr_literal (e := .str style.span name) rfl]
    rfl
  | none =>
    refine h.operator (fun _ => rfl) (fun m₁ _ => limit_expr_literal rfl m₁) fun heap w hw => ?_
    rw [← hw.isNullish]
    simp [Heap.binary, Heap.looseEq, Value.isNullish]

/-- Whether a target is an array. -/
theorem Reads.isArray (h : Reads m e v) (hm : m.HasTestGlobals) :
    Tests m (style.globalCall "Array" "isArray" e) v.isArray := by
  refine h.globalCall hm.isArray fun m₁ receiver w hw => ?_
  rcases hw with rfl | ⟨_, _, rfl, rfl⟩
  · cases w <;> rfl
  · rfl

/-- Whether an array has at least so many elements. -/
theorem Reads.atLeast {cell : Nat} (h : Reads m e (.array cell)) (hsafe : style.nullSafe = true)
    {n : Nat} (hn : n < 2 ^ 53) :
    Tests m (.binary style.span .gtEq (style.length e) (.num style.span (.ofNat n)))
      (decide (n ≤ (m.heap.items cell).length)) := by
  refine (h.length hsafe).operator (fun _ => rfl) (fun m₁ _ => limit_expr_literal rfl m₁)
    fun heap w hw => ?_
  have hlength : w = .number (.ofNat (m.heap.items cell).length) := by
    rcases hw with rfl | ⟨_, _, _, hf⟩
    · rfl
    · cases hf
  subst hlength
  rw [← Double.ofNat_ge_ofNat hn]
  rfl

/-! ## Conditions in order -/

/-- The conditions hold together as given, where none is asked for after the first that fails. -/
inductive TestAll (m : Machine) : List Expr → Bool → Prop
  | nil : TestAll m [] true
  | fail {e : Expr} (es : List Expr) : Tests m e false → TestAll m (e :: es) false
  | cons {e : Expr} {es : List Expr} {b : Bool} :
    Tests m e true → TestAll m es b → TestAll m (e :: es) b

theorem Tests.testAll (h : Tests m e b) : TestAll m [e] b := by
  cases b with
  | false => exact .fail [] h
  | true => exact .cons h .nil

theorem TestAll.append {es fs : List Expr} {b c : Bool} (h : TestAll m es b)
    (hnext : b = true → TestAll m fs c) : TestAll m (es ++ fs) (b && c) := by
  induction h with
  | nil => exact hnext rfl
  | fail es he => exact .fail (es ++ fs) he
  | cons he _ ih => exact .cons he (ih hnext)

theorem Tests.and {a e : Expr} {b c : Bool} (h : Tests m a b) (hnext : b = true → Tests m e c)
    (span : Span) : Tests m (.binary span .and a e) (b && c) := by
  intro m₁ hs
  obtain ⟨m₂, hs₂, hrun⟩ := h m₁ hs
  cases b with
  | false =>
    refine ⟨m₂, hs₂, ?_⟩
    rw [limit_expr_and, hrun]
    rfl
  | true =>
    obtain ⟨m₃, hs₃, hrun'⟩ := hnext rfl m₂ (hs.trans hs₂)
    refine ⟨m₃, hs₂.trans hs₃, ?_⟩
    rw [limit_expr_and, hrun]
    exact hrun'

/-- Conditions joined from the left, after one that is given. -/
theorem TestAll.foldl {es : List Expr} {c : Bool} (span : Span) :
    ∀ {a : Expr} {b : Bool}, Tests m a b → (b = true → TestAll m es c) →
      Tests m (es.foldl (fun left right => .binary span .and left right) a) (b && c) := by
  induction es generalizing c with
  | nil =>
    intro a b ha hes
    cases b with
    | false => exact ha
    | true =>
      cases hes rfl
      exact ha
  | cons e es ih =>
    intro a b ha hes
    cases b with
    | false =>
      exact ih (b := false) (c := false) (ha.and (c := true) nofun span) nofun
    | true =>
      cases hes rfl with
      | fail _ he => exact ih (b := false) (c := true) (ha.and (fun _ => he) span) nofun
      | cons he hrest => exact ih (ha.and (fun _ => he) span) fun _ => hrest

/-- What conditions say is what they say when they are joined. -/
theorem TestAll.joined {es : List Expr} (h : TestAll m es b) {span : Span} {e : Expr}
    (he : Expr.joined? span .and es = some e) : Tests m e b := by
  cases h with
  | nil => cases he
  | fail es hfirst =>
    cases he
    exact TestAll.foldl (c := true) span hfirst nofun
  | cons hfirst hrest =>
    cases he
    exact TestAll.foldl span hfirst fun _ => hrest

/-! ## Whole patterns -/

/-- The element at a position that is an exact number. -/
theorem part_element {heap : Heap} {cell i : Nat} (hi : i < 2 ^ 53) :
    heap.part (.array cell) (Double.ofNat i).text = ((heap.items cell)[i]?).getD .undefined := by
  have hindex := Text.index?_text_ofNat hi
  have hlength : ((Double.ofNat i).text == "length") = false := by
    have hno : Text.index? "length" = none := by decide +kernel
    refine beq_eq_false_iff_ne.mpr fun heq => ?_
    rw [heq, hno] at hindex
    cases hindex
  simp only [Heap.part, hlength, hindex, Bool.false_eq_true, if_false]

end Eval

namespace Pattern

open Eval

theorem acceptsStart_of_lt (h : Heap) : ∀ {ps : List Pattern} {vs : List Value},
    vs.length < ps.length → acceptsStart h vs ps = false
  | p :: ps, [], _ => by rw [acceptsStart]
  | p :: ps, v :: vs, hlt => by
    rw [acceptsStart, acceptsStart_of_lt h (Nat.lt_of_succ_lt_succ hlt), Bool.and_false]

variable {m : Machine} {style : AccessStyle}

/-- The conditions of an array after the first: its length, then its elements if it has enough. -/
theorem testAll_arrayTests (hsafe : style.nullSafe = true) (elements : List Pattern) {e : Expr}
    {cell : Nat} (h : Reads m e (.array cell)) (hshort : elements.length < 2 ^ 53)
    (helements : elements.length ≤ (m.heap.items cell).length →
      TestAll m (elementTests style e 0 elements)
        (acceptsStart m.heap ((m.heap.items cell).drop 0) elements)) :
    TestAll m ((if elements.isEmpty then [] else [.binary style.span .gtEq (style.length e)
        (.num style.span (.ofNat elements.length))]) ++ elementTests style e 0 elements)
      (acceptsStart m.heap (m.heap.items cell) elements) := by
  rw [List.drop_zero] at helements
  cases elements with
  | nil => exact helements (Nat.zero_le _)
  | cons p ps =>
    have hlength := h.atLeast hsafe hshort
    by_cases hlong : (p :: ps).length ≤ (m.heap.items cell).length
    · rw [decide_eq_true hlong] at hlength
      exact .cons hlength (helements hlong)
    · rw [decide_eq_false hlong] at hlength
      rw [acceptsStart_of_lt m.heap (Nat.lt_of_not_le hlong)]
      exact .fail _ hlength

mutual

/-- The conditions of a pattern hold together exactly if it accepts what their target reads. -/
theorem testAll_tests (hsafe : style.nullSafe = true) (hm : m.HasTestGlobals) :
    ∀ (p : Pattern), p.unsupported? = none → p.isShort = true → ∀ {e : Expr} {v : Value},
      Reads m e v → TestAll m (p.tests style e) (p.accepts m.heap v)
  | literal l, _, _, e, v, h => by
    rw [tests, accepts]
    exact (h.literal hm l).testAll
  | typeTag tag, _, _, e, v, h => by
    rw [tests, accepts]
    exact (h.typeTag tag).testAll
  | wildcard, _, _, e, v, h => by
    rw [tests, accepts]
    exact .nil
  | array elements, hsupported, hshort, e, v, h => by
    rw [unsupported?] at hsupported
    rw [isShort, Bool.and_eq_true, decide_eq_true_iff] at hshort
    rw [tests]
    cases v with
    | array cell =>
      rw [accepts]
      refine .cons (h.isArray hm) ?_
      exact testAll_arrayTests hsafe elements h hshort.1 fun hlong =>
        testAll_elementTests hsafe hm elements hsupported hshort.2 (i := 0) h (by omega) (by omega)
    | _ =>
      rw [accepts]
      · exact .fail _ (h.isArray hm)
      · exact nofun
  | object fields, hsupported, hshort, e, v, h => by
    rw [unsupported?] at hsupported
    rw [isShort] at hshort
    rw [tests, accepts]
    exact testAll_fieldTests hsafe hm fields hsupported hshort h
  | select s, hsupported, hshort, e, v, h => by
    rw [unsupported?] at hsupported
    rw [isShort] at hshort
    rw [tests, accepts]
    exact testAll_innerTests hsafe hm s hsupported hshort h

theorem testAll_elementTests (hsafe : style.nullSafe = true) (hm : m.HasTestGlobals) :
    ∀ (ps : List Pattern), listUnsupported? ps = none → listIsShort ps = true →
      ∀ {e : Expr} {cell i : Nat}, Reads m e (.array cell) → i + ps.length < 2 ^ 53 →
      i + ps.length ≤ (m.heap.items cell).length →
      TestAll m (elementTests style e i ps) (acceptsStart m.heap ((m.heap.items cell).drop i) ps)
  | [], _, _, e, cell, i, h, _, _ => by
    rw [elementTests, acceptsStart]
    exact .nil
  | p :: ps, hsupported, hshort, e, cell, i, h, hexact, hlong => by
    rw [listUnsupported?, Option.or_eq_none_iff] at hsupported
    rw [listIsShort, Bool.and_eq_true] at hshort
    rw [List.length_cons] at hexact hlong
    have hi : i < (m.heap.items cell).length := by omega
    have hread := h.element hsafe i
    rw [part_element (by omega), List.getElem?_eq_getElem hi] at hread
    rw [elementTests, List.drop_eq_getElem_cons hi, acceptsStart]
    exact (testAll_tests hsafe hm p hsupported.1 hshort.1 hread).append fun _ =>
      testAll_elementTests hsafe hm ps hsupported.2 hshort.2 h (by omega) (by omega)

theorem testAll_fieldTests (hsafe : style.nullSafe = true) (hm : m.HasTestGlobals) :
    ∀ (fs : List FieldPattern), fieldUnsupported? fs = none → fieldsAreShort fs = true →
      ∀ {e : Expr} {v : Value}, Reads m e v →
      TestAll m (fieldTests style e fs) (acceptsFields m.heap v fs)
  | [], _, _, e, v, h => by
    rw [fieldTests, acceptsFields]
    exact .nil
  | ⟨name, p⟩ :: fs, hsupported, hshort, e, v, h => by
    rw [fieldUnsupported?, Option.or_eq_none_iff] at hsupported
    rw [fieldsAreShort, Bool.and_eq_true] at hshort
    rw [fieldTests, acceptsFields]
    exact (testAll_tests hsafe hm p hsupported.1 hshort.1 (h.field hsafe name)).append fun _ =>
      testAll_fieldTests hsafe hm fs hsupported.2 hshort.2 h

theorem testAll_innerTests (hsafe : style.nullSafe = true) (hm : m.HasTestGlobals) :
    ∀ (s : Select), innerUnsupported? s = none → innerIsShort s = true →
      ∀ {e : Expr} {v : Value}, Reads m e v →
      TestAll m (innerTests style e s) (acceptsInner m.heap v s)
  | ⟨_, _, none⟩, _, _, e, v, h => by
    rw [innerTests, acceptsInner]
    exact .nil
  | ⟨_, _, some p⟩, hsupported, hshort, e, v, h => by
    rw [innerUnsupported?] at hsupported
    rw [innerIsShort] at hshort
    rw [innerTests, acceptsInner]
    exact testAll_tests hsafe hm p hsupported hshort h

end

mutual

/-- A pattern without conditions accepts everything. -/
theorem accepts_of_tests_eq_nil : ∀ (p : Pattern), p.unsupported? = none → ∀ {e : Expr},
    p.tests style e = [] → ∀ (h : Heap) (v : Value), p.accepts h v = true
  | literal l, _, e, hnil, h, v => by
    rw [tests] at hnil
    cases hnil
  | typeTag tag, _, e, hnil, h, v => by
    rw [tests] at hnil
    cases hnil
  | wildcard, _, e, _, h, v => by rw [accepts]
  | array elements, _, e, hnil, h, v => by
    rw [tests] at hnil
    cases hnil
  | object fields, hsupported, e, hnil, h, v => by
    rw [unsupported?] at hsupported
    rw [tests] at hnil
    rw [accepts]
    exact acceptsFields_of_tests_eq_nil fields hsupported hnil h v
  | select ⟨_, _, none⟩, _, e, _, h, v => by rw [accepts, acceptsInner]
  | select ⟨_, _, some p⟩, hsupported, e, hnil, h, v => by
    rw [unsupported?, innerUnsupported?] at hsupported
    rw [tests, innerTests] at hnil
    rw [accepts, acceptsInner]
    exact accepts_of_tests_eq_nil p hsupported hnil h v

theorem acceptsFields_of_tests_eq_nil : ∀ (fs : List FieldPattern), fieldUnsupported? fs = none →
    ∀ {e : Expr}, fieldTests style e fs = [] → ∀ (h : Heap) (v : Value),
      acceptsFields h v fs = true
  | [], _, e, _, h, v => by rw [acceptsFields]
  | ⟨name, p⟩ :: fs, hsupported, e, hnil, h, v => by
    rw [fieldUnsupported?, Option.or_eq_none_iff] at hsupported
    rw [fieldTests, List.append_eq_nil_iff] at hnil
    rw [acceptsFields, accepts_of_tests_eq_nil p hsupported.1 hnil.1,
      acceptsFields_of_tests_eq_nil fs hsupported.2 hnil.2]
    rfl

end

/-- The conditions of a pattern for a name, joined by *and*, end without an error in the truth of
    whether the pattern accepts the name's value, and change nothing that the machine had. Where there
    is no condition, the pattern accepts every value. -/
theorem joined_tests_decide (style : AccessStyle) {p : Pattern} {name : String} {v : Value}
    (span : Span) (hsafe : style.nullSafe = true) (hm : m.HasTestGlobals) (hname : m.lookup? name = some v)
    (hsupported : p.unsupported? = none) (hshort : p.isShort = true) :
    match Expr.joined? style.span .and (p.tests style (.ident span name)) with
    | some e => ∃ m', m.Spawned m' ∧ ∃ n, ∀ k ≥ n,
        (Eval.expr k e).run.run m = (.ok (.bool (p.accepts m.heap v)), m')
    | none => ∀ (h : Heap) (w : Value), p.accepts h w = true := by
  have htests := testAll_tests hsafe hm p hsupported hshort (Reads.ident hname span)
  cases hjoined : Expr.joined? style.span .and (p.tests style (.ident span name)) with
  | some e =>
    obtain ⟨m', hs, hlimit⟩ := htests.joined hjoined m (.refl m)
    exact ⟨m', hs, eventually_of_limit hlimit⟩
  | none =>
    have hnil : p.tests style (.ident span name) = [] := by
      cases hlist : p.tests style (.ident span name) with
      | nil => rfl
      | cons e es =>
        rw [hlist] at hjoined
        cases hjoined
    exact accepts_of_tests_eq_nil p hsupported hnil

/-- A machine with the name `shape` for the array of `1` and an object. -/
def shapeMachine : Machine :=
  ((Machine.initial.allocated (.fields [("kind", .str "square")])).allocated
    (.items [.number (.ofNat 1), .object 10])).defined 0 "shape" ⟨.array 11, true⟩

/-- An array that starts with a number and an object whose kind, a square, is selected. -/
def shapePattern : Pattern :=
  .array [.typeTag .number,
    .object [⟨"kind", .select ⟨default, some "kind", some (.literal (.str "square"))⟩⟩]]

theorem joined_tests_decide_shape :
    (shapeMachine.HasTestGlobals ∧ shapeMachine.lookup? "shape" = some (.array 11) ∧
      shapePattern.unsupported? = none ∧ shapePattern.isShort = true) ∧
    ∃ e m', Expr.joined? default .and (shapePattern.tests ⟨default, true⟩ (.ident default "shape"))
        = some e ∧ shapeMachine.Spawned m' ∧
      ∃ n, ∀ k ≥ n, (Eval.expr k e).run.run shapeMachine = (.ok (.bool true), m') := by
  have hcells : shapeMachine.heap.cells
      = (Machine.initial.heap.cells.push (.fields [("kind", .str "square")])).push
        (.items [.number (.ofNat 1), .object 10]) := rfl
  rw [Machine.initial_cells] at hcells
  have hm : shapeMachine.HasTestGlobals :=
    { isArray := ⟨1, 0, .undefined, by decide +kernel, by decide +kernel, by simp [hcells]⟩
      isNaN := ⟨3, 2, .undefined, by decide +kernel, by decide +kernel, by simp [hcells]⟩
      undefined := by decide +kernel }
  have hname : shapeMachine.lookup? "shape" = some (.array 11) := by decide +kernel
  have hsupported : shapePattern.unsupported? = none := by rfl
  have hshort : shapePattern.isShort = true := by decide +kernel
  have haccepts : shapePattern.accepts shapeMachine.heap (.array 11) = true := by decide +kernel
  refine ⟨⟨hm, hname, hsupported, hshort⟩, ?_⟩
  have h := joined_tests_decide ⟨default, true⟩ default rfl hm hname hsupported hshort
  rw [haccepts] at h
  obtain ⟨m', hs, hrun⟩ := h
  exact ⟨_, m', rfl, hs, hrun⟩

end Pattern

end MatchChain
