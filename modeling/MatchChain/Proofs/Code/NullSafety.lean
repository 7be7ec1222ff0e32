import MatchChain.Proofs.Code.Accesses
import MatchChain.Proofs.Code.Tests
import MatchChain.Proofs.Eval.Reach

/-!
# Conditions without null safety

Conditions may be written with plain accesses in place of optional ones. Where the plain condition gives a
value, the optional one gives the same and leaves the same machine, whatever the names in them stand for.
With the built-in globals the plain condition always ends, in a truth value or in an error, and the error
is raised exactly if it gets to an access of null or undefined.

The two conditions differ in every access, so they are compared link by link. For the second part, a path of
plain accesses either reads a component in every machine that the conditions before can have left, as in the
null-safe case, or is *blocked* in all of them.
-/

set_option autoImplicit false

namespace MatchChain

variable {span : Span} {m : Machine} {key : String}

namespace Eval

open Outcome

variable {m : Machine} {v : Value} {key : String}

theorem run_getProperty_nullish (hv : v.isNullish = true) (key : String) (span : Span) (m : Machine) :
    (getProperty v key span).run.run m
      = (.error (.raised (.type (.unreadable (m.heap.text v) key) span)), m) := by
  cases v <;> first | rfl | cases hv

/-- Null and undefined have nothing to read. -/
theorem isNullish_of_linked {r : Option Value} {m' : Machine}
    (h : linked (getProperty v key span) m = some (.ok r, m')) : v.isNullish = false := by
  cases hv : v.isNullish with
  | false => rfl
  | true =>
    rw [linked, run_getProperty_nullish hv] at h
    cases h

end Eval

open Eval Outcome

/-! ## Optional accesses repeat what plain ones give -/

/-- Where the first ends with a value, the second ends with it too, and leaves the same machine. -/
def Outcome.Repeated {α : Type} (o o' : Option (Outcome α)) : Prop :=
  ∀ a m, o = some (.ok a, m) → o' = some (.ok a, m)

namespace Outcome.Repeated

variable {α β : Type} {o o' : Option (Outcome α)}

theorem refl (o : Option (Outcome α)) : Repeated o o := fun _ _ h => h

theorem bind (h : Repeated o o') {f f' : α → Machine → Option (Outcome β)}
    (hf : ∀ a m, Repeated (f a m) (f' a m)) : Repeated (o.bind (andThen f)) (o'.bind (andThen f')) := by
  intro b m hb
  rcases o with _ | ⟨_ | a, m₁⟩
  · cases hb
  · cases hb
  · rw [h a m₁ rfl]
    exact hf a m₁ b m hb

end Outcome.Repeated

namespace Eval

/-- Whatever the first expression gives, the second gives. -/
def RepeatedBy (e e' : Expr) : Prop := ∀ m, Repeated (limit (expr · e) m) (limit (expr · e') m)

namespace RepeatedBy

theorem refl (e : Expr) : RepeatedBy e e := fun _ => .refl _

theorem binary {left left' right right' : Expr} (hleft : RepeatedBy left left') (hright : RepeatedBy right right')
    (span : Span) (op : BinaryOp) : RepeatedBy (.binary span op left right) (.binary span op left' right') := by
  intro m
  rw [limit_expr_binary, limit_expr_binary]
  refine (hleft m).bind fun a m₁ => ?_
  unfold operated
  rcases op.keepsLeft? a with _ | _ | _
  · exact (hright m₁).bind fun _ _ => .refl _
  · exact hright m₁
  · exact .refl _

theorem joined {es es' : List Expr} (h : List.Forall₂ RepeatedBy es es') {op : BinaryOp} :
    ∀ {t t' : Expr}, Expr.joined? span op es = some t → Expr.joined? span op es' = some t' → RepeatedBy t t' := by
  cases h with
  | nil =>
    intro t t' ht
    cases ht
  | @cons e e' es es' he hes =>
    intro t t' ht ht'
    cases ht
    cases ht'
    induction hes generalizing e e' with
    | nil => exact he
    | cons hnext _ ih => exact ih (he.binary hnext span op)

end RepeatedBy

/-- The second path repeats what the first gives, as a link of a chain. -/
structure Softens (e e' : Expr) : Prop where
  isPlain : ∀ span inner, e ≠ .spread span inner
  isPlain' : ∀ span inner, e' ≠ .spread span inner
  named : e = e' ∨ (∀ span name, e ≠ .ident span name) ∧ ∀ span name, e' ≠ .ident span name
  link : ∀ m, Repeated (limit (Eval.link · e) m) (limit (Eval.link · e') m)

namespace Softens

variable {e e' : Expr}

theorem ident (span : Span) (name : String) : Softens (.ident span name) (.ident span name) :=
  ⟨nofun, nofun, .inl rfl, fun _ => .refl _⟩

/-- Both give the same as long as the plain access gives anything: it finds nothing in null and undefined. -/
theorem access (h : Softens e e') {f f' : Expr} (hf : IsAccess span e key false f)
    (hf' : IsAccess span e' key true f') : Softens f f' := by
  refine ⟨hf.isPlain, hf'.isPlain, .inr ⟨hf.not_ident, hf'.not_ident⟩, fun m => ?_⟩
  rw [limit_link_access hf.accessed, limit_link_access hf'.accessed]
  refine (h.link m).bind fun target m₁ => ?_
  cases target with
  | none => exact .refl _
  | some v =>
    intro r m₂ hr
    rw [chained_some, hf.found_eq] at hr
    rw [chained_some, hf'.found_eq, isNullish_of_linked hr]
    exact hr

theorem repeatedBy (h : Softens e e') : RepeatedBy e e' := by
  intro m
  rw [limit_expr_of_link, limit_expr_of_link]
  exact (h.link m).bind fun _ _ => .refl _

theorem typeOf (h : Softens e e') (span : Span) : RepeatedBy (.unary span .typeOf e) (.unary span .typeOf e') := by
  intro m
  rcases h.named with rfl | ⟨hident, hident'⟩
  · exact .refl _
  · rw [limit_expr_typeOf hident, limit_expr_typeOf hident']
    exact (h.repeatedBy m).bind fun _ _ => .refl _

theorem globalCall (h : Softens e e') {style style' : AccessStyle} (hspan : style.span = style'.span)
    (object key : String) : RepeatedBy (style.globalCall object key e) (style'.globalCall object key e') := by
  intro m
  unfold AccessStyle.globalCall
  rw [hspan, limit_expr_call, limit_expr_call]
  refine Repeated.bind (.refl _) fun fn m₁ => ?_
  cases fn with
  | none => exact .refl _
  | some fn =>
    dsimp only
    rw [limit_args_cons h.isPlain, limit_args_cons h.isPlain']
    exact ((h.repeatedBy m₁).bind fun _ _ => .refl _).bind fun _ _ => .refl _

end Softens

end Eval

theorem AccessStyle.paired_softens (span : Span) :
    AccessStyle.Paired ⟨span, false⟩ ⟨span, true⟩ Softens RepeatedBy where
  element i h := h.access (isAccess_element ⟨span, false⟩ _ i) (isAccess_element ⟨span, true⟩ _ i)
  field name h := h.access (isAccess_field ⟨span, false⟩ _ name) (isAccess_field ⟨span, true⟩ _ name)
  literal value h := by
    cases value with
    | nan => exact h.globalCall rfl "Number" "isNaN"
    | str | num | bool | bigint | null | undefined => exact h.repeatedBy.binary (.refl _) span .strictEq
  typeTag tag h := by
    unfold TypeTag.test
    cases tag.kindName? with
    | some name => exact (h.typeOf span).binary (.refl _) span .strictEq
    | none => exact h.repeatedBy.binary (.refl _) span .looseEq
  isArray h := h.globalCall rfl "Array" "isArray"
  length least h := by
    have hlength := h.access (isAccess_length ⟨span, false⟩ _) (isAccess_length ⟨span, true⟩ _)
    exact hlength.repeatedBy.binary (.refl _) span .gtEq

/-! ## Where a plain condition stops -/

namespace Eval

/-- A plain access of null or undefined. -/
def NullAccess (m : Machine) (access : Expr) : Prop :=
  ∃ span base key v m', IsAccess span base key false access ∧ v.isNullish = true ∧
    limit (link · base) m = some (.ok (some v), m')

/-- The evaluation of an expression gets to a plain access of null or undefined. -/
def Blocked (m : Machine) (e : Expr) : Prop := ∃ m' access, Reaches m e m' access ∧ NullAccess m' access

/-- An expression that gets to such an access raises the error that there is nothing to read. -/
theorem Blocked.raises {e : Expr} (h : Blocked m e) : ∃ target key span m',
    limit (expr · e) m = some (.error (.type (.unreadable target key) span), m') := by
  obtain ⟨m₁, access, hreaches, span, base, key, v, m₂, haccess, hv, hbase⟩ := h
  refine ⟨m₂.heap.text v, key, span, m₂, hreaches.raises ?_⟩
  rw [limit_expr_of_link, limit_link_access haccess.accessed, hbase]
  simp only [Option.bind_some, andThen_ok, chained_some, haccess.found_eq, Bool.false_and, Bool.false_eq_true,
    if_false, linked, run_getProperty_nullish hv]
  rfl

theorem Blocked.of_reaches {m m' : Machine} {e s : Expr} (h : Blocked m' s)
    (hreaches : ∀ {m₁ : Machine} {t : Expr}, Reaches m' s m₁ t → Reaches m e m₁ t) : Blocked m e := by
  obtain ⟨m₁, access, hs, haccess⟩ := h
  exact ⟨m₁, access, hreaches hs, haccess⟩

/-- In every machine that `m` can have become, the expression is blocked. -/
structure Fails (m : Machine) (e : Expr) : Prop where
  isPlain : ∀ span inner, e ≠ .spread span inner
  blocked : ∀ m₁, m.Spawned m₁ → Blocked m₁ e

namespace Fails

variable {m : Machine} {e : Expr}

theorem access (h : Fails m e) {optional : Bool} {f : Expr}
    (hf : IsAccess span e key optional f) : Fails m f :=
  ⟨hf.isPlain, fun m₁ hs => (h.blocked m₁ hs).of_reaches (.object hf.accessed)⟩

theorem binary (h : Fails m e) (span : Span) (op : BinaryOp) (right : Expr) :
    Fails m (.binary span op e right) :=
  ⟨nofun, fun m₁ hs => (h.blocked m₁ hs).of_reaches (.left span op right)⟩

/-- A name is never blocked. -/
theorem not_ident (h : Fails m e) (span : Span) (name : String) : e ≠ .ident span name := by
  rintro rfl
  obtain ⟨m', access, hreaches, _, base, key, v, _, haccess, _⟩ := h.blocked m (.refl m)
  cases hreaches with
  | here => cases haccess
  | object hobject => cases hobject

theorem typeOf (h : Fails m e) (span : Span) : Fails m (.unary span .typeOf e) :=
  ⟨nofun, fun m₁ hs => (h.blocked m₁ hs).of_reaches (.operand span fun _ => h.not_ident)⟩

theorem globalCall (h : Fails m e) {object key : String} {fn : Native} (hfn : m.Provides object key fn)
    (style : AccessStyle) : Fails m (style.globalCall object key e) := by
  refine ⟨nofun, fun m₁ hs => ?_⟩
  obtain ⟨id, cell, receiver, _, hcallee⟩ := limit_callee_global (hfn.spawned hs) style.span
  exact (h.blocked m₁ hs).of_reaches (.argument style.span [] hcallee h.isPlain)

end Fails

end Eval

/-- All conditions on a path that is blocked are blocked. -/
theorem AccessStyle.tested_fails (hm : m.HasTestGlobals) (style : AccessStyle) :
    style.Tested (Fails m) (Fails m) where
  element i h := h.access (style.isAccess_element _ i)
  field name h := h.access (style.isAccess_field _ name)
  literal value h := by
    cases value with
    | nan => exact h.globalCall hm.isNaN style
    | str | num | bool | bigint | null | undefined => exact h.binary style.span .strictEq _
  typeTag tag h := by
    unfold TypeTag.test
    cases tag.kindName? with
    | some name => exact (h.typeOf style.span).binary style.span .strictEq _
    | none => exact h.binary style.span .looseEq _
  isArray h := h.globalCall hm.isArray style
  length least h := (h.access (style.isAccess_length _)).binary style.span .gtEq _

namespace Eval

/-! ## Plain paths -/

/-- A path without optional accesses that reads a value. -/
structure ReadsPlainly (m : Machine) (e : Expr) (v : Value) : Prop extends Reads m e v where
  goesOn : ∀ m₁, ¬ EndsEarly m₁ e

namespace ReadsPlainly

variable {m : Machine} {e : Expr} {v : Value}

theorem ident {name : String} (h : m.lookup? name = some v) (span : Span) :
    ReadsPlainly m (.ident span name) v := ⟨.ident h span, fun _ => id⟩

/-- As a link, it reads the same. -/
theorem link (h : ReadsPlainly m e v) {m₁ m₂ : Machine} {w : Value}
    (he : limit (expr · e) m₁ = some (.ok w, m₂)) : limit (Eval.link · e) m₁ = some (.ok (some w), m₂) := by
  rw [limit_expr_of_link] at he
  rcases hlink : limit (Eval.link · e) m₁ with _ | ⟨_ | _ | u, m'⟩ <;> rw [hlink] at he <;> cases he
  · exact absurd ((endsEarly_iff m₁ e).mpr ⟨_, hlink⟩) (h.goesOn m₁)
  · rfl

theorem access (h : ReadsPlainly m e v) {f : Expr} (hf : IsAccess span e key false f)
    (hv : v.isNullish = false) : ReadsPlainly m f (m.heap.part v key) := by
  refine ⟨⟨hf.isPlain, fun m₁ hs => ?_⟩, fun m₁ => ?_⟩
  · obtain ⟨w, m₂, hs₂, hw, hrun⟩ := h.gives m₁ hs
    refine ⟨m₂.heap.part w key, m₂.afterRead w key, hs₂.trans (.afterRead m₂ w key), ?_, ?_⟩
    · rw [hw.part_eq]
      exact (hs.trans hs₂).heap.part v key
    · have hpart := run_part span w key m₂
      rw [part, hw.isNullish, hv] at hpart
      rw [limit_expr_of_link, limit_link_access hf.accessed, h.link hrun]
      simp only [Option.bind_some, andThen_ok, chained_some, hf.found_eq, Bool.false_and, Bool.false_eq_true,
        if_false, linked] at hpart ⊢
      rw [hpart]
      rfl
  · cases hf <;> simpa [EndsEarly] using h.goesOn m₁

/-- A plain access of null or undefined. -/
theorem fails (h : ReadsPlainly m e v) {f : Expr} (hf : IsAccess span e key false f)
    (hv : v.isNullish = true) : Fails m f := by
  refine ⟨hf.isPlain, fun m₁ hs => ?_⟩
  obtain ⟨w, m₂, _, hw, hrun⟩ := h.gives m₁ hs
  exact ⟨m₁, f, .here m₁ f, span, e, key, w, m₂, hf, hw.isNullish.trans hv, h.link hrun⟩

/-- The length of an array is compared as a number. -/
theorem atLeast {cell : Nat} (h : ReadsPlainly m e (.array cell)) {style : AccessStyle}
    (hstyle : style.nullSafe = false) (n : Nat) :
    ∃ b, Tests m (.binary style.span .gtEq (style.length e) (.num style.span (.ofNat n))) b := by
  have hlength := h.access (hstyle ▸ style.isAccess_length e) rfl
  let order := (Double.ofNat (m.heap.items cell).length).compare? (.ofNat n)
  refine ⟨order == some .gt || order == some .eq, hlength.operator (fun _ => rfl)
    (fun m₁ _ => limit_expr_literal rfl m₁) fun heap w hw => ?_⟩
  rcases hw with rfl | ⟨_, _, _, hfunction⟩
  · rfl
  · cases hfunction

end ReadsPlainly

/-! ## Conditions in order -/

/-- Conditions that end in a truth value or at a blocked access, where none is asked for after the first that
    fails. -/
inductive Decides (m : Machine) : List Expr → Prop
  | nil : Decides m []
  | fail {e : Expr} (es : List Expr) : Tests m e false → Decides m (e :: es)
  | stop {e : Expr} (es : List Expr) : Fails m e → Decides m (e :: es)
  | cons {e : Expr} {es : List Expr} : Tests m e true → Decides m es → Decides m (e :: es)

namespace Decides

variable {m : Machine} {es fs : List Expr}

theorem single {e : Expr} {b : Bool} (h : Tests m e b) : Decides m [e] := by
  cases b with
  | false => exact .fail [] h
  | true => exact .cons h .nil

theorem of_fails (h : ∀ e ∈ es, Fails m e) : Decides m es := by
  cases es with
  | nil => exact .nil
  | cons e es => exact .stop es (h e List.mem_cons_self)

theorem append (h : Decides m es) (hfs : Decides m fs) : Decides m (es ++ fs) := by
  induction h with
  | nil => exact hfs
  | fail es he => exact .fail (es ++ fs) he
  | stop es he => exact .stop (es ++ fs) he
  | cons he _ ih => exact .cons he ih

end Decides

/-- A condition ends in a truth value or at a blocked access. -/
def Settles (m : Machine) (e : Expr) : Prop := (∃ b, Tests m e b) ∨ Fails m e

theorem Fails.foldl (span : Span) (es : List Expr) : ∀ {a : Expr}, Fails m a →
    Fails m (es.foldl (fun left right => .binary span .and left right) a) := by
  induction es with
  | nil => exact fun h => h
  | cons e es ih => exact fun h => ih (h.binary span .and e)

/-- A condition after one that is true is blocked where it is blocked itself. -/
theorem Fails.and {a e : Expr} (ha : Tests m a true) (he : Fails m e) (span : Span) :
    Fails m (.binary span .and a e) := by
  refine ⟨nofun, fun m₁ hs => ?_⟩
  obtain ⟨m₂, hs₂, hrun⟩ := ha m₁ hs
  exact (he.blocked m₂ (hs.trans hs₂)).of_reaches (.right span hrun (by decide))

theorem Decides.foldl {es : List Expr} (h : Decides m es) (span : Span) : ∀ {a : Expr},
    Tests m a true → Settles m (es.foldl (fun left right => .binary span .and left right) a) := by
  induction h with
  | nil => exact fun ha => .inl ⟨true, ha⟩
  | fail es he =>
    exact fun ha => .inl ⟨false, TestAll.foldl (c := true) span (ha.and (fun _ => he) span) nofun⟩
  | stop es he => exact fun ha => .inr ((Fails.and ha he span).foldl span es)
  | cons he _ ih => exact fun ha => ih (ha.and (fun _ => he) span)

theorem Decides.joined {es : List Expr} (h : Decides m es) {e : Expr}
    (he : Expr.joined? span .and es = some e) : Settles m e := by
  cases h with
  | nil => cases he
  | fail es hfirst =>
    cases he
    exact .inl ⟨false, TestAll.foldl (c := true) span hfirst nofun⟩
  | stop es hfirst =>
    cases he
    exact .inr (hfirst.foldl span es)
  | cons hfirst hrest =>
    cases he
    exact hrest.foldl span hfirst

end Eval

namespace Pattern

variable {m : Machine} {style : AccessStyle}

mutual

/-- The plain conditions of a pattern end in a truth value or at a blocked access. -/
theorem decides_tests (hstyle : style.nullSafe = false) (hm : m.HasTestGlobals) :
    ∀ (p : Pattern) {e : Expr} {v : Value}, ReadsPlainly m e v → Decides m (p.tests style e)
  | literal l, e, v, h => by
    rw [tests]
    exact .single (h.literal hm l)
  | typeTag tag, e, v, h => by
    rw [tests]
    exact .single (h.typeTag tag)
  | array elements, e, v, h => by
    rw [tests]
    have harray : Tests m (style.globalCall "Array" "isArray" e) v.isArray := h.isArray hm
    -- the length and the elements are asked for only after the target has turned out to be an array
    cases v with
    | array cell =>
      refine .cons harray (.append ?_ (decides_elementTests hstyle hm elements 0 h))
      split
      · exact .nil
      · obtain ⟨b, hlength⟩ := h.atLeast hstyle elements.length
        exact .single hlength
    | undefined | null | bool | number | bigint | str | object | function => exact .fail _ harray
  | object fields, e, v, h => by
    rw [tests]
    exact decides_fieldTests hstyle hm fields h
  | select ⟨_, _, none⟩, e, v, h => by
    rw [tests, innerTests]
    exact .nil
  | select ⟨_, _, some p⟩, e, v, h => by
    rw [tests, innerTests]
    exact decides_tests hstyle hm p h
  | wildcard, e, v, h | not _, e, v, h | «when» _, e, v, h | set _, e, v, h | map _ _, e, v, h => by
    rw [tests]
    exact .nil

theorem decides_elementTests (hstyle : style.nullSafe = false) (hm : m.HasTestGlobals) :
    ∀ (ps : List Pattern) (i : Nat) {e : Expr} {cell : Nat}, ReadsPlainly m e (.array cell) →
      Decides m (elementTests style e i ps)
  | [], i, e, cell, h => by
    rw [elementTests]
    exact .nil
  | p :: ps, i, e, cell, h => by
    rw [elementTests]
    have helement := h.access (hstyle ▸ style.isAccess_element e i) rfl
    exact (decides_tests hstyle hm p helement).append (decides_elementTests hstyle hm ps (i + 1) h)

theorem decides_fieldTests (hstyle : style.nullSafe = false) (hm : m.HasTestGlobals) :
    ∀ (fs : List FieldPattern) {e : Expr} {v : Value}, ReadsPlainly m e v → Decides m (fieldTests style e fs)
  | [], e, v, h => by
    rw [fieldTests]
    exact .nil
  | ⟨name, p⟩ :: fs, e, v, h => by
    rw [fieldTests]
    refine .append ?_ (decides_fieldTests hstyle hm fs h)
    have hfield := hstyle ▸ style.isAccess_field e name
    cases hv : v.isNullish with
    | false => exact decides_tests hstyle hm p (h.access hfield hv)
    -- whatever is asked of the field has to read it first
    | true => exact .of_fails (p.forall_tests (style.tested_fails hm) (h.fails hfield hv))

end

/-- As many conditions on both sides leave both without a condition or none. -/
theorem isSome_joined? {es es' : List Expr} {R : Expr → Expr → Prop} (h : List.Forall₂ R es es') (span : Span)
    (op : BinaryOp) : (Expr.joined? span op es).isSome = (Expr.joined? span op es').isSome := by
  cases h <;> rfl

/-- Without null safety, the conditions of a pattern for a name give what the null-safe ones give, wherever they
    give anything. With the built-in globals they always end: they raise an error exactly if they get to an access
    of null or undefined, and otherwise give the same truth value as the null-safe ones. -/
theorem joined_tests_plain (p : Pattern) (span inner : Span) {name : String} {v : Value}
    (hname : m.lookup? name = some v) :
    let plain? := Expr.joined? span .and (p.tests ⟨span, false⟩ (.ident inner name))
    let safe? := Expr.joined? span .and (p.tests ⟨span, true⟩ (.ident inner name))
    plain?.isSome = safe?.isSome ∧ ∀ plain safe, plain? = some plain → safe? = some safe →
      (∀ m₁ w m₂, limit (expr · plain) m₁ = some (.ok w, m₂) → limit (expr · safe) m₁ = some (.ok w, m₂)) ∧
      (m.HasTestGlobals →
        (¬ Blocked m plain ∧ ∃ b m', m.Spawned m' ∧ limit (expr · plain) m = some (.ok (.bool b), m') ∧
          limit (expr · safe) m = some (.ok (.bool b), m')) ∨
        (Blocked m plain ∧ ∃ target key place m',
          limit (expr · plain) m = some (.error (.type (.unreadable target key) place), m'))) := by
  have hpaired := forall₂_tests (AccessStyle.paired_softens span) p (.ident inner name)
  refine ⟨isSome_joined? hpaired span .and, fun plain safe hplain hsafe => ?_⟩
  have hrepeated := RepeatedBy.joined hpaired hplain hsafe
  refine ⟨hrepeated, fun hm => ?_⟩
  have hstyle : AccessStyle.nullSafe ⟨span, false⟩ = false := rfl
  have hdecides := decides_tests hstyle hm p (.ident hname inner)
  rcases hdecides.joined hplain with ⟨b, htests⟩ | hfails
  · -- a condition that gives a truth value was not blocked, as that would have raised an error
    obtain ⟨m', hs, hrun⟩ := htests m (.refl m)
    refine .inl ⟨fun hblocked => ?_, b, m', hs, hrun, hrepeated m _ _ hrun⟩
    obtain ⟨_, _, _, _, hraises⟩ := hblocked.raises
    rw [hrun] at hraises
    cases hraises
  · have hblocked := hfails.blocked m (.refl m)
    exact .inr ⟨hblocked, hblocked.raises⟩

/-- A machine with the name `shape` for null. -/
def nullShapeMachine : Machine := Machine.initial.defined Scopes.outermost "shape" ⟨.null, true⟩

/-- An object whose kind is a square. -/
def squarePattern : Pattern := .object [⟨"kind", .literal (.str "square")⟩]

theorem joined_tests_plain_nullShape :
    (nullShapeMachine.lookup? "shape" = some .null ∧ nullShapeMachine.HasTestGlobals) ∧
    ∃ plain safe,
      Expr.joined? default .and (squarePattern.tests ⟨default, false⟩ (.ident default "shape")) = some plain ∧
      Expr.joined? default .and (squarePattern.tests ⟨default, true⟩ (.ident default "shape")) = some safe ∧
      Blocked nullShapeMachine plain ∧
      (∃ target key place m',
        limit (expr · plain) nullShapeMachine = some (.error (.type (.unreadable target key) place), m')) ∧
      ∃ m', limit (expr · safe) nullShapeMachine = some (.ok (.bool false), m') := by
  have hname : nullShapeMachine.lookup? "shape" = some .null := by decide +kernel
  have hm : nullShapeMachine.HasTestGlobals :=
    { isArray := ⟨1, 0, .undefined, by decide +kernel, by decide +kernel,
        by simp [nullShapeMachine, Machine.defined, Machine.initial_cells]⟩
      isNaN := ⟨3, 2, .undefined, by decide +kernel, by decide +kernel,
        by simp [nullShapeMachine, Machine.defined, Machine.initial_cells]⟩
      undefined := by decide +kernel }
  have hsafe := limit_of_run_ok (m := nullShapeMachine) (growing_expr _) (a := .bool false) 9 (by decide +kernel :
    ((expr 9 (.binary default .strictEq (.member default (.ident default "shape") "kind" true)
      (.str default "square"))).run.run nullShapeMachine).1 = .ok (.bool false))
  have hblocked : Blocked nullShapeMachine (.binary default .strictEq
      (.member default (.ident default "shape") "kind" false) (.str default "square")) := by
    refine ⟨_, _, .left _ _ _ (.here _ _), default, .ident default "shape", "kind", .null, nullShapeMachine,
      .member, rfl, ?_⟩
    rw [limit_link_start rfl, limit_expr_ident hname]
    rfl
  have h := ((joined_tests_plain squarePattern default default hname).2 _ _ rfl rfl).2 hm
  refine ⟨⟨hname, hm⟩, _, _, rfl, rfl, hblocked, ?_, _, hsafe⟩
  rcases h with ⟨hfree, _⟩ | ⟨_, hraises⟩
  · exact absurd hblocked hfree
  · exact hraises

end Pattern

end MatchChain
