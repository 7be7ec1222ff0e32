import Mathlib.Data.List.Forall2
import MatchChain.Code.Generate

/-!
# What tests and captures are made of

The tests of a pattern read components of one expression, and its captures are such components. So what
holds of the expression, and of every component if of what it is a component of, holds of all that is
captured, and what holds of a single test holds of the condition of a branch. The same goes for two styles
of access: what relates two expressions, and their components, relates the tests one by one.
-/

set_option autoImplicit false

namespace MatchChain

variable {P Q : Expr → Prop}

namespace AccessStyle

/-- A property that components inherit. -/
structure Inherited (style : AccessStyle) (P : Expr → Prop) : Prop where
  element : ∀ {e : Expr} (position : Nat), P e → P (style.element e position)
  field : ∀ {e : Expr} (name : String), P e → P (style.field e name)

/-- A property `Q` that single tests have of anything with such a property. -/
structure Tested (style : AccessStyle) (P Q : Expr → Prop) : Prop extends style.Inherited P where
  literal : ∀ {e : Expr} (value : LiteralPattern), P e → Q (value.test style e)
  typeTag : ∀ {e : Expr} (tag : TypeTag), P e → Q (tag.test style e)
  isArray : ∀ {e : Expr}, P e → Q (style.globalCall "Array" "isArray" e)
  length : ∀ {e : Expr} (least : Nat), P e →
    Q (.binary style.span .gtEq (style.length e) (.num style.span (.ofNat least)))

/-- A relation `S` between the single tests of two styles, for anything between which there is a relation that
    components inherit. -/
structure Paired (style style' : AccessStyle) (R S : Expr → Expr → Prop) : Prop where
  element : ∀ {e e' : Expr} (position : Nat), R e e' → R (style.element e position) (style'.element e' position)
  field : ∀ {e e' : Expr} (name : String), R e e' → R (style.field e name) (style'.field e' name)
  literal : ∀ {e e' : Expr} (value : LiteralPattern), R e e' → S (value.test style e) (value.test style' e')
  typeTag : ∀ {e e' : Expr} (tag : TypeTag), R e e' → S (tag.test style e) (tag.test style' e')
  isArray : ∀ {e e' : Expr}, R e e' →
    S (style.globalCall "Array" "isArray" e) (style'.globalCall "Array" "isArray" e')
  length : ∀ {e e' : Expr} (least : Nat), R e e' →
    S (.binary style.span .gtEq (style.length e) (.num style.span (.ofNat least)))
      (.binary style'.span .gtEq (style'.length e') (.num style'.span (.ofNat least)))

end AccessStyle

namespace Pattern

variable {style style' : AccessStyle} {R S : Expr → Expr → Prop}

theorem forall₂_tests (h : style.Paired style' R S) {target target' : Expr} (p : Pattern) (ht : R target target') :
    List.Forall₂ S (p.tests style target) (p.tests style' target') := by
  revert target' ht
  apply tests.induct style
    (fun target p => ∀ {target'}, R target target' → List.Forall₂ S (p.tests style target) (p.tests style' target'))
    (fun target s => ∀ {target'}, R target target' →
      List.Forall₂ S (innerTests style target s) (innerTests style' target' s))
    (fun target fs => ∀ {target'}, R target target' →
      List.Forall₂ S (fieldTests style target fs) (fieldTests style' target' fs))
    (fun target position ps => ∀ {target'}, R target target' →
      List.Forall₂ S (elementTests style target position ps) (elementTests style' target' position ps))
  case case3 =>
    intro target elements ih target' ht
    rw [tests, tests]
    refine List.rel_append (.cons (h.isArray ht) ?_) (ih ht)
    split
    · exact .nil
    · exact .cons (h.length elements.length ht) .nil
  case case14 =>
    intro target position p ps hp hps target' ht
    exact List.rel_append (hp (h.element position ht)) (hps ht)
  case case16 =>
    intro target name p fs hp hfs target' ht
    exact List.rel_append (hp (h.field name ht)) (hfs ht)
  all_goals
    intros
    simp_all [tests, innerTests, fieldTests, elementTests, h.literal, h.typeTag]

theorem forall_tests (h : style.Tested P Q) {target : Expr} (p : Pattern) (ht : P target) :
    ∀ t ∈ p.tests style target, Q t := by
  have hpaired : style.Paired style (fun e e' => e = e' ∧ P e) (fun t _ => Q t) :=
    { element := fun position he => ⟨congrArg (style.element · position) he.1, h.element position he.2⟩
      field := fun name he => ⟨congrArg (style.field · name) he.1, h.field name he.2⟩
      literal := fun value he => h.literal value he.2
      typeTag := fun tag he => h.typeTag tag he.2
      isArray := fun he => h.isArray he.2
      length := fun least he => h.length least he.2 }
  have htests := List.forall₂_same.mp (forall₂_tests hpaired p ⟨rfl, ht⟩)
  exact htests

theorem forall_captures (h : style.Inherited P) {target : Expr} (p : Pattern) (ht : P target) :
    ∀ c ∈ p.captures style target, P c.value := by
  revert ht
  apply captures.induct style (fun target p => P target → ∀ c ∈ p.captures style target, P c.value)
    (fun target s => P target → ∀ c ∈ innerCaptures style target s, P c.value)
    (fun target fs => P target → ∀ c ∈ fieldCaptures style target fs, P c.value)
    (fun target position ps => P target → ∀ c ∈ elementCaptures style target position ps, P c.value)
  all_goals
    intros
    grind [captures, innerCaptures, fieldCaptures, elementCaptures, h.element, h.field]

end Pattern

/-- What operands have and operations inherit, operands have when they are joined. -/
theorem Expr.forall_joined? {span : Span} {op : BinaryOp}
    (hop : ∀ {left right : Expr}, Q left → Q right → Q (.binary span op left right)) {es : List Expr} {e : Expr}
    (h : Expr.joined? span op es = some e) (hes : ∀ t ∈ es, Q t) : Q e := by
  cases es with
  | nil => cases h
  | cons first es =>
    cases h
    induction es generalizing first with
    | nil => exact hes first List.mem_cons_self
    | cons e es ih =>
      obtain ⟨hfirst, hrest⟩ := List.forall_mem_cons.mp hes
      obtain ⟨he, hes⟩ := List.forall_mem_cons.mp hrest
      exact ih (.binary span op first e) (List.forall_mem_cons.mpr ⟨hop hfirst he, hes⟩)

namespace Emission

variable {em : Emission}

theorem forall_alternatives? (h : em.style.Tested P Q)
    (hop : ∀ op {left right : Expr}, Q left → Q right → Q (.binary em.span op left right))
    (hsubject : P em.subject) {patterns : List Pattern} {e : Expr} (he : em.alternatives? patterns = some e) : Q e := by
  unfold alternatives? at he
  dsimp only at he
  split at he
  · cases he
  · refine Expr.forall_joined? (hop .or) he fun t ht => ?_
    obtain ⟨p, _, htests⟩ : ∃ p ∈ patterns, Expr.joined? em.span .and (p.tests em.style em.subject) = some t := by
      simpa using ht
    exact Expr.forall_joined? (hop .and) htests (p.forall_tests h hsubject)

/-- The condition of a branch is its tests, or the call of its guard after them if there are any. -/
theorem condition?_cases {b : Branch} {e : Expr} (h : em.condition? b = some e) :
    b.guard = none ∧ em.alternatives? b.patterns = some e ∨
      ∃ guard, b.guard = some guard ∧ (e = .call em.span guard [em.subject] false ∨ ∃ test,
        em.alternatives? b.patterns = some test ∧
          e = .binary em.span .and test (.call em.span guard [em.subject] false)) := by
  unfold condition? at h
  cases hguard : b.guard with
  | none => exact .inl ⟨rfl, by simpa [hguard] using h⟩
  | some guard => cases htest : em.alternatives? b.patterns <;> simp_all

end Emission

end MatchChain
