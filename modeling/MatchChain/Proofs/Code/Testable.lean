import MatchChain.Code.Test

/-!
# Patterns that have a test

Reading a clause and generating its code each walk a pattern and stop at a kind that has no test. The
two walks agree, and both pass a pattern exactly if no such kind occurs in it at any depth.
-/

set_option autoImplicit false

namespace MatchChain

namespace Pattern

/-- Whether a pattern itself is of a kind that has no test. -/
def isUntestable : Pattern → Bool
  | not _ | when _ | set _ | map _ _ => true
  | literal _ | typeTag _ | wildcard | array _ | object _ | select _ => false

/-- One pattern is another or occurs in it, at any depth. -/
inductive Within (q : Pattern) : Pattern → Prop where
  | self : Within q q
  | element {p : Pattern} {ps : List Pattern} : p ∈ ps → Within q p → Within q (array ps)
  | field {f : FieldPattern} {fs : List FieldPattern} :
      f ∈ fs → Within q f.pattern → Within q (object fs)
  | select {span : Span} {name : Option String} {p : Pattern} :
      Within q p → Within q (select ⟨span, name, some p⟩)
  | not {p : Pattern} : Within q p → Within q (not p)
  | set {p : Pattern} : Within q p → Within q (set p)
  | key {p value : Pattern} : Within q p → Within q (map p value)
  | value {key p : Pattern} : Within q p → Within q (map key p)

/-- No part of a pattern is of a kind that has no test. -/
def Testable (p : Pattern) : Prop := ∀ q : Pattern, q.Within p → q.isUntestable = false

/-! ## Testable patterns by their parts -/

theorem not_testable_of_isUntestable {p : Pattern} (h : p.isUntestable = true) : ¬ p.Testable := by
  intro htestable
  have hself := htestable p .self
  rw [h] at hself
  cases hself

theorem testable_array {ps : List Pattern} : (array ps).Testable ↔ ∀ p ∈ ps, p.Testable := by
  constructor
  · exact fun h p hp q hq => h q (.element hp hq)
  · intro h q hq
    cases hq with
    | self => rfl
    | element hp hq => exact h _ hp q hq

theorem testable_object {fs : List FieldPattern} :
    (object fs).Testable ↔ ∀ f ∈ fs, f.pattern.Testable := by
  constructor
  · exact fun h f hf q hq => h q (.field hf hq)
  · intro h q hq
    cases hq with
    | self => rfl
    | field hf hq => exact h _ hf q hq

theorem testable_select {s : Select} : (select s).Testable ↔ ∀ p, s.inner = some p → p.Testable := by
  constructor
  · intro h p hp q hq
    obtain ⟨span, name, inner⟩ := s
    cases hp
    exact h q (.select hq)
  · intro h q hq
    cases hq with
    | self => rfl
    | select hq => exact h _ rfl q hq

theorem testable_leaf {p : Pattern} (hself : p.isUntestable = false)
    (hparts : ∀ q : Pattern, q.Within p → q = p) : p.Testable := by
  intro q hq
  rw [hparts q hq, hself]

/-! ## The walk that reads clauses -/

mutual

theorem unsupported?_eq_none_iff : ∀ p : Pattern, p.unsupported? = none ↔ p.Testable
  | literal _ => by
    rw [unsupported?]
    exact iff_of_true rfl (testable_leaf rfl fun q hq => by cases hq; rfl)
  | typeTag _ => by
    rw [unsupported?]
    exact iff_of_true rfl (testable_leaf rfl fun q hq => by cases hq; rfl)
  | wildcard => by
    rw [unsupported?]
    exact iff_of_true rfl (testable_leaf rfl fun q hq => by cases hq; rfl)
  | array ps => by
    rw [unsupported?, testable_array]
    exact listUnsupported?_eq_none_iff ps
  | object fs => by
    rw [unsupported?, testable_object]
    exact fieldUnsupported?_eq_none_iff fs
  | select s => by
    rw [unsupported?, testable_select]
    exact innerUnsupported?_eq_none_iff s
  | not _ => by
    rw [unsupported?]
    exact iff_of_false nofun (not_testable_of_isUntestable rfl)
  | when _ => by
    rw [unsupported?]
    exact iff_of_false nofun (not_testable_of_isUntestable rfl)
  | set _ => by
    rw [unsupported?]
    exact iff_of_false nofun (not_testable_of_isUntestable rfl)
  | map _ _ => by
    rw [unsupported?]
    exact iff_of_false nofun (not_testable_of_isUntestable rfl)

theorem listUnsupported?_eq_none_iff :
    ∀ ps : List Pattern, listUnsupported? ps = none ↔ ∀ p ∈ ps, p.Testable
  | [] => by simp [listUnsupported?]
  | p :: ps => by
    rw [listUnsupported?, Option.or_eq_none_iff, unsupported?_eq_none_iff p,
      listUnsupported?_eq_none_iff ps, List.forall_mem_cons]

theorem fieldUnsupported?_eq_none_iff :
    ∀ fs : List FieldPattern, fieldUnsupported? fs = none ↔ ∀ f ∈ fs, f.pattern.Testable
  | [] => by simp [fieldUnsupported?]
  | ⟨_, p⟩ :: fs => by
    rw [fieldUnsupported?, Option.or_eq_none_iff, unsupported?_eq_none_iff p,
      fieldUnsupported?_eq_none_iff fs, List.forall_mem_cons]

theorem innerUnsupported?_eq_none_iff :
    ∀ s : Select, innerUnsupported? s = none ↔ ∀ p, s.inner = some p → p.Testable
  | ⟨_, _, none⟩ => by simp [innerUnsupported?]
  | ⟨_, _, some p⟩ => by
    rw [innerUnsupported?, unsupported?_eq_none_iff p]
    simp

end

/-! ## The walk that generates code -/

/-- Two checks in a row pass exactly if each of them does. -/
theorem bind_eq_ok_iff {ε : Type} {x : Except ε Unit} {f : Unit → Except ε Unit} :
    x >>= f = .ok () ↔ x = .ok () ∧ f () = .ok () := by
  cases x with
  | error => exact iff_of_false nofun fun h => nomatch h.1
  | ok => exact ⟨fun h => ⟨rfl, h⟩, fun h => h.2⟩

theorem checkTestable_eq_ok_iff (span : Span) (p : Pattern) :
    p.checkTestable span = .ok () ↔ p.unsupported? = none := by
  apply checkTestable.induct (fun p => p.checkTestable span = .ok () ↔ p.unsupported? = none)
    (fun s => checkInner span s = .ok () ↔ innerUnsupported? s = none)
    (fun fs => checkFields span fs = .ok () ↔ fieldUnsupported? fs = none)
    (fun ps => checkElements span ps = .ok () ↔ listUnsupported? ps = none)
  all_goals
    intros
    simp_all [checkTestable, checkInner, checkFields, checkElements, unsupported?, innerUnsupported?,
      fieldUnsupported?, listUnsupported?, bind_eq_ok_iff]

theorem forM_checkTestable_eq_ok_iff (span : Span) (ps : List Pattern) :
    ps.forM (checkTestable span) = .ok () ↔ ∀ p ∈ ps, p.unsupported? = none := by
  induction ps with
  | nil => exact iff_of_true rfl nofun
  | cons p ps ih =>
    rw [List.forall_mem_cons, ← checkTestable_eq_ok_iff span p, ← ih]
    exact bind_eq_ok_iff

end Pattern

end MatchChain
