import Mathlib.Data.List.Induction
import MatchChain.Proofs.Match.Clauses

/-!
# Which expressions are chains

Flattening succeeds on the expressions of the form `matcher(…).m₁(…).….mₖ(…)` in which no link is
optional, as long as there are not too many calls, and it returns the calls of that form from the root
on. `Nested` is the form, counted by its links, and `Linked` says of a list of calls where it starts,
where it ends and how one call leads to the next.
-/

set_option autoImplicit false

namespace MatchChain.Chain

variable {calls : List Call} {e : Expr}

/-- A call of the matcher inside `k` calls of members, none of them optional. -/
inductive Nested (matcher : String) : (k : Nat) → Expr → Prop where
  | root (span s : Span) (args : List Expr) :
      Nested matcher 0 (.call span (.ident s matcher) args false)
  | link {k : Nat} {object : Expr} (span s : Span) (property : String) (args : List Expr) :
      Nested matcher k object →
      Nested matcher (k + 1) (.call span (.member s object property false) args false)

/-- Calls from one of the matcher to an expression, each on what the one before it gives. -/
structure Linked (matcher : String) (calls : List Call) (e : Expr) : Prop where
  root : ∃ span s args, calls.head? = some ⟨span, .ident s matcher, args⟩
  last : calls.getLast?.map Call.toExpr = some e
  link : ∀ (i : Nat) (c d : Call), calls[i]? = some c → calls[i + 1]? = some d →
    ∃ s property, d.callee = .member s c.toExpr property false

variable {matcher : String}

/-- The links of a chain are its calls after the root. -/
theorem nested_iff_spells {k : Nat} :
    Nested matcher k e ↔ ∃ calls, Spells matcher calls e ∧ calls.length = k + 1 := by
  constructor
  · intro h
    induction h with
    | root span s args => exact ⟨_, .root span s args, rfl⟩
    | link span s property args _ ih =>
      obtain ⟨calls, hcalls, hlength⟩ := ih
      exact ⟨_, .link span s property args hcalls, by rw [List.length_append, hlength]; rfl⟩
  · rintro ⟨calls, hcalls, hlength⟩
    induction hcalls generalizing k with
    | root span s args =>
      obtain rfl : k = 0 := by simpa using hlength.symm
      exact .root span s args
    | @link calls object span s property args hcalls ih =>
      -- the calls before the last are at least the root, so there is a link to take off
      have hpos := List.length_pos_iff.mpr hcalls.ne_nil
      rw [List.length_append, List.length_singleton] at hlength
      obtain ⟨k, rfl⟩ : ∃ j, k = j + 1 := ⟨k - 1, by omega⟩
      exact .link span s property args (ih (by omega))

/-- A call after the last one is linked if it is on the expression that the calls lead to. -/
theorem Linked.concat {object : Expr} (h : Linked matcher calls object)
    (span s : Span) (property : String) (args : List Expr) :
    Linked matcher (calls ++ [⟨span, .member s object property false, args⟩])
      (.call span (.member s object property false) args false) := by
  obtain ⟨⟨rootSpan, rootName, rootArgs, hroot⟩, hlast, hlink⟩ := h
  obtain ⟨before, hbefore, rfl⟩ := Option.map_eq_some_iff.mp hlast
  refine ⟨⟨rootSpan, rootName, rootArgs, ?_⟩, ?_, ?_⟩
  · rw [List.head?_append, hroot, Option.some_or]
  · rw [List.getLast?_concat]
    rfl
  · intro i c d hc hd
    have hi := (List.getElem?_eq_some_iff.mp hd).1
    rw [List.length_append, List.length_singleton] at hi
    rw [List.getElem?_append_left (by omega)] at hc
    by_cases hnext : i + 1 < calls.length
    · rw [List.getElem?_append_left hnext] at hd
      exact hlink i c d hc hd
    · have hend : calls.length = i + 1 := by omega
      rw [← hend, List.getElem?_concat_length] at hd
      rw [List.getLast?_eq_getElem?, hend, Nat.add_sub_cancel, hc] at hbefore
      cases hd
      cases hbefore
      exact ⟨s, property, rfl⟩

/-- Without the last call, linked calls lead to the object that it is on. -/
theorem Linked.dropLast {c : Call} (h : Linked matcher (calls ++ [c]) e)
    (hne : calls ≠ []) :
    ∃ object s property, Linked matcher calls object ∧ c.callee = .member s object property false := by
  have hpos := List.length_pos_iff.mpr hne
  obtain ⟨before, hbefore⟩ : ∃ before, calls.getLast? = some before :=
    ⟨_, List.getLast?_eq_some_getLast hne⟩
  have hfront : ∀ i, i < calls.length → (calls ++ [c])[i]? = calls[i]? :=
    fun i hi => List.getElem?_append_left hi
  obtain ⟨s, property, hcallee⟩ := h.link (calls.length - 1) before c
    (by rw [hfront _ (by omega), ← List.getLast?_eq_getElem?, hbefore])
    (by rw [Nat.sub_add_cancel hpos, List.getElem?_concat_length])
  refine ⟨before.toExpr, s, property, ⟨?_, by rw [hbefore]; rfl, ?_⟩, hcallee⟩
  · obtain ⟨span, name, args, hroot⟩ := h.root
    exact ⟨span, name, args, by rwa [List.head?_append_of_ne_nil _ hne] at hroot⟩
  · intro i c' d hc hd
    have hi := (List.getElem?_eq_some_iff.mp hd).1
    refine h.link i c' d ?_ ?_
    · rwa [hfront i (by omega)]
    · rwa [hfront (i + 1) hi]

theorem linked_of_spells (h : Spells matcher calls e) :
    Linked matcher calls e := by
  induction h with
  | root span s args =>
    refine ⟨⟨span, s, args, rfl⟩, rfl, ?_⟩
    intro i c d _ hd
    cases hd
  | link span s property args _ ih => exact ih.concat span s property args

/-- Linked calls are those that the expression chains. -/
theorem spells_of_linked (h : Linked matcher calls e) :
    Spells matcher calls e := by
  -- the expression is fixed by the last call, so the calls are taken off from the end
  induction calls using List.reverseRecOn generalizing e with
  | nil =>
    obtain ⟨_, _, _, hroot⟩ := h.root
    cases hroot
  | append_singleton calls c ih =>
    have hlast := h.last
    rw [List.getLast?_concat] at hlast
    cases hlast
    by_cases hne : calls = []
    · obtain ⟨span, s, args, hroot⟩ := h.root
      subst hne
      cases hroot
      exact .root span s args
    · obtain ⟨object, s, property, hlinked, hcallee⟩ := h.dropLast hne
      obtain ⟨span, callee, args⟩ := c
      dsimp only at hcallee
      subst hcallee
      exact .link span s property args (ih hlinked)

/-- **Flattening is exact.** It succeeds on the chains of at most 4096 calls and on nothing else. The
    calls that it returns are as many as the links and the root; they start at the root and end at the
    given expression, and each is on a member of the one before. No other list of calls is like that. -/
theorem flatten_exact (matcher : String) (e : Expr) :
    ((flatten matcher e).isSome = true ↔ ∃ k, Nested matcher k e ∧ k + 1 ≤ 4096) ∧
      ∀ calls, flatten matcher e = some calls ↔
        ∃ k, Nested matcher k e ∧ k + 1 ≤ 4096 ∧ calls.length = k + 1 ∧ Linked matcher calls e := by
  constructor
  · rw [Option.isSome_iff_exists]
    constructor
    · rintro ⟨calls, hcalls⟩
      obtain ⟨hspells, hlength⟩ := flatten_eq_some_iff.mp hcalls
      have hpos := List.length_pos_iff.mpr hspells.ne_nil
      have hcount : calls.length = calls.length - 1 + 1 := by omega
      exact ⟨_, nested_iff_spells.mpr ⟨calls, hspells, hcount⟩, hcount ▸ hlength⟩
    · rintro ⟨k, hnested, hk⟩
      obtain ⟨calls, hspells, hlength⟩ := nested_iff_spells.mp hnested
      exact ⟨calls, flatten_eq_some_iff.mpr ⟨hspells, hlength ▸ hk⟩⟩
  · intro calls
    rw [flatten_eq_some_iff]
    constructor
    · rintro ⟨hspells, hlength⟩
      have hpos := List.length_pos_iff.mpr hspells.ne_nil
      have hcount : calls.length = calls.length - 1 + 1 := by omega
      exact ⟨_, nested_iff_spells.mpr ⟨calls, hspells, hcount⟩, hcount ▸ hlength, hcount,
        linked_of_spells hspells⟩
    · rintro ⟨k, -, hk, hlength, hlinked⟩
      exact ⟨spells_of_linked hlinked, hlength ▸ hk⟩

end MatchChain.Chain
