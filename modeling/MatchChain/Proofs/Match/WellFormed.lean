import MatchChain.Match.Reading

/-!
# Match expressions that are read from chains

What reading a chain promises of the match expression that it gives: its subject is a single value, and
every branch has an alternative.
-/

set_option autoImplicit false

namespace MatchChain

/-- The subject is not spread, and no branch is without alternatives. -/
structure MatchExpr.WellFormed (e : MatchExpr) : Prop where
  subject : ∀ span inner, e.subject ≠ .spread span inner
  alternatives : ∀ b ∈ e.branches, b.patterns ≠ []

/-- A computation that succeeded did so in each of its steps. -/
theorem exists_of_bind_eq_ok {ε α β : Type} {x : Except ε α} {f : α → Except ε β} {b : β}
    (h : x >>= f = .ok b) : ∃ a, x = .ok a ∧ f a = .ok b := by
  cases x with
  | error => cases h
  | ok a => exact ⟨a, rfl, h⟩

namespace MatchNames

variable {names : MatchNames}

theorem splitGuard_ne_nil {args : List Expr} (h : args ≠ []) : (splitGuard args).1 ≠ [] := by
  unfold splitGuard
  split
  · split <;> exact nofun
  · exact h

theorem mapM_ne_nil {ε α β : Type} {f : α → Except ε β} {as : List α} {bs : List β} (has : as ≠ [])
    (h : as.mapM f = .ok bs) : bs ≠ [] := by
  cases as with
  | nil => exact absurd rfl has
  | cons a as =>
    rw [List.mapM_cons] at h
    obtain ⟨b, _, h⟩ := exists_of_bind_eq_ok h
    obtain ⟨bs', _, h⟩ := exists_of_bind_eq_ok h
    cases h
    exact nofun

theorem branch_patterns_ne_nil {args : List Expr} {span : Span} {b : Branch}
    (h : branch names args span = .ok b) : b.patterns ≠ [] := by
  unfold branch at h
  split at h
  · rename_i handler first others _
    obtain ⟨patterns, hpatterns, h⟩ := exists_of_bind_eq_ok h
    have hargs : (first :: others).reverse ≠ [] := List.reverse_ne_nil_iff.mpr nofun
    have hne := mapM_ne_nil (splitGuard_ne_nil hargs) hpatterns
    dsimp only at h
    split at h
    · cases h
    · cases h
      exact hne
  · cases h

theorem subject_ne_spread {root : Call} {e : Expr} (h : subject root = .ok e) (span : Span)
    (inner : Expr) : e ≠ .spread span inner := by
  rintro rfl
  unfold subject plainArgs at h
  cases hspread : root.args.find? Expr.isSpread with
  | some arg =>
    rw [hspread] at h
    cases h
  | none =>
    have hplain := List.find?_eq_none.mp hspread
    rcases hargs : root.args with _ | ⟨arg, _ | ⟨_, _⟩⟩ <;> rw [hspread, hargs] at h <;> cases h
    exact hplain _ (hargs ▸ List.mem_cons_self) rfl

end MatchNames

end MatchChain
