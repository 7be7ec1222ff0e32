import Mathlib.Algebra.Ring.Nat
import Mathlib.Data.List.TakeWhile
import MatchChain.Eval.Interpreter
import MatchChain.Match.Reading

/-!
# Numeric keys

A number can be a key of an object pattern, where it stands for a field, and of an object literal, where it
names a property. Either name is the text of the number, but a running program writes large and small numbers
with an exponent and the reading of patterns writes them out. So the two names are the same exactly for NaN,
for zero, and for numbers whose leading digit is worth `10 ^ -7` to `10 ^ 20`.
-/

set_option autoImplicit false

namespace MatchChain

namespace NumberStyle

/-! ## Layouts -/

theorem isDigit_of_mem_significant {d : Decimal} {c : Char} (h : c ∈ (significant d).1) : c.isDigit = true := by
  refine Nat.isDigit_of_mem_toDigits (b := 10) (n := d.digits) (by decide) (by decide) ?_
  have hsuffix := List.dropWhile_suffix (l := (Nat.toDigits 10 d.digits).reverse) (· == '0')
  exact List.mem_reverse.mp (hsuffix.subset (List.mem_reverse.mp h))

variable {style : NumberStyle} {ds : List Char} {lead : Int}

/-- A number that is written out has no exponent. -/
theorem e_not_mem_layout (hplain : style.plainFrom ≤ lead ∧ lead < style.plainBelow)
    (hds : ∀ c ∈ ds, c.isDigit = true) : 'e' ∉ style.layout ds lead := by
  have hdigits : 'e' ∉ ds := fun h => absurd (hds 'e' h) (by decide)
  have hzeros : ∀ n, 'e' ∉ zeros n := by simp [zeros]
  unfold layout
  rw [if_pos hplain]
  split
  · simp [hdigits, hzeros]
  · dsimp only
    split
    · split <;> simp [hdigits, hzeros]
    · intro h
      rcases List.mem_append.mp h with h | h
      · exact hdigits (List.mem_of_mem_take h)
      · exact hdigits (List.mem_of_mem_drop (List.mem_of_ne_of_mem (by decide) h))

theorem e_mem_layout (h : ¬ (style.plainFrom ≤ lead ∧ lead < style.plainBelow)) : 'e' ∈ style.layout ds lead := by
  unfold layout
  rw [if_neg h]
  exact List.mem_append.mpr (.inr List.mem_cons_self)

/-- Fields and properties are written alike from `10 ^ -7` to `10 ^ 20`. Beyond that only a property has an
    exponent, and beyond `10 ^ 399` only a property has a sign in it. -/
theorem layout_fieldName_iff (hds : ∀ c ∈ ds, c.isDigit = true) (hlead : -400 ≤ lead) :
    fieldName.layout ds lead = runtime.layout ds lead ↔ -7 ≤ lead ∧ lead < 21 := by
  have hruntime : (runtime.plainFrom ≤ lead ∧ lead < runtime.plainBelow) ↔ -7 ≤ lead ∧ lead < 21 := Iff.rfl
  by_cases hplain : -7 ≤ lead ∧ lead < 21
  · refine iff_of_true ?_ hplain
    have hfield : fieldName.plainFrom ≤ lead ∧ lead < fieldName.plainBelow := ⟨hlead, by
      show lead < 400
      omega⟩
    unfold layout
    rw [if_pos hfield, if_pos (hruntime.mpr hplain)]
    rfl
  · refine iff_of_false (fun heq => ?_) hplain
    have he : 'e' ∈ runtime.layout ds lead := e_mem_layout (hruntime.not.mpr hplain)
    by_cases hfield : lead < 400
    · have hno : 'e' ∉ fieldName.layout ds lead := e_not_mem_layout ⟨hlead, hfield⟩ hds
      rw [← heq] at he
      exact hno he
    · have hfieldName : ¬ (fieldName.plainFrom ≤ lead ∧ lead < fieldName.plainBelow) := fun h => hfield h.2
      have hpositive : ¬ lead < 0 := by omega
      unfold layout at heq
      rw [if_neg hfieldName, if_neg (hruntime.not.mpr hplain)] at heq
      have hlength := congrArg List.length (List.append_cancel_left heq)
      simp [hpositive, fieldName, runtime] at hlength

end NumberStyle

namespace Double

/-! ## The leading digit -/

/-- The exponent of the leading digit of the shortest decimal. -/
def lead (x : Double) : Int := (NumberStyle.significant (x.shortest .up)).2

theorem exponent_of_onGrid? {tie : Tie} {x : Double} {unit : Int} {d : Decimal} (h : x.onGrid? tie unit = some d) :
    d.exponent = unit := by
  simp only [onGrid?] at h
  repeat' split at h
  all_goals
    cases h
    try rfl

theorem den_lt (x : Double) {k : Nat} (hk : 358 ≤ k) : x.exact.den < 10 ^ k := by
  have hscale : -1074 ≤ x.exact.scale := by
    unfold exact
    dsimp only
    split
    · exact Int.le_refl _
    · rename_i hne
      have := Nat.pos_of_ne_zero hne
      dsimp only
      omega
  have hpow : 2 ^ (3 * k) < 10 ^ k := by
    rw [Nat.pow_mul]
    exact Nat.pow_lt_pow_left (by decide) (by omega)
  exact Nat.lt_of_le_of_lt (Nat.pow_le_pow_right (by decide) (by omega)) hpow

/-- No number is so small that its leading digit is beyond the 358th decimal place. -/
theorem leadingExponent_ge (x : Double) : -358 ≤ Decimal.leadingExponent x.exact.num x.exact.den := by
  have hwidth : ∀ n ≤ x.exact.den, Decimal.width n ≤ 358 := by
    intro n hn
    unfold Decimal.width
    split
    · exact Nat.zero_le _
    · generalize hk : 358 = k
      exact (Nat.length_toDigits_le_iff (by decide) (by omega)).mpr (Nat.lt_of_le_of_lt hn (x.den_lt hk.le))
  unfold Decimal.leadingExponent
  split
  · omega
  · generalize x.exact.num = num
    have hle : (x.exact.den + num - 1) / num ≤ x.exact.den + 1 := by
      rcases Nat.eq_zero_or_pos num with rfl | hpos
      · simp
      · refine Nat.div_le_of_le_mul ?_
        have := Nat.le_mul_of_pos_left x.exact.den hpos
        rw [Nat.mul_succ]
        omega
    have := hwidth ((x.exact.den + num - 1) / num - 1) (by omega)
    omega

theorem lead_ge (x : Double) : -400 ≤ x.lead := by
  have hlead := x.leadingExponent_ge
  have hdigits : ∀ d : Decimal, d.exponent ≤ (NumberStyle.significant d).2 := by
    intro d
    have hpos : 0 < (Nat.toDigits 10 d.digits).length := Nat.length_toDigits_pos
    simp only [NumberStyle.significant]
    omega
  refine Int.le_trans ?_ (hdigits (x.shortest .up))
  unfold shortest
  dsimp only
  cases hfound : (List.range 17).findSome? fun (n : Nat) =>
      x.onGrid? .up (Decimal.leadingExponent x.exact.num x.exact.den - n) with
  | none => exact show (-400 : Int) ≤ 0 by decide
  | some d =>
    obtain ⟨n, hn, hgrid⟩ := List.exists_of_findSome?_eq_some hfound
    rw [Option.getD_some, exponent_of_onGrid? hgrid]
    have := List.mem_range.mp hn
    omega

/-! ## Names -/

/-- A number that names the same field of a pattern and property of an object. -/
def IsCommonKey (x : Double) : Prop :=
  x.isNaN = true ∨ x = zero ∨ (x.isFinite = true ∧ x.isZero = false ∧ -7 ≤ x.lead ∧ x.lead < 21)

instance (x : Double) : Decidable x.IsCommonKey := inferInstanceAs (Decidable (_ ∨ _ ∨ _))

theorem keyName_eq_text_iff (x : Double) : x.keyName = x.text ↔ x.IsCommonKey := by
  obtain ⟨negative, magnitude⟩ := x
  unfold keyName fieldText text NumberStyle.render IsCommonKey
  by_cases hnan : isNaN ⟨negative, magnitude⟩ = true
  · simp [hnan]
  by_cases hinf : isInfinite ⟨negative, magnitude⟩ = true
  · have hmagnitude : magnitude = infinityMagnitude := by simpa [isInfinite] using hinf
    have hne : NumberStyle.fieldName.infinity ≠ NumberStyle.runtime.infinity := by decide
    have hfinite : isFinite ⟨negative, magnitude⟩ = false := by simp [isFinite, hmagnitude]
    have hzero : (⟨negative, magnitude⟩ : Double) ≠ zero := by
      rintro ⟨⟩
      exact absurd hmagnitude (by decide)
    simpa [hnan, hinf, hfinite, hzero] using hne
  have hfinite : isFinite ⟨negative, magnitude⟩ = true := by
    simp only [isNaN, isInfinite, isFinite, decide_eq_true_eq, beq_iff_eq] at hnan hinf ⊢
    omega
  by_cases hzero : isZero ⟨negative, magnitude⟩ = true
  · obtain rfl : magnitude = 0 := by simpa [isZero] using hzero
    cases negative <;> decide
  · have hne : (⟨negative, magnitude⟩ : Double) ≠ zero := by
      rintro ⟨⟩
      exact hzero rfl
    have hlayout := NumberStyle.layout_fieldName_iff
      (fun c => NumberStyle.isDigit_of_mem_significant (d := shortest .up ⟨negative, magnitude⟩))
      (lead_ge ⟨negative, magnitude⟩)
    simp only [hnan, hinf, hzero, hne, hfinite, Bool.false_eq_true, if_false, false_or, true_and,
      String.append_right_inj, String.ofList_inj]
    exact hlayout

end Double

/-- **A numeric key names the same field of a pattern as property of an object exactly if it is a common key.** -/
theorem MatchNames.fieldName?_num_iff (x : Double) (steps : Nat) (m : Machine) :
    (∃ name, fieldName? (.num x) = some name ∧ (Eval.propKey (steps + 1) (.num x)).run.run m = (.ok name, m)) ↔
      x.IsCommonKey := by
  rw [← x.keyName_eq_text_iff]
  constructor
  · rintro ⟨name, hfield, hproperty⟩
    have htext : (.ok x.text : Except Halt String) = .ok name := congrArg Prod.fst hproperty
    exact (Option.some.inj hfield).trans (Except.ok.inj htext).symm
  · intro h
    exact ⟨x.keyName, rfl, by rw [h]; rfl⟩

/-- The key `1e21` stands for the field `1000000000000000000000` of a pattern and for the property `1e+21`. -/
theorem MatchNames.fieldName?_largeKey :
    fieldName? (.num (.ofDecimal false 1 21)) = some "1000000000000000000000" ∧
      (Double.ofDecimal false 1 21).text = "1e+21" ∧ ¬ (Double.ofDecimal false 1 21).IsCommonKey := by
  decide +kernel

end MatchChain
