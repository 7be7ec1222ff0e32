import Mathlib.Data.List.TakeWhile
import Mathlib.Tactic.Linarith
import Mathlib.Tactic.Ring
import MatchChain.Eval.Operator
import MatchChain.Number.Style

/-!
# Integers that are exact

Below `2 ^ 53` every integer is a number of the language: it is compared as the integer that it is,
its text is its decimal digits, and the text as a key names the position back.

The value `n` with `2 ^ l ≤ n < 2 ^ (l + 1)` has the significand `n * 2 ^ (52 - l)`, so the reals that
round to it hold no other integer, and a decimal with an exponent that is not negative reads back
only if it is `n` itself.
-/

set_option autoImplicit false

namespace MatchChain

variable {n : Nat}

namespace Double

theorem roundHalfEven_one (n : Nat) : roundHalfEven n 1 = n := by
  simp [roundHalfEven, Nat.mod_one]

theorem le_roundHalfEven (num den : Nat) : num / den ≤ roundHalfEven num den := by
  simp only [roundHalfEven]
  split_ifs <;> omega

theorem ratioLog2_one (h : n ≠ 0) : ratioLog2 n 1 = n.log2 := by
  have hle : 2 ^ n.log2 ≤ n := Nat.log2_self_le h
  have hone : Nat.log2 1 = 0 := by decide
  simp [ratioLog2, hone, Nat.not_lt.mpr hle]

/-! ## The magnitude of an integer -/

section Exact

variable {n : Nat}

theorem log2_le_of_lt (hn : n < 2 ^ 53) : n.log2 ≤ 52 := by
  by_cases h : n = 0
  · subst h
    decide
  · exact Nat.lt_succ_iff.mp ((Nat.log2_lt h).mpr hn)

theorem significand_ge (h : n ≠ 0) (hn : n < 2 ^ 53) : 2 ^ 52 ≤ n * 2 ^ (52 - n.log2) := by
  have hl := log2_le_of_lt hn
  calc 2 ^ 52 = 2 ^ n.log2 * 2 ^ (52 - n.log2) := by rw [← pow_add]; congr 1; omega
    _ ≤ n * 2 ^ (52 - n.log2) := Nat.mul_le_mul_right _ (Nat.log2_self_le h)

theorem significand_lt (hn : n < 2 ^ 53) : n * 2 ^ (52 - n.log2) < 2 ^ 53 := by
  have hl := log2_le_of_lt hn
  calc n * 2 ^ (52 - n.log2) < 2 ^ (n.log2 + 1) * 2 ^ (52 - n.log2) :=
        Nat.mul_lt_mul_of_pos_right Nat.lt_log2_self (Nat.two_pow_pos _)
    _ = 2 ^ 53 := by rw [← pow_add]; congr 1; omega

theorem ofNat_eq (h : n ≠ 0) (hn : n < 2 ^ 53) :
    ofNat n = ⟨false, (n.log2 + 1022) * 2 ^ 52 + n * 2 ^ (52 - n.log2)⟩ := by
  have hl := log2_le_of_lt hn
  have hm := significand_lt hn
  have hq : max ((n.log2 : Int) - 52) (-1074) = (n.log2 : Int) - 52 := by omega
  have hneg : (-((n.log2 : Int) - 52)).toNat = 52 - n.log2 := by omega
  have hpos : ((n.log2 : Int) - 52).toNat = 0 := by omega
  have hexp : ((n.log2 : Int) - 52 + 1074).toNat = n.log2 + 1022 := by omega
  simp only [ofNat, ofRatio, Nat.pow_eq, h, if_false, ratioLog2_one h, hq, hneg, hpos, hexp, pow_zero, mul_one,
    roundHalfEven_one]
  congr 1
  refine Nat.min_eq_left ?_
  rw [infinityMagnitude, Nat.pow_eq]
  omega

theorem exact_eq {d : Double} {exponent significand : Nat} (h : exponent ≠ 0)
    (hdiv : d.magnitude / 2 ^ 52 = exponent)
    (hmod : 2 ^ 52 + d.magnitude % 2 ^ 52 = significand) :
    d.exact = ⟨significand, (exponent : Int) - 1075⟩ := by
  subst hdiv hmod
  exact if_neg h

/-- The exact value of an integer: a full significand and a scale that takes it back. -/
theorem exact_ofNat (h : n ≠ 0) (hn : n < 2 ^ 53) :
    (ofNat n).exact = ⟨n * 2 ^ (52 - n.log2), (n.log2 : Int) - 52⟩ := by
  have hlo := significand_ge h hn
  have hhi := significand_lt hn
  have hdiv : ((n.log2 + 1022) * 2 ^ 52 + n * 2 ^ (52 - n.log2)) / 2 ^ 52 = n.log2 + 1023 := by omega
  have hmod : 2 ^ 52 + ((n.log2 + 1022) * 2 ^ 52 + n * 2 ^ (52 - n.log2)) % 2 ^ 52
      = n * 2 ^ (52 - n.log2) := by omega
  have hscale : ((n.log2 + 1023 : Nat) : Int) - 1075 = (n.log2 : Int) - 52 := by omega
  rw [ofNat_eq h hn, exact_eq (Nat.succ_ne_zero _) hdiv hmod, hscale]

theorem exact_ofNat_num (h : n ≠ 0) (hn : n < 2 ^ 53) :
    (ofNat n).exact.num = n * 2 ^ (52 - n.log2) := by
  have hl := log2_le_of_lt hn
  have hs : ((n.log2 : Int) - 52).toNat = 0 := by omega
  simp [exact_ofNat h hn, Exact.num, hs]

theorem exact_ofNat_den (h : n ≠ 0) (hn : n < 2 ^ 53) :
    (ofNat n).exact.den = 2 ^ (52 - n.log2) := by
  have hl := log2_le_of_lt hn
  have hs : (-((n.log2 : Int) - 52)).toNat = 52 - n.log2 := by omega
  simp only [exact_ofNat h hn, Exact.den, Nat.pow_eq, hs]

end Exact

/-! ## Comparison -/

@[simp] theorem ofNat_zero : ofNat 0 = zero := rfl

theorem ofNat_negative (n : Nat) : (ofNat n).negative = false := by
  unfold ofNat ofRatio
  split <;> rfl

@[simp] theorem ofNat_isNaN (n : Nat) : (ofNat n).isNaN = false := by
  have h : (ofNat n).magnitude ≤ infinityMagnitude := by
    unfold ofNat ofRatio
    split
    · exact Nat.zero_le _
    · exact Nat.min_le_right _ _
  simpa [isNaN] using h

theorem ofNat_rank (n : Nat) : (ofNat n).rank = (ofNat n).magnitude := by
  simp [rank, ofNat_negative]

theorem magnitude_lt {n k : Nat} (h : n < k) (hk : k < 2 ^ 53) :
    (ofNat n).magnitude < (ofNat k).magnitude := by
  have hk0 : k ≠ 0 := by omega
  have hlo := significand_ge hk0 hk
  rw [ofNat_eq hk0 hk]
  by_cases hn : n = 0
  · subst hn
    simp only [ofNat_zero, zero]
    omega
  · have hhi := significand_lt (h.trans hk)
    rw [ofNat_eq hn (h.trans hk)]
    dsimp only
    -- either both lie between the same powers of two, or the magnitudes do not overlap
    rcases Nat.lt_or_ge n.log2 k.log2 with hl | hl
    · omega
    · have heq : n.log2 = k.log2 := by
        refine Nat.le_antisymm ?_ hl
        exact (Nat.le_log2 hk0).mpr ((Nat.log2_self_le hn).trans h.le)
      rw [heq]
      exact Nat.add_lt_add_left (Nat.mul_lt_mul_of_pos_right h (Nat.two_pow_pos _)) _

/-- An integer too large to be exact is larger than every smaller one. -/
theorem magnitude_ofNat_large (h : 2 ^ 53 ≤ n) :
    1076 * 2 ^ 52 ≤ (ofNat n).magnitude := by
  have h0 : n ≠ 0 := by omega
  have hl : 53 ≤ n.log2 := (Nat.le_log2 h0).mpr h
  have hq : max ((n.log2 : Int) - 52) (-1074) = (n.log2 : Int) - 52 := by omega
  have hneg : (-((n.log2 : Int) - 52)).toNat = 0 := by omega
  have hpos : ((n.log2 : Int) - 52).toNat = n.log2 - 52 := by omega
  have hexp : ((n.log2 : Int) - 52 + 1074).toNat = n.log2 + 1022 := by omega
  have hdiv : 2 ^ 52 ≤ n / 2 ^ (n.log2 - 52) := by
    rw [Nat.le_div_iff_mul_le (Nat.two_pow_pos _), ← pow_add]
    have hsum : 52 + (n.log2 - 52) = n.log2 := by omega
    rw [hsum]
    exact Nat.log2_self_le h0
  have hround := hdiv.trans (le_roundHalfEven n (2 ^ (n.log2 - 52)))
  simp only [ofNat, ofRatio, Nat.pow_eq, h0, if_false, ratioLog2_one h0, hq, hneg, hpos, hexp, pow_zero, mul_one,
    one_mul]
  refine Nat.le_min.mpr ⟨?_, by decide⟩
  omega

theorem magnitude_ofNat_lt (h : n < 2 ^ 53) : (ofNat n).magnitude < 1076 * 2 ^ 52 := by
  by_cases hn : n = 0
  · subst hn
    decide
  · have hl := log2_le_of_lt h
    have hhi := significand_lt h
    rw [ofNat_eq hn h]
    dsimp only
    omega

theorem magnitude_le_iff {n k : Nat} (hk : k < 2 ^ 53) :
    (ofNat k).magnitude ≤ (ofNat n).magnitude ↔ k ≤ n := by
  constructor
  · intro h
    by_contra hlt
    exact absurd (magnitude_lt (Nat.lt_of_not_le hlt) hk) (Nat.not_lt.mpr h)
  · intro h
    rcases h.eq_or_lt with rfl | hlt
    · exact Nat.le_refl _
    · rcases Nat.lt_or_ge n (2 ^ 53) with hn | hn
      · exact (magnitude_lt hlt hn).le
      · exact ((magnitude_ofNat_lt hk).trans_le (magnitude_ofNat_large hn)).le

/-- A count compares with an exact integer as the integers do. -/
theorem ofNat_ge_ofNat {n k : Nat} (hk : k < 2 ^ 53) :
    ((ofNat n).compare? (ofNat k) == some .gt || (ofNat n).compare? (ofNat k) == some .eq)
      = decide (k ≤ n) := by
  have hcmp : (ofNat n).compare? (ofNat k)
      = some (compare ((ofNat n).magnitude : Int) ((ofNat k).magnitude : Int)) := by
    simp only [compare?, ofNat_isNaN, Bool.or_self, Bool.false_eq_true, if_false, ofNat_rank]
  have hle := magnitude_le_iff (n := n) hk
  rw [hcmp, Bool.eq_iff_iff, decide_eq_true_iff, ← hle]
  rcases Nat.lt_trichotomy (ofNat n).magnitude (ofNat k).magnitude with h | h | h
  · have hc : compare ((ofNat n).magnitude : Int) ((ofNat k).magnitude : Int) = .lt :=
      compare_lt_iff_lt.mpr (by exact_mod_cast h)
    simp [hc, h]
  · simp [h]
  · have hc : compare ((ofNat n).magnitude : Int) ((ofNat k).magnitude : Int) = .gt :=
      compare_gt_iff_gt.mpr (by exact_mod_cast h)
    simp [hc, h.le]

/-! ## Text -/

/-- A decimal without a fraction reads back as an integer only if it is that integer: the reals that
    round to the integer reach no further than half way to the next one. -/
theorem readsBack_ofNat (h : n ≠ 0) (hn : n < 2 ^ 53) (digits unit : Nat) :
    (ofNat n).readsBack ⟨digits, unit⟩ = decide (digits * 10 ^ unit = n) := by
  have hl := log2_le_of_lt hn
  have hneg : (-((n.log2 : Int) - 52 - 2)).toNat = 54 - n.log2 := by omega
  have hpos : ((n.log2 : Int) - 52 - 2).toNat = 0 := by omega
  have hunit : (-(unit : Int)).toNat = 0 := by omega
  -- the interval in quarters of the last place, of which an integer is at least four apart
  have hfour : 4 * (n * 2 ^ (52 - n.log2)) = n * 2 ^ (54 - n.log2) := by
    have : 54 - n.log2 = 52 - n.log2 + 2 := by omega
    rw [this, pow_add]
    ring
  have hstep : 4 ≤ 2 ^ (54 - n.log2) :=
    Nat.pow_le_pow_right (n := 2) (by decide) (show 2 ≤ 54 - n.log2 by omega)
  simp only [readsBack, exact_ofNat h hn, Decimal.compareBinary, Nat.pow_eq, hneg, hpos, hunit, hfour, pow_zero,
    mul_one, Int.toNat_natCast]
  generalize digits * 10 ^ unit = d
  generalize 2 ^ (54 - n.log2) = t at hstep
  rcases Nat.lt_trichotomy d n with hd | hd | hd
  · have hle : d * t + t ≤ n * t := by
      calc d * t + t = (d + 1) * t := by ring
        _ ≤ n * t := Nat.mul_le_mul_right t hd
    have hlo : ∀ c ≤ 2, compare (d * t) (n * t - c) = .lt := fun c hc =>
      compare_lt_iff_lt.mpr (by omega)
    have hlow : compare (d * t) (n * t - if (n * 2 ^ (52 - n.log2) == 2 ^ 52 &&
        decide (-1074 < (n.log2 : Int) - 52)) = true then 1 else 2) = .lt := by
      split <;> exact hlo _ (by omega)
    rw [hlow]
    simp [Nat.ne_of_lt hd]
  · subst hd
    have hpos : t ≤ d * t := Nat.le_mul_of_pos_left t (Nat.pos_of_ne_zero h)
    have hlow : compare (d * t) (d * t - if (d * 2 ^ (52 - d.log2) == 2 ^ 52 &&
        decide (-1074 < (d.log2 : Int) - 52)) = true then 1 else 2) = .gt := by
      split <;> exact compare_gt_iff_gt.mpr (by omega)
    have hhigh : compare (d * t) (d * t + 2) = .lt := compare_lt_iff_lt.mpr (by omega)
    rw [hlow, hhigh]
    simp
  · have hle : n * t + t ≤ d * t := by
      calc n * t + t = (n + 1) * t := by ring
        _ ≤ d * t := Nat.mul_le_mul_right t hd
    have hhigh : compare (d * t) (n * t + 2) = .gt := compare_gt_iff_gt.mpr (by omega)
    rw [hhigh]
    simp [Nat.ne_of_gt hd]

/-- On a grid of whole numbers an integer is hit exactly. -/
theorem onGrid?_ofNat (h : n ≠ 0) (hn : n < 2 ^ 53) (tie : Tie) (unit : Nat) :
    (ofNat n).onGrid? tie unit
      = if n / 10 ^ unit * 10 ^ unit = n then some ⟨n / 10 ^ unit, unit⟩ else none := by
  have hunit : (-(unit : Int)).toNat = 0 := by omega
  have hdiv : n * 2 ^ (52 - n.log2) / (2 ^ (52 - n.log2) * 10 ^ unit) = n / 10 ^ unit := by
    rw [Nat.mul_comm n, Nat.mul_div_mul_left _ _ (Nat.two_pow_pos _)]
  have habove : (n / 10 ^ unit + 1) * 10 ^ unit ≠ n := by
    exact Nat.ne_of_gt (Nat.lt_mul_of_div_lt (Nat.lt_succ_self _) (Nat.pow_pos (Nat.succ_pos 9)))
  simp only [onGrid?, Nat.pow_eq, exact_ofNat_num h hn, exact_ofNat_den h hn, hunit, Int.toNat_natCast, pow_zero,
    mul_one, hdiv, readsBack_ofNat h hn, habove]
  by_cases hit : n / 10 ^ unit * 10 ^ unit = n <;> simp [hit]

/-- The shortest decimal of an integer is the integer, with some of its last zeros taken off. -/
theorem shortest_ofNat (h : n ≠ 0) (hn : n < 2 ^ 53) (tie : Tie) :
    ∃ digits unit : Nat, (ofNat n).shortest tie = ⟨digits, unit⟩ ∧ digits * 10 ^ unit = n := by
  obtain ⟨last, hlast⟩ : ∃ last, (Nat.toDigits 10 n).length = last + 1 :=
    Nat.exists_eq_add_one.mpr Nat.length_toDigits_pos
  have hwidth : last + 1 ≤ 17 := by
    rw [← hlast, Nat.length_toDigits_le_iff (by decide) (by decide)]
    exact hn.trans (by decide)
  have hlead : Decimal.leadingExponent (ofNat n).exact.num (ofNat n).exact.den = last := by
    rw [exact_ofNat_num h hn, exact_ofNat_den h hn, Decimal.leadingExponent, if_pos,
      Nat.mul_div_cancel _ (Nat.two_pow_pos _), Decimal.width, if_neg h, hlast]
    · omega
    · exact Nat.le_mul_of_pos_left _ (Nat.pos_of_ne_zero h)
  have hsplit : List.range 17 = List.range (last + 1) ++ (List.range (17 - (last + 1))).map
      (last + 1 + ·) := by
    rw [← List.range_add, Nat.add_sub_cancel' hwidth]
  have hgrid : ∀ j ∈ List.range (last + 1), (ofNat n).onGrid? tie (last - j : Int)
      = if n / 10 ^ (last - j) * 10 ^ (last - j) = n
        then some ⟨n / 10 ^ (last - j), (last - j : Nat)⟩ else none := by
    intro j hj
    have hle : j ≤ last := Nat.lt_succ_iff.mp (List.mem_range.mp hj)
    rw [← onGrid?_ofNat h hn, Nat.cast_sub hle]
  -- the grid of ones is hit, so the search ends at a grid of whole numbers
  have hfound : ((List.range (last + 1)).findSome? fun (j : Nat) =>
      (ofNat n).onGrid? tie (last - j)).isSome := by
    rw [List.findSome?_isSome_iff]
    refine ⟨last, List.mem_range.mpr (Nat.lt_succ_self _), ?_⟩
    rw [hgrid last (List.mem_range.mpr (Nat.lt_succ_self _))]
    simp
  obtain ⟨d, hd⟩ := Option.isSome_iff_exists.mp hfound
  obtain ⟨j, hj, hit⟩ := List.exists_of_findSome?_eq_some hd
  rw [hgrid j hj] at hit
  split at hit
  · rename_i hexact
    refine ⟨n / 10 ^ (last - j), last - j, ?_, hexact⟩
    simp only [shortest, hlead]
    rw [hsplit, List.findSome?_append, hd]
    exact (Option.some.inj hit).symm
  · cases hit

end Double

namespace NumberStyle

theorem toDigits_mul_pow {d : Nat} (h : d ≠ 0) (unit : Nat) :
    Nat.toDigits 10 (d * 10 ^ unit) = Nat.toDigits 10 d ++ zeros unit := by
  induction unit with
  | zero => simp [zeros]
  | succ unit ih =>
    have hpos : 0 < d * 10 ^ unit := Nat.mul_pos (Nat.pos_of_ne_zero h) (Nat.pow_pos (by decide))
    have hstep := Nat.toDigits_append_toDigits (b := 10) (d := 0) (by decide) hpos (by decide)
    have hmul : d * 10 ^ (unit + 1) = 10 * (d * 10 ^ unit) + 0 := by
      rw [pow_succ]
      ring
    rw [hmul, ← hstep, ih, Nat.toDigits_zero, List.append_assoc, zeros, zeros, List.replicate_succ']

/-- Digits are what is left without their last zeros, and those zeros. -/
theorem stripped_append_zeros (ds : List Char) :
    ∃ n, ds = (ds.reverse.dropWhile (· == '0')).reverse ++ zeros n := by
  have htake : ds.reverse.takeWhile (· == '0')
      = zeros (ds.reverse.takeWhile (· == '0')).length :=
    List.eq_replicate_of_mem fun c hc => by simpa using List.mem_takeWhile_imp hc
  refine ⟨(ds.reverse.takeWhile (· == '0')).length, ?_⟩
  calc ds = (ds.reverse.takeWhile (· == '0') ++ ds.reverse.dropWhile (· == '0')).reverse := by
        rw [List.takeWhile_append_dropWhile, List.reverse_reverse]
    _ = _ := by
        rw [List.reverse_append, htake, zeros, List.reverse_replicate, List.length_replicate, zeros]

/-- A whole number that is short enough is laid out as its digits, whichever of its last zeros the
    decimal has. -/
theorem layout_whole (style : NumberStyle) (hpoint : style.pointZero = false)
    (hfrom : style.plainFrom ≤ 0) {digits : Nat} (unit : Nat) (h : digits ≠ 0)
    (hbelow : ((Nat.toDigits 10 (digits * 10 ^ unit)).length : Int) ≤ style.plainBelow) :
    style.layout (significant ⟨digits, unit⟩).1 (significant ⟨digits, unit⟩).2
      = Nat.toDigits 10 (digits * 10 ^ unit) := by
  have hpos : 0 < (Nat.toDigits 10 digits).length := Nat.length_toDigits_pos
  obtain ⟨n, hn⟩ := stripped_append_zeros (Nat.toDigits 10 digits)
  have hlen := congrArg List.length hn
  rw [toDigits_mul_pow h] at hbelow ⊢
  simp only [significant]
  generalize hstripped : ((Nat.toDigits 10 digits).reverse.dropWhile (· == '0')).reverse = ds at *
  simp only [List.length_append, zeros, List.length_replicate] at hlen hbelow
  have hlead : ((Nat.toDigits 10 digits).length : Int) - 1 + unit
      = ((Nat.toDigits 10 digits).length - 1 + unit : Nat) := by omega
  have hwhole : (Nat.toDigits 10 digits).length - 1 + unit + 1 - ds.length = n + unit := by omega
  unfold layout
  rw [hlead, if_pos ⟨by omega, by omega⟩, if_neg (by omega)]
  dsimp only
  rw [Int.toNat_natCast, if_pos (by omega), hwhole, hpoint, hn]
  simp [zeros]

end NumberStyle

namespace Double

/-- The text of an exact integer is its digits. -/
theorem text_ofNat (hn : n < 2 ^ 53) :
    (ofNat n).text = String.ofList (Nat.toDigits 10 n) := by
  by_cases h : n = 0
  · subst h
    decide +kernel
  · obtain ⟨digits, unit, hshort, hexact⟩ := shortest_ofNat h hn .up
    have hd : digits ≠ 0 := by
      rintro rfl
      exact h (by rw [← hexact, Nat.zero_mul])
    have hwidth : (Nat.toDigits 10 n).length ≤ 16 :=
      (Nat.length_toDigits_le_iff (by decide) (by decide)).mpr (hn.trans (by decide))
    have hlayout := NumberStyle.layout_whole .runtime rfl (by decide) unit hd
      (by rw [hexact]; exact (Int.ofNat_le.mpr hwidth).trans (by decide))
    have hmag := magnitude_ofNat_lt hn
    have hinf : (ofNat n).isInfinite = false := by
      have : (ofNat n).magnitude ≠ infinityMagnitude := by
        rw [infinityMagnitude, Nat.pow_eq]
        omega
      simpa [isInfinite] using this
    have hzero : (ofNat n).isZero = false := by
      have := magnitude_lt (Nat.pos_of_ne_zero h) hn
      have : (ofNat n).magnitude ≠ 0 := by omega
      simpa [isZero] using this
    rw [hexact] at hlayout
    have hrender : (ofNat n).text = String.ofList (NumberStyle.runtime.layout
        (NumberStyle.significant ((ofNat n).shortest .up)).1
        (NumberStyle.significant ((ofNat n).shortest .up)).2) := by
      simp [text, NumberStyle.render, hinf, hzero, ofNat_negative, NumberStyle.runtime]
    rw [hrender, hshort, hlayout]

end Double

/-- The text of an exact integer, as a key, names the position. -/
theorem Text.index?_text_ofNat (hn : n < 2 ^ 53) :
    Text.index? (Double.ofNat n).text = some n := by
  have hne : Nat.toDigits 10 n ≠ [] := Nat.toDigits_ne_nil
  have hdigit : ∀ c ∈ Nat.toDigits 10 n, c.isDigit := fun c hc =>
    Nat.isDigit_of_mem_toDigits (by decide) (by decide) hc
  have hvalue := Nat.ofDigitChars_ten_toDigits (n := n)
  rw [Nat.ofDigitChars_eq_foldl] at hvalue
  have hword : n < 2 ^ 64 := hn.trans (by decide)
  rw [Double.text_ofNat hn, Text.index?, String.toList_ofList]
  cases hds : Nat.toDigits 10 n with
  | nil => exact absurd hds hne
  | cons c cs =>
    rw [hds] at hdigit hvalue
    have hplus : c ≠ '+' := by
      rintro rfl
      exact absurd (hdigit '+' (List.mem_cons_self ..)) (by decide)
    have hall : (c :: cs).all Char.isDigit = true := List.all_eq_true.mpr hdigit
    split
    · rename_i heq
      exact absurd (List.cons.inj heq).1 hplus
    · dsimp only
      rw [hvalue, hall, Nat.pow_eq, if_pos hword]
      rfl

end MatchChain
