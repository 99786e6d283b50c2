import Simplex.Number.Shortest
import Simplex.Proofs.Number.Rounding
/-! The digits that name a double. The decimal that is printed for `m · 2 ^ q` lies in the interval
    of what rounds to it, whatever count of digits it has; with seventeen digits the grid of
    decimals is finer than the interval, so one is always found. -/

namespace Simplex.Decimal

theorem width_pos (n : ℕ) : 0 < width n := Nat.length_toDigits_pos

theorem lt_pow_width (n : ℕ) : n < 10 ^ width n :=
  (Nat.length_toDigits_le_iff (by decide) (width_pos n)).1 le_rfl

theorem pow_le_of_lt_width {n k : ℕ} (hn : 0 < n) (hk : k < width n) : 10 ^ k ≤ n := by
  obtain rfl | hpos := k.eq_zero_or_pos
  · exact hn
  · by_contra! hlt
    have := (Nat.length_toDigits_le_iff (by decide) hpos).2 hlt
    exact absurd hk (not_lt.2 this)

theorem width_eq {n k : ℕ} (hlow : 10 ^ k ≤ n) (hhigh : n < 10 ^ (k + 1)) : width n = k + 1 := by
  refine le_antisymm ((Nat.length_toDigits_le_iff (by decide) k.succ_pos).2 hhigh) ?_
  by_contra! hlt
  have hless : n < 10 ^ k := (lt_pow_width n).trans_le (Nat.pow_le_pow_right (by decide) (by omega))
  omega

theorem width_mul_pow {n : ℕ} (hn : 0 < n) (j : ℕ) : width (n * 10 ^ j) = width n + j := by
  obtain ⟨k, hk⟩ := Nat.exists_eq_add_one.2 (width_pos n)
  have hlow : 10 ^ k ≤ n := pow_le_of_lt_width hn (by omega)
  have hhigh : n < 10 ^ (k + 1) := hk ▸ lt_pow_width n
  rw [hk, Nat.add_right_comm]
  refine width_eq ?_ ?_
  · rw [pow_add]
    exact Nat.mul_le_mul_right _ hlow
  · rw [Nat.add_right_comm, pow_add]
    exact Nat.mul_lt_mul_of_pos_right hhigh (by positivity)

/-- The number that a decimal stands for. -/
def value (d : Decimal) : ℚ := d.digits * 10 ^ (d.point - width d.digits)

theorem value_mk (n : ℕ) (point : ℤ) : value ⟨n, point⟩ = n * 10 ^ (point - width n) := rfl

theorem exists_stripZeros (fuel : ℕ) {n : ℕ} (hn : 0 < n) :
    ∃ j, n = stripZeros fuel n * 10 ^ j := by
  induction fuel generalizing n with
  | zero => exact ⟨0, (Nat.mul_one n).symm⟩
  | succ fuel ih =>
    rw [stripZeros]
    split_ifs with h
    · obtain ⟨j, hj⟩ := ih (n := n / 10) (by omega)
      refine ⟨j + 1, ?_⟩
      rw [pow_succ, ← mul_assoc, ← hj]
      omega
    · exact ⟨0, (Nat.mul_one n).symm⟩

/-- Leaving the last zeros out does not change the number. -/
theorem value_stripZeros (fuel : ℕ) {n : ℕ} (hn : 0 < n) (p : ℤ) :
    0 < stripZeros fuel n ∧ value ⟨stripZeros fuel n, width n + p⟩ = n * 10 ^ p := by
  obtain ⟨j, hj⟩ := exists_stripZeros fuel hn
  generalize stripZeros fuel n = k at hj
  have hk : 0 < k := Nat.pos_of_mul_pos_right (hj ▸ hn)
  refine ⟨hk, ?_⟩
  rw [value, hj, width_mul_pow hk]
  push_cast
  rw [mul_assoc, ← zpow_natCast, ← zpow_add₀ (by norm_num)]
  congr 2
  ring

/-- The sides that `rounds` compares, as one quotient. -/
theorem scaled_div_unit (q : ℤ) (d : ℕ) (p : ℤ) :
    ((d * pow10 p.toNat * pow2 (2 - q).toNat : ℕ) : ℚ) /
    (pow10 (-p).toNat * pow2 (q - 2).toNat : ℕ) =
      4 * (d * 10 ^ p / 2 ^ q) := by
  have h2 : (4 : ℚ) / 2 ^ q = 2 ^ (2 - q) := by
    rw [zpow_sub₀ two_ne_zero]
    norm_num
  rw [mul_div_assoc', mul_comm 4, mul_div_assoc, h2, zpow_eq_div (by norm_num : (10 : ℚ) ≠ 0),
    zpow_eq_div two_ne_zero (2 - q), neg_sub]
  simp only [pow2, pow10, Nat.pow_eq, Nat.cast_mul, Nat.cast_pow, Nat.cast_ofNat]
  field_simp

theorem bounds_fst {m : ℕ} (hm : 0 < m) (q : ℤ) :
    ((bounds m q).1 : ℚ) = 4 * (m - Binary.gapBelow m q) := by
  rw [bounds, Binary.gapBelow]
  change ((if m = 2 ^ 52 ∧ q ≠ -1074 then 4 * m - 1 else 4 * m - 2 : ℕ) : ℚ) = _
  split_ifs
  · rw [Nat.cast_sub (by omega)]
    push_cast
    ring
  · rw [Nat.cast_sub (by omega)]
    push_cast
    ring

theorem bounds_snd (m : ℕ) (q : ℤ) : ((bounds m q).2 : ℚ) = 4 * (m + 1 / 2) := by
  rw [bounds]
  push_cast
  ring

/-- The test for naming a double compares with the ends of the interval of what rounds to it. -/
theorem rounds_iff {m : ℕ} (hm : 0 < m) (q : ℤ) (d : ℕ) (p : ℤ) :
    rounds m q d p = true ↔ Binary.RoundsTo m q (d * 10 ^ p) := by
  have hscaled := scaled_div_unit q d p
  have hunit : 0 < pow10 (-p).toNat * pow2 (q - 2).toNat :=
    Nat.mul_pos (Nat.pow_pos (by decide)) (Nat.pow_pos (by decide))
  have hlow := bounds_fst hm q
  have hhigh := bounds_snd m q
  rw [rounds]
  dsimp only
  -- from here only the two quotients count, not how they were scaled to integers
  generalize d * pow10 p.toNat * pow2 (2 - q).toNat = scaled at hscaled
  generalize pow10 (-p).toNat * pow2 (q - 2).toNat = unit at hscaled hunit
  generalize bounds m q = ends at hlow hhigh
  obtain ⟨low, high⟩ := ends
  dsimp only at hlow hhigh
  have hpos : (0 : ℚ) < 2 ^ q := by positivity
  have hunit' : (0 : ℚ) < unit := by exact_mod_cast hunit
  generalize (d : ℚ) * 10 ^ p = x at hscaled
  have hlow_le : low * unit ≤ scaled ↔ (m - Binary.gapBelow m q) * 2 ^ q ≤ x := by
    rw [← Nat.cast_le (α := ℚ), Nat.cast_mul, ← le_div_iff₀ hunit', hscaled, hlow,
      mul_le_mul_iff_right₀ (by norm_num), le_div_iff₀ hpos]
  have hhigh_le : scaled ≤ high * unit ↔ x ≤ (m + 1 / 2) * 2 ^ q := by
    rw [← Nat.cast_le (α := ℚ), Nat.cast_mul, ← div_le_iff₀ hunit', hscaled, hhigh,
      mul_le_mul_iff_right₀ (by norm_num), div_le_iff₀ hpos]
  have hlow_lt : low * unit < scaled ↔ (m - Binary.gapBelow m q) * 2 ^ q < x := by
    rw [← Nat.cast_lt (α := ℚ), Nat.cast_mul, ← lt_div_iff₀ hunit', hscaled, hlow,
      mul_lt_mul_iff_right₀ (by norm_num), lt_div_iff₀ hpos]
  have hhigh_lt : scaled < high * unit ↔ x < (m + 1 / 2) * 2 ^ q := by
    rw [← Nat.cast_lt (α := ℚ), Nat.cast_mul, ← div_lt_iff₀ hunit', hscaled, hhigh,
      mul_lt_mul_iff_right₀ (by norm_num), div_lt_iff₀ hpos]
  -- an even m also takes the two ends of its interval
  split_ifs with heven
  · rw [Bool.and_eq_true, decide_eq_true_iff, decide_eq_true_iff, hlow_le, hhigh_le]
    exact ⟨fun h => ⟨h.1, h.2, fun _ => heven⟩, fun h => ⟨h.low, h.high⟩⟩
  · rw [Bool.and_eq_true, decide_eq_true_iff, decide_eq_true_iff, hlow_lt, hhigh_lt]
    refine ⟨fun h => ⟨h.1.le, h.2.le, ?_⟩, fun h => ⟨?_, ?_⟩⟩
    · rintro (rfl | rfl)
      · exact absurd h.1 (lt_irrefl _)
      · exact absurd h.2 (lt_irrefl _)
    · exact lt_of_le_of_ne h.low fun heq => heven (h.tie (Or.inl heq.symm))
    · exact lt_of_le_of_ne h.high fun heq => heven (h.tie (Or.inr heq))

/-- The first digit of a positive quotient has the position `pointOf` gives, or a smaller one. -/
theorem pow_pointOf_le {num den : ℕ} (hnum : 0 < num) (hden : 0 < den) :
    (10 : ℚ) ^ (pointOf num den - 1) ≤ num / den := by
  have hnum' : (0 : ℚ) < num := by exact_mod_cast hnum
  have hden' : (0 : ℚ) < den := by exact_mod_cast hden
  rw [pointOf]
  split_ifs with hle
  · obtain ⟨k, hk⟩ := Nat.exists_eq_add_one.2 (width_pos (num / den))
    have hpow : 10 ^ k ≤ num / den := pow_le_of_lt_width (Nat.div_pos hle hden) (by omega)
    rw [hk, le_div_iff₀ hden', Nat.cast_add_one, add_sub_cancel_right, zpow_natCast]
    exact_mod_cast (Nat.le_div_iff_mul_le hden).1 hpow
  · have hlt := lt_pow_width ((den - 1) / num)
    generalize width ((den - 1) / num) = w at hlt
    rw [Nat.div_lt_iff_lt_mul hnum] at hlt
    rw [sub_sub_cancel_left, zpow_neg, zpow_natCast, inv_le_iff_one_le_mul₀ (by positivity),
      div_mul_eq_mul_div, le_div_iff₀ hden', one_mul, mul_comm]
    exact_mod_cast (by omega : den ≤ 10 ^ w * num)

theorem num_pos {m : ℕ} (hm : 0 < m) (q : ℤ) : 0 < Binary.num m q :=
  Nat.mul_pos hm (Nat.two_pow_pos _)

theorem den_pos (q : ℤ) : 0 < Binary.den q := Nat.two_pow_pos _

theorem num_div_den (m : ℕ) (q : ℤ) : (Binary.num m q : ℚ) / Binary.den q = m * 2 ^ q := by
  rw [zpow_eq_div two_ne_zero]
  simp only [Binary.num, Binary.den, pow2, Nat.pow_eq, Nat.cast_mul, Nat.cast_pow, Nat.cast_ofNat]
  exact mul_div_assoc _ _ _

theorem rounds_of_named? {m : ℕ} {q point : ℤ} {k d : ℕ} {p : ℤ}
    (h : named? m q point k = some (d, p)) :
    rounds m q d p = true := by
  rw [named?] at h
  split_ifs at h with h₁ h₂ h₂ <;> cases h <;> assumption

/-- A multiple of a power of ten that is less than half a power away from `m · 2 ^ q`, where ten to
    the sixteen powers of ten are no more than it. -/
theorem roundsTo_of_near {m : ℕ} {q : ℤ} {x unit : ℚ} (hm : m < 2 ^ 53) (hunit : 0 < unit)
    (hsmall : 10 ^ 16 * unit ≤ m * 2 ^ q) (hlow : m * 2 ^ q - unit / 2 ≤ x)
    (hhigh : x ≤ m * 2 ^ q + unit / 2) :
    Binary.RoundsTo m q x := by
  have hpos : (0 : ℚ) < 2 ^ q := by positivity
  have hm' : (m : ℚ) < 2 ^ 53 := by exact_mod_cast hm
  have hgap : unit / 2 < Binary.gapBelow m q * 2 ^ q := by
    rw [Binary.gapBelow]
    split_ifs with h
    · rw [h.1] at hsmall
      push_cast at hsmall
      linarith
    · have : (m : ℚ) * 2 ^ q < 2 ^ 53 * 2 ^ q := mul_lt_mul_of_pos_right hm' hpos
      linarith
  have hhalf : Binary.gapBelow m q * 2 ^ q ≤ 1 / 2 * 2 ^ q :=
    mul_le_mul_of_nonneg_right (Binary.gapBelow_le m q) hpos.le
  have hlow' : (m - Binary.gapBelow m q) * 2 ^ q < x := by
    rw [sub_mul]
    linarith
  have hhigh' : x < (m + 1 / 2) * 2 ^ q := by
    rw [add_mul]
    linarith
  refine ⟨hlow'.le, hhigh'.le, ?_⟩
  rintro (rfl | rfl)
  · exact absurd hlow' (lt_irrefl _)
  · exact absurd hhigh' (lt_irrefl _)

/-- Seventeen digits are enough: the decimals with that many lie nearer to each other than the
    numbers that round to neighbouring doubles. -/
theorem named?_seventeen {m : ℕ} {q : ℤ} (hc : Binary.Canonical m q) (hm : 0 < m) :
    (named? m q (pointOf (Binary.num m q) (Binary.den q)) 17).isSome = true := by
  have hpoint := pow_pointOf_le (num_pos hm q) (den_pos q)
  rw [num_div_den] at hpoint
  generalize pointOf (Binary.num m q) (Binary.den q) = point at hpoint ⊢
  have hpos : (0 : ℚ) < 10 ^ (point - 17) := by positivity
  have hden : 0 < Binary.den q * pow10 (point - 17).toNat :=
    Nat.mul_pos (den_pos q) (Nat.pow_pos (by decide))
  have hnear := nearestEven_roundEven (Binary.num m q * pow10 (-(point - 17)).toNat) hden
  have hquotient : ((Binary.num m q * pow10 (-(point - 17)).toNat : ℕ) : ℚ) /
      (Binary.den q * pow10 (point - 17).toNat : ℕ) = m * 2 ^ q / 10 ^ (point - 17) := by
    rw [← num_div_den, zpow_eq_div (by norm_num)]
    simp only [pow10, Nat.pow_eq, Nat.cast_mul, Nat.cast_pow, Nat.cast_ofNat]
    field_simp
  rw [hquotient] at hnear
  -- a step of the 17th digit is finer than the gap between two doubles
  have hrounds : rounds m q (roundEven (Binary.num m q * pow10 (-(point - 17)).toNat)
      (Binary.den q * pow10 (point - 17).toNat)) (point - 17) = true := by
    rw [rounds_iff hm]
    refine roundsTo_of_near hc.fraction hpos ?_ ?_ ?_
    · refine le_trans (le_of_eq ?_) hpoint
      rw [← zpow_natCast, ← zpow_add₀ (by norm_num)]
      congr 1
      ring
    · have := (div_le_iff₀ hpos).1 hnear.high
      linarith
    · have := (le_div_iff₀ hpos).1 hnear.low
      linarith
  have hnamed : named? m q point 17 = some (_, point - 17) := if_pos hrounds
  rw [hnamed]
  rfl

/-- What is printed for a double rounds to it. -/
theorem shortest_spec {m : ℕ} {q : ℤ} (hc : Binary.Canonical m q) (hm : 0 < m) :
    0 < (shortest m q).digits ∧ Binary.RoundsTo m q (shortest m q).value := by
  have hsome := named?_seventeen hc hm
  have hfound : ((List.range 17).findSome? fun k =>
      named? m q (pointOf (Binary.num m q) (Binary.den q)) (k + 1)).isSome = true :=
    List.findSome?_isSome_iff.2 ⟨16, List.mem_range.2 (by decide), hsome⟩
  obtain ⟨⟨d, p⟩, hfound⟩ := Option.isSome_iff_exists.1 hfound
  obtain ⟨k, -, hnamed⟩ := List.exists_of_findSome?_eq_some hfound
  have hrounds := (rounds_iff hm q d p).1 (rounds_of_named? hnamed)
  have hd : 0 < d := by
    have hpos := hrounds.pos hm
    have hd := pos_of_mul_pos_left hpos (by positivity)
    exact_mod_cast hd
  obtain ⟨hdigits, hvalue⟩ := value_stripZeros 20 hd p
  rw [shortest, hfound]
  refine ⟨hdigits, ?_⟩
  rw [Option.getD_some, hvalue]
  exact hrounds

end Simplex.Decimal
