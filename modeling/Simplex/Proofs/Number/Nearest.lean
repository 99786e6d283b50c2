import Simplex.Proofs.Number.Double
/-! The double nearest to a number. The doubles are the multiples of powers of two that have 53
    binary digits at most, and rounding takes the nearest of all of them. So it never passes a
    double: what lies on one side of a double is rounded to that side. -/

namespace Simplex

/-- No integer is closer than a nearest natural. -/
theorem NearestEven.abs_sub_le {x : ℚ} {k : ℕ} (h : NearestEven x k) (j : ℤ) :
    |k - x| ≤ |j - x| := by
  have hhalf : |k - x| ≤ 1 / 2 := by
    rw [abs_le]
    constructor <;> linarith [h.low, h.high]
  obtain rfl | hne := eq_or_ne j k
  · rw [Int.cast_natCast]
  · have hone : (1 : ℚ) ≤ |(j : ℚ) - k| := by exact_mod_cast Int.one_le_abs (sub_ne_zero.2 hne)
    have htriangle := abs_add_le ((j : ℚ) - x) (x - k)
    rw [sub_add_sub_cancel, abs_sub_comm x] at htriangle
    linarith

namespace Binary

/-- There is a finite double with this value. -/
def IsDouble (v : ℚ) : Prop := ∃ x, HasValue x v

theorem isDouble_iff {v : ℚ} :
    IsDouble v ↔ ∃ negative m q, Canonical m q ∧ v = sign negative * (m * 2 ^ q) := by
  constructor
  · rintro ⟨x, hx⟩
    obtain ⟨negative, m, q, -, hc, hv⟩ := hx.exists_finite
    exact ⟨negative, m, q, hc, hv⟩
  · rintro ⟨negative, m, q, hc, rfl⟩
    exact ⟨_, hasValue_ofMagnitude negative hc⟩

theorem IsDouble.abs_lt_overflow {v : ℚ} (h : IsDouble v) : |v| < overflow := by
  obtain ⟨negative, m, q, hc, rfl⟩ := isDouble_iff.1 h
  have hm : (m : ℚ) + 1 ≤ 2 ^ 53 := by exact_mod_cast hc.fraction
  rw [abs_sign_mul _ (by positivity), cast_overflow]
  calc (m : ℚ) * 2 ^ q ≤ m * 2 ^ (971 : ℤ) :=
        mul_le_mul_of_nonneg_left (zpow_le_zpow_right₀ one_le_two hc.greatest) m.cast_nonneg
    _ < (2 ^ 53 - 1 / 2) * 2 ^ (971 : ℤ) := mul_lt_mul_of_pos_right (by linarith) (by positivity)

/-- Every multiple of a power of two with 53 binary digits at most is a double. -/
theorem isDouble_mul_zpow {i q : ℤ} (hi : |i| ≤ 2 ^ 53) (hleast : -1074 ≤ q) (hgreatest : q ≤ 970) :
    IsDouble (i * 2 ^ q) := by
  rw [isDouble_iff]
  rcases hi.lt_or_eq with hlt | heq
  · obtain ⟨negative, m, q', hc, hvalue, -⟩ := normalize_eq hlt hleast (by omega)
    exact ⟨negative, m, q', hc, hvalue.symm⟩
  · -- a power of two is a multiple of the next power too
    obtain ⟨j, rfl⟩ : (2 : ℤ) ∣ i := by
      rw [← dvd_abs, heq]
      exact ⟨2 ^ 52, rfl⟩
    rw [abs_mul, abs_two] at heq
    obtain ⟨negative, m, q', hc, hvalue, -⟩ :=
      normalize_eq (by omega : |j| < 2 ^ 53) (by omega : -1074 ≤ q + 1) (by omega)
    refine ⟨negative, m, q', hc, ?_⟩
    rw [hvalue, zpow_add_one₀ two_ne_zero]
    push_cast
    ring

theorem isDouble_intCast {i : ℤ} (hi : |i| ≤ 2 ^ 53) : IsDouble i := by
  rw [← mul_one (i : ℚ), ← zpow_zero (2 : ℚ)]
  exact isDouble_mul_zpow hi (by decide) (by decide)

/-- A distance is measured in units of a power of two. -/
theorem abs_mul_zpow_sub (y x : ℚ) (q : ℤ) : |y * 2 ^ q - x| = |y - x / 2 ^ q| * 2 ^ q := by
  have hpos : (0 : ℚ) < 2 ^ q := by positivity
  calc |y * 2 ^ q - x| = |(y - x / 2 ^ q) * 2 ^ q| := by rw [sub_mul, div_mul_cancel₀ _ hpos.ne']
    _ = |y - x / 2 ^ q| * 2 ^ q := by rw [abs_mul, abs_of_pos hpos]

/-- The double `a` is as close to `r` as any. -/
structure Rounds (r a : ℚ) : Prop where
  isDouble : IsDouble a
  abs_sub_le : ∀ w, IsDouble w → |a - r| ≤ |w - r|

namespace Rounds
variable {r a w : ℚ}

theorem le (h : Rounds r a) (hw : IsDouble w) (hle : r ≤ w) : a ≤ w := by
  by_contra! hlt
  have hclose := h.abs_sub_le w hw
  rw [abs_of_nonneg (by linarith), abs_of_nonneg (by linarith)] at hclose
  linarith

theorem ge (h : Rounds r a) (hw : IsDouble w) (hle : w ≤ r) : w ≤ a := by
  by_contra! hlt
  have hclose := h.abs_sub_le w hw
  rw [abs_of_nonpos (by linarith), abs_of_nonpos (by linarith)] at hclose
  linarith

theorem eq_of_isDouble (h : Rounds r a) (hr : IsDouble r) : a = r :=
  le_antisymm (h.le hr le_rfl) (h.ge hr le_rfl)

/-- Up to `2 ^ (q + 53)` the doubles leave gaps of `2 ^ q` at most. -/
theorem abs_sub_le_half (h : Rounds r a) {q : ℤ} (hleast : -1074 ≤ q) (hgreatest : q ≤ 970)
    (hr : |r| ≤ 2 ^ (q + 53)) : |a - r| ≤ 2 ^ q / 2 := by
  have hpos : (0 : ℚ) < 2 ^ q := by positivity
  have hround : |r / 2 ^ q - round (r / 2 ^ q)| ≤ 1 / 2 := abs_sub_round _
  have hsize : |round (r / 2 ^ q)| ≤ 2 ^ 53 := by
    have hr : |r / 2 ^ q| ≤ 2 ^ 53 := by
      rw [abs_div, abs_of_pos hpos, div_le_iff₀ hpos, mul_comm]
      exact hr.trans_eq (zpow_add₀ two_ne_zero q 53)
    have htriangle := abs_sub_abs_le_abs_sub (round (r / 2 ^ q) : ℚ) (r / 2 ^ q)
    rw [abs_sub_comm] at hround
    have : |(round (r / 2 ^ q) : ℚ)| < 2 ^ 53 + 1 := by linarith
    have : |round (r / 2 ^ q)| < 2 ^ 53 + 1 := by exact_mod_cast this
    omega
  calc |a - r| ≤ |round (r / 2 ^ q) * 2 ^ q - r| :=
    h.abs_sub_le _ (isDouble_mul_zpow hsize hleast hgreatest)
    _ = |r / 2 ^ q - round (r / 2 ^ q)| * 2 ^ q := by rw [abs_mul_zpow_sub, abs_sub_comm]
    _ ≤ 1 / 2 * 2 ^ q := mul_le_mul_of_nonneg_right hround hpos.le
    _ = 2 ^ q / 2 := by ring

end Rounds

/-! ### Rounding -/

/-- The canonical form of what a number is rounded to. A carry out of the fraction
    goes into the exponent. -/
theorem RoundedIn.exists_canonical {x : ℚ} {q : ℤ} {k : ℕ} (hr : RoundedIn x q k)
    (hx : x < overflow) :
    ∃ m q', Canonical m q' ∧ magnitudeBits k q = magnitudeBits m q' ∧
    (m : ℚ) * 2 ^ q' = k * 2 ^ q := by
  have hpos : (0 : ℚ) < 2 ^ q := by positivity
  have hlow := hr.nearest.low
  have hhigh := hr.nearest.high
  have hlt := hr.magnitudeBits_lt hx
  have hleast := hr.least
  have hk : k ≤ 2 ^ 53 := by
    have hscaled : x / 2 ^ q < 2 ^ 53 := by
      rw [div_lt_iff₀ hpos, mul_comm]
      exact hr.lt.trans_eq (zpow_add₀ two_ne_zero q 53)
    have : (k : ℚ) < 2 ^ 53 + 1 := by linarith
    have : k < 2 ^ 53 + 1 := by exact_mod_cast this
    omega
  have hfull : 2 ^ 52 ≤ k ∨ q = -1074 := by
    rcases hr.full with hq | hfull
    · exact .inr hq
    · left
      rw [zpow_add₀ two_ne_zero, mul_comm, ← le_div_iff₀ hpos] at hfull
      have : (2 : ℚ) ^ (52 : ℤ) < k + 1 := by linarith
      have : 2 ^ 52 < k + 1 := by exact_mod_cast this
      omega
  simp only [magnitudeBits, infinityBits, pow2, Nat.pow_eq] at hlt ⊢
  rcases hk.lt_or_eq with hless | rfl
  · exact ⟨k, q, ⟨hless, hleast, by omega, hfull⟩, rfl, rfl⟩
  · -- rounded up to 2 ^ 53: the same number is 2 ^ 52 of the next unit
    refine ⟨2 ^ 52, q + 1, ⟨by decide, by omega, by omega, .inl le_rfl⟩, by omega, ?_⟩
    rw [zpow_add_one₀ two_ne_zero]
    push_cast
    ring

/-- Of all doubles none is closer than what a number is rounded to. -/
theorem RoundedIn.abs_sub_le {x : ℚ} {q q' : ℤ} {k m : ℕ} (hr : RoundedIn x q k) (negative : Bool)
    (hc : Canonical m q') : |k * 2 ^ q - x| ≤ |sign negative * (m * 2 ^ q') - x| := by
  have hpos : (0 : ℚ) < 2 ^ q := by positivity
  have hmultiple (j : ℤ) : |k * 2 ^ q - x| ≤ |j * 2 ^ q - x| := by
    rw [abs_mul_zpow_sub, abs_mul_zpow_sub]
    exact mul_le_mul_of_nonneg_right (hr.nearest.abs_sub_le j) hpos.le
  rcases le_or_gt q q' with hq | hq
  · rw [← apply_shiftLeft_mul negative m hq]
    exact hmultiple _
  · -- a double of a smaller unit lies below the first one of this unit
    have hfull : 2 ^ (q + 52) ≤ x := hr.full.resolve_left (by have := hc.least; omega)
    have hunit : (2 : ℚ) ^ (q + 52) = (2 ^ 52 : ℤ) * 2 ^ q := by
      rw [zpow_add₀ two_ne_zero, mul_comm]
      rfl
    have hbelow : sign negative * (m * 2 ^ q') ≤ 2 ^ (q + 52) := by
      have hm : (m : ℚ) ≤ 2 ^ 53 := by exact_mod_cast hc.fraction.le
      calc sign negative * (m * 2 ^ q') ≤ |sign negative * (m * 2 ^ q')| := le_abs_self _
        _ = m * 2 ^ q' := abs_sign_mul _ (by positivity)
        _ ≤ 2 ^ 53 * 2 ^ (q - 1) :=
            mul_le_mul hm (zpow_le_zpow_right₀ one_le_two (by omega)) (by positivity)
              (by positivity)
        _ = 2 ^ (q + 52) := by
            rw [← zpow_natCast, ← zpow_add₀ two_ne_zero]
            congr 1
            push_cast
            ring
    calc |k * 2 ^ q - x| ≤ |(2 ^ 52 : ℤ) * 2 ^ q - x| := hmultiple _
      _ = x - 2 ^ (q + 52) := by rw [← hunit, abs_of_nonpos (by linarith), neg_sub]
      _ ≤ x - sign negative * (m * 2 ^ q') := by linarith
      _ = |sign negative * (m * 2 ^ q') - x| := by rw [abs_of_nonpos (by linarith), neg_sub]

/-- A sign may stand on either side of a difference. -/
theorem abs_sign_mul_sub (negative : Bool) (a x : ℚ) :
    |sign negative * a - x| = |a - sign negative * x| := by
  cases negative
  · rw [sign_false, one_mul, one_mul]
  · rw [sign_true, neg_one_mul, neg_one_mul, sub_neg_eq_add, ← abs_neg, neg_sub, sub_neg_eq_add,
      add_comm]

theorem sign_mul_sign (negative negative' : Bool) :
    sign negative * sign negative' = sign (negative ^^ negative') := by
  cases negative <;> cases negative' <;> simp

/-- Below the range of overflow a quotient has a nearest double, and it is taken. -/
theorem rounds_nearest (negative : Bool) (num : ℕ) {den : ℕ} (hden : 0 < den)
    (h : (num : ℚ) / den < overflow) :
    ∃ a, HasValue (nearest negative num den) a ∧ Rounds (sign negative * (num / den)) a := by
  obtain rfl | hnum := num.eq_zero_or_pos
  · have hc : Canonical 0 (-1074) := ⟨by decide, le_rfl, by decide, .inr rfl⟩
    have hzero := hasValue_ofMagnitude negative hc
    rw [Nat.cast_zero, zero_div, nearest_zero]
    rw [Nat.cast_zero, zero_mul] at hzero
    refine ⟨_, hzero, ⟨_, hzero⟩, fun w _ => ?_⟩
    rw [sub_self, abs_zero]
    exact abs_nonneg _
  · obtain ⟨q, k, hr, heq⟩ := nearest_spec negative hnum hden
    obtain ⟨m, q', hc, hbits, hvalue⟩ := hr.exists_canonical h
    have hnearest := hasValue_ofMagnitude negative hc
    rw [← hbits, hvalue] at hnearest
    rw [heq, min_eq_left (hr.magnitudeBits_lt h).le]
    refine ⟨_, hnearest, ⟨_, hnearest⟩, fun w hw => ?_⟩
    obtain ⟨negative', m', q'', hc', rfl⟩ := isDouble_iff.1 hw
    have hclose := hr.abs_sub_le (negative ^^ negative') hc'
    rw [← sign_mul_sign, mul_assoc, abs_sign_mul_sub negative] at hclose
    rwa [abs_sign_mul_sub, ← mul_assoc, sign_mul_sign, Bool.xor_self, sign_false, one_mul]

/-- Below the range of overflow a number has a nearest double, and it is taken. -/
theorem rounds_nearestRat {r : ℚ} (h : |r| < overflow) :
    ∃ a, HasValue (nearestRat r) a ∧ Rounds r a := by
  have hden : (0 : ℚ) < r.den := by exact_mod_cast r.den_pos
  have habs : (r.num.natAbs : ℚ) / r.den = |r| := by
    nth_rewrite 3 [← Rat.num_div_den r]
    rw [abs_div, abs_of_pos hden, Nat.cast_natAbs, Int.cast_abs]
  have hvalue : sign (decide (r.num < 0)) * (r.num.natAbs / r.den) = r := by
    rw [habs]
    by_cases hneg : r.num < 0
    · rw [decide_eq_true hneg, sign_true, neg_one_mul, abs_of_neg (Rat.num_neg.1 hneg), neg_neg]
    · rw [decide_eq_false hneg, sign_false, one_mul,
        abs_of_nonneg (Rat.num_nonneg.1 (not_lt.1 hneg))]
  obtain ⟨a, ha, hround⟩ :=
    rounds_nearest (decide (r.num < 0)) r.num.natAbs r.den_pos (habs.trans_lt h)
  rw [hvalue] at hround
  exact ⟨a, ha, hround⟩

end Binary

end Simplex
