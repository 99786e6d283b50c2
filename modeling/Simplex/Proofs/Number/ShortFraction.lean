import Simplex.Argument.Reading
import Simplex.Proofs.Number.Convergents
import Simplex.Proofs.Number.Nearest
/-! Short fractions of doubles. The fraction of a double is the nearest one with so few digits
    in its denominator, also where it is cut to zero. It is so close that its own double
    misses the double it stands for by no more than a unit of the last place: the subtraction
    that measures this makes no error, and where a double is no short fraction itself, its
    unit is so small that rounding adds little to the distance. So places are never written
    where a fraction is asked for. -/

namespace Simplex.Fraction
variable {digits : ℕ} {v r a : ℚ}

theorem cast_largest (digits : ℕ) : (largest digits : ℚ) = 10 ^ digits - 1 := by
  have hpos : 1 ≤ 10 ^ digits := Nat.one_le_pow _ _ (by decide)
  change ((10 ^ digits - 1 : ℕ) : ℚ) = _
  rw [Nat.cast_sub hpos]
  push_cast
  rfl

theorem ten_le_pow (h : 1 ≤ digits) : (10 : ℚ) ≤ 10 ^ digits := by
  calc (10 : ℚ) = 10 ^ 1 := (pow_one 10).symm
    _ ≤ 10 ^ digits := pow_le_pow_right₀ (by norm_num) h

theorem largest_pos (h : 1 ≤ digits) : 0 < largest digits := by
  have hten := ten_le_pow h
  have : (0 : ℚ) < largest digits := by
    rw [cast_largest]
    linarith
  exact_mod_cast this

/-- Half the gap between the multiples of the least fraction is less than a
    unit of the last place. -/
theorem half_gap_lt (h : 1 ≤ digits) : 1 / (2 * (largest digits : ℚ)) < 1 / 10 ^ digits := by
  have hten := ten_le_pow h
  rw [cast_largest]
  exact one_div_lt_one_div_of_lt (by linarith) (by linarith)

/-- It is smallest with nine digits. -/
theorem half_gap_ge (h : 1 ≤ digits) (h' : digits ≤ 9) :
    1 / (2 * (10 ^ 9 - 1)) ≤ 1 / (2 * (largest digits : ℚ)) := by
  have hten := ten_le_pow h
  have hnine : (10 : ℚ) ^ digits ≤ 10 ^ 9 := pow_le_pow_right₀ (by norm_num) h'
  rw [cast_largest]
  exact one_div_le_one_div_of_le (by linarith) (by linarith)

/-! ### The nearest fraction -/

/-- What is cut to zero is less than half the least fraction with nine digits. -/
theorem cutoff_le (h : 1 ≤ digits) (h' : digits ≤ 9) : cutoff ≤ 1 / (2 * (largest digits : ℚ)) := by
  have hcutoff : cutoff ≤ 1 / (2 * (10 ^ 9 - 1)) := by decide +kernel
  exact hcutoff.trans (half_gap_ge h h')

theorem limited_eq (h : 1 ≤ digits) (h' : digits ≤ 9) (v : ℚ) :
    ∃ r, limited digits v (some v) = .ok r ∧ IsNearest (largest digits) v r := by
  have hpos := largest_pos h
  rw [limited, Int.toNat_natCast]
  by_cases hsmall : isSmall (some v) = true
  · rw [if_pos hsmall]
    rw [isSmall, Bool.and_eq_true, decide_eq_true_iff, decide_eq_true_iff] at hsmall
    refine ⟨0, rfl, isNearest_zero hpos ?_⟩
    exact (abs_lt.2 hsmall).le.trans (cutoff_le h h')
  rw [if_neg hsmall]
  by_cases hfits : fits (largest digits) v = true
  · refine ⟨v, if_pos hfits, isNearest_self ?_⟩
    rw [fits, Bool.and_eq_true, decide_eq_true_iff, decide_eq_true_iff] at hfits
    exact hfits.2
  · have hdigits : ¬ (digits : ℤ) ≤ 0 := by omega
    refine ⟨nearestWithin (largest digits) v, ?_, isNearest_nearestWithin hpos v⟩
    dsimp only
    rw [if_neg hfits, if_neg hdigits]

theorem limitedFloat_eq (h : 1 ≤ digits) (h' : digits ≤ 9) {x : Float} (hx : Binary.HasValue x v) :
    ∃ r, limitedFloat digits x = .ok r ∧ IsNearest (largest digits) v r := by
  obtain ⟨negative, m, q, hfinite, -, -⟩ := hx.exists_finite
  rw [Binary.HasValue, hfinite] at hx
  rw [limitedFloat, hfinite]
  dsimp only
  rw [hx]
  exact limited_eq h h' v

/-! ### The double of the fraction -/

open Binary
  (IsDouble Rounds HasValue isDouble_iff isDouble_mul_zpow isDouble_intCast rounds_nearest
    rounds_nearestRat)

/-- The double `v` is `z` units of `1 / 2 ^ k`, and none of them is larger than a
    unit of the last place. -/
structure Units (digits : ℕ) (v : ℚ) (z : ℤ) (k : ℕ) : Prop where
  value : v = z * 2 ^ (-k : ℤ)
  size : |z| < 2 ^ 53
  least : k ≤ 1074
  place : 10 ^ digits ≤ 2 ^ k

theorem two_zpow_neg (k : ℕ) : (2 : ℚ) ^ (-k : ℤ) = 1 / (2 ^ k : ℕ) := by
  rw [zpow_neg, zpow_natCast, one_div, Nat.cast_pow, Nat.cast_ofNat]

/-- What is no short fraction is counted in small units. -/
theorem exists_units (hv : IsDouble v) (h : 1 ≤ digits) (hden : largest digits < v.den) :
    ∃ z k, Units digits v z k := by
  have hpos := largest_pos h
  obtain ⟨negative, m, q, hc, rfl⟩ := isDouble_iff.1 hv
  have hvalue : Binary.sign negative * (m * 2 ^ q) =
      ((Binary.toSign negative).apply m : ℤ) * 2 ^ q := by
    rw [Binary.cast_apply_toSign, Int.cast_natCast, mul_assoc]
  have hsize : |(Binary.toSign negative).apply (m : ℤ)| < 2 ^ 53 := by
    have hm : |(m : ℤ)| < 2 ^ 53 := (Nat.abs_cast m).trans_lt (by exact_mod_cast hc.fraction)
    cases negative
    · exact hm
    · exact (abs_neg (m : ℤ)).trans_lt hm
  rw [hvalue] at hden ⊢
  obtain ⟨k, rfl | rfl⟩ := q.eq_nat_or_neg
  · -- an integer has no denominator
    have hone : ((((Binary.toSign negative).apply m * 2 ^ k : ℤ)) : ℚ).den = 1 := Rat.den_intCast _
    push_cast at hone
    rw [zpow_natCast, hone] at hden
    omega
  · have hle := den_div_le ((Binary.toSign negative).apply m) (Nat.two_pow_pos k)
    rw [two_zpow_neg, mul_one_div] at hden
    have hlargest : largest digits = 10 ^ digits - 1 := rfl
    exact ⟨_, k, rfl, hsize, by have := hc.least; omega, by omega⟩

namespace Units
variable {z : ℤ} {k : ℕ}

theorem abs_lt (hu : Units digits v z k) : |v| < 2 ^ (53 - k : ℤ) := by
  have hz : |(z : ℚ)| < 2 ^ 53 := by exact_mod_cast hu.size
  rw [hu.value, abs_mul, abs_of_pos (by positivity : (0 : ℚ) < 2 ^ (-k : ℤ)), sub_eq_add_neg,
    zpow_add₀ two_ne_zero]
  exact mul_lt_mul_of_pos_right hz (by positivity)

/-- The neighbours of a double are doubles. -/
theorem isDouble_add (hu : Units digits v z k) {i : ℤ} (hi : |i| ≤ 1) :
    IsDouble (v + i * 2 ^ (-k : ℤ)) := by
  have hsize := hu.size
  have hleast := hu.least
  rw [hu.value, ← add_mul, ← Int.cast_add]
  refine isDouble_mul_zpow ((abs_add_le z i).trans ?_) (by omega) (by omega)
  omega

theorem isDouble_two_mul (hu : Units digits v z k) : IsDouble (2 * v) := by
  have hleast := hu.least
  have hvalue : 2 * v = z * 2 ^ (-k + 1 : ℤ) := by
    rw [hu.value, zpow_add_one₀ two_ne_zero]
    ring
  rw [hvalue]
  exact isDouble_mul_zpow hu.size.le (by omega) (by omega)

/-- Half of a double is a double unless it is tiny. -/
theorem isDouble_div_two (hu : Units digits v z k) (hsize : 1 / (2 * (10 ^ 9 - 1)) ≤ |v|) :
    IsDouble (v / 2) := by
  have hk : k < 1074 := by
    have htiny : (2 : ℚ) ^ (-31 : ℤ) ≤ 1 / (2 * (10 ^ 9 - 1)) := by norm_num
    have hlt : (2 : ℚ) ^ (-31 : ℤ) < 2 ^ (53 - k : ℤ) := (htiny.trans hsize).trans_lt hu.abs_lt
    have := Binary.lt_of_two_zpow_lt hlt
    omega
  have hvalue : v / 2 = z * 2 ^ (-k - 1 : ℤ) := by
    rw [hu.value, zpow_sub_one₀ two_ne_zero]
    ring
  rw [hvalue]
  exact isDouble_mul_zpow hu.size.le (by omega) (by omega)

/-- A fraction within a unit lies between the neighbours of the double, and so does the
    double it is rounded to. -/
theorem abs_sub_le_unit (hu : Units digits v z k) (ha : Rounds r a)
    (hgap : |r - v| ≤ 2 ^ (-k : ℤ)) :
    |a - v| ≤ 2 ^ (-k : ℤ) := by
  have habove : IsDouble (v + (1 : ℤ) * 2 ^ (-k : ℤ)) := hu.isDouble_add (by decide)
  have hbelow : IsDouble (v + (-1 : ℤ) * 2 ^ (-k : ℤ)) := hu.isDouble_add (by decide)
  obtain ⟨hlow, hhigh⟩ := abs_le.1 hgap
  have hle := ha.le habove (by push_cast; linarith)
  have hge := ha.ge hbelow (by push_cast; linarith)
  push_cast at hle hge
  rw [abs_le]
  constructor <;> linarith

/-- What is no more than twice the double is rounded by a unit at most. -/
theorem abs_sub_le_of_le (hu : Units digits v z k) (ha : Rounds r a) (hr : |r| ≤ |2 * v|) :
    |a - r| ≤ 2 ^ (-k : ℤ) := by
  have hleast := hu.least
  have hsize : |r| ≤ 2 ^ ((-k + 1 : ℤ) + 53) := by
    have hdouble : (2 : ℚ) ^ ((-k + 1 : ℤ) + 53) = 2 * 2 ^ (53 - k : ℤ) := by
      rw [← zpow_one_add₀ two_ne_zero]
      congr 1
      ring
    rw [abs_mul, abs_two] at hr
    linarith [hu.abs_lt]
  have hround := ha.abs_sub_le_half (by omega) (by omega) hsize
  rwa [zpow_add_one₀ two_ne_zero, mul_div_cancel_right₀ _ two_ne_zero] at hround

end Units

theorem IsNearest.eq_self {bound : ℕ} (hr : IsNearest bound v r) (hden : v.den ≤ bound) :
    r = v := by
  have hself := hr.abs_sub_le v hden
  rw [sub_self, abs_zero, abs_nonpos_iff, sub_eq_zero] at hself
  exact hself

/-- Zero is a fraction too, so what is nearest is no more than twice as large. -/
theorem IsNearest.abs_le {bound : ℕ} (hb : 0 < bound) (hr : IsNearest bound v r) :
    |r| ≤ |2 * v| := by
  have hzero := hr.abs_sub_le 0 hb
  have htriangle := abs_sub_abs_le_abs_sub r v
  rw [zero_sub, abs_neg] at hzero
  rw [abs_mul, abs_two]
  linarith

/-- No power of two is near twice a power of ten. -/
theorem two_pow_ge {k : ℕ} (h : 1 ≤ digits) (hk : 2 * (10 ^ digits - 1) < 2 ^ k) :
    2 * 10 ^ digits + 4 ≤ 2 ^ k := by
  obtain ⟨d, rfl⟩ : ∃ d, digits = d + 1 := ⟨digits - 1, by omega⟩
  have hten : 1 ≤ 10 ^ d := Nat.one_le_pow _ _ (by decide)
  rw [pow_succ] at hk ⊢
  obtain ⟨j, rfl⟩ : ∃ j, k = j + 2 := by
    refine ⟨k - 2, ?_⟩
    have : 2 ^ 4 < 2 ^ k := by omega
    have := (Nat.pow_lt_pow_iff_right (by decide)).1 this
    omega
  have hfive : ¬ 5 ∣ 2 ^ j := fun hdvd => by
    have := Nat.prime_five.dvd_of_dvd_pow hdvd
    omega
  rw [pow_add] at hk ⊢
  omega

/-- A unit below half the gap leaves room for rounding. -/
theorem unit_add_half_gap_le {k : ℕ} (h : 1 ≤ digits) (hk : 2 * (10 ^ digits - 1) < 2 ^ k) :
    1 / (2 ^ k : ℕ) + 1 / (2 * (largest digits : ℚ)) ≤ 1 / 10 ^ digits := by
  have hten := ten_le_pow h
  have hpow : (2 * 10 ^ digits + 4 : ℚ) ≤ (2 ^ k : ℕ) := by exact_mod_cast two_pow_ge h hk
  rw [cast_largest]
  generalize (10 : ℚ) ^ digits = t at hten hpow ⊢
  calc 1 / ((2 ^ k : ℕ) : ℚ) + 1 / (2 * (t - 1)) ≤ 1 / (2 * t + 4) + 1 / (2 * (t - 1)) :=
        add_le_add_left (one_div_le_one_div_of_le (by linarith) hpow) _
    _ = (2 * t + 1) / (2 * t ^ 2 + 2 * t - 4) := by
        rw [div_add_div _ _ (by linarith) (by linarith),
          div_eq_div_iff (by nlinarith) (by nlinarith)]
        ring
    _ ≤ 1 / t := by
        rw [div_le_div_iff₀ (by nlinarith) (by linarith)]
        nlinarith

/-- The double of the fraction nearest to a double misses it by a unit of the last place at most. -/
theorem abs_sub_le_of_rounds (h : 1 ≤ digits) (hv : IsDouble v)
    (hr : IsNearest (largest digits) v r) (ha : Rounds r a) : |a - v| ≤ 1 / 10 ^ digits := by
  have hgap := hr.abs_sub_le_half (largest_pos h)
  rcases le_or_gt v.den (largest digits) with hden | hden
  · rw [hr.eq_self hden] at ha
    rw [ha.eq_of_isDouble hv, sub_self, abs_zero]
    positivity
  obtain ⟨z, k, hu⟩ := exists_units hv h hden
  rcases le_or_gt (1 / (2 * (largest digits : ℚ))) (2 ^ (-k : ℤ)) with hlarge | hsmall
  · calc |a - v| ≤ 2 ^ (-k : ℤ) := hu.abs_sub_le_unit ha (hgap.trans hlarge)
      _ = 1 / (2 ^ k : ℕ) := two_zpow_neg k
      _ ≤ 1 / 10 ^ digits := one_div_le_one_div_of_le (by positivity) (by exact_mod_cast hu.place)
  · have hdigits : 2 * (10 ^ digits - 1) < 2 ^ k := by
      have hpos := largest_pos h
      rw [two_zpow_neg] at hsmall
      exact_mod_cast lt_of_one_div_lt_one_div (by positivity) hsmall
    calc |a - v| ≤ |a - r| + |r - v| := abs_sub_le a r v
      _ ≤ 2 ^ (-k : ℤ) + 1 / (2 * largest digits) :=
          add_le_add (hu.abs_sub_le_of_le ha (hr.abs_le (largest_pos h))) hgap
      _ = 1 / (2 ^ k : ℕ) + 1 / (2 * largest digits) := by rw [two_zpow_neg]
      _ ≤ 1 / 10 ^ digits := unit_add_half_gap_le h hdigits

/-! ### The distance -/

/-- A fraction other than zero is so near to the double it stands for that neither of the two is
    more than twice the other. So are the doubles of both. -/
theorem distance_le (h : 1 ≤ digits) (h' : digits ≤ 9) (hv : IsDouble v)
    (hr : IsNearest (largest digits) v r) (ha : Rounds r a) :
    a = 0 ∨ |a - v| ≤ |a| ∧ |a - v| ≤ |v| := by
  rcases le_or_gt v.den (largest digits) with hden | hden
  · rw [hr.eq_self hden] at ha
    right
    rw [ha.eq_of_isDouble hv, sub_self, abs_zero]
    exact ⟨abs_nonneg v, abs_nonneg v⟩
  obtain rfl | hne := eq_or_ne r 0
  · exact .inl (ha.eq_of_isDouble (isDouble_intCast (i := 0) (by decide)))
  right
  have hgap := hr.abs_sub_le_half (largest_pos h)
  have hleast := one_div_le_abs hne hr.den_le
  have htiny := half_gap_ge h h'
  have hsplit : 1 / (largest digits : ℚ) = 2 * (1 / (2 * (largest digits : ℚ))) := by ring
  have htriangle := abs_sub_abs_le_abs_sub r v
  generalize 1 / (2 * (largest digits : ℚ)) = g at hgap htiny hsplit
  -- v / 2 and 2 * v are doubles, and rounding never crosses a double
  obtain ⟨z, k, hu⟩ := exists_units hv h hden
  have hhalf := hu.isDouble_div_two (by linarith)
  have htwice := hu.isDouble_two_mul
  obtain ⟨hlow, hhigh⟩ := abs_le.1 hgap
  rcases hne.lt_or_gt with hneg | hpos
  · rw [abs_of_neg hneg] at hleast
    have hle := ha.le hhalf (by linarith)
    have hge := ha.ge htwice (by linarith)
    rw [abs_of_nonpos (by linarith : a ≤ 0), abs_of_nonpos (by linarith : v ≤ 0), abs_le, abs_le]
    refine ⟨⟨?_, ?_⟩, ?_, ?_⟩ <;> linarith
  · rw [abs_of_pos hpos] at hleast
    have hle := ha.le htwice (by linarith)
    have hge := ha.ge hhalf (by linarith)
    rw [abs_of_nonneg (by linarith : 0 ≤ a), abs_of_nonneg (by linarith : 0 ≤ v), abs_le, abs_le]
    refine ⟨⟨?_, ?_⟩, ?_, ?_⟩ <;> linarith

theorem pow10_eq (n : ℕ) : pow10 n = 10 ^ n := rfl

theorem abs_lt_overflow (h : 1 ≤ digits) (hv : IsDouble v) (hr : IsNearest (largest digits) v r) :
    |r| < Binary.overflow := by
  rcases le_or_gt v.den (largest digits) with hden | hden
  · rw [hr.eq_self hden]
    exact hv.abs_lt_overflow
  · obtain ⟨z, k, hu⟩ := exists_units hv h hden
    exact (hr.abs_le (largest_pos h)).trans_lt hu.isDouble_two_mul.abs_lt_overflow

/-- The places that would be written are never asked for. -/
theorem misses_eq_false (h : 1 ≤ digits) (h' : digits ≤ 9) {x : Float} (hx : HasValue x v)
    (hr : IsNearest (largest digits) v r) : misses digits r x = false := by
  have hpower : ((1 : ℕ) : ℚ) / (10 ^ digits : ℕ) < Binary.overflow := by
    have hle : ((1 : ℕ) : ℚ) / (10 ^ digits : ℕ) ≤ |((1 : ℤ) : ℚ)| := by
      rw [Nat.cast_one, Int.cast_one, abs_one, Nat.cast_pow, Nat.cast_ofNat]
      exact div_le_one_of_le₀ (by linarith [ten_le_pow h]) (by positivity)
    exact hle.trans_lt (isDouble_intCast (by decide)).abs_lt_overflow
  obtain ⟨b, hb, hbound⟩ := rounds_nearest false 1 (by positivity : 0 < 10 ^ digits) hpower
  obtain ⟨a, ha, hround⟩ := rounds_nearestRat (abs_lt_overflow h ⟨x, hx⟩ hr)
  have hdistance := (ha.sub hx (distance_le h h' ⟨x, hx⟩ hr hround)).abs
  have hle := abs_sub_le_of_rounds h ⟨x, hx⟩ hr hround
  rw [Binary.sign_false, one_mul, Nat.cast_one, Nat.cast_pow, Nat.cast_ofNat] at hbound
  have hwithin : |a - v| ≤ b := hbound.ge ⟨_, hdistance⟩ hle
  have hexponents : (-(digits : ℤ)).toNat = 0 ∧ (digits : ℤ).toNat = digits := by omega
  rw [misses, hexponents.1, hexponents.2, pow10_eq, pow10_eq, pow_zero, ← Bool.not_eq_true,
    hb.lt_iff hdistance, not_lt]
  exact hwithin

/-- The fraction of a double with `digits` digits is the nearest of all with so many in the
    denominator, and nearer than a unit of the last place. It is always what is written: its
    numerator, and its denominator unless that is one. -/
theorem ofFloat_nearest (h : 1 ≤ digits) (h' : digits ≤ 9) {x : Float}
    (hx : (Binary.ofFloat x).toRat? = some v) :
    ∃ r s, limitedFloat digits x = .ok r ∧ IsNearest (largest digits) v r ∧
      |r - v| ≤ 1 / (2 * largest digits) ∧ (1 / (2 * largest digits) : ℚ) < 1 / 10 ^ digits ∧
      misses digits r x = false ∧
      s = (if r.den = 1 then toString r.num else toString r.num ++ "/" ++ toString r.den) ∧
      ofFloat digits x = .ok s ∧ (Value.float x).fractionText digits false = Text.ofString s := by
  obtain ⟨r, hlimited, hr⟩ := limitedFloat_eq h h' hx
  have hmisses := misses_eq_false h h' hx hr
  have hwritten : ofFloat digits x = .ok (text r) := by
    rw [ofFloat, hlimited]
    exact if_neg (by rw [hmisses]; decide)
  refine ⟨r, text r, hlimited, hr, hr.abs_sub_le_half (largest_pos h), half_gap_lt h, hmisses, rfl,
    hwritten, ?_⟩
  simp only [Value.fractionText, Value.number, Except.bind, Bool.false_eq_true, if_false, hwritten]

/-- With one digit, 0.06 is nearer to 1/9 than to zero, the last convergent with one digit. -/
theorem ofFloat_nearest_six_hundredths :
    (Binary.ofFloat 0.06).toRat? = some (4323455642275676 / 72057594037927936) ∧
      IsNearest 9 (4323455642275676 / 72057594037927936) (1 / 9) ∧ ofFloat 1 0.06 = .ok "1/9" := by
  have hvalue : (Binary.ofFloat 0.06).toRat? = some (4323455642275676 / 72057594037927936) := by
    decide +kernel
  obtain ⟨r, s, hlimited, hr, -, -, -, hs, hwritten, -⟩ :=
    ofFloat_nearest (le_refl 1) (by decide) hvalue
  have hninth : (limitedFloat (1 : ℕ) 0.06).toOption = some (1 / 9) := by decide +kernel
  rw [hlimited] at hninth
  obtain rfl : r = 1 / 9 := Option.some_inj.1 hninth
  have htext : text (1 / 9) = "1/9" := by decide +kernel
  obtain rfl : s = "1/9" := hs.trans htext
  exact ⟨hvalue, hr, hwritten⟩

end Simplex.Fraction
