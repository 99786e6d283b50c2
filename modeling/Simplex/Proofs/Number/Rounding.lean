import Simplex.Proofs.Number.Bits
/-! Rounding to a double. `roundEven` takes the nearest natural, the even one of two; a positive
    quotient is rounded to a natural multiple of the power of two that its first binary digit asks
    for. What rounds to `m · 2 ^ q` in its canonical form is therefore an interval around it, half a
    unit long to each side, and only a quarter below where the exponent changes. -/

namespace Simplex

/-- `k` is a natural nearest to `x`, and even if another is as near. -/
structure NearestEven (x : ℚ) (k : ℕ) : Prop where
  low : (k : ℚ) - 1 / 2 ≤ x
  high : x ≤ k + 1 / 2
  tie : x = k - 1 / 2 ∨ x = k + 1 / 2 → k % 2 = 0

theorem NearestEven.le {x : ℚ} {k l : ℕ} (hk : NearestEven x k) (hl : NearestEven x l) : l ≤ k := by
  by_contra! hlt
  have hle : (k : ℚ) + 1 ≤ l := by exact_mod_cast hlt
  -- the two naturals are neighbours with `x` half way between, so one of them is odd
  have hx : x = k + 1 / 2 := by linarith [hk.high, hl.low]
  have hx' : x = l - 1 / 2 := by linarith [hk.high, hl.low]
  have hsucc : l = k + 1 := by
    have : (l : ℚ) = k + 1 := by linarith
    exact_mod_cast this
  have := hk.tie (Or.inr hx)
  have := hl.tie (Or.inl hx')
  omega

theorem NearestEven.unique {x : ℚ} {k l : ℕ} (hk : NearestEven x k) (hl : NearestEven x l) :
    k = l :=
  le_antisymm (hl.le hk) (hk.le hl)

theorem nearestEven_roundEven (num : ℕ) {den : ℕ} (hden : 0 < den) :
    NearestEven ((num : ℚ) / den) (roundEven num den) := by
  have hden' : (0 : ℚ) < den := by exact_mod_cast hden
  have hsplit : (num : ℚ) / den = (num / den : ℕ) + (num % den : ℕ) / (den : ℚ) := by
    rw [← sub_eq_iff_eq_add, ← sub_div, eq_comm, eq_div_iff hden'.ne', eq_sub_iff_add_eq]
    exact_mod_cast Nat.div_add_mod' num den
  have hlt : ((num % den : ℕ) : ℚ) < den := by exact_mod_cast Nat.mod_lt num hden
  have hpos : (0 : ℚ) ≤ (num % den : ℕ) / (den : ℚ) := by positivity
  have hone : ((num % den : ℕ) : ℚ) / den < 1 := (div_lt_one hden').2 hlt
  rw [hsplit, roundEven]
  generalize num / den = k
  -- the remainder is below, above or at the half, and evenness decides at the half alone
  split_ifs with hlow hhigh
  · have hhalf : ((num % den : ℕ) : ℚ) / den < 1 / 2 := by
      rw [div_lt_div_iff₀ hden' two_pos, one_mul, mul_comm]
      exact_mod_cast hlow
    refine ⟨by linarith, by linarith, ?_⟩
    rintro (h | h) <;> linarith
  · have hhalf : (1 / 2 : ℚ) < (num % den : ℕ) / den := by
      rw [div_lt_div_iff₀ two_pos hden', one_mul, mul_comm]
      exact_mod_cast hhigh
    refine ⟨by push_cast; linarith, by push_cast; linarith, ?_⟩
    rintro (h | h) <;> push_cast at h <;> linarith
  · have hhalf : ((num % den : ℕ) : ℚ) / den = 1 / 2 := by
      rw [div_eq_div_iff hden'.ne' two_ne_zero, one_mul, mul_comm]
      exact_mod_cast (by omega : 2 * (num % den) = den)
    rw [hhalf]
    obtain heven | hodd : k % 2 = 0 ∨ k % 2 = 1 := by omega
    · rw [heven]
      exact ⟨by push_cast; linarith, by push_cast; linarith, fun _ => heven⟩
    · rw [hodd]
      exact ⟨by push_cast; linarith, by push_cast; linarith, fun _ => by omega⟩

/-- An integer power as a quotient of natural ones. -/
theorem zpow_eq_div {b : ℚ} (hb : b ≠ 0) (e : ℤ) : b ^ e = b ^ e.toNat / b ^ (-e).toNat := by
  rw [← zpow_natCast, ← zpow_natCast, ← zpow_sub₀ hb]
  congr 1
  omega

namespace Binary

/-- A quotient whose terms take up a power of two is divided by it. -/
theorem scaled_quotient (num den : ℕ) (q : ℤ) :
    ((num * pow2 (-q).toNat : ℕ) : ℚ) / (den * pow2 q.toNat : ℕ) = num / den / 2 ^ q := by
  rw [zpow_eq_div two_ne_zero]
  simp only [pow2, Nat.pow_eq, Nat.cast_mul, Nat.cast_pow, Nat.cast_ofNat]
  field_simp

theorem scaled_pos {den : ℕ} (hden : 0 < den) (q : ℤ) : 0 < den * pow2 q.toNat :=
  Nat.mul_pos hden (Nat.two_pow_pos _)

theorem log2Quotient_spec {num den : ℕ} (hnum : 0 < num) (hden : 0 < den) :
    (2 : ℚ) ^ log2Quotient num den ≤ num / den ∧
    (num : ℚ) / den < 2 ^ (log2Quotient num den + 1) := by
  have hnum' : (0 : ℚ) < num := by exact_mod_cast hnum
  have hden' : (0 : ℚ) < den := by exact_mod_cast hden
  have hn : (2 : ℚ) ^ num.log2 ≤ num := by exact_mod_cast Nat.log2_self_le hnum.ne'
  have hn' : (num : ℚ) < 2 ^ (num.log2 + 1) := by exact_mod_cast Nat.lt_log2_self
  have hd : (2 : ℚ) ^ den.log2 ≤ den := by exact_mod_cast Nat.log2_self_le hden.ne'
  have hd' : (den : ℚ) < 2 ^ (den.log2 + 1) := by exact_mod_cast Nat.lt_log2_self
  have hlow : (2 : ℚ) ^ ((num.log2 : ℤ) - den.log2 - 1) ≤ num / den := by
    rw [le_div_iff₀ hden', sub_sub, zpow_sub₀ two_ne_zero, div_mul_eq_mul_div,
      div_le_iff₀ (by positivity)]
    exact mul_le_mul hn (by exact_mod_cast hd'.le) hden'.le hnum'.le
  have hhigh : (num : ℚ) / den < 2 ^ ((num.log2 : ℤ) - den.log2 + 1) := by
    rw [div_lt_iff₀ hden', ← add_sub_right_comm, zpow_sub₀ two_ne_zero, div_mul_eq_mul_div,
      lt_div_iff₀ (by positivity)]
    exact mul_lt_mul (by exact_mod_cast hn') (by exact_mod_cast hd) (by positivity) (by positivity)
  rw [log2Quotient]
  generalize (num.log2 : ℤ) - den.log2 = e at hlow hhigh ⊢
  have hscaled : num * pow2 (-e).toNat < den * pow2 e.toNat ↔ (num : ℚ) / den < 2 ^ e := by
    rw [← div_lt_one (by positivity : (0 : ℚ) < 2 ^ e), ← scaled_quotient,
      div_lt_one (by exact_mod_cast scaled_pos hden e), Nat.cast_lt]
  -- e is right or one too large, and the comparison settles which
  split_ifs with h
  · rw [sub_add_cancel]
    exact ⟨hlow, hscaled.1 h⟩
  · exact ⟨not_lt.1 fun h' => h (hscaled.2 h'), hhigh⟩

/-- A positive number is rounded to `k` units of `2 ^ q`. The unit is so small that 53 binary digits
    are left of the number, or else it is the least one. -/
structure RoundedIn (x : ℚ) (q : ℤ) (k : ℕ) : Prop where
  least : -1074 ≤ q
  lt : x < 2 ^ (q + 53)
  full : q = -1074 ∨ 2 ^ (q + 52) ≤ x
  nearest : NearestEven (x / 2 ^ q) k

/-- What rounding a positive quotient does. -/
theorem nearest_spec (negative : Bool) {num den : ℕ} (hnum : 0 < num) (hden : 0 < den) :
    ∃ q k, RoundedIn (num / den) q k ∧
      nearest negative num den = ofMagnitude negative (min (magnitudeBits k q) infinityBits) := by
  obtain ⟨hlow, hhigh⟩ := log2Quotient_spec hnum hden
  have hk := nearestEven_roundEven (num * pow2 (-(max (log2Quotient num den - 52) (-1074))).toNat)
    (scaled_pos hden (max (log2Quotient num den - 52) (-1074)))
  rw [scaled_quotient] at hk
  refine ⟨max (log2Quotient num den - 52) (-1074), _,
    ⟨le_max_right _ _, hhigh.trans_le ?_, ?_, hk⟩, ?_⟩
  · exact zpow_le_zpow_right₀ one_le_two (by omega)
  · rcases max_choice (log2Quotient num den - 52) (-1074) with h | h
    · rw [h, sub_add_cancel]
      exact Or.inr hlow
    · exact Or.inl h
  · rw [nearest, if_neg hnum.ne']
    rfl

theorem lt_of_two_zpow_lt {a b : ℤ} (h : (2 : ℚ) ^ a < 2 ^ b) : a < b :=
  (zpow_lt_zpow_iff_right₀ one_lt_two).1 h

/-- How far below `m · 2 ^ q`, counted in units of `2 ^ q`, the numbers begin that round to it. -/
def gapBelow (m : ℕ) (q : ℤ) : ℚ := if m = 2 ^ 52 ∧ q ≠ -1074 then 1 / 4 else 1 / 2

/-- The numbers that round to `m · 2 ^ q`, both ends among them if `m` is even. -/
structure RoundsTo (m : ℕ) (q : ℤ) (x : ℚ) : Prop where
  low : (m - gapBelow m q) * 2 ^ q ≤ x
  high : x ≤ (m + 1 / 2) * 2 ^ q
  tie : x = (m - gapBelow m q) * 2 ^ q ∨ x = (m + 1 / 2) * 2 ^ q → m % 2 = 0

theorem gapBelow_le (m : ℕ) (q : ℤ) : gapBelow m q ≤ 1 / 2 := by
  rw [gapBelow]
  split_ifs <;> norm_num

theorem RoundsTo.pos {m : ℕ} {q : ℤ} {x : ℚ} (hm : 0 < m) (h : RoundsTo m q x) : 0 < x := by
  have hone : (1 : ℚ) ≤ m := by exact_mod_cast hm
  have hgap := gapBelow_le m q
  exact lt_of_lt_of_le (mul_pos (by linarith) (by positivity)) h.low

/-- What rounds to a double other than zero is at least half the least double. -/
theorem RoundsTo.two_pow_le {m : ℕ} {q : ℤ} {x : ℚ} (hc : Canonical m q) (hm : 0 < m)
    (h : RoundsTo m q x) :
    (2 : ℚ) ^ (-1075 : ℤ) ≤ x := by
  have hone : (1 : ℚ) ≤ m := by exact_mod_cast hm
  have hgap := gapBelow_le m q
  calc (2 : ℚ) ^ (-1075 : ℤ) = 1 / 2 * 2 ^ (-1074 : ℤ) := by
        rw [show (-1075 : ℤ) = -1 + -1074 from rfl, zpow_add₀ two_ne_zero]
        norm_num only
    _ ≤ (m - gapBelow m q) * 2 ^ q :=
        mul_le_mul (by linarith) (zpow_le_zpow_right₀ one_le_two hc.least) (by positivity)
          (by linarith)
    _ ≤ x := h.low

theorem RoundsTo.lt_two_pow {m : ℕ} {q : ℤ} {x : ℚ} (hc : Canonical m q) (h : RoundsTo m q x) :
    x < 2 ^ (1024 : ℤ) := by
  have hm : (m : ℚ) + 1 ≤ 2 ^ 53 := by exact_mod_cast hc.fraction
  calc x ≤ (m + 1 / 2) * 2 ^ q := h.high
    _ < 2 ^ 53 * 2 ^ (971 : ℤ) :=
        mul_lt_mul (by linarith) (zpow_le_zpow_right₀ one_le_two hc.greatest) (by positivity)
          (by positivity)
    _ = 2 ^ (1024 : ℤ) := by
        rw [← zpow_natCast, ← zpow_add₀ two_ne_zero]
        rfl

/-- Counted in units of `2 ^ q`, a number that rounds to `m · 2 ^ q` has `m`
    for its nearest natural. -/
theorem RoundsTo.nearestEven {m : ℕ} {q : ℤ} {x : ℚ} (h : RoundsTo m q x) :
    NearestEven (x / 2 ^ q) m := by
  have hpos : (0 : ℚ) < 2 ^ q := by positivity
  have hgap := gapBelow_le m q
  have hlow : (m : ℚ) - gapBelow m q ≤ x / 2 ^ q := (le_div_iff₀ hpos).2 h.low
  refine ⟨by linarith, (div_le_iff₀ hpos).2 h.high, ?_⟩
  rintro (heq | heq)
  · refine h.tie (Or.inl ?_)
    rw [← div_eq_iff hpos.ne']
    linarith
  · exact h.tie (Or.inr ((div_eq_iff hpos.ne').1 heq))

/-- What rounds to a power of two from below that power is nearly twice as many
    of the smaller units. -/
theorem RoundsTo.nearestEven_below {q : ℤ} {x : ℚ} (hq : q ≠ -1074) (h : RoundsTo (2 ^ 52) q x)
    (hlt : x < 2 ^ (q + 52)) : NearestEven (x / 2 ^ (q - 1)) (2 ^ 53) := by
  have hpos : (0 : ℚ) < 2 ^ (q - 1) := by positivity
  have hunit : (2 : ℚ) ^ q = 2 * 2 ^ (q - 1) := by
    rw [← zpow_one_add₀ two_ne_zero, add_sub_cancel]
  have hlow := h.low
  rw [gapBelow, if_pos ⟨rfl, hq⟩, hunit] at hlow
  rw [zpow_add₀ two_ne_zero, hunit] at hlt
  have hhigh : x / 2 ^ (q - 1) < 2 ^ 53 := by
    rw [div_lt_iff₀ hpos]
    refine hlt.trans_eq ?_
    norm_num
    ring
  refine ⟨?_, ?_, fun _ => by norm_num⟩
  · rw [le_div_iff₀ hpos]
    refine le_trans (le_of_eq ?_) hlow
    push_cast
    ring
  · push_cast
    linarith

/-- The unit is never larger than that of the double. -/
theorem RoundedIn.le_of_roundsTo {x : ℚ} {q q' : ℤ} {k m : ℕ} (hr : RoundedIn x q' k)
    (hc : Canonical m q) (h : RoundsTo m q x) : q' ≤ q := by
  have hpos : (0 : ℚ) < 2 ^ q := by positivity
  have hm : (m : ℚ) + 1 ≤ 2 ^ 53 := by exact_mod_cast hc.fraction
  rcases hr.full with rfl | hfull
  · exact hc.least
  have hupper : (2 : ℚ) ^ (q' + 52) < 2 ^ (q + 53) := by
    refine (hfull.trans h.high).trans_lt ?_
    rw [zpow_add₀ two_ne_zero, mul_comm]
    exact mul_lt_mul_of_pos_left (by norm_num at hm ⊢; linarith) hpos
  have := lt_of_two_zpow_lt hupper
  omega

/-- Where the unit is smaller than that of the double, the double is a power of two, the unit is
    half as large, and the number lies below the power. -/
theorem RoundedIn.eq_of_lt {x : ℚ} {q q' : ℤ} {k m : ℕ} (hr : RoundedIn x q' k) (hc : Canonical m q)
    (h : RoundsTo m q x) (hless : q' < q) : m = 2 ^ 52 ∧ q' = q - 1 ∧ x < 2 ^ (q + 52) := by
  have hpos : (0 : ℚ) < 2 ^ q := by positivity
  have hq : q ≠ -1074 := by
    have := hr.least
    omega
  have hbelow : x < 2 ^ (q + 52) := hr.lt.trans_le (zpow_le_zpow_right₀ one_le_two (by omega))
  have hfraction : (m : ℚ) - gapBelow m q < 2 ^ 52 := by
    have hlt := h.low.trans_lt hbelow
    rw [zpow_add₀ two_ne_zero, mul_comm] at hlt
    exact lt_of_mul_lt_mul_left hlt hpos.le
  have hpower : m = 2 ^ 52 := by
    have hgap := gapBelow_le m q
    have hfull := hc.full.resolve_right hq
    by_contra hne
    have hmore : ((2 ^ 52 + 1 : ℕ) : ℚ) ≤ m := by exact_mod_cast (by omega : 2 ^ 52 + 1 ≤ m)
    push_cast at hmore
    linarith
  subst hpower
  have hlower : (2 : ℚ) ^ (q + 51) < 2 ^ (q' + 53) := by
    refine lt_of_le_of_lt ?_ (h.low.trans_lt hr.lt)
    rw [gapBelow, if_pos ⟨rfl, hq⟩, zpow_add₀ two_ne_zero, mul_comm]
    exact mul_le_mul_of_nonneg_right (by norm_num) hpos.le
  have := lt_of_two_zpow_lt hlower
  exact ⟨rfl, by omega, hbelow⟩

/-- A quotient in the interval around a canonical magnitude is rounded to it. -/
theorem nearest_eq_of_roundsTo (negative : Bool) {num den m : ℕ} {q : ℤ} (hnum : 0 < num)
    (hden : 0 < den) (hc : Canonical m q) (h : RoundsTo m q ((num : ℚ) / den)) :
    nearest negative num den = ofMagnitude negative (magnitudeBits m q) := by
  obtain ⟨q', k, hr, heq⟩ := nearest_spec negative hnum hden
  suffices hbits : magnitudeBits k q' = magnitudeBits m q by
    rw [heq, hbits, min_eq_left (magnitudeBits_lt hc).le]
  rcases (hr.le_of_roundsTo hc h).eq_or_lt with rfl | hless
  · rw [hr.nearest.unique h.nearestEven]
  · obtain ⟨rfl, rfl, hbelow⟩ := hr.eq_of_lt hc h hless
    have hq := hr.least
    rw [hr.nearest.unique (h.nearestEven_below (by omega) hbelow)]
    simp only [magnitudeBits, pow2, Nat.pow_eq]
    omega

theorem nearest_zero (negative : Bool) (den : ℕ) :
    nearest negative 0 den = ofMagnitude negative 0 := rfl

/-- Half way between the largest double and `2 ^ 1024`. What lies below it has a double. -/
def overflow : ℕ := (2 ^ 54 - 1) * 2 ^ 970

theorem cast_overflow : (overflow : ℚ) = (2 ^ 53 - 1 / 2) * 2 ^ (971 : ℤ) := by
  have hpower : (2 : ℚ) ^ (971 : ℤ) = 2 * 2 ^ (970 : ℕ) := by
    rw [← pow_succ']
    exact zpow_natCast 2 971
  rw [overflow, Nat.cast_mul, Nat.cast_pow, hpower, ← mul_assoc]
  norm_num only

theorem infinityBits_le_iff (k : ℕ) (q : ℤ) :
    infinityBits ≤ magnitudeBits k q ↔ 2047 * 2 ^ 52 ≤ (q + 1074).toNat * 2 ^ 52 + k := Iff.rfl

/-- Below half a unit beyond the largest double, rounding ends at a double. -/
theorem RoundedIn.magnitudeBits_lt {x : ℚ} {q : ℤ} {k : ℕ} (hr : RoundedIn x q k)
    (hx : x < overflow) :
    magnitudeBits k q < infinityBits := by
  have hpos : (0 : ℚ) < 2 ^ q := by positivity
  have hk := hr.nearest.low
  rw [cast_overflow] at hx
  have hq : q ≤ 971 := by
    rcases hr.full with rfl | hfull
    · decide
    have hupper : (2 : ℚ) ^ (q + 52) < 2 ^ (53 + 971 : ℤ) := by
      refine hfull.trans_lt (hx.trans ?_)
      rw [zpow_add₀ two_ne_zero 53 971]
      exact mul_lt_mul_of_pos_right (by norm_num) (by positivity)
    have := lt_of_two_zpow_lt hupper
    omega
  rw [← not_le, infinityBits_le_iff]
  -- only at the greatest exponent does the bound on x matter
  rcases hq.eq_or_lt with rfl | hless
  · have hcount : (k : ℚ) < 2 ^ 53 := by
      rw [← div_lt_iff₀ hpos] at hx
      linarith
    have : k < 2 ^ 53 := by exact_mod_cast hcount
    omega
  · have hcount : (k : ℚ) < 2 ^ 53 + 1 := by
      have hscaled : x / 2 ^ q < 2 ^ 53 := by
        rw [div_lt_iff₀ hpos, mul_comm]
        exact hr.lt.trans_eq (zpow_add₀ two_ne_zero q 53)
      linarith
    have : k < 2 ^ 53 + 1 := by exact_mod_cast hcount
    omega

/-- From half a unit beyond the largest double on, rounding ends at infinity. -/
theorem RoundedIn.infinityBits_le {x : ℚ} {q : ℤ} {k : ℕ} (hr : RoundedIn x q k)
    (hx : overflow ≤ x) :
    infinityBits ≤ magnitudeBits k q := by
  have hpos : (0 : ℚ) < 2 ^ q := by positivity
  have hk := hr.nearest.high
  rw [cast_overflow] at hx
  have hq : 971 ≤ q := by
    have hlower : (2 : ℚ) ^ (52 + 971 : ℤ) < 2 ^ (q + 53) := by
      refine lt_of_le_of_lt ?_ (hx.trans_lt hr.lt)
      rw [zpow_add₀ two_ne_zero 52 971]
      exact mul_le_mul_of_nonneg_right (by norm_num) (by positivity)
    have := lt_of_two_zpow_lt hlower
    omega
  rw [infinityBits_le_iff]
  obtain rfl | hmore := hq.eq_or_lt
  · -- half way up to the next power of two the tie goes to that power
    rw [← le_div_iff₀ hpos] at hx
    have hcount : (2 : ℚ) ^ 53 < k + 2 := by linarith
    have hne : k ≠ 2 ^ 53 - 1 := by
      rintro rfl
      have heven := hr.nearest.tie (Or.inr (le_antisymm hk (le_trans (by norm_num) hx)))
      omega
    have : 2 ^ 53 < k + 2 := by exact_mod_cast hcount
    omega
  · have hcount : (2 : ℚ) ^ (52 : ℤ) < k + 1 := by
      have hfull := hr.full.resolve_left (by omega)
      rw [zpow_add₀ two_ne_zero, mul_comm, ← le_div_iff₀ hpos] at hfull
      linarith
    have : 2 ^ 52 < k + 1 := by exact_mod_cast hcount
    omega

/-- Rounding ends at infinity exactly from half a unit beyond the largest double on. -/
theorem isInf_nearest (negative : Bool) (num : ℕ) {den : ℕ} (hden : 0 < den) :
    (nearest negative num den).isInf = true ↔ (overflow : ℚ) ≤ num / den := by
  obtain rfl | hnum := num.eq_zero_or_pos
  · have hpos : (0 : ℚ) < overflow := by
      rw [cast_overflow]
      exact mul_pos (by norm_num) (by positivity)
    rw [nearest_zero, isInf_ofMagnitude _ (Nat.zero_le _), Nat.cast_zero, zero_div]
    exact iff_of_false (by decide) (not_le.2 hpos)
  · obtain ⟨q, k, hr, heq⟩ := nearest_spec negative hnum hden
    rw [heq, isInf_ofMagnitude _ (min_le_right _ _), min_eq_right_iff]
    exact ⟨fun hinf => not_lt.1 fun hx => absurd hinf (not_le.2 (hr.magnitudeBits_lt hx)),
      hr.infinityBits_le⟩

end Binary

/-- An integer has a double unless it lies beyond their range. -/
theorem finiteOfInt?_eq (n : ℤ) :
    finiteOfInt? n =
      if n.natAbs < Binary.overflow then some (Binary.nearest (decide (n < 0)) n.natAbs 1)
        else none := by
  have hinf := Binary.isInf_nearest (decide (n < 0)) n.natAbs one_pos
  rw [Nat.cast_one, div_one, Nat.cast_le] at hinf
  rw [finiteOfInt?]
  split_ifs with h h' h'
  · exact absurd (hinf.1 h) (not_le.2 h')
  · rfl
  · rfl
  · exact absurd (hinf.2 (not_lt.1 h')) h

end Simplex
