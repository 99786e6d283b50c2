import Mathlib.Algebra.Order.Round
import Mathlib.Data.Rat.Floor
import Mathlib.Data.Rat.Lemmas
import Mathlib.Tactic.FieldSimp
import Mathlib.Tactic.Linarith
import Mathlib.Tactic.LinearCombination
import Mathlib.Tactic.Positivity
import Mathlib.Tactic.Ring
import Simplex.Number.Fraction
/-! The fraction nearest to a number among those with a bounded denominator. Two neighbours `a/b`
    and `c/d`, with `a·d - c·b = ±1`, span all fractions: every numerator and denominator is a
    combination of theirs with integers for weights, and what lies between the two has both weights
    positive, so a denominator of `b + d` at least. The expansion keeps the number between two
    neighbours. When the next convergent is beyond the bound, the last one and the farthest fraction
    on the way to the next are neighbours whose denominators add up to more than the bound, and the
    nearer of them is the nearest of all. -/

namespace Simplex.Fraction

/-- The denominator of `s` is within the bound, and no fraction of which this is
    true is closer to `r`. -/
structure IsNearest (bound : ℕ) (r s : ℚ) : Prop where
  den_le : s.den ≤ bound
  abs_sub_le : ∀ t : ℚ, t.den ≤ bound → |s - r| ≤ |t - r|

theorem isNearest_self {bound : ℕ} {r : ℚ} (h : r.den ≤ bound) : IsNearest bound r r := by
  refine ⟨h, fun t _ => ?_⟩
  rw [sub_self, abs_zero]
  exact abs_nonneg _

theorem den_div_le (a : ℤ) {b : ℕ} (hb : 0 < b) : ((a : ℚ) / b).den ≤ b := by
  have hdvd : ((Rat.divInt a b).den : ℤ) ∣ b := Rat.den_dvd a b
  rw [Rat.divInt_eq_div, Int.cast_natCast] at hdvd
  exact Nat.le_of_dvd hb (by exact_mod_cast hdvd)

/-- The multiples of one unit fraction leave gaps of its size, so what is nearest
    is half as far at most. -/
theorem IsNearest.abs_sub_le_half {bound : ℕ} {r s : ℚ} (hb : 0 < bound) (h : IsNearest bound r s) :
    |s - r| ≤ 1 / (2 * bound) := by
  have hpos : (0 : ℚ) < bound := by exact_mod_cast hb
  have hround : |r * bound - round (r * bound)| ≤ 1 / 2 := abs_sub_round _
  calc |s - r| ≤ |(round (r * bound) : ℚ) / bound - r| := h.abs_sub_le _ (den_div_le _ hb)
    _ = |(r * bound - round (r * bound)) / bound| := by
        rw [← abs_neg]
        congr 1
        field_simp
        ring
    _ = |r * bound - round (r * bound)| / bound := by rw [abs_div, abs_of_pos hpos]
    _ ≤ 1 / 2 / bound := div_le_div_of_nonneg_right hround hpos.le
    _ = 1 / (2 * bound) := div_div _ _ _

/-- A fraction other than zero is one over its denominator at least. -/
theorem one_div_le_abs {bound : ℕ} {t : ℚ} (ht : t ≠ 0) (hb : t.den ≤ bound) :
    1 / (bound : ℚ) ≤ |t| := by
  have hden : (0 : ℚ) < t.den := by exact_mod_cast t.den_pos
  have hnum : (1 : ℚ) ≤ |(t.num : ℚ)| := by exact_mod_cast Int.one_le_abs (Rat.num_ne_zero.2 ht)
  calc 1 / (bound : ℚ) ≤ 1 / t.den := one_div_le_one_div_of_le hden (by exact_mod_cast hb)
    _ ≤ |(t.num : ℚ)| / t.den := div_le_div_of_nonneg_right hnum hden.le
    _ = |t| := by
        nth_rewrite 3 [← Rat.num_div_den t]
        rw [abs_div, abs_of_pos hden]

/-- Up to half the least fraction, zero is the nearest one. -/
theorem isNearest_zero {bound : ℕ} {r : ℚ} (hb : 0 < bound) (h : |r| ≤ 1 / (2 * bound)) :
    IsNearest bound r 0 := by
  refine ⟨hb, fun t ht => ?_⟩
  rw [zero_sub, abs_neg]
  by_cases hzero : t = 0
  · rw [hzero, zero_sub, abs_neg]
  · have hleast := one_div_le_abs hzero ht
    have hsplit : 1 / (bound : ℚ) = 1 / (2 * bound) + 1 / (2 * bound) := by ring
    have htriangle := abs_sub_abs_le_abs_sub t r
    linarith

/-! ### Neighbours -/

/-- The fraction `r` is `a/b` and `c/d` put together with the weights `x` and `y`, and
    these two are neighbours. -/
structure Combines (r : ℚ) (a b c d x y : ℤ) : Prop where
  num : r.num = a * x + c * y
  den : (r.den : ℤ) = b * x + d * y
  det : |a * d - c * b| = 1

namespace Combines
variable {r : ℚ} {a b c d x y : ℤ}

theorem swap (h : Combines r a b c d x y) : Combines r c d a b y x := by
  refine ⟨h.num.trans (add_comm _ _), h.den.trans (add_comm _ _), ?_⟩
  rw [abs_sub_comm]
  exact h.det

/-- The second neighbour moves towards the first one. -/
theorem shift (h : Combines r a b c d x y) (k : ℤ) :
    Combines r a b (c + k * a) (d + k * b) (x - k * y) y := by
  refine ⟨?_, ?_, ?_⟩
  · rw [h.num]
    ring
  · rw [h.den]
    ring
  · rw [← h.det]
    congr 1
    ring

/-- Two neighbours span all fractions. -/
theorem exists_weights (h : Combines r a b c d x y) (s : ℚ) :
    ∃ u w, s.num = a * u + c * w ∧ (s.den : ℤ) = b * u + d * w := by
  have hdet : (a * d - c * b) * (a * d - c * b) = 1 := by
    rw [← abs_mul_abs_self, h.det, one_mul]
  refine ⟨(a * d - c * b) * (s.num * d - c * s.den),
    (a * d - c * b) * (a * s.den - s.num * b), ?_, ?_⟩
  · linear_combination (-s.num) * hdet
  · linear_combination (-(s.den : ℤ)) * hdet

/-- The distance of a combination, by its weights. -/
theorem abs_sub_eq (h : Combines r a b c d x y) {s u w : ℤ} {t : ℕ} (ht : 0 < t)
    (hs : s = a * u + c * w) (ht' : (t : ℤ) = b * u + d * w) :
    |(s : ℚ) / t - r| = |(u * y - w * x : ℤ)| / (t * r.den : ℕ) := by
  have hcross : s * r.den - t * r.num = (a * d - c * b) * (u * y - w * x) := by
    rw [hs, ht', h.num, h.den]
    ring
  have hpos : (0 : ℚ) < (t * r.den : ℕ) := by exact_mod_cast Nat.mul_pos ht r.den_pos
  have ht : (t : ℚ) ≠ 0 := by exact_mod_cast ht.ne'
  have hden : (r.den : ℚ) ≠ 0 := by exact_mod_cast r.den_ne_zero
  calc |(s : ℚ) / t - r| = |(s : ℚ) / t - r.num / r.den| := by rw [Rat.num_div_den]
    _ = |((s * r.den - t * r.num : ℤ) : ℚ) / (t * r.den : ℕ)| := by
        rw [div_sub_div _ _ ht hden]
        push_cast
        rfl
    _ = |(u * y - w * x : ℤ)| / (t * r.den : ℕ) := by
        rw [abs_div, abs_of_pos hpos, ← Int.cast_abs, hcross, abs_mul, h.det, one_mul]

section Closest
variable {b d : ℕ} (hb : 0 < b) (hx : 0 ≤ x) (hy : 0 ≤ y) {s : ℚ}
include hb hx hy

/-- What does not lie beyond the first neighbour is no closer than that. -/
theorem le_of_nonpos (h : Combines r a b c d x y) {u w : ℤ} (hnum : s.num = a * u + c * w)
    (hden : (s.den : ℤ) = b * u + d * w) (hw : w ≤ 0) : |(a : ℚ) / b - r| ≤ |s - r| := by
  have hs : (0 : ℤ) < s.den := by exact_mod_cast s.den_pos
  have hr : (0 : ℤ) < r.den := by exact_mod_cast r.den_pos
  have hdw : d * w ≤ 0 := mul_nonpos_of_nonneg_of_nonpos d.cast_nonneg hw
  have hwx : w * x ≤ 0 := mul_nonpos_of_nonpos_of_nonneg hw hx
  have hu : 0 < u := pos_of_mul_pos_right (by omega : 0 < b * u) b.cast_nonneg
  have hsign : 0 ≤ u * y - w * x := by
    have := mul_nonneg hu.le hy
    omega
  have hcross : y * s.den ≤ (u * y - w * x) * b := by
    have hdwy := mul_nonpos_of_nonpos_of_nonneg hdw hy
    have hwxb := mul_nonpos_of_nonpos_of_nonneg hwx b.cast_nonneg
    rw [hden]
    linarith
  have hscaled : y * (s.den * r.den) ≤ (u * y - w * x) * (b * r.den) := by
    have := mul_le_mul_of_nonneg_right hcross hr.le
    linarith
  -- both distances over their denominators, and then `hscaled` compares them
  have hfirst := h.abs_sub_eq hb (by ring : a = a * 1 + c * 0) (by ring)
  have hother := h.abs_sub_eq s.den_pos hnum hden
  rw [one_mul, zero_mul, sub_zero, abs_of_nonneg hy] at hfirst
  rw [Rat.num_div_den, abs_of_nonneg hsign] at hother
  rw [hfirst, hother, div_le_div_iff₀ (by exact_mod_cast Nat.mul_pos hb r.den_pos)
    (by exact_mod_cast Nat.mul_pos s.den_pos r.den_pos)]
  exact_mod_cast hscaled

/-- The test that chooses between two neighbours compares their distances. -/
theorem abs_sub_le_abs_sub_iff (h : Combines r a b c d x y) (hd : 0 < d) :
    |(a : ℚ) / b - r| ≤ |(c : ℚ) / d - r| ↔ 2 * y * d ≤ r.den := by
  have hr : (0 : ℤ) < r.den := by exact_mod_cast r.den_pos
  have hfirst := h.abs_sub_eq hb (by ring : a = a * 1 + c * 0) (by ring)
  have hsecond := h.abs_sub_eq hd (by ring : c = a * 0 + c * 1) (by ring)
  rw [one_mul, zero_mul, sub_zero, abs_of_nonneg hy] at hfirst
  rw [one_mul, zero_mul, zero_sub, abs_neg, abs_of_nonneg hx] at hsecond
  rw [hfirst, hsecond, div_le_div_iff₀ (by exact_mod_cast Nat.mul_pos hb r.den_pos)
    (by exact_mod_cast Nat.mul_pos hd r.den_pos)]
  have hcast : (y : ℚ) * (d * r.den : ℕ) ≤ x * (b * r.den : ℕ) ↔ y * d * r.den ≤ x * b * r.den := by
    rw [← Int.cast_le (R := ℚ)]
    push_cast
    rw [mul_assoc, mul_assoc]
  rw [hcast, mul_le_mul_iff_left₀ hr, h.den]
  constructor <;> intro <;> linarith

/-- Of two neighbours around a number, one is as close as any fraction with a
    denominator below their sum. -/
theorem le_or_le (h : Combines r a b c d x y) (hd : 0 < d) (hs : s.den < b + d) :
    |(a : ℚ) / b - r| ≤ |s - r| ∨ |(c : ℚ) / d - r| ≤ |s - r| := by
  obtain ⟨u, w, hnum, hden⟩ := h.exists_weights s
  rcases le_or_gt w 0 with hw | hw
  · exact .inl (h.le_of_nonpos hb hx hy hnum hden hw)
  rcases le_or_gt u 0 with hu | hu
  · exact .inr
      (h.swap.le_of_nonpos hd hy hx (hnum.trans (add_comm _ _)) (hden.trans (add_comm _ _)) hu)
  · -- a fraction between the two has a denominator of their sum at least
    have hbu : (b : ℤ) * 1 ≤ b * u := mul_le_mul_of_nonneg_left hu b.cast_nonneg
    have hdw : (d : ℤ) * 1 ≤ d * w := mul_le_mul_of_nonneg_left hw d.cast_nonneg
    omega

end Closest

end Combines

/-! ### The expansion -/

/-- A round of the expansion of `r`, with `n / d` not yet expanded. -/
structure Expanding (bound : ℕ) (r : ℚ) (p₀ : ℤ) (q₀ : ℕ) (p₁ : ℤ) (q₁ : ℕ) (n : ℤ) (d : ℕ) : Prop
    extends Combines r p₁ q₁ p₀ q₀ n d where
  first_le : q₀ ≤ bound
  second_le : q₁ ≤ bound
  begun : q₀ = 1 ∧ q₁ = 0 ∨ 0 < q₁ ∧ d < n

theorem expanding_start {bound : ℕ} (hb : 0 < bound) (r : ℚ) :
    Expanding bound r 0 1 1 0 r.num r.den := by
  refine ⟨⟨?_, ?_, ?_⟩, hb, Nat.zero_le _, .inl ⟨rfl, rfl⟩⟩ <;> simp

namespace Expanding
variable {bound : ℕ} {r : ℚ} {p₀ p₁ n : ℤ} {q₀ q₁ d : ℕ}

theorem toNat_mul (h : Expanding bound r p₀ q₀ p₁ q₁ n d) :
    ((n / d).toNat * q₁ : ℤ) = n / d * q₁ := by
  rcases h.begun with ⟨-, hq⟩ | ⟨-, hn⟩
  · rw [hq, Nat.cast_zero, mul_zero, mul_zero]
  · rw [Int.toNat_of_nonneg (Int.ediv_nonneg (by omega) (by omega))]

theorem step (h : Expanding bound r p₀ q₀ p₁ q₁ n d) (hd : d ≠ 0)
    (hq : q₀ + (n / d).toNat * q₁ ≤ bound) :
    Expanding bound r p₁ q₁ (p₀ + n / d * p₁) (q₀ + (n / d).toNat * q₁) d (n % d).toNat := by
  have hd' : (0 : ℤ) < d := by omega
  have hmod : ((n % d).toNat : ℤ) = n - n / d * d := by
    have := Int.emod_add_mul_ediv n d
    rw [Int.toNat_of_nonneg (Int.emod_nonneg _ hd'.ne')]
    linarith
  refine ⟨?_, h.second_le, hq, .inr ⟨?_, ?_⟩⟩
  · have hnext := (h.toCombines.shift (n / d)).swap
    rwa [hmod, Nat.cast_add, Nat.cast_mul, h.toNat_mul]
  · rcases h.begun with ⟨hq₀, -⟩ | ⟨hq₁, hn⟩
    · omega
    · have hquot : 0 < (n / d).toNat := by
        have : 1 ≤ n / (d : ℤ) := (Int.le_ediv_iff_mul_le hd').2 (by omega)
        omega
      have := Nat.mul_pos hquot hq₁
      omega
  · have := Int.emod_lt_of_pos n hd'
    have := Int.emod_nonneg n hd'.ne'
    omega

/-- The remainder does not vanish as long as the denominator of the number is beyond the bound. -/
theorem remainder_ne_zero (h : Expanding bound r p₀ q₀ p₁ q₁ n d) (hr : bound < r.den) : d ≠ 0 := by
  rintro rfl
  have hnum := h.num
  have hden := h.den
  rw [Nat.cast_zero, mul_zero, add_zero] at hnum hden
  have hunit : n.natAbs ∣ 1 := by
    rw [← r.reduced.gcd_eq_one]
    refine Nat.dvd_gcd (Int.natAbs_dvd_natAbs.2 ⟨p₁, hnum.trans (mul_comm _ _)⟩) ?_
    exact Int.natCast_dvd_natCast.1 (Int.natAbs_dvd.2 ⟨q₁, hden.trans (mul_comm _ _)⟩)
  have hsecond := h.second_le
  rcases h.begun with ⟨-, hq⟩ | ⟨-, hn⟩
  · rw [hq, Nat.cast_zero, zero_mul] at hden
    exact r.den_ne_zero (by exact_mod_cast hden)
  · have hn : n = 1 := by
      have := Nat.dvd_one.1 hunit
      omega
    rw [hn, mul_one, Nat.cast_inj] at hden
    omega

end Expanding

/-- The round in which the expansion ends: the next convergent is beyond the bound. -/
structure Convergents.Last (bound : ℕ) (r : ℚ) (c : Convergents) (n : ℤ) : Prop
    extends Expanding bound r c.p₀ c.q₀ c.p₁ c.q₁ n c.remainder where
  beyond : bound < c.q₀ + (n / c.remainder).toNat * c.q₁

theorem exists_last_expand {bound : ℕ} {r : ℚ} (hr : bound < r.den) {p₀ p₁ n : ℤ} {q₀ q₁ d : ℕ}
    (h : Expanding bound r p₀ q₀ p₁ q₁ n d) :
    ∃ n', (expand bound n d p₀ q₀ p₁ q₁).Last bound r n' := by
  induction n, d, p₀, q₀, p₁, q₁ using expand.induct bound with
  | case1 n p₀ q₀ p₁ q₁ => exact absurd rfl (h.remainder_ne_zero hr)
  | case2 n d p₀ q₀ p₁ q₁ hd a q₂ hq =>
    rw [expand, dif_neg hd, if_pos hq]
    exact ⟨n, h, hq⟩
  | case3 n d p₀ q₀ p₁ q₁ hd a q₂ hq ih =>
    rw [expand, dif_neg hd, if_neg hq]
    exact ih (h.step hd (not_lt.1 hq))

namespace Convergents
variable {bound : ℕ} {r : ℚ} {c : Convergents} {n : ℤ}

theorem Last.second_pos (h : c.Last bound r n) (hb : 0 < bound) : 0 < c.q₁ ∧ c.remainder < n := by
  rcases h.begun with ⟨hq₀, hq₁⟩ | hbegun
  · have hbeyond := h.beyond
    rw [hq₀, hq₁] at hbeyond
    omega
  · exact hbegun

/-- How many times the last convergent is added to the one before it within the bound. -/
def steps (c : Convergents) (bound : ℕ) : ℕ := (bound - c.q₀) / c.q₁

/-- The farthest fraction on the way to the next convergent has its denominator within the bound,
    and with that of the last convergent it is beyond. -/
theorem Last.steps_spec (h : c.Last bound r n) (hb : 0 < bound) :
    c.q₀ + c.steps bound * c.q₁ ≤ bound ∧ bound < c.q₁ + (c.q₀ + c.steps bound * c.q₁) := by
  have hq := (h.second_pos hb).1
  have hfirst := h.first_le
  have hmul := Nat.div_mul_le_self (bound - c.q₀) c.q₁
  have hlt := Nat.lt_div_mul_add (a := bound - c.q₀) hq
  rw [← steps] at hmul hlt
  omega

/-- The number lies between the last convergent and the farthest fraction on the way to the next. -/
theorem Last.combines (h : c.Last bound r n) (hb : 0 < bound) :
    Combines r c.p₁ c.q₁ (c.p₀ + c.steps bound * c.p₁) (c.q₀ + c.steps bound * c.q₁ : ℕ)
        (n - c.steps bound * c.remainder) c.remainder ∧
      0 ≤ n - c.steps bound * c.remainder := by
  obtain ⟨hq, hn⟩ := h.second_pos hb
  constructor
  · have hshift := h.toCombines.shift (c.steps bound)
    rwa [Nat.cast_add, Nat.cast_mul]
  · have hless : c.steps bound ≤ (n / c.remainder).toNat := by
      refine Nat.div_le_of_le_mul ?_
      have hbeyond := h.beyond
      rw [mul_comm]
      omega
    have hquot : 0 ≤ n / (c.remainder : ℤ) := Int.ediv_nonneg (by omega) (by omega)
    have hle : (c.steps bound : ℤ) * c.remainder ≤ n / c.remainder * c.remainder :=
      mul_le_mul_of_nonneg_right (by omega) (by omega)
    obtain hzero | hne := eq_or_ne (c.remainder : ℤ) 0
    · rw [hzero, mul_zero]
      omega
    · have := Int.ediv_mul_le n hne
      omega

end Convergents

/-- The fraction that is taken is the nearest one. -/
theorem isNearest_nearestWithin {bound : ℕ} (hb : 0 < bound) (r : ℚ) :
    IsNearest bound r (nearestWithin bound r) := by
  rw [nearestWithin]
  split_ifs with hr
  · exact isNearest_self hr
  obtain ⟨n, hlast⟩ := exists_last_expand (not_le.1 hr) (expanding_start hb r)
  dsimp only
  generalize expand bound r.num r.den 0 1 1 0 = c at hlast ⊢
  rw [← Convergents.steps]
  obtain ⟨hcombines, hrest⟩ := hlast.combines hb
  obtain ⟨hq, -⟩ := hlast.second_pos hb
  obtain ⟨hle, hbeyond⟩ := hlast.steps_spec hb
  have hsecond := hlast.second_le
  generalize c.q₀ + c.steps bound * c.q₁ = q at hcombines hle hbeyond ⊢
  generalize c.p₀ + c.steps bound * c.p₁ = p at hcombines ⊢
  have hpos : 0 < q := by omega
  -- nothing within the bound is nearer than both the last convergent and the last step beyond it
  have hchoice := hcombines.abs_sub_le_abs_sub_iff hq hrest (Nat.cast_nonneg _) hpos
  have hclosest (t : ℚ) (ht : t.den ≤ bound) :=
    hcombines.le_or_le hq hrest (Nat.cast_nonneg _) (s := t) hpos (by omega)
  rw [Rat.mkRat_eq_div, Rat.mkRat_eq_div]
  split_ifs with htest
  · have hfirst := hchoice.2 (by exact_mod_cast htest)
    refine ⟨(den_div_le _ hq).trans hsecond, fun t ht => ?_⟩
    rcases hclosest t ht with h | h
    · exact h
    · exact hfirst.trans h
  · have hother := (not_le.1 (mt hchoice.1 (by exact_mod_cast htest))).le
    refine ⟨(den_div_le _ hpos).trans hle, fun t ht => ?_⟩
    rcases hclosest t ht with h | h
    · exact hother.trans h
    · exact h

end Simplex.Fraction
