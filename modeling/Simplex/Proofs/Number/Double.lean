import Simplex.Proofs.Number.Rounding
/-! Doubles as exact numbers. A double that is finite stands for a rational number, and what is
    computed with doubles is said in these numbers: the absolute value and the order are theirs,
    rounding takes the nearest of them, and the difference of two doubles is exact if it is no
    larger than either of them. -/

namespace Simplex.Binary

open Float.Model (Format UnpackedFloat totalExponent)
open Float.Model.UnpackedFloat (Sign ExtendedMantissa Accuracy)

/-- The double `x` is finite and stands for `v`. -/
def HasValue (x : Float) (v : ℚ) : Prop := (ofFloat x).toRat? = some v

/-- One, with the given sign. -/
def sign (negative : Bool) : ℚ := if negative then -1 else 1

@[simp] theorem sign_false : sign false = 1 := rfl

@[simp] theorem sign_true : sign true = -1 := rfl

theorem abs_sign_mul (negative : Bool) {a : ℚ} (ha : 0 ≤ a) : |sign negative * a| = a := by
  cases negative <;> simp [abs_of_nonneg ha]

theorem toRat?_finite (negative : Bool) (m : ℕ) (q : ℤ) :
    (finite negative m q).toRat? = some (sign negative * (m * 2 ^ q)) := by
  have hquotient : mkRat (num m q) (den q) = m * 2 ^ q := by
    rw [Rat.mkRat_eq_div, num, den, zpow_eq_div two_ne_zero]
    simp only [pow2, Nat.pow_eq, Nat.cast_mul, Nat.cast_pow, Nat.cast_ofNat, Int.cast_mul,
      Int.cast_natCast, Int.cast_pow, Int.cast_ofNat, mul_div_assoc]
  rw [toRat?, hquotient]
  cases negative <;> simp [sign]

theorem HasValue.exists_finite {x : Float} {v : ℚ} (h : HasValue x v) :
    ∃ negative m q, ofFloat x = .finite negative m q ∧ Canonical m q ∧
    v = sign negative * (m * 2 ^ q) := by
  rw [HasValue] at h
  cases hx : ofFloat x with
  | nan =>
    rw [hx] at h
    cases h
  | infinite =>
    rw [hx] at h
    cases h
  | finite negative m q =>
    rw [hx, toRat?_finite, Option.some_inj] at h
    exact ⟨negative, m, q, rfl, (ofFloat_finite hx).1, h.symm⟩

theorem ofFloat_ofMagnitude (negative : Bool) {m : ℕ} {q : ℤ} (hc : Canonical m q) :
    ofFloat (ofMagnitude negative (magnitudeBits m q)) = .finite negative m q := by
  have hlt := magnitudeBits_lt hc
  have hbits := toBits_ofMagnitude negative hlt.le
  obtain ⟨hm, hleast, hgreatest, hfull⟩ := hc
  rw [ofFloat_eq]
  generalize (ofMagnitude negative (magnitudeBits m q)).toBits.toNat = bits at hbits
  simp only [magnitudeBits, infinityBits, pow2, Nat.pow_eq] at hbits hlt
  have hsign : (bits / 2 ^ 63 == 1) = negative := by
    rw [hbits]
    cases negative <;> simp <;> omega
  have htop : (if negative then 2 ^ 63 else 0) % 2 ^ 63 = 0 := by
    split <;> rfl
  rw [hsign, if_neg (by omega)]
  split_ifs with hfirst
  · rw [finite.injEq]
    exact ⟨rfl, by omega, by omega⟩
  · rw [finite.injEq]
    exact ⟨rfl, by omega, by omega⟩

theorem hasValue_ofMagnitude (negative : Bool) {m : ℕ} {q : ℤ} (hc : Canonical m q) :
    HasValue (ofMagnitude negative (magnitudeBits m q)) (sign negative * (m * 2 ^ q)) := by
  rw [HasValue, ofFloat_ofMagnitude negative hc, toRat?_finite]

/-! ### The unpacked form -/

/-- The sign as the operations on doubles have it. -/
def toSign (negative : Bool) : Sign := if negative then .negative else .positive

/-- A finite number as the operations on doubles have it. -/
def unpacked (negative : Bool) (m : ℕ) (q : ℤ) : UnpackedFloat :=
  if h : 0 < m then .finite (toSign negative) m q h else .zero (toSign negative)

theorem unpacked_zero (negative : Bool) (q : ℤ) :
    unpacked negative 0 q = .zero (toSign negative) := rfl

theorem unpacked_pos (negative : Bool) {m : ℕ} (hm : 0 < m) (q : ℤ) :
    unpacked negative m q = .finite (toSign negative) m q hm := dif_pos hm

theorem signField_eq (b : BitVec 64) : signField b = toSign (b.toNat / 2 ^ 63 == 1) := by
  have hlt := b.isLt
  have hbit : (@UnpackedFloat.unpackSign Format.binary64 b).toNat = b.toNat / 2 ^ 63 := by
    simp [UnpackedFloat.unpackSign, BitVec.extractLsb, BitVec.extractLsb'_toNat,
      Nat.shiftRight_eq_div_pow]
    omega
  have hzero : @UnpackedFloat.unpackSign Format.binary64 b = 0#1 ↔ b.toNat / 2 ^ 63 = 0 := by
    rw [← BitVec.toNat_inj, hbit]
    rfl
  rw [signField, Sign.ofBitVec, toSign]
  by_cases h : b.toNat / 2 ^ 63 = 0
  · rw [if_pos (hzero.2 h), h]
    rfl
  · rw [if_neg (mt hzero.1 h), show b.toNat / 2 ^ 63 = 1 by omega]
    rfl

/-- The operations take a finite double apart as `ofFloat` does. -/
theorem unpack_eq {x : Float} {negative : Bool} {m : ℕ} {q : ℤ}
    (h : ofFloat x = .finite negative m q) :
    x.toModel.unpack = unpacked negative m q := by
  have hfraction := toNat_fractionField x.toBits.toBitVec
  have hexponent := toNat_exponentField x.toBits.toBitVec
  have hsign := signField_eq x.toBits.toBitVec
  have hsum : (1#1 ++ fractionField x.toBits.toBitVec).toNat =
      (fractionField x.toBits.toBitVec).toNat + 2 ^ 52 := by
    rw [BitVec.toNat_append, ← Nat.shiftLeft_add_eq_or_of_lt (fractionField x.toBits.toBitVec).isLt,
      add_comm]
    rfl
  rw [UInt64.toNat_toBitVec] at hfraction hexponent hsign
  rw [ofFloat_eq, ← hfraction, ← hexponent] at h
  have hlast : exponentField x.toBits.toBitVec = -1#11 ↔
      (exponentField x.toBits.toBitVec).toNat = 2047 := by
    rw [← BitVec.toNat_inj]
    rfl
  have hfirst : exponentField x.toBits.toBitVec = 0#11 ↔
      (exponentField x.toBits.toBitVec).toNat = 0 := by
    rw [← BitVec.toNat_inj]
    rfl
  change UnpackedFloat.unpack Format.binary64 x.toBits.toBitVec = _
  unfold UnpackedFloat.unpack
  dsimp only
  split_ifs at h with h1 _ h0 <;> cases h <;> rw [if_neg (mt hlast.1 h1)]
  · rw [if_pos (hfirst.2 h0), unpacked]
    by_cases hm : fractionField x.toBits.toBitVec = 0#52
    · rw [dif_pos hm, dif_neg (by rw [hm]; decide), ← hsign]
    · have hpos : 0 < (fractionField x.toBits.toBitVec).toNat := by
        simpa [BitVec.toNat_pos, BitVec.pos_iff_ne_zero] using hm
      rw [dif_neg hm, dif_pos hpos, UnpackedFloat.finite.injEq]
      refine ⟨hsign, rfl, ?_⟩
      change ((exponentField x.toBits.toBitVec).toNat : ℤ) - (1023 + 52) + 1 = -1074
      rw [h0]
      rfl
  · rw [if_neg (mt hfirst.1 h0), unpacked, dif_pos (by omega), UnpackedFloat.finite.injEq]
    exact ⟨hsign, hsum, rfl⟩

theorem ofModel_pack_unpack (x : Float) :
    Float.ofModel (Float.Model.pack x.toModel.unpack) = x := by
  refine eq_of_toBits (UInt64.toBitVec_inj.1 ?_)
  exact UnpackedFloat.pack_unpack_of_valid x.toModel.valid

/-- What an operation gives in the unpacked form of a canonical number is the
    double with this value. -/
theorem hasValue_pack (negative : Bool) {m : ℕ} {q : ℤ} (hc : Canonical m q) :
    HasValue (Float.ofModel (Float.Model.pack (unpacked negative m q)))
      (sign negative * (m * 2 ^ q)) := by
  rw [← unpack_eq (ofFloat_ofMagnitude negative hc), ofModel_pack_unpack]
  exact hasValue_ofMagnitude negative hc

theorem HasValue.abs {x : Float} {v : ℚ} (h : HasValue x v) : HasValue x.abs |v| := by
  obtain ⟨negative, m, q, hx, hc, rfl⟩ := h.exists_finite
  have hunpacked : (unpacked negative m q).abs = unpacked false m q := by
    rw [unpacked, unpacked]
    split_ifs <;> rfl
  have hvalue := hasValue_pack false hc
  rw [← hunpacked, ← unpack_eq hx, sign_false, one_mul] at hvalue
  rw [abs_sign_mul _ (by positivity)]
  exact hvalue

/-! ### Order -/

/-- Canonical magnitudes are in the order of their exponents first. -/
theorem Canonical.lt_of_lt {m m' : ℕ} {q q' : ℤ} (h : Canonical m q) (h' : Canonical m' q')
    (hlt : q < q') :
    (m : ℚ) * 2 ^ q < m' * 2 ^ q' := by
  have hm : (m : ℚ) < 2 ^ 53 := by exact_mod_cast h.fraction
  have hm' : (2 : ℚ) ^ 52 ≤ m' := by
    have := h.least
    exact_mod_cast h'.full.resolve_right (by omega)
  calc (m : ℚ) * 2 ^ q < 2 ^ 53 * 2 ^ q := mul_lt_mul_of_pos_right hm (by positivity)
    _ = 2 ^ 52 * 2 ^ (q + 1) := by
        rw [zpow_add_one₀ two_ne_zero]
        ring
    _ ≤ m' * 2 ^ q' :=
      mul_le_mul hm' (zpow_le_zpow_right₀ one_le_two hlt) (by positivity) (by positivity)

theorem Canonical.compare_eq {m m' : ℕ} {q q' : ℤ} (h : Canonical m q) (h' : Canonical m' q') :
    (compare q q').then (compare m m') = compare ((m : ℚ) * 2 ^ q) (m' * 2 ^ q') := by
  rcases lt_trichotomy q q' with hlt | rfl | hgt
  · rw [compare_lt_iff_lt.2 hlt, compare_lt_iff_lt.2 (h.lt_of_lt h' hlt)]
    rfl
  · have hpos : (0 : ℚ) < 2 ^ q := by positivity
    rw [compare_eq_iff_eq.2 rfl, Ordering.eq_then, ← cmp_eq_compare, ← cmp_eq_compare,
      cmp_mul_pos_right hpos]
    exact (Nat.strictMono_cast.cmp_map_eq m m').symm
  · rw [compare_gt_iff_gt.2 hgt, compare_gt_iff_gt.2 (h'.lt_of_lt h hgt)]
    rfl

theorem compare_neg_neg (a b : ℚ) : compare (-a) (-b) = (compare a b).swap := by
  rw [← cmp_eq_compare, ← cmp_eq_compare, cmp_swap, ← neg_one_mul, ← neg_one_mul b]
  exact cmp_mul_neg_left neg_one_lt_zero a b

/-- The comparison of doubles is that of their numbers. -/
theorem compare_unpacked (negative negative' : Bool) {m m' : ℕ} {q q' : ℤ} (h : Canonical m q)
    (h' : Canonical m' q') :
    (unpacked negative m q).compare (unpacked negative' m' q') =
      some (compare (sign negative * (m * 2 ^ q)) (sign negative' * (m' * 2 ^ q'))) := by
  have hcompare := h.compare_eq h'
  -- an unpacked zero has lost its sign, so it is set apart on both sides
  obtain rfl | hm := m.eq_zero_or_pos <;> obtain rfl | hm' := m'.eq_zero_or_pos
  · rw [unpacked_zero, unpacked_zero, Nat.cast_zero, zero_mul, zero_mul, mul_zero, mul_zero,
      compare_eq_iff_eq.2 rfl]
    rfl
  · have hpos : (0 : ℚ) < m' * 2 ^ q' := by positivity
    rw [unpacked_zero, unpacked_pos _ hm', Nat.cast_zero, zero_mul, mul_zero]
    cases negative'
    · rw [sign_false, one_mul, compare_lt_iff_lt.2 hpos]
      rfl
    · rw [sign_true, neg_one_mul, compare_gt_iff_gt.2 (neg_lt_zero.2 hpos)]
      rfl
  · have hpos : (0 : ℚ) < m * 2 ^ q := by positivity
    rw [unpacked_zero, unpacked_pos _ hm, Nat.cast_zero, zero_mul, mul_zero]
    cases negative
    · rw [sign_false, one_mul, compare_gt_iff_gt.2 hpos]
      rfl
    · rw [sign_true, neg_one_mul, compare_lt_iff_lt.2 (neg_lt_zero.2 hpos)]
      rfl
  · have hpos : (0 : ℚ) < m * 2 ^ q := by positivity
    have hpos' : (0 : ℚ) < m' * 2 ^ q' := by positivity
    rw [unpacked_pos _ hm, unpacked_pos _ hm']
    -- the magnitudes are compared only where the signs agree
    cases negative <;> cases negative'
    · rw [sign_false, one_mul, one_mul, ← hcompare]
      rfl
    · rw [sign_false, sign_true, one_mul, neg_one_mul,
        compare_gt_iff_gt.2 ((neg_lt_zero.2 hpos').trans hpos)]
      rfl
    · rw [sign_false, sign_true, one_mul, neg_one_mul,
        compare_lt_iff_lt.2 ((neg_lt_zero.2 hpos).trans hpos')]
      rfl
    · rw [sign_true, neg_one_mul, neg_one_mul, compare_neg_neg, ← hcompare]
      rfl

theorem HasValue.lt_iff {x y : Float} {v w : ℚ} (hx : HasValue x v) (hy : HasValue y w) :
    Float.lt x y = true ↔ v < w := by
  obtain ⟨negative, m, q, hfinite, hc, rfl⟩ := hx.exists_finite
  obtain ⟨negative', m', q', hfinite', hc', rfl⟩ := hy.exists_finite
  have hlt : Float.lt x y = true ↔ (x.toModel.unpack.compare y.toModel.unpack == some .lt) = true :=
    decide_eq_true_iff
  rw [hlt, unpack_eq hfinite, unpack_eq hfinite', compare_unpacked _ _ hc hc', beq_iff_eq,
    Option.some_inj, compare_lt_iff_lt]

/-! ### Differences -/

theorem targetExponent_eq (t : ℤ) : Format.binary64.targetExponent t = max (t - 53) (-1074) := rfl

/-- A canonical number has the exponent that rounding asks for. -/
theorem targetExponent_canonical {m : ℕ} {q : ℤ} (hm : 0 < m) (hc : Canonical m q) :
    Format.binary64.targetExponent (totalExponent m q) = q := by
  have hlog : m.log2 < 53 := (Nat.log2_lt hm.ne').2 hc.fraction
  have hleast := hc.least
  rw [targetExponent_eq, totalExponent]
  rcases hc.full with hfull | rfl
  · have : 52 ≤ m.log2 := (Nat.le_log2 hm.ne').2 hfull
    omega
  · omega

theorem shift_canonical {m : ℕ} {q : ℤ} (hm : 0 < m) (hc : Canonical m q) :
    UnpackedFloat.shiftToTargetExponent Format.binary64 m q .exact = (⟨m, false, false⟩, q) := by
  rw [UnpackedFloat.shiftToTargetExponent, targetExponent_canonical hm hc,
    UnpackedFloat.shiftToExponent, sub_self]
  exact Prod.ext rfl (add_zero q)

theorem roundWithAccuracy_canonical (s : Sign) {m : ℕ} {q : ℤ} (hm : 0 < m) (hc : Canonical m q) :
    UnpackedFloat.roundWithAccuracy Format.binary64 s m q .exact = .finite s m q hm := by
  rw [UnpackedFloat.roundWithAccuracy, shift_canonical hm hc]
  change (match UnpackedFloat.shiftToTargetExponent Format.binary64 m q .exact with
    | (em, e) =>
      if h : em.mantissa = 0 then UnpackedFloat.zero s
        else .finite s em.mantissa e (Nat.pos_of_ne_zero h)) = _
  rw [shift_canonical hm hc]
  exact dif_neg hm.ne'

/-- The canonical form has the longest fraction that the exponent allows. -/
theorem canonical_shiftLeft {m k : ℕ} {q : ℤ} (hm : 0 < m) (hgreatest : q ≤ 971)
    (hlength : m.log2 + k ≤ 52) (hleast : -1074 ≤ q - k) (hfull : m.log2 + k = 52 ∨ q - k = -1074) :
    Canonical (m <<< k) (q - k) := by
  refine ⟨?_, hleast, by omega, hfull.imp_left fun hfull => ?_⟩
  · calc m <<< k = m * 2 ^ k := Nat.shiftLeft_eq m k
      _ < 2 ^ (m.log2 + 1) * 2 ^ k :=
        Nat.mul_lt_mul_of_pos_right Nat.lt_log2_self (Nat.two_pow_pos k)
      _ = 2 ^ (m.log2 + 1 + k) := (pow_add _ _ _).symm
      _ ≤ 2 ^ 53 := Nat.pow_le_pow_right two_pos (by omega)
  · calc 2 ^ 52 = 2 ^ m.log2 * 2 ^ k := by rw [← pow_add, hfull]
      _ ≤ m * 2 ^ k := Nat.mul_le_mul_right _ (Nat.log2_self_le hm.ne')
      _ = m <<< k := (Nat.shiftLeft_eq m k).symm

/-- What fits into a double is not changed by rounding. -/
theorem round_eq (s : Sign) {m : ℕ} {q : ℤ} (hm : 0 < m) (hlt : m < 2 ^ 53) (hleast : -1074 ≤ q)
    (hgreatest : q ≤ 971) :
    ∃ m' q', ∃ hm' : 0 < m', Canonical m' q' ∧ (m' : ℚ) * 2 ^ q' = m * 2 ^ q ∧
      UnpackedFloat.round Format.binary64 s m q = .finite s m' q' hm' := by
  have hlog : m.log2 < 53 := (Nat.log2_lt hm.ne').2 hlt
  have htarget : Format.binary64.targetExponent (totalExponent m q) =
      max (m.log2 + 1 + q - 53) (-1074) := rfl
  rw [UnpackedFloat.round, UnpackedFloat.decreaseExponent]
  dsimp only
  generalize hk : (q - Format.binary64.targetExponent (totalExponent m q)).toNat = k
  rw [htarget] at hk
  have hc : Canonical (m <<< k) (q - k) :=
    canonical_shiftLeft hm hgreatest (by omega) (by omega) (by omega)
  have hm' : 0 < m <<< k := by
    rw [Nat.shiftLeft_eq]
    exact Nat.mul_pos hm (Nat.two_pow_pos k)
  refine ⟨m <<< k, q - k, hm', hc, ?_, roundWithAccuracy_canonical s hm' hc⟩
  rw [Nat.shiftLeft_eq, zpow_sub₀ two_ne_zero, zpow_natCast]
  push_cast
  field_simp

theorem normalize_eq {i : ℤ} {q : ℤ} (hlt : |i| < 2 ^ 53) (hleast : -1074 ≤ q)
    (hgreatest : q ≤ 971) :
    ∃ negative m q', Canonical m q' ∧ sign negative * (m * 2 ^ q') = i * 2 ^ q ∧
      UnpackedFloat.normalize Format.binary64 i q .positive = unpacked negative m q' := by
  rw [UnpackedFloat.normalize]
  rcases lt_trichotomy i 0 with hneg | rfl | hpos
  · rw [compare_lt_iff_lt.2 hneg]
    rw [abs_of_neg hneg] at hlt
    obtain ⟨m, q', hm, hc, hvalue, hround⟩ := round_eq .negative (m := (-i).toNat) (by omega)
      (by omega) hleast hgreatest
    refine ⟨true, m, q', hc, ?_, hround.trans (unpacked_pos true hm q').symm⟩
    rw [sign_true, hvalue, ← Int.cast_natCast, Int.toNat_of_nonneg (by omega)]
    push_cast
    ring
  · refine ⟨false, 0, -1074, ⟨by decide, le_rfl, by decide, .inr rfl⟩, ?_, rfl⟩
    simp
  · rw [compare_gt_iff_gt.2 hpos]
    rw [abs_of_pos hpos] at hlt
    obtain ⟨m, q', hm, hc, hvalue, hround⟩ := round_eq .positive (m := i.toNat) (by omega)
      (by omega) hleast hgreatest
    refine ⟨false, m, q', hc, ?_, hround.trans (unpacked_pos false hm q').symm⟩
    rw [sign_false, one_mul, hvalue, ← Int.cast_natCast, Int.toNat_of_nonneg hpos.le]

theorem cast_apply_toSign (negative : Bool) (i : ℤ) :
    (((toSign negative).apply i : ℤ) : ℚ) = sign negative * i := by
  cases negative
  · rw [sign_false, one_mul]
    rfl
  · rw [sign_true, neg_one_mul, ← Int.cast_neg]
    rfl

/-- A number in units of a smaller power. -/
theorem apply_shiftLeft_mul (negative : Bool) (m : ℕ) {q e : ℤ} (h : e ≤ q) :
    ((toSign negative).apply (m <<< (q - e).toNat : ℕ) : ℚ) * 2 ^ e =
      sign negative * (m * 2 ^ q) := by
  rw [cast_apply_toSign, Nat.shiftLeft_eq]
  push_cast
  rw [← zpow_natCast, Int.toNat_of_nonneg (by omega), mul_assoc, mul_assoc, ← zpow_add₀ two_ne_zero,
    sub_add_cancel]

section Difference
variable (negative negative' : Bool) {m m' : ℕ} {q q' : ℤ}

theorem zero_sub_unpacked (hc : Canonical m q) :
    ∃ n k e, Canonical k e ∧ sign n * (k * 2 ^ e) = -(sign negative' * (m * 2 ^ q)) ∧
      UnpackedFloat.sub Format.binary64 (.zero (toSign negative)) (unpacked negative' m q) =
        unpacked n k e := by
  obtain rfl | hm := m.eq_zero_or_pos
  · refine ⟨negative && !negative', 0, -1074, ⟨by decide, le_rfl, by decide, .inr rfl⟩, ?_, ?_⟩
    · simp
    · cases negative <;> cases negative' <;> rfl
  · refine ⟨!negative', m, q, hc, ?_, ?_⟩
    · cases negative' <;> simp
    · rw [unpacked_pos _ hm, unpacked_pos _ hm]
      cases negative' <;> rfl

theorem finite_sub_finite (hm : 0 < m) (hm' : 0 < m') (hc : Canonical m q) (hc' : Canonical m' q')
    (hle : |sign negative * (m * 2 ^ q) - sign negative' * (m' * 2 ^ q')| ≤ m * 2 ^ q)
    (hle' : |sign negative * (m * 2 ^ q) - sign negative' * (m' * 2 ^ q')| ≤ m' * 2 ^ q') :
    ∃ n k e, Canonical k e ∧ sign n * (k * 2 ^ e) =
      sign negative * (m * 2 ^ q) - sign negative' * (m' * 2 ^ q') ∧
      UnpackedFloat.sub Format.binary64 (.finite (toSign negative) m q hm)
        (.finite (toSign negative') m' q' hm') =
        unpacked n k e := by
  set i := (toSign negative).apply (m <<< (q - min q q').toNat : ℕ) -
    (toSign negative').apply (m' <<< (q' - min q q').toNat : ℕ) with hi
  have hvalue : (i : ℚ) * 2 ^ min q q' =
      sign negative * (m * 2 ^ q) - sign negative' * (m' * 2 ^ q') := by
    rw [hi, Int.cast_sub, sub_mul, apply_shiftLeft_mul _ _ (min_le_left _ _),
      apply_shiftLeft_mul _ _ (min_le_right _ _)]
  -- in units of the smaller exponent the operand that has it bounds the difference
  have hlt : |i| < 2 ^ 53 := by
    have hpos : (0 : ℚ) < 2 ^ min q q' := by positivity
    rw [← hvalue, abs_mul, abs_of_pos hpos] at hle hle'
    have hfraction := hc.fraction
    have hfraction' := hc'.fraction
    rcases min_choice q q' with hmin | hmin
    · rw [hmin] at hle hpos
      have : |i| ≤ m := by exact_mod_cast le_of_mul_le_mul_right hle hpos
      omega
    · rw [hmin] at hle' hpos
      have : |i| ≤ m' := by exact_mod_cast le_of_mul_le_mul_right hle' hpos
      omega
  obtain ⟨n, k, e, hk, hkvalue, hnormalize⟩ := normalize_eq hlt (le_min hc.least hc'.least)
    ((min_le_left q q').trans hc.greatest)
  exact ⟨n, k, e, hk, hkvalue.trans hvalue, hnormalize⟩

end Difference

/-- The difference of two doubles is exact if it is no larger than either of them, as it is if
    neither of the two is more than twice the other. -/
theorem HasValue.sub {x y : Float} {v w : ℚ} (hx : HasValue x v) (hy : HasValue y w)
    (h : v = 0 ∨ |v - w| ≤ |v| ∧ |v - w| ≤ |w|) : HasValue (x - y) (v - w) := by
  obtain ⟨negative, m, q, hfinite, hc, rfl⟩ := hx.exists_finite
  obtain ⟨negative', m', q', hfinite', hc', rfl⟩ := hy.exists_finite
  have hsub : x - y = Float.ofModel
      (Float.Model.pack (UnpackedFloat.sub Format.binary64 x.toModel.unpack y.toModel.unpack)) :=
        rfl
  rw [hsub, unpack_eq hfinite, unpack_eq hfinite']
  -- no rounding: the difference is no larger than either operand, or minus the second one
  obtain ⟨n, k, e, hk, hvalue, hunpacked⟩ : ∃ n k e, Canonical k e ∧
      sign n * (k * 2 ^ e) = sign negative * (m * 2 ^ q) - sign negative' * (m' * 2 ^ q') ∧
      UnpackedFloat.sub Format.binary64 (unpacked negative m q) (unpacked negative' m' q') =
        unpacked n k e := by
    obtain rfl | hm := m.eq_zero_or_pos
    · obtain ⟨n, k, e, hk, hvalue, hunpacked⟩ := zero_sub_unpacked negative negative' hc'
      exact ⟨n, k, e, hk, by simpa using hvalue, hunpacked⟩
    have hpos : (0 : ℚ) < m * 2 ^ q := by positivity
    have hnonneg : (0 : ℚ) ≤ m' * 2 ^ q' := by positivity
    have hne : sign negative * (m * 2 ^ q) ≠ 0 := by
      rw [← abs_pos, abs_sign_mul _ hpos.le]
      exact hpos
    obtain ⟨hle, hle'⟩ := h.resolve_left hne
    rw [abs_sign_mul _ hpos.le] at hle
    rw [abs_sign_mul _ hnonneg] at hle'
    obtain rfl | hm' := m'.eq_zero_or_pos
    · rw [Nat.cast_zero, zero_mul, mul_zero, sub_zero] at hle'
      exact absurd (abs_nonpos_iff.1 hle') hne
    · rw [unpacked_pos _ hm, unpacked_pos _ hm']
      exact finite_sub_finite negative negative' hm hm' hc hc' hle hle'
  rw [hunpacked, ← hvalue]
  exact hasValue_pack n hk

end Simplex.Binary
