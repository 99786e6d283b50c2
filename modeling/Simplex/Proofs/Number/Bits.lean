import Simplex.Number.Binary
import Mathlib
/-! The bits of a double. Below the sign the exponent and the fraction field count together: the
    magnitude `m · 2 ^ q` in its canonical form has the bits `(q + 1074) · 2 ^ 52 + m`, and infinity
    has the first bits that no magnitude has. So a double is its sign and its magnitude, and the
    numbers `ofFloat` takes it apart into put it together again. -/

namespace Simplex.Binary

open Float.Model (Format UnpackedFloat)
open Float.Model.UnpackedFloat (Sign packComponents unpackMantissa unpackExponent unpackSign
  unpackMantissa_packComponents unpackExponent_packComponents)

/-- The fraction field of a bit pattern. -/
abbrev fractionField (b : BitVec 64) : BitVec 52 := @unpackMantissa Format.binary64 b

/-- The exponent field of a bit pattern. -/
abbrev exponentField (b : BitVec 64) : BitVec 11 := @unpackExponent Format.binary64 b

/-- The sign of a bit pattern. -/
abbrev signField (b : BitVec 64) : Sign := Sign.ofBitVec (@unpackSign Format.binary64 b)

theorem toNat_fractionField (b : BitVec 64) : (fractionField b).toNat = b.toNat % 2 ^ 52 := by
  simp [unpackMantissa, BitVec.extractLsb, BitVec.extractLsb'_toNat]

theorem toNat_exponentField (b : BitVec 64) :
    (exponentField b).toNat = b.toNat / 2 ^ 52 % 2 ^ 11 := by
  simp [unpackExponent, BitVec.extractLsb, BitVec.extractLsb'_toNat, Nat.shiftRight_eq_div_pow]

theorem packComponents_fields (b : BitVec 64) :
    packComponents Format.binary64 (signField b) (exponentField b) (fractionField b) = b := by
  have hsign : ∀ s : BitVec 1, (Sign.ofBitVec s).toBitVec = s := by decide
  rw [packComponents, hsign]
  ext i hi
  simp only [unpackSign, unpackExponent, unpackMantissa, BitVec.getElem_append]
  simp
  grind

theorem pack_subnormal (s : Sign) {m : ℕ} (hm : 0 < m) (h : m < 2 ^ 52) :
    UnpackedFloat.pack Format.binary64 (.finite s m (-1074) hm) =
      packComponents Format.binary64 s 0#11 (BitVec.ofNat 52 m) := by
  have hlog : m.log2 < 52 := (Nat.log2_lt hm.ne').2 h
  have hlog : ¬ m.log2 + 1 = 53 := by omega
  simp [UnpackedFloat.pack, Format.exponentBias, Format.mantissaBits, hlog]

theorem pack_normal (s : Sign) {m e : ℕ} (hm : 0 < m) (h : 2 ^ 52 ≤ m) (h' : m < 2 ^ 53)
    (he : e < 2047) :
    UnpackedFloat.pack Format.binary64 (.finite s m (e - 1075) hm) =
      packComponents Format.binary64 s (BitVec.ofNat 11 e) (BitVec.ofNat 52 m) := by
  have hlog : m.log2 = 52 := (Nat.log2_eq_iff hm.ne').2 ⟨h, h'⟩
  have hexp : ((e : ℤ) - 1075 + 1023 + 52).toNat = e := by omega
  simp [UnpackedFloat.pack, Format.exponentBias, Format.mantissaBits, hlog, hexp]
  omega

/-- Is the pattern that of a number or of an infinity? -/
def Proper (b : BitVec 64) : Prop := exponentField b = -1#11 → fractionField b = 0#52

/-- A pattern that is taken apart is put together again, unless it stands for no number. -/
theorem pack_unpack {b : BitVec 64} (h : Proper b) :
    UnpackedFloat.pack Format.binary64 (UnpackedFloat.unpack Format.binary64 b) = b := by
  have hb := packComponents_fields b
  have hM : (fractionField b).toNat < 2 ^ 52 := (fractionField b).isLt
  unfold UnpackedFloat.unpack
  dsimp only
  by_cases h1 : exponentField b = -1#11
  · -- an infinity: a proper pattern has no payload to lose
    rw [if_pos h1, if_pos (h h1)]
    rw [h1, h h1] at hb
    exact hb
  rw [if_neg h1]
  by_cases h0 : exponentField b = 0#11
  · -- zero and the subnormal numbers have no hidden bit
    rw [if_pos h0]
    by_cases hm : fractionField b = 0#52
    · rw [dif_pos hm]
      rw [h0, hm] at hb
      exact hb
    · rw [dif_neg hm]
      have hpos : 0 < (fractionField b).toNat := by
        simpa [BitVec.toNat_pos, BitVec.pos_iff_ne_zero] using hm
      have hpack := pack_subnormal (signField b) hpos hM
      rw [BitVec.ofNat_toNat, BitVec.setWidth_eq, ← h0, hb] at hpack
      convert hpack using 2
      refine UnpackedFloat.finite.injEq .. ▸ ⟨rfl, rfl, ?_⟩
      change ((exponentField b).toNat : ℤ) - (1023 + 52) + 1 = -1074
      rw [h0]
      rfl
  · -- the hidden bit of a normal number is put in front and falls off again
    rw [if_neg h0]
    have hsum : (1#1 ++ fractionField b).toNat = 2 ^ 52 + (fractionField b).toNat := by
      rw [BitVec.toNat_append, ← Nat.shiftLeft_add_eq_or_of_lt hM]
      rfl
    have hlt : (exponentField b).toNat < 2047 := by
      have hne : (exponentField b).toNat ≠ 2047 := fun h => h1 (BitVec.eq_of_toNat_eq h)
      have := (exponentField b).isLt
      omega
    have hpack := pack_normal (signField b) (by omega : 0 < 2 ^ 52 + (fractionField b).toNat)
      (by omega) (by omega) hlt
    rw [BitVec.ofNat_toNat, BitVec.setWidth_eq] at hpack
    trans packComponents Format.binary64 (signField b) (exponentField b)
      (BitVec.ofNat 52 (2 ^ 52 + (fractionField b).toNat))
    · convert hpack using 2
      exact UnpackedFloat.finite.injEq .. ▸ ⟨rfl, hsum, rfl⟩
    · have hfraction : BitVec.ofNat 52 (2 ^ 52 + (fractionField b).toNat) = fractionField b :=
        BitVec.eq_of_toNat_eq (by simpa using Nat.mod_eq_of_lt hM)
      rw [hfraction, hb]

theorem eq_of_toBits {x y : Float} (h : x.toBits = y.toBits) : x = y := by
  obtain ⟨⟨bits, _⟩⟩ := x
  obtain ⟨⟨bits', _⟩⟩ := y
  obtain rfl : bits = bits' := h
  rfl

theorem toBits_ofBits {w : UInt64} (h : Proper w.toBitVec) : (Float.ofBits w).toBits = w :=
  UInt64.toBitVec_inj.1 (pack_unpack h)

/-- The double with the given sign and the given bits below it. -/
def ofMagnitude (negative : Bool) (magnitude : ℕ) : Float :=
  Float.ofBits (UInt64.ofNat (magnitude + if negative then pow2 63 else 0))

/-- The bits of infinity below the sign. -/
def infinityBits : ℕ := 2047 * pow2 52

/-- The canonical forms of finite magnitudes: the fraction is as long as the exponent allows. -/
structure Canonical (m : ℕ) (q : ℤ) : Prop where
  fraction : m < 2 ^ 53
  least : -1074 ≤ q
  greatest : q ≤ 971
  full : 2 ^ 52 ≤ m ∨ q = -1074

/-- The bits of `m · 2 ^ q` below the sign. -/
def magnitudeBits (m : ℕ) (q : ℤ) : ℕ := (q + 1074).toNat * pow2 52 + m

theorem magnitudeBits_lt {m : ℕ} {q : ℤ} (h : Canonical m q) :
    magnitudeBits m q < infinityBits := by
  obtain ⟨hm, h0, h1, h2⟩ := h
  simp only [magnitudeBits, infinityBits, pow2, Nat.pow_eq]
  omega

/-- The fields of a double that is no `NaN`. -/
theorem eq_ofMagnitude_of_proper {x : Float} (h : Proper x.toBits.toBitVec) :
    x = ofMagnitude (x.toBits.toNat / pow2 63 == 1) (x.toBits.toNat % pow2 63) := by
  have hlt : x.toBits.toNat < 2 ^ 64 := x.toBits.toNat_lt
  have hbits : x.toBits.toNat % pow2 63 + (if x.toBits.toNat / pow2 63 == 1 then pow2 63 else 0) =
      x.toBits.toNat := by
    simp only [pow2, Nat.pow_eq, beq_iff_eq]
    split <;> omega
  rw [ofMagnitude, hbits, UInt64.ofNat_toNat]
  exact eq_of_toBits (toBits_ofBits h).symm

theorem proper_iff (b : BitVec 64) :
    Proper b ↔ (b.toNat / 2 ^ 52 % 2 ^ 11 = 2047 → b.toNat % 2 ^ 52 = 0) := by
  rw [Proper, ← BitVec.toNat_inj, ← BitVec.toNat_inj, toNat_exponentField, toNat_fractionField]
  rfl

theorem ofFloat_eq (x : Float) :
    ofFloat x =
      if x.toBits.toNat / 2 ^ 52 % 2 ^ 11 = 2047 then
        if x.toBits.toNat % 2 ^ 52 = 0 then .infinite (x.toBits.toNat / 2 ^ 63 == 1) else .nan
      else if x.toBits.toNat / 2 ^ 52 % 2 ^ 11 = 0 then
        .finite (x.toBits.toNat / 2 ^ 63 == 1) (x.toBits.toNat % 2 ^ 52) (-1074)
      else .finite (x.toBits.toNat / 2 ^ 63 == 1) (x.toBits.toNat % 2 ^ 52 + 2 ^ 52)
        ((x.toBits.toNat / 2 ^ 52 % 2 ^ 11 : ℕ) - 1075) := rfl

theorem ofFloat_finite {x : Float} {negative : Bool} {m : ℕ} {q : ℤ}
    (h : ofFloat x = .finite negative m q) :
    Canonical m q ∧ x = ofMagnitude negative (magnitudeBits m q) := by
  have heq : Proper x.toBits.toBitVec → _ := eq_ofMagnitude_of_proper
  rw [proper_iff, UInt64.toNat_toBitVec] at heq
  rw [ofFloat_eq] at h
  have hlt : x.toBits.toNat < 2 ^ 64 := x.toBits.toNat_lt
  generalize x.toBits.toNat = bits at h heq hlt
  split_ifs at h with hlast _ hfirst <;> cases h <;> rw [heq (fun h => absurd h hlast)]
  · refine ⟨⟨by omega, le_refl _, by omega, Or.inr rfl⟩, ?_⟩
    congr 1
    simp only [magnitudeBits, pow2, Nat.pow_eq]
    omega
  · refine ⟨⟨by omega, by omega, by omega, Or.inl (by omega)⟩, ?_⟩
    congr 1
    simp only [magnitudeBits, pow2, Nat.pow_eq]
    omega

theorem ofFloat_infinite {x : Float} {negative : Bool} (h : ofFloat x = .infinite negative) :
    x = ofMagnitude negative infinityBits := by
  have heq : Proper x.toBits.toBitVec → _ := eq_ofMagnitude_of_proper
  rw [proper_iff, UInt64.toNat_toBitVec] at heq
  rw [ofFloat_eq] at h
  have hlt : x.toBits.toNat < 2 ^ 64 := x.toBits.toNat_lt
  generalize x.toBits.toNat = bits at h heq hlt
  split_ifs at h with hlast hzero
  cases h
  rw [heq fun _ => hzero]
  congr 1
  simp only [infinityBits, pow2, Nat.pow_eq]
  omega

/-- There is one `NaN`. -/
theorem ofFloat_nan {x : Float} (h : ofFloat x = .nan) : x = 0.0 / 0.0 := by
  have hproper : ¬ Proper x.toBits.toBitVec := by
    rw [proper_iff, UInt64.toNat_toBitVec]
    rw [ofFloat_eq] at h
    split_ifs at h with hlast hzero
    exact fun hp => hzero (hp hlast)
  obtain ⟨hlast, hne⟩ := Classical.not_imp.1 hproper
  refine eq_of_toBits (UInt64.toBitVec_inj.1 ?_)
  exact (x.toModel.valid.eq_packedNaN hlast hne).trans (by decide +kernel)

theorem toBits_ofMagnitude (negative : Bool) {magnitude : ℕ} (h : magnitude ≤ infinityBits) :
    (ofMagnitude negative magnitude).toBits.toNat = magnitude + if negative then pow2 63
    else 0 := by
  have hlt : magnitude + (if negative then pow2 63 else 0) < 2 ^ 64 := by
    simp only [infinityBits, pow2, Nat.pow_eq] at h ⊢
    split <;> omega
  have hbits : (UInt64.ofNat (magnitude + if negative then pow2 63 else 0)).toNat =
      magnitude + if negative then pow2 63 else 0 := UInt64.toNat_ofNat_of_lt' hlt
  rw [ofMagnitude, toBits_ofBits, hbits]
  rw [proper_iff, UInt64.toNat_toBitVec, hbits]
  simp only [infinityBits, pow2, Nat.pow_eq] at h ⊢
  split <;> omega

theorem isInf_iff (x : Float) :
    x.isInf = true ↔ x.toBits.toNat / 2 ^ 52 % 2 ^ 11 = 2047 ∧ x.toBits.toNat % 2 ^ 52 = 0 := by
  have hlast : exponentField x.toBits.toBitVec = -1#11 ↔
      x.toBits.toNat / 2 ^ 52 % 2 ^ 11 = 2047 := by
    rw [← BitVec.toNat_inj, toNat_exponentField, UInt64.toNat_toBitVec]
    rfl
  have hzero : fractionField x.toBits.toBitVec = 0#52 ↔ x.toBits.toNat % 2 ^ 52 = 0 := by
    rw [← BitVec.toNat_inj, toNat_fractionField, UInt64.toNat_toBitVec]
    rfl
  rw [← hlast, ← hzero]
  change (UnpackedFloat.unpack Format.binary64 x.toBits.toBitVec).isInf = true ↔ _
  unfold UnpackedFloat.unpack
  dsimp only
  split_ifs with h1 h2
  · exact iff_of_true rfl ⟨h1, h2⟩
  · exact iff_of_false Bool.false_ne_true fun h => h2 h.2
  all_goals exact iff_of_false Bool.false_ne_true fun h => h1 h.1

/-- Only the bits of infinity are infinite. -/
theorem isInf_ofMagnitude (negative : Bool) {magnitude : ℕ} (h : magnitude ≤ infinityBits) :
    (ofMagnitude negative magnitude).isInf = true ↔ magnitude = infinityBits := by
  rw [isInf_iff, toBits_ofMagnitude negative h]
  simp only [infinityBits, pow2, Nat.pow_eq] at h ⊢
  split <;> omega

/-- Nothing but a zero compares equal to zero. -/
theorem exists_eq_zero_of_compare {u : UnpackedFloat} {s : Sign}
    (h : u.compare (.zero s) = some .eq) :
    ∃ s', u = .zero s' := by
  cases u with
  | zero s' => exact ⟨s', rfl⟩
  | notANumber => cases h
  | infinity s' => cases s' <;> cases h
  | finite s' m e hm => cases s' <;> cases h

theorem proper_of_unpack_eq_zero {b : BitVec 64} {s : Sign}
    (h : UnpackedFloat.unpack Format.binary64 b = .zero s) :
    Proper b := by
  intro hexponent
  by_contra hfraction
  unfold UnpackedFloat.unpack at h
  dsimp only at h
  rw [if_pos hexponent, if_neg hfraction] at h
  cases h

theorem beq_zero_iff (x : Float) : (x == 0) = true ↔ x = 0 ∨ x = -0 := by
  constructor
  · intro h
    have hzero : (Float.toModel 0).unpack = .zero .positive := rfl
    change (x.toModel.unpack.compare (Float.toModel 0).unpack == some .eq) = true at h
    rw [hzero, beq_iff_eq] at h
    obtain ⟨s, hs⟩ := exists_eq_zero_of_compare h
    have hpack : UnpackedFloat.pack Format.binary64 x.toModel.unpack = x.toBits.toBitVec :=
      pack_unpack (proper_of_unpack_eq_zero hs)
    rw [hs] at hpack
    cases s with
    | positive =>
      exact Or.inl (eq_of_toBits (UInt64.toBitVec_inj.1 (hpack.symm.trans (by decide +kernel))))
    | negative =>
      exact Or.inr (eq_of_toBits (UInt64.toBitVec_inj.1 (hpack.symm.trans (by decide +kernel))))
  · rintro (rfl | rfl) <;> decide +kernel

end Simplex.Binary
