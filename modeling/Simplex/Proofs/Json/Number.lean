import Simplex.Json.Reader
import Simplex.Json.Writer
import Simplex.Proofs.Number.Shortest
/-! Numbers that are written and read again. The text of a finite double is a numeral for
    the decimal that was chosen for it, whichever of the three layouts it has, and that
    decimal rounds to the double; the three words for what is no finite number are read as
    what they were written for. -/

namespace Simplex

/-- The value of a digit. -/
def digitValue (c : Char) : ℕ := c.toNat - 48

namespace Numeral

theorem valueOf_map (cs : List Char) : valueOf (cs.map digitValue) = Nat.ofDigitChars 10 cs 0 := by
  rw [valueOf, List.foldl_map, Nat.ofDigitChars_eq_foldl]
  rfl

theorem valueOf_toDigits (n : ℕ) : valueOf ((Nat.toDigits 10 n).map digitValue) = n := by
  rw [valueOf_map, Nat.ofDigitChars_ten_toDigits]

/-- Zeros before the digits add nothing. -/
theorem valueOf_zeros_append (k : ℕ) (cs : List Char) :
    valueOf ((List.replicate k '0' ++ cs).map digitValue) = valueOf (cs.map digitValue) := by
  rw [valueOf_map, valueOf_map, Nat.ofDigitChars_append, Nat.ofDigitChars_replicate_zero,
    Nat.mul_zero]

/-- A zero behind the digits multiplies by ten. -/
theorem valueOf_append_zeros (cs : List Char) (k : ℕ) :
    valueOf ((cs ++ List.replicate k '0').map digitValue) =
      10 ^ k * valueOf (cs.map digitValue) := by
  rw [valueOf_map, valueOf_map, Nat.ofDigitChars_append, Nat.ofDigitChars_replicate_zero]

/-- The number without its sign. -/
def magnitude (x : Numeral) : ℚ := x.coefficient * 10 ^ x.exponent

theorem quotient_eq_magnitude (x : Numeral) :
    ((x.coefficient * pow10 x.exponent.toNat : ℕ) : ℚ) / (pow10 (-x.exponent).toNat : ℕ) =
      x.magnitude := by
  rw [magnitude, zpow_eq_div (by norm_num)]
  simp only [pow10, Nat.pow_eq, Nat.cast_mul, Nat.cast_pow, Nat.cast_ofNat]
  exact mul_div_assoc _ _ _

/-- What rounds to a double is neither so large nor so small that its digits are passed over. -/
theorem position_mem {m : ℕ} {q : ℤ} {c : ℕ} {e : ℤ} (hc : Binary.Canonical m q) (hm : 0 < m)
    (h : Binary.RoundsTo m q (c * 10 ^ e)) :
    -330 ≤ Decimal.width c + e ∧ Decimal.width c + e ≤ 310 := by
  have hpos := h.pos hm
  have hcpos : 0 < c := by
    have := pos_of_mul_pos_left hpos (by positivity)
    exact_mod_cast this
  have hten : (0 : ℚ) < 10 ^ e := by positivity
  obtain ⟨w, hw⟩ := Nat.exists_eq_add_one.2 (Decimal.width_pos c)
  rw [hw]
  constructor
  · -- below: half the least double is above 10 ^ -330
    have hsmall : (10 : ℚ) ^ (-330 : ℤ) ≤ 2 ^ (-1075 : ℤ) := by
      rw [zpow_neg, zpow_neg, inv_le_inv₀ (by positivity) (by positivity)]
      exact_mod_cast (by decide +kernel : 2 ^ 1075 ≤ 10 ^ 330)
    have hleast := h.two_pow_le hc hm
    have hdigits : (c : ℚ) * 10 ^ e < 10 ^ ((w + 1 : ℕ) + e) := by
      rw [zpow_add₀ (by norm_num), zpow_natCast]
      exact mul_lt_mul_of_pos_right (by exact_mod_cast hw ▸ Decimal.lt_pow_width c) hten
    have :=
      (zpow_lt_zpow_iff_right₀ (by norm_num : (1 : ℚ) < 10)).1
        ((hsmall.trans hleast).trans_lt hdigits)
    omega
  · -- above: every double is below 10 ^ 309
    have hlarge : (2 : ℚ) ^ (1024 : ℤ) ≤ 10 ^ (309 : ℤ) := by
      exact_mod_cast (by decide +kernel : 2 ^ 1024 ≤ 10 ^ 309)
    have hgreatest := h.lt_two_pow hc
    have hdigits : (10 : ℚ) ^ ((w : ℤ) + e) ≤ c * 10 ^ e := by
      rw [zpow_add₀ (by norm_num), zpow_natCast]
      exact mul_le_mul_of_nonneg_right
        (by exact_mod_cast Decimal.pow_le_of_lt_width hcpos (by omega)) hten.le
    have :=
      (zpow_lt_zpow_iff_right₀ (by norm_num : (1 : ℚ) < 10)).1
        (hdigits.trans_lt (hgreatest.trans_le hlarge))
    omega

/-- A numeral in the interval around a canonical magnitude is read as that double. -/
theorem toFloat_of_roundsTo {x : Numeral} {m : ℕ} {q : ℤ} (hc : Binary.Canonical m q) (hm : 0 < m)
    (h : Binary.RoundsTo m q x.magnitude) :
    x.toFloat = Binary.ofMagnitude x.negative (Binary.magnitudeBits m q) := by
  obtain ⟨hsmall, hlarge⟩ := position_mem hc hm h
  have hpos : 0 < x.coefficient := by
    have := pos_of_mul_pos_left (h.pos hm) (by positivity)
    exact_mod_cast this
  have hfar : ¬ (x.coefficient = 0 ∨ (Decimal.width x.coefficient : ℤ) + x.exponent < -330) := by
    omega
  have htoFloat : x.toFloat = Binary.nearest x.negative (x.coefficient * pow10 x.exponent.toNat)
      (pow10 (-x.exponent).toNat) := (if_neg hfar).trans (if_neg (not_lt.2 hlarge))
  rw [htoFloat]
  refine Binary.nearest_eq_of_roundsTo _ (Nat.mul_pos hpos (Nat.pow_pos (by decide)))
    (Nat.pow_pos (by decide)) hc ?_
  rw [quotient_eq_magnitude]
  exact h

end Numeral

namespace Json

/-- Characters as they stand in a text. -/
abbrev chars (cs : List Char) : Text := cs.map .char

/-- A text that does not begin with a digit. -/
def NoDigit (t : Text) : Prop := ∀ p ∈ t.head?, ¬ (48 ≤ p.value ∧ p.value < 58)

/-- A text that does not go on with a numeral. -/
structure Stops (t : Text) : Prop where
  digit : NoDigit t
  point : t.head? ≠ some (.char '.')
  mark : ∀ p ∈ t.head?, ¬ (p = .char 'e' ∨ p = .char 'E')

theorem isDigit_iff (c : Char) : c.isDigit = true ↔ 48 ≤ c.toNat ∧ c.toNat < 58 := by
  rw [Char.isDigit, Bool.and_eq_true, decide_eq_true_iff, decide_eq_true_iff, ge_iff_le,
    UInt32.le_iff_toNat_le, UInt32.le_iff_toNat_le]
  exact and_congr_right fun _ => Nat.lt_succ_iff.symm

theorem digits_append {ds : List Char} (hds : ∀ c ∈ ds, c.isDigit = true) {rest : Text}
    (hrest : NoDigit rest) :
    digits (chars ds ++ rest) = (ds.map digitValue, rest) := by
  induction ds with
  | nil =>
    cases rest with
    | nil => rfl
    | cons p rest =>
      have hp := hrest p rfl
      simp only [List.map_nil, List.nil_append, digits, if_neg hp]
  | cons c ds ih =>
    have hc : 48 ≤ (CodePoint.char c).value ∧ (CodePoint.char c).value < 58 :=
      (isDigit_iff c).1 (hds c List.mem_cons_self)
    change digits (.char c :: (chars ds ++ rest)) = _
    rw [digits, if_pos hc, ih fun c hc => hds c (List.mem_cons_of_mem _ hc)]
    rfl

theorem fraction_point {t rest : Text} {d : ℕ} {ds : List ℕ} (h : digits t = (d :: ds, rest)) :
    fraction (.char '.' :: t) = (d :: ds, rest) := by
  simp only [fraction, h]

theorem fraction_none {t : Text} (h : t.head? ≠ some (.char '.')) : fraction t = ([], t) := by
  rw [fraction]
  rintro rest rfl
  exact h rfl

theorem exponent_mark {t t' rest : Text} {negative : Bool} {d : ℕ} {ds : List ℕ}
    (hsign : exponentSign t = (negative, t')) (h : digits t' = (d :: ds, rest)) :
    exponent (.char 'e' :: t) = (negative, d :: ds, rest) := by
  simp only [exponent, true_or, if_true, hsign, h]

theorem exponent_none {t : Text} (h : ∀ p ∈ t.head?, ¬ (p = .char 'e' ∨ p = .char 'E')) :
    exponent t = (false, [], t) := by
  cases t with
  | nil => rfl
  | cons p t => rw [exponent, if_neg (h p rfl)]

theorem magnitude_zero {negative exponentNegative : Bool} {t rest rest' : Text} {ds es : List ℕ}
    (hfraction : fraction t = (ds, rest))
    (hexponent : exponent rest = (exponentNegative, es, rest')) (hmarked : ¬ (ds = [] ∧ es = [])) :
    magnitude negative (.char '0' :: t) =
      .ok (.float (Numeral.ofParts negative [0] ds exponentNegative es).toFloat, rest') := by
  rw [magnitude, hfraction]
  dsimp only
  rw [hexponent]
  dsimp only
  rw [if_neg (List.cons_ne_nil _ _), if_neg hmarked]

theorem magnitude_digits {negative exponentNegative : Bool} {t rest rest' rest'' : Text}
    {ws ds es : List ℕ} (hzero : t.head? ≠ some (.char '0')) (hdigits : digits t = (ws, rest))
    (hws : ws ≠ []) (hfraction : fraction rest = (ds, rest'))
    (hexponent : exponent rest' = (exponentNegative, es, rest''))
    (hmarked : ¬ (ds = [] ∧ es = [])) :
    magnitude negative t =
      .ok (.float (Numeral.ofParts negative ws ds exponentNegative es).toFloat, rest'') := by
  rw [magnitude, hdigits]
  · dsimp only
    rw [hfraction]
    dsimp only
    rw [hexponent]
    dsimp only
    rw [if_neg hws, if_neg hmarked]
  · rintro rest rfl
    exact hzero rfl

/-- How a number with a point or an exponent is spelled. -/
structure Spelling where
  whole : List Char
  /-- The digits after the point; there is no point before none. -/
  fraction : List Char
  /-- The digits of the exponent, and whether it is negative. -/
  exponent : Option (Bool × List Char)
  whole_digits : ∀ c ∈ whole, c.isDigit = true
  fraction_digits : ∀ c ∈ fraction, c.isDigit = true
  exponent_digits : ∀ e ∈ exponent, e.2 ≠ [] ∧ ∀ c ∈ e.2, c.isDigit = true
  /-- A zero before the point is the only digit there. -/
  whole_head : whole = ['0'] ∨ ∃ c cs, whole = c :: cs ∧ c ≠ '0'
  /-- A spelling without a point and an exponent is that of an integer. -/
  marked : fraction ≠ [] ∨ exponent.isSome = true

namespace Spelling

def fractionText (s : Spelling) : List Char := if s.fraction = [] then [] else '.' :: s.fraction

def exponentText (s : Spelling) : List Char :=
  match s.exponent with
  | none => []
  | some (negative, ds) => 'e' :: (if negative then '-' else '+') :: ds

/-- The characters of the number. -/
def text (s : Spelling) : List Char := s.whole ++ s.fractionText ++ s.exponentText

/-- The numeral that is spelled. -/
def numeral (s : Spelling) (negative : Bool) : Numeral :=
  let e := s.exponent.getD (false, [])
  Numeral.ofParts negative (s.whole.map digitValue) (s.fraction.map digitValue) e.1
    (e.2.map digitValue)

variable (s : Spelling) {rest : Text}

theorem exponent_append (h : Stops rest) :
    Json.exponent (chars s.exponentText ++ rest) =
      ((s.exponent.getD (false, [])).1, (s.exponent.getD (false, [])).2.map digitValue, rest) := by
  rw [exponentText]
  cases he : s.exponent with
  | none => exact exponent_none h.mark
  | some e =>
    obtain ⟨negative, ds⟩ := e
    obtain ⟨hne, hds⟩ := s.exponent_digits _ he
    obtain ⟨c, cs, rfl⟩ := List.exists_cons_of_ne_nil hne
    have hdigits := digits_append hds h.digit
    cases negative with
    | true => exact exponent_mark rfl hdigits
    | false => exact exponent_mark rfl hdigits

theorem fraction_append {t : Text} (ht : NoDigit t) (hpoint : t.head? ≠ some (.char '.')) :
    Json.fraction (chars s.fractionText ++ t) = (s.fraction.map digitValue, t) := by
  have hdigits := digits_append s.fraction_digits ht
  rw [fractionText]
  split_ifs with hnil
  · rw [hnil]
    exact fraction_none hpoint
  · obtain ⟨c, cs, hcs⟩ := List.exists_cons_of_ne_nil hnil
    rw [hcs] at hdigits ⊢
    exact fraction_point hdigits

/-- What follows the point is not taken for a part of the fraction. -/
theorem noDigit_exponentText (h : Stops rest) :
    NoDigit (chars s.exponentText ++ rest) ∧
    (chars s.exponentText ++ rest).head? ≠ some (.char '.') := by
  rw [exponentText]
  cases s.exponent with
  | none => exact ⟨h.digit, h.point⟩
  | some e => exact ⟨by rintro p ⟨⟩; decide, by simp⟩

/-- What follows the whole part is not taken for a part of it. -/
theorem noDigit_fractionText {t : Text} (ht : NoDigit t) : NoDigit (chars s.fractionText ++ t) := by
  rw [fractionText]
  split_ifs
  · exact ht
  · rintro p ⟨⟩
    decide

/-- A spelled number is read as its numeral. -/
theorem magnitude_append (negative : Bool) (h : Stops rest) :
    magnitude negative (chars s.text ++ rest) =
      .ok (.float (s.numeral negative).toFloat, rest) := by
  obtain ⟨hexponent, hpoint⟩ := s.noDigit_exponentText h
  have hdigits := digits_append s.whole_digits (s.noDigit_fractionText hexponent)
  have hfraction := s.fraction_append hexponent hpoint
  have hexponent := s.exponent_append h
  -- a spelling has a fraction or an exponent, so it is not read as an integer
  have hmarked : ¬ (s.fraction.map digitValue = [] ∧
      (s.exponent.getD (false, [])).2.map digitValue = []) := by
    rintro ⟨hnone, hnone'⟩
    obtain hne | hsome := s.marked
    · exact hne (List.map_eq_nil_iff.1 hnone)
    · obtain ⟨e, he⟩ := Option.isSome_iff_exists.1 hsome
      rw [he] at hnone'
      exact (s.exponent_digits e he).1 (List.map_eq_nil_iff.1 hnone')
  have htext : chars s.text ++ rest =
      chars s.whole ++ (chars s.fractionText ++ (chars s.exponentText ++ rest)) := by
    simp [text, List.append_assoc]
  rw [htext, numeral]
  obtain hzero | ⟨c, cs, hcs, hne⟩ := s.whole_head
  · rw [hzero]
    exact magnitude_zero hfraction hexponent hmarked
  · refine magnitude_digits ?_ hdigits ?_ hfraction hexponent hmarked
    · rw [hcs]
      simpa using hne
    · rw [hcs]
      exact List.cons_ne_nil _ _

end Spelling

/-! ### The three layouts -/

theorem isDigit_of_mem_toDigits (n : ℕ) : ∀ c ∈ Nat.toDigits 10 n, c.isDigit = true :=
  fun _ => Nat.isDigit_of_mem_toDigits (by decide) (by decide)

theorem isDigit_of_mem_zero : ∀ c ∈ ['0'], c.isDigit = true := List.forall_mem_singleton.2 rfl

theorem isDigit_of_mem_zeros {k : ℕ} {cs : List Char} (h : ∀ c ∈ cs, c.isDigit = true) :
    ∀ c ∈ List.replicate k '0' ++ cs, c.isDigit = true := by
  intro c hc
  rcases List.mem_append.1 hc with hzero | hc
  · rw [(List.mem_replicate.1 hzero).2]
    decide
  · exact h c hc

/-- The digits of a positive number do not begin with a zero. -/
theorem exists_toDigits_eq_cons {n : ℕ} (hn : 0 < n) :
    ∃ c cs, Nat.toDigits 10 n = c :: cs ∧ c ≠ '0' := by
  induction n using Nat.strong_induction_on with
  | _ n ih =>
    obtain hlt | hle := lt_or_ge n 10
    · refine ⟨n.digitChar, [], Nat.toDigits_of_lt_base hlt, ?_⟩
      interval_cases n <;> decide
    · obtain ⟨c, cs, hcs, hne⟩ := ih (n / 10) (by omega) (by omega)
      refine ⟨c, cs ++ [(n % 10).digitChar], ?_, hne⟩
      rw [Nat.toDigits_of_base_le (by decide) hle, hcs]
      rfl

/-- Below one: a zero, the point, and zeros before the digits. -/
def Spelling.small (k n : ℕ) : Spelling where
  whole := ['0']
  fraction := List.replicate k '0' ++ Nat.toDigits 10 n
  exponent := none
  whole_digits := isDigit_of_mem_zero
  fraction_digits := isDigit_of_mem_zeros (isDigit_of_mem_toDigits n)
  exponent_digits := by simp
  whole_head := Or.inl rfl
  marked := Or.inl (by simp)

/-- The point among the digits. -/
def Spelling.pointed {n k : ℕ} (hn : 0 < n) (hk : 0 < k) (hlt : k < Decimal.width n) :
    Spelling where
  whole := (Nat.toDigits 10 n).take k
  fraction := (Nat.toDigits 10 n).drop k
  exponent := none
  whole_digits := fun c hc => isDigit_of_mem_toDigits n c (List.mem_of_mem_take hc)
  fraction_digits := fun c hc => isDigit_of_mem_toDigits n c (List.mem_of_mem_drop hc)
  exponent_digits := by simp
  whole_head := by
    obtain ⟨c, cs, hcs, hne⟩ := exists_toDigits_eq_cons hn
    obtain ⟨k, rfl⟩ := Nat.exists_eq_add_one.2 hk
    exact Or.inr ⟨c, cs.take k, by rw [hcs]; rfl, hne⟩
  marked := Or.inl fun h => absurd (List.drop_eq_nil_iff.1 h) (not_le.2 hlt)

/-- The digits, zeros up to the point, and a zero after it. -/
def Spelling.integral {n : ℕ} (k : ℕ) (hn : 0 < n) : Spelling where
  whole := Nat.toDigits 10 n ++ List.replicate k '0'
  fraction := ['0']
  exponent := none
  whole_digits := by
    intro c hc
    rcases List.mem_append.1 hc with hc | hzero
    · exact isDigit_of_mem_toDigits n c hc
    · rw [(List.mem_replicate.1 hzero).2]
      decide
  fraction_digits := isDigit_of_mem_zero
  exponent_digits := by simp
  whole_head := by
    obtain ⟨c, cs, hcs, hne⟩ := exists_toDigits_eq_cons hn
    exact Or.inr ⟨c, cs ++ List.replicate k '0', by rw [hcs]; rfl, hne⟩
  marked := Or.inl (by simp)

/-- One digit before the point, and an exponent. -/
def Spelling.scientific {n : ℕ} (e : ℤ) (hn : 0 < n) : Spelling where
  whole := (Nat.toDigits 10 n).take 1
  fraction := (Nat.toDigits 10 n).drop 1
  exponent := some (decide (e < 0), digitsIn 10 2 e.natAbs)
  whole_digits := fun c hc => isDigit_of_mem_toDigits n c (List.mem_of_mem_take hc)
  fraction_digits := fun c hc => isDigit_of_mem_toDigits n c (List.mem_of_mem_drop hc)
  exponent_digits := by
    rintro _ ⟨⟩
    exact ⟨by simp [digitsIn], isDigit_of_mem_zeros (isDigit_of_mem_toDigits _)⟩
  whole_head := by
    obtain ⟨c, cs, hcs, hne⟩ := exists_toDigits_eq_cons hn
    exact Or.inr ⟨c, [], by rw [hcs]; rfl, hne⟩
  marked := Or.inr rfl

section Magnitudes
variable {n k : ℕ} (negative : Bool)

/-- A spelling without an exponent counts by its digits and the place of its point. -/
theorem magnitude_of_none {s : Spelling} (h : s.exponent = none) :
    (s.numeral negative).magnitude =
      Numeral.valueOf ((s.whole ++ s.fraction).map digitValue) *
        10 ^ (-(s.fraction.length : ℤ)) := by
  rw [Spelling.numeral, h, Numeral.magnitude, Numeral.ofParts, List.map_append, List.length_map]
  change _ * (10 : ℚ) ^ ((0 : ℤ) - s.fraction.length) = _
  rw [zero_sub]

theorem magnitude_small (k n : ℕ) :
    ((Spelling.small k n).numeral negative).magnitude = n * 10 ^ (-(k + Decimal.width n : ℤ)) := by
  have hvalue := (Numeral.valueOf_zeros_append (k + 1) _).trans (Numeral.valueOf_toDigits n)
  have hlength : (Spelling.small k n).fraction.length = k + Decimal.width n := by
    simp [Spelling.small, Decimal.width]
  rw [magnitude_of_none negative rfl, hlength, Nat.cast_add]
  exact congrArg (fun v : ℕ => (v : ℚ) * _) hvalue

theorem magnitude_pointed (hn : 0 < n) (hk : 0 < k) (hlt : k < Decimal.width n) :
    ((Spelling.pointed hn hk hlt).numeral negative).magnitude =
      n * 10 ^ (k - Decimal.width n : ℤ) := by
  have hvalue : (Spelling.pointed hn hk hlt).whole ++ (Spelling.pointed hn hk hlt).fraction =
      Nat.toDigits 10 n :=
    List.take_append_drop k _
  have hlength : (Spelling.pointed hn hk hlt).fraction.length = Decimal.width n - k :=
    List.length_drop
  rw [magnitude_of_none negative rfl, hvalue, Numeral.valueOf_toDigits, hlength,
    Nat.cast_sub hlt.le, neg_sub]

theorem magnitude_integral (hn : 0 < n) (k : ℕ) :
    ((Spelling.integral k hn).numeral negative).magnitude = n * 10 ^ k := by
  have hdigits : (Spelling.integral k hn).whole ++ (Spelling.integral k hn).fraction =
      Nat.toDigits 10 n ++ List.replicate (k + 1) '0' := by
    rw [List.replicate_succ', ← List.append_assoc]
    rfl
  rw [magnitude_of_none negative rfl, hdigits, Numeral.valueOf_append_zeros,
    Numeral.valueOf_toDigits]
  change _ * (10 : ℚ) ^ (-1 : ℤ) = _
  push_cast
  ring

theorem magnitude_scientific (hn : 0 < n) (e : ℤ) :
    ((Spelling.scientific e hn).numeral negative).magnitude =
      n * 10 ^ (e + 1 - Decimal.width n) := by
  have hvalue : Numeral.valueOf ((digitsIn 10 2 e.natAbs).map digitValue) = e.natAbs := by
    rw [digitsIn, Numeral.valueOf_zeros_append, Numeral.valueOf_toDigits]
  have hsigned : (if (decide (e < 0)) then -(e.natAbs : ℤ) else e.natAbs) = e := by
    by_cases he : e < 0
    · rw [decide_eq_true he, if_pos rfl, Int.natCast_natAbs, abs_of_neg he, neg_neg]
    · rw [decide_eq_false he, if_neg Bool.false_ne_true, Int.natCast_natAbs,
        abs_of_nonneg (not_lt.1 he)]
  have hlength : (((Nat.toDigits 10 n).drop 1).length : ℤ) = Decimal.width n - 1 := by
    rw [List.length_drop, Decimal.width, Nat.cast_sub Nat.length_toDigits_pos, Nat.cast_one]
  change (Numeral.valueOf (((Nat.toDigits 10 n).take 1).map digitValue ++
      ((Nat.toDigits 10 n).drop 1).map digitValue) : ℚ) *
    10 ^ ((if (decide (e < 0)) then -(Numeral.valueOf ((digitsIn 10 2 e.natAbs).map digitValue) : ℤ)
      else Numeral.valueOf ((digitsIn 10 2 e.natAbs).map digitValue)) -
      (((Nat.toDigits 10 n).drop 1).map digitValue).length) = _
  rw [← List.map_append, List.take_append_drop, Numeral.valueOf_toDigits, hvalue, hsigned,
    List.length_map, hlength, sub_sub_eq_add_sub]

end Magnitudes

section Texts
variable {n k : ℕ}

theorem text_small {point : ℤ} (hnear : -4 < point) (hsmall : point ≤ 0) :
    (Spelling.small (-point).toNat n).text = (Decimal.layout ⟨n, point⟩).toList := by
  have hle : point ≤ 16 := by omega
  simp [Decimal.layout, hnear, hle, hsmall, Spelling.text, Spelling.small, Spelling.fractionText,
    Spelling.exponentText]

theorem text_pointed (hn : 0 < n) (hk : 0 < k) (hlt : k < Decimal.width n) (hle : k ≤ 16) :
    (Spelling.pointed hn hk hlt).text = (Decimal.layout ⟨n, k⟩).toList := by
  have hnear : -4 < (k : ℤ) ∧ (k : ℤ) ≤ 16 := by omega
  have hne : ¬ (Nat.toDigits 10 n).drop k = [] :=
    fun h => absurd (List.drop_eq_nil_iff.1 h) (not_le.2 hlt)
  have hpadded : Nat.toDigits 10 n ++ List.replicate (k - (Nat.toDigits 10 n).length) '0' =
      Nat.toDigits 10 n := by
    have hzero : k - (Nat.toDigits 10 n).length = 0 := Nat.sub_eq_zero_of_le hlt.le
    rw [hzero, List.replicate_zero, List.append_nil]
  simp [Decimal.layout, hnear, hk.ne', hpadded, hne, Spelling.text, Spelling.pointed,
    Spelling.fractionText, Spelling.exponentText]

theorem text_integral (hn : 0 < n) (hk : 0 < k) (hge : Decimal.width n ≤ k) (hle : k ≤ 16) :
    (Spelling.integral (k - Decimal.width n) hn).text = (Decimal.layout ⟨n, k⟩).toList := by
  have hnear : -4 < (k : ℤ) ∧ (k : ℤ) ≤ 16 := by omega
  have hlength : (Nat.toDigits 10 n ++ List.replicate (k - (Nat.toDigits 10 n).length) '0').length =
      k := by
    rw [List.length_append, List.length_replicate]
    exact Nat.add_sub_cancel' hge
  simp only [Decimal.layout, hnear, Int.toNat_natCast, List.take_of_length_le hlength.le,
    List.drop_of_length_le hlength.le]
  simp [hk.ne', Decimal.width, Spelling.text, Spelling.integral, Spelling.fractionText,
    Spelling.exponentText]

theorem text_scientific (hn : 0 < n) {point : ℤ} (hfar : ¬ (-4 < point ∧ point ≤ 16)) :
    (Spelling.scientific (point - 1) hn).text = (Decimal.layout ⟨n, point⟩).toList := by
  by_cases hnone : (Nat.toDigits 10 n).drop 1 = [] <;> by_cases hnegative : point - 1 < 0 <;>
    simp only [Decimal.layout, if_neg hfar, Decimal.exponentSuffix, Spelling.text,
      Spelling.scientific, Spelling.fractionText, Spelling.exponentText, hnone, hnegative] <;> simp

end Texts

/-- The text of a decimal spells it. -/
theorem exists_spelling {d : Decimal} (hd : 0 < d.digits) :
    ∃ s : Spelling, s.text = d.layout.toList ∧
      ∀ negative, (s.numeral negative).negative = negative ∧
      (s.numeral negative).magnitude = d.value := by
  obtain ⟨n, point⟩ := d
  change 0 < n at hd
  -- the four layouts: 0.00d, d.d, d00.0 and the one with an exponent
  by_cases hnear : -4 < point ∧ point ≤ 16
  · obtain hsmall | hlarge := le_or_gt point 0
    · refine ⟨_, text_small hnear.1 hsmall, fun negative => ⟨rfl, ?_⟩⟩
      rw [magnitude_small, Decimal.value_mk]
      congr 2
      omega
    · obtain ⟨k, rfl⟩ := Int.eq_ofNat_of_zero_le hlarge.le
      have hk : 0 < k := by omega
      have hle : k ≤ 16 := by omega
      obtain hlt | hge := lt_or_ge k (Decimal.width n)
      · exact ⟨_, text_pointed hd hk hlt hle,
          fun negative => ⟨rfl, magnitude_pointed negative hd hk hlt⟩⟩
      · refine ⟨_, text_integral hd hk hge hle, fun negative => ⟨rfl, ?_⟩⟩
        rw [magnitude_integral, Decimal.value_mk, ← zpow_natCast]
        congr 2
        omega
  · refine ⟨_, text_scientific hd hnear, fun negative => ⟨rfl, ?_⟩⟩
    rw [magnitude_scientific, sub_add_cancel, Decimal.value_mk]

/-- Zero is spelled with a point, like every other double. -/
def Spelling.zero : Spelling where
  whole := ['0']
  fraction := ['0']
  exponent := none
  whole_digits := isDigit_of_mem_zero
  fraction_digits := isDigit_of_mem_zero
  exponent_digits := by simp
  whole_head := Or.inl rfl
  marked := Or.inl (by simp)

/-- The text of a finite double without its sign spells it. -/
theorem exists_spelling_finite {m : ℕ} {q : ℤ} (hc : Binary.Canonical m q) :
    ∃ s : Spelling, s.text = (if m = 0 then "0.0" else (Decimal.shortest m q).layout).toList ∧
      ∀ negative, (s.numeral negative).toFloat =
        Binary.ofMagnitude negative (Binary.magnitudeBits m q) := by
  obtain rfl | hm := m.eq_zero_or_pos
  · obtain rfl : q = -1074 := hc.full.resolve_left (by norm_num)
    exact ⟨Spelling.zero, by simp [Spelling.text, Spelling.zero, Spelling.fractionText,
      Spelling.exponentText], fun negative => rfl⟩
  · obtain ⟨hdigits, hrounds⟩ := Decimal.shortest_spec hc hm
    obtain ⟨s, htext, hnumeral⟩ := exists_spelling hdigits
    refine ⟨s, by rw [if_neg hm.ne', htext], fun negative => ?_⟩
    obtain ⟨hnegative, hmagnitude⟩ := hnumeral negative
    rw [← hmagnitude] at hrounds
    rw [Numeral.toFloat_of_roundsTo hc hm hrounds, hnegative]

theorem Spelling.exists_text_eq_cons (s : Spelling) :
    ∃ c cs, s.text = c :: cs ∧ c.isDigit = true := by
  obtain hzero | ⟨c, cs, hcs, -⟩ := s.whole_head
  · exact ⟨'0', s.fractionText ++ s.exponentText, by simp [text, hzero], rfl⟩
  · exact ⟨c, cs ++ s.fractionText ++ s.exponentText, by simp [text, hcs],
      s.whole_digits c (hcs ▸ List.mem_cons_self)⟩

/-- A digit begins no word, and it is no sign. -/
theorem ne_of_isDigit {c d : Char} (hc : c.isDigit = true) (hd : d.isDigit = false) : c ≠ d := by
  rintro rfl
  exact Bool.false_ne_true (hd.symm.trans hc)

theorem number_digit {c : Char} (hc : c.isDigit = true) (t : Text) :
    number (.char c :: t) = magnitude false (.char c :: t) := by
  have hminus : c ≠ '-' := ne_of_isDigit hc rfl
  have hI : c ≠ 'I' := ne_of_isDigit hc rfl
  have hN : c ≠ 'N' := ne_of_isDigit hc rfl
  simp [number, after?, hminus, hI, hN]

theorem number_minus_digit {c : Char} (hc : c.isDigit = true) (t : Text) :
    number (.char '-' :: .char c :: t) = magnitude true (.char c :: t) := by
  have hI : c ≠ 'I' := ne_of_isDigit hc rfl
  simp [number, after?, hI]

/-- What is written for a double is read as that double. -/
theorem number_floatText (x : Float) {rest : Text} (h : Stops rest) :
    number (chars (floatText x).toList ++ rest) = .ok (.float x, rest) := by
  rw [floatText]
  cases hx : Binary.ofFloat x with
  | nan =>
    rw [Binary.ofFloat_nan hx]
    simp [Binary.text, number, after?]
  | infinite negative =>
    have hinfinity : Binary.ofMagnitude false Binary.infinityBits = infinity := by decide +kernel
    have hminus : Binary.ofMagnitude true Binary.infinityBits = -infinity := by decide +kernel
    rw [Binary.ofFloat_infinite hx]
    cases negative with
    | false => simp [Binary.text, number, after?, hinfinity]
    | true => simp [Binary.text, number, after?, hminus]
  | finite negative m q =>
    obtain ⟨hc, hmagnitude⟩ := Binary.ofFloat_finite hx
    obtain ⟨s, htext, hvalue⟩ := exists_spelling_finite hc
    obtain ⟨c, cs, hcs, hdigit⟩ := s.exists_text_eq_cons
    have hread := s.magnitude_append negative h
    rw [hvalue, ← hmagnitude] at hread
    rw [Binary.text, String.toList_append, ← htext]
    rw [hcs] at hread ⊢
    cases negative with
    | false => exact (number_digit hdigit _).trans hread
    | true => exact (number_minus_digit hdigit _).trans hread

end Json

end Simplex
