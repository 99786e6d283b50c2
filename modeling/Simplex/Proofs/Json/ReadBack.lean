import Simplex.Proofs.Json.Number
/-! Documents that are written and read again. Whatever the layout, the reader finds the items
    of a container one after the other: what stands between them is blank apart from the
    comma, an item never begins with a blank or a closing bracket, and what follows a number
    does not go on with it. -/

namespace Simplex.Json

/-- A character that stands for itself inside a string. -/
structure IsPlain (c : Char) : Prop where
  visible : 0x20 ≤ c.toNat ∧ c.toNat < 0x7F
  quote : c ≠ '"'
  backslash : c ≠ '\\'

instance (c : Char) : Decidable (IsPlain c) :=
  decidable_of_iff ((0x20 ≤ c.toNat ∧ c.toNat < 0x7F) ∧ c ≠ '"' ∧ c ≠ '\\')
    ⟨fun h => ⟨h.1, h.2.1, h.2.2⟩, fun h => ⟨h.visible, h.quote, h.backslash⟩⟩

/-- A text of characters that stand for themselves. -/
def PlainText (t : Text) : Prop := ∃ cs : List Char, t = chars cs ∧ ∀ c ∈ cs, IsPlain c

/-- Doubles, plain texts and containers, nested up to the given depth; an
    object names a member once. -/
inductive Storable : ℕ → Value → Prop
  | float {levels : ℕ} (x : Float) : Storable levels (.float x)
  | string {levels : ℕ} {t : Text} (h : PlainText t) : Storable levels (.string t)
  | array {levels : ℕ} {vs : List Value} (items : ∀ v ∈ vs, Storable levels v) :
    Storable (levels + 1) (.array vs)
  | object {levels : ℕ} {ms : List (Text × Value)} (names : ∀ m ∈ ms, PlainText m.1)
    (values : ∀ m ∈ ms, Storable levels m.2) (once : (ms.map Prod.fst).Nodup) :
    Storable (levels + 1) (.object ms)

/-! ### Blanks -/

/-- The blanks of a written document. -/
def Blank (cs : List Char) : Prop := ∀ c ∈ cs, c = ' ' ∨ c = '\n'

theorem blank_edge (l : Layout) : Blank l.edge := by
  cases l with
  | line => simp [Blank, Layout.edge]
  | indented depth =>
    intro c hc
    rcases List.mem_cons.1 hc with rfl | hc
    · exact Or.inr rfl
    · exact Or.inl (List.mem_replicate.1 hc).2

/-- A comma and blanks stand between two items. -/
theorem separator_eq (l : Layout) : ∃ gap, l.separator = ',' :: gap ∧ Blank gap := by
  cases l with
  | line => exact ⟨[' '], rfl, by simp [Blank]⟩
  | indented depth => exact ⟨_, rfl, blank_edge (.indented depth)⟩

theorem skipBlank_append {cs : List Char} (h : Blank cs) {c : Char} (hc : isBlank (.char c) = false)
    (t : Text) :
    skipBlank (chars cs ++ .char c :: t) = .char c :: t := by
  have hcs : ∀ p ∈ chars cs, isBlank p = true := by
    rintro p hp
    obtain ⟨d, hd, rfl⟩ := List.mem_map.1 hp
    obtain rfl | rfl := h d hd <;> rfl
  rw [skipBlank, List.dropWhile_append_of_pos hcs,
    List.dropWhile_cons_of_neg (by rw [hc]; exact Bool.false_ne_true)]

/-! ### What a document begins with -/

/-- A character that a document can begin with. -/
def IsHead (c : Char) : Prop := c.isDigit = true ∨ c ∈ ['-', 'I', 'N', '"', '[', '{']

theorem exists_floatText_eq_cons (x : Float) :
    ∃ c cs, (floatText x).toList = c :: cs ∧ (c.isDigit = true ∨ c ∈ ['-', 'I', 'N']) := by
  rw [floatText]
  cases hx : Binary.ofFloat x with
  | nan => exact ⟨'N', ['a', 'N'], rfl, by simp⟩
  | infinite negative =>
    cases negative with
    | false => exact ⟨'I', _, rfl, by simp⟩
    | true => exact ⟨'-', _, rfl, by simp⟩
  | finite negative m q =>
    obtain ⟨s, htext, -⟩ := exists_spelling_finite (Binary.ofFloat_finite hx).1
    obtain ⟨c, cs, hcs, hdigit⟩ := s.exists_text_eq_cons
    rw [Binary.text, String.toList_append, ← htext, hcs]
    cases negative with
    | false => exact ⟨c, cs, rfl, Or.inl hdigit⟩
    | true => exact ⟨'-', c :: cs, rfl, by simp⟩

theorem exists_write_eq_cons {levels : ℕ} {v : Value} (h : Storable levels v) (l : Layout) :
    ∃ c cs, write l v = c :: cs ∧ IsHead c := by
  cases h with
  | float x =>
    obtain ⟨c, cs, hcs, hc⟩ := exists_floatText_eq_cons x
    exact ⟨c, cs, hcs, hc.imp_right fun h => by simp at h ⊢; tauto⟩
  | string h => exact ⟨'"', _, rfl, Or.inr (by simp)⟩
  | @array _ vs items => cases vs <;> exact ⟨'[', _, rfl, Or.inr (by simp)⟩
  | @object _ ms names values once => cases ms <;> exact ⟨'{', _, rfl, Or.inr (by simp)⟩

theorem IsHead.not_blank {c : Char} (h : IsHead c) : isBlank (.char c) = false := by
  obtain hdigit | hmem := h
  · have := (isDigit_iff c).1 hdigit
    simp [isBlank, CodePoint.value]
    omega
  · fin_cases hmem <;> rfl

theorem IsHead.ne_bracket {c : Char} (h : IsHead c) : c ≠ ']' := by
  rintro rfl
  obtain hdigit | hmem := h
  · exact absurd hdigit (by decide)
  · simp at hmem

/-! ### Strings -/

theorem pointText_plain {c : Char} (h : IsPlain c) : pointText (.char c) = [c] := by
  have hquote : c.toNat ≠ 0x22 := fun heq => h.quote (Char.toNat_inj.1 heq)
  have hbackslash : c.toNat ≠ 0x5C := fun heq => h.backslash (Char.toNat_inj.1 heq)
  have hvisible := h.visible
  change (if c.toNat = 0x22 then _ else if c.toNat = 0x5C then _ else
    if 0x20 ≤ c.toNat ∧ c.toNat < 0x7F then [Char.ofNat c.toNat] else _) = _
  rw [if_neg hquote, if_neg hbackslash, if_pos hvisible, Char.ofNat_toNat]

variable {cs : List Char} (hcs : ∀ c ∈ cs, IsPlain c)
include hcs

theorem stringText_plain : stringText (chars cs) = '"' :: cs ++ ['"'] := by
  have hflat : (chars cs).flatMap pointText = cs := by
    rw [List.flatMap_map]
    induction cs with
    | nil => rfl
    | cons c cs ih =>
      rw [List.flatMap_cons, pointText_plain (hcs c List.mem_cons_self),
        ih fun c hc => hcs c (List.mem_cons_of_mem _ hc)]
      rfl
  rw [stringText, hflat]

theorem stringBody_plain {fuel : ℕ} (hfuel : cs.length ≤ fuel) (rest : Text) :
    stringBody fuel (chars cs ++ .char '"' :: rest) = .ok (chars cs, rest) := by
  induction cs generalizing fuel with
  | nil => cases fuel <;> rfl
  | cons c cs ih =>
    obtain ⟨fuel, rfl⟩ := Nat.exists_eq_add_one.2 (Nat.zero_lt_of_lt hfuel)
    have hc := hcs c List.mem_cons_self
    have hrest := ih (fun c hc => hcs c (List.mem_cons_of_mem _ hc)) (Nat.le_of_succ_le_succ hfuel)
    have hpoint : point? (.char c :: (chars cs ++ .char '"' :: rest)) =
        some (.char c, chars cs ++ .char '"' :: rest) := by
      have hlow := hc.visible.1
      simp [point?, hc.backslash, CodePoint.value, hlow]
    change stringBody (fuel + 1) (.char c :: (chars cs ++ .char '"' :: rest)) = _
    rw [stringBody, hpoint]
    · dsimp only
      rw [hrest]
      rfl
    · simpa using hc.quote

theorem string_plain (rest : Text) :
    string (chars cs ++ .char '"' :: rest) = .ok (chars cs, rest) :=
  stringBody_plain hcs (by simp) rest

omit hcs

/-! ### One step of the reader -/

section Steps
variable {fuel levels : ℕ} {t t' rest rest' rest'' : Text} {v : Value} {vs : List Value}
  {name : Text} {ms ms' : List (Text × Value)}

theorem document_float (x : Float) (h : Stops rest) :
    document (fuel + 1) levels (chars (floatText x).toList ++ rest) = .ok (.float x, rest) := by
  have hnumber := number_floatText x h
  obtain ⟨c, cs, hcs, hc⟩ := exists_floatText_eq_cons x
  have hne : ∀ d : Char, d.isDigit = false → d ∉ ['-', 'I', 'N'] → c ≠ d := by
    rintro d hdigit hmem rfl
    exact hc.elim (fun h => Bool.false_ne_true (hdigit.symm.trans h)) hmem
  have hquote := hne '"' rfl (by decide)
  have hbracket := hne '[' rfl (by decide)
  have hbrace := hne '{' rfl (by decide)
  have hnull := hne 'n' rfl (by decide)
  have htrue := hne 't' rfl (by decide)
  have hfalse := hne 'f' rfl (by decide)
  rw [hcs] at hnumber ⊢
  simpa [document, scalar, after?, hquote, hbracket, hbrace, hnull, htrue, hfalse] using hnumber

theorem document_string (h : string t = .ok (name, rest)) :
    document (fuel + 1) levels (.char '"' :: t) = .ok (.string name, rest) := by
  rw [document, h]
  rfl

theorem document_array {c : Char} (ht : skipBlank t = .char c :: t') (hc : c ≠ ']')
    (h : elements fuel levels (.char c :: t') = .ok (vs, rest)) :
    document (fuel + 1) (levels + 1) (.char '[' :: t) = .ok (.array vs, rest) := by
  simp [document, ht, hc, h]

theorem document_object (ht : skipBlank t = .char '"' :: t')
    (h : members fuel levels [] (.char '"' :: t') = .ok (ms, rest)) :
    document (fuel + 1) (levels + 1) (.char '{' :: t) = .ok (.object ms, rest) := by
  simp [document, ht, h]

theorem elements_last (hv : document fuel levels t = .ok (v, rest))
    (hrest : skipBlank rest = .char ']' :: rest') :
    elements (fuel + 1) levels t = .ok ([v], rest') := by
  simp only [elements, hv, bind, Except.bind, hrest]
  rfl

theorem elements_more (hv : document fuel levels t = .ok (v, rest))
    (hrest : skipBlank rest = .char ',' :: rest')
    (hvs : elements fuel levels (skipBlank rest') = .ok (vs, rest'')) :
    elements (fuel + 1) levels t = .ok (v :: vs, rest'') := by
  simp only [elements, hv, bind, Except.bind, hrest, hvs]
  rfl

theorem skipBlank_colon (t : Text) : skipBlank (.char ':' :: t) = .char ':' :: t := rfl

theorem members_last (hname : string t = .ok (name, .char ':' :: rest))
    (hms : Value.assign name v ms = ms')
    (hv : document fuel levels (skipBlank rest) = .ok (v, rest'))
    (hrest : skipBlank rest' = .char '}' :: rest'') :
    members (fuel + 1) levels ms (.char '"' :: t) = .ok (ms', rest'') := by
  simp only [members, hname, skipBlank_colon, hv, bind, Except.bind, hrest, hms]
  rfl

theorem members_more (hname : string t = .ok (name, .char ':' :: rest))
    (hv : document fuel levels (skipBlank rest) = .ok (v, rest'))
    (hrest : skipBlank rest' = .char ',' :: rest'')
    (hms : members fuel levels (Value.assign name v ms) (skipBlank rest'') = .ok (ms', t')) :
    members (fuel + 1) levels ms (.char '"' :: t) = .ok (ms', t') := by
  simp only [members, hname, skipBlank_colon, hv, bind, Except.bind, hrest, hms]

end Steps

/-! ### What follows an item -/

theorem Stops.nil : Stops [] where
  digit := nofun
  point := nofun
  mark := nofun

theorem Stops.cons {c : Char} (hdigit : c.isDigit = false) (hmem : c ∉ ['.', 'e', 'E']) (t : Text) :
    Stops (.char c :: t) where
  digit := by
    rintro p ⟨⟩ h
    exact Bool.false_ne_true (hdigit.symm.trans ((isDigit_iff c).2 h))
  point := by
    rintro ⟨⟩
    exact hmem (by simp)
  mark := by
    rintro p ⟨⟩ (h | h) <;> exact hmem (by simp [CodePoint.char.inj h])

theorem stops_comma (t : Text) : Stops (.char ',' :: t) := .cons rfl (by decide) t

/-- Blanks stop a number, and so does what a container closes or goes on with. -/
theorem stops_blank {cs : List Char} (h : Blank cs) {c : Char} (hdigit : c.isDigit = false)
    (hmem : c ∉ ['.', 'e', 'E']) (t : Text) : Stops (chars cs ++ .char c :: t) := by
  cases cs with
  | nil => exact .cons hdigit hmem t
  | cons d cs => obtain rfl | rfl := h d List.mem_cons_self <;> exact .cons rfl (by decide) _

/-! ### Containers -/

/-- The blanks before a document are skipped, and nothing of the document is. -/
theorem skipBlank_write {levels : ℕ} {v : Value} (h : Storable levels v) (l : Layout)
    {gap : List Char} (hgap : Blank gap) (t : Text) :
    skipBlank (chars gap ++ (chars (write l v) ++ t)) = chars (write l v) ++ t := by
  obtain ⟨c, cs, hcs, hc⟩ := exists_write_eq_cons h l
  rw [hcs]
  exact skipBlank_append hgap hc.not_blank _

/-- The value is read from its text, whatever comes after it. -/
def ReadsBack (levels : ℕ) (v : Value) : Prop :=
  ∀ (l : Layout) (fuel : ℕ) (rest : Text), (write l v).length ≤ fuel → Stops rest →
    document fuel levels (chars (write l v) ++ rest) = .ok (v, rest)

/-- The value of a member after the blank that follows the colon. -/
theorem document_value {levels : ℕ} (l : Layout) {v : Value} (hv : Storable levels v)
    (hread : ReadsBack levels v) {fuel : ℕ} (hfuel : (write l v).length ≤ fuel) {t : Text}
    (ht : Stops t) :
    document fuel levels (skipBlank (.char ' ' :: (chars (write l v) ++ t))) = .ok (v, t) := by
  have hspace : Blank [' '] := by simp [Blank]
  exact (congrArg _ (skipBlank_write hv l hspace t)).trans (hread l fuel t hfuel ht)

/-- A name that is not yet there is assigned to at the end. -/
theorem assign_new {name : Text} {v : Value} {done ms : List (Text × Value)}
    (h : ((done ++ (name, v) :: ms).map Prod.fst).Nodup) :
    Value.assign name v done = done ++ [(name, v)] := by
  induction done with
  | nil => rfl
  | cons m done ih =>
    obtain ⟨hnew, hdone⟩ := List.nodup_cons.1 h
    rw [Value.assign, if_neg, ih hdone]
    · rfl
    · rintro heq
      exact hnew (by simp [heq])

section Containers
variable {levels : ℕ} (l : Layout) {edge : List Char} (hedge : Blank edge)
include hedge

/-- The elements of an array are read up to the bracket, one after the other. -/
theorem elements_write {vs : List Value} (hvs : ∀ v ∈ vs, Storable levels v ∧ ReadsBack levels v)
    {v : Value} (hv : ReadsBack levels v) {fuel : ℕ}
    (hfuel : (write l v).length + (writeItems l vs).length < fuel) (rest : Text) :
    elements fuel levels
      (chars (write l v) ++ (chars (writeItems l vs) ++ (chars edge ++ .char ']' :: rest))) =
      .ok (v :: vs, rest) := by
  obtain ⟨fuel, rfl⟩ := Nat.exists_eq_add_one.2 (Nat.zero_lt_of_lt hfuel)
  -- on the elements after the one at the head; each call takes a unit of fuel, and each separator
  -- pays for one
  induction vs generalizing v fuel with
  | nil =>
    exact elements_last
      (hv l fuel _ (Nat.le_of_lt_succ hfuel) (stops_blank hedge rfl (by decide) rest))
      (skipBlank_append hedge rfl rest)
  | cons w ws ih =>
    obtain ⟨⟨hw, hread⟩, hws⟩ := List.forall_mem_cons.1 hvs
    obtain ⟨gap, hseparator, hgap⟩ := separator_eq l
    have hnext : chars (writeItems l (w :: ws)) ++ (chars edge ++ .char ']' :: rest) =
        .char ',' :: (chars gap ++ (chars (write l w) ++
          (chars (writeItems l ws) ++ (chars edge ++ .char ']' :: rest)))) := by
      simp [writeItems, hseparator]
    simp only [writeItems, hseparator, List.length_append, List.length_cons] at hfuel
    obtain ⟨fuel, rfl⟩ := Nat.exists_eq_add_one.2 (by omega : 0 < fuel)
    rw [hnext]
    refine elements_more (hv l _ _ (by omega) (stops_comma _)) rfl ?_
    rw [skipBlank_write hw l hgap]
    exact ih hws hread fuel (by omega)

/-- The members of an object are read up to the brace, and come after those before them. -/
theorem members_write {ms : List (Text × Value)}
    (hms : ∀ m ∈ ms, PlainText m.1 ∧ Storable levels m.2 ∧ ReadsBack levels m.2) {name : List Char}
    (hname : ∀ c ∈ name, IsPlain c) {v : Value} (hv : Storable levels v)
    (hread : ReadsBack levels v) {done : List (Text × Value)}
    (honce : ((done ++ (chars name, v) :: ms).map Prod.fst).Nodup) {fuel : ℕ}
    (hfuel : (write l v).length + (writeMembers l ms).length < fuel) (rest : Text) :
    members fuel levels done
      (.char '"' :: (chars name ++ .char '"' :: .char ':' :: .char ' ' ::
        (chars (write l v) ++ (chars (writeMembers l ms) ++ (chars edge ++ .char '}' :: rest))))) =
      .ok (done ++ (chars name, v) :: ms, rest) := by
  obtain ⟨fuel, rfl⟩ := Nat.exists_eq_add_one.2 (Nat.zero_lt_of_lt hfuel)
  induction ms generalizing name v done fuel with
  | nil =>
    exact members_last (string_plain hname _) (assign_new honce)
      (document_value l hv hread (Nat.le_of_lt_succ hfuel) (stops_blank hedge rfl (by decide) rest))
      (skipBlank_append hedge rfl rest)
  | cons m ms ih =>
    obtain ⟨k, w⟩ := m
    obtain ⟨⟨⟨name', hk, hname'⟩, hw, hread'⟩, hrest⟩ := List.forall_mem_cons.1 hms
    obtain rfl : k = chars name' := hk
    obtain ⟨gap, hseparator, hgap⟩ := separator_eq l
    -- what is left starts with the comma and the next name
    have hnext : chars (writeMembers l ((chars name', w) :: ms)) ++
        (chars edge ++ .char '}' :: rest) =
        .char ',' ::
          (chars gap ++ .char '"' ::
            (chars name' ++ .char '"' :: .char ':' :: .char ' ' ::
              (chars (write l w) ++
                (chars (writeMembers l ms) ++ (chars edge ++ .char '}' :: rest))))) := by
      simp [writeMembers, hseparator, stringText_plain hname']
    have hskip := skipBlank_append hgap (rfl : isBlank (.char '"') = false)
    simp only [writeMembers, hseparator, List.length_append, List.length_cons] at hfuel
    obtain ⟨fuel, rfl⟩ := Nat.exists_eq_add_one.2 (by omega : 0 < fuel)
    rw [hnext]
    refine members_more (string_plain hname _)
      (document_value l hv hread (by omega) (stops_comma _)) rfl ?_
    rw [hskip, assign_new honce]
    -- the member just read joins the ones read before
    rw [List.append_cons done _ (_ :: _)] at honce ⊢
    exact ih hrest hname' (v := w) hw hread' honce fuel (by omega)

end Containers

/-- No text is empty, so that reading one takes a unit of fuel. -/
theorem exists_fuel {levels : ℕ} {v : Value} (h : Storable levels v) {l : Layout} {fuel : ℕ}
    (hfuel : (write l v).length ≤ fuel) : ∃ k, fuel = k + 1 := by
  obtain ⟨c, cs, hcs, -⟩ := exists_write_eq_cons h l
  rw [hcs, List.length_cons] at hfuel
  exact Nat.exists_eq_add_one.2 (by omega)

theorem readsBack_array {levels : ℕ} {v : Value} {vs : List Value} (hv : Storable levels v)
    (hread : ReadsBack levels v) (hvs : ∀ v ∈ vs, Storable levels v ∧ ReadsBack levels v) :
    ReadsBack (levels + 1) (.array (v :: vs)) := by
  intro l fuel rest hfuel hrest
  have htext : chars (write l (.array (v :: vs))) ++ rest = .char '[' :: (chars l.inner.edge ++
      (chars (write l.inner v) ++
        (chars (writeItems l.inner vs) ++ (chars l.edge ++ .char ']' :: rest)))) := by
    simp [write]
  simp only [write, List.length_append, List.length_cons] at hfuel
  obtain ⟨fuel, rfl⟩ := Nat.exists_eq_add_one.2 (by omega : 0 < fuel)
  obtain ⟨c, cs, hcs, hc⟩ := exists_write_eq_cons hv l.inner
  have hskip := skipBlank_write hv l.inner (blank_edge l.inner)
    (chars (writeItems l.inner vs) ++ (chars l.edge ++ .char ']' :: rest))
  have hitems : (write l.inner v).length + (writeItems l.inner vs).length < fuel := by omega
  have helements := elements_write l.inner (blank_edge l) hvs hread hitems rest
  rw [htext]
  rw [hcs] at hskip helements ⊢
  exact document_array hskip hc.ne_bracket helements

theorem readsBack_object {levels : ℕ} {m : Text × Value} {ms : List (Text × Value)}
    (hms : ∀ m' ∈ m :: ms, PlainText m'.1 ∧ Storable levels m'.2 ∧ ReadsBack levels m'.2)
    (honce : ((m :: ms).map Prod.fst).Nodup) : ReadsBack (levels + 1) (.object (m :: ms)) := by
  intro l fuel rest hfuel hrest
  obtain ⟨k, v⟩ := m
  obtain ⟨⟨⟨name, hk, hname⟩, hv, hread⟩, htail⟩ := List.forall_mem_cons.1 hms
  obtain rfl : k = chars name := hk
  have htext : chars (write l (.object ((chars name, v) :: ms))) ++ rest =
      .char '{' ::
      (chars l.inner.edge ++ .char '"' ::
        (chars name ++ .char '"' :: .char ':' :: .char ' ' :: (chars (write l.inner v) ++
        (chars (writeMembers l.inner ms) ++ (chars l.edge ++ .char '}' :: rest))))) := by
    simp [write, stringText_plain hname]
  simp only [write, List.length_append, List.length_cons] at hfuel
  obtain ⟨fuel, rfl⟩ := Nat.exists_eq_add_one.2 (by omega : 0 < fuel)
  rw [htext]
  exact document_object (skipBlank_append (blank_edge l.inner) rfl _)
    (members_write l.inner (blank_edge l) htail hname (v := v) hv hread honce (by omega) rest)

/-- A value is read from its text. -/
theorem readsBack {levels : ℕ} {v : Value} (h : Storable levels v) : ReadsBack levels v := by
  -- on the depth: an array or an object reads back when everything in it does
  induction h with
  | float x =>
    intro l fuel rest hle hrest
    obtain ⟨fuel, rfl⟩ := exists_fuel (.float x : Storable 0 _) hle
    exact document_float x hrest
  | string h =>
    intro l fuel rest hle hrest
    obtain ⟨fuel, rfl⟩ := exists_fuel (.string h : Storable 0 _) hle
    obtain ⟨cs, rfl, hplain⟩ := h
    have hquoted : chars (stringText (chars cs)) ++ rest =
        .char '"' :: (chars cs ++ .char '"' :: rest) := by
      simp [stringText_plain hplain]
    rw [write, hquoted]
    exact document_string (string_plain hplain rest)
  | @array levels vs items ih =>
    cases vs with
    | nil =>
      intro l fuel rest hle hrest
      obtain ⟨fuel, rfl⟩ := exists_fuel (.array items) hle
      rfl
    | cons v vs =>
      exact readsBack_array (items v List.mem_cons_self) (ih v List.mem_cons_self) fun w hw =>
        ⟨items w (List.mem_cons_of_mem _ hw), ih w (List.mem_cons_of_mem _ hw)⟩
  | @object levels ms names values once ih =>
    cases ms with
    | nil =>
      intro l fuel rest hle hrest
      obtain ⟨fuel, rfl⟩ := exists_fuel (.object names values once) hle
      rfl
    | cons m ms => exact readsBack_object (fun m hm => ⟨names m hm, values m hm, ih m hm⟩) once

/-- A document is read from its text, whatever its layout. -/
theorem read_write {levels : ℕ} {v : Value} (h : Storable levels v) (l : Layout) :
    read levels (chars (write l v)) = .ok v := by
  have hread := readsBack h l (2 * (chars (write l v)).length + 2) [] (by simp; omega) Stops.nil
  have hskip := skipBlank_write h l (nofun : Blank []) []
  simp only [List.map_nil, List.nil_append, List.append_nil] at hread hskip
  rw [read, hskip, hread]
  rfl

end Simplex.Json
