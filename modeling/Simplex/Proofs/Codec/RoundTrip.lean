import Simplex.Codec.Encode
import Simplex.Proofs.Codec.Schema
import Simplex.Proofs.Json.ReadBack
import Simplex.Proofs.Meaning
/-! A program that is stored and read again. Its document keeps to the schema, whatever its doubles,
    and says all of the program but its flags, its tolerance, the sign of a zero and relations that
    no row uses. What is read is stored as the same text, so the text tells programs apart exactly
    by what it says of them. -/

namespace Simplex

/-! ### Numbers -/

theorem storedZero_eq (x : Float) : storedZero x = if x = -0 then 0 else x := by
  rw [storedZero]
  by_cases hzero : x = -0
  · rw [if_pos hzero, if_pos ((Binary.beq_zero_iff x).2 (Or.inr hzero))]
  · rw [if_neg hzero]
    split_ifs with h
    · exact (((Binary.beq_zero_iff x).1 h).resolve_right hzero).symm
    · rfl

theorem storedZero_storedZero (x : Float) : storedZero (storedZero x) = storedZero x := by
  have hne : (0 : Float) ≠ -0 := by decide +kernel
  rw [storedZero_eq x]
  split_ifs with h
  · rw [storedZero_eq, if_neg hne]
  · rw [storedZero_eq, if_neg h]

/-- The same number, apart from the sign of a zero. -/
def SameNumber (x y : Float) : Prop := x = y ∨ (x = 0 ∨ x = -0) ∧ (y = 0 ∨ y = -0)

theorem sameNumber_iff (x y : Float) : SameNumber x y ↔ storedZero x = storedZero y := by
  simp only [SameNumber, storedZero_eq]
  constructor
  · rintro (rfl | ⟨rfl | rfl, rfl | rfl⟩) <;> simp
  · intro h
    split_ifs at h with hx hy hy
    · exact Or.inr ⟨Or.inr hx, Or.inr hy⟩
    · exact Or.inr ⟨Or.inr hx, Or.inl h.symm⟩
    · exact Or.inr ⟨Or.inl h, Or.inr hy⟩
    · exact Or.inl h

theorem map_storedZero_eq_iff (xs ys : List Float) :
    xs.map storedZero = ys.map storedZero ↔ List.Forall₂ SameNumber xs ys := by
  rw [← List.forall₂_eq_eq_eq, List.forall₂_map_left_iff, List.forall₂_map_right_iff]
  simp only [← sameNumber_iff]

/-! ### Texts -/

namespace Json

/-- Does every character of the string stand for itself? -/
def allPlain (s : String) : Bool := s.toList.all fun c => IsPlain c

theorem plainText_ofString {s : String} (h : allPlain s = true) : PlainText (Text.ofString s) :=
  ⟨s.toList, rfl, fun c hc => of_decide_eq_true (List.all_eq_true.1 h c hc)⟩

theorem plainText_objective (o : Objective) : PlainText (Text.ofString o.word) :=
  plainText_ofString (by cases o <;> decide)

theorem plainText_relation (r : Relation) : PlainText (Text.ofString r.word) :=
  plainText_ofString (by cases r <;> decide)

theorem plainText_restriction (r : Restriction) : PlainText (Text.ofString r.word) :=
  plainText_ofString (by cases r <;> decide)

/-- An object of named members, which are told apart by their names. -/
theorem storable_ofMembers {levels : ℕ} {ms : List (String × Value)} {names : List String}
    (h : ms.map Prod.fst = names) (hnames : ∀ k ∈ names, allPlain k = true)
    (honce : (names.map Text.ofString).Nodup) (hvalues : ∀ m ∈ ms, Storable levels m.2) :
    Storable (levels + 1) (.ofMembers ms) := by
  subst h
  refine .object ?_ ?_ ?_
  · rintro _ hmem
    obtain ⟨⟨k, v⟩, hm, rfl⟩ := List.mem_map.1 hmem
    exact plainText_ofString (hnames k (List.mem_map_of_mem hm))
  · rintro _ hmem
    obtain ⟨⟨k, v⟩, hm, rfl⟩ := List.mem_map.1 hmem
    exact hvalues _ hm
  · rw [List.map_map] at honce ⊢
    exact honce

theorem storable_numbersValue {levels : ℕ} (xs : List Float) :
    Storable (levels + 1) (Program.numbersValue xs) := by
  refine .array ?_
  rintro _ hx
  obtain ⟨x, -, rfl⟩ := List.mem_map.1 hx
  exact .float _

theorem storable_constraintValue {levels : ℕ} (c : Relation × Float × List Float) :
    Storable (levels + 2) (Program.constraintValue c) := by
  refine storable_ofMembers (rfl : _ = ["type", "value", "coefficients"]) (by decide) (by decide) ?_
  simp only [List.forall_mem_cons]
  exact ⟨.string (plainText_relation c.1), .float _, storable_numbersValue c.2.2, nofun⟩

theorem storable_toValue {levels : ℕ} (p : Program Float) : Storable (levels + 4) p.toValue := by
  refine storable_ofMembers
    (rfl : _ = ["objectiveType", "coefficients", "restrictions", "constraints", "constant"])
    (by decide) (by decide) ?_
  simp only [List.forall_mem_cons]
  refine ⟨.string (plainText_objective p.objective), storable_numbersValue p.costs, .array ?_,
    .array ?_, .float _, nofun⟩
  · rintro _ hr
    obtain ⟨r, -, rfl⟩ := List.mem_map.1 hr
    exact .string (plainText_restriction r)
  · rintro _ hc
    obtain ⟨c, -, rfl⟩ := List.mem_map.1 hc
    exact storable_constraintValue c

end Json

namespace Program

/-- The parts of the program that are stored fit together: an `m × n` matrix, a restriction per
    variable, and a relation for every row at least. -/
structure Complete (p : Program Float) : Prop extends Rectangular p where
  restrictions : p.restrictions.length = p.n
  relations : p.m ≤ p.relations.length

/-- What the stored text says of the program. -/
def stored (p : Program Float) : Program Float where
  objective := p.objective
  costs := p.costs.map storedZero
  constant := storedZero p.constant
  restrictions := p.restrictions
  relations := p.relations.take p.m
  rhs := p.rhs.map storedZero
  rows := p.rows.map fun row => row.map storedZero
  standard := false
  simplex := false
  tolerance := defaultTolerance

/-- The programs agree on what is stored, up to the sign of zero. -/
structure SameStored (p q : Program Float) : Prop where
  objective : p.objective = q.objective
  costs : List.Forall₂ SameNumber p.costs q.costs
  constant : SameNumber p.constant q.constant
  restrictions : p.restrictions = q.restrictions
  relations : p.relations.take p.m = q.relations.take q.m
  rhs : List.Forall₂ SameNumber p.rhs q.rhs
  rows : List.Forall₂ (List.Forall₂ SameNumber) p.rows q.rows

theorem sameStored_iff (p q : Program Float) : SameStored p q ↔ p.stored = q.stored := by
  have hrows : (p.rows.map fun row => row.map storedZero) =
      (q.rows.map fun row => row.map storedZero) ↔
      List.Forall₂ (List.Forall₂ SameNumber) p.rows q.rows := by
    rw [← List.forall₂_eq_eq_eq, List.forall₂_map_left_iff, List.forall₂_map_right_iff]
    simp only [map_storedZero_eq_iff]
  rw [stored, stored, Program.mk.injEq, map_storedZero_eq_iff, map_storedZero_eq_iff, hrows,
    ← sameNumber_iff]
  exact ⟨fun h =>
    ⟨h.objective, h.costs, h.constant, h.restrictions, h.relations, h.rhs, h.rows, rfl, rfl, rfl⟩,
    fun ⟨ho, hc, ha, hr, ht, hb, hA, _⟩ => ⟨ho, hc, ha, hr, ht, hb, hA⟩⟩

theorem numbersValue_map_storedZero (xs : List Float) :
    numbersValue (xs.map storedZero) = numbersValue xs := by
  simp [numbersValue, storedZero_storedZero]

theorem constraints_stored (p : Program Float) :
    p.stored.constraints = p.constraints.map
      (Prod.map id (Prod.map storedZero fun row => row.map storedZero)) := by
  rw [constraints_eq_take p, ← List.zip_map_right, ← List.zip_map]
  rfl

/-- The document says nothing that is not stored. -/
theorem toValue_stored (p : Program Float) : p.stored.toValue = p.toValue := by
  have hconstraints : p.stored.constraints.map constraintValue =
      p.constraints.map constraintValue := by
    rw [constraints_stored, List.map_map]
    refine List.map_congr_left fun c _ => ?_
    simp [constraintValue, storedZero_storedZero, numbersValue_map_storedZero]
  rw [toValue, hconstraints, toValue]
  simp only [stored, numbersValue_map_storedZero, storedZero_storedZero]

section Schema
variable {p : Program Float}

theorem double_numbersValue (xs : List Float) :
    (numbersValue xs).items.map Value.double = xs.map storedZero := by
  simp [numbersValue, Value.items, Value.double]

theorem constraintSchema_constraintValue (c : Relation × Float × List Float) :
    Decode.ConstraintSchema c.2.2.length (constraintValue c) where
  relation := ⟨c.1, rfl⟩
  value := ⟨_, rfl, rfl⟩
  coefficients := ⟨_, rfl, by simp [Value.isNumber], List.length_map ..⟩

theorem length_of_mem_constraints (hp : p.Complete) : ∀ c ∈ p.constraints, c.2.2.length = p.n := by
  rintro ⟨relation, b, row⟩ hc
  exact hp.row row (List.of_mem_zip (List.of_mem_zip hc).2).2

/-- The document of a complete program keeps to the schema. -/
theorem schema_toValue (hp : p.Complete) : Decode.Schema p.toValue := by
  have hlength : (p.toValue.member "coefficients").items.length = p.n := by
    change (p.costs.map _).length = _
    rw [List.length_map, n]
  refine ⟨⟨p.objective, rfl⟩, ⟨_, rfl, ?_⟩, ⟨_, rfl, ?_, ?_⟩, ⟨_, rfl, ?_⟩, ⟨_, rfl, rfl⟩⟩
  · simp [Value.isNumber]
  · rintro _ hw
    obtain ⟨r, -, rfl⟩ := List.mem_map.1 hw
    exact ⟨r, rfl⟩
  · rw [hlength, List.length_map, hp.restrictions]
  · rw [hlength]
    rintro _ hv
    obtain ⟨c, hc, rfl⟩ := List.mem_map.1 hv
    rw [← length_of_mem_constraints hp c hc]
    exact constraintSchema_constraintValue c

theorem objectiveOf_word (o : Objective) : Decode.objectiveOf (.ofString o.word) = o := by
  cases o <;> decide

theorem relationOf_word (r : Relation) : Decode.relationOf (.ofString r.word) = r := by
  cases r <;> decide

theorem restrictionOf_word (r : Restriction) : Decode.restrictionOf (.ofString r.word) = r := by
  cases r <;> decide

/-- The document of a complete program describes what is stored of it. -/
theorem programOf_toValue (hp : p.Complete) :
    Decode.programOf defaultTolerance p.toValue = p.stored := by
  obtain ⟨hrelations, hrhs, hrows⟩ := map_constraints hp.rows hp.relations
  have hobjective : Decode.objectiveOf (p.toValue.member "objectiveType") = p.objective :=
    objectiveOf_word _
  have hcosts : (p.toValue.member "coefficients").items.map Value.double = p.costs.map storedZero :=
    double_numbersValue _
  have hrestrictions : (p.toValue.member "restrictions").items.map Decode.restrictionOf =
      p.restrictions := by
    change (p.restrictions.map _).map _ = _
    simp [Function.comp_def, restrictionOf_word]
  have hitems : (p.toValue.member "constraints").items = p.constraints.map constraintValue := rfl
  -- field by field, in the order of the record
  rw [Decode.programOf, hobjective, hcosts, hrestrictions, hitems, stored, Program.mk.injEq,
    ← hrelations]
  refine ⟨rfl, rfl, rfl, rfl, ?_, ?_, ?_, rfl, rfl, rfl⟩
  · rw [List.map_map]
    exact List.map_congr_left fun c _ => relationOf_word c.1
  · rw [← hrhs, List.map_map, List.map_map]
    rfl
  · rw [← hrows, List.map_map, List.map_map]
    exact List.map_congr_left fun c _ => double_numbersValue c.2.2

/-- The stored text of a program is read as its document. -/
theorem read_storedText (p : Program Float) :
    Json.read Json.mostLevels (Text.ofString p.storedText) = .ok p.toValue := by
  have hstorable : Json.Storable Json.mostLevels p.toValue := Json.storable_toValue p
  rw [storedText, Json.indentedText, Text.ofString, String.toList_ofList]
  exact Json.read_write hstorable _

theorem ofStored_storedText (hp : p.Complete) :
    ofStored (.ok defaultTolerance) (.string (Text.ofString p.storedText)) = .ok p.stored := by
  rw [ofStored_of_schema (read_storedText p) (schema_toValue hp), programOf_toValue hp]

theorem storedText_stored (p : Program Float) : p.stored.storedText = p.storedText := by
  rw [storedText, toValue_stored, storedText]

end Schema

/-- A stored program is read back, with both zeros as the positive one and without the flags and the
    tolerance, and is then stored as the same text. So two texts are the same exactly when the
    programs agree on what is stored up to the sign of zero. -/
theorem roundTrip {p q : Program Float} (hp : p.Complete) (hq : q.Complete) :
    ofStored (.ok defaultTolerance) (.string (Text.ofString p.storedText)) = .ok p.stored ∧
    p.stored.storedText = p.storedText ∧
    (p.storedText = q.storedText ↔ SameStored p q) := by
  refine ⟨ofStored_storedText hp, storedText_stored p, ?_⟩
  rw [sameStored_iff]
  constructor
  · intro h
    have hread := ofStored_storedText hp
    rw [h, ofStored_storedText hq] at hread
    exact (Except.ok.inj hread).symm
  · intro h
    rw [← storedText_stored p, h, storedText_stored q]

/-- A prepared program with doubles of every kind and one relation too many. -/
def prepared : Program Float where
  objective := .minimize
  costs := [-0, 0.1]
  constant := -0
  restrictions := [.nonNegative, .unrestricted]
  relations := [.lessEqual, .equal]
  rhs := [1.0 / 0.0]
  rows := [[0.0 / 0.0, -1e300]]
  standard := false
  simplex := true
  tolerance := 1

/-- The same program without what is not stored. -/
def unprepared : Program Float :=
  { prepared with
    costs := [0, 0.1], constant := 0, relations := [.lessEqual], simplex := false, tolerance := 0 }

/-- Both programs have one text, and neither is what is read from it. -/
theorem roundTrip_prepared :
    ofStored (.ok defaultTolerance) (.string (Text.ofString prepared.storedText)) =
      .ok prepared.stored ∧
    prepared.storedText = unprepared.storedText ∧ prepared ≠ unprepared := by
  have hprepared : prepared.Complete := ⟨⟨rfl, by decide⟩, rfl, by decide⟩
  have hunprepared : unprepared.Complete := ⟨⟨rfl, by decide⟩, rfl, by decide⟩
  have hsame (x : Float) : SameNumber x x := Or.inl rfl
  have hzero : SameNumber (-0) 0 := Or.inr ⟨Or.inr rfl, Or.inl rfl⟩
  obtain ⟨hread, -, htext⟩ := roundTrip hprepared hunprepared
  refine ⟨hread, htext.2 ?_, fun h => Bool.false_ne_true (congrArg Program.simplex h).symm⟩
  exact
    { objective := rfl
      costs := .cons hzero (.cons (hsame _) .nil)
      constant := hzero
      restrictions := rfl
      relations := rfl
      rhs := .cons (hsame _) .nil
      rows := .cons (.cons (hsame _) (.cons (hsame _) .nil)) .nil }

end Program

end Simplex
