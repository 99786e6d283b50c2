import Simplex.Proofs.Standardize
/-! What the operations do to a program, one change after the other. A property that no change takes
    away is an invariant of everything that an operation is made of. Two of them: the parts of the
    program fit together, and its flags tell the truth, provided no relation is left over. -/

namespace Simplex

namespace Program
variable {K : Type} {p q : Program K}

/-! ### The flags -/

/-- One relation for every constraint, and both flags are set only where they may be: a program that
    is marked as standard keeps to the rules of the standard form, and one that is marked as
    prepared is marked as standard. -/
structure Truthful (p : Program K) : Prop extends WellFormed p where
  prepared : p.simplex = true → p.standard = true

/-- What only raises no flag and leaves objective, relations and restrictions alone
    keeps the flags true. -/
theorem Truthful.congr (h : p.Truthful) (hq : q.Shaped) (hm : q.m = p.m)
    (hobjective : q.objective = p.objective) (hrelations : q.relations = p.relations)
    (hrestrictions : q.restrictions = p.restrictions)
    (hstandard : q.standard = true → p.standard = true)
    (hsimplex : q.simplex = true → q.standard = true) :
    q.Truthful := by
  refine ⟨⟨hq.toRectangular, by rw [hrelations, hm, h.relations], hq.restrictions, fun hs => ?_⟩,
    hsimplex⟩
  obtain ⟨ho, hr, hk⟩ := h.truthful (hstandard hs)
  exact ⟨hobjective ▸ ho, hrelations ▸ hr, hrestrictions ▸ hk⟩

theorem IsStandard.appendNonNegative (h : p.IsStandard) (c : K) (column : List K) :
    (p.appendVariable c column .nonNegative).IsStandard := by
  refine ⟨h.objective, h.relations, ?_⟩
  intro r hr
  rcases List.mem_append.1 hr with hr | hr
  · exact h.restrictions r hr
  · exact List.mem_singleton.1 hr

theorem Truthful.appendVariable (h : p.Truthful) (c : K) {column : List K} (kind : Restriction)
    (hcolumn : column.length = p.m) : (p.appendVariable c column kind).Truthful := by
  refine ⟨⟨rectangular_appendVariable h.toRectangular hcolumn, h.relations,
    (h.shaped.appendVariable c kind hcolumn).restrictions, fun hs => ?_⟩, nofun⟩
  obtain ⟨hstandard, hkind⟩ : p.standard = true ∧ kind = .nonNegative := by
    simpa [Program.appendVariable, Program.lowerFlags] using hs
  rw [hkind]
  exact (h.truthful hstandard).appendNonNegative c column

theorem Truthful.appendConstraint (h : p.Truthful) (r : Relation) (b : K) {row : List K}
    (hrow : row.length = p.n) : (p.appendConstraint r b row).Truthful := by
  have hshaped := h.shaped.appendConstraint r b hrow
  refine ⟨⟨hshaped.toRectangular, ?_, hshaped.restrictions, fun hs => ?_⟩, nofun⟩
  · rw [m_appendConstraint, ← h.relations]
    simp [Program.appendConstraint, appendRow, appendRelation]
  obtain ⟨hstandard, hr⟩ : p.standard = true ∧ r = .equal := by
    simpa [Program.appendConstraint, appendRow, appendRelation, Program.lowerFlags] using hs
  refine ⟨(h.truthful hstandard).objective, ?_, (h.truthful hstandard).restrictions⟩
  intro r' hr'
  rcases List.mem_append.1 hr' with hr' | hr'
  · exact (h.truthful hstandard).relations r' hr'
  · exact (List.mem_singleton.1 hr').trans hr

theorem Truthful.strip (h : p.Truthful) {n : ℕ} (hn : n ≤ p.n) (dropped : List ℕ) :
    (p.strip n dropped).Truthful := by
  have hshaped := h.shaped.strip hn dropped
  refine ⟨⟨hshaped.toRectangular, ?_, hshaped.restrictions, fun hs => ?_⟩, h.prepared⟩
  · rw [m_strip, ← h.relations]
    exact length_dropPositions dropped p.relations
  obtain ⟨hobjective, hequal, hnonneg⟩ := h.truthful hs
  exact ⟨hobjective, fun r hr => hequal r (mem_of_mem_dropPositions hr),
    fun r hr => hnonneg r (List.mem_of_mem_take hr)⟩

variable [Scalar K]

/-- Artificial variables are non-negative, so a standard program stays one. -/
theorem addArtificials_flags (p : Program K) : p.addArtificials.relations = p.relations ∧
    p.addArtificials.standard = p.standard ∧ (p.IsStandard → p.addArtificials.IsStandard) := by
  refine List.foldlRecOn (motive := fun (q : Program K) => q.relations = p.relations ∧
    q.standard = p.standard ∧
    (p.IsStandard → q.IsStandard)) (List.range p.m) _ ⟨rfl, rfl, id⟩ ?_
  rintro q ⟨hrelations, hstandard, hkept⟩ i -
  refine ⟨hrelations, ?_, fun h => (hkept h).appendNonNegative _ _⟩
  simp [Program.appendVariable, Program.lowerFlags, hstandard]

@[simp] theorem standard_auxiliary (absolute : Bool) :
    (p.auxiliary absolute).standard = p.standard :=
  (addArtificials_flags (p.normalizeSigns.auxiliaryObjective absolute)).2.1

theorem Truthful.auxiliary (h : p.Truthful) (absolute : Bool) (hs : p.standard = true) :
    (p.auxiliary absolute).Truthful := by
  obtain ⟨hshaped, hm, -⟩ := h.shaped.auxiliary absolute
  obtain ⟨hrelations, -, hkept⟩ :=
    addArtificials_flags (p.normalizeSigns.auxiliaryObjective absolute)
  obtain ⟨hobjective, hequal, hnonneg⟩ := h.truthful hs
  obtain ⟨hobjective', hequal', hnonneg'⟩ := hkept ⟨hobjective, hequal, hnonneg⟩
  refine ⟨⟨hshaped.toRectangular, ?_, hshaped.restrictions,
    fun _ => ⟨hobjective', hequal', hnonneg'⟩⟩, fun _ => (standard_auxiliary absolute).trans hs⟩
  rw [hm, ← h.relations]
  exact congrArg List.length hrelations

theorem Truthful.standardForm (h : p.Truthful) : p.standardForm.Truthful := by
  have hshaped := h.shaped.standardForm
  refine ⟨⟨hshaped.toRectangular, ?_, hshaped.restrictions, fun _ => ?_⟩, nofun⟩
  · rw [length_relations_standardForm, m_standardForm, h.relations]
  · exact h.shaped.isStandard_standardForm h.relations

/-! ### Changes -/

/-- One change of a program, with what the operation has checked or brought about before it. -/
inductive Change : Program K → Program K → Prop
  | lowerFlags {p : Program K} (keeps : Bool) : Change p (p.lowerFlags keeps)
  | newVariable {p : Program K} (c : K) {column : List K} (kind : Restriction) :
      column.length = p.m → Change p (p.appendVariable c column kind)
  | newConstraint {p : Program K} (r : Relation) (b : K) {row : List K} :
      row.length = p.n → Change p (p.appendConstraint r b row)
  | constant {p : Program K} (a : K) : Change p { p with constant := a }
  | standardForm {p : Program K} : Change p p.standardForm
  | release {p : Program K} : Change p { p with simplex := false }
  | auxiliary {p : Program K} (absolute : Bool) :
    p.standard = true → Change p (p.auxiliary absolute)
  | pivot {p : Program K} {r : ℕ} (s : ℕ) : r < p.m → Change p (p.pivot r s)
  | strip {p : Program K} {n : ℕ} (dropped : List ℕ) : n ≤ p.n → Change p (p.strip n dropped)
  | objective {p P : Program K} (basis : List ℕ) :
      p.n = P.n → p.standard = true → Change p (p.withObjective P basis)

/-- A property of programs whose parts fit together that no change takes away. -/
structure Invariant (I : Program K → Prop) : Prop where
  shaped : ∀ {p}, I p → p.Shaped
  change : ∀ {p q}, I p → Change p q → I q

theorem Shaped.change (h : p.Shaped) (hpq : Change p q) : q.Shaped := by
  cases hpq with
  | lowerFlags keeps => exact h.lowerFlags keeps
  | newVariable c kind hcolumn => exact h.appendVariable c kind hcolumn
  | newConstraint r b hrow => exact h.appendConstraint r b hrow
  | constant => exact h.congr rfl
  | standardForm => exact h.standardForm
  | release => exact h.congr rfl
  | auxiliary absolute => exact (h.auxiliary absolute).1
  | pivot s hr => exact h.pivot hr s
  | strip dropped hn => exact h.strip hn dropped
  | objective basis hn => exact h.withObjective hn basis

theorem invariant_shaped : Invariant (Shaped (K := K)) := ⟨id, Shaped.change⟩

theorem Truthful.change (h : p.Truthful) (hpq : Change p q) : q.Truthful := by
  have hq := h.shaped.change hpq
  cases hpq with
  | lowerFlags keeps =>
    exact h.congr hq rfl rfl rfl rfl (fun hs => (Bool.and_eq_true_iff.1 hs).1) nofun
  | newVariable c kind hcolumn => exact h.appendVariable c kind hcolumn
  | newConstraint r b hrow => exact h.appendConstraint r b hrow
  | constant => exact h.congr hq rfl rfl rfl rfl id h.prepared
  | standardForm => exact h.standardForm
  | release => exact h.congr hq rfl rfl rfl rfl id nofun
  | auxiliary absolute hs => exact h.auxiliary absolute hs
  | pivot s hr => exact h.congr hq (m_pivot h.toRectangular) rfl rfl rfl id h.prepared
  | strip dropped hn => exact h.strip hn dropped
  | objective basis hn hs => exact h.congr hq rfl rfl rfl rfl (fun _ => hs) fun _ => rfl

theorem invariant_truthful : Invariant (Truthful (K := K)) := ⟨fun h => h.shaped, Truthful.change⟩

end Program

end Simplex
