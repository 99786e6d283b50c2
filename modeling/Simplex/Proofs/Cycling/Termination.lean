import Mathlib.Combinatorics.Pigeonhole
import Mathlib.Data.Finset.Powerset
import Mathlib.Data.Fintype.CardEmbedding
import Simplex.Proofs.Cycling.LeastIndex
/-! When a search ends. There are only so many bases, and a tableau that comes back brings back all
    that followed it, so a search ends if and only if no tableau comes back. Ties that go to the
    first row do not exclude that: there is a tableau with three rows to which the search returns
    after six pivots. Ties that go to the least variable do. -/

namespace Simplex

/-- The tableau after the next pivot, which does not depend on the nonbasic variables. -/
def Program.next? (p : Program ℚ) : Option (Program ℚ) :=
  p.entering?.bind fun e => (p.leavingRow? e).map fun r => p.pivot r e

namespace Position
open Program
variable {x : Position}

/-! ### Counting bases -/

theorem Canonical.card_basis (hx : x.Canonical) : x.basis.card = x.tableau.m := by
  obtain ⟨B, hB⟩ := hx.basis
  have himage : x.basis = (Finset.range x.tableau.m).image B := by
    ext j
    rw [mem_basis, Finset.mem_image]
    constructor
    · rintro ⟨hj, hmem⟩
      obtain ⟨i, hi, hij⟩ := hB.exists_of_notMem hj hmem
      exact ⟨i, Finset.mem_range.2 hi, hij⟩
    · rintro ⟨i, hi, rfl⟩
      have hi := Finset.mem_range.1 hi
      exact ⟨hB.lt i hi, hB.notMem hi⟩
  rw [himage, Finset.card_image_of_injOn, Finset.card_range]
  intro i hi k hk hik
  exact hB.injective (Finset.mem_range.1 hi) (Finset.mem_range.1 hk) hik

/-- Of more positions than there are sets of `m` columns two have the same basis. -/
theorem Canonical.exists_basis_eq (hx : x.Canonical) :
    ∃ i j, i < j ∧ j ≤ x.tableau.n.choose x.tableau.m ∧ (x.after i).basis = (x.after j).basis := by
  have hmaps : ∀ k ∈ Finset.range (x.tableau.n.choose x.tableau.m + 1),
      (x.after k).basis ∈ (Finset.range x.tableau.n).powersetCard x.tableau.m := by
    intro k _
    rw [Finset.mem_powersetCard, (hx.after k).card_basis, (hx.tableauOf_after k).m]
    refine ⟨?_, rfl⟩
    intro j hj
    rw [Finset.mem_range, ← hx.n_after k]
    exact (mem_basis.1 hj).1
  have hcard : ((Finset.range x.tableau.n).powersetCard x.tableau.m).card <
      (Finset.range (x.tableau.n.choose x.tableau.m + 1)).card := by
    rw [Finset.card_powersetCard, Finset.card_range, Finset.card_range]
    exact Nat.lt_succ_self _
  obtain ⟨i, hi, j, hj, hne, heq⟩ := Finset.exists_ne_map_eq_of_card_lt_of_maps_to hcard hmaps
  rw [Finset.mem_range, Nat.lt_succ_iff] at hi hj
  rcases lt_or_gt_of_ne hne with hlt | hlt
  · exact ⟨i, j, hlt, hj, heq⟩
  · exact ⟨j, i, hlt, hi, heq.symm⟩

/-- Of more positions than there are ways to give every row a column of its own
    two have one tableau. -/
theorem Canonical.exists_tableau_eq (hx : x.Canonical) :
    ∃ i j, i < j ∧ j ≤ x.tableau.n.descFactorial x.tableau.m ∧
      (x.after i).tableau = (x.after j).tableau := by
  choose B hB using fun k => (hx.after k).basis
  have hm : ∀ k, (x.after k).tableau.m = x.tableau.m := fun k => (hx.tableauOf_after k).m
  have hlt : ∀ k, ∀ i < x.tableau.m, B k i < x.tableau.n := by
    intro k i hi
    exact hx.n_after k ▸ (hB k).lt i (by rwa [hm k])
  let columns : Fin (x.tableau.n.descFactorial x.tableau.m + 1) →
      Fin x.tableau.m ↪ Fin x.tableau.n :=
    fun k => ⟨fun i => ⟨B k i, hlt k i i.2⟩, fun i i' heq =>
      Fin.ext ((hB k).injective (by rw [hm k]; exact i.2) (by rw [hm k]; exact i'.2)
        (Fin.mk.inj heq))⟩
  have hcard : Fintype.card (Fin x.tableau.m ↪ Fin x.tableau.n) <
      Fintype.card (Fin (x.tableau.n.descFactorial x.tableau.m + 1)) := by
    rw [Fintype.card_embedding_eq, Fintype.card_fin, Fintype.card_fin, Fintype.card_fin]
    exact Nat.lt_succ_self _
  -- more positions than ways to give the rows their columns: two of them agree
  obtain ⟨i, j, hne, heq⟩ := Fintype.exists_ne_map_eq_of_card_lt columns hcard
  have hrows : ∀ l < x.tableau.m, B i l = B j l := by
    intro l hl
    exact Fin.mk.inj (DFunLike.congr_fun heq ⟨l, hl⟩)
  -- and the columns of the rows determine the tableau
  have htableau : (x.after i).tableau = (x.after j).tableau := by
    have hBj : (x.after j).tableau.Basis (x.after j).nonbasic (B i) :=
      (hB j).congr fun l hl => (hrows l (hm j ▸ hl)).symm
    exact (hx.tableauOf_after i).eq_of_basis (hx.tableauOf_after j) (hB i) hBj
  have hi := Nat.lt_succ_iff.1 i.2
  have hj := Nat.lt_succ_iff.1 j.2
  rcases lt_or_gt_of_ne (Fin.val_ne_of_ne hne) with hlt | hlt
  · exact ⟨i, j, hlt, hj, htableau⟩
  · exact ⟨j, i, hlt, hi, htableau.symm⟩

/-! ### Coming back -/

theorem Canonical.map_next? (hx : x.Canonical) :
    x.next?.map Position.tableau = x.tableau.next? := by
  obtain ⟨B, hB⟩ := hx.basis
  cases he : x.tableau.entering? with
  | none => simp [Position.next?, Program.next?, move, he]
  | some e =>
    cases hr : x.tableau.leavingRow? e with
    | none => simp [Position.next?, Program.next?, move, he, hr]
    | some r =>
      obtain ⟨hn, hc, _⟩ := entering?_eq_some he
      obtain ⟨_, hm, _⟩ := leavingRow?_eq_some hr
      have hmem := hB.mem_of_cost hn (hx.sharp.nonneg.trans_lt hc).ne'
      have hmove : x.tableau.move x.nonbasic = .ok (.exchange r e (B r)) := by
        simp only [move, he, hr, hB.leavingVariable_eq hx.sharp hm]
        exact if_pos (List.contains_iff_mem.2 hmem)
      simp [Position.next?, Program.next?, hmove, he, hr]

/-- Positions with one tableau are followed by positions with one tableau. -/
theorem Canonical.tableau_after_congr {y : Position} (hx : x.Canonical) (hy : y.Canonical)
    (h : x.tableau = y.tableau) : ∀ k, (x.after k).tableau = (y.after k).tableau
  | 0 => h
  | k + 1 => by
    have ih := tableau_after_congr hx hy h k
    have hnext : (x.after k).next?.map Position.tableau =
        (y.after k).next?.map Position.tableau := by
      rw [(hx.after k).map_next?, (hy.after k).map_next?, ih]
    cases hxk : (x.after k).next? <;> cases hyk : (y.after k).next? <;> rw [hxk, hyk] at hnext
    · rw [Position.after, Position.after, hxk, hyk]
      exact ih
    · cases hnext
    · cases hnext
    · rw [Position.after, Position.after, hxk, hyk]
      exact Option.some.inj hnext

theorem Canonical.next?_eq_none_congr {y : Position} (hx : x.Canonical) (hy : y.Canonical)
    (h : x.tableau = y.tableau) : x.next? = none ↔ y.next? = none := by
  rw [← Option.map_eq_none_iff, hx.map_next?, h, ← hy.map_next?, Option.map_eq_none_iff]

/-- A tableau that comes back comes back for ever. -/
theorem Canonical.lasts_of_return (hx : x.Canonical) {i j : ℕ} (hij : i < j) (hlasts : x.Lasts j)
    (h : (x.after i).tableau = (x.after j).tableau) (k : ℕ) : x.Lasts k := by
  intro l _
  induction l using Nat.strong_induction_on with
  | _ l ih =>
    rcases lt_or_ge l j with hlj | hjl
    · exact hlasts l hlj
    · obtain ⟨d, rfl⟩ := Nat.exists_eq_add_of_le hjl
      have htableau := (hx.after i).tableau_after_congr (hx.after j) h d
      rw [← after_add, ← after_add] at htableau
      have hbefore := ih (i + d) (by omega) (by omega)
      rwa [Ne, (hx.after (i + d)).next?_eq_none_congr (hx.after (j + d)) htableau] at hbefore

/-- A search ends unless it makes any number of pivots. -/
theorem exists_next?_eq_none_iff : (∃ k, (x.after k).next? = none) ↔ ∃ k, ¬ x.Lasts k := by
  constructor
  · rintro ⟨k, hk⟩
    exact ⟨k + 1, fun hlasts => hlasts k k.lt_succ_self hk⟩
  · rintro ⟨k, hk⟩
    by_contra hnone
    exact hk fun i _ hi => hnone ⟨i, hi⟩

/-- A search ends if and only if none of its first tableaus comes back. -/
theorem Canonical.ends_iff_tableau_ne (hx : x.Canonical) : (∃ k, (x.after k).next? = none) ↔
    ∀ i j, i < j → j ≤ x.tableau.n.descFactorial x.tableau.m → x.Lasts j →
      (x.after i).tableau ≠ (x.after j).tableau := by
  rw [exists_next?_eq_none_iff]
  constructor
  · rintro ⟨k, hk⟩ i j hij _ hlasts heq
    exact hk (hx.lasts_of_return hij hlasts heq k)
  · intro hne
    obtain ⟨i, j, hij, hj, heq⟩ := hx.exists_tableau_eq
    exact ⟨j, fun hlasts => hne i j hij hj hlasts heq⟩

/-- A search ends, and without coming back to a basis, if and only if none of its
    first bases comes back. -/
theorem Canonical.ends_iff_basis_ne (hx : x.Canonical) :
    ((∃ k, (x.after k).next? = none) ∧ ∀ i j, i < j → x.Lasts j →
      (x.after i).basis ≠ (x.after j).basis) ↔
      ∀ i j, i < j → j ≤ x.tableau.n.choose x.tableau.m → x.Lasts j →
        (x.after i).basis ≠ (x.after j).basis := by
  refine ⟨fun h i j hij _ => h.2 i j hij, ?_⟩
  intro hne
  obtain ⟨a, b, hab, hb, heq⟩ := hx.exists_basis_eq
  have hshort : ¬ x.Lasts b := fun hlasts => hne a b hab hb hlasts heq
  refine ⟨exists_next?_eq_none_iff.2 ⟨b, hshort⟩, fun i j hij hlasts => hne i j hij ?_ hlasts⟩
  by_contra hlong
  exact hshort fun l hl => hlasts l (by omega)

theorem Canonical.ofList (hx : x.Canonical) :
    Position.Canonical ⟨x.tableau, IndexSet.ofList x.nonbasic⟩ := by
  obtain ⟨B, hB⟩ := hx.basis
  refine ⟨hx.rectangular, hx.tolerance, ⟨B, hB.lt, hB.unit, hB.cost, ?_⟩, hx.nonneg⟩
  intro j hj
  rw [IndexSet.mem_ofList, hB.mem_iff j hj]

end Position

/-- The position with which a search of the program starts. -/
def Session.position (s : Session ℚ) (nonbasic : List ℤ) : Position :=
  ⟨s.program, IndexSet.ofList nonbasic⟩

namespace Action
open Program Position

theorem solveFrom_eq {s : Session ℚ} (hprepared : s.program.simplex = true) (limit : ℕ)
    (nonbasic : List ℤ) :
    Action.solveFrom limit nonbasic s = Action.search limit (IndexSet.ofList nonbasic) s := by
  simp [Action.solveFrom, bind, EStateM.bind, program, hprepared]

theorem exists_solveFrom_iff {s : Session ℚ} {nonbasic : List ℤ}
    (hprepared : s.program.simplex = true) (hx : Position.Canonical ⟨s.program, nonbasic⟩) :
    (∃ limit o s', Action.solveFrom limit nonbasic s = .ok o s') ↔
      ∃ k, ((s.position nonbasic).after k).next? = none := by
  have hsearch := fun limit => search_ok_iff hx.ofList limit s rfl
  constructor
  · rintro ⟨limit, o, s', h⟩
    rw [solveFrom_eq hprepared] at h
    obtain ⟨k, _, hk⟩ := (hsearch limit).1 ⟨o, s', h⟩
    exact ⟨k, hk⟩
  · rintro ⟨k, hk⟩
    obtain ⟨o, s', h⟩ := (hsearch (k + 1)).2 ⟨k, k.lt_succ_self, hk⟩
    exact ⟨k + 1, o, s', (solveFrom_eq hprepared _ _).trans h⟩

/-- When a search ends. From a feasible canonical basis it ends, and without coming back to
    a basis, if and only if no basis comes back among as many as there are sets of `m`
    columns. It ends at all if and only if no tableau comes back. Both are so if at every
    tie the least variable leaves. -/
theorem solveFrom_ends_iff {s : Session ℚ} {nonbasic : List ℤ}
    (hprepared : s.program.simplex = true) (hx : Position.Canonical ⟨s.program, nonbasic⟩) :
    (((∃ limit o s', Action.solveFrom limit nonbasic s = .ok o s') ∧
        ∀ i j, i < j → (s.position nonbasic).Lasts j →
          ((s.position nonbasic).after i).basis ≠ ((s.position nonbasic).after j).basis) ↔
      ∀ i j, i < j → j ≤ s.program.n.choose s.program.m → (s.position nonbasic).Lasts j →
        ((s.position nonbasic).after i).basis ≠ ((s.position nonbasic).after j).basis) ∧
    ((∃ limit o s', Action.solveFrom limit nonbasic s = .ok o s') ↔
      ∀ i j, i < j → j ≤ s.program.n.descFactorial s.program.m → (s.position nonbasic).Lasts j →
        ((s.position nonbasic).after i).tableau ≠ ((s.position nonbasic).after j).tableau) ∧
    ((∀ k, ((s.position nonbasic).after k).LeastLeaves) →
      (∃ limit o s', Action.solveFrom limit nonbasic s = .ok o s') ∧
        ∀ i j, i < j → (s.position nonbasic).Lasts j →
          ((s.position nonbasic).after i).basis ≠ ((s.position nonbasic).after j).basis) := by
  have hx' : (s.position nonbasic).Canonical := hx.ofList
  rw [exists_solveFrom_iff hprepared hx]
  refine ⟨hx'.ends_iff_basis_ne, hx'.ends_iff_tableau_ne, ?_⟩
  intro hleast
  exact hx'.ends_iff_basis_ne.2 fun i j hij _ hlasts => hx'.basis_ne hij hlasts fun k _ => hleast k

end Action

namespace Program

/-- A tableau in which both rows have the least ratio for the variable that enters. -/
def tied : Program ℚ :=
  { objective := .maximize
    costs := [0, 0, 1]
    constant := 0
    restrictions := List.replicate 3 .nonNegative
    relations := [.equal, .equal]
    rhs := [0, 0]
    rows := [[1, 0, 1], [0, 1, 1]]
    standard := true
    simplex := true
    tolerance := 0 }

theorem canonical_tied : Position.Canonical ⟨tied, [2]⟩ := by
  refine ⟨⟨rfl, ?_⟩, rfl, ⟨id, ?_, ?_, ?_, ?_⟩, ?_⟩
  all_goals decide

end Program

namespace Action
open Program

/-- The search of this tableau ends after one degenerate pivot. -/
theorem solveFrom_ends_tied : tied.simplex = true ∧ Position.Canonical ⟨tied, [2]⟩ ∧
    (∃ limit o s', Action.solveFrom limit [2] (Session.start tied) = .ok o s') ∧
    ∀ i j, i < j → ((Session.start tied).position [2]).Lasts j →
      (((Session.start tied).position [2]).after i).basis ≠
        (((Session.start tied).position [2]).after j).basis := by
  have hstop : (((Session.start tied).position [2]).after 1).next?.isNone = true := by
    decide +kernel
  have hmoved : (((Session.start tied).position [2]).after 0).basis ≠
      (((Session.start tied).position [2]).after 1).basis := by decide +kernel
  refine ⟨rfl, canonical_tied,
    (solveFrom_ends_iff (s := Session.start tied) rfl canonical_tied).1.2 ?_⟩
  intro i j hij _ hlasts
  rcases Nat.lt_or_ge 1 j with hlong | hshort
  · exact absurd (Option.isNone_iff_eq_none.1 hstop) (hlasts 1 hlong)
  · obtain ⟨rfl, rfl⟩ : i = 0 ∧ j = 1 := by omega
    exact hmoved

end Action

namespace Program

/-- A tableau to which the search returns. Two rows are zero on the right, and the third bounds
    the objective by two. -/
def cycling : Program ℚ :=
  { objective := .maximize
    costs := [-3, 0, 0, -1, 0, 2, 0]
    constant := 0
    restrictions := List.replicate 7 .nonNegative
    relations := [.equal, .equal, .equal]
    rhs := [0, 0, 1]
    rows := [[4, 0, 1, -1, -3, 1, 0], [1, 1, 0, -1, -2, 2, 0], [0, 0, 0, 0, 1, 0, 1]]
    standard := true
    simplex := true
    tolerance := 0 }

theorem canonical_cycling : Position.Canonical ⟨cycling, [0, 3, 4, 5]⟩ := by
  refine ⟨⟨rfl, ?_⟩, rfl, ⟨fun i => if i = 0 then 2 else if i = 1 then 1 else 6, ?_, ?_, ?_, ?_⟩,
    ?_⟩
  all_goals decide

/-- After six pivots the search is where it was. -/
theorem after_cycling : ((⟨cycling, [0, 3, 4, 5]⟩ : Position).after 6).tableau = cycling := by
  have hframe := (canonical_cycling.tableauOf_after 6).frame
  have hnumbers : (((⟨cycling, [0, 3, 4, 5]⟩ : Position).after 6).tableau.constant = 0 ∧
      ((⟨cycling, [0, 3, 4, 5]⟩ : Position).after 6).tableau.costs = cycling.costs) ∧
      ((⟨cycling, [0, 3, 4, 5]⟩ : Position).after 6).tableau.rhs = cycling.rhs ∧
      ((⟨cycling, [0, 3, 4, 5]⟩ : Position).after 6).tableau.rows = cycling.rows := by
    decide +kernel
  obtain ⟨⟨hconstant, hcosts⟩, hrhs, hrows⟩ := hnumbers
  rw [hframe, hconstant, hcosts, hrhs, hrows]
  rfl

end Program

namespace Action
open Program

/-- The search of this tableau from its feasible canonical basis never ends, and
    comes back to the basis. -/
theorem solveFrom_cycling : cycling.simplex = true ∧ Position.Canonical ⟨cycling, [0, 3, 4, 5]⟩ ∧
    (∀ limit, ∃ s', Action.solveFrom limit [0, 3, 4, 5] (Session.start cycling) =
      .error .outOfSteps s') ∧
    ((Session.start cycling).position [0, 3, 4, 5]).Lasts 6 ∧
    (((Session.start cycling).position [0, 3, 4, 5]).after 0).basis =
      (((Session.start cycling).position [0, 3, 4, 5]).after 6).basis := by
  have hstart : (Session.start cycling).position [0, 3, 4, 5] = ⟨cycling, [0, 3, 4, 5]⟩ := rfl
  have hsome : ∀ i < 6, ((⟨cycling, [0, 3, 4, 5]⟩ : Position).after i).next?.isSome = true := by
    decide +kernel
  have hlasts : (⟨cycling, [0, 3, 4, 5]⟩ : Position).Lasts 6 := by
    intro i hi
    exact Option.isSome_iff_ne_none.1 (hsome i hi)
  have hever := canonical_cycling.lasts_of_return (Nat.succ_pos 5) hlasts after_cycling.symm
  rw [hstart]
  refine ⟨rfl, canonical_cycling, ?_, hlasts, by decide +kernel⟩
  intro limit
  rw [solveFrom_eq rfl]
  exact search_outOfSteps canonical_cycling hever limit rfl

end Action

end Simplex
