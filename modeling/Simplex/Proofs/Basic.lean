import Mathlib.Data.List.Forall2
import Mathlib.Data.List.GetD
import Mathlib.Tactic.SplitIfs
/-! Lists by position, loops over lists, and computations that can fail. Nothing here is about
    programs; a position beyond the end of a list has a default. -/

namespace Simplex
variable {α β γ ι : Type} {xs : List α}

/-! ### Positions -/

section Positions
variable {i : ℕ}

theorem getD_zipWith (f : α → β → γ) {ys : List β} (hx : i < xs.length) (hy : i < ys.length) (a : α)
    (b : β) (c : γ) : (List.zipWith f xs ys).getD i c = f (xs.getD i a) (ys.getD i b) := by
  rw [List.getD_eq_getElem _ _ hx, List.getD_eq_getElem _ _ hy,
    List.getD_eq_getElem _ _ (by simp; omega), List.getElem_zipWith]

theorem getD_map (f : α → β) (hx : i < xs.length) (a : α) (b : β) :
    (xs.map f).getD i b = f (xs.getD i a) := by
  simp [List.getD_eq_getElem?_getD, hx]

theorem getD_map_range (f : ℕ → α) {n : ℕ} (hi : i < n) (a : α) :
    ((List.range n).map f).getD i a = f i := by
  simp [List.getD_eq_getElem?_getD, hi]

theorem getD_append_length (xs : List α) (y a : α) : (xs ++ [y]).getD xs.length a = y := by
  simp [List.getD_eq_getElem?_getD]

theorem getD_mem (hx : i < xs.length) (a : α) : xs.getD i a ∈ xs := by
  simp [List.getD_eq_getElem?_getD, hx]

/-- A list is the list of its items by position. -/
theorem eq_map_getD (xs : List α) (a : α) :
    xs = (List.range xs.length).map fun i => xs.getD i a := by
  refine List.ext_getElem (by simp) fun i hi _ => ?_
  simp [hi]

theorem eq_of_getD {ys : List α} (d : α) (hlen : xs.length = ys.length)
    (h : ∀ i < xs.length, xs.getD i d = ys.getD i d) : xs = ys := by
  refine List.ext_getElem hlen fun i hi hi' => ?_
  have := h i hi
  rwa [List.getD_eq_getElem _ _ hi, List.getD_eq_getElem _ _ hi'] at this

end Positions

/-! ### Changed items -/

section Changed
variable {i k : ℕ}

theorem getD_set (hx : i < xs.length) (j : ℕ) (v a : α) :
    (xs.set j v).getD i a = if i = j then v else xs.getD i a := by
  by_cases h : i = j <;> simp [List.getD_eq_getElem?_getD, List.getElem?_set, hx, h, eq_comm]
  · simp [← h, hx]

theorem getD_modify (hk : k < xs.length) (f : α → α) (a : α) :
    (xs.modify i f).getD k a = if k = i then f (xs.getD k a) else xs.getD k a := by
  simp only [List.getD_eq_getElem?_getD, List.getElem?_modify, List.getElem?_eq_getElem hk]
  by_cases h : i = k
  · simp [h]
  · simp [h, Ne.symm h]

theorem getElem?_set_of_lt (h : i < xs.length) (v : α) (k : ℕ) :
    (xs.set i v)[k]? = if k = i then some v else xs[k]? := by
  rw [List.getElem?_set]
  by_cases hk : i = k
  · rw [if_pos hk, if_pos h, if_pos hk.symm]
  · rw [if_neg hk, if_neg (Ne.symm hk)]

theorem set_eq_self {v : α} (h : ∀ a, xs[i]? = some a → a = v) : xs.set i v = xs := by
  by_cases hi : i < xs.length
  · rw [← h _ (List.getElem?_eq_getElem hi), List.set_getElem_self]
  · exact List.set_eq_of_length_le (Nat.not_lt.1 hi)

/-- A list whose items become `v` one after the other. -/
theorem set_replicate_append_drop (xs : List α) (hk : k < xs.length) (v : α) :
    (List.replicate k v ++ xs.drop k).set k v =
      List.replicate (k + 1) v ++ xs.drop (k + 1) := by
  rw [List.drop_eq_getElem_cons hk, List.set_append_right _ _ (by simp), List.length_replicate,
    Nat.sub_self, List.set_cons_zero, List.replicate_succ', List.append_assoc,
    List.singleton_append]

/-- Rows that get longer at their ends begin as before. -/
theorem forall₂_zipWith_append {rows : List (List β)} {row : α → List β}
    (h : List.Forall₂ (fun r x => row x <+: r) rows xs) {column : List β}
    (hcolumn : column.length = rows.length) :
    List.Forall₂ (fun r x => row x <+: r)
      (List.zipWith (fun r a => r ++ [a]) rows column) xs := by
  induction h generalizing column with
  | nil => simp
  | cons hr _ ih =>
    cases column with
    | nil => cases hcolumn
    | cons a column =>
      exact .cons (hr.trans (List.prefix_append _ _)) (ih (by simpa using hcolumn))

end Changed

/-! ### Loops -/

/-- What no round changes is the same after the loop. -/
theorem foldl_eq_of_step {f : α → ι → α} (g : α → β) (h : ∀ a i, g (f a i) = g a) (is : List ι)
    (a : α) : g (is.foldl f a) = g a := by
  induction is generalizing a with
  | nil => rfl
  | cons i is ih => rw [List.foldl_cons, ih, h]

/-- A loop over a list whose rounds take one stage to the next ends at the last stage. -/
theorem foldl_eq_stage {f : β → α → β} (stage : ℕ → β)
    (step : ∀ k x, xs[k]? = some x → f (stage k) x = stage (k + 1)) :
    xs.foldl f (stage 0) = stage xs.length := by
  induction xs generalizing stage with
  | nil => rfl
  | cons x xs ih =>
    rw [List.foldl_cons, step 0 x rfl]
    exact ih (fun k => stage (k + 1)) fun k y hy => step (k + 1) y hy

/-! ### Computations that can fail -/

section Except
variable {ε ε' : Type}

theorem ok_bind (a : α) (f : α → Except ε β) : Except.ok a >>= f = f a := rfl

theorem throw_bind (e : ε) (f : α → Except ε β) : (throw e : Except ε α) >>= f = .error e := rfl

theorem ite_bind (c : Prop) [Decidable c] (x : Except ε α) (e : ε) (f : α → Except ε β) :
    (if c then x else .error e) >>= f = if c then x >>= f else .error e := by
  split_ifs <;> rfl

theorem exists_of_bind_ok {x : Except ε α} {f : α → Except ε β} {b : β} (h : x >>= f = .ok b) :
    ∃ a, x = .ok a ∧ f a = .ok b := by
  cases x with
  | error e => cases h
  | ok a => exact ⟨a, rfl, h⟩

/-- A traversal that does not fail has found every item of its list in turn. -/
theorem forall₂_of_mapM_ok {f : α → Except ε β} : ∀ {ys : List β}, xs.mapM f = .ok ys →
    List.Forall₂ (fun x y => f x = .ok y) xs ys := by
  induction xs with
  | nil =>
    rintro _ ⟨⟩
    exact .nil
  | cons x xs ih =>
    intro ys h
    rw [List.mapM_cons] at h
    obtain ⟨y, hy, h⟩ := exists_of_bind_ok h
    obtain ⟨rest, hrest, ⟨⟩⟩ := exists_of_bind_ok h
    exact .cons hy (ih hrest)

/-- Traversals that differ in their faults only. -/
theorem mapM_mapError {f : α → Except ε' β} {g : α → Except ε β} {e : ε → ε'}
    (h : ∀ x ∈ xs, f x = (g x).mapError e) : xs.mapM f = (xs.mapM g).mapError e := by
  induction xs with
  | nil => rfl
  | cons x xs ih =>
    have hrest := ih fun y hy => h y (List.mem_cons_of_mem _ hy)
    rw [List.mapM_cons, List.mapM_cons, h x List.mem_cons_self, hrest]
    cases g x with
    | error => rfl
    | ok y => cases xs.mapM g <;> rfl

end Except

/-- A traversal under a test of every item. -/
theorem mapM_eq {of? : α → Option β} {test : α → Bool} {value : α → β}
    (h : ∀ a ∈ xs, of? a = if test a then some (value a) else none) :
    xs.mapM of? = if xs.all test then some (xs.map value) else none := by
  induction xs with
  | nil => rfl
  | cons a xs ih =>
    have hrest := ih fun b hb => h b (List.mem_cons_of_mem _ hb)
    rw [List.mapM_cons, h a List.mem_cons_self, hrest]
    by_cases ha : test a <;> by_cases hxs : xs.all test <;> simp [ha, hxs]

end Simplex
