import Mathlib.Algebra.BigOperators.Group.Finset.Basic
import Mathlib.Data.List.GetD

/-!
# Segments cut into blocks

`repeatInterleave f reps n` repeats each of `f 0, …, f (n - 1)` as often as `reps` says. With the
exclusive sums of `reps` repeated the same way, a position of the flat list gives its segment and
its place in it (`map_repeatInterleave`).

`flatMap_blocks`: the numbers below `n` are those of the blocks of `b` that cover them, those
beyond `n` left out.
-/

namespace VllmMoet

universe u

variable {α : Type u}

/-- Each of the first `n` values, as often as `reps` says. -/
def repeatInterleave (f : ℕ → α) (reps : ℕ → ℕ) (n : ℕ) : List α :=
  (List.range n).flatMap fun i => List.replicate (reps i) (f i)

theorem repeatInterleave_succ (f : ℕ → α) (reps : ℕ → ℕ) (n : ℕ) :
    repeatInterleave f reps (n + 1) =
      repeatInterleave f reps n ++ List.replicate (reps n) (f n) := by
  rw [repeatInterleave, List.range_succ, List.flatMap_append, List.flatMap_singleton]
  rfl

theorem length_repeatInterleave (f : ℕ → α) (reps : ℕ → ℕ) (n : ℕ) :
    (repeatInterleave f reps n).length = ∑ i ∈ Finset.range n, reps i := by
  induction n with
  | zero => rfl
  | succ n ih =>
    rw [repeatInterleave_succ, List.length_append, ih, List.length_replicate,
      Finset.sum_range_succ]

/-- In the first segments nothing depends on the last one. -/
theorem getD_repeatInterleave_of_lt (f : ℕ → α) (reps : ℕ → ℕ) {n k : ℕ} (d : α)
    (hk : k < ∑ i ∈ Finset.range n, reps i) :
    (repeatInterleave f reps (n + 1)).getD k d = (repeatInterleave f reps n).getD k d := by
  rw [repeatInterleave_succ]
  exact List.getD_append _ _ d k (by rwa [length_repeatInterleave])

/-- The last segment. -/
theorem getD_repeatInterleave_last (f : ℕ → α) (reps : ℕ → ℕ) {n j : ℕ} (d : α)
    (hj : j < reps n) :
    (repeatInterleave f reps (n + 1)).getD (∑ i ∈ Finset.range n, reps i + j) d = f n := by
  rw [repeatInterleave_succ, List.getD_append_right _ _ _ _ (by rw [length_repeatInterleave]; omega),
    length_repeatInterleave, Nat.add_sub_cancel_left, List.getD_eq_getElem _ _ (by simpa using hj),
    List.getElem_replicate]

/-- A flat list of positions is the list of the segments' places. -/
theorem map_repeatInterleave (F : ℕ → ℕ → α) (reps : ℕ → ℕ) (n : ℕ) :
    ((List.range (∑ i ∈ Finset.range n, reps i)).map fun k =>
      F ((repeatInterleave id reps n).getD k 0)
        (k - (repeatInterleave (fun i => ∑ j ∈ Finset.range i, reps j) reps n).getD k 0)) =
    (List.range n).flatMap fun i => (List.range (reps i)).map (F i) := by
  induction n with
  | zero => rfl
  | succ n ih =>
    rw [Finset.sum_range_succ, List.range_add, List.map_append, List.range_succ,
      List.flatMap_append, List.flatMap_singleton, ← ih, List.map_map]
    congr 1
    · refine List.map_congr_left fun k hk => ?_
      have hlt := List.mem_range.mp hk
      rw [getD_repeatInterleave_of_lt _ _ _ hlt, getD_repeatInterleave_of_lt _ _ _ hlt]
    · refine List.map_congr_left fun j hj => ?_
      have hlt := List.mem_range.mp hj
      rw [Function.comp_apply, getD_repeatInterleave_last _ _ _ hlt,
        getD_repeatInterleave_last _ _ _ hlt, Nat.add_sub_cancel_left, id]

/-- Of segments of which one is kept, that one is left. -/
theorem flatMap_range_single (f : ℕ → List α) {n e : ℕ} (he : e < n) :
    ((List.range n).flatMap fun i => if i = e then f i else []) = f e := by
  induction n with
  | zero => exact absurd he (Nat.not_lt_zero e)
  | succ n ih =>
    rw [List.range_succ, List.flatMap_append, List.flatMap_singleton]
    rcases Nat.lt_succ_iff_lt_or_eq.mp he with hlt | rfl
    · rw [ih hlt, if_neg (Nat.ne_of_gt hlt), List.append_nil]
    · rw [if_pos rfl, List.flatMap_eq_nil_iff.mpr, List.nil_append]
      intro i hi
      exact if_neg (Nat.ne_of_lt (List.mem_range.mp hi))

/-! ### Blocks -/

theorem range_filter_lt {m n : ℕ} (h : n ≤ m) :
    (List.range m).filter (· < n) = List.range n := by
  obtain ⟨d, rfl⟩ := Nat.exists_eq_add_of_le h
  rw [List.range_add, List.filter_append, List.filter_eq_self.mpr, List.filter_eq_nil_iff.mpr,
    List.append_nil]
  · intro k hk
    obtain ⟨j, -, rfl⟩ := List.mem_map.mp hk
    simp
  · intro k hk
    exact decide_eq_true (List.mem_range.mp hk)

theorem flatMap_range_blocks (b m : ℕ) :
    ((List.range m).flatMap fun j => (List.range b).map (j * b + ·)) = List.range (m * b) := by
  induction m with
  | zero => rw [Nat.zero_mul]; rfl
  | succ m ih =>
    rw [List.range_succ, List.flatMap_append, List.flatMap_singleton, ih, Nat.add_mul, Nat.one_mul,
      List.range_add]

/-- The numbers below `n`, by blocks that cover them. -/
theorem flatMap_blocks {b m n : ℕ} (h : n ≤ m * b) :
    ((List.range m).flatMap fun j => ((List.range b).map (j * b + ·)).filter (· < n)) =
      List.range n := by
  rw [← List.filter_flatMap, flatMap_range_blocks, range_filter_lt h]

end VllmMoet
