import Mathlib.Algebra.BigOperators.Group.Finset.Piecewise
import Mathlib.Algebra.Order.BigOperators.Group.Finset
import Mathlib.Data.Finset.Max
import VllmMoet.Lib.Selection

/-!
# The best cells of non-increasing rows

* `IsLargest.sum_le`: no set of the same size has a larger total than the elements of largest
  score.
* `topPositions`: the first positions of the stable descending order, which are those of largest
  score; a position is among them with every later one that is not larger
  (`mem_topPositions_of_le`).
* `cummin`: the running minimum, the largest non-increasing sequence below a given one.
* `filter_range_of_closed`: what is closed towards `0` is a prefix.
-/

namespace VllmMoet

universe u v

/-! ### Totals -/

/-- The elements of largest score have the largest total of all sets of their size. -/
theorem IsLargest.sum_le {ι : Type u} {S : Type v} [DecidableEq ι] [AddCommMonoid S]
    [LinearOrder S] [IsOrderedAddMonoid S] {score : ι → S} {k : ℕ} {s t u : Finset ι}
    (h : IsLargest score k s t) (hsub : u ⊆ s) (hcard : u.card = t.card) :
    ∑ j ∈ u, score j ≤ ∑ i ∈ t, score i := by
  have hrest : (u \ t).card = (t \ u).card := by
    have h₁ := Finset.card_sdiff_add_card_inter u t
    have h₂ := Finset.card_sdiff_add_card_inter t u
    rw [Finset.inter_comm] at h₂
    omega
  have hout : ∑ j ∈ u \ t, score j ≤ ∑ i ∈ t \ u, score i := by
    rcases (t \ u).eq_empty_or_nonempty with hempty | hne
    · rw [hempty, Finset.card_empty, Finset.card_eq_zero] at hrest
      rw [hempty, hrest]
    · -- the least score that only `t` has is between the two
      obtain ⟨i, hi, hmin⟩ := Finset.exists_min_image (t \ u) score hne
      calc ∑ j ∈ u \ t, score j ≤ (u \ t).card • score i := by
            refine Finset.sum_le_card_nsmul _ _ _ fun j hj => ?_
            obtain ⟨hj, hjt⟩ := Finset.mem_sdiff.mp hj
            exact h.best i (Finset.mem_sdiff.mp hi).1 j (hsub hj) hjt
        _ = (t \ u).card • score i := by rw [hrest]
        _ ≤ ∑ i ∈ t \ u, score i := Finset.card_nsmul_le_sum _ _ _ hmin
  calc ∑ j ∈ u, score j = ∑ j ∈ u ∩ t, score j + ∑ j ∈ u \ t, score j :=
        (Finset.sum_inter_add_sum_sdiff u t score).symm
    _ ≤ ∑ i ∈ t ∩ u, score i + ∑ i ∈ t \ u, score i := by
        rw [Finset.inter_comm]
        exact add_le_add_right hout _
    _ = ∑ i ∈ t, score i := Finset.sum_inter_add_sum_sdiff t u score

/-! ### The stable descending order -/

section Stable

variable {S : Type u} [LinearOrder S] {f : ℕ → S} {n k : ℕ}

/-- The order of a stable descending sort of positions: by value, and by position where the
values are equal. -/
def DescBefore (f : ℕ → S) (i j : ℕ) : Prop := f j < f i ∨ f i = f j ∧ i ≤ j

instance (f : ℕ → S) : DecidableRel (DescBefore f) := fun i j =>
  inferInstanceAs (Decidable (f j < f i ∨ f i = f j ∧ i ≤ j))

instance (f : ℕ → S) : Std.Total (DescBefore f) where
  total i j := by
    rcases lt_trichotomy (f i) (f j) with hlt | heq | hgt
    · exact .inr (.inl hlt)
    · rcases Nat.le_total i j with hij | hji
      · exact .inl (.inr ⟨heq, hij⟩)
      · exact .inr (.inr ⟨heq.symm, hji⟩)
    · exact .inl (.inl hgt)

instance (f : ℕ → S) : IsTrans ℕ (DescBefore f) where
  trans i j k := by
    rintro (hij | ⟨hij, hle⟩) (hjk | ⟨hjk, hle'⟩)
    · exact .inl (hjk.trans hij)
    · exact .inl (hjk ▸ hij)
    · exact .inl (hij ▸ hjk)
    · exact .inr ⟨hij.trans hjk, hle.trans hle'⟩

/-- The first `k` positions of a stable descending sort. -/
def topPositions (f : ℕ → S) (n k : ℕ) : List ℕ :=
  ((List.range n).insertionSort (DescBefore f)).take k

theorem mem_topPositions_lt {j : ℕ} (hj : j ∈ topPositions f n k) : j < n :=
  List.mem_range.mp
    ((take_insertionSort_spec (DescBefore f) k (List.nodup_range (n := n))).2.1 j hj)

theorem topPositions_isLargest (f : ℕ → S) (n k : ℕ) :
    IsLargest f k (Finset.range n) (topPositions f n k).toFinset := by
  obtain ⟨hnodup, hsub, hlen, -, hbest⟩ :=
    take_insertionSort_spec (DescBefore f) k (List.nodup_range (n := n))
  refine ⟨fun j hj => ?_, ?_, fun i hi j hj hjt => ?_⟩
  · exact Finset.mem_range.mpr (mem_topPositions_lt (List.mem_toFinset.mp hj))
  · rw [topPositions, List.toFinset_card_of_nodup hnodup, hlen, List.length_range,
      Finset.card_range]
  · rcases hbest i (List.mem_toFinset.mp hi) j (List.mem_range.mpr (Finset.mem_range.mp hj))
      fun hmem => hjt (List.mem_toFinset.mpr hmem) with hlt | ⟨heq, -⟩
    · exact hlt.le
    · exact heq.ge

/-- An earlier position that is not smaller is taken first. -/
theorem mem_topPositions_of_le {i j : ℕ} (hj : j ∈ topPositions f n k) (hij : i ≤ j)
    (hle : f j ≤ f i) : i ∈ topPositions f n k := by
  by_contra hi
  have hbest := (take_insertionSort_spec (DescBefore f) k (List.nodup_range (n := n))).2.2.2.2
  have hin := List.mem_range.mpr (hij.trans_lt (mem_topPositions_lt hj))
  rcases hbest j hj i hin hi with hlt | ⟨-, hji⟩
  · exact absurd hle (not_le.mpr hlt)
  · exact hi (Nat.le_antisymm hij hji ▸ hj)

end Stable

/-! ### Running minima and prefixes -/

/-- `cummin`: the running minimum. -/
def cummin {S : Type u} [LinearOrder S] (f : ℕ → S) : ℕ → S
  | 0 => f 0
  | j + 1 => min (cummin f j) (f (j + 1))

theorem cummin_antitone {S : Type u} [LinearOrder S] (f : ℕ → S) : Antitone (cummin f) :=
  antitone_nat_of_succ_le fun _ => min_le_left _ _

/-- What is closed towards `0` is a prefix. -/
theorem filter_range_of_closed {p : ℕ → Prop} [DecidablePred p] {n : ℕ}
    (hp : ∀ i j, i ≤ j → j < n → p j → p i) :
    (Finset.range n).filter p = Finset.range ((Finset.range n).filter p).card := by
  induction n with
  | zero => rfl
  | succ n ih =>
    have hn := ih fun i j hij hj => hp i j hij (hj.trans (Nat.lt_succ_self n))
    rw [Finset.range_add_one, Finset.filter_insert]
    split
    · next hpn =>
      -- everything up to `n` is in
      have hall : (Finset.range n).filter p = Finset.range n :=
        Finset.filter_true_of_mem fun i hi =>
          hp i n (Finset.mem_range.mp hi).le (Nat.lt_succ_self n) hpn
      rw [hall, Finset.card_insert_of_notMem Finset.notMem_range_self, Finset.card_range,
        Finset.range_add_one]
    · exact hn

end VllmMoet
