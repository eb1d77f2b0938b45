import Mathlib.Data.List.Sort
import Mathlib.Order.MinMax
import Mathlib.Order.WithBot

/-!
# Order statistics of a masked list

* `getElem_le_iff_lt_countP`: the entry of rank `k` of a sorted list is at most `t` exactly if
  more than `k` entries are.
* `least_eq_getD`: the least entry is the one of rank 0.
* `insertionSort_masked`: a list in which some entries are replaced by `⊤`, sorted, is the sorted
  list of the others, then the `⊤`s.
-/

namespace VllmMoet

universe u v

section Rank

variable {α : Type u} [LinearOrder α]

/-- The entry of rank `k`, by counting. -/
theorem getElem_le_iff_lt_countP {l : List α} (h : l.Pairwise (· ≤ ·)) {k : ℕ}
    (hk : k < l.length) (t : α) : l[k] ≤ t ↔ k < l.countP (· ≤ t) := by
  induction l generalizing k with
  | nil => exact absurd hk (Nat.not_lt_zero k)
  | cons a l ih =>
    obtain ⟨ha, hl⟩ := List.pairwise_cons.mp h
    rw [List.countP_cons]
    by_cases hat : a ≤ t
    · cases k with
      | zero => simp [hat]
      | succ k =>
        rw [List.getElem_cons_succ, ih hl (Nat.lt_of_succ_lt_succ hk)]
        simp [hat]
    · -- then nothing is
      have hnone : l.countP (· ≤ t) = 0 := by
        refine List.countP_eq_zero.mpr fun b hb => ?_
        rw [decide_eq_true_eq]
        exact fun hbt => hat ((ha b hb).trans hbt)
      have hentry : ¬ (a :: l)[k] ≤ t := by
        cases k with
        | zero => exact hat
        | succ k => exact fun hbt => hat ((ha _ (List.getElem_mem _)).trans hbt)
      rw [hnone]
      simp [hat, hentry]

/-- The least entry of a list, `⊤` if it is empty. -/
def least (l : List (WithTop α)) : WithTop α := l.foldr min ⊤

theorem least_le {l : List (WithTop α)} {a : WithTop α} (h : a ∈ l) : least l ≤ a := by
  induction l with
  | nil => exact absurd h List.not_mem_nil
  | cons b l ih =>
    change min b (least l) ≤ a
    rcases List.mem_cons.mp h with rfl | h
    · exact min_le_left _ _
    · exact (min_le_right _ _).trans (ih h)

theorem least_mem {l : List (WithTop α)} (h : l ≠ []) : least l ∈ l := by
  induction l with
  | nil => exact absurd rfl h
  | cons a l ih =>
    change min a (least l) ∈ a :: l
    by_cases hl : l = []
    · rw [hl]
      simp [least]
    · rcases min_choice a (least l) with heq | heq
      · rw [heq]
        exact List.mem_cons_self
      · rw [heq]
        exact List.mem_cons_of_mem a (ih hl)

/-- The least entry is the first one of the sorted list. -/
theorem least_eq_getD (l : List (WithTop α)) :
    least l = (l.insertionSort (· ≤ ·)).getD 0 ⊤ := by
  have hperm := List.perm_insertionSort (· ≤ ·) l
  have hsorted := List.pairwise_insertionSort (· ≤ ·) l
  cases hl : l.insertionSort (· ≤ ·) with
  | nil =>
    rw [hl] at hperm
    rw [List.nil_perm.mp hperm]
    rfl
  | cons a t =>
    rw [hl] at hperm hsorted
    have hne : l ≠ [] := by
      rintro rfl
      exact absurd (List.perm_nil.mp hperm) (List.cons_ne_nil a t)
    refine le_antisymm (least_le (hperm.mem_iff.mp List.mem_cons_self)) ?_
    rcases List.mem_cons.mp (hperm.mem_iff.mpr (least_mem hne)) with heq | hmem
    · exact heq.ge
    · exact (List.pairwise_cons.mp hsorted).1 _ hmem

end Rank

section Masked

variable {ι : Type u} {α : Type v} [LinearOrder α] (p : ι → Prop) [DecidablePred p] (g : ι → α)

omit [LinearOrder α] in
/-- The entries that are left, and a `⊤` for each of the others. -/
theorem masked_perm (l : List ι) :
    (l.map fun x => if p x then (g x : WithTop α) else ⊤).Perm
      (((l.filter p).map g).map (↑) ++ List.replicate (l.countP fun x => ¬ p x) ⊤) := by
  induction l with
  | nil => exact .refl _
  | cons x l ih =>
    rw [List.map_cons, List.filter_cons, List.countP_cons]
    by_cases hx : p x
    · rw [if_pos hx, if_pos (decide_eq_true hx), if_neg (by simp [hx])]
      exact ih.cons _
    · rw [if_neg hx, if_neg (by simp [hx]), if_pos (by simp [hx]), List.replicate_succ]
      exact (ih.cons _).trans List.perm_middle.symm

/-- A masked list, sorted. -/
theorem insertionSort_masked (l : List ι) :
    (l.map fun x => if p x then (g x : WithTop α) else ⊤).insertionSort (· ≤ ·) =
      (((l.filter p).map g).insertionSort (· ≤ ·)).map (↑) ++
        List.replicate (l.countP fun x => ¬ p x) ⊤ := by
  refine List.Perm.eq_of_pairwise (fun a b _ _ => le_antisymm) (List.pairwise_insertionSort _ _) ?_ ?_
  · refine List.pairwise_append.mpr ⟨?_, ?_, fun a _ b hb => ?_⟩
    · exact (List.pairwise_insertionSort (· ≤ ·) _).map _ fun a b => WithTop.coe_le_coe.mpr
    · exact List.pairwise_replicate.mpr (.inr le_rfl)
    · rw [List.eq_of_mem_replicate hb]
      exact le_top
  · refine (List.perm_insertionSort _ _).trans ((masked_perm p g l).trans ?_)
    exact ((List.perm_insertionSort _ _).symm.map _).append_right _

end Masked

end VllmMoet
