import Mathlib.Algebra.Order.BigOperators.Group.Finset
import Mathlib.Data.Finset.Image
import Mathlib.Data.Nat.Find
import Mathlib.Data.Nat.Notation
import Mathlib.Order.Bounds.Basic

/-!
# The positions of a sequence in descending order

* `DescOrder f n`: the positions below `n` with the larger values of `f` first, those of equal
  values in any order: what a sort that is not stable promises.
* `DescOrder.sum_nth`: a running sum along the order is the sum over a prefix of it.
* `DescOrder.exists_isLeast`: of a sequence without negative values there is a shortest prefix
  that reaches a threshold, and the shorter ones are those that stay below it.
-/

namespace VllmMoet

universe u

/-- The positions below `n` in the descending order of their values, ties in any order. -/
structure DescOrder {S : Type u} [LE S] (f : ℕ → S) (n : ℕ) where
  order : List ℕ
  perm : order.Perm (List.range n)
  sorted : order.Pairwise fun i j => f j ≤ f i

namespace DescOrder

section Order

variable {S : Type u} [LE S] {f : ℕ → S} {n : ℕ} (o : DescOrder f n)

/-- The position of rank `i`. -/
def nth (i : ℕ) : ℕ :=
  o.order.getD i 0

/-- The positions of the first `r` ranks. -/
def firsts (r : ℕ) : Finset ℕ :=
  (o.order.take r).toFinset

theorem length_order : o.order.length = n := by
  rw [o.perm.length_eq, List.length_range]

theorem nodup_order : o.order.Nodup :=
  o.perm.nodup_iff.mpr List.nodup_range

theorem getElem?_order {i : ℕ} (hi : i < n) : o.order[i]? = some (o.nth i) := by
  rw [nth, List.getD_eq_getElem?_getD, List.getElem?_eq_getElem (by rwa [length_order]),
    Option.getD_some]

theorem mem_order {j : ℕ} : j ∈ o.order ↔ j < n := by
  rw [o.perm.mem_iff, List.mem_range]

theorem nth_lt {i : ℕ} (hi : i < n) : o.nth i < n :=
  o.mem_order.mp (List.mem_of_getElem? (o.getElem?_order hi))

theorem exists_nth {j : ℕ} (hj : j < n) : ∃ i < n, o.nth i = j := by
  obtain ⟨i, hi⟩ := List.mem_iff_getElem?.mp (o.mem_order.mpr hj)
  have hlt : i < n := o.length_order ▸ (List.getElem?_eq_some_iff.mp hi).1
  refine ⟨i, hlt, ?_⟩
  rw [o.getElem?_order hlt] at hi
  exact Option.some_inj.mp hi

theorem nth_inj {i j : ℕ} (hi : i < n) (hj : j < n) (h : o.nth i = o.nth j) : i = j := by
  refine (List.getElem?_inj (by rwa [length_order]) o.nodup_order).mp ?_
  rw [o.getElem?_order hi, o.getElem?_order hj, h]

theorem firsts_succ {r : ℕ} (hr : r < n) : o.firsts (r + 1) = insert (o.nth r) (o.firsts r) := by
  rw [firsts, List.take_add_one, o.getElem?_order hr]
  ext j
  simp only [firsts, Option.toList_some, List.toFinset_append, List.toFinset_cons,
    List.toFinset_nil, Finset.mem_union, Finset.mem_insert, Finset.notMem_empty, or_false]
  exact or_comm

/-- A position is among the first `r` when its rank is below `r`. -/
theorem nth_mem_firsts {i r : ℕ} (hi : i < n) : o.nth i ∈ o.firsts r ↔ i < r := by
  rw [firsts, List.mem_toFinset, List.mem_iff_getElem?]
  constructor
  · rintro ⟨j, hj⟩
    by_contra hle
    rcases Nat.lt_or_ge j r with hjr | hjr
    · rw [List.getElem?_take_of_lt hjr] at hj
      obtain ⟨hjn, _⟩ := List.getElem?_eq_some_iff.mp hj
      have hj' : j < n := o.length_order ▸ hjn
      rw [o.getElem?_order hj'] at hj
      have := o.nth_inj hj' hi (Option.some_inj.mp hj)
      omega
    · rw [List.getElem?_take_eq_none hjr] at hj
      exact absurd hj (by simp)
  · intro hir
    exact ⟨i, by rw [List.getElem?_take_of_lt hir, o.getElem?_order hi]⟩

theorem firsts_subset (r : ℕ) : o.firsts r ⊆ Finset.range n := by
  intro j hj
  exact Finset.mem_range.mpr (o.mem_order.mp (List.mem_of_mem_take (List.mem_toFinset.mp hj)))

theorem firsts_of_le {r : ℕ} (hr : n ≤ r) : o.firsts r = Finset.range n := by
  refine (o.firsts_subset r).antisymm fun j hj => ?_
  obtain ⟨i, hi, rfl⟩ := o.exists_nth (Finset.mem_range.mp hj)
  exact (o.nth_mem_firsts hi).mpr (by omega)

theorem firsts_mono {r r' : ℕ} (h : r ≤ r') : o.firsts r ⊆ o.firsts r' := by
  intro j hj
  have hsub := (List.take_prefix_take_left h : o.order.take r <+: o.order.take r').subset
  exact List.mem_toFinset.mpr (hsub (List.mem_toFinset.mp hj))

end Order

section Sum

variable {S : Type u} [AddCommMonoid S] [LinearOrder S] {f : ℕ → S} {n : ℕ} (o : DescOrder f n)

/-- The sum of the values of the first ranks. -/
theorem sum_nth {r : ℕ} (hr : r ≤ n) :
    ∑ i ∈ Finset.range r, f (o.nth i) = ∑ j ∈ o.firsts r, f j := by
  induction r with
  | zero => rfl
  | succ r ih =>
    have hnot : o.nth r ∉ o.firsts r := fun h => lt_irrefl r ((o.nth_mem_firsts hr).mp h)
    rw [Finset.sum_range_succ, ih (by omega), o.firsts_succ hr, Finset.sum_insert hnot, add_comm]

variable [IsOrderedAddMonoid S]

theorem sum_firsts_mono (hf : ∀ j < n, 0 ≤ f j) {r r' : ℕ} (h : r ≤ r') :
    ∑ j ∈ o.firsts r, f j ≤ ∑ j ∈ o.firsts r', f j :=
  Finset.sum_le_sum_of_subset_of_nonneg (o.firsts_mono h) fun j hj _ =>
    hf j (Finset.mem_range.mp (o.firsts_subset r' hj))

/-- There is a shortest prefix that reaches a threshold, and the shorter ones do not. -/
theorem exists_isLeast (hf : ∀ j < n, 0 ≤ f j) {c : S} (hc : c ≤ ∑ j ∈ Finset.range n, f j) :
    ∃ r, IsLeast {r | c ≤ ∑ j ∈ o.firsts r, f j} r ∧
      ∀ i, ∑ j ∈ o.firsts i, f j < c ↔ i < r := by
  classical
  have hex : ∃ r, c ≤ ∑ j ∈ o.firsts r, f j := ⟨n, by rwa [o.firsts_of_le le_rfl]⟩
  refine ⟨Nat.find hex, ⟨Nat.find_spec hex, fun r hr => Nat.find_min' hex hr⟩, fun i => ?_⟩
  constructor
  · intro hlt
    by_contra hle
    have hmono := o.sum_firsts_mono hf (not_lt.mp hle)
    exact absurd ((Nat.find_spec hex).trans hmono) (not_le.mpr hlt)
  · intro hi
    exact not_le.mp (Nat.find_min hex hi)

end Sum

end DescOrder

end VllmMoet
