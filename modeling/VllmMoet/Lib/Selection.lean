import Mathlib.Data.Finset.Card
import Mathlib.Data.Finset.Union
import Mathlib.Data.List.Sort

/-!
# The `k` elements of largest score

`IsLargest score k s t` says that `t` are `k` elements of the finite set `s` of largest score,
or all of `s` when it has no more than `k`. Ties may be broken in any way.

* `IsLargest.biUnion`: selecting from what was selected from the parts of a set is selecting
  from the set.
* `IsLargest.above`: a selection, cut down to the elements above a bound.
* `IsLargest.image`: a selection, carried along an injective map.

`take_insertionSort_spec` says the same of a list: the front of a sorted list.
-/

namespace VllmMoet

universe u v w

/-! ### Finite sets -/

section Sets

variable {ι : Type u} {κ : Type v} {S : Type w} [LinearOrder S]

/-- `t` are `k` elements of `s` of largest score, or all of them. -/
structure IsLargest (score : ι → S) (k : ℕ) (s t : Finset ι) : Prop where
  subset : t ⊆ s
  card : t.card = min k s.card
  best : ∀ i ∈ t, ∀ j ∈ s, j ∉ t → score j ≤ score i

variable {score : ι → S} {k : ℕ} {s t : Finset ι}

/-- Where something is left out, as many as asked for are selected. -/
theorem IsLargest.card_of_notMem (h : IsLargest score k s t) {j : ι} (hj : j ∈ s) (hjt : j ∉ t) :
    t.card = k := by
  have hlt : t.card < s.card := Finset.card_lt_card ⟨h.subset, fun hs => hjt (hs hj)⟩
  have hcard := h.card
  omega

/-- Selecting from selections of the parts of a set. -/
theorem IsLargest.biUnion [DecidableEq ι] {R : Finset κ} {part loc : κ → Finset ι}
    (hloc : ∀ r ∈ R, IsLargest score k (part r) (loc r))
    (h : IsLargest score k (R.biUnion loc) t) : IsLargest score k (R.biUnion part) t := by
  have hsub : R.biUnion loc ⊆ R.biUnion part :=
    Finset.biUnion_mono fun r hr => (hloc r hr).subset
  have hle : (R.biUnion loc).card ≤ (R.biUnion part).card := Finset.card_le_card hsub
  -- a part that leaves something out has `k` elements selected in it
  have hfull : ∀ r ∈ R, ∀ j ∈ part r, j ∉ loc r →
      (loc r).card = k ∧ k ≤ (R.biUnion loc).card := by
    intro r hr j hj hjl
    have hk := (hloc r hr).card_of_notMem hj hjl
    exact ⟨hk, hk ▸ Finset.card_le_card (Finset.subset_biUnion_of_mem loc hr)⟩
  refine ⟨h.subset.trans hsub, ?_, fun i hi j hj hjt => ?_⟩
  · rw [h.card]
    by_cases hall : R.biUnion part ⊆ R.biUnion loc
    · rw [Finset.Subset.antisymm hsub hall]
    · obtain ⟨j, hj, hjl⟩ := Finset.not_subset.mp hall
      obtain ⟨r, hr, hjr⟩ := Finset.mem_biUnion.mp hj
      have hk := (hfull r hr j hjr fun hl =>
        hjl (Finset.mem_biUnion.mpr ⟨r, hr, hl⟩)).2
      omega
  · obtain ⟨r, hr, hjr⟩ := Finset.mem_biUnion.mp hj
    by_cases hjl : j ∈ loc r
    · exact h.best i hi j (Finset.mem_biUnion.mpr ⟨r, hr, hjl⟩) hjt
    · obtain ⟨hcard, hk⟩ := hfull r hr j hjr hjl
      have htk : t.card = k := by
        rw [h.card]
        omega
      by_cases hin : loc r ⊆ t
      · -- then `t` is just what was selected in that part
        have heq : loc r = t := Finset.eq_of_subset_of_card_le hin (by omega)
        exact (hloc r hr).best i (heq ▸ hi) j hjr hjl
      · obtain ⟨i', hi', hi't⟩ := Finset.not_subset.mp hin
        exact ((hloc r hr).best i' hi' j hjr hjl).trans
          (h.best i hi i' (Finset.mem_biUnion.mpr ⟨r, hr, hi'⟩) hi't)

/-- A selection, cut down to the elements above a bound. -/
theorem IsLargest.above (h : IsLargest score k s t) (b : S) :
    IsLargest score k (s.filter fun i => b < score i) (t.filter fun i => b < score i) := by
  have hsub : (t.filter fun i => b < score i) ⊆ s.filter fun i => b < score i :=
    Finset.filter_subset_filter _ h.subset
  refine ⟨hsub, ?_, fun i hi j hj hjt => ?_⟩
  · by_cases hall : (s.filter fun i => b < score i) ⊆ t.filter fun i => b < score i
    · -- nothing above the bound is left out
      have heq := Finset.Subset.antisymm hsub hall
      have hle : (t.filter fun i => b < score i).card ≤ t.card :=
        Finset.card_le_card (Finset.filter_subset _ _)
      have hcard := h.card
      rw [heq] at hle ⊢
      omega
    · -- something above the bound is left out, so all that is selected is above it
      obtain ⟨j, hj, hjt⟩ := Finset.not_subset.mp hall
      simp only [Finset.mem_filter, not_and] at hj hjt
      have hjt' : j ∉ t := fun hmem => hjt hmem hj.2
      have hk := h.card_of_notMem hj.1 hjt'
      have hall' : (t.filter fun i => b < score i) = t :=
        Finset.filter_true_of_mem fun i hi => hj.2.trans_le (h.best i hi j hj.1 hjt')
      have hle := Finset.card_le_card hsub
      rw [hall'] at hle ⊢
      omega
  · simp only [Finset.mem_filter, not_and] at hi hj hjt
    exact h.best i hi.1 j hj.1 fun hmem => hjt hmem hj.2

/-- A selection, carried along an injective map. -/
theorem IsLargest.image [DecidableEq κ] {f : ι → κ} {score' : κ → S}
    (h : IsLargest score k s t) (hf : Set.InjOn f s) (hscore : ∀ i ∈ s, score' (f i) = score i) :
    IsLargest score' k (s.image f) (t.image f) := by
  refine ⟨Finset.image_subset_image h.subset, ?_, ?_⟩
  · rw [Finset.card_image_of_injOn hf, ← h.card]
    exact Finset.card_image_of_injOn (hf.mono h.subset)
  · intro _ hfi _ hfj hjt
    obtain ⟨i, hi, rfl⟩ := Finset.mem_image.mp hfi
    obtain ⟨j, hj, rfl⟩ := Finset.mem_image.mp hfj
    rw [hscore i (h.subset hi), hscore j hj]
    exact h.best i hi j hj fun hmem => hjt (Finset.mem_image_of_mem f hmem)

end Sets

/-! ### The front of a sorted list -/

section Lists

variable {ι : Type u} (r : ι → ι → Prop) [DecidableRel r] [Std.Total r] [IsTrans ι r]

/-- The first `m` of a sorted list are distinct elements of it, as many as asked for or as
there are, in order, and none that is left out stands before one of them. -/
theorem take_insertionSort_spec {l : List ι} (m : ℕ) (h : l.Nodup) :
    ((l.insertionSort r).take m).Nodup ∧ (∀ i ∈ (l.insertionSort r).take m, i ∈ l) ∧
      ((l.insertionSort r).take m).length = min m l.length ∧
      ((l.insertionSort r).take m).Pairwise r ∧
      ∀ i ∈ (l.insertionSort r).take m, ∀ j ∈ l, j ∉ (l.insertionSort r).take m → r i j := by
  have hperm := List.perm_insertionSort r l
  have hsort : (l.insertionSort r).Pairwise r := List.pairwise_insertionSort _ _
  have hnodup : (l.insertionSort r).Nodup := hperm.nodup_iff.mpr h
  refine ⟨hnodup.sublist (List.take_sublist _ _), fun i hi => ?_, ?_,
    hsort.sublist (List.take_sublist _ _), fun i hi j hj hout => ?_⟩
  · exact hperm.mem_iff.mp (List.mem_of_mem_take hi)
  · rw [List.length_take, hperm.length_eq]
  · -- what is left out stands behind everything that was taken
    rw [← List.take_append_drop m (l.insertionSort r), List.pairwise_append] at hsort
    have hj' := hperm.mem_iff.mpr hj
    rw [← List.take_append_drop m (l.insertionSort r), List.mem_append] at hj'
    exact hsort.2.2 i hi j (hj'.resolve_left hout)

end Lists

end VllmMoet
