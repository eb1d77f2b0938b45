import Mathlib.Algebra.BigOperators.Ring.Finset
import Mathlib.Algebra.Order.Field.Rat
import Mathlib.Tactic.NormNum
import Mathlib.Tactic.Positivity
import VllmMoet.Lib.DescOrder
import VllmMoet.Lib.Scatter

/-!
# Top-p pruning of the routed experts

Of the experts a token is routed to, `_apply_topp` keeps those of the largest weights up to a
fraction of the token's weight, gives the others weight zero and the id of the heaviest expert.
The decision is made on the weights in descending order and scattered back to the order of the
row. Weights are those of an ordered field: the arithmetic is exact.

* `applyTopp`: the function on the rows of a batch.
* `PrunedRow`: what becomes of a row.
* `applyTopp_spec`: every row is pruned so, whatever the sort does with equal weights.
-/

namespace VllmMoet

universe u

namespace Routing

/-- The three environment settings, `VLLM_MOE_W2_TOPP`, `_MIN` and `_RENORM`. -/
structure ToppConfig (S : Type u) where
  topp : S
  toppMinEnv : ℤ
  toppRenorm : Bool

/-- `_TOPP_MIN`. -/
def ToppConfig.toppMin {S : Type u} (c : ToppConfig S) : ℕ :=
  (max 1 c.toppMinEnv).toNat

theorem ToppConfig.toppMin_pos {S : Type u} (c : ToppConfig S) : 0 < c.toppMin := by
  have hle : 1 ≤ max 1 c.toppMinEnv := le_max_left _ _
  rw [toppMin]
  omega

section Row

variable {S : Type u} [Field S] [LinearOrder S] (c : ToppConfig S) (k : ℕ) (w : ℕ → S)
  (ids : ℕ → ℤ) (o : DescOrder w k) (s : WriteOrder)

/-- `w_sorted`. -/
def wSorted (i : ℕ) : S :=
  w (o.nth i)

/-- `cum`. -/
def cum (i : ℕ) : S :=
  ∑ i' ∈ Finset.range (i + 1), wSorted k w o i'

/-- `tot`: the last of the running sums. -/
def tot : S :=
  cum k w o (k - 1)

/-- `keep_sorted`: the ranks before which there is less than the fraction, and the first ones. -/
def keepSorted (i : ℕ) : Bool :=
  if i < c.toppMin then true
  else decide (cum k w o i - wSorted k w o i < c.topp * tot k w o)

/-- `keep`: the decision in the order of the row. -/
def keep : ℕ → Bool :=
  writes o.nth (keepSorted c k w o) (fun _ => false) (s.order k)

/-- `kept_sum`. -/
def keptSum : S :=
  max (∑ i ∈ Finset.range k, if keep c k w o s i then w i else 0) (1 / 10 ^ 20)

/-- `w`, renormalised where this is on. -/
def renormed (i : ℕ) : S :=
  if c.toppRenorm then w i * (tot k w o / keptSum c k w o s) else w i

/-- `new_w`. -/
def newW (i : ℕ) : S :=
  if keep c k w o s i then renormed c k w o s i else 0

/-- `new_ids`. -/
def newIds (i : ℕ) : ℤ :=
  if keep c k w o s i then ids i else ids (o.nth 0)

end Row

/-- `_apply_topp` on rows of `k` entries, each with its sort. -/
def applyTopp {S : Type u} [Field S] [LinearOrder S] (c : ToppConfig S) (k : ℕ)
    (w : ℕ → ℕ → S) (ids : ℕ → ℕ → ℤ) (o : ∀ t, DescOrder (w t) k) (s : WriteOrder) :
    (ℕ → ℕ → S) × (ℕ → ℕ → ℤ) :=
  if ¬(0 < c.topp ∧ c.topp < 1) ∨ k ≤ c.toppMin then (w, ids)
  else (fun t => newW c k (w t) (o t) s, fun t => newIds c k (w t) (ids t) (o t) s)

/-- Off, or with too few entries to prune, the tensors are returned as they are. -/
theorem applyTopp_off {S : Type u} [Field S] [LinearOrder S] (c : ToppConfig S) (k : ℕ)
    (w : ℕ → ℕ → S) (ids : ℕ → ℕ → ℤ) (o : ∀ t, DescOrder (w t) k) (s : WriteOrder)
    (h : c.topp ≤ 0 ∨ 1 ≤ c.topp ∨ k ≤ c.toppMin) : applyTopp c k w ids o s = (w, ids) := by
  refine if_pos ?_
  rcases h with h | h | h
  · exact .inl fun hp => absurd hp.1 (not_lt.mpr h)
  · exact .inl fun hp => absurd hp.2 (not_lt.mpr h)
  · exact .inr h

/-- What pruning makes of a row of `k` entries, of which those of `kept` are kept. -/
structure PrunedRow {S : Type u} [Field S] [LinearOrder S] (c : ToppConfig S) (k : ℕ) (w : ℕ → S)
    (ids : ℕ → ℤ) (w' : ℕ → S) (ids' : ℕ → ℤ) (o : DescOrder w k) (kept : Finset ℕ) : Prop where
  /-- the kept entries are the shortest prefix that is long and heavy enough -/
  isPrefix : 0 < ∑ i ∈ Finset.range k, w i → ∃ r,
    IsLeast {r | c.topp * ∑ i ∈ Finset.range k, w i ≤ ∑ i ∈ o.firsts r, w i} r ∧
      kept = o.firsts (max c.toppMin r)
  /-- with no weight at all the forced ones remain -/
  isForced : ∑ i ∈ Finset.range k, w i = 0 → kept = o.firsts c.toppMin
  kept_lt : ∀ i ∈ kept, i < k
  dropped : ∀ i < k, i ∉ kept → w' i = 0 ∧ ∃ j ∈ kept, ids' i = ids j
  kept_ids : ∀ i ∈ kept, ids' i = ids i
  weighted : ∀ i < k, w' i ≠ 0 → i ∈ kept ∧ w i ≠ 0
  plain : c.toppRenorm = false → ∀ i ∈ kept, w' i = w i
  renorm : c.toppRenorm → 1 / 10 ^ 20 ≤ ∑ i ∈ kept, w i →
    (∀ i ∈ kept, ∀ j ∈ kept, w' i / w' j = w i / w j) ∧
      ∑ i ∈ kept, w' i = ∑ i ∈ Finset.range k, w i

namespace PrunedRow

variable {S : Type u} [Field S] [LinearOrder S] {c : ToppConfig S} {k : ℕ} {w w' : ℕ → S}
  {ids ids' : ℕ → ℤ} {o : DescOrder w k} {kept : Finset ℕ}

/-- No id is new. -/
theorem ids_subset (h : PrunedRow c k w ids w' ids' o kept) {i : ℕ} (hi : i < k) :
    ∃ j < k, ids' i = ids j := by
  by_cases hk : i ∈ kept
  · exact ⟨i, hi, h.kept_ids i hk⟩
  · obtain ⟨_, j, hj, he⟩ := h.dropped i hi hk
    exact ⟨j, h.kept_lt j hj, he⟩

/-- No id gets a weight that had none. -/
theorem weighted_subset (h : PrunedRow c k w ids w' ids' o kept) {i : ℕ} (hi : i < k)
    (hw : w' i ≠ 0) : ids' i = ids i ∧ w i ≠ 0 := by
  obtain ⟨hk, hne⟩ := h.weighted i hi hw
  exact ⟨h.kept_ids i hk, hne⟩

end PrunedRow

/-! ### The decision in the order of the row -/

section Keep

variable {S : Type u} [Field S] [LinearOrder S] {c : ToppConfig S} {k : ℕ} {w : ℕ → S}
  {o : DescOrder w k} {s : WriteOrder}

theorem keep_nth {i : ℕ} (hi : i < k) : keep c k w o s (o.nth i) = keepSorted c k w o i := by
  refine writes_of_mem ⟨i, s.mem_order.mpr hi, rfl⟩ fun i' hi' he => ?_
  rw [o.nth_inj (s.mem_order.mp hi') hi he]

theorem tot_eq (hk : 0 < k) : tot k w o = ∑ i ∈ Finset.range k, w i := by
  have hsucc : k - 1 + 1 = k := by omega
  rw [tot, cum, hsucc]
  exact (o.sum_nth le_rfl).trans (by rw [o.firsts_of_le le_rfl])

/-- What stands before a rank. -/
theorem cum_sub_wSorted {i : ℕ} (hi : i < k) :
    cum k w o i - wSorted k w o i = ∑ j ∈ o.firsts i, w j := by
  rw [cum, Finset.sum_range_succ, add_sub_cancel_right]
  exact o.sum_nth hi.le

/-- A rank is kept when it is one of the first or the prefix before it stays below. -/
theorem keepSorted_iff {i : ℕ} (hi : i < k) :
    keepSorted c k w o i ↔ i < c.toppMin ∨
      ∑ j ∈ o.firsts i, w j < c.topp * ∑ j ∈ Finset.range k, w j := by
  rw [keepSorted, cum_sub_wSorted hi, tot_eq (by omega)]
  by_cases h : i < c.toppMin <;> simp [h]

/-- The decision is that of a prefix, where the ranks that are kept are those below `r`. -/
theorem keep_iff_firsts {r : ℕ} (h : ∀ i < k, keepSorted c k w o i ↔ i < r) {j : ℕ} (hj : j < k) :
    keep c k w o s j ↔ j ∈ o.firsts r := by
  obtain ⟨i, hi, rfl⟩ := o.exists_nth hj
  rw [keep_nth hi, o.nth_mem_firsts hi, h i hi]

variable [IsStrictOrderedRing S]

/-- With a weight to share out the kept ranks are the shortest prefix that is enough. -/
theorem exists_keepSorted (hw : ∀ i < k, 0 ≤ w i) (hp1 : c.topp < 1)
    (htot : 0 < ∑ i ∈ Finset.range k, w i) :
    ∃ r, IsLeast {r | c.topp * ∑ i ∈ Finset.range k, w i ≤ ∑ i ∈ o.firsts r, w i} r ∧
      ∀ i < k, keepSorted c k w o i ↔ i < max c.toppMin r := by
  have hle : c.topp * ∑ i ∈ Finset.range k, w i ≤ ∑ i ∈ Finset.range k, w i :=
    mul_le_of_le_one_left htot.le hp1.le
  obtain ⟨r, hr, hlt⟩ := o.exists_isLeast hw hle
  refine ⟨r, hr, fun i hi => ?_⟩
  rw [keepSorted_iff hi, hlt i, lt_max_iff]

/-- With no weight to share out only the first ones are kept. -/
theorem keepSorted_of_zero (hw : ∀ i < k, 0 ≤ w i) (htot : ∑ i ∈ Finset.range k, w i = 0) {i : ℕ}
    (hi : i < k) : keepSorted c k w o i ↔ i < c.toppMin := by
  have hnonneg : 0 ≤ ∑ j ∈ o.firsts i, w j :=
    Finset.sum_nonneg fun j hj => hw j (Finset.mem_range.mp (o.firsts_subset i hj))
  rw [keepSorted_iff hi, htot, mul_zero]
  exact or_iff_left (not_lt.mpr hnonneg)

end Keep

/-! ### The pruned row -/

/-- Among the kept entries is the heaviest one. -/
theorem nth_zero_mem {S : Type u} [LE S] {c : ToppConfig S} {k : ℕ} {w : ℕ → S} (o : DescOrder w k)
    (hk : 0 < k) (r : ℕ) : o.nth 0 ∈ o.firsts (max c.toppMin r) :=
  (o.nth_mem_firsts hk).mpr (lt_max_of_lt_left c.toppMin_pos)

section Pruned

variable {S : Type u} [Field S] [LinearOrder S] {c : ToppConfig S} {k : ℕ}
  {w : ℕ → S} (ids : ℕ → ℤ) {o : DescOrder w k} {s : WriteOrder}

/-- A row that is left as it is keeps all its entries. -/
theorem prunedRow_self [IsStrictOrderedRing S] (hw : ∀ i < k, 0 ≤ w i) (hp1 : c.topp < 1)
    (hk : k ≤ c.toppMin) :
    PrunedRow c k w ids w ids o (Finset.range k) where
  isPrefix := by
    intro htot
    have hle : c.topp * ∑ i ∈ Finset.range k, w i ≤ ∑ i ∈ Finset.range k, w i :=
      mul_le_of_le_one_left htot.le hp1.le
    obtain ⟨r, hr, _⟩ := o.exists_isLeast hw hle
    exact ⟨r, hr, (o.firsts_of_le (hk.trans (le_max_left _ _))).symm⟩
  isForced _ := (o.firsts_of_le hk).symm
  kept_lt _ hi := Finset.mem_range.mp hi
  dropped i hi hnot := absurd (Finset.mem_range.mpr hi) hnot
  kept_ids _ _ := rfl
  weighted i hi hne := ⟨Finset.mem_range.mpr hi, hne⟩
  plain _ _ _ := rfl
  renorm _ _ := ⟨fun _ _ _ _ => rfl, rfl⟩

variable {ids}

/-- The sum of the kept weights, clamped. -/
theorem keptSum_eq {kept : Finset ℕ} (hsub : kept ⊆ Finset.range k)
    (hkeep : ∀ j < k, keep c k w o s j ↔ j ∈ kept) :
    keptSum c k w o s = max (∑ i ∈ kept, w i) (1 / 10 ^ 20) := by
  rw [keptSum, ← Finset.sum_filter]
  congr 2
  ext j
  rw [Finset.mem_filter, Finset.mem_range]
  constructor
  · rintro ⟨hj, hk⟩
    exact (hkeep j hj).mp hk
  · intro hj
    have hlt := Finset.mem_range.mp (hsub hj)
    exact ⟨hlt, (hkeep j hlt).mpr hj⟩

variable [IsStrictOrderedRing S]

/-- Renormalisation keeps the ratios and restores the total. -/
theorem renormed_spec {kept : Finset ℕ} (hk : 0 < k) (hsub : kept ⊆ Finset.range k)
    (hw : ∀ i < k, 0 ≤ w i) (hkeep : ∀ j < k, keep c k w o s j ↔ j ∈ kept)
    (hon : c.toppRenorm) (hsum : 1 / 10 ^ 20 ≤ ∑ i ∈ kept, w i) :
    (∀ i ∈ kept, ∀ j ∈ kept, renormed c k w o s i / renormed c k w o s j = w i / w j) ∧
      ∑ i ∈ kept, renormed c k w o s i = ∑ i ∈ Finset.range k, w i := by
  have hpos : 0 < ∑ i ∈ kept, w i := lt_of_lt_of_le (by positivity) hsum
  have hle : ∑ i ∈ kept, w i ≤ ∑ i ∈ Finset.range k, w i :=
    Finset.sum_le_sum_of_subset_of_nonneg hsub fun i hi _ => hw i (Finset.mem_range.mp hi)
  have hfactor : ∀ i, renormed c k w o s i =
      w i * ((∑ i ∈ Finset.range k, w i) / ∑ i ∈ kept, w i) := by
    intro i
    rw [renormed, if_pos hon, tot_eq hk, keptSum_eq hsub hkeep, max_eq_left hsum]
  have hne : (∑ i ∈ Finset.range k, w i) / ∑ i ∈ kept, w i ≠ 0 :=
    (div_pos (hpos.trans_le hle) hpos).ne'
  constructor
  · intro i _ j _
    rw [hfactor i, hfactor j, mul_div_mul_right _ _ hne]
  · calc ∑ i ∈ kept, renormed c k w o s i
        = (∑ i ∈ kept, w i) * ((∑ i ∈ Finset.range k, w i) / ∑ i ∈ kept, w i) := by
          rw [Finset.sum_mul]
          exact Finset.sum_congr rfl fun i _ => hfactor i
      _ = ∑ i ∈ Finset.range k, w i := mul_div_cancel₀ _ hpos.ne'

/-- The row the code computes is pruned to the prefix it keeps. -/
theorem prunedRow_new (hw : ∀ i < k, 0 ≤ w i) (hp1 : c.topp < 1)
    (hk : c.toppMin < k) :
    ∃ kept, PrunedRow c k w ids (newW c k w o s) (newIds c k w ids o s) o kept := by
  have hk0 : 0 < k := by omega
  have htot : 0 ≤ ∑ i ∈ Finset.range k, w i :=
    Finset.sum_nonneg fun i hi => hw i (Finset.mem_range.mp hi)
  -- the kept ranks are those below one bound, in both cases
  obtain ⟨r, hkeep, hpre, hzero⟩ : ∃ r, (∀ i < k, keepSorted c k w o i ↔ i < max c.toppMin r) ∧
      (0 < ∑ i ∈ Finset.range k, w i →
        IsLeast {r | c.topp * ∑ i ∈ Finset.range k, w i ≤ ∑ i ∈ o.firsts r, w i} r) ∧
      (∑ i ∈ Finset.range k, w i = 0 → r = 0) := by
    rcases htot.eq_or_lt with h0 | h0
    · refine ⟨0, fun i hi => ?_, fun h => absurd h0 h.ne, fun _ => rfl⟩
      rw [keepSorted_of_zero hw h0.symm hi, Nat.max_zero]
    · obtain ⟨r, hr, hlt⟩ := exists_keepSorted (c := c) (o := o) hw hp1 h0
      exact ⟨r, hlt, fun _ => hr, fun h => absurd h h0.ne'⟩
  have hmem : ∀ j < k, keep c k w o s j ↔ j ∈ o.firsts (max c.toppMin r) :=
    fun j hj => keep_iff_firsts hkeep hj
  have hsub := o.firsts_subset (max c.toppMin r)
  have hlt : ∀ i ∈ o.firsts (max c.toppMin r), i < k := fun i hi => Finset.mem_range.mp (hsub hi)
  have hon : ∀ i ∈ o.firsts (max c.toppMin r), newW c k w o s i = renormed c k w o s i :=
    fun i hi => if_pos ((hmem i (hlt i hi)).mpr hi)
  have hoff : ∀ i < k, i ∉ o.firsts (max c.toppMin r) → keep c k w o s i ≠ true :=
    fun i hi hnot hkeep => hnot ((hmem i hi).mp hkeep)
  refine ⟨o.firsts (max c.toppMin r), ?_⟩
  constructor
  case isPrefix =>
    intro h
    exact ⟨r, hpre h, rfl⟩
  case isForced =>
    intro h
    rw [hzero h, Nat.max_zero]
  case kept_lt => exact hlt
  case dropped =>
    intro i hi hnot
    exact ⟨if_neg (hoff i hi hnot), o.nth 0, nth_zero_mem o hk0 r, if_neg (hoff i hi hnot)⟩
  case kept_ids =>
    intro i hi
    exact if_pos ((hmem i (hlt i hi)).mpr hi)
  case weighted =>
    intro i hi hne
    have hin : i ∈ o.firsts (max c.toppMin r) := by
      by_contra hnot
      exact hne (if_neg (hoff i hi hnot))
    refine ⟨hin, fun h0 => hne ?_⟩
    rw [hon i hin, renormed, h0, zero_mul, ite_self]
  case plain =>
    intro hplain i hi
    rw [hon i hi, renormed, hplain]
    rfl
  case renorm =>
    intro hr hsum
    obtain ⟨hratio, htotal⟩ := renormed_spec hk0 hsub hw hmem hr hsum
    constructor
    · intro i hi j hj
      rw [hon i hi, hon j hj]
      exact hratio i hi j hj
    · exact (Finset.sum_congr rfl hon).trans htotal

end Pruned

/-- **Top-p pruning keeps the right prefix.** For any non-negative weights and any sort of them,
each row is pruned as `PrunedRow` says; the ids with a weight are among those that had one, the
ids are among the row's, and what is kept stays in its place. -/
theorem applyTopp_spec {S : Type u} [Field S] [LinearOrder S] [IsStrictOrderedRing S]
    (c : ToppConfig S) (T k : ℕ) (w : ℕ → ℕ → S) (ids : ℕ → ℕ → ℤ)
    (o : ∀ t, DescOrder (w t) k) (s : WriteOrder) (hp : 0 < c.topp) (hp1 : c.topp < 1)
    (hw : ∀ t < T, ∀ i < k, 0 ≤ w t i) (t : ℕ) (ht : t < T) :
    (∃ kept, PrunedRow c k (w t) (ids t) ((applyTopp c k w ids o s).1 t)
      ((applyTopp c k w ids o s).2 t) (o t) kept) ∧
    (∀ i < k, (applyTopp c k w ids o s).1 t i ≠ 0 →
      (applyTopp c k w ids o s).2 t i = ids t i ∧ w t i ≠ 0) ∧
    (∀ i < k, ∃ j < k, (applyTopp c k w ids o s).2 t i = ids t j) := by
  have hrow : ∃ kept, PrunedRow c k (w t) (ids t) ((applyTopp c k w ids o s).1 t)
      ((applyTopp c k w ids o s).2 t) (o t) kept := by
    by_cases hk : k ≤ c.toppMin
    · have heq : applyTopp c k w ids o s = (w, ids) := if_pos (.inr hk)
      rw [heq]
      exact ⟨_, prunedRow_self (ids t) (hw t ht) hp1 hk⟩
    · have heq : applyTopp c k w ids o s =
          (fun t => newW c k (w t) (o t) s, fun t => newIds c k (w t) (ids t) (o t) s) :=
        if_neg (by simp [hp, hp1, hk])
      rw [heq]
      exact prunedRow_new (hw t ht) hp1 (by omega)
  obtain ⟨kept, h⟩ := hrow
  refine ⟨⟨kept, h⟩, ?_, ?_⟩
  · intro i hi hne
    exact h.weighted_subset hi hne
  · intro i hi
    exact h.ids_subset hi

/-- Three entries of weights `1/2`, `1/4`, `1/4`. -/
def threeWeights (i : ℕ) : ℚ :=
  if i = 0 then 1 / 4 else if i = 1 then 1 / 2 else 1 / 4

/-- A sort of them. -/
def threeOrder : DescOrder threeWeights 3 where
  order := [1, 0, 2]
  perm := List.Perm.swap 0 1 [2]
  sorted := by
    simp only [threeWeights, List.pairwise_cons, List.mem_cons, List.not_mem_nil]
    norm_num

theorem applyTopp_spec_three :
    ∃ kept, PrunedRow ⟨1 / 2, 1, true⟩ 3 threeWeights (fun i => 7 + i)
      ((applyTopp ⟨1 / 2, 1, true⟩ 3 (fun _ => threeWeights) (fun _ i => 7 + i)
        (fun _ => threeOrder) .ascending).1 0)
      ((applyTopp ⟨1 / 2, 1, true⟩ 3 (fun _ => threeWeights) (fun _ i => 7 + i)
        (fun _ => threeOrder) .ascending).2 0) threeOrder kept := by
  refine (applyTopp_spec ⟨1 / 2, 1, true⟩ 1 3 (fun _ => threeWeights) (fun _ i => 7 + i)
    (fun _ => threeOrder) .ascending ?_ ?_ (fun _ _ i _ => ?_) 0 one_pos).1
  · norm_num
  · norm_num
  · rw [threeWeights]
    split_ifs <;> norm_num

end Routing

end VllmMoet
