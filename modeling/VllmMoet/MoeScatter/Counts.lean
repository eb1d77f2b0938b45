import Mathlib.Algebra.BigOperators.Group.Finset.Piecewise
import VllmMoet.MoeScatter.Kernel

/-!
# The counts of a CTA

Both counting paths give every expert the number of pairs that name it, and the block reductions
give every lane the same four numbers: the first row of the region of the CTA's expert, the rows
of all regions, the count of the expert and the rank of the pair.
-/

namespace VllmMoet

namespace MoeScatter

variable (L : Launch)

/-! ### The layout -/

/-- How many pairs name an expert. -/
def countOf (e : ℕ) : ℕ :=
  ((Finset.range L.P).filter fun i => L.ids i = e).card

/-- The rows of the region of an expert. -/
def aligned (e : ℕ) : ℕ :=
  roundUp (countOf L e) L.align

/-- The first row of the region of an expert. -/
def start (e : ℕ) : ℕ :=
  ∑ e' ∈ Finset.range e, aligned L e'

/-- How many earlier pairs name the expert of a pair. -/
def rankOf (p : ℕ) : ℕ :=
  ((Finset.range p).filter fun i => L.ids i = L.ids p).card

/-- The row of a pair. -/
def destOf (p : ℕ) : ℕ :=
  start L (L.ids p).toNat + rankOf L p

/-! ### The two counts -/

/-- Every thread that counts directly counts the pairs of its expert. -/
theorem directCount_eq (stale : ℕ → ℤ) (e : ℕ) : directCount L stale e = countOf L e := by
  have hterm : ∀ i < (L.P + 3) >>> 2, ∀ j,
      (decide (L.P - 4 * i > j) && decide (smemIds L stale (4 * i + j) = e)).toNat =
        if 4 * i + j < L.P ∧ L.ids (4 * i + j) = e then 1 else 0 := by
    intro i _ j
    by_cases h : 4 * i + j < L.P
    · have hlim : L.P - 4 * i > j := by omega
      by_cases he : L.ids (4 * i + j) = e
      · simp [smemIds, h, hlim, he]
      · simp [smemIds, h, he]
    · have hlim : ¬ L.P - 4 * i > j := by omega
      simp [h, hlim]
  have hfour : ∀ i ∈ Finset.range ((L.P + 3) >>> 2),
      (let lim := L.P - 4 * i
      (decide (smemIds L stale (4 * i) = e)).toNat +
        (decide (lim > 1) && decide (smemIds L stale (4 * i + 1) = e)).toNat +
        (decide (lim > 2) && decide (smemIds L stale (4 * i + 2) = e)).toNat +
        (decide (lim > 3) && decide (smemIds L stale (4 * i + 3) = e)).toNat) =
      ∑ j ∈ Finset.range 4, if 4 * i + j < L.P ∧ L.ids (4 * i + j) = e then 1 else 0 := by
    intro i hi
    have hi := Finset.mem_range.mp hi
    have hlim : L.P - 4 * i > 0 := by
      rw [Nat.shiftRight_eq_div_pow] at hi
      omega
    have h₀ := hterm i hi 0
    rw [decide_eq_true hlim, Bool.true_and] at h₀
    simp only [Nat.add_zero] at h₀
    simp only [Finset.sum_range_succ, Finset.sum_range_zero, Nat.zero_add, h₀,
      hterm i hi 1, hterm i hi 2, hterm i hi 3, Nat.add_zero]
  rw [directCount, Finset.sum_congr rfl hfour,
    sum_blocks 4 _ fun q => if q < L.P ∧ L.ids q = e then 1 else 0, countOf,
    Finset.card_filter]
  have hcover : L.P ≤ 4 * ((L.P + 3) >>> 2) := by
    rw [Nat.shiftRight_eq_div_pow]
    omega
  refine (Finset.sum_subset_zero_on_sdiff (Finset.range_subset_range.mpr hcover) ?_ ?_).symm
  · intro q hq
    have := (Finset.mem_sdiff.mp hq).2
    rw [Finset.mem_range] at this
    simp [this]
  · intro q hq
    simp [Finset.mem_range.mp hq]

/-- The histogram in shared memory holds the same counts, in whichever order the threads added. -/
theorem histCount_eq (o : WriteOrder) {e : ℕ} (he : e < L.E) : histCount L o e = countOf L e := by
  have hfold : ∀ is : List ℕ, is.foldl (histAdd L) (fun _ => 0) e =
      is.countP fun i => decide (L.ids i = e) := by
    intro is
    induction is using List.reverseRecOn with
    | nil => rfl
    | append_singleton is i ih =>
      rw [List.foldl_append, List.foldl_cons, List.foldl_nil, List.countP_append,
        List.countP_singleton, histAdd]
      by_cases hi : L.ids i = e
      · have hv : L.Valid (L.ids i) := hi ▸ ⟨Int.natCast_nonneg e, Int.ofNat_lt.mpr he⟩
        rw [if_pos hv, hi, Int.toNat_natCast, Function.update_self, ih]
        simp
      · have hzero : (if decide (L.ids i = e) = true then 1 else 0) = 0 :=
          if_neg fun h => hi (of_decide_eq_true h)
        rw [hzero, ← ih]
        by_cases hv : L.Valid (L.ids i)
        · have hne : e ≠ (L.ids i).toNat := fun h => hi (by rw [h, Int.toNat_of_nonneg hv.1])
          rw [if_pos hv, Function.update_of_ne hne, Nat.add_zero]
        · rw [if_neg hv, Nat.add_zero]
  rw [histCount, if_pos he, hfold, (o.perm L.P).countP_eq, countOf,
    List.countP_eq_length_filter]
  rfl

/-- Either way of counting gives an expert the pairs that name it. -/
theorem cnt_eq (c : Counting) {e : ℕ} (he : e < L.E) : c.cnt L e = countOf L e := by
  cases c with
  | direct stale => exact directCount_eq L stale e
  | hist o => exact histCount_eq L o he

/-! ### The reductions -/

/-- The sum over the warps is that over all threads of the block. -/
theorem blockSum_eq (v : ℕ → ℕ) {lane : ℕ} (h : lane < 32) :
    blockSum v lane = ∑ tid ∈ Finset.range 512, v tid := by
  have hwarp : ∀ l, xorReduce 5 (fun i => v (32 * l + i)) 0 =
      ∑ i ∈ Finset.range 32, v (32 * l + i) := fun l =>
    xorReduce_eq_sum _ (by decide)
  have hsum := xorReduce_eq_sum (k := 5)
    (fun l => if l < 16 then xorReduce 5 (fun i => v (32 * l + i)) 0 else 0) h
  rw [blockSum, hsum, show Finset.range (2 ^ 5) = Finset.range (16 + 16) from rfl,
    Finset.sum_range_add]
  have hlow : ∑ l ∈ Finset.range 16,
      (if l < 16 then xorReduce 5 (fun i => v (32 * l + i)) 0 else 0) =
      ∑ l ∈ Finset.range 16, ∑ i ∈ Finset.range 32, v (32 * l + i) :=
    Finset.sum_congr rfl fun l hl => by rw [if_pos (Finset.mem_range.mp hl), hwarp]
  have hhigh : ∑ l ∈ Finset.range 16, (if 16 + l < 16 then
      xorReduce 5 (fun i => v (32 * (16 + l) + i)) 0 else 0) = 0 :=
    Finset.sum_eq_zero fun l _ => if_neg (by omega)
  rw [hlow, hhigh, Nat.add_zero, sum_blocks]

/-- Each thread adds two experts up, so that a block covers 1024 of them. -/
theorem blockSum_perThread (f : ℕ → ℕ) {lane : ℕ} (h : lane < 32) :
    blockSum (perThread f) lane = ∑ e ∈ Finset.range 1024, f e := by
  have hsplit := Finset.sum_range_add f 512 512
  have hcomm : ∑ i ∈ Finset.range 512, f (512 + i) = ∑ i ∈ Finset.range 512, f (i + 512) :=
    Finset.sum_congr rfl fun i _ => by rw [Nat.add_comm]
  simp only [blockSum_eq _ h, perThread, Finset.sum_add_distrib]
  rw [← hcomm]
  exact hsplit.symm

variable {L} (c : Counting) {p lane : ℕ}

theorem rowsOf_eq {e : ℕ} (he : e < L.E) : rowsOf L c e = aligned L e := by
  rw [rowsOf, if_pos he, cnt_eq L c he, aligned]

/-- The sum of all aligned counts is where the regions end. -/
theorem total_eq (hE : L.E ≤ 1024) (h : lane < 32) : total L c lane = start L L.E := by
  rw [total, blockSum_perThread _ h, start]
  refine (Finset.sum_subset_zero_on_sdiff (Finset.range_subset_range.mpr hE) ?_ ?_).symm
  · intro e he
    have := (Finset.mem_sdiff.mp he).2
    rw [Finset.mem_range] at this
    exact if_neg this
  · exact fun e he => (rowsOf_eq c (Finset.mem_range.mp he)).symm

/-- The sum of those before an expert is where its region begins. -/
theorem before_eq (hE : L.E ≤ 1024) (h : lane < 32) (hv : L.Valid (L.ids p)) :
    before L c p lane = start L (L.ids p).toNat := by
  obtain ⟨h₀, h₁⟩ := hv
  have hlt : (L.ids p).toNat < L.E := by omega
  rw [before, blockSum_perThread _ h, start]
  refine (Finset.sum_subset_zero_on_sdiff
    (Finset.range_subset_range.mpr (by omega : (L.ids p).toNat ≤ 1024)) ?_ ?_).symm
  · intro e he
    have := (Finset.mem_sdiff.mp he).2
    rw [Finset.mem_range] at this
    exact if_neg (by omega)
  · intro e he
    have he := Finset.mem_range.mp he
    rw [if_pos (by omega), rowsOf_eq c (by omega)]

theorem cMine_eq (hE : L.E ≤ 1024) (h : lane < 32) (hv : L.Valid (L.ids p)) :
    cMine L c p lane = countOf L (L.ids p).toNat := by
  obtain ⟨h₀, h₁⟩ := hv
  have hlt : (L.ids p).toNat < L.E := by omega
  rw [cMine, blockSum_perThread _ h, Finset.sum_eq_single (L.ids p).toNat]
  · rw [if_pos (by omega), cnt_eq L c hlt]
  · intro e _ hne
    exact if_neg (by omega)
  · intro hnot
    exact absurd (Finset.mem_range.mpr (by omega)) hnot

/-- The rank of a pair among those of its expert. -/
theorem rank_eq (hP : L.P ≤ 1024) (h : lane < 32) (hp : p < L.P) : rank L p lane = rankOf L p := by
  rw [rank, blockSum_perThread _ h, rankOf, Finset.card_filter]
  refine (Finset.sum_subset_zero_on_sdiff
    (Finset.range_subset_range.mpr (by omega : p ≤ 1024)) ?_ ?_).symm
  · intro i hi
    have := (Finset.mem_sdiff.mp hi).2
    rw [Finset.mem_range] at this
    exact if_neg fun hi' => this hi'.1
  · intro i hi
    have hi := Finset.mem_range.mp hi
    by_cases he : L.ids i = L.ids p
    · rw [if_pos he, if_pos ⟨hi, by omega, he⟩]
    · rw [if_neg he, if_neg fun h' => he h'.2.2]

end MoeScatter

end VllmMoet
