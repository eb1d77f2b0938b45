import VllmMoet.DetTopk.Histogram
import VllmMoet.Lib.Concat
import VllmMoet.Lib.Scan
import VllmMoet.Lib.Threshold

/-!
# The digit of the `k`-th key

`select_digit` of `det_topk_sm120.cu`: the threads hold the bins from the top, a scan over the block
counts the keys above each, and the thread with the bin in which the count reaches `k_rem` writes
the decision (`selectDigit`).

* `selectDigit_eq`: for every block size that divides the number of bins, there is one such bin,
  and its number, what is left to take from it and its count are written.
-/

namespace VllmMoet

namespace DetTopk

/-- `kBins`. -/
def kBins : ℕ := 2048

/-- `s_vals`: the digit, `k_rem` left for its bin, `done`, and the bin's count. -/
structure Decision where
  digit : ℕ
  kRem : ℕ
  done : Bool
  cnt : ℕ

section

variable (W : ℕ) (hist : ℕ → ℕ) (nbins kRem : ℕ) (lowor : Option (ℕ → BitVec 32))

/-- `nbins / THREADS > 0 ? nbins / THREADS : 1`: the bins of a thread. -/
def perThread (T nbins : ℕ) : ℕ := if 0 < nbins / T then nbins / T else 1

/-- The thread's `j`-th bin from the top. -/
def binOf (T nbins t j : ℕ) : ℤ := (nbins : ℤ) - 1 - (t * perThread T nbins + j : ℕ)

/-- `cnt[j]`. -/
def binCount (t j : ℕ) : ℕ :=
  if j < perThread (32 * W) nbins ∧ 0 ≤ binOf (32 * W) nbins t j then
    hist (binOf (32 * W) nbins t j).toNat
  else 0

/-- `c`. -/
def threadCount (t : ℕ) : ℕ :=
  ∑ j ∈ Finset.range (perThread (32 * W) kBins), binCount W hist nbins t j

/-- `above` at the thread's `j`-th bin. -/
def aboveCount (t j : ℕ) : ℕ :=
  blockScan W (threadCount W hist nbins) t + ∑ i ∈ Finset.range j, binCount W hist nbins t i

/-- The keys of a bin agree in the bits below as well. -/
def agreesBelow (d : ℕ) : Bool :=
  match lowor with
  | none => false
  | some lowor => (lowor (d >>> 5) >>> (d % 32)) &&& 1#32 = 0#32

/-- What a thread writes for its `j`-th bin. -/
def decide? (t j : ℕ) : Option Decision :=
  let above := aboveCount W hist nbins t j
  let cnt := binCount W hist nbins t j
  if j < perThread (32 * W) nbins ∧ above < kRem ∧ kRem ≤ above + cnt then
    let d := (binOf (32 * W) nbins t j).toNat
    some ⟨d, kRem - above, decide (cnt = kRem - above) || agreesBelow lowor d, cnt⟩
  else none

/-- What the threads of the block write to `s_vals`. -/
def decisions : List Decision :=
  (List.range (32 * W)).flatMap fun t =>
    (List.range (perThread (32 * W) kBins)).filterMap (decide? W hist nbins kRem lowor t)

/-- `select_digit`: `s_vals` after it. -/
def selectDigit (vals : Decision) : Decision := (decisions W hist nbins kRem lowor).getLastD vals

end

/-- What is decided about bin `d`. -/
def decisionAt (hist : ℕ → ℕ) (nbins kRem : ℕ) (lowor : Option (ℕ → BitVec 32)) (d : ℕ) :
    Decision :=
  let above := ∑ x ∈ Finset.Ico (d + 1) nbins, hist x
  ⟨d, kRem - above, decide (hist d = kRem - above) || agreesBelow lowor d, hist d⟩

theorem agreesBelow_some (lowor : ℕ → BitVec 32) (d : ℕ) :
    agreesBelow (some lowor) d = !flag lowor d := by
  rw [agreesBelow, flag, Nat.shiftRight_eq_div_pow, BitVec.and_one_eq_setWidth_ofBool_getLsbD,
    BitVec.getLsbD_ushiftRight, Nat.add_zero]
  cases (lowor (d / 2 ^ 5)).getLsbD (d % 32) <;> rfl

section Spec

variable {W : ℕ} {hist : ℕ → ℕ} {nbins kRem : ℕ} {lowor : Option (ℕ → BitVec 32)}

/-- The top bins, from the bottom. -/
theorem sum_top (f : ℕ → ℕ) {m B : ℕ} (h : m ≤ B) :
    ∑ q ∈ Finset.range m, f (B - 1 - q) = ∑ x ∈ Finset.Ico (B - m) B, f x := by
  induction m with
  | zero => simp
  | succ m ih =>
    have hbot : B - (m + 1) + 1 = B - m := by omega
    have hlast : B - 1 - m = B - (m + 1) := by omega
    have hlt : B - (m + 1) < B := by omega
    rw [Finset.sum_range_succ, ih (by omega), Finset.sum_eq_sum_Ico_succ_bot hlt, hbot, hlast,
      Nat.add_comm]

/-- A block of `32 * W` threads whose number divides that of the bins. -/
structure Fits (W nbins : ℕ) : Prop where
  pos : 0 < W
  le : W ≤ 32
  dvd : 32 * W ∣ nbins
  bins : 0 < nbins
  most : nbins ≤ kBins

theorem Fits.of_dvd (hW : W ∣ 32) (hbins : nbins = 1024 ∨ nbins = 2048) : Fits W nbins where
  pos := Nat.pos_of_dvd_of_pos hW (by omega)
  le := Nat.le_of_dvd (by omega) hW
  dvd := by
    have h : 32 * W ∣ 1024 := Nat.mul_dvd_mul_left 32 hW
    rcases hbins with rfl | rfl
    · exact h
    · exact h.trans ⟨2, rfl⟩
  bins := by omega
  most := by rw [kBins]; omega

variable (h : Fits W nbins)

include h

theorem perThread_mul : 32 * W * perThread (32 * W) nbins = nbins := by
  have hpos : 0 < nbins / (32 * W) :=
    Nat.div_pos (Nat.le_of_dvd h.bins h.dvd) (Nat.mul_pos (by omega) h.pos)
  rw [perThread, if_pos hpos, Nat.mul_div_cancel' h.dvd]

theorem perThread_le : perThread (32 * W) nbins ≤ perThread (32 * W) kBins := by
  have hT : 0 < 32 * W := Nat.mul_pos (by omega) h.pos
  have hle : nbins / (32 * W) ≤ kBins / (32 * W) := Nat.div_le_div_right h.most
  have hpos : 0 < nbins / (32 * W) := Nat.div_pos (Nat.le_of_dvd h.bins h.dvd) hT
  rw [perThread, perThread, if_pos hpos, if_pos (hpos.trans_le hle)]
  exact hle

/-- The bins of the threads, in order, are those from the top. -/
theorem place_lt {t j : ℕ} (ht : t < 32 * W) (hj : j < perThread (32 * W) nbins) :
    t * perThread (32 * W) nbins + j < nbins := by
  have hmul := perThread_mul h
  have := Nat.mul_le_mul_right (perThread (32 * W) nbins) (Nat.succ_le_of_lt ht)
  rw [Nat.succ_mul] at this
  omega

theorem binCount_eq {t j : ℕ} (ht : t < 32 * W) (hj : j < perThread (32 * W) nbins) :
    binCount W hist nbins t j = hist (nbins - 1 - (t * perThread (32 * W) nbins + j)) := by
  have hlt := place_lt h ht hj
  have hbin : binOf (32 * W) nbins t j =
      ((nbins - 1 - (t * perThread (32 * W) nbins + j) : ℕ) : ℤ) := by
    rw [binOf]
    omega
  rw [binCount, hbin, if_pos ⟨hj, Int.natCast_nonneg _⟩, Int.toNat_natCast]

theorem threadCount_eq {t : ℕ} (ht : t < 32 * W) :
    threadCount W hist nbins t = ∑ j ∈ Finset.range (perThread (32 * W) nbins),
      hist (nbins - 1 - (perThread (32 * W) nbins * t + j)) := by
  rw [threadCount, ← Finset.sum_subset (Finset.range_subset_range.mpr (perThread_le h))]
  · refine Finset.sum_congr rfl fun j hj => ?_
    rw [binCount_eq h ht (Finset.mem_range.mp hj), Nat.mul_comm]
  · intro j _ hj
    rw [binCount, if_neg fun hlt => hj (Finset.mem_range.mpr hlt.1)]

/-- `above` is the number of keys in the bins above. -/
theorem aboveCount_eq {t j : ℕ} (ht : t < 32 * W) (hj : j < perThread (32 * W) nbins) :
    aboveCount W hist nbins t j =
      ∑ x ∈ Finset.Ico (nbins - (t * perThread (32 * W) nbins + j)) nbins, hist x := by
  have hlt := place_lt h ht hj
  have hbefore : ∑ t' ∈ Finset.range t, threadCount W hist nbins t' =
      ∑ q ∈ Finset.range (perThread (32 * W) nbins * t), hist (nbins - 1 - q) := by
    rw [← sum_blocks]
    exact Finset.sum_congr rfl fun t' ht' =>
      threadCount_eq h ((Finset.mem_range.mp ht').trans ht)
  have hown : ∑ i ∈ Finset.range j, binCount W hist nbins t i =
      ∑ i ∈ Finset.range j, hist (nbins - 1 - (perThread (32 * W) nbins * t + i)) := by
    refine Finset.sum_congr rfl fun i hi => ?_
    rw [binCount_eq h ht ((Finset.mem_range.mp hi).trans hj), Nat.mul_comm]
  rw [aboveCount, blockScan_eq_sum h.le ht, hbefore, hown, ← sum_top hist hlt.le, Nat.mul_comm t,
    Finset.sum_range_add]

/-- What is written, by the thread that has the bin. -/
theorem decide?_eq {t j : ℕ} (ht : t < 32 * W) (hj : j < perThread (32 * W) nbins) {d : ℕ}
    (hd : d = nbins - 1 - (t * perThread (32 * W) nbins + j)) :
    decide? W hist nbins kRem lowor t j =
      if ∑ x ∈ Finset.Ico (d + 1) nbins, hist x < kRem ∧
          kRem ≤ ∑ x ∈ Finset.Ico (d + 1) nbins, hist x + hist d then
        some (decisionAt hist nbins kRem lowor d)
      else none := by
  have hlt := place_lt h ht hj
  have hbin : binOf (32 * W) nbins t j = (d : ℤ) := by
    rw [binOf]
    omega
  have habove : nbins - (t * perThread (32 * W) nbins + j) = d + 1 := by omega
  rw [decide?, aboveCount_eq h ht hj, binCount_eq h ht hj, ← hd, habove, hbin, Int.toNat_natCast]
  simp only [hj, true_and]
  rfl

/-- **The decision.** One bin reaches `k_rem`, and it is written. -/
theorem selectDigit_eq {d : ℕ} (hd : IsDigit hist nbins kRem d) (vals : Decision) :
    selectDigit W hist nbins kRem lowor vals = decisionAt hist nbins kRem lowor d := by
  have hper : 0 < perThread (32 * W) nbins :=
    Nat.pos_of_mul_pos_left (perThread_mul h ▸ h.bins)
  have hall : ∀ x ∈ decisions W hist nbins kRem lowor, x = decisionAt hist nbins kRem lowor d := by
    intro x hx
    obtain ⟨t, ht, hx⟩ := List.mem_flatMap.mp hx
    obtain ⟨j, -, hx⟩ := List.mem_filterMap.mp hx
    have ht := List.mem_range.mp ht
    by_cases hj : j < perThread (32 * W) nbins
    · have hlt := place_lt h ht hj
      rw [decide?_eq h ht hj rfl] at hx
      split_ifs at hx with hc
      rw [← Option.some.inj hx]
      congr 1
      exact IsDigit.unique ⟨by omega, hc.1, hc.2⟩ hd
    · rw [decide?, if_neg fun hc => hj hc.1] at hx
      cases hx
  have hmem : decisionAt hist nbins kRem lowor d ∈ decisions W hist nbins kRem lowor := by
    -- the thread that has the bin
    have hq : nbins - 1 - d < 32 * W * perThread (32 * W) nbins := by
      rw [perThread_mul h]
      have := h.bins
      omega
    have ht : (nbins - 1 - d) / perThread (32 * W) nbins < 32 * W :=
      Nat.div_lt_of_lt_mul (by rwa [Nat.mul_comm])
    have hj : (nbins - 1 - d) % perThread (32 * W) nbins < perThread (32 * W) nbins :=
      Nat.mod_lt _ hper
    refine List.mem_flatMap.mpr ⟨_, List.mem_range.mpr ht, List.mem_filterMap.mpr ⟨_,
      List.mem_range.mpr (hj.trans_le (perThread_le h)), ?_⟩⟩
    have hdlt := hd.lt
    rw [decide?_eq h ht hj (d := d) (by rw [Nat.div_add_mod']; omega), if_pos ⟨hd.above, hd.le⟩]
  rw [selectDigit, List.getLastD_eq_getLast?, getLast?_eq_of_forall hmem hall, Option.getD_some]

end Spec

end DetTopk

end VllmMoet
