import Mathlib.Algebra.BigOperators.Group.Finset.Basic
import Mathlib.Algebra.Order.Ring.Int
import Mathlib.Tactic.Linarith
import Mathlib.Tactic.Ring

/-!
# Positions interleaved over ranks

Under decode-context parallelism the cache of a sequence is dealt out to the ranks in units of
`I` tokens: position `p` lives on rank `p / I % W`, at the local position
`p / (W * I) * I + p % I`. Three maps have to agree on that: how many positions of a prefix a
rank stores (`dcpLocalCountFromGlobal`), which position a local one is
(`dcpLocalPosToGlobal`), and which rank reads a position where (`convertTok`).

* `sum_localCount`: the counts of the ranks add up to the length.
* `lt_localCount_iff`: a local position is stored just when its global one is in the prefix.
* `convertTok_eq`: a position is read by the rank that stores it, where it is stored, and by
  no other rank.
-/

namespace VllmMoet.Sparse

/-- `torch.clamp` with both bounds. -/
def clamp (x lo hi : ℤ) : ℤ :=
  min (max x lo) hi

/-- Number of tokens of a `globalLen`-token prefix stored on a rank. -/
def dcpLocalCountFromGlobal (globalLen W rank I : ℤ) : ℤ :=
  let unit := W * I
  let full := globalLen / unit
  let rem := globalLen - full * unit
  full * I + clamp (rem - rank * I) 0 I

/-- The same on a plain integer. -/
def dcpLocalCountInt (globalLen W rank I : ℤ) : ℤ :=
  let unit := W * I
  let full := globalLen / unit
  let rem := globalLen % unit
  full * I + min (max (rem - rank * I) 0) I

/-- The global position of a local one; `-1` stays `-1`. -/
def dcpLocalPosToGlobal (localIdx W rank I : ℤ) : ℤ :=
  let unit := localIdx / I
  let globalIdx := unit * (W * I) + rank * I + localIdx % I
  if localIdx < 0 then localIdx else globalIdx

/-- The local position at which a rank reads a global one, if it is its own. A single rank
reads every position as it is. -/
def convertTok (W rank I tok : ℤ) : Option ℤ :=
  if tok < 0 then none
  else if 1 < W then
    let unit := tok / I
    if unit % W ≠ rank then none else some (unit / W * I + tok % I)
  else some tok

/-- The rank on which the interleaved layout stores a position. -/
def layoutRank (W I p : ℤ) : ℤ :=
  p / I % W

/-- The local position at which the interleaved layout stores a position. -/
def layoutPos (W I p : ℤ) : ℤ :=
  p / (W * I) * I + p % I

section Maps

variable {W I : ℤ}

/-- The two counts are the same. -/
theorem dcpLocalCountInt_eq (n rank : ℤ) :
    dcpLocalCountInt n W rank I = dcpLocalCountFromGlobal n W rank I := by
  have hrem : n % (W * I) = n - n / (W * I) * (W * I) := by
    have h := Int.mul_ediv_add_emod n (W * I)
    linarith [mul_comm (W * I) (n / (W * I))]
  simp only [dcpLocalCountInt, dcpLocalCountFromGlobal, clamp, hrem]

/-- The parts of a partial unit that the first `k` ranks store. -/
theorem sum_clamp (hI : 0 < I) {x : ℤ} (hx : 0 ≤ x) (k : ℕ) :
    ∑ rank ∈ Finset.range k, clamp (x - rank * I) 0 I = min x (k * I) := by
  induction k with
  | zero => simp [hx]
  | succ k ih =>
    rw [Finset.sum_range_succ, ih]
    push_cast
    rw [add_mul, one_mul]
    generalize (k : ℤ) * I = m
    simp only [clamp]
    omega

/-- The counts of all ranks add up to the length. -/
theorem sum_localCount (w : ℕ) (hW : 0 < w) (hI : 0 < I) (n : ℤ) :
    ∑ rank ∈ Finset.range w, dcpLocalCountFromGlobal n w rank I = n := by
  have hunit : 0 < (w : ℤ) * I := mul_pos (by exact_mod_cast hW) hI
  have hmod := Int.mul_ediv_add_emod n (w * I)
  have hlt := Int.emod_lt_of_pos n hunit
  have hnn := Int.emod_nonneg n hunit.ne'
  have hrem : n - n / (w * I) * (w * I) = n % (w * I) := by
    linarith [mul_comm ((w : ℤ) * I) (n / (w * I))]
  simp only [dcpLocalCountFromGlobal, hrem]
  rw [Finset.sum_add_distrib, Finset.sum_const, Finset.card_range, sum_clamp hI hnn,
    min_eq_left hlt.le, nsmul_eq_mul]
  have hmul : (w : ℤ) * (n / (w * I) * I) = w * I * (n / (w * I)) := by ring
  rw [hmul, hmod]

/-- Global positions are positions. -/
theorem dcpLocalPosToGlobal_nonneg (hW : 0 ≤ W) (hI : 0 < I) {rank l : ℤ} (hr : 0 ≤ rank)
    (hl : 0 ≤ l) : 0 ≤ dcpLocalPosToGlobal l W rank I := by
  simp only [dcpLocalPosToGlobal, not_lt.mpr hl, if_false]
  have h1 : 0 ≤ l / I * (W * I) := mul_nonneg (Int.ediv_nonneg hl hI.le) (mul_nonneg hW hI.le)
  have h2 : 0 ≤ rank * I := mul_nonneg hr hI.le
  have h3 := Int.emod_nonneg l hI.ne'
  omega

/-- A local position is stored just when its global one belongs to the prefix. -/
theorem lt_localCount_iff (hI : 0 < I) {rank : ℤ} (hr : 0 ≤ rank) (hrW : rank < W) (n : ℤ)
    {l : ℤ} (hl : 0 ≤ l) :
    l < dcpLocalCountFromGlobal n W rank I ↔ dcpLocalPosToGlobal l W rank I < n := by
  have hunit : 0 < W * I := mul_pos (by omega) hI
  have hmod := Int.mul_ediv_add_emod n (W * I)
  have hlt := Int.emod_lt_of_pos n hunit
  have hnn := Int.emod_nonneg n hunit.ne'
  have hlmod := Int.mul_ediv_add_emod l I
  have holt := Int.emod_lt_of_pos l hI
  have honn := Int.emod_nonneg l hI.ne'
  simp only [dcpLocalCountFromGlobal, dcpLocalPosToGlobal, not_lt.mpr hl, if_false, clamp]
  rw [mul_comm (W * I)] at hmod
  rw [mul_comm I] at hlmod
  -- `n` is `full` rounds and `rem` positions, `l` is unit `u` and offset `o`
  generalize n / (W * I) = full at *
  generalize n % (W * I) = rem at *
  generalize l / I = u at *
  generalize l % I = o at *
  have hrank : rank * I + I ≤ W * I := by
    have h := mul_le_mul_of_nonneg_right (show rank + 1 ≤ W by omega) hI.le
    linarith [add_mul rank 1 I, one_mul I]
  have hrank0 : 0 ≤ rank * I := mul_nonneg hr hI.le
  rcases lt_trichotomy u full with hu | rfl | hu
  · -- a full unit before the end
    have h1 : u * I + I ≤ full * I := by
      have h := mul_le_mul_of_nonneg_right (show u + 1 ≤ full by omega) hI.le
      linarith [add_mul u 1 I, one_mul I]
    have h2 : u * (W * I) + W * I ≤ full * (W * I) := by
      have h := mul_le_mul_of_nonneg_right (show u + 1 ≤ full by omega) hunit.le
      linarith [add_mul u 1 (W * I), one_mul (W * I)]
    generalize u * I = a at *
    generalize u * (W * I) = b at *
    generalize full * I = c at *
    generalize full * (W * I) = d at *
    generalize rank * I = e at *
    omega
  · -- the partial unit
    generalize u * I = a at *
    generalize u * (W * I) = b at *
    generalize rank * I = e at *
    omega
  · -- behind the end
    have h1 : full * I + I ≤ u * I := by
      have h := mul_le_mul_of_nonneg_right (show full + 1 ≤ u by omega) hI.le
      linarith [add_mul full 1 I, one_mul I]
    have h2 : full * (W * I) + W * I ≤ u * (W * I) := by
      have h := mul_le_mul_of_nonneg_right (show full + 1 ≤ u by omega) hunit.le
      linarith [add_mul full 1 (W * I), one_mul (W * I)]
    generalize u * I = a at *
    generalize u * (W * I) = b at *
    generalize full * I = c at *
    generalize full * (W * I) = d at *
    generalize rank * I = e at *
    omega

/-- The layout names a rank. -/
theorem layoutRank_bounds (hW : 0 < W) (I p : ℤ) :
    0 ≤ layoutRank W I p ∧ layoutRank W I p < W :=
  ⟨Int.emod_nonneg _ hW.ne', Int.emod_lt_of_pos _ hW⟩

/-- A rank reads the positions that the layout stores on it, where it stores them. -/
theorem convertTok_eq (hW : 0 < W) (hI : 0 < I) {rank p : ℤ} (hp : 0 ≤ p) (hr : 0 ≤ rank)
    (hrW : rank < W) : convertTok W rank I p =
      if layoutRank W I p = rank then some (layoutPos W I p) else none := by
  have hdiv : p / I / W = p / (W * I) := by
    rw [Int.ediv_ediv_of_nonneg hI.le, mul_comm]
  simp only [convertTok, layoutRank, layoutPos, not_lt.mpr hp, if_false, ← hdiv, ne_eq,
    ite_not]
  split
  · rfl
  · -- a single rank
    obtain rfl : W = 1 := by omega
    obtain rfl : rank = 0 := by omega
    rw [if_pos (Int.emod_one _), Int.ediv_one]
    have h := Int.mul_ediv_add_emod p I
    rw [mul_comm] at h
    rw [h]

/-- The local position where the layout stores a position stands for it. -/
theorem dcpLocalPosToGlobal_layoutPos (hW : 0 < W) (hI : 0 < I) {p : ℤ} (hp : 0 ≤ p) :
    0 ≤ layoutPos W I p ∧
      dcpLocalPosToGlobal (layoutPos W I p) W (layoutRank W I p) I = p := by
  have hq : 0 ≤ p / (W * I) := Int.ediv_nonneg hp (mul_pos hW hI).le
  have ho := Int.emod_nonneg p hI.ne'
  have holt := Int.emod_lt_of_pos p hI
  have hpos : 0 ≤ layoutPos W I p := add_nonneg (mul_nonneg hq hI.le) ho
  have hdiv : layoutPos W I p / I = p / (W * I) := by
    rw [layoutPos, add_comm, Int.add_mul_ediv_right _ _ hI.ne',
      Int.ediv_eq_zero_of_lt ho holt, zero_add]
  have hmod : layoutPos W I p % I = p % I := by
    rw [layoutPos, add_comm, Int.add_mul_emod_self_right, Int.emod_emod_of_dvd _ dvd_rfl]
  refine ⟨hpos, ?_⟩
  simp only [dcpLocalPosToGlobal, not_lt.mpr hpos, if_false, hdiv, hmod, layoutRank]
  have h1 := Int.mul_ediv_add_emod p I
  have h2 := Int.mul_ediv_add_emod (p / I) W
  have h3 : p / I / W = p / (W * I) := by
    rw [Int.ediv_ediv_of_nonneg hI.le, mul_comm]
  rw [h3] at h2
  calc p / (W * I) * (W * I) + p / I % W * I + p % I
      = (W * (p / (W * I)) + p / I % W) * I + p % I := by ring
    _ = I * (p / I) + p % I := by rw [h2]; ring
    _ = p := h1

/-- A local position is stored where the layout says its global one is. -/
theorem layout_dcpLocalPosToGlobal (hW : 0 < W) (hI : 0 < I) {rank l : ℤ} (hr : 0 ≤ rank)
    (hrW : rank < W) (hl : 0 ≤ l) :
    layoutRank W I (dcpLocalPosToGlobal l W rank I) = rank ∧
      layoutPos W I (dcpLocalPosToGlobal l W rank I) = l := by
  have honn := Int.emod_nonneg l hI.ne'
  have holt := Int.emod_lt_of_pos l hI
  have hlmod := Int.mul_ediv_add_emod l I
  have heq : dcpLocalPosToGlobal l W rank I = l % I + (l / I * W + rank) * I := by
    simp only [dcpLocalPosToGlobal, not_lt.mpr hl, if_false]
    ring
  have hdiv : dcpLocalPosToGlobal l W rank I / I = l / I * W + rank := by
    rw [heq, Int.add_mul_ediv_right _ _ hI.ne', Int.ediv_eq_zero_of_lt honn holt, zero_add]
  have hmod : dcpLocalPosToGlobal l W rank I % I = l % I := by
    rw [heq, Int.add_mul_emod_self_right, Int.emod_emod_of_dvd _ dvd_rfl]
  constructor
  · rw [layoutRank, hdiv, add_comm, Int.add_mul_emod_self_right, Int.emod_eq_of_lt hr hrW]
  · rw [layoutPos, mul_comm W I, ← Int.ediv_ediv_of_nonneg hI.le, hdiv, hmod, add_comm (l / I * W),
      Int.add_mul_ediv_right _ _ hW.ne', Int.ediv_eq_zero_of_lt hr hrW, zero_add]
    linarith [mul_comm I (l / I)]

end Maps

end VllmMoet.Sparse
