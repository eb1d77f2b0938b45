import Mathlib.Algebra.BigOperators.Intervals
import Mathlib.Algebra.BigOperators.Ring.Finset
import Mathlib.Algebra.Order.BigOperators.Group.Finset
import Mathlib.Tactic.Common
import VllmMoet.Lib.WarpReduce

/-!
# Scans of a block

Prefix sums over the threads of a block, as GPU code computes them: in a warp each lane adds the
value of a lane below it, at a distance that doubles (`warpScan`); the warps' totals are scanned by
one warp in the same way (`blockScan`).

* `warpScan_eq_sum`: a lane ends with the sum of the lanes up to it;
* `blockScan_eq_sum`: a thread with the sum of the threads before it;
* `unpack_sum`: two counts that are summed in one word.
-/

namespace VllmMoet

universe u

variable {α : Type u} [AddCommMonoid α]

/-- `y = shfl_up(x, o); if (lane >= o) x += y`. -/
def shflUpAdd (o : ℕ) (x : ℕ → α) (lane : ℕ) : α :=
  if o ≤ lane then x lane + x (lane - o) else x lane

/-- `for (o = 1; o < 2^k; o <<= 1)`. -/
def scanRounds : ℕ → (ℕ → α) → ℕ → α
  | 0, x => x
  | k + 1, x => shflUpAdd (2 ^ k) (scanRounds k x)

/-- After `k` rounds a lane has the sum of the last `2 ^ k` lanes up to it. -/
theorem scanRounds_eq_sum (k : ℕ) (x : ℕ → α) (lane : ℕ) :
    scanRounds k x lane = ∑ i ∈ Finset.Ico (lane + 1 - 2 ^ k) (lane + 1), x i := by
  induction k generalizing lane with
  | zero => simp [scanRounds]
  | succ k ih =>
    have hpos : 0 < 2 ^ k := Nat.two_pow_pos k
    rw [scanRounds, shflUpAdd, pow_succ, Nat.mul_two]
    split_ifs with h
    · -- the older half ends where the newer one begins
      have hmid : lane - 2 ^ k + 1 = lane + 1 - 2 ^ k := by omega
      have hlow : lane - 2 ^ k + 1 - 2 ^ k = lane + 1 - (2 ^ k + 2 ^ k) := by omega
      rw [ih, ih, add_comm, hlow, hmid]
      exact Finset.sum_Ico_consecutive x (by omega) (by omega)
    · have hzero : lane + 1 - 2 ^ k = 0 := by omega
      have hzero' : lane + 1 - (2 ^ k + 2 ^ k) = 0 := by omega
      rw [ih, hzero, hzero']

/-- `warp_inclusive_scan`. -/
def warpScan (x : ℕ → α) : ℕ → α := scanRounds 5 x

/-- A lane ends with the sum of the lanes up to it. -/
theorem warpScan_eq_sum (x : ℕ → α) {lane : ℕ} (h : lane < 32) :
    warpScan x lane = ∑ i ∈ Finset.range (lane + 1), x i := by
  have hzero : lane + 1 - 2 ^ 5 = 0 := by omega
  rw [warpScan, scanRounds_eq_sum, hzero, Finset.range_eq_Ico]

/-- `x - v` of a scan: the lanes below. -/
theorem warpScan_sub (x : ℕ → ℕ) {lane : ℕ} (h : lane < 32) :
    warpScan x lane - x lane = ∑ i ∈ Finset.range lane, x i := by
  rw [warpScan_eq_sum x h, Finset.sum_range_succ, Nat.add_sub_cancel]

section Block

variable (W : ℕ) (v : ℕ → ℕ)

/-- The totals of the `W` warps of a block, and zeros. -/
def warpTotals (warp : ℕ) : ℕ :=
  if warp < W then warpScan (fun lane => v (warp * 32 + lane)) 31 else 0

/-- `block_exclusive_scan`. -/
def blockScan (t : ℕ) : ℕ :=
  (warpScan (warpTotals W v) (t / 32) - warpTotals W v (t / 32)) +
    warpScan (fun lane => v (t / 32 * 32 + lane)) (t % 32) - v t

variable {W v}

theorem warpTotals_eq_sum {warp : ℕ} (h : warp < W) :
    warpTotals W v warp = ∑ i ∈ Finset.range 32, v (32 * warp + i) := by
  rw [warpTotals, if_pos h, warpScan_eq_sum _ (by omega), Nat.mul_comm]

/-- The warps up to one have the sum of their threads. -/
theorem warpScan_warpTotals (hW : W ≤ 32) {warp : ℕ} (h : warp < W) :
    warpScan (warpTotals W v) warp = ∑ i ∈ Finset.range (32 * (warp + 1)), v i := by
  rw [warpScan_eq_sum _ (by omega), ← sum_blocks]
  exact Finset.sum_congr rfl fun w hw =>
    warpTotals_eq_sum (by have := Finset.mem_range.mp hw; omega)

/-- A thread ends with the sum of the threads before it. -/
theorem blockScan_eq_sum (hW : W ≤ 32) {t : ℕ} (ht : t < 32 * W) :
    blockScan W v t = ∑ i ∈ Finset.range t, v i := by
  have hwarp : t / 32 < W := by omega
  have hsplit : 32 * (t / 32 + 1) = 32 * (t / 32) + 32 := by omega
  have hlane : 32 * (t / 32) + t % 32 = t := Nat.div_add_mod t 32
  have hlanes : ∑ i ∈ Finset.range (32 * (t / 32)), v i +
      ∑ i ∈ Finset.range (t % 32 + 1), v (32 * (t / 32) + i) =
        ∑ i ∈ Finset.range t, v i + v t := by
    rw [← Finset.sum_range_add, ← add_assoc, hlane, Finset.sum_range_succ]
  rw [blockScan, warpScan_warpTotals hW hwarp, warpTotals_eq_sum hwarp, hsplit,
    Finset.sum_range_add, Nat.add_sub_cancel, warpScan_eq_sum _ (Nat.mod_lt t (by decide)),
    Nat.mul_comm (t / 32), hlanes, Nat.add_sub_cancel]

end Block

/-! ### Packed counters -/

/-- `(f << 16) | g`. -/
def pack16 (f g : ℕ) : ℕ := (f <<< 16) ||| g

theorem pack16_eq (f : ℕ) {g : ℕ} (h : g < 65536) : pack16 f g = 65536 * f + g := by
  rw [pack16, ← Nat.shiftLeft_add_eq_or_of_lt h, Nat.shiftLeft_eq, Nat.mul_comm]

/-- Two counts that are summed as one word, as long as the lower one does not run over. -/
theorem unpack_sum (f g : ℕ → ℕ) {m : ℕ} (h : ∑ i ∈ Finset.range m, g i < 65536) :
    (∑ i ∈ Finset.range m, pack16 (f i) (g i)) >>> 16 = ∑ i ∈ Finset.range m, f i ∧
      (∑ i ∈ Finset.range m, pack16 (f i) (g i)) % 65536 = ∑ i ∈ Finset.range m, g i := by
  have hone : ∀ i ∈ Finset.range m, pack16 (f i) (g i) = 65536 * f i + g i := fun i hi =>
    pack16_eq _ ((Finset.single_le_sum (fun j _ => Nat.zero_le (g j)) hi).trans_lt h)
  rw [Finset.sum_congr rfl hone, Finset.sum_add_distrib, ← Finset.mul_sum,
    Nat.shiftRight_eq_div_pow]
  exact ⟨by rw [Nat.mul_add_div (by omega), Nat.div_eq_of_lt h, Nat.add_zero],
    by rw [Nat.mul_add_mod, Nat.mod_eq_of_lt h]⟩

end VllmMoet
