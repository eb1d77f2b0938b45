import Mathlib.Algebra.BigOperators.Group.Finset.Basic
import Mathlib.Algebra.Order.Ring.Abs
import Mathlib.Algebra.Order.Ring.Int
import Mathlib.Tactic.Abel
import Mathlib.Tactic.Common
import Mathlib.Tactic.IntervalCases
import Mathlib.Tactic.Ring

/-!
# The lanes of a 512-bit register

A register is a function of the lane's number: 16 lanes of 32 bits, or 32 of 16. The shuffles of
AVX-512 move lanes of any type.

* `unpackLo32`, `unpackHi32`, `unpackLo64`, `unpackHi64`, `shuffle32x4`: the shuffles;
* `permutexvar16`, `maskSrli16`, `dpwssd`: a table look-up, a masked shift and a dot product of
  pairs, on lanes of 16 bits;
* `pairSums`, `quadSums`, `halfSums`, `transposeSum`: a network of shuffles and additions that sums
  the lanes of 16 registers at once. `transposeSum_eq_sum`: lane `b` is the sum of register `b`.
* `reduce4`: the same for four registers (`reduce4_eq_sum`);
* `map_transposeSum` and the bounds `abs_transposeSum_le`: additions that wrap do so nowhere in the
  network if the lanes are small.
-/

namespace VllmMoet

namespace Lanes

variable {α β : Type*}

/-! ### Shuffles -/

/-- In each quarter, the two low lanes of `a` and of `b` in turn. -/
def unpackLo32 (a b : ℕ → α) (l : ℕ) : α := (if l % 2 = 0 then a else b) (l / 4 * 4 + l % 4 / 2)

/-- In each quarter, the two high lanes of `a` and of `b` in turn. -/
def unpackHi32 (a b : ℕ → α) (l : ℕ) : α :=
  (if l % 2 = 0 then a else b) (l / 4 * 4 + l % 4 / 2 + 2)

/-- In each quarter, the two low lanes of `a`, then those of `b`. -/
def unpackLo64 (a b : ℕ → α) (l : ℕ) : α := (if l % 4 < 2 then a else b) (l / 4 * 4 + l % 2)

/-- In each quarter, the two high lanes of `a`, then those of `b`. -/
def unpackHi64 (a b : ℕ → α) (l : ℕ) : α := (if l % 4 < 2 then a else b) (l / 4 * 4 + l % 2 + 2)

/-- Two quarters of `a` and two of `b`, each chosen by two bits of `imm`. -/
def shuffle32x4 (a b : ℕ → α) (imm l : ℕ) : α :=
  (if l < 8 then a else b) ((imm >>> (2 * (l / 4))) % 4 * 4 + l % 4)

/-- A quarter of a shuffle is the quarter that `imm` names, of the register of its half. -/
theorem shuffle32x4_eq (a : ℕ → ℕ → α) (imm : ℕ) {h w j : ℕ} (hh : h < 2) (hw : w < 2)
    (hj : j < 4) : shuffle32x4 (a 0) (a 1) imm (4 * (2 * h + w) + j) =
      a h (4 * ((imm >>> (2 * (2 * h + w))) % 4) + j) := by
  have hdiv : (4 * (2 * h + w) + j) / 4 = 2 * h + w := by omega
  have hmod : (4 * (2 * h + w) + j) % 4 = j := by omega
  simp only [shuffle32x4, hdiv, hmod, Nat.mul_comm _ 4]
  split_ifs with h8
  · obtain rfl : h = 0 := by omega
    rfl
  · obtain rfl : h = 1 := by omega
    rfl

/-! ### Lanes of 16 bits -/

/-- Zero-extended bytes. -/
def cvtepu8 (p : ℕ → UInt8) (j : ℕ) : BitVec 16 := (p j).toBitVec.setWidth 16

/-- Each lane is the lane of `a` that `idx` names. -/
def permutexvar16 (idx a : ℕ → BitVec 16) (j : ℕ) : BitVec 16 := a ((idx j).toNat % 32)

/-- A shift of the lanes of a mask. -/
def maskSrli16 (mask : ℕ) (a : ℕ → BitVec 16) (k j : ℕ) : BitVec 16 :=
  if mask.testBit j then a j >>> k else a j

/-- Each lane of `s` with the products of a pair of signed lanes added. -/
def dpwssd (s : ℕ → BitVec 32) (a b : ℕ → BitVec 16) (j : ℕ) : BitVec 32 :=
  s j + ((a (2 * j)).signExtend 32 * (b (2 * j)).signExtend 32 +
    (a (2 * j + 1)).signExtend 32 * (b (2 * j + 1)).signExtend 32)

/-- The sum of a pair of products. -/
def pairDot (a b : ℕ → ℤ) (j : ℕ) : ℤ := a (2 * j) * b (2 * j) + a (2 * j + 1) * b (2 * j + 1)

/-- Up to wrapping, a lane is the sum of the pair of products. -/
theorem dpwssd_eq (a b : ℕ → BitVec 16) (j : ℕ) : dpwssd (fun _ => 0#32) a b j =
    BitVec.ofInt 32 (pairDot (fun i => (a i).toInt) (fun i => (b i).toInt) j) := by
  simp only [dpwssd, pairDot, BitVec.ofInt_add, BitVec.ofInt_mul, BitVec.zero_add]
  rfl

/-- The pairs make up the sum. -/
theorem sum_pairDot (a b : ℕ → ℤ) (n : ℕ) :
    ∑ j ∈ Finset.range n, pairDot a b j = ∑ i ∈ Finset.range (2 * n), a i * b i := by
  induction n with
  | zero => rfl
  | succ n ih =>
    rw [Finset.sum_range_succ, ih, Nat.mul_succ, Finset.sum_range_succ, Finset.sum_range_succ,
      pairDot, add_assoc]

/-- Its size. -/
theorem abs_pairDot_le {a b : ℕ → ℤ} {A B : ℤ} (ha : ∀ i, |a i| ≤ A) (hb : ∀ i, |b i| ≤ B)
    (j : ℕ) : |pairDot a b j| ≤ 2 * (A * B) := by
  have hA : 0 ≤ A := (abs_nonneg _).trans (ha 0)
  have hmul (i : ℕ) : |a i * b i| ≤ A * B := by
    rw [abs_mul]
    exact mul_le_mul (ha i) (hb i) (abs_nonneg _) hA
  calc |pairDot a b j| ≤ |a (2 * j) * b (2 * j)| + |a (2 * j + 1) * b (2 * j + 1)| :=
      abs_add_le _ _
    _ ≤ A * B + A * B := add_le_add (hmul _) (hmul _)
    _ = 2 * (A * B) := (two_mul _).symm

/-- A sum that fits in 32 bits has not wrapped. -/
theorem toInt_ofInt_of_abs {z B : ℤ} (hz : |z| ≤ B) (hB : B < 2147483648) :
    (BitVec.ofInt 32 z).toInt = z := by
  obtain ⟨hlow, hhigh⟩ := abs_le.mp hz
  refine BitVec.toInt_ofInt_eq_self (by omega) ?_ ?_ <;> simp <;> omega

/-! ### The network -/

section Network

variable [Add α] [Add β]

/-- The sums of pairs of lanes, of two registers in turn. -/
def pairSums (v : ℕ → ℕ → α) (i l : ℕ) : α :=
  unpackLo32 (v (2 * i)) (v (2 * i + 1)) l + unpackHi32 (v (2 * i)) (v (2 * i + 1)) l

/-- The sums of the quarters, of four registers in turn. -/
def quadSums (v : ℕ → ℕ → α) (i l : ℕ) : α :=
  unpackLo64 (pairSums v (2 * i)) (pairSums v (2 * i + 1)) l +
    unpackHi64 (pairSums v (2 * i)) (pairSums v (2 * i + 1)) l

/-- The sums of every other quarter, of eight registers. -/
def halfSums (v : ℕ → ℕ → α) (k l : ℕ) : α :=
  shuffle32x4 (quadSums v (2 * k)) (quadSums v (2 * k + 1)) 0x44 l +
    shuffle32x4 (quadSums v (2 * k)) (quadSums v (2 * k + 1)) 0xEE l

/-- The sums of 16 registers. -/
def transposeSum (v : ℕ → ℕ → α) (l : ℕ) : α :=
  shuffle32x4 (halfSums v 0) (halfSums v 1) 0x88 l +
    shuffle32x4 (halfSums v 0) (halfSums v 1) 0xDD l

/-- The sums of four registers, in the low quarter: the halves are added, then the quarters. -/
def reduce4 (v : ℕ → ℕ → α) (l : ℕ) : α :=
  (quadSums v 0 l + quadSums v 0 (l + 8)) + (quadSums v 0 (l + 4) + quadSums v 0 (l + 12))

theorem mod_four_lt (i : ℕ) : i % 4 < 4 := Nat.mod_lt i (by decide)

/-- Lane `i` of the four sums. -/
def lane4 (i : ℕ) : Fin 4 := ⟨i % 4, mod_four_lt i⟩

@[simp]
theorem lane4_val (r : Fin 4) : lane4 r = r := Fin.ext (Nat.mod_eq_of_lt r.isLt)

theorem val_lane4 {i : ℕ} (h : i < 4) : (lane4 i : ℕ) = i := Nat.mod_eq_of_lt h

/-! An additive map of the lanes goes through the network. -/

variable {f : α → β} {v : ℕ → ℕ → α}

theorem map_pairSums (hf : ∀ x y, f (x + y) = f x + f y) (i l : ℕ) :
    pairSums (fun b l => f (v b l)) i l = f (pairSums v i l) := by
  simp only [pairSums, unpackLo32, unpackHi32, hf]
  split_ifs <;> rfl

theorem map_quadSums (hf : ∀ x y, f (x + y) = f x + f y) (i l : ℕ) :
    quadSums (fun b l => f (v b l)) i l = f (quadSums v i l) := by
  simp only [quadSums, unpackLo64, unpackHi64, hf]
  split_ifs <;> rw [map_pairSums hf, map_pairSums hf]

theorem map_halfSums (hf : ∀ x y, f (x + y) = f x + f y) (k l : ℕ) :
    halfSums (fun b l => f (v b l)) k l = f (halfSums v k l) := by
  simp only [halfSums, shuffle32x4, hf]
  split_ifs <;> rw [map_quadSums hf, map_quadSums hf]

theorem map_transposeSum (hf : ∀ x y, f (x + y) = f x + f y) (l : ℕ) :
    transposeSum (fun b l => f (v b l)) l = f (transposeSum v l) := by
  simp only [transposeSum, shuffle32x4, hf]
  split_ifs <;> rw [map_halfSums hf, map_halfSums hf]

theorem map_reduce4 (hf : ∀ x y, f (x + y) = f x + f y) (l : ℕ) :
    reduce4 (fun b l => f (v b l)) l = f (reduce4 v l) := by
  simp only [reduce4, map_quadSums hf, hf]

end Network

/-! ### What the network sums -/

section Sum

variable [AddCommMonoid α] (v : ℕ → ℕ → α)

/-- Lanes `2 * k` and `2 * k + 1` of a quarter: lanes `k` and `k + 2` of the two registers. -/
theorem pairSums_eq (i q : ℕ) {k s : ℕ} (hk : k < 2) (hs : s < 2) :
    pairSums v i (4 * q + (2 * k + s)) =
      v (2 * i + s) (4 * q + k) + v (2 * i + s) (4 * q + k + 2) := by
  have hdiv : (4 * q + (2 * k + s)) / 4 = q := by omega
  have hmod : (4 * q + (2 * k + s)) % 4 / 2 = k := by omega
  have hpar : (4 * q + (2 * k + s)) % 2 = s := by omega
  simp only [pairSums, unpackLo32, unpackHi32, hdiv, hmod, hpar, Nat.mul_comm q 4]
  split_ifs with h
  · rw [h]; rfl
  · obtain rfl : s = 1 := by omega
    rfl

/-- Lane `j` of a quarter: the quarter of register `j`. -/
theorem quadSums_eq (i q : ℕ) {j : ℕ} (hj : j < 4) :
    quadSums v i (4 * q + j) = ∑ d ∈ Finset.range 4, v (4 * i + j) (4 * q + d) := by
  obtain ⟨k, s, hk, hs, rfl⟩ : ∃ k s, k < 2 ∧ s < 2 ∧ j = 2 * k + s :=
    ⟨j / 2, j % 2, by omega, by omega, by omega⟩
  have hdiv : (4 * q + (2 * k + s)) / 4 = q := by omega
  have hmod : (4 * q + (2 * k + s)) % 4 = 2 * k + s := by omega
  have hpar : (4 * q + (2 * k + s)) % 2 = s := by omega
  have hreg : 2 * (2 * i + k) + s = 4 * i + (2 * k + s) := by omega
  have hlow := pairSums_eq v (2 * i + k) q (k := 0) Nat.two_pos hs
  have hhigh := pairSums_eq v (2 * i + k) q (k := 1) Nat.one_lt_two hs
  rw [hreg] at hlow hhigh
  have hsel : (if 2 * k + s < 2 then pairSums v (2 * i) else pairSums v (2 * i + 1)) =
      pairSums v (2 * i + k) := by
    split_ifs with h
    · obtain rfl : k = 0 := by omega
      rfl
    · obtain rfl : k = 1 := by omega
      rfl
  have hlane : q * 4 + s + 2 = 4 * q + (2 * 1 + s) := by omega
  have hlane' : q * 4 + s = 4 * q + (2 * 0 + s) := by omega
  simp only [quadSums, unpackLo64, unpackHi64, hdiv, hmod, hpar, hsel]
  rw [hlane, hlane', hlow, hhigh]
  simp only [Finset.sum_range_succ, Finset.sum_range_zero, zero_add]
  abel

/-- Quarter `2 * h + w`: quarters `w` and `w + 2` of four registers. -/
theorem halfSums_eq (k : ℕ) {h w j : ℕ} (hh : h < 2) (hw : w < 2) (hj : j < 4) :
    halfSums v k (4 * (2 * h + w) + j) =
      quadSums v (2 * k + h) (4 * w + j) + quadSums v (2 * k + h) (4 * (w + 2) + j) := by
  have hlow : (0x44 >>> (2 * (2 * h + w))) % 4 = w := by
    interval_cases h <;> interval_cases w <;> rfl
  have hhigh : (0xEE >>> (2 * (2 * h + w))) % 4 = w + 2 := by
    interval_cases h <;> interval_cases w <;> rfl
  have hsel := shuffle32x4_eq (fun h => quadSums v (2 * k + h)) 0x44 hh hw hj
  have hsel' := shuffle32x4_eq (fun h => quadSums v (2 * k + h)) 0xEE hh hw hj
  rw [hlow] at hsel
  rw [hhigh] at hsel'
  exact congrArg₂ (· + ·) hsel hsel'

/-- Lane `b` is the sum of register `b`. -/
theorem transposeSum_eq_sum {b : ℕ} (hb : b < 16) :
    transposeSum v b = ∑ l ∈ Finset.range 16, v b l := by
  obtain ⟨k, h, j, hk, hh, hj, rfl⟩ :
      ∃ k h j, k < 2 ∧ h < 2 ∧ j < 4 ∧ b = 4 * (2 * k + h) + j :=
    ⟨b / 8, b / 4 % 2, b % 4, by omega, by omega, by omega, by omega⟩
  have hlow : (0x88 >>> (2 * (2 * k + h))) % 4 = 2 * h + 0 := by
    interval_cases k <;> interval_cases h <;> rfl
  have hhigh : (0xDD >>> (2 * (2 * k + h))) % 4 = 2 * h + 1 := by
    interval_cases k <;> interval_cases h <;> rfl
  have hsel := shuffle32x4_eq (halfSums v) 0x88 hk hh hj
  have hsel' := shuffle32x4_eq (halfSums v) 0xDD hk hh hj
  rw [hlow, halfSums_eq v k hh Nat.two_pos hj] at hsel
  rw [hhigh, halfSums_eq v k hh Nat.one_lt_two hj] at hsel'
  rw [transposeSum, hsel, hsel']
  simp only [quadSums_eq v (2 * k + h) _ hj, Finset.sum_range_succ, Finset.sum_range_zero, zero_add]
  abel

/-- So is lane `b` of the reduction of four registers. -/
theorem reduce4_eq_sum {b : ℕ} (hb : b < 4) : reduce4 v b = ∑ l ∈ Finset.range 16, v b l := by
  have h (q : ℕ) : quadSums v 0 (b + 4 * q) = ∑ d ∈ Finset.range 4, v b (4 * q + d) := by
    have hq := quadSums_eq v 0 q hb
    rwa [Nat.mul_zero, Nat.zero_add, Nat.add_comm] at hq
  have h0 := h 0
  have h1 := h 1
  have h2 := h 2
  have h3 := h 3
  simp only [Nat.mul_zero, Nat.add_zero, Nat.mul_one, Nat.reduceMul] at h0 h1 h2 h3
  rw [reduce4, h0, h1, h2, h3]
  simp only [Finset.sum_range_succ, Finset.sum_range_zero, zero_add]
  abel

end Sum

/-! ### How large the lanes get -/

section Bounds

variable {v : ℕ → ℕ → ℤ} {D : ℤ} (hv : ∀ b l, |v b l| ≤ D)

include hv

theorem abs_pairSums_le (i l : ℕ) : |pairSums v i l| ≤ 2 * D := by
  refine (abs_add_le _ _).trans ((add_le_add ?_ ?_).trans_eq (two_mul D).symm)
  all_goals
    simp only [unpackLo32, unpackHi32]
    split_ifs <;> exact hv _ _

theorem abs_quadSums_le (i l : ℕ) : |quadSums v i l| ≤ 4 * D := by
  have h2 : 2 * D + 2 * D = 4 * D := by ring
  refine (abs_add_le _ _).trans ((add_le_add ?_ ?_).trans_eq h2)
  all_goals
    simp only [unpackLo64, unpackHi64]
    split_ifs <;> exact abs_pairSums_le hv _ _

theorem abs_halfSums_le (k l : ℕ) : |halfSums v k l| ≤ 8 * D := by
  have h4 : 4 * D + 4 * D = 8 * D := by ring
  refine (abs_add_le _ _).trans ((add_le_add ?_ ?_).trans_eq h4)
  all_goals
    simp only [shuffle32x4]
    split_ifs <;> exact abs_quadSums_le hv _ _

theorem abs_transposeSum_le (l : ℕ) : |transposeSum v l| ≤ 16 * D := by
  have h8 : 8 * D + 8 * D = 16 * D := by ring
  refine (abs_add_le _ _).trans ((add_le_add ?_ ?_).trans_eq h8)
  all_goals
    simp only [shuffle32x4]
    split_ifs <;> exact abs_halfSums_le hv _ _

end Bounds

end Lanes

end VllmMoet
