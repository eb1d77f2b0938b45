import Mathlib.Algebra.Order.Ring.Int
import Mathlib.Tactic.SplitIfs

/-!
# Offsets of a kernel in 32-bit integers

A kernel's program and thread numbers are 32-bit integers, and so is what is computed from them
before it is added to a pointer: sums and products wrap. An integer argument, such as a stride, is
a 32-bit integer if it fits, and a 64-bit one otherwise; then the product with it is of 64 bits.

* `wrap32`: what 32-bit arithmetic makes of an integer.
* `strideMul`: an index times a stride. `strideMul_eq_iff`: it is the product exactly if that fits.
-/

namespace VllmMoet

/-- An integer as 32-bit arithmetic has it. -/
def wrap32 (x : ℤ) : ℤ :=
  (BitVec.ofInt 32 x).toInt

theorem wrap32_lt (x : ℤ) : wrap32 x < 2 ^ 31 :=
  BitVec.toInt_lt

theorem wrap32_of_lt {x : ℕ} (h : x < 2 ^ 31) : wrap32 x = x := by
  rw [wrap32, BitVec.toInt_ofInt]
  exact Int.bmod_eq_of_le (by omega) (by omega)

/-- A number wraps exactly if it does not fit. -/
theorem wrap32_eq_iff {x : ℕ} : wrap32 x = x ↔ x < 2 ^ 31 := by
  refine ⟨fun h => ?_, wrap32_of_lt⟩
  have := wrap32_lt x
  omega

/-- An index, a 32-bit integer, times a stride. -/
def strideMul (x : ℤ) (stride : ℕ) : ℤ :=
  if stride < 2 ^ 31 then wrap32 (x * stride) else x * stride

/-- The product with the stride fits the type that it is computed in. -/
def StrideFits (x stride : ℕ) : Prop :=
  stride < 2 ^ 31 → x * stride < 2 ^ 31

instance (x stride : ℕ) : Decidable (StrideFits x stride) :=
  inferInstanceAs (Decidable (_ → _))

theorem strideMul_eq_iff {x stride : ℕ} : strideMul x stride = x * stride ↔ StrideFits x stride := by
  rw [strideMul, StrideFits]
  split_ifs with h
  · simp only [h, true_imp_iff]
    exact wrap32_eq_iff (x := x * stride)
  · exact iff_of_true rfl fun h' => absurd h' h

theorem strideMul_lt {stride : ℕ} (x : ℤ) (h : stride < 2 ^ 31) : strideMul x stride < 2 ^ 31 := by
  rw [strideMul, if_pos h]
  exact wrap32_lt _

end VllmMoet
