import Mathlib.Algebra.BigOperators.Group.Finset.Basic
import Mathlib.Data.Nat.Bitwise
import Mathlib.Data.Nat.Notation
import Mathlib.Logic.Function.Basic

/-!
# Block reductions and concurrent stores

The threads of a block reduce a value with exchanges between the lanes of a warp whose numbers
differ in one bit (`xorReduce`): every lane ends with the sum over the warp
(`xorReduce_eq_sum`).

Stores that several threads make are a list in some order (`stores`). Where the ones that meet
agree, the order does not matter (`stores_of_mem`).
-/

namespace VllmMoet

universe u v

section Reduce

/-- Flipping a bit above a number adds it. -/
theorem xor_two_pow {k i : ℕ} (h : i < 2 ^ k) : i ^^^ 2 ^ k = 2 ^ k + i := by
  have hpos : 0 < 2 ^ k := Nat.two_pow_pos k
  have hdiv : (i ^^^ 2 ^ k) / 2 ^ k = 1 := by
    rw [Nat.xor_div_two_pow, Nat.div_eq_of_lt h, Nat.div_self hpos, Nat.zero_xor]
  have hmod : (i ^^^ 2 ^ k) % 2 ^ k = i := by
    rw [Nat.xor_mod_two_pow, Nat.mod_eq_of_lt h, Nat.mod_self, Nat.xor_zero]
  have := Nat.div_add_mod (i ^^^ 2 ^ k) (2 ^ k)
  rw [hdiv, hmod, Nat.mul_one] at this
  exact this.symm

variable {α : Type u} [AddCommMonoid α]

/-- `for (off = 2^(k-1); off > 0; off >>= 1) v += shfl_xor(v, off)`. -/
def xorReduce : ℕ → (ℕ → α) → ℕ → α
  | 0, v => v
  | k + 1, v => xorReduce k fun lane => v lane + v (lane ^^^ 2 ^ k)

theorem xorReduce_eq_sum_xor (k : ℕ) (v : ℕ → α) (lane : ℕ) :
    xorReduce k v lane = ∑ i ∈ Finset.range (2 ^ k), v (lane ^^^ i) := by
  induction k generalizing v with
  | zero => simp [xorReduce]
  | succ k ih =>
    have hhigh : ∀ i ∈ Finset.range (2 ^ k),
        v (lane ^^^ i ^^^ 2 ^ k) = v (lane ^^^ (2 ^ k + i)) := by
      intro i hi
      rw [Nat.xor_assoc, xor_two_pow (Finset.mem_range.mp hi)]
    rw [xorReduce, ih, Finset.sum_add_distrib, Finset.sum_congr rfl hhigh, pow_succ, Nat.mul_two,
      Finset.sum_range_add]

/-- Every lane of the warp ends with the sum over its lanes. -/
theorem xorReduce_eq_sum {k lane : ℕ} (v : ℕ → α) (h : lane < 2 ^ k) :
    xorReduce k v lane = ∑ i ∈ Finset.range (2 ^ k), v i := by
  rw [xorReduce_eq_sum_xor]
  have hlt : ∀ i ∈ Finset.range (2 ^ k), lane ^^^ i ∈ Finset.range (2 ^ k) := fun i hi =>
    Finset.mem_range.mpr (Nat.xor_lt_two_pow h (Finset.mem_range.mp hi))
  refine Finset.sum_nbij' (fun i => lane ^^^ i) (fun i => lane ^^^ i) hlt hlt ?_ ?_ ?_
  · intro i _
    exact Nat.xor_xor_cancel_left lane i
  · intro i _
    exact Nat.xor_xor_cancel_left lane i
  · intro i _
    rfl

/-- A sum by blocks of `m`. -/
theorem sum_blocks (m n : ℕ) (f : ℕ → α) :
    ∑ i ∈ Finset.range n, ∑ j ∈ Finset.range m, f (m * i + j) =
      ∑ q ∈ Finset.range (m * n), f q := by
  induction n with
  | zero => simp
  | succ n ih => rw [Finset.sum_range_succ, ih, Nat.mul_succ, Finset.sum_range_add]

end Reduce

/-! ### Stores -/

section Stores

variable {κ : Type u} {β : Type v} [DecidableEq κ]

/-- The stores of a list of places with values, one after the other. -/
def stores (l : List (κ × β)) (mem : κ → β) : κ → β :=
  l.foldl (fun m x => Function.update m x.1 x.2) mem

theorem stores_concat (l : List (κ × β)) (x : κ × β) (mem : κ → β) :
    stores (l ++ [x]) mem = Function.update (stores l mem) x.1 x.2 := by
  rw [stores, List.foldl_append]
  rfl

/-- A place to which one value only is stored has that value. -/
theorem stores_of_mem {l : List (κ × β)} {mem : κ → β} {k : κ} {b : β}
    (hmem : (k, b) ∈ l) (hval : ∀ x ∈ l, x.1 = k → x.2 = b) : stores l mem k = b := by
  induction l using List.reverseRecOn with
  | nil => simp at hmem
  | append_singleton l x ih =>
    rw [stores_concat]
    by_cases hx : x.1 = k
    · rw [← hx, Function.update_self]
      exact hval x (by simp) hx
    · rw [Function.update_of_ne (Ne.symm hx)]
      refine ih ?_ fun y hy => hval y (by simp [hy])
      rcases List.mem_append.mp hmem with h | h
      · exact h
      · exact absurd (congrArg Prod.fst (List.mem_singleton.mp h)).symm hx

/-- A place to which nothing is stored keeps its value. -/
theorem stores_of_notMem {l : List (κ × β)} {mem : κ → β} {k : κ} (h : ∀ x ∈ l, x.1 ≠ k) :
    stores l mem k = mem k := by
  induction l using List.reverseRecOn with
  | nil => rfl
  | append_singleton l x ih =>
    rw [stores_concat, Function.update_of_ne (h x (by simp)).symm]
    exact ih fun y hy => h y (by simp [hy])

end Stores

end VllmMoet
