import Mathlib.Algebra.BigOperators.Group.Finset.Basic
import Mathlib.Algebra.BigOperators.Group.Finset.Piecewise
import Mathlib.Algebra.Order.BigOperators.Group.Finset
import Mathlib.Data.Fintype.Card

/-!
# How many threads are in a phase

A counter that threads raise on the way in and lower on the way out is the number of threads
inside, as long as each step of one thread moves the counter as it moves the thread.

* `tally`: how many threads satisfy a predicate;
* `tally_update`: what a step of one thread does to it.
-/

namespace VllmMoet

variable {ι σ : Type*} [Fintype ι]

/-- How many threads are in a state that satisfies `p`. -/
def tally (p : σ → Bool) (ws : ι → σ) : ℕ :=
  ∑ i, (p (ws i)).toNat

/-- Counting is pointwise. -/
theorem tally_congr {σ' : Type*} {p : σ → Bool} {q : σ' → Bool} {ws : ι → σ} {vs : ι → σ'}
    (h : ∀ i, p (ws i) = q (vs i)) : tally p ws = tally q vs :=
  Finset.sum_congr rfl fun i _ => by rw [h i]

/-- No thread satisfies a predicate whose count is zero. -/
theorem tally_eq_zero {p : σ → Bool} {ws : ι → σ} : tally p ws = 0 ↔ ∀ i, p (ws i) = false := by
  simp [tally, Finset.sum_eq_zero_iff]

/-- A thread that satisfies the predicate is counted. -/
theorem tally_pos {p : σ → Bool} {ws : ι → σ} {i : ι} (h : p (ws i) = true) : 0 < tally p ws := by
  refine Nat.pos_of_ne_zero fun h0 => ?_
  simp [tally_eq_zero.mp h0 i] at h

/-- Every thread is counted if all satisfy the predicate. -/
theorem tally_eq_card {p : σ → Bool} {ws : ι → σ} (h : ∀ i, p (ws i) = true) :
    tally p ws = Fintype.card ι := by
  simp [tally, h]

/-- And only then. -/
theorem tally_eq_card_iff {p : σ → Bool} {ws : ι → σ} :
    tally p ws = Fintype.card ι ↔ ∀ i, p (ws i) = true := by
  refine ⟨fun h => ?_, tally_eq_card⟩
  have hsum : tally p ws + tally (fun w => !p w) ws = Fintype.card ι := by
    rw [tally, tally, ← Finset.sum_add_distrib, Finset.sum_congr rfl fun i _ =>
      show (p (ws i)).toNat + (!p (ws i)).toNat = 1 by cases p (ws i) <;> rfl]
    simp
  intro i
  have hi := tally_eq_zero.mp (show tally (fun w => !p w) ws = 0 by omega) i
  simpa using hi

/-- A step of one thread moves the count as it moves that thread. -/
theorem tally_update [DecidableEq ι] (p : σ → Bool) (ws : ι → σ) (i : ι) (w : σ) :
    tally p (Function.update ws i w) + (p (ws i)).toNat = tally p ws + (p w).toNat := by
  have hrest : ∀ j ∈ Finset.univ.erase i,
      (p (Function.update ws i w j)).toNat = (p (ws j)).toNat := fun j hj => by
    rw [Function.update_of_ne (Finset.ne_of_mem_erase hj)]
  have h1 := Finset.sum_erase_add Finset.univ (fun j => (p (Function.update ws i w j)).toNat)
    (Finset.mem_univ i)
  have h2 := Finset.sum_erase_add Finset.univ (fun j => (p (ws j)).toNat) (Finset.mem_univ i)
  simp only [Function.update_self, Finset.sum_congr rfl hrest] at h1
  simp only [tally]
  omega

end VllmMoet
