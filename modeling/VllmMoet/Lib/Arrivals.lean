import Mathlib.Data.Finset.Card
import Mathlib.Order.Interval.Finset.Nat

/-!
# Counting arrivals

A counter that `n` parties increment once each, on arrival. `arrivals n arr` is its value
when the parties that have arrived are those with `arr`. The party that finds `n - 1` is the
last one: everybody else has arrived before it.
-/

namespace VllmMoet

variable {n i : ℕ} {arr arr' : ℕ → Bool}

/-- How many of the first `n` parties have arrived. -/
def arrivals (n : ℕ) (arr : ℕ → Bool) : ℕ := ((Finset.range n).filter fun i => arr i = true).card

theorem arrivals_le (n : ℕ) (arr : ℕ → Bool) : arrivals n arr ≤ n :=
  (Finset.card_filter_le _ _).trans (Finset.card_range n).le

theorem arrivals_eq_zero (h : ∀ i < n, arr i = false) : arrivals n arr = 0 := by
  refine Finset.card_eq_zero.mpr (Finset.filter_eq_empty_iff.mpr fun i hi => ?_)
  rw [h i (Finset.mem_range.mp hi)]
  exact Bool.false_ne_true

/-- The counter is full exactly when everybody has arrived. -/
theorem arrivals_eq_iff : arrivals n arr = n ↔ ∀ i < n, arr i = true := by
  constructor
  · intro h i hi
    have hcard : ((Finset.range n).filter fun i => arr i = true).card = (Finset.range n).card :=
      h.trans (Finset.card_range n).symm
    exact Finset.card_filter_eq_iff.mp hcard i (Finset.mem_range.mpr hi)
  · intro h
    rw [arrivals, Finset.filter_true_of_mem fun i hi => h i (Finset.mem_range.mp hi),
      Finset.card_range]

/-- One more party arrives. -/
theorem arrivals_succ (hi : i < n) (h : arr i = false) (h' : arr' i = true)
    (hother : ∀ j < n, j ≠ i → arr' j = arr j) : arrivals n arr' = arrivals n arr + 1 := by
  have hset : (Finset.range n).filter (fun j => arr' j = true) =
      insert i ((Finset.range n).filter fun j => arr j = true) := by
    ext j
    simp only [Finset.mem_insert, Finset.mem_filter, Finset.mem_range]
    rcases eq_or_ne j i with rfl | hne
    · simp [hi, h']
    · simp only [hne, false_or]
      exact and_congr_right fun hj => by rw [hother j hj hne]
  rw [arrivals, hset, Finset.card_insert_of_notMem (by simp [h]), arrivals]

/-- Who finds all the others counted is the last to arrive. -/
theorem arrived_of_last (hi : i < n) (h : arr i = false) (hlast : arrivals n arr = n - 1) :
    ∀ j < n, j ≠ i → arr j = true := by
  intro j hj hne
  have hsucc : arrivals n (Function.update arr i true) = arrivals n arr + 1 :=
    arrivals_succ hi h (by simp) fun j _ hne => by simp [hne]
  have hall := arrivals_eq_iff.mp (show arrivals n (Function.update arr i true) = n by omega) j hj
  simpa [hne] using hall

end VllmMoet
