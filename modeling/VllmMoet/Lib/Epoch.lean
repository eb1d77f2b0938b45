import Mathlib.Data.List.Count
import Mathlib.Data.Nat.Notation
import Mathlib.Logic.Function.Basic
import Mathlib.Tactic.Common

/-!
# Members that read each other between two barriers

The members of a group have a memory each. Between two barriers each makes a number of moves, in
which it changes its own memory and reads those of the others as they are at that moment. Where the
moves read of the others only what no move changes, the order of the moves of different members does
not matter (`moves_eq_alone`): each member ends as if it had moved alone.
-/

namespace VllmMoet

universe u v w

variable {ι : Type u} {M : Type v} {S : Type w} [DecidableEq ι]

section

variable (act : ℕ → ι → (ι → M) → M → M)

/-- The moves of the members in an order, from memories and numbers of moves made. -/
def moves : List ι → (ι → M) → (ι → ℕ) → (ι → M) × (ι → ℕ)
  | [], mem, made => (mem, made)
  | i :: l, mem, made =>
    moves l (Function.update mem i (act (made i) i mem (mem i)))
      (Function.update made i (made i + 1))

/-- The moves of one member while the others stand still. -/
def alone (i : ι) (view : ι → M) : ℕ → M → M
  | 0, m => m
  | k + 1, m => act k i view (alone i view k m)

end

variable (act : ℕ → ι → (ι → M) → M → M) (stable : M → S)

/-- What a member has done does not depend on the others. -/
theorem moves_eq_alone
    (hview : ∀ k i v v' m, (∀ j, stable (v j) = stable (v' j)) → act k i v m = act k i v' m)
    (hstable : ∀ k i v m, stable (act k i v m) = stable m) (l : List ι) {view mem : ι → M}
    {made : ι → ℕ} (hmem : ∀ i, mem i = alone act i view (made i) (view i)) (i : ι) :
    (moves act l mem made).1 i = alone act i view (made i + l.count i) (view i) := by
  -- moving alone keeps what the others read
  have hkeep (k : ℕ) (i : ι) : stable (alone act i view k (view i)) = stable (view i) := by
    induction k with
    | zero => rfl
    | succ k ih => rw [alone, hstable, ih]
  induction l generalizing mem made with
  | nil => exact hmem i
  | cons j l ih =>
    rw [moves, ih]
    · by_cases hij : i = j
      · subst hij
        rw [Function.update_self, List.count_cons_self, Nat.add_assoc, Nat.add_comm 1]
      · rw [Function.update_of_ne hij, List.count_cons_of_ne (Ne.symm hij)]
    · intro i'
      by_cases hij : i' = j
      · subst hij
        have hv : ∀ j, stable (mem j) = stable (view j) := fun j => by rw [hmem j, hkeep]
        rw [Function.update_self, Function.update_self, alone, hview _ _ _ _ _ hv, hmem i']
      · rw [Function.update_of_ne hij, Function.update_of_ne hij, hmem i']

end VllmMoet
