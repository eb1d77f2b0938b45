import Mathlib.Data.List.Basic
import Mathlib.Data.Nat.Notation
import Mathlib.Logic.Basic

/-!
# Ragged rows in a flat array

Rows of different lengths stored one after the other: `offsets` says where each begins. A kernel has
one program for each row, which stores some columns of it (`storeRows`). Where no two programs store
to one place, what is read there is what its program stored (`storeRows_apply`), and a place that
none stores to is as it was (`storeRows_of_ne`).
-/

namespace VllmMoet

universe u

/-- Where the rows begin. -/
def offsets (len : ℕ → ℕ) : ℕ → ℕ
  | 0 => 0
  | r + 1 => offsets len r + len r

/-- The programs of a kernel, one after the other. -/
def storeRows {α : Type u} (n : ℕ) (start : ℕ → ℕ) (mask : ℕ → ℕ → Bool) (v : ℕ → ℕ → α)
    (buf : ℕ → α) : ℕ → α :=
  (List.range n).foldl
    (fun buf r x => if start r ≤ x ∧ mask r (x - start r) then v r (x - start r) else buf x) buf

section Offsets

variable {len : ℕ → ℕ} {r r' j j' : ℕ}

theorem offsets_const (q r : ℕ) : offsets (fun _ => q) r = r * q := by
  induction r with
  | zero => rw [Nat.zero_mul]; rfl
  | succ r ih => rw [offsets, ih, Nat.succ_mul]

theorem offsets_le (h : r ≤ r') : offsets len r ≤ offsets len r' := by
  induction h with
  | refl => exact Nat.le_refl _
  | step _ ih => exact Nat.le_trans ih (Nat.le_add_right _ _)

/-- A place is in one row only. -/
theorem offsets_inj (hj : j < len r) (hj' : j' < len r')
    (h : offsets len r + j = offsets len r' + j') : r = r' := by
  rcases Nat.lt_trichotomy r r' with hlt | heq | hlt
  · have hle : offsets len (r + 1) ≤ offsets len r' := offsets_le hlt
    rw [offsets] at hle
    omega
  · exact heq
  · have hle : offsets len (r' + 1) ≤ offsets len r := offsets_le hlt
    rw [offsets] at hle
    omega

end Offsets

section Store

variable {α : Type u} {n r j x : ℕ} {start : ℕ → ℕ} {mask : ℕ → ℕ → Bool} {v : ℕ → ℕ → α}
  {buf : ℕ → α}

theorem storeRows_succ (n : ℕ) (start : ℕ → ℕ) (mask : ℕ → ℕ → Bool) (v : ℕ → ℕ → α) (buf : ℕ → α)
    (x : ℕ) : storeRows (n + 1) start mask v buf x =
      if start n ≤ x ∧ mask n (x - start n) then v n (x - start n)
      else storeRows n start mask v buf x := by
  rw [storeRows, List.range_succ, List.foldl_append]
  rfl

/-- A place no program stores to. -/
theorem storeRows_of_ne (h : ∀ r < n, ∀ j, mask r j = true → start r + j ≠ x) :
    storeRows n start mask v buf x = buf x := by
  induction n with
  | zero => rfl
  | succ n ih =>
    have hnot : ¬ (start n ≤ x ∧ mask n (x - start n) = true) := fun hst =>
      h n (Nat.lt_succ_self n) _ hst.2 (Nat.add_sub_cancel' hst.1)
    rw [storeRows_succ, if_neg hnot]
    exact ih fun r hr => h r (Nat.lt_succ_of_lt hr)

/-- A place that one program stores to. -/
theorem storeRows_apply (hr : r < n) (hj : mask r j = true)
    (hdisj : ∀ r' < n, ∀ j', mask r' j' = true → start r' + j' = start r + j → r' = r) :
    storeRows n start mask v buf (start r + j) = v r j := by
  induction n with
  | zero => exact absurd hr (Nat.not_lt_zero r)
  | succ n ih =>
    rw [storeRows_succ]
    rcases Nat.lt_succ_iff_lt_or_eq.mp hr with hlt | rfl
    · have hnot : ¬ (start n ≤ start r + j ∧ mask n (start r + j - start n) = true) := by
        intro hst
        have heq := hdisj n (Nat.lt_succ_self n) _ hst.2 (Nat.add_sub_cancel' hst.1)
        exact Nat.ne_of_gt hlt heq
      rw [if_neg hnot]
      exact ih hlt fun r' hr' => hdisj r' (Nat.lt_succ_of_lt hr')
    · rw [Nat.add_sub_cancel_left, if_pos ⟨Nat.le_add_right _ _, hj⟩]

end Store

end VllmMoet
