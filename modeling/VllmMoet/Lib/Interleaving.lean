import Mathlib.Algebra.BigOperators.Group.Finset.Basic
import Mathlib.Data.List.Nodup
import Mathlib.Data.List.Perm.Basic
import Mathlib.Data.Nat.Count
import Mathlib.Data.Nat.Notation
import Mathlib.Logic.Function.Basic
import Mathlib.Tactic.Common

/-!
# Operations in any order

The operations that the threads of a block make between two barriers take effect in some order
(`Interleaving`). Where they are counted, it does not matter: a list that visits every number below
`n` once counts what `Nat.count` does (`countP_eq_count`). Nor does it where they are additions to
counters (`foldl_addTo`, `total_perm`).
-/

namespace VllmMoet

universe u v

/-- An order in which the operations of a phase take effect. -/
structure Interleaving (α : Type u) where
  run : List α → List α
  perm : ∀ l, (run l).Perm l

/-- One thread after the other. -/
def Interleaving.inOrder (α : Type u) : Interleaving α := ⟨id, fun _ => List.Perm.rfl⟩

variable {α : Type u} {β : Type v}

@[simp]
theorem Interleaving.mem_run (il : Interleaving α) {l : List α} {x : α} :
    x ∈ il.run l ↔ x ∈ l := (il.perm l).mem_iff

/-- Lists that are told apart by a tag of their members. -/
theorem nodup_flatMap_of_tag {l : List α} {f : α → List β} (tag : β → α) (hl : l.Nodup)
    (hf : ∀ x ∈ l, (f x).Nodup) (htag : ∀ x ∈ l, ∀ y ∈ f x, tag y = x) :
    (l.flatMap f).Nodup := by
  refine List.nodup_flatMap.mpr ⟨hf, ?_⟩
  refine hl.imp_of_mem fun hx hy hne => ?_
  intro z hzx hzy
  exact hne ((htag _ hx z hzx).symm.trans (htag _ hy z hzy))

/-- What a list that visits every number below `n` once counts. -/
theorem countP_eq_count {l : List ℕ} {n : ℕ} {P : ℕ → Bool} (hl : l.Nodup)
    (hmem : ∀ c < n, c ∈ l) (hP : ∀ c ∈ l, P c = true → c < n) :
    l.countP P = Nat.count (P ·) n := by
  rw [Nat.count_eq_card_filter_range, List.countP_eq_length_filter,
    ← List.toFinset_card_of_nodup (hl.filter _)]
  congr 1
  ext c
  rw [List.mem_toFinset, List.mem_filter, Finset.mem_filter, Finset.mem_range]
  exact ⟨fun h => ⟨hP c h.1 h.2, h.2⟩, fun h => ⟨hmem c h.1, h.2⟩⟩

/-- Counting in a list of lists that each have one member to count, or none. -/
theorem countP_flatMap_eq {l : List α} {f : α → List β} {P : β → Bool} {Q : α → Bool}
    (h : ∀ x ∈ l, (f x).countP P = if Q x then 1 else 0) : (l.flatMap f).countP P = l.countP Q := by
  induction l with
  | nil => rfl
  | cons x l ih =>
    rw [List.flatMap_cons, List.countP_append, List.countP_cons, h x (by simp),
      ih fun y hy => h y (by simp [hy]), Nat.add_comm]

/-! ### Additions in any order -/

section Additions

variable {κ : Type u} [DecidableEq κ]

/-- `atomicAdd`, to a counter of several. -/
def addTo (s : κ → ℕ) (x : κ × ℕ) : κ → ℕ := Function.update s x.1 (s x.1 + x.2)

/-- What is added to a counter. -/
def total (p : κ) : List (κ × ℕ) → ℕ
  | [] => 0
  | x :: l => (if x.1 = p then x.2 else 0) + total p l

theorem foldl_addTo (l : List (κ × ℕ)) (s : κ → ℕ) (p : κ) :
    l.foldl addTo s p = s p + total p l := by
  induction l generalizing s with
  | nil => rfl
  | cons x l ih =>
    rw [List.foldl_cons, ih, total, addTo]
    by_cases h : x.1 = p
    · rw [if_pos h, h, Function.update_self, Nat.add_assoc]
    · rw [if_neg h, Function.update_of_ne (Ne.symm h), Nat.zero_add]

theorem total_append (p : κ) (l l' : List (κ × ℕ)) :
    total p (l ++ l') = total p l + total p l' := by
  induction l with
  | nil => rw [List.nil_append, total, Nat.zero_add]
  | cons x l ih => rw [List.cons_append, total, total, ih, Nat.add_assoc]

theorem total_flatMap_range (p : κ) (f : ℕ → List (κ × ℕ)) (n : ℕ) :
    total p ((List.range n).flatMap f) = ∑ i ∈ Finset.range n, total p (f i) := by
  induction n with
  | zero => rfl
  | succ n ih =>
    rw [List.range_succ, List.flatMap_append, total_append, ih, List.flatMap_singleton,
      Finset.sum_range_succ]

/-- The order does not matter. -/
theorem total_perm {p : κ} {l l' : List (κ × ℕ)} (h : l.Perm l') : total p l = total p l' := by
  induction h with
  | nil => rfl
  | cons x _ ih => rw [total, total, ih]
  | swap x y l =>
    rw [total, total, total, total]
    omega
  | trans _ _ ih1 ih2 => rw [ih1, ih2]

end Additions

end VllmMoet
