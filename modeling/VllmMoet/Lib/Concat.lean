import Mathlib.Algebra.BigOperators.Group.Finset.Basic
import Mathlib.Data.List.Range
import Mathlib.Data.Nat.Notation
import Mathlib.Tactic.Common

/-!
# Lists in pieces

A list that several writers put together: each has a piece of it and starts where the pieces before
it end, as a scan of their lengths says (`flatMap_numbered`). A place in the whole is found in the
piece that has it (`getElem?_flatMap_range`).
-/

namespace VllmMoet

universe u v

variable {α : Type u} {β : Type v}

/-- The members of a list with their places, from a place on. -/
def numbered : ℕ → List α → List (ℕ × α)
  | _, [] => []
  | i, x :: l => (i, x) :: numbered (i + 1) l

@[simp]
theorem numbered_nil (i : ℕ) : numbered i ([] : List α) = [] := rfl

theorem numbered_append (i : ℕ) (l l' : List α) :
    numbered i (l ++ l') = numbered i l ++ numbered (i + l.length) l' := by
  induction l generalizing i with
  | nil => rfl
  | cons x l ih =>
    rw [List.cons_append, numbered, ih, numbered, List.cons_append, List.length_cons, Nat.add_assoc,
      Nat.add_comm 1]

theorem mem_numbered {i : ℕ} {l : List α} {x : ℕ × α} :
    x ∈ numbered i l ↔ ∃ j, l[j]? = some x.2 ∧ x.1 = i + j := by
  induction l generalizing i with
  | nil => simp
  | cons y l ih =>
    rw [numbered, List.mem_cons, ih]
    constructor
    · rintro (rfl | ⟨j, hj, hx⟩)
      · exact ⟨0, rfl, rfl⟩
      · exact ⟨j + 1, hj, by omega⟩
    · rintro ⟨j, hj, hx⟩
      cases j with
      | zero => exact .inl (Prod.ext hx (Option.some.inj hj).symm)
      | succ j => exact .inr ⟨j, hj, by omega⟩

theorem length_flatMap_range (R : ℕ → List α) (L : ℕ) :
    ((List.range L).flatMap R).length = ∑ i ∈ Finset.range L, (R i).length := by
  induction L with
  | zero => rfl
  | succ L ih =>
    rw [List.range_succ, List.flatMap_append, List.length_append, ih, Finset.sum_range_succ,
      List.flatMap_singleton]

/-- **Pieces that start where those before them end.** -/
theorem flatMap_numbered (R : ℕ → List α) (off L : ℕ) :
    (List.range L).flatMap (fun l => numbered (off + ∑ i ∈ Finset.range l, (R i).length) (R l)) =
      numbered off ((List.range L).flatMap R) := by
  induction L with
  | zero => rfl
  | succ L ih =>
    rw [List.range_succ, List.flatMap_append, List.flatMap_append, ih, numbered_append,
      length_flatMap_range, List.flatMap_singleton, List.flatMap_singleton]

/-- A place of the whole, in the piece that has it. -/
theorem getElem?_flatMap_range (R : ℕ → List α) {r g W : ℕ} (hr : r < W)
    (hlow : ∑ i ∈ Finset.range r, (R i).length ≤ g)
    (hhigh : g < ∑ i ∈ Finset.range (r + 1), (R i).length) :
    ((List.range W).flatMap R)[g]? = (R r)[g - ∑ i ∈ Finset.range r, (R i).length]? := by
  obtain ⟨m, rfl⟩ := Nat.exists_eq_add_of_lt hr
  rw [Finset.sum_range_succ] at hhigh
  have hlen := length_flatMap_range R r
  rw [Nat.add_assoc, Nat.add_comm m 1, ← Nat.add_assoc, List.range_add, List.range_succ,
    List.flatMap_append, List.flatMap_append, List.flatMap_singleton, List.append_assoc,
    List.getElem?_append_right (by omega), hlen, List.getElem?_append_left (by omega)]

/-- Pieces of one length. -/
theorem flatMap_range_mul (f : ℕ → List α) (m n : ℕ) :
    (List.range n).flatMap (fun i => (List.range m).flatMap fun j => f (m * i + j)) =
      (List.range (m * n)).flatMap f := by
  induction n with
  | zero => rfl
  | succ n ih =>
    rw [List.range_succ, List.flatMap_append, ih, List.flatMap_singleton, Nat.mul_succ,
      List.range_add, List.flatMap_append, List.flatMap_map]

/-! ### The one element of a kind -/

theorem find?_eq_some_of_unique {l : List α} {P : α → Bool} {x : α} (hx : x ∈ l)
    (hP : P x = true) (h : ∀ y ∈ l, P y = true → y = x) : l.find? P = some x := by
  cases hf : l.find? P with
  | none => exact absurd hP (List.find?_eq_none.mp hf x hx)
  | some y => rw [h y (List.mem_of_find?_eq_some hf) (List.find?_some hf)]

theorem getLast?_eq_of_forall {l : List α} {x : α} (hx : x ∈ l) (h : ∀ y ∈ l, y = x) :
    l.getLast? = some x := by
  have hne : l ≠ [] := List.ne_nil_of_mem hx
  rw [List.getLast?_eq_some_getLast hne, h _ (List.getLast_mem hne)]

end VllmMoet
