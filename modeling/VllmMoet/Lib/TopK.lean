import Mathlib.Algebra.Order.Ring.Unbundled.Rat
import VllmMoet.Lib.Selection

/-!
# Choosing the `k` smallest or largest keys

A `TopK` chooses `m` of a list of candidates by key. What it promises is what a top-`k`
selection promises: the chosen ones are distinct candidates, as many as asked for or as
there are, in the order of their keys, and no candidate left out has a better key. How ties
are broken is left open, so what is proved of every `TopK` holds for every way to break them.

* `TopK.sorted`: the one that sorts the candidates and takes the first `m`.
* `TopK.argsort`: a whole list reordered by key.
-/

namespace VllmMoet

/-- The order in which keys are preferred. -/
def KeyLE (largest : Bool) (a b : ℚ) : Prop :=
  if largest then b ≤ a else a ≤ b

instance (largest : Bool) (a b : ℚ) : Decidable (KeyLE largest a b) :=
  inferInstanceAs (Decidable (if largest then b ≤ a else a ≤ b))

theorem KeyLE.total (largest : Bool) (a b : ℚ) : KeyLE largest a b ∨ KeyLE largest b a := by
  cases largest
  · exact le_total a b
  · exact le_total b a

theorem KeyLE.trans {largest : Bool} {a b c : ℚ} (h : KeyLE largest a b)
    (h' : KeyLE largest b c) : KeyLE largest a c := by
  cases largest
  · exact le_trans (a := a) h h'
  · exact le_trans (a := c) h' h

/-- `out` are the `m` candidates of least (or largest) key, in the order of their keys. -/
structure IsTopK (largest : Bool) (key : ℕ → ℚ) (elig : List ℕ) (m : ℕ) (out : List ℕ) :
    Prop where
  nodup : out.Nodup
  subset : ∀ i ∈ out, i ∈ elig
  length : out.length = min m elig.length
  ordered : out.Pairwise fun i j => KeyLE largest (key i) (key j)
  best : ∀ i ∈ out, ∀ j ∈ elig, j ∉ out → KeyLE largest (key i) (key j)

/-- A top-`k` selection: a choice with the proof that it is one. -/
structure TopK where
  pick : Bool → (ℕ → ℚ) → List ℕ → ℕ → List ℕ
  spec : ∀ largest key elig m, elig.Nodup → IsTopK largest key elig m (pick largest key elig m)

namespace TopK

/-! ### Sorting and taking -/

section Sorted

variable (largest : Bool) (key : ℕ → ℚ)

/-- The preference order on candidates. -/
def Prefers (i j : ℕ) : Prop :=
  KeyLE largest (key i) (key j)

instance (i j : ℕ) : Decidable (Prefers largest key i j) :=
  inferInstanceAs (Decidable (KeyLE largest (key i) (key j)))

instance : Std.Total (Prefers largest key) :=
  ⟨fun i j => KeyLE.total largest (key i) (key j)⟩

instance : IsTrans ℕ (Prefers largest key) :=
  ⟨fun _ _ _ => KeyLE.trans⟩

/-- Taking the front of the sorted candidates is a top-`k` selection. -/
theorem isTopK_take_insertionSort (elig : List ℕ) (m : ℕ) (h : elig.Nodup) :
    IsTopK largest key elig m ((elig.insertionSort (Prefers largest key)).take m) := by
  obtain ⟨hnodup, hsubset, hlength, hordered, hbest⟩ :=
    take_insertionSort_spec (Prefers largest key) m h
  exact ⟨hnodup, hsubset, hlength, hordered, hbest⟩

end Sorted

/-- Sort the candidates and take the first `m`. -/
def sorted : TopK where
  pick largest key elig m := (elig.insertionSort (Prefers largest key)).take m
  spec largest key elig m h := isTopK_take_insertionSort largest key elig m h

/-! ### Reordering a list -/

section Argsort

variable {α : Type} [Inhabited α] (T : TopK) (key : α → ℚ) (l : List α)

/-- A list reordered by descending key. -/
def argsort : List α :=
  (T.pick true (fun i => key (l.getD i default)) (List.range l.length) l.length).map
    fun i => l.getD i default

/-- Reordering a list neither adds nor drops anything. -/
theorem argsort_perm : (T.argsort key l).Perm l := by
  have hspec := T.spec true (fun i => key (l.getD i default)) (List.range l.length) l.length
    List.nodup_range
  have hlen : (T.pick true (fun i => key (l.getD i default)) (List.range l.length)
      l.length).length = l.length := by
    rw [hspec.length, List.length_range, Nat.min_self]
  have hidx : (T.pick true (fun i => key (l.getD i default)) (List.range l.length)
      l.length).Perm (List.range l.length) :=
    (List.subperm_of_subset hspec.nodup hspec.subset).perm_of_length_le
      (by rw [hlen, List.length_range])
  have hself : (List.range l.length).map (fun i => l.getD i default) = l := by
    refine List.ext_getElem (by simp) fun i h1 h2 => ?_
    simp [List.getD_eq_getElem?_getD, List.getElem?_eq_getElem h2]
  exact (hidx.map _).trans (by rw [hself])

end Argsort

end TopK

end VllmMoet
