import Mathlib.Algebra.BigOperators.Group.Finset.Basic
import Mathlib.Data.Finset.Sort
import Mathlib.Data.List.Sort
import Mathlib.Data.Nat.Count
import Mathlib.Data.Nat.Notation
import Mathlib.Logic.Function.Basic

/-!
# Sort, running sum and scatter on one-dimensional tensors

A tensor of `n` elements is a function on `ℕ` of which the values below `n` matter. A scatter
makes its writes in an order that is left open (`WriteOrder`), so where two of them meet
nothing is known of the result but that it is one of the values written; a scatter with an
index out of range fails.

* `argsort`: the positions in the order of their values, ties in their own order.
* `cumsum_first`: on a sorted tensor the running sum of the firsts counts the values so far.
* `rankIn`: the rank of a value in a finite set, and what it says of the set in order.
* `getElem?_count`: the rank of a position among those that a predicate keeps.
-/

namespace VllmMoet

universe u

/-! ### Scatter -/

/-- An order in which the `n` writes of a scatter are made. -/
structure WriteOrder where
  order : ℕ → List ℕ
  perm : ∀ n, (order n).Perm (List.range n)

/-- The writes made from first to last. -/
def WriteOrder.ascending : WriteOrder :=
  ⟨List.range, fun _ => .refl _⟩

section Scatter

variable {α : Type u} (o : WriteOrder)

theorem WriteOrder.mem_order {n i : ℕ} : i ∈ o.order n ↔ i < n := by
  rw [(o.perm n).mem_iff, List.mem_range]

/-- The writes `dst[idx[i]] = src[i]`, one after the other. -/
def writes (idx : ℕ → ℕ) (src dst : ℕ → α) (is : List ℕ) : ℕ → α :=
  is.foldl (fun d i => Function.update d (idx i) (src i)) dst

theorem writes_concat (idx : ℕ → ℕ) (src dst : ℕ → α) (is : List ℕ) (i : ℕ) :
    writes idx src dst (is ++ [i]) =
      Function.update (writes idx src dst is) (idx i) (src i) := by
  rw [writes, List.foldl_append]
  rfl

/-- A place that is not written keeps its value. -/
theorem writes_of_notMem {idx : ℕ → ℕ} {src dst : ℕ → α} {is : List ℕ} {j : ℕ}
    (h : ∀ i ∈ is, idx i ≠ j) : writes idx src dst is j = dst j := by
  induction is using List.reverseRecOn with
  | nil => rfl
  | append_singleton is i ih =>
    rw [writes_concat, Function.update_of_ne (h i (by simp)).symm]
    exact ih fun i' hi' => h i' (by simp [hi'])

/-- A place to which one value only is written has that value. -/
theorem writes_of_mem {idx : ℕ → ℕ} {src dst : ℕ → α} {is : List ℕ} {j : ℕ} {v : α}
    (hmem : ∃ i ∈ is, idx i = j) (hval : ∀ i ∈ is, idx i = j → src i = v) :
    writes idx src dst is j = v := by
  induction is using List.reverseRecOn with
  | nil =>
    obtain ⟨i, hi, _⟩ := hmem
    simp at hi
  | append_singleton is i ih =>
    rw [writes_concat]
    by_cases hij : idx i = j
    · rw [hij, Function.update_self]
      exact hval i (by simp) hij
    · rw [Function.update_of_ne (Ne.symm hij)]
      refine ih ?_ fun i' hi' => hval i' (by simp [hi'])
      obtain ⟨i', hi', he⟩ := hmem
      rcases List.mem_append.mp hi' with hi' | hi'
      · exact ⟨i', hi', he⟩
      · rw [List.mem_singleton.mp hi'] at he
        exact absurd he hij

/-- `dst.scatter_(0, idx, src)` with `n` writes into `size` places. -/
def scatterInto (size n : ℕ) (idx : ℕ → ℕ) (src dst : ℕ → α) : Option (ℕ → α) :=
  if ∀ i < n, idx i < size then some (writes idx src dst (o.order n)) else none

theorem scatterInto_eq {size n : ℕ} {idx : ℕ → ℕ} {src dst : ℕ → α} (h : ∀ i < n, idx i < size) :
    scatterInto o size n idx src dst = some (writes idx src dst (o.order n)) :=
  if_pos h

/-- The additions `dst[idx[i]] += src[i]`, one after the other. -/
def additions [Add α] (idx : ℕ → ℕ) (src dst : ℕ → α) (is : List ℕ) : ℕ → α :=
  is.foldl (fun d i => Function.update d (idx i) (d (idx i) + src i)) dst

/-- `dst.scatter_add_(0, idx, src)` with `n` additions into `size` places. -/
def scatterAdd [Add α] (size n : ℕ) (idx : ℕ → ℕ) (src dst : ℕ → α) : Option (ℕ → α) :=
  if ∀ i < n, idx i < size then some (additions idx src dst (o.order n)) else none

theorem scatterAdd_eq [Add α] {size n : ℕ} {idx : ℕ → ℕ} {src dst : ℕ → α}
    (h : ∀ i < n, idx i < size) :
    scatterAdd o size n idx src dst = some (additions idx src dst (o.order n)) :=
  if_pos h

/-- What was added to a place, with the places distinct. -/
theorem additions_apply [AddCommMonoid α] (idx : ℕ → ℕ) (src dst : ℕ → α) {is : List ℕ}
    (hnd : is.Nodup) (j : ℕ) :
    additions idx src dst is j = dst j + ∑ i ∈ is.toFinset with idx i = j, src i := by
  induction is using List.reverseRecOn with
  | nil => simp [additions]
  | append_singleton is i ih =>
    have hn : is.Nodup ∧ i ∉ is := by
      have h := List.nodup_append.mp hnd
      exact ⟨h.1, fun hi => h.2.2 i hi i (by simp) rfl⟩
    have hstep : additions idx src dst (is ++ [i]) =
        Function.update (additions idx src dst is) (idx i)
          (additions idx src dst is (idx i) + src i) := by
      rw [additions, List.foldl_append]
      rfl
    have hset : (is ++ [i]).toFinset = insert i is.toFinset := by
      ext
      simp
    rw [hstep, hset, Finset.filter_insert]
    by_cases hij : idx i = j
    · have hni : i ∉ is.toFinset.filter (fun i => idx i = j) := by simp [hn.2]
      rw [if_pos hij, Finset.sum_insert hni, hij, Function.update_self, ih hn.1, add_assoc,
        add_comm (src i)]
    · rw [if_neg hij, Function.update_of_ne (Ne.symm hij), ih hn.1]

/-- A scattered sum does not depend on the order. -/
theorem additions_order [AddCommMonoid α] (n : ℕ) (idx : ℕ → ℕ) (src : ℕ → α) (j : ℕ) :
    additions idx src (fun _ => 0) (o.order n) j =
      ∑ i ∈ Finset.range n with idx i = j, src i := by
  have hset : (o.order n).toFinset = Finset.range n := by
    ext i
    rw [List.mem_toFinset, o.mem_order, Finset.mem_range]
  rw [additions_apply idx src _ ((o.perm n).nodup_iff.mpr List.nodup_range), hset, zero_add]

end Scatter

/-! ### Stable sort -/

/-- The positions of `f` in the order of their values, ties in their own order. -/
def argsort (f : ℕ → ℕ) (n : ℕ) : List ℕ :=
  (List.range n).insertionSort fun i j => f i ≤ f j

theorem argsort_perm (f : ℕ → ℕ) (n : ℕ) : (argsort f n).Perm (List.range n) :=
  List.perm_insertionSort _ _

@[simp] theorem length_argsort (f : ℕ → ℕ) (n : ℕ) : (argsort f n).length = n := by
  rw [(argsort_perm f n).length_eq, List.length_range]

theorem argsort_pairwise (f : ℕ → ℕ) (n : ℕ) :
    (argsort f n).Pairwise fun i j => f i ≤ f j := by
  have _ : Std.Total fun i j => f i ≤ f j := ⟨fun i j => le_total (f i) (f j)⟩
  have _ : IsTrans ℕ fun i j => f i ≤ f j := ⟨fun _ _ _ h h' => le_trans h h'⟩
  exact List.pairwise_insertionSort _ _

/-! ### Running sums -/

/-- The running sum of a tensor. -/
def cumsum (f : ℕ → ℕ) : ℕ → ℕ
  | 0 => f 0
  | i + 1 => cumsum f i + f (i + 1)

/-- The running sum of a mask counts the positions up to and with the present one. -/
theorem cumsum_mask (p : ℕ → Bool) (i : ℕ) :
    cumsum (fun i => (p i).toNat) i = Nat.count (fun i => p i) (i + 1) := by
  induction i with
  | zero => cases h : p 0 <;> simp [cumsum, h, Nat.count_succ]
  | succ i ih =>
    rw [cumsum, ih, Nat.count_succ _ (i + 1)]
    cases p (i + 1) <;> simp

/-- Whether a position is the first of its value, in a sorted tensor. -/
def isFirst (v : ℕ → ℕ) (i : ℕ) : Bool :=
  i == 0 || v i != v (i - 1)

/-- On a sorted tensor the running sum of the firsts counts the values so far. -/
theorem cumsum_first {v : ℕ → ℕ} {n : ℕ} (hv : ∀ i j, i ≤ j → j < n → v i ≤ v j) {i : ℕ}
    (hi : i < n) :
    cumsum (fun i => (isFirst v i).toNat) i = ((Finset.range (i + 1)).image v).card := by
  induction i with
  | zero => simp [cumsum, isFirst]
  | succ i ih =>
    rw [cumsum, ih (by omega), show Finset.range (i + 1 + 1) = insert (i + 1) (Finset.range (i + 1)) from
        Finset.range_add_one, Finset.image_insert]
    by_cases heq : v (i + 1) = v i
    · have hmem : v (i + 1) ∈ (Finset.range (i + 1)).image v :=
        Finset.mem_image.mpr ⟨i, by simp, heq.symm⟩
      rw [Finset.insert_eq_of_mem hmem]
      simp [isFirst, heq]
    · have hmem : v (i + 1) ∉ (Finset.range (i + 1)).image v := by
        intro h
        obtain ⟨j, hj, he⟩ := Finset.mem_image.mp h
        have hj' : j ≤ i := by simpa [Nat.lt_succ_iff] using hj
        have h₁ := hv j i hj' (by omega)
        have h₂ := hv i (i + 1) (by omega) hi
        exact heq (by omega)
      rw [Finset.card_insert_of_notMem hmem]
      simp [isFirst, heq]

/-! ### Ranks -/

/-- The rank of a value: how many members of the set lie below it. -/
def rankIn (s : Finset ℕ) (x : ℕ) : ℕ :=
  (s.filter (· < x)).card

theorem rankIn_lt {s : Finset ℕ} {x : ℕ} (hx : x ∈ s) : rankIn s x < s.card :=
  Finset.card_lt_card (Finset.filter_ssubset.mpr ⟨x, hx, lt_irrefl x⟩)

/-- The values up to and with a member are one more than those below it. -/
theorem card_filter_le {s : Finset ℕ} {x : ℕ} (hx : x ∈ s) :
    (s.filter (· ≤ x)).card = rankIn s x + 1 := by
  have hset : s.filter (· ≤ x) = insert x (s.filter (· < x)) := by
    ext y
    simp only [Finset.mem_filter, Finset.mem_insert]
    constructor
    · rintro ⟨hy, hle⟩
      rcases hle.lt_or_eq with hlt | rfl
      · exact .inr ⟨hy, hlt⟩
      · exact .inl rfl
    · rintro (rfl | ⟨hy, hlt⟩)
      · exact ⟨hx, le_refl _⟩
      · exact ⟨hy, hlt.le⟩
  rw [hset, Finset.card_insert_of_notMem (by simp), rankIn]

/-- In a list in order, a member stands at its rank. -/
theorem getElem?_rankIn {l : List ℕ} (hl : l.Pairwise (· < ·)) {x : ℕ} (hx : x ∈ l) :
    l[rankIn l.toFinset x]? = some x := by
  induction l with
  | nil => simp at hx
  | cons a l ih =>
    obtain ⟨ha, hl⟩ := List.pairwise_cons.mp hl
    rcases List.mem_cons.mp hx with rfl | hx
    · have hzero : rankIn (x :: l).toFinset x = 0 := by
        refine Finset.card_eq_zero.mpr (Finset.filter_eq_empty_iff.mpr fun {y} hy => ?_)
        rcases List.mem_cons.mp (List.mem_toFinset.mp hy) with rfl | hy
        · exact lt_irrefl _
        · exact (ha y hy).asymm
      rw [hzero, List.getElem?_cons_zero]
    · have hnotin : a ∉ l.toFinset := fun h => lt_irrefl a (ha a (List.mem_toFinset.mp h))
      have hsucc : rankIn (a :: l).toFinset x = rankIn l.toFinset x + 1 := by
        rw [rankIn, List.toFinset_cons, Finset.filter_insert, if_pos (ha x hx),
          Finset.card_insert_of_notMem (by simp [hnotin]), rankIn]
      rw [hsucc, List.getElem?_cons_succ, ih hl hx]

/-- In a list in order, what stands at the rank of a member is that member only. -/
theorem rankIn_of_getElem? {l : List ℕ} (hl : l.Pairwise (· < ·)) {x u : ℕ}
    (h : l[u]? = some x) : rankIn l.toFinset x = u := by
  have hr := getElem?_rankIn hl (List.mem_of_getElem? h)
  obtain ⟨hu, _⟩ := List.getElem?_eq_some_iff.mp h
  exact ((List.getElem?_inj hu (hl.imp ne_of_lt)).mp (h.trans hr.symm)).symm

/-- Of the positions a predicate keeps, one stands at the count of those before it. -/
theorem getElem?_count {p : ℕ → Bool} {n r : ℕ} (hr : r < n) (hp : p r) :
    ((List.range n).filter p)[Nat.count (fun i => p i) r]? = some r := by
  have hpair : ((List.range n).filter p).Pairwise (· < ·) :=
    List.pairwise_lt_range.filter _
  have hcount : rankIn ((List.range n).filter p).toFinset r = Nat.count (fun i => p i) r := by
    rw [rankIn, Nat.count_eq_card_filter_range]
    congr 1
    ext i
    simp only [Finset.mem_filter, List.mem_toFinset, List.mem_filter, List.mem_range,
      Finset.mem_range]
    constructor
    · rintro ⟨⟨_, hi⟩, hlt⟩
      exact ⟨hlt, hi⟩
    · rintro ⟨hlt, hi⟩
      exact ⟨⟨by omega, hi⟩, hlt⟩
  rw [← hcount]
  exact getElem?_rankIn hpair (List.mem_filter.mpr ⟨List.mem_range.mpr hr, hp⟩)

end VllmMoet
