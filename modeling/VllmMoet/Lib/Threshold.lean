import Mathlib.Algebra.BigOperators.Intervals
import Mathlib.Algebra.Order.BigOperators.Group.Finset
import Mathlib.Data.Nat.Count
import Mathlib.Order.Monotone.Basic
import Mathlib.Tactic.Common

/-!
# The first columns of a row

A column of a row of keys comes before another if its key is larger, or equal and its number lower.
The first `k` columns (`firstColumns`) can be told from a threshold: a coarser key `hi`, a value `p`
of it, and the number `r` of columns still to take where the coarser key is `p` (`Threshold`).

* `Threshold.rank_lt_iff`: a column is one of the first if it lies above the threshold, or on it and
  fewer than `r` columns before it do;
* `Threshold.place_eq`: its place among them, from the counts before it;
* `Bucket.refine`: a bucket of keys is refined by the next digit (`IsDigit`), as a radix select
  does.
-/

namespace VllmMoet

universe u

section Count

variable {P Q : ℕ → Prop} [DecidablePred P] [DecidablePred Q]

theorem count_congr {n : ℕ} (h : ∀ j < n, (P j ↔ Q j)) : Nat.count P n = Nat.count Q n :=
  le_antisymm (Nat.count_mono_left fun j hj => (h j hj).mp)
    (Nat.count_mono_left fun j hj => (h j hj).mpr)

/-- Two kinds that exclude each other. -/
theorem count_or {n : ℕ} (h : ∀ j < n, P j → ¬ Q j) :
    Nat.count (fun j => P j ∨ Q j) n = Nat.count P n + Nat.count Q n := by
  induction n with
  | zero => simp
  | succ n ih =>
    have hn := h n (Nat.lt_succ_self n)
    rw [Nat.count_succ, Nat.count_succ, Nat.count_succ, ih fun j hj => h j (by omega)]
    by_cases hP : P n
    · simp [hP, hn hP]
      omega
    · simp [hP]
      omega

/-- A kind with a member that the other does not have. -/
theorem count_lt_count {n c : ℕ} (hc : c < n) (h : ∀ j < n, Q j → P j) (hP : P c) (hQ : ¬ Q c) :
    Nat.count Q n < Nat.count P n := by
  have hle : Nat.count (fun j => Q j ∨ j = c) n ≤ Nat.count P n :=
    Nat.count_mono_left fun j hj hor => hor.elim (h j hj) fun heq => heq ▸ hP
  rw [count_or (Q := fun j => j = c) fun j _ hj heq => hQ (heq ▸ hj)] at hle
  have hpos : 0 < Nat.count (fun j => j = c) n :=
    Nat.pos_of_ne_zero (Nat.count_ne_iff_exists.mpr ⟨c, hc, rfl⟩)
  omega

/-- Those below a number. -/
theorem count_and_lt {n c : ℕ} (hc : c ≤ n) :
    Nat.count (fun j => P j ∧ j < c) n = Nat.count P c := by
  obtain ⟨m, rfl⟩ := Nat.exists_eq_add_of_le hc
  have hnone : Nat.count (fun j => P (c + j) ∧ c + j < c) m = 0 :=
    Nat.count_iff_forall_not.mpr fun j _ hj => by omega
  rw [Nat.count_add, hnone, Nat.add_zero]
  exact count_congr fun j hj => and_iff_left hj

theorem length_filter_range (n : ℕ) :
    ((List.range n).filter (P ·)).length = Nat.count P n := by
  induction n with
  | zero => simp
  | succ n ih =>
    rw [List.range_succ, List.filter_append, List.length_append, ih, Nat.count_succ]
    split_ifs with hm <;> simp [hm]

/-- The one of a kind that has as many before it. -/
theorem getElem?_filter_count {n c : ℕ} (hc : c < n) (hP : P c) :
    ((List.range n).filter (P ·))[Nat.count P c]? = some c := by
  induction n with
  | zero => omega
  | succ n ih =>
    rw [List.range_succ, List.filter_append]
    rcases Nat.lt_succ_iff_lt_or_eq.mp hc with h | rfl
    · rw [List.getElem?_append_left, ih h]
      rw [length_filter_range]
      exact Nat.count_strict_mono hP h
    · rw [List.getElem?_append_right (by rw [length_filter_range]), length_filter_range]
      simp [hP]

/-- The members from a number on, as a sum. -/
theorem count_add_sum (P : ℕ → Prop) [DecidablePred P] (m n : ℕ) :
    Nat.count P m + ∑ q ∈ Finset.range n, (if P (m + q) then 1 else 0) = Nat.count P (m + n) := by
  induction n with
  | zero => simp
  | succ n ih => rw [Finset.sum_range_succ, ← Nat.add_assoc, ih, ← Nat.add_assoc, Nat.count_succ]

/-- What is counted over the members of a kind, by their numbers in it. -/
theorem count_numbers (n : ℕ) :
    Nat.count Q (Nat.count P n) = Nat.count (fun c => P c ∧ Q (Nat.count P c)) n := by
  induction n with
  | zero => simp
  | succ n ih =>
    rw [Nat.count_succ, Nat.count_succ, ← ih]
    by_cases hP : P n
    · simp only [hP, true_and, if_true]
      exact Nat.count_succ Q (Nat.count P n)
    · simp [hP]

/-- A number below that of a kind is that of a member. -/
theorem exists_count_eq {n g : ℕ} (h : g < Nat.count P n) : ∃ c < n, P c ∧ Nat.count P c = g := by
  induction n with
  | zero => simp at h
  | succ n ih =>
    by_cases hlt : g < Nat.count P n
    · obtain ⟨c, hc, hP, heq⟩ := ih hlt
      exact ⟨c, by omega, hP, heq⟩
    · rw [Nat.count_succ] at h
      by_cases hP : P n
      · rw [if_pos hP] at h
        exact ⟨n, Nat.lt_succ_self n, hP, by omega⟩
      · rw [if_neg hP] at h
        omega

end Count

variable {K : Type u} [LinearOrder K] (key : ℕ → K)

/-- Column `i` comes before column `j`. -/
def Before (i j : ℕ) : Prop := key j < key i ∨ key i = key j ∧ i < j

instance (j : ℕ) : DecidablePred fun i => Before key i j := fun i =>
  inferInstanceAs (Decidable (key j < key i ∨ key i = key j ∧ i < j))

/-- How many of the `n` columns come before one. -/
def rank (n c : ℕ) : ℕ := Nat.count (fun i => Before key i c) n

/-- The `k` columns that come first, in ascending order. -/
def firstColumns (n k : ℕ) : List ℕ := (List.range n).filter (rank key n · < k)

variable {key} in
theorem not_before_self (c : ℕ) : ¬ Before key c c := by simp [Before]

/-! ### A threshold -/

/-- The `k`-th column has the coarser key `p`, and is the `r`-th of those that do. -/
structure Bucket (n k : ℕ) (hi : K → ℕ) (p r : ℕ) : Prop where
  mono : Monotone hi
  pos : 0 < r
  count : Nat.count (fun j => p < hi (key j)) n + r = k
  le : r ≤ Nat.count (fun j => hi (key j) = p) n

/-- All of these are taken, or their keys agree. -/
structure Threshold (n k : ℕ) (hi : K → ℕ) (p r : ℕ) : Prop extends Bucket key n k hi p r where
  settled : r = Nat.count (fun j => hi (key j) = p) n ∨
    ∀ i < n, ∀ j < n, hi (key i) = p → hi (key j) = p → key i = key j

variable {key} {n k : ℕ} {hi : K → ℕ} {p r : ℕ}

/-- **The first columns, from a threshold.** -/
theorem Threshold.rank_lt_iff (h : Threshold key n k hi p r) {c : ℕ} (hc : c < n) :
    rank key n c < k ↔
      p < hi (key c) ∨ hi (key c) = p ∧ Nat.count (fun j => hi (key j) = p) c < r := by
  have hlt {i j : ℕ} (hij : hi (key i) < hi (key j)) : key i < key j :=
    lt_of_not_ge fun hle => absurd (h.mono hle) (not_le.mpr hij)
  rcases lt_trichotomy (hi (key c)) p with hp | hp | hp
  · -- what lies above or on the threshold comes before
    refine iff_of_false (fun hrank => ?_) (by omega)
    have hle : Nat.count (fun j => p < hi (key j) ∨ hi (key j) = p) n ≤ rank key n c :=
      Nat.count_mono_left fun j _ hj => .inl (hlt (by omega))
    rw [count_or fun j _ h1 h2 => by omega] at hle
    have := h.count
    have := h.le
    omega
  · have hrank : rank key n c = Nat.count (fun j => p < hi (key j)) n +
        Nat.count (fun j => hi (key j) = p ∧ Before key j c) n := by
      rw [← count_or fun j _ h1 h2 => by omega]
      refine count_congr fun j _ => ⟨fun hj => ?_, ?_⟩
      · have hle : hi (key c) ≤ hi (key j) := hj.elim (fun hj => h.mono hj.le)
          fun hj => (congrArg hi hj.1).ge
        rcases hle.eq_or_lt with heq | hne
        · exact .inr ⟨heq ▸ hp, hj⟩
        · exact .inl (hp ▸ hne)
      · rintro (hj | ⟨-, hj⟩)
        · exact .inl (hlt (by omega))
        · exact hj
    have hcount := h.count
    rcases h.settled with hall | hsame
    · -- all are taken
      have hone : Nat.count (fun j => hi (key j) = p) c < Nat.count (fun j => hi (key j) = p) n :=
        Nat.count_strict_mono hp hc
      have hless : Nat.count (fun j => hi (key j) = p ∧ Before key j c) n <
          Nat.count (fun j => hi (key j) = p) n :=
        count_lt_count hc (fun _ _ hj => hj.1) hp fun hj => not_before_self c hj.2
      exact iff_of_true (by omega) (.inr ⟨hp, by omega⟩)
    · -- their order is that of the columns
      have hties : Nat.count (fun j => hi (key j) = p ∧ Before key j c) n =
          Nat.count (fun j => hi (key j) = p) c := by
        rw [← count_and_lt hc.le]
        refine count_congr fun j hj => and_congr_right fun hjp => ?_
        have heq := hsame j hj c hc hjp hp
        simp [Before, heq]
      rw [hrank, hties]
      constructor
      · intro hlt
        exact .inr ⟨hp, by omega⟩
      · rintro (h1 | ⟨-, h1⟩) <;> omega
  · -- those before it lie above as well
    have hless : rank key n c < Nat.count (fun j => p < hi (key j)) n := by
      refine count_lt_count hc (fun j _ hj => ?_) hp (not_before_self c)
      rcases hj with hj | hj
      · exact hp.trans_le (h.mono hj.le)
      · rw [hj.1]
        exact hp
    have := h.count
    exact iff_of_true (by omega) (.inl hp)

/-- The columns that a threshold takes, before a column. -/
theorem count_taken (p r : ℕ) (f : ℕ → ℕ) (c : ℕ) :
    Nat.count (fun j => p < f j ∨ f j = p ∧ Nat.count (fun j => f j = p) j < r) c =
      Nat.count (fun j => p < f j) c + min (Nat.count (fun j => f j = p) c) r := by
  rw [count_or fun j _ h1 h2 => by omega]
  congr 1
  induction c with
  | zero => simp
  | succ c ih =>
    rw [Nat.count_succ, Nat.count_succ, ih]
    by_cases hp : f c = p
    · simp only [hp, true_and, if_true]
      split_ifs <;> omega
    · simp [hp]

/-- **The place of one of the first columns.** -/
theorem Threshold.place_eq (h : Threshold key n k hi p r) {c : ℕ} (hc : c < n)
    (hfirst : rank key n c < k) :
    (firstColumns key n k)[Nat.count (fun j => p < hi (key j)) c +
      min (Nat.count (fun j => hi (key j) = p) c) r]? = some c := by
  have hcount : Nat.count (fun j => rank key n j < k) c =
      Nat.count (fun j => p < hi (key j)) c + min (Nat.count (fun j => hi (key j) = p) c) r := by
    rw [← count_taken p r (fun j => hi (key j)) c]
    exact count_congr fun j hj => h.rank_lt_iff (hj.trans hc)
  rw [← hcount]
  exact getElem?_filter_count hc hfirst

/-- There are `k` of them. -/
theorem Threshold.length_firstColumns (h : Threshold key n k hi p r) :
    (firstColumns key n k).length = k := by
  have hcount : Nat.count (fun j => rank key n j < k) n =
      Nat.count (fun j => p < hi (key j)) n + min (Nat.count (fun j => hi (key j) = p) n) r := by
    rw [← count_taken p r (fun j => hi (key j)) n]
    exact count_congr fun j hj => h.rank_lt_iff hj
  rw [firstColumns, length_filter_range, hcount, Nat.min_eq_right h.le, h.count]

/-! ### Digits -/

section Base

variable {B a b x y : ℕ}

/-- Numbers are ordered as their digits. -/
theorem digits_lt (hx : x < B) (hy : y < B) : a * B + x < b * B + y ↔ a < b ∨ b = a ∧ x < y := by
  rcases lt_trichotomy a b with h | rfl | h
  · have := Nat.mul_le_mul_right B (Nat.succ_le_of_lt h)
    rw [Nat.succ_mul] at this
    omega
  · omega
  · have := Nat.mul_le_mul_right B (Nat.succ_le_of_lt h)
    rw [Nat.succ_mul] at this
    omega

theorem digits_eq (hx : x < B) (hy : y < B) : a * B + x = b * B + y ↔ a = b ∧ x = y := by
  refine ⟨fun h => ?_, fun h => by rw [h.1, h.2]⟩
  have hab := (digits_lt hx hy).not.mp (not_lt.mpr h.ge)
  have hba := (digits_lt hy hx).not.mp (not_lt.mpr h.le)
  obtain rfl : a = b := by omega
  exact ⟨rfl, by omega⟩

end Base

/-- The `r`-th from the top is counted in bin `d` of `B`. -/
structure IsDigit (cnt : ℕ → ℕ) (B r d : ℕ) : Prop where
  lt : d < B
  above : ∑ x ∈ Finset.Ico (d + 1) B, cnt x < r
  le : r ≤ ∑ x ∈ Finset.Ico (d + 1) B, cnt x + cnt d

theorem exists_isDigit {cnt : ℕ → ℕ} {B r : ℕ} (hpos : 0 < r)
    (hle : r ≤ ∑ x ∈ Finset.Ico 0 B, cnt x) : ∃ d, IsDigit cnt B r d := by
  -- from the top, the first bin with which there are enough
  have hfrom (m : ℕ) (hm : m ≤ B) (hr : r ≤ ∑ x ∈ Finset.Ico (B - m) B, cnt x) :
      ∃ d, IsDigit cnt B r d := by
    induction m with
    | zero =>
      rw [Nat.sub_zero, Finset.Ico_self, Finset.sum_empty] at hr
      omega
    | succ m ih =>
      have hsucc : B - (m + 1) + 1 = B - m := by omega
      rw [Finset.sum_eq_sum_Ico_succ_bot (by omega), hsucc] at hr
      rcases lt_or_ge (∑ x ∈ Finset.Ico (B - m) B, cnt x) r with h | h
      · exact ⟨B - (m + 1), by omega, by rwa [hsucc], by rw [hsucc]; omega⟩
      · exact ih (by omega) h
  exact hfrom B le_rfl (by rwa [Nat.sub_self])

theorem IsDigit.unique {cnt : ℕ → ℕ} {B r d d' : ℕ} (h : IsDigit cnt B r d)
    (h' : IsDigit cnt B r d') : d = d' := by
  have hnot {d d' : ℕ} (h : IsDigit cnt B r d) (h' : IsDigit cnt B r d') : ¬ d < d' := by
    intro hlt
    have hle := h'.le
    have hsub : ∑ x ∈ Finset.Ico d' B, cnt x ≤ ∑ x ∈ Finset.Ico (d + 1) B, cnt x :=
      Finset.sum_le_sum_of_subset (Finset.Ico_subset_Ico hlt le_rfl)
    rw [Finset.sum_eq_sum_Ico_succ_bot h'.lt] at hsub
    have := h.above
    omega
  exact le_antisymm (not_lt.mp (hnot h' h)) (not_lt.mp (hnot h h'))

/-- A kind by the value of a function. -/
theorem sum_count_eq {P : ℕ → Prop} [DecidablePred P] (f : ℕ → ℕ) (a b n : ℕ) :
    ∑ x ∈ Finset.Ico a b, Nat.count (fun j => P j ∧ f j = x) n =
      Nat.count (fun j => P j ∧ a ≤ f j ∧ f j < b) n := by
  induction n with
  | zero => simp
  | succ n ih =>
    have hone : ∑ x ∈ Finset.Ico a b, (if P n ∧ f n = x then 1 else 0) =
        if P n ∧ a ≤ f n ∧ f n < b then 1 else 0 := by
      by_cases hP : P n
      · simp only [hP, true_and, Finset.sum_ite_eq, Finset.mem_Ico]
      · simp [hP]
    simp only [Nat.count_succ, Finset.sum_add_distrib, ih, hone]

/-- How many keys of the bucket have a digit. -/
def digitCount (key : ℕ → K) (n : ℕ) (hi dig : K → ℕ) (p d : ℕ) : ℕ :=
  Nat.count (fun j => hi (key j) = p ∧ dig (key j) = d) n

section Refine

variable {hi' dig : K → ℕ} {B d : ℕ}

/-- A bucket has a next digit. -/
theorem Bucket.exists_isDigit (h : Bucket key n k hi p r) (hlt : ∀ x, dig x < B) :
    ∃ d, IsDigit (digitCount key n hi dig p) B r d := by
  refine VllmMoet.exists_isDigit h.pos (h.le.trans (le_of_eq ?_))
  simp only [digitCount]
  rw [sum_count_eq (fun j => dig (key j))]
  exact count_congr fun j _ => by simp [hlt]

omit [LinearOrder K] in
/-- The keys of the bucket with a digit are those with the longer prefix. -/
theorem count_refined (heq : ∀ x, hi' x = hi x * B + dig x) (hlt : ∀ x, dig x < B) (hd : d < B) :
    Nat.count (fun j => hi' (key j) = p * B + d) n = digitCount key n hi dig p d := by
  refine count_congr fun j _ => ?_
  rw [heq, digits_eq (hlt (key j)) hd]

omit [LinearOrder K] in
/-- The keys above the longer prefix. -/
theorem count_above_refined (heq : ∀ x, hi' x = hi x * B + dig x) (hlt : ∀ x, dig x < B)
    (hd : d < B) :
    Nat.count (fun j => p * B + d < hi' (key j)) n =
      Nat.count (fun j => p < hi (key j)) n +
        ∑ x ∈ Finset.Ico (d + 1) B, digitCount key n hi dig p x := by
  simp only [digitCount]
  rw [sum_count_eq (fun j => dig (key j)), ← count_or fun j _ h1 h2 => by omega]
  refine count_congr fun j _ => ?_
  have := hlt (key j)
  rw [heq, digits_lt hd this]
  omega

/-- **The next digit refines the bucket.** -/
theorem Bucket.refine (h : Bucket key n k hi p r) (hmono : Monotone hi')
    (heq : ∀ x, hi' x = hi x * B + dig x) (hlt : ∀ x, dig x < B)
    (hd : IsDigit (digitCount key n hi dig p) B r d) :
    Bucket key n k hi' (p * B + d)
      (r - ∑ x ∈ Finset.Ico (d + 1) B, digitCount key n hi dig p x) where
  mono := hmono
  pos := Nat.sub_pos_of_lt hd.above
  count := by
    have habove : Nat.count (fun j => p * B + d < hi' (key j)) n =
        Nat.count (fun j => p < hi (key j)) n +
          ∑ x ∈ Finset.Ico (d + 1) B, digitCount key n hi dig p x :=
      count_above_refined heq hlt hd.lt
    have := h.count
    have := hd.above
    omega
  le := by
    have hsame : Nat.count (fun j => hi' (key j) = p * B + d) n = digitCount key n hi dig p d :=
      count_refined heq hlt hd.lt
    have := hd.le
    omega

end Refine

end VllmMoet
