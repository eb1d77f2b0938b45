import Mathlib.Algebra.BigOperators.GroupWithZero.Action
import Mathlib.Algebra.Module.Defs
import VllmMoet.Routing.TopP

/-!
# An EXL3 layer whose experts are shared out over ranks

Under expert parallelism a rank holds the experts of its mask. Before anything reads the routed
ids and weights, the forward sends the pairs of other ranks' experts to an owned sentinel, with
weight zero. Where the base is paged it then looks the ids up in its slot table: a pair without a
slot loses its weight, and is counted if it had one.

* `Routed.owned`, `Routed.masked`: the two rewritings; `Shard.serves` is what is left of a call.
* `ServedOnce`: a routed pair has one owner, which keeps it or counts it, and no other rank has
  to do with it.
* `sum_output`: with nothing counted the ranks' outputs add up to the layer's.
-/

namespace VllmMoet.Exl3

universe u v

open Routing

/-- The routed pairs of a call: `m` tokens with `k` experts each. -/
structure Routed (S : Type u) where
  m : ℕ
  k : ℕ
  ids : ℕ → ℕ → ℕ
  wts : ℕ → ℕ → S

/-- What the router hands to a layer of `E` experts, and how a sort orders each row. -/
structure Batch (S : Type u) [LE S] (E : ℕ) extends Routed S where
  order : ∀ t, DescOrder (wts t) k
  ids_lt : ∀ t < m, ∀ j < k, ids t j < E

/-- The ids of a call, `ids.view(-1)`. -/
def Routed.flatIds {S : Type u} (b : Routed S) : List ℕ :=
  (List.range b.m).flatMap fun t => (List.range b.k).map (b.ids t)

theorem Routed.mem_flatIds {S : Type u} {b : Routed S} {e : ℕ} :
    e ∈ b.flatIds ↔ ∃ t < b.m, ∃ j < b.k, b.ids t j = e := by
  simp [flatIds]

section Pruned

variable {S : Type u} [Field S] [LinearOrder S] {E : ℕ}

/-- The pairs after `_apply_topp`. -/
def Batch.pruned (c : ToppConfig S) (s : WriteOrder) (b : Batch S E) : Routed S :=
  let r := applyTopp c b.k b.wts (fun t j => (b.ids t j : ℤ)) b.order s
  { m := b.m, k := b.k, ids := fun t j => (r.2 t j).toNat, wts := r.1 }

/-- Pruning brings in no new expert. -/
theorem Batch.pruned_ids_lt (c : ToppConfig S) (s : WriteOrder) (b : Batch S E) :
    ∀ t < b.m, ∀ j < b.k, (b.pruned c s).ids t j < E := by
  intro t ht j hj
  rw [pruned, applyTopp]
  dsimp only
  split
  · exact b.ids_lt t ht j hj
  · dsimp only
    rw [newIds]
    split
    · exact b.ids_lt t ht j hj
    · exact b.ids_lt t ht _ ((b.order t).nth_lt (by omega))

end Pruned

/-! ### Ownership -/

/-- An entry of `_EXL3_OWNED`: the mask of the rank's experts, and the one among them that other
ranks' pairs are sent to. -/
structure Ownership where
  ownMask : ℕ → Bool
  sent : ℕ
  sent_owned : ownMask sent = true

/-- The entry for a list of owned experts. -/
def Ownership.ofList (e : ℕ) (es : List ℕ) : Ownership where
  ownMask := (e :: es).contains
  sent := e
  sent_owned := by simp

/-- A rank without an entry owns everything. -/
def owns (ep : Option Ownership) (e : ℕ) : Bool :=
  ep.all fun ep => ep.ownMask e

section Transform

variable {S : Type u} [MulZeroOneClass S] (b : Routed S)

/-- The ownership transform. -/
def Routed.owned : Option Ownership → Routed S
  | none => b
  | some ep => { b with
      ids := fun t j => if ep.ownMask (b.ids t j) then b.ids t j else ep.sent
      wts := fun t j => b.wts t j * if ep.ownMask (b.ids t j) then 1 else 0 }

/-- The residency mask `bres`. -/
def Routed.masked (resident : ℕ → Bool) : Routed S :=
  { b with wts := fun t j => b.wts t j * if resident (b.ids t j) then 1 else 0 }

variable {b} {ep : Option Ownership} {t j : ℕ}

@[simp] theorem Routed.owned_m : (b.owned ep).m = b.m := by
  cases ep <;> rfl

@[simp] theorem Routed.owned_k : (b.owned ep).k = b.k := by
  cases ep <;> rfl

/-- The owner keeps the pair. -/
theorem Routed.owned_of_owns (h : owns ep (b.ids t j) = true) :
    (b.owned ep).ids t j = b.ids t j ∧ (b.owned ep).wts t j = b.wts t j := by
  cases ep with
  | none => exact ⟨rfl, rfl⟩
  | some ep =>
    have hmask : ep.ownMask (b.ids t j) = true := h
    simp only [owned, hmask, if_true, mul_one, and_self]

/-- Every other rank gives it no weight. -/
theorem Routed.owned_of_not_owns (h : owns ep (b.ids t j) = false) :
    (b.owned ep).wts t j = 0 := by
  cases ep with
  | none => exact absurd h Bool.true_eq_false_eq_False
  | some ep =>
    have hmask : ep.ownMask (b.ids t j) = false := h
    simp only [owned, hmask, Bool.false_eq_true, if_false, mul_zero]

/-- Whatever comes out of the transform is the rank's own. -/
theorem Routed.owns_owned_ids (ep : Option Ownership) (t j : ℕ) :
    owns ep ((b.owned ep).ids t j) = true := by
  cases ep with
  | none => rfl
  | some ep =>
    change ep.ownMask (if ep.ownMask (b.ids t j) then b.ids t j else ep.sent) = true
    split
    · next h => exact h
    · exact ep.sent_owned

/-- So are the ids that a rank marks. -/
theorem Routed.owns_of_mem_flatIds {e : ℕ} (h : e ∈ (b.owned ep).flatIds) : owns ep e = true := by
  obtain ⟨t, -, j, -, rfl⟩ := Routed.mem_flatIds.mp h
  exact Routed.owns_owned_ids ep t j

end Transform

/-! ### A layer on a rank -/

/-- A layer as a rank holds it: its ownership entry, whether its base is paged, and, if so, the
experts with a slot when the call reads the table. -/
structure Shard where
  ep : Option Ownership
  paged : Bool
  resident : ℕ → Bool

namespace Shard

section Calls

variable {S : Type u} [MulZeroOneClass S] (r : Shard) (b : Routed S)

/-- The ids and weights that reach the experts. -/
def serves : Routed S :=
  if r.paged then (b.owned r.ep).masked r.resident else b.owned r.ep

/-- The expert's row can be read. -/
def holds (e : ℕ) : Bool :=
  !r.paged || r.resident e

variable {r b} {t j : ℕ}

theorem serves_wts : (r.serves b).wts t j =
    if r.holds ((b.owned r.ep).ids t j) then (b.owned r.ep).wts t j else 0 := by
  rw [serves, holds]
  cases r.paged with
  | false => rfl
  | true =>
    simp only [Routed.masked, mul_ite, mul_one, mul_zero, Bool.not_true, Bool.false_or, if_true]

theorem serves_ids : (r.serves b).ids t j = (b.owned r.ep).ids t j := by
  rw [serves]
  cases r.paged <;> rfl

@[simp] theorem serves_k : (r.serves b).k = b.k := by
  rw [serves]
  cases r.paged with
  | false => exact Routed.owned_k
  | true => exact Routed.owned_k

/-- A pair that the rank does not own has no weight there. -/
theorem serves_of_not_owns (h : owns r.ep (b.ids t j) = false) : (r.serves b).wts t j = 0 := by
  rw [serves_wts, Routed.owned_of_not_owns h, ite_self]

variable [DecidableEq S]

/-- The pairs that a call adds to `miss_count`. -/
def missed (r : Shard) (b : Routed S) : Finset (ℕ × ℕ) :=
  if r.paged then
    (Finset.range b.m ×ˢ Finset.range b.k).filter fun p =>
      r.resident ((b.owned r.ep).ids p.1 p.2) = false ∧ (b.owned r.ep).wts p.1 p.2 ≠ 0
  else ∅

theorem mem_missed : (t, j) ∈ r.missed b ↔ (t < b.m ∧ j < b.k) ∧
    r.holds ((b.owned r.ep).ids t j) = false ∧ (b.owned r.ep).wts t j ≠ 0 := by
  rw [missed, holds]
  cases r.paged with
  | false => simp
  | true => simp

/-- A pair that is counted has none either. -/
theorem serves_of_missed (h : (t, j) ∈ r.missed b) : (r.serves b).wts t j = 0 := by
  rw [serves_wts, (mem_missed.mp h).2.1]
  rfl

/-- Once all that a call marks is resident it counts nothing. -/
theorem missed_eq_empty (h : ∀ e ∈ (b.owned r.ep).flatIds, r.resident e = true) :
    r.missed b = ∅ := by
  refine Finset.eq_empty_of_forall_notMem fun p hp => ?_
  obtain ⟨⟨ht, hj⟩, hres, -⟩ := mem_missed.mp hp
  have hmem : (b.owned r.ep).ids p.1 p.2 ∈ (b.owned r.ep).flatIds :=
    Routed.mem_flatIds.mpr ⟨p.1, by rwa [Routed.owned_m], p.2, by rwa [Routed.owned_k], rfl⟩
  rw [holds, h _ hmem, Bool.or_true] at hres
  exact absurd hres Bool.true_eq_false_eq_False

end Calls

section Output

variable {S : Type u} [Semiring S] {V : Type v} [AddCommMonoid V] [Module S V]

/-- The rank's part of the layer's output for a token: `expert t e` is what expert `e` makes of
it, `stale t e` what comes out where `e` has no slot. -/
def output (r : Shard) (expert stale : ℕ → ℕ → V) (b : Routed S) (t : ℕ) : V :=
  ∑ j ∈ Finset.range (r.serves b).k, (r.serves b).wts t j •
    if r.holds ((r.serves b).ids t j) then expert t ((r.serves b).ids t j)
    else stale t ((r.serves b).ids t j)

/-- What a pair adds to the output of a rank. -/
theorem output_eq (r : Shard) (expert stale : ℕ → ℕ → V) (b : Routed S) (t : ℕ) :
    r.output expert stale b t = ∑ j ∈ Finset.range b.k,
      if owns r.ep (b.ids t j) && r.holds (b.ids t j) then b.wts t j • expert t (b.ids t j)
      else 0 := by
  rw [output, serves_k]
  refine Finset.sum_congr rfl fun j _ => ?_
  cases hown : owns r.ep (b.ids t j) with
  | false =>
    rw [serves_of_not_owns hown, zero_smul]
    rfl
  | true =>
    obtain ⟨hids, hwts⟩ := Routed.owned_of_owns hown
    rw [serves_wts, serves_ids, hids, hwts, Bool.true_and]
    cases r.holds (b.ids t j) with
    | false => exact zero_smul S _
    | true => rfl

end Output

end Shard

/-! ### All ranks -/

/-- The weighted sum of a layer that is not shared out. -/
def Routed.output {S : Type u} [Semiring S] {V : Type v} [AddCommMonoid V] [Module S V]
    (expert : ℕ → ℕ → V) (b : Routed S) (t : ℕ) : V :=
  ∑ j ∈ Finset.range b.k, b.wts t j • expert t (b.ids t j)

/-- What becomes of the pair `(t, j)`: `r` owns its expert. -/
structure ServedOnce {S : Type u} [MulZeroOneClass S] [DecidableEq S] {R : Type v}
    (shards : R → Shard) (b : Routed S) (t j : ℕ) (r : R) : Prop where
  kept : ((b.owned (shards r).ep).ids t j = b.ids t j) ∧
    (b.owned (shards r).ep).wts t j = b.wts t j
  /-- the other ranks see it without a weight -/
  others : ∀ q, q ≠ r → (b.owned (shards q).ep).wts t j = 0
  /-- and every rank sees an expert of its own -/
  own : ∀ q, owns (shards q).ep ((b.owned (shards q).ep).ids t j) = true
  missed : (t, j) ∈ (shards r).missed b ↔
    b.wts t j ≠ 0 ∧ (shards r).paged = true ∧ (shards r).resident (b.ids t j) = false
  notMissed : ∀ q, q ≠ r → (t, j) ∉ (shards q).missed b
  /-- a pair that is counted adds nothing on any rank -/
  dropped : (t, j) ∈ (shards r).missed b → ∀ q, ((shards q).serves b).wts t j = 0

section Ranks

variable {S : Type u} {R : Type v} {shards : R → Shard} {t j : ℕ} {r : R}

/-- A pair whose expert has one owner. -/
theorem servedOnce [MulZeroOneClass S] [DecidableEq S] {b : Routed S} (ht : t < b.m) (hj : j < b.k)
    (hr : owns (shards r).ep (b.ids t j) = true)
    (huniq : ∀ q, owns (shards q).ep (b.ids t j) = true → q = r) :
    ServedOnce shards b t j r := by
  have hother : ∀ q, q ≠ r → owns (shards q).ep (b.ids t j) = false := fun q hq =>
    Bool.eq_false_iff.mpr fun h => hq (huniq q h)
  obtain ⟨hids, hwts⟩ := Routed.owned_of_owns hr
  constructor
  case kept => exact ⟨hids, hwts⟩
  case others => exact fun q hq => Routed.owned_of_not_owns (hother q hq)
  case own => exact fun q => Routed.owns_owned_ids _ t j
  case missed =>
    rw [Shard.mem_missed, hids, hwts, Shard.holds, and_iff_right ⟨ht, hj⟩, and_comm]
    simp
  case notMissed =>
    intro q hq h
    exact (Shard.mem_missed.mp h).2.2 (Routed.owned_of_not_owns (hother q hq))
  case dropped =>
    intro hmiss q
    by_cases hq : q = r
    · rw [hq]
      exact Shard.serves_of_missed hmiss
    · exact Shard.serves_of_not_owns (hother q hq)

/-- With nothing counted the ranks' parts add up to the layer's output. -/
theorem sum_output [Semiring S] [DecidableEq S] [Fintype R] {V : Type*} [AddCommMonoid V]
    [Module S V] {b : Routed S}
    (hown : ∀ t < b.m, ∀ j < b.k, ∃ r, owns (shards r).ep (b.ids t j) = true ∧
      ∀ q, owns (shards q).ep (b.ids t j) = true → q = r)
    (hmiss : ∀ r, (shards r).missed b = ∅) (expert : ℕ → ℕ → V) (stale : R → ℕ → ℕ → V)
    (ht : t < b.m) : ∑ r, (shards r).output expert (stale r) b t = b.output expert t := by
  simp only [Shard.output_eq]
  rw [Finset.sum_comm]
  refine Finset.sum_congr rfl fun j hj => ?_
  have hj := Finset.mem_range.mp hj
  obtain ⟨r, hr, huniq⟩ := hown t ht j hj
  rw [Finset.sum_eq_single r]
  · -- the owner has the row, or the weight is zero
    rw [hr, Bool.true_and]
    split
    · rfl
    · next hholds =>
      have hwts : b.wts t j = 0 := by
        by_contra hne
        obtain ⟨hids, hkept⟩ := Routed.owned_of_owns hr
        have hmem : (t, j) ∈ (shards r).missed b :=
          Shard.mem_missed.mpr ⟨⟨ht, hj⟩, by rwa [hids, Bool.eq_false_iff], by rwa [hkept]⟩
        exact Finset.notMem_empty _ (hmiss r ▸ hmem)
      rw [hwts, zero_smul]
  · intro q _ hq
    rw [Bool.eq_false_iff.mpr fun h => hq (huniq q h)]
    rfl
  · exact fun h => absurd (Finset.mem_univ r) h

end Ranks

/-! ### The miss counter of a step -/

/-- `miss_count` after the first `n` layers of a step, from `c` on: the paged layer 0 resets it. -/
def missCount {S : Type u} [MulZeroOneClass S] [DecidableEq S] (shard : ℕ → Shard)
    (b : ℕ → Routed S) (c : ℕ) : ℕ → ℕ
  | 0 => c
  | l + 1 =>
    let c' := missCount shard b c l
    if (shard l).paged then (if l = 0 then 0 else c') + ((shard l).missed (b l)).card else c'

/-- A counter that ends at zero has counted nothing. -/
theorem missed_of_missCount {S : Type u} [MulZeroOneClass S] [DecidableEq S] {shard : ℕ → Shard}
    {b : ℕ → Routed S} {c n : ℕ} (h : missCount shard b c n = 0) :
    ∀ l < n, (shard l).missed (b l) = ∅ := by
  induction n with
  | zero => exact fun l hl => absurd hl (Nat.not_lt_zero l)
  | succ n ih =>
    rw [missCount] at h
    intro l hl
    cases hp : (shard n).paged with
    | false =>
      rw [hp, if_neg Bool.false_ne_true] at h
      rcases Nat.lt_succ_iff_lt_or_eq.mp hl with hlt | rfl
      · exact ih h l hlt
      · simp [Shard.missed, hp]
    | true =>
      rw [hp, if_pos rfl] at h
      have hcard : ((shard n).missed (b n)).card = 0 := by omega
      rcases Nat.lt_succ_iff_lt_or_eq.mp hl with hlt | rfl
      · refine ih ?_ l hlt
        rw [if_neg (by omega)] at h
        omega
      · exact Finset.card_eq_zero.mp hcard

end VllmMoet.Exl3
