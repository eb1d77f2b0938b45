import Mathlib.Algebra.BigOperators.Group.Finset.Basic
import Mathlib.Algebra.Ring.Defs
import Mathlib.Algebra.Ring.Rat
import Mathlib.Tactic.Ring
import VllmMoet.Lib.Int32
import VllmMoet.Lib.Scatter
import VllmMoet.Lib.WarpReduce

/-!
# The weighted unpermute

The aligner sorts the routes `token * top_k + j` by expert into rows, with padding between; the
expert kernels leave a row of `c2` for each. The unpermute sums, for each token, the rows of its
routes times their weights.

* `fusedUnpermute`: one kernel inverts `sorted_ids` into a workspace that holds what earlier
  calls left there, a second one gathers through it and reduces in the order of `j`. Their offsets
  are computed with 32-bit integers (`wrap32`, `strideMul`).
* `unfusedUnpermute`: the weighted rows are copied to the places of their routes, those of the
  padding to a dump row, and summed. Torch computes offsets with 64 bits.
* `fusedUnpermute_ok_iff`: the first computes the second, and the weighted sum, however the rows are
  arranged, as long as no offset exceeds the 32-bit integers (`InRange`).

Threads store in any order. Arithmetic is that of a commutative semiring, that is exact; the
conversion to the type of the output is a parameter.
-/

namespace VllmMoet

universe u v

namespace Unpermute

/-- The tokens, their routes, and the strides of the weights. -/
structure Tokens where
  T : ℕ
  topK : ℕ
  hidden : ℕ
  weightStrideT : ℕ
  weightStrideK : ℕ

/-- The rows of the aligner: how many, the route of each or a padding id, and the stride of `c2`.
Memory goes on beyond the rows: the array `sorted_ids` is what is at the offsets below `slots`. -/
structure Rows where
  slots : ℕ
  sortedIds : ℤ → ℤ
  c2Stride : ℕ

/-- What is in memory, by offset: the weights, `c2`, and the mask of the rows if there is one. -/
structure Operands (S : Type u) where
  weights : ℤ → S
  c2 : ℤ → S
  missRows : Option (ℤ → S)

section Kernels

variable {S : Type u} {D : Type v} (X : Tokens) (R : Rows) (m : Operands S)

/-- `n_routes`. -/
def Tokens.nRoutes : ℕ :=
  X.T * X.topK

/-- Every route has one row, and the other rows have padding ids. -/
structure Aligned : Prop where
  route : ∀ r < X.nRoutes, ∃ i < R.slots, R.sortedIds i = r
  once : ∀ i < R.slots, ∀ i' < R.slots, R.sortedIds i < X.nRoutes →
    R.sortedIds i' = R.sortedIds i → i' = i
  nonneg : ∀ i < R.slots, 0 ≤ R.sortedIds i

/-! ### The fused path -/

/-- `pid * BLOCK + arange(0, BLOCK)` in the threads of `cdiv(n, BLOCK)` programs. -/
def gridOffsets (n block : ℕ) : List ℕ :=
  (List.range ((n + block - 1) / block)).flatMap fun pid =>
    (List.range block).map fun lane => pid * block + lane

/-- `_invert_sorted_ids_kernel`: the store of a thread. -/
def invertStore (x : ℕ) : Option (ℤ × ℤ) :=
  let offset := wrap32 x
  let ids := if offset < R.slots then R.sortedIds offset else -1
  if offset < R.slots ∧ 0 ≤ ids ∧ ids < X.nRoutes then some (ids, offset) else none

variable [CommSemiring S]

/-- What the body of the loop over `j` adds. -/
def product (inverse : ℤ → ℤ) (token : ℕ) (h : ℤ) (j : ℕ) : S :=
  let route := wrap32 (token * X.topK + j : ℕ)
  let slot := inverse route
  let value := m.c2 (strideMul slot R.c2Stride + h)
  let weight := m.weights (strideMul token X.weightStrideT + strideMul j X.weightStrideK)
  let weight :=
    match m.missRows with
    | none => weight
    | some rowMask => weight * rowMask slot
  value * weight

/-- `_deterministic_unpermute_kernel`: the store of a thread of program `token`. The stride of `out`,
a new tensor, is `hidden`. -/
def unpermuteStore (toOut : S → D) (inverse : ℤ → ℤ) (x : ℕ × ℕ) : Option (ℤ × D) :=
  let h := wrap32 x.2
  if h < X.hidden then
    some (strideMul x.1 X.hidden + h,
      toOut ((List.range X.topK).foldl (fun acc j => acc + product X R m inverse x.1 h j) 0))
  else
    none

/-- The threads of its launch, by token and offset. -/
def unpermuteThreads : List (ℕ × ℕ) :=
  (List.range X.T).flatMap fun token =>
    (gridOffsets X.hidden 256).map fun h => (token, h)

/-- The orders in which the threads of the two launches make their stores. -/
structure LaunchOrder where
  invert : List ℕ
  invert_perm : invert.Perm (gridOffsets R.slots 256)
  unpermute : List (ℕ × ℕ)
  unpermute_perm : unpermute.Perm (unpermuteThreads X)

/-- `inverse` after the first launch; `stale` is what the workspace held. -/
def invertSortedIds (o : LaunchOrder X R) (stale : ℤ → ℤ) : ℤ → ℤ :=
  stores (o.invert.filterMap (invertStore X R)) stale

/-- The output after both launches; `out` is what its memory held. -/
def fusedUnpermute (toOut : S → D) (o : LaunchOrder X R) (stale : ℤ → ℤ) (out : ℤ → D) : ℤ → D :=
  stores (o.unpermute.filterMap (unpermuteStore X R m toOut (invertSortedIds X R o stale))) out

/-! ### The unfused path -/

/-- `topk_weights[t, j]`. -/
def Operands.weight (t j : ℕ) : S :=
  m.weights (t * X.weightStrideT + j * X.weightStrideK : ℕ)

/-- `c2[slot, h]`. -/
def Operands.value (slot h : ℕ) : S :=
  m.c2 (slot * R.c2Stride + h : ℕ)

/-- The mask of a row, `1` where there is none. -/
def Operands.mask (slot : ℕ) : S :=
  match m.missRows with
  | none => 1
  | some rowMask => rowMask slot

/-- The index of a tensor of `n` elements, counted from the end where it is negative. -/
def torchIndex (n : ℕ) (i : ℤ) : Option ℕ :=
  if 0 ≤ i ∧ i < n then some i.toNat
  else if -n ≤ i ∧ i < 0 then some (i + n).toNat
  else none

/-- `valid`. -/
def valid (i : ℕ) : Bool :=
  decide (R.sortedIds i < X.nRoutes)

/-- `w`: the weight of a row, zero for padding, times the mask. -/
def rowWeight (i : ℕ) : Option S :=
  (torchIndex X.nRoutes (min (R.sortedIds i) (X.nRoutes - 1))).map fun r =>
    let w := if valid X R i then m.weight X (r / X.topK) (r % X.topK) else 0
    match m.missRows with
    | none => w
    | some rowMask => w * rowMask i

/-- `dst`: the place of a row, the dump row for padding. -/
def dst (i : ℕ) : ℤ :=
  if valid X R i then R.sortedIds i else X.nRoutes

/-- `gath`, its rows copied in the order `s`; it fails on an index out of range. -/
def gath (s : WriteOrder) : Option (ℕ → ℕ → S) :=
  if ∀ i < R.slots, (rowWeight X R m i).isSome ∧ 0 ≤ dst X R i ∧ dst X R i ≤ X.nRoutes then
    some (writes (fun i => (dst X R i).toNat)
      (fun i h => m.value R i h * (rowWeight X R m i).getD 0) (fun _ _ => 0) (s.order R.slots))
  else
    none

/-- The rows of each token summed. -/
def unfusedUnpermute (toOut : S → D) (s : WriteOrder) : Option (ℕ → ℕ → D) :=
  (gath X R m s).map fun g t h => toOut (∑ j ∈ Finset.range X.topK, g (t * X.topK + j) h)

/-! ### What it should do -/

/-- `row` gives the row of each route. -/
def IsRow (row : ℕ → ℕ) : Prop :=
  ∀ r < X.nRoutes, row r < R.slots ∧ R.sortedIds (row r) = r

/-- The weighted sum over the rows of a token's routes. -/
def weightedSum (row : ℕ → ℕ) (t h : ℕ) : S :=
  ∑ j ∈ Finset.range X.topK, m.weight X t j * m.mask (row (t * X.topK + j)) *
    m.value R (row (t * X.topK + j)) h

/-- No offset wraps: neither that of a row with a route in `c2`, nor that of a weight, nor that of a
row of the output; and the rows have 32-bit numbers. -/
structure InRange : Prop where
  slots : R.slots ≤ 2 ^ 31
  rows : 0 < X.hidden → ∀ i < R.slots, R.sortedIds i < X.nRoutes → i * R.c2Stride < 2 ^ 31
  weights : 0 < X.hidden → ∀ t < X.T, ∀ j < X.topK,
    StrideFits t X.weightStrideT ∧ StrideFits j X.weightStrideK
  out : 0 < X.hidden → ∀ t < X.T, t * X.hidden < 2 ^ 31

/-- One call: the entries of `inverse` that are read are stored by it and are the rows of the
routes; every element of the output is the weighted sum, which is what the unfused path computes
too. The latter looks a weight up for every row, and so needs a route. -/
structure Computes (toOut : S → D) (row : ℕ → ℕ) (o : LaunchOrder X R) (stale : ℤ → ℤ)
    (out : ℤ → D) : Prop where
  inverse : ∀ t < X.T, ∀ j < X.topK,
    (wrap32 (t * X.topK + j : ℕ), (row (t * X.topK + j) : ℤ)) ∈
        o.invert.filterMap (invertStore X R) ∧
      invertSortedIds X R o stale (wrap32 (t * X.topK + j : ℕ)) = row (t * X.topK + j)
  sum : ∀ t < X.T, ∀ h < X.hidden,
    fusedUnpermute X R m toOut o stale out (t * X.hidden + h : ℕ) =
      toOut (weightedSum X R m row t h)
  unfused : 0 < X.nRoutes → ∀ s : WriteOrder, ∃ f, unfusedUnpermute X R m toOut s = some f ∧
    ∀ t < X.T, ∀ h < X.hidden,
      fusedUnpermute X R m toOut o stale out (t * X.hidden + h : ℕ) = f t h

/-- The fused unpermute is right for the tokens and the rows: whatever is in memory and in whatever
order the threads store. -/
structure Correct (toOut : S → D) : Prop where
  /-- `sorted_ids` is read where the array is -/
  reads : ∀ x ∈ gridOffsets R.slots 256, wrap32 x < R.slots → 0 ≤ wrap32 x
  computes : ∀ (row : ℕ → ℕ), IsRow X R row → ∀ (m : Operands S) (o : LaunchOrder X R)
    (stale : ℤ → ℤ) (out : ℤ → D), Computes X R m toOut row o stale out
  /-- another arrangement of the same rows, with no offset that wraps either, gives the same -/
  reordered : ∀ (m : Operands S) (o : LaunchOrder X R) (stale : ℤ → ℤ) (out : ℤ → D)
    (R' : Rows) (m' : Operands S) (o' : LaunchOrder X R') (stale' : ℤ → ℤ) (out' : ℤ → D),
    Aligned X R' → InRange X R' → X.hidden ≤ R'.c2Stride → R'.c2Stride < 2 ^ 31 →
    m'.weights = m.weights →
    (∀ r < X.nRoutes, ∀ i < R.slots, ∀ i' < R'.slots, R.sortedIds i = r → R'.sortedIds i' = r →
      m.mask i = m'.mask i' ∧ ∀ h < X.hidden, m.value R i h = m'.value R' i' h) →
    ∀ t < X.T, ∀ h < X.hidden,
      fusedUnpermute X R m toOut o stale out (t * X.hidden + h : ℕ) =
        fusedUnpermute X R' m' toOut o' stale' out' (t * X.hidden + h : ℕ)

end Kernels

/-! ### The grid -/

theorem mem_gridOffsets {n block i : ℕ} (hb : 0 < block) (hi : i < n) : i ∈ gridOffsets n block := by
  have hdm : i / block * block + i % block = i := Nat.div_add_mod' i block
  have hpid : i / block < (n + block - 1) / block := by
    have hle : (i + block) / block ≤ (n + block - 1) / block := Nat.div_le_div_right (by omega)
    rw [Nat.add_div_right i hb] at hle
    omega
  simp only [gridOffsets, List.mem_flatMap, List.mem_map, List.mem_range]
  exact ⟨i / block, hpid, i % block, Nat.mod_lt i hb, hdm⟩

/-- The last program's block ends at a multiple of 256, as `2 ^ 31` is one. -/
theorem lt_of_mem_gridOffsets {n i : ℕ} (hn : n ≤ 2 ^ 31) (hi : i ∈ gridOffsets n 256) :
    i < 2 ^ 31 := by
  simp only [gridOffsets, List.mem_flatMap, List.mem_map, List.mem_range] at hi
  obtain ⟨pid, hpid, lane, hlane, rfl⟩ := hi
  omega

theorem mem_unpermuteThreads {X : Tokens} {t h : ℕ} (ht : t < X.T) (hh : h < X.hidden) :
    (t, h) ∈ unpermuteThreads X := by
  simp only [unpermuteThreads, List.mem_flatMap, List.mem_map, List.mem_range]
  exact ⟨t, ht, h, mem_gridOffsets (by decide) hh, rfl⟩

theorem of_mem_unpermuteThreads {X : Tokens} {x : ℕ × ℕ} (hx : x ∈ unpermuteThreads X) :
    x.1 < X.T ∧ x.2 ∈ gridOffsets X.hidden 256 := by
  simp only [unpermuteThreads, List.mem_flatMap, List.mem_map, List.mem_range] at hx
  obtain ⟨t, ht, h, hh, rfl⟩ := hx
  exact ⟨ht, hh⟩

/-! ### The rows -/

section Inverse

variable {X : Tokens} {R : Rows} {row : ℕ → ℕ}

theorem Aligned.exists_row (h : Aligned X R) : ∃ row, IsRow X R row := by
  choose row hrow using fun r : Fin X.nRoutes => h.route r r.isLt
  refine ⟨fun r => if hr : r < X.nRoutes then row ⟨r, hr⟩ else 0, fun r hr => ?_⟩
  simp only [dif_pos hr]
  exact hrow ⟨r, hr⟩

/-- The row of a route is the one that has its id. -/
theorem Aligned.row_eq (h : Aligned X R) (hrow : IsRow X R row) {r i : ℕ} (hr : r < X.nRoutes)
    (hi : i < R.slots) (hid : R.sortedIds i = r) : row r = i := by
  obtain ⟨hlt, hrid⟩ := hrow r hr
  exact h.once i hi _ hlt (by omega) (hrid.trans hid.symm)

theorem IsRow.inj (hrow : IsRow X R row) {r r' : ℕ} (hr : r < X.nRoutes) (hr' : r' < X.nRoutes)
    (heq : row r = row r') : r = r' := by
  have h := (hrow r hr).2
  rw [heq, (hrow r' hr').2] at h
  omega

/-- Routes have rows of their own, so there are at least as many rows. -/
theorem IsRow.nRoutes_le (hrow : IsRow X R row) : X.nRoutes ≤ R.slots := by
  have hle := Finset.card_le_card_of_injOn (s := Finset.range X.nRoutes)
    (t := Finset.range R.slots) row
    (fun r hr => by simpa using (hrow r (Finset.mem_range.mp hr)).1)
    fun r hr r' hr' => hrow.inj (by simpa using hr) (by simpa using hr')
  simpa using hle

/-- A route of a token is one of all routes. -/
theorem Tokens.route_lt {t j : ℕ} (ht : t < X.T) (hj : j < X.topK) :
    t * X.topK + j < X.nRoutes :=
  calc t * X.topK + j < t * X.topK + X.topK := by omega
    _ = (t + 1) * X.topK := (Nat.succ_mul t X.topK).symm
    _ ≤ X.nRoutes := Nat.mul_le_mul_right _ ht

/-! ### The inverse -/

/-- A row with a route stores its number in the place of the route, the others store nothing. -/
theorem invertStore_eq_some {x : ℕ} (hx : x < 2 ^ 31) {r i : ℤ} :
    invertStore X R x = some (r, i) ↔
      x < R.slots ∧ 0 ≤ r ∧ r < X.nRoutes ∧ R.sortedIds x = r ∧ i = x := by
  rw [invertStore, wrap32_of_lt hx]
  by_cases hi : x < R.slots
  · simp only [Nat.cast_lt, hi, if_true, true_and]
    constructor
    · intro h
      split_ifs at h with hid
      obtain ⟨rfl, rfl⟩ := Prod.ext_iff.mp (Option.some_inj.mp h)
      exact ⟨hid.1, hid.2, rfl, rfl⟩
    · rintro ⟨h0, hr, rfl, rfl⟩
      rw [if_pos ⟨h0, hr⟩]
  · simp [hi]

theorem mem_invertStores (hs : R.slots ≤ 2 ^ 31) {o : LaunchOrder X R} {r i : ℤ} :
    (r, i) ∈ o.invert.filterMap (invertStore X R) ↔
      ∃ x < R.slots, 0 ≤ r ∧ r < X.nRoutes ∧ R.sortedIds x = r ∧ i = x := by
  rw [List.mem_filterMap]
  constructor
  · rintro ⟨x, hx, h⟩
    have hlt := lt_of_mem_gridOffsets hs (o.invert_perm.mem_iff.mp hx)
    obtain ⟨hi, hrest⟩ := (invertStore_eq_some hlt).mp h
    exact ⟨x, hi, hrest⟩
  · rintro ⟨x, hx, hrest⟩
    exact ⟨x, o.invert_perm.mem_iff.mpr (mem_gridOffsets (by decide) hx),
      (invertStore_eq_some (by omega)).mpr ⟨hx, hrest⟩⟩

/-- The row of a route is stored by the call, whatever the workspace held. -/
theorem invertSortedIds_eq (h : Aligned X R) (hs : R.slots ≤ 2 ^ 31) (hrow : IsRow X R row)
    (o : LaunchOrder X R) (stale : ℤ → ℤ) {r : ℕ} (hr : r < X.nRoutes) :
    (wrap32 r, (row r : ℤ)) ∈ o.invert.filterMap (invertStore X R) ∧
      invertSortedIds X R o stale (wrap32 r) = row r := by
  obtain ⟨hi, hid⟩ := hrow r hr
  have hle := hrow.nRoutes_le
  rw [wrap32_of_lt (by omega : r < 2 ^ 31)]
  have hmem : ((r : ℤ), (row r : ℤ)) ∈ o.invert.filterMap (invertStore X R) :=
    (mem_invertStores hs).mpr ⟨row r, hi, by omega, by omega, hid, rfl⟩
  refine ⟨hmem, stores_of_mem hmem ?_⟩
  rintro ⟨r', i'⟩ hx rfl
  obtain ⟨x, hlt, _, _, hid', rfl⟩ := (mem_invertStores hs).mp hx
  exact congrArg Nat.cast (h.row_eq hrow hr hlt hid').symm

end Inverse

/-! ### The fused path -/

section Fused

variable {S : Type u} {D : Type v} [CommSemiring S] {X : Tokens} {R : Rows} {m : Operands S}
  {row : ℕ → ℕ} {toOut : S → D}

/-- The loop over `j` is a sum. -/
theorem foldl_product (inverse : ℤ → ℤ) (t : ℕ) (h : ℤ) (n : ℕ) :
    (List.range n).foldl (fun acc j => acc + product X R m inverse t h j) 0 =
      ∑ j ∈ Finset.range n, product X R m inverse t h j := by
  induction n with
  | zero => rfl
  | succ n ih => rw [List.range_succ, List.foldl_append, ih, Finset.sum_range_succ]; rfl

theorem mem_unpermuteStores (hh : X.hidden < 2 ^ 31) {inverse : ℤ → ℤ} {o : LaunchOrder X R} {a : ℤ}
    {d : D} :
    (a, d) ∈ o.unpermute.filterMap (unpermuteStore X R m toOut inverse) ↔
      ∃ t < X.T, ∃ h < X.hidden, a = strideMul t X.hidden + h ∧
        d = toOut (∑ j ∈ Finset.range X.topK, product X R m inverse t h j) := by
  simp only [List.mem_filterMap, unpermuteStore, foldl_product]
  constructor
  · rintro ⟨⟨t, h⟩, hx, he⟩
    obtain ⟨ht, hgrid⟩ := of_mem_unpermuteThreads (o.unpermute_perm.mem_iff.mp hx)
    simp only [wrap32_of_lt (lt_of_mem_gridOffsets hh.le hgrid)] at he
    split_ifs at he with hlt
    obtain ⟨rfl, rfl⟩ := Prod.ext_iff.mp (Option.some_inj.mp he)
    exact ⟨t, ht, h, by omega, rfl, rfl⟩
  · rintro ⟨t, ht, h, hlt, rfl, rfl⟩
    refine ⟨(t, h), o.unpermute_perm.mem_iff.mpr (mem_unpermuteThreads ht hlt), ?_⟩
    simp only [wrap32_of_lt (by omega : h < 2 ^ 31)]
    exact if_pos (by omega)

/-- Two elements of the output have the same place only if they are the same. -/
theorem outPlace_inj {n t h t' h' : ℕ} (hh : h < n) (hh' : h' < n)
    (heq : t * n + h = t' * n + h') : t = t' ∧ h = h' := by
  have hn : 0 < n := by omega
  have ht : t = t' := by
    have h₁ : (t * n + h) / n = t := by
      rw [Nat.mul_comm, Nat.mul_add_div hn, Nat.div_eq_of_lt hh, Nat.add_zero]
    have h₂ : (t' * n + h') / n = t' := by
      rw [Nat.mul_comm, Nat.mul_add_div hn, Nat.div_eq_of_lt hh', Nat.add_zero]
    rw [← h₁, heq, h₂]
  subst ht
  exact ⟨rfl, by omega⟩

/-- If the offsets of the output do not wrap, each of its elements is the sum over the entries of
`inverse` of its token. -/
theorem fusedUnpermute_eq (hh : X.hidden < 2 ^ 31) (hout : ∀ t < X.T, t * X.hidden < 2 ^ 31)
    (o : LaunchOrder X R) (stale : ℤ → ℤ) (out : ℤ → D) {t h : ℕ} (ht : t < X.T)
    (hlt : h < X.hidden) :
    fusedUnpermute X R m toOut o stale out (t * X.hidden + h : ℕ) =
      toOut (∑ j ∈ Finset.range X.topK, product X R m (invertSortedIds X R o stale) t h j) := by
  have hbase (t : ℕ) (ht : t < X.T) : strideMul t X.hidden = (t * X.hidden : ℕ) :=
    (strideMul_eq_iff.mpr fun _ => hout t ht).trans (Nat.cast_mul _ _).symm
  refine stores_of_mem ((mem_unpermuteStores hh).mpr ⟨t, ht, h, hlt, ?_, rfl⟩) ?_
  · rw [hbase t ht, Nat.cast_add]
  · rintro ⟨a, d⟩ hx rfl
    obtain ⟨t', ht', h', hlt', heq, rfl⟩ := (mem_unpermuteStores hh).mp hx
    rw [hbase t' ht', ← Nat.cast_add, Nat.cast_inj] at heq
    obtain ⟨rfl, rfl⟩ := outPlace_inj hlt hlt' heq
    rfl

/-- A route's product is its row's value, read at an offset that may have wrapped, times its weight,
read at another one, times the mask. -/
theorem product_eq {inverse : ℤ → ℤ} {t h j : ℕ}
    (hinv : inverse (wrap32 (t * X.topK + j : ℕ)) = row (t * X.topK + j)) :
    product X R m inverse t h j =
      m.weights (strideMul t X.weightStrideT + strideMul j X.weightStrideK) *
        m.mask (row (t * X.topK + j)) *
        m.c2 (strideMul (row (t * X.topK + j)) R.c2Stride + h) := by
  rw [product, Operands.mask]
  simp only [hinv]
  cases m.missRows with
  | none => ring
  | some rowMask => ring

/-- In range, it is what the weighted sum adds. -/
theorem InRange.product_eq (hr : InRange X R) (hrow : IsRow X R row) {inverse : ℤ → ℤ} {t h j : ℕ}
    (ht : t < X.T) (hh : h < X.hidden) (hj : j < X.topK)
    (hinv : inverse (wrap32 (t * X.topK + j : ℕ)) = row (t * X.topK + j)) :
    product X R m inverse t h j = m.weight X t j * m.mask (row (t * X.topK + j)) *
      m.value R (row (t * X.topK + j)) h := by
  obtain ⟨hi, hid⟩ := hrow _ (X.route_lt ht hj)
  have hfit : row (t * X.topK + j) * R.c2Stride < 2 ^ 31 :=
    hr.rows (by omega) _ hi (by have := X.route_lt ht hj; omega)
  obtain ⟨hwt, hwk⟩ := hr.weights (by omega) t ht j hj
  rw [Unpermute.product_eq hinv, strideMul_eq_iff.mpr hwt, strideMul_eq_iff.mpr hwk,
    strideMul_eq_iff.mpr fun _ => hfit, Operands.weight, Operands.value]
  push_cast
  rfl

/-- **In range, every element of the output is the weighted sum.** -/
theorem InRange.fusedUnpermute_eq (hr : InRange X R) (ha : Aligned X R) (hh : X.hidden < 2 ^ 31)
    (hrow : IsRow X R row) (o : LaunchOrder X R) (stale : ℤ → ℤ) (out : ℤ → D) {t h : ℕ}
    (ht : t < X.T) (hlt : h < X.hidden) :
    fusedUnpermute X R m toOut o stale out (t * X.hidden + h : ℕ) =
      toOut (weightedSum X R m row t h) := by
  rw [Unpermute.fusedUnpermute_eq hh (hr.out (by omega)) o stale out ht hlt, weightedSum]
  refine congrArg toOut (Finset.sum_congr rfl fun j hj => ?_)
  have hj := Finset.mem_range.mp hj
  exact hr.product_eq hrow ht hlt hj
    (invertSortedIds_eq ha hr.slots hrow o stale (X.route_lt ht hj)).2

end Fused

/-! ### The unfused path -/

section Dump

variable {X : Tokens} {R : Rows}

/-- No row is copied out of range. -/
theorem dst_range (h : Aligned X R) {i : ℕ} (hi : i < R.slots) :
    0 ≤ dst X R i ∧ dst X R i ≤ X.nRoutes := by
  have hid := h.nonneg i hi
  rw [dst]
  split_ifs with hv
  · have := of_decide_eq_true hv
    omega
  · omega

/-- Only the row of a route is copied to its place. -/
theorem dst_eq_route (h : Aligned X R) {i i' r : ℕ} (hi : i < R.slots) (hi' : i' < R.slots)
    (hr : r < X.nRoutes) (hid : R.sortedIds i = r) (hd : (dst X R i').toNat = r) : i' = i := by
  have hnn := (dst_range h hi').1
  rw [dst] at hd hnn
  split_ifs at hd hnn with hv
  · exact h.once i hi i' hi' (by omega) (by omega)
  · omega

end Dump

section Unfused

variable {S : Type u} {D : Type v} [CommSemiring S] {X : Tokens} {R : Rows} {m : Operands S}
  {row : ℕ → ℕ}

/-- The weight of a row is found, its id clamped to the last route. -/
theorem exists_rowWeight (h : Aligned X R) (hn : 0 < X.nRoutes) {i : ℕ} (hi : i < R.slots) :
    (rowWeight X R m i).isSome := by
  have hid := h.nonneg i hi
  rw [rowWeight, torchIndex, if_pos ⟨by omega, by omega⟩]
  rfl

/-- The row of a route has the route's weight and mask. -/
theorem rowWeight_route {t j i : ℕ} (ht : t < X.T) (hj : j < X.topK)
    (hid : R.sortedIds i = ↑(t * X.topK + j)) :
    rowWeight X R m i = some (m.weight X t j * m.mask i) := by
  have hr := X.route_lt ht hj
  have hmin : min (R.sortedIds i) (X.nRoutes - 1) = ↑(t * X.topK + j) := by omega
  have hvalid : valid X R i = true := decide_eq_true (by omega)
  have hdiv : (t * X.topK + j) / X.topK = t := by
    rw [Nat.mul_comm, Nat.mul_add_div (by omega), Nat.div_eq_of_lt hj, Nat.add_zero]
  have hmod : (t * X.topK + j) % X.topK = j := by
    rw [Nat.mul_comm, Nat.mul_add_mod, Nat.mod_eq_of_lt hj]
  rw [rowWeight, hmin, torchIndex, if_pos ⟨by omega, by omega⟩, Option.map_some, Int.toNat_natCast,
    hdiv, hmod, hvalid, Operands.mask]
  cases m.missRows with
  | none => rw [if_pos rfl, mul_one]
  | some rowMask => rw [if_pos rfl]

/-- The unfused path computes the weighted sums, whether or not 32-bit offsets would wrap. -/
theorem unfusedUnpermute_eq (h : Aligned X R) (hn : 0 < X.nRoutes) (hrow : IsRow X R row)
    (toOut : S → D) (s : WriteOrder) :
    ∃ f, unfusedUnpermute X R m toOut s = some f ∧ ∀ t < X.T, ∀ h < X.hidden,
      f t h = toOut (weightedSum X R m row t h) := by
  have hall : ∀ i < R.slots, (rowWeight X R m i).isSome ∧ 0 ≤ dst X R i ∧ dst X R i ≤ X.nRoutes :=
    fun i hi => ⟨exists_rowWeight h hn hi, dst_range h hi⟩
  rw [unfusedUnpermute, gath, if_pos hall, Option.map_some]
  refine ⟨_, rfl, fun t ht h' _ => ?_⟩
  refine congrArg toOut (Finset.sum_congr rfl fun j hj => ?_)
  have hj' : j < X.topK := Finset.mem_range.mp hj
  have hr := X.route_lt ht hj'
  obtain ⟨hi, hid⟩ := hrow _ hr
  -- one row is copied to the place of the route
  have hwrite : writes (fun i => (dst X R i).toNat)
      (fun i h => m.value R i h * (rowWeight X R m i).getD 0) (fun _ _ => 0) (s.order R.slots)
      (t * X.topK + j) = fun h => m.value R (row (t * X.topK + j)) h *
        (rowWeight X R m (row (t * X.topK + j))).getD 0 := by
    refine writes_of_mem ⟨row (t * X.topK + j), s.mem_order.mpr hi, ?_⟩ fun i' hi' he => ?_
    · have hvalid : valid X R (row (t * X.topK + j)) = true := decide_eq_true (by omega)
      rw [dst, if_pos hvalid, hid, Int.toNat_natCast]
    · rw [dst_eq_route h hi (s.mem_order.mp hi') hr hid he]
  rw [hwrite, rowWeight_route ht hj' hid, Option.getD_some]
  ring

end Unfused

/-! ### In range -/

section Result

variable {S : Type u} {D : Type v} [CommSemiring S] {X : Tokens} {R : Rows} {toOut : S → D}

theorem InRange.computes (hr : InRange X R) (ha : Aligned X R) (hh : X.hidden < 2 ^ 31)
    {row : ℕ → ℕ} (hrow : IsRow X R row) (m : Operands S) (o : LaunchOrder X R) (stale : ℤ → ℤ)
    (out : ℤ → D) : Computes X R m toOut row o stale out where
  inverse t ht j hj := invertSortedIds_eq ha hr.slots hrow o stale (X.route_lt ht hj)
  sum t ht h hlt := hr.fusedUnpermute_eq ha hh hrow o stale out ht hlt
  unfused hn s := by
    obtain ⟨f, hf, hsum⟩ := unfusedUnpermute_eq ha hn hrow toOut s
    refine ⟨f, hf, fun t ht h hlt => ?_⟩
    rw [hr.fusedUnpermute_eq ha hh hrow o stale out ht hlt, hsum t ht h hlt]

theorem InRange.correct (hr : InRange X R) (ha : Aligned X R) (hh : X.hidden < 2 ^ 31) :
    Correct X R toOut where
  reads x hx _ := by
    rw [wrap32_of_lt (lt_of_mem_gridOffsets hr.slots hx)]
    omega
  computes row hrow := hr.computes ha hh hrow
  reordered m o stale out R' m' o' stale' out' ha' hr' _ _ hweights hsame t ht h hlt := by
    obtain ⟨row, hrow⟩ := ha.exists_row
    obtain ⟨row', hrow'⟩ := ha'.exists_row
    rw [hr.fusedUnpermute_eq ha hh hrow o stale out ht hlt,
      hr'.fusedUnpermute_eq ha' hh hrow' o' stale' out' ht hlt]
    refine congrArg toOut (Finset.sum_congr rfl fun j hj => ?_)
    have hroute := X.route_lt ht (Finset.mem_range.mp hj)
    obtain ⟨hi, hid⟩ := hrow _ hroute
    obtain ⟨hi', hid'⟩ := hrow' _ hroute
    obtain ⟨hmask, hvalue⟩ := hsame _ hroute _ hi _ hi' hid hid'
    rw [Operands.weight, Operands.weight, hweights, hmask, hvalue h hlt]

end Result

/-! ### Out of range -/

section Converse

variable {S : Type u} {D : Type v} [CommSemiring S] {X : Tokens} {R : Rows} {toOut : S → D}
  {row : ℕ → ℕ}

/-- The threads store in order. -/
def LaunchOrder.ascending (X : Tokens) (R : Rows) : LaunchOrder X R :=
  ⟨gridOffsets R.slots 256, .refl _, unpermuteThreads X, .refl _⟩

/-- Beyond `2 ^ 31` rows the offset of a thread is negative, which no comparison with `n_slots`
holds back. -/
theorem Correct.slots_le (h : Correct X R toOut) : R.slots ≤ 2 ^ 31 := by
  by_contra hgt
  have hwrap : wrap32 (2147483648 : ℕ) = -2147483648 := by decide
  have := h.reads 2147483648 (mem_gridOffsets (by decide) (by omega)) (by omega)
  omega

/-- If the offset of a row of the output wraps, the last element is not written. -/
theorem Correct.out_lt (h : Correct X R toOut) (hrow : IsRow X R row) (hh : X.hidden < 2 ^ 31)
    (hne : toOut 0 ≠ toOut 1) (hpos : 0 < X.hidden) {t : ℕ} (ht : t < X.T) :
    t * X.hidden < 2 ^ 31 := by
  by_contra hge
  have hlast : t * X.hidden ≤ (X.T - 1) * X.hidden := Nat.mul_le_mul_right _ (by omega)
  have hsum := (h.computes row hrow ⟨fun _ => 0, fun _ => 0, none⟩ (.ascending X R) (fun _ => 0)
    fun _ => toOut 1).sum (X.T - 1) (by omega) (X.hidden - 1) (by omega)
  have hzero : weightedSum X R (⟨fun _ => 0, fun _ => 0, none⟩ : Operands S) row (X.T - 1)
      (X.hidden - 1) = 0 :=
    Finset.sum_eq_zero fun j _ => by rw [Operands.value, mul_zero]
  rw [hzero, fusedUnpermute, stores_of_notMem] at hsum
  · exact hne hsum.symm
  · rintro ⟨a, d⟩ hx heq
    obtain ⟨t', _, h', hlt', rfl, -⟩ := (mem_unpermuteStores hh).mp hx
    have := strideMul_lt t' hh
    dsimp only at heq
    omega

/-- Both sums, as the conversion to the output shows them. -/
theorem Correct.toOut_sum (h : Correct X R toOut) (hrow : IsRow X R row) (hh : X.hidden < 2 ^ 31)
    (hne : toOut 0 ≠ toOut 1) (hpos : 0 < X.hidden) (m : Operands S) {t : ℕ} (ht : t < X.T) :
    toOut (∑ j ∈ Finset.range X.topK,
        m.weights (strideMul t X.weightStrideT + strideMul j X.weightStrideK) *
          m.mask (row (t * X.topK + j)) * m.c2 (strideMul (row (t * X.topK + j)) R.c2Stride)) =
      toOut (weightedSum X R m row t 0) := by
  have hc := h.computes row hrow m (.ascending X R) (fun _ => 0) fun _ => toOut 0
  rw [← hc.sum t ht 0 hpos, fusedUnpermute_eq hh (fun t ht => h.out_lt hrow hh hne hpos ht) _ _ _
    ht hpos]
  refine congrArg toOut (Finset.sum_congr rfl fun j hj => ?_)
  rw [product_eq (hc.inverse t ht j (Finset.mem_range.mp hj)).2, Nat.cast_zero, add_zero]

/-- If `c2` has a 1 where the row of one route begins, and zeros elsewhere, its weight is left. -/
theorem weightedSum_single (hrow : IsRow X R row) (hs : 0 < R.c2Stride) {w : ℤ → S} {t j : ℕ}
    (ht : t < X.T) (hj : j < X.topK) : weightedSum X R
      ⟨w, Pi.single (row (t * X.topK + j) * R.c2Stride : ℕ) 1, none⟩ row t 0 =
        w (t * X.weightStrideT + j * X.weightStrideK : ℕ) := by
  rw [weightedSum, Finset.sum_eq_single j]
  · simp [Operands.weight, Operands.mask, Operands.value]
  · intro j' hj' hne
    have hne' : row (t * X.topK + j') ≠ row (t * X.topK + j) := fun heq => hne (by
      have := hrow.inj (X.route_lt ht (Finset.mem_range.mp hj')) (X.route_lt ht hj) heq
      omega)
    have hplace : ((row (t * X.topK + j') * R.c2Stride + 0 : ℕ) : ℤ) ≠
        (row (t * X.topK + j) * R.c2Stride : ℕ) :=
      fun heq => hne' (Nat.eq_of_mul_eq_mul_right hs (Nat.cast_inj.mp heq))
    rw [Operands.value]
    dsimp only
    rw [Pi.single_eq_of_ne hplace, mul_zero]
  · exact fun h => absurd (Finset.mem_range.mpr hj) h

/-- A route is one of a token. -/
theorem Tokens.exists_route {r : ℕ} (hr : r < X.nRoutes) :
    ∃ t < X.T, ∃ j < X.topK, r = t * X.topK + j := by
  have hk : 0 < X.topK := Nat.pos_of_ne_zero fun h0 => by simp [Tokens.nRoutes, h0] at hr
  exact ⟨r / X.topK, Nat.div_lt_of_lt_mul (hr.trans_eq (Nat.mul_comm _ _)), r % X.topK,
    Nat.mod_lt _ hk, (Nat.div_add_mod' r X.topK).symm⟩

/-- If the offset of a row with a route wraps, its values are not read. -/
theorem Correct.rows_lt (h : Correct X R toOut) (ha : Aligned X R) (hc : X.hidden ≤ R.c2Stride)
    (hs : R.c2Stride < 2 ^ 31) (hne : toOut 0 ≠ toOut 1) (hpos : 0 < X.hidden) {i : ℕ}
    (hi : i < R.slots) (hid : R.sortedIds i < X.nRoutes) : i * R.c2Stride < 2 ^ 31 := by
  obtain ⟨row, hrow⟩ := ha.exists_row
  obtain ⟨r, hr⟩ := Int.eq_ofNat_of_zero_le (ha.nonneg i hi)
  rw [hr] at hid
  obtain ⟨t, ht, j, hj, rfl⟩ := X.exists_route (Nat.cast_lt.mp hid)
  obtain rfl := ha.row_eq hrow (X.route_lt ht hj) hi hr
  by_contra hge
  refine hne ?_
  have hsum := h.toOut_sum hrow (hc.trans_lt hs) hne hpos
    ⟨fun _ => 1, Pi.single (row (t * X.topK + j) * R.c2Stride : ℕ) 1, none⟩ ht
  rw [weightedSum_single hrow (hpos.trans_le hc) ht hj, Finset.sum_eq_zero fun j' _ => ?_] at hsum
  · exact hsum
  · have hlt := strideMul_lt (row (t * X.topK + j')) hs
    have hplace : strideMul (row (t * X.topK + j')) R.c2Stride ≠
        (row (t * X.topK + j) * R.c2Stride : ℕ) := by omega
    dsimp only
    rw [Pi.single_eq_of_ne hplace, mul_zero]

/-- If the offset of a weight wraps, it is not read. -/
theorem Correct.weights_fit (h : Correct X R toOut) (ha : Aligned X R) (hc : X.hidden ≤ R.c2Stride)
    (hs : R.c2Stride < 2 ^ 31) (hne : toOut 0 ≠ toOut 1) (hpos : 0 < X.hidden) {t j : ℕ}
    (ht : t < X.T) (hj : j < X.topK) :
    strideMul t X.weightStrideT + strideMul j X.weightStrideK =
      (t * X.weightStrideT + j * X.weightStrideK : ℕ) := by
  obtain ⟨row, hrow⟩ := ha.exists_row
  by_contra hwrap
  refine hne ?_
  have hsum := h.toOut_sum hrow (hc.trans_lt hs) hne hpos
    ⟨Pi.single (t * X.weightStrideT + j * X.weightStrideK : ℕ) 1,
      Pi.single (row (t * X.topK + j) * R.c2Stride : ℕ) 1, none⟩ ht
  rw [weightedSum_single hrow (hpos.trans_le hc) ht hj, Pi.single_eq_same,
    Finset.sum_eq_zero fun j' hj' => ?_] at hsum
  · exact hsum
  · -- only the row of this route is not zero, and for it another weight is read
    have hroute := X.route_lt ht (Finset.mem_range.mp hj')
    obtain ⟨hi, hid⟩ := hrow _ hroute
    have hfit := h.rows_lt ha hc hs hne hpos hi (by omega)
    dsimp only
    by_cases heq : j' = j
    · rw [heq, Pi.single_eq_of_ne hwrap, zero_mul, zero_mul]
    · have hplace : strideMul (row (t * X.topK + j')) R.c2Stride ≠
          (row (t * X.topK + j) * R.c2Stride : ℕ) := by
        rw [strideMul_eq_iff.mpr fun _ => hfit, ← Nat.cast_mul]
        intro hc'
        have hsame := Nat.eq_of_mul_eq_mul_right (hpos.trans_le hc) (Nat.cast_inj.mp hc')
        have := hrow.inj hroute (X.route_lt ht hj) hsame
        omega
      rw [Pi.single_eq_of_ne hplace, mul_zero]

/-- What is right is in range. -/
theorem Correct.inRange (h : Correct X R toOut) (ha : Aligned X R) (hc : X.hidden ≤ R.c2Stride)
    (hs : R.c2Stride < 2 ^ 31) (hne : toOut 0 ≠ toOut 1) : InRange X R where
  slots := h.slots_le
  rows hpos _ hi hid := h.rows_lt ha hc hs hne hpos hi hid
  weights hpos t ht j hj := by
    have hzero (stride : ℕ) : strideMul (0 : ℕ) stride = 0 := by
      rw [strideMul_eq_iff.mpr fun _ => by omega, Nat.cast_zero, zero_mul]
    have hwt := h.weights_fit ha hc hs hne hpos ht (j := 0) (by omega)
    have hwk := h.weights_fit ha hc hs hne hpos (t := 0) (by omega) hj
    rw [hzero, add_zero, Nat.zero_mul, Nat.add_zero] at hwt
    rw [hzero, zero_add, Nat.zero_mul, Nat.zero_add] at hwk
    exact ⟨strideMul_eq_iff.mp (hwt.trans (Nat.cast_mul _ _)),
      strideMul_eq_iff.mp (hwk.trans (Nat.cast_mul _ _))⟩
  out hpos t ht := by
    obtain ⟨row, hrow⟩ := ha.exists_row
    exact h.out_lt hrow (hc.trans_lt hs) hne hpos ht

/-- **The fused unpermute is the unfused one as long as no offset wraps.** For any arrangement of the
rows, in a `c2` whose rows have their own place and a 32-bit stride, and for any conversion to the
output that can tell 0 from 1: the fused unpermute is right, whatever is in memory and in whatever
order its threads store, exactly if the rows have 32-bit numbers and no offset of a row with a
route, of a weight or of a row of the output exceeds the 32-bit integers. -/
theorem fusedUnpermute_ok_iff (X : Tokens) (R : Rows) (ha : Aligned X R)
    (hc : X.hidden ≤ R.c2Stride) (hs : R.c2Stride < 2 ^ 31) (toOut : S → D)
    (hne : toOut 0 ≠ toOut 1) : Correct X R toOut ↔ InRange X R :=
  ⟨fun h => h.inRange ha hc hs hne, fun h => h.correct ha (hc.trans_lt hs)⟩

/-- One token with two routes. -/
def oneToken : Tokens :=
  ⟨1, 2, 1, 2, 1⟩

/-- Its routes in the third and the first of three rows. -/
def threeRows : Rows :=
  ⟨3, fun i => if i = 0 then 1 else if i = 1 then 2 else 0, 1⟩

/-- It is right. -/
theorem fusedUnpermute_ok_oneToken : Correct oneToken threeRows (id : ℚ → ℚ) := by
  have ha : Aligned oneToken threeRows := ⟨by decide, by decide, by decide⟩
  refine (fusedUnpermute_ok_iff oneToken threeRows ha (by decide) (by decide) id
    (by decide)).mpr ⟨by decide, fun _ => by decide, fun _ => by decide, fun _ => by decide⟩

/-- 65536 tokens of eight routes, of 4096 elements. -/
def manyTokens : Tokens :=
  ⟨65536, 8, 4096, 8, 1⟩

/-- Their rows, behind one block of padding. -/
def paddedRows : Rows :=
  ⟨524304, fun i => if i < 16 then 524288 else i - 16, 4096⟩

theorem aligned_paddedRows : Aligned manyTokens paddedRows where
  route r hr := by
    have hr : r < 524288 := hr
    refine ⟨r + 16, show r + 16 < 524304 by omega, ?_⟩
    change (if ((r + 16 : ℕ) : ℤ) < 16 then (524288 : ℤ) else (r + 16 : ℕ) - 16) = r
    rw [if_neg (by omega)]
    omega
  once i _ i' _ hid heq := by
    change (if (i : ℤ) < 16 then (524288 : ℤ) else i - 16) < 524288 at hid
    change (if (i' : ℤ) < 16 then (524288 : ℤ) else i' - 16) =
      if (i : ℤ) < 16 then (524288 : ℤ) else i - 16 at heq
    split_ifs at hid heq <;> omega
  nonneg i _ := by
    change 0 ≤ if (i : ℤ) < 16 then (524288 : ℤ) else i - 16
    split_ifs <;> omega

/-- The offset of their last row is 2 ^ 31 elements and more, and wraps. -/
theorem fusedUnpermute_wraps : Aligned manyTokens paddedRows ∧
    ¬ Correct manyTokens paddedRows (id : ℚ → ℚ) ∧
      strideMul 524303 paddedRows.c2Stride = -2147422208 := by
  refine ⟨aligned_paddedRows, fun h => ?_, by decide⟩
  have hr := h.inRange aligned_paddedRows (by decide) (by decide) (by decide)
  have := hr.rows (by decide) 524303 (by decide) (by decide)
  exact absurd this (by decide)

end Converse

end Unpermute

end VllmMoet
