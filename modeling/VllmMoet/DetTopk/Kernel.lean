import Mathlib.Data.Set.Card
import VllmMoet.DetTopk.Gather

/-!
# The rows of a launch

`det_topk_kernel` of `det_topk_sm120.cu`, and `launch` where it gives each row one block: the bounds
of the rows, the rows that are short, and the instance that the number of rows and the width choose.

* `detTopkKernel_selection`: on every path the block stores the `k` columns that come first;
* `selection_isTopk`: these are the columns that fewer than `k` logits of the row outrank;
* `launchRows_isTopk`: so a launch leaves in each row of the output, whatever the order of the
  atomics and of the stores, and whatever shared memory holds at the start.
-/

namespace VllmMoet

namespace DetTopk

/-! ### Rows -/

/-- `RowBounds`. A pointer that may be null is optional. -/
structure RowBounds where
  starts : Option (ℕ → ℤ)
  ends : Option (ℕ → ℤ)
  seqLens : ℕ → ℤ
  numSeqLens : ℕ
  nextN : ℕ
  numRows : ℕ
  width : ℕ

/-- `row_bounds`. -/
def rowBounds (b : RowBounds) (r : ℕ) : ℤ × ℤ :=
  let se : ℤ × ℤ :=
    match b.ends with
    | some ends => (match b.starts with | some starts => starts r | none => 0, ends r)
    | none =>
      if b.numSeqLens = b.numRows then (0, b.seqLens r)
      else
        let q := r / b.nextN
        let j := r % b.nextN
        (0, if q < b.numSeqLens then b.seqLens q - b.nextN + 1 + j else 0)
  let s := if se.1 < 0 then 0 else se.1
  let e := if b.width < se.2 then (b.width : ℤ) else se.2
  (s, if e < s then s else e)

/-- The bounds of `det_topk_prefill`. -/
def prefillBounds (rowStarts : Option (ℕ → ℤ)) (rowEnds : ℕ → ℤ) (numRows width : ℕ) :
    RowBounds where
  starts := rowStarts
  ends := some rowEnds
  seqLens := fun _ => 0
  numSeqLens := 0
  nextN := 1
  numRows := numRows
  width := width

/-- The bounds of `det_topk_decode`. -/
def decodeBounds (seqLens : ℕ → ℤ) (numSeqLens nextN numRows width : ℕ) : RowBounds where
  starts := none
  ends := none
  seqLens := seqLens
  numSeqLens := numSeqLens
  nextN := nextN
  numRows := numRows
  width := width

/-- `start`. -/
def RowBounds.start (b : RowBounds) (r : ℕ) : ℕ := (rowBounds b r).1.toNat

/-- `n`: the columns of a row. -/
def RowBounds.columns (b : RowBounds) (r : ℕ) : ℕ := ((rowBounds b r).2 - (rowBounds b r).1).toNat

/-- The logits: words with two strides. `offset`: the place of the first one among the four words
that a vector load reads. -/
structure Logits where
  mem : ℕ → BitVec 32
  stride0 : ℕ
  stride1 : ℕ
  offset : ℕ

/-- The logit of a column of a row. -/
def Logits.get (x : Logits) (r c : ℕ) : BitVec 32 := x.mem (r * x.stride0 + c * x.stride1)

/-- `row` and `vec`. -/
def Logits.row (x : Logits) (r start : ℕ) : Row where
  mem := fun i => x.mem (r * x.stride0 + start * x.stride1 + i)
  stride1 := x.stride1
  vec := decide (x.stride1 = 1 ∧ (x.offset + r * x.stride0 + start * x.stride1) % 4 = 0)
  unit := fun h => (of_decide_eq_true h).1

theorem Logits.key_row (x : Logits) (r start c : ℕ) :
    (x.row r start).key c = keyOf (x.get r (start + c)) := by
  have haddr : r * x.stride0 + start * x.stride1 + c * x.stride1 =
      r * x.stride0 + (start + c) * x.stride1 := by ring
  rw [Row.key, get, ← haddr]
  rfl

/-! ### A block -/

/-- `fill_short`, the stores of the threads taking effect in some order. -/
def fillShort (T : ℕ) (il : Interleaving (ℕ × ℤ)) (n k : ℕ) (colBase : ℤ) (orow : ℕ → ℤ) :
    ℕ → ℤ :=
  stores (il.run ((List.range T).flatMap fun t =>
    (strided T k t).map fun i => (i, if i < n then colBase + i else -1))) orow

/-- `DET_TOPK_GATHER_MIN`. -/
def gatherMin : ℕ := 4096

/-- `kCap`, of an instance with `topk_gather`. -/
def kCap (W : ℕ) : ℕ := if 1024 ≤ 32 * W then 2048 else 1536

/-- The order in which the operations of the threads take effect, path by path. -/
structure KernelOrders where
  short : Interleaving (ℕ × ℤ)
  oneCta : Orders
  gather : GatherOrders

/-- Shared memory as the block finds it. -/
structure Scratch where
  smem : Smem
  vals : Decision
  e : ℕ → BitVec 32

/-- `det_topk_kernel`: the output of row `r`. -/
def detTopkKernel (W U : ℕ) (gather : Bool) (o : KernelOrders) (x : Logits) (b : RowBounds) (k : ℕ)
    (relative : Bool) (r : ℕ) (s : Scratch) (orow : ℕ → ℤ) : ℕ → ℤ :=
  let n := b.columns r
  let row := x.row r (b.start r)
  let colBase : ℤ := if relative then 0 else b.start r
  if n ≤ k then fillShort (32 * W) o.short n k colBase orow
  else if gather ∧ gatherMin ≤ n then
    topkGather W U (kCap W) o.gather row n colBase k s.smem s.vals s.e orow
  else topkOneCta W U o.oneCta row n colBase k none none s.smem s.vals orow

/-- `launch` with one block a row. -/
def launchRows (U : ℕ) (o : ℕ → KernelOrders) (x : Logits) (b : RowBounds) (k : ℕ)
    (relative : Bool) (s : ℕ → Scratch) (out : ℕ → ℕ → ℤ) (r : ℕ) : ℕ → ℤ :=
  if r < b.numRows then
    detTopkKernel (if b.numRows ≤ 256 then 32 else 8) U (2 * gatherMin ≤ b.width) (o r) x b k
      relative r (s r) (out r)
  else out r

section Block

variable {key : ℕ → ℕ} {n k : ℕ}

/-- All columns of a short row come first. -/
theorem firstColumns_of_le (hn : n ≤ k) : firstColumns key n k = List.range n := by
  refine List.filter_eq_self.mpr fun c hc => decide_eq_true ?_
  have hself : Nat.count (fun i => Before key i c) n < Nat.count (fun _ => True) n :=
    count_lt_count (List.mem_range.mp hc) (fun _ _ _ => trivial) trivial (not_before_self c)
  rw [Nat.count_true] at hself
  exact hself.trans_le hn

theorem fillShort_selection {T : ℕ} (hT : 0 < T) (hn : n ≤ k) (il : Interleaving (ℕ × ℤ))
    (colBase : ℤ) (orow : ℕ → ℤ) :
    fillShort T il n k colBase orow = selection key n k colBase orow := by
  have hmem (x : ℕ × ℤ) : x ∈ il.run ((List.range T).flatMap fun t => (strided T k t).map fun i =>
      (i, if i < n then colBase + i else -1)) ↔
        ∃ i < k, x = (i, if i < n then colBase + i else -1) := by
    rw [il.mem_run, List.mem_flatMap]
    constructor
    · rintro ⟨t, ht, hx⟩
      obtain ⟨i, hi, rfl⟩ := List.mem_map.mp hx
      exact ⟨i, ((mem_strided hT (List.mem_range.mp ht)).mp hi).1, rfl⟩
    · rintro ⟨i, hi, rfl⟩
      have ht : i % T < T := Nat.mod_lt i hT
      exact ⟨i % T, List.mem_range.mpr ht,
        List.mem_map.mpr ⟨i, (mem_strided hT ht).mpr ⟨hi, rfl⟩, rfl⟩⟩
  funext i
  rw [fillShort, selection, firstColumns_of_le hn]
  split_ifs with hi
  · have hstored : stores (il.run ((List.range T).flatMap fun t => (strided T k t).map fun i =>
        (i, if i < n then colBase + i else -1))) orow i = if i < n then colBase + i else -1 := by
      refine stores_of_mem ((hmem _).mpr ⟨i, hi, rfl⟩) fun x hx hxi => ?_
      obtain ⟨j, -, rfl⟩ := (hmem x).mp hx
      obtain rfl : j = i := hxi
      rfl
    rw [hstored]
    by_cases hin : i < n
    · rw [List.getElem?_range hin, if_pos hin]
    · rw [List.getElem?_eq_none (by simpa using hin), if_neg hin]
  · refine stores_of_notMem fun x hx hxi => ?_
    obtain ⟨j, hj, rfl⟩ := (hmem x).mp hx
    exact hi (hxi ▸ hj)

/-- **A block stores the first columns of its row**, on every path. -/
theorem detTopkKernel_selection {W U : ℕ} (hW : W = 8 ∨ W = 32) (hU : 0 < U) (hk : 0 < k)
    (gather : Bool) (o : KernelOrders) (x : Logits) (b : RowBounds) (relative : Bool) (r : ℕ)
    (s : Scratch) (orow : ℕ → ℤ) :
    detTopkKernel W U gather o x b k relative r s orow =
      selection (x.row r (b.start r)).keyNat (b.columns r) k
        (if relative then 0 else b.start r) orow := by
  have hdvd : W ∣ 32 := by
    rcases hW with rfl | rfl <;> decide
  have hcap : 32 * W ∣ kCap W ∧ kCap W < 65536 := by
    rcases hW with rfl | rfl <;> decide
  have hpos : 0 < 32 * W := by
    rcases hW with rfl | rfl <;> decide
  rw [detTopkKernel]
  split_ifs with hn hg
  all_goals first
    | exact fillShort_selection hpos hn _ _ _
    | exact topkGather_selection hdvd hU hk (by omega) hcap.1 hcap.2 _ _ _ _ _ _
    | exact topkOneCta_selection hdvd hU hk (by omega) (fun f hf => by cases hf) _ _ _ _ _ _

end Block

/-! ### The columns that come first -/

/-- Column `i` comes before column `j`: its logit ranks above, or neither ranks above the other and
the column is the lower one. -/
def ComesBefore (x : ℕ → BitVec 32) (i j : ℕ) : Prop :=
  RanksAbove (x i) (x j) ∨ ¬ RanksAbove (x j) (x i) ∧ i < j

/-- The `k` columns that come first among `n`, or all of them, in ascending order. -/
structure IsTopk (x : ℕ → BitVec 32) (n k : ℕ) (l : List ℕ) : Prop where
  ascending : l.Pairwise (· < ·)
  length : l.length = min n k
  mem : ∀ c, c ∈ l ↔ c < n ∧ {i | i < n ∧ ComesBefore x i c}.ncard < k

/-- What a row of the output holds for the columns `l`: the columns, and -1. -/
def storedRow (l : List ℕ) (k : ℕ) (colBase : ℤ) (orow : ℕ → ℤ) (i : ℕ) : ℤ :=
  if i < k then
    match l[i]? with
    | some c => colBase + c
    | none => -1
  else orow i

section First

variable {row : Row} {x : ℕ → BitVec 32} {n k : ℕ}

theorem before_iff_comesBefore (hx : ∀ c, row.key c = keyOf (x c)) (i j : ℕ) :
    Before row.keyNat i j ↔ ComesBefore x i j := by
  have hlt (i j : ℕ) : row.keyNat i < row.keyNat j ↔ RanksAbove (x j) (x i) := by
    rw [Row.keyNat, Row.keyNat, hx, hx]
    exact keyOf_lt_iff
  rw [Before, ComesBefore, ← hlt, ← hlt]
  omega

theorem rank_eq_ncard (hx : ∀ c, row.key c = keyOf (x c)) (c : ℕ) :
    rank row.keyNat n c = {i | i < n ∧ ComesBefore x i c}.ncard := by
  have hset : {i | i < n ∧ ComesBefore x i c} =
      ((Finset.range n).filter fun i => Before row.keyNat i c : Finset ℕ) := by
    ext i
    simp [before_iff_comesBefore hx]
  rw [rank, Nat.count_eq_card_filter_range, hset, Set.ncard_coe_finset]

/-- There are as many as there can be. -/
theorem length_firstColumns (hk : 0 < k) : (firstColumns row.keyNat n k).length = min n k := by
  rcases le_or_gt n k with hn | hn
  · rw [firstColumns_of_le hn, List.length_range, Nat.min_eq_left hn]
  · -- the whole key is one digit of a bucket with all columns
    have hdig (y : ℕ) : y % 2 ^ 32 < 2 ^ 32 := Nat.mod_lt _ (Nat.two_pow_pos 32)
    have hb : Bucket row.keyNat n k (fun y => y >>> 32) 0 k := bucket_start hk hn
    obtain ⟨d, hd⟩ := hb.exists_isDigit hdig
    have hb' := hb.refine (shiftRight_mono 0) (fun y => shiftRight_eq_digits y 0 32) hdig hd
    have hth : Threshold row.keyNat n k (fun y => y >>> 0) _ _ :=
      ⟨hb', .inr fun _ _ _ _ hi hj => hi.trans hj.symm⟩
    rw [hth.length_firstColumns, Nat.min_eq_right hn.le]

/-- **They are those that fewer than `k` columns come before.** -/
theorem selection_isTopk (hk : 0 < k) (hx : ∀ c, row.key c = keyOf (x c)) :
    IsTopk x n k (firstColumns row.keyNat n k) where
  ascending := List.pairwise_lt_range.filter _
  length := length_firstColumns hk
  mem c := by
    rw [firstColumns, List.mem_filter, List.mem_range, decide_eq_true_iff, rank_eq_ncard hx]

end First

/-! ### A launch -/

/-- **A launch selects, in each row, the logits that rank highest**, the lower columns first among
equal ones, and stores their columns in ascending order. -/
theorem launchRows_isTopk {U k : ℕ} (hU : 0 < U) (hk : 0 < k) {b : RowBounds} {r : ℕ}
    (hr : r < b.numRows) (o : ℕ → KernelOrders) (x : Logits) (relative : Bool) (s : ℕ → Scratch)
    (out : ℕ → ℕ → ℤ) :
    ∃ l, IsTopk (fun c => x.get r (b.start r + c)) (b.columns r) k l ∧
      launchRows U o x b k relative s out r =
        storedRow l k (if relative then 0 else b.start r) (out r) := by
  have hW : (if b.numRows ≤ 256 then 32 else 8) = 8 ∨ (if b.numRows ≤ 256 then 32 else 8) = 32 := by
    split_ifs
    · exact .inr rfl
    · exact .inl rfl
  refine ⟨_, selection_isTopk hk (x.key_row r (b.start r)), ?_⟩
  rw [launchRows, if_pos hr, detTopkKernel_selection hW hU hk]
  rfl

/-- A row of three logits: `1`, `-0` and `1`. -/
def threeLogits : Logits where
  mem := fun i => if i = 1 then 0x80000000#32 else 0x3F800000#32
  stride0 := 3
  stride1 := 1
  offset := 0

/-- The threads one after the other. -/
def threadOrder : KernelOrders where
  short := .inOrder _
  oneCta := ⟨fun _ => .inOrder _, .inOrder _⟩
  gather := ⟨.inOrder _, .inOrder _, .inOrder _, .inOrder _, .inOrder _,
    ⟨fun _ => .inOrder _, .inOrder _⟩⟩

/-- Shared memory full of zeros. -/
def zeroScratch : Scratch where
  smem := ⟨fun _ => 0, fun _ => 0#32, fun _ => 0#32⟩
  vals := ⟨0, 0, false, 0⟩
  e := fun _ => 0#32

/-- One row of three columns, of which one is asked for. -/
def threeBounds : RowBounds := prefillBounds none (fun _ => 3) 1 3

theorem launchRows_isTopk_threeLogits :
    ∃ l, IsTopk (fun c => threeLogits.get 0 (threeBounds.start 0 + c)) (threeBounds.columns 0) 1 l ∧
      launchRows 1 (fun _ => threadOrder) threeLogits threeBounds 1 true (fun _ => zeroScratch)
        (fun _ _ => 0) 0 = storedRow l 1 (if true then 0 else threeBounds.start 0) (fun _ => 0) :=
  launchRows_isTopk (by decide) (by decide) (by decide) (fun _ => threadOrder) threeLogits true
    (fun _ => zeroScratch) fun _ _ => 0

end DetTopk

end VllmMoet
