import VllmMoet.CpuMoe.Fc2Ref
import VllmMoet.Lib.Phases

/-!
# The rows of FC2

`fc2_rows` of `cpu_moe_b12x.cpp`: a worker's rows in groups of eight, each group as two chains of
four lanes over the 18 blocks; the last group repeats its last row and drops the copies. Beside it
the scalar reference `ref_fc2`.

* `laneStep`, `fc2Step4_lane`: a lane of a block step does not depend on the others, whatever the
  accumulators are;
* `rowAcc`, `fc2Writes_eq`: so a row's result does not depend on how the rows are grouped;
* `exactAcc`: the chain of truncated exact sums;
* `rowAcc_eq`, `refRow_eq`: the kernel computes it, and so does the reference where its integers do
  not overflow;
* `fc2Rows_exact`: what is stored for a row and a token.
-/

namespace VllmMoet

namespace CpuMoe

open Lanes Binary32

/-! ### The kernel -/

/-- `N2`. -/
def n2 : ℕ := 5120

/-- Where the record has the nibbles of row `n` of `w2`. -/
def nib2Off (n : ℕ) : ℕ := 2 * (interR * 2560) + 2 * (interR * 160) + n * 288

/-- Where it has the scales of that row, behind the nibbles of all rows. -/
def scale2Off (n : ℕ) : ℕ := 2 * (interR * 2560) + 2 * (interR * 160) + n2 * 288 + n * 18

/-- The nibbles of row `n`. -/
def rowNib (rec : ℕ → UInt8) (n : ℕ) : ℕ → UInt8 := fun i => rec (nib2Off n + i)

/-- Its scales. -/
def rowScale (rec : ℕ → UInt8) (n : ℕ) : ℕ → UInt8 := fun b => rec (scale2Off n + b)

/-- Row `r` of the group of `R` rows at `n0`: the tail repeats the last row. -/
def groupRow (n0 R r : ℕ) : ℕ := n0 + min r (R - 1)

/-- One block of the chain of the four rows `row`. -/
def chainStep (rec : ℕ → UInt8) (row : Fin 4 → ℕ) (Y : YOperand) (acc : Fin 4 → BitVec 32) (b : ℕ) :
    Fin 4 → BitVec 32 :=
  (fc2Step4 acc (fun r => blockBytes (rowNib rec (row r)) b) Y b (fun r => rowScale rec (row r) b)
    0 0).acc

/-- The accumulators of a group for a token: two chains, over the 18 blocks. -/
def groupAcc (rec : ℕ → UInt8) (row : ℕ → ℕ) (Y : YOperand) : ℕ → BitVec 32 :=
  let a := (List.range 18).foldl
    (fun (a : (Fin 4 → BitVec 32) × (Fin 4 → BitVec 32)) b =>
      (chainStep rec (fun r => row r) Y a.1 b, chainStep rec (fun r => row (4 + r)) Y a.2 b))
    (fun _ => 0#32, fun _ => 0#32)
  fun r => if r < 4 then a.1 (lane4 r) else a.2 (lane4 (r - 4))

variable (fmul : BitVec 32 → BitVec 32 → BitVec 32)

/-- What `fc2_rows` stores, in its order: group after group, token after token, row after row. The
row of token `t` begins at `outRow t`. -/
def fc2Writes (rec : ℕ → UInt8) (r0 r1 : ℕ) (Y : ℕ → YOperand) (m : ℕ) (scales : ℕ → BitVec 32)
    (outRow : ℕ → ℕ) : List (ℕ × BitVec 16) :=
  (List.range ((r1 - r0 + 7) / 8)).flatMap fun g =>
    let n0 := r0 + 8 * g
    let R := min 8 (r1 - n0)
    (List.range m).flatMap fun t =>
      (List.range R).map fun r =>
        (outRow t + (n0 + r), bf16Rne (fmul (scales t) (groupAcc rec (groupRow n0 R) (Y t) r)))

/-- `fc2_rows`. -/
def fc2Rows (rec : ℕ → UInt8) (r0 r1 : ℕ) (Y : ℕ → YOperand) (m : ℕ) (scales : ℕ → BitVec 32)
    (outRow : ℕ → ℕ) (out : ℕ → BitVec 16) : ℕ → BitVec 16 :=
  stores (fc2Writes fmul rec r0 r1 Y m scales outRow) out

/-! ### The reference -/

/-- The accumulator of a row. -/
def refRow (rec q sbytes : ℕ → UInt8) (n : ℕ) : Option (BitVec 32) :=
  (List.range 18).foldlM
    (fun acc b => refFc2Block acc (rowNib rec n) q b (sbytes b) (rowScale rec n b)) 0#32

/-- `ref_fc2`. -/
def refFc2 (rec q sbytes : ℕ → UInt8) (scale : BitVec 32) (out : ℕ → BitVec 16) :
    Option (ℕ → BitVec 16) :=
  (List.range n2).foldlM
    (fun out n => (refRow rec q sbytes n).map fun acc =>
      Function.update out n (bf16Rne (fmul scale acc))) out

/-! ### A lane by itself -/

/-- A lane of a block step, with the other lanes the same. -/
def laneStep (a : BitVec 32) (nib16 : ℕ → UInt8) (Y : YOperand) (b : ℕ) (sb : UInt8) : BitVec 32 :=
  (fc2Step4 (fun _ => a) (fun _ => nib16) Y b (fun _ => sb) 0 0).acc (lane4 0)

/-- **Lanes are independent.** Which path a step takes depends on all four lanes, but a lane comes
to the same accumulator on both. -/
theorem fc2Step4_lane (acc4 : Fin 4 → BitVec 32) (nib : Fin 4 → ℕ → UInt8) (q sbytes : ℕ → UInt8)
    (b : ℕ) (sb4 : Fin 4 → UInt8) (general q0 : ℕ) (r : Fin 4) :
    (fc2Step4 acc4 (fun i => blockBytes (nib i) b) (prepareY q sbytes) b sb4 general q0).acc r =
      laneStep (acc4 r) (blockBytes (nib r) b) (prepareY q sbytes) b (sb4 r) := by
  have hq : (alignStep4 acc4 (fun i => blockBytes (nib i) b) (prepareY q sbytes).toYPrep b sb4
      general).q4 r = (alignStep4 (fun _ => acc4 r) (fun _ => blockBytes (nib r) b)
        (prepareY q sbytes).toYPrep b (fun _ => sb4 r) 0).q4 (lane4 0) := by
    rw [alignStep4_q4, alignStep4_q4]
  have haccT : (alignStep4 acc4 (fun i => blockBytes (nib i) b) (prepareY q sbytes).toYPrep b sb4
      general).accT r = (alignStep4 (fun _ => acc4 r) (fun _ => blockBytes (nib r) b)
        (prepareY q sbytes).toYPrep b (fun _ => sb4 r) 0).accT (lane4 0) := by
    rw [alignStep4_accT, alignStep4_accT]
  have hdot := reduce4_stepLanes nib q sbytes b r
    (alignStep4 acc4 (fun i => blockBytes (nib i) b) (prepareY q sbytes).toYPrep b sb4 general)
  have hdot' := reduce4_stepLanes (fun _ => nib r) q sbytes b (lane4 0)
    (alignStep4 (fun _ => acc4 r) (fun _ => blockBytes (nib r) b) (prepareY q sbytes).toYPrep b
      (fun _ => sb4 r) 0)
  rw [hq, ← hdot'] at hdot
  rw [laneStep, fc2Step4, fc2Step4]
  dsimp only
  rw [haccT, BitVec.eq_of_toInt_eq hdot]

/-- The accumulator of row `n` after `k` blocks, by itself. -/
def rowAcc (rec : ℕ → UInt8) (Y : YOperand) (n k : ℕ) : BitVec 32 :=
  (List.range k).foldl
    (fun a b => laneStep a (blockBytes (rowNib rec n) b) Y b (rowScale rec n b)) 0#32

theorem rowAcc_succ (rec : ℕ → UInt8) (Y : YOperand) (n k : ℕ) : rowAcc rec Y n (k + 1) =
    laneStep (rowAcc rec Y n k) (blockBytes (rowNib rec n) k) Y k (rowScale rec n k) := by
  rw [rowAcc, List.range_succ, List.foldl_append]
  rfl

/-- The chains of a group are those of its rows. -/
theorem groupAcc_eq (rec : ℕ → UInt8) (row : ℕ → ℕ) (q sbytes : ℕ → UInt8) {r : ℕ} (hr : r < 8) :
    groupAcc rec row (prepareY q sbytes) r = rowAcc rec (prepareY q sbytes) (row r) 18 := by
  have hchain (k : ℕ) : (List.range k).foldl
      (fun (a : (Fin 4 → BitVec 32) × (Fin 4 → BitVec 32)) b =>
        (chainStep rec (fun r => row r) (prepareY q sbytes) a.1 b,
          chainStep rec (fun r => row (4 + r)) (prepareY q sbytes) a.2 b))
      (fun _ => 0#32, fun _ => 0#32) =
        ((fun i : Fin 4 => rowAcc rec (prepareY q sbytes) (row i) k),
          fun i : Fin 4 => rowAcc rec (prepareY q sbytes) (row (4 + i)) k) := by
    induction k with
    | zero => rfl
    | succ k ih =>
      rw [List.range_succ, List.foldl_append, ih, List.foldl_cons, List.foldl_nil]
      simp only [rowAcc_succ, Prod.mk.injEq]
      refine ⟨funext fun i => ?_, funext fun i => ?_⟩
      · exact fc2Step4_lane _ (fun i : Fin 4 => rowNib rec (row i)) q sbytes k _ 0 0 i
      · exact fc2Step4_lane _ (fun i : Fin 4 => rowNib rec (row (4 + i))) q sbytes k _ 0 0 i
  rw [groupAcc]
  dsimp only
  rw [hchain 18]
  split_ifs with h4
  · dsimp only
    rw [val_lane4 h4]
  · have hadd : 4 + (r - 4) = r := by omega
    dsimp only
    rw [val_lane4 (by omega), hadd]

/-- What is stored for row `n` and token `t`. -/
def rowOut (rec : ℕ → UInt8) (Y : YOperand) (scale : BitVec 32) (n : ℕ) : BitVec 16 :=
  bf16Rne (fmul scale (rowAcc rec Y n 18))

/-- What a worker stores for its rows. -/
theorem fc2Writes_eq (rec : ℕ → UInt8) (r0 r1 : ℕ) (q sbytes : ℕ → ℕ → UInt8) (m : ℕ)
    (scales : ℕ → BitVec 32) (outRow : ℕ → ℕ) :
    fc2Writes fmul rec r0 r1 (fun t => prepareY (q t) (sbytes t)) m scales outRow =
      (List.range ((r1 - r0 + 7) / 8)).flatMap fun g => (List.range m).flatMap fun t =>
        (List.range (min 8 (r1 - (r0 + 8 * g)))).map fun r => (outRow t + (r0 + 8 * g + r),
          rowOut fmul rec (prepareY (q t) (sbytes t)) (scales t) (r0 + 8 * g + r)) := by
  refine List.flatMap_congr fun g _ => List.flatMap_congr fun t _ =>
    List.map_congr_left fun r hr => ?_
  have hr := List.mem_range.mp hr
  have hrow : groupRow (r0 + 8 * g) (min 8 (r1 - (r0 + 8 * g))) r = r0 + 8 * g + r := by
    rw [groupRow]
    omega
  rw [groupAcc_eq _ _ _ _ (by omega), hrow, rowOut]

/-- **Grouping is invisible.** At a place of the output there is, token after token, what a row of
the range has for the tokens whose row that is, and nothing for another row. -/
theorem fc2Writes_at (rec : ℕ → UInt8) (r0 : ℕ) {r1 : ℕ} (q sbytes : ℕ → ℕ → UInt8) (m : ℕ)
    (scales : ℕ → BitVec 32) (row : ℕ → ℕ) {stride ρ n : ℕ} (hstride : n2 ≤ stride) (hr1 : r1 ≤ n2)
    (hn : n < stride) :
    (fc2Writes fmul rec r0 r1 (fun t => prepareY (q t) (sbytes t)) m scales
      fun t => row t * stride).filter (fun x => x.1 = ρ * stride + n) =
        if r0 ≤ n ∧ n < r1 then
          (List.range m).flatMap fun t => if row t = ρ then
            [(ρ * stride + n, rowOut fmul rec (prepareY (q t) (sbytes t)) (scales t) n)] else []
        else [] := by
  -- which row of which token a place belongs to
  have hkey (t n' : ℕ) (hn' : n' < r1) :
      row t * stride + n' = ρ * stride + n ↔ row t = ρ ∧ n' = n := by
    constructor
    · intro h
      have hdiv := congrArg (· / stride) h
      simp only [Nat.mul_comm _ stride] at hdiv
      rw [Nat.mul_add_div (by omega), Nat.mul_add_div (by omega), Nat.div_eq_of_lt hn,
        Nat.div_eq_of_lt (by omega)] at hdiv
      obtain rfl : row t = ρ := by omega
      exact ⟨rfl, by omega⟩
    · rintro ⟨rfl, rfl⟩
      rfl
  simp only [fc2Writes_eq, List.filter_flatMap, filter_map_eq_flatMap, decide_eq_true_eq]
  split_ifs with hr
  · rw [flatMap_eq_single List.nodup_range (x := (n - r0) / 8) (List.mem_range.mpr (by omega))]
    · refine List.flatMap_congr fun t _ => ?_
      rw [flatMap_eq_single List.nodup_range (x := (n - r0) % 8) (List.mem_range.mpr (by omega))]
      · have hrow : r0 + 8 * ((n - r0) / 8) + (n - r0) % 8 = n := by omega
        simp only [hrow, hkey t n hr.2, and_true]
        split_ifs with ht
        · rw [ht]
        · rfl
      · intro r hr' hne
        have hr' := List.mem_range.mp hr'
        rw [if_neg]
        rw [hkey t _ (by omega)]
        omega
    · intro g _ hne
      refine List.flatMap_eq_nil_iff.mpr fun t _ => List.flatMap_eq_nil_iff.mpr fun r hr' => ?_
      have hr' := List.mem_range.mp hr'
      rw [if_neg]
      rw [hkey t _ (by omega)]
      omega
  · refine List.flatMap_eq_nil_iff.mpr fun g _ => List.flatMap_eq_nil_iff.mpr fun t _ =>
      List.flatMap_eq_nil_iff.mpr fun r hr' => ?_
    have hr' := List.mem_range.mp hr'
    rw [if_neg]
    rw [hkey t _ (by omega)]
    omega

/-! ### The chain of a row -/

section Chain

variable (rec q sbytes : ℕ → UInt8) (n : ℕ)

/-- The exponent of the scales of block `b` of row `n`. -/
def rowExp (b : ℕ) : ℤ := scaleExp (sbytes b) (rowScale rec n b)

/-- The chain of truncated exact sums: the accumulator after `k` blocks. -/
def exactAcc : ℕ → BitVec 32
  | 0 => 0#32
  | k + 1 =>
    let S := fc2Sum (exactAcc k) (rowNib rec n) q k (rowExp rec sbytes n k)
    if S = 0 then 0#32 else towardZero S

/-- Every sum of the chain is zero or in the normal range. -/
def RowInRange : Prop :=
  ∀ b < 18, NormalRange (fc2Sum (exactAcc rec q sbytes n b) (rowNib rec n) q b (rowExp rec sbytes n b))

/-- No accumulator of the chain overflows the integers of the reference: none that is not zero lies
more than 116 binary orders above the scales, or more than 112 below those of a block with no
product. -/
def RowInWindow : Prop :=
  ∀ b < 18, magnitude (exactAcc rec q sbytes n b) ≠ 0 →
    f32Exp (exactAcc rec q sbytes n b) ≤ rowExp rec sbytes n b + 116 ∧
      ((∀ k < 32, product (rowNib rec n) q b k = 0) →
        rowExp rec sbytes n b ≤ f32Exp (exactAcc rec q sbytes n b) + 112)

variable {rec q sbytes n}

/-- The accumulators are zero or normal, and never a negative zero. -/
theorem exactAcc_cases (h : RowInRange rec q sbytes n) {k : ℕ} (hk : k ≤ 18) :
    exactAcc rec q sbytes n k = 0#32 ∨
      exponent (exactAcc rec q sbytes n k) ≠ 0 ∧ exponent (exactAcc rec q sbytes n k) ≠ 255 := by
  cases k with
  | zero => exact .inl rfl
  | succ k =>
    have hS := h k (by omega)
    rw [exactAcc]
    split_ifs with h0
    · exact .inl rfl
    · obtain ⟨hlow, hhigh⟩ := hS.log h0
      exact .inr (exponent_towardZero h0 hlow hhigh)

theorem exactAcc_zeroOrNormal (h : RowInRange rec q sbytes n) {k : ℕ} (hk : k ≤ 18) :
    ZeroOrNormal (exactAcc rec q sbytes n k) := by
  rcases exactAcc_cases h hk with h0 | h
  · rw [h0]
    exact .inl rfl
  · exact .inr h

/-- The kernel computes the chain. -/
theorem rowAcc_eq (h : RowInRange rec q sbytes n) {k : ℕ} (hk : k ≤ 18) :
    rowAcc rec (prepareY q sbytes) n k = exactAcc rec q sbytes n k := by
  induction k with
  | zero => rfl
  | succ k ih =>
    rw [rowAcc_succ, ih (by omega)]
    exact fc2Step4_acc _ (fun _ => rowNib rec n) q sbytes k _ 0 0 0
      (exactAcc_zeroOrNormal h (by omega)) (h k (by omega))

/-- So does the reference, where its integers do not overflow. -/
theorem refRow_eq (h : RowInRange rec q sbytes n) (hw : RowInWindow rec q sbytes n) :
    refRow rec q sbytes n = some (exactAcc rec q sbytes n 18) := by
  have hrun (k : ℕ) (hk : k ≤ 18) : (List.range k).foldlM
      (fun acc b => refFc2Block acc (rowNib rec n) q b (sbytes b) (rowScale rec n b)) 0#32 =
        some (exactAcc rec q sbytes n k) := by
    induction k with
    | zero => rfl
    | succ k ih =>
      rw [List.range_succ, List.foldlM_append, ih (by omega)]
      have hstep : refFc2Block (exactAcc rec q sbytes n k) (rowNib rec n) q k (sbytes k)
          (rowScale rec n k) = some (exactAcc rec q sbytes n (k + 1)) := by
        by_cases hne : magnitude (exactAcc rec q sbytes n k) ≠ 0 ∨
            ∃ i < 32, product (rowNib rec n) q k i ≠ 0
        · exact refFc2Block_eq (exactAcc_zeroOrNormal h (by omega)) (h k (by omega)) hne
            (hw k (by omega))
        · -- a zero and no product: both give a positive zero
          have hm : magnitude (exactAcc rec q sbytes n k) = 0 := by
            by_contra hm
            exact hne (.inl hm)
          have hall (i : ℕ) (hi : i < 32) : product (rowNib rec n) q k i = 0 := by
            by_contra h0
            exact hne (.inr ⟨i, hi, h0⟩)
          have hsum := (fc2Sum_of_zero hall (exactAcc rec q sbytes n k) (rowExp rec sbytes n k)).1
          rw [val_of_zero hm] at hsum
          have hzero : exactAcc rec q sbytes n k = 0#32 := by
            rcases exactAcc_cases h (show k ≤ 18 by omega) with h0 | ⟨hexp, -⟩
            · exact h0
            · exact absurd (by simp [exponent, hm]) hexp
          rw [refFc2Block_of_zero _ _ hm hall, hzero, exactAcc, if_pos hsum]
      simp only [List.foldlM_cons, List.foldlM_nil, bind, Option.bind_some, hstep]
      rfl
  exact hrun 18 le_rfl

end Chain

/-! ### What is stored -/

/-- The reference of a record all of whose rows stay in range. -/
theorem refFc2_eq (fmul : BitVec 32 → BitVec 32 → BitVec 32) {rec q sbytes : ℕ → UInt8}
    (h : ∀ n < n2, RowInRange rec q sbytes n ∧ RowInWindow rec q sbytes n) (scale : BitVec 32)
    (out : ℕ → BitVec 16) : refFc2 fmul rec q sbytes scale out =
      some fun n => if n < n2 then bf16Rne (fmul scale (exactAcc rec q sbytes n 18)) else out n := by
  have hrun (k : ℕ) (hk : k ≤ n2) : (List.range k).foldlM
      (fun out n => (refRow rec q sbytes n).map fun acc =>
        Function.update out n (bf16Rne (fmul scale acc))) out =
      some fun n => if n < k then bf16Rne (fmul scale (exactAcc rec q sbytes n 18)) else out n := by
    induction k with
    | zero => rfl
    | succ k ih =>
      obtain ⟨hr, hw⟩ := h k hk
      rw [List.range_succ, List.foldlM_append, ih (by omega)]
      simp only [List.foldlM_cons, List.foldlM_nil, bind, Option.bind_some, refRow_eq hr hw,
        Option.map_some]
      refine congrArg some (funext fun n => ?_)
      rcases eq_or_ne n k with rfl | hne
      · rw [Function.update_self, if_pos (Nat.lt_succ_self n)]
      · have hiff : n < k + 1 ↔ n < k := by omega
        rw [Function.update_of_ne hne]
        simp only [hiff]
  exact hrun n2 le_rfl

/-- What the kernel stores for a row of its range and a token. -/
theorem fc2Rows_apply (fmul : BitVec 32 → BitVec 32 → BitVec 32) (rec : ℕ → UInt8)
    (q sbytes : ℕ → ℕ → UInt8) (scales : ℕ → BitVec 32) (row : ℕ → ℕ) (out : ℕ → BitVec 16)
    {stride r0 r1 m t n : ℕ} (hstride : n2 ≤ stride) (hr1 : r1 ≤ n2) (hn : r0 ≤ n) (hn' : n < r1)
    (ht : t < m) (hrow : ∀ t' < m, row t' = row t → t' = t) :
    fc2Rows fmul rec r0 r1 (fun t => prepareY (q t) (sbytes t)) m scales (fun t => row t * stride)
        out (row t * stride + n) =
      rowOut fmul rec (prepareY (q t) (sbytes t)) (scales t) n := by
  have hat := fc2Writes_at fmul rec r0 q sbytes m scales row (ρ := row t) hstride hr1
    (show n < stride by omega)
  rw [if_pos ⟨hn, hn'⟩, flatMap_eq_single List.nodup_range (List.mem_range.mpr ht)
    (fun t' ht' hne => if_neg fun heq => hne (hrow t' (List.mem_range.mp ht') heq)),
    if_pos rfl] at hat
  -- one store goes there
  refine stores_of_mem ?_ fun x hx hk => ?_
  · exact (List.mem_filter.mp (hat ▸ List.mem_singleton_self _)).1
  · have hmem : x ∈ List.filter (fun x => decide (x.1 = row t * stride + n)) _ :=
      List.mem_filter.mpr ⟨hx, decide_eq_true hk⟩
    rw [hat, List.mem_singleton] at hmem
    rw [hmem]

/-- **FC2 is exact.** However the rows are split over the workers and grouped, and for any tokens
with output rows of their own: if all chains of a token stay in range, what a worker stores for a
row of its range is the truncated exact sum, scaled, and what the reference stores. -/
theorem fc2Rows_eq_ref (fmul : BitVec 32 → BitVec 32 → BitVec 32) (rec : ℕ → UInt8)
    (q sbytes : ℕ → ℕ → UInt8) (scales : ℕ → BitVec 32) (row : ℕ → ℕ) (out out' : ℕ → BitVec 16)
    {stride r0 r1 m t : ℕ} (hstride : n2 ≤ stride) (hr1 : r1 ≤ n2) (ht : t < m)
    (hrow : ∀ t' < m, row t' = row t → t' = t)
    (h : ∀ n < n2, RowInRange rec (q t) (sbytes t) n ∧ RowInWindow rec (q t) (sbytes t) n) :
    ∃ ref, refFc2 fmul rec (q t) (sbytes t) (scales t) out' = some ref ∧
      ∀ n, r0 ≤ n → n < r1 →
        fc2Rows fmul rec r0 r1 (fun t => prepareY (q t) (sbytes t)) m scales
            (fun t => row t * stride) out (row t * stride + n) = ref n ∧
          ref n = bf16Rne (fmul (scales t) (exactAcc rec (q t) (sbytes t) n 18)) := by
  refine ⟨_, refFc2_eq fmul h (scales t) out', fun n hn hn' => ?_⟩
  have hlt : n < n2 := by omega
  rw [fc2Rows_apply fmul rec q sbytes scales row out hstride hr1 hn hn' ht hrow, rowOut,
    rowAcc_eq (h n hlt).1 le_rfl, if_pos hlt]
  exact ⟨rfl, rfl⟩

/-- 32 in fp32. -/
theorem val_32 : val 0x42000000#32 = 32 := by
  have hm : significand 0x42000000#32 = 8388608 := by decide
  have hs : scale 0x42000000#32 = -18 := by decide
  have hn : negative 0x42000000#32 = false := by decide
  rw [val, absVal, hm, hs, hn]
  norm_num

section FirstOnes

/-! A record whose bytes are all 34, and activations of 1 in the first block: every row of `w2` is
worth 32 from there on. -/

variable (n : ℕ)

theorem rowExp_firstOnes (b : ℕ) : rowExp (fun _ => 34) (fun _ => 220) n b = 0 := by
  rw [rowExp, rowScale]
  decide

/-- No product is left after the first block. -/
theorem fc2Sum_later (k : ℕ) :
    fc2Sum 0x42000000#32 (rowNib (fun _ => 34) n) firstOnes (k + 1) 0 = 32 := by
  have hnone (i : ℕ) (_ : i < 32) :
      product (rowNib (fun _ => 34) n) firstOnes (k + 1) i = 0 := by
    have hq : firstOnes ((k + 1) * 32 + i) = 0 := if_neg (by omega)
    have h0 : e4m3Units 0 = 0 := by decide
    rw [product, hq, h0, zero_mul]
  rw [(fc2Sum_of_zero hnone 0x42000000#32 0).1, val_32]

theorem exactAcc_firstOnes (k : ℕ) :
    exactAcc (fun _ => 34) firstOnes (fun _ => 220) n (k + 1) = 0x42000000#32 := by
  have htrunc : towardZero 32 = 0x42000000#32 := by
    rw [← val_32, towardZero_val (by decide) (by decide)]
  have hne : (32 : ℚ) ≠ 0 := by norm_num
  induction k with
  | zero =>
    have hsum : fc2Sum 0#32 (rowNib (fun _ => 34) n) firstOnes 0 0 = 32 := fc2Sum_firstOnes
    rw [exactAcc, rowExp_firstOnes, exactAcc, hsum, if_neg hne, htrunc]
  | succ k ih => rw [exactAcc, ih, rowExp_firstOnes, fc2Sum_later, if_neg hne, htrunc]

theorem rowInRange_firstOnes : RowInRange (fun _ => 34) firstOnes (fun _ => 220) n ∧
    RowInWindow (fun _ => 34) firstOnes (fun _ => 220) n := by
  refine ⟨fun b _ => ?_, fun b _ h => ?_⟩
  · rw [rowExp_firstOnes]
    cases b with
    | zero =>
      have hsum : fc2Sum 0#32 (rowNib (fun _ => 34) n) firstOnes 0 0 = 32 := fc2Sum_firstOnes
      rw [exactAcc, hsum]
      exact normalRange_32
    | succ k =>
      rw [exactAcc_firstOnes, fc2Sum_later]
      exact normalRange_32
  · rw [rowExp_firstOnes]
    cases b with
    | zero => exact absurd (show magnitude 0#32 = 0 from rfl) h
    | succ k =>
      have hexp : f32Exp 0x42000000#32 = 5 := by decide
      rw [exactAcc_firstOnes, hexp]
      omega

end FirstOnes

/-- The first rows of that record, for one token with a scale of 1. -/
theorem fc2Rows_eq_ref_firstOnes :
    ∃ ref, refFc2 (fun _ a => a) (fun _ => 34) firstOnes (fun _ => 220) 0x3F800000#32
        (fun _ => 0#16) = some ref ∧
      ∀ n, 0 ≤ n → n < 11 →
        fc2Rows (fun _ a => a) (fun _ => 34) 0 11 (fun _ => prepareY firstOnes fun _ => 220) 1
            (fun _ => 0x3F800000#32) (fun _ => 0 * n2) (fun _ => 0#16) (0 * n2 + n) = ref n ∧
          ref n = bf16Rne (exactAcc (fun _ => 34) firstOnes (fun _ => 220) n 18) :=
  fc2Rows_eq_ref _ (fun _ => 34) (fun _ => firstOnes) (fun _ _ => 220) (fun _ => 0x3F800000#32)
    (fun _ => 0) (fun _ => 0#16) (fun _ => 0#16) (Nat.le_refl n2) (by decide) Nat.one_pos
    (fun t' ht' _ => by omega) fun n _ => rowInRange_firstOnes n

end CpuMoe

end VllmMoet
