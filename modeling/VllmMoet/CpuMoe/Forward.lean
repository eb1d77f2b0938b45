import VllmMoet.CpuMoe.Act
import VllmMoet.CpuMoe.Barrier

/-!
# The experts' forward on the workers

`run_job` of `cpu_moe_b12x.cpp`: the workers of the pool compute the experts of a job one after the
other. Each of them prepares some tokens; then, for every expert, computes its share of the rows of
FC1, its share of the groups of the activation, and its share of the rows of FC2. The projections
and the operands of FC2 are kept in two buffers in turn, and there is no barrier between FC2 of an
expert and FC1 of the next.

* `Loc`, `Val`: the memory that the workers share;
* `Job`, `runJob`: a worker's code;
* `mem_strided`, `mem_splitRows`: how tokens, groups and rows are shared out.
-/

namespace VllmMoet

namespace CpuMoe

open Binary32
open Prog (forEach meet read readAll write)

/-! ### The memory -/

/-- What the workers write: the prepared tokens, the two buffers of projections and of prepared
groups, the output rows and the optional outputs. -/
inductive Loc
  | x (t : ℕ)
  | proj (buf k : ℕ)
  | y (buf i grp : ℕ)
  | out (k : ℕ)
  | projOut (k : ℕ)
  | interQ (k : ℕ)
  | interS (k : ℕ)
deriving DecidableEq

/-- What a place holds. -/
abbrev Val : Loc → Type
  | .x _ => XPrep
  | .proj _ _ | .out _ | .projOut _ => BitVec 16
  | .y _ _ _ => YGroup
  | .interQ _ | .interS _ => UInt8

instance : Inhabited XPrep := ⟨prepareX (fun _ => 0) fun _ => 0⟩

instance : ∀ l, Inhabited (Val l)
  | .x _ => inferInstanceAs (Inhabited XPrep)
  | .proj _ _ | .out _ | .projOut _ => inferInstanceAs (Inhabited (BitVec 16))
  | .y _ _ _ => inferInstanceAs (Inhabited YGroup)
  | .interQ _ | .interS _ => inferInstanceAs (Inhabited UInt8)

/-! ### The shares -/

/-- `for (int t = tid; t < total; t += n)`. -/
def strided (total n tid : ℕ) : List ℕ := List.range' tid ((total - tid + n - 1) / n) n

/-- `split_rows`. -/
def splitRows (total n tid : ℕ) : ℕ × ℕ :=
  let per := (total + n - 1) / n
  let r0 := min total (tid * per)
  (r0, min total (r0 + per))

/-- The rows of a share. -/
def rowsOf (total n tid : ℕ) : List ℕ :=
  let r := splitRows total n tid
  List.range' r.1 (r.2 - r.1)

section Shares

variable {total n tid x : ℕ}

/-- A worker takes every `n`-th. -/
theorem mem_strided (htid : tid < n) : x ∈ strided total n tid ↔ x < total ∧ x % n = tid := by
  rw [strided, List.mem_range']
  have hn : 0 < n := by omega
  constructor
  · rintro ⟨i, hi, rfl⟩
    have hlt := (Nat.lt_div_iff_mul_lt hn).mp hi
    rw [Nat.mul_comm] at hlt
    refine ⟨by omega, ?_⟩
    rw [Nat.add_mul_mod_self_left, Nat.mod_eq_of_lt htid]
  · rintro ⟨hx, rfl⟩
    have hdiv := Nat.mod_add_div x n
    refine ⟨x / n, ?_, hdiv.symm⟩
    rw [Nat.lt_div_iff_mul_lt hn, Nat.mul_comm]
    omega

theorem nodup_strided (htid : tid < n) : (strided total n tid).Nodup :=
  List.nodup_range' n (by omega)

theorem nodup_rowsOf : (rowsOf total n tid).Nodup := List.nodup_range' 1 Nat.one_pos

/-- A row belongs to the worker whose share of that many rows it is in. -/
theorem mem_rowsOf (htid : tid < n) :
    x ∈ rowsOf total n tid ↔ x < total ∧ x / ((total + n - 1) / n) = tid := by
  rw [rowsOf, splitRows, List.mem_range'_1]
  dsimp only
  set per := (total + n - 1) / n with hper
  rcases Nat.eq_zero_or_pos total with rfl | htotal
  · omega
  · have hpos : 0 < per := Nat.div_pos (by omega) (by omega)
    rw [Nat.div_eq_iff hpos]
    generalize tid * per = a
    omega

/-- The rows of a share, from its bounds. -/
theorem mem_rowsOf_iff : x ∈ rowsOf total n tid ↔
    (splitRows total n tid).1 ≤ x ∧ x < (splitRows total n tid).2 := by
  rw [rowsOf, List.mem_range'_1]
  dsimp only [splitRows]
  omega

theorem splitRows_le (total n tid : ℕ) : (splitRows total n tid).2 ≤ total := Nat.min_le_left ..

end Shares

/-! ### The job -/

/-- What the code takes from the machine and the GPU: the fp32 sum and product, `g_act_m` and
`g_inv`. -/
structure Machine where
  fadd : BitVec 32 → BitVec 32 → BitVec 32
  fmul : BitVec 32 → BitVec 32 → BitVec 32
  actM : BitVec 16 → BitVec 32
  inv : UInt8 → BitVec 32

/-- `Job`: the experts with their records and tokens, the activations, and where the rows go. -/
structure Job where
  nExperts : ℕ
  records : ℕ → ℕ → UInt8
  mPerExpert : ℕ → ℕ
  tokenIdx : ℕ → ℕ
  pairWeight : ℕ → BitVec 32
  outRow : ℕ → ℕ
  nTokens : ℕ
  aq : ℕ → ℕ → UInt8
  as : ℕ → ℕ → UInt8
  outStride : ℕ
  vs1 : BitVec 32
  vs2 : BitVec 32
  hasProjOut : Bool
  hasInterQ : Bool
  hasInterS : Bool

/-- `tok_off`. -/
def Job.tokOff (J : Job) : ℕ → ℕ
  | 0 => 0
  | e + 1 => J.tokOff e + J.mPerExpert e

variable (M : Machine) (J : Job) (n tid : ℕ)

/-- Phase 0: prepared activations, tokens striped. -/
def prepareTokens : Prog Loc Val Unit :=
  forEach (strided J.nTokens n tid) fun t => write (.x t) (prepareX (J.aq t) (J.as t))

/-- A row of FC1 of expert `e`, for all its tokens. -/
def fc1Row (e r : ℕ) : Prog Loc Val Unit := do
  let X ← readAll (fun i => .x (J.tokenIdx (J.tokOff e + i))) (J.mPerExpert e)
  forEach (List.range (J.mPerExpert e)) fun t =>
    write (.proj (e % 2) (t * n13 + r))
      (bf16Rne (M.fmul J.vs1 (fc1Acc M.fadd (J.records e) r X (J.mPerExpert e) t)))

/-- `fc1_rows`, for a share of the rows. -/
def fc1Phase (e : ℕ) : Prog Loc Val Unit := forEach (rowsOf n13 n tid) (fc1Row M J e)

/-- `act_group` for a group of one of the expert's tokens. -/
def actItem (e item : ℕ) : Prog Loc Val Unit := do
  let gate ← readAll (fun j => .proj (e % 2) (item / 18 * n13 + (item % 18 * 32 + j))) 32
  let up ← readAll (fun j => .proj (e % 2) (item / 18 * n13 + (interR + (item % 18 * 32 + j)))) 32
  let _ ← forEach (if J.hasInterQ then List.range 32 else []) fun j =>
    write (.interQ ((J.tokOff e + item / 18) * 576 + (item % 18 * 32 + j)))
      ((actGroup M.fmul M.actM M.inv gate up).1 j)
  write (.y (e % 2) (item / 18) (item % 18))
    (prepareGroup (actGroup M.fmul M.actM M.inv gate up).1 (actGroup M.fmul M.actM M.inv gate up).2)

/-- The activation: every `n`-th group. -/
def actPhase (e : ℕ) : Prog Loc Val Unit :=
  forEach (strided (J.mPerExpert e * 18) n tid) (actItem M J e)

/-- The copies of worker 0 for the tests. -/
def copyPhase (e : ℕ) : Prog Loc Val Unit := do
  let _ ← forEach (if J.hasProjOut then List.range (J.mPerExpert e * n13) else []) fun k => do
    let v ← read (.proj (e % 2) k)
    write (.projOut (J.tokOff e * n13 + k)) v
  forEach (if J.hasInterS then List.range (J.mPerExpert e * 18) else []) fun k => do
    let g ← read (.y (e % 2) (k / 18) (k % 18))
    write (.interS (J.tokOff e * 18 + k)) g.sa

/-- The operands of an expert's tokens, from their groups. -/
def operands (Y : ℕ → YGroup) (i : ℕ) : YOperand :=
  assemble fun grp => if grp < 18 then Y (i * 18 + grp) else default

/-- `fc2_rows`, for a share of the rows. -/
def fc2Phase (e : ℕ) : Prog Loc Val Unit := do
  let Y ← readAll (fun k => .y (e % 2) (k / 18) (k % 18)) (J.mPerExpert e * 18)
  forEach (fc2Writes M.fmul (J.records e) (splitRows n2 n tid).1 (splitRows n2 n tid).2 (operands Y)
      (J.mPerExpert e) (fun i => M.fmul J.vs2 (J.pairWeight (J.tokOff e + i)))
      fun i => J.outRow (J.tokOff e + i) * J.outStride) fun w =>
    write (.out w.1) w.2

/-- An expert of `run_job`. -/
def expertPhases (e : ℕ) : Prog Loc Val Unit := do
  let _ ← fc1Phase M J n tid e
  let _ ← meet
  let _ ← actPhase M J n tid e
  let _ ← meet
  let _ ← (if tid = 0 then copyPhase J e else pure ⟨⟩)
  fc2Phase M J n tid e

/-- `run_job`. -/
def runJob : Prog Loc Val Unit := do
  let _ ← prepareTokens J n tid
  let _ ← meet
  forEach (List.range J.nExperts) (expertPhases M J n tid)

end CpuMoe

end VllmMoet
