import VllmMoet.CpuMoe.Sharing

/-!
# The forward against its scalar reference

`moe_b12x_reference_pair` of `cpu_moe_b12x.cpp` computes one token of one expert row by row. Where its
numbers stay in range, the forward stores the same.

* `referencePair`, `PairInRange`;
* `PairStored`: the outputs of a token of an expert are in memory;
* `pairStored_expert`, `PairStored.expert`: an expert stores its own, and leaves those of the experts
  before it;
* `forward_eq_reference`: so does the whole job, on any number of workers.
-/

namespace VllmMoet

namespace CpuMoe

open Binary32
open Prog (forEach)

/-! ### The reference -/

/-- What `moe_b12x_reference_pair` writes. -/
structure RefPair where
  proj : ℕ → BitVec 16
  q : ℕ → UInt8
  sbytes : ℕ → UInt8
  out : ℕ → BitVec 16

/-- `moe_b12x_reference_pair`. -/
def referencePair (M : Machine) (rec aq as : ℕ → UInt8) (weight vs1 vs2 : BitVec 32)
    (proj out : ℕ → BitVec 16) : Option RefPair :=
  let proj' := refFc1 M.fadd M.fmul rec aq as vs1 proj
  let A := refAct M.fmul M.actM M.inv proj'
  (refFc2 M.fmul rec A.1 A.2 (M.fmul vs2 weight) out).map fun out' => ⟨proj', A.1, A.2, out'⟩

/-- The activation reads no projection but the token's. -/
theorem refAct_congr (M : Machine) {proj proj' : ℕ → BitVec 16}
    (h : ∀ r < n13, proj r = proj' r) :
    refAct M.fmul M.actM M.inv proj = refAct M.fmul M.actM M.inv proj' := by
  have hvalue (j : ℕ) (hj : j < 576) : actValue M.fmul M.actM (proj j) (proj (interR + j)) =
      actValue M.fmul M.actM (proj' j) (proj' (interR + j)) := by
    rw [h j (by rw [n13]; omega), h (interR + j) (by rw [n13, interR]; omega)]
  have hmax (grp : ℕ) (hgrp : grp < 18) :
      actMax (fun i =>
          actValue M.fmul M.actM (proj (grp * 32 + i)) (proj (interR + (grp * 32 + i)))) =
        actMax fun i =>
          actValue M.fmul M.actM (proj' (grp * 32 + i)) (proj' (interR + (grp * 32 + i))) :=
    List.foldl_ext _ _ _ fun a i hi => by
      dsimp only
      rw [hvalue _ (by have := List.mem_range.mp hi; omega)]
  rw [refAct, refAct, Prod.mk.injEq]
  refine ⟨funext fun j => ?_, funext fun grp => ?_⟩ <;> dsimp only
  · split_ifs with hj
    · rw [hvalue j hj, hmax (j / 32) (by omega)]
    · rfl
  · split_ifs with hgrp
    · rw [hmax grp hgrp]
    · rfl

/-! ### A token of an expert -/

variable (M : Machine) (J : Job)

/-- The projections of token `i` of expert `e`, as the reference has them. -/
def pairProj (e i : ℕ) : ℕ → BitVec 16 :=
  refFc1 M.fadd M.fmul (J.records e) (J.aq (J.tokenIdx (J.tokOff e + i)))
    (J.as (J.tokenIdx (J.tokOff e + i))) J.vs1 fun _ => 0

/-- Its codes and scale bytes. -/
def pairCodes (e i : ℕ) : (ℕ → UInt8) × (ℕ → UInt8) :=
  refAct M.fmul M.actM M.inv (pairProj M J e i)

/-- Its row of the output. -/
def pairOut (e i n : ℕ) : BitVec 16 :=
  bf16Rne (M.fmul (M.fmul J.vs2 (J.pairWeight (J.tokOff e + i)))
    (exactAcc (J.records e) (pairCodes M J e i).1 (pairCodes M J e i).2 n 18))

/-- All its numbers stay in range. -/
structure PairInRange (e i : ℕ) : Prop where
  fc1 : ∀ r < n13, ∀ b < 160, BlockInRange (J.records e) (J.aq (J.tokenIdx (J.tokOff e + i)))
    (J.as (J.tokenIdx (J.tokOff e + i))) r b
  fc2 : ∀ n < n2, RowInRange (J.records e) (pairCodes M J e i).1 (pairCodes M J e i).2 n ∧
    RowInWindow (J.records e) (pairCodes M J e i).1 (pairCodes M J e i).2 n

/-- Its outputs are in memory: the row, and what else is asked for. -/
structure PairStored (e i : ℕ) (m : ∀ l, Val l) : Prop where
  out : ∀ n < n2, m (.out (J.outRow (J.tokOff e + i) * J.outStride + n)) = pairOut M J e i n
  projOut : J.hasProjOut = true → ∀ r < n13,
    m (.projOut ((J.tokOff e + i) * n13 + r)) = pairProj M J e i r
  interQ : J.hasInterQ = true → ∀ k < 576,
    m (.interQ ((J.tokOff e + i) * 576 + k)) = (pairCodes M J e i).1 k
  interS : J.hasInterS = true → ∀ grp < 18,
    m (.interS ((J.tokOff e + i) * 18 + grp)) = (pairCodes M J e i).2 grp

/-- What the callers promise: rows long enough, tokens that exist, and an output row for each token
of each expert. -/
structure Job.Wf : Prop where
  stride : n2 ≤ J.outStride
  token : ∀ e < J.nExperts, ∀ i < J.mPerExpert e, J.tokenIdx (J.tokOff e + i) < J.nTokens
  rows : ∀ p < J.tokOff J.nExperts, ∀ p' < J.tokOff J.nExperts, J.outRow p = J.outRow p' → p = p'

variable {M J}

/-- In range, the reference comes to those. -/
theorem referencePair_eq {e i : ℕ} (h : PairInRange M J e i) (proj out : ℕ → BitVec 16) :
    ∃ ref, referencePair M (J.records e) (J.aq (J.tokenIdx (J.tokOff e + i)))
        (J.as (J.tokenIdx (J.tokOff e + i))) (J.pairWeight (J.tokOff e + i)) J.vs1 J.vs2 proj out =
          some ref ∧
      (∀ r < n13, ref.proj r = pairProj M J e i r) ∧ ref.q = (pairCodes M J e i).1 ∧
      ref.sbytes = (pairCodes M J e i).2 ∧ ∀ n < n2, ref.out n = pairOut M J e i n := by
  rw [referencePair]
  have hproj (r : ℕ) (hr : r < n13) : refFc1 M.fadd M.fmul (J.records e)
      (J.aq (J.tokenIdx (J.tokOff e + i))) (J.as (J.tokenIdx (J.tokOff e + i))) J.vs1 proj r =
        pairProj M J e i r := by
    rw [pairProj, refFc1_apply _ _ hr, refFc1_apply _ _ hr]
  generalize refFc1 M.fadd M.fmul (J.records e) (J.aq (J.tokenIdx (J.tokOff e + i)))
    (J.as (J.tokenIdx (J.tokOff e + i))) J.vs1 proj = proj' at hproj ⊢
  have hcodes : refAct M.fmul M.actM M.inv proj' = pairCodes M J e i := refAct_congr M hproj
  rw [hcodes, refFc2_eq M.fmul h.fc2, Option.map_some]
  exact ⟨_, rfl, hproj, rfl, rfl, fun n hn => if_pos hn⟩

/-! ### An expert -/

section Expert

variable (M J) (e : ℕ) (m : ∀ l, Val l)

/-- The memory after FC1 of an expert. -/
def afterFc1 : ∀ l, Val l := storeAll ((fc1Phase M J 1 0 e).writes m) m

/-- The memory after the activation of an expert. -/
def afterAct : ∀ l, Val l :=
  storeAll ((actPhase M J 1 0 e).writes (afterFc1 M J e m)) (afterFc1 M J e m)

/-- The memory after the copies. -/
def afterCopy : ∀ l, Val l :=
  storeAll ((copyPhase J e).writes (afterAct M J e m)) (afterAct M J e m)

/-- The memory after FC2 of an expert. -/
def afterFc2 : ∀ l, Val l :=
  storeAll ((fc2Phase M J 1 0 e).writes (afterCopy M J e m)) (afterCopy M J e m)

variable {M J e m}

theorem afterFc1_of_not {l : Loc} (hl : ¬ l.IsProj (e % 2)) : afterFc1 M J e m l = m l :=
  storeAll_of_nil ((fc1_shared (n := 1) m e).uses_whole.storesTo_eq_nil hl)

theorem afterAct_of_not {l : Loc} (hy : ¬ l.IsY (e % 2))
    (hq : ∀ k, J.tokOff e * 576 ≤ k → l ≠ .interQ k) :
    afterAct M J e m l = afterFc1 M J e m l := by
  refine storeAll_of_nil (Prog.Uses.storesTo_eq_nil (R := Loc.IsProj (e % 2))
    (W := fun l => l.IsY (e % 2) ∨ ∃ k, J.tokOff e * 576 ≤ k ∧ l = .interQ k)
    (Prog.Uses.forEach fun item hitem => ?_) ?_)
  · refine ((act_items m e).uses item hitem).mono (fun _ => id) ?_
    rintro _ (rfl | ⟨j, -, rfl⟩)
    · exact .inl rfl
    · exact .inr ⟨_, by omega, rfl⟩
  · rintro (h | ⟨k, hk, rfl⟩)
    · exact hy h
    · exact hq k hk rfl

theorem afterCopy_of_not {l : Loc} (hp : ∀ k, J.tokOff e * n13 ≤ k → l ≠ .projOut k)
    (hs : ∀ k, J.tokOff e * 18 ≤ k → l ≠ .interS k) :
    afterCopy M J e m l = afterAct M J e m l := by
  refine storeAll_of_nil (storesTo_eq_nil.mpr fun x hx heq => ?_)
  rw [writes_copyPhase, List.mem_append, List.mem_map, List.mem_map] at hx
  rcases hx with ⟨k, -, rfl⟩ | ⟨k, -, rfl⟩
  · exact hp _ (Nat.le_add_right ..) heq.symm
  · exact hs _ (Nat.le_add_right ..) heq.symm

theorem afterFc2_of_not {l : Loc} (hl : ¬ l.IsOut) : afterFc2 M J e m l = afterCopy M J e m l :=
  storeAll_of_nil ((uses_fc2Phase e 1 0).storesTo_eq_nil hl)

/-- FC2 reads operands of codes. -/
theorem afterCopy_prepared (i : ℕ) (hi : i < J.mPerExpert e) (grp : ℕ) (hgrp : grp < 18) :
    (afterCopy M J e m (.y (e % 2) i grp)).Prepared := by
  obtain ⟨c, hc, -⟩ := act_stored (M := M) (J := J) (afterFc1 M J e m) e hi hgrp
  rw [afterCopy_of_not (fun _ _ => Loc.noConfusion) fun _ _ => Loc.noConfusion]
  exact ⟨c, _, hc⟩

/-- The codes end where their arrays do. -/
theorem pairCodes_of_le {i : ℕ} : (∀ k, 576 ≤ k → (pairCodes M J e i).1 k = 0) ∧
    ∀ grp, 18 ≤ grp → (pairCodes M J e i).2 grp = 0 :=
  ⟨fun _ hk => if_neg (by omega), fun _ hgrp => if_neg (by omega)⟩

section Pair

variable {i : ℕ}

/-- FC1 leaves the reference's projections. -/
theorem afterFc1_proj (hi : i < J.mPerExpert e) (hrange : PairInRange M J e i)
    (hx : m (.x (J.tokenIdx (J.tokOff e + i))) =
      prepareX (J.aq (J.tokenIdx (J.tokOff e + i))) (J.as (J.tokenIdx (J.tokOff e + i))))
    {r : ℕ} (hr : r < n13) :
    afterFc1 M J e m (.proj (e % 2) (i * n13 + r)) = pairProj M J e i r := by
  have hacc : fc1Acc M.fadd (J.records e) r (fun _ => prepareX
      (J.aq (J.tokenIdx (J.tokOff e + i))) (J.as (J.tokenIdx (J.tokOff e + i)))) _ i = _ :=
    fc1Acc_eq hi (hrange.fc1 r hr)
  rw [pairProj, refFc1_apply _ _ hr, ← hacc, afterFc1, fc1_stored m e hi hr, fc1Acc_apply _ hi,
    fc1Acc_apply _ hi, if_pos hi, hx]

/-- So the activation is the reference's. -/
theorem refAct_afterFc1 (hi : i < J.mPerExpert e) (hrange : PairInRange M J e i)
    (hx : m (.x (J.tokenIdx (J.tokOff e + i))) =
      prepareX (J.aq (J.tokenIdx (J.tokOff e + i))) (J.as (J.tokenIdx (J.tokOff e + i)))) :
    (refAct M.fmul M.actM M.inv fun k => afterFc1 M J e m (.proj (e % 2) (i * n13 + k))) =
      pairCodes M J e i :=
  refAct_congr M fun _ hr => afterFc1_proj hi hrange hx hr

/-- What FC2 reads of a token. -/
theorem fc2Operands_afterCopy (hi : i < J.mPerExpert e) (hrange : PairInRange M J e i)
    (hx : m (.x (J.tokenIdx (J.tokOff e + i))) =
      prepareX (J.aq (J.tokenIdx (J.tokOff e + i))) (J.as (J.tokenIdx (J.tokOff e + i)))) :
    fc2Operands J (afterCopy M J e m) e i =
      prepareY (pairCodes M J e i).1 (pairCodes M J e i).2 := by
  refine operands_eq (fun grp hgrp => ?_) pairCodes_of_le.1 pairCodes_of_le.2
  have hdiv : (i * 18 + grp) / 18 = i := by omega
  have hmod : (i * 18 + grp) % 18 = grp := by omega
  have hstored := act_stored (M := M) (J := J) (afterFc1 M J e m) e hi hgrp
  rw [refAct_afterFc1 hi hrange hx] at hstored
  rw [if_pos (by omega), hdiv, hmod, afterCopy_of_not (fun _ _ => Loc.noConfusion)
    fun _ _ => Loc.noConfusion]
  exact hstored

/-- **An expert stores the outputs of its tokens.** -/
theorem pairStored_expert (hstride : n2 ≤ J.outStride) (hi : i < J.mPerExpert e)
    (hrange : PairInRange M J e i)
    (hx : m (.x (J.tokenIdx (J.tokOff e + i))) =
      prepareX (J.aq (J.tokenIdx (J.tokOff e + i))) (J.as (J.tokenIdx (J.tokOff e + i))))
    (hrow : ∀ i' < J.mPerExpert e,
      J.outRow (J.tokOff e + i') = J.outRow (J.tokOff e + i) → i' = i) :
    PairStored M J e i (afterFc2 M J e m) where
  out n hn := by
    have hlt : n < J.outStride := by omega
    have hpos : 0 < J.outStride := by omega
    have hdiv : (J.outRow (J.tokOff e + i) * J.outStride + n) / J.outStride =
        J.outRow (J.tokOff e + i) := by
      rw [Nat.mul_comm, Nat.mul_add_div hpos, Nat.div_eq_of_lt hlt, Nat.add_zero]
    have hmod : (J.outRow (J.tokOff e + i) * J.outStride + n) % J.outStride = n := by
      rw [Nat.mul_comm, Nat.mul_add_mod, Nat.mod_eq_of_lt hlt]
    have hmem : n ∈ rowsOf n2 1 0 := by
      rw [mem_rowsOf_iff]
      exact ⟨by simp [splitRows], by simp [splitRows]; omega⟩
    have hto := storesTo_fc2Phase (M := M) (afterCopy M J e m) e hstride afterCopy_prepared 1 0
      (J.outRow (J.tokOff e + i) * J.outStride + n)
    rw [hdiv, hmod, if_pos hmem, flatMap_eq_single List.nodup_range (List.mem_range.mpr hi)
      (fun i' hi' hne => if_neg fun heq => hne (hrow i' (List.mem_range.mp hi') heq)),
      if_pos rfl, fc2Operands_afterCopy hi hrange hx] at hto
    rw [afterFc2, storeAll_of_single hto, rowOut, rowAcc_eq (hrange.fc2 n hn).1 le_rfl, pairOut]
  projOut hp r hr := by
    rw [afterFc2_of_not id, ← afterFc1_proj hi hrange hx hr,
      ← afterAct_of_not id fun _ _ => Loc.noConfusion]
    have hle := Nat.mul_le_mul_right n13 (Nat.succ_le_of_lt hi)
    rw [Nat.succ_mul] at hle
    have hplace : (J.tokOff e + i) * n13 + r = J.tokOff e * n13 + (i * n13 + r) := by ring
    rw [hplace, afterCopy, copy_stored_proj _ e hp (by omega)]
  interQ hq k hk := by
    rw [afterFc2_of_not id, afterCopy_of_not (fun _ _ => Loc.noConfusion)
      fun _ _ => Loc.noConfusion, afterAct, interQ_stored _ e hq hi hk,
      refAct_afterFc1 hi hrange hx]
  interS hs grp hgrp := by
    have hplace : (J.tokOff e + i) * 18 + grp = J.tokOff e * 18 + (i * 18 + grp) := by ring
    have hdiv : (i * 18 + grp) / 18 = i := by omega
    have hmod : (i * 18 + grp) % 18 = grp := by omega
    obtain ⟨c, hc, -⟩ := act_stored (M := M) (J := J) (afterFc1 M J e m) e hi hgrp
    rw [afterFc2_of_not id, hplace, afterCopy, copy_stored_scale _ e hs (by omega), hdiv, hmod,
      afterAct, hc, refAct_afterFc1 hi hrange hx]
    rfl

/-- **It leaves those of the experts before it.** -/
theorem PairStored.expert {e' : ℕ} (h : PairStored M J e' i m) (he : J.tokOff e' + i < J.tokOff e)
    (hstride : n2 ≤ J.outStride)
    (hrow : ∀ i' < J.mPerExpert e, J.outRow (J.tokOff e + i') ≠ J.outRow (J.tokOff e' + i)) :
    PairStored M J e' i (afterFc2 M J e m) where
  out n hn := by
    have hlt : n < J.outStride := by omega
    have hdiv : (J.outRow (J.tokOff e' + i) * J.outStride + n) / J.outStride =
        J.outRow (J.tokOff e' + i) := by
      rw [Nat.mul_comm, Nat.mul_add_div (by omega), Nat.div_eq_of_lt hlt, Nat.add_zero]
    have hto := storesTo_fc2Phase (M := M) (afterCopy M J e m) e hstride afterCopy_prepared 1 0
      (J.outRow (J.tokOff e' + i) * J.outStride + n)
    rw [hdiv, List.flatMap_eq_nil_iff.mpr fun i' hi' => if_neg (hrow i' (List.mem_range.mp hi')),
      ite_self] at hto
    rw [afterFc2, storeAll_of_nil hto, afterCopy_of_not (fun _ _ => Loc.noConfusion)
      fun _ _ => Loc.noConfusion, afterAct_of_not id fun _ _ => Loc.noConfusion,
      afterFc1_of_not id, h.out n hn]
  projOut hp r hr := by
    have hlt : (J.tokOff e' + i) * n13 + r < J.tokOff e * n13 := by
      have hle := Nat.mul_le_mul_right n13 (Nat.succ_le_of_lt he)
      rw [Nat.succ_mul] at hle
      omega
    rw [afterFc2_of_not id, afterCopy_of_not (fun k hk heq => ?_) fun _ _ => Loc.noConfusion,
      afterAct_of_not id fun _ _ => Loc.noConfusion, afterFc1_of_not id, h.projOut hp r hr]
    have := Loc.projOut.inj heq
    omega
  interQ hq k hk := by
    rw [afterFc2_of_not id, afterCopy_of_not (fun _ _ => Loc.noConfusion)
      fun _ _ => Loc.noConfusion, afterAct_of_not id fun k' hk' heq => ?_, afterFc1_of_not id,
      h.interQ hq k hk]
    have := Loc.interQ.inj heq
    omega
  interS hs grp hgrp := by
    rw [afterFc2_of_not id, afterCopy_of_not (fun _ _ => Loc.noConfusion) fun k hk heq => ?_,
      afterAct_of_not id fun _ _ => Loc.noConfusion, afterFc1_of_not id, h.interS hs grp hgrp]
    have := Loc.interS.inj heq
    omega

end Pair

theorem afterFc2_x (t : ℕ) : afterFc2 M J e m (.x t) = m (.x t) := by
  rw [afterFc2_of_not id, afterCopy_of_not (fun _ _ => Loc.noConfusion)
    fun _ _ => Loc.noConfusion, afterAct_of_not id fun _ _ => Loc.noConfusion, afterFc1_of_not id]

/-- One worker alone runs the phases one after the other. -/
theorem exec_expertPhases (f : Unit → Prog Loc Val Unit) :
    (expertPhases M J 1 0 e >>= f).exec m = (f ()).exec (afterFc2 M J e m) := by
  have hmeet (m : ∀ l, Val l) (f : Unit → Prog Loc Val Unit) :
      (Prog.meet >>= f).exec m = (f ()).exec m := rfl
  rw [expertPhases, if_pos rfl]
  simp only [bind_assoc]
  have hfc1 := fc1_shared (n := 1) (M := M) (J := J) m e
  rw [Prog.exec_bind_eq (fun l hl hl' => hl.not_isBuffer hl'.isBuffer) hfc1.uses_whole
    hfc1.ends_whole, hmeet]
  have hact := act_shared (n := 1) (M := M) (J := J) (afterFc1 M J e m) e
  change Prog.exec _ (afterFc1 M J e m) = _
  rw [Prog.exec_bind_eq (fun l hl => not_or.mpr ⟨hl.not_isY, hl.not_isInterQ⟩) hact.uses_whole
    hact.ends_whole, hmeet]
  have hcopy := copy_shared (n := 1) (J := J) (afterAct M J e m) e
  change Prog.exec _ (afterAct M J e m) = _
  rw [Prog.exec_bind_eq (fun l hl hl' => hl.not_isResult (.inr hl'))
    hcopy.uses_whole hcopy.ends_whole]
  change Prog.exec _ (afterCopy M J e m) = _
  rw [Prog.exec_bind_eq (fun l hl hl' => hl.isBuffer.not_isResult (.inl hl'))
    (uses_fc2Phase e 1 0) (ending_fc2Phase _ e 1 0)]
  rfl

end Expert

/-! ### The job -/

theorem Job.tokOff_mono : Monotone J.tokOff := monotone_nat_of_le_succ fun _ => Nat.le_add_right ..

/-- A pair of a job has an index of its own. -/
theorem Job.tokOff_lt {e k i : ℕ} (he : e < k) (hi : i < J.mPerExpert e) :
    J.tokOff e + i < J.tokOff k :=
  (Nat.add_lt_add_left hi _).trans_le (J.tokOff_mono (Nat.succ_le_of_lt he))

/-- The tokens are prepared, and the pairs of the experts before `k` have their outputs. -/
structure Forwarded (M : Machine) (J : Job) (k : ℕ) (m : ∀ l, Val l) : Prop where
  prepared : ∀ t < J.nTokens, m (.x t) = prepareX (J.aq t) (J.as t)
  stored : ∀ e < k, ∀ i < J.mPerExpert e, PairInRange M J e i → PairStored M J e i m

/-- One expert more. -/
theorem Forwarded.expert (hJ : J.Wf) {k : ℕ} (hk : k < J.nExperts) {m : ∀ l, Val l}
    (h : Forwarded M J k m) : Forwarded M J (k + 1) (afterFc2 M J k m) where
  prepared t ht := (afterFc2_x t).trans (h.prepared t ht)
  stored e he i hi hrange := by
    have hrow (i' : ℕ) (hi' : i' < J.mPerExpert k)
        (heq : J.outRow (J.tokOff k + i') = J.outRow (J.tokOff e + i)) :
        J.tokOff k + i' = J.tokOff e + i :=
      hJ.rows _ (J.tokOff_lt hk hi') _ (J.tokOff_lt (by omega) hi) heq
    rcases Nat.lt_succ_iff_lt_or_eq.mp he with hlt | rfl
    · have hbefore := J.tokOff_lt hlt hi
      refine (h.stored e hlt i hi hrange).expert hbefore hJ.stride fun i' hi' heq => ?_
      have := hrow i' hi' heq
      omega
    · exact pairStored_expert hJ.stride hi hrange (h.prepared _ (hJ.token e hk i hi))
        fun i' hi' heq => Nat.add_left_cancel (hrow i' hi' heq)

/-- The experts one after the other. -/
theorem Forwarded.exec (hJ : J.Wf) (cnt : ℕ) {k : ℕ} (hk : k + cnt ≤ J.nExperts)
    {m : ∀ l, Val l} (h : Forwarded M J k m) :
    Forwarded M J (k + cnt) ((forEach (List.range' k cnt) (expertPhases M J 1 0)).exec m) := by
  induction cnt generalizing k m with
  | zero => exact h
  | succ cnt ih =>
    have hnext := ih (k := k + 1) (by omega) (h.expert hJ (by omega))
    rw [List.range'_succ, forEach, exec_expertPhases]
    have hadd : k + (cnt + 1) = k + 1 + cnt := by omega
    rw [hadd]
    exact hnext

/-- One worker alone stores the outputs of all pairs. -/
theorem forwarded_runJob (hJ : J.Wf) (m : ∀ l, Val l) :
    Forwarded M J J.nExperts ((runJob M J 1 0).exec m) := by
  have hprepare := prepare_shared (n := 1) (J := J) m
  have hstart : Forwarded M J 0 (storeAll ((prepareTokens J 1 0).writes m) m) :=
    ⟨fun t ht => prepare_stored m ht, fun e he => absurd he (Nat.not_lt_zero e)⟩
  have hend := hstart.exec hJ J.nExperts (Nat.zero_add _).le
  rw [Nat.zero_add, ← List.range_eq_range'] at hend
  rw [runJob, Prog.exec_bind_eq (fun _ => False.elim) hprepare.uses_whole hprepare.ends_whole]
  exact hend

/-- **The forward computes its reference.** On any number of workers and in any interleaving of
them, when all have finished the memory has, for each pair of an expert and a token whose numbers
stay in range, what the scalar reference computes: the output row, and the projections, codes and
scale bytes if they are asked for. -/
theorem forward_eq_reference {n : ℕ} (hn : 0 < n) (hJ : J.Wf) (m : ∀ l, Val l) (g : BitVec 32)
    {s : Bars n Loc Val Unit} (hs : (bars (fun i : Fin n => runJob M J n i) m g).Reachable s)
    (hdone : ∀ i, (s.workers i).Done) {e i : ℕ} (he : e < J.nExperts) (hi : i < J.mPerExpert e)
    (hrange : PairInRange M J e i) (proj out : ℕ → BitVec 16) :
    ∃ ref, referencePair M (J.records e) (J.aq (J.tokenIdx (J.tokOff e + i)))
        (J.as (J.tokenIdx (J.tokOff e + i))) (J.pairWeight (J.tokOff e + i)) J.vs1 J.vs2 proj out =
          some ref ∧
      (∀ n < n2, s.mem (.out (J.outRow (J.tokOff e + i) * J.outStride + n)) = ref.out n) ∧
      (J.hasProjOut = true → ∀ r < n13,
        s.mem (.projOut ((J.tokOff e + i) * n13 + r)) = ref.proj r) ∧
      (J.hasInterQ = true → ∀ k < 576, s.mem (.interQ ((J.tokOff e + i) * 576 + k)) = ref.q k) ∧
      (J.hasInterS = true → ∀ grp < 18,
        s.mem (.interS ((J.tokOff e + i) * 18 + grp)) = ref.sbytes grp) := by
  have hstored := (forwarded_runJob (M := M) hJ m).stored e he i hi hrange
  rw [← mem_eq_alone hn hJ.stride hs hdone] at hstored
  obtain ⟨ref, href, hproj, hq, hsb, hout⟩ := referencePair_eq hrange proj out
  refine ⟨ref, href, fun n hn => ?_, fun h r hr => ?_, fun h k hk => ?_, fun h grp hgrp => ?_⟩
  · rw [hstored.out n hn, hout n hn]
  · rw [hstored.projOut h r hr, hproj r hr]
  · rw [hstored.interQ h k hk, hq]
  · rw [hstored.interS h grp hgrp, hsb]

/-! ### Two experts on two workers -/

theorem twoExperts_wf : twoExperts.Wf where
  stride := Nat.le_refl n2
  token e he i hi := by
    have hoff (e : ℕ) : twoExperts.tokOff e = e := by
      induction e with
      | zero => rfl
      | succ e ih => rw [Job.tokOff, ih, twoExperts]
    change i < 1 at hi
    change twoExperts.tokOff e + i < 2
    change e < 2 at he
    rw [hoff]
    omega
  rows _ _ _ _ h := h

/-- Every projection is 1. -/
theorem pairProj_twoExperts (e : ℕ) {r : ℕ} (hr : r < n13) :
    pairProj unitMachine twoExperts e 0 r = 0x3F80#16 := by
  have hacc : refAcc unitMachine.fadd (fun _ => 34) firstOnes (fun _ => 215) 0 = 0x3F800000#32 := by
    decide +kernel
  have hone : bf16Rne (mul 0x3F800000#32 0x3F800000#32) = 0x3F80#16 := by decide +kernel
  -- all rows of such a record are alike
  have hrow : refAcc unitMachine.fadd (fun _ => 34) firstOnes (fun _ => 215) r =
      refAcc unitMachine.fadd (fun _ => 34) firstOnes (fun _ => 215) 0 := by
    rw [refAcc, refAcc]
    exact List.foldl_ext _ _ _ fun _ _ _ => rfl
  rw [pairProj, refFc1_apply _ _ hr]
  change bf16Rne (mul 0x3F800000#32
    (refAcc unitMachine.fadd (fun _ => 34) firstOnes (fun _ => 215) r)) = _
  rw [hrow, hacc, hone]

/-- The codes of activations of 0.73, which come to 384 in units of the scale, and the scales. -/
def activationCodes : (ℕ → UInt8) × (ℕ → UInt8) :=
  (fun k => if k < 576 then 0x7C else 0, fun grp => if grp < 18 then 118 else 0)

theorem pairCodes_twoExperts (e : ℕ) :
    pairCodes unitMachine twoExperts e 0 = activationCodes := by
  have hcodes : pairCodes unitMachine twoExperts e 0 =
      refAct unitMachine.fmul unitMachine.actM unitMachine.inv fun _ => 0x3F80#16 :=
    refAct_congr unitMachine fun r hr => pairProj_twoExperts e hr
  have hvalue : actValue unitMachine.fmul unitMachine.actM 0x3F80#16 0x3F80#16 =
      0x3F3B0000#32 := by
    decide +kernel
  have hbyte : pow2CeilByte (unitMachine.fmul (actMax fun _ => 0x3F3B0000#32) invFp8Max) = 118 := by
    decide +kernel
  have hcode : f32ToE4m3Rne (unitMachine.fmul (unitMachine.inv 118) 0x3F3B0000#32) = 0x7C := by
    decide +kernel
  rw [hcodes, refAct]
  dsimp only
  rw [hvalue, hbyte, hcode]
  rfl

/-- The rows of such a record are all alike. -/
theorem exactAcc_alike (q sbytes : ℕ → UInt8) (n k : ℕ) :
    exactAcc (fun _ => 34) q sbytes n k = exactAcc (fun _ => 34) q sbytes 0 k := by
  induction k with
  | zero => rfl
  | succ k ih =>
    rw [exactAcc, exactAcc, ih]
    rfl

/-- The accumulator grows from block to block, far from both ends of the range. -/
theorem rowInRange_twoExperts (n : ℕ) :
    RowInRange (fun _ => 34) activationCodes.1 activationCodes.2 n ∧
      RowInWindow (fun _ => 34) activationCodes.1 activationCodes.2 n := by
  have hsum : ∀ b < 18, 2 ^ (-126 : ℤ) ≤ fc2Sum (exactAcc (fun _ => 34) activationCodes.1
        activationCodes.2 0 b) (fun _ => 34) activationCodes.1 b (-102) ∧
      fc2Sum (exactAcc (fun _ => 34) activationCodes.1 activationCodes.2 0 b) (fun _ => 34)
        activationCodes.1 b (-102) < 2 ^ (128 : ℤ) := by
    decide +kernel
  have hwindow : ∀ b < 18,
      f32Exp (exactAcc (fun _ => 34) activationCodes.1 activationCodes.2 0 b) ≤ -102 + 116 := by
    decide +kernel
  have hexp : ∀ b < 18, rowExp (fun _ => 34) activationCodes.2 n b = -102 := by
    intro b hb
    rw [rowExp, rowScale, activationCodes]
    dsimp only
    rw [if_pos hb]
    decide
  have hproduct : ∀ b < 18, product (fun _ => 34) activationCodes.1 b 0 ≠ 0 := by
    decide
  refine ⟨fun b hb _ => ?_, fun b hb _ => ⟨?_, fun hnone => ?_⟩⟩
  · rw [exactAcc_alike, hexp b hb]
    obtain ⟨hge, hlt⟩ := hsum b hb
    have hpos : (0 : ℚ) < 2 ^ (-126 : ℤ) := by positivity
    rw [show rowNib (fun _ => 34) n = fun _ => 34 from rfl, abs_of_pos (hpos.trans_le hge)]
    exact ⟨hge, hlt⟩
  · rw [exactAcc_alike, hexp b hb]
    exact hwindow b hb
  · exact absurd (hnone 0 (by decide)) (hproduct b hb)

theorem pairInRange_twoExperts (e : ℕ) : PairInRange unitMachine twoExperts e 0 where
  fc1 r _ b hb := by
    -- the first block is worth 1, and the others nothing
    have hvalue : ∀ b < 160, NormalRange (blockValue (refDot firstOnes (fun _ => 34) b) 215 34) := by
      intro b hb h
      have hcases : ∀ b < 160, blockValue (refDot firstOnes (fun _ => 34) b) 215 34 = 0 ∨
          blockValue (refDot firstOnes (fun _ => 34) b) 215 34 = 1 := by decide +kernel
      rw [(hcases b hb).resolve_left h, abs_one, zpow_neg]
      norm_num
    exact hvalue b hb
  fc2 n _ := by
    rw [pairCodes_twoExperts]
    exact rowInRange_twoExperts n

/-- Two workers compute two experts as the reference does, with all the outputs. -/
theorem forward_eq_reference_twoExperts : ∃ s : Bars 2 Loc Val Unit,
    (bars (fun i : Fin 2 => runJob unitMachine twoExperts 2 i) (fun _ => default) 0).Reachable s ∧
    ∀ e < 2, ∃ ref, referencePair unitMachine (fun _ => 34) firstOnes (fun _ => 215) 0x3F800000#32
        0x3F800000#32 0x3F800000#32 (fun _ => 0) (fun _ => 0) = some ref ∧
      (∀ n < n2, s.mem (.out ((twoExperts.tokOff e + 0) * n2 + n)) = ref.out n) ∧
      (∀ r < n13, s.mem (.projOut ((twoExperts.tokOff e + 0) * n13 + r)) = ref.proj r) ∧
      (∀ k < 576, s.mem (.interQ ((twoExperts.tokOff e + 0) * 576 + k)) = ref.q k) ∧
      ∀ grp < 18, s.mem (.interS ((twoExperts.tokOff e + 0) * 18 + grp)) = ref.sbytes grp := by
  obtain ⟨s, hs, hdone⟩ := exists_finished_runJob unitMachine (J := twoExperts) (n := 2) (by decide)
    (Nat.le_refl n2) (fun _ => default) 0
  refine ⟨s, hs, fun e he => ?_⟩
  obtain ⟨ref, href, hout, hproj, hq, hsb⟩ := forward_eq_reference (by decide) twoExperts_wf _ 0 hs
    hdone he Nat.one_pos (pairInRange_twoExperts e) (fun _ => 0) fun _ => 0
  exact ⟨ref, href, hout, hproj rfl, hq rfl, hsb rfl⟩

end CpuMoe

end VllmMoet
