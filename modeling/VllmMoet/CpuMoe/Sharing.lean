import VllmMoet.CpuMoe.Stored
import VllmMoet.Lib.FloatRound

/-!
# The workers share out the forward

Whatever their number, the workers of `run_job` share out the work of one worker.

* `fc1_shared`, `act_shared`, `fc2_shared`: what happens between two barriers. Each place is written
  by one worker, and with what one worker alone would write there;
* `runJob_shared`: the whole job, FC2 of an expert together with FC1 of the next;
* `runJob_eq_alone`: so all interleavings of the workers, with their barrier, end in the memory that
  one worker alone would leave, and none gets stuck.
-/

namespace VllmMoet

namespace CpuMoe

open Binary32
open Prog (forEach meet read readAll write)

variable {M : Machine} {J : Job} {n : ℕ}

/-! ### The phases -/

theorem strided_sub {total x : ℕ} {i : Fin n} (hx : x ∈ strided total n i) :
    x ∈ strided total 1 0 :=
  (mem_strided Nat.one_pos).mpr ⟨((mem_strided i.isLt).mp hx).1, Nat.mod_one x⟩

theorem rows_sub {total x : ℕ} {i : Fin n} (hx : x ∈ rowsOf total n i) : x ∈ rowsOf total 1 0 := by
  have hlt := ((mem_rowsOf i.isLt).mp hx).1
  refine (mem_rowsOf Nat.one_pos).mpr ⟨hlt, ?_⟩
  rw [Nat.div_one]
  exact Nat.div_eq_of_lt (by omega)

section Phases

variable [NeZero n] (m : ∀ l, Val l) (e : ℕ)

/-- Every `n`-th item has one owner. -/
theorem strided_owner {total x : ℕ} (hx : x ∈ strided total 1 0) :
    ∃ i : Fin n, x ∈ strided total n i ∧ ∀ j ≠ i, x ∉ strided total n j := by
  have hn : 0 < n := Nat.pos_of_ne_zero (NeZero.ne n)
  have hlt := ((mem_strided Nat.one_pos).mp hx).1
  refine ⟨⟨x % n, Nat.mod_lt x hn⟩, (mem_strided (Nat.mod_lt x hn)).mpr ⟨hlt, rfl⟩,
    fun j hj hxj => ?_⟩
  exact hj (Fin.ext ((mem_strided j.isLt).mp hxj).2.symm)

/-- So has every row. -/
theorem rows_owner {total x : ℕ} (hx : x ∈ rowsOf total 1 0) :
    ∃ i : Fin n, x ∈ rowsOf total n i ∧ ∀ j ≠ i, x ∉ rowsOf total n j := by
  have hn : 0 < n := Nat.pos_of_ne_zero (NeZero.ne n)
  have hlt := ((mem_rowsOf Nat.one_pos).mp hx).1
  have hper : x / ((total + n - 1) / n) < n := by
    refine Nat.div_lt_of_lt_mul (hlt.trans_le ?_)
    have hdiv := Nat.div_add_mod (total + n - 1) n
    have hmod := Nat.mod_lt (total + n - 1) hn
    rw [Nat.mul_comm]
    omega
  refine ⟨⟨_, hper⟩, (mem_rowsOf hper).mpr ⟨hlt, rfl⟩, fun j hj hxj => ?_⟩
  exact hj (Fin.ext ((mem_rowsOf j.isLt).mp hxj).2.symm)

theorem prepare_shared : SharedWork m (fun i : Fin n => prepareTokens J n i) (prepareTokens J 1 0)
    (fun _ => False) Loc.IsX := by
  refine (prepare_items m).shared ?_ (fun i => nodup_strided i.isLt) (fun _ _ => strided_sub)
    fun _ => strided_owner
  rintro t - _ rfl
  trivial

theorem fc1_shared : SharedWork m (fun i : Fin n => fc1Phase M J n i e) (fc1Phase M J 1 0 e)
    Loc.IsX (Loc.IsProj (e % 2)) := by
  refine (fc1_items m e).shared ?_ (fun i => nodup_rowsOf) (fun _ _ => rows_sub)
    fun _ => rows_owner
  rintro r - _ ⟨-, t, rfl⟩
  rfl

theorem act_shared : SharedWork m (fun i : Fin n => actPhase M J n i e) (actPhase M J 1 0 e)
    (Loc.IsProj (e % 2)) fun l => Loc.IsY (e % 2) l ∨ Loc.IsInterQ l := by
  refine (act_items m e).shared ?_ (fun i => nodup_strided i.isLt) (fun _ _ => strided_sub)
    fun _ => strided_owner
  rintro item - _ (rfl | ⟨j, -, rfl⟩)
  · exact .inl rfl
  · exact .inr trivial

theorem copy_shared : SharedWork m
    (fun i : Fin n => if (i : ℕ) = 0 then copyPhase J e else Pure.pure ⟨⟩) (copyPhase J e)
    (Loc.IsBuffer (e % 2)) Loc.IsCopy := by
  have hzero (i : Fin n) : (i : ℕ) = 0 ↔ i = 0 := by
    rw [Fin.ext_iff, Fin.val_zero]
  simp only [hzero]
  refine .alone 0 ?_ ?_
  · rw [copyPhase, Prog.ending_bind, Prog.ending_forEach fun _ _ => rfl]
    exact Prog.ending_forEach fun _ _ => rfl
  · refine Prog.Uses.bind (Prog.Uses.forEach fun k _ => ?_) fun _ =>
      Prog.Uses.forEach fun k _ => ?_
    · exact Prog.Uses.bind (Prog.Uses.read (.inl rfl)) fun _ => Prog.Uses.write trivial
    · exact Prog.Uses.bind (Prog.Uses.read (.inr rfl)) fun _ => Prog.Uses.write trivial

theorem fc2_shared (hstride : n2 ≤ J.outStride)
    (hY : ∀ i < J.mPerExpert e, ∀ grp < 18, (m (.y (e % 2) i grp)).Prepared) :
    SharedWork m (fun i : Fin n => fc2Phase M J n i e) (fc2Phase M J 1 0 e)
      (Loc.IsY (e % 2)) Loc.IsOut := by
  refine ⟨fun i => ending_fc2Phase m e n i, ending_fc2Phase m e 1 0, fun l => ?_,
    fun i => uses_fc2Phase e n i, uses_fc2Phase e 1 0⟩
  by_cases hl : l.IsOut
  · obtain ⟨k, rfl⟩ : ∃ k, l = .out k := by
      cases l with
      | out k => exact ⟨k, rfl⟩
      | _ => exact hl.elim
    simp only [storesTo_fc2Phase m e hstride hY]
    by_cases hcol : k % J.outStride ∈ rowsOf n2 1 0
    · obtain ⟨i, hi, hother⟩ := rows_owner (n := n) hcol
      exact ⟨i, by rw [if_pos hi, if_pos hcol], fun j hj => if_neg (hother j hj)⟩
    · have hnone (i : Fin n) : k % J.outStride ∉ rowsOf n2 n i := fun h => hcol (rows_sub h)
      exact ⟨0, by rw [if_neg (hnone 0), if_neg hcol], fun j _ => if_neg (hnone j)⟩
  · have hnone (n tid : ℕ) := (uses_fc2Phase (M := M) (J := J) e n tid).storesTo_eq_nil (m := m) hl
    exact ⟨0, by rw [hnone, hnone], fun j _ => hnone n j⟩

/-! ### The job -/

/-- The experts from `k` on, behind the tail `A` of the one before: FC2 of an expert is shared out
together with FC1 of the next, which uses the other buffer. -/
theorem experts_shared (hstride : n2 ≤ J.outStride) (cnt k : ℕ) {A : Fin n → Prog Loc Val Unit}
    {a : Prog Loc Val Unit} {R W : Loc → Prop} (hA : SharedWork m A a R W)
    (hR : ∀ l, R l → l.IsBuffer ((k + 1) % 2)) (hW : ∀ l, W l → l.IsResult) :
    Shares m (fun i => A i >>= fun _ => forEach (List.range' k cnt) (expertPhases M J n i))
      (a >>= fun _ => forEach (List.range' k cnt) (expertPhases M J 1 0)) := by
  induction cnt generalizing k m A a R W with
  | zero =>
    have hpure (p : Prog Loc Val Unit) (g : ℕ → Prog Loc Val Unit) :
        (p >>= fun _ => forEach (List.range' k 0) g) = p := bind_pure p
    simp only [hpure]
    exact hA.shares fun l hl hl' => (hR l hl).not_isResult (hW l hl')
  | succ cnt ih =>
    have hexpert (n tid : ℕ) (p : Prog Loc Val Unit) :
        (p >>= fun _ => forEach (List.range' k (cnt + 1)) (expertPhases M J n tid)) =
          (p >>= fun _ => fc1Phase M J n tid k) >>= fun _ => meet >>= fun _ =>
            actPhase M J n tid k >>= fun _ => meet >>= fun _ =>
              ((if tid = 0 then copyPhase J k else Pure.pure ⟨⟩) >>= fun _ =>
                fc2Phase M J n tid k) >>= fun _ =>
                  forEach (List.range' (k + 1) cnt) (expertPhases M J n tid) := by
      rw [List.range'_succ, forEach, expertPhases]
      simp only [bind_assoc]
    have hwhole := hexpert 1 0 a
    rw [if_pos rfl] at hwhole
    simp only [hexpert n]
    rw [hwhole]
    -- the buffers of expert `k` are not those of the tail
    have hpar : (k + 1) % 2 ≠ k % 2 := by omega
    refine (hA.seq (fc1_shared m k) fun l hl hl' => hl'.isBuffer.not_isResult (hW l hl)).then
      (fun l hl hl' => ?_) ((act_shared _ k).then
        (fun l hl => not_or.mpr ⟨hl.not_isY, hl.not_isInterQ⟩) (ih _ (k + 1)
          ((copy_shared _ k).seq (fc2_shared _ k hstride fun i hi grp hgrp => ?_)
            fun l hl => hl.not_isOut) (fun l hl => ?_) fun l => Or.symm))
    · rcases hl with hl | hl
      · rcases hl' with hl' | hl'
        · exact (hR l hl).not_isResult (hW l hl')
        · exact hpar ((hR l hl).eq hl'.isBuffer)
      · rcases hl' with hl' | hl'
        · exact hl.not_isResult (hW l hl')
        · exact hl.not_isBuffer hl'.isBuffer
    · obtain ⟨c, hc, -⟩ := act_stored (M := M) (J := J) _ k hi hgrp
      exact ⟨c, _, hc⟩
    · have hsame : (k + 1 + 1) % 2 = k % 2 := by omega
      rw [hsame]
      exact hl.elim id .inr

/-- **Whatever their number, the workers share out the job of one.** -/
theorem runJob_shared (hstride : n2 ≤ J.outStride) :
    Shares m (fun i : Fin n => runJob M J n i) (runJob M J 1 0) := by
  refine (prepare_shared m).then (fun _ => False.elim) ?_
  have hexperts := experts_shared (n := n) (M := M)
    (storeAll ((prepareTokens J 1 0).writes m) m) hstride J.nExperts 0 (.nothing _)
    (fun _ => False.elim) fun _ => False.elim
  simp only [pure_bind, ← List.range_eq_range'] at hexperts
  exact hexperts

end Phases

/-- The memory when all have finished. -/
theorem mem_eq_alone (hn : 0 < n) (hstride : n2 ≤ J.outStride) {m : ∀ l, Val l} {g : BitVec 32}
    {s : Bars n Loc Val Unit} (hs : (bars (fun i : Fin n => runJob M J n i) m g).Reachable s)
    (hdone : ∀ i, (s.workers i).Done) : s.mem = (runJob M J 1 0).exec m := by
  have : NeZero n := ⟨hn.ne'⟩
  refine (runJob_shared m hstride).mem_eq (bars_refine hn hs) fun i => ?_
  obtain ⟨a, ha⟩ := hdone i
  exact ⟨a, congrArg (Bar.thread s.barGen) ha⟩

/-- As long as a worker has not finished, some worker can go on. -/
theorem exists_progress_runJob (hn : 0 < n) (hstride : n2 ≤ J.outStride) {m : ∀ l, Val l}
    {g : BitVec 32} {s : Bars n Loc Val Unit}
    (hs : (bars (fun i : Fin n => runJob M J n i) m g).Reachable s)
    (hgo : ∃ i, ¬ (s.workers i).Done) : ∃ i t, s.step i = some t ∧ ¬ s.Futile i := by
  have : NeZero n := ⟨hn.ne'⟩
  have hshared := runJob_shared (n := n) (M := M) m hstride
  have hteam := bars_refine hn hs
  obtain ⟨i, hi⟩ := hgo
  by_cases hthread : (s.team.threads i).Done
  · -- it has left the barrier without having noticed
    obtain ⟨a, ha⟩ := hthread
    change (s.workers i).thread s.barGen = _ at ha
    refine ⟨i, ?_⟩
    rw [Bars.step, Bars.Futile]
    cases hw : s.workers i with
    | run p =>
      rw [hw] at ha
      exact absurd ⟨a, hw.trans (congrArg Bar.run (Thread.run.inj ha))⟩ hi
    | spin g' k =>
      refine ⟨_, rfl, ?_⟩
      rintro ⟨k', hk'⟩
      rw [hw, Bar.thread, if_pos (Bar.spin.inj hk').1] at ha
      simp at ha
    | arrive g' k => simp
    | reset g' k => simp
    | release g' k => simp
  · obtain ⟨a, r, har⟩ := hshared.exists_step hteam hthread
    exact ((barrier_invariant hn).holds hs).exists_progress har

/-- So there are runs in which all finish. -/
theorem exists_finished_runJob (M : Machine) (hn : 0 < n) (hstride : n2 ≤ J.outStride)
    (m : ∀ l, Val l) (g : BitVec 32) :
    ∃ s, (bars (fun i : Fin n => runJob M J n i) m g).Reachable s ∧ ∀ i, (s.workers i).Done :=
  exists_finished fun _ hs => exists_progress_runJob hn hstride hs

/-- **The forward does not depend on the workers.** In any interleaving of any number of workers,
when all have finished the memory is what one worker alone would leave; and as long as one has not,
some worker has a step to make other than to look at the barrier in vain. -/
theorem runJob_eq_alone (hn : 0 < n) (hstride : n2 ≤ J.outStride) (m : ∀ l, Val l) (g : BitVec 32)
    {s : Bars n Loc Val Unit} (hs : (bars (fun i : Fin n => runJob M J n i) m g).Reachable s) :
    ((∀ i, (s.workers i).Done) → s.mem = (runJob M J 1 0).exec m) ∧
      ((∃ i, ¬ (s.workers i).Done) → ∃ i t, s.step i = some t ∧ ¬ s.Futile i) :=
  ⟨mem_eq_alone hn hstride hs, exists_progress_runJob hn hstride hs⟩

/-- Two experts of weights 1 with a token each. The first 32 activations of a token are 1 and the
others 0, and the scales are such that each projection is 1. -/
def twoExperts : Job where
  nExperts := 2
  records _ _ := 34
  mPerExpert _ := 1
  tokenIdx p := p
  pairWeight _ := 0x3F800000#32
  outRow p := p
  nTokens := 2
  aq _ := firstOnes
  as _ _ := 215
  outStride := n2
  vs1 := 0x3F800000#32
  vs2 := 0x3F800000#32
  hasProjOut := true
  hasInterQ := true
  hasInterS := true

/-- A machine that multiplies singles and adds zeros to them; its table knows the activation of 1. -/
def unitMachine : Machine where
  fadd a b := if magnitude a = 0 then b else a
  fmul := mul
  actM _ := 0x3F3B26A8#32
  inv byte := BitVec.ofNat 32 ((254 - byte.toNat) * 2 ^ 23)

/-- Two workers compute the two experts: at the start one of them can go on, and when both have
finished the memory is that of one worker. -/
theorem runJob_eq_alone_twoExperts :
    (∃ i t, (⟨fun _ => default, 0, 0, fun i => .run (runJob unitMachine twoExperts 2 i)⟩ :
      Bars 2 Loc Val Unit).step i = some t) ∧
    ∃ s, (bars (fun i : Fin 2 => runJob unitMachine twoExperts 2 i) (fun _ => default) 0).Reachable s ∧
      (∀ i, (s.workers i).Done) ∧
      s.mem = (runJob unitMachine twoExperts 1 0).exec fun _ => default := by
  have hstride : n2 ≤ twoExperts.outStride := Nat.le_refl n2
  obtain ⟨s, hs, hdone⟩ := exists_finished_runJob unitMachine (n := 2) (by decide) hstride
    (fun _ => default) 0
  refine ⟨?_, s, hs, hdone, (runJob_eq_alone (by decide) hstride _ 0 hs).1 hdone⟩
  have hgo : ∃ i : Fin 2, ¬ (Bar.run (runJob unitMachine twoExperts 2 i)).Done := by
    refine ⟨0, ?_⟩
    rintro ⟨a, ha⟩
    cases Bar.run.inj ha
  obtain ⟨i, t, ht, -⟩ := (runJob_eq_alone (by decide) hstride (fun _ => default) 0 (.start rfl)).2 hgo
  exact ⟨i, t, ht⟩

end CpuMoe

end VllmMoet
