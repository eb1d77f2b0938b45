import Mathlib.Tactic.Ring
import VllmMoet.Replay.Lockstep

/-!
# What a strict step accepts

A strict step hands the sampler only the hidden states of a pass in which no rank missed more
than its tolerance, or all its ranks raise, or the V1 runner records it as failed.

* `baseLoop_ends`, `repairLoop_ends`, `gateLoop_ends`: the run of each loop, when the verdicts
  agree, with the forwards it takes. Where it ends is said by `BaseEnds`, `GateSettles` and
  `GateStuck`.
* `strict_step_iff`: a step does what it should exactly if the verdicts are the same and, in the V1
  runner, the gate does not get stuck after a base replay that did not converge.
-/

namespace VllmMoet.Replay

open Spmd

variable {w : ℕ} {cfg : Config} {ranks : Fin (w + 1) → Rank}

/-! ### Runs, with the forwards they take -/

/-- The group ends with `o`, after `c` forwards. -/
def Ends (p : Fin (w + 1) → Prog) (c : ℕ) (o : Fin (w + 1) → Outcome) : Prop :=
  ∃ ops, Runs combine p ops o ∧ ops.count .forward = c

section Rules

variable {op : Collective} {x : Fin (w + 1) → ℕ} {k : Fin (w + 1) → ℕ → Prog}
  {flag : Fin (w + 1) → Bool} {kb : Fin (w + 1) → Bool → Prog} {fault : Fin (w + 1) → Bool}
  {failed p : Fin (w + 1) → Prog} {c : ℕ} {o : Fin (w + 1) → Outcome} {b : Bool}

/-- A program that is done makes no forward. -/
theorem ends_done : Ends (fun i => .done (o i)) 0 o :=
  ⟨[], .done fun _ => rfl, rfl⟩

/-- A collective that is no forward is not counted. -/
theorem ends_coll (hop : op ≠ .forward) (h : Ends (fun i => k i (combine op x)) c o) :
    Ends (fun i => .coll op (x i) (k i)) c o := by
  obtain ⟨ops, hr, rfl⟩ := h
  exact ⟨op :: ops, .coll (fun _ => rfl) hr, List.count_cons_of_ne hop⟩

/-- A verdict that is the same on all ranks. -/
theorem ends_choose (hb : ∀ i, flag i = b) (h : Ends (fun i => kb i b) c o) :
    Ends (fun i => .choose (flag i) (kb i)) c o := by
  obtain ⟨ops, hr, hc⟩ := h
  exact ⟨ops, hr.congr fun i => by rw [resolve_choose, hb i], hc⟩

/-- The forward of a replay is counted. -/
theorem ends_replayForward (h : Ends p c o) :
    Ends (fun i => replayForward cfg (p i)) (c + 1) o := by
  have hforward : ∀ q : Fin (w + 1) → Prog, Ends q c o →
      Ends (fun i => .coll .forward 0 fun _ => q i) (c + 1) o := by
    rintro q ⟨ops, hr, rfl⟩
    exact ⟨.forward :: ops, .coll (x := fun _ => 0) (fun _ => rfl) hr, List.count_cons_self⟩
  simp only [replayForward]
  cases cfg.runner with
  | v1 => exact hforward _ (ends_coll (x := fun _ => 0) (k := fun i _ => p i) (by decide) h)
  | v2 => exact hforward p h

theorem ends_allReduce (hop : op ≠ .forward) (h : Ends (fun i => k i (combine op x)) c o) :
    Ends (fun i => allReduce (w + 1) op (x i) (k i)) c o := by
  rcases w with _ | w
  · rwa [allReduce_single]
  · simp only [allReduce_of_lt (show 1 < w + 1 + 1 by omega)]
    exact ends_coll hop h

theorem ends_andTp (hb : b = true ↔ ∀ i, flag i = true) (h : Ends (fun i => kb i b) c o) :
    Ends (fun i => andTp (w + 1) (flag i) (kb i)) c o := by
  refine ends_allReduce (by decide) ?_
  rwa [Bool.eq_iff_iff.mpr ((combine_minI64_iff flag).trans hb.symm)]

theorem ends_orTp (hb : b = true ↔ ∃ i, flag i = true) (h : Ends (fun i => kb i b) c o) :
    Ends (fun i => orTp (w + 1) (flag i) (kb i)) c o := by
  refine ends_allReduce (by decide) ?_
  rwa [Bool.eq_iff_iff.mpr ((combine_maxI64_iff flag).trans hb.symm)]

/-- A consensus that holds. -/
theorem ends_consensus_of_ok (hok : ¬ ∃ i, 0 < x i ∧ fault i = true) (h : Ends p c o) :
    Ends (fun i => promoteConsensus (w + 1) (x i) (fault i) (failed i) (p i)) c o := by
  refine ends_allReduce (by decide) ?_
  simpa only [(combine_minI32_iff x fault).mpr hok, if_true] using h

/-- A consensus that fails. -/
theorem ends_consensus_of_fault (hok : ∃ i, 0 < x i ∧ fault i = true) (h : Ends failed c o) :
    Ends (fun i => promoteConsensus (w + 1) (x i) (fault i) (failed i) (p i)) c o := by
  refine ends_allReduce (by decide) ?_
  simpa only [if_neg fun h' => (combine_minI32_iff x fault).mp h' hok] using h

end Rules

/-! ### The loops -/

/-- The base loop from its `n`-th replay on, with agreeing verdicts: it stops, or a promotion
raises. -/
theorem baseLoop_ends {exit : Fin (w + 1) → ℕ → ℕ → Prog} (fuel n : ℕ) (hn : n + fuel = cfg.fpMax)
    (hgoes : ∀ m < n, ∀ i, fpContinue cfg ((ranks i).baseRead m) m (baseMax ranks m) = true)
    (hfaultless : ∀ m ≤ n, ¬ BaseFaulty ranks m)
    (h : Agrees combine fun i =>
      baseLoop cfg (w + 1) (ranks i) (exit i) fuel n (baseMax ranks n)) :
    (∃ e, n ≤ e ∧ e ≤ cfg.fpMax ∧ BaseEnds cfg ranks e ∧
      (Agrees combine fun i => exit i e (baseMax ranks e)) ∧
      ∀ c o, Ends (fun i => exit i e (baseMax ranks e)) c o →
        Ends (fun i => baseLoop cfg (w + 1) (ranks i) (exit i) fuel n (baseMax ranks n))
          (c + (e - n)) o) ∨
    (∃ e, n ≤ e ∧ e ≤ cfg.fpMax ∧ (∀ m, ¬ BaseEnds cfg ranks m) ∧
      Ends (fun i => baseLoop cfg (w + 1) (ranks i) (exit i) fuel n (baseMax ranks n))
        (e - n) fun _ => ⟨e, 0, .raised⟩) := by
  induction fuel generalizing n with
  | zero =>
    refine .inl ⟨n, le_rfl, hn.le, ⟨hgoes, hfaultless, fun i => ?_⟩, h, fun c o hx => ?_⟩
    · exact fpContinue_eq_false (by omega) _ _
    · rwa [Nat.sub_self]
  | succ fuel ih =>
    obtain ⟨go, hgo, hrest⟩ := agrees_choose.mp h
    cases go with
    | false =>
      refine .inl ⟨n, le_rfl, by omega, ⟨hgoes, hfaultless, hgo⟩, hrest, fun c o hx => ?_⟩
      rw [Nat.sub_self]
      exact ends_choose hgo hx
    | true =>
      have hgoes' : ∀ m < n + 1, ∀ i,
          fpContinue cfg ((ranks i).baseRead m) m (baseMax ranks m) = true := by
        intro m hm
        rcases Nat.lt_succ_iff_lt_or_eq.mp hm with hm | rfl
        · exact hgoes m hm
        · exact hgo
      have hcons := agrees_allReduce.mp (agrees_replayForward.mp hrest)
      by_cases hfault : BaseFaulty ranks (n + 1)
      · -- the experts missed in this replay cannot be fetched
        refine .inr ⟨n + 1, by omega, by omega, fun m hm => ?_, ?_⟩
        · rcases Nat.lt_or_ge m (n + 1) with hlt | hge
          · simpa [hgoes' m hlt 0] using hm.stops 0
          · exact hm.faultless (n + 1) hge hfault
        · rw [Nat.add_sub_cancel_left]
          exact ends_choose hgo (ends_replayForward (ends_allReduce (by decide)
            (ends_consensus_of_fault hfault ends_done)))
      · have hloop := agrees_consensus.mp hcons hfault
        have hfaultless' : ∀ m ≤ n + 1, ¬ BaseFaulty ranks m := by
          intro m hm
          rcases Nat.le_succ_iff.mp hm with hm | rfl
          · exact hfaultless m hm
          · exact hfault
        -- a replay more, in front of the run of the rest
        have hlift : ∀ c o, Ends (fun i =>
            baseLoop cfg (w + 1) (ranks i) (exit i) fuel (n + 1) (baseMax ranks (n + 1))) c o →
            Ends (fun i => baseLoop cfg (w + 1) (ranks i) (exit i) (fuel + 1) n
              (baseMax ranks n)) (c + 1) o := fun c o hx =>
          ends_choose hgo (ends_replayForward (ends_allReduce (by decide)
            (ends_consensus_of_ok hfault hx)))
        rcases ih (n + 1) (by omega) hgoes' hfaultless' hloop with
          ⟨e, hle, hmax, hends, hexit, hrun⟩ | ⟨e, hle, hmax, hnone, hrun⟩
        · refine .inl ⟨e, by omega, hmax, hends, hexit, fun c o hx => ?_⟩
          have := hlift _ o (hrun c o hx)
          rwa [show c + (e - (n + 1)) + 1 = c + (e - n) by omega] at this
        · refine .inr ⟨e, by omega, hmax, hnone, ?_⟩
          have := hlift _ _ hrun
          rwa [show e - (n + 1) + 1 = e - n by omega] at this

/-- The repair loop of pass `i` from its `k`-th repair on. -/
theorem repairLoop_ends {replays gatePasses i : ℕ} {exit : Fin (w + 1) → ℕ → ℕ → Prog}
    (fuel k : ℕ) (hk : k + fuel = cfg.fpMax)
    (hgoes : ∀ l < k, ∀ j,
      gateRepairContinue cfg ((ranks j).gateRead i l) l (gateMax ranks i l) = true)
    (hfaultless : ∀ l < k, ¬ GateFaulty ranks i l)
    (h : Agrees combine fun j => repairLoop cfg (w + 1) (ranks j) replays gatePasses i (exit j)
      fuel k (gateMax ranks i k)) :
    (∃ e, k ≤ e ∧ e ≤ cfg.fpMax ∧ RepairEnds cfg ranks i e ∧
      (Agrees combine fun j => exit j e (gateMax ranks i e)) ∧
      ∀ c o, Ends (fun j => exit j e (gateMax ranks i e)) c o →
        Ends (fun j => repairLoop cfg (w + 1) (ranks j) replays gatePasses i (exit j)
          fuel k (gateMax ranks i k)) (c + (e - k)) o) ∨
    (∃ e, k ≤ e ∧ e ≤ cfg.fpMax ∧ (∀ l, ¬ RepairEnds cfg ranks i l) ∧
      Ends (fun j => repairLoop cfg (w + 1) (ranks j) replays gatePasses i (exit j)
        fuel k (gateMax ranks i k)) (e - k) fun _ => ⟨replays, gatePasses + 1 + e, .raised⟩) := by
  induction fuel generalizing k with
  | zero =>
    refine .inl ⟨k, le_rfl, hk.le, ⟨hgoes, hfaultless, fun j => ?_⟩, h, fun c o hx => ?_⟩
    · exact fpContinue_eq_false (by omega) _ _
    · rwa [Nat.sub_self]
  | succ fuel ih =>
    obtain ⟨go, hgo, hrest⟩ := agrees_choose.mp h
    cases go with
    | false =>
      refine .inl ⟨k, le_rfl, by omega, ⟨hgoes, hfaultless, hgo⟩, hrest, fun c o hx => ?_⟩
      rw [Nat.sub_self]
      exact ends_choose hgo hx
    | true =>
      have hgoes' : ∀ l < k + 1, ∀ j,
          gateRepairContinue cfg ((ranks j).gateRead i l) l (gateMax ranks i l) = true := by
        intro l hl
        rcases Nat.lt_succ_iff_lt_or_eq.mp hl with hl | rfl
        · exact hgoes l hl
        · exact hgo
      by_cases hfault : GateFaulty ranks i k
      · -- the experts missed in this repair cannot be fetched
        refine .inr ⟨k, le_rfl, by omega, fun l hl => ?_, ?_⟩
        · rcases Nat.lt_or_ge k l with hlt | hge
          · exact hl.faultless k hlt hfault
          · simpa [hgoes' l (by omega) 0] using hl.stops 0
        · rw [Nat.sub_self]
          exact ends_choose hgo (ends_consensus_of_fault hfault ends_done)
      · have hloop := agrees_allReduce.mp (agrees_replayForward.mp
          (agrees_consensus.mp hrest hfault))
        have hfaultless' : ∀ l < k + 1, ¬ GateFaulty ranks i l := by
          intro l hl
          rcases Nat.lt_succ_iff_lt_or_eq.mp hl with hl | rfl
          · exact hfaultless l hl
          · exact hfault
        -- a repair more, in front of the run of the rest
        have hlift : ∀ c o, Ends (fun j => repairLoop cfg (w + 1) (ranks j) replays gatePasses i
            (exit j) fuel (k + 1) (gateMax ranks i (k + 1))) c o →
            Ends (fun j => repairLoop cfg (w + 1) (ranks j) replays gatePasses i (exit j)
              (fuel + 1) k (gateMax ranks i k)) (c + 1) o := fun c o hx =>
          ends_choose hgo (ends_consensus_of_ok hfault (ends_replayForward
            (ends_allReduce (by decide) hx)))
        rcases ih (k + 1) (by omega) hgoes' hfaultless' hloop with
          ⟨e, hle, hmax, hends, hexit, hrun⟩ | ⟨e, hle, hmax, hnone, hrun⟩
        · refine .inl ⟨e, by omega, hmax, hends, hexit, fun c o hx => ?_⟩
          have := hlift _ o (hrun c o hx)
          rwa [show c + (e - (k + 1)) + 1 = c + (e - k) by omega] at this
        · refine .inr ⟨e, by omega, hmax, hnone, ?_⟩
          have := hlift _ _ hrun
          rwa [show e - (k + 1) + 1 = e - k by omega] at this

/-- A pass of the gate that was validated on every rank. -/
def Validated (cfg : Config) (ranks : Fin (w + 1) → Rank) (pass : Pass) : Prop :=
  ∃ i k, pass = .gate i k ∧
    ∀ j, gateValidateBaseClean cfg ((ranks j).gateTol i) (gateMax ranks i k) = true

/-- How the gate's part of a step ends after `g` passes: it raises, if it is stuck, or it leaves
the step with the hidden states it found or those of a validated pass. -/
def GateEnd (cfg : Config) (ranks : Fin (w + 1) → Rank) (stuck : Prop)
    (recorded : Fin (w + 1) → Bool) (n g : ℕ) (first : Pass) (o : Fin (w + 1) → Outcome) : Prop :=
  (stuck ∧ ∀ j, o j = ⟨n, g, .raised⟩) ∨
  (¬ stuck ∧ ∃ pass, (pass = first ∨ Validated cfg ranks pass) ∧
    ∀ j, o j = ⟨n, g, if recorded j then .failedClosed else .sampled pass⟩)

/-- A gate that leaves the step ends with the last pass, unless the step was recorded as failed. -/
theorem GateEnd.of_leave {stuck : Prop} {recorded : Fin (w + 1) → Bool} {n g : ℕ} {pass : Pass}
    (h : ¬ stuck) : GateEnd cfg ranks stuck recorded n g pass
      fun j => ⟨n, g, if recorded j then .failedClosed else .sampled pass⟩ :=
  .inr ⟨h, pass, .inl rfl, fun _ => rfl⟩

/-- A replayed pass of the gate: it is stuck unless it settles, and then as what follows. -/
theorem gateReplay_ends {recorded : Fin (w + 1) → Bool} {n fuel i : ℕ} {pass : Pass}
    {gatePasses : ℕ}
    (hnext : ∀ pass gatePasses,
      (Agrees combine fun j => gateLoop cfg (w + 1) (ranks j) (recorded j) n fuel (i + 1)
        (budgetAt (ranks j) (i + 1)) pass gatePasses) →
      ∃ c o, c ≤ fuel * (1 + cfg.fpMax) ∧
        Ends (fun j => gateLoop cfg (w + 1) (ranks j) (recorded j) n fuel (i + 1)
          (budgetAt (ranks j) (i + 1)) pass gatePasses) c o ∧
        GateEnd cfg ranks (GateStuck cfg ranks fuel (i + 1)) recorded n (gatePasses + c) pass o)
    (h : Agrees combine fun j =>
      gateReplay cfg (w + 1) (ranks j) (recorded j) n fuel i gatePasses) :
    ∃ c o, c ≤ (fuel + 1) * (1 + cfg.fpMax) ∧
      Ends (fun j => gateReplay cfg (w + 1) (ranks j) (recorded j) n fuel i gatePasses) c o ∧
      GateEnd cfg ranks ((∃ k, GateSettles cfg ranks i k) → GateStuck cfg ranks fuel (i + 1))
        recorded n (gatePasses + c) pass o := by
  have hrepair := agrees_allReduce.mp (agrees_replayForward.mp h)
  have hmul : (fuel + 1) * (1 + cfg.fpMax) = fuel * (1 + cfg.fpMax) + 1 + cfg.fpMax := by ring
  rcases repairLoop_ends cfg.fpMax 0 (Nat.zero_add _) (by simp) (by simp) hrepair with
    ⟨e, -, hmax, hends, hexit, hrun⟩ | ⟨e, -, hmax, hnone, hrun⟩
  · obtain ⟨clean, hclean, hrest⟩ := agrees_choose.mp hexit
    cases clean with
    | true =>
      have hsettles : GateSettles cfg ranks i e := ⟨hends, hclean⟩
      obtain ⟨c, o, hc, hloop, hend⟩ := hnext _ _ hrest
      refine ⟨c + (e - 0) + 1, o, by omega, ends_replayForward (ends_allReduce (by decide)
        (hrun c o (ends_choose hclean hloop))), ?_⟩
      rw [show gatePasses + (c + (e - 0) + 1) = gatePasses + 1 + e + c by omega]
      refine hend.imp (fun hst => ⟨fun _ => hst.1, hst.2⟩) fun hleft => ?_
      obtain ⟨hst, last, hlast, ho⟩ := hleft
      refine ⟨fun hall => hst (hall ⟨e, hsettles⟩), last, .inr ?_, ho⟩
      rcases hlast with rfl | hlast
      · exact ⟨i, e, rfl, hclean⟩
      · exact hlast
    | false =>
      refine ⟨0 + (e - 0) + 1, _, by omega, ends_replayForward (ends_allReduce (by decide)
        (hrun 0 _ (ends_choose hclean ends_done))), .inl ⟨fun hall => ?_, fun _ => ?_⟩⟩
      · -- it stops only here, with a residue
        obtain ⟨k, hk⟩ := hall
        obtain rfl := repairEnds_unique hk.1 hends
        simpa [hclean 0] using hk.2 0
      · simp only [Outcome.mk.injEq, and_true, true_and]
        omega
  · refine ⟨e - 0 + 1, _, by omega, ends_replayForward (ends_allReduce (by decide) hrun),
      .inl ⟨fun hall => ?_, fun _ => ?_⟩⟩
    · obtain ⟨k, hk⟩ := hall
      exact absurd hk.1 (hnone k)
    · simp only [Outcome.mk.injEq, and_true, true_and]
      omega

/-- The gate's loop from its pass `i` on, with agreeing verdicts. -/
theorem gateLoop_ends (recorded : Fin (w + 1) → Bool) (n fuel i : ℕ) (pass : Pass)
    (gatePasses : ℕ)
    (h : Agrees combine fun j => gateLoop cfg (w + 1) (ranks j) (recorded j) n fuel i
      (budgetAt (ranks j) i) pass gatePasses) :
    ∃ c o, c ≤ fuel * (1 + cfg.fpMax) ∧
      Ends (fun j => gateLoop cfg (w + 1) (ranks j) (recorded j) n fuel i
        (budgetAt (ranks j) i) pass gatePasses) c o ∧
      GateEnd cfg ranks (GateStuck cfg ranks fuel i) recorded n (gatePasses + c) pass o := by
  induction fuel generalizing i pass gatePasses with
  | zero => exact ⟨0, _, Nat.zero_le _, ends_done, .of_leave id⟩
  | succ fuel ih =>
    simp only [gateLoop_succ] at h ⊢
    -- nothing is replayed when a promotion raises
    obtain ⟨ok, hok⟩ : ∃ ok : Bool, ok = true ↔ ∀ j, (promotedAt (ranks j) i).isSome = true :=
      ⟨_, decide_eq_true_iff⟩
    rw [agrees_andTp hok] at h
    cases ok with
    | false =>
      refine ⟨0, _, Nat.zero_le _, ends_andTp hok ends_done, .of_leave fun hst => ?_⟩
      exact absurd (hok.mpr hst.1.1) (by simp)
    | true =>
      -- nor when no rank promotes an expert
      obtain ⟨any, hany⟩ : ∃ any : Bool, any = true ↔
          ∃ j, decide (0 < (promotedAt (ranks j) i).getD 0) = true := ⟨_, decide_eq_true_iff⟩
      simp only [Bool.not_true, Bool.false_eq_true, if_false] at h
      have hvote := (agrees_orTp hany).mp h
      have hlift : ∀ c o, Ends (fun j =>
          if !(any && cfg.reforward) then leave (recorded j) n gatePasses pass else
          gateReplay cfg (w + 1) (ranks j) (recorded j) n fuel i gatePasses) c o →
          Ends (fun j => andTp (w + 1) (promotedAt (ranks j) i).isSome fun ok =>
            if !ok then leave (recorded j) n gatePasses pass else
            orTp (w + 1) (decide (0 < (promotedAt (ranks j) i).getD 0)) fun promoted =>
            if !(promoted && cfg.reforward) then leave (recorded j) n gatePasses pass else
            gateReplay cfg (w + 1) (ranks j) (recorded j) n fuel i gatePasses) c o := by
        intro c o hx
        refine ends_andTp hok ?_
        simp only [Bool.not_true, Bool.false_eq_true, if_false]
        exact ends_orTp hany hx
      by_cases hgo : (any && cfg.reforward) = true
      · simp only [hgo, Bool.not_true, Bool.false_eq_true, if_false] at hvote hlift
        have hboth := Bool.and_eq_true_iff.mp hgo
        have henter : GateEnters cfg ranks i := by
          obtain ⟨j, hj⟩ := hany.mp hboth.1
          exact ⟨hok.mp rfl, ⟨j, of_decide_eq_true hj⟩, hboth.2⟩
        obtain ⟨c, o, hc, hrun, hend⟩ := gateReplay_ends (fun p g => ih (i + 1) p g) hvote
        refine ⟨c, o, hc, hlift c o hrun, ?_⟩
        exact hend.imp (fun hst => ⟨⟨henter, hst.1⟩, hst.2⟩)
          fun hleft => ⟨fun hst => hleft.1 hst.2, hleft.2⟩
      · simp only [Bool.eq_false_iff.mpr hgo, Bool.not_false, if_true] at hlift
        refine ⟨0, _, Nat.zero_le _, hlift 0 _ ends_done, .of_leave fun hst => hgo ?_⟩
        obtain ⟨j, hj⟩ := hst.1.2.1
        exact Bool.and_eq_true_iff.mpr ⟨hany.mpr ⟨j, decide_eq_true hj⟩, hst.1.2.2⟩

/-- What the gate comes to once it is decided whether it fires. -/
theorem gateFired_ends (recorded : Fin (w + 1) → Bool) (n : ℕ) {fire : Bool}
    (hfire : fire = true ↔ GateFires cfg ranks)
    (h : Agrees combine fun j =>
      if fire then gateLoop cfg (w + 1) (ranks j) (recorded j) n cfg.fireFpMax 0
        (ranks j).budget (.base n) 0
      else leave (recorded j) n 0 (.base n)) :
    ∃ c o, c ≤ cfg.fireFpMax * (1 + cfg.fpMax) ∧
      Ends (fun j =>
        if fire then gateLoop cfg (w + 1) (ranks j) (recorded j) n cfg.fireFpMax 0
          (ranks j).budget (.base n) 0
        else leave (recorded j) n 0 (.base n)) c o ∧
      GateEnd cfg ranks (GateFires cfg ranks ∧ GateStuck cfg ranks cfg.fireFpMax 0) recorded n c
        (.base n) o := by
  cases fire with
  | false =>
    exact ⟨0, _, Nat.zero_le _, ends_done, .of_leave fun hst => by simpa using hfire.mpr hst.1⟩
  | true =>
    obtain ⟨c, o, hc, hrun, hend⟩ := gateLoop_ends recorded n cfg.fireFpMax 0 (.base n) 0 h
    rw [Nat.zero_add] at hend
    exact ⟨c, o, hc, hrun, hend.imp (fun hst => ⟨⟨hfire.mp rfl, hst.1⟩, hst.2⟩)
      fun hleft => ⟨fun hst => hleft.1 hst.2, hleft.2⟩⟩

/-- The gate, with agreeing verdicts: it is stuck when it fires and its loop is. -/
theorem gateReforward_ends (recorded : Fin (w + 1) → Bool) (n : ℕ)
    (h : Agrees combine fun j => gateReforward cfg (w + 1) (ranks j) (recorded j) n) :
    ∃ c o, c ≤ cfg.fireFpMax * (1 + cfg.fpMax) ∧
      Ends (fun j => gateReforward cfg (w + 1) (ranks j) (recorded j) n) c o ∧
      GateEnd cfg ranks (GateFires cfg ranks ∧ GateStuck cfg ranks cfg.fireFpMax 0) recorded n c
        (.base n) o := by
  obtain ⟨ok, hok⟩ : ∃ ok : Bool, ok = true ↔ ∀ j, (ranks j).decision.isSome = true :=
    ⟨_, decide_eq_true_iff⟩
  by_cases hgate : cfg.gate = true
  · simp only [gateReforward, hgate, Bool.not_true, Bool.false_eq_true, if_false] at h ⊢
    obtain ⟨fire, hfire⟩ : ∃ fire : Bool, fire = true ↔
        ∃ j, ((ranks j).decision == some true) = true := ⟨_, decide_eq_true_iff⟩
    have hfires : ok = true → (fire = true ↔ GateFires cfg ranks) := by
      intro ho
      rw [hfire]
      constructor
      · rintro ⟨j, hj⟩
        exact ⟨hgate, hok.mp ho, j, by simpa using hj⟩
      · rintro ⟨-, -, j, hj⟩
        exact ⟨j, by simp [hj]⟩
    have hraised : ok = false → ¬ GateFires cfg ranks := fun ho hf => by
      simp [hok.mpr hf.2.1] at ho
    cases hr : cfg.runner with
    | v1 =>
      simp only [hr] at h ⊢
      rw [agrees_andTp hok] at h
      -- a decision that raised somewhere fires nowhere
      have hvote : (ok && fire) = true ↔
          ∃ j, (ok && ((ranks j).decision == some true)) = true := by
        cases ok <;> simp [hfire]
      rw [agrees_orTp hvote] at h
      have hboth : (ok && fire) = true ↔ GateFires cfg ranks := by
        cases ok with
        | false => simp [hraised rfl]
        | true => simpa using hfires rfl
      obtain ⟨c, o, hc, hrun, hend⟩ := gateFired_ends recorded n hboth h
      exact ⟨c, o, hc, ends_andTp hok (ends_orTp hvote hrun), hend⟩
    | v2 =>
      simp only [hr] at h ⊢
      rw [agrees_coll, agrees_andTp hok] at h
      cases ok with
      | false =>
        exact ⟨0, _, Nat.zero_le _, ends_coll (x := fun _ => 0) (by decide)
          (ends_andTp hok ends_done), .of_leave fun hst => hraised rfl hst.1⟩
      | true =>
        simp only [Bool.not_true, Bool.false_eq_true, if_false] at h
        rw [agrees_orTp hfire] at h
        obtain ⟨c, o, hc, hrun, hend⟩ := gateFired_ends recorded n (hfires rfl) h
        refine ⟨c, o, hc, ends_coll (x := fun _ => 0) (by decide) (ends_andTp hok ?_), hend⟩
        simp only [Bool.not_true, Bool.false_eq_true, if_false]
        exact ends_orTp hfire hrun
  · simp only [gateReforward, Bool.eq_false_iff.mpr hgate, Bool.not_false, if_true] at h ⊢
    exact ⟨0, _, Nat.zero_le _, ends_done, .of_leave fun hst => hgate hst.1.1⟩

/-! ### The step -/

/-- How a step ends that has left the base loop after `n` replays, with `c` passes of the gate:
V2 may raise, V1 goes on to the gate with the failure recorded. -/
def ExitEnd (cfg : Config) (ranks : Fin (w + 1) → Rank) (n c : ℕ)
    (out : Fin (w + 1) → Outcome) : Prop :=
  (cfg.runner = .v2 ∧ c = 0 ∧ ∀ j, out j = ⟨n, 0, .raised⟩) ∨
  ((cfg.runner = .v2 → ∀ j, ¬ Incomplete cfg ranks n j) ∧
    c ≤ cfg.fireFpMax * (1 + cfg.fpMax) ∧ ∃ recorded : Fin (w + 1) → Bool,
      (∀ j, recorded j = true ↔ Incomplete cfg ranks n j) ∧
      GateEnd cfg ranks (GateFires cfg ranks ∧ GateStuck cfg ranks cfg.fireFpMax 0) recorded n c
        (.base n) out)

/-- What follows the base loop ends. -/
theorem baseExit_ends (n : ℕ) (h : Agrees combine fun j =>
      baseExit cfg (w + 1) (ranks j) n (baseMax ranks n)) :
    ∃ c out, Ends (fun j => baseExit cfg (w + 1) (ranks j) n (baseMax ranks n)) c out ∧
      ExitEnd cfg ranks n c out := by
  simp only [baseExit] at h ⊢
  cases hr : cfg.runner with
  | v1 =>
    simp only [hr] at h ⊢
    obtain ⟨g, o, hg, hrun, hend⟩ := gateReforward_ends _ n h
    refine ⟨g, o, hrun, .inr ⟨by simp [hr], hg, _, fun j => ?_, hend⟩⟩
    simp [Incomplete]
  | v2 =>
    simp only [hr] at h ⊢
    obtain ⟨complete, hcomplete, hrest⟩ := agrees_choose.mp h
    cases complete with
    | true =>
      obtain ⟨g, o, hg, hrun, hend⟩ := gateReforward_ends (fun _ => false) n hrest
      have hnone : ∀ j, ¬ Incomplete cfg ranks n j := fun j => by
        simp [Incomplete, hcomplete j]
      exact ⟨g, o, ends_choose hcomplete hrun, .inr ⟨fun _ => hnone, hg, _,
        fun j => iff_of_false (by simp) (hnone j), hend⟩⟩
    | false =>
      exact ⟨0, _, ends_choose hcomplete ends_done, .inl ⟨hr, rfl, fun _ => rfl⟩⟩

/-- A step whose verdicts agree raises in the base loop, or leaves it. -/
theorem group_ends (h : Agrees combine (group cfg ranks)) :
    ∃ n c out, n ≤ cfg.fpMax ∧ Ends (group cfg ranks) (n + c) out ∧
      (((∀ m, ¬ BaseEnds cfg ranks m) ∧ c = 0 ∧ ∀ j, out j = ⟨n, 0, .raised⟩) ∨
        (BaseEnds cfg ranks n ∧ ExitEnd cfg ranks n c out)) := by
  have hcons := agrees_allReduce.mp h
  by_cases hfault : BaseFaulty ranks 0
  · exact ⟨0, 0, _, Nat.zero_le _, ends_allReduce (by decide)
      (ends_consensus_of_fault hfault ends_done),
      .inl ⟨fun m hm => hm.faultless 0 (Nat.zero_le _) hfault, rfl, fun _ => rfl⟩⟩
  · have hlift : ∀ c o, Ends (fun i => baseLoop cfg (w + 1) (ranks i)
        (baseExit cfg (w + 1) (ranks i)) cfg.fpMax 0 (baseMax ranks 0)) c o →
        Ends (group cfg ranks) c o := fun c o hx =>
      ends_allReduce (by decide) (ends_consensus_of_ok hfault hx)
    have hzero : ∀ m ≤ 0, ¬ BaseFaulty ranks m := fun m hm => by
      rwa [Nat.le_zero.mp hm]
    rcases baseLoop_ends cfg.fpMax 0 (Nat.zero_add _) (by simp) hzero
        (agrees_consensus.mp hcons hfault) with
      ⟨n, -, hmax, hends, hexit, hrun⟩ | ⟨n, -, hmax, hnone, hrun⟩
    · obtain ⟨c, out, hx, hend⟩ := baseExit_ends n hexit
      refine ⟨n, c, out, hmax, ?_, .inr ⟨hends, hend⟩⟩
      rw [Nat.add_comm]
      exact hlift _ out (hrun c out hx)
    · exact ⟨n, 0, _, hmax, hlift _ _ hrun, .inl ⟨hnone, rfl, fun _ => rfl⟩⟩

/-- What a rank misses in a pass. -/
def Rank.missAt (r : Rank) : Pass → ℕ
  | .base n => r.baseMiss n
  | .gate i k => r.gateMiss i k

/-- The tolerance that a rank reads to validate a pass. -/
def Rank.tolAt (r : Rank) : Pass → ℤ
  | .base _ => r.baseTol
  | .gate i _ => r.gateTol i

/-- The run of a step is one that strict replay promises. -/
structure Strict (cfg : Config) (ranks : Fin (w + 1) → Rank) (ops : List Collective)
    (out : Fin (w + 1) → Outcome) : Prop where
  runs : Runs combine (group cfg ranks) ops out
  replays : ∀ j, (out j).replays ≤ cfg.fpMax
  gatePasses : ∀ j, (out j).gatePasses ≤ cfg.fireFpMax * (1 + cfg.fpMax)
  forwards : ∀ j, ops.count .forward = (out j).replays + (out j).gatePasses
  /-- no rank missed too much in the pass that is sampled, or all raise, or V1 fails closed -/
  ended : (∃ pass, ∀ j, (out j).ended = .sampled pass ∧
      ∀ i, ((ranks i).missAt pass : ℤ) ≤ (ranks j).tolAt pass) ∨
    (∀ j, (out j).ended = .raised) ∨ (cfg.runner = .v1 ∧ ∀ j, (out j).ended = .failedClosed)
  /-- V1 survives a base replay that does not converge -/
  survives : cfg.runner = .v1 → BaseStuck cfg ranks → ∀ j, (out j).ended = .failedClosed

/-- The end of the gate is one that strict replay promises, where the base replay is complete. -/
theorem GateEnd.ended (hs : cfg.strict = true) {stuck : Prop} {recorded : Fin (w + 1) → Bool}
    {n g : ℕ} {out : Fin (w + 1) → Outcome} (hrec : ∀ j, recorded j = false)
    (hcomplete : ∀ j, ¬ Incomplete cfg ranks n j)
    (h : GateEnd cfg ranks stuck recorded n g (.base n) out) :
    (∃ pass, ∀ j, (out j).ended = .sampled pass ∧
      ∀ i, ((ranks i).missAt pass : ℤ) ≤ (ranks j).tolAt pass) ∨
    (∀ j, (out j).ended = .raised) := by
  rcases h with ⟨-, ho⟩ | ⟨-, pass, hpass, ho⟩
  · exact .inr fun j => by rw [ho j]
  · refine .inl ⟨pass, fun j => ⟨by rw [ho j, hrec j]; rfl, fun i => ?_⟩⟩
    rcases hpass with rfl | ⟨e, k, rfl, hclean⟩
    · have htol := (fpValidateComplete_iff hs).mp (Bool.not_eq_false _ ▸ hcomplete j)
      have hle : (ranks i).baseMiss n ≤ baseMax ranks n :=
        le_combine_max (fun i => (ranks i).baseMiss n) i
      simp only [Rank.missAt, Rank.tolAt]
      omega
    · have htol := (gateValidateBaseClean_iff hs).mp (hclean j)
      have hle : (ranks i).gateMiss e k ≤ gateMax ranks e k :=
        le_combine_max (fun j => (ranks j).gateMiss e k) i
      simp only [Rank.missAt, Rank.tolAt]
      omega

/-- The ranks have made the same numbers of passes. -/
theorem GateEnd.counts {stuck : Prop} {recorded : Fin (w + 1) → Bool} {n g : ℕ} {first : Pass}
    {out : Fin (w + 1) → Outcome} (h : GateEnd cfg ranks stuck recorded n g first out)
    (j : Fin (w + 1)) : (out j).replays = n ∧ (out j).gatePasses = g := by
  rcases h with ⟨-, ho⟩ | ⟨-, pass, -, ho⟩
  · rw [ho j]
    exact ⟨rfl, rfl⟩
  · rw [ho j]
    exact ⟨rfl, rfl⟩

/-- A run that ends so is one of lockstep. -/
theorem Strict.agrees {ops : List Collective} {out : Fin (w + 1) → Outcome}
    (h : Strict cfg ranks ops out) : Agrees combine (group cfg ranks) := by
  refine sound_group.mp ⟨ops, out, h.runs, fun i j => ?_⟩
  rcases h.ended with ⟨pass, hp⟩ | hr | ⟨-, hf⟩
  · simp [Outcome.failed, (hp i).1, (hp j).1]
  · simp [Outcome.failed, hr i, hr j]
  · simp [Outcome.failed, hf i, hf j]

/-- **When strict replay keeps its promise.** For every group, everything that can happen on its
ranks and every bound: a strict step runs within its bounds and hands the sampler a pass in which
no rank missed more than its tolerance, or raises on every rank, or, in the V1 runner, fails
closed, as it always does when the base replay does not converge, if and only if the verdicts of
the ranks agree and, in the V1 runner after a base replay that does not converge, it does so on
every rank and the gate does not fire into a pass that it cannot repair. -/
theorem strict_step_iff (cfg : Config) (ranks : Fin (w + 1) → Rank) (hs : cfg.strict = true) :
    (∃ ops out, Strict cfg ranks ops out) ↔
      SameVerdicts cfg ranks ∧
      (cfg.runner = .v1 → ∀ n, BaseEnds cfg ranks n → (∃ j, Incomplete cfg ranks n j) →
        (∀ j, Incomplete cfg ranks n j) ∧
        ¬ (GateFires cfg ranks ∧ GateStuck cfg ranks cfg.fireFpMax 0)) := by
  constructor
  · rintro ⟨ops, out, h⟩
    refine ⟨agrees_group.mp h.agrees, fun hv1 n hn hinc => ?_⟩
    have hclosed := h.survives hv1 ⟨n, hn, hinc⟩
    obtain ⟨m, c, o, -, ⟨ops', hrun, -⟩, hend⟩ := group_ends h.agrees
    obtain ⟨-, rfl⟩ := h.runs.unique hrun
    rcases hend with ⟨hnone, -⟩ | ⟨hm, hexit⟩
    · exact absurd hn (hnone n)
    · obtain rfl := baseEnds_unique hn hm
      rcases hexit with ⟨hv2, -⟩ | ⟨-, -, recorded, hrec, hgate⟩
      · exact absurd (hv1.symm.trans hv2) (by decide)
      · rcases hgate with ⟨-, ho⟩ | ⟨hst, pass, -, ho⟩
        · exact absurd (hclosed 0) (by simp [ho 0])
        · refine ⟨fun j => (hrec j).mp ?_, hst⟩
          by_contra hj
          exact absurd (hclosed j) (by simp [ho j, hj])
  · rintro ⟨hsame, hcond⟩
    obtain ⟨n, c, out, hn, ⟨ops, hrun, hops⟩, hend⟩ := group_ends (agrees_group.mpr hsame)
    refine ⟨ops, out, ?_⟩
    rcases hend with ⟨hnone, rfl, ho⟩ | ⟨hbase, hexit⟩
    · exact ⟨hrun, fun j => by rwa [ho j], fun j => by simp [ho j],
        fun j => by rw [ho j]; exact hops, .inr (.inl fun j => by rw [ho j]),
        fun _ hstuck => hstuck.elim fun m hm => absurd hm.1 (hnone m)⟩
    · rcases hexit with ⟨hv2, rfl, ho⟩ | ⟨hv2, hc, recorded, hrec, hgate⟩
      · exact ⟨hrun, fun j => by rwa [ho j], fun j => by simp [ho j],
          fun j => by rw [ho j]; exact hops, .inr (.inl fun j => by rw [ho j]),
          fun hv1 => absurd (hv1.symm.trans hv2) (by decide)⟩
      · have hcounts := hgate.counts
        by_cases hinc : ∃ j, Incomplete cfg ranks n j
        · -- only V1 gets here, and records the failure
          have hv1 : cfg.runner = .v1 := by
            obtain ⟨j, hj⟩ := hinc
            cases hr : cfg.runner with
            | v1 => rfl
            | v2 => exact absurd hj (hv2 hr j)
          obtain ⟨hall, hst⟩ := hcond hv1 n hbase hinc
          have hclosed : ∀ j, (out j).ended = .failedClosed := by
            rcases hgate with ⟨hst', -⟩ | ⟨-, pass, -, ho⟩
            · exact absurd hst' hst
            · exact fun j => by rw [ho j, (hrec j).mpr (hall j)]; rfl
          exact ⟨hrun, fun j => by rwa [(hcounts j).1], fun j => by rwa [(hcounts j).2],
            fun j => by rw [(hcounts j).1, (hcounts j).2]; exact hops,
            .inr (.inr ⟨hv1, hclosed⟩), fun _ _ => hclosed⟩
        · have hcomplete : ∀ j, ¬ Incomplete cfg ranks n j := not_exists.mp hinc
          have hquiet : ∀ j, recorded j = false := fun j =>
            Bool.eq_false_iff.mpr fun hj => hcomplete j ((hrec j).mp hj)
          refine ⟨hrun, fun j => by rwa [(hcounts j).1], fun j => by rwa [(hcounts j).2],
            fun j => by rw [(hcounts j).1, (hcounts j).2]; exact hops, ?_, ?_⟩
          · exact (hgate.ended hs hquiet hcomplete).imp_right .inl
          · rintro - ⟨m, hm, j, hj⟩
            obtain rfl := baseEnds_unique hm hbase
            exact absurd hj (hcomplete j)

/-- A V1 server with the gate on. -/
def gatedServer : Config :=
  ⟨.v1, true, 1, 1, true, true⟩

/-- A rank whose first forward misses a pair, and whose replay does not; the gate fires and
promotes an expert. -/
def calmRank : Rank where
  baseMiss n := 1 - n
  baseFault _ := false
  baseRead _ := ⟨0, 0⟩
  baseTol := 0
  decision := some true
  budget := none
  promote _ := some 1
  gateMiss _ _ := 0
  gateFault _ _ := false
  gateRead _ _ := ⟨0, 0⟩
  gateTol _ := 0

theorem strict_step_iff_calm :
    ∃ ops out, Strict gatedServer (fun _ : Fin 2 => calmRank) ops out := by
  refine (strict_step_iff gatedServer (fun _ : Fin 2 => calmRank) rfl).mpr
    ⟨SameReads.sameVerdicts ⟨fun _ _ _ => rfl, fun _ _ => rfl, fun _ _ _ _ => rfl,
      fun _ _ _ => rfl⟩ gatedServer, fun _ n hn hinc => ?_⟩
  have hend : BaseEnds gatedServer (fun _ : Fin 2 => calmRank) 1 := by
    refine ⟨fun m hm i => ?_, fun m _ => ?_, fun i => ?_⟩
    · obtain rfl : m = 0 := by omega
      decide
    · rintro ⟨i, -, hf⟩
      exact absurd hf (by simp [calmRank])
    · decide
  obtain rfl := baseEnds_unique hn hend
  obtain ⟨j, hj⟩ := hinc
  exact absurd hj (by simp only [Incomplete]; decide)

/-- A rank that cannot hold what a step needs: a pair is missing after every pass. -/
def crowdedRank : Rank :=
  { calmRank with
    baseMiss := fun _ => 1
    gateMiss := fun _ _ => 1 }

/-- The base replay does not converge, the V1 runner records it, and the gate fires all the same:
the residue in its own repair loop raises an exception. -/
theorem gate_after_failed_replay :
    ¬ ∃ ops out, Strict gatedServer (fun _ : Fin 1 => crowdedRank) ops out := by
  rintro ⟨ops, out, h⟩
  have hrun : Runs combine (group gatedServer fun _ : Fin 1 => crowdedRank)
      [.forward, .logits, .forward, .logits, .forward, .logits] fun _ => ⟨1, 2, .raised⟩ :=
    .coll (x := fun _ => 0) (fun _ => rfl) <| .coll (x := fun _ => 0) (fun _ => rfl) <|
    .coll (x := fun _ => 0) (fun _ => rfl) <| .coll (x := fun _ => 0) (fun _ => rfl) <|
    .coll (x := fun _ => 0) (fun _ => rfl) <| .coll (x := fun _ => 0) (fun _ => rfl) <|
    .done fun _ => rfl
  obtain ⟨-, rfl⟩ := h.runs.unique hrun
  have hstuck : BaseStuck gatedServer fun _ : Fin 1 => crowdedRank := by
    refine ⟨1, ⟨fun m hm i => ?_, fun m _ => ?_, fun i => ?_⟩, 0, ?_⟩
    · obtain rfl : m = 0 := by omega
      decide +revert
    · rintro ⟨i, -, hf⟩
      exact absurd hf (by simp [crowdedRank, calmRank])
    · decide +revert
    · simp only [Incomplete]
      decide
  exact absurd (h.survives rfl hstuck 0) (by decide)

end VllmMoet.Replay
