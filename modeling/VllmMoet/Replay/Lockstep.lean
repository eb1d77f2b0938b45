import VllmMoet.Replay.Verdicts

/-!
# When the ranks stay in lockstep

Between two collectives a rank decides by reduced values, by values it has voted on, and by the
replay policy. The policy alone reads files that an operator may rewrite, and its verdicts are
not voted on. `lockstep_iff`: the ranks of a group go through the same collectives, to the point
where all of them finish or all of them raise, exactly if at every verdict of the policy that they
come to the files give all of them the same one.

* `sound_group`: a group is in lockstep exactly if its programs agree. The proof follows the program
  from its end: `head_gateLoop` and `head_gateReforward` say what a rank shows next after each
  verdict, and that the two verdicts can always be told apart.
* `agrees_group`: the programs agree exactly if the verdicts are the same. The branches in between
  are taken alike, because what they depend on is reduced: the miss counts, the consensus on a
  promotion, the votes of the gate.
-/

namespace VllmMoet.Replay

open Spmd

variable {w : ℕ}

/-! ### The collectives of a group -/

/-- On one rank every collective returns the value that is given. -/
theorem combine_single (op : Collective) (x : Fin 1 → ℕ) (i : Fin 1) : combine op x = x i := by
  have hi : i = 0 := Subsingleton.elim i 0
  subst hi
  cases op <;> simp [combine]

theorem allReduce_of_lt {world : ℕ} (hw : 1 < world) (op : Collective) (x : ℕ) (k : ℕ → Prog) :
    allReduce world op x k = .coll op x k :=
  if_neg (Nat.not_le.mpr hw)

/-- A single rank goes on with its own value, which is the combined one. -/
theorem allReduce_single (op : Collective) (x : Fin (0 + 1) → ℕ) (k : Fin (0 + 1) → ℕ → Prog) :
    (fun i => allReduce (0 + 1) op (x i) (k i)) = fun i => k i (combine op x) := by
  funext i
  rw [combine_single op x i]
  rfl

/-- Two ranks make a group that reduces. -/
theorem one_lt_of_ne {i j : Fin (w + 1)} (h : i ≠ j) : 1 < w + 1 := by
  have hval : i.val ≠ j.val := fun heq => h (Fin.ext heq)
  omega

section Sound

variable {op : Collective} {x : Fin (w + 1) → ℕ} {k : Fin (w + 1) → ℕ → Prog}
  {flag : Fin (w + 1) → Bool} {kb : Fin (w + 1) → Bool → Prog} {fault : Fin (w + 1) → Bool}
  {failed p : Fin (w + 1) → Prog} {cfg : Config}

/-- The reduced value is the same on all ranks, whether or not there is a collective. -/
theorem agrees_allReduce : Agrees combine (fun i => allReduce (w + 1) op (x i) (k i)) ↔
    Agrees combine fun i => k i (combine op x) := by
  rcases w with _ | w
  · rw [allReduce_single]
  · simp only [allReduce_of_lt (show 1 < w + 1 + 1 by omega)]
    exact agrees_coll

/-- The forward of a replay is a collective of the model itself. -/
theorem agrees_replayForward :
    Agrees combine (fun i => replayForward cfg (p i)) ↔ Agrees combine p := by
  refine agrees_coll.trans ?_
  cases cfg.runner with
  | v1 => exact agrees_coll
  | v2 => rfl

theorem sound_allReduce (h : Sound combine Outcome.failed fun i => k i (combine op x)) :
    Sound combine Outcome.failed fun i => allReduce (w + 1) op (x i) (k i) := by
  rcases w with _ | w
  · rwa [allReduce_single]
  · simp only [allReduce_of_lt (show 1 < w + 1 + 1 by omega)]
    exact sound_coll h

theorem sound_andTp (h : ∀ b, Sound combine Outcome.failed fun i => kb i b) :
    Sound combine Outcome.failed fun i => andTp (w + 1) (flag i) (kb i) :=
  sound_allReduce (h _)

theorem sound_orTp (h : ∀ b, Sound combine Outcome.failed fun i => kb i b) :
    Sound combine Outcome.failed fun i => orTp (w + 1) (flag i) (kb i) :=
  sound_allReduce (h _)

/-- A step that is left does not raise on any rank. -/
theorem sound_leave {recorded : Fin (w + 1) → Bool} {replays gatePasses : ℕ} {pass : Pass} :
    Sound combine Outcome.failed fun i => leave (recorded i) replays gatePasses pass := by
  refine sound_done fun i j => ?_
  cases recorded i <;> cases recorded j <;> rfl

/-- A step that raises does so on all ranks. -/
theorem sound_raise {replays gatePasses : ℕ} :
    Sound combine Outcome.failed fun _ : Fin (w + 1) => raise replays gatePasses :=
  sound_done fun _ _ => rfl

/-- If no rank has faulted in its promotions all go on, else all fail. -/
theorem sound_promoteConsensus (hfailed : Sound combine Outcome.failed failed)
    (h : Sound combine Outcome.failed p) : Sound combine Outcome.failed fun i =>
      promoteConsensus (w + 1) (x i) (fault i) (failed i) (p i) := by
  refine sound_allReduce ?_
  generalize combine .minI32 (fun i => (!(decide (0 < x i) && fault i)).toNat) = ok
  by_cases hok : (ok != 0) = true
  · simpa only [hok, if_true] using h
  · simpa only [if_neg hok] using hfailed

theorem sound_replayForward (h : Sound combine Outcome.failed p) :
    Sound combine Outcome.failed fun i => replayForward cfg (p i) := by
  refine sound_coll ?_
  cases cfg.runner with
  | v1 => exact sound_coll h
  | v2 => exact h

end Sound

/-! ### What a rank shows next -/

section Heads

variable {cfg : Config} {world : ℕ} {r : Rank}

theorem head_leave (recorded : Bool) (replays gatePasses : ℕ) (pass : Pass) :
    (leave recorded replays gatePasses pass).head Outcome.failed = .inr false := by
  cases recorded <;> rfl

theorem head_raise (replays gatePasses : ℕ) :
    (raise replays gatePasses).head Outcome.failed = .inr true := rfl

/-- A group of several ranks shows its collective. -/
theorem head_allReduce (hw : 1 < world) (op : Collective) (x : ℕ) (k : ℕ → Prog) :
    (allReduce world op x k).head Outcome.failed = .inl op := by
  rw [allReduce_of_lt hw, head_coll]

/-- The gate's loop goes on to a vote, or lets the step finish. -/
theorem head_gateLoop (hw : 1 < world) (recorded : Bool) (replays fuel i : ℕ)
    (budget : Option ℕ) (pass : Pass) (gatePasses : ℕ) :
    (gateLoop cfg world r recorded replays fuel i budget pass gatePasses).head Outcome.failed =
        .inl .minI64 ∨
      (gateLoop cfg world r recorded replays fuel i budget pass gatePasses).head Outcome.failed =
        .inr false := by
  cases fuel with
  | zero => exact .inr (head_leave _ _ _ _)
  | succ fuel =>
    left
    rw [gateLoop]
    exact head_allReduce hw _ _ _

/-- So does the gate, which may compute logits before. -/
theorem head_gateReforward (hw : 1 < world) (recorded : Bool) (replays : ℕ) :
    (gateReforward cfg world r recorded replays).head Outcome.failed ≠ .inl .forward ∧
      (gateReforward cfg world r recorded replays).head Outcome.failed ≠ .inr true := by
  rw [gateReforward]
  split
  · simp [head_leave]
  · cases cfg.runner with
    | v1 => simp [andTp, head_allReduce hw]
    | v2 => simp

/-- After the base loop no rank comes to another forward at once. -/
theorem head_baseExit (hw : 1 < world) (n maxMiss : ℕ) :
    (baseExit cfg world r n maxMiss).head Outcome.failed ≠ .inl .forward := by
  rw [baseExit]
  cases cfg.runner with
  | v1 => exact (head_gateReforward hw _ n).1
  | v2 =>
    rw [head_choose]
    split
    · exact (head_gateReforward hw _ n).1
    · simp [head_raise]

end Heads

/-! ### From the end of a step to its beginning -/

section Loops

variable {cfg : Config} {ranks : Fin (w + 1) → Rank}

/-- The loop of repairs: going on shows the vote on a promotion, which the exit never does. -/
theorem sound_repairLoop {replays gatePasses i : ℕ} {exit : Fin (w + 1) → ℕ → ℕ → Prog}
    (hexit : ∀ k m, Sound combine Outcome.failed fun j => exit j k m)
    (hhead : 1 < w + 1 → ∀ j k m, (exit j k m).head Outcome.failed ≠ .inl .minI32)
    (fuel k m : ℕ) : Sound combine Outcome.failed fun j =>
      repairLoop cfg (w + 1) (ranks j) replays gatePasses i (exit j) fuel k m := by
  induction fuel generalizing k m with
  | zero => exact hexit k m
  | succ fuel ih =>
    refine sound_choose (fun j j' hne => ?_) fun go _ => ?_
    · simp only [if_true, Bool.false_eq_true, if_false]
      rw [promoteConsensus, head_allReduce (one_lt_of_ne hne)]
      exact (hhead (one_lt_of_ne hne) j' k m).symm
    · cases go with
      | false => exact hexit k m
      | true =>
        exact sound_promoteConsensus sound_raise
          (sound_replayForward (sound_allReduce (ih (k + 1) _)))

/-- The loop of the gate, by its passes. -/
theorem sound_gateLoop (recorded : Fin (w + 1) → Bool) (replays fuel i : ℕ)
    (budget : Fin (w + 1) → Option ℕ) (pass : Pass) (gatePasses : ℕ) :
    Sound combine Outcome.failed fun j =>
      gateLoop cfg (w + 1) (ranks j) (recorded j) replays fuel i (budget j) pass gatePasses := by
  induction fuel generalizing i budget pass gatePasses with
  | zero => exact sound_leave
  | succ fuel ih =>
    simp only [gateLoop]
    refine sound_andTp fun ok => ?_
    cases ok with
    | false => exact sound_leave
    | true =>
      simp only [Bool.not_true, Bool.false_eq_true, if_false]
      refine sound_orTp fun promoted => ?_
      by_cases hgo : (!(promoted && cfg.reforward)) = true
      · simp only [hgo, if_true]
        exact sound_leave
      · simp only [if_neg hgo]
        refine sound_replayForward (sound_allReduce (sound_repairLoop (fun k m => ?_) ?_ _ _ _))
        · refine sound_choose (fun j j' hne => ?_) fun clean _ => ?_
          · -- a rank that raises shows it, one that goes on does not
            simp only [if_true, Bool.false_eq_true, if_false, head_raise]
            rcases head_gateLoop (one_lt_of_ne hne) (recorded j) replays fuel (i + 1) _
              (.gate i k) (gatePasses + 1 + k) with h | h
            · rw [h]
              simp
            · rw [h]
              simp
          · cases clean with
            | false => exact sound_raise
            | true => exact ih (i + 1) _ (.gate i k) (gatePasses + 1 + k)
        · intro hw j k m
          rw [head_choose]
          split
          · rcases head_gateLoop hw (recorded j) replays fuel (i + 1) _ (.gate i k)
              (gatePasses + 1 + k) with h | h
            · rw [h]
              simp
            · rw [h]
              simp
          · simp [head_raise]

theorem sound_gateReforward (recorded : Fin (w + 1) → Bool) (replays : ℕ) :
    Sound combine Outcome.failed fun j =>
      gateReforward cfg (w + 1) (ranks j) (recorded j) replays := by
  have hfire : ∀ fire : Bool, Sound combine Outcome.failed fun j =>
      if fire then gateLoop cfg (w + 1) (ranks j) (recorded j) replays cfg.fireFpMax 0
        (ranks j).budget (.base replays) 0
      else leave (recorded j) replays 0 (.base replays) := by
    intro fire
    cases fire with
    | false => exact sound_leave
    | true => exact sound_gateLoop recorded replays _ 0 _ _ 0
  simp only [gateReforward]
  split
  · exact sound_leave
  · cases cfg.runner with
    | v1 => exact sound_andTp fun ok => sound_orTp hfire
    | v2 =>
      refine sound_coll (sound_andTp fun ok => ?_)
      cases ok with
      | false => exact sound_leave
      | true => exact sound_orTp hfire

theorem sound_baseExit (n m : ℕ) : Sound combine Outcome.failed fun j =>
    baseExit cfg (w + 1) (ranks j) n m := by
  simp only [baseExit]
  cases cfg.runner with
  | v1 => exact sound_gateReforward _ n
  | v2 =>
    refine sound_choose (fun i j hne => ?_) fun complete _ => ?_
    · simp only [if_true, Bool.false_eq_true, if_false, head_raise]
      exact (head_gateReforward (one_lt_of_ne hne) false n).2
    · cases complete with
      | false => exact sound_raise
      | true => exact sound_gateReforward (fun _ => false) n

theorem sound_baseLoop (fuel n m : ℕ) : Sound combine Outcome.failed fun j =>
    baseLoop cfg (w + 1) (ranks j) (baseExit cfg (w + 1) (ranks j)) fuel n m := by
  induction fuel generalizing n m with
  | zero => exact sound_baseExit n m
  | succ fuel ih =>
    refine sound_choose (fun i j hne => ?_) fun go _ => ?_
    · simp only [if_true, Bool.false_eq_true, if_false]
      rw [replayForward, head_coll]
      exact (head_baseExit (one_lt_of_ne hne) n m).symm
    · cases go with
      | false => exact sound_baseExit n m
      | true =>
        exact sound_replayForward (sound_allReduce (sound_promoteConsensus sound_raise
          (ih (n + 1) _)))

/-- **A group is in lockstep exactly if its programs agree.** -/
theorem sound_group : Sound combine Outcome.failed (group cfg ranks) :=
  sound_allReduce (sound_promoteConsensus sound_raise (sound_baseLoop _ 0 _))

end Loops

/-! ### Agreement is that of the verdicts -/

section Agreement

variable {cfg : Config} {ranks : Fin (w + 1) → Rank} {flag : Fin (w + 1) → Bool}
  {kb : Fin (w + 1) → Bool → Prog} {b : Bool}

/-- A vote that all must win. -/
theorem agrees_andTp (hb : b = true ↔ ∀ i, flag i = true) :
    Agrees combine (fun i => andTp (w + 1) (flag i) (kb i)) ↔ Agrees combine fun i => kb i b := by
  refine agrees_allReduce.trans ?_
  rw [Bool.eq_iff_iff.mpr ((combine_minI64_iff flag).trans hb.symm)]

/-- A vote that one may win. -/
theorem agrees_orTp (hb : b = true ↔ ∃ i, flag i = true) :
    Agrees combine (fun i => orTp (w + 1) (flag i) (kb i)) ↔ Agrees combine fun i => kb i b := by
  refine agrees_allReduce.trans ?_
  rw [Bool.eq_iff_iff.mpr ((combine_maxI64_iff flag).trans hb.symm)]

/-- A consensus that fails ends the step on all ranks alike. -/
theorem agrees_consensus {x : Fin (w + 1) → ℕ} {fault : Fin (w + 1) → Bool}
    {p : Fin (w + 1) → Prog} {replays gatePasses : ℕ} :
    (Agrees combine fun i => promoteConsensus (w + 1) (x i) (fault i) (raise replays gatePasses)
      (p i)) ↔ ((¬ ∃ i, 0 < x i ∧ fault i = true) → Agrees combine p) := by
  refine agrees_allReduce.trans ?_
  by_cases hok : ∃ i, 0 < x i ∧ fault i = true
  · simp only [if_neg fun h' => (combine_minI32_iff x fault).mp h' hok]
    exact iff_of_true (.done _ fun _ => rfl) fun h => absurd hok h
  · simp only [(combine_minI32_iff x fault).mpr hok, if_true]
    exact ⟨fun h _ => h, fun h => h hok⟩

/-- A verdict and the two ways on. -/
theorem agrees_choose_iff {p q : Fin (w + 1) → Prog} :
    (Agrees combine fun i => .choose (flag i) fun b => if b then p i else q i) ↔
      ∃ b, (∀ i, flag i = b) ∧ if b then Agrees combine p else Agrees combine q := by
  refine agrees_choose.trans (exists_congr fun b => and_congr_right fun _ => ?_)
  cases b <;> rfl

/-- What follows the repairs of the gate's pass `i`: the next pass, if this one is clean. -/
def repairExit (cfg : Config) (world : ℕ) (r : Rank) (recorded : Bool) (n fuel i : ℕ)
    (gatePasses k maxMiss : ℕ) : Prog :=
  .choose (gateValidateBaseClean cfg (r.gateTol i) maxMiss) fun clean =>
    if clean then
      gateLoop cfg world r recorded n fuel (i + 1) (budgetAt r (i + 1)) (.gate i k)
        (gatePasses + 1 + k)
    else raise n (gatePasses + 1 + k)

/-- The gate's pass `i` from its replay on. -/
def gateReplay (cfg : Config) (world : ℕ) (r : Rank) (recorded : Bool) (n fuel i : ℕ)
    (gatePasses : ℕ) : Prog :=
  replayForward cfg <|
  allReduce world .maxI64 (r.gateMiss i 0) fun maxMiss =>
  repairLoop cfg world r n gatePasses i (repairExit cfg world r recorded n fuel i gatePasses)
    cfg.fpMax 0 maxMiss

/-- A pass of the gate: two votes before its replay. -/
theorem gateLoop_succ (world : ℕ) (r : Rank) (recorded : Bool) (n fuel i : ℕ) (pass : Pass)
    (gatePasses : ℕ) :
    gateLoop cfg world r recorded n (fuel + 1) i (budgetAt r i) pass gatePasses =
      andTp world (promotedAt r i).isSome fun ok =>
      if !ok then leave recorded n gatePasses pass else
      orTp world (decide (0 < (promotedAt r i).getD 0)) fun promoted =>
      if !(promoted && cfg.reforward) then leave recorded n gatePasses pass else
      gateReplay cfg world r recorded n fuel i gatePasses := rfl

/-- A replayed pass of the gate agrees if its verdicts do and, where it settles, what follows. -/
theorem agrees_gateReplay {recorded : Fin (w + 1) → Bool} {n fuel i gatePasses : ℕ} :
    (Agrees combine fun j =>
      gateReplay cfg (w + 1) (ranks j) (recorded j) n fuel i gatePasses) ↔
    PassAgrees cfg ranks i ∧ ∀ k, GateSettles cfg ranks i k →
      Agrees combine fun j => gateLoop cfg (w + 1) (ranks j) (recorded j) n fuel (i + 1)
        (budgetAt (ranks j) (i + 1)) (.gate i k) (gatePasses + 1 + k) := by
  refine (agrees_replayForward.trans agrees_allReduce).trans ?_
  have hloop := agrees_loop
    (fun j l => gateRepairContinue cfg ((ranks j).gateRead i l) l (gateMax ranks i l))
    (fun l => ¬ GateFaulty ranks i l)
    (fun fuel' k j => repairLoop cfg (w + 1) (ranks j) n gatePasses i
      (repairExit cfg (w + 1) (ranks j) (recorded j) n fuel i gatePasses) fuel' k
      (gateMax ranks i k))
    (fun k j => repairExit cfg (w + 1) (ranks j) (recorded j) n fuel i gatePasses k
      (gateMax ranks i k))
    (fun j => fpContinue_eq_false le_rfl _ _) rfl
    (fun fuel' k => agrees_choose_iff.trans (exists_congr fun b => and_congr_right fun _ => by
      cases b with
      | false => rfl
      | true => exact agrees_consensus.trans (imp_congr_right fun _ =>
          agrees_replayForward.trans agrees_allReduce)))
    cfg.fpMax 0 (Nat.zero_add _) (comes_zero _ _)
  refine hloop.trans ?_
  simp only [← repairComes_iff, Nat.zero_le, true_imp_iff]
  constructor
  · rintro ⟨hrepair, hexit⟩
    have hends : ∀ k, RepairEnds cfg ranks i k → _ := fun k hk =>
      agrees_choose_iff.mp (hexit k (repairEnds_iff.mp hk).1 hk.stops)
    refine ⟨⟨hrepair, fun k hk j j' => ?_⟩, fun k hk => ?_⟩
    · obtain ⟨b, hb, -⟩ := hends k hk
      exact (hb j).trans (hb j').symm
    · obtain ⟨b, hb, hrest⟩ := hends k hk.1
      obtain rfl : b = true := (hb 0).symm.trans (hk.2 0)
      exact hrest
  · rintro ⟨hpass, hnext⟩
    refine ⟨hpass.repair, fun k hk hstop => agrees_choose_iff.mpr ?_⟩
    have hends : RepairEnds cfg ranks i k := repairEnds_iff.mpr ⟨hk, hstop⟩
    refine ⟨_, fun j => hpass.clean k hends j 0, ?_⟩
    split_ifs with hclean
    · exact hnext k ⟨hends, fun j => (hpass.clean k hends j 0).trans hclean⟩
    · exact .done _ fun _ => rfl

/-- The loop of the gate comes to a replayed pass only if all ranks promote without a fault and some
rank promotes an expert, both of which are voted on. -/
theorem agrees_gateLoop_succ {recorded : Fin (w + 1) → Bool} {n fuel i : ℕ} {pass : Pass}
    {gatePasses : ℕ} :
    (Agrees combine fun j => gateLoop cfg (w + 1) (ranks j) (recorded j) n (fuel + 1) i
      (budgetAt (ranks j) i) pass gatePasses) ↔
    (GateEnters cfg ranks i → Agrees combine fun j =>
      gateReplay cfg (w + 1) (ranks j) (recorded j) n fuel i gatePasses) := by
  simp only [gateLoop_succ]
  obtain ⟨ok, hok⟩ : ∃ ok : Bool, ok = true ↔ ∀ j, (promotedAt (ranks j) i).isSome = true :=
    ⟨_, decide_eq_true_iff⟩
  rw [agrees_andTp hok]
  cases ok with
  | false => exact iff_of_true (.done _ fun _ => rfl) fun h => absurd (hok.mpr h.1) (by simp)
  | true =>
    obtain ⟨any, hany⟩ : ∃ any : Bool, any = true ↔
        ∃ j, decide (0 < (promotedAt (ranks j) i).getD 0) = true := ⟨_, decide_eq_true_iff⟩
    simp only [Bool.not_true, Bool.false_eq_true, if_false]
    rw [agrees_orTp hany]
    have henters : GateEnters cfg ranks i ↔ (any && cfg.reforward) = true := by
      rw [Bool.and_eq_true, hany]
      simp only [decide_eq_true_eq]
      exact and_iff_right (hok.mp rfl)
    rw [henters]
    cases hgo : any && cfg.reforward with
    | false =>
      simp only [Bool.not_false, if_true]
      exact iff_of_true (.done _ fun _ => rfl) fun h => absurd h (by simp)
    | true => simp only [Bool.not_true, Bool.false_eq_true, if_false, true_imp_iff]

/-- From a pass on, behind passes that have settled, the loop of the gate agrees if the verdicts of
all passes that are come to do. -/
theorem agrees_gateLoop {n : ℕ} (hbase : BaseEnds cfg ranks n)
    (hcomplete : cfg.runner = .v2 → ∀ j, ¬ Incomplete cfg ranks n j) (hfires : GateFires cfg ranks)
    (recorded : Fin (w + 1) → Bool) (fuel i : ℕ) (hi : i + fuel = cfg.fireFpMax)
    (hsettled : ∀ e < i, GateEnters cfg ranks e ∧ ∃ k, GateSettles cfg ranks e k) (pass : Pass)
    (gatePasses : ℕ) :
    (Agrees combine fun j => gateLoop cfg (w + 1) (ranks j) (recorded j) n fuel i
      (budgetAt (ranks j) i) pass gatePasses) ↔
    ∀ e, i ≤ e → GateComes cfg ranks e → PassAgrees cfg ranks e := by
  induction fuel generalizing i pass gatePasses with
  | zero =>
    refine iff_of_true (.done _ fun _ => rfl) fun e he hc => ?_
    have := hc.within
    omega
  | succ fuel ih =>
    rw [agrees_gateLoop_succ]
    have hnext : GateEnters cfg ranks i → ∀ k, GateSettles cfg ranks i k →
        ∀ e < i + 1, GateEnters cfg ranks e ∧ ∃ k, GateSettles cfg ranks e k := by
      intro henters k hk e he
      rcases Nat.lt_succ_iff_lt_or_eq.mp he with he | rfl
      · exact hsettled e he
      · exact ⟨henters, k, hk⟩
    constructor
    · intro h e he hc
      rcases he.eq_or_lt with rfl | hlt
      · exact (agrees_gateReplay.mp (h hc.enters)).1
      · obtain ⟨henters, k, hk⟩ := hc.settled i hlt
        have hloop := (agrees_gateReplay.mp (h henters)).2 k hk
        exact (ih (i + 1) (by omega) (hnext henters k hk) _ _).mp hloop e hlt hc
    · intro h henters
      have hcomes : GateComes cfg ranks i :=
        ⟨⟨n, hbase, hcomplete⟩, hfires, by omega, hsettled, henters⟩
      refine agrees_gateReplay.mpr ⟨h i le_rfl hcomes, fun k hk => ?_⟩
      exact (ih (i + 1) (by omega) (hnext henters k hk) _ _).mpr fun e he => h e (by omega)

/-- The gate's part of a step: nothing but its passes depends on a verdict. -/
theorem agrees_gateReforward {n : ℕ} (hbase : BaseEnds cfg ranks n)
    (hcomplete : cfg.runner = .v2 → ∀ j, ¬ Incomplete cfg ranks n j)
    (recorded : Fin (w + 1) → Bool) :
    (Agrees combine fun j => gateReforward cfg (w + 1) (ranks j) (recorded j) n) ↔
      ∀ i, GateComes cfg ranks i → PassAgrees cfg ranks i := by
  have hfired : ∀ fire : Bool, (fire = true ↔ GateFires cfg ranks) →
      ((Agrees combine fun j =>
        if fire then gateLoop cfg (w + 1) (ranks j) (recorded j) n cfg.fireFpMax 0
          (ranks j).budget (.base n) 0
        else leave (recorded j) n 0 (.base n)) ↔
      ∀ i, GateComes cfg ranks i → PassAgrees cfg ranks i) := by
    intro fire hfire
    cases fire with
    | false =>
      exact iff_of_true (.done _ fun _ => rfl) fun i hc => absurd (hfire.mpr hc.fires) (by simp)
    | true =>
      refine (agrees_gateLoop hbase hcomplete (hfire.mp rfl) recorded cfg.fireFpMax 0
        (Nat.zero_add _) (fun e he => absurd he (Nat.not_lt_zero e)) (.base n) 0).trans ?_
      simp only [Nat.zero_le, true_imp_iff]
  obtain ⟨fire, hfire⟩ : ∃ fire : Bool, fire = true ↔ GateFires cfg ranks :=
    ⟨_, @decide_eq_true_iff _ (Classical.propDecidable _)⟩
  have hquiet : ¬ GateFires cfg ranks → ∀ i, GateComes cfg ranks i → PassAgrees cfg ranks i :=
    fun h i hc => absurd hc.fires h
  obtain ⟨ok, hok⟩ : ∃ ok : Bool, ok = true ↔ ∀ j, (ranks j).decision.isSome = true :=
    ⟨_, decide_eq_true_iff⟩
  by_cases hgate : cfg.gate = true
  · simp only [gateReforward, hgate, Bool.not_true, Bool.false_eq_true, if_false]
    cases hr : cfg.runner with
    | v1 =>
      -- a decision that raised somewhere fires nowhere
      have hvote : fire = true ↔ ∃ j, (ok && ((ranks j).decision == some true)) = true := by
        rw [hfire, GateFires, and_iff_right hgate, ← hok]
        simp
      simp only
      rw [agrees_andTp hok, agrees_orTp hvote]
      exact hfired fire hfire
    | v2 =>
      simp only
      rw [agrees_coll, agrees_andTp hok]
      cases ok with
      | false =>
        exact iff_of_true (.done _ fun _ => rfl)
          (hquiet fun h => absurd (hok.mpr h.2.1) (by simp))
      | true =>
        have hvote : fire = true ↔ ∃ j, ((ranks j).decision == some true) = true := by
          rw [hfire, GateFires, and_iff_right hgate, ← hok, and_iff_right rfl]
          simp
        simp only [Bool.not_true, Bool.false_eq_true, if_false]
        rw [agrees_orTp hvote]
        exact hfired fire hfire
  · simp only [gateReforward, Bool.eq_false_iff.mpr hgate, Bool.not_false, if_true]
    exact iff_of_true (.done _ fun _ => rfl) (hquiet fun h => hgate h.1)

/-- What follows the base loop. -/
theorem agrees_baseExit {n : ℕ} (hbase : BaseEnds cfg ranks n) :
    (Agrees combine fun j => baseExit cfg (w + 1) (ranks j) n (baseMax ranks n)) ↔
      (cfg.runner = .v2 → ∀ i j, fpValidateComplete cfg (ranks i).baseTol (baseMax ranks n) =
        fpValidateComplete cfg (ranks j).baseTol (baseMax ranks n)) ∧
      ∀ i, GateComes cfg ranks i → PassAgrees cfg ranks i := by
  simp only [baseExit]
  cases hr : cfg.runner with
  | v1 =>
    refine (agrees_gateReforward hbase (fun h => ?_) _).trans (and_iff_right fun h => ?_).symm
    · exact absurd (hr.symm.trans h) (by decide)
    · exact absurd h (by decide)
  | v2 =>
    refine agrees_choose_iff.trans ?_
    simp only [true_imp_iff]
    have hgate : (∀ j, fpValidateComplete cfg (ranks j).baseTol (baseMax ranks n) = true) →
        cfg.runner = .v2 → ∀ j, ¬ Incomplete cfg ranks n j := fun h _ j hj => by
      simp [Incomplete, h j] at hj
    constructor
    · rintro ⟨b, hb, hrest⟩
      refine ⟨fun i j => (hb i).trans (hb j).symm, fun i hc => ?_⟩
      cases b with
      | false =>
        -- an incomplete replay raises before the gate
        obtain ⟨m, hm, hcomp⟩ := hc.base
        obtain rfl := baseEnds_unique hm hbase
        exact absurd (hb 0) (hcomp hr 0)
      | true => exact (agrees_gateReforward hbase (hgate hb) _).mp hrest i hc
    · rintro ⟨hsame, hpass⟩
      refine ⟨_, fun i => hsame i 0, ?_⟩
      split_ifs with hcomp
      · exact (agrees_gateReforward hbase (hgate fun j => (hsame j 0).trans hcomp) _).mpr hpass
      · exact .done _ fun _ => rfl

/-- **The programs agree exactly if the verdicts are the same.** -/
theorem agrees_group : Agrees combine (group cfg ranks) ↔ SameVerdicts cfg ranks := by
  refine (agrees_allReduce.trans agrees_consensus).trans ?_
  have hloop := agrees_loop
    (fun i m => fpContinue cfg ((ranks i).baseRead m) m (baseMax ranks m))
    (fun m => ¬ BaseFaulty ranks (m + 1))
    (fun fuel n j =>
      baseLoop cfg (w + 1) (ranks j) (baseExit cfg (w + 1) (ranks j)) fuel n (baseMax ranks n))
    (fun n j => baseExit cfg (w + 1) (ranks j) n (baseMax ranks n))
    (fun j => fpContinue_eq_false le_rfl _ _) rfl
    (fun fuel n => agrees_choose_iff.trans (exists_congr fun b => and_congr_right fun _ => by
      cases b with
      | false => rfl
      | true => exact agrees_replayForward.trans (agrees_allReduce.trans agrees_consensus)))
    cfg.fpMax 0 (Nat.zero_add _) (comes_zero _ _)
  refine (imp_congr_right fun _ => hloop).trans ?_
  simp only [Nat.zero_le, true_imp_iff]
  constructor
  · intro h
    have hends : ∀ n, BaseEnds cfg ranks n → _ := fun n hn =>
      have hc := baseComes_iff.mp (baseEnds_iff.mp hn).1
      (agrees_baseExit hn).mp ((h hc.1).2 n hc.2 hn.stops)
    refine ⟨fun n hn => ?_, fun hv2 n hn => (hends n hn).1 hv2, fun i hc => ?_⟩
    · have hc := baseComes_iff.mp hn
      exact (h hc.1).1 n hc.2
    · obtain ⟨n, hn, -⟩ := hc.base
      exact (hends n hn).2 i hc
  · intro h hzero
    refine ⟨fun m hm => h.base m (baseComes_iff.mpr ⟨hzero, hm⟩), fun m hm hstop => ?_⟩
    have hends : BaseEnds cfg ranks m := baseEnds_iff.mpr ⟨baseComes_iff.mpr ⟨hzero, hm⟩, hstop⟩
    exact (agrees_baseExit hends).mpr ⟨fun hv2 => h.complete hv2 m hends, h.gate⟩

end Agreement

/-- **The ranks stay in lockstep exactly while their verdicts are the same.** For every set-up, every
size of the group and everything that can happen on its ranks: all ranks go through the same
collectives until all of them finish the step or all of them raise, if and only if at every
verdict of the replay policy that they come to, on whether to go on and on whether the replay is
complete, the files that they read give all ranks the same one. -/
theorem lockstep_iff (cfg : Config) (ranks : Fin (w + 1) → Rank) :
    Lockstep combine Outcome.failed (group cfg ranks) ↔ SameVerdicts cfg ranks :=
  sound_group.trans agrees_group

/-- A V2 server without the gate. -/
def plainServer : Config :=
  ⟨.v2, true, 1, 1, false, true⟩

/-- A rank that misses three pairs in its first forward, and reads this tolerance. -/
def missingThree (tol : ℤ) : Rank where
  baseMiss n := if n = 0 then 3 else 0
  baseFault _ := false
  baseRead _ := ⟨tol, 0⟩
  baseTol := tol
  decision := some false
  budget := none
  promote _ := some 0
  gateMiss _ _ := 0
  gateFault _ _ := false
  gateRead _ _ := ⟨tol, 0⟩
  gateTol _ := tol

/-- The tolerance is raised from 0 to 5 while a step misses three pairs, and the second rank reads
the new value first: the first one waits for it in a replay that it does not join. -/
theorem tolerance_rewritten :
    ¬ Lockstep combine Outcome.failed
      (group plainServer fun i : Fin 2 => missingThree (if i = 0 then 0 else 5)) := by
  intro h
  have hmax := lockstep_coll.mp h
  have hcons := lockstep_coll.mp hmax
  have hhead := hcons.head_eq 0 1
  exact absurd hhead (by decide)

end VllmMoet.Replay
