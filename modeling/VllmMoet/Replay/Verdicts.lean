import VllmMoet.Replay.Step

/-!
# The verdicts of a step

How the loops of a step go can be read off what the ranks miss, promote and read from the tuning
files, with no regard to the programs that the ranks run.

* `BaseComes`, `BaseEnds`: the verdicts of the base loop that the group comes to, and the one at
  which it stops; `RepairComes`, `RepairEnds`: those of a repair loop.
* `GateFires`, `GateEnters`, `GateComes`: the passes of the gate that are replayed.
* `SameVerdicts`: at every verdict that the group comes to, all ranks read what gives them the same
  one. It holds while nobody rewrites the files between the reads of two ranks
  (`SameReads.sameVerdicts`).
-/

namespace VllmMoet.Replay

open Spmd

variable {w : ℕ}

/-! ### How the loops go -/

section Inputs

variable (cfg : Config) (ranks : Fin (w + 1) → Rank)

/-- The misses of the worst rank after `n` replays. -/
def baseMax (n : ℕ) : ℕ :=
  combine .maxI64 fun i => (ranks i).baseMiss n

/-- Some rank cannot fetch what it misses after `n` replays. -/
def BaseFaulty (n : ℕ) : Prop :=
  ∃ i, 0 < (ranks i).baseMiss n ∧ (ranks i).baseFault n = true

/-- The base loop stops after `n` replays. -/
structure BaseEnds (n : ℕ) : Prop where
  goes : ∀ m < n, ∀ i, fpContinue cfg ((ranks i).baseRead m) m (baseMax ranks m) = true
  faultless : ∀ m ≤ n, ¬ BaseFaulty ranks m
  stops : ∀ i, fpContinue cfg ((ranks i).baseRead n) n (baseMax ranks n) = false

/-- `fp_validate_complete` raises on rank `i` after `n` replays. -/
def Incomplete (n : ℕ) (i : Fin (w + 1)) : Prop :=
  fpValidateComplete cfg (ranks i).baseTol (baseMax ranks n) = false

/-- The base replay does not converge. -/
def BaseStuck : Prop :=
  ∃ n, BaseEnds cfg ranks n ∧ ∃ i, Incomplete cfg ranks n i

/-- The budget that is left for the `i`-th pass of the gate. -/
def budgetAt (r : Rank) : ℕ → Option ℕ
  | 0 => r.budget
  | i + 1 => (budgetAt r i).map (· - (forcePromoteStep (budgetAt r i) (r.promote i)).getD 0)

/-- What the promotion of the `i`-th pass returns. -/
def promotedAt (r : Rank) (i : ℕ) : Option ℕ :=
  forcePromoteStep (budgetAt r i) (r.promote i)

/-- The gate fires. -/
def GateFires : Prop :=
  cfg.gate = true ∧ (∀ j, (ranks j).decision.isSome = true) ∧
    ∃ j, (ranks j).decision = some true

/-- The gate's pass `i` is replayed: no promotion raises, and some rank promotes an expert. -/
def GateEnters (i : ℕ) : Prop :=
  (∀ j, (promotedAt (ranks j) i).isSome = true) ∧
    (∃ j, 0 < (promotedAt (ranks j) i).getD 0) ∧ cfg.reforward = true

/-- The misses of the worst rank in the gate's pass `i` after `k` repairs. -/
def gateMax (i k : ℕ) : ℕ :=
  combine .maxI64 fun j => (ranks j).gateMiss i k

/-- Some rank faults in the promotions of the repair `k` of pass `i`. -/
def GateFaulty (i k : ℕ) : Prop :=
  ∃ j, 0 < (ranks j).gateMiss i k ∧ (ranks j).gateFault i k = true

/-- The repair loop of pass `i` stops after `k` repairs. -/
structure RepairEnds (i k : ℕ) : Prop where
  goes : ∀ l < k, ∀ j, gateRepairContinue cfg ((ranks j).gateRead i l) l (gateMax ranks i l) = true
  faultless : ∀ l < k, ¬ GateFaulty ranks i l
  stops : ∀ j, gateRepairContinue cfg ((ranks j).gateRead i k) k (gateMax ranks i k) = false

/-- It stops, and no rank finds a residue above its tolerance. -/
def GateSettles (i k : ℕ) : Prop :=
  RepairEnds cfg ranks i k ∧
    ∀ j, gateValidateBaseClean cfg ((ranks j).gateTol i) (gateMax ranks i k) = true

/-- Of the gate's passes from `i` on, `fuel` in number, one is replayed and does not settle, and
those before it do. -/
def GateStuck : ℕ → ℕ → Prop
  | 0, _ => False
  | fuel + 1, i => GateEnters cfg ranks i ∧
      ((∃ k, GateSettles cfg ranks i k) → GateStuck fuel (i + 1))

/-- The group comes to the verdict after `n` replays: the ones before it were to go on, on every
rank, and whatever was missed has been fetched. -/
structure BaseComes (n : ℕ) : Prop where
  goes : ∀ m < n, ∀ i, fpContinue cfg ((ranks i).baseRead m) m (baseMax ranks m) = true
  faultless : ∀ m ≤ n, ¬ BaseFaulty ranks m

/-- It comes to the verdict after `k` repairs of the gate's pass `i`. -/
structure RepairComes (i k : ℕ) : Prop where
  goes : ∀ l < k, ∀ j, gateRepairContinue cfg ((ranks j).gateRead i l) l (gateMax ranks i l) = true
  faultless : ∀ l < k, ¬ GateFaulty ranks i l

/-- The gate comes to replay its pass `i`: the base replay has ended, in V2 with a complete
forward, the gate fires, and every pass before settles. -/
structure GateComes (i : ℕ) : Prop where
  base : ∃ n, BaseEnds cfg ranks n ∧ (cfg.runner = .v2 → ∀ j, ¬ Incomplete cfg ranks n j)
  fires : GateFires cfg ranks
  within : i < cfg.fireFpMax
  settled : ∀ e < i, GateEnters cfg ranks e ∧ ∃ k, GateSettles cfg ranks e k
  enters : GateEnters cfg ranks i

/-- At every verdict of the pass `i` that the group comes to, all ranks get the same one. -/
structure PassAgrees (i : ℕ) : Prop where
  repair : ∀ k, RepairComes cfg ranks i k → ∀ j j',
    gateRepairContinue cfg ((ranks j).gateRead i k) k (gateMax ranks i k) =
      gateRepairContinue cfg ((ranks j').gateRead i k) k (gateMax ranks i k)
  clean : ∀ k, RepairEnds cfg ranks i k → ∀ j j',
    gateValidateBaseClean cfg ((ranks j).gateTol i) (gateMax ranks i k) =
      gateValidateBaseClean cfg ((ranks j').gateTol i) (gateMax ranks i k)

/-- At every verdict that the group comes to, what the ranks read gives all of them the same one:
whether to replay once more, in V2 whether the replay is complete, and in the passes of the gate
whether to repair and whether the residue is clean. -/
structure SameVerdicts : Prop where
  base : ∀ n, BaseComes cfg ranks n → ∀ i j,
    fpContinue cfg ((ranks i).baseRead n) n (baseMax ranks n) =
      fpContinue cfg ((ranks j).baseRead n) n (baseMax ranks n)
  complete : cfg.runner = .v2 → ∀ n, BaseEnds cfg ranks n → ∀ i j,
    fpValidateComplete cfg (ranks i).baseTol (baseMax ranks n) =
      fpValidateComplete cfg (ranks j).baseTol (baseMax ranks n)
  gate : ∀ i, GateComes cfg ranks i → PassAgrees cfg ranks i

end Inputs

variable {cfg : Config} {ranks : Fin (w + 1) → Rank}

/-- No rank misses more than the worst one. -/
theorem le_combine_max (x : Fin (w + 1) → ℕ) (i : Fin (w + 1)) : x i ≤ combine .maxI64 x :=
  Finset.le_sup (Finset.mem_univ i)

/-- The base loop ends once. -/
theorem baseEnds_unique {n n' : ℕ} (h : BaseEnds cfg ranks n) (h' : BaseEnds cfg ranks n') :
    n = n' := by
  rcases Nat.lt_trichotomy n n' with hlt | heq | hlt
  · simpa [h.stops 0] using h'.goes n hlt 0
  · exact heq
  · simpa [h'.stops 0] using h.goes n' hlt 0

/-- A loop of repairs ends once. -/
theorem repairEnds_unique {i k k' : ℕ} (h : RepairEnds cfg ranks i k)
    (h' : RepairEnds cfg ranks i k') : k = k' := by
  rcases Nat.lt_trichotomy k k' with hlt | heq | hlt
  · simpa [h.stops 0] using h'.goes k hlt 0
  · exact heq
  · simpa [h'.stops 0] using h.goes k' hlt 0
/-! ### Reduced values -/

theorem bne_zero_iff {n : ℕ} : (n != 0) = true ↔ 0 < n := by
  simp [Nat.pos_iff_ne_zero]

theorem toNat_pos_iff {b : Bool} : 0 < b.toNat ↔ b = true := by
  cases b <;> simp

/-- All flags are set. -/
theorem combine_minI64_iff (flag : Fin (w + 1) → Bool) :
    (combine .minI64 (fun i => (flag i).toNat) != 0) = true ↔ ∀ i, flag i = true := by
  rw [bne_zero_iff, combine, Finset.lt_inf'_iff]
  simp [toNat_pos_iff]

/-- Some flag is set. -/
theorem combine_maxI64_iff (flag : Fin (w + 1) → Bool) :
    (combine .maxI64 (fun i => (flag i).toNat) != 0) = true ↔ ∃ i, flag i = true := by
  rw [bne_zero_iff, combine, Finset.lt_sup_iff]
  simp [toNat_pos_iff]

/-- The consensus holds exactly if no rank has failed. -/
theorem combine_minI32_iff (x : Fin (w + 1) → ℕ) (fault : Fin (w + 1) → Bool) :
    (combine .minI32 (fun i => (!(decide (0 < x i) && fault i)).toNat) != 0) = true ↔
      ¬ ∃ i, 0 < x i ∧ fault i = true :=
  (combine_minI64_iff fun i => !(decide (0 < x i) && fault i)).trans
    (by simp [Nat.pos_iff_ne_zero, or_iff_not_imp_left])

/-! ### Verdicts that are come to -/

/-- The base loop's verdicts as those of a loop: after each to go on, the misses of the next replay
are fetched. -/
theorem baseComes_iff {n : ℕ} : BaseComes cfg ranks n ↔ ¬ BaseFaulty ranks 0 ∧
    Comes (fun i m => fpContinue cfg ((ranks i).baseRead m) m (baseMax ranks m))
      (fun m => ¬ BaseFaulty ranks (m + 1)) n := by
  constructor
  · intro h
    exact ⟨h.faultless 0 (Nat.zero_le n), fun m hm => ⟨h.goes m hm, h.faultless (m + 1) hm⟩⟩
  · rintro ⟨h0, h⟩
    refine ⟨fun m hm => (h m hm).1, fun m hm => ?_⟩
    cases m with
    | zero => exact h0
    | succ m => exact (h m hm).2

/-- The base loop ends where it comes to and all ranks stop. -/
theorem baseEnds_iff {n : ℕ} : BaseEnds cfg ranks n ↔ BaseComes cfg ranks n ∧
    ∀ i, fpContinue cfg ((ranks i).baseRead n) n (baseMax ranks n) = false :=
  ⟨fun h => ⟨⟨h.goes, h.faultless⟩, h.stops⟩, fun h => ⟨h.1.goes, h.1.faultless, h.2⟩⟩

/-- A loop of repairs goes on while all ranks do and none of them faults. -/
theorem repairComes_iff {i k : ℕ} : RepairComes cfg ranks i k ↔
    Comes (fun j l => gateRepairContinue cfg ((ranks j).gateRead i l) l (gateMax ranks i l))
      (fun l => ¬ GateFaulty ranks i l) k :=
  ⟨fun h l hl => ⟨h.goes l hl, h.faultless l hl⟩,
    fun h => ⟨fun l hl => (h l hl).1, fun l hl => (h l hl).2⟩⟩

/-- A loop of repairs ends where it comes to and all ranks stop. -/
theorem repairEnds_iff {i k : ℕ} : RepairEnds cfg ranks i k ↔ RepairComes cfg ranks i k ∧
    ∀ j, gateRepairContinue cfg ((ranks j).gateRead i k) k (gateMax ranks i k) = false :=
  ⟨fun h => ⟨⟨h.goes, h.faultless⟩, h.stops⟩, fun h => ⟨h.1.goes, h.1.faultless, h.2⟩⟩

/-! ### Files that nobody rewrites -/

/-- At each verdict all ranks read the same. -/
structure SameReads (ranks : Fin (w + 1) → Rank) : Prop where
  baseRead : ∀ i j n, (ranks i).baseRead n = (ranks j).baseRead n
  baseTol : ∀ i j, (ranks i).baseTol = (ranks j).baseTol
  gateRead : ∀ i j e k, (ranks i).gateRead e k = (ranks j).gateRead e k
  gateTol : ∀ i j e, (ranks i).gateTol e = (ranks j).gateTol e

/-- While nobody rewrites the files between the reads of two ranks, the verdicts are the same. -/
theorem SameReads.sameVerdicts (h : SameReads ranks) (cfg : Config) : SameVerdicts cfg ranks where
  base n _ i j := by rw [h.baseRead i j]
  complete _ n _ i j := by rw [h.baseTol i j]
  gate i _ := ⟨fun k _ j j' => by rw [h.gateRead j j'], fun k _ j j' => by rw [h.gateTol j j']⟩

end VllmMoet.Replay
