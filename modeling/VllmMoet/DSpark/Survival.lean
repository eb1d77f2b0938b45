import VllmMoet.DSpark.Widths
import VllmMoet.Lib.Transition

/-!
# Calibrating the predicted survival

With every proposal the drafter predicts, for each draft, the probability that it and the drafts
before it are accepted. `observe_verified` compares this with what was accepted: one step later it
counts, column by column, the drafts that were verified and those that survived, and adds up
what was predicted for them. It knows the proposals by what the last step stored for each request:
the width (`perreq_len`) and the predictions (`_surv_state`).

With a confidence threshold and no widths of the requests, `_finalize_draft` pads the proposals to
one width with tokens that the rejection sampler rejects, but stores the full width.

* `observe`, `updateSurvival`, `finalizeDraft`: a step of the drafter, and `calibrating`, any
  sequence of them, in which requests come and go.
* `observedJ`, `Real`: what is counted, and what was a drafted token offered for verification.
* `record`: the ledger of the drafted tokens, which is no part of the drafter and knows nothing of
  widths and stored predictions.
* `observed_real_iff`: when what is counted is real, and the counters agree with the ledger.

The survivals, their averages and the ratios are exact numbers here. Which widths they lead to does
not matter for what is counted, only that no width exceeds the drafts (`widthsOf_le`).
-/

namespace VllmMoet

namespace DSpark

open Finset (range)

/-- The options of the scheduler. -/
structure Config where
  /-- `num_speculative_tokens` -/
  gamma : ℕ
  /-- `dspark_per_request` -/
  perreq : Bool
  /-- `dspark_confidence_threshold` -/
  tau : ℚ
  /-- `dspark_budget_frac` -/
  budgetFrac : Binary64

/-- The proposals are padded to one width. -/
def Config.Pads (cfg : Config) : Prop := cfg.perreq = false ∧ 0 < cfg.tau

instance (cfg : Config) : Decidable cfg.Pads := inferInstanceAs (Decidable (_ ∧ _))

/-- A column of a proposal: a drafted token with the survival predicted for it, or a pad. -/
inductive Cell
  | token (survival : ℚ)
  | pad
  deriving DecidableEq

/-- What a step did with the drafts of a request. -/
inductive Outcome
  /-- a chunk of the prompt: nothing is sampled -/
  | chunk
  /-- `offered` drafts were verified, and the target agrees with the first `agreed` tokens -/
  | verified (offered agreed : ℕ)
  deriving DecidableEq

/-- The drafts of a request that were verified. -/
def Outcome.offered : Outcome → ℕ
  | .chunk => 0
  | .verified offered _ => offered

/-- The drafts the target agrees with. -/
def Outcome.agreed : Outcome → ℕ
  | .chunk => 0
  | .verified _ agreed => agreed

/-- A batch: the request in each row, what happened to it, and what is predicted for its next
drafts. -/
structure Batch where
  numReqs : ℕ
  /-- `idx_mapping`: a request has one row -/
  idx : ℕ → ℕ
  inj : ∀ i < numReqs, ∀ k < numReqs, idx i = idx k → i = k
  outcome : ℕ → Outcome
  /-- `_survival` -/
  survival : ℕ → ℕ → ℚ

/-- Counts for each column: survivors, observations and the sum of the predictions. They are
singles, which hold the first two exactly below 2^24; here they are exact. -/
structure Counts where
  acc : ℕ → ℕ
  obs : ℕ → ℕ
  pred : ℕ → ℚ

/-- The counts before the first step. -/
def Counts.zero : Counts := ⟨fun _ => 0, fun _ => 0, fun _ => 0⟩

/-- The counts of a batch are added column by column. -/
def Counts.add (n : ℕ) (observed survived : ℕ → ℕ → Bool) (predicted : ℕ → ℕ → ℚ) (x : Counts) :
    Counts where
  acc c := x.acc c + ((range n).filter fun i => survived i c = true).card
  obs c := x.obs c + ((range n).filter fun i => observed i c = true).card
  pred c := x.pred c + ∑ i ∈ range n, if observed i c then predicted i c else 0

/-- The rows `_surv_host` that are being read out. -/
structure Readout where
  ema : ℕ → ℚ
  counts : Counts

/-- The averages and ratios that are made of the counts. -/
structure Calibration where
  /-- `_surv_ema_t`, and what of it the host has read -/
  emaT : Option (ℕ → ℚ)
  ema : Option (ℕ → ℚ)
  emaCt : ℕ
  /-- a readout that was launched -/
  inflight : Option Readout
  /-- `_cal`, copied to `_cal_t` -/
  cal : ℕ → ℚ
  /-- `_cal_prev_acc`, `_cal_prev_obs`, `_cal_prev_pred` -/
  prev : Counts

/-- The calibration before the first step. -/
def Calibration.init : Calibration where
  emaT := none
  ema := none
  emaCt := 0
  inflight := none
  cal := fun _ => 1
  prev := .zero

/-- The columns of a readout that have enough new observations. -/
def Calibration.due (x : Calibration) (r : Counts) (c : ℕ) : Prop :=
  x.prev.obs c + 64 ≤ r.obs c ∧ 1 / 1000 < r.pred c - x.prev.pred c

instance (x : Calibration) (r : Counts) (c : ℕ) : Decidable (x.due r c) :=
  inferInstanceAs (Decidable (_ ∧ _))

/-- A readout is consumed: the ratios of the columns that are due move. -/
def Calibration.consume (x : Calibration) (r : Readout) : Calibration :=
  { x with
    ema := some r.ema
    inflight := none
    cal := fun c =>
      if x.due r.counts c then
        4 / 5 * x.cal c + 1 / 5 *
          min (max (((r.counts.acc c : ℚ) - x.prev.acc c) / (r.counts.pred c - x.prev.pred c))
            (1 / 4)) 4
      else x.cal c
    prev :=
      { acc := fun c => if x.due r.counts c then r.counts.acc c else x.prev.acc c
        obs := fun c => if x.due r.counts c then r.counts.obs c else x.prev.obs c
        pred := fun c => if x.due r.counts c then r.counts.pred c else x.prev.pred c } }

/-- The calibration part of `update_survival`; `landed` says whether a launched readout is there. -/
def Calibration.update (x : Calibration) (counts : Counts) (b : Batch) (landed : Bool) :
    Calibration :=
  let m := fun c => (∑ i ∈ range b.numReqs, b.survival i c) / b.numReqs
  let emaT := match x.emaT with
    | none => m
    | some e => fun c => e c * (9 / 10) + m c * (1 / 10)
  let x := { x with emaT := some emaT, emaCt := x.emaCt + 1 }
  let x := match x.inflight with
    | some r => if landed then x.consume r else x
    | none => x
  if x.inflight.isNone ∧ x.emaCt % 4 = 0 then { x with inflight := some ⟨emaT, counts⟩ } else x

/-- Rows are written at the indices of a batch. -/
def assign {α : Type} (b : Batch) (v f : ℕ → α) (x : ℕ) : α :=
  match (List.range b.numReqs).find? fun i => b.idx i = x with
  | some i => v i
  | none => f x

/-- The drafter and its scheduler. -/
structure Drafter where
  /-- `_prev_sched_l` -/
  prevSchedL : ℕ
  /-- by request: the width of its proposal, the columns that are not pads, and what was predicted
  for them -/
  perreqLen : ℕ → ℕ
  validDraftLen : ℕ → ℕ
  survState : ℕ → ℕ → ℚ
  counts : Counts
  calibration : Calibration
  /-- the last proposal for the request, if it has had one -/
  proposal : ℕ → Option (List Cell)
  /-- the drafted tokens of proposals that were verified whole -/
  ledger : Counts

section Step

variable (cfg : Config) (s : Drafter) (b : Batch)

/-- What the rejection sampler can accept in a row: columns beyond `valid_draft_len`, which
is there if there is a threshold, are rejected. -/
def verifiable (i : ℕ) : ℕ :=
  if 0 < cfg.tau then min (b.outcome i).offered (s.validDraftLen (b.idx i))
  else (b.outcome i).offered

/-- `num_sampled` -/
def numSampled (i : ℕ) : ℕ :=
  match b.outcome i with
  | .chunk => 0
  | .verified _ agreed => 1 + min agreed (verifiable cfg s b i)

/-- `num_rejected`: the logits that were not sampled. -/
def numRejected (i : ℕ) : ℕ :=
  match b.outcome i with
  | .chunk => 0
  | .verified offered _ => 1 + offered - numSampled cfg s b i

/-- The row was verified at the width that is stored for it. -/
def Full (i : ℕ) : Prop :=
  numSampled cfg s b i + numRejected cfg s b i = 1 + s.perreqLen (b.idx i)

instance (i : ℕ) : Decidable (Full cfg s b i) := inferInstanceAs (Decidable (_ = _))

/-- `observed_j` -/
def observedJ (i c : ℕ) : Bool := decide (c + 1 ≤ s.perreqLen (b.idx i)) && decide (Full cfg s b i)

/-- `surv_j` -/
def survJ (i c : ℕ) : Bool :=
  decide (c + 1 ≤ numSampled cfg s b i - 1) && observedJ cfg s b i c

/-- The prediction for a drafted token of a proposal that is offered whole. -/
def token (i c : ℕ) : Option ℚ :=
  match s.proposal (b.idx i) with
  | none => none
  | some p =>
    if (b.outcome i).offered = p.length then
      match p[c]? with
      | some (.token survival) => some survival
      | _ => none
    else none

/-- `observe_verified` -/
def observe : Drafter :=
  if s.prevSchedL = 0 then s
  else
    { s with
      counts := s.counts.add b.numReqs (observedJ cfg s b) (survJ cfg s b) fun i =>
        s.survState (b.idx i) }

/-- The step before proposed drafts, if only for other requests. -/
def Sampled : Prop := s.prevSchedL ≠ 0

instance : Decidable (Sampled s) := inferInstanceAs (Decidable (_ ≠ _))

/-- What the ledger says after a step. Its sample are the drafted tokens of the proposals that were
offered whole, in the steps that follow one that drafts: a proposal that the scheduler has cut tells
nothing about the columns that it has cut off. -/
def record : Counts :=
  if Sampled s then
    s.ledger.add b.numReqs (fun i c => (token s b i c).isSome)
      (fun i c => decide (c < (b.outcome i).agreed) && (token s b i c).isSome)
      fun i c => (token s b i c).getD 0
  else s.ledger

/-- `update_survival` -/
def updateSurvival (landed : Bool) : Drafter :=
  { s with
    calibration := s.calibration.update s.counts b landed
    survState := assign b b.survival s.survState }

/-- `confidence_widths` -/
def confidenceWidths (length i : ℕ) : ℕ :=
  ((range length).filter fun c => cfg.tau ≤ b.survival i c).card

/-- `allocate_widths`, with exact scores. -/
def requestWidths (length i : ℕ) : ℕ :=
  widthsOf (fun i c => b.survival i c * s.calibration.cal c)
    (if 0 < cfg.tau then some cfg.tau else none) b.numReqs length
    (budget b.numReqs length cfg.budgetFrac) i

/-- The proposal of a row. -/
def proposalOf (width keep i : ℕ) : List Cell :=
  (List.range width).map fun c => if c < keep then .token (b.survival i c) else .pad

/-- `_finalize_draft` -/
def finalizeDraft (length : ℕ) (landed : Bool) : Drafter :=
  if length = 0 then
    { s with
      prevSchedL := 0
      perreqLen := assign b (fun _ => 0) s.perreqLen
      proposal := assign b (fun _ => some []) s.proposal }
  else
    let s := updateSurvival s b landed
    if cfg.perreq then
      let keep := requestWidths cfg s b length
      { s with
        prevSchedL := cfg.gamma
        perreqLen := assign b keep s.perreqLen
        proposal := assign b (fun i => some (proposalOf b (keep i) (keep i) i)) s.proposal }
    else if 0 < cfg.tau then
      let keep := confidenceWidths cfg b length
      { s with
        prevSchedL := length
        perreqLen := assign b (fun _ => length) s.perreqLen
        validDraftLen := assign b keep s.validDraftLen
        proposal := assign b (fun i => some (proposalOf b length (keep i) i)) s.proposal }
    else
      { s with
        prevSchedL := length
        perreqLen := assign b (fun _ => length) s.perreqLen
        proposal := assign b (fun i => some (proposalOf b length length i)) s.proposal }

/-- A request without a proposal is offered no drafts. -/
def Offers : Prop := ∀ i < b.numReqs, (s.proposal (b.idx i)).isNone → (b.outcome i).offered = 0

instance : Decidable (Offers s b) := inferInstanceAs (Decidable (∀ i < b.numReqs, _))

/-- A request takes a place, or a batch has been verified and is drafted with a width. -/
inductive Label
  | arrive (idx : ℕ)
  | propose (b : Batch) (length : ℕ) (landed : Bool)

/-- One step. -/
def step : Label → Option Drafter
  | .arrive idx => some { s with proposal := Function.update s.proposal idx none }
  | .propose b length landed =>
    if Offers s b ∧ length ≤ cfg.gamma then
      some (finalizeDraft cfg { observe cfg s b with ledger := record s b } b length landed)
    else none

/-- Nothing has been proposed or counted. -/
structure Start : Prop where
  prevSchedL : s.prevSchedL = 0
  perreqLen : ∀ x, s.perreqLen x = 0
  validDraftLen : ∀ x, s.validDraftLen x = cfg.gamma
  counts : s.counts = .zero
  calibration : s.calibration = .init
  proposal : ∀ x, s.proposal x = none
  ledger : s.ledger = .zero

/-- Every sequence of steps. -/
def calibrating : TransitionSystem Drafter Label := .ofStep (Start cfg) (step cfg)

/-- A draft that was offered for verification, and was drafted with the stored prediction. -/
def Real (i c : ℕ) : Prop :=
  ∃ p, s.proposal (b.idx i) = some p ∧ c < (b.outcome i).offered ∧
    p[c]? = some (.token (s.survState (b.idx i) c))

/-- No row that was verified in full width was padded when it was drafted. -/
def Unpadded : Prop :=
  ∀ i < b.numReqs, Full cfg s b i → s.perreqLen (b.idx i) ≤ s.validDraftLen (b.idx i)

/-- The steps that count no pads: nothing was drafted in the step before, or no row that is counted
was padded. -/
def Clean : Label → Prop
  | .arrive _ => True
  | .propose b _ _ => s.prevSchedL = 0 ∨ Unpadded cfg s b

end Step

/-! ### Rows and counts -/

section Rows

variable {b : Batch}

/-- A place is written by a row or keeps what it holds. -/
theorem assign_cases (b : Batch) (x : ℕ) :
    (∃ i, i < b.numReqs ∧ b.idx i = x ∧ ∀ {α : Type} (v f : ℕ → α), assign b v f x = v i) ∨
      ∀ {α : Type} (v f : ℕ → α), assign b v f x = f x := by
  cases hfind : (List.range b.numReqs).find? fun i => b.idx i = x with
  | none =>
    refine .inr fun v f => ?_
    rw [assign, hfind]
  | some i =>
    have hidx := List.find?_some hfind
    have hmem := List.mem_of_find?_eq_some hfind
    refine .inl ⟨i, List.mem_range.mp hmem, of_decide_eq_true hidx, fun v f => ?_⟩
    rw [assign, hfind]

/-- Counts only depend on the rows of the batch. -/
theorem Counts.add_congr {n : ℕ} {observed observed' survived survived' : ℕ → ℕ → Bool}
    {predicted predicted' : ℕ → ℕ → ℚ} (x : Counts)
    (hobs : ∀ i < n, ∀ c, observed i c = observed' i c)
    (hsurv : ∀ i < n, ∀ c, survived i c = survived' i c)
    (hpred : ∀ i < n, ∀ c, observed i c = true → predicted i c = predicted' i c) :
    x.add n observed survived predicted = x.add n observed' survived' predicted' := by
  rw [Counts.add, Counts.add, Counts.mk.injEq]
  refine ⟨funext fun c => ?_, funext fun c => ?_, funext fun c => ?_⟩
  · rw [Finset.filter_congr fun i hi => by rw [hsurv i (Finset.mem_range.mp hi) c]]
  · rw [Finset.filter_congr fun i hi => by rw [hobs i (Finset.mem_range.mp hi) c]]
  · refine congrArg _ (Finset.sum_congr rfl fun i hi => ?_)
    have hi := Finset.mem_range.mp hi
    rw [← hobs i hi c]
    split
    · next h => exact hpred i hi c h
    · rfl

end Rows

section Sampler

variable {cfg : Config} {s : Drafter} {b : Batch} {i c : ℕ}

/-- A row is verified in full width if the drafts offered are as many as the stored width. -/
theorem full_iff : Full cfg s b i ↔
    b.outcome i ≠ .chunk ∧ (b.outcome i).offered = s.perreqLen (b.idx i) := by
  rw [Full, numRejected, numSampled, verifiable]
  cases b.outcome i with
  | chunk =>
    refine ⟨fun h => ?_, fun h => absurd rfl h.1⟩
    have hzero : 0 + 0 = 1 + s.perreqLen (b.idx i) := h
    omega
  | verified offered agreed =>
    have hmin : min agreed (if 0 < cfg.tau then min offered (s.validDraftLen (b.idx i))
        else offered) ≤ offered := by
      refine (min_le_right _ _).trans ?_
      split
      · exact min_le_left _ _
      · exact le_rfl
    simp only [Outcome.offered, ne_eq, reduceCtorEq, not_false_eq_true, true_and]
    omega

theorem observedJ_iff :
    observedJ cfg s b i c = true ↔ c < s.perreqLen (b.idx i) ∧ Full cfg s b i := by
  rw [observedJ, Bool.and_eq_true, decide_eq_true_iff, decide_eq_true_iff, Nat.succ_le_iff]

end Sampler

/-! ### What is stored of a proposal -/

section Stored

variable {cfg : Config} {s t : Drafter} {b : Batch} {i c : ℕ}

/-- The proposal that the stored width, columns and predictions of a request describe. -/
def Drafter.described (s : Drafter) (x : ℕ) : List Cell :=
  (List.range (s.perreqLen x)).map fun c =>
    if c < s.validDraftLen x then .token (s.survState x c) else .pad

/-- What is stored for a request is its last proposal. -/
structure Drafter.Ok (cfg : Config) (s : Drafter) : Prop where
  width : ∀ x, s.perreqLen x ≤ cfg.gamma
  valid : ¬ cfg.Pads → ∀ x, s.validDraftLen x = cfg.gamma
  proposal : ∀ x p, s.proposal x = some p → p = s.described x

theorem getElem?_described (x : ℕ) (hc : c < s.perreqLen x) :
    (s.described x)[c]? =
      some (if c < s.validDraftLen x then .token (s.survState x c) else .pad) := by
  rw [Drafter.described, List.getElem?_map, List.getElem?_range hc, Option.map_some]

theorem length_described (x : ℕ) : (s.described x).length = s.perreqLen x := by
  rw [Drafter.described, List.length_map, List.length_range]

/-- A proposal of which the first `keep` columns are not pads. -/
theorem proposalOf_eq {width keep : ℕ} (hw : s.perreqLen c = width)
    (hkeep : ∀ j < width, j < keep ↔ j < s.validDraftLen c) (hsurv : s.survState c = b.survival i) :
    proposalOf b width keep i = s.described c := by
  rw [proposalOf, Drafter.described, hw, hsurv]
  refine List.map_congr_left fun j hj => ?_
  rw [if_congr (hkeep j (List.mem_range.mp hj)) rfl rfl]

/-- A batch drafted with a width for each row, of which `keep` columns are tokens, and whose widths,
columns and predictions are stored. -/
theorem Drafter.Ok.drafted (h : s.Ok cfg) {width keep : ℕ → ℕ} (hwidth : ∀ i, width i ≤ cfg.gamma)
    (hperreq : t.perreqLen = assign b width s.perreqLen)
    (hvalid : cfg.Pads ∧ t.validDraftLen = assign b keep s.validDraftLen ∨
      ¬ cfg.Pads ∧ t.validDraftLen = s.validDraftLen ∧ keep = width)
    (hsurv : t.survState = assign b b.survival s.survState)
    (hproposal : t.proposal =
      assign b (fun i => some (proposalOf b (width i) (keep i) i)) s.proposal) : t.Ok cfg := by
  refine ⟨fun x => ?_, fun hno x => ?_, fun x p hp => ?_⟩
  · rcases assign_cases b x with ⟨i, -, -, hx⟩ | hx
    · rw [hperreq, hx]
      exact hwidth i
    · rw [hperreq, hx]
      exact h.width x
  · obtain ⟨-, hkept, -⟩ := hvalid.resolve_left fun hpads => hno hpads.1
    rw [hkept, h.valid hno x]
  · rcases assign_cases b x with ⟨i, -, -, hx⟩ | hx
    · rw [hproposal, hx] at hp
      obtain rfl := Option.some.inj hp
      refine proposalOf_eq (by rw [hperreq, hx]) (fun j hj => ?_) (by rw [hsurv, hx])
      rcases hvalid with ⟨-, hvalid⟩ | ⟨hno, hvalid, rfl⟩
      · rw [hvalid, hx]
      · -- without pads every column is a token
        rw [hvalid, h.valid hno x]
        exact ⟨fun _ => hj.trans_le (hwidth i), fun _ => hj⟩
    · rw [hproposal, hx] at hp
      rw [h.proposal x p hp, described, described, hperreq, hsurv, hx, hx]
      rcases hvalid with ⟨-, hvalid⟩ | ⟨-, hvalid, -⟩
      · rw [hvalid, hx]
      · rw [hvalid]

theorem Drafter.Ok.finalizeDraft (h : s.Ok cfg) {length : ℕ} (hlength : length ≤ cfg.gamma)
    (landed : Bool) : (finalizeDraft cfg s b length landed).Ok cfg := by
  rw [DSpark.finalizeDraft]
  split
  · refine ⟨fun x => ?_, h.valid, fun x p hp => ?_⟩
    · rcases assign_cases b x with ⟨i, -, -, hx⟩ | hx
      · exact (hx _ _).trans_le (Nat.zero_le _)
      · exact (hx _ _).trans_le (h.width x)
    · rcases assign_cases b x with ⟨i, -, -, hx⟩ | hx
      · change assign b (fun _ => some []) s.proposal x = some p at hp
        rw [hx] at hp
        obtain rfl := Option.some.inj hp
        rw [described]
        dsimp only
        rw [hx]
        rfl
      · rw [h.proposal x p ((hx _ _).symm.trans hp), described, described]
        dsimp only
        rw [hx]
  · by_cases hperreq : cfg.perreq = true
    · have hno : ¬ cfg.Pads := fun hpads => Bool.false_ne_true (hpads.1.symm.trans hperreq)
      rw [if_pos hperreq]
      exact h.drafted (fun i => (widthsOf_le _ i).trans hlength) rfl (.inr ⟨hno, rfl, rfl⟩)
        rfl rfl
    · rw [if_neg hperreq]
      split
      · next htau =>
        have hpads : cfg.Pads := ⟨Bool.eq_false_iff.mpr hperreq, htau⟩
        exact h.drafted (fun _ => hlength) rfl (.inl ⟨hpads, rfl⟩) rfl rfl
      · next htau =>
        have hno : ¬ cfg.Pads := fun hpads => htau hpads.2
        exact h.drafted (fun _ => hlength) rfl (.inr ⟨hno, rfl, rfl⟩) rfl rfl

/-- Observing changes the counts only, and the ledger is no part of what is stored. -/
theorem Drafter.Ok.observe (h : s.Ok cfg) (b : Batch) (ledger : Counts) :
    ({ observe cfg s b with ledger := ledger } : Drafter).Ok cfg := by
  rw [DSpark.observe]
  split <;> exact ⟨h.width, h.valid, h.proposal⟩

theorem Drafter.Ok.start (h : Start cfg s) : s.Ok cfg where
  width x := (h.perreqLen x).trans_le (Nat.zero_le _)
  valid _ := h.validDraftLen
  proposal x p hp := absurd ((h.proposal x).symm.trans hp) (Option.some_ne_none p).symm

/-- The step lemma. -/
theorem Drafter.Ok.step {l : Label} (h : s.Ok cfg) (ht : step cfg s l = some t) : t.Ok cfg := by
  cases l with
  | arrive idx =>
    obtain rfl := Option.some.inj ht
    refine ⟨h.width, h.valid, fun x p hp => ?_⟩
    by_cases hx : x = idx
    · subst hx
      exact absurd ((Function.update_self x _ _).symm.trans hp) (Option.some_ne_none p).symm
    · exact h.proposal x p ((Function.update_of_ne hx _ _).symm.trans hp)
  | propose b length landed =>
    obtain ⟨⟨-, hlength⟩, ht⟩ := Option.ite_none_right_eq_some.mp ht
    obtain rfl := Option.some.inj ht
    exact (h.observe b _).finalizeDraft hlength landed

theorem drafter_ok_invariant (cfg : Config) : (calibrating cfg).Invariant (Drafter.Ok cfg) where
  start _ h := .start h
  step _ _ _ _ h ht := h.step ht

/-! ### What is counted -/

/-- A row without a proposal is not verified in a positive width. -/
theorem exists_proposal (h : s.Ok cfg) (hoffers : Offers s b) (hi : i < b.numReqs)
    (hfull : Full cfg s b i) (hc : c < s.perreqLen (b.idx i)) :
    s.proposal (b.idx i) = some (s.described (b.idx i)) := by
  cases hp : s.proposal (b.idx i) with
  | none =>
    have hzero := hoffers i hi (by rw [hp]; rfl)
    have hwidth := (full_iff.mp hfull).2
    omega
  | some p => rw [h.proposal _ p hp]

/-- A column that is counted is a drafted token unless it is a pad. -/
theorem real_iff (h : s.Ok cfg) (hoffers : Offers s b) (hi : i < b.numReqs)
    (hfull : Full cfg s b i) (hc : c < s.perreqLen (b.idx i)) :
    Real s b i c ↔ c < s.validDraftLen (b.idx i) := by
  have hp := exists_proposal h hoffers hi hfull hc
  have hcell := getElem?_described (b.idx i) hc
  have hoffered := (full_iff.mp hfull).2
  constructor
  · rintro ⟨p, hp', -, htoken⟩
    obtain rfl := Option.some.inj (hp.symm.trans hp')
    by_contra hpad
    rw [if_neg hpad] at hcell
    exact Cell.noConfusion (Option.some.inj (hcell.symm.trans htoken))
  · intro hvalid
    rw [if_pos hvalid] at hcell
    exact ⟨_, hp, hoffered ▸ hc, hcell⟩

/-- The step's observations are all real exactly if no row that counts was padded. -/
theorem real_of_observed_iff (h : s.Ok cfg) (hoffers : Offers s b) :
    (∀ i < b.numReqs, ∀ c, observedJ cfg s b i c = true → Real s b i c) ↔ Unpadded cfg s b := by
  constructor
  · intro hreal i hi hfull
    by_contra hlt
    -- the first pad is counted
    have hc := not_le.mp hlt
    have hpad := hreal i hi _ (observedJ_iff.mpr ⟨hc, hfull⟩)
    exact absurd ((real_iff h hoffers hi hfull hc).mp hpad) (lt_irrefl _)
  · intro hun i hi c hobs
    obtain ⟨hc, hfull⟩ := observedJ_iff.mp hobs
    exact (real_iff h hoffers hi hfull hc).mpr (hc.trans_le (hun i hi hfull))

/-- Without pads the columns that are counted are the drafted tokens of the proposals that were
offered whole. -/
theorem token_eq (h : s.Ok cfg) (hoffers : Offers s b) (hun : Unpadded cfg s b)
    (hi : i < b.numReqs) :
    token s b i c = if observedJ cfg s b i c then some (s.survState (b.idx i) c) else none := by
  by_cases hobs : observedJ cfg s b i c = true
  · obtain ⟨hc, hfull⟩ := observedJ_iff.mp hobs
    have hoffered := (full_iff.mp hfull).2
    rw [if_pos hobs, token, exists_proposal h hoffers hi hfull hc]
    dsimp only
    rw [if_pos (hoffered.trans (length_described _).symm), getElem?_described _ hc,
      if_pos (hc.trans_le (hun i hi hfull))]
  · rw [if_neg hobs, token]
    cases hp : s.proposal (b.idx i) with
    | none => rfl
    | some p =>
      dsimp only
      split
      · next hwhole =>
        rw [h.proposal _ p hp, length_described] at hwhole
        -- the column is beyond the width
        have hout : s.perreqLen (b.idx i) ≤ c := by
          by_contra hc
          have hc := not_le.mp hc
          have hverified : b.outcome i ≠ .chunk := by
            intro hchunk
            rw [hchunk, Outcome.offered] at hwhole
            omega
          exact hobs (observedJ_iff.mpr ⟨hc, full_iff.mpr ⟨hverified, hwhole⟩⟩)
        rw [List.getElem?_eq_none]
        rw [h.proposal _ p hp, length_described]
        exact hout
      · rfl

/-- Of the columns that are counted, those survive that the target agrees with. -/
theorem survJ_eq (hun : Unpadded cfg s b) (hi : i < b.numReqs) :
    survJ cfg s b i c = (decide (c < (b.outcome i).agreed) && observedJ cfg s b i c) := by
  rw [survJ]
  by_cases hobs : observedJ cfg s b i c = true
  · obtain ⟨hc, hfull⟩ := observedJ_iff.mp hobs
    obtain ⟨hverified, hoffered⟩ := full_iff.mp hfull
    have hvalid := hun i hi hfull
    rw [hobs, Bool.and_true, Bool.and_true, decide_eq_decide, numSampled, verifiable]
    cases hout : b.outcome i with
    | chunk => exact absurd hout hverified
    | verified offered agreed =>
      rw [hout] at hoffered
      have hwidth : offered = s.perreqLen (b.idx i) := hoffered
      have hcap : (if 0 < cfg.tau then min offered (s.validDraftLen (b.idx i)) else offered) =
          offered := by
        split
        · exact min_eq_left (hwidth.trans_le hvalid)
        · rfl
      simp only [Outcome.offered, Outcome.agreed, hcap]
      omega
  · rw [Bool.eq_false_iff.mpr hobs, Bool.and_false, Bool.and_false]

/-- A step that counts no pads counts what the ledger counts. -/
theorem counts_observe (h : s.Ok cfg) (hoffers : Offers s b)
    (hclean : s.prevSchedL = 0 ∨ Unpadded cfg s b) (heq : s.counts = s.ledger) :
    (observe cfg s b).counts = record s b := by
  rw [observe, record]
  by_cases hprev : s.prevSchedL = 0
  · have hno : ¬ Sampled s := not_not.mpr hprev
    rw [if_pos hprev, if_neg hno]
    exact heq
  · have hsampled : Sampled s := hprev
    rw [if_neg hprev, if_pos hsampled]
    have hun := hclean.resolve_left hprev
    have htoken : ∀ i < b.numReqs, ∀ c, token s b i c =
        if observedJ cfg s b i c then some (s.survState (b.idx i) c) else none :=
      fun i hi c => token_eq h hoffers hun hi
    have hobs : ∀ i < b.numReqs, ∀ c, observedJ cfg s b i c = (token s b i c).isSome := by
      intro i hi c
      rw [htoken i hi c]
      cases observedJ cfg s b i c <;> rfl
    dsimp only
    rw [heq]
    refine Counts.add_congr _ hobs ?_ ?_
    · intro i hi c
      rw [← hobs i hi c, survJ_eq hun hi]
    · intro i hi c hc
      rw [htoken i hi c, if_pos hc]
      rfl

theorem finalizeDraft_counts (cfg : Config) (s : Drafter) (b : Batch) (length : ℕ)
    (landed : Bool) :
    (finalizeDraft cfg s b length landed).counts = s.counts ∧
      (finalizeDraft cfg s b length landed).ledger = s.ledger := by
  rw [finalizeDraft]
  dsimp only
  split_ifs <;> exact ⟨rfl, rfl⟩

/-- The step lemma of the counts. -/
theorem counts_step {l : Label} (h : s.Ok cfg) (hclean : Clean cfg s l)
    (heq : s.counts = s.ledger) (ht : step cfg s l = some t) : t.counts = t.ledger := by
  cases l with
  | arrive idx =>
    obtain rfl := Option.some.inj ht
    exact heq
  | propose b length landed =>
    obtain ⟨⟨hoffers, -⟩, ht⟩ := Option.ite_none_right_eq_some.mp ht
    obtain rfl := Option.some.inj ht
    obtain ⟨hcounts, hledger⟩ := finalizeDraft_counts cfg
      { observe cfg s b with ledger := record s b } b length landed
    rw [hcounts, hledger]
    exact counts_observe h hoffers hclean heq

/-- Without a threshold, or with widths of the requests, nothing is padded. -/
theorem unpadded_of_not_pads (h : s.Ok cfg) (hno : ¬ cfg.Pads) (b : Batch) : Unpadded cfg s b :=
  fun _ _ _ => (h.width _).trans_eq (h.valid hno _).symm

/-- Every run: what a step adds is all about drafted tokens that were offered for verification, with
the prediction stored when they were drafted, exactly if the step before drafted nothing or no row
that was verified in full width had been padded. If that is so in every step of a run, the counts
are those of the drafted tokens; without a threshold, or with widths of the requests, it is so in
every run. -/
theorem observed_real_iff (cfg : Config) :
    (∀ s, (calibrating cfg).Reachable s → ∀ b, Offers s b →
      ((s.prevSchedL ≠ 0 →
          ∀ i < b.numReqs, ∀ c, observedJ cfg s b i c = true → Real s b i c) ↔
        s.prevSchedL = 0 ∨ Unpadded cfg s b)) ∧
    (∀ s, ((calibrating cfg).onlySteps (Clean cfg)).Reachable s → s.counts = s.ledger) ∧
    (¬ cfg.Pads → ∀ s, (calibrating cfg).Reachable s → s.counts = s.ledger) := by
  have hok : ∀ {s : Drafter}, (calibrating cfg).Reachable s → s.Ok cfg :=
    (drafter_ok_invariant cfg).holds
  refine ⟨fun s hs b hoffers => ?_, ?_, ?_⟩
  · rw [← real_of_observed_iff (hok hs) hoffers, or_iff_not_imp_left]
  · intro s hs
    induction hs with
    | start h => exact h.counts.trans h.ledger.symm
    | step hreach hstep ih => exact counts_step (hok hreach.of_onlySteps) hstep.1 ih hstep.2
  · intro hno s hs
    induction hs with
    | start h => exact h.counts.trans h.ledger.symm
    | @step s t l hreach hstep ih =>
      have hclean : Clean cfg s l := by
        cases l with
        | arrive idx => trivial
        | propose b length landed => exact .inr (unpadded_of_not_pads (hok hreach) hno b)
      exact counts_step (hok hreach) hclean ih hstep

end Stored

/-! ### A pad that is counted -/

/-- Two drafts, a threshold, and one width for all requests. -/
def padConfig : Config where
  gamma := 2
  perreq := false
  tau := 1 / 2
  budgetFrac := ⟨false, 1, 0⟩

/-- Nothing drafted, nothing counted. -/
def newDrafter (cfg : Config) : Drafter where
  prevSchedL := 0
  perreqLen := fun _ => 0
  validDraftLen := fun _ => cfg.gamma
  survState := fun _ _ => 0
  counts := .zero
  calibration := .init
  proposal := fun _ => none
  ledger := .zero

theorem start_newDrafter (cfg : Config) : Start cfg (newDrafter cfg) :=
  ⟨rfl, fun _ => rfl, fun _ => rfl, rfl, rfl, fun _ => rfl, rfl⟩

/-- A batch of one request. -/
def oneRow (outcome : Outcome) (survival : ℕ → ℚ) : Batch where
  numReqs := 1
  idx := fun _ => 0
  inj := fun _ hi _ hk _ => (Nat.lt_one_iff.mp hi).trans (Nat.lt_one_iff.mp hk).symm
  outcome := fun _ => outcome
  survival := fun _ => survival

/-- The predictions fall below the threshold at the second draft. -/
def fallingRow (c : ℕ) : ℚ := if c = 0 then 9 / 10 else 1 / 5

/-- The prompt's step, in which two drafts are proposed, the second of them a pad. -/
def promptStep : Label := .propose (oneRow (.verified 0 0) fallingRow) 2 false

/-- The step that verifies them; the target agrees with the first. -/
def verifyRow : Batch := oneRow (.verified 2 1) fallingRow

/-- The second draft is a pad, and the next step counts it as a draft that failed. -/
theorem pad_observed : ∃ s t, (calibrating padConfig).Reachable s ∧ Offers s verifyRow ∧
    step padConfig s (.propose verifyRow 2 false) = some t ∧
    s.proposal 0 = some [.token (9 / 10), .pad] ∧
    observedJ padConfig s verifyRow 0 1 = true ∧ ¬ Real s verifyRow 0 1 ∧
    s.prevSchedL = 2 ∧ s.counts.obs 1 = 0 ∧ t.counts.obs 1 = 1 ∧ t.counts.acc 1 = 0 := by
  obtain ⟨s, hs, hP⟩ := TransitionSystem.exists_reachable_of_run (step padConfig)
    (start_newDrafter padConfig) [promptStep]
    (fun s => decide (s.proposal 0 = some [.token (9 / 10), .pad] ∧ Offers s verifyRow ∧
      observedJ padConfig s verifyRow 0 1 = true ∧ s.prevSchedL = 2 ∧ s.counts.obs 1 = 0 ∧
      (step padConfig s (.propose verifyRow 2 false)).any (fun t =>
        decide (t.counts.obs 1 = 1 ∧ t.counts.acc 1 = 0)) = true)) (by decide +kernel)
  obtain ⟨hproposal, hoffers, hobs, hprev, hzero, hany⟩ := of_decide_eq_true hP
  obtain ⟨t, ht, hcounted⟩ := (Option.any_eq_true _ _).mp hany
  obtain ⟨hone, hnone⟩ := of_decide_eq_true hcounted
  refine ⟨s, t, hs, hoffers, ht, hproposal, hobs, ?_, hprev, hzero, hone, hnone⟩
  rintro ⟨p, hp, -, hcell⟩
  obtain rfl := Option.some.inj (hproposal.symm.trans hp)
  exact Cell.noConfusion (Option.some.inj hcell)

/-- The same with widths of the requests. -/
def perreqConfig : Config := { padConfig with perreq := true }

/-- The second draft is not offered, and the counts are right. -/
theorem observed_real_iff_perreq : ∃ s, (calibrating perreqConfig).Reachable s ∧
    s.counts.obs 0 = 1 ∧ s.counts.obs 1 = 0 ∧ s.counts = s.ledger := by
  obtain ⟨s, hs, hP⟩ := TransitionSystem.exists_reachable_of_run (step perreqConfig)
    (start_newDrafter perreqConfig)
    [promptStep, .propose (oneRow (.verified 1 1) fallingRow) 2 false]
    (fun s => decide (s.counts.obs 0 = 1 ∧ s.counts.obs 1 = 0)) (by decide +kernel)
  obtain ⟨hone, hzero⟩ := of_decide_eq_true hP
  obtain ⟨-, -, hcounts⟩ := observed_real_iff perreqConfig
  have hno : ¬ perreqConfig.Pads := fun h => Bool.noConfusion h.1
  exact ⟨s, hs, hone, hzero, hcounts hno s hs⟩

end DSpark

end VllmMoet
