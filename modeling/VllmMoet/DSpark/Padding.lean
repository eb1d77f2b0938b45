import Mathlib.Algebra.BigOperators.Group.Finset.Basic
import Mathlib.Data.Finset.Lattice.Fold
import Mathlib.Order.Lattice.Nat
import VllmMoet.Lib.Rows

/-!
# Padding a ragged verify batch

With widths of the requests, a batch of decode requests is ragged: a row has the last sampled token
and its own number of drafts. To replay a captured graph the runner gives all rows the largest width
(`padWidth`): the real tokens are a prefix of each span, the rest are pads. The layout is made by
several functions, each of which takes the real lengths from somewhere else: `prepareInputs`, with
the kernel that stores the last sampled tokens and the drafts, the masking of the KV slots, the
drafter's kernel for its context, and the accounting of computed tokens.

* `Base`: the functions of the runner that are called and left as they are.
* `Invisible`: what the padded layout must agree on with the unpadded one.
* `padded_ok_iff`: when it does. The width is chosen without a look at the size of the input
  buffers, and a prompt that has one token left passes for a decode row.
-/

namespace VllmMoet

namespace Padding

open Finset (range)

/-- What is scheduled, by row. -/
structure Batch where
  numReqs : ℕ
  /-- `num_scheduled_tokens` -/
  scheduled : ℕ → ℕ
  /-- the length of `scheduled_spec_decode_tokens` -/
  drafts : ℕ → ℕ
  /-- `last_sampled_tokens` and `draft_tokens` of the request -/
  lastSampled : ℕ → ℕ
  draftTokens : ℕ → ℕ → ℕ

/-- The options of the runner. -/
structure Runner where
  /-- `dspark_pad_to_bucket` -/
  padBucket : Bool
  decodeQueryLen : ℕ
  /-- the size of the input buffers -/
  maxNumTokens : ℕ
  dpSize : ℕ
  /-- `parallel_drafting_token_id` -/
  maskToken : ℕ

/-- The functions around the padding. A row has a position for each column of its span and a KV slot
for each position, in the target's cache and in the drafter's. The input ids hold the rest of the
prompt in the span of a row that has some left; the kernel that stores sampled tokens and drafts
leaves a row alone whose span ends within the prompt. -/
structure Base where
  position : ℕ → ℕ → ℕ
  slot : ℕ → ℕ → ℕ
  contextSlot : ℕ → ℕ → ℕ
  /-- the prompt of the row's request, from the first token that is not computed -/
  prompt : ℕ → ℕ → ℕ
  /-- a span of this length ends within the prompt -/
  inPrompt : ℕ → ℕ → Bool
  inPrompt_of_le : ∀ r k l, k ≤ l → inPrompt r l = true → inPrompt r k = true
  /-- the input ids before that kernel, for a number of rows and the lengths of their spans -/
  inputIds : ℕ → (ℕ → ℕ) → ℕ → ℕ
  inputIds_prompt : ∀ n len, ∀ r < n, inPrompt r 1 = true →
    ∀ j < len r, inputIds n len (offsets len r + j) = prompt r j
  /-- `get_uniform_token_count`, of the number of rows, the tokens and the longest row -/
  uniformTokenCount : ℕ → ℕ → ℕ → Option ℕ

/-- The pad decision of `execute_model`. -/
def padWidth (cfg : Runner) (base : Base) (b : Batch) (dummyRun : Bool) : Option ℕ :=
  let numToks := ∑ r ∈ range b.numReqs, b.scheduled r
  let maxQueryLen := (range b.numReqs).sup b.scheduled
  if cfg.padBucket ∧ dummyRun = false ∧
      base.uniformTokenCount b.numReqs numToks maxQueryLen = none ∧
      (∃ r < b.numReqs, 0 < b.drafts r) ∧ maxQueryLen ≤ cfg.decodeQueryLen ∧ cfg.dpSize = 1 then
    if ∀ r < b.numReqs, b.scheduled r = 1 + b.drafts r then some maxQueryLen else none
  else none

/-- The batch with its layout. -/
structure InputBatch where
  numTokens : ℕ
  queryStartLoc : ℕ → ℕ
  /-- set if the layout is padded -/
  realQueryStartLoc : Option (ℕ → ℕ)
  cuNumLogits : ℕ → ℕ
  logitsIndices : ℕ → ℕ
  inputIds : ℕ → ℕ
  positions : ℕ → ℕ

section Prepare

variable (cfg : Runner) (base : Base) (b : Batch)

/-- The logits of a row: one for the last sampled token and one for each draft. -/
def numLogits (r : ℕ) : ℕ := 1 + b.drafts r

/-- What the kernel stores in a row: the last sampled token and the drafts. -/
def combined (r j : ℕ) : ℕ := if j = 0 then b.lastSampled r else b.draftTokens r (j - 1)

/-- The lengths of the spans. -/
def spanLen : Option ℕ → ℕ → ℕ
  | none => b.scheduled
  | some padQ => fun _ => padQ

/-- `logits_start`: in prefix mode the span's beginning, otherwise so that its end is the
span's. -/
def logitsStart (padQ : Option ℕ) (r : ℕ) : ℕ :=
  if padQ.isSome then offsets (spanLen b padQ) r
  else offsets (spanLen b padQ) (r + 1) - numLogits b r

/-- `_combine_sampled_and_draft_tokens_kernel`: the input ids. -/
def combineTokens (padQ : Option ℕ) : ℕ → ℕ :=
  storeRows b.numReqs (logitsStart b padQ)
    (fun r j => !base.inPrompt r (spanLen b padQ r) && decide (j < numLogits b r)) (combined b)
    (base.inputIds b.numReqs (spanLen b padQ))

/-- The pads get the mask token. -/
def maskPads (padQ : ℕ) (ids : ℕ → ℕ) (x : ℕ) : ℕ :=
  if x < b.numReqs * padQ ∧ numLogits b (x / padQ) ≤ x % padQ then cfg.maskToken else ids x

/-- The layout for the spans. -/
def layout (padQ : Option ℕ) : InputBatch where
  numTokens := offsets (spanLen b padQ) b.numReqs
  queryStartLoc := offsets (spanLen b padQ)
  realQueryStartLoc := padQ.map fun _ => offsets b.scheduled
  cuNumLogits := offsets (numLogits b)
  logitsIndices := storeRows b.numReqs (offsets (numLogits b))
    (fun r j => decide (j < numLogits b r)) (fun r j => logitsStart b padQ r + j) fun _ => 0
  inputIds := combineTokens base b padQ
  positions := storeRows b.numReqs (offsets (spanLen b padQ))
    (fun r j => decide (j < spanLen b padQ r)) base.position fun _ => 0

/-- `prepare_inputs`: a view of the input ids with the padded dimensions raises if the buffer has
fewer elements. -/
def prepareInputs : Option ℕ → Option InputBatch
  | none => some (layout base b none)
  | some padQ =>
    if b.numReqs * padQ ≤ cfg.maxNumTokens then
      some { layout base b (some padQ) with
        inputIds := maskPads cfg b padQ (combineTokens base b (some padQ)) }
    else none

/-- `prepare_attn` and the masking of the pads; `none` is `PAD_SLOT_ID`. -/
def slotMappings (p : InputBatch) (x : ℕ) : Option ℕ :=
  let npq := p.numTokens / b.numReqs
  let masked := p.realQueryStartLoc.isSome ∧ x < p.numTokens ∧
    p.cuNumLogits (x / npq + 1) - p.cuNumLogits (x / npq) ≤ x % npq
  if masked then none
  else
    storeRows b.numReqs p.queryStartLoc
      (fun r j => decide (j < p.queryStartLoc (r + 1) - p.queryStartLoc r))
      (fun r j => some (base.slot r (p.positions (p.queryStartLoc r + j)))) (fun _ => none) x

/-- `num_ctx` of the drafter's kernel. -/
def numCtx (p : InputBatch) (r : ℕ) : ℕ :=
  if p.realQueryStartLoc.isSome then p.cuNumLogits (r + 1) - p.cuNumLogits r
  else p.queryStartLoc (r + 1) - p.queryStartLoc r

/-- The columns of a row that the drafter's kernel stores: the context, and in a padded layout the
rest of the span. -/
def isContext (p : InputBatch) (r j : ℕ) : Bool :=
  decide (j < numCtx p r) || (p.realQueryStartLoc.isSome &&
    decide (j < p.queryStartLoc (r + 1) - p.queryStartLoc r))

/-- `out_context_positions` of `_prepare_dflash_inputs_kernel`. -/
def contextPositions (p : InputBatch) : ℕ → ℕ :=
  storeRows b.numReqs p.queryStartLoc (isContext p)
    (fun r j => if j < numCtx p r then p.positions (p.queryStartLoc r + j) else 0) fun _ => 0

/-- `out_context_slot_mapping` -/
def contextSlots (p : InputBatch) : ℕ → Option ℕ :=
  storeRows b.numReqs p.queryStartLoc (isContext p)
    (fun r j => if j < numCtx p r then
      some (base.contextSlot r (p.positions (p.queryStartLoc r + j))) else none) fun _ => none

/-- The last valid position of a row's context, after which the drafter begins. -/
def lastValidPos (p : InputBatch) (numRejected : ℕ → ℕ) (r : ℕ) : ℕ :=
  p.positions (p.queryStartLoc r + numCtx p r - numRejected r - 1)

/-- The tokens of a row that are computed after the step. -/
def computedTokens (p : InputBatch) (numRejected : ℕ → ℕ) (r : ℕ) : ℕ :=
  let loc := p.realQueryStartLoc.getD p.queryStartLoc
  loc (r + 1) - loc r - numRejected r

/-- A padded layout `p` in place of the unpadded one, `u`. -/
structure Invisible (padQ : ℕ) (u p : InputBatch) : Prop where
  /-- the same logits rows, of the real tokens -/
  cuNumLogits : p.cuNumLogits = u.cuNumLogits
  logits : ∀ r < b.numReqs, ∀ j < numLogits b r,
    p.logitsIndices (p.cuNumLogits r + j) = p.queryStartLoc r + j
  ids : ∀ r < b.numReqs, ∀ j < numLogits b r,
    p.inputIds (p.logitsIndices (p.cuNumLogits r + j)) =
      u.inputIds (u.logitsIndices (u.cuNumLogits r + j))
  positions : ∀ r < b.numReqs, ∀ j < numLogits b r,
    p.positions (p.logitsIndices (p.cuNumLogits r + j)) =
      u.positions (u.logitsIndices (u.cuNumLogits r + j))
  slots : ∀ r < b.numReqs, ∀ j < numLogits b r,
    slotMappings base b p (p.logitsIndices (p.cuNumLogits r + j)) =
      slotMappings base b u (u.logitsIndices (u.cuNumLogits r + j))
  /-- a pad has the mask token, and no slot in either cache -/
  pads : ∀ r < b.numReqs, ∀ j, numLogits b r ≤ j → j < padQ →
    p.inputIds (p.queryStartLoc r + j) = cfg.maskToken ∧
      slotMappings base b p (p.queryStartLoc r + j) = none ∧
      contextSlots base b p (p.queryStartLoc r + j) = none
  /-- the same context for the drafter -/
  context : ∀ r < b.numReqs, ∀ j < numLogits b r,
    contextPositions b p (p.queryStartLoc r + j) = contextPositions b u (u.queryStartLoc r + j) ∧
      contextSlots base b p (p.queryStartLoc r + j) =
        contextSlots base b u (u.queryStartLoc r + j)
  /-- where the drafter begins, and the accounting -/
  rest : ∀ numRejected : ℕ → ℕ, ∀ r < b.numReqs, numRejected r ≤ b.drafts r →
    lastValidPos p numRejected r = lastValidPos u numRejected r ∧
      computedTokens p numRejected r = computedTokens u numRejected r

/-- The padded batch fits and nothing is seen of the padding. -/
def PaddedOk (padQ : ℕ) : Prop :=
  ∃ p, prepareInputs cfg base b (some padQ) = some p ∧
    Invisible cfg base b padQ (layout base b none) p

/-- A row within its prompt is within it in the padded span, or has the tokens anyway. -/
def PromptsKept (padQ : ℕ) : Prop :=
  ∀ r < b.numReqs, base.inPrompt r (b.scheduled r) = true →
    base.inPrompt r padQ = true ∨ ∀ j < numLogits b r, combined b r j = base.prompt r j

end Prepare

/-! ### The decision to pad -/

section Decision

variable {cfg : Runner} {base : Base} {b : Batch} {dummyRun : Bool} {padQ : ℕ}

/-- A padded batch is ragged, of rows with one token and their drafts, and as wide as the widest. -/
theorem of_padWidth (h : padWidth cfg base b dummyRun = some padQ) :
    (∀ r < b.numReqs, b.scheduled r = numLogits b r) ∧ (∀ r < b.numReqs, b.scheduled r ≤ padQ) ∧
      0 < padQ := by
  obtain ⟨⟨-, -, -, ⟨r, hr, -⟩, -⟩, h⟩ := Option.ite_none_right_eq_some.mp h
  obtain ⟨hall, h⟩ := Option.ite_none_right_eq_some.mp h
  obtain rfl := Option.some.inj h
  have hle : ∀ r < b.numReqs, b.scheduled r ≤ (range b.numReqs).sup b.scheduled :=
    fun r hr => Finset.le_sup (Finset.mem_range.mpr hr)
  refine ⟨hall, hle, ?_⟩
  have hpos : 0 < b.scheduled r := by
    rw [hall r hr]
    exact Nat.lt_of_lt_of_le Nat.one_pos (Nat.le_add_right _ _)
  exact hpos.trans_le (hle r hr)

end Decision

/-! ### The two layouts -/

/-- A span for each row, at least as long as its tokens, which are a prefix of it. -/
structure Spans (b : Batch) (padQ : Option ℕ) : Prop where
  le : ∀ r < b.numReqs, numLogits b r ≤ spanLen b padQ r
  start : ∀ r < b.numReqs, logitsStart b padQ r = offsets (spanLen b padQ) r

theorem Spans.none {b : Batch} (h : ∀ r < b.numReqs, b.scheduled r = numLogits b r) :
    Spans b none where
  le r hr := (h r hr).ge
  start r hr := by
    change offsets b.scheduled (r + 1) - numLogits b r = offsets b.scheduled r
    rw [offsets, h r hr, Nat.add_sub_cancel]

theorem Spans.some {b : Batch} {padQ : ℕ} (h : ∀ r < b.numReqs, numLogits b r ≤ padQ) :
    Spans b (some padQ) where
  le := h
  start _ _ := if_pos rfl

section Layout

variable {base : Base} {b : Batch} {padQ : Option ℕ} {r j : ℕ}

/-- The flat place of a logits row. -/
theorem layout_logits (base : Base) (h : Spans b padQ) (hr : r < b.numReqs)
    (hj : j < numLogits b r) :
    (layout base b padQ).logitsIndices ((layout base b padQ).cuNumLogits r + j) =
      (layout base b padQ).queryStartLoc r + j :=
  calc (layout base b padQ).logitsIndices ((layout base b padQ).cuNumLogits r + j)
      = logitsStart b padQ r + j :=
        storeRows_apply hr (decide_eq_true hj)
          fun _ _ _ hj' heq => offsets_inj (of_decide_eq_true hj') hj heq
    _ = (layout base b padQ).queryStartLoc r + j := congrArg (· + j) (h.start r hr)

theorem layout_positions (hr : r < b.numReqs) (hj : j < spanLen b padQ r) :
    (layout base b padQ).positions ((layout base b padQ).queryStartLoc r + j) =
      base.position r j :=
  storeRows_apply hr (decide_eq_true hj)
    fun _ _ _ hj' heq => offsets_inj (of_decide_eq_true hj') hj heq

/-- The token in a column: a row that ends within its prompt keeps what is there. -/
theorem combineTokens_eq (base : Base) (h : Spans b padQ) (hr : r < b.numReqs)
    (hj : j < numLogits b r) :
    combineTokens base b padQ (offsets (spanLen b padQ) r + j) =
      if base.inPrompt r (spanLen b padQ r) then base.prompt r j else combined b r j := by
  have hspan : j < spanLen b padQ r := hj.trans_le (h.le r hr)
  have hrow : ∀ r' < b.numReqs, ∀ j',
      (!base.inPrompt r' (spanLen b padQ r') && decide (j' < numLogits b r')) = true →
      logitsStart b padQ r' + j' = offsets (spanLen b padQ) r + j → r' = r := by
    intro r' hr' j' hj' heq
    have hlt := of_decide_eq_true (Bool.and_eq_true_iff.mp hj').2
    rw [h.start r' hr'] at heq
    exact offsets_inj (hlt.trans_le (h.le r' hr')) hspan heq
  by_cases hprompt : base.inPrompt r (spanLen b padQ r) = true
  · rw [if_pos hprompt, combineTokens, storeRows_of_ne]
    · have hone : base.inPrompt r 1 = true :=
        base.inPrompt_of_le r 1 _ (Nat.lt_of_le_of_lt (Nat.zero_le j) hspan) hprompt
      exact base.inputIds_prompt b.numReqs _ r hr hone j hspan
    · intro r' hr' j' hj' heq
      obtain rfl := hrow r' hr' j' hj' heq
      rw [hprompt] at hj'
      exact Bool.false_ne_true hj'
  · rw [if_neg hprompt, combineTokens, ← h.start r hr]
    refine storeRows_apply hr ?_ fun r' hr' j' hj' heq => hrow r' hr' j' hj' ?_
    · rw [Bool.eq_false_iff.mpr hprompt]
      exact decide_eq_true hj
    · rw [heq, h.start r hr]

end Layout

/-! ### Slots and context -/

theorem offsets_span (len : ℕ → ℕ) (r : ℕ) : offsets len (r + 1) - offsets len r = len r :=
  Nat.add_sub_cancel_left _ _

/-- A batch with spans of these lengths, in which every row's context is its tokens. -/
structure LaidOut (base : Base) (b : Batch) (len : ℕ → ℕ) (p : InputBatch) : Prop where
  queryStartLoc : p.queryStartLoc = offsets len
  le : ∀ r < b.numReqs, numLogits b r ≤ len r
  positions : ∀ r < b.numReqs, ∀ j < len r,
    p.positions (p.queryStartLoc r + j) = base.position r j
  numCtx : ∀ r < b.numReqs, numCtx p r = numLogits b r

section Context

variable {base : Base} {b : Batch} {len : ℕ → ℕ} {p : InputBatch} {r j : ℕ}

/-- The columns that the drafter's kernel stores are within the spans. -/
theorem LaidOut.lt_of_isContext (h : LaidOut base b len p) (hr : r < b.numReqs)
    (hj : isContext p r j = true) : j < len r := by
  rw [isContext, h.numCtx r hr, h.queryStartLoc, offsets_span] at hj
  rcases Bool.or_eq_true_iff.mp hj with hj | hj
  · exact (of_decide_eq_true hj).trans_le (h.le r hr)
  · exact of_decide_eq_true (Bool.and_eq_true_iff.mp hj).2

/-- What the drafter's kernel stores in a column is read there. -/
theorem LaidOut.storeRows_context {α : Type} (h : LaidOut base b len p) (hr : r < b.numReqs)
    (hj : isContext p r j = true) (v : ℕ → ℕ → α) (buf : ℕ → α) :
    storeRows b.numReqs p.queryStartLoc (isContext p) v buf (p.queryStartLoc r + j) = v r j := by
  refine storeRows_apply hr hj fun r' hr' j' hj' heq => ?_
  rw [h.queryStartLoc] at heq
  exact offsets_inj (h.lt_of_isContext hr' hj') (h.lt_of_isContext hr hj) heq

theorem LaidOut.isContext (h : LaidOut base b len p) (hr : r < b.numReqs)
    (hj : j < numLogits b r) : isContext p r j = true := by
  rw [Padding.isContext, h.numCtx r hr, decide_eq_true hj, Bool.true_or]

/-- The context of a row is its tokens. -/
theorem LaidOut.contextPositions_eq (h : LaidOut base b len p) (hr : r < b.numReqs)
    (hj : j < numLogits b r) :
    contextPositions b p (p.queryStartLoc r + j) = base.position r j := by
  rw [contextPositions, h.storeRows_context hr (h.isContext hr hj), h.numCtx r hr, if_pos hj]
  exact h.positions r hr j (hj.trans_le (h.le r hr))

theorem LaidOut.contextSlots_eq (h : LaidOut base b len p) (hr : r < b.numReqs)
    (hj : j < numLogits b r) :
    contextSlots base b p (p.queryStartLoc r + j) =
      some (base.contextSlot r (base.position r j)) := by
  rw [contextSlots, h.storeRows_context hr (h.isContext hr hj), h.numCtx r hr, if_pos hj,
    h.positions r hr j (hj.trans_le (h.le r hr))]

theorem LaidOut.lastValidPos_eq (h : LaidOut base b len p) (hr : r < b.numReqs)
    {numRejected : ℕ → ℕ} (hrej : numRejected r ≤ b.drafts r) :
    lastValidPos p numRejected r = base.position r (numLogits b r - numRejected r - 1) := by
  have hle := h.le r hr
  have hlt : numLogits b r - numRejected r - 1 < len r := by
    rw [numLogits] at *
    omega
  have hplace : p.queryStartLoc r + numLogits b r - numRejected r - 1 =
      p.queryStartLoc r + (numLogits b r - numRejected r - 1) := by
    rw [numLogits]
    omega
  rw [lastValidPos, h.numCtx r hr, hplace]
  exact h.positions r hr _ hlt

/-- A slot that is not masked. -/
theorem LaidOut.slotMappings_eq (h : LaidOut base b len p) (hr : r < b.numReqs) (hj : j < len r)
    (hmask : ¬ (p.realQueryStartLoc.isSome ∧ p.queryStartLoc r + j < p.numTokens ∧
      p.cuNumLogits ((p.queryStartLoc r + j) / (p.numTokens / b.numReqs) + 1) -
        p.cuNumLogits ((p.queryStartLoc r + j) / (p.numTokens / b.numReqs)) ≤
          (p.queryStartLoc r + j) % (p.numTokens / b.numReqs))) :
    slotMappings base b p (p.queryStartLoc r + j) = some (base.slot r (base.position r j)) := by
  have hspan : ∀ r', p.queryStartLoc (r' + 1) - p.queryStartLoc r' = len r' := by
    intro r'
    rw [h.queryStartLoc, offsets_span]
  rw [slotMappings, if_neg hmask, storeRows_apply hr (decide_eq_true ((hspan r).symm ▸ hj)),
    h.positions r hr j hj]
  intro r' hr' j' hj' heq
  have hlt := of_decide_eq_true hj'
  rw [hspan] at hlt
  rw [h.queryStartLoc] at heq
  exact offsets_inj hlt hj heq

end Context

/-! ### The padded layout against the unpadded one -/

section Padded

variable {cfg : Runner} {base : Base} {b : Batch} {padQ r j : ℕ}

/-- The padded batch. -/
def padded (cfg : Runner) (base : Base) (b : Batch) (padQ : ℕ) : InputBatch :=
  { layout base b (some padQ) with
    inputIds := maskPads cfg b padQ (combineTokens base b (some padQ)) }

theorem laidOut_layout (h : ∀ r < b.numReqs, b.scheduled r = numLogits b r) :
    LaidOut base b b.scheduled (layout base b none) where
  queryStartLoc := rfl
  le r hr := (h r hr).ge
  positions _ hr _ hj := layout_positions hr hj
  numCtx r hr := (offsets_span b.scheduled r).trans (h r hr)

theorem laidOut_padded (h : ∀ r < b.numReqs, numLogits b r ≤ padQ) :
    LaidOut base b (fun _ => padQ) (padded cfg base b padQ) where
  queryStartLoc := rfl
  le := h
  positions _ hr _ hj := layout_positions hr hj
  numCtx r _ := offsets_span (numLogits b) r

/-- The row and the column of a place in the padded layout. -/
theorem padded_place (hj : j < padQ) :
    (offsets (fun _ => padQ) r + j) / padQ = r ∧ (offsets (fun _ => padQ) r + j) % padQ = j := by
  rw [offsets_const, Nat.mul_comm]
  constructor
  · rw [Nat.mul_add_div (by omega), Nat.div_eq_of_lt hj, Nat.add_zero]
  · rw [Nat.mul_add_mod, Nat.mod_eq_of_lt hj]

/-- It is within the padded batch. -/
theorem padded_lt (hr : r < b.numReqs) (hj : j < padQ) :
    offsets (fun _ => padQ) r + j < b.numReqs * padQ := by
  rw [offsets_const]
  calc r * padQ + j < r * padQ + padQ := Nat.add_lt_add_left hj _
    _ = (r + 1) * padQ := (Nat.succ_mul r padQ).symm
    _ ≤ b.numReqs * padQ := Nat.mul_le_mul_right _ hr

/-- The rows that are masked are the pads. -/
theorem masked_iff (hr : r < b.numReqs) (hj : j < padQ) :
    ((padded cfg base b padQ).realQueryStartLoc.isSome ∧
      (padded cfg base b padQ).queryStartLoc r + j < (padded cfg base b padQ).numTokens ∧
      (padded cfg base b padQ).cuNumLogits (((padded cfg base b padQ).queryStartLoc r + j) /
          ((padded cfg base b padQ).numTokens / b.numReqs) + 1) -
        (padded cfg base b padQ).cuNumLogits (((padded cfg base b padQ).queryStartLoc r + j) /
          ((padded cfg base b padQ).numTokens / b.numReqs)) ≤
        ((padded cfg base b padQ).queryStartLoc r + j) %
          ((padded cfg base b padQ).numTokens / b.numReqs)) ↔ numLogits b r ≤ j := by
  have hnum : (padded cfg base b padQ).numTokens = b.numReqs * padQ := offsets_const _ _
  have hnpq : b.numReqs * padQ / b.numReqs = padQ :=
    Nat.mul_div_cancel_left padQ (Nat.zero_lt_of_lt hr)
  have hloc : (padded cfg base b padQ).queryStartLoc = offsets fun _ => padQ := rfl
  have hcu : (padded cfg base b padQ).cuNumLogits = offsets (numLogits b) := rfl
  obtain ⟨hdiv, hmod⟩ := padded_place (r := r) hj
  rw [hnum, hnpq, hloc, hcu, hdiv, hmod, offsets_span]
  exact ⟨fun h => h.2.2, fun h => ⟨rfl, padded_lt hr hj, h⟩⟩

/-- The tokens of a row in the padded layout. -/
theorem padded_ids (cfg : Runner) (base : Base) (h : ∀ r < b.numReqs, numLogits b r ≤ padQ)
    (hr : r < b.numReqs) (hj : j < padQ) : (padded cfg base b padQ).inputIds (offsets (fun _ => padQ) r + j) =
      if numLogits b r ≤ j then cfg.maskToken
      else if base.inPrompt r padQ then base.prompt r j else combined b r j := by
  obtain ⟨hdiv, hmod⟩ := padded_place (r := r) hj
  change maskPads cfg b padQ (combineTokens base b (some padQ)) _ = _
  rw [maskPads, hdiv, hmod]
  by_cases hpad : numLogits b r ≤ j
  · rw [if_pos ⟨padded_lt hr hj, hpad⟩, if_pos hpad]
  · rw [if_neg fun hmask => hpad hmask.2, if_neg hpad]
    exact combineTokens_eq base (.some h) hr (not_le.mp hpad)

/-- Where the padded batch fits, only the tokens of the rows that leave their prompt can differ. -/
theorem invisible_padded (hrow : ∀ r < b.numReqs, b.scheduled r = numLogits b r)
    (hle : ∀ r < b.numReqs, b.scheduled r ≤ padQ) (hprompts : PromptsKept base b padQ) :
    Invisible cfg base b padQ (layout base b none) (padded cfg base b padQ) := by
  have hwidth : ∀ r < b.numReqs, numLogits b r ≤ padQ := fun r hr => hrow r hr ▸ hle r hr
  have hu : LaidOut base b b.scheduled (layout base b none) := laidOut_layout hrow
  have hp : LaidOut base b (fun _ => padQ) (padded cfg base b padQ) := laidOut_padded hwidth
  have hlogits : ∀ r < b.numReqs, ∀ j < numLogits b r,
      (padded cfg base b padQ).logitsIndices ((padded cfg base b padQ).cuNumLogits r + j) =
        (padded cfg base b padQ).queryStartLoc r + j :=
    fun r hr j hj => layout_logits base (.some hwidth) hr hj
  have hlogits' : ∀ r < b.numReqs, ∀ j < numLogits b r,
      (layout base b none).logitsIndices ((layout base b none).cuNumLogits r + j) =
        (layout base b none).queryStartLoc r + j :=
    fun r hr j hj => layout_logits base (.none hrow) hr hj
  refine ⟨rfl, hlogits, ?_, ?_, ?_, ?_, ?_, ?_⟩
  · intro r hr j hj
    rw [hlogits r hr j hj, hlogits' r hr j hj]
    refine (padded_ids cfg base hwidth hr (hj.trans_le (hwidth r hr))).trans ?_
    rw [if_neg (not_le.mpr hj)]
    refine Eq.trans ?_ (combineTokens_eq base (.none hrow) hr hj).symm
    -- a row whose padded span ends within the prompt is within it
    by_cases hin : base.inPrompt r (b.scheduled r) = true
    · rw [spanLen, if_pos hin]
      rcases hprompts r hr hin with hkept | hsame
      · rw [if_pos hkept]
      · rw [hsame j hj, ite_self]
    · have hout : ¬ base.inPrompt r padQ = true :=
        fun h => hin (base.inPrompt_of_le r _ _ (hle r hr) h)
      rw [spanLen, if_neg hin, if_neg hout]
  · intro r hr j hj
    rw [hlogits r hr j hj, hlogits' r hr j hj, hp.positions r hr j (hj.trans_le (hwidth r hr)),
      hu.positions r hr j (hj.trans_eq (hrow r hr).symm)]
  · intro r hr j hj
    have hj' := hj.trans_le (hwidth r hr)
    rw [hlogits r hr j hj, hlogits' r hr j hj,
      hp.slotMappings_eq hr hj' fun hmask => not_le.mpr hj ((masked_iff hr hj').mp hmask),
      hu.slotMappings_eq hr (hj.trans_eq (hrow r hr).symm) fun hmask =>
        Bool.false_ne_true hmask.1]
  · intro r hr j hpad hj
    refine ⟨?_, ?_, ?_⟩
    · exact (padded_ids cfg base hwidth hr hj).trans (if_pos hpad)
    · rw [slotMappings]
      exact if_pos ((masked_iff hr hj).mpr hpad)
    · have hcontext : isContext (padded cfg base b padQ) r j = true := by
        have hspan : (padded cfg base b padQ).queryStartLoc (r + 1) -
            (padded cfg base b padQ).queryStartLoc r = padQ := offsets_span _ r
        rw [isContext, hspan, decide_eq_true hj]
        exact Bool.or_true _
      rw [contextSlots, hp.storeRows_context hr hcontext, hp.numCtx r hr,
        if_neg (not_lt.mpr hpad)]
  · intro r hr j hj
    rw [hp.contextPositions_eq hr hj, hu.contextPositions_eq hr hj, hp.contextSlots_eq hr hj,
      hu.contextSlots_eq hr hj]
    exact ⟨rfl, rfl⟩
  · intro numRejected r hr hrej
    rw [hp.lastValidPos_eq hr hrej, hu.lastValidPos_eq hr hrej]
    exact ⟨rfl, rfl⟩

/-- For every batch that the runner pads: the padded batch fits the input buffers, its logits rows
are the real tokens with the token ids, positions and slots of the unpadded layout, its pads have
the mask token and no slot, and drafter and accounting see the real tokens, exactly if the padded
count is within the size of the buffers and no row leaves its prompt by the padding. -/
theorem padded_ok_iff (cfg : Runner) (base : Base) (b : Batch) (dummyRun : Bool) (padQ : ℕ)
    (h : padWidth cfg base b dummyRun = some padQ) :
    PaddedOk cfg base b padQ ↔ b.numReqs * padQ ≤ cfg.maxNumTokens ∧ PromptsKept base b padQ := by
  obtain ⟨hrow, hle, -⟩ := of_padWidth h
  have hwidth : ∀ r < b.numReqs, numLogits b r ≤ padQ := fun r hr => hrow r hr ▸ hle r hr
  constructor
  · rintro ⟨p, hp, hinvisible⟩
    obtain ⟨hfits, hp⟩ := Option.ite_none_right_eq_some.mp hp
    obtain rfl := Option.some.inj hp
    refine ⟨hfits, fun r hr hin => or_iff_not_imp_left.mpr fun hout j hj => ?_⟩
    have hids := hinvisible.ids r hr j hj
    rw [hinvisible.logits r hr j hj, layout_logits base (.none hrow) hr hj] at hids
    have hpadded := padded_ids cfg base hwidth hr (hj.trans_le (hwidth r hr))
    have hragged := combineTokens_eq base (.none hrow) hr hj
    rw [if_neg (not_le.mpr hj), if_neg hout] at hpadded
    rw [spanLen, if_pos hin] at hragged
    exact hpadded.symm.trans (hids.trans hragged)
  · rintro ⟨hfits, hprompts⟩
    exact ⟨padded cfg base b padQ, if_pos hfits, invisible_padded hrow hle hprompts⟩

end Padded

/-! ### A batch that does not fit -/

/-- Two drafts at most, and input buffers for `size` tokens. -/
def runner (size : ℕ) : Runner where
  padBucket := true
  decodeQueryLen := 3
  maxNumTokens := size
  dpSize := 1
  maskToken := 9

/-- A row with two drafts and one with none. -/
def raggedBatch : Batch where
  numReqs := 2
  scheduled := fun r => if r = 0 then 3 else 1
  drafts := fun r => if r = 0 then 2 else 0
  lastSampled := fun r => 20 + r
  draftTokens := fun r j => 30 + 10 * r + j

/-- Decode rows that have computed five tokens, in blocks of a hundred slots. -/
def decodeBase : Base where
  position := fun _ j => 5 + j
  slot := fun r pos => 100 * r + pos
  contextSlot := fun r pos => 100 * r + pos
  prompt := fun _ _ => 0
  inPrompt := fun _ _ => false
  inPrompt_of_le := fun _ _ _ _ h => h
  inputIds := fun _ _ _ => 0
  inputIds_prompt := fun _ _ _ _ h => absurd h Bool.false_ne_true
  uniformTokenCount := fun numReqs numToks maxQueryLen =>
    if numToks = numReqs * maxQueryLen then some maxQueryLen else none

/-- Four tokens are scheduled and there is room for four, but the padded batch has six. -/
theorem padded_overflow : padWidth (runner 4) decodeBase raggedBatch false = some 3 ∧
    ∑ r ∈ range raggedBatch.numReqs, raggedBatch.scheduled r ≤ (runner 4).maxNumTokens ∧
    prepareInputs (runner 4) decodeBase raggedBatch (some 3) = none ∧
    ¬ PaddedOk (runner 4) decodeBase raggedBatch 3 := by
  have hnone : prepareInputs (runner 4) decodeBase raggedBatch (some 3) = none := by
    rw [prepareInputs, if_neg (by decide)]
  refine ⟨by decide, by decide, hnone, ?_⟩
  rintro ⟨p, hp, -⟩
  exact absurd (hnone.symm.trans hp) (Option.some_ne_none p).symm

/-- With room for six it fits. -/
theorem padded_ok_roomy : padWidth (runner 6) decodeBase raggedBatch false = some 3 ∧
    PaddedOk (runner 6) decodeBase raggedBatch 3 := by
  have h : padWidth (runner 6) decodeBase raggedBatch false = some 3 := by decide
  exact ⟨h, (padded_ok_iff (runner 6) decodeBase raggedBatch false 3 h).mpr
    ⟨by decide, fun _ _ hin => absurd hin Bool.false_ne_true⟩⟩

end Padding

end VllmMoet
