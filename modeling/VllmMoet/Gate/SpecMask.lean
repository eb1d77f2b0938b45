import Mathlib.Algebra.Order.BigOperators.Group.Finset
import Mathlib.Data.List.GetD
import Mathlib.Data.List.MinMax
import Mathlib.Data.Rat.Floor
import VllmMoet.Lib.FloatRound
import VllmMoet.Lib.OrderStat

/-!
# The gate on a verify step

In a verify step the logits have a row for every draft of a request and one more, the bonus row.
`_spec_relevant_mask` marks the rows that the sampler can emit a token from, and
`should_reforward` compares a threshold with the least signal of a marked row, or with a quantile
of them: the others are set to `+inf` and sorted to the end. The quantile's index is a product of
singles.

* `Emits`: what greedy verification can emit, in terms of the logits and the drafts.
* `marks_iff_emits`: the mask.
* `decides_iff`: exactly when the signal that is compared is a marked row's, of the chosen rank.

Logits and signals are exact numbers.
-/

namespace VllmMoet

namespace Gate

open Finset (range)

/-- The logits of a row. -/
abbrev Row := List ℚ

/-- The drafts of a batch: how many each request has, and their tokens, one request after the
other. -/
structure Spec where
  numDraft : List ℕ
  draftIds : List ℕ

section Code

/-- `argmax` over the vocabulary. -/
def argmax (row : Row) : ℕ := ((List.range row.length).argmax fun t => row.getD t 0).getD 0

/-- `cumprod` of booleans. -/
def cumprod : Bool → List Bool → List Bool
  | _, [] => []
  | acc, b :: bs => (acc && b) :: cumprod (acc && b) bs

/-- The rows of a request with drafts: row `i` needs drafts `0, …, i - 1` accepted. -/
def requestMask (seg drafts : List ℕ) : List Bool :=
  let acc := List.zipWith (· == ·) seg drafts
  let accepted := cumprod true acc
  let rel := true :: accepted.dropLast
  rel ++ [accepted.getLastD true]

/-- The loop of `_spec_relevant_mask`, from a row and a draft on. -/
def maskFrom (am draftIds : List ℕ) : ℕ → ℕ → List ℕ → List Bool
  | _, _, [] => []
  | row, dpos, nd :: rest =>
    if nd = 0 then true :: maskFrom am draftIds (row + 1) dpos rest
    else
      requestMask ((am.drop row).take nd) ((draftIds.drop dpos).take nd) ++
        maskFrom am draftIds (row + nd + 1) (dpos + nd) rest

/-- The signal `margin` of a row: the distance of its two largest logits. -/
def margin (row : Row) : ℚ :=
  let top2 := (row.insertionSort (· ≥ ·)).take 2
  top2.getD 0 0 - top2.getD 1 0

variable (spec : Spec)

/-- The number of drafts of request `r`. -/
def Spec.nd (r : ℕ) : ℕ := spec.numDraft.getD r 0

/-- The drafts and the rows in front of a request. -/
def Spec.draftStart (r : ℕ) : ℕ := ∑ q ∈ range r, spec.nd q

def Spec.rowStart (r : ℕ) : ℕ := ∑ q ∈ range r, (spec.nd q + 1)

/-- `sum(num_draft)`. -/
def Spec.nDrafts : ℕ := spec.draftStart spec.numDraft.length

/-- `_spec_relevant_mask`, `none` for no masking. -/
def specRelevantMask (logits : List Row) : Option (List Bool) :=
  if spec.nDrafts = 0 then none
  else if logits.length ≠ spec.nDrafts + spec.numDraft.length then none
  else some (maskFrom (logits.map argmax) spec.draftIds 0 0 spec.numDraft)

variable (signal : Row → ℚ) (aggQ : Binary64) (tau : ℚ) (logits : List Row)

/-- The rows' signals, those that are not marked at `+inf`. `signal` is the gate's signal of a row,
its margin or its largest probability. -/
def rowSignals : List (WithTop ℚ) :=
  match specRelevantMask spec logits with
  | none => logits.map fun row => (signal row : WithTop ℚ)
  | some mask => List.zipWith (fun row (b : Bool) => if b then (signal row : WithTop ℚ) else ⊤)
      logits mask

/-- `n_fin.float() * _AGG_Q`: the factor is converted to a single, as the product is one. -/
def quantileProduct (n : ℕ) : ℚ :=
  Binary32.val (Binary32.mul (Binary32.ofNat n) aggQ.nearest32)

/-- `(n_fin.float() * _AGG_Q).long()` -/
def quantileIndex (n : ℕ) : ℕ := ⌊quantileProduct aggQ n⌋₊

/-- The statistic that is compared: a quantile if `aggQ` is positive, the least signal
otherwise. -/
def worst : WithTop ℚ :=
  let rows := rowSignals spec signal logits
  if 0 < aggQ.value ∧ 1 < rows.length then
    let srt := rows.insertionSort (· ≤ ·)
    let nFin := srt.countP (· ≠ ⊤)
    srt.getD (min (quantileIndex aggQ nFin) (rows.length - 1)) ⊤
  else least rows

/-- `should_reforward`, without the audit. -/
def shouldReforward : Bool :=
  if logits = [] then false else decide (worst spec signal aggQ logits ≤ tau)

end Code

/-! ### What greedy verification can emit -/

/-- Greedy sampling of a row gives this token. -/
def IsGreedy (row : Row) (d : ℕ) : Prop :=
  d < row.length ∧ ∀ t < row.length, t ≠ d → row.getD t 0 < row.getD d 0

instance (row : Row) (d : ℕ) : Decidable (IsGreedy row d) :=
  inferInstanceAs
    (Decidable (d < row.length ∧ ∀ t < row.length, t ≠ d → row.getD t 0 < row.getD d 0))

section Emit

variable (spec : Spec) (logits : List Row)

/-- Greedy verification can emit a token from this row: it is a row of a request all of whose
drafts before it are accepted. -/
def Emits (x : ℕ) : Prop :=
  ∃ r < spec.numDraft.length, ∃ i ≤ spec.nd r, x = spec.rowStart r + i ∧
    ∀ j < i, IsGreedy (logits.getD (spec.rowStart r + j) [])
      (spec.draftIds.getD (spec.draftStart r + j) 0)

/-- The shapes of a batch: a row for each draft and one for each request. -/
structure Spec.Fits : Prop where
  requests : spec.numDraft ≠ []
  drafts : spec.draftIds.length = spec.nDrafts
  rows : logits.length = spec.nDrafts + spec.numDraft.length

end Emit

/-! ### The mask -/

section Mask

variable {spec : Spec} {logits : List Row}

/-- A running conjunction. -/
theorem getD_cumprod {b : Bool} {bs : List Bool} {i : ℕ} (hi : i < bs.length) :
    (cumprod b bs).getD i false = true ↔ b = true ∧ ∀ j ≤ i, bs.getD j false = true := by
  induction bs generalizing b i with
  | nil => exact absurd hi (Nat.not_lt_zero i)
  | cons c bs ih =>
    cases i with
    | zero =>
      simp only [cumprod, List.getD_cons_zero, Bool.and_eq_true, Nat.le_zero_eq, forall_eq]
    | succ i =>
      rw [cumprod, List.getD_cons_succ, ih (Nat.lt_of_succ_lt_succ hi), Bool.and_eq_true, and_assoc]
      refine and_congr_right fun _ => ?_
      constructor
      · rintro ⟨hc, hbs⟩ j hj
        cases j with
        | zero => exact hc
        | succ j => exact hbs j (Nat.le_of_succ_le_succ hj)
      · intro h
        exact ⟨h 0 (Nat.zero_le _), fun j hj => h (j + 1) (Nat.succ_le_succ hj)⟩

theorem length_cumprod (b : Bool) (bs : List Bool) : (cumprod b bs).length = bs.length := by
  induction bs generalizing b with
  | nil => rfl
  | cons c bs ih => rw [cumprod, List.length_cons, List.length_cons, ih]

/-- The drafts of a request that are accepted, as the loop compares them. -/
def accepted (am draftIds : List ℕ) (row dpos nd : ℕ) : List Bool :=
  List.zipWith (· == ·) ((am.drop row).take nd) ((draftIds.drop dpos).take nd)

variable {am draftIds : List ℕ} {row dpos : ℕ} {nds : List ℕ}

theorem length_accepted {nd : ℕ} (ham : row + nd ≤ am.length) (hids : dpos + nd ≤ draftIds.length) :
    (accepted am draftIds row dpos nd).length = nd := by
  rw [accepted, List.length_zipWith, List.length_take, List.length_take, List.length_drop,
    List.length_drop]
  omega

/-- With and without drafts a request's rows are marked the same way. -/
theorem maskFrom_cons {nd : ℕ} {rest : List ℕ} (ham : row + nd ≤ am.length)
    (hids : dpos + nd ≤ draftIds.length) : maskFrom am draftIds row dpos (nd :: rest) =
      (true :: cumprod true (accepted am draftIds row dpos nd)) ++
        maskFrom am draftIds (row + nd + 1) (dpos + nd) rest := by
  have hlen : (cumprod true (accepted am draftIds row dpos nd)).length = nd := by
    rw [length_cumprod, length_accepted ham hids]
  rw [maskFrom]
  split
  · next h => rw [h]; rfl
  · next hnd =>
    change requestMask _ _ ++ _ = _
    have hreq : requestMask ((am.drop row).take nd) ((draftIds.drop dpos).take nd) =
        true :: cumprod true (accepted am draftIds row dpos nd) := by
      change true :: (cumprod true (accepted am draftIds row dpos nd)).dropLast ++
        [(cumprod true (accepted am draftIds row dpos nd)).getLastD true] = _
      have hne : cumprod true (accepted am draftIds row dpos nd) ≠ [] := by
        intro hnil
        rw [hnil] at hlen
        exact hnd hlen.symm
      rw [List.getLastD_eq_getLast?, List.getLast?_eq_getLast_of_ne_nil hne, Option.getD_some,
        List.cons_append, List.dropLast_append_getLast]
    rw [hreq]

theorem getD_accepted {nd j : ℕ} (ham : row + nd ≤ am.length) (hids : dpos + nd ≤ draftIds.length)
    (hj : j < nd) : (accepted am draftIds row dpos nd).getD j false = true ↔
      am.getD (row + j) 0 = draftIds.getD (dpos + j) 0 := by
  rw [List.getD_eq_getElem _ _ (by rwa [length_accepted ham hids]), List.getD_eq_getElem _ _ (by omega),
    List.getD_eq_getElem _ _ (by omega)]
  simp only [accepted, List.getElem_zipWith, List.getElem_take, List.getElem_drop, beq_iff_eq]

/-- The rows of a request. -/
theorem getD_block {nd i : ℕ} (ham : row + nd ≤ am.length) (hids : dpos + nd ≤ draftIds.length)
    (hi : i ≤ nd) : (true :: cumprod true (accepted am draftIds row dpos nd)).getD i false = true ↔
      ∀ j < i, am.getD (row + j) 0 = draftIds.getD (dpos + j) 0 := by
  cases i with
  | zero => exact iff_of_true rfl fun j hj => absurd hj (Nat.not_lt_zero j)
  | succ i =>
    rw [List.getD_cons_succ, getD_cumprod (by rw [length_accepted ham hids]; omega),
      and_iff_right rfl]
    refine forall_congr' fun j => ?_
    rw [Nat.lt_succ_iff]
    exact imp_congr_right fun hj => getD_accepted ham hids (by omega)

/-- The drafts and the rows behind the first request. -/
theorem sum_drafts_cons (nd : ℕ) (nds : List ℕ) (r : ℕ) :
    ∑ q ∈ range (r + 1), (nd :: nds).getD q 0 = nd + ∑ q ∈ range r, nds.getD q 0 := by
  rw [Finset.sum_range_succ', Nat.add_comm]
  rfl

theorem sum_rows_cons (nd : ℕ) (nds : List ℕ) (r : ℕ) :
    ∑ q ∈ range (r + 1), ((nd :: nds).getD q 0 + 1) =
      nd + 1 + ∑ q ∈ range r, (nds.getD q 0 + 1) := by
  rw [Finset.sum_range_succ', Nat.add_comm]
  rfl

theorem length_maskFrom (ham : row + ∑ q ∈ range nds.length, (nds.getD q 0 + 1) ≤ am.length)
    (hids : dpos + ∑ q ∈ range nds.length, nds.getD q 0 ≤ draftIds.length) :
    (maskFrom am draftIds row dpos nds).length = ∑ q ∈ range nds.length, (nds.getD q 0 + 1) := by
  induction nds generalizing row dpos with
  | nil => rfl
  | cons nd rest ih =>
    rw [List.length_cons, sum_rows_cons] at ham
    rw [List.length_cons, sum_drafts_cons] at hids
    rw [maskFrom_cons (by omega) (by omega), List.length_append, List.length_cons, length_cumprod,
      length_accepted (by omega) (by omega), ih (by omega) (by omega), List.length_cons,
      sum_rows_cons]

/-- The mask, row by row. -/
theorem getD_maskFrom (ham : row + ∑ q ∈ range nds.length, (nds.getD q 0 + 1) ≤ am.length)
    (hids : dpos + ∑ q ∈ range nds.length, nds.getD q 0 ≤ draftIds.length) {r i : ℕ}
    (hr : r < nds.length) (hi : i ≤ nds.getD r 0) :
    (maskFrom am draftIds row dpos nds).getD (∑ q ∈ range r, (nds.getD q 0 + 1) + i) false = true ↔
      ∀ j < i, am.getD (row + ∑ q ∈ range r, (nds.getD q 0 + 1) + j) 0 =
        draftIds.getD (dpos + ∑ q ∈ range r, nds.getD q 0 + j) 0 := by
  induction nds generalizing row dpos r with
  | nil => exact absurd hr (Nat.not_lt_zero r)
  | cons nd rest ih =>
    rw [List.length_cons, sum_rows_cons] at ham
    rw [List.length_cons, sum_drafts_cons] at hids
    have hblock : (true :: cumprod true (accepted am draftIds row dpos nd)).length = nd + 1 := by
      rw [List.length_cons, length_cumprod, length_accepted (by omega) (by omega)]
    rw [maskFrom_cons (by omega) (by omega)]
    cases r with
    | zero =>
      rw [List.getD_cons_zero] at hi
      rw [Finset.range_zero, Finset.sum_empty, Finset.sum_empty, Nat.zero_add,
        List.getD_append _ _ _ _ (by omega)]
      exact getD_block (by omega) (by omega) hi
    | succ r =>
      rw [sum_rows_cons, sum_drafts_cons, List.getD_append_right _ _ _ _ (by omega), hblock]
      have hplace : nd + 1 + ∑ q ∈ range r, (rest.getD q 0 + 1) + i - (nd + 1) =
          ∑ q ∈ range r, (rest.getD q 0 + 1) + i := by omega
      rw [hplace, ih (by omega) (by omega) (Nat.lt_of_succ_lt_succ hr) hi]
      refine forall_congr' fun j => imp_congr_right fun _ => ?_
      simp only [Nat.add_assoc, Nat.add_left_comm]

/-- A row in front of request `n` is one of an earlier request. -/
theorem exists_row (spec : Spec) {n x : ℕ} (hx : x < spec.rowStart n) :
    ∃ r < n, ∃ i ≤ spec.nd r, x = spec.rowStart r + i := by
  induction n with
  | zero => exact absurd hx (Nat.not_lt_zero x)
  | succ n ih =>
    rw [Spec.rowStart, Finset.sum_range_succ] at hx
    rcases Nat.lt_or_ge x (spec.rowStart n) with hlt | hge
    · obtain ⟨r, hr, hrow⟩ := ih hlt
      exact ⟨r, hr.trans (Nat.lt_succ_self n), hrow⟩
    · refine ⟨n, Nat.lt_succ_self n, x - spec.rowStart n, ?_, (Nat.add_sub_cancel' hge).symm⟩
      rw [Spec.rowStart] at hge ⊢
      omega

theorem rowStart_eq (spec : Spec) (n : ℕ) : spec.rowStart n = spec.draftStart n + n := by
  rw [Spec.rowStart, Finset.sum_add_distrib, Finset.sum_const, Finset.card_range, Nat.nsmul_eq_mul,
    Nat.mul_one]
  rfl

/-- A request's rows end before the next one's begin. -/
theorem row_lt (spec : Spec) {n r i : ℕ} (hr : r < n) (hi : i ≤ spec.nd r) :
    spec.rowStart r + i < spec.rowStart n := by
  have hstep : spec.rowStart r + (spec.nd r + 1) = spec.rowStart (r + 1) :=
    (Finset.sum_range_succ _ _).symm
  have hmono : spec.rowStart (r + 1) ≤ spec.rowStart n :=
    Finset.sum_le_sum_of_subset (Finset.range_mono hr)
  omega

/-- Without ties `argmax` is the greedy token. -/
theorem argmax_eq_iff {row : Row} (hties : ∃ d, IsGreedy row d) {d : ℕ} :
    argmax row = d ↔ IsGreedy row d := by
  obtain ⟨g, hg, hbest⟩ := hties
  have hmem := List.mem_range.mpr hg
  obtain ⟨m, hm⟩ : ∃ m, ((List.range row.length).argmax fun t => row.getD t 0) = some m := by
    refine Option.ne_none_iff_exists'.mp fun hnone => ?_
    rw [List.argmax_eq_none.mp hnone] at hmem
    exact absurd hmem List.not_mem_nil
  have hargmax : argmax row = m := by rw [argmax, hm]; rfl
  have hmg : m = g := by
    by_contra hne
    have hlt := hbest m (List.mem_range.mp (List.argmax_mem hm)) hne
    exact absurd (List.le_of_mem_argmax hmem hm) (not_le.mpr hlt)
  rw [hargmax, hmg]
  constructor
  · rintro rfl
    exact ⟨hg, hbest⟩
  · rintro ⟨hd, hdbest⟩
    by_contra hne
    exact lt_asymm (hdbest g hg hne) (hbest d hd fun h => hne h.symm)

/-- The mask marks the rows that greedy verification can emit. -/
theorem marks_iff_emits (hfits : spec.Fits logits) (hties : ∀ row ∈ logits, ∃ d, IsGreedy row d)
    {mask : List Bool} (hmask : specRelevantMask spec logits = some mask) :
    mask.length = logits.length ∧
      ∀ x < logits.length, mask.getD x false = true ↔ Emits spec logits x := by
  rw [specRelevantMask] at hmask
  split at hmask
  · exact absurd hmask (Option.some_ne_none mask).symm
  split at hmask
  · exact absurd hmask (Option.some_ne_none mask).symm
  obtain rfl := Option.some.inj hmask
  have hrows : logits.length = spec.rowStart spec.numDraft.length := by
    rw [rowStart_eq]
    exact hfits.rows
  have ham : 0 + ∑ q ∈ range spec.numDraft.length, (spec.numDraft.getD q 0 + 1) ≤
      (logits.map argmax).length := by
    rw [Nat.zero_add, List.length_map]
    exact hrows.ge
  have hids : 0 + ∑ q ∈ range spec.numDraft.length, spec.numDraft.getD q 0 ≤
      spec.draftIds.length := by
    rw [Nat.zero_add]
    exact hfits.drafts.ge
  have hrow : ∀ r < spec.numDraft.length, ∀ i ≤ spec.nd r,
      (maskFrom (logits.map argmax) spec.draftIds 0 0 spec.numDraft).getD (spec.rowStart r + i)
        false = true ↔
      ∀ j < i, IsGreedy (logits.getD (spec.rowStart r + j) [])
        (spec.draftIds.getD (spec.draftStart r + j) 0) := by
    intro r hr i hi
    refine (getD_maskFrom ham hids hr hi).trans (forall_congr' fun j => imp_congr_right fun hj => ?_)
    have hlt : spec.rowStart r + j < logits.length :=
      hrows ▸ row_lt spec hr (hj.le.trans hi)
    rw [Nat.zero_add, Nat.zero_add]
    change (logits.map argmax).getD (spec.rowStart r + j) 0 =
      spec.draftIds.getD (spec.draftStart r + j) 0 ↔ _
    rw [List.getD_eq_getElem _ _ (by rwa [List.length_map]), List.getElem_map,
      List.getD_eq_getElem _ _ hlt]
    exact argmax_eq_iff (hties _ (List.getElem_mem hlt))
  refine ⟨(length_maskFrom ham hids).trans hrows.symm, fun x hx => ⟨fun hmarked => ?_, ?_⟩⟩
  · obtain ⟨r, hr, i, hi, rfl⟩ := exists_row spec (hrows ▸ hx)
    exact ⟨r, hr, i, hi, rfl, (hrow r hr i hi).mp hmarked⟩
  · rintro ⟨r, hr, i, hi, rfl, haccepted⟩
    exact (hrow r hr i hi).mpr haccepted

/-- Without a mask every row can be emitted. -/
theorem emits_of_none (hfits : spec.Fits logits) (hmask : specRelevantMask spec logits = none) :
    ∀ x < logits.length, Emits spec logits x := by
  rw [specRelevantMask] at hmask
  split at hmask
  · next hzero =>
    intro x hx
    rw [hfits.rows, hzero, Nat.zero_add] at hx
    have hnone : ∀ r ≤ spec.numDraft.length, spec.draftStart r = 0 := by
      intro r hr
      refine Nat.eq_zero_of_le_zero (hzero ▸ ?_)
      exact Finset.sum_le_sum_of_subset (Finset.range_mono hr)
    refine ⟨x, hx, 0, Nat.zero_le _, ?_, fun j hj => absurd hj (Nat.not_lt_zero j)⟩
    rw [rowStart_eq, hnone x hx.le, Nat.zero_add, Nat.add_zero]
  · rw [if_neg (not_not.mpr hfits.rows)] at hmask
    exact absurd hmask (Option.some_ne_none _)

end Mask

/-! ### The decision -/

open Classical in
/-- The signals of the rows that greedy verification can emit. -/
noncomputable def emittedSignals (spec : Spec) (signal : Row → ℚ) (logits : List Row) : List ℚ :=
  ((List.range logits.length).filter (Emits spec logits)).map fun x => signal (logits.getD x [])

/-- The rank of the aggregation among `n` signals. -/
def chosenRank (aggQ : Binary64) (n : ℕ) : ℕ :=
  if 0 < aggQ.value then min (quantileIndex aggQ n) (n - 1) else 0

/-- The quantile is less than the whole of `n` signals. Up to `2 ^ 24` of them it is if it is rounded to
a single below 1; beyond, their number is rounded too. -/
def BelowWhole (aggQ : Binary64) (n : ℕ) : Prop :=
  if n ≤ 2 ^ 24 then aggQ.value < 1 - 2 ^ (-25 : ℤ) else quantileProduct aggQ n < n

/-- The gate compares the threshold with the signal of a row that can be emitted, and fires exactly
if the one of the chosen rank among these is at most the threshold. -/
def Decides (spec : Spec) (signal : Row → ℚ) (aggQ : Binary64) (tau : ℚ) (logits : List Row) :
    Prop :=
  worst spec signal aggQ logits ∈ (emittedSignals spec signal logits).map ((↑) : ℚ → WithTop ℚ) ∧
    (shouldReforward spec signal aggQ tau logits = true ↔
      chosenRank aggQ (emittedSignals spec signal logits).length <
        (emittedSignals spec signal logits).countP (· ≤ tau))

section Decision

variable {spec : Spec} {signal : Row → ℚ} {aggQ : Binary64} {tau : ℚ} {logits : List Row}

/-- The index of a positive quantile stays in front of the masked rows exactly if it is below the
whole. -/
theorem quantileIndex_lt_iff (h : 0 < aggQ.value) (h' : aggQ.value ≤ 1) {n : ℕ} (hn : n ≠ 0) :
    quantileIndex aggQ n < n ↔ BelowWhole aggQ n := by
  rw [quantileIndex, Nat.floor_lt' hn, BelowWhole]
  split_ifs with hsize
  · exact Binary64.val_mul_lt_iff h h' hn hsize
  · rfl

/-- The minimum is. -/
theorem belowWhole_of_zero (h : aggQ.value = 0) {n : ℕ} (hn : 0 < n) : BelowWhole aggQ n := by
  rw [BelowWhole]
  split_ifs
  · rw [h]
    norm_num
  · rw [quantileProduct, Binary64.val_mul_of_value_zero h]
    exact_mod_cast hn

open Classical in
/-- The signals that are aggregated. -/
theorem rowSignals_eq (hfits : spec.Fits logits) (hties : ∀ row ∈ logits, ∃ d, IsGreedy row d) :
    rowSignals spec signal logits = (List.range logits.length).map fun x =>
      if Emits spec logits x then (signal (logits.getD x []) : WithTop ℚ) else ⊤ := by
  rw [rowSignals]
  cases hmask : specRelevantMask spec logits with
  | none =>
    refine List.ext_getElem (by rw [List.length_map, List.length_map, List.length_range]) ?_
    intro x hx hx'
    rw [List.length_map] at hx
    rw [List.getElem_map, List.getElem_map, List.getElem_range,
      if_pos (emits_of_none hfits hmask x hx), List.getD_eq_getElem _ _ hx]
  | some mask =>
    obtain ⟨hlen, hmarks⟩ := marks_iff_emits hfits hties hmask
    refine List.ext_getElem ?_ fun x hx hx' => ?_
    · rw [List.length_zipWith, List.length_map, List.length_range, hlen, Nat.min_self]
    · rw [List.length_map, List.length_range] at hx'
      have hiff := hmarks x hx'
      rw [List.getD_eq_getElem _ _ (hlen ▸ hx')] at hiff
      rw [List.getElem_zipWith, List.getElem_map, List.getElem_range,
        List.getD_eq_getElem _ _ hx']
      exact if_congr hiff rfl rfl

/-- The first row of the batch can be emitted. -/
theorem emits_zero (hfits : spec.Fits logits) : Emits spec logits 0 :=
  ⟨0, List.length_pos_of_ne_nil hfits.requests, 0, Nat.zero_le _, rfl,
    fun j hj => absurd hj (Nat.not_lt_zero j)⟩

theorem length_pos_of_fits (hfits : spec.Fits logits) : 0 < logits.length := by
  have h := List.length_pos_of_ne_nil hfits.requests
  rw [hfits.rows]
  omega

theorem length_emittedSignals_pos (signal : Row → ℚ) (hfits : spec.Fits logits) :
    0 < (emittedSignals spec signal logits).length := by
  classical
  refine List.length_pos_of_ne_nil fun hnil => ?_
  rw [emittedSignals, List.map_eq_nil_iff, List.filter_eq_nil_iff] at hnil
  exact hnil 0 (List.mem_range.mpr (length_pos_of_fits hfits)) (decide_eq_true (emits_zero hfits))

open Classical in
/-- The rows that cannot be emitted. -/
theorem length_emittedSignals (spec : Spec) (signal : Row → ℚ) (logits : List Row) :
    (emittedSignals spec signal logits).length +
    (List.range logits.length).countP (fun x => ¬ Emits spec logits x) = logits.length := by
  rw [emittedSignals, List.length_map, ← List.countP_eq_length_filter]
  have h := List.length_eq_countP_add_countP (fun x => decide (Emits spec logits x))
    (l := List.range logits.length)
  rw [List.length_range] at h
  simpa using h.symm

/-- The statistic of a rank among the emitted signals. -/
theorem decides_of_rank (hfits : spec.Fits logits)
    (hworst : ∃ h : chosenRank aggQ (emittedSignals spec signal logits).length <
        ((emittedSignals spec signal logits).insertionSort (· ≤ ·)).length,
      worst spec signal aggQ logits =
        (((emittedSignals spec signal logits).insertionSort (· ≤ ·))[chosenRank aggQ
          (emittedSignals spec signal logits).length] : ℚ)) :
    Decides spec signal aggQ tau logits := by
  obtain ⟨hrank, hworst⟩ := hworst
  have hperm := List.perm_insertionSort (· ≤ ·) (emittedSignals spec signal logits)
  have hsorted := List.pairwise_insertionSort (· ≤ ·) (emittedSignals spec signal logits)
  have hne : logits ≠ [] := List.ne_nil_of_length_pos (length_pos_of_fits hfits)
  refine ⟨?_, ?_⟩
  · rw [hworst]
    exact List.mem_map_of_mem (hperm.mem_iff.mp (List.getElem_mem hrank))
  · rw [shouldReforward, if_neg hne, decide_eq_true_eq, hworst, WithTop.coe_le_coe,
      getElem_le_iff_lt_countP hsorted hrank, hperm.countP_eq]

open Classical in
/-- The sorted signals. -/
theorem sorted_rowSignals (hfits : spec.Fits logits)
    (hties : ∀ row ∈ logits, ∃ d, IsGreedy row d) :
    (rowSignals spec signal logits).insertionSort (· ≤ ·) =
      ((emittedSignals spec signal logits).insertionSort (· ≤ ·)).map (↑) ++
        List.replicate ((List.range logits.length).countP fun x => ¬ Emits spec logits x) ⊤ := by
  rw [rowSignals_eq hfits hties]
  exact insertionSort_masked _ _ _

/-- The statistic, as a place in the sorted signals. -/
theorem worst_eq (hfits : spec.Fits logits) (hties : ∀ row ∈ logits, ∃ d, IsGreedy row d) :
    worst spec signal aggQ logits =
      ((rowSignals spec signal logits).insertionSort (· ≤ ·)).getD
        (if 0 < aggQ.value ∧ 1 < logits.length then
          min (quantileIndex aggQ (emittedSignals spec signal logits).length) (logits.length - 1)
        else 0) ⊤ := by
  classical
  have hlen : (rowSignals spec signal logits).length = logits.length := by
    rw [rowSignals_eq hfits hties, List.length_map, List.length_range]
  have hfin : ((rowSignals spec signal logits).insertionSort (· ≤ ·)).countP (· ≠ ⊤) =
      (emittedSignals spec signal logits).length := by
    rw [sorted_rowSignals hfits hties, List.countP_append, List.countP_eq_length.mpr,
      List.countP_eq_zero.mpr, List.length_map, List.length_insertionSort, Nat.add_zero]
    · intro a ha
      rw [List.eq_of_mem_replicate ha]
      simp
    · intro a ha
      obtain ⟨v, -, rfl⟩ := List.mem_map.mp ha
      simp
  rw [worst]
  dsimp only
  rw [hlen, hfin]
  split
  · rfl
  · exact least_eq_getD _

/-- A place among the signals of the rows that can be emitted is the rank among these. -/
theorem decides_of_place (hfits : spec.Fits logits) (hties : ∀ row ∈ logits, ∃ d, IsGreedy row d)
    (hplace : (if 0 < aggQ.value ∧ 1 < logits.length then
        min (quantileIndex aggQ (emittedSignals spec signal logits).length) (logits.length - 1)
        else 0) =
      chosenRank aggQ (emittedSignals spec signal logits).length)
    (hlt : chosenRank aggQ (emittedSignals spec signal logits).length <
      (emittedSignals spec signal logits).length) :
    Decides spec signal aggQ tau logits := by
  have hsorted : chosenRank aggQ (emittedSignals spec signal logits).length <
      ((emittedSignals spec signal logits).insertionSort (· ≤ ·)).length := by
    rwa [List.length_insertionSort]
  refine decides_of_rank hfits ⟨hsorted, ?_⟩
  rw [worst_eq hfits hties, sorted_rowSignals hfits hties, hplace,
    List.getD_append _ _ _ _ (by rwa [List.length_map]),
    List.getD_eq_getElem _ _ (by rwa [List.length_map]), List.getElem_map]

open Classical in
/-- No row is left out exactly if all are emitted. -/
theorem length_eq_iff : (emittedSignals spec signal logits).length = logits.length ↔
    ∀ x < logits.length, Emits spec logits x := by
  have htotal := length_emittedSignals spec signal logits
  have hnone : (List.range logits.length).countP (fun x => ¬ Emits spec logits x) = 0 ↔
      ∀ x < logits.length, Emits spec logits x := by
    rw [List.countP_eq_zero]
    simp only [List.mem_range, decide_eq_true_eq, not_not]
  rw [← hnone]
  omega

/-- **When the gate decides on the rows that can be emitted.** For a batch without ties the mask
marks these rows; and the gate compares the threshold with the signal of such a row, the one of
the chosen rank, exactly if the aggregation is below the whole quantile of these rows or every row can
be emitted. -/
theorem decides_iff (hfits : spec.Fits logits) (hties : ∀ row ∈ logits, ∃ d, IsGreedy row d)
    (hq : 0 ≤ aggQ.value) (hq' : aggQ.value ≤ 1) :
    ((∀ mask, specRelevantMask spec logits = some mask →
        ∀ x < logits.length, mask.getD x false = true ↔ Emits spec logits x) ∧
      Decides spec signal aggQ tau logits) ↔
    (BelowWhole aggQ (emittedSignals spec signal logits).length ∨
      ∀ x < logits.length, Emits spec logits x) := by
  classical
  rw [and_iff_right fun mask hmask => (marks_iff_emits hfits hties hmask).2, ← length_eq_iff]
  have hpos := length_emittedSignals_pos signal hfits
  have htotal := length_emittedSignals spec signal logits
  have hle : (emittedSignals spec signal logits).length ≤ logits.length := by omega
  by_cases hquant : 0 < aggQ.value ∧ 1 < logits.length
  · have hindex := quantileIndex_lt_iff hquant.1 hq' hpos.ne'
    by_cases hbelow : BelowWhole aggQ (emittedSignals spec signal logits).length
    · -- below the whole quantile the index stays in front of the masked rows
      have hlt := hindex.mpr hbelow
      refine iff_of_true (decides_of_place hfits hties ?_ ?_) (.inl hbelow)
      · rw [if_pos hquant, chosenRank, if_pos hquant.1]
        omega
      · rw [chosenRank, if_pos hquant.1]
        omega
    · rw [or_iff_right hbelow]
      have hge := not_lt.mp fun hlt => hbelow (hindex.mp hlt)
      by_cases hall : (emittedSignals spec signal logits).length = logits.length
      · refine iff_of_true (decides_of_place hfits hties ?_ ?_) hall
        · rw [if_pos hquant, chosenRank, if_pos hquant.1, hall]
        · rw [chosenRank, if_pos hquant.1]
          omega
      · -- the index is that of a masked row
        refine iff_of_false (fun h => ?_) hall
        have hmem := h.1
        have htop : worst spec signal aggQ logits = ⊤ := by
          rw [worst_eq hfits hties, sorted_rowSignals hfits hties, if_pos hquant,
            List.getD_append_right _ _ _ _ (by
              rw [List.length_map, List.length_insertionSort]
              omega), List.length_map, List.length_insertionSort]
          refine List.getD_replicate _ ?_
          omega
        rw [htop] at hmem
        obtain ⟨v, -, hv⟩ := List.mem_map.mp hmem
        exact WithTop.coe_ne_top hv
  · have hrank : chosenRank aggQ (emittedSignals spec signal logits).length = 0 := by
      rw [chosenRank]
      split
      · next hlt =>
        have hone := not_lt.mp fun h => hquant ⟨hlt, h⟩
        omega
      · rfl
    refine iff_of_true (decides_of_place hfits hties ?_ ?_) ?_
    · rw [if_neg hquant, hrank]
    · rwa [hrank]
    · rcases hq.lt_or_eq with hlt | heq
      · have hone := not_lt.mp fun h => hquant ⟨hlt, h⟩
        exact .inr (by omega)
      · exact .inl (belowWhole_of_zero heq.symm hpos)

end Decision

/-! ### A rejected draft -/

/-- A request with one draft. -/
def oneDraft : Spec := ⟨[1], [0]⟩

/-- Both rows prefer token 1, so draft 0 is rejected and the bonus row is masked. -/
def rejecting : List Row := [[0, 1], [0, 1]]

theorem fits_rejecting : oneDraft.Fits rejecting := ⟨by decide, by decide, by decide⟩

theorem noTies_rejecting : ∀ row ∈ rejecting, ∃ d, IsGreedy row d := by
  intro row hrow
  have hrow' : row = [0, 1] := by simpa [rejecting] using hrow
  refine ⟨1, ?_⟩
  rw [hrow']
  decide +kernel

/-- `q:0.5` -/
def median : Binary64 := ⟨false, 1, -1⟩

/-- `q:1.0` -/
def whole : Binary64 := ⟨false, 1, 0⟩

open Classical in
/-- The median is taken among the rows that can be emitted. -/
theorem decides_iff_median : Decides oneDraft margin median 2 rejecting := by
  have hlen : (emittedSignals oneDraft margin rejecting).length ≤ 2 ^ 24 := by
    have h := length_emittedSignals oneDraft margin rejecting
    have hrows : rejecting.length = 2 := rfl
    omega
  have hbelow : BelowWhole median (emittedSignals oneDraft margin rejecting).length := by
    rw [BelowWhole, if_pos hlen]
    decide +kernel
  exact ((decides_iff fits_rejecting noTies_rejecting (by decide +kernel) (by decide +kernel)).mpr
    (.inl hbelow)).2

/-- The whole quantile compares with a masked row: with a signal below the threshold the gate does
not fire. -/
theorem masked_unfired : oneDraft.Fits rejecting ∧ (∀ row ∈ rejecting, ∃ d, IsGreedy row d) ∧
    specRelevantMask oneDraft rejecting = some [true, false] ∧ margin [0, 1] ≤ 2 ∧
    worst oneDraft margin whole rejecting = ⊤ ∧
    shouldReforward oneDraft margin whole 2 rejecting = false ∧
    ¬ Decides oneDraft margin whole 2 rejecting := by
  have hworst : worst oneDraft margin whole rejecting = ⊤ := by decide +kernel
  refine ⟨fits_rejecting, noTies_rejecting, by decide +kernel, by decide +kernel, hworst,
    by decide +kernel, fun h => ?_⟩
  have hmem := h.1
  rw [hworst] at hmem
  obtain ⟨v, -, hv⟩ := List.mem_map.mp hmem
  exact WithTop.coe_ne_top hv

end Gate

end VllmMoet
