import Mathlib
import VllmMoet.Lib.Selection
import VllmMoet.Sparse.Interleave

/-!
# The global top-k from the ranks' local ones

Every rank selects a local top-k from the scores of its own positions, lifts the winners to
global positions and exchanges them with the other ranks, ids and scores as lanes of one
float32 tensor. From the gathered candidates each rank then takes the top-k again
(`mergeTopkIntoBuffer`).

Scores are the elements of any linear order with a least one, `⊥`, for minus infinity. The
top-k of a row is any function that promises what `torch.topk` promises (`TorchTopk`), the same
one on every rank; how a rank finds its own top-k is left open too (`LocalTopk`).

* `merge_spec`: the top-k of a list of candidates, read as a set of positions.
* `sharded_topk`: it is a top-k of all positions, and every position selected is read by the
  rank that stores it.
-/

namespace VllmMoet.Sparse

variable {S : Type*} [LinearOrder S] [OrderBot S]

/-! ### Candidates -/

/-- What `torch.topk` along a row promises: the places of `k` largest entries, best first. -/
structure TorchTopk (S : Type*) [LinearOrder S] [OrderBot S] where
  pick : List S → ℕ → List ℕ
  nodup : ∀ l k, (pick l k).Nodup
  lt : ∀ l k, ∀ i ∈ pick l k, i < l.length
  length : ∀ l k, (pick l k).length = min k l.length
  sorted : ∀ l k, (pick l k).Pairwise fun i j => l.getD j ⊥ ≤ l.getD i ⊥
  best : ∀ l k, ∀ i ∈ pick l k, ∀ j < l.length, j ∉ pick l k → l.getD j ⊥ ≤ l.getD i ⊥

/-- Sorting the places of a row by descending entry. -/
def TorchTopk.bySorting : TorchTopk S where
  pick l k := ((List.range l.length).insertionSort fun i j => l.getD j ⊥ ≤ l.getD i ⊥).take k
  nodup l k := (take_insertionSort_desc l k).1
  lt l k i hi := List.mem_range.mp ((take_insertionSort_desc l k).2.1 i hi)
  length l k := by
    rw [(take_insertionSort_desc l k).2.2.1, List.length_range]
  sorted l k := (take_insertionSort_desc l k).2.2.2.1
  best l k i hi j hj := (take_insertionSort_desc l k).2.2.2.2 i hi j (List.mem_range.mpr hj)
where
  take_insertionSort_desc (l : List S) (k : ℕ) :=
    haveI : Std.Total fun i j : ℕ => l.getD j ⊥ ≤ l.getD i ⊥ := ⟨fun i j => le_total _ _⟩
    haveI : IsTrans ℕ fun i j => l.getD j ⊥ ≤ l.getD i ⊥ := ⟨fun _ _ _ h h' => h'.trans h⟩
    take_insertionSort_spec (fun i j => l.getD j ⊥ ≤ l.getD i ⊥) k
      (List.nodup_range (n := l.length))

/-- Half-even rounding of a quotient. -/
def roundHalfEven (a u : ℕ) : ℕ :=
  if 2 * (a % u) < u then a / u
  else if u < 2 * (a % u) then a / u + 1
  else a / u + a / u % 2

/-- An integer as a float32: rounded to 24 significant bits. -/
def toFp32 (x : ℤ) : ℤ :=
  let u := 2 ^ (Nat.log2 x.natAbs - 23)
  x.sign * (roundHalfEven x.natAbs u * u : ℕ)

/-- The largest id that is exact as a float32, with all below it. -/
def maxFp32ExactId : ℤ := 2 ^ 24

/-- Ids up to the bound are exact. -/
theorem toFp32_of_le {x : ℤ} (h0 : 0 ≤ x) (h : x ≤ maxFp32ExactId) : toFp32 x = x := by
  have hx : x = x.natAbs := by omega
  rcases (show x < 2 ^ 24 ∨ x = 2 ^ 24 by unfold maxFp32ExactId at h; omega) with hlt | rfl
  · have hlog : Nat.log2 x.natAbs - 23 = 0 := by
      rcases Nat.eq_zero_or_pos x.natAbs with hz | hpos
      · simp [hz]
      · have := (Nat.log2_lt hpos.ne').mpr (show x.natAbs < 2 ^ 24 by omega)
        omega
    simp only [toFp32, hlog, pow_zero, roundHalfEven, Nat.mod_one, Nat.div_one, mul_one]
    exact Int.sign_mul_natAbs x
  · decide +kernel

/-- A candidate: its score and its id, as they travel. -/
abbrev Candidate (S : Type*) := S × ℤ

/-- `dcp_gather_topk_scores`: the scores of the local winners, `⊥` on padding. -/
def dcpGatherTopkScores (logits : List S) (colOffset : ℕ) (topkIndices : List ℤ) : List S :=
  topkIndices.map fun i =>
    if i < 0 then ⊥ else logits.getD (min (i.toNat + colOffset) (logits.length - 1)) ⊥

/-- What a rank contributes for a row. -/
def pack (ids : List ℤ) (scores : List S) : List (Candidate S) :=
  List.zip scores (ids.map toFp32)

/-- The top-k of the candidates of a row; ids without a score become padding. -/
def reduceRow (T : TorchTopk S) (topk : ℕ) (lanes : List (Candidate S)) : List ℤ :=
  (T.pick (lanes.map Prod.fst) topk).map fun pos =>
    if (lanes.map Prod.fst).getD pos ⊥ = ⊥ then -1 else (lanes.map Prod.snd).getD pos 0

/-- `all_gather` along the rows: every rank gets the contributions of all, in their order. -/
def allGather {α : Type*} (W : ℕ) (packed : ℕ → List α) (_rank : ℕ) : List α :=
  (List.range W).flatMap packed

/-- `dcp_merge_global_topk`: the candidates of a row stand a rank's worth of rows apart. -/
def dcpMergeGlobalTopk (T : TorchTopk S) (W rows topk : ℕ) (gathered : List (List (Candidate S))) :
    List (List ℤ) :=
  (List.range rows).map fun i =>
    reduceRow T topk ((List.range W).flatMap fun w => gathered.getD (w * rows + i) [])

/-- A row of a rank: the logits of its request from `colOffset` on, the local winners. -/
structure RankRow (S : Type*) where
  logits : List S
  colOffset : ℕ
  topkIndices : List ℤ

/-- What a rank sends. -/
def RankRow.packed (row : RankRow S) (W rank I : ℤ) : List (Candidate S) :=
  pack (row.topkIndices.map fun l => dcpLocalPosToGlobal l W rank I)
    (dcpGatherTopkScores row.logits row.colOffset row.topkIndices)

/-- `_dcp_merge_topk_into_buffer`: the global top-k of every row, as `rank` computes it. -/
def mergeTopkIntoBuffer (T : TorchTopk S) (W : ℕ) (I : ℤ) (rows topk : ℕ)
    (input : ℕ → ℕ → RankRow S) (rank : ℕ) : List (List ℤ) :=
  dcpMergeGlobalTopk T W rows topk
    (allGather W (fun w => (List.range rows).map fun i => (input w i).packed W w I) rank)

/-! ### The top-k of a list of candidates -/

section Reduce

variable {T : TorchTopk S} {topk : ℕ} {lanes : List (Candidate S)} {score : ℤ → S}

/-- In a descending list what is above the bottom stands in front. -/
theorem filter_append_of_desc {key : ℕ → S} {l : List ℕ}
    (h : l.Pairwise fun i j => key j ≤ key i) :
    l = (l.filter fun i => decide (⊥ < key i)) ++ l.filter fun i => decide (key i = ⊥) := by
  induction l with
  | nil => rfl
  | cons i l ih =>
    obtain ⟨hi, hl⟩ := List.pairwise_cons.mp h
    rcases eq_bot_or_bot_lt (key i) with hbot | hlt
    · have hall : ∀ j ∈ l, key j = ⊥ := fun j hj => le_bot_iff.mp (hbot ▸ hi j hj)
      have h1 : (l.filter fun i => decide (⊥ < key i)) = [] :=
        List.filter_eq_nil_iff.mpr fun j hj => by simp [hall j hj]
      have h2 : (l.filter fun i => decide (key i = ⊥)) = l :=
        List.filter_eq_self.mpr fun j hj => by simp [hall j hj]
      simp [hbot, h1, h2]
    · simp only [hlt, hlt.ne', decide_true, decide_false, List.filter_cons_of_pos,
        Bool.false_eq_true, not_false_eq_true, List.filter_cons_of_neg, List.cons_append]
      rw [← ih hl]

/-- `out` is a top-k of the positions `cands`: `k` of them with the largest scores, best first,
then padding. -/
structure IsTopkOf (score : ℤ → S) (k : ℕ) (cands : Finset ℤ) (out : List ℤ) : Prop where
  exists_sel : ∃ sel : List ℤ, out = sel ++ List.replicate (k - sel.length) (-1) ∧
    sel.length ≤ k ∧ sel.Nodup ∧ sel.Pairwise (fun p q => score q ≤ score p) ∧
    IsLargest score k cands sel.toFinset

/-- The candidates above the bottom have the scores of their ids, and no two have the same. -/
theorem reduceRow_spec (hk : topk ≤ lanes.length)
    (hscore : ∀ e ∈ lanes, ⊥ < e.1 → e.1 = score e.2)
    (hapart : lanes.Pairwise fun a b => ⊥ < a.1 → ⊥ < b.1 → a.2 ≠ b.2) {cands : Finset ℤ}
    (hcands : ∀ p, p ∈ cands ↔ ∃ e ∈ lanes, ⊥ < e.1 ∧ e.2 = p) :
    IsTopkOf score topk cands (reduceRow T topk lanes) := by
  set key : ℕ → S := fun pos => (lanes.map Prod.fst).getD pos ⊥ with hkey
  set id : ℕ → ℤ := fun pos => (lanes.map Prod.snd).getD pos 0 with hid
  set picks := T.pick (lanes.map Prod.fst) topk with hpicks
  have hget : ∀ pos (h : pos < lanes.length), key pos = lanes[pos].1 ∧ id pos = lanes[pos].2 := by
    intro pos h
    simp [hkey, hid, List.getD_eq_getElem?_getD, h]
  have hlen : picks.length = topk := by
    rw [hpicks, T.length, List.length_map]
    omega
  -- the places picked are a top-k of all places
  have hplaces : IsLargest key topk (Finset.range lanes.length) picks.toFinset := by
    refine ⟨fun i hi => ?_, ?_, fun i hi j hj hji => ?_⟩
    · simpa using T.lt _ _ i (List.mem_toFinset.mp hi)
    · rw [List.toFinset_card_of_nodup (T.nodup _ _), hlen, Finset.card_range]
      omega
    · exact T.best _ _ i (List.mem_toFinset.mp hi) j (by simpa using hj)
        fun hmem => hji (List.mem_toFinset.mpr hmem)
  have habove := hplaces.above ⊥
  have hinj : Set.InjOn id ((Finset.range lanes.length).filter fun i => ⊥ < key i) := by
    intro i hi j hj hij
    simp only [Finset.coe_filter, Finset.mem_range, Set.mem_ofPred_eq] at hi hj
    have hall := List.pairwise_iff_getElem.mp hapart
    obtain ⟨hki, hii⟩ := hget i hi.1
    obtain ⟨hkj, hjj⟩ := hget j hj.1
    rcases lt_trichotomy i j with hlt | heq | hlt
    · exact absurd (hii ▸ hjj ▸ hij) (hall i j hi.1 hj.1 hlt (hki ▸ hi.2) (hkj ▸ hj.2))
    · exact heq
    · exact absurd (hii ▸ hjj ▸ hij).symm (hall j i hj.1 hi.1 hlt (hkj ▸ hj.2) (hki ▸ hi.2))
  have himage : ((Finset.range lanes.length).filter fun i => ⊥ < key i).image id = cands := by
    ext p
    rw [hcands, Finset.mem_image]
    constructor
    · rintro ⟨i, hi, rfl⟩
      rw [Finset.mem_filter, Finset.mem_range] at hi
      obtain ⟨hki, hii⟩ := hget i hi.1
      exact ⟨lanes[i], List.getElem_mem _, hki ▸ hi.2, hii.symm⟩
    · rintro ⟨e, he, hlt, rfl⟩
      obtain ⟨i, hi, rfl⟩ := List.getElem_of_mem he
      obtain ⟨hki, hii⟩ := hget i hi
      exact ⟨i, Finset.mem_filter.mpr ⟨Finset.mem_range.mpr hi, hki ▸ hlt⟩, hii⟩
  have hscore' : ∀ i ∈ (Finset.range lanes.length).filter fun i => ⊥ < key i,
      score (id i) = key i := fun i hi => by
    rw [Finset.mem_filter, Finset.mem_range] at hi
    obtain ⟨hki, hii⟩ := hget i hi.1
    have h := hscore _ (List.getElem_mem hi.1) (hki ▸ hi.2)
    exact (congrArg score hii).trans (h.symm.trans hki.symm)
  have hsel := habove.image hinj hscore'
  rw [himage] at hsel
  -- those above the bottom come first, the others become padding
  set front := picks.filter fun i => decide (⊥ < key i) with hfront
  have hmem : ∀ i ∈ front, i ∈ (Finset.range lanes.length).filter fun i => ⊥ < key i := by
    intro i hi
    simp only [hfront, List.mem_filter, decide_eq_true_eq] at hi
    rw [Finset.mem_filter, Finset.mem_range]
    exact ⟨by simpa using T.lt _ _ i hi.1, hi.2⟩
  have hsplit : picks = front ++ picks.filter fun i => decide (key i = ⊥) :=
    filter_append_of_desc (T.sorted (lanes.map Prod.fst) topk)
  have hlenSplit := congrArg List.length hsplit
  rw [List.length_append, hlen] at hlenSplit
  refine ⟨front.map id, ?_, ?_, ?_, ?_, ?_⟩
  · have hfrontOut : front.map (fun pos => if key pos = ⊥ then -1 else id pos) = front.map id :=
      List.map_congr_left fun i hi => if_neg (Finset.mem_filter.mp (hmem i hi)).2.ne'
    have hback : (picks.filter fun i => decide (key i = ⊥)).map
        (fun pos => if key pos = ⊥ then -1 else id pos) =
        List.replicate (topk - front.length) (-1) := by
      rw [List.eq_replicate_iff, List.length_map]
      refine ⟨by omega, fun x hx => ?_⟩
      obtain ⟨i, hi, rfl⟩ := List.mem_map.mp hx
      simp only [List.mem_filter, decide_eq_true_eq] at hi
      rw [if_pos hi.2]
    change picks.map (fun pos => if key pos = ⊥ then -1 else id pos) = _
    rw [List.length_map, ← hfrontOut, ← hback, ← List.map_append]
    exact congrArg _ hsplit
  · rw [List.length_map]
    omega
  · exact List.Nodup.map_on (fun i hi j hj hij => hinj (hmem i hi) (hmem j hj) hij)
      ((T.nodup _ _).filter _)
  · rw [List.pairwise_map]
    refine ((T.sorted _ _).filter _).imp_of_mem fun {i j} hi hj hij => ?_
    rw [hscore' i (hmem i hi), hscore' j (hmem j hj)]
    exact hij
  · have hset : (front.map id).toFinset = (picks.toFinset.filter fun i => ⊥ < key i).image id := by
      ext p
      simp [hfront]
    rw [hset]
    exact hsel

end Reduce

/-! ### What the ranks contribute -/

/-- The places of a row that are not padding. -/
def winners (topkIndices : List ℤ) : List ℤ :=
  topkIndices.filter fun l => decide (0 ≤ l)

/-- A rank's row of a prefix of `n` tokens: the logits are the scores of its positions, and the
winners are a top-k of them, with padding for what is missing. -/
structure LocalTopk (score : ℤ → S) (n W I : ℤ) (topk : ℕ) (rank : ℤ) (row : RankRow S) :
    Prop where
  logits_at : ∀ l, 0 ≤ l → l < dcpLocalCountFromGlobal n W rank I →
    row.logits[l.toNat + row.colOffset]? = some (score (dcpLocalPosToGlobal l W rank I))
  length : row.topkIndices.length = topk
  nodup : (winners row.topkIndices).Nodup
  largest : IsLargest (fun l => score (dcpLocalPosToGlobal l W rank I)) topk
    (Finset.Ico 0 (dcpLocalCountFromGlobal n W rank I)) (winners row.topkIndices).toFinset

section Rank

variable {score : ℤ → S} {n W I rank : ℤ} {topk : ℕ} {row : RankRow S}

/-- The candidate made of a local winner. -/
def RankRow.candidate (row : RankRow S) (W rank I l : ℤ) : Candidate S :=
  (if l < 0 then ⊥ else row.logits.getD (min (l.toNat + row.colOffset) (row.logits.length - 1)) ⊥,
    toFp32 (dcpLocalPosToGlobal l W rank I))

theorem RankRow.packed_eq (row : RankRow S) (W rank I : ℤ) :
    row.packed W rank I = row.topkIndices.map (row.candidate W rank I) := by
  simp only [RankRow.packed, pack, dcpGatherTopkScores, List.map_map, List.zip_map']
  rfl

/-- Padding has no score. -/
theorem RankRow.candidate_pad {l : ℤ} (h : l < 0) : (row.candidate W rank I l).1 = ⊥ :=
  if_pos h

/-- A winner travels with its score and its position. -/
theorem LocalTopk.candidate_eq (h : LocalTopk score n W I topk rank row) (hI : 0 < I)
    (hr : 0 ≤ rank) (hrW : rank < W) (hn : n ≤ maxFp32ExactId) {l : ℤ}
    (hl : l ∈ winners row.topkIndices) :
    row.candidate W rank I l = (score (dcpLocalPosToGlobal l W rank I),
      dcpLocalPosToGlobal l W rank I) ∧
      dcpLocalPosToGlobal l W rank I ∈ Finset.Ico 0 n := by
  have hmem := h.largest.subset (List.mem_toFinset.mpr hl)
  rw [Finset.mem_Ico] at hmem
  have hlt := (lt_localCount_iff hI hr hrW n hmem.1).mp hmem.2
  have hnn := dcpLocalPosToGlobal_nonneg (show 0 ≤ W by omega) hI hr hmem.1
  have hget := h.logits_at l hmem.1 hmem.2
  have hwidth := (List.getElem?_eq_some_iff.mp hget).1
  have hcol : min (l.toNat + row.colOffset) (row.logits.length - 1) =
      l.toNat + row.colOffset := by omega
  refine ⟨?_, Finset.mem_Ico.mpr ⟨hnn, hlt⟩⟩
  rw [RankRow.candidate, if_neg (not_lt.mpr hmem.1), hcol, List.getD_eq_getElem?_getD, hget,
    toFp32_of_le hnn (hlt.le.trans hn)]
  rfl

/-- A candidate with a score is a winner's. -/
theorem LocalTopk.of_mem_packed (h : LocalTopk score n W I topk rank row) (hI : 0 < I)
    (hr : 0 ≤ rank) (hrW : rank < W) (hn : n ≤ maxFp32ExactId) {e : Candidate S}
    (he : e ∈ row.packed W rank I) (hlt : ⊥ < e.1) :
    ∃ l ∈ winners row.topkIndices, e = (score (dcpLocalPosToGlobal l W rank I),
      dcpLocalPosToGlobal l W rank I) := by
  rw [RankRow.packed_eq] at he
  obtain ⟨l, hl, rfl⟩ := List.mem_map.mp he
  have hwin : l ∈ winners row.topkIndices := by
    refine List.mem_filter.mpr ⟨hl, decide_eq_true ?_⟩
    by_contra hneg
    rw [RankRow.candidate_pad (not_le.mp hneg)] at hlt
    exact lt_irrefl _ hlt
  exact ⟨l, hwin, (h.candidate_eq hI hr hrW hn hwin).1⟩

/-- A rank sends no position twice. -/
theorem LocalTopk.pairwise_packed (h : LocalTopk score n W I topk rank row) (hI : 0 < I)
    (hr : 0 ≤ rank) (hrW : rank < W) (hn : n ≤ maxFp32ExactId) :
    (row.packed W rank I).Pairwise fun a b => ⊥ < a.1 → ⊥ < b.1 → a.2 ≠ b.2 := by
  rw [RankRow.packed_eq, List.pairwise_map]
  have hnodup := List.pairwise_filter.mp h.nodup
  refine hnodup.imp_of_mem fun {l l'} hl hl' hne hlt hlt' heq => ?_
  have hwin : ∀ x ∈ row.topkIndices, ⊥ < (row.candidate W rank I x).1 → 0 ≤ x := by
    intro x _ hx
    by_contra hneg
    rw [RankRow.candidate_pad (not_le.mp hneg)] at hx
    exact lt_irrefl _ hx
  have h0 := hwin l hl hlt
  have h0' := hwin l' hl' hlt'
  rw [(h.candidate_eq hI hr hrW hn (List.mem_filter.mpr ⟨hl, decide_eq_true h0⟩)).1,
    (h.candidate_eq hI hr hrW hn (List.mem_filter.mpr ⟨hl', decide_eq_true h0'⟩)).1] at heq
  -- a local position can be read off its global one
  have hpos := congrArg (layoutPos W I) heq
  rw [(layout_dcpLocalPosToGlobal (by omega) hI hr hrW h0).2,
    (layout_dcpLocalPosToGlobal (by omega) hI hr hrW h0').2] at hpos
  exact hne (decide_eq_true h0) (decide_eq_true h0') hpos

omit [OrderBot S] in
/-- The winners of a rank are a top-k of its positions among all. -/
theorem LocalTopk.isLargest_image (h : LocalTopk score n W I topk rank row) (hI : 0 < I)
    (hr : 0 ≤ rank) (hrW : rank < W) : IsLargest score topk
      ((Finset.Ico 0 (dcpLocalCountFromGlobal n W rank I)).image
        fun l => dcpLocalPosToGlobal l W rank I)
      ((winners row.topkIndices).toFinset.image fun l => dcpLocalPosToGlobal l W rank I) := by
  refine h.largest.image (fun l hl l' hl' heq => ?_) fun _ _ => rfl
  rw [Finset.mem_coe, Finset.mem_Ico] at hl hl'
  have hpos := congrArg (layoutPos W I) heq
  rwa [(layout_dcpLocalPosToGlobal (by omega) hI hr hrW hl.1).2,
    (layout_dcpLocalPosToGlobal (by omega) hI hr hrW hl'.1).2] at hpos

end Rank

/-! ### The exchange -/

/-- The rows of the gathered tensor. -/
theorem getD_allGather {α : Type*} {packed : ℕ → List α} {rows : ℕ}
    (h : ∀ w, (packed w).length = rows) {W w i : ℕ} (hw : w < W) (hi : i < rows) (rank : ℕ)
    (d : α) : (allGather W packed rank).getD (w * rows + i) d = (packed w).getD i d := by
  have hlen : ∀ k, ((List.range k).flatMap packed).length = k * rows := by
    intro k
    induction k with
    | zero => simp
    | succ k ih => rw [List.range_succ, List.flatMap_append, List.length_append, ih,
        List.flatMap_singleton, h, Nat.succ_mul]
  induction W with
  | zero => omega
  | succ W ih =>
    have hsplit : allGather (W + 1) packed rank = (List.range W).flatMap packed ++ packed W := by
      rw [allGather, List.range_succ, List.flatMap_append, List.flatMap_singleton]
    rw [hsplit]
    rcases Nat.lt_succ_iff_lt_or_eq.mp hw with hlt | rfl
    · have hle : (w + 1) * rows ≤ W * rows := Nat.mul_le_mul_right rows hlt
      rw [Nat.succ_mul] at hle
      rw [List.getD_eq_getElem?_getD, List.getElem?_append_left (by rw [hlen]; omega),
        ← List.getD_eq_getElem?_getD]
      exact ih hlt
    · rw [List.getD_eq_getElem?_getD, List.getElem?_append_right (by rw [hlen]; omega), hlen,
        Nat.add_sub_cancel_left, ← List.getD_eq_getElem?_getD]

section Exchange

variable {T : TorchTopk S} {W rows topk : ℕ} {I : ℤ} {input : ℕ → ℕ → RankRow S}

/-- The candidates of a row, in the order of the ranks. -/
def lanes (W : ℕ) (I : ℤ) (input : ℕ → ℕ → RankRow S) (i : ℕ) : List (Candidate S) :=
  (List.range W).flatMap fun w => (input w i).packed W w I

/-- Every rank reduces the candidates of all. -/
theorem mergeTopkIntoBuffer_eq (rank : ℕ) : mergeTopkIntoBuffer T W I rows topk input rank =
    (List.range rows).map fun i => reduceRow T topk (lanes W I input i) := by
  refine List.map_congr_left fun i hi => ?_
  rw [List.mem_range] at hi
  refine congrArg (reduceRow T topk) (List.flatMap_congr fun w hw => ?_)
  rw [getD_allGather (by simp) (List.mem_range.mp hw) hi]
  simp [List.getD_eq_getElem?_getD, hi]

variable {score : ℤ → S} {n : ℤ} {i : ℕ}

/-- The positions that the ranks store are those of the prefix. -/
theorem biUnion_positions (hW : 0 < W) (hI : 0 < I) (n : ℤ) :
    ((Finset.range W).biUnion fun w => (Finset.Ico 0 (dcpLocalCountFromGlobal n W w I)).image
      fun l => dcpLocalPosToGlobal l W w I) = Finset.Ico 0 n := by
  ext p
  simp only [Finset.mem_biUnion, Finset.mem_range, Finset.mem_image, Finset.mem_Ico]
  constructor
  · rintro ⟨w, hw, l, ⟨hl, hlt⟩, rfl⟩
    exact ⟨dcpLocalPosToGlobal_nonneg (by omega) hI (by omega) hl,
      (lt_localCount_iff hI (by omega) (by omega) n hl).mp hlt⟩
  · rintro ⟨hp, hlt⟩
    have hW' : 0 < (W : ℤ) := by omega
    obtain ⟨hr, hrW⟩ := layoutRank_bounds hW' I p
    obtain ⟨hl, hglobal⟩ := dcpLocalPosToGlobal_layoutPos hW' hI hp
    have hcast : (((layoutRank W I p).toNat : ℕ) : ℤ) = layoutRank W I p := by omega
    refine ⟨(layoutRank W I p).toNat, by omega, layoutPos W I p, ⟨hl, ?_⟩, ?_⟩
    · rw [hcast, lt_localCount_iff hI hr hrW n hl, hglobal]
      exact hlt
    · rw [hcast, hglobal]

/-- The row that the ranks compute is a top-k of the whole prefix. -/
theorem reduceRow_lanes (hW : 0 < W) (hI : 0 < I) (hn : n ≤ maxFp32ExactId)
    (hin : ∀ w < W, LocalTopk score n W I topk w (input w i)) :
    IsTopkOf score topk ((Finset.Ico 0 n).filter fun p => ⊥ < score p)
      (reduceRow T topk (lanes W I input i)) := by
  have hmem : ∀ e, e ∈ lanes W I input i ↔ ∃ w < W, e ∈ (input w i).packed W w I := by
    simp [lanes]
  have hwin : ∀ e ∈ lanes W I input i, ⊥ < e.1 → ∃ w < W, ∃ l ∈ winners (input w i).topkIndices,
      e = (score (dcpLocalPosToGlobal l W w I), dcpLocalPosToGlobal l W w I) := by
    intro e he hlt
    obtain ⟨w, hw, he⟩ := (hmem e).mp he
    exact ⟨w, hw, (hin w hw).of_mem_packed hI (by omega) (by omega) hn he hlt⟩
  have hlen : topk ≤ (lanes W I input i).length := by
    obtain ⟨W, rfl⟩ := Nat.exists_eq_succ_of_ne_zero hW.ne'
    rw [lanes, List.range_succ_eq_map, List.flatMap_cons, List.length_append, RankRow.packed_eq,
      List.length_map, (hin 0 hW).length]
    omega
  have hapart : (lanes W I input i).Pairwise fun a b => ⊥ < a.1 → ⊥ < b.1 → a.2 ≠ b.2 := by
    rw [lanes, List.pairwise_flatMap]
    refine ⟨fun w hw => ?_, ?_⟩
    · have hw := List.mem_range.mp hw
      exact (hin w hw).pairwise_packed hI (by omega) (by omega) hn
    · -- two ranks store different positions
      refine List.pairwise_lt_range.imp_of_mem fun {w w'} hw hw' hlt a ha b hb hsa hsb heq => ?_
      have hw := List.mem_range.mp hw
      have hw' := List.mem_range.mp hw'
      obtain ⟨l, hl, rfl⟩ := (hin w hw).of_mem_packed hI (by omega) (by omega) hn ha hsa
      obtain ⟨l', hl', rfl⟩ := (hin w' hw').of_mem_packed hI (by omega) (by omega) hn hb hsb
      have h0 : 0 ≤ l := of_decide_eq_true (List.mem_filter.mp hl).2
      have h0' : 0 ≤ l' := of_decide_eq_true (List.mem_filter.mp hl').2
      have hrank := congrArg (layoutRank W I) heq
      dsimp only at hrank
      rw [(layout_dcpLocalPosToGlobal (by omega) hI (by omega) (by omega) h0).1,
        (layout_dcpLocalPosToGlobal (by omega) hI (by omega) (by omega) h0').1] at hrank
      omega
  have hcands : ∀ p, (p ∈ (Finset.range W).biUnion fun w =>
      ((winners (input w i).topkIndices).toFinset.image
        fun l => dcpLocalPosToGlobal l W w I).filter fun p => ⊥ < score p) ↔
      ∃ e ∈ lanes W I input i, ⊥ < e.1 ∧ e.2 = p := by
    intro p
    simp only [Finset.mem_biUnion, Finset.mem_range, Finset.mem_filter, Finset.mem_image,
      List.mem_toFinset]
    constructor
    · rintro ⟨w, hw, ⟨l, hl, rfl⟩, hlt⟩
      refine ⟨(input w i).candidate W w I l, (hmem _).mpr ⟨w, hw, ?_⟩, ?_⟩
      · rw [RankRow.packed_eq]
        exact List.mem_map_of_mem (List.mem_filter.mp hl).1
      · rw [((hin w hw).candidate_eq hI (by omega) (by omega) hn hl).1]
        exact ⟨hlt, rfl⟩
    · rintro ⟨e, he, hlt, rfl⟩
      obtain ⟨w, hw, l, hl, rfl⟩ := hwin e he hlt
      exact ⟨w, hw, ⟨l, hl, rfl⟩, hlt⟩
  have hscore : ∀ e ∈ lanes W I input i, ⊥ < e.1 → e.1 = score e.2 := by
    intro e he hlt
    obtain ⟨w, hw, l, hl, rfl⟩ := hwin e he hlt
    rfl
  obtain ⟨sel, hout, hle, hnodup, hsorted, hlargest⟩ :=
    (reduceRow_spec hlen hscore hapart hcands).exists_sel
  refine ⟨sel, hout, hle, hnodup, hsorted, ?_⟩
  -- a top-k of the ranks' top-ks is a top-k of all positions
  have hloc : ∀ w ∈ Finset.range W, IsLargest score topk
      (((Finset.Ico 0 (dcpLocalCountFromGlobal n W w I)).image
        fun l => dcpLocalPosToGlobal l W w I).filter fun p => ⊥ < score p)
      (((winners (input w i).topkIndices).toFinset.image
        fun l => dcpLocalPosToGlobal l W w I).filter fun p => ⊥ < score p) := by
    intro w hw
    have hw := Finset.mem_range.mp hw
    exact ((hin w hw).isLargest_image hI (by omega) (by omega)).above ⊥
  have hmerge := IsLargest.biUnion hloc hlargest
  rwa [← Finset.filter_biUnion, biUnion_positions hW hI] at hmerge

end Exchange

/-! ### Sharded selection -/

/-- A position of a prefix is read by one rank, which stores it at the local position it
reads. -/
structure ReadOnce (W I n p : ℤ) : Prop where
  stored : 0 ≤ layoutPos W I p ∧
    layoutPos W I p < dcpLocalCountFromGlobal n W (layoutRank W I p) I
  read : ∀ rank, 0 ≤ rank → rank < W → convertTok W rank I p =
    if layoutRank W I p = rank then some (layoutPos W I p) else none

/-- Every position of a prefix is read once. -/
theorem readOnce_of_mem {W I n p : ℤ} (hW : 0 < W) (hI : 0 < I) (hp : p ∈ Finset.Ico 0 n) :
    ReadOnce W I n p := by
  rw [Finset.mem_Ico] at hp
  obtain ⟨hr, hrW⟩ := layoutRank_bounds hW I p
  obtain ⟨hl, hglobal⟩ := dcpLocalPosToGlobal_layoutPos hW hI hp.1
  refine ⟨⟨hl, ?_⟩, fun rank h h' => convertTok_eq hW hI hp.1 h h'⟩
  rw [lt_localCount_iff hI hr hrW n hl, hglobal]
  exact hp.2

/-- **Sharded selection is selection.** For every number of ranks and interleave: the ranks'
counts add up to the length of a prefix and a local position is stored just when its global one
is in the prefix; and when every rank sends a top-k of its own scores, all ranks get the same
rows, each a top-k of the scores of the whole prefix above minus infinity, of which every
position is read by one rank, where it is stored. -/
theorem sharded_topk (T : TorchTopk S) {W : ℕ} (hW : 0 < W) {I : ℤ} (hI : 0 < I)
    {rows topk : ℕ} {n : ℕ → ℤ} (hn : ∀ i < rows, n i ≤ maxFp32ExactId) {score : ℕ → ℤ → S}
    {input : ℕ → ℕ → RankRow S}
    (hin : ∀ i < rows, ∀ w < W, LocalTopk (score i) (n i) W I topk w (input w i)) :
    (∀ m, ∑ rank ∈ Finset.range W, dcpLocalCountFromGlobal m W rank I = m) ∧
    (∀ m rank, dcpLocalCountInt m W rank I = dcpLocalCountFromGlobal m W rank I) ∧
    (∀ m rank l, 0 ≤ rank → rank < (W : ℤ) → 0 ≤ l →
      (l < dcpLocalCountFromGlobal m W rank I ↔ dcpLocalPosToGlobal l W rank I < m)) ∧
    ∃ out : ℕ → List ℤ,
      (∀ rank < W, mergeTopkIntoBuffer T W I rows topk input rank = (List.range rows).map out) ∧
      ∀ i < rows,
        IsTopkOf (score i) topk ((Finset.Ico 0 (n i)).filter fun p => ⊥ < score i p) (out i) ∧
        ∀ p ∈ out i, (p = -1 ∧ ∀ rank, convertTok W rank I p = none) ∨ ReadOnce W I (n i) p := by
  refine ⟨sum_localCount W hW hI, fun m rank => dcpLocalCountInt_eq m rank,
    fun m rank l hr hrW hl => lt_localCount_iff hI hr hrW m hl,
    fun i => reduceRow T topk (lanes W I input i), fun rank _ => mergeTopkIntoBuffer_eq rank,
    fun i hi => ?_⟩
  have htop := reduceRow_lanes (T := T) hW hI (hn i hi) (hin i hi)
  refine ⟨htop, fun p hp => ?_⟩
  obtain ⟨sel, hout, -, -, -, hlargest⟩ := htop.exists_sel
  change p ∈ reduceRow T topk (lanes W I input i) at hp
  rw [hout, List.mem_append, List.mem_replicate] at hp
  rcases hp with hp | ⟨-, rfl⟩
  · have hmem := hlargest.subset (List.mem_toFinset.mpr hp)
    exact .inr (readOnce_of_mem (by omega) hI (Finset.mem_filter.mp hmem).1)
  · exact .inl ⟨rfl, fun rank => by simp [convertTok]⟩

/-- Three tokens over two ranks: the first and the last on rank `0`, with a tie. -/
def smallInput (w _i : ℕ) : RankRow ℕ :=
  if w = 0 then ⟨[5, 5], 0, [1, 0]⟩ else ⟨[9, 7], 1, [0, -1]⟩

/-- Two of the three tokens are selected, the same on both ranks. -/
theorem sharded_topk_small : ∃ out : List ℤ,
    mergeTopkIntoBuffer TorchTopk.bySorting 2 1 1 2 smallInput 0 = [out] ∧
    mergeTopkIntoBuffer TorchTopk.bySorting 2 1 1 2 smallInput 1 = [out] ∧
    IsTopkOf (fun p : ℤ => if p = 1 then 7 else 5) 2
      ((Finset.Ico 0 3).filter fun p : ℤ => ⊥ < if p = 1 then 7 else 5) out := by
  have hin : ∀ i < 1, ∀ w : ℕ, w < 2 → LocalTopk (fun p : ℤ => if p = 1 then 7 else 5) 3 (2 : ℕ) 1 2 w
      (smallInput w i) := by
    intro i hi w hw
    obtain rfl : i = 0 := by omega
    interval_cases w
    · refine ⟨fun l h0 hlt => ?_, rfl, by decide, ⟨by decide, by decide, by decide⟩⟩
      have hlt' : l < 2 := hlt
      interval_cases l <;> rfl
    · refine ⟨fun l h0 hlt => ?_, rfl, by decide, ⟨by decide, by decide, by decide⟩⟩
      have hlt' : l < 1 := hlt
      interval_cases l
      rfl
  obtain ⟨-, -, -, out, hsame, htop⟩ := sharded_topk TorchTopk.bySorting (by decide) (by decide)
    (n := fun _ => 3) (fun _ _ => by decide) hin
  exact ⟨out 0, hsame 0 (by decide), hsame 1 (by decide), (htop 0 (by decide)).1⟩

end VllmMoet.Sparse
