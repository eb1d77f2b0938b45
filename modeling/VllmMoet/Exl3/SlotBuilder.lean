import Mathlib.Algebra.Order.BigOperators.Group.Finset
import Mathlib.Algebra.Order.Floor.Div
import Mathlib.GroupTheory.GroupAction.Ring
import VllmMoet.Lib.Blocks

/-!
# The slots of the x4 prefill route

`build_x4_slots` cuts the assignments of every expert, which lie one after the other in lists
sorted by expert, into slots of at most 64 rows, and fills up to a multiple of six slots with empty
ones that ride on expert 0. A row that holds no assignment carries token `-1` and weight `0`.

`slots_cover`: the slots of an expert hold its assignments, each once and in their order.
-/

namespace VllmMoet

namespace Exl3

open Finset (range)

/-- What the builder returns: a row map and row weights of 64 rows a slot, the slots' experts and
the number of groups of six. -/
structure Slots (H : Type*) where
  rowMap : List (List ℤ)
  rowWts : List (List H)
  slotExpert : List ℕ
  groups : ℕ

/-- The slots: each one's expert, and its rows' tokens and weights. -/
def Slots.rows {H : Type*} (r : Slots H) : List (ℕ × List (ℤ × H)) :=
  r.slotExpert.zip (List.zipWith List.zip r.rowMap r.rowWts)

/-- The assignments in a slot's rows. -/
def validRows {H : Type*} (rows : List (ℤ × H)) : List (ℤ × H) :=
  rows.filter (0 ≤ ·.1)

section Build

variable (E : ℕ) (counts : ℕ → ℕ)

/-- The slots of an expert. -/
def seg (e : ℕ) : ℕ := (counts e + 63) / 64

def nSlots : ℕ := ∑ e ∈ range E, seg counts e

/-- `cumsum(counts) - counts`: where an expert's assignments begin. -/
def starts (e : ℕ) : ℕ := ∑ j ∈ range e, counts j

/-- `repeat_interleave(arange(E), seg)`: the expert of a slot. -/
def slotE : List ℕ := repeatInterleave id (seg counts) E

/-- The place of a slot among those of its expert. -/
def segix (k : ℕ) : ℕ :=
  k - (repeatInterleave (fun e => ∑ j ∈ range e, seg counts j) (seg counts) E).getD k 0

/-- The rows of a slot with a list's entries, `pad` where there is no assignment. The gather is
clamped to the list. -/
def slotRow {α : Type*} (n : ℕ) (get : ℕ → α) (pad : α) (e j : ℕ) : List α :=
  (List.range 64).map fun i =>
    if starts counts e + j * 64 + i < starts counts e + counts e then
      get (min (starts counts e + j * 64 + i) (max (n - 1) 0))
    else pad

variable {W H : Type*} [Zero W] [Zero H] (half : W → H) (tok : List ℕ) (wts : List W)

/-- `build_x4_slots`, `none` if nothing is routed. `half` converts a weight to half precision. -/
def buildX4Slots : Option (Slots H) :=
  if nSlots E counts = 0 then none
  else
    let G := (nSlots E counts + 5) / 6
    let pad := 6 * G - nSlots E counts
    some
      { rowMap :=
          ((List.range (nSlots E counts)).map fun k =>
            slotRow counts tok.length (fun i => (tok.getD i 0 : ℤ)) (-1)
              ((slotE E counts).getD k 0) (segix E counts k)) ++
            List.replicate pad (List.replicate 64 (-1))
        rowWts :=
          ((List.range (nSlots E counts)).map fun k =>
            (slotRow counts tok.length (fun i => wts.getD i 0) 0
              ((slotE E counts).getD k 0) (segix E counts k)).map half) ++
            List.replicate pad (List.replicate 64 0)
        slotExpert := slotE E counts ++ List.replicate pad 0
        groups := G }

/-- The assignments of an expert: its segment of the lists. -/
def segment (e : ℕ) : List (ℤ × H) :=
  (((tok.zip wts).drop (starts counts e)).take (counts e)).map fun p => ((p.1 : ℤ), half p.2)

end Build

/-! ### The slots of an expert -/

section Cover

variable {E : ℕ} {counts : ℕ → ℕ} {W H : Type*} [Zero W] [Zero H] {half : W → H} {tok : List ℕ}
  {wts : List W}

/-- The row of a slot as a pair: the `i`-th row of the `j`-th slot of an expert. -/
def slotCell (counts : ℕ → ℕ) (half : W → H) (tok : List ℕ) (wts : List W) (e j i : ℕ) : ℤ × H :=
  if j * 64 + i < counts e then
    ((tok.getD (starts counts e + (j * 64 + i)) 0 : ℤ),
      half (wts.getD (starts counts e + (j * 64 + i)) 0))
  else (-1, 0)

/-- An expert's segment ends within the lists. -/
theorem starts_add_le (counts : ℕ → ℕ) {e : ℕ} (he : e < E) :
    starts counts e + counts e ≤ ∑ e ∈ range E, counts e := by
  rw [starts, ← Finset.sum_range_succ]
  exact Finset.sum_le_sum_of_subset (Finset.range_mono he)

/-- A valid row's gather is not clamped. -/
theorem zip_slotRow (hhalf : half 0 = 0) (htok : tok.length = ∑ e ∈ range E, counts e) {e : ℕ}
    (he : e < E) (j : ℕ) :
    (slotRow counts tok.length (fun i => (tok.getD i 0 : ℤ)) (-1) e j).zip
      ((slotRow counts tok.length (fun i => wts.getD i 0) 0 e j).map half) =
    (List.range 64).map (slotCell counts half tok wts e j) := by
  have hend := starts_add_le counts he
  rw [slotRow, slotRow, List.map_map, List.zip_map']
  refine List.map_congr_left fun i _ => ?_
  rw [slotCell, Function.comp_apply, Nat.add_assoc (starts counts e)]
  by_cases hvalid : j * 64 + i < counts e
  · have hclamp : min (starts counts e + (j * 64 + i)) (max (tok.length - 1) 0) =
        starts counts e + (j * 64 + i) := by omega
    rw [if_pos (by omega), if_pos (by omega), if_pos hvalid, hclamp]
  · rw [if_neg (by omega), if_neg (by omega), if_neg hvalid, hhalf]

theorem slotE_eq_map : slotE E counts =
    (List.range (nSlots E counts)).map fun k => (slotE E counts).getD k 0 := by
  have hlen : (slotE E counts).length = nSlots E counts := length_repeatInterleave _ _ _
  refine List.ext_getElem (by rw [List.length_map, List.length_range, hlen]) fun k hk _ => ?_
  rw [List.getElem_map, List.getElem_range, List.getD_eq_getElem _ _ hk]

/-- The slots: those of each expert in turn, then the empty ones. -/
theorem rows_buildX4Slots (hhalf : half 0 = 0) (htok : tok.length = ∑ e ∈ range E, counts e)
    {r : Slots H} (hr : buildX4Slots E counts half tok wts = some r) :
    r.rows = ((List.range E).flatMap fun e => (List.range (seg counts e)).map fun j =>
        (e, (List.range 64).map (slotCell counts half tok wts e j))) ++
      List.replicate (6 * ((nSlots E counts + 5) / 6) - nSlots E counts)
        (0, List.replicate 64 (-1, 0)) := by
  rw [buildX4Slots] at hr
  split at hr
  · exact absurd hr (Option.some_ne_none r).symm
  obtain rfl := Option.some.inj hr
  have hlen : (slotE E counts).length = nSlots E counts := length_repeatInterleave _ _ _
  have hflat := map_repeatInterleave (fun e j =>
    (e, (slotRow counts tok.length (fun i => (tok.getD i 0 : ℤ)) (-1) e j).zip
      ((slotRow counts tok.length (fun i => wts.getD i 0) 0 e j).map half))) (seg counts) E
  rw [Slots.rows]
  dsimp only
  rw [List.zipWith_append (by simp), List.zip_append (by simp [hlen])]
  congr 1
  · rw [List.zipWith_map, List.zipWith_self]
    nth_rewrite 1 [slotE_eq_map]
    rw [List.zip_map']
    refine hflat.trans ?_
    refine List.flatMap_congr fun e he => List.map_congr_left fun j _ => ?_
    rw [zip_slotRow hhalf htok (List.mem_range.mp he)]
  · rw [List.zipWith_replicate, List.zip_replicate, Nat.min_self, Nat.min_self, List.zip_replicate,
      Nat.min_self]

/-- The valid rows of an expert's slots. -/
theorem flatMap_validRows (counts : ℕ → ℕ) (half : W → H) (tok : List ℕ) (wts : List W) (e : ℕ) :
    ((List.range (seg counts e)).flatMap fun j =>
      validRows ((List.range 64).map (slotCell counts half tok wts e j))) =
    (List.range (counts e)).map fun n =>
      ((tok.getD (starts counts e + n) 0 : ℤ), half (wts.getD (starts counts e + n) 0)) := by
  have hrow : ∀ j, validRows ((List.range 64).map (slotCell counts half tok wts e j)) =
      (((List.range 64).map (j * 64 + ·)).filter (· < counts e)).map fun n =>
        ((tok.getD (starts counts e + n) 0 : ℤ), half (wts.getD (starts counts e + n) 0)) := by
    intro j
    rw [validRows, List.filter_map, List.filter_map, List.map_map]
    have hsame : ∀ i, ((fun p : ℤ × H => decide (0 ≤ p.1)) ∘ slotCell counts half tok wts e j) i =
        ((fun n => decide (n < counts e)) ∘ (j * 64 + ·)) i := by
      intro i
      rw [Function.comp_apply, Function.comp_apply, slotCell]
      split
      · next h => simp [h]
      · next h => simp [h]
    rw [List.filter_congr fun i _ => hsame i]
    refine List.map_congr_left fun i hi => ?_
    have hlt : j * 64 + i < counts e := of_decide_eq_true (List.mem_filter.mp hi).2
    rw [slotCell, if_pos hlt]
    rfl
  have hcover : counts e ≤ seg counts e * 64 := by
    rw [seg]
    omega
  rw [List.flatMap_congr fun j _ => hrow j, ← List.map_flatMap, flatMap_blocks hcover]

omit [Zero H] in
/-- An expert's segment, entry by entry. -/
theorem segment_eq (htok : tok.length = ∑ e ∈ range E, counts e)
    (hwts : wts.length = ∑ e ∈ range E, counts e) {e : ℕ} (he : e < E) :
    segment counts half tok wts e = (List.range (counts e)).map fun n =>
      ((tok.getD (starts counts e + n) 0 : ℤ), half (wts.getD (starts counts e + n) 0)) := by
  have hend := starts_add_le counts he
  have hzip : (tok.zip wts).length = ∑ e ∈ range E, counts e := by
    rw [List.length_zip, htok, hwts, Nat.min_self]
  refine List.ext_getElem ?_ fun n hn hn' => ?_
  · rw [segment, List.length_map, List.length_take, List.length_drop, List.length_map,
      List.length_range]
    omega
  · rw [List.length_map, List.length_range] at hn'
    rw [List.getElem_map, List.getElem_range, List.getD_eq_getElem _ _ (by omega),
      List.getD_eq_getElem _ _ (by omega)]
    simp only [segment, List.getElem_map, List.getElem_take, List.getElem_drop, List.getElem_zip]

/-- A slot without valid rows is one of those that fill up the last group. -/
theorem validRows_replicate (n : ℕ) : validRows (List.replicate n ((-1 : ℤ), (0 : H))) = [] := by
  refine List.filter_eq_nil_iff.mpr fun p hp => ?_
  rw [List.eq_of_mem_replicate hp]
  exact of_decide_eq_false rfl

/-- Nothing is routed exactly if no expert has an assignment. -/
theorem nSlots_eq_zero : nSlots E counts = 0 ↔ ∀ e < E, counts e = 0 := by
  rw [nSlots, Finset.sum_eq_zero_iff]
  refine forall_congr' fun e => ?_
  rw [Finset.mem_range, seg]
  exact imp_congr_right fun _ => by omega

theorem nSlots_eq : nSlots E counts = ∑ e ∈ range E, counts e ⌈/⌉ 64 :=
  Finset.sum_congr rfl fun e _ => by rw [Nat.ceilDiv_eq_add_pred_div]; rfl

/-- Every part of the result has the same number of slots. -/
theorem length_buildX4Slots {r : Slots H} (hr : buildX4Slots E counts half tok wts = some r) :
    r.rowMap.length = 6 * r.groups ∧ r.rowWts.length = 6 * r.groups ∧
      r.slotExpert.length = 6 * r.groups ∧ r.groups = (nSlots E counts + 5) / 6 ∧
      nSlots E counts ≠ 0 := by
  rw [buildX4Slots] at hr
  split at hr
  · exact absurd hr (Option.some_ne_none r).symm
  · next hne =>
    obtain rfl := Option.some.inj hr
    have hlen : (slotE E counts).length = nSlots E counts := length_repeatInterleave _ _ _
    have hpad : nSlots E counts + (6 * ((nSlots E counts + 5) / 6) - nSlots E counts) =
        6 * ((nSlots E counts + 5) / 6) := by omega
    refine ⟨?_, ?_, ?_, rfl, hne⟩
    · rw [List.length_append, List.length_map, List.length_range, List.length_replicate, hpad]
    · rw [List.length_append, List.length_map, List.length_range, List.length_replicate, hpad]
    · rw [List.length_append, hlen, List.length_replicate, hpad]

/-- The slots of one expert. -/
theorem filter_rows {e : ℕ} (he : e < E) :
    ((List.range E).flatMap fun e => (List.range (seg counts e)).map fun j =>
      (e, (List.range 64).map (slotCell counts half tok wts e j))).filter (·.1 = e) =
    (List.range (seg counts e)).map fun j =>
      (e, (List.range 64).map (slotCell counts half tok wts e j)) := by
  rw [List.filter_flatMap]
  refine Eq.trans (List.flatMap_congr fun e' _ => ?_) (flatMap_range_single (fun e =>
    (List.range (seg counts e)).map fun j =>
      (e, (List.range 64).map (slotCell counts half tok wts e j))) he)
  split
  · next h =>
    refine List.filter_eq_self.mpr fun s hs => ?_
    obtain ⟨j, -, rfl⟩ := List.mem_map.mp hs
    exact decide_eq_true h
  · next h =>
    refine List.filter_eq_nil_iff.mpr fun s hs => ?_
    obtain ⟨j, -, rfl⟩ := List.mem_map.mp hs
    exact fun heq => h (of_decide_eq_true heq)

/-- **The slots cover every assignment once.** For any counts and any token and weight lists of
their total length: nothing is returned exactly if all counts are zero; otherwise the number of
slots is a multiple of six, each of them is one expert's and has 64 rows, the valid rows of the
slots of an expert are one after the other its segment of the lists, and every other row carries
token `-1` and weight `0`. -/
theorem slots_cover (E : ℕ) (counts : ℕ → ℕ) {W H : Type*} [Zero W] [Zero H] (half : W → H)
    (hhalf : half 0 = 0) (tok : List ℕ) (wts : List W)
    (htok : tok.length = ∑ e ∈ range E, counts e) (hwts : wts.length = ∑ e ∈ range E, counts e) :
    (buildX4Slots E counts half tok wts = none ↔ ∀ e < E, counts e = 0) ∧
    ∀ r, buildX4Slots E counts half tok wts = some r →
      r.rows.length = 6 * ((∑ e ∈ range E, counts e ⌈/⌉ 64) ⌈/⌉ 6) ∧
      r.rowMap.length = r.rows.length ∧ r.rowWts.length = r.rows.length ∧
      r.slotExpert.length = r.rows.length ∧ 6 * r.groups = r.rows.length ∧
      (∀ s ∈ r.rows, s.1 < E ∧ s.2.length = 64 ∧ ∀ p ∈ s.2, 0 ≤ p.1 ∨ p = (-1, 0)) ∧
      ∀ e < E, ((r.rows.filter (·.1 = e)).flatMap fun s => validRows s.2) =
        segment counts half tok wts e := by
  constructor
  · rw [← nSlots_eq_zero, buildX4Slots]
    split
    · next h => exact iff_of_true rfl h
    · next h => exact iff_of_false (Option.some_ne_none _) h
  intro r hr
  have hrows := rows_buildX4Slots hhalf htok hr
  obtain ⟨hmap, hwt, hexp, hgroups, hne⟩ := length_buildX4Slots hr
  have hlen : r.rows.length = 6 * r.groups := by
    rw [Slots.rows, List.length_zip, List.length_zipWith, hmap, hwt, hexp, Nat.min_self,
      Nat.min_self]
  refine ⟨?_, hmap.trans hlen.symm, hwt.trans hlen.symm, hexp.trans hlen.symm, hlen.symm, ?_,
    fun e he => ?_⟩
  · rw [hlen, hgroups, ← nSlots_eq, Nat.ceilDiv_eq_add_pred_div]
    rfl
  · intro s hs
    rw [hrows] at hs
    rcases List.mem_append.mp hs with hs | hs
    · obtain ⟨e, he, hs⟩ := List.mem_flatMap.mp hs
      obtain ⟨j, -, rfl⟩ := List.mem_map.mp hs
      refine ⟨List.mem_range.mp he, by rw [List.length_map, List.length_range], ?_⟩
      intro p hp
      obtain ⟨i, -, rfl⟩ := List.mem_map.mp hp
      rw [slotCell]
      split
      · exact .inl (Int.natCast_nonneg _)
      · exact .inr rfl
    · rw [List.eq_of_mem_replicate hs]
      refine ⟨?_, List.length_replicate, fun p hp => .inr (List.eq_of_mem_replicate hp)⟩
      -- a slot is there, so an expert is
      refine Nat.pos_of_ne_zero fun hE => hne ?_
      rw [hE]
      rfl
  · have hpad : ∀ n, ((List.replicate n (0, List.replicate 64 ((-1 : ℤ), (0 : H)))).filter
        (·.1 = e)).flatMap (fun s => validRows s.2) = [] := by
      intro n
      refine List.flatMap_eq_nil_iff.mpr fun s hs => ?_
      rw [List.eq_of_mem_replicate (List.mem_filter.mp hs).1]
      exact validRows_replicate 64
    rw [hrows, List.filter_append, List.flatMap_append, hpad, List.append_nil, filter_rows he,
      List.flatMap_map, segment_eq htok hwts he]
    exact flatMap_validRows counts half tok wts e

end Cover

/-- Expert 0 has no assignment, expert 1 seventy and expert 2 one. -/
def fewCounts (e : ℕ) : ℕ := if e = 1 then 70 else if e = 2 then 1 else 0

/-- Three slots are in use, two of them expert 1's, and three fill up the group. -/
theorem slots_cover_few : ∃ r, buildX4Slots 3 fewCounts (id : ℤ → ℤ) (List.range 71)
      (List.replicate 71 1) = some r ∧ r.slotExpert = [1, 1, 2, 0, 0, 0] ∧
      ((r.rows.filter (·.1 = 2)).flatMap fun s => validRows s.2) = [(70, 1)] := by
  refine ⟨_, rfl, by decide, ?_⟩
  have hcover := (slots_cover 3 fewCounts (id : ℤ → ℤ) rfl (List.range 71) (List.replicate 71 1)
    (by decide) (by decide)).2 _ rfl
  exact (hcover.2.2.2.2.2.2 2 (by decide)).trans (by decide)

end Exl3

end VllmMoet
