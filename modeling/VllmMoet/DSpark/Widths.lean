import Mathlib.Order.Bounds.Basic
import Mathlib.Tactic.Linarith
import VllmMoet.Lib.FloatRound
import VllmMoet.Lib.Prefixes
import VllmMoet.Lib.WarpReduce

/-!
# The draft widths of a verify batch

`allocate_widths` decides how many drafts of each request are verified. With a confidence
threshold it keeps the drafts whose calibrated survival stays above it. Otherwise it has a budget
of drafts for the batch: it sorts the survivals of all requests, flattened request by request, takes
the first ones and counts them in each row. The rows are made non-increasing beforehand, so that
what is counted in a row is a prefix of it.

* `widthsOf`: the widths, from any scores, threshold and budget; `allocateWidths`: the scores are
  products of singles, the threshold is converted to a single, and the budget is a product of doubles;
* `widths_optimal`: the widths use the budget exactly, and no others of the same total keep more
  survival; with a threshold every width is the longest prefix that stays above it.
-/

namespace VllmMoet

namespace DSpark

open Finset (range)
open Binary32 (exponent extVal val)

section Allocate

variable {S : Type*} [LinearOrder S] (score : ℕ → ℕ → S)

/-- The score of draft `j` of request `i`, projected onto a non-increasing row. -/
def projected (i j : ℕ) : S := cummin (score i) j

/-- The scores of all requests, request by request. -/
def flat (length x : ℕ) : S := projected score (x / length) (x % length)

/-- `allocate_widths` behind its arithmetic: the width of request `i`, from the threshold if it is
positive, and else from the budget. -/
def widthsOf (threshold : Option S) (numReqs length budget i : ℕ) : ℕ :=
  match threshold with
  | some tau => min (((range length).filter fun j => tau ≤ projected score i j).card) length
  | none =>
    if budget = 0 then 0
    else if budget < numReqs * length then
      ((range length).filter fun j =>
        length * i + j ∈ topPositions (flat score length) (numReqs * length) budget).card
    else length

end Allocate

section Floats

/-- Python's `int`. -/
def truncate (x : ℚ) : ℤ := if 0 ≤ x then ⌊x⌋ else ⌈x⌉

/-- A single that is neither negative nor infinite. -/
structure Score where
  bits : BitVec 32
  finite : exponent bits ≠ 255
  nonneg : 0 ≤ val bits

variable (survival : ℕ → ℕ → Score) (cal : ℕ → Score) (numReqs length : ℕ)
  (tau budgetFrac : Binary64)

/-- `num_reqs * length * budget_frac`: the product of the integers is converted to a double. -/
def budgetProduct : ℚ := ((Binary64.ofNat (numReqs * length)).mul budgetFrac).value

/-- The drafts that the batch may keep. -/
def budget : ℕ :=
  (min (max (truncate (budgetProduct numReqs length budgetFrac)) 0) (numReqs * length : ℕ)).toNat

/-- `survival_view * cal_t`, which may be infinite. -/
def calibrated (i j : ℕ) : WithBot (WithTop ℚ) :=
  extVal (Binary32.mul (survival i j).bits (cal j).bits)

/-- The threshold, if it is positive: compared with singles it is one. -/
def threshold : Option (WithBot (WithTop ℚ)) :=
  if 0 < tau.value then some (extVal tau.nearest32) else none

/-- `allocate_widths`: the width of request `i`. -/
def allocateWidths (i : ℕ) : ℕ :=
  widthsOf (calibrated survival cal) (threshold tau) numReqs length
    (budget numReqs length budgetFrac) i

/-- The budget is what the fraction of the drafts comes to. -/
theorem budget_eq : (budget numReqs length budgetFrac : ℤ) =
    min (max ⌊budgetProduct numReqs length budgetFrac⌋ 0) (numReqs * length : ℕ) := by
  have hmax : max (truncate (budgetProduct numReqs length budgetFrac)) 0 =
      max ⌊budgetProduct numReqs length budgetFrac⌋ 0 := by
    rw [truncate]
    split
    · rfl
    · next hneg =>
      have hlt := not_le.mp hneg
      have hceil : ⌈budgetProduct numReqs length budgetFrac⌉ ≤ 0 :=
        Int.ceil_le.mpr (by exact_mod_cast hlt.le)
      have hfloor := (Int.floor_le_ceil (budgetProduct numReqs length budgetFrac)).trans hceil
      rw [max_eq_right hceil, max_eq_right hfloor]
  rw [budget, hmax, Int.toNat_of_nonneg]
  exact le_min (le_max_right _ _) (Int.natCast_nonneg _)

theorem budget_le : budget numReqs length budgetFrac ≤ numReqs * length := by
  have h : (budget numReqs length budgetFrac : ℤ) ≤ (numReqs * length : ℕ) :=
    (budget_eq numReqs length budgetFrac).trans_le (min_le_right _ _)
  exact_mod_cast h

end Floats

section Widths

variable {S : Type*} [LinearOrder S] {score : ℕ → ℕ → S} {numReqs length budget : ℕ}

theorem projected_antitone (i : ℕ) : Antitone (projected score i) :=
  cummin_antitone _

/-- The row and the place in it of a flat position. -/
theorem div_cell {i j : ℕ} (hj : j < length) : (length * i + j) / length = i := by
  rw [Nat.mul_add_div (by omega), Nat.div_eq_of_lt hj, Nat.add_zero]

theorem mod_cell {i j : ℕ} (hj : j < length) : (length * i + j) % length = j := by
  rw [Nat.mul_add_mod, Nat.mod_eq_of_lt hj]

/-- The survivals, flattened. -/
theorem flat_cell {i j : ℕ} (hj : j < length) :
    flat score length (length * i + j) = projected score i j := by
  rw [flat, div_cell hj, mod_cell hj]

/-- A set of flat positions, row by row. -/
theorem sum_rows {α : Type*} [AddCommMonoid α] (f : ℕ → α) {T : Finset ℕ}
    (hT : T ⊆ range (numReqs * length)) :
    ∑ i ∈ range numReqs, ∑ j ∈ (range length).filter (fun j => length * i + j ∈ T),
      f (length * i + j) = ∑ x ∈ T, f x := by
  simp only [Finset.sum_filter]
  rw [sum_blocks length numReqs fun x => if x ∈ T then f x else 0, ← Finset.sum_filter,
    Finset.filter_mem_eq_inter, Nat.mul_comm, Finset.inter_eq_right.mpr hT]

/-- The cells that widths keep, as flat positions. -/
def cells (length : ℕ) (numReqs : ℕ) (w : ℕ → ℕ) : Finset ℕ :=
  (range (numReqs * length)).filter fun x => x % length < w (x / length)

theorem cells_subset (w : ℕ → ℕ) : cells length numReqs w ⊆ range (numReqs * length) :=
  Finset.filter_subset _ _

/-- In a row the cells of some widths are a prefix. -/
theorem row_cells {w : ℕ → ℕ} {i : ℕ} (hi : i < numReqs) (hw : w i ≤ length) :
    (range length).filter (fun j => length * i + j ∈ cells length numReqs w) = range (w i) := by
  ext j
  rw [Finset.mem_filter, Finset.mem_range, Finset.mem_range]
  constructor
  · rintro ⟨hj, hmem⟩
    have hlt := (Finset.mem_filter.mp hmem).2
    rwa [mod_cell hj, div_cell hj] at hlt
  · intro hjw
    have hj : j < length := hjw.trans_le hw
    have hx : length * i + j < numReqs * length := by
      calc length * i + j < length * i + length := Nat.add_lt_add_left hj _
        _ = (i + 1) * length := by rw [Nat.add_mul, Nat.one_mul, Nat.mul_comm]
        _ ≤ numReqs * length := Nat.mul_le_mul_right _ hi
    refine ⟨hj, Finset.mem_filter.mpr ⟨Finset.mem_range.mpr hx, ?_⟩⟩
    rwa [mod_cell hj, div_cell hj]

/-- The number of cells of some widths, and what they keep. -/
theorem sum_cells {α : Type*} [AddCommMonoid α] (f : ℕ → α) {w : ℕ → ℕ}
    (hw : ∀ i < numReqs, w i ≤ length) : ∑ x ∈ cells length numReqs w, f x =
      ∑ i ∈ range numReqs, ∑ j ∈ range (w i), f (length * i + j) := by
  rw [← sum_rows f (cells_subset w)]
  exact Finset.sum_congr rfl fun i hi => by rw [row_cells (Finset.mem_range.mp hi) (hw i
    (Finset.mem_range.mp hi))]

theorem card_cells {w : ℕ → ℕ} (hw : ∀ i < numReqs, w i ≤ length) :
    (cells length numReqs w).card = ∑ i ∈ range numReqs, w i := by
  rw [Finset.card_eq_sum_ones, sum_cells (fun _ => 1) hw]
  exact Finset.sum_congr rfl fun i _ => by rw [← Finset.card_eq_sum_ones, Finset.card_range]

/-- What some widths keep of the projected scores. -/
def kept [AddCommMonoid S] (score : ℕ → ℕ → S) (numReqs : ℕ) (w : ℕ → ℕ) : S :=
  ∑ i ∈ range numReqs, ∑ j ∈ range (w i), projected score i j

theorem kept_eq [AddCommMonoid S] {w : ℕ → ℕ} (hw : ∀ i < numReqs, w i ≤ length) :
    kept score numReqs w = ∑ x ∈ cells length numReqs w, flat score length x := by
  rw [sum_cells _ hw, kept]
  refine Finset.sum_congr rfl fun i hi => Finset.sum_congr rfl fun j hj => ?_
  have hlt := (Finset.mem_range.mp hj).trans_le (hw i (Finset.mem_range.mp hi))
  rw [flat_cell hlt]

/-- The widths never exceed the drafts. -/
theorem widthsOf_le (threshold : Option S) (i : ℕ) :
    widthsOf score threshold numReqs length budget i ≤ length := by
  cases threshold with
  | some tau => exact min_le_right _ _
  | none =>
    rw [widthsOf]
    split_ifs
    · exact Nat.zero_le _
    · exact (Finset.card_filter_le _ _).trans_eq (Finset.card_range _)
    · exact le_rfl

/-- What is selected in a row is a prefix, for the rows do not increase. -/
theorem selected_row {k i : ℕ} : ∀ j' j, j' ≤ j → j < length →
    length * i + j ∈ topPositions (flat score length) (numReqs * length) k →
    length * i + j' ∈ topPositions (flat score length) (numReqs * length) k := by
  intro j' j hle hj hmem
  refine mem_topPositions_of_le hmem (Nat.add_le_add_left hle _) ?_
  rw [flat_cell hj, flat_cell (hle.trans_lt hj)]
  exact projected_antitone i hle

/-- Within a budget that leaves something out, the cells kept are the positions selected. -/
theorem cells_widthsOf (hpos : budget ≠ 0) (hlt : budget < numReqs * length) :
    cells length numReqs (widthsOf score none numReqs length budget) =
      (topPositions (flat score length) (numReqs * length) budget).toFinset := by
  ext x
  rw [cells, Finset.mem_filter, List.mem_toFinset, Finset.mem_range]
  have hwidth : ∀ i, widthsOf score none numReqs length budget i =
      ((range length).filter fun j => length * i + j ∈
        topPositions (flat score length) (numReqs * length) budget).card := by
    intro i
    rw [widthsOf, if_neg hpos, if_pos hlt]
  have hrow := fun i => filter_range_of_closed
    (@selected_row S _ score numReqs length budget i)
  constructor
  · rintro ⟨hx, hmem⟩
    rw [hwidth, ← Finset.mem_range, ← hrow, Finset.mem_filter, Nat.div_add_mod] at hmem
    exact hmem.2
  · intro hx
    have hx' := mem_topPositions_lt hx
    have hlen : 0 < length := Nat.pos_of_ne_zero fun h => by
      rw [h, Nat.mul_zero] at hx'
      exact Nat.not_lt_zero x hx'
    refine ⟨hx', ?_⟩
    rw [hwidth, ← Finset.mem_range, ← hrow, Finset.mem_filter, Nat.div_add_mod]
    exact ⟨Finset.mem_range.mpr (Nat.mod_lt _ hlen), hx⟩

/-- The widths use the budget exactly. -/
theorem sum_widthsOf (score : ℕ → ℕ → S) (hle : budget ≤ numReqs * length) :
    ∑ i ∈ range numReqs, widthsOf score none numReqs length budget i = budget := by
  by_cases hzero : budget = 0
  · rw [hzero]
    refine Finset.sum_eq_zero fun i _ => ?_
    rw [widthsOf, if_pos rfl]
  by_cases hlt : budget < numReqs * length
  · have hbest := topPositions_isLargest (flat score length) (numReqs * length) budget
    rw [← card_cells fun i _ => widthsOf_le none i, cells_widthsOf hzero hlt, hbest.card,
      Finset.card_range, min_eq_left hlt.le]
  · have hfull : ∀ i ∈ range numReqs, widthsOf score none numReqs length budget i = length := by
      intro i _
      rw [widthsOf, if_neg hzero, if_neg hlt]
    rw [Finset.sum_const_nat hfull, Finset.card_range]
    omega

/-- No widths of the same total keep more. -/
theorem kept_le [AddCommMonoid S] [IsOrderedAddMonoid S] (hle : budget ≤ numReqs * length)
    {w : ℕ → ℕ} (hw : ∀ i < numReqs, w i ≤ length) (hsum : ∑ i ∈ range numReqs, w i = budget) :
    kept score numReqs w ≤
      kept score numReqs (widthsOf score none numReqs length budget) := by
  have hwidths : ∀ i < numReqs, widthsOf score none numReqs length budget i ≤ length :=
    fun i _ => widthsOf_le none i
  have hcard := card_cells hw
  have hcard' := card_cells hwidths
  rw [kept_eq hw, kept_eq hwidths]
  rw [hsum] at hcard
  rw [sum_widthsOf score hle] at hcard'
  by_cases hzero : budget = 0
  · rw [hzero, Finset.card_eq_zero] at hcard
    rw [hzero] at hcard' ⊢
    rw [Finset.card_eq_zero] at hcard'
    rw [hcard, hcard']
  by_cases hlt : budget < numReqs * length
  · rw [cells_widthsOf hzero hlt] at hcard' ⊢
    exact (topPositions_isLargest _ _ _).sum_le (cells_subset w) (hcard.trans hcard'.symm)
  · -- all cells are kept
    have hfull : ∀ w : ℕ → ℕ, (cells length numReqs w).card = budget →
        cells length numReqs w = range (numReqs * length) := by
      intro w hw
      refine Finset.eq_of_subset_of_card_le (cells_subset w) ?_
      rw [hw, Finset.card_range]
      omega
    rw [hfull _ hcard, hfull _ hcard']

/-- With a threshold a width is the length of the longest prefix that stays above it. -/
theorem isGreatest_widthsOf (tau : S) (i : ℕ) :
    IsGreatest {m | m ≤ length ∧ ∀ j < m, tau ≤ projected score i j}
      (widthsOf score (some tau) numReqs length budget i) := by
  have hclosed : ∀ j' j, j' ≤ j → j < length → tau ≤ projected score i j →
      tau ≤ projected score i j' :=
    fun j' j hle _ hj => hj.trans (projected_antitone i hle)
  have hrow := filter_range_of_closed hclosed
  have hwi : widthsOf score (some tau) numReqs length budget i =
      ((range length).filter fun j => tau ≤ projected score i j).card :=
    min_eq_left ((Finset.card_filter_le _ _).trans_eq (Finset.card_range _))
  rw [hwi]
  constructor
  · refine ⟨(Finset.card_filter_le _ _).trans_eq (Finset.card_range _), fun j hj => ?_⟩
    rw [← Finset.mem_range, ← hrow] at hj
    exact (Finset.mem_filter.mp hj).2
  · rintro m ⟨hm, hkeep⟩
    rw [← Finset.card_range m]
    refine Finset.card_le_card fun j hj => Finset.mem_filter.mpr ?_
    have hjm := Finset.mem_range.mp hj
    exact ⟨Finset.mem_range.mpr (hjm.trans_le hm), hkeep j hjm⟩

end Widths

section Allocated

variable {survival : ℕ → ℕ → Score} {cal : ℕ → Score} {numReqs length : ℕ}
  {tau budgetFrac : Binary64}

/-- Without a threshold the widths come from the budget. -/
theorem allocateWidths_of_budget (htau : tau.value ≤ 0) :
    allocateWidths survival cal numReqs length tau budgetFrac =
      widthsOf (calibrated survival cal) none numReqs length
        (budget numReqs length budgetFrac) := by
  funext i
  rw [allocateWidths, threshold, if_neg (not_lt.mpr htau)]

/-- **The widths use the budget, and use it best.** Without a threshold: the widths are at most
`length`, their total is the fraction of the drafts, as a double, rounded down and clamped, and no
widths of the same total keep more of the projected survival. With a threshold every width is the length
of the longest prefix that stays above it. The survivals are calibrated in singles. -/
theorem widths_optimal (survival : ℕ → ℕ → Score) (cal : ℕ → Score) (numReqs length : ℕ)
    (tau budgetFrac : Binary64) :
    (tau.value ≤ 0 →
      (∀ i, allocateWidths survival cal numReqs length tau budgetFrac i ≤ length) ∧
      ((∑ i ∈ range numReqs, allocateWidths survival cal numReqs length tau budgetFrac i : ℕ) : ℤ) =
        min (max ⌊budgetProduct numReqs length budgetFrac⌋ 0) (numReqs * length : ℕ) ∧
      ∀ w' : ℕ → ℕ, (∀ i < numReqs, w' i ≤ length) →
        ∑ i ∈ range numReqs, w' i =
          ∑ i ∈ range numReqs, allocateWidths survival cal numReqs length tau budgetFrac i →
        kept (calibrated survival cal) numReqs w' ≤
          kept (calibrated survival cal) numReqs
            (allocateWidths survival cal numReqs length tau budgetFrac)) ∧
    (0 < tau.value → ∀ i,
      IsGreatest
        {m | m ≤ length ∧ ∀ j < m, extVal tau.nearest32 ≤ projected (calibrated survival cal) i j}
        (allocateWidths survival cal numReqs length tau budgetFrac i)) := by
  have hbudget := budget_le numReqs length budgetFrac
  refine ⟨fun htau => ?_, fun htau i => ?_⟩
  · rw [allocateWidths_of_budget htau]
    refine ⟨fun i => widthsOf_le none i, ?_, fun w' hw' hsum => ?_⟩
    · rw [sum_widthsOf _ hbudget, budget_eq]
    · exact kept_le hbudget hw' (hsum.trans (sum_widthsOf _ hbudget))
  · rw [allocateWidths, threshold, if_pos htau]
    exact isGreatest_widthsOf _ i

/-- The single 1. -/
def Score.one : Score :=
  ⟨0x3F800000#32, by decide, by decide +kernel⟩

/-- A quarter. -/
def quarter : Binary64 := ⟨false, 1, -2⟩

/-- No threshold. -/
def noTau : Binary64 := ⟨false, 0, 0⟩

/-- Three requests of four drafts with equal scores: a quarter of them is three. -/
theorem widths_optimal_tied :
    ∑ i ∈ range 3, allocateWidths (fun _ _ => .one) (fun _ => .one) 3 4 noTau quarter i = 3 ∧
      kept (calibrated (fun _ _ => .one) fun _ => .one) 3 (fun _ => 1) ≤
        kept (calibrated (fun _ _ => .one) fun _ => .one) 3
          (allocateWidths (fun _ _ => .one) (fun _ => .one) 3 4 noTau quarter) := by
  obtain ⟨-, hsum, hbest⟩ := (widths_optimal (fun _ _ => .one) (fun _ => .one) 3 4 noTau
    quarter).1 (by decide +kernel)
  have hbudget : min (max ⌊budgetProduct 3 4 quarter⌋ 0) (3 * 4 : ℕ) = 3 := by decide +kernel
  rw [hbudget] at hsum
  have htotal : ∑ i ∈ range 3,
      allocateWidths (fun _ _ => .one) (fun _ => .one) 3 4 noTau quarter i = 3 := by
    exact_mod_cast hsum
  exact ⟨htotal, hbest (fun _ => 1) (fun _ _ => by decide) (by rw [htotal]; decide)⟩

/-- The double nearest to 0.3, which is smaller. -/
def threeTenths : Binary64 := ⟨false, 5404319552844595, -54⟩

/-- Of two requests of five drafts this fraction is less than three, but the product of the doubles is
three, and three drafts are kept. -/
theorem budget_rounded :
    ∑ i ∈ range 2, allocateWidths (fun _ _ => .one) (fun _ => .one) 2 5 noTau threeTenths i = 3 ∧
      min (max ⌊((2 : ℕ) * (5 : ℕ) * threeTenths.value : ℚ)⌋ 0) (2 * 5 : ℕ) = 2 := by
  have hbudget : budget 2 5 threeTenths = 3 := by decide +kernel
  refine ⟨?_, by decide +kernel⟩
  rw [allocateWidths_of_budget (by decide +kernel), sum_widthsOf _ (budget_le _ _ _), hbudget]

end Allocated

end DSpark

end VllmMoet
