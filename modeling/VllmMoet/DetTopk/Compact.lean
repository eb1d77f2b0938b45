import VllmMoet.DetTopk.SelectDigit
import VllmMoet.Lib.WarpReduce

/-!
# The compaction

`compact` of `det_topk_sm120.cu`: each warp has a contiguous segment of the columns. One pass
counts, a scan over the warps places the segments, and a second pass writes the columns above the
threshold, and the first `k_rem` on it, at their places.

* `warpBefore_eq`: a warp starts from the counts of the columns before its segment;
* `mem_compactWrites`: the stores of all warps are those of the columns taken, each at the number of
  columns taken before it. Neither the early end of the loop nor the steps that are skipped lose
  one.
-/

namespace VllmMoet

namespace DetTopk

section Segments

variable (W n : ℕ)

/-- `seg`: the columns of a warp, in whole steps of `32 * kVec`. -/
def seg : ℕ := ((n + W - 1) / W + 127) / 128 * 128

/-- `w0`. -/
def warpStart (warp : ℕ) : ℕ := min n (warp * seg W n)

/-- `w1`. -/
def warpEnd (warp : ℕ) : ℕ := min n (warpStart W n warp + seg W n)

variable {W n}

theorem warpStart_le_warpEnd (warp : ℕ) : warpStart W n warp ≤ warpEnd W n warp := by
  rw [warpEnd, warpStart]
  omega

theorem warpEnd_eq (warp : ℕ) : warpEnd W n warp = warpStart W n (warp + 1) := by
  rw [warpEnd, warpStart, warpStart, Nat.succ_mul]
  omega

theorem warpStart_zero : warpStart W n 0 = 0 := by rw [warpStart, Nat.zero_mul, Nat.min_zero]

/-- The segments cover the row. -/
theorem warpStart_last (hW : 0 < W) : warpStart W n W = n := by
  have hmul := Nat.div_add_mod (n + W - 1) W
  have hmod := Nat.mod_lt (n + W - 1) hW
  have hseg : (n + W - 1) / W ≤ seg W n := by
    rw [seg]
    omega
  have := Nat.mul_le_mul_left W hseg
  rw [warpStart]
  omega

/-- A segment is as many steps as the loops have. -/
theorem warpEnd_le_steps (warp : ℕ) :
    warpEnd W n warp ≤ warpStart W n warp + 128 * (seg W n / 128) := by
  have hseg : 128 * (seg W n / 128) = seg W n := by
    rw [seg]
    omega
  rw [hseg, warpEnd]
  omega

end Segments

/-- The arguments of `compact`. -/
structure CompactArgs where
  row : Row
  skeys : ℕ → BitVec 32
  fromSmem : Bool
  n : ℕ
  shift : ℕ
  pHi : BitVec 32
  kRem : ℕ
  k : ℕ
  gtOff : ℕ
  eqOff : ℕ
  colBase : ℤ

namespace CompactArgs

variable (W : ℕ) (a : CompactArgs)

/-- `key[v] >> shift`, where it is valid. -/
def hiAt (w1 c0 v : ℕ) : Option (BitVec 32) :=
  (keys4 a.row a.skeys a.fromSmem w1 c0 v).map fun key : BitVec 32 => key >>> a.shift

/-- `valid[v] && hi > p_hi`. -/
def isAbove : Option (BitVec 32) → Bool
  | none => false
  | some hi => a.pHi < hi

/-- `valid[v] && hi == p_hi`. -/
def isOn : Option (BitVec 32) → Bool
  | none => false
  | some hi => hi = a.pHi

/-- `for (c0 = w0 + kVec * lane; c0 < w1; c0 += 32 * kVec)`: what a lane counts. -/
def laneCount (P : Option (BitVec 32) → Bool) (warp lane : ℕ) : ℕ :=
  ∑ i ∈ Finset.range ((warpEnd W a.n warp - (warpStart W a.n warp + 4 * lane) + 127) / 128),
    ∑ v ∈ Finset.range 4,
      if P (a.hiAt (warpEnd W a.n warp) (warpStart W a.n warp + 4 * lane + 128 * i) v) then 1 else 0

/-- `__reduce_add_sync`: the sum over the lanes. -/
def warpCount (P : Option (BitVec 32) → Bool) (warp : ℕ) : ℕ :=
  ∑ lane ∈ Finset.range 32, a.laneCount W P warp lane

/-- `ws` after the scan over the warps. -/
def warpBefore (P : Option (BitVec 32) → Bool) (warp : ℕ) : ℕ :=
  let ws (lane : ℕ) : ℕ := if lane < W then a.warpCount W P lane else 0
  warpScan ws warp - ws warp

/-! ### The second pass -/

/-- The stores of a lane, from its `v`-th column on. -/
def place (hi : ℕ → Option (BitVec 32)) (eqOpen : Bool) (col : ℤ) :
    ℕ → ℕ → ℕ → ℕ → List (ℕ × ℤ)
  | 0, _, _, _ => []
  | m + 1, v, g, e =>
    match hi v with
    | none => []
    | some h =>
      if a.pHi < h then (g + min e a.kRem, col + v) :: place hi eqOpen col m (v + 1) (g + 1) e
      else if eqOpen ∧ h = a.pHi then
        (if e < a.kRem then [(g + e, col + v)] else []) ++ place hi eqOpen col m (v + 1) g (e + 1)
      else place hi eqOpen col m (v + 1) g e

/-- `mine`: what a lane found, packed. -/
def mine (w1 b0 : ℕ) (eqOpen : Bool) (lane : ℕ) : ℕ :=
  pack16 (∑ v ∈ Finset.range 4, if a.isAbove (a.hiAt w1 (b0 + 4 * lane) v) then 1 else 0)
    (∑ v ∈ Finset.range 4, if eqOpen && a.isOn (a.hiAt w1 (b0 + 4 * lane) v) then 1 else 0)

/-- The stores of a lane in a step. -/
def laneWrites (w1 b0 gt eq lane : ℕ) : List (ℕ × ℤ) :=
  let eqOpen : Bool := eq < a.kRem
  let before := warpScan (a.mine w1 b0 eqOpen) lane - a.mine w1 b0 eqOpen lane
  a.place (a.hiAt w1 (b0 + 4 * lane)) eqOpen (a.colBase + (b0 + 4 * lane : ℕ)) 4 0
    (gt + before >>> 16) (eq + before % 65536)

/-- The loop of a warp, with at most `m` steps. -/
def compactLoop (w1 : ℕ) : ℕ → ℕ → ℕ → ℕ → List (ℕ × ℤ)
  | 0, _, _, _ => []
  | m + 1, b0, gt, eq =>
    if b0 < w1 ∧ gt + min eq a.kRem < a.k then
      let mine := a.mine w1 b0 (eq < a.kRem)
      if ∀ lane < 32, mine lane = 0 then compactLoop w1 m (b0 + 128) gt eq
      else
        let tot := warpScan mine 31
        (List.range 32).flatMap (a.laneWrites w1 b0 gt eq) ++
          compactLoop w1 m (b0 + 128) (gt + tot >>> 16) (eq + tot % 65536)
    else []

/-- The stores of a warp. -/
def warpWrites (warp : ℕ) : List (ℕ × ℤ) :=
  a.compactLoop (warpEnd W a.n warp) (seg W a.n / 128) (warpStart W a.n warp)
    (a.gtOff + a.warpBefore W a.isAbove warp) (a.eqOff + a.warpBefore W a.isOn warp)

/-- The stores of the block. -/
def compactWrites : List (ℕ × ℤ) := (List.range W).flatMap (a.warpWrites W)

end CompactArgs

/-- `compact`, the stores of the warps taking effect in some order. -/
def compact (W : ℕ) (a : CompactArgs) (il : Interleaving (ℕ × ℤ)) (orow : ℕ → ℤ) : ℕ → ℤ :=
  stores (il.run (a.compactWrites W)) orow

/-! ### What is stored -/

namespace CompactArgs

variable {W : ℕ} {a : CompactArgs}

variable (a) in
/-- The bits of a column's key that the threshold compares. -/
def hi (c : ℕ) : BitVec 32 := keyAt a.row a.skeys a.fromSmem c >>> a.shift

theorem hiAt_eq {w1 c0 v : ℕ} (hv : v < 4) :
    a.hiAt w1 c0 v = if c0 + v < w1 then some (a.hi (c0 + v)) else none := by
  rw [hiAt, keys4_eq hv]
  split_ifs <;> rfl

section Count

variable {P : Option (BitVec 32) → Bool}

/-- The lanes of a warp, step by step, look at the columns of its segment. -/
theorem sum_lanes (f : ℕ → ℕ) (w0 w1 : ℕ) (hf : ∀ c, w1 ≤ c → f c = 0) :
    ∑ lane ∈ Finset.range 32, ∑ i ∈ Finset.range ((w1 - (w0 + 4 * lane) + 127) / 128),
        ∑ v ∈ Finset.range 4, f (w0 + 4 * lane + 128 * i + v) =
      ∑ q ∈ Finset.range (w1 - w0), f (w0 + q) := by
  let S := (w1 - w0 + 127) / 128
  -- a lane's further steps find nothing
  have hmore : ∀ lane ∈ Finset.range 32,
      ∑ i ∈ Finset.range ((w1 - (w0 + 4 * lane) + 127) / 128),
          ∑ v ∈ Finset.range 4, f (w0 + 4 * lane + 128 * i + v) =
        ∑ i ∈ Finset.range S, ∑ v ∈ Finset.range 4, f (w0 + 128 * i + (4 * lane + v)) := by
    intro lane _
    have hle : (w1 - (w0 + 4 * lane) + 127) / 128 ≤ S := Nat.div_le_div_right (by omega)
    rw [Finset.sum_subset (Finset.range_subset_range.mpr hle)]
    · refine Finset.sum_congr rfl fun i _ => Finset.sum_congr rfl fun v _ => ?_
      congr 1
      omega
    · intro i _ hi
      have hi : (w1 - (w0 + 4 * lane) + 127) / 128 ≤ i := not_lt.mp (mt Finset.mem_range.mpr hi)
      exact Finset.sum_eq_zero fun v _ => hf _ (by omega)
  have hsteps : ∀ i ∈ Finset.range S, ∑ lane ∈ Finset.range 32, ∑ v ∈ Finset.range 4,
      f (w0 + 128 * i + (4 * lane + v)) = ∑ q ∈ Finset.range 128, f (w0 + (128 * i + q)) := by
    intro i _
    rw [sum_blocks 4 32 fun q => f (w0 + 128 * i + q)]
    exact Finset.sum_congr rfl fun q _ => by rw [Nat.add_assoc]
  rw [Finset.sum_congr rfl hmore, Finset.sum_comm, Finset.sum_congr rfl hsteps,
    sum_blocks 128 S fun q => f (w0 + q)]
  symm
  refine Finset.sum_subset (Finset.range_subset_range.mpr (by omega)) fun q _ hq => hf _ ?_
  have := not_lt.mp (mt Finset.mem_range.mpr hq)
  omega

/-- What a warp counts, after what the columns before it do. -/
theorem count_add_warpCount (hP : P none = false) (warp : ℕ) :
    Nat.count (fun c => P (some (a.hi c))) (warpStart W a.n warp) + a.warpCount W P warp =
      Nat.count (fun c => P (some (a.hi c))) (warpEnd W a.n warp) := by
  have hterm (c0 v : ℕ) (hv : v < 4) :
      (if P (a.hiAt (warpEnd W a.n warp) c0 v) then 1 else 0) =
        if c0 + v < warpEnd W a.n warp ∧ P (some (a.hi (c0 + v))) = true then 1 else 0 := by
    rw [hiAt_eq hv]
    split_ifs <;> simp_all
  have hlanes : a.warpCount W P warp =
      ∑ q ∈ Finset.range (warpEnd W a.n warp - warpStart W a.n warp),
        if P (some (a.hi (warpStart W a.n warp + q))) then 1 else 0 := by
    have hsum := sum_lanes
      (fun c => if c < warpEnd W a.n warp ∧ P (some (a.hi c)) = true then 1 else 0)
      (warpStart W a.n warp) (warpEnd W a.n warp) fun c hc => if_neg fun h => by omega
    rw [warpCount]
    simp only [laneCount]
    rw [Finset.sum_congr rfl fun lane _ => Finset.sum_congr rfl fun i _ =>
      Finset.sum_congr rfl fun v hv => hterm _ v (Finset.mem_range.mp hv), hsum]
    refine Finset.sum_congr rfl fun q hq => ?_
    have hlt : warpStart W a.n warp + q < warpEnd W a.n warp := by
      have := Finset.mem_range.mp hq
      omega
    rw [if_congr (and_iff_right hlt) rfl rfl]
  rw [hlanes, count_add_sum (fun c => P (some (a.hi c)) = true),
    Nat.add_sub_cancel' (warpStart_le_warpEnd warp)]

/-- A warp starts from the counts of the columns before its segment. -/
theorem warpBefore_eq (hP : P none = false) (hW : W ≤ 32) {warp : ℕ} (h : warp < W) :
    a.warpBefore W P warp = Nat.count (fun c => P (some (a.hi c))) (warpStart W a.n warp) := by
  have hsum (m : ℕ) (hm : m ≤ W) :
      ∑ l ∈ Finset.range m, (if l < W then a.warpCount W P l else 0) =
        Nat.count (fun c => P (some (a.hi c))) (warpStart W a.n m) := by
    induction m with
    | zero => simp [warpStart_zero]
    | succ m ih =>
      rw [Finset.sum_range_succ, ih (by omega), if_pos (by omega), count_add_warpCount hP,
        warpEnd_eq]
  rw [warpBefore, warpScan_sub _ (by omega)]
  exact hsum warp h.le

end Count

/-! ### Places -/

section Places

variable (a)

/-- The column lies above the threshold. -/
def Above (c : ℕ) : Prop := a.pHi < a.hi c

/-- The column lies on it. -/
def On (c : ℕ) : Prop := a.hi c = a.pHi

instance : DecidablePred a.Above := fun c => inferInstanceAs (Decidable (a.pHi < a.hi c))

instance : DecidablePred a.On := fun c => inferInstanceAs (Decidable (a.hi c = a.pHi))

/-- The columns above the threshold before one. -/
def gtBefore (c : ℕ) : ℕ := a.gtOff + Nat.count a.Above c

/-- The columns on it before one. -/
def eqBefore (c : ℕ) : ℕ := a.eqOff + Nat.count a.On c

/-- The column is one of the first. -/
def Taken (c : ℕ) : Prop := a.Above c ∨ a.On c ∧ a.eqBefore c < a.kRem

/-- The number of the columns taken before it. -/
def placeOf (c : ℕ) : ℕ := a.gtBefore c + min (a.eqBefore c) a.kRem

/-- `eq_before` counts the columns on the threshold, until there are `k_rem` of them. -/
def Counts (e c : ℕ) : Prop := e = a.eqBefore c ∨ a.kRem ≤ e ∧ a.kRem ≤ a.eqBefore c

variable {a}

theorem not_above_of_on {c : ℕ} (h : a.On c) : ¬ a.Above c := by
  rw [Above, h]
  exact BitVec.lt_irrefl _

theorem gtBefore_succ (c : ℕ) : a.gtBefore (c + 1) = a.gtBefore c + if a.Above c then 1 else 0 := by
  rw [gtBefore, Nat.count_succ, ← Nat.add_assoc]
  rfl

theorem eqBefore_succ (c : ℕ) : a.eqBefore (c + 1) = a.eqBefore c + if a.On c then 1 else 0 := by
  rw [eqBefore, Nat.count_succ, ← Nat.add_assoc]
  rfl

theorem placeOf_mono : Monotone a.placeOf := fun c d h => by
  have hgt := Nat.count_monotone a.Above h
  have heq := Nat.count_monotone a.On h
  rw [placeOf, placeOf, gtBefore, gtBefore, eqBefore, eqBefore]
  omega

/-- A column that is taken moves the places after it. -/
theorem placeOf_succ_of_taken {c : ℕ} (h : a.Taken c) : a.placeOf (c + 1) = a.placeOf c + 1 := by
  rw [placeOf, placeOf, gtBefore_succ, eqBefore_succ]
  rcases h with h | ⟨hon, hlt⟩
  · rw [if_pos h, if_neg fun hon => not_above_of_on hon h]
    omega
  · rw [if_neg (not_above_of_on hon), if_pos hon]
    omega

theorem placeOf_lt {c n : ℕ} (h : a.Taken c) (hc : c < n) : a.placeOf c < a.placeOf n := by
  have hle : a.placeOf (c + 1) ≤ a.placeOf n := placeOf_mono hc
  rw [placeOf_succ_of_taken h] at hle
  exact hle

/-- What a lane does with a column. -/
theorem mem_place_succ {w1 c0 v g e : ℕ} {eqOpen : Bool} (m : ℕ) (hv : v < 4) (hvalid : c0 + v < w1)
    (hg : g = a.gtBefore (c0 + v)) (he : a.Counts e (c0 + v))
    (hopen : eqOpen = false → a.kRem ≤ e) :
    ∃ g' e', g' = a.gtBefore (c0 + v + 1) ∧ a.Counts e' (c0 + v + 1) ∧
      (eqOpen = false → a.kRem ≤ e') ∧
      ∀ x, x ∈ a.place (a.hiAt w1 c0) eqOpen (a.colBase + c0) (m + 1) v g e ↔
        (a.Taken (c0 + v) ∧ x = (a.placeOf (c0 + v), a.colBase + ((c0 + v : ℕ) : ℤ))) ∨
          x ∈ a.place (a.hiAt w1 c0) eqOpen (a.colBase + c0) m (v + 1) g' e' := by
  have hcol : a.colBase + c0 + v = a.colBase + ((c0 + v : ℕ) : ℤ) := by push_cast; ring
  have hgt := gtBefore_succ (a := a) (c0 + v)
  have heq := eqBefore_succ (a := a) (c0 + v)
  -- the lane may have stopped counting, but then there is no room either
  have hmin : min e a.kRem = min (a.eqBefore (c0 + v)) a.kRem := by
    rcases he with rfl | ⟨h1, h2⟩
    · rfl
    · omega
  rw [place, hiAt_eq hv, if_pos hvalid, hcol]
  dsimp only
  split_ifs with habove hon hlt
  · have habove : a.Above (c0 + v) := habove
    rw [if_pos habove] at hgt
    rw [if_neg fun h => not_above_of_on h habove] at heq
    refine ⟨g + 1, e, hg ▸ hgt.symm, ?_, hopen, fun x => ?_⟩
    · rw [Counts, heq]
      exact he
    · rw [List.mem_cons, and_iff_right (.inl habove), placeOf, hg, hmin]
  · -- on the threshold, and there is room
    have hOn : a.On (c0 + v) := hon.2
    have heq' : e = a.eqBefore (c0 + v) := he.resolve_right fun h => by omega
    rw [if_neg (not_above_of_on hOn)] at hgt
    rw [if_pos hOn] at heq
    refine ⟨g, e + 1, hg ▸ hgt.symm, .inl (heq' ▸ heq.symm), fun h => by simp [h] at hon,
      fun x => ?_⟩
    rw [List.singleton_append, List.mem_cons, and_iff_right (.inr ⟨hOn, by omega⟩), placeOf, hg,
      ← heq', Nat.min_eq_left hlt.le]
  · -- on the threshold, and there is none
    have hOn : a.On (c0 + v) := hon.2
    have hnot : ¬ a.Taken (c0 + v) := fun h =>
      h.elim (not_above_of_on hOn) fun h => by rcases he with rfl | h' <;> omega
    rw [if_neg (not_above_of_on hOn)] at hgt
    rw [if_pos hOn] at heq
    refine ⟨g, e + 1, hg ▸ hgt.symm, ?_, fun h => by simp [h] at hon, fun x => ?_⟩
    · rw [Counts, heq]
      rcases he with rfl | h' <;> omega
    · rw [List.nil_append, or_iff_right fun h => hnot h.1]
  · have hnot : ¬ a.Taken (c0 + v) := by
      rintro (h | ⟨hOn, hlt⟩)
      · exact habove h
      · cases eqOpen with
        | true => exact hon ⟨rfl, hOn⟩
        | false =>
          have := hopen rfl
          rcases he with rfl | h' <;> omega
    rw [if_neg fun h : a.Above _ => habove h] at hgt
    refine ⟨g, e, hg ▸ hgt.symm, ?_, hopen, fun x => (or_iff_right fun h => hnot h.1).symm⟩
    rw [Counts, heq]
    split_ifs with hOn
    · cases eqOpen with
      | true => exact absurd ⟨rfl, hOn⟩ hon
      | false =>
        have := hopen rfl
        rcases he with rfl | h' <;> omega
    · exact he

/-- The stores of a lane are those of its columns that are taken. -/
theorem mem_place {w1 c0 : ℕ} {eqOpen : Bool} (m : ℕ) {v g e : ℕ} (hm : v + m = 4)
    (hg : c0 + v ≤ w1 → g = a.gtBefore (c0 + v))
    (he : c0 + v ≤ w1 → a.Counts e (c0 + v)) (hopen : eqOpen = false → a.kRem ≤ e) (x : ℕ × ℤ) :
    x ∈ a.place (a.hiAt w1 c0) eqOpen (a.colBase + c0) m v g e ↔
      ∃ c, c0 + v ≤ c ∧ c < c0 + 4 ∧ c < w1 ∧ a.Taken c ∧ x = (a.placeOf c, a.colBase + c) := by
  induction m generalizing v g e with
  | zero =>
    refine iff_of_false (by simp [place]) ?_
    rintro ⟨c, hc, hc', -⟩
    omega
  | succ m ih =>
    by_cases hvalid : c0 + v < w1
    · obtain ⟨g', e', hg', he', hopen', hstep⟩ :=
        mem_place_succ m (by omega) hvalid (hg hvalid.le) (he hvalid.le) hopen
      rw [hstep, ih (by omega) (fun _ => hg') (fun _ => he') hopen']
      constructor
      · rintro (⟨htake, hx⟩ | ⟨c, h1, h2, h3, h4⟩)
        · exact ⟨c0 + v, le_rfl, by omega, hvalid, htake, hx⟩
        · exact ⟨c, by omega, h2, h3, h4⟩
      · rintro ⟨c, h1, h2, h3, h4⟩
        rcases h1.eq_or_lt with rfl | hlt
        · exact .inl h4
        · exact .inr ⟨c, by omega, h2, h3, h4⟩
    · rw [place, hiAt_eq (by omega), if_neg hvalid]
      refine iff_of_false (by simp) ?_
      rintro ⟨c, hc, -, hc', -⟩
      omega

end Places

/-! ### A step of a warp -/

section Step

variable {w1 b0 : ℕ}

/-- What the lanes below one find in a step, after what the columns before it do. -/
theorem count_add_sum_step {P : Option (BitVec 32) → Bool} (hP : P none = false) (hb : b0 ≤ w1)
    (m : ℕ) :
    Nat.count (fun c => P (some (a.hi c))) b0 + ∑ lane ∈ Finset.range m,
        ∑ v ∈ Finset.range 4, (if P (a.hiAt w1 (b0 + 4 * lane) v) then 1 else 0) =
      Nat.count (fun c => P (some (a.hi c))) (min w1 (b0 + 4 * m)) := by
  have hterm : ∀ lane ∈ Finset.range m, ∑ v ∈ Finset.range 4,
      (if P (a.hiAt w1 (b0 + 4 * lane) v) then 1 else 0) = ∑ v ∈ Finset.range 4,
        if b0 + (4 * lane + v) < w1 ∧ P (some (a.hi (b0 + (4 * lane + v)))) then 1 else 0 := by
    refine fun lane _ => Finset.sum_congr rfl fun v hv => ?_
    rw [hiAt_eq (Finset.mem_range.mp hv), Nat.add_assoc]
    split_ifs <;> simp_all
  have htrim : ∑ q ∈ Finset.range (min (w1 - b0) (4 * m)),
      (if P (some (a.hi (b0 + q))) then 1 else 0) = ∑ q ∈ Finset.range (4 * m),
        if b0 + q < w1 ∧ P (some (a.hi (b0 + q))) then 1 else 0 := by
    rw [← Finset.sum_subset (Finset.range_subset_range.mpr (Nat.min_le_right (w1 - b0) (4 * m)))]
    · refine Finset.sum_congr rfl fun q hq => if_congr ?_ rfl rfl
      have := Finset.mem_range.mp hq
      exact (and_iff_right (by omega)).symm
    · intro q hq hq'
      have := Finset.mem_range.mp hq
      have := not_lt.mp (mt Finset.mem_range.mpr hq')
      exact if_neg fun h => by omega
  have hend : min w1 (b0 + 4 * m) = b0 + min (w1 - b0) (4 * m) := by omega
  rw [Finset.sum_congr rfl hterm, sum_blocks 4 m fun q =>
      if b0 + q < w1 ∧ P (some (a.hi (b0 + q))) then 1 else 0,
    ← htrim, count_add_sum (fun c => P (some (a.hi c)) = true), hend]

/-- A lane finds four columns at most. -/
theorem sum_four_le (P : ℕ → Bool) : ∑ v ∈ Finset.range 4, (if P v then 1 else 0) ≤ 4 :=
  (Finset.sum_le_card_nsmul (Finset.range 4) _ 1 fun v _ => by split_ifs <;> omega).trans (by simp)

variable (a w1 b0) in
/-- The two counts of the lanes below one, unpacked. -/
theorem unpack_sum_mine (eqOpen : Bool) {m : ℕ} (hm : m ≤ 32) :
    (∑ lane ∈ Finset.range m, a.mine w1 b0 eqOpen lane) >>> 16 =
        ∑ lane ∈ Finset.range m, ∑ v ∈ Finset.range 4,
          (if a.isAbove (a.hiAt w1 (b0 + 4 * lane) v) then 1 else 0) ∧
      (∑ lane ∈ Finset.range m, a.mine w1 b0 eqOpen lane) % 65536 =
        ∑ lane ∈ Finset.range m, ∑ v ∈ Finset.range 4,
          (if eqOpen && a.isOn (a.hiAt w1 (b0 + 4 * lane) v) then 1 else 0) := by
  refine unpack_sum _ _ (lt_of_le_of_lt ?_ (show m * 4 < 65536 by omega))
  exact (Finset.sum_le_card_nsmul (Finset.range m) _ 4 fun lane _ => sum_four_le _).trans (by simp)

variable {gt eq : ℕ}

/-- The counters at a lane, or after the step. -/
theorem counters_step (hb : b0 ≤ w1) (hgt : gt = a.gtBefore b0) (heq : a.Counts eq b0) {m : ℕ}
    (hm : m ≤ 32) :
    gt + (∑ lane ∈ Finset.range m, a.mine w1 b0 (eq < a.kRem) lane) >>> 16 =
        a.gtBefore (min w1 (b0 + 4 * m)) ∧
      a.Counts (eq + (∑ lane ∈ Finset.range m, a.mine w1 b0 (eq < a.kRem) lane) % 65536)
        (min w1 (b0 + 4 * m)) := by
  obtain ⟨hhigh, hlow⟩ := unpack_sum_mine a w1 b0 (eq < a.kRem) hm
  have habove := count_add_sum_step (a := a) (P := a.isAbove) rfl hb m
  have hon := count_add_sum_step (a := a) (P := a.isOn) rfl hb m
  have hA (c : ℕ) : Nat.count (fun c => a.isAbove (some (a.hi c))) c = Nat.count a.Above c :=
    count_congr fun j _ => by simp [isAbove, Above]
  have hO (c : ℕ) : Nat.count (fun c => a.isOn (some (a.hi c))) c = Nat.count a.On c :=
    count_congr fun j _ => by simp [isOn, On]
  rw [hA, hA] at habove
  rw [hO, hO] at hon
  rw [hhigh, hlow]
  refine ⟨by rw [hgt, gtBefore, gtBefore, Nat.add_assoc, habove], ?_⟩
  by_cases hopen : eq < a.kRem
  · have heq : eq = a.eqBefore b0 := heq.resolve_right fun h => by omega
    simp only [hopen, decide_true, Bool.true_and]
    exact .inl (by rw [heq, eqBefore, eqBefore, Nat.add_assoc, hon])
  · simp only [hopen, decide_false, Bool.false_and, Bool.false_eq_true, if_false,
      Finset.sum_const_zero, Nat.add_zero]
    have hmono : a.eqBefore b0 ≤ a.eqBefore (min w1 (b0 + 4 * m)) :=
      Nat.add_le_add_left (Nat.count_monotone a.On (by omega)) _
    refine .inr ⟨not_lt.mp hopen, ?_⟩
    rcases heq with rfl | h
    · omega
    · omega

/-- The stores of a step are those of its columns that are taken. -/
theorem mem_stepWrites (hb : b0 ≤ w1) (hgt : gt = a.gtBefore b0) (heq : a.Counts eq b0)
    (x : ℕ × ℤ) :
    x ∈ (List.range 32).flatMap (a.laneWrites w1 b0 gt eq) ↔
      ∃ c, b0 ≤ c ∧ c < b0 + 128 ∧ c < w1 ∧ a.Taken c ∧ x = (a.placeOf c, a.colBase + c) := by
  have hlane (lane : ℕ) (hl : lane < 32) : x ∈ a.laneWrites w1 b0 gt eq lane ↔
      ∃ c, b0 + 4 * lane ≤ c ∧ c < b0 + 4 * lane + 4 ∧ c < w1 ∧ a.Taken c ∧
        x = (a.placeOf c, a.colBase + c) := by
    obtain ⟨hg, he⟩ := counters_step hb hgt heq hl.le
    rw [laneWrites, warpScan_sub _ hl]
    refine mem_place 4 (by omega) (fun hle => ?_) (fun hle => ?_) (fun hclosed => ?_) x
    · rw [hg, Nat.min_eq_right (by omega), Nat.add_zero]
    · rwa [Nat.min_eq_right (by omega)] at he
    · have := of_decide_eq_false hclosed
      omega
  rw [List.mem_flatMap]
  constructor
  · rintro ⟨lane, hl, hx⟩
    have hl := List.mem_range.mp hl
    obtain ⟨c, h1, h2, h3⟩ := (hlane lane hl).mp hx
    exact ⟨c, by omega, by omega, h3⟩
  · rintro ⟨c, h1, h2, h3⟩
    have hl : (c - b0) / 4 < 32 := by omega
    exact ⟨(c - b0) / 4, List.mem_range.mpr hl, (hlane _ hl).mpr ⟨c, by omega, by omega, h3⟩⟩

/-- Nothing is stored where a lane has found nothing. -/
theorem place_eq_nil {hi : ℕ → Option (BitVec 32)} {eqOpen : Bool} {col : ℤ} {v : ℕ} (m : ℕ)
    {g e : ℕ} (habove : ∀ i < v + m, a.isAbove (hi i) = false)
    (hon : ∀ i < v + m, (eqOpen && a.isOn (hi i)) = false) :
    a.place hi eqOpen col m v g e = [] := by
  induction m generalizing v with
  | zero => rfl
  | succ m ih =>
    have h1 := habove v (by omega)
    have h2 := hon v (by omega)
    rw [place]
    cases hv : hi v with
    | none => rfl
    | some h =>
      rw [hv] at h1 h2
      have h1 : ¬ a.pHi < h := of_decide_eq_false h1
      have h2 : ¬ (eqOpen = true ∧ h = a.pHi) := by simpa [isOn] using h2
      dsimp only
      rw [if_neg h1, if_neg h2]
      exact ih (fun i hi => habove i (by omega)) fun i hi => hon i (by omega)

/-- The steps that are skipped would store nothing, and leave the counters. -/
theorem compactLoop_succ (m : ℕ) :
    a.compactLoop w1 (m + 1) b0 gt eq =
      if b0 < w1 ∧ gt + min eq a.kRem < a.k then
        (List.range 32).flatMap (a.laneWrites w1 b0 gt eq) ++
          a.compactLoop w1 m (b0 + 128)
            (gt + (∑ lane ∈ Finset.range 32, a.mine w1 b0 (eq < a.kRem) lane) >>> 16)
            (eq + (∑ lane ∈ Finset.range 32, a.mine w1 b0 (eq < a.kRem) lane) % 65536)
      else [] := by
  rw [compactLoop]
  refine if_congr Iff.rfl ?_ rfl
  dsimp only
  split_ifs with hzero
  · have hsum : ∑ lane ∈ Finset.range 32, a.mine w1 b0 (eq < a.kRem) lane = 0 :=
      Finset.sum_eq_zero fun lane hl => hzero lane (Finset.mem_range.mp hl)
    have hnil : (List.range 32).flatMap (a.laneWrites w1 b0 gt eq) = [] := by
      refine List.flatMap_eq_nil_iff.mpr fun lane hl => ?_
      have hmine := hzero lane (List.mem_range.mp hl)
      rw [mine, pack16_eq _ ((sum_four_le _).trans_lt (by omega)), Nat.add_eq_zero_iff,
        Nat.mul_eq_zero, or_iff_right (by omega),
        Finset.sum_eq_zero_iff, Finset.sum_eq_zero_iff] at hmine
      refine place_eq_nil 4 (fun i hi => ?_) fun i hi => ?_
      · have := hmine.1 i (Finset.mem_range.mpr (by omega))
        simpa using this
      · have := hmine.2 i (Finset.mem_range.mpr (by omega))
        simpa using this
    rw [hnil, hsum]
    rfl
  · rw [warpScan_eq_sum _ (by omega)]

end Step

/-! ### All steps -/

/-- The stores of a warp from a step on are those of its columns that are taken. -/
theorem mem_compactLoop {w1 : ℕ} (htotal : a.placeOf w1 ≤ a.k) (m : ℕ) {b0 gt eq : ℕ}
    (hm : w1 ≤ b0 + 128 * m) (hgt : gt = a.gtBefore (min w1 b0)) (heq : a.Counts eq (min w1 b0))
    (x : ℕ × ℤ) :
    x ∈ a.compactLoop w1 m b0 gt eq ↔
      ∃ c, b0 ≤ c ∧ c < w1 ∧ a.Taken c ∧ x = (a.placeOf c, a.colBase + c) := by
  induction m generalizing b0 gt eq with
  | zero =>
    refine iff_of_false (by simp [compactLoop]) ?_
    rintro ⟨c, h1, h2, -⟩
    omega
  | succ m ih =>
    rw [compactLoop_succ]
    split_ifs with hcond
    · have hmin : min w1 b0 = b0 := Nat.min_eq_right hcond.1.le
      rw [hmin] at hgt heq
      obtain ⟨hg, he⟩ := counters_step hcond.1.le hgt heq (m := 32) le_rfl
      rw [List.mem_append, mem_stepWrites hcond.1.le hgt heq, ih (by omega) hg he]
      constructor
      · rintro (⟨c, h1, -, h3⟩ | ⟨c, h1, h3⟩)
        · exact ⟨c, h1, h3⟩
        · exact ⟨c, by omega, h3⟩
      · rintro ⟨c, h1, h2, h3⟩
        by_cases hc : c < b0 + 128
        · exact .inl ⟨c, h1, hc, h2, h3⟩
        · exact .inr ⟨c, by omega, h2, h3⟩
    · -- all `k` places are filled
      refine iff_of_false (by simp) ?_
      rintro ⟨c, h1, h2, htake, -⟩
      have hmin : min w1 b0 = b0 := by omega
      rw [hmin] at hgt heq
      have hfull : a.k ≤ a.placeOf b0 := by
        rw [placeOf, ← hgt]
        rcases heq with rfl | h <;> omega
      have hle : a.placeOf b0 ≤ a.placeOf c := placeOf_mono h1
      have hlt : a.placeOf c < a.placeOf w1 := placeOf_lt htake h2
      omega

/-- The stores of a warp. -/
theorem mem_warpWrites (hW : W ≤ 32) (htotal : a.placeOf a.n ≤ a.k) {warp : ℕ} (h : warp < W)
    (x : ℕ × ℤ) :
    x ∈ a.warpWrites W warp ↔ ∃ c, warpStart W a.n warp ≤ c ∧ c < warpEnd W a.n warp ∧ a.Taken c ∧
      x = (a.placeOf c, a.colBase + c) := by
  have hstart := warpStart_le_warpEnd (W := W) (n := a.n) warp
  have hend : a.placeOf (warpEnd W a.n warp) ≤ a.k :=
    (placeOf_mono (Nat.min_le_left _ _)).trans htotal
  have hA : Nat.count (fun c => a.isAbove (some (a.hi c))) (warpStart W a.n warp) =
      Nat.count a.Above (warpStart W a.n warp) := count_congr fun j _ => by simp [isAbove, Above]
  have hO : Nat.count (fun c => a.isOn (some (a.hi c))) (warpStart W a.n warp) =
      Nat.count a.On (warpStart W a.n warp) := count_congr fun j _ => by simp [isOn, On]
  refine mem_compactLoop hend _ (warpEnd_le_steps warp) ?_ (.inl ?_) x
  · rw [Nat.min_eq_right hstart, warpBefore_eq rfl hW h, hA, gtBefore]
  · rw [Nat.min_eq_right hstart, warpBefore_eq rfl hW h, hO, eqBefore]

/-- **The stores of the block are those of the columns taken, each at its place.** -/
theorem mem_compactWrites (hW : 0 < W) (hW' : W ≤ 32) (htotal : a.placeOf a.n ≤ a.k) (x : ℕ × ℤ) :
    x ∈ a.compactWrites W ↔ ∃ c < a.n, a.Taken c ∧ x = (a.placeOf c, a.colBase + c) := by
  rw [compactWrites, List.mem_flatMap]
  constructor
  · rintro ⟨warp, hw, hx⟩
    obtain ⟨c, -, h2, h3⟩ := (mem_warpWrites hW' htotal (List.mem_range.mp hw) x).mp hx
    exact ⟨c, h2.trans_le (Nat.min_le_left _ _), h3⟩
  · rintro ⟨c, hc, h3⟩
    -- the segment that the column is in
    have hex : ∃ w, c < warpStart W a.n (w + 1) := ⟨W - 1, by
      rw [Nat.sub_add_cancel hW, warpStart_last hW]
      exact hc⟩
    have hfirst : warpStart W a.n (Nat.find hex) ≤ c := by
      rcases Nat.eq_zero_or_pos (Nat.find hex) with h | h
      · rw [h, warpStart_zero]
        exact Nat.zero_le c
      · have := Nat.find_min hex (Nat.sub_lt h Nat.one_pos)
        rw [Nat.sub_add_cancel h] at this
        exact not_lt.mp this
    have hlt : Nat.find hex < W := by
      have hle : Nat.find hex ≤ W - 1 := Nat.find_min' hex (by
        rw [Nat.sub_add_cancel hW, warpStart_last hW]
        exact hc)
      omega
    have hend := Nat.find_spec hex
    rw [← warpEnd_eq] at hend
    exact ⟨Nat.find hex, List.mem_range.mpr hlt,
      (mem_warpWrites hW' htotal hlt x).mpr ⟨c, hfirst, hend, h3⟩⟩

end CompactArgs

end DetTopk

end VllmMoet
