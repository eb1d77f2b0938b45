import VllmMoet.DetTopk.OneCta
import VllmMoet.Lib.Epoch

/-!
# A pass of a cluster

The passes of `det_topk_cluster_kernel` of `det_topk_sm120.cu`: each block of a cluster counts the
digits of its slice of the row, reads the counts of the others from their shared memory, group by
group and then bin by bin, and takes the decision that one block with the whole row would.

* `groupChoice_eq`: the group with the digit of the `k`-th key, and the counts above it;
* `decidePass_eq`: the bin, as `select_digit` would have it, and the slice's own counts;
* `moves_epoch`: between two barriers of the cluster the blocks may be at different moves, as the
  buffers that they read of each other are not the ones that they write.
-/

namespace VllmMoet

namespace DetTopk

/-! ### The slices -/

/-- `srow`: the row from a column on. -/
def Row.from (row : Row) (lo : ℕ) : Row :=
  { row with mem := fun i => row.mem (lo * row.stride1 + i) }

/-- `slice`: the columns of a block, in whole steps of 16. -/
def slice (C n : ℕ) : ℕ := ((n + C - 1) / C + 15) / 16 * 16

/-- `lo`. -/
def sliceStart (C n rank : ℕ) : ℕ := min n (rank * slice C n)

/-- `sn`. -/
def sliceLen (C n rank : ℕ) : ℕ := min n (sliceStart C n rank + slice C n) - sliceStart C n rank

/-! ### The state of a block -/

/-- Shared memory and variables of a block. Buffers by their number, sums by their pass. -/
structure CtaState where
  hist : ℕ → ℕ → ℕ
  lowor : ℕ → ℕ → BitVec 32
  coarse : ℕ → ℕ → ℕ
  skeys : ℕ → BitVec 32
  csum : ℕ → ℕ → ℕ
  bsum : ℕ → ℕ → ℕ
  bor : ℕ → BitVec 32
  pfx : BitVec 32
  pmask : BitVec 32
  kRem : ℕ
  done : Bool
  shift : ℕ
  localGt : ℕ
  localEq : ℕ

/-- What a launch of the kernel is given for a row. `cap`: the keys that shared memory has room
for. -/
structure ClusterArgs where
  C : ℕ
  U : ℕ
  row : Row
  n : ℕ
  k : ℕ
  cap : ℕ
  /-- The order of the atomics of a block, pass by pass. -/
  hist : ℕ → ℕ → Interleaving SmemOp

namespace ClusterArgs

variable (a : ClusterArgs)

/-- `lo`. -/
def lo (r : ℕ) : ℕ := sliceStart a.C a.n r

/-- `sn`. -/
def sn (r : ℕ) : ℕ := sliceLen a.C a.n r

/-- `cache`. -/
def cache (r : ℕ) : Bool := a.sn r ≤ a.cap

/-- `nbins`. -/
def nbins (p : ℕ) : ℕ := 1 <<< widths p

/-- `ngroups`. -/
def ngroups (p : ℕ) : ℕ := nbins p / 32

/-- `gpl`: the groups of a lane. -/
def gpl (p : ℕ) : ℕ := ngroups p / 32

/-- The state before the first pass. -/
def start (m : CtaState) : CtaState :=
  { m with
    hist := fun _ _ => 0
    lowor := fun _ _ => 0#32
    csum := fun _ _ => 0
    bsum := fun _ _ => 0
    bor := fun _ => 0#32
    pfx := 0#32
    pmask := 0#32
    kRem := a.k
    done := false
    shift := 32
    localGt := 0
    localEq := 0 }

/-- The histogram of the slice, and the sums of its groups. -/
def count (p r : ℕ) (m : CtaState) : CtaState :=
  let sm := histogram (passArgs (a.cache r) p m.pfx m.pmask m.shift) (a.hist r p) 1024 a.U
    (a.row.from (a.lo r)) (a.sn r)
    { hist := m.hist (p % 2), lowor := m.lowor (p % 2), skeys := m.skeys }
  { m with
    shift := m.shift - widths p
    hist := Function.update m.hist (p % 2) sm.hist
    lowor := Function.update m.lowor (p % 2) sm.lowor
    skeys := sm.skeys
    coarse := Function.update m.coarse (p % 2) fun g =>
      if g < ngroups p then ∑ i ∈ Finset.range 32, sm.hist (g * 32 + i) else m.coarse (p % 2) g }

/-- `csum` from the group sums of all blocks, a warp for each; the other warps of the 32 clear the
other buffers. -/
def sumGroups (p : ℕ) (view : ℕ → CtaState) (m : CtaState) : CtaState :=
  { m with
    csum := Function.update m.csum p fun g =>
      m.csum p g + if g < ngroups p then ∑ c ∈ Finset.range a.C, (view c).coarse (p % 2) g else 0
    hist := if a.C < 32 then
        Function.update m.hist ((p + 1) % 2) (clear 0 kBins (m.hist ((p + 1) % 2)))
      else m.hist
    lowor := if a.C < 32 then
        Function.update m.lowor ((p + 1) % 2) (clear 0#32 kGroups (m.lowor ((p + 1) % 2)))
      else m.lowor }

/-- A lane's `j`-th group from the top, of a table. -/
def laneGroup (p : ℕ) (f : ℕ → ℕ) (lane j : ℕ) : ℕ :=
  if j < gpl p then f (ngroups p - 1 - (lane * gpl p + j)) else 0

/-- What the groups above a lane's `j`-th one have in a table. -/
def groupsAbove (p : ℕ) (f : ℕ → ℕ) (lane j : ℕ) : ℕ :=
  let t (lane : ℕ) : ℕ := laneGroup p f lane 0 + laneGroup p f lane 1
  warpScan t lane - t lane + ∑ i ∈ Finset.range j, laneGroup p f lane i

/-- `jw`: the group of a lane in which the `k`-th key is. -/
def laneChoice (p : ℕ) (csum : ℕ → ℕ) (kRem lane : ℕ) : Option ℕ :=
  (List.range 2).find? fun j => j < gpl p ∧ groupsAbove p csum lane j < kRem ∧
    kRem ≤ groupsAbove p csum lane j + laneGroup p csum lane j

/-- The decision of the warps on the group. -/
structure GroupChoice where
  group : ℕ
  above : ℕ
  localAbove : ℕ

/-- `wl = __ffs(__ballot_sync(jw >= 0)) - 1`, and what its lane has. -/
def groupChoice (p : ℕ) (m : CtaState) : GroupChoice :=
  let wl := ((List.range 32).find? fun lane =>
    (laneChoice p (m.csum p) m.kRem lane).isSome).getD 0
  let jw := (laneChoice p (m.csum p) m.kRem wl).getD 0
  { group := ngroups p - 1 - (wl * gpl p + jw)
    above := groupsAbove p (m.csum p) wl jw
    localAbove := groupsAbove p (m.coarse (p % 2)) wl jw }

/-- `bsum` and `bor` from the bins of the chosen group of all blocks. -/
def sumBins (p : ℕ) (view : ℕ → CtaState) (m : CtaState) : CtaState :=
  let g := (groupChoice p m).group
  { m with
    bsum := Function.update m.bsum p fun lane =>
      m.bsum p lane + ∑ c ∈ Finset.range a.C, (view c).hist (p % 2) (g * 32 + 31 - lane)
    bor := if p = 1 then
        Function.update m.bor p
          ((List.range a.C).foldl (fun w c => w ||| (view c).lowor (p % 2) g) (m.bor p))
      else m.bor }

/-- `s_dec`: the digit, `k_rem` left, `done`, and the slice's columns above the digit and on it. -/
structure ClusterDecision where
  digit : ℕ
  kRem : ℕ
  done : Bool
  localGt : ℕ
  localEq : ℕ

/-- What a lane writes to `s_dec`. -/
def laneDecision (p : ℕ) (m : CtaState) (lane : ℕ) : Option ClusterDecision :=
  let c := groupChoice p m
  let d := c.group * 32 + 31 - lane
  let bs := m.bsum p
  let lb (lane : ℕ) : ℕ := m.hist (p % 2) (c.group * 32 + 31 - lane)
  let ba := warpScan bs lane - bs lane
  if c.above + ba < m.kRem ∧ m.kRem ≤ c.above + ba + bs lane then
    let need := m.kRem - c.above - ba
    some
      { digit := d
        kRem := need
        done := decide (bs lane = need) ||
          (decide (p = 1) && decide ((m.bor p >>> (d % 32)) &&& 1#32 = 0#32))
        localGt := c.localAbove + (warpScan lb lane - lb lane)
        localEq := lb lane }
  else none

/-- The variables after the decision. -/
def decided (p : ℕ) (m : CtaState) (s : ClusterDecision) : CtaState :=
  { m with
    pfx := m.pfx ||| (BitVec.ofNat 32 s.digit <<< m.shift)
    pmask := m.pmask ||| (((1#32 <<< widths p) - 1#32) <<< m.shift)
    kRem := s.kRem
    done := s.done
    localGt := m.localGt + s.localGt
    localEq := s.localEq }

/-- The decision of pass `p`. -/
def decidePass (p : ℕ) (m : CtaState) : CtaState :=
  match ((List.range 32).filterMap (laneDecision p m)).getLast? with
  | none => m
  | some s => decided p m s

/-- The moves of a block after the barrier of pass `p`, up to the next one. -/
def act (p i r : ℕ) (view : ℕ → CtaState) (m : CtaState) : CtaState :=
  if m.done then m
  else
    match i with
    | 0 => a.sumGroups p view m
    | 1 => a.sumBins p view m
    | 2 => decidePass p m
    | 3 => if p + 1 < 3 then a.count (p + 1) r m else m
    | _ => m

/-! ### Between two barriers -/

/-- What the blocks read of each other. -/
def shared (p : ℕ) (m : CtaState) : (ℕ → ℕ) × (ℕ → BitVec 32) × (ℕ → ℕ) :=
  (m.hist (p % 2), m.lowor (p % 2), m.coarse (p % 2))

variable {a} {p : ℕ}

theorem other_buffer (p : ℕ) : p % 2 ≠ (p + 1) % 2 := by omega

section Buffers

variable (v : ℕ → CtaState) (m : CtaState)

theorem sumGroups_hist_self : (a.sumGroups p v m).hist (p % 2) = m.hist (p % 2) := by
  rw [sumGroups]
  dsimp only
  split_ifs
  · exact Function.update_of_ne (other_buffer p) _ _
  · rfl

theorem sumGroups_lowor_self : (a.sumGroups p v m).lowor (p % 2) = m.lowor (p % 2) := by
  rw [sumGroups]
  dsimp only
  split_ifs
  · exact Function.update_of_ne (other_buffer p) _ _
  · rfl

theorem sumGroups_hist_other (hC : a.C < 32) {x : ℕ} (hx : x < kBins) :
    (a.sumGroups p v m).hist ((p + 1) % 2) x = 0 := by
  rw [sumGroups]
  dsimp only
  rw [if_pos hC, Function.update_self]
  exact if_pos hx

theorem sumGroups_lowor_other (hC : a.C < 32) {w : ℕ} (hw : w < kGroups) :
    (a.sumGroups p v m).lowor ((p + 1) % 2) w = 0#32 := by
  rw [sumGroups]
  dsimp only
  rw [if_pos hC, Function.update_self]
  exact if_pos hw

end Buffers

section Moves

variable {i r : ℕ} {v v' : ℕ → CtaState} {m : CtaState}

theorem act_of_done (h : m.done = true) : a.act p i r v m = m := if_pos h

theorem act_zero (h : m.done = false) : a.act p 0 r v m = a.sumGroups p v m := by
  simp [act, h]

theorem act_one (h : m.done = false) : a.act p 1 r v m = a.sumBins p v m := by
  simp [act, h]

theorem act_two (h : m.done = false) : a.act p 2 r v m = decidePass p m := by
  simp [act, h]

theorem act_three (h : m.done = false) :
    a.act p 3 r v m = if p + 1 < 3 then a.count (p + 1) r m else m := by
  simp [act, h]

theorem act_add_four : a.act p (i + 4) r v m = m := ite_self m

/-- A move reads of the others only what is shared. -/
theorem act_congr (i r : ℕ) (m : CtaState) (h : ∀ j, shared p (v j) = shared p (v' j)) :
    a.act p i r v m = a.act p i r v' m := by
  have hhist (c : ℕ) : (v c).hist (p % 2) = (v' c).hist (p % 2) := congrArg Prod.fst (h c)
  have hlow (c : ℕ) : (v c).lowor (p % 2) = (v' c).lowor (p % 2) :=
    congrArg (fun x => x.2.1) (h c)
  have hcoarse (c : ℕ) : (v c).coarse (p % 2) = (v' c).coarse (p % 2) :=
    congrArg (fun x => x.2.2) (h c)
  cases hd : m.done with
  | true => rw [act_of_done hd, act_of_done hd]
  | false =>
    match i with
    | 0 =>
      rw [act_zero hd, act_zero hd, sumGroups, sumGroups]
      simp only [hcoarse]
    | 1 =>
      rw [act_one hd, act_one hd, sumBins, sumBins]
      simp only [hhist, hlow]
    | 2 => rw [act_two hd, act_two hd]
    | 3 => rw [act_three hd, act_three hd]
    | _ + 4 => rw [act_add_four, act_add_four]

/-- And changes nothing of it. -/
theorem shared_act (i r : ℕ) (v : ℕ → CtaState) (m : CtaState) :
    shared p (a.act p i r v m) = shared p m := by
  have hne := other_buffer p
  cases hd : m.done with
  | true => rw [act_of_done hd]
  | false =>
    match i with
    | 0 =>
      rw [act_zero hd]
      exact Prod.ext (sumGroups_hist_self v m) (Prod.ext (sumGroups_lowor_self v m) rfl)
    | 1 =>
      rw [act_one hd]
      rfl
    | 2 =>
      rw [act_two hd, decidePass]
      split <;> rfl
    | 3 =>
      rw [act_three hd]
      split_ifs
      · exact Prod.ext (Function.update_of_ne hne _ _)
          (Prod.ext (Function.update_of_ne hne _ _) (Function.update_of_ne hne _ _))
      · rfl
    | _ + 4 => rw [act_add_four]

end Moves

/-- **The blocks may be at different moves.** Each ends as if the others stood still. -/
theorem moves_epoch {l : List ℕ} {mem : ℕ → CtaState} {r : ℕ} (hl : l.count r = 4) :
    (moves (a.act p) l mem fun _ => 0).1 r = alone (a.act p) r mem 4 (mem r) := by
  have hstart : ∀ i, mem i = alone (a.act p) i mem 0 (mem i) := fun _ => rfl
  have h := moves_eq_alone (a.act p) (shared p) (fun i r _ _ m hv => act_congr i r m hv)
    shared_act l hstart r
  rwa [hl, Nat.zero_add] at h

/-! ### The group of the `k`-th key -/

section Group

theorem ngroups_eq (hp : p < 3) : ngroups p = 32 * gpl p := by
  interval_cases p <;> rfl

theorem gpl_cases (hp : p < 3) : gpl p = 1 ∨ gpl p = 2 := by
  interval_cases p
  · exact .inr rfl
  · exact .inr rfl
  · exact .inl rfl

theorem nbins_eq_groups (hp : p < 3) : nbins p = ngroups p * 32 := by
  interval_cases p <;> rfl

/-- The groups of the lanes, in order, are those from the top. -/
theorem sum_laneGroup (hp : p < 3) (f : ℕ → ℕ) (lane : ℕ) :
    ∑ l ∈ Finset.range lane, (laneGroup p f l 0 + laneGroup p f l 1) =
      ∑ q ∈ Finset.range (gpl p * lane), f (ngroups p - 1 - q) := by
  rw [← sum_blocks]
  refine Finset.sum_congr rfl fun l _ => ?_
  rcases gpl_cases hp with h | h
  · rw [laneGroup, laneGroup, h, Finset.sum_range_one]
    simp
  · rw [laneGroup, laneGroup, h, Finset.sum_range_succ, Finset.sum_range_one, Nat.mul_comm 2]
    simp

theorem groupsAbove_eq (hp : p < 3) (f : ℕ → ℕ) {lane j : ℕ} (hl : lane < 32) (hj : j < gpl p) :
    groupsAbove p f lane j =
      ∑ g ∈ Finset.Ico (ngroups p - (lane * gpl p + j)) (ngroups p), f g := by
  have hlt : lane * gpl p + j ≤ ngroups p := by
    rw [ngroups_eq hp]
    have := Nat.mul_le_mul_right (gpl p) (Nat.succ_le_of_lt hl)
    rw [Nat.succ_mul] at this
    omega
  have hown : ∑ i ∈ Finset.range j, laneGroup p f lane i =
      ∑ i ∈ Finset.range j, f (ngroups p - 1 - (gpl p * lane + i)) := by
    refine Finset.sum_congr rfl fun i hi => ?_
    rw [laneGroup, if_pos ((Finset.mem_range.mp hi).trans hj), Nat.mul_comm]
  rw [groupsAbove, warpScan_sub _ hl, sum_laneGroup hp, hown, ← Finset.sum_range_add,
    ← sum_top f hlt, Nat.mul_comm]

/-- The count reaches `k` in the group of the digit only. -/
theorem groupsAbove_iff (hp : p < 3) {f : ℕ → ℕ} {k G lane j : ℕ}
    (hG : IsDigit f (ngroups p) k G) (hl : lane < 32) (hj : j < gpl p) :
    (groupsAbove p f lane j < k ∧ k ≤ groupsAbove p f lane j + laneGroup p f lane j) ↔
      ngroups p - 1 - (lane * gpl p + j) = G := by
  have hN := ngroups_eq hp
  have hle := Nat.mul_le_mul_right (gpl p) (Nat.succ_le_of_lt hl)
  rw [Nat.succ_mul] at hle
  have htop : ngroups p - (lane * gpl p + j) = ngroups p - 1 - (lane * gpl p + j) + 1 := by omega
  rw [groupsAbove_eq hp _ hl hj, laneGroup, if_pos hj, htop]
  constructor
  · rintro ⟨h1, h2⟩
    exact IsDigit.unique ⟨by omega, h1, h2⟩ hG
  · rintro rfl
    exact ⟨hG.above, hG.le⟩

/-- **The warps find the group** in which the count reaches `k_rem`. -/
theorem groupChoice_eq (hp : p < 3) {m : CtaState} {G : ℕ}
    (hG : IsDigit (m.csum p) (ngroups p) m.kRem G) :
    groupChoice p m =
      ⟨G, ∑ g ∈ Finset.Ico (G + 1) (ngroups p), m.csum p g,
        ∑ g ∈ Finset.Ico (G + 1) (ngroups p), m.coarse (p % 2) g⟩ := by
  have hgpl : 0 < gpl p := by
    rcases gpl_cases hp with h | h <;> omega
  have hlt := hG.lt
  have hN := ngroups_eq hp
  -- the lane of the group, and its place there
  have hq : ngroups p - 1 - G < 32 * gpl p := by omega
  have hlane : (ngroups p - 1 - G) / gpl p < 32 :=
    Nat.div_lt_of_lt_mul (by rwa [Nat.mul_comm])
  have hj : (ngroups p - 1 - G) % gpl p < gpl p := Nat.mod_lt _ hgpl
  have hdm := Nat.div_add_mod' (ngroups p - 1 - G) (gpl p)
  generalize (ngroups p - 1 - G) / gpl p = lane at hlane hdm
  generalize (ngroups p - 1 - G) % gpl p = j at hj hdm
  have hcond {l i : ℕ} (hl : l < 32) (hi : i < gpl p) :
      (groupsAbove p (m.csum p) l i < m.kRem ∧
        m.kRem ≤ groupsAbove p (m.csum p) l i + laneGroup p (m.csum p) l i) ↔
          l = lane ∧ i = j := by
    have hle := Nat.mul_le_mul_right (gpl p) (Nat.succ_le_of_lt hl)
    rw [Nat.succ_mul] at hle
    rw [groupsAbove_iff hp hG hl hi, ← digits_eq hi hj]
    omega
  have hj2 : j ∈ List.range 2 := by
    rcases gpl_cases hp with h | h <;> exact List.mem_range.mpr (by omega)
  have hfirst : laneChoice p (m.csum p) m.kRem lane = some j := by
    refine find?_eq_some_of_unique hj2 (decide_eq_true ⟨hj, (hcond hlane hj).mpr ⟨rfl, rfl⟩⟩) ?_
    intro i _ hi
    have hi := of_decide_eq_true hi
    exact ((hcond hlane hi.1).mp hi.2).2
  have hwl : (List.range 32).find? (fun l => (laneChoice p (m.csum p) m.kRem l).isSome) =
      some lane := by
    refine find?_eq_some_of_unique (List.mem_range.mpr hlane) (by rw [hfirst]; rfl) ?_
    intro l hl hsome
    obtain ⟨i, -, hi⟩ := List.find?_isSome.mp hsome
    have hi := of_decide_eq_true hi
    exact ((hcond (List.mem_range.mp hl) hi.1).mp hi.2).1
  have hgroup : ngroups p - 1 - (lane * gpl p + j) = G := by omega
  have htop : ngroups p - (lane * gpl p + j) = G + 1 := by omega
  rw [groupChoice, hwl]
  simp only [Option.getD_some, hfirst]
  rw [groupsAbove_eq hp _ hlane hj, groupsAbove_eq hp _ hlane hj, hgroup, htop]

end Group

/-! ### The bin of the `k`-th key -/

section Bin

variable {H own : ℕ → ℕ} {N K d : ℕ}

/-- The bins of a group, from the top. -/
theorem sum_lanes (f : ℕ → ℕ) (G : ℕ) {lane : ℕ} (hl : lane ≤ 32) :
    ∑ i ∈ Finset.range lane, f (G * 32 + 31 - i) =
      ∑ x ∈ Finset.Ico (G * 32 + 32 - lane) (G * 32 + 32), f x := by
  rw [← sum_top f (by omega)]
  exact Finset.sum_congr rfl fun i _ => congrArg f (by omega)

/-- The bins of groups. -/
theorem sum_groups (f : ℕ → ℕ) {b c : ℕ} (h : b ≤ c) :
    ∑ g ∈ Finset.Ico b c, ∑ i ∈ Finset.range 32, f (g * 32 + i) =
      ∑ x ∈ Finset.Ico (b * 32) (c * 32), f x := by
  induction c, h using Nat.le_induction with
  | base => simp
  | succ c h ih =>
    have hone : ∑ i ∈ Finset.range 32, f (c * 32 + i) =
        ∑ x ∈ Finset.Ico (c * 32) (c * 32 + 32), f x := by
      rw [Finset.sum_Ico_eq_sum_range, Nat.add_sub_cancel_left]
    rw [Finset.sum_Ico_succ_top h, ih, hone, Nat.succ_mul]
    exact Finset.sum_Ico_consecutive f (Nat.mul_le_mul_right 32 h) (Nat.le_add_right _ _)

/-- The group of the `k`-th key's bin is that in which the count of the groups reaches it. -/
theorem isDigit_group {S : ℕ → ℕ} {M : ℕ} (hd : IsDigit H N K d) (hN : N = M * 32)
    (hS : ∀ g < M, S g = ∑ i ∈ Finset.range 32, H (g * 32 + i)) : IsDigit S M K (d / 32) := by
  have hlt := hd.lt
  have hsum {b : ℕ} (hb : b ≤ M) :
      ∑ g ∈ Finset.Ico b M, S g = ∑ x ∈ Finset.Ico (b * 32) N, H x := by
    rw [hN, ← sum_groups H hb]
    exact Finset.sum_congr rfl fun g hg => hS g (Finset.mem_Ico.mp hg).2
  have hM : d / 32 < M := by omega
  refine ⟨hM, ?_, ?_⟩
  · rw [hsum hM]
    refine lt_of_le_of_lt ?_ hd.above
    exact Finset.sum_le_sum_of_subset (Finset.Ico_subset_Ico (by omega) le_rfl)
  · have hall := hsum hM.le
    rw [Finset.sum_eq_sum_Ico_succ_bot hM, Nat.add_comm] at hall
    have hle := hd.le
    rw [hall]
    refine hle.trans ?_
    rw [Nat.add_comm, ← Finset.sum_eq_sum_Ico_succ_bot hlt]
    exact Finset.sum_le_sum_of_subset (Finset.Ico_subset_Ico (by omega) le_rfl)

/-- What is decided about bin `d`, and what a block has above it and on it. -/
def clusterDecisionAt (H own : ℕ → ℕ) (N K : ℕ) (lowor : Option (ℕ → BitVec 32)) (d : ℕ) :
    ClusterDecision :=
  let D := decisionAt H N K lowor d
  ⟨D.digit, D.kRem, D.done, ∑ x ∈ Finset.Ico (d + 1) N, own x, own d⟩

variable {m : CtaState} {lowor : ℕ → BitVec 32}

/-- What the warps have before the decision: the group of bin `d`, the sums of its bins, and their
flags. -/
structure Chosen (p : ℕ) (H : ℕ → ℕ) (lowor : ℕ → BitVec 32) (d : ℕ) (m : CtaState) : Prop where
  group : groupChoice p m = ⟨d / 32, ∑ x ∈ Finset.Ico (d / 32 * 32 + 32) (nbins p), H x,
    ∑ x ∈ Finset.Ico (d / 32 * 32 + 32) (nbins p), m.hist (p % 2) x⟩
  bsum : ∀ lane < 32, m.bsum p lane = H (d / 32 * 32 + 31 - lane)
  bor : p = 1 → m.bor p = lowor (d / 32)

/-- The lane of the bin decides, and no other. -/
theorem laneDecision_eq (h : Chosen p H lowor d m) (hN : nbins p = ngroups p * 32)
    (hd : IsDigit H (nbins p) m.kRem d) {lane : ℕ} (hl : lane < 32) :
    laneDecision p m lane = if d / 32 * 32 + 31 - lane = d then
      some (clusterDecisionAt H (m.hist (p % 2)) (nbins p) m.kRem
        (if p = 1 then some lowor else none) d) else none := by
  have hlt := hd.lt
  have hgroup : d / 32 * 32 + 32 ≤ nbins p := by omega
  -- the bins above the lane's one
  have habove (f : ℕ → ℕ) : ∑ x ∈ Finset.Ico (d / 32 * 32 + 32) (nbins p), f x +
      ∑ i ∈ Finset.range lane, f (d / 32 * 32 + 31 - i) =
        ∑ x ∈ Finset.Ico (d / 32 * 32 + 31 - lane + 1) (nbins p), f x := by
    have htop : d / 32 * 32 + 32 - lane = d / 32 * 32 + 31 - lane + 1 := by omega
    rw [sum_lanes f _ hl.le, htop, Nat.add_comm]
    exact Finset.sum_Ico_consecutive f (by omega) hgroup
  have hbs : warpScan (m.bsum p) lane - m.bsum p lane =
      ∑ i ∈ Finset.range lane, H (d / 32 * 32 + 31 - i) :=
    (warpScan_sub _ hl).trans (Finset.sum_congr rfl fun i hi =>
      h.bsum i ((Finset.mem_range.mp hi).trans hl))
  have hlb : warpScan (fun i => m.hist (p % 2) (d / 32 * 32 + 31 - i)) lane -
      m.hist (p % 2) (d / 32 * 32 + 31 - lane) =
        ∑ i ∈ Finset.range lane, m.hist (p % 2) (d / 32 * 32 + 31 - i) :=
    warpScan_sub (fun i => m.hist (p % 2) (d / 32 * 32 + 31 - i)) hl
  rw [laneDecision, h.group]
  dsimp only
  rw [hbs, hlb, h.bsum lane hl, habove H, habove (m.hist (p % 2)), Nat.sub_sub, habove H]
  by_cases heq : d / 32 * 32 + 31 - lane = d
  · rw [if_pos heq, heq, if_pos ⟨hd.above, hd.le⟩, clusterDecisionAt, decisionAt]
    have hflag : (decide (p = 1) && decide ((m.bor p >>> (d % 32)) &&& 1#32 = 0#32)) =
        agreesBelow (if p = 1 then some lowor else none) d := by
      by_cases hp1 : p = 1
      · rw [h.bor hp1, if_pos hp1, decide_eq_true hp1, Bool.true_and, agreesBelow,
          Nat.shiftRight_eq_div_pow]
      · rw [if_neg hp1, decide_eq_false hp1, Bool.false_and, agreesBelow]
    rw [hflag]
  · rw [if_neg heq, if_neg]
    rintro ⟨h1, h2⟩
    exact heq (IsDigit.unique ⟨by omega, h1, h2⟩ hd)

/-- **The cluster takes the decision of one block with the whole row.** -/
theorem decidePass_eq (h : Chosen p H lowor d m) (hN : nbins p = ngroups p * 32)
    (hd : IsDigit H (nbins p) m.kRem d) :
    decidePass p m = decided p m (clusterDecisionAt H (m.hist (p % 2)) (nbins p) m.kRem
      (if p = 1 then some lowor else none) d) := by
  have hlane : d / 32 * 32 + 31 - (31 - d % 32) = d := by omega
  have hlt : 31 - d % 32 < 32 := by omega
  have hlast : ((List.range 32).filterMap (laneDecision p m)).getLast? =
      some (clusterDecisionAt H (m.hist (p % 2)) (nbins p) m.kRem
        (if p = 1 then some lowor else none) d) := by
    refine getLast?_eq_of_forall ?_ fun s hs => ?_
    · refine List.mem_filterMap.mpr ⟨31 - d % 32, List.mem_range.mpr hlt, ?_⟩
      rw [laneDecision_eq h hN hd hlt, if_pos hlane]
    · obtain ⟨lane, hl, hs⟩ := List.mem_filterMap.mp hs
      rw [laneDecision_eq h hN hd (List.mem_range.mp hl)] at hs
      by_cases hlane' : d / 32 * 32 + 31 - lane = d
      · rw [if_pos hlane'] at hs
        exact (Option.some.inj hs).symm
      · rw [if_neg hlane'] at hs
        cases hs
  rw [decidePass, hlast]

end Bin

end ClusterArgs

end DetTopk

end VllmMoet
