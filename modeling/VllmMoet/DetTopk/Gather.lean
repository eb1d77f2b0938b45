import VllmMoet.DetTopk.OneCta
import VllmMoet.Lib.Concat

/-!
# A row in two reads

`topk_gather` of `det_topk_sm120.cu`: the first read of the row finds the top digit of the `k`-th
key, the second collects the columns with that digit or a higher one in shared memory, in column
order, and the rest of the selection is made on these entries.

* `gatherWarp_collected`: a warp appends the entries of its segment in order, unless its region is
  full;
* `entryAt_eq`: the regions in warp order are the entries of the row;
* `topkGather_selection`: the output is the `k` columns that come first, also where a region is full
  or there are too many entries and the row continues in `topk_one_cta`.
-/

namespace VllmMoet

namespace DetTopk

/-- The order in which the operations of the threads take effect, phase by phase. -/
structure GatherOrders where
  first : Interleaving SmemOp
  second : Interleaving SmemOp
  region : Interleaving (ℕ × BitVec 32)
  third : Interleaving SmemOp
  out : Interleaving (ℕ × ℤ)
  oneCta : Orders

/-! ### The entries -/

/-- `dg`. -/
def topDigit (key : BitVec 32) : ℕ := (key >>> 21).toNat

/-- The next 11 bits. -/
def midDigit (key : BitVec 32) : BitVec 32 := (key >>> 10) &&& 0x7FF#32

section Collect

variable (row : Row) (d0 : ℕ) (done0 : Bool)

/-- `ent[v]`: bit 31 = taken, bits 20..30 = the candidate's next 11 bits, bits 0..19 = the
column. -/
def entryOf (c : ℕ) (key : BitVec 32) : BitVec 32 :=
  (if d0 < topDigit key then 0x80000000#32 else midDigit key <<< 20) ||| BitVec.ofNat 32 c

/-- The entry of a lane's column, where it takes it. -/
def takeAt (w1 c0 v : ℕ) : Option (BitVec 32) :=
  (loadKeys4 row w1 c0 v).bind fun key =>
    if d0 ≤ topDigit key then some (entryOf d0 (c0 + v) key) else none

/-- The atomics for a column. -/
def candidateOps : Option (BitVec 32) → List SmemOp
  | none => []
  | some key =>
    if topDigit key = d0 ∧ done0 = false then
      .atomicAdd (midDigit key).toNat ::
        if key &&& 0x3FF#32 ≠ 0#32 then [setFlag (midDigit key)] else []
    else []

/-- `__popc(take)`. -/
def takeCount (w1 b0 lane : ℕ) : ℕ :=
  ∑ v ∈ Finset.range 4, if (takeAt row d0 w1 (b0 + 4 * lane) v).isSome then 1 else 0

/-- `reg[pos++] = ent[v]` for the columns that a lane takes. -/
def appendEntries (take : ℕ → Option (BitVec 32)) : ℕ → ℕ → ℕ → List (ℕ × BitVec 32)
  | 0, _, _ => []
  | m + 1, v, pos =>
    match take v with
    | some ent => (pos, ent) :: appendEntries take m (v + 1) (pos + 1)
    | none => appendEntries take m (v + 1) pos

/-- What a warp does in the second read. -/
structure Gathered where
  ops : List SmemOp
  entries : List (ℕ × BitVec 32)
  off : ℕ
  full : Bool

/-- The loop of a warp, with at most `m` steps. -/
def gatherLoop (region w1 : ℕ) : ℕ → ℕ → ℕ → Gathered
  | 0, _, off => ⟨[], [], off, false⟩
  | m + 1, b0, off =>
    if b0 < w1 then
      let ops := (List.range 32).flatMap fun lane => (List.range 4).flatMap fun v =>
        candidateOps d0 done0 (loadKeys4 row w1 (b0 + 4 * lane) v)
      let incl := warpScan (takeCount row d0 w1 b0)
      if region < off + incl 31 then ⟨ops, [], off, true⟩
      else
        let entries := (List.range 32).flatMap fun lane =>
          appendEntries (takeAt row d0 w1 (b0 + 4 * lane)) 4 0
            (off + incl lane - takeCount row d0 w1 b0 lane)
        let rest := gatherLoop region w1 m (b0 + 128) (off + incl 31)
        ⟨ops ++ rest.ops, entries ++ rest.entries, rest.off, rest.full⟩
    else ⟨[], [], off, false⟩

/-- The second read of a warp. -/
def gatherWarp (W region n warp : ℕ) : Gathered :=
  gatherLoop row d0 done0 region (warpEnd W n warp) (seg W n / 128) (warpStart W n warp) 0

end Collect

/-- `while (r + 1 < kWarps && s_off[r + 1] <= g) ++r`, with at most `m` steps. -/
def findRegion (W : ℕ) (sOff : ℕ → ℕ) (g : ℕ) : ℕ → ℕ → ℕ
  | 0, r => r
  | m + 1, r => if r + 1 < W ∧ sOff (r + 1) ≤ g then findRegion W sOff g m (r + 1) else r

/-- `e[r * kRegion + (g - s_off[r])]`. -/
def entryAt (W region : ℕ) (sOff : ℕ → ℕ) (e : ℕ → BitVec 32) (g : ℕ) : BitVec 32 :=
  let r := findRegion W sOff g W 0
  e (r * region + (g - sOff r))

/-- `for (g = threadIdx.x; g < entries; g += THREADS)`. -/
def strided (T n t : ℕ) : List ℕ := (List.range ((n - t + T - 1) / T)).map fun i => T * i + t

/-! ### The threshold and the output -/

/-- The column of an entry. -/
def entryCol (en : BitVec 32) : ℕ := (en &&& 0xFFFFF#32).toNat

/-- Its next 11 bits. -/
def entryDigit (en : BitVec 32) : ℕ := ((en >>> 20) &&& 0x7FF#32).toNat

/-- `en >> 31`. -/
def entryTaken (en : BitVec 32) : Bool := en >>> 31 ≠ 0#32

/-- The last 10 bits of the key of an entry's column. -/
def lastDigit (row : Row) (en : BitVec 32) : ℕ := (row.key (entryCol en) &&& 0x3FF#32).toNat

/-- The atomics for an entry in the third histogram. -/
def thirdOps (row : Row) (d1 : ℕ) (en : BitVec 32) : List SmemOp :=
  if entryTaken en = false ∧ entryDigit en = d1 then [.atomicAdd (lastDigit row en)] else []

/-- What is known of the threshold: the candidates are the ties (`level = 0`), those with `d1` are
(1), or those with `d2` too (2). -/
structure Level where
  level : ℕ
  d1 : ℕ
  d2 : ℕ
  kRem : ℕ

/-- `cls[j]`: 2 above the threshold, 1 on it, 0 below. -/
def classOf (row : Row) (l : Level) (en : BitVec 32) : ℕ :=
  if entryTaken en = true ∨ l.level = 0 then if entryTaken en then 2 else 1
  else if entryDigit en ≠ l.d1 then if l.d1 < entryDigit en then 2 else 0
  else if l.level = 1 then 1
  else if l.d2 < lastDigit row en then 2 else if lastDigit row en = l.d2 then 1 else 0

section Emit

variable (W cap : ℕ) (cls col : ℕ → ℕ) (kRem : ℕ) (colBase : ℤ)

/-- `(cg << 16) | ce` of a thread. -/
def chunkCounts (t : ℕ) : ℕ :=
  pack16
    (∑ j ∈ Finset.range (cap / (32 * W)), if cls (t * (cap / (32 * W)) + j) = 2 then 1 else 0)
    (∑ j ∈ Finset.range (cap / (32 * W)), if cls (t * (cap / (32 * W)) + j) = 1 then 1 else 0)

/-- The stores of a thread, from an entry on. -/
def emit : ℕ → ℕ → ℕ → ℕ → List (ℕ × ℤ)
  | 0, _, _, _ => []
  | m + 1, g, gt, eq =>
    if cls g = 2 then (gt + min eq kRem, colBase + col g) :: emit m (g + 1) (gt + 1) eq
    else if cls g = 1 then
      (if eq < kRem then [(gt + eq, colBase + col g)] else []) ++ emit m (g + 1) gt (eq + 1)
    else emit m (g + 1) gt eq

/-- The stores of the block. -/
def emitWrites : List (ℕ × ℤ) :=
  (List.range (32 * W)).flatMap fun t =>
    let ex := blockScan W (chunkCounts W cap cls) t
    emit cls col kRem colBase (cap / (32 * W)) (t * (cap / (32 * W))) (ex >>> 16) (ex % 65536)

end Emit

/-! ### The whole -/

section Whole

variable (W U cap : ℕ) (o : GatherOrders) (row : Row) (n : ℕ) (colBase : ℤ) (k : ℕ)

/-- The first histogram's arguments. -/
def gatherArgs : HistArgs where
  pfx := 0#32
  pmask := 0#32
  shift := 21
  dmask := 0x7FF#32
  storeKeys := false
  fromSmem := false
  flags := false
  lowmask := 0#32

/-- The first histogram. -/
def gatherFirst (sm : Smem) : Smem :=
  histogram gatherArgs o.first (32 * W) U row n { sm with hist := clear 0 kBins sm.hist }

/-- The threshold from the entries. -/
def gatherLevel (first : Decision) (sm : Smem) (entries : ℕ) (entry : ℕ → BitVec 32) : Level :=
  if first.done then ⟨0, 0, 0, first.kRem⟩
  else
    let second := selectDigit W sm.hist kBins first.kRem (some sm.lowor) first
    if second.done then ⟨1, second.digit, 0, second.kRem⟩
    else
      let ops := (List.range (32 * W)).flatMap fun t =>
        (strided (32 * W) entries t).flatMap fun g =>
        thirdOps row second.digit (entry g)
      let sm := (o.third.run ops).foldl SmemOp.exec { sm with hist := clear 0 1024 sm.hist }
      let third := selectDigit W sm.hist 1024 second.kRem none second
      ⟨2, second.digit, third.digit, third.kRem⟩

/-- The number of entries before a region. -/
def regionOff (W : ℕ) (warp : ℕ → Gathered) (r : ℕ) : ℕ :=
  let ws (lane : ℕ) : ℕ := if lane < W then (warp lane).off else 0
  warpScan ws r - ws r

/-- The number of all entries. -/
def entryCount (W : ℕ) (warp : ℕ → Gathered) : ℕ :=
  warpScan (fun lane => if lane < W then (warp lane).off else 0) (W - 1)

/-- What follows if no region is full. -/
def gatherFinish (first : Decision) (warp : ℕ → Gathered) (sm : Smem) (e : ℕ → BitVec 32)
    (orow : ℕ → ℤ) : ℕ → ℤ :=
  let e := stores (o.region.run ((List.range W).flatMap fun w =>
    (warp w).entries.map fun x => (w * (cap / W) + x.1, x.2))) e
  let entries := entryCount W warp
  let entry := entryAt W (cap / W) (regionOff W warp) e
  let l := gatherLevel W o row first sm entries entry
  let cls (g : ℕ) : ℕ := if g < entries then classOf row l (entry g) else 0
  let col (g : ℕ) : ℕ := if g < entries then entryCol (entry g) else 0
  stores (o.out.run (emitWrites W cap cls col l.kRem colBase)) orow

/-- `topk_gather`: the output of a row. -/
def topkGather (sm : Smem) (vals : Decision) (e : ℕ → BitVec 32) (orow : ℕ → ℤ) : ℕ → ℤ :=
  if cap < k ∨ 1048576 < n then
    topkOneCta W U o.oneCta row n colBase k none none sm vals orow
  else
    let sm := gatherFirst W U o row n sm
    let first := selectDigit W sm.hist kBins k none vals
    let from0 : FromD0 := ⟨first.digit, first.kRem, first.done⟩
    if cap < k - first.kRem + first.cnt then
      topkOneCta W U o.oneCta row n colBase k none (some from0) sm first orow
    else
      let warp := gatherWarp row first.digit first.done W (cap / W) n
      let sm := (o.second.run ((List.range W).flatMap fun w => (warp w).ops)).foldl SmemOp.exec
        { sm with hist := clear 0 kBins sm.hist, lowor := clear 0#32 kGroups sm.lowor }
      if (List.range W).any fun w => (warp w).full then
        topkOneCta W U o.oneCta row n colBase k none (some from0) sm first orow
      else gatherFinish W cap o row colBase first warp sm e orow

end Whole

/-! ### The columns of a segment -/

section Columns

variable {γ : Type}

/-- What is done for the columns of a segment, in order. -/
def columnsFrom (f : ℕ → List γ) (b0 w1 : ℕ) : List γ :=
  (List.range (w1 - b0)).flatMap fun q => f (b0 + q)

/-- The columns of the lanes are those of the step. -/
theorem flatMap_lanes (f : ℕ → List γ) (b0 : ℕ) :
    ((List.range 32).flatMap fun lane => (List.range 4).flatMap fun v => f (b0 + 4 * lane + v)) =
      (List.range 128).flatMap fun q => f (b0 + q) := by
  rw [← flatMap_range_mul (fun q => f (b0 + q)) 4 32]
  simp only [Nat.add_assoc]

theorem columnsFrom_eq_nil (f : ℕ → List γ) {b0 w1 : ℕ} (h : w1 ≤ b0) :
    columnsFrom f b0 w1 = [] := by
  rw [columnsFrom, Nat.sub_eq_zero_of_le h]
  rfl

/-- The columns of some steps, as far as they are valid. -/
theorem flatMap_valid (f : ℕ → List γ) {b0 w1 m : ℕ} (h : w1 ≤ b0 + m) :
    ((List.range m).flatMap fun q => if b0 + q < w1 then f (b0 + q) else []) =
      columnsFrom f b0 w1 := by
  obtain ⟨m', rfl⟩ := Nat.exists_eq_add_of_le (show w1 - b0 ≤ m by omega)
  have hnone : ((List.range m').map (w1 - b0 + ·)).flatMap
      (fun q => if b0 + q < w1 then f (b0 + q) else []) = [] := by
    refine List.flatMap_eq_nil_iff.mpr fun q hq => if_neg ?_
    obtain ⟨i, -, rfl⟩ := List.mem_map.mp hq
    omega
  rw [List.range_add, List.flatMap_append, hnone, List.append_nil]
  refine List.flatMap_congr fun q hq => if_pos ?_
  have := List.mem_range.mp hq
  omega

/-- A step, and the rest of the segment. -/
theorem columnsFrom_step (f : ℕ → List γ) (b0 w1 : ℕ) :
    columnsFrom f b0 w1 =
      ((List.range 128).flatMap fun q => if b0 + q < w1 then f (b0 + q) else []) ++
        columnsFrom f (b0 + 128) w1 := by
  have hrest : w1 ≤ b0 + 128 + (w1 - (b0 + 128)) := by omega
  have hmore : w1 ≤ b0 + (128 + (w1 - (b0 + 128))) := by omega
  rw [← flatMap_valid f hmore, ← flatMap_valid f hrest,
    List.range_add, List.flatMap_append, List.flatMap_map]
  simp only [Nat.add_assoc]

/-- The segments of the warps are the columns of the row. -/
theorem flatMap_segments (f : ℕ → List γ) {W n : ℕ} (hW : 0 < W) :
    ((List.range W).flatMap fun w => columnsFrom f (warpStart W n w) (warpEnd W n w)) =
      (List.range n).flatMap f := by
  have hupto (m : ℕ) :
      ((List.range m).flatMap fun w => columnsFrom f (warpStart W n w) (warpEnd W n w)) =
        (List.range (warpStart W n m)).flatMap f := by
    induction m with
    | zero => rw [warpStart_zero]; rfl
    | succ m ih =>
      have hle : warpStart W n m ≤ warpStart W n (m + 1) := warpEnd_eq m ▸ warpStart_le_warpEnd m
      obtain ⟨l, hl⟩ := Nat.exists_eq_add_of_le hle
      rw [List.range_succ, List.flatMap_append, ih, List.flatMap_singleton, warpEnd_eq, columnsFrom,
        hl, Nat.add_sub_cancel_left, List.range_add, List.flatMap_append, List.flatMap_map]
  rw [hupto W, warpStart_last hW]

end Columns

/-! ### What is collected -/

section Collected

variable {row : Row} {d0 : ℕ} {done0 : Bool}

/-- The entry of a column. -/
def rowEntry (row : Row) (d0 c : ℕ) : Option (BitVec 32) :=
  if d0 ≤ topDigit (row.key c) then some (entryOf d0 c (row.key c)) else none

theorem takeAt_eq {w1 c0 v : ℕ} (hv : v < 4) :
    takeAt row d0 w1 c0 v = if c0 + v < w1 then rowEntry row d0 (c0 + v) else none := by
  rw [takeAt, loadKeys4_eq row hv]
  split_ifs <;> rfl

/-- A lane numbers what it takes. -/
theorem appendEntries_eq (take : ℕ → Option (BitVec 32)) (m v pos : ℕ) :
    appendEntries take m v pos =
      numbered pos ((List.range m).flatMap fun i => (take (v + i)).toList) := by
  induction m generalizing v pos with
  | zero => rfl
  | succ m ih =>
    have hrest : (List.range m).flatMap (fun i => (take (v + 1 + i)).toList) =
        (List.range m).flatMap fun i => (take (v + i.succ)).toList :=
      List.flatMap_congr fun i _ => by rw [Nat.add_assoc, Nat.add_comm 1]
    rw [appendEntries, List.range_succ_eq_map, List.flatMap_cons, List.flatMap_map, ← hrest,
      Nat.add_zero]
    cases take v with
    | none => exact ih (v + 1) pos
    | some ent =>
      rw [Option.toList_some, List.singleton_append, numbered, ← ih]

/-- What a lane takes in a step. -/
def laneEntries (row : Row) (d0 w1 b0 lane : ℕ) : List (BitVec 32) :=
  (List.range 4).flatMap fun v => (takeAt row d0 w1 (b0 + 4 * lane) v).toList

theorem takeCount_eq (w1 b0 lane : ℕ) :
    takeCount row d0 w1 b0 lane = (laneEntries row d0 w1 b0 lane).length := by
  rw [takeCount, laneEntries, length_flatMap_range]
  refine Finset.sum_congr rfl fun v _ => ?_
  cases takeAt row d0 w1 (b0 + 4 * lane) v <;> rfl

/-- The lanes append their entries one after the other. -/
theorem stepEntries_eq (w1 b0 off : ℕ) :
    ((List.range 32).flatMap fun lane => appendEntries (takeAt row d0 w1 (b0 + 4 * lane)) 4 0
        (off + warpScan (takeCount row d0 w1 b0) lane - takeCount row d0 w1 b0 lane)) =
      numbered off ((List.range 32).flatMap (laneEntries row d0 w1 b0)) := by
  rw [← flatMap_numbered]
  refine List.flatMap_congr fun lane hl => ?_
  have hscan := warpScan_eq_sum (takeCount row d0 w1 b0) (List.mem_range.mp hl)
  rw [Finset.sum_range_succ] at hscan
  have hpos : off + warpScan (takeCount row d0 w1 b0) lane - takeCount row d0 w1 b0 lane =
      off + ∑ i ∈ Finset.range lane, (laneEntries row d0 w1 b0 i).length := by
    rw [← Finset.sum_congr rfl fun i _ => takeCount_eq w1 b0 i]
    omega
  rw [appendEntries_eq, hpos]
  simp only [Nat.zero_add]
  rfl

/-- A step takes the entries of its columns. -/
theorem laneEntries_eq (w1 b0 : ℕ) :
    (List.range 32).flatMap (laneEntries row d0 w1 b0) = (List.range 128).flatMap fun q =>
      if b0 + q < w1 then (rowEntry row d0 (b0 + q)).toList else [] := by
  rw [← flatMap_lanes fun c => if c < w1 then (rowEntry row d0 c).toList else []]
  refine List.flatMap_congr fun lane _ => List.flatMap_congr fun v hv => ?_
  rw [takeAt_eq (List.mem_range.mp hv)]
  split_ifs <;> rfl

theorem candidateOps_eq (w1 b0 : ℕ) :
    ((List.range 32).flatMap fun lane => (List.range 4).flatMap fun v =>
        candidateOps d0 done0 (loadKeys4 row w1 (b0 + 4 * lane) v)) =
      (List.range 128).flatMap fun q =>
        if b0 + q < w1 then candidateOps d0 done0 (some (row.key (b0 + q))) else [] := by
  rw [← flatMap_lanes fun c => if c < w1 then candidateOps d0 done0 (some (row.key c)) else []]
  refine List.flatMap_congr fun lane _ => List.flatMap_congr fun v hv => ?_
  rw [loadKeys4_eq row (List.mem_range.mp hv)]
  split_ifs <;> rfl

/-- The entries of the columns of a segment. -/
def segEntries (row : Row) (d0 b0 w1 : ℕ) : List (BitVec 32) :=
  columnsFrom (fun c => (rowEntry row d0 c).toList) b0 w1

/-- Their atomics. -/
def segOps (row : Row) (d0 : ℕ) (done0 : Bool) (b0 w1 : ℕ) : List SmemOp :=
  columnsFrom (fun c => candidateOps d0 done0 (some (row.key c))) b0 w1

/-- A warp whose region is not full has collected the rest of its segment. -/
theorem gatherLoop_eq {region w1 : ℕ} (m : ℕ) {b0 off : ℕ} (hm : w1 ≤ b0 + 128 * m)
    (hoff : off ≤ region)
    (hfull : (gatherLoop row d0 done0 region w1 m b0 off).full = false) :
    gatherLoop row d0 done0 region w1 m b0 off =
        ⟨segOps row d0 done0 b0 w1, numbered off (segEntries row d0 b0 w1),
          off + (segEntries row d0 b0 w1).length, false⟩ ∧
      off + (segEntries row d0 b0 w1).length ≤ region := by
  induction m generalizing b0 off with
  | zero =>
    rw [segOps, segEntries, columnsFrom_eq_nil _ (by omega), columnsFrom_eq_nil _ (by omega)]
    exact ⟨rfl, hoff⟩
  | succ m ih =>
    have hscan : warpScan (takeCount row d0 w1 b0) 31 =
        ((List.range 32).flatMap (laneEntries row d0 w1 b0)).length := by
      rw [warpScan_eq_sum _ (by omega), length_flatMap_range]
      exact Finset.sum_congr rfl fun i _ => takeCount_eq w1 b0 i
    rw [gatherLoop] at hfull ⊢
    by_cases hlt : b0 < w1
    · rw [if_pos hlt] at hfull ⊢
      by_cases hover : region < off + warpScan (takeCount row d0 w1 b0) 31
      · simp [hover] at hfull
      · -- the step, then the rest
        rw [if_neg hover] at hfull ⊢
        obtain ⟨hrest, hle⟩ := ih (by omega) (not_lt.mp hover) hfull
        rw [hscan] at hrest hle
        have hops : segOps row d0 done0 b0 w1 = _ ++ segOps row d0 done0 (b0 + 128) w1 :=
          columnsFrom_step _ b0 w1
        have hent : segEntries row d0 b0 w1 = _ ++ segEntries row d0 (b0 + 128) w1 :=
          columnsFrom_step _ b0 w1
        rw [hops, hent, numbered_append, List.length_append, ← Nat.add_assoc, ← laneEntries_eq,
          stepEntries_eq, candidateOps_eq, hscan, hrest]
        exact ⟨by dsimp only, hle⟩
    · rw [if_neg hlt] at hfull ⊢
      rw [segOps, segEntries, columnsFrom_eq_nil _ (not_lt.mp hlt),
        columnsFrom_eq_nil _ (not_lt.mp hlt)]
      exact ⟨rfl, hoff⟩

/-- What a warp has collected. -/
structure Gathered.Collected (row : Row) (d0 : ℕ) (done0 : Bool) (W region n warp : ℕ)
    (g : Gathered) : Prop where
  ops : g.ops = segOps row d0 done0 (warpStart W n warp) (warpEnd W n warp)
  entries : g.entries = numbered 0 (segEntries row d0 (warpStart W n warp) (warpEnd W n warp))
  off : g.off = (segEntries row d0 (warpStart W n warp) (warpEnd W n warp)).length
  fits : (segEntries row d0 (warpStart W n warp) (warpEnd W n warp)).length ≤ region

/-- **A warp appends the entries of its segment in order**, unless its region is full. -/
theorem gatherWarp_collected {W region n warp : ℕ}
    (hfull : (gatherWarp row d0 done0 W region n warp).full = false) :
    (gatherWarp row d0 done0 W region n warp).Collected row d0 done0 W region n warp := by
  obtain ⟨heq, hle⟩ :=
    gatherLoop_eq (seg W n / 128) (warpEnd_le_steps warp) (Nat.zero_le region) hfull
  rw [Nat.zero_add] at heq hle
  exact ⟨congrArg Gathered.ops heq, congrArg Gathered.entries heq, congrArg Gathered.off heq, hle⟩

end Collected

/-! ### The regions in shared memory -/

section Regions

variable {W region : ℕ} {R : ℕ → List (BitVec 32)}

/-- The entries of a warp are in its region. -/
theorem stores_region (hfit : ∀ w < W, (R w).length ≤ region) (il : Interleaving (ℕ × BitVec 32))
    (e : ℕ → BitVec 32) {w i : ℕ} {x : BitVec 32} (hw : w < W) (hx : (R w)[i]? = some x) :
    stores (il.run ((List.range W).flatMap fun w =>
      (numbered 0 (R w)).map fun x => (w * region + x.1, x.2))) e (w * region + i) = x := by
  have hlt {w i : ℕ} {x : BitVec 32} (hw : w < W) (hx : (R w)[i]? = some x) : i < region :=
    (List.getElem?_eq_some_iff.mp hx).1.trans_le (hfit w hw)
  have hmem (y : ℕ × BitVec 32) : y ∈ il.run ((List.range W).flatMap fun w =>
      (numbered 0 (R w)).map fun x => (w * region + x.1, x.2)) ↔
        ∃ w < W, ∃ i, (R w)[i]? = some y.2 ∧ y.1 = w * region + i := by
    rw [il.mem_run, List.mem_flatMap]
    refine exists_congr fun w => and_congr List.mem_range ?_
    rw [List.mem_map]
    constructor
    · rintro ⟨z, hz, rfl⟩
      obtain ⟨i, hi, hzi⟩ := mem_numbered.mp hz
      exact ⟨i, hi, by rw [hzi, Nat.zero_add]⟩
    · rintro ⟨i, hi, hy⟩
      exact ⟨(i, y.2), mem_numbered.mpr ⟨i, hi, (Nat.zero_add i).symm⟩, Prod.ext hy.symm rfl⟩
  refine stores_of_mem ((hmem _).mpr ⟨w, hw, i, hx, rfl⟩) fun y hy hyk => ?_
  -- no other region has the place
  obtain ⟨w', hw', i', hi', hy1⟩ := (hmem y).mp hy
  obtain ⟨rfl, rfl⟩ := (digits_eq (hlt hw' hi') (hlt hw hx)).mp (hy1.symm.trans hyk)
  exact Option.some.inj (hi'.symm.trans hx)

/-- The region that is found: the last one that starts at or before the entry. -/
theorem findRegion_spec {sOff : ℕ → ℕ} {g : ℕ} (m : ℕ) {r : ℕ} (hm : W ≤ r + m) (hr : r < W)
    (hle : sOff r ≤ g) :
    findRegion W sOff g m r < W ∧ sOff (findRegion W sOff g m r) ≤ g ∧
      (findRegion W sOff g m r + 1 < W → g < sOff (findRegion W sOff g m r + 1)) := by
  induction m generalizing r with
  | zero => omega
  | succ m ih =>
    rw [findRegion]
    split_ifs with h
    · exact ih (by omega) h.1 h.2
    · exact ⟨hr, hle, fun hlt => not_le.mp fun hle' => h ⟨hlt, hle'⟩⟩

/-- **The regions in warp order are the entries of the row.** -/
theorem entryAt_eq (hW : 0 < W) (hfit : ∀ w < W, (R w).length ≤ region)
    (il : Interleaving (ℕ × BitVec 32)) (e : ℕ → BitVec 32) {sOff : ℕ → ℕ}
    (hOff : ∀ r < W, sOff r = ∑ i ∈ Finset.range r, (R i).length) {g : ℕ} {x : BitVec 32}
    (hx : ((List.range W).flatMap R)[g]? = some x) :
    entryAt W region sOff (stores (il.run ((List.range W).flatMap fun w =>
      (numbered 0 (R w)).map fun x => (w * region + x.1, x.2))) e) g = x := by
  have hzero : sOff 0 ≤ g := by
    rw [hOff 0 hW, Finset.sum_range_zero]
    exact Nat.zero_le g
  obtain ⟨hr, hlow, hhigh⟩ := findRegion_spec W (Nat.le_add_left W 0) hW hzero
  have hlt : g < ∑ i ∈ Finset.range (findRegion W sOff g W 0 + 1), (R i).length := by
    by_cases hlast : findRegion W sOff g W 0 + 1 < W
    · rw [← hOff _ hlast]
      exact hhigh hlast
    · have hlen := (List.getElem?_eq_some_iff.mp hx).1
      rw [length_flatMap_range] at hlen
      have heq : findRegion W sOff g W 0 + 1 = W := by omega
      rw [heq]
      exact hlen
  rw [hOff _ hr] at hlow
  rw [getElem?_flatMap_range R hr hlow hlt, ← hOff _ hr] at hx
  rw [entryAt]
  exact stores_region hfit il e hr hx

end Regions

/-! ### The entries by their columns -/

section Entries

variable {row : Row} {d0 : ℕ}

variable (row d0) in
/-- The column has an entry. -/
def Selected (c : ℕ) : Prop := d0 ≤ topDigit (row.key c)

instance : DecidablePred (Selected row d0) := fun c =>
  inferInstanceAs (Decidable (d0 ≤ topDigit (row.key c)))

theorem length_rowEntry (c : ℕ) :
    (rowEntry row d0 c).toList.length = if Selected row d0 c then 1 else 0 := by
  by_cases h : d0 ≤ topDigit (row.key c)
  · rw [rowEntry, if_pos h]
    exact (if_pos h).symm
  · rw [rowEntry, if_neg h]
    exact (if_neg h).symm

theorem sum_length_rowEntry (n : ℕ) :
    ∑ c ∈ Finset.range n, (rowEntry row d0 c).toList.length = Nat.count (Selected row d0) n := by
  induction n with
  | zero => simp
  | succ n ih => rw [Finset.sum_range_succ, ih, Nat.count_succ, length_rowEntry]

/-- The entry of a column has the number of the entries before it. -/
theorem getElem?_rowEntries {n c : ℕ} (hc : c < n) (hsel : Selected row d0 c) :
    ((List.range n).flatMap fun c => (rowEntry row d0 c).toList)[Nat.count (Selected row d0) c]? =
      some (entryOf d0 c (row.key c)) := by
  have hsum : ∑ c ∈ Finset.range c, (rowEntry row d0 c).toList.length =
      Nat.count (Selected row d0) c := sum_length_rowEntry c
  have hent : rowEntry row d0 c = some (entryOf d0 c (row.key c)) := if_pos hsel
  rw [getElem?_flatMap_range _ hc hsum.le, hsum, Nat.sub_self, hent]
  · rfl
  · rw [Finset.sum_range_succ, hsum, length_rowEntry, if_pos hsel]
    exact Nat.lt_succ_self _

end Entries

/-! ### The output from the classes -/

section Output

variable {W cap : ℕ} (cls col : ℕ → ℕ) (kRem : ℕ) (colBase : ℤ)

/-- The stores for some entries are those of the entries above the threshold, and of the first
`kRem` on it. -/
theorem mem_emit (m : ℕ) {g gt eq : ℕ} (hgt : gt = Nat.count (fun j => cls j = 2) g)
    (heq : eq = Nat.count (fun j => cls j = 1) g) (x : ℕ × ℤ) :
    x ∈ emit cls col kRem colBase m g gt eq ↔ ∃ j, g ≤ j ∧ j < g + m ∧
      (cls j = 2 ∨ cls j = 1 ∧ Nat.count (fun j => cls j = 1) j < kRem) ∧
      x = (Nat.count (fun j => cls j = 2) j + min (Nat.count (fun j => cls j = 1) j) kRem,
        colBase + col j) := by
  induction m generalizing g gt eq with
  | zero =>
    refine iff_of_false (by simp [emit]) ?_
    rintro ⟨j, h1, h2, -⟩
    omega
  | succ m ih =>
    -- the entry itself, or one after it
    have hsplit (p : Prop) {r : ℕ → Prop} (hp : p ↔ r g) :
        (p ∨ ∃ j, g + 1 ≤ j ∧ j < g + 1 + m ∧ r j) ↔ ∃ j, g ≤ j ∧ j < g + (m + 1) ∧ r j := by
      rw [hp]
      constructor
      · rintro (h | ⟨j, h1, h2, h3⟩)
        · exact ⟨g, le_rfl, by omega, h⟩
        · exact ⟨j, by omega, by omega, h3⟩
      · rintro ⟨j, h1, h2, h3⟩
        rcases h1.eq_or_lt with rfl | hlt
        · exact .inl h3
        · exact .inr ⟨j, by omega, by omega, h3⟩
    have hgt' := Nat.count_succ (fun j => cls j = 2) g
    have heq' := Nat.count_succ (fun j => cls j = 1) g
    rw [emit]
    by_cases h2 : cls g = 2
    · rw [if_pos h2] at hgt'
      rw [if_neg (by omega)] at heq'
      rw [if_pos h2, List.mem_cons, ih (by omega) (by omega)]
      exact hsplit _ (by simp [h2, hgt, heq])
    · rw [if_neg h2] at hgt'
      rw [if_neg h2]
      by_cases h1 : cls g = 1
      · rw [if_pos h1] at heq'
        rw [if_pos h1, List.mem_append, ih (by omega) (by omega)]
        refine hsplit _ ?_
        by_cases hroom : eq < kRem
        · simp [h1, hroom, hgt, ← heq, Nat.min_eq_left hroom.le]
        · simp [h1, hroom, ← heq]
      · rw [if_neg h1] at heq'
        rw [if_neg h1, ih (by omega) (by omega)]
        exact (or_iff_right fun h => h).symm.trans (hsplit _ (by simp [h1, h2]))

/-- The counts of the threads before one, unpacked. -/
theorem unpack_blockScan (hW : W ≤ 32) (hcap : cap < 65536) (hdvd : 32 * W ∣ cap) {t : ℕ}
    (ht : t < 32 * W) :
    blockScan W (chunkCounts W cap cls) t >>> 16 =
        Nat.count (fun j => cls j = 2) (t * (cap / (32 * W))) ∧
      blockScan W (chunkCounts W cap cls) t % 65536 =
        Nat.count (fun j => cls j = 1) (t * (cap / (32 * W))) := by
  have hmul : 32 * W * (cap / (32 * W)) = cap := Nat.mul_div_cancel' hdvd
  have hsum (i : ℕ) : ∑ t' ∈ Finset.range t, ∑ j ∈ Finset.range (cap / (32 * W)),
      (if cls (t' * (cap / (32 * W)) + j) = i then 1 else 0) =
        Nat.count (fun j => cls j = i) (t * (cap / (32 * W))) := by
    have hall := count_add_sum (fun j => cls j = i) 0 (cap / (32 * W) * t)
    simp only [Nat.count_zero, Nat.zero_add] at hall
    rw [Nat.mul_comm t, ← hall, ← sum_blocks]
    simp only [Nat.mul_comm]
  have hle : t * (cap / (32 * W)) ≤ cap :=
    (Nat.mul_le_mul_right _ ht.le).trans hmul.le
  have hsmall : ∑ t' ∈ Finset.range t, ∑ j ∈ Finset.range (cap / (32 * W)),
      (if cls (t' * (cap / (32 * W)) + j) = 1 then 1 else 0) < 65536 := by
    rw [hsum 1]
    exact (Nat.count_le _).trans_lt (hle.trans_lt hcap)
  rw [blockScan_eq_sum hW ht, ← hsum 2, ← hsum 1]
  exact unpack_sum _ _ hsmall

/-- The stores of the block. -/
theorem mem_emitWrites (hW : W ≤ 32) (hcap : cap < 65536) (hdvd : 32 * W ∣ cap) (x : ℕ × ℤ) :
    x ∈ emitWrites W cap cls col kRem colBase ↔ ∃ j < cap,
      (cls j = 2 ∨ cls j = 1 ∧ Nat.count (fun j => cls j = 1) j < kRem) ∧
      x = (Nat.count (fun j => cls j = 2) j + min (Nat.count (fun j => cls j = 1) j) kRem,
        colBase + col j) := by
  have hmul : 32 * W * (cap / (32 * W)) = cap := Nat.mul_div_cancel' hdvd
  have hthread {t : ℕ} (ht : t < 32 * W) := mem_emit cls col kRem colBase (cap / (32 * W))
    (unpack_blockScan cls hW hcap hdvd ht).1 (unpack_blockScan cls hW hcap hdvd ht).2 x
  rw [emitWrites, List.mem_flatMap]
  constructor
  · rintro ⟨t, ht, hx⟩
    have ht := List.mem_range.mp ht
    obtain ⟨j, -, h2, h3⟩ := (hthread ht).mp hx
    have hle := Nat.mul_le_mul_right (cap / (32 * W)) (Nat.succ_le_of_lt ht)
    rw [Nat.succ_mul, hmul] at hle
    exact ⟨j, by omega, h3⟩
  · rintro ⟨j, hj, h3⟩
    rw [← hmul] at hj
    have hper : 0 < cap / (32 * W) := by
      by_contra hzero
      rw [Nat.eq_zero_of_not_pos hzero, Nat.mul_zero] at hj
      omega
    have ht : j / (cap / (32 * W)) < 32 * W := Nat.div_lt_of_lt_mul (by rwa [Nat.mul_comm])
    have hdm := Nat.div_add_mod' j (cap / (32 * W))
    have hmod := Nat.mod_lt j hper
    exact ⟨_, List.mem_range.mpr ht, (hthread ht).mpr ⟨j, by omega, by omega, h3⟩⟩

end Output

/-! ### Reading an entry -/

section Entry

variable {d0 c : ℕ} {key : BitVec 32}

theorem toNat_midDigit (key : BitVec 32) : (midDigit key).toNat = (key.toNat >>> 10) % 2048 :=
  toNat_digit (w := 11) (s := 10) (by omega) key

theorem topDigit_eq (key : BitVec 32) : topDigit key = key.toNat >>> 21 :=
  BitVec.toNat_ushiftRight _ _

theorem toNat_entryOf (hc : c < 1048576) :
    (entryOf d0 c key).toNat =
      (if d0 < topDigit key then 2048 else (key.toNat >>> 10) % 2048) * 1048576 + c := by
  have hcol : (BitVec.ofNat 32 c).toNat = c := by
    rw [BitVec.toNat_ofNat]
    exact Nat.mod_eq_of_lt (by omega)
  have hor (m : ℕ) : m * 1048576 ||| c = m * 1048576 + c := by
    rw [Nat.mul_comm]
    exact (Nat.two_pow_add_eq_or_of_lt (i := 20) hc m).symm
  rw [entryOf, BitVec.toNat_or, hcol]
  split_ifs with h
  · exact hor 2048
  · have hlt : (key.toNat >>> 10) % 2048 < 2048 := Nat.mod_lt _ (by omega)
    rw [BitVec.toNat_shiftLeft, toNat_midDigit, Nat.shiftLeft_eq, ← hor]
    congr 1
    exact Nat.mod_eq_of_lt (by omega)

theorem entryCol_entryOf (hc : c < 1048576) : entryCol (entryOf d0 c key) = c := by
  have hand : (entryOf d0 c key).toNat &&& 0xFFFFF = (entryOf d0 c key).toNat % 1048576 :=
    Nat.and_two_pow_sub_one_eq_mod _ 20
  rw [entryCol, BitVec.toNat_and]
  refine hand.trans ?_
  rw [toNat_entryOf hc]
  omega

theorem entryTaken_entryOf (hc : c < 1048576) :
    entryTaken (entryOf d0 c key) = decide (d0 < topDigit key) := by
  have hlt : (key.toNat >>> 10) % 2048 < 2048 := Nat.mod_lt _ (by omega)
  have hshift : (entryOf d0 c key >>> 31).toNat = if d0 < topDigit key then 1 else 0 := by
    rw [BitVec.toNat_ushiftRight, toNat_entryOf hc, Nat.shiftRight_eq_div_pow]
    split_ifs <;> omega
  rw [entryTaken]
  congr 1
  rw [ne_eq, ← BitVec.toNat_inj, hshift, eq_iff_iff]
  split_ifs with h <;> simp [h]

theorem entryDigit_entryOf (hc : c < 1048576) (h : ¬ d0 < topDigit key) :
    entryDigit (entryOf d0 c key) = (key.toNat >>> 10) % 2048 := by
  have hlt : (key.toNat >>> 10) % 2048 < 2048 := Nat.mod_lt _ (by omega)
  have hand (m : ℕ) : m &&& 0x7FF = m % 2048 := Nat.and_two_pow_sub_one_eq_mod _ 11
  rw [entryDigit, BitVec.toNat_and, BitVec.toNat_ushiftRight, toNat_entryOf hc, if_neg h]
  refine (hand _).trans ?_
  rw [Nat.shiftRight_eq_div_pow]
  omega

theorem lastDigit_entryOf {row : Row} (hc : c < 1048576) :
    lastDigit row (entryOf d0 c key) = row.keyNat c % 1024 := by
  rw [lastDigit, entryCol_entryOf hc, BitVec.toNat_and]
  exact Nat.and_two_pow_sub_one_eq_mod _ 10

end Entry

/-! ### The histograms of the two reads -/

section Histograms

variable {row : Row} {n : ℕ}

/-- The first read counts the top digits. -/
theorem gatherFirst_countsDigits {W U : ℕ} (hW : 0 < W) (hU : 0 < U) (o : GatherOrders)
    (sm : Smem) :
    CountsDigits row.keyNat n 21 11 0 (gatherFirst W U o row n sm).hist := by
  have hmatches : gatherArgs.Matches 21 11 0 :=
    ⟨by decide, rfl, rfl, by decide⟩
  exact histogram_countsDigits hmatches (by omega) (Nat.mul_pos (by omega) hW) hU
    (fun c _ => rfl) fun d hd => if_pos hd

/-- All atomics of the second read. -/
def secondOps (row : Row) (d0 : ℕ) (done0 : Bool) (n : ℕ) : List SmemOp :=
  (List.range n).flatMap fun c => candidateOps d0 done0 (some (row.key c))

variable {d0 : ℕ} {sm : Smem} {ops : List SmemOp}

theorem countP_candidateOps (d : ℕ) (key : BitVec 32) :
    (candidateOps d0 false (some key)).countP (· = .atomicAdd d) =
      if topDigit key = d0 ∧ (midDigit key).toNat = d then 1 else 0 := by
  rw [candidateOps]
  by_cases h : topDigit key = d0
  · have hflag : (if key &&& 0x3FF#32 ≠ 0#32 then [setFlag (midDigit key)] else []).countP
        (· = .atomicAdd d) = 0 := by
      split_ifs <;> simp
    rw [if_pos ⟨h, rfl⟩, List.countP_cons, hflag]
    simp [h]
  · simp [h]

/-- The second read counts the next digits of the candidates. -/
theorem secondOps_countsDigits (hops : ops.Perm (secondOps row d0 false n))
    (hzero : ∀ d < 2048, sm.hist d = 0) :
    CountsDigits row.keyNat n 10 11 d0 (ops.foldl SmemOp.exec sm).hist := by
  intro d hd
  have hcount : (secondOps row d0 false n).countP (· = .atomicAdd d) = (List.range n).countP
      fun c => decide (topDigit (row.key c) = d0 ∧ (midDigit (row.key c)).toNat = d) :=
    countP_flatMap_eq fun c _ => by rw [countP_candidateOps]; simp
  rw [SmemOp.foldl_hist, hzero d hd, Nat.zero_add, hops.countP_eq, hcount, digitCount,
    countP_eq_count List.nodup_range (fun c hc => List.mem_range.mpr hc)
      fun c hc _ => List.mem_range.mp hc]
  refine count_congr fun c _ => ?_
  rw [decide_eq_true_iff, topDigit_eq, toNat_midDigit]
  rfl

/-- And flags those with a low bit. -/
theorem secondOps_flagsLow (hops : ops.Perm (secondOps row d0 false n)) :
    FlagsLow row.keyNat n d0 (ops.foldl SmemOp.exec sm).lowor := by
  intro d hd hflag c hc hpc
  rw [SmemOp.foldl_lowor, Bool.or_eq_false_iff, List.any_eq_false] at hflag
  by_contra hne
  rw [Nat.shiftRight_eq_div_pow] at hpc
  have htop : topDigit (row.key c) = d0 := by
    rw [topDigit_eq, Nat.shiftRight_eq_div_pow]
    change row.keyNat c / 2 ^ 21 = d0
    omega
  have hmid : (midDigit (row.key c)).toNat = d := by
    rw [toNat_midDigit, Nat.shiftRight_eq_div_pow]
    change row.keyNat c / 2 ^ 10 % 2048 = d
    omega
  have hlow : row.key c &&& 0x3FF#32 ≠ 0#32 := by
    intro hand
    have h0 := congrArg BitVec.toNat hand
    rw [BitVec.toNat_and] at h0
    exact hne ((Nat.and_two_pow_sub_one_eq_mod (row.keyNat c) 10).symm.trans h0)
  refine hflag.2 (setFlag (midDigit (row.key c))) (hops.mem_iff.mpr ?_) ?_
  · refine List.mem_flatMap.mpr ⟨c, List.mem_range.mpr hc, ?_⟩
    simp [candidateOps, htop, hlow]
  · rw [SmemOp.sets_setFlag, hmid, decide_eq_true_iff]

/-- The entries that the threads look at. -/
def entryVisits (T m : ℕ) : List ℕ := (List.range T).flatMap (strided T m)

theorem mem_strided {T m t g : ℕ} (hT : 0 < T) (ht : t < T) :
    g ∈ strided T m t ↔ g < m ∧ g % T = t := by
  rw [strided, List.mem_map]
  constructor
  · rintro ⟨i, hi, rfl⟩
    have hi := (Nat.lt_div_iff_mul_lt hT).mp (List.mem_range.mp hi)
    rw [Nat.mul_comm] at hi
    exact ⟨by omega, by rw [Nat.mul_add_mod, Nat.mod_eq_of_lt ht]⟩
  · rintro ⟨hg, rfl⟩
    have hdm := Nat.div_add_mod g T
    refine ⟨g / T, List.mem_range.mpr ((Nat.lt_div_iff_mul_lt hT).mpr ?_), hdm⟩
    rw [Nat.mul_comm]
    omega

theorem entryVisits_nodup {T : ℕ} (hT : 0 < T) (m : ℕ) : (entryVisits T m).Nodup := by
  refine nodup_flatMap_of_tag (· % T) List.nodup_range (fun t _ => ?_) fun t ht g hg =>
    ((mem_strided hT (List.mem_range.mp ht)).mp hg).2
  refine List.nodup_range.map_on fun i _ j _ h => ?_
  exact Nat.eq_of_mul_eq_mul_left hT (Nat.add_right_cancel h)

theorem mem_entryVisits {T m g : ℕ} (hT : 0 < T) : g ∈ entryVisits T m ↔ g < m := by
  rw [entryVisits, List.mem_flatMap]
  constructor
  · rintro ⟨t, ht, hg⟩
    exact ((mem_strided hT (List.mem_range.mp ht)).mp hg).1
  · intro hg
    have hlt := Nat.mod_lt g hT
    exact ⟨g % T, List.mem_range.mpr hlt, (mem_strided hT hlt).mpr ⟨hg, rfl⟩⟩

/-- The entries of the columns that have one, in column order. -/
structure IsEntries (row : Row) (d0 n entries : ℕ) (entry : ℕ → BitVec 32) : Prop where
  small : n ≤ 1048576
  count : entries = Nat.count (Selected row d0) n
  entry : ∀ c < n, Selected row d0 c →
    entry (Nat.count (Selected row d0) c) = entryOf d0 c (row.key c)

variable {entries : ℕ} {entry : ℕ → BitVec 32}

/-- What is counted over the entries is counted over their columns. -/
theorem IsEntries.count_eq (h : IsEntries row d0 n entries entry) (P : BitVec 32 → Prop)
    [DecidablePred P] (Q : ℕ → Prop) [DecidablePred Q] {m : ℕ} (hm : m ≤ n)
    (hPQ : ∀ c < n, Selected row d0 c ∧ P (entryOf d0 c (row.key c)) ↔ Q c) :
    Nat.count (fun g => P (entry g)) (Nat.count (Selected row d0) m) = Nat.count Q m := by
  rw [count_numbers]
  refine count_congr fun c hc => ?_
  have hcn : c < n := hc.trans_le hm
  rw [← hPQ c hcn]
  exact and_congr_right fun hsel => by rw [h.entry c hcn hsel]

/-- The third histogram counts the last digits of the candidates in the bucket. -/
theorem thirdOps_countsDigits (h : IsEntries row d0 n entries entry) {T d1 : ℕ} (hT : 0 < T)
    (hd1 : d1 < 2048) (hzero : ∀ d < 1024, sm.hist d = 0)
    (hops : ops.Perm ((List.range T).flatMap fun t => (strided T entries t).flatMap fun g =>
      thirdOps row d1 (entry g))) :
    CountsDigits row.keyNat n 0 10 (d0 * 2 ^ 11 + d1) (ops.foldl SmemOp.exec sm).hist := by
  intro d hd
  let P (en : BitVec 32) : Prop :=
    entryTaken en = false ∧ entryDigit en = d1 ∧ lastDigit row en = d
  have hone (en : BitVec 32) : (thirdOps row d1 en).countP (· = .atomicAdd d) =
      if decide (P en) = true then 1 else 0 := by
    rw [thirdOps]
    by_cases hm : entryTaken en = false ∧ entryDigit en = d1
    · simp [P, hm]
    · simp only [if_neg hm, List.countP_nil, P]
      rw [if_neg fun hp => hm ⟨(of_decide_eq_true hp).1, (of_decide_eq_true hp).2.1⟩]
  have hcount : ((List.range T).flatMap fun t => (strided T entries t).flatMap fun g =>
      thirdOps row d1 (entry g)).countP (· = .atomicAdd d) =
        (entryVisits T entries).countP fun g => decide (P (entry g)) := by
    rw [entryVisits, ← List.flatMap_assoc]
    exact countP_flatMap_eq fun g _ => hone (entry g)
  rw [SmemOp.foldl_hist, hzero d hd, Nat.zero_add, hops.countP_eq, hcount,
    countP_eq_count (entryVisits_nodup hT entries) (fun g hg => (mem_entryVisits hT).mpr hg)
      fun g hg _ => (mem_entryVisits hT).mp hg, h.count, digitCount]
  have hdec (g : ℕ) : (decide (P (entry g)) = true) = P (entry g) := decide_eq_true_eq
  simp only [hdec]
  refine h.count_eq P _ le_rfl fun c hc => ?_
  have hsmall : c < 1048576 := hc.trans_le h.small
  have htop := topDigit_eq (row.key c)
  change topDigit (row.key c) = row.keyNat c >>> 21 at htop
  simp only [Selected, P, entryTaken_entryOf hsmall, lastDigit_entryOf hsmall, Nat.zero_add,
    Nat.shiftRight_zero]
  rw [Nat.shiftRight_eq_div_pow] at htop ⊢
  by_cases hlt : d0 < topDigit (row.key c)
  · refine iff_of_false (fun hf => ?_) (fun hf => by omega)
    have := hf.2.1
    simp [hlt] at this
  · have hdig : entryDigit (entryOf d0 c (row.key c)) = ((row.key c).toNat >>> 10) % 2048 :=
      entryDigit_entryOf hsmall hlt
    rw [hdig, Nat.shiftRight_eq_div_pow]
    change _ ∧ _ ∧ row.keyNat c / 2 ^ 10 % 2048 = d1 ∧ _ ↔ _
    simp only [hlt, decide_false, true_and]
    omega

end Histograms

/-! ### The threshold -/

section Threshold

variable {row : Row} {n k d0 : ℕ} {l : Level}

/-- The classes of the entries are those of a threshold. -/
structure Level.Ok (row : Row) (n k d0 s P : ℕ) (l : Level) : Prop where
  threshold : Threshold row.keyNat n k (fun x => x >>> s) P l.kRem
  above : ∀ c < n, Selected row d0 c →
    (classOf row l (entryOf d0 c (row.key c)) = 2 ↔ P < row.keyNat c >>> s)
  on : ∀ c < n, Selected row d0 c →
    (classOf row l (entryOf d0 c (row.key c)) = 1 ↔ row.keyNat c >>> s = P)
  selected : ∀ c < n, P ≤ row.keyNat c >>> s → Selected row d0 c

/-- The class of a column, by the digits of its key. -/
theorem classOf_entryOf {c : ℕ} (hc : c < 1048576) (l : Level) :
    classOf row l (entryOf d0 c (row.key c)) =
      if d0 < row.keyNat c >>> 21 then 2
      else if l.level = 0 then 1
      else if l.d1 < (row.keyNat c >>> 10) % 2048 then 2
      else if (row.keyNat c >>> 10) % 2048 < l.d1 then 0
      else if l.level = 1 then 1
      else if l.d2 < row.keyNat c % 1024 then 2
      else if row.keyNat c % 1024 = l.d2 then 1 else 0 := by
  have htop : topDigit (row.key c) = row.keyNat c >>> 21 := topDigit_eq _
  rw [classOf, entryTaken_entryOf hc, htop, lastDigit_entryOf hc]
  by_cases hlt : d0 < row.keyNat c >>> 21
  · simp [hlt]
  · have hdig : entryDigit (entryOf d0 c (row.key c)) = (row.keyNat c >>> 10) % 2048 :=
      entryDigit_entryOf hc (htop ▸ hlt)
    rw [hdig]
    simp only [hlt, decide_false, Bool.false_eq_true, false_or, if_false]
    split_ifs <;> omega

theorem selected_iff (c : ℕ) : Selected row d0 c ↔ d0 ≤ row.keyNat c >>> 21 := by
  have htop : topDigit (row.key c) = row.keyNat c >>> 21 := topDigit_eq _
  rw [Selected, htop]

/-- The candidates are the ties. -/
theorem Level.ok_zero (hn : n ≤ 1048576) (hl : l.level = 0)
    (hth : Threshold row.keyNat n k (fun x => x >>> 21) d0 l.kRem) : l.Ok row n k d0 21 d0 := by
  refine ⟨hth, fun c hc _ => ?_, fun c hc hs => ?_, fun c _ hle => (selected_iff c).mpr hle⟩
  · rw [classOf_entryOf (hc.trans_le hn), hl]
    simp
  · have := (selected_iff c).mp hs
    rw [classOf_entryOf (hc.trans_le hn), hl]
    simp
    omega

/-- Those with `d1` are. -/
theorem Level.ok_one (hn : n ≤ 1048576) (hl : l.level = 1) (hd : l.d1 < 2 ^ 11)
    (hth : Threshold row.keyNat n k (fun x => x >>> 10) (d0 * 2 ^ 11 + l.d1) l.kRem) :
    l.Ok row n k d0 10 (d0 * 2 ^ 11 + l.d1) := by
  refine ⟨hth, fun c hc hs => ?_, fun c hc hs => ?_, fun c _ hle => ?_⟩
  · have := (selected_iff c).mp hs
    rw [classOf_entryOf (hc.trans_le hn), hl]
    simp only [Nat.shiftRight_eq_div_pow, if_true, Nat.one_ne_zero, if_false] at this ⊢
    split_ifs <;> first | omega | exact iff_of_false id (by omega)
  · have := (selected_iff c).mp hs
    rw [classOf_entryOf (hc.trans_le hn), hl]
    simp only [Nat.shiftRight_eq_div_pow, if_true, Nat.one_ne_zero, if_false] at this ⊢
    split_ifs <;> first | omega | exact iff_of_false id (by omega)
  · rw [selected_iff]
    simp only [Nat.shiftRight_eq_div_pow] at hle ⊢
    omega

/-- Those with `d1` and `d2` are. -/
theorem Level.ok_two (hn : n ≤ 1048576) (hl : l.level = 2) (hd : l.d1 < 2 ^ 11)
    (hd' : l.d2 < 2 ^ 10)
    (hth : Threshold row.keyNat n k (fun x => x >>> 0) ((d0 * 2 ^ 11 + l.d1) * 2 ^ 10 + l.d2)
      l.kRem) :
    l.Ok row n k d0 0 ((d0 * 2 ^ 11 + l.d1) * 2 ^ 10 + l.d2) := by
  refine ⟨hth, fun c hc hs => ?_, fun c hc hs => ?_, fun c _ hle => ?_⟩
  · have := (selected_iff c).mp hs
    rw [classOf_entryOf (hc.trans_le hn), hl]
    simp only [Nat.shiftRight_eq_div_pow, OfNat.ofNat_ne_zero, OfNat.ofNat_ne_one,
      if_false] at this ⊢
    split_ifs <;> first | omega | exact iff_of_false id (by omega)
  · have := (selected_iff c).mp hs
    rw [classOf_entryOf (hc.trans_le hn), hl]
    simp only [Nat.shiftRight_eq_div_pow, OfNat.ofNat_ne_zero, OfNat.ofNat_ne_one,
      if_false] at this ⊢
    split_ifs <;> first | omega | exact iff_of_false id (by omega)
  · rw [selected_iff]
    simp only [Nat.shiftRight_eq_div_pow] at hle ⊢
    omega

/-- **The entries give a threshold**, at whichever level the search ends. -/
theorem gatherLevel_ok {W entries : ℕ} {entry : ℕ → BitVec 32} {first : Decision} {sm : Smem}
    (hW : W ∣ 32) (o : GatherOrders) (href : Refined row.keyNat n k 21 11 0 none first)
    (h : IsEntries row first.digit n entries entry)
    (hcounts : first.done = false → CountsDigits row.keyNat n 10 11 first.digit sm.hist)
    (hflags : first.done = false → FlagsLow row.keyNat n first.digit sm.lowor) :
    ∃ s P, (gatherLevel W o row first sm entries entry).Ok row n k first.digit s P := by
  have hT : 0 < 32 * W := Nat.mul_pos (by omega) (Nat.pos_of_dvd_of_pos hW (by omega))
  have hb := href.bucket
  rw [Nat.zero_mul, Nat.zero_add] at hb
  rw [gatherLevel]
  cases hd : first.done with
  | true =>
    have hth := href.threshold hd fun hagree => absurd hagree Bool.false_ne_true
    rw [Nat.zero_mul, Nat.zero_add] at hth
    exact ⟨21, first.digit, Level.ok_zero h.small rfl hth⟩
  | false =>
    rw [if_neg Bool.false_ne_true]
    have href2 := selectDigit_refined hW (.inr rfl) hb (hcounts hd) (some sm.lowor) first
    change Refined row.keyNat n k 10 11 first.digit (some sm.lowor)
      (selectDigit W sm.hist kBins first.kRem (some sm.lowor) first) at href2
    generalize selectDigit W sm.hist kBins first.kRem (some sm.lowor) first = second at href2 ⊢
    dsimp only
    cases hd2 : second.done with
    | true =>
      have hth := href2.threshold hd2 (eq_of_agreesBelow (hflags hd) href2.lt)
      exact ⟨10, _, Level.ok_one h.small rfl href2.lt hth⟩
    | false =>
      rw [if_neg Bool.false_ne_true]
      have hzero : ∀ d < 1024, ({ sm with hist := clear 0 1024 sm.hist } : Smem).hist d = 0 :=
        fun d hlt => if_pos hlt
      have hthird := thirdOps_countsDigits h hT href2.lt hzero (o.third.perm _)
      have href3 := selectDigit_refined hW (.inl rfl) href2.bucket hthird none second
      change Refined row.keyNat n k 0 10 (first.digit * 2 ^ 11 + second.digit) none
        (selectDigit W _ 1024 second.kRem none second) at href3
      generalize selectDigit W _ 1024 second.kRem none second = third at href3 ⊢
      exact ⟨0, _, Level.ok_two h.small rfl href2.lt href3.lt href3.threshold_zero⟩

/-- The stores that follow leave the selection. -/
theorem emitWrites_selection {W cap s P entries : ℕ} {entry : ℕ → BitVec 32} (hW : W ≤ 32)
    (hcap : cap < 65536) (hdvd : 32 * W ∣ cap) (hl : l.Ok row n k d0 s P)
    (h : IsEntries row d0 n entries entry) (hle : entries ≤ cap) (il : Interleaving (ℕ × ℤ))
    (colBase : ℤ) (orow : ℕ → ℤ) :
    stores (il.run (emitWrites W cap
      (fun g => if g < entries then classOf row l (entry g) else 0)
      (fun g => if g < entries then entryCol (entry g) else 0) l.kRem colBase)) orow =
        selection row.keyNat n k colBase orow := by
  refine stores_eq_selection hl.threshold (fun x => ?_) orow
  rw [il.mem_run, mem_emitWrites _ _ _ _ hW hcap hdvd]
  have hsmall {c : ℕ} (hc : c < n) : c < 1048576 := hc.trans_le h.small
  -- an entry's class, its column and the counts before it, by the column
  have hlt {c : ℕ} (hc : c < n) (hs : Selected row d0 c) :
      Nat.count (Selected row d0) c < entries :=
    h.count ▸ Nat.count_strict_mono hs hc
  have hcount (i : ℕ) (hi : 0 < i) {Q : ℕ → Prop} [DecidablePred Q]
      (hQ : ∀ c < n, Selected row d0 c ∧ classOf row l (entryOf d0 c (row.key c)) = i ↔ Q c)
      {c : ℕ} (hc : c < n) (hs : Selected row d0 c) :
      Nat.count (fun g => (if g < entries then classOf row l (entry g) else 0) = i)
        (Nat.count (Selected row d0) c) = Nat.count Q c := by
    rw [← h.count_eq (fun en => classOf row l en = i) Q hc.le hQ]
    refine count_congr fun g hg => ?_
    rw [if_pos (hg.trans (hlt hc hs))]
  have habove (c : ℕ) (hc : c < n) : Selected row d0 c ∧
      classOf row l (entryOf d0 c (row.key c)) = 2 ↔ P < row.keyNat c >>> s :=
    ⟨fun hs => (hl.above c hc hs.1).mp hs.2, fun hp =>
      ⟨hl.selected c hc hp.le, (hl.above c hc (hl.selected c hc hp.le)).mpr hp⟩⟩
  have hon (c : ℕ) (hc : c < n) : Selected row d0 c ∧
      classOf row l (entryOf d0 c (row.key c)) = 1 ↔ row.keyNat c >>> s = P :=
    ⟨fun hs => (hl.on c hc hs.1).mp hs.2, fun hp =>
      ⟨hl.selected c hc hp.ge, (hl.on c hc (hl.selected c hc hp.ge)).mpr hp⟩⟩
  have hcol {c : ℕ} (hc : c < n) (hs : Selected row d0 c) :
      (if Nat.count (Selected row d0) c < entries then
        entryCol (entry (Nat.count (Selected row d0) c)) else 0) = c := by
    rw [if_pos (hlt hc hs), h.entry c hc hs, entryCol_entryOf (hsmall hc)]
  have hcls {c : ℕ} (hc : c < n) (hs : Selected row d0 c) :
      (if Nat.count (Selected row d0) c < entries then
        classOf row l (entry (Nat.count (Selected row d0) c)) else 0) =
          classOf row l (entryOf d0 c (row.key c)) := by
    rw [if_pos (hlt hc hs), h.entry c hc hs]
  constructor
  · rintro ⟨g, -, htake, rfl⟩
    have hg : g < entries := by
      by_contra hge
      simp [hge] at htake
    obtain ⟨c, hc, hs, rfl⟩ := exists_count_eq (h.count ▸ hg)
    rw [hcls hc hs, hcount 1 (by omega) hon hc hs, hl.above c hc hs, hl.on c hc hs] at htake
    refine ⟨c, hc, htake, ?_⟩
    rw [hcount 1 (by omega) hon hc hs, hcount 2 (by omega) habove hc hs, hcol hc hs]
  · rintro ⟨c, hc, htake, rfl⟩
    have hs : Selected row d0 c :=
      hl.selected c hc (htake.elim le_of_lt fun hp => hp.1.ge)
    refine ⟨Nat.count (Selected row d0) c, (hlt hc hs).trans_le hle, ?_, ?_⟩
    · rwa [hcls hc hs, hcount 1 (by omega) hon hc hs, hl.above c hc hs, hl.on c hc hs]
    · rw [hcount 1 (by omega) hon hc hs, hcount 2 (by omega) habove hc hs, hcol hc hs]

end Threshold

/-! ### The whole row -/

section Main

variable {W U cap : ℕ} {row : Row} {n k : ℕ}

/-- The regions hold the entries of the row, if none is full. -/
theorem regions_isEntries {d0 : ℕ} {done : Bool} {warp : ℕ → Gathered} (hW : 0 < W) (hW' : W ≤ 32)
    (hn : n ≤ 1048576) (hwarp : ∀ w < W, (warp w).Collected row d0 done W (cap / W) n w)
    (il : Interleaving (ℕ × BitVec 32)) (e : ℕ → BitVec 32) :
    IsEntries row d0 n (entryCount W warp)
        (entryAt W (cap / W) (regionOff W warp) (stores (il.run ((List.range W).flatMap fun w =>
          (warp w).entries.map fun x => (w * (cap / W) + x.1, x.2))) e)) ∧
      entryCount W warp ≤ cap := by
  let R (w : ℕ) : List (BitVec 32) := segEntries row d0 (warpStart W n w) (warpEnd W n w)
  have hfit : ∀ w < W, (R w).length ≤ cap / W := fun w hw => (hwarp w hw).fits
  have hall : (List.range W).flatMap R =
      (List.range n).flatMap fun c => (rowEntry row d0 c).toList :=
    flatMap_segments _ hW
  have hentries : ((List.range W).flatMap fun w =>
      (warp w).entries.map fun x => (w * (cap / W) + x.1, x.2)) =
        (List.range W).flatMap fun w =>
          (numbered 0 (R w)).map fun x => (w * (cap / W) + x.1, x.2) :=
    List.flatMap_congr fun w hw => by rw [(hwarp w (List.mem_range.mp hw)).entries]
  have hoff (r : ℕ) (hr : r ≤ W) :
      ∑ i ∈ Finset.range r, (if i < W then (warp i).off else 0) =
        ∑ i ∈ Finset.range r, (R i).length := by
    refine Finset.sum_congr rfl fun i hi => ?_
    have hi := (Finset.mem_range.mp hi).trans_le hr
    rw [if_pos hi, (hwarp i hi).off]
  have hregion : ∀ r < W, regionOff W warp r = ∑ i ∈ Finset.range r, (R i).length := by
    intro r hr
    rw [regionOff, warpScan_sub _ (by omega)]
    exact hoff r hr.le
  have hcount : entryCount W warp = ∑ i ∈ Finset.range W, (R i).length := by
    rw [entryCount, warpScan_eq_sum _ (by omega), Nat.sub_add_cancel hW]
    exact hoff W le_rfl
  have htotal : ∑ i ∈ Finset.range W, (R i).length = Nat.count (Selected row d0) n := by
    rw [← length_flatMap_range, hall, length_flatMap_range, sum_length_rowEntry]
  refine ⟨⟨hn, hcount.trans htotal, fun c hc hs => ?_⟩, ?_⟩
  · rw [hentries]
    refine entryAt_eq hW hfit il e hregion ?_
    rw [hall]
    exact getElem?_rowEntries hc hs
  · rw [hcount]
    refine (Finset.sum_le_card_nsmul _ _ (cap / W) fun w hw =>
      hfit w (Finset.mem_range.mp hw)).trans ?_
    rw [Finset.card_range, Nat.nsmul_eq_mul]
    exact Nat.mul_div_le cap W

/-- The end of the row, where no region is full. -/
theorem gatherFinish_selection {first : Decision} {warp : ℕ → Gathered} {sm : Smem} (hW : W ∣ 32)
    (hdvd : 32 * W ∣ cap) (hcap : cap < 65536) (hn : n ≤ 1048576)
    (href : Refined row.keyNat n k 21 11 0 none first)
    (hwarp : ∀ w < W, (warp w).Collected row first.digit first.done W (cap / W) n w)
    (hcounts : first.done = false → CountsDigits row.keyNat n 10 11 first.digit sm.hist)
    (hflags : first.done = false → FlagsLow row.keyNat n first.digit sm.lowor)
    (o : GatherOrders) (colBase : ℤ) (e : ℕ → BitVec 32) (orow : ℕ → ℤ) :
    gatherFinish W cap o row colBase first warp sm e orow =
      selection row.keyNat n k colBase orow := by
  have hWpos : 0 < W := Nat.pos_of_dvd_of_pos hW (by omega)
  have hWle : W ≤ 32 := Nat.le_of_dvd (by omega) hW
  obtain ⟨hIs, hle⟩ := regions_isEntries hWpos hWle hn hwarp o.region e
  obtain ⟨s, P, hl⟩ := gatherLevel_ok hW o href hIs hcounts hflags
  exact emitWrites_selection hWle hcap hdvd hl hIs hle o.out colBase orow

/-- The decision of the first pass is one to go on from. -/
theorem Refined.fromD0 {first : Decision} (h : Refined row.keyNat n k 21 11 0 none first) :
    (⟨first.digit, first.kRem, first.done⟩ : FromD0).Ok row n k := by
  have hb := h.bucket
  rw [Nat.zero_mul, Nat.zero_add] at hb
  refine ⟨h.lt, hb, fun hdone => ?_⟩
  have hth := h.threshold hdone fun hagree => absurd hagree Bool.false_ne_true
  rwa [Nat.zero_mul, Nat.zero_add] at hth

/-- **The row in two reads.** The output is the `k` columns that come first, on every path. -/
theorem topkGather_selection (hW : W ∣ 32) (hU : 0 < U) (hk : 0 < k) (hn : k < n)
    (hdvd : 32 * W ∣ cap) (hcap : cap < 65536) (o : GatherOrders) (colBase : ℤ) (sm : Smem)
    (vals : Decision) (e : ℕ → BitVec 32) (orow : ℕ → ℤ) :
    topkGather W U cap o row n colBase k sm vals e orow =
      selection row.keyNat n k colBase orow := by
  have hWpos : 0 < W := Nat.pos_of_dvd_of_pos hW (by omega)
  have hWle : W ≤ 32 := Nat.le_of_dvd (by omega) hW
  rw [topkGather]
  by_cases hbig : cap < k ∨ 1048576 < n
  · rw [if_pos hbig]
    exact topkOneCta_selection hW hU hk hn (fun f hf => by cases hf) _ _ _ _ _ _
  rw [if_neg hbig]
  -- the first read
  have hcounts : CountsDigits row.keyNat n 21 11 0 (gatherFirst W U o row n sm).hist :=
    gatherFirst_countsDigits hWpos hU o sm
  generalize gatherFirst W U o row n sm = sm1 at hcounts ⊢
  have href := selectDigit_refined hW (.inr rfl) (bucket_start hk hn) hcounts none vals
  change Refined row.keyNat n k 21 11 0 none (selectDigit W sm1.hist kBins k none vals) at href
  dsimp only
  generalize selectDigit W sm1.hist kBins k none vals = first at href ⊢
  have h0 : ∀ f, some (⟨first.digit, first.kRem, first.done⟩ : FromD0) = some f →
      f.Ok row n k := by
    rintro f ⟨⟩
    exact href.fromD0
  by_cases hmany : cap < k - first.kRem + first.cnt
  · rw [if_pos hmany]
    exact topkOneCta_selection hW hU hk hn h0 _ _ _ _ _ _
  rw [if_neg hmany]
  by_cases hfull : ((List.range W).any fun w =>
      (gatherWarp row first.digit first.done W (cap / W) n w).full) = true
  · rw [if_pos hfull]
    exact topkOneCta_selection hW hU hk hn h0 _ _ _ _ _ _
  rw [if_neg hfull]
  -- no region is full: what the warps have collected
  have hwarp : ∀ w < W, (gatherWarp row first.digit first.done W (cap / W) n w).Collected row
      first.digit first.done W (cap / W) n w := by
    intro w hw
    refine gatherWarp_collected ?_
    rw [← Bool.not_eq_true]
    exact fun h => hfull (List.any_eq_true.mpr ⟨w, List.mem_range.mpr hw, h⟩)
  have hops : ((List.range W).flatMap fun w =>
      (gatherWarp row first.digit first.done W (cap / W) n w).ops) =
        secondOps row first.digit first.done n :=
    (List.flatMap_congr fun w hw => (hwarp w (List.mem_range.mp hw)).ops).trans
      (flatMap_segments _ hWpos)
  rw [hops]
  refine gatherFinish_selection hW hdvd hcap (by omega) href hwarp (fun hd => ?_) (fun hd => ?_)
    _ _ _ _
  · rw [hd]
    exact secondOps_countsDigits (o.second.perm _) fun d hlt => if_pos hlt
  · rw [hd]
    exact secondOps_flagsLow (o.second.perm _)

end Main

end DetTopk

end VllmMoet
