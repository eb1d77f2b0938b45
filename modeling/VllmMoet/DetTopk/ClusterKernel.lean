import VllmMoet.DetTopk.Cluster
import VllmMoet.DetTopk.Kernel

/-!
# Launches

`det_topk_cluster_kernel` and `launch` of `det_topk_sm120.cu`: the cluster size by the number of
rows, and what the launches with and without clusters have in common.

* `launchCluster_isTopk`: a cluster selects as one block does, whatever its size;
* `launch_eq_launch`: a row of the output is a function of its logits only, whatever the size of the
  clusters, the strides, shared memory and the order of the operations.
-/

namespace VllmMoet

namespace DetTopk

/-- The order in which the operations of a cluster take effect, path by path. -/
structure ClusterOrders where
  short : Interleaving (ℕ × ℤ)
  oneCta : Orders
  hist : ℕ → ℕ → Interleaving SmemOp
  run : ClusterArgs.Order

/-- Shared memory and variables as the blocks of a cluster find them. -/
structure ClusterScratch where
  smem : Smem
  vals : Decision
  blocks : ℕ → CtaState

/-- `det_topk_cluster_kernel`: the output of row `r`. -/
def detTopkClusterKernel (C U : ℕ) (o : ClusterOrders) (x : Logits) (b : RowBounds) (k : ℕ)
    (relative : Bool) (small : ℤ) (cap r : ℕ) (s : ClusterScratch) (orow : ℕ → ℤ) : ℕ → ℤ :=
  let n := b.columns r
  let row := x.row r (b.start r)
  let colBase : ℤ := if relative then 0 else b.start r
  -- the first block alone
  if n ≤ k ∨ (n : ℤ) ≤ small then
    if n ≤ k then fillShort 1024 o.short n k colBase orow
    else topkOneCta 32 U o.oneCta row n colBase k (some cap) none s.smem s.vals orow
  else ClusterArgs.clusterTopk ⟨C, U, row, n, k, cap, o.hist⟩ o.run s.blocks colBase orow

/-- What a launch does not take from the row: the size of the clusters that is asked for, the device
(`maxClusters`, and `cap`, by the size of the clusters), the order of the operations and what shared
memory holds. -/
structure Setting where
  U : ℕ
  cluster : ℤ
  small : ℤ
  maxClusters : ℕ → ℕ
  cap : ℕ → ℕ
  rows : ℕ → KernelOrders
  clusters : ℕ → ClusterOrders
  rowScratch : ℕ → Scratch
  clusterScratch : ℕ → ClusterScratch

/-- `launch_cluster`. -/
def launchCluster (C : ℕ) (e : Setting) (x : Logits) (b : RowBounds) (k : ℕ) (relative : Bool)
    (out : ℕ → ℕ → ℤ) (r : ℕ) : ℕ → ℤ :=
  if r < b.numRows then
    detTopkClusterKernel C e.U (e.clusters r) x b k relative e.small (e.cap C) r
      (e.clusterScratch r) (out r)
  else out r

/-- `cluster`: by the number of rows where it is negative. -/
def Setting.clusterSize (e : Setting) (numRows : ℕ) : ℤ :=
  if e.cluster < 0 then
    if numRows ≤ e.maxClusters 16 then 16
    else if numRows ≤ e.maxClusters 8 then 8
    else if numRows ≤ e.maxClusters 4 then 4
    else if numRows ≤ e.maxClusters 2 then 2
    else 1
  else e.cluster

/-- `launch`. -/
def launch (e : Setting) (x : Logits) (b : RowBounds) (k : ℕ) (relative : Bool)
    (out : ℕ → ℕ → ℤ) : ℕ → ℕ → ℤ :=
  if e.clusterSize b.numRows = 16 then launchCluster 16 e x b k relative out
  else if e.clusterSize b.numRows = 8 then launchCluster 8 e x b k relative out
  else if e.clusterSize b.numRows = 4 then launchCluster 4 e x b k relative out
  else if e.clusterSize b.numRows = 2 then launchCluster 2 e x b k relative out
  else launchRows e.U e.rows x b k relative e.rowScratch out

/-- Between two barriers every block of a cluster makes its moves, in the largest clusters. -/
structure Setting.Ok (e : Setting) : Prop where
  unroll : 0 < e.U
  fair : ∀ r, (e.clusters r).run.Fair 16

section Select

variable {C U k : ℕ} {x : Logits} {b : RowBounds} {r : ℕ}

/-- **A cluster stores the first columns of its row**, on every path. -/
theorem detTopkClusterKernel_selection (hC : 0 < C) (hC' : C < 32) (hU : 0 < U) (hk : 0 < k)
    {o : ClusterOrders} (ho : o.run.Fair C) (x : Logits) (b : RowBounds) (relative : Bool)
    (small : ℤ) (cap r : ℕ) (s : ClusterScratch) (orow : ℕ → ℤ) :
    detTopkClusterKernel C U o x b k relative small cap r s orow =
      selection (x.row r (b.start r)).keyNat (b.columns r) k
        (if relative then 0 else b.start r) orow := by
  rw [detTopkClusterKernel]
  split_ifs with hsmall hn
  all_goals first
    | exact fillShort_selection (by omega) hn _ _ _
    | exact topkOneCta_selection dvd_rfl hU hk (by omega) (fun f hf => by cases hf) _ _ _ _ _ _
    | exact ClusterArgs.clusterTopk_selection hC hC' hU hk (by dsimp only; omega) ho _ _ _

/-- A row of a launch, by its logits. -/
theorem storedRow_of_selection (relative : Bool) (orow : ℕ → ℤ) :
    selection (x.row r (b.start r)).keyNat (b.columns r) k
      (if relative then 0 else b.start r) orow =
        storedRow (firstColumns (x.row r (b.start r)).keyNat (b.columns r) k) k
          (if relative then 0 else b.start r) orow := rfl

/-- Every launch leaves the first columns. -/
theorem launch_selection {e : Setting} (he : e.Ok) (hk : 0 < k) (hr : r < b.numRows) (x : Logits)
    (relative : Bool) (out : ℕ → ℕ → ℤ) :
    launch e x b k relative out r = selection (x.row r (b.start r)).keyNat (b.columns r) k
      (if relative then 0 else b.start r) (out r) := by
  have hcluster {C : ℕ} (hC : 0 < C) (hle : C ≤ 16) : launchCluster C e x b k relative out r =
      selection (x.row r (b.start r)).keyNat (b.columns r) k
        (if relative then 0 else b.start r) (out r) := by
    rw [launchCluster, if_pos hr]
    exact detTopkClusterKernel_selection hC (by omega) he.unroll hk (fun p q hq =>
      he.fair r p q (hq.trans_le hle)) _ _ _ _ _ _ _ _
  have hW : (if b.numRows ≤ 256 then 32 else 8) = 8 ∨ (if b.numRows ≤ 256 then 32 else 8) = 32 := by
    split_ifs
    · exact .inr rfl
    · exact .inl rfl
  rw [launch]
  by_cases h16 : e.clusterSize b.numRows = 16
  · rw [if_pos h16, hcluster (by omega) le_rfl]
  rw [if_neg h16]
  by_cases h8 : e.clusterSize b.numRows = 8
  · rw [if_pos h8, hcluster (by omega) (by omega)]
  rw [if_neg h8]
  by_cases h4 : e.clusterSize b.numRows = 4
  · rw [if_pos h4, hcluster (by omega) (by omega)]
  rw [if_neg h4]
  by_cases h2 : e.clusterSize b.numRows = 2
  · rw [if_pos h2, hcluster (by omega) (by omega)]
  rw [if_neg h2, launchRows, if_pos hr]
  exact detTopkKernel_selection hW he.unroll hk _ _ _ _ _ _ _ _

/-- The first columns are a matter of the keys of the row. -/
theorem firstColumns_congr {key key' : ℕ → ℕ} {n : ℕ} (h : ∀ c < n, key c = key' c) :
    firstColumns key n k = firstColumns key' n k := by
  refine List.filter_congr fun c hc => ?_
  have hc := List.mem_range.mp hc
  have hrank : rank key n c = rank key' n c :=
    count_congr fun j hj => by rw [Before, Before, h j hj, h c hc]
  rw [hrank]

end Select

/-- **A cluster selects as one block does**: the logits that rank highest, the lower columns first
among equal ones, stored in ascending order. -/
theorem launchCluster_isTopk {C k : ℕ} (hC : 0 < C) (hC' : C < 32) (hk : 0 < k) {e : Setting}
    (hU : 0 < e.U) {b : RowBounds} {r : ℕ} (hr : r < b.numRows) (ho : (e.clusters r).run.Fair C)
    (x : Logits) (relative : Bool) (out : ℕ → ℕ → ℤ) :
    ∃ l, IsTopk (fun c => x.get r (b.start r + c)) (b.columns r) k l ∧
      launchCluster C e x b k relative out r =
        storedRow l k (if relative then 0 else b.start r) (out r) := by
  refine ⟨_, selection_isTopk hk (x.key_row r (b.start r)), ?_⟩
  rw [launchCluster, if_pos hr, detTopkClusterKernel_selection hC hC' hU hk ho]
  rfl

/-- Blocks and threads one after the other, in clusters of two if nothing else is asked for. -/
def inTurn (cluster : ℤ) : Setting where
  U := 1
  cluster := cluster
  small := 0
  maxClusters := fun C => if C = 2 then 1 else 0
  cap := fun _ => 16
  rows := fun _ => threadOrder
  clusters := fun _ =>
    { short := .inOrder _
      oneCta := ⟨fun _ => .inOrder _, .inOrder _⟩
      hist := fun _ _ => .inOrder _
      run := ⟨fun _ => (List.range 16).flatMap fun r => List.replicate 4 r, .inOrder _,
        .inOrder _⟩ }
  rowScratch := fun _ => zeroScratch
  clusterScratch := fun _ =>
    { smem := zeroScratch.smem
      vals := zeroScratch.vals
      blocks := fun _ =>
        { hist := fun _ _ => 0
          lowor := fun _ _ => 0#32
          coarse := fun _ _ => 0
          skeys := fun _ => 0#32
          csum := fun _ _ => 0
          bsum := fun _ _ => 0
          bor := fun _ => 0#32
          pfx := 0#32
          pmask := 0#32
          kRem := 0
          done := false
          shift := 0
          localGt := 0
          localEq := 0 } }

theorem inTurn_ok (cluster : ℤ) : (inTurn cluster).Ok where
  unroll := Nat.one_pos
  fair _ _ q hq := by
    have hcount : ∀ q < 16, ((List.range 16).flatMap fun r => List.replicate 4 r).count q = 4 := by
      decide
    exact hcount q hq

/-- Two rows of 40000 logits behind each other, rising by a bit from column to column and starting
over every 1000 columns, with a column that is not a number. -/
def longLogits : Logits where
  mem := fun i => if i = 70000 then 0x7FC00000#32 else BitVec.ofNat 32 (0x3F800000 + i % 1000)
  stride0 := 40000
  stride1 := 1
  offset := 0

/-- All but the first 17 columns of the rows. -/
def longBounds : RowBounds := prefillBounds (some fun _ => 17) (fun _ => 40000) 2 40000

/-- Sixteen blocks select 2048 columns of the second row. -/
theorem launchCluster_isTopk_longLogits :
    ∃ l, IsTopk (fun c => longLogits.get 1 (longBounds.start 1 + c)) (longBounds.columns 1) 2048 l ∧
      launchCluster 16 (inTurn 16) longLogits longBounds 2048 true (fun _ _ => 0) 1 =
        storedRow l 2048 (if true then 0 else longBounds.start 1) (fun _ => 0) :=
  launchCluster_isTopk (by decide) (by decide) (by decide) (by decide) (by decide)
    ((inTurn_ok 16).fair 1) longLogits true fun _ _ => 0

/-- **A row of the output is a function of its logits.** -/
theorem launch_eq_launch {k : ℕ} (hk : 0 < k) {e e' : Setting} (he : e.Ok) (he' : e'.Ok)
    {b : RowBounds} {r : ℕ} (hr : r < b.numRows) {x x' : Logits}
    (hx : ∀ c < b.columns r, x.get r (b.start r + c) = x'.get r (b.start r + c)) (relative : Bool)
    (out : ℕ → ℕ → ℤ) :
    launch e x b k relative out r = launch e' x' b k relative out r := by
  have hkey : ∀ c < b.columns r,
      (x.row r (b.start r)).keyNat c = (x'.row r (b.start r)).keyNat c := by
    intro c hc
    rw [Row.keyNat, Row.keyNat, x.key_row, x'.key_row, hx c hc]
  rw [launch_selection he hk hr, launch_selection he' hk hr, storedRow_of_selection,
    storedRow_of_selection, firstColumns_congr hkey]

/-- The same logits elsewhere in memory. -/
def movedLogits : Logits where
  mem := threeLogits.mem
  stride0 := 3
  stride1 := 1
  offset := 3

theorem get_movedLogits (r c : ℕ) : threeLogits.get r c = movedLogits.get r c := by
  rw [Logits.get, Logits.get, movedLogits, threeLogits]

theorem launch_eq_launch_threeLogits :
    launch (inTurn (-1)) threeLogits threeBounds 1 true (fun _ _ => 0) 0 =
      launch (inTurn 1) movedLogits threeBounds 1 true (fun _ _ => 0) 0 :=
  launch_eq_launch (by decide) (inTurn_ok (-1)) (inTurn_ok 1) (by decide)
    (fun _ _ => get_movedLogits _ _) true fun _ _ => 0

end DetTopk

end VllmMoet
