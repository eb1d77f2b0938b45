import VllmMoet.Lib.Scatter
import VllmMoet.Lib.WarpReduce

/-!
# The MoE quantise and scatter kernel

One CTA per (token, expert) pair. Each rebuilds the routing table from the expert ids on its own:
the count of every expert (two experts a thread), the aligned rows before its expert, the total,
its expert's count and its rank among the earlier pairs of that expert. From these it knows its
row; it writes the row, and the rank-0 pair of an expert writes the expert's region. The tail
after the last region is spread over all CTAs.

The counts are taken by a pass over the table, whose last group of four may run past the pairs
into stale shared memory, or by a histogram of atomic additions. What a launch stores is the
stores of all its threads in some order. The quantised bytes and scale bytes of a token's row are
parameters.
-/

namespace VllmMoet

namespace MoeScatter

/-- `round_up_i`. -/
def roundUp (v a : ℕ) : ℕ :=
  (v + a - 1) / a * a

/-- The arguments of a launch; `tma_mn` is the number of output rows. -/
structure Launch where
  topk : ℕ
  P : ℕ
  E : ℕ
  align : ℕ
  mSum : ℕ
  K : ℕ
  ids : ℕ → ℤ
  quant : ℕ → ℕ → ℤ
  scale : ℕ → ℕ → ℤ

/-- A place of the outputs: bytes of `out_q` and `out_s`, words of the others. -/
inductive Loc where
  | outQ (i : ℕ)
  | outS (i : ℕ)
  | mIndices (r : ℕ)
  | invPerm (p : ℕ)
deriving DecidableEq

variable (L : Launch)

/-- `sf_k`. -/
def Launch.sfK : ℕ :=
  L.K / 128

/-- `sf_k_pad`. -/
def Launch.sfKPad : ℕ :=
  roundUp L.sfK 4

/-- A valid expert. -/
def Launch.Valid (e : ℤ) : Prop :=
  0 ≤ e ∧ e < L.E

instance (e : ℤ) : Decidable (L.Valid e) :=
  inferInstanceAs (Decidable (0 ≤ e ∧ e < L.E))

/-! ### The counts -/

/-- `s_ids`: the ids, and past the pairs whatever the shared memory held. -/
def smemIds (stale : ℕ → ℤ) (i : ℕ) : ℤ :=
  if i < L.P then L.ids i else stale i

/-- The direct count of an expert: four ids at a time, those past the pairs masked. -/
def directCount (stale : ℕ → ℤ) (e : ℕ) : ℕ :=
  ∑ i ∈ Finset.range ((L.P + 3) >>> 2),
    let lim := L.P - 4 * i
    (decide (smemIds L stale (4 * i) = e)).toNat +
      (decide (lim > 1) && decide (smemIds L stale (4 * i + 1) = e)).toNat +
      (decide (lim > 2) && decide (smemIds L stale (4 * i + 2) = e)).toNat +
      (decide (lim > 3) && decide (smemIds L stale (4 * i + 3) = e)).toNat

/-- One atomic addition to the histogram. -/
def histAdd (hist : ℕ → ℕ) (i : ℕ) : ℕ → ℕ :=
  if L.Valid (L.ids i) then
    Function.update hist (L.ids i).toNat (hist (L.ids i).toNat + 1)
  else
    hist

/-- The histogram of the ids, its additions made in some order. -/
def histCount (o : WriteOrder) (e : ℕ) : ℕ :=
  if e < L.E then (o.order L.P).foldl (histAdd L) (fun _ => 0) e else 0

/-- How a CTA counts: directly, over stale shared memory, or by a histogram. -/
inductive Counting where
  | direct (stale : ℕ → ℤ)
  | hist (o : WriteOrder)

/-- `cnt`, of the expert `e`. -/
def Counting.cnt : Counting → ℕ → ℕ
  | direct stale => directCount L stale
  | hist o => histCount L o

/-! ### The block reduction -/

/-- The two items of a thread, `tid` and `tid + 512`. -/
def perThread (f : ℕ → ℕ) (tid : ℕ) : ℕ :=
  f tid + f (tid + 512)

/-- The sum over a block, as a lane sees it: over the lanes of each warp, the first lane's sums
through shared memory, over the sixteen warps. -/
def blockSum (v : ℕ → ℕ) (lane : ℕ) : ℕ :=
  xorReduce 5 (fun l => if l < 16 then xorReduce 5 (fun i => v (32 * l + i)) 0 else 0) lane

variable (c : Counting) (p lane : ℕ)

/-- The aligned rows of an expert. -/
def rowsOf (e : ℕ) : ℕ :=
  if e < L.E then roundUp (c.cnt L e) L.align else 0

/-- `before`: the rows before the expert of pair `p`. -/
def before : ℕ :=
  blockSum (perThread fun e => if (e : ℤ) < L.ids p then rowsOf L c e else 0) lane

/-- `total`: the rows of all experts. -/
def total : ℕ :=
  blockSum (perThread (rowsOf L c)) lane

/-- `c_mine`: the count of the expert of pair `p`. -/
def cMine : ℕ :=
  blockSum (perThread fun e => if (e : ℤ) = L.ids p then c.cnt L e else 0) lane

/-- `rank`: the earlier pairs of the expert of pair `p`. -/
def rank : ℕ :=
  blockSum (perThread fun i => if i < p ∧ i < L.P ∧ L.ids i = L.ids p then 1 else 0) lane

/-! ### The stores -/

/-- The values of a loop variable that starts at `start`, is raised by `step` and stays below
`stop`. -/
def strided (start step stop : ℕ) : List ℕ :=
  (List.range ((stop - start + step - 1) / step)).map fun k => start + k * step

variable (tid : ℕ)

/-- The tail after the last region. -/
def tailStores : List (Loc × ℤ) :=
  (strided (total L c (tid % 32) + p * 512 + tid) (L.P * 512) L.mSum).map fun r =>
    (.mIndices r, -1)

/-- A row of the expert's region: its id, or `-1` and zero scales on padding. -/
def regionRow (start count : ℕ) (e : ℤ) (i : ℕ) : List (Loc × ℤ) :=
  if i < count then
    [(.mIndices (start + i), e)]
  else
    (.mIndices (start + i), -1) ::
      (List.range (L.sfKPad / 4)).flatMap fun pk => (List.range 4).map fun b =>
        (.outS ((start + i + pk * L.mSum) * 4 + b), 0)

/-- The rows of the region a thread of the rank-0 pair writes. -/
def regionStores : List (Loc × ℤ) :=
  (strided tid 512 (roundUp (cMine L c p (tid % 32)) L.align)).flatMap
    (regionRow L (before L c p (tid % 32)) (cMine L c p (tid % 32)) (L.ids p))

/-- The scale byte and the quantised bytes of a thread, in the row `dest`. -/
def rowStores (dest : ℕ) : List (Loc × ℤ) :=
  let lane := tid % 32
  let g := tid / 32 * 4 + lane / 8
  let gLane := lane % 8
  (if g < L.sfKPad ∧ gLane = 0 then
    [(.outS ((dest + g / 4 * L.mSum) * 4 + g % 4),
      if g < L.sfK then L.scale (p / L.topk) g else 0)]
  else []) ++
  (if g < L.sfK then
    (List.range 16).map fun i =>
      (.outQ (dest * L.K + g * 128 + gLane * 16 + i),
        L.quant (p / L.topk) (g * 128 + gLane * 16 + i))
  else [])

/-- What thread `tid` of CTA `p` stores. -/
def threadStores : List (Loc × ℤ) :=
  let dest := before L c p (tid % 32) + rank L p (tid % 32)
  tailStores L c p tid ++
  if L.Valid (L.ids p) then
    (if tid = 0 then [(.invPerm p, (dest : ℤ))] else []) ++
    (if rank L p (tid % 32) = 0 then regionStores L c p tid else []) ++
    rowStores L p tid dest
  else []

/-- What a launch stores, CTA by CTA. -/
def launchStores (count : ℕ → Counting) : List (Loc × ℤ) :=
  (List.range L.P).flatMap fun p => (List.range 512).flatMap (threadStores L (count p) p)

end MoeScatter

end VllmMoet
