import Mathlib.Algebra.Group.Hom.Defs
import Mathlib.Algebra.Order.Floor.Div
import Mathlib.Data.List.AList
import VllmMoet.Lib.Scatter

/-!
# The expert groups of a decode wave

The `T` tokens of a decode step name `k` experts each. The union of these is split into groups
of `cap` experts, and in a group each expert has a row map: the tokens that name it, packed
from row `0`, with their weights.

* `buildM8Groups`: the host builder, over a dictionary from experts to tokens to weights.
* `buildM8GroupsGraph`: the builder that runs inside a captured graph, made of a sort, running
  sums and scatters over tensors of fixed shape.

Weights are summed without rounding; the casts to single and then to half precision are
parameters that keep zero. Neither builder returns a value where the source raises: on more
tokens than rows (host), on an empty step (graph: the last rank is read), and on a scatter
index out of range (graph).
-/

namespace VllmMoet

namespace Exl3

/-- `topk_ids` and `topk_weights` of a step: `T` tokens with `k` experts each. -/
structure TopkStep (W : Type) where
  T : ℕ
  k : ℕ
  ids : ℕ → ℕ → ℕ
  wts : ℕ → ℕ → W

/-- A group: its experts, their row maps (`-1` for an empty row) and their row weights. -/
structure M8Group (H : Type) where
  experts : List ℕ
  rowMap : List (List ℤ)
  rowWeights : List (List H)
deriving DecidableEq

/-- The token in row `r` of slot `s`. -/
def M8Group.token {H : Type} (g : M8Group H) (s r : ℕ) : Option ℤ :=
  (g.rowMap[s]?).bind fun row => row[r]?

/-- The weight in row `r` of slot `s`. -/
def M8Group.weight {H : Type} (g : M8Group H) (s r : ℕ) : Option H :=
  (g.rowWeights[s]?).bind fun row => row[r]?

/-- Every row is empty, with weight zero. -/
def M8Group.Empty {H : Type} [Zero H] (g : M8Group H) : Prop :=
  (∀ row ∈ g.rowMap, ∀ t ∈ row, t = -1) ∧ ∀ row ∈ g.rowWeights, ∀ w ∈ row, w = 0

/-- Row `r` of slot `s` of the `i`-th group serves token `t` of expert `e`. -/
def Serves {H : Type} (gs : List (M8Group H)) (i s r e t : ℕ) : Prop :=
  ∃ g, gs[i]? = some g ∧ g.experts[s]? = some e ∧ g.token s r = some (t : ℤ)

/-- The groups a tensor of shape `[cap, …]` and its two companions hold at `g`. -/
def groupAt {H : Type} (cap rows : ℕ) (experts : ℕ → ℕ) (rowMap : ℕ → ℕ → ℤ)
    (rowWeights : ℕ → ℕ → H) (g : ℕ) : M8Group H where
  experts := (List.range cap).map fun s => experts (g * cap + s)
  rowMap := (List.range cap).map fun s => (List.range rows).map (rowMap (g * cap + s))
  rowWeights := (List.range cap).map fun s => (List.range rows).map (rowWeights (g * cap + s))

/-! ### The host builder -/

section Host

variable {W : Type} [AddCommMonoid W]

/-- `per`: the tokens of each expert, with their weights. -/
abbrev Per (W : Type) :=
  AList fun _ : ℕ => AList fun _ : ℕ => W

/-- The body of the two loops: the weight of a pair is added to its token's entry. -/
def addPair (x : TopkStep W) (per : Per W) (p : ℕ × ℕ) : Per W :=
  let e := x.ids p.1 p.2
  let tw := (per.lookup e).getD ∅
  per.insert e (tw.insert p.1 ((tw.lookup p.1).getD 0 + x.wts p.1 p.2))

/-- The pairs in the order of the two loops. -/
def pairs (T k : ℕ) : List (ℕ × ℕ) :=
  (List.range T).flatMap fun t => (List.range k).map fun j => (t, j)

/-- The dictionary after the loops. -/
def per (x : TopkStep W) : Per W :=
  (pairs x.T x.k).foldl (addPair x) ∅

/-- `sorted(per)`. -/
def union (x : TopkStep W) : List ℕ :=
  (per x).keys.insertionSort (· ≤ ·)

/-- `sorted(per[e].items())`: the keys are distinct, so the items are in the order of these. -/
def items (x : TopkStep W) (e : ℕ) : List (Sigma fun _ : ℕ => W) :=
  (((per x).lookup e).getD ∅).entries.insertionSort fun a b => a.1 ≤ b.1

/-- `for i, a in enumerate(l): out[i] = f(a, out[i])`. -/
def enumerateInto {α : Type} {β : Type} (f : α → β → β) (l : List α) (out : ℕ → β) :
    ℕ → β :=
  l.zipIdx.foldl (fun out p => Function.update out p.2 (f p.1 (out p.2))) out

variable {F : Type} {H : Type} [Zero F] [Zero H]

/-- One group: a chunk of the union, padded with its first expert. -/
def hostGroup (single : ZeroHom W F) (half : ZeroHom F H) (x : TopkStep W) (cap rows : ℕ)
    (chunk : List ℕ) : M8Group H :=
  let experts := chunk ++ List.replicate (cap - chunk.length) (chunk.headD 0)
  let rowMap : ℕ → ℕ → ℤ :=
    enumerateInto (fun e => enumerateInto (fun i _ => (i.1 : ℤ)) (items x e)) chunk
      fun _ _ => -1
  let rowWeights : ℕ → ℕ → F :=
    enumerateInto (fun e => enumerateInto (fun i _ => single i.2) (items x e)) chunk
      fun _ _ => 0
  { experts
    rowMap := (List.range cap).map fun s => (List.range rows).map (rowMap s)
    rowWeights := (List.range cap).map fun s => (List.range rows).map fun r =>
      half (rowWeights s r) }

/-- `build_m8_groups`. -/
def buildM8Groups (single : ZeroHom W F) (half : ZeroHom F H) (x : TopkStep W) (cap rows : ℕ) :
    Option (List (M8Group H)) :=
  if x.T ≤ rows ∧ 0 < cap then
    some ((List.range ((union x).length ⌈/⌉ cap)).map fun g =>
      hostGroup single half x cap rows (((union x).drop (g * cap)).take cap))
  else
    none

end Host

/-! ### The graph builder -/

/-- The orders in which the scatters of the graph builder make their writes. -/
structure Scatters where
  rank : WriteOrder
  expOfRank : WriteOrder
  wDense : WriteOrder
  pDense : WriteOrder
  rowMap : ℕ → WriteOrder
  rowW : ℕ → WriteOrder

section Graph

variable {W : Type} [AddCommMonoid W] (x : TopkStep W)

/-- `topk_ids.reshape(N)`. -/
def TopkStep.flat (i : ℕ) : ℕ :=
  x.ids (i / x.k) (i % x.k)

/-- `topk_weights.reshape(N)`. -/
def TopkStep.flatWts (i : ℕ) : W :=
  x.wts (i / x.k) (i % x.k)

/-- `sidx` of the stable sort. -/
def TopkStep.sidx (i : ℕ) : ℕ :=
  (argsort x.flat (x.T * x.k)).getD i 0

/-- `svals` of the stable sort. -/
def TopkStep.svals (i : ℕ) : ℕ :=
  x.flat (x.sidx i)

/-- `cumsum(first) - 1`. -/
def TopkStep.rankSorted (i : ℕ) : ℕ :=
  cumsum (fun i => (isFirst x.svals i).toNat) i - 1

/-- `experts`: the union in order, then the first expert of a group that has started, and the
first expert of all in the groups that have not. -/
def paddedExperts (cap S U : ℕ) (expOfRank : ℕ → ℕ) (u : ℕ) : ℕ :=
  let gFirst := u / cap * cap
  let padStarted := expOfRank (min gFirst (S - 1))
  if u < U then expOfRank u else if gFirst < U then padStarted else expOfRank 0

/-- `cell`: the place of a flat position in the dense tensors. -/
def cellOf (rows k : ℕ) (rank : ℕ → ℕ) (i : ℕ) : ℕ :=
  rank i * rows + i / k

/-- `argmax` of a row of the mask: its first true place, or `0`. -/
def firstTok (rows : ℕ) (present : ℕ → Bool) : ℕ :=
  ((List.range rows).find? present).getD 0

/-- `tgt`: the running count of a present cell, `0` at an absent one. -/
def target (present : ℕ → Bool) (r : ℕ) : ℕ :=
  if present r then cumsum (fun r => (present r).toNat) r - 1 else 0

/-- A row packed to the front: the scatter of its present cells over `empty`, in which the
absent cells all write `empty` at column `0`, and the repair of that column. -/
def packRow {β : Type} (o : WriteOrder) (rows : ℕ) (present : ℕ → Bool) (src : ℕ → β)
    (empty : β) : Option (ℕ → β) := do
  let row ← scatterInto o rows rows (target present)
    (fun r => if present r then src r else empty) fun _ => empty
  let anyPresent := (List.range rows).any present
  some (Function.update row 0 (if anyPresent then src (firstTok rows present) else empty))

variable {F : Type} {H : Type} [Zero F] [Zero H]

/-- `build_m8_groups_graph`. -/
def buildM8GroupsGraph (o : Scatters) (single : ZeroHom W F) (half : ZeroHom F H)
    (cap rows G : ℕ) : Option (List (M8Group H)) := do
  let N := x.T * x.k
  let S := G * cap
  if N = 0 then none
  let U := x.rankSorted (N - 1) + 1
  let rank ← scatterInto o.rank N N x.sidx x.rankSorted fun _ => 0
  let expOfRank ← scatterInto o.expOfRank S N x.rankSorted x.svals fun _ => 0
  let experts := paddedExperts cap S U expOfRank
  let cell := cellOf rows x.k rank
  let wDense ← scatterAdd o.wDense (S * rows) N cell x.flatWts fun _ => 0
  let pDense ← scatterInto o.pDense (S * rows) N cell (fun _ => 1) fun _ => 0
  let present := fun s r => pDense (s * rows + r) != (0 : ℕ)
  let rowMap ← (List.range S).mapM fun s =>
    packRow (o.rowMap s) rows (present s) (fun t => (t : ℤ)) (-1)
  let rowW ← (List.range S).mapM fun s =>
    packRow (o.rowW s) rows (present s) (fun t => single (wDense (s * rows + t))) 0
  some ((List.range G).map (groupAt cap rows experts
    (fun s => rowMap.getD s fun _ => -1)
    fun s r => half ((rowW.getD s fun _ => 0) r)))

end Graph

end Exl3

end VllmMoet
