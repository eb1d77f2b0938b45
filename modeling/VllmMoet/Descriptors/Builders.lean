import Mathlib.Data.List.Basic
import Mathlib.Data.Nat.Notation
import VllmMoet.Lib.WarpReduce

/-!
# The descriptor builders of the base cache

An expert block is a pair of an expert with `mblock` rows. A builder kernel has one lane for each
pair. It looks the expert up in the slot table of the base pool, and of the FP4 pool where there is
one, and writes the entries of the pair in the tables of the GEMMs: where the activations, the
planes, the scales and the output are, and how many rows there are. An entry of no rows is left out
by its GEMM.

* `descBuildKernelBasecache`, `descBuildKernelBaseDelta`, `descBuildKernelBaseDeltaSplit`,
  `descBuildKernelBaseDeltaPrefill4`, `descBuildKernelBaseDeltaSplitPrefill4`: what a lane stores.
* `Mode.builder`, `Mode.launches`, `Mode.missRows`: what the forward pass does around them.

Addresses are numbers of bytes, and places in a table count its 64-bit words. A slot table has `-1`
for an expert that is not mapped.
-/

namespace VllmMoet

namespace Descriptors

/-! ### The tables -/

/-- The two descriptor buffers, of entries of six and of eight words. -/
inductive Buf where
  | desc
  | desc4s
  deriving DecidableEq

/-- A word of a buffer. -/
abbrev Place := Buf × ℕ

/-- What a builder is launched with. -/
structure Args where
  eids : ℕ → ℤ
  npost : ℕ
  bslot : ℕ → ℤ
  fslot : ℕ → ℤ
  a1b : ℕ
  as1b : ℕ
  c13b : ℕ
  a2b : ℕ
  as2b : ℕ
  c2b : ℕ
  a1bRm : ℕ
  a2bRm : ℕ
  bpoolb : ℕ
  bslotBytes : ℕ
  offS13 : ℕ
  offC2 : ℕ
  offS2 : ℕ
  fpoolb : ℕ
  fslotBytes : ℕ
  off4S13 : ℕ
  off4C2 : ℕ
  off4S2 : ℕ
  w13rBytes : ℕ
  a1Rb : ℕ
  as1Rb : ℕ
  c13Rb : ℕ
  a2Rb : ℕ
  as2Rb : ℕ
  c2Rb : ℕ
  nExperts : ℕ
  pairs : ℕ
  cap : ℕ
  cap4s : ℕ
  mblock : ℕ

/-- Where the activations, their scales and the output of a row are. -/
structure RowPtrs where
  a : ℕ
  as : ℕ
  c : ℕ
  deriving DecidableEq

/-- An entry of six words. -/
def store6 (d : ℕ) (r : RowPtrs) (b s m : ℕ) : List (Place × ℕ) :=
  [((.desc, d + 0), r.a), ((.desc, d + 1), r.as), ((.desc, d + 2), b), ((.desc, d + 3), s),
    ((.desc, d + 4), r.c), ((.desc, d + 5), m)]

/-- An entry of eight words, the last one padding. -/
def store8 (d : ℕ) (r : RowPtrs) (bb rr ss m : ℕ) : List (Place × ℕ) :=
  [((.desc4s, d + 0), r.a), ((.desc4s, d + 1), r.as), ((.desc4s, d + 2), bb),
    ((.desc4s, d + 3), rr), ((.desc4s, d + 4), ss), ((.desc4s, d + 5), r.c),
    ((.desc4s, d + 6), m), ((.desc4s, d + 7), 0)]

/-! ### What the builders share -/

section Lane

variable (A : Args) (p : ℕ)

/-- The words of a table of the first buffer. -/
def Args.cap6 : ℕ := A.cap * 6

/-- The words of a table of the second buffer. -/
def Args.cap8 : ℕ := A.cap4s * 8

/-- The expert of a pair, clamped to the experts there are. -/
def Args.expert : ℕ :=
  (min (max (A.eids p) 0) (A.nExperts - 1)).toNat

def Args.live : Bool := p < A.npost / A.mblock

/-- `bslot >= 0`. -/
def Args.bhit : Bool := 0 ≤ A.bslot (A.expert p)

/-- `fslot >= 0`. -/
def Args.fhit : Bool := 0 ≤ A.fslot (A.expert p)

/-- The base slot of a pair, that of slot 0 where the expert is not mapped. -/
def Args.bs : ℕ :=
  A.bpoolb + (max (A.bslot (A.expert p)) 0).toNat * A.bslotBytes

/-- The FP4 slot of a pair, that of slot 0 where the expert is not mapped. -/
def Args.fs : ℕ :=
  A.fpoolb + (max (A.fslot (A.expert p)) 0).toNat * A.fslotBytes

/-- The pointers of the w13 GEMM. -/
def Args.rows13 (a1 row : ℕ) : RowPtrs :=
  ⟨a1 + row * A.a1Rb, A.as1b + row * A.as1Rb, A.c13b + row * A.c13Rb⟩

/-- The pointers of the w2 GEMM. -/
def Args.rows2 (a2 row : ℕ) : RowPtrs :=
  ⟨a2 + row * A.a2Rb, A.as2b + row * A.as2Rb, A.c2b + row * A.c2Rb⟩

end Lane

/-! ### The builders -/

section Kernels

variable (A : Args) (p : ℕ)

/-- The base pool only. -/
def descBuildKernelBasecache : List (Place × ℕ) :=
  let m := if A.live p && A.bhit p then A.mblock else 0
  (List.range 2).flatMap fun gi =>
    let d := gi * A.cap6 + p * 6
    if gi = 0 then
      store6 d (A.rows13 A.a1b (p * A.mblock)) (A.bs p) (A.bs p + A.offS13) m
    else
      store6 d (A.rows2 A.a2b (p * A.mblock)) (A.bs p + A.offC2) (A.bs p + A.offS2) m

/-- The base pool with the pool of whole FP4 experts, which comes first. -/
def descBuildKernelBaseDelta : List (Place × ℕ) :=
  let is4 := A.fhit p
  let m2 := if A.live p && A.bhit p && !is4 then A.mblock else 0
  let m4 := if A.live p && is4 then A.mblock else 0
  (List.range 4).flatMap fun gi =>
    let d := gi * A.cap6 + p * 6
    if gi = 0 then
      store6 d (A.rows13 A.a1b (p * A.mblock)) (A.bs p) (A.bs p + A.offS13) m2
    else if gi = 1 then
      store6 d (A.rows2 A.a2b (p * A.mblock)) (A.bs p + A.offC2) (A.bs p + A.offS2) m2
    else if gi = 2 then
      store6 d (A.rows13 A.a1b (p * A.mblock)) (A.fs p) (A.fs p + A.off4S13) m4
    else
      store6 d (A.rows2 A.a2b (p * A.mblock)) (A.fs p + A.off4C2) (A.fs p + A.off4S2) m4

/-- The base pool with the pool of refinements, which need the base slot too. -/
def descBuildKernelBaseDeltaSplit : List (Place × ℕ) :=
  let is4 := A.fhit p && A.bhit p
  let m2 := if A.live p && A.bhit p && !is4 then A.mblock else 0
  let m4 := if A.live p && is4 then A.mblock else 0
  ((List.range 2).flatMap fun gi =>
    let d := gi * A.cap6 + p * 6
    if gi = 0 then
      store6 d (A.rows13 A.a1b (p * A.mblock)) (A.bs p) (A.bs p + A.offS13) m2
    else
      store6 d (A.rows2 A.a2b (p * A.mblock)) (A.bs p + A.offC2) (A.bs p + A.offS2) m2) ++
  (List.range 2).flatMap fun gi =>
    let d := gi * A.cap8 + p * 8
    if gi = 0 then
      store8 d (A.rows13 A.a1b (p * A.mblock)) (A.bs p) (A.fs p) (A.bs p + A.offS13) m4
    else
      store8 d (A.rows2 A.a2b (p * A.mblock)) (A.bs p + A.offC2) (A.fs p + A.w13rBytes)
        (A.bs p + A.offS2) m4

/-- As `descBuildKernelBaseDelta`, the FP4 entries in four parts of four rows. -/
def descBuildKernelBaseDeltaPrefill4 : List (Place × ℕ) :=
  let is4 := A.fhit p
  let m2 := if A.live p && A.bhit p && !is4 then A.mblock else 0
  ((List.range 2).flatMap fun gi =>
    let d := gi * A.cap6 + p * 6
    if gi = 0 then
      store6 d (A.rows13 A.a1b (p * A.mblock)) (A.bs p) (A.bs p + A.offS13) m2
    else
      store6 d (A.rows2 A.a2b (p * A.mblock)) (A.bs p + A.offC2) (A.bs p + A.offS2) m2) ++
  (List.range 4).flatMap fun sub =>
    let rbase := p * A.mblock + sub * 4
    let m4 := if A.live p && is4 then 4 else 0
    (List.range 2).flatMap fun gi =>
      let d := (2 + gi) * A.cap6 + (p * 4 + sub) * 6
      if gi = 0 then
        store6 d (A.rows13 A.a1bRm rbase) (A.fs p) (A.fs p + A.off4S13) m4
      else
        store6 d (A.rows2 A.a2bRm rbase) (A.fs p + A.off4C2) (A.fs p + A.off4S2) m4

/-- As `descBuildKernelBaseDeltaSplit`, the refined entries in four parts of four rows. -/
def descBuildKernelBaseDeltaSplitPrefill4 : List (Place × ℕ) :=
  let is4 := A.fhit p && A.bhit p
  let m2 := if A.live p && A.bhit p && !is4 then A.mblock else 0
  ((List.range 2).flatMap fun gi =>
    let d := gi * A.cap6 + p * 6
    if gi = 0 then
      store6 d (A.rows13 A.a1b (p * A.mblock)) (A.bs p) (A.bs p + A.offS13) m2
    else
      store6 d (A.rows2 A.a2b (p * A.mblock)) (A.bs p + A.offC2) (A.bs p + A.offS2) m2) ++
  (List.range 4).flatMap fun sub =>
    let rbase := p * A.mblock + sub * 4
    let m4 := if A.live p && is4 then 4 else 0
    (List.range 2).flatMap fun gi =>
      let d := gi * A.cap8 + (p * 4 + sub) * 8
      if gi = 0 then
        store8 d (A.rows13 A.a1bRm rbase) (A.bs p) (A.fs p) (A.bs p + A.offS13) m4
      else
        store8 d (A.rows2 A.a2bRm rbase) (A.bs p + A.offC2) (A.fs p + A.w13rBytes)
          (A.bs p + A.offS2) m4

end Kernels

inductive Builder where
  | basecache
  | baseDelta
  | baseDeltaSplit
  | baseDeltaPrefill4
  | baseDeltaSplitPrefill4
  deriving DecidableEq

/-- What a lane stores. -/
def Builder.lane (b : Builder) (A : Args) (p : ℕ) : List (Place × ℕ) :=
  match b with
  | .basecache => descBuildKernelBasecache A p
  | .baseDelta => descBuildKernelBaseDelta A p
  | .baseDeltaSplit => descBuildKernelBaseDeltaSplit A p
  | .baseDeltaPrefill4 => descBuildKernelBaseDeltaPrefill4 A p
  | .baseDeltaSplitPrefill4 => descBuildKernelBaseDeltaSplitPrefill4 A p

/-- What a lane adds to `n_miss`. -/
def Builder.miss (b : Builder) (A : Args) (p : ℕ) : Bool :=
  match b with
  | .basecache => A.live p && !A.bhit p
  | .baseDelta | .baseDeltaPrefill4 => A.live p && !A.bhit p && !A.fhit p
  | .baseDeltaSplit | .baseDeltaSplitPrefill4 => A.live p && !A.bhit p

/-! ### The launch of a builder -/

section Launch

variable (b : Builder) (A : Args)

/-- `triton.cdiv(pairs, 256)`, the programs of a builder. -/
def Args.programs : ℕ := (A.pairs + 255) / 256

/-- The stores of a builder, program by program; the lanes behind the last pair are masked. -/
def Builder.launchStores : List (Place × ℕ) :=
  (List.range A.programs).flatMap fun pid =>
    (List.range 256).flatMap fun i =>
      if pid * 256 + i < A.pairs then b.lane A (pid * 256 + i) else []

/-- `n_miss` of a program. -/
def Builder.nMiss (pid : ℕ) : ℕ :=
  (List.range 256).countP fun i => decide (pid * 256 + i < A.pairs) && b.miss A (pid * 256 + i)

/-- The counter after the atomic additions of the programs, made in the order `pids`. -/
def Builder.missCount (pids : List ℕ) (count : ℕ) : ℕ :=
  pids.foldl (fun n pid => n + b.nMiss A pid) count

end Launch

/-! ### The forward pass -/

/-- The tables that a GEMM reads. -/
inductive Tier where
  | w2
  | w4
  | w4q
  deriving DecidableEq

/-- A GEMM over the first `entries` entries of table `gemm` of a tier. -/
structure GemmLaunch where
  tier : Tier
  gemm : ℕ
  entries : ℕ
  deriving DecidableEq

/-- What the forward pass of a layer chooses its builder by: `tier` has the number of slots of the
FP4 pool, if there is one. -/
structure Mode where
  prefill : Bool
  prefillFp4 : Bool
  tier : Option ℕ
  split : Bool

section Forward

variable (M : Mode)

/-- `_BLOCK`. -/
def block : ℕ := 4

def Mode.mblock : ℕ := if M.prefill then 16 else block

def Mode.usePf4 : Bool := M.prefillFp4 && M.prefill && M.tier.any fun n => 0 < n

def Mode.useFp4 : Bool := M.tier.isSome && !M.prefill

def Mode.useW4sBase : Bool := M.useFp4 && M.split

/-- The builder that is launched. -/
def Mode.builder : Builder :=
  if M.usePf4 && M.split then .baseDeltaSplitPrefill4
  else if M.usePf4 then .baseDeltaPrefill4
  else if M.useW4sBase then .baseDeltaSplit
  else if M.useFp4 then .baseDelta
  else .basecache

/-- Whether `tier` is still set at the GEMMs. -/
def Mode.tierLeft : Bool := if !M.useFp4 && !M.usePf4 then false else M.tier.isSome

def Mode.useW4s : Bool := M.tierLeft && !M.prefill && M.split

/-- The GEMMs of one side, w13 or w2. -/
def Mode.gemms (gemm pairs : ℕ) : List GemmLaunch :=
  ⟨.w2, gemm, pairs⟩ ::
    if M.tierLeft && !M.prefill then
      if M.useW4s then [⟨.w4q, gemm, pairs⟩] else [⟨.w4, gemm, pairs⟩]
    else if M.usePf4 then
      if M.split then [⟨.w4q, gemm, pairs * 4⟩] else [⟨.w4, gemm, pairs * 4⟩]
    else []

/-- The GEMMs of a layer. -/
def Mode.launches (pairs : ℕ) : List GemmLaunch :=
  M.gemms 0 pairs ++ M.gemms 1 pairs

/-- `resident`, computed on the tensors of expert blocks and slots. -/
def Mode.resident (A : Args) (p : ℕ) : Bool :=
  let ePair := (min (max (A.eids p) 0) (A.nExperts - 1)).toNat
  let resident := decide (0 ≤ A.bslot ePair)
  if (M.useFp4 || M.usePf4) && !M.split then resident || decide (0 ≤ A.fslot ePair) else resident

/-- `miss_rows`, the mask of the rows in the unpermute. -/
def Mode.missRows (A : Args) (row : ℕ) : Bool :=
  M.resident A (row / A.mblock)

end Forward

end Descriptors

end VllmMoet
