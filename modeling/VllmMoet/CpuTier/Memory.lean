import VllmMoet.CpuTier.Groups

/-!
# The tier and the memory of its records

The tier together with the memory its records are in. A record is one piece of memory at its
address; a read transfers the bytes of the store file into its arena slot, in pieces that
arrive at any time while it is in flight, and when it completes in full the slot holds the
record. A kernel call computes its pairs one after the other, in any order, and writes the row
of each from the record bytes that are at the pair's address then; it returns 0 when all pairs
are computed.

* `Store`: the records in the store files, and the kernel's row of a pair;
* `MemSys`, `MemSys.step`: the system of `Sys.step` with this memory.

Records at different addresses do not overlap.
-/

namespace VllmMoet

namespace CpuTier

/-- The record of every expert in the store files, and the row the kernel computes from a
record, a token's activations and a weight. -/
structure Store (B A Y : Type*) where
  file : ℕ → ℕ → B
  kernel : B → A → ℕ → Y

/-- The tier, the memory at every address, the activations of the request's tokens, the pairs
of the kernel call in progress that are computed, and the staging rows of every layer. -/
structure MemSys (B A Y : Type*) where
  sys : Sys
  mem : ℕ → B
  acts : ℕ → A
  computed : List ℕ
  staging : ℕ → ℕ → Y

/-- The steps of the tier with its memory. -/
inductive MemAct (B A : Type*)
  /-- the dispatcher finds a request, with the tokens' activations -/
  | serve (l seq : ℕ) (req : Request) (acts : ℕ → A)
  /-- the kernel call in progress computes its `p`-th pair -/
  | pair (p : ℕ)
  /-- a piece of the `i`-th submitted read arrives -/
  | transfer (i : ℕ) (b : B)
  /-- a piece of the `i`-th acquiring call's read arrives -/
  | acquireTransfer (i : ℕ) (b : B)
  /-- a step of the tier other than `serve` -/
  | sys (a : Act)

/-- The kernel call in progress. -/
def Dispatcher.call (D : Dispatcher) : Option KernelCall :=
  match D.pc with
  | .forwardAll => some D.frame.all
  | .forwardResident => some (D.frame.subset D.frame.resIdx)
  | .forwardBatch => some (D.frame.subset D.frame.batch)
  | _ => none

namespace MemSys

variable {B A Y : Type*} (M : MemSys B A Y)

/-- The address of arena slot `s`. -/
def addr (s : ℕ) : ℕ := M.sys.tier.tail.addr s

/-- Store a record at an address. -/
def write (p : ℕ) (b : B) : MemSys B A Y := { M with mem := Function.update M.mem p b }

/-- The kernel writes a row. -/
def setRow (l i : ℕ) (y : Y) : MemSys B A Y :=
  { M with staging := Function.update M.staging l (Function.update (M.staging l) i y) }

/-- One step of the tier and its memory. -/
def step (K : Store B A Y) : MemAct B A → Option (MemSys B A Y)
  | .serve l seq req acts =>
    (M.sys.step (.serve l seq req)).map fun S => { M with sys := S, acts := acts }
  | .pair p =>
    M.sys.disp.call.bind fun c => c.pairs[p]?.bind fun q => q.record.bind fun r =>
      if p ∈ M.computed then none
      else some { M.setRow M.sys.disp.frame.layer q.orow (K.kernel (M.mem r) (M.acts q.tok) q.pw)
        with computed := p :: M.computed }
  | .transfer i b => M.sys.disp.ring.flying[i]?.map fun r => M.write (M.addr r.slot) b
  | .acquireTransfer i b => M.sys.acquiring[i]?.map fun h => M.write (M.addr h.slot) b
  | .sys (.serve _ _ _) => none
  | .sys (.kernel rc) =>
    if rc ≠ 0 ∨ M.sys.disp.call.all (fun c => (List.range c.pairs.length).all (· ∈ M.computed)) then
      (M.sys.step (.kernel rc)).map fun S => { M with sys := S, computed := [] }
    else none
  | .sys (.complete i res) =>
    M.sys.disp.ring.flying[i]?.bind fun r => (M.sys.step (.complete i res)).map fun S =>
      { (if res = recordBytes then M.write (M.addr r.slot) (K.file r.layer r.expert) else M) with
        sys := S }
  | .sys (.acquireRead i ok) =>
    M.sys.acquiring[i]?.bind fun h => (M.sys.step (.acquireRead i ok)).map fun S =>
      { (if ok then M.write (M.addr h.slot) (K.file h.layer h.expert) else M) with sys := S }
  | .sys a => (M.sys.step a).map fun S => { M with sys := S }

end MemSys

section Runs

variable {B A Y : Type*}

/-- The tier is started, and every registered record is in memory. -/
structure MemStart (K : Store B A Y) (M : MemSys B A Y) : Prop where
  start : Start M.sys
  bytes : ∀ l < M.sys.tier.nLayers, ∀ e p, (M.sys.tier.layers l).records e = some p →
    M.mem p = K.file l e
  computed : M.computed = []

/-- Every run of the tier with its memory. -/
def memSystem (K : Store B A Y) : TransitionSystem (MemSys B A Y) (MemAct B A) :=
  .ofStep (MemStart K) fun M => M.step K

end Runs

end CpuTier

end VllmMoet
