import Mathlib.Data.List.Sort
import VllmMoet.CpuTier.Tail

/-!
# The dispatcher's `serve`

`serve` of `cpu_tier.cpp` as a program counter machine over the tier, the dispatcher's
io_uring ring and `serve`'s stack frame. One step is one critical section of the tail's
mutex, one system call, or one kernel call; between two steps the engine threads and the
kernel's completions may act.

* `Ring`: the reads prepared, submitted and completed but not reaped;
* `Frame`: the local variables of `serve`; an array is a function of its index with its
  counter beside it, `slot_of_cold[0 .. issued)` and the index stacks are lists;
* `Pc`: where `serve` stands;
* `Dispatcher.run`, `Dispatcher.kernel`, `Dispatcher.submit`: the next step when it is the
  dispatcher's own, when it depends on the kernel call's result, and when it depends on the
  answer of `io_uring_enter`.

The kernel calls are recorded in the frame, with the arguments they are given.
-/

namespace VllmMoet

namespace CpuTier

/-- `CPU_TIER_MAX_PAIRS`. -/
def maxPairs : ℤ := 96

/-- `CPU_TIER_MAX_TOKENS`. -/
def maxTokens : ℤ := 16

/-- One missing (token, expert) pair of a request; the weight is its bit pattern. -/
structure Pair where
  token : ℕ
  expert : ℕ
  weight : ℕ

/-- The mailbox request of one layer and step. The two counts are the `int`s `serve` casts
them to. -/
structure Request where
  nPairs : ℤ
  nTokens : ℤ
  pairs : ℕ → Pair
  nAll : ℕ
  ids : ℕ → ℤ

/-! ### The ring -/

/-- One read of a record into an arena slot, with the tag (`user_data`) its completion
carries. -/
structure Read where
  layer : ℕ
  expert : ℕ
  slot : ℕ
  ud : ℕ
  deriving DecidableEq

/-- The dispatcher's ring: reads written but not submitted, submitted reads the kernel
works on, and completions not yet reaped. -/
structure Ring where
  entries : ℕ
  sq : List Read
  flying : List Read
  cq : List (Read × ℤ)

/-- Submitted and not yet reaped. -/
def Ring.inFlight (R : Ring) : ℕ := R.flying.length + R.cq.length

/-- Free submission entries. -/
def Ring.space (R : Ring) : ℕ := R.entries - R.sq.length - R.inFlight

/-- Queue one read. -/
def Ring.prepRead (R : Ring) (r : Read) : Ring := { R with sq := R.sq ++ [r] }

/-- What `io_uring_enter` answers to a submission: how many entries it took, or an error. -/
inductive Submitted
  | accepted (n : ℕ)
  | error
  deriving DecidableEq

/-- `Ring::submit(0)`; with nothing pending it makes no system call. `none` is an answer
the kernel does not give. -/
def Ring.submit (R : Ring) : Submitted → Option Ring
  | .accepted n =>
    if n ≤ R.sq.length then
      some { R with sq := R.sq.drop n, flying := R.flying ++ R.sq.take n }
    else none
  | .error => if R.sq = [] then none else some R

/-- The kernel completes the `i`-th submitted read, with any result. -/
def Ring.complete (R : Ring) (i : ℕ) (res : ℤ) : Option Ring :=
  R.flying[i]?.map fun r => { R with flying := R.flying.eraseIdx i, cq := R.cq ++ [(r, res)] }

/-! ### The stack frame -/

/-- The arguments of one call of `moe_b12x_experts_forward`. -/
structure KernelCall where
  records : List (Option ℕ)
  mPer : List ℕ
  tok : List ℕ
  pw : List ℕ
  orow : List ℕ

/-- The local variables of `serve`. -/
structure Frame where
  layer : ℕ
  seq : ℕ
  req : Request
  status : ℕ
  order : List ℕ
  nExperts : ℕ
  recs : ℕ → Option ℕ
  eid : ℕ → ℕ
  mPer : ℕ → ℕ
  off : ℕ → ℕ
  tok : ℕ → ℕ
  pw : ℕ → ℕ
  orow : ℕ → ℕ
  lastE : Option ℕ
  coldIdx : List ℕ
  resIdx : List ℕ
  pinned : List ℕ
  slotOfCold : List ℕ
  landed : ℕ
  batch : List ℕ
  calls : List KernelCall

/-- The frame at the entry of `serve`. -/
def Frame.entry (layer seq : ℕ) (req : Request) : Frame where
  layer := layer
  seq := seq
  req := req
  status := if req.nPairs > maxPairs ∨ req.nTokens > maxTokens then 3 else 0
  order := (List.range req.nPairs.toNat).insertionSort fun i j =>
    (req.pairs i).expert ≤ (req.pairs j).expert
  nExperts := 0
  recs _ := none
  eid _ := 0
  mPer _ := 0
  off _ := 0
  tok _ := 0
  pw _ := 0
  orow _ := 0
  lastE := none
  coldIdx := []
  resIdx := []
  pinned := []
  slotOfCold := []
  landed := 0
  batch := []
  calls := []

/-- `issued`. -/
def Frame.issued (F : Frame) : ℕ := F.slotOfCold.length

/-- `n_cold`. -/
def Frame.nCold (F : Frame) : ℕ := F.coldIdx.length

/-- Start the group of a new expert at pair `k`. -/
def Frame.addExpert (F : Frame) (r : Option ℕ) (expert k : ℕ) : Frame :=
  { F with
    recs := Function.update F.recs F.nExperts r
    eid := Function.update F.eid F.nExperts expert
    mPer := Function.update F.mPer F.nExperts 0
    off := Function.update F.off F.nExperts k
    nExperts := F.nExperts + 1 }

/-- Add pair `i` of the request, the `k`-th in expert order, to the last group. -/
def Frame.addPair (F : Frame) (k i : ℕ) : Frame :=
  { F with
    mPer := Function.update F.mPer (F.nExperts - 1) (F.mPer (F.nExperts - 1) + 1)
    tok := Function.update F.tok k (F.req.pairs i).token
    pw := Function.update F.pw k (F.req.pairs i).weight
    orow := Function.update F.orow k i }

/-- The arguments `forward_subset` copies out for the groups `idx`. -/
def Frame.subset (F : Frame) (idx : List ℕ) : KernelCall :=
  let at' (a : ℕ → ℕ) := idx.flatMap fun x => (List.range (F.mPer x)).map fun j => a (F.off x + j)
  ⟨idx.map F.recs, idx.map F.mPer, at' F.tok, at' F.pw, at' F.orow⟩

/-- The arguments of the one call for all groups. -/
def Frame.all (F : Frame) : KernelCall :=
  let idx := List.range F.nExperts
  let at' (a : ℕ → ℕ) := (List.range F.req.nPairs.toNat).map a
  ⟨idx.map F.recs, idx.map F.mPer, at' F.tok, at' F.pw, at' F.orow⟩

/-! ### Grouping the pairs by expert -/

/-- The first pair of expert `e`: look its record up, pin it if it is a resident slot, or
note it as cold. `status = 2` is the loop's `break`: the expert is not in the store. -/
def groupExpert (T : Tier) (F : Frame) (e k : ℕ) : Tier × Frame :=
  let L := T.layers F.layer
  match (if e < T.nExperts then L.records e else none) with
  | none =>
    if T.tail.on ∧ e < T.nExperts ∧ L.cold e then
      (T, { F with coldIdx := F.coldIdx ++ [F.nExperts] }.addExpert none e k)
    else (T, { F with status := 2 })
  | some r =>
    let F' := { F with resIdx := F.resIdx ++ [F.nExperts] }
    match (if T.tail.on then L.slotOf e else none) with
    | none => (T, F'.addExpert (some r) e k)
    | some s =>
      (lruPushTail (lruUnlink (T.pinUp s) F.layer s) F.layer s,
        { F' with pinned := F'.pinned ++ [s] }.addExpert (some r) e k)

/-- The grouping loop over the pairs in expert order; `k` counts them. -/
def groupPairs : List ℕ → ℕ → Tier → Frame → Tier × Frame
  | [], _, T, F => (T, F)
  | i :: is, k, T, F =>
    let e := (F.req.pairs i).expert
    let TF := if F.lastE = some e then (T, F) else groupExpert T { F with lastE := some e } e k
    if TF.2.status ≠ 0 then TF else groupPairs is (k + 1) TF.1 (TF.2.addPair k i)

/-! ### The critical sections -/

/-- `issue_some`'s loop: while there is a cold expert left, a spare slot and a ring entry,
queue the read of the next cold record. -/
def issueLoop : ℕ → Tier → Ring → Frame → Tier × Ring × Frame
  | 0, T, R, F => (T, R, F)
  | fuel + 1, T, R, F =>
    match T.tail.freeSlots with
    | [] => (T, R, F)
    | s :: fs =>
      if R.space = 0 then (T, R, F)
      else issueLoop fuel (T.setFree fs)
        (R.prepRead ⟨F.layer, F.eid (F.coldIdx.getD F.issued 0), s, F.issued⟩)
        { F with slotOfCold := F.slotOfCold ++ [s] }

/-- `issue_some`. -/
def issueSome (T : Tier) (R : Ring) (F : Frame) : Tier × Ring × Frame :=
  issueLoop (F.nCold - F.issued) T R F

/-- Drop the pins of the slots `ss`. -/
def unpinAll (T : Tier) (ss : List ℕ) : Tier := ss.foldl Tier.pinDown T

/-- A completed read whose tag is `c`: the record in its slot becomes resident (or an
earlier copy of it stays) and is pinned for the kernel. -/
def land (T : Tier) (F : Frame) (c : ℕ) : Tier × Frame :=
  let x := F.coldIdx.getD c 0
  let T' := lruInsert T F.layer (F.eid x) (F.slotOfCold.getD c 0)
  match (T'.layers F.layer).slotOf (F.eid x) with
  | none => (T', F)
  | some s₂ =>
    (T'.pinUp s₂,
      { F with
        pinned := F.pinned ++ [s₂]
        recs := Function.update F.recs x (some (T'.tail.addr s₂))
        batch := F.batch ++ [x]
        landed := F.landed + 1 })

/-! ### The program counter machine -/

/-- Where `serve` stands: before which critical section, system call or kernel call. -/
inductive Pc
  | idle
  | group
  | forwardAll
  | issue
  | submit
  | forwardResident
  | unpinResident
  | loop
  | issueIdle
  | submitIdle
  | wait
  | reap
  | issueNext
  | submitNext
  | forwardBatch
  | unpinBatch
  | drain
  | unpinEnd
  | ack
  deriving DecidableEq

/-- What `serve` tells the GPU. -/
structure Ack where
  layer : ℕ
  seq : ℕ
  status : ℕ
  nPairs : ℤ
  nExperts : ℕ

/-- One entry of the miss log. -/
structure Miss where
  seq : ℕ
  layer : ℕ
  expert : ℕ
  m : ℕ

/-- One entry of the use log. -/
structure Use where
  seq : ℕ
  layer : ℕ
  ids : List ℤ

/-- The dispatcher thread with the state it shares. -/
structure Dispatcher where
  tier : Tier
  ring : Ring
  pc : Pc
  frame : Frame
  uses : List Use
  misses : List Miss
  acks : List Ack

namespace Dispatcher

variable (D : Dispatcher)

/-- Enter `serve` for a request of layer `l`. -/
def serve (l seq : ℕ) (req : Request) : Option Dispatcher :=
  if D.pc = .idle ∧ l < D.tier.nLayers then
    let F := Frame.entry l seq req
    some { D with
      frame := F
      uses := D.uses ++ [⟨seq, l, (List.range (min req.nAll maxPairs.toNat)).map req.ids⟩]
      pc := if 0 < req.nPairs ∧ F.status = 0 then .group else .ack }
  else none

/-- The grouping section, and the branch after it. -/
def runGroup : Dispatcher :=
  let TF := groupPairs D.frame.order 0 D.tier D.frame
  { D with
    tier := TF.1
    frame := TF.2
    pc := if TF.2.status ≠ 0 then .unpinEnd else if TF.2.nCold = 0 then .forwardAll else .issue }

/-- A section that issues reads and goes on to submit them. -/
def runIssue (next : Pc) : Dispatcher :=
  let TRF := issueSome D.tier D.ring D.frame
  { D with tier := TRF.1, ring := TRF.2.1, frame := TRF.2.2, pc := next }

/-- A section that drops the frame's pins and trims the layer. -/
def runUnpin (next : Pc) : Dispatcher :=
  { D with
    tier := lruTrim (unpinAll D.tier D.frame.pinned) D.frame.layer
    frame := { D.frame with pinned := [] }
    pc := next }

/-- The condition of the waiting loop, and of the issue at its top. -/
def runLoop : Dispatcher :=
  let F := D.frame
  { D with
    pc :=
      if F.status = 0 ∧ F.landed < F.nCold then
        if D.ring.inFlight = 0 ∧ F.issued < F.nCold then .issueIdle else .wait
      else if F.status ≠ 0 then .drain else .unpinEnd }

/-- The batch kernel call is made only if records landed and nothing failed. -/
def batchPc (F : Frame) : Pc :=
  if F.batch ≠ [] ∧ F.status = 0 then .forwardBatch else .unpinBatch

/-- Pop one completion: a short read gives its slot back, a full one lands. -/
def runReap : Dispatcher :=
  match D.ring.cq with
  | [] => { D with pc := if D.frame.issued < D.frame.nCold then .issueNext else batchPc D.frame }
  | (r, res) :: cq =>
    let R := { D.ring with cq := cq }
    if res ≠ recordBytes then
      { D with
        tier := D.tier.pushFree (D.frame.slotOfCold.getD r.ud 0)
        ring := R
        frame := { D.frame with status := 5 } }
    else
      let TF := land D.tier D.frame r.ud
      { D with tier := TF.1, ring := R, frame := TF.2 }

/-- Pop one completion of a failed request: its slot goes back to the spares. -/
def runDrain : Option Dispatcher :=
  if D.ring.inFlight = 0 then some { D with pc := .unpinEnd }
  else match D.ring.cq with
    | [] => none
    | (r, _) :: cq =>
      some { D with
        tier := D.tier.pushFree (D.frame.slotOfCold.getD r.ud 0)
        ring := { D.ring with cq := cq } }

/-- The miss log and the acknowledgement. -/
def runAck : Dispatcher :=
  let F := D.frame
  { D with
    pc := .idle
    misses := D.misses ++
      if F.status = 0 ∨ F.status = 4 ∨ F.status = 5 then
        (List.range F.nExperts).map fun i => ⟨F.seq, F.layer, F.eid i, F.mPer i⟩
      else []
    acks := D.acks ++ [⟨F.layer, F.seq, F.status, F.req.nPairs, F.nExperts⟩] }

/-- The dispatcher's next step, where it needs no answer from outside. -/
def run : Option Dispatcher :=
  match D.pc with
  | .group => some D.runGroup
  | .issue => some (D.runIssue .submit)
  | .unpinResident => some (D.runUnpin .loop)
  | .loop => some D.runLoop
  | .issueIdle => some (D.runIssue .submitIdle)
  -- `wait(1)` returns with a completion, or with an error that is ignored
  | .wait =>
    some { D with
      pc := if D.ring.inFlight = 0 then .loop else .reap
      frame := { D.frame with batch := [] } }
  | .reap => some D.runReap
  | .issueNext => some (D.runIssue .submitNext)
  | .unpinBatch =>
    some (if D.frame.pinned = [] then { D with pc := .loop } else D.runUnpin .loop)
  | .drain => D.runDrain
  | .unpinEnd =>
    some (if D.tier.tail.on ∧ D.frame.pinned ≠ [] then D.runUnpin .ack else { D with pc := .ack })
  | .ack => some D.runAck
  | .idle | .forwardAll | .submit | .forwardResident | .submitIdle | .submitNext
  | .forwardBatch => none

/-- The frame after the kernel call `c` returned `rc`. -/
def called (c : KernelCall) (rc : ℤ) : Frame :=
  { D.frame with
    calls := D.frame.calls ++ [c]
    status := if rc ≠ 0 then 4 else D.frame.status }

/-- A kernel call that returns `rc`. -/
def kernel (rc : ℤ) : Option Dispatcher :=
  match D.pc with
  | .forwardAll => some { D with frame := D.called D.frame.all rc, pc := .unpinEnd }
  | .forwardResident =>
    some { D with frame := D.called (D.frame.subset D.frame.resIdx) rc, pc := .unpinResident }
  | .forwardBatch =>
    some { D with frame := D.called (D.frame.subset D.frame.batch) rc, pc := .unpinBatch }
  | _ => none

/-- The frame after a submission answered by `a`. -/
def answered (a : Submitted) : Frame :=
  if a = .error then { D.frame with status := 5 } else D.frame

/-- A submission that is answered by `a`. -/
def submit (a : Submitted) : Option Dispatcher :=
  match D.ring.submit a with
  | none => none
  | some R =>
    match D.pc with
    | .submit =>
      some { D with
        ring := R
        frame := D.answered a
        pc := if (D.answered a).status = 0 ∧ D.frame.resIdx ≠ [] then .forwardResident
          else .unpinResident }
    | .submitIdle =>
      some { D with
        ring := R
        frame := D.answered a
        pc := if a = .error then .drain else .wait }
    | .submitNext =>
      some { D with
        ring := R
        frame := D.answered a
        pc := if a = .error then .drain else batchPc (D.answered a) }
    | _ => none

end Dispatcher

end CpuTier

end VllmMoet
