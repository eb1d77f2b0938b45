import Mathlib
import VllmMoet.Lib.Transition

/-!
# The push-based all-reduce of four ranks

The kernels of `p2p_allreduce_sm120.cu` on four ranks, each with one stream. Every rank
executes the same sequence of calls; a one-shot call is a push kernel and a waiting kernel on
the first set of buffers, a two-shot call is a push and a reduction (reduce-scatter), then a
push and an assembly (all-gather) on the second set.

One step is one access of one CTA to memory that others share: a read of the call counter, a
flag poll that succeeds, the copy of one 16-byte chunk, one load of a chunk, an increment of
a counter, one store of a flag or of a counter reset. CTAs of a kernel are scheduled in any
order and interleave freely, also with those of the other ranks; the next kernel of a stream
starts when all CTAs of the one before it have exited. Spinning is a step that is not
enabled; the spin limit is left out.

* `Setup`: the calls, their inputs and the buffers' dimensions; a message is an array of
  chunks, row after row;
* `RankState`: a rank's counters, receive buffers and flags, and its CTAs;
* `step`: one step of one rank.

The counters and flags are the 32-bit values of the device.
-/

namespace VllmMoet

namespace AllReduce

/-- The four ranks (`NSRC`). -/
abbrev Rank := Fin 4

/-- The two sets of receive buffers, flags and counters. -/
inductive Bufs
  | first
  | second
  deriving DecidableEq

/-- One all-reduce: a one-shot call uses the first set of buffers, a two-shot call the
second; `rows` is the number of rows of the message. -/
structure Call where
  bufs : Bufs
  rows : ℕ

/-- What a push kernel and its waiting kernel are for: the one-shot call, or a half of the
two-shot call. -/
inductive Kind
  | oneShot
  | reduceScatter
  | allGather
  deriving DecidableEq

/-- The buffers a kernel works on. -/
def Kind.bufs : Kind → Bufs
  | .oneShot => .first
  | .reduceScatter | .allGather => .second

/-- The calls, the ranks' inputs and the constants of the build. -/
structure Setup (V : Type*) where
  /-- `SLICE_CH`, a quarter of a row in chunks -/
  sliceCh : ℕ
  /-- rows the buffers hold (`M_MAX`) -/
  mMax : ℕ
  /-- `max_ctas_per_dest` -/
  maxCtas : ℕ
  /-- the calls, the same on every rank -/
  call : ℕ → Call
  /-- the input of a rank in a call, by chunk -/
  x : Rank → ℕ → ℕ → V
  /-- `__hadd2` on the lanes of a chunk -/
  hadd2 : V → V → V
  /-- the order byte of a chunk in a call of this many rows -/
  order : ℕ → ℕ → ℕ
  sliceCh_pos : 0 < sliceCh
  maxCtas_pos : 0 < maxCtas
  rows_pos : ∀ k, 0 < (call k).rows
  rows_le : ∀ k, (call k).rows ≤ mMax

section Layout

variable {V : Type*} (G : Setup V)

/-- Chunks of a row (`H / 8`). -/
def Setup.rowCh : ℕ := 4 * G.sliceCh

/-- The slice a chunk of the message is in. -/
def Setup.slice (o : ℕ) : ℕ := o % G.rowCh / G.sliceCh

/-- Where the rows of a source begin in a slot of the receive buffer. -/
def Setup.base (slot : ℕ) (src : Rank) : ℕ := (slot * 4 + src) * (G.mMax * G.rowCh)

/-- The index of a source's flag in a slot; flags are `FLAG_STRIDE` apart. -/
def flagIdx (slot : ℕ) (src : Rank) : ℕ := (slot * 4 + src) * 32

/-- The rank at index `p` of a rank's peers: the other ranks in increasing order. -/
def peerAt (r : Rank) (p : ℕ) : Rank := Fin.ofNat 4 (if p < r then p else p + 1)

/-- `peer_index`. -/
def peerIndex (r d : Rank) : ℕ := d - (if r < d then 1 else 0)

/-- The destination of phase `p` of a two-shot push. -/
def phaseDest (r : Rank) (p : ℕ) : Rank := Fin.ofNat 4 (r + 1 + p)

/-- The rank whose memory phase `p` of a push writes. -/
def dest (κ : Kind) (r : Rank) (p : ℕ) : Rank :=
  match κ with
  | .oneShot => peerAt r p
  | .reduceScatter | .allGather => peerAt r (peerIndex r (phaseDest r p))

/-- The slice phase `p` of a two-shot push copies. -/
def pushSlice (κ : Kind) (r : Rank) (p : ℕ) : Rank :=
  match κ with
  | .oneShot | .reduceScatter => phaseDest r p
  | .allGather => r

/-- The number of chunks a push copies to each destination. -/
def Setup.chunks (κ : Kind) (rows : ℕ) : ℕ :=
  match κ with
  | .oneShot => rows * G.rowCh
  | .reduceScatter | .allGather => rows * G.sliceCh

/-- `ctas_per_dest`. -/
def Setup.ctas (κ : Kind) (rows : ℕ) : ℕ := min ((G.chunks κ rows + 255) / 256) G.maxCtas

/-- The chunk of the message that is the `i`-th of a push. -/
def Setup.offset (κ : Kind) (slice : Rank) (i : ℕ) : ℕ :=
  match κ with
  | .oneShot => i
  | .reduceScatter | .allGather =>
    i / G.sliceCh * G.rowCh + slice * G.sliceCh + i % G.sliceCh

/-- The chunks of CTA `b`: its 256 threads start at `b * 256 + t` and stride over all CTAs
of the destination. -/
def owns (ctas b i : ℕ) : Prop := i / 256 % ctas = b

instance (ctas b i : ℕ) : Decidable (owns ctas b i) := inferInstanceAs (Decidable (_ = _))

/-- The chunks CTA `m` of a waiting kernel writes on rank `r`. -/
def Setup.writes (κ : Kind) (r : Rank) (m o : ℕ) : Prop :=
  o / G.rowCh = m ∧
    match κ with
    | .oneShot => True
    | .reduceScatter => G.slice o = r
    | .allGather => G.slice o ≠ r

instance (κ : Kind) (r : Rank) (m o : ℕ) : Decidable (G.writes κ r m o) :=
  match κ with
  | .oneShot => inferInstanceAs (Decidable (_ ∧ True))
  | .reduceScatter => inferInstanceAs (Decidable (_ ∧ _ = _))
  | .allGather => inferInstanceAs (Decidable (_ ∧ _ ≠ _))

/-- The rank at position `p` of an order byte. -/
def orderAt (order p : ℕ) : Rank := Fin.ofNat 4 (order / 4 ^ p)

/-- How many chunks are loaded for one chunk of the result. -/
def Kind.positions : Kind → ℕ
  | .oneShot | .reduceScatter => 4
  | .allGather => 1

/-- The rank whose chunk is the `p`-th that is loaded for chunk `o`. -/
def Setup.source (κ : Kind) (rows o p : ℕ) : Rank :=
  match κ with
  | .oneShot | .reduceScatter => orderAt (G.order rows o) p
  | .allGather => Fin.ofNat 4 (G.slice o)

/-- What a waiting kernel makes of the loaded chunks: `nccl_order_sum8`, or a copy. -/
def Setup.combine (κ : Kind) (v : ℕ → V) : V :=
  match κ with
  | .oneShot | .reduceScatter => G.hadd2 (G.hadd2 (G.hadd2 (v 0) (v 1)) (v 2)) (v 3)
  | .allGather => v 0

/-- The flag value of a push in the call that `n` completed calls precede. -/
def seqOf (κ : Kind) (n : ℕ) : ℕ :=
  match κ with
  | .oneShot => (n + 1) % 2 ^ 32
  | .reduceScatter => (2 * n + 1) % 2 ^ 32
  | .allGather => (2 * n + 2) % 2 ^ 32

/-- The slot of a push in the call that `n` completed calls precede (`NSLOTS` is 4). -/
def slotOf (κ : Kind) (n : ℕ) : ℕ :=
  match κ with
  | .oneShot => (n + 1) % 2 ^ 32 % 4
  | .reduceScatter | .allGather => n % 4

/-- The spin on a flag ends: `(int)(flag - seq) < 0` is false. -/
def released (flag seq : ℕ) : Prop := (flag + 2 ^ 32 - seq) % 2 ^ 32 < 2 ^ 31

instance (flag seq : ℕ) : Decidable (released flag seq) := inferInstanceAs (Decidable (_ < _))

end Layout

/-! ### The state -/

/-- Where a CTA of a push kernel stands. -/
inductive PushPc
  | start
  | spin
  | copy
  | flag
  | reset (q : ℕ)
  | exit
  deriving DecidableEq

/-- A CTA of a push kernel: the counter it read, and the chunks it has copied. -/
structure PushCta where
  pc : PushPc := .start
  n : ℕ := 0
  copied : ℕ → Bool := fun _ => false

/-- Where a CTA of a waiting kernel stands. -/
inductive WaitPc
  | start
  | poll
  | sum
  | reset
  | bump
  | exit
  deriving DecidableEq

/-- A CTA of a waiting kernel: the counter it read, the sources whose flag it has seen, the
chunks its threads have loaded (by chunk of the result and position) and the chunks of the
result they have stored. -/
structure WaitCta (V : Type*) where
  pc : WaitPc := .start
  n : ℕ := 0
  polled : Rank → Bool := fun _ => false
  got : ℕ → ℕ → Option V := fun _ _ => none
  stored : ℕ → Bool := fun _ => false

/-- One rank: the kernel its stream is at, the kernel's CTAs (a push kernel's by phase and
index), the counters `ctrl[0]`, `ctrl[1..3]` and `ctrl[4]` of each set, its receive buffers
and flags, and the results. -/
structure RankState (V : Type*) where
  call : ℕ
  kind : Kind
  waiting : Bool
  push : ℕ → ℕ → PushCta
  wait : ℕ → WaitCta V
  ctrl : Bufs → ℕ
  phase : Bufs → ℕ → ℕ
  done : Bufs → ℕ
  data : Bufs → ℕ → V
  flags : Bufs → ℕ → ℕ
  out : ℕ → ℕ → V

/-- The four ranks. -/
abbrev State (V : Type*) := Rank → RankState V

/-- The steps of one rank's stream. -/
inductive Act
  /-- push CTA `(p, b)` reads the call counter -/
  | pushStart (p b : ℕ)
  /-- push CTA `(p, b)` finds the previous phase complete -/
  | spin (p b : ℕ)
  /-- push CTA `(p, b)` copies its chunk `i` -/
  | copy (p b i : ℕ)
  /-- push CTA `(p, b)` has copied everything and increments its phase's counter -/
  | arrive (p b : ℕ)
  /-- the last push CTA of a phase stores the flag -/
  | flag (p b : ℕ)
  /-- the last push CTA resets a phase counter -/
  | resetPhase (p b : ℕ)
  /-- waiting CTA `m` reads the call counter -/
  | waitStart (m : ℕ)
  /-- waiting CTA `m` sees the flag of source `s` -/
  | poll (m : ℕ) (s : Rank)
  /-- waiting CTA `m` has seen all flags -/
  | enter (m : ℕ)
  /-- waiting CTA `m` loads the `p`-th chunk for chunk `o` of the result -/
  | load (m o p : ℕ)
  /-- waiting CTA `m` stores chunk `o` of the result -/
  | store (m o : ℕ)
  /-- waiting CTA `m` has stored everything and increments the done counter -/
  | leave (m : ℕ)
  /-- the last waiting CTA resets the done counter -/
  | resetDone (m : ℕ)
  /-- the last waiting CTA increments the call counter -/
  | bump (m : ℕ)
  /-- the stream's kernel has ended and the next one starts -/
  | next
  deriving DecidableEq

/-! ### One step -/

section Step

variable {V : Type*} (G : Setup V)

/-- The first kernel of a call. -/
def Bufs.firstKind : Bufs → Kind
  | .first => .oneShot
  | .second => .reduceScatter

namespace RankState

variable (R : RankState V)

/-- The rows of the call. -/
def rows : ℕ := (G.call R.call).rows

/-- The buffers of the kernel. -/
def bufs : Bufs := R.kind.bufs

/-- CTAs of each phase of the push kernel. -/
def pushCtas : ℕ := G.ctas R.kind (R.rows G)

/-- Replace a push CTA. -/
def setPush (p b : ℕ) (C : PushCta) : RankState V :=
  { R with push := Function.update R.push p (Function.update (R.push p) b C) }

/-- Replace a waiting CTA. -/
def setWait (m : ℕ) (C : WaitCta V) : RankState V :=
  { R with wait := Function.update R.wait m C }

/-- Store a value into a counter `ctrl[1 + p]`. -/
def setPhase (p v : ℕ) : RankState V :=
  { R with phase := Function.update R.phase R.bufs (Function.update (R.phase R.bufs) p v) }

/-- The message a push kernel of rank `r` reads. -/
def message (r : Rank) (o : ℕ) : V :=
  match R.kind with
  | .oneShot | .reduceScatter => G.x r R.call o
  | .allGather => R.out R.call o

/-- Store a chunk a peer sends. -/
def receive (σ : Bufs) (a : ℕ) (v : V) : RankState V :=
  { R with data := Function.update R.data σ (Function.update (R.data σ) a v) }

/-- Store a flag a peer sends. -/
def receiveFlag (σ : Bufs) (a v : ℕ) : RankState V :=
  { R with flags := Function.update R.flags σ (Function.update (R.flags σ) a v) }

/-- Every CTA of the kernel has exited. -/
def kernelDone : Prop :=
  if R.waiting then ∀ m < R.rows G, (R.wait m).pc = .exit
  else ∀ p < 3, ∀ b < R.pushCtas G, (R.push p b).pc = .exit

instance : Decidable (R.kernelDone G) :=
  inferInstanceAs (Decidable (if R.waiting = true then ∀ m < R.rows G, (R.wait m).pc = .exit
    else ∀ p < 3, ∀ b < R.pushCtas G, (R.push p b).pc = .exit))

/-- The stream goes on to its next kernel. -/
def advance : RankState V :=
  if R.waiting then
    { R with
      waiting := false
      push := fun _ _ => {}
      call := if R.kind = .reduceScatter then R.call else R.call + 1
      kind := if R.kind = .reduceScatter then .allGather
        else (G.call (R.call + 1)).bufs.firstKind }
  else { R with waiting := true, wait := fun _ => {} }

/-- What a waiting CTA loads as the `p`-th chunk for chunk `o`. -/
def loaded (r : Rank) (m o p : ℕ) : V :=
  let src := G.source R.kind (R.rows G) o p
  if src = r then G.x r R.call o
  else R.data R.bufs (G.base (slotOf R.kind (R.wait m).n) src + o)

end RankState

variable (S : State V) (r : Rank)

/-- The steps of push CTA `(p, b)`. -/
def pushStep (p b : ℕ) : Act → Option (State V)
  | .pushStart _ _ =>
    let R := S r
    let C := R.push p b
    if C.pc = .start then
      some (Function.update S r (R.setPush p b { C with pc := .spin, n := R.ctrl R.bufs }))
    else none
  | .spin _ _ =>
    let R := S r
    let C := R.push p b
    if C.pc = .spin ∧ (p = 0 ∨ R.pushCtas G ≤ R.phase R.bufs (p - 1)) then
      some (Function.update S r (R.setPush p b { C with pc := .copy }))
    else none
  | .copy _ _ i =>
    let R := S r
    let C := R.push p b
    let d := dest R.kind r p
    let o := G.offset R.kind (pushSlice R.kind r p) i
    if C.pc = .copy ∧ i < G.chunks R.kind (R.rows G) ∧ owns (R.pushCtas G) b i ∧
        C.copied i = false then
      let S' := Function.update S r
        (R.setPush p b { C with copied := Function.update C.copied i true })
      some (Function.update S' d
        ((S' d).receive R.bufs (G.base (slotOf R.kind C.n) r + o) (R.message G r o)))
    else none
  | .arrive _ _ =>
    let R := S r
    let C := R.push p b
    if C.pc = .copy ∧
        ∀ i < G.chunks R.kind (R.rows G), owns (R.pushCtas G) b i → C.copied i = true then
      let last := R.phase R.bufs p = R.pushCtas G - 1
      some (Function.update S r ((R.setPhase p (R.phase R.bufs p + 1)).setPush p b
        { C with pc := if last then .flag else .exit }))
    else none
  | .flag _ _ =>
    let R := S r
    let C := R.push p b
    let d := dest R.kind r p
    if C.pc = .flag then
      let S' := Function.update S r
        (R.setPush p b { C with pc := if p = 2 then .reset 0 else .exit })
      some (Function.update S' d
        ((S' d).receiveFlag R.bufs (flagIdx (slotOf R.kind C.n) r) (seqOf R.kind C.n)))
    else none
  | .resetPhase _ _ =>
    let R := S r
    let C := R.push p b
    match C.pc with
    | .reset q =>
      some (Function.update S r ((R.setPhase q 0).setPush p b
        { C with pc := if q = 2 then .exit else .reset (q + 1) }))
    | _ => none
  | _ => none

/-- The steps of waiting CTA `m`. -/
def waitStep (m : ℕ) : Act → Option (RankState V)
  | .waitStart _ =>
    let R := S r
    let C := R.wait m
    if C.pc = .start then some (R.setWait m { C with pc := .poll, n := R.ctrl R.bufs }) else none
  | .poll _ s =>
    let R := S r
    let C := R.wait m
    if C.pc = .poll ∧ s ≠ r ∧ C.polled s = false ∧
        released (R.flags R.bufs (flagIdx (slotOf R.kind C.n) s)) (seqOf R.kind C.n) then
      some (R.setWait m { C with polled := Function.update C.polled s true })
    else none
  | .enter _ =>
    let R := S r
    let C := R.wait m
    if C.pc = .poll ∧ ∀ s, s ≠ r → C.polled s = true then
      some (R.setWait m { C with pc := .sum })
    else none
  | .load _ o p =>
    let R := S r
    let C := R.wait m
    if C.pc = .sum ∧ G.writes R.kind r m o ∧ p < R.kind.positions ∧ C.got o p = none then
      some (R.setWait m { C with
        got := Function.update C.got o (Function.update (C.got o) p (some (R.loaded G r m o p))) })
    else none
  | .store _ o =>
    let R := S r
    let C := R.wait m
    if C.pc = .sum ∧ G.writes R.kind r m o ∧ C.stored o = false ∧
        ∀ p < R.kind.positions, (C.got o p).isSome then
      let v := G.combine R.kind fun p => (C.got o p).getD (G.x r R.call o)
      some { R.setWait m { C with stored := Function.update C.stored o true } with
        out := Function.update R.out R.call (Function.update (R.out R.call) o v) }
    else none
  | .leave _ =>
    let R := S r
    let C := R.wait m
    if C.pc = .sum ∧ ∀ o < (m + 1) * G.rowCh, G.writes R.kind r m o → C.stored o = true then
      -- `reduce_slice_kernel` has no done counter
      if R.kind = .reduceScatter then some (R.setWait m { C with pc := .exit })
      else
        let last := R.done R.bufs = R.rows G - 1
        some { R.setWait m { C with pc := if last then .reset else .exit } with
          done := Function.update R.done R.bufs (R.done R.bufs + 1) }
    else none
  | .resetDone _ =>
    let R := S r
    let C := R.wait m
    if C.pc = .reset then
      some { R.setWait m { C with pc := .bump } with done := Function.update R.done R.bufs 0 }
    else none
  | .bump _ =>
    let R := S r
    let C := R.wait m
    if C.pc = .bump then
      some { R.setWait m { C with pc := .exit } with
        ctrl := Function.update R.ctrl R.bufs ((R.ctrl R.bufs + 1) % 2 ^ 32) }
    else none
  | _ => none

/-- The push CTA an action is one of. -/
def Act.pushCta : Act → Option (ℕ × ℕ)
  | .pushStart p b | .spin p b | .copy p b _ | .arrive p b | .flag p b | .resetPhase p b =>
    some (p, b)
  | _ => none

/-- The waiting CTA an action is one of. -/
def Act.waitCta : Act → Option ℕ
  | .waitStart m | .poll m _ | .enter m | .load m _ _ | .store m _ | .leave m | .resetDone m
  | .bump m => some m
  | _ => none

/-- One step of rank `r`: of a CTA of its kernel, or to the next kernel. -/
def step (a : Act) : Option (State V) :=
  match a.pushCta, a.waitCta with
  | some (p, b), _ =>
    if (S r).waiting = false ∧ p < 3 ∧ b < (S r).pushCtas G then pushStep G S r p b a else none
  | none, some m =>
    if (S r).waiting = true ∧ m < (S r).rows G then
      (waitStep G S r m a).map (Function.update S r)
    else none
  | none, none =>
    if (S r).kernelDone G then some (Function.update S r ((S r).advance G)) else none

/-- The ranks before their first call: the counters and the flags are zero. -/
structure Start (S : State V) : Prop where
  call : ∀ r, (S r).call = 0
  kind : ∀ r, (S r).kind = (G.call 0).bufs.firstKind
  waiting : ∀ r, (S r).waiting = false
  push : ∀ r p b, (S r).push p b = {}
  ctrl : ∀ r σ, (S r).ctrl σ = 0
  phase : ∀ r σ p, (S r).phase σ p = 0
  done : ∀ r σ, (S r).done σ = 0
  flags : ∀ r σ a, (S r).flags σ a = 0

/-- The four ranks, their steps interleaved in any order. -/
def system : TransitionSystem (State V) (Rank × Act) :=
  .ofStep (Start G) fun S a => step G S a.1 a.2

end Step

end AllReduce

end VllmMoet
