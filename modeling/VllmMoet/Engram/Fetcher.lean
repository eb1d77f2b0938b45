import Mathlib.Data.Nat.Log
import Mathlib.Data.Finset.Card
import VllmMoet.Lib.Transition
import VllmMoet.Lib.Uring

/-!
# The Engram v2 row fetcher

`engram_v2.cpp`: one thread serves the row requests of the Engram layers from a row cache or
from the tables' file, and reads queued rows ahead into the cache.

* `LayerCfg`, `Cfg`: the tables and the sizes; a row is a value half and a scale half;
* `CacheSet`, `RowCache`: the set-associative cache with CLOCK replacement;
* `Entry`, `Slot`, `Job`: a distinct row being read, a bounce buffer with its read, and a
  request being served;
* `Fetcher`: the state, with the local variables of `begin_job` and `prefetch_step`;
* `Fetcher.tick`, `Fetcher.answer`: the next step of `poll_once`, and a submission with the
  kernel's answer. A step is one iteration of a loop of the source;
* `fetcherSystem`: these steps, the kernel's completions, and the calls of the other threads.

A request is read from its mailbox when it is begun: the publisher leaves it alone until it
is acknowledged. A vector is a list whose head is the vector's back where it is used as a
stack. The statistics, the timing and the CPU pinning are left out.
-/

namespace VllmMoet

namespace Engram

/-- `WAYS`. -/
def ways : ℕ := 8

/-- `SECTOR`. -/
def sector : ℕ := 512

/-- The two halves of a row. -/
inductive Half
  | values
  | scales
  deriving DecidableEq

/-- `ENGRAM_V2_ROW_VALUES` and `ENGRAM_V2_ROW_SCALES`. -/
def Half.size : Half → ℕ
  | .values => 256
  | .scales => 8

/-- The bytes of a row. -/
abbrev Row (B : Type*) := Half → List B

/-! ### The tables -/

/-- A layer's table: the file it is in, where its halves begin, the rank's rows, and whether
the rank's scales are resident. -/
structure LayerCfg (B : Type*) where
  file : ℕ → B
  valuesOff : ℕ
  scalesOff : ℕ
  vocabStart : ℕ
  vocabEnd : ℕ
  resident : Bool

namespace LayerCfg

variable {B : Type*} (L : LayerCfg B)

/-- Where the half of row `id` begins in the file. -/
def off (id : ℕ) : Half → ℕ
  | .values => L.valuesOff + id * Half.values.size
  | .scales => L.scalesOff + id * Half.scales.size

/-- The bytes of row `id` in the file. -/
def row (id : ℕ) : Row B := fun h => (List.range h.size).map fun j => L.file (L.off id h + j)

/-- Start of the smallest aligned window over a half of row `id`. -/
def windowStart (id : ℕ) (h : Half) : ℕ := L.off id h / sector * sector

/-- Length of this window. -/
def windowLen (id : ℕ) (h : Half) : ℕ :=
  (L.off id h + h.size + sector - 1) / sector * sector - L.windowStart id h

/-- The resident scales of the rank, as `engram_v2_create` reads them. -/
def scalesRes (j : ℕ) : B := L.file (L.scalesOff + L.vocabStart * Half.scales.size + j)

/-- The row's id is one of the rank's. -/
def InRange (id : ℤ) : Prop := L.vocabStart ≤ id ∧ id < L.vocabEnd

instance (id : ℤ) : Decidable (L.InRange id) := inferInstanceAs (Decidable (_ ∧ _))

end LayerCfg

/-- The row of an id that is not the rank's: zeros. -/
def zeroRow {B : Type*} [Zero B] : Row B := fun h => List.replicate h.size 0

/-- What a staging row must hold for an id. -/
def LayerCfg.expected {B : Type*} [Zero B] (L : LayerCfg B) (id : ℤ) : Row B :=
  if L.InRange id then L.row id.toNat else zeroRow

/-- The configuration of a fetcher. The ring has at least eight entries. -/
structure Cfg (B : Type*) where
  nLayers : ℕ
  layer : ℕ → LayerCfg B
  cacheBytes : ℤ
  nSlots : ℕ
  slotsLe : 8 ≤ nSlots
  maxRows : ℕ
  prefetchBatch : ℕ

/-! ### The row cache -/

section Cache

variable {B : Type*}

/-- One set: its ways' row ids (`none`: empty), reference bits and rows, and the clock hand. -/
structure CacheSet (B : Type*) where
  tag : ℕ → Option ℕ
  ref : ℕ → Bool
  data : ℕ → Row B
  hand : ℕ

/-- The sets, by index; without them nothing is cached. Its arena in memory, with tags and counted
shifts, is `EngramCache.RowCache`. -/
structure RowCache (B : Type*) where
  on : Bool
  shift : ℕ
  sets : ℕ → CacheSet B

/-- An empty set. -/
def CacheSet.empty : CacheSet B := ⟨fun _ => none, fun _ => false, fun _ _ => [], 0⟩

/-- `RowCache::init`: the largest power of two of sets that fits, at least one. -/
def RowCache.init (bytes : ℤ) (mapped : Bool) : RowCache B :=
  ⟨decide (0 < bytes) && mapped, 64 - Nat.log 2 (bytes / 2176).toNat, fun _ => .empty⟩

/-- The way that holds a row. -/
def CacheSet.find (S : CacheSet B) (t : Option ℕ) : Option ℕ :=
  (List.range ways).find? fun w => S.tag w == t

/-- Put a row into a way. -/
def CacheSet.put (S : CacheSet B) (w id : ℕ) (row : Row B) : CacheSet B :=
  { S with
    tag := Function.update S.tag w (some id)
    ref := Function.update S.ref w true
    data := Function.update S.data w row }

/-- The CLOCK loop: the first way without a reference bit, clearing the bits passed. -/
def CacheSet.clock : ℕ → CacheSet B → ℕ × CacheSet B
  | 0, S => (S.hand, { S with hand := (S.hand + 1) % ways })
  | fuel + 1, S =>
    let S' := { S with hand := (S.hand + 1) % ways }
    if S.ref S.hand then clock fuel { S' with ref := Function.update S.ref S.hand false }
    else (S.hand, S')

/-- The set after the insertion of a row: over the row's own way, an empty one, or the one the
clock finds; it goes round once at most before it comes to a cleared bit. -/
def CacheSet.insert (S : CacheSet B) (id : ℕ) (row : Row B) : CacheSet B :=
  match S.find (some id) with
  | some w => S.put w id row
  | none =>
    match S.find none with
    | some w => S.put w id row
    | none =>
      let c := S.clock ways
      c.2.put c.1 id row

namespace RowCache

variable (K : RowCache B)

/-- The set of a row. -/
def index (id : ℕ) : ℕ :=
  if 64 ≤ K.shift then 0
  else (id * 0x9E3779B97F4A7C15 % 0x10000000000000000) >>> K.shift

/-- Replace a set. -/
def setSet (i : ℕ) (S : CacheSet B) : RowCache B := { K with sets := Function.update K.sets i S }

/-- Look a row up. -/
def probe (id : ℕ) : Option (Row B × RowCache B) :=
  let S := K.sets (K.index id)
  if K.on then
    (S.find (some id)).map fun w =>
      (S.data w, K.setSet (K.index id) { S with ref := Function.update S.ref w true })
  else none

/-- Insert a row. -/
def insert (id : ℕ) (row : Row B) : RowCache B :=
  if K.on then K.setSet (K.index id) ((K.sets (K.index id)).insert id row) else K

end RowCache

end Cache

/-! ### The fetcher's records -/

/-- A request of a layer: its sequence number and the ids of its rows. -/
structure Request where
  step : ℕ
  nRows : ℕ
  ids : ℕ → ℤ

/-- What the fetcher tells the GPU of a request. -/
structure Ack where
  step : ℕ
  status : ℕ
  nHits : ℕ
  nMisses : ℕ
  nReads : ℕ
  nRows : ℕ

/-- One distinct row being read. `job` is the layer of the demand that waits for it. -/
structure Entry (B : Type*) where
  layer : ℕ
  id : ℕ
  row : Row B
  done : Half → Bool
  job : Option ℕ
  firstDst : Option ℕ
  extra : List ℕ
  failed : Bool

/-- An entry as `alloc_entry` hands it out. -/
def Entry.reset {B : Type*} (E : Entry B) : Entry B :=
  { E with
    done := fun _ => false
    job := none
    firstDst := none
    extra := []
    failed := false }

/-- A new entry. -/
def Entry.fresh {B : Type*} : Entry B := ⟨0, 0, fun _ => [], fun _ => false, none, none, [], false⟩

/-- The staging rows an entry is for. -/
def Entry.dsts {B : Type*} (E : Entry B) : List ℕ := E.firstDst.toList ++ E.extra

/-- A bounce buffer, and what the read in flight into it is for. -/
structure Slot (B : Type*) where
  buf : ℕ → B
  entry : ℕ
  half : Half
  windowOff : ℕ
  want : ℕ
  len : ℕ

/-- The slot is for the read of a half of entry `e`, row `id` of the table `L`. -/
def Slot.aim {B : Type*} (S : Slot B) (L : LayerCfg B) (e id : ℕ) (h : Half) : Slot B :=
  { S with
    entry := e
    half := h
    windowOff := L.off id h - L.windowStart id h
    want := h.size
    len := L.windowLen id h }

/-- One demand request being served, at most one a layer; `req` is the request as it stands
in the mailbox. -/
structure Job where
  req : Request
  seq : ℕ
  nRows : ℕ
  nHits : ℕ
  nMisses : ℕ
  nReads : ℕ
  remaining : ℤ
  failed : Bool
  status : ℕ
  active : Bool

/-- A read of the ring: the layer whose file is read, the window, and the slot. -/
structure Read where
  layer : ℕ
  start : ℕ
  len : ℕ
  ud : ℕ
  deriving DecidableEq

/-- Queued rows to read ahead, from the cursor on. -/
structure Prefetch where
  layer : ℕ
  ids : List ℤ

/-- Where `poll_once` stands. -/
inductive Pc
  /-- at layer `l`'s mailbox -/
  | scan (l : ℕ)
  /-- in `begin_job` of layer `l`, at row `i` -/
  | rows (l i : ℕ)
  /-- at the condition of the issue loop -/
  | more (l : ℕ)
  /-- at the issue of the next queued entry -/
  | issue (l : ℕ)
  /-- at the submission -/
  | submit (l : ℕ)
  /-- at the wait for a completion -/
  | wait (l : ℕ)
  /-- in `reap_all` of the issue loop -/
  | reapIn (l : ℕ)
  /-- at the release of the job's guard -/
  | release (l : ℕ)
  /-- after the mailboxes -/
  | check
  /-- in `reap_all` of `poll_once` -/
  | reap
  /-- in `prefetch_step`, before the batch is taken -/
  | prefetch
  /-- in `prefetch_step`, at the next row of the batch -/
  | prefetchRow
  /-- at the submission of `prefetch_step` -/
  | prefetchSubmit
  deriving DecidableEq

/-- The fetcher. `begun` and `acks` log the requests begun and the acknowledgements, layer by
layer; the last acknowledgement is what stands in the layer's mailbox. -/
structure Fetcher (B : Type*) where
  cache : ℕ → RowCache B
  expected : ℕ → ℕ
  mailbox : ℕ → Request
  staging : ℕ → ℕ → Row B
  ring : Uring Read
  slots : ℕ → Slot B
  freeSlots : List ℕ
  entries : ℕ → Entry B
  nEntries : ℕ
  freeEntries : List ℕ
  jobs : ℕ → Job
  pending : ℕ → ℕ → Option ℕ
  pfQueue : List Prefetch
  pc : Pc
  busy : Bool
  queued : List ℕ
  loc : ℕ → Option ℕ
  batch : List (ℕ × ℤ)
  issued : Bool
  begun : ℕ → List Request
  acks : ℕ → List Ack

namespace Fetcher

variable {B : Type*} (C : Cfg B) (F : Fetcher B)

/-- Replace an entry. -/
def setEntry (e : ℕ) (E : Entry B) : Fetcher B :=
  { F with entries := Function.update F.entries e E }

/-- Replace a job. -/
def setJob (l : ℕ) (J : Job) : Fetcher B := { F with jobs := Function.update F.jobs l J }

/-- Write a staging row. -/
def stage (l i : ℕ) (row : Row B) : Fetcher B :=
  { F with staging := Function.update F.staging l (Function.update (F.staging l) i row) }

/-- Replace a layer's cache. -/
def setCache (l : ℕ) (K : RowCache B) : Fetcher B :=
  { F with cache := Function.update F.cache l K }

/-- Set or erase the pending entry of a row. -/
def setPending (l id : ℕ) (e : Option ℕ) : Fetcher B :=
  { F with pending := Function.update F.pending l (Function.update (F.pending l) id e) }

/-- Go on at `pc`. -/
def goto (pc : Pc) : Fetcher B := { F with pc := pc }

/-- `alloc_entry`: the entry, and the fetcher after it. -/
def allocEntry : ℕ × Fetcher B :=
  match F.freeEntries with
  | [] => (F.nEntries, { F.setEntry F.nEntries .fresh with nEntries := F.nEntries + 1 })
  | e :: es => (e, { F.setEntry e (F.entries e).reset with freeEntries := es })

/-! ### Issuing the reads of an entry -/

/-- Prepare the read of one half of entry `e` into the next free slot. -/
def issueRead (e : ℕ) (h : Half) : Fetcher B :=
  match F.freeSlots with
  | [] => F
  | s :: ss =>
    let E := F.entries e
    let L := C.layer E.layer
    { F with
      freeSlots := ss
      slots := Function.update F.slots s ((F.slots s).aim L e E.id h)
      ring := F.ring.prepRead ⟨E.layer, L.windowStart E.id h, L.windowLen E.id h, s⟩ }

/-- `issue_entry`: the reads of entry `e`; `none` when there are too few free slots. Resident
scales are copied, and only the values are read. -/
def issueEntry (e : ℕ) : Option (Fetcher B) :=
  let E := F.entries e
  let L := C.layer E.layer
  if L.resident then
    if F.freeSlots.length < 1 then none
    else
      let scales := (List.range Half.scales.size).map fun j =>
        L.scalesRes ((E.id - L.vocabStart) * Half.scales.size + j)
      let E' := { E with
        row := Function.update E.row .scales scales
        done := Function.update E.done .scales true }
      some ((F.setEntry e E').issueRead C e .values)
  else if F.freeSlots.length < 2 then none
  else some ((F.issueRead C e .values).issueRead C e .scales)

/-! ### Completions -/

/-- `finish_job`. -/
def finishJob (l : ℕ) : Fetcher B :=
  let J := F.jobs l
  { F.setJob l { J with active := false } with
    acks := Function.update F.acks l (F.acks l ++
      [⟨J.seq, if J.failed then J.status else 0, J.nHits, J.nMisses, J.nReads, J.nRows⟩]) }

/-- Count one entry, or the guard, of a job down; the last one finishes the job. -/
def countDown (l : ℕ) : Fetcher B :=
  let J := F.jobs l
  let F' := F.setJob l { J with remaining := J.remaining - 1 }
  if J.remaining - 1 = 0 then F'.finishJob l else F'

/-- The entry's row goes to the staging rows of its job. -/
def deliver (e l : ℕ) : Fetcher B :=
  let E := F.entries e
  let J := F.jobs l
  let F' := if E.failed then F.setJob l { J with failed := true, status := 1 } else F
  (E.dsts.foldl (fun F i => F.stage E.layer i E.row) F').countDown l

/-- `complete_entry`. -/
def completeEntry (e : ℕ) : Fetcher B :=
  let E := F.entries e
  let F₁ := F.setPending E.layer E.id none
  let F₂ := if E.failed then F₁ else F₁.setCache E.layer ((F₁.cache E.layer).insert E.id E.row)
  let F₃ := match E.job with
    | some l => F₂.deliver e l
    | none => F₂
  { F₃ with freeEntries := e :: F₃.freeEntries }

/-- What the reaped read brings to its entry. -/
def landed (S : Slot B) (E : Entry B) (res : ℤ) : Entry B :=
  let bytes := (List.range S.want).map fun j => S.buf (S.windowOff + j)
  let E' := if res < 0 ∨ res < S.windowOff + S.want then { E with failed := true }
    else { E with row := Function.update E.row S.half bytes }
  { E' with done := Function.update E.done S.half true }

/-- One iteration of `reap_all`, for the completion `res` of read `r`. -/
def reapOne (r : Read) (res : ℤ) (cq : List (Read × ℤ)) : Fetcher B :=
  let S := F.slots r.ud
  let E := landed S (F.entries S.entry) res
  let F₁ := F.setEntry S.entry E
  let F₂ := match E.job with
    | some l => F₁.setJob l { F₁.jobs l with nReads := (F₁.jobs l).nReads + 1 }
    | none => F₁
  let F₃ := { F₂ with
    ring := { F₂.ring with cq := cq }
    freeSlots := r.ud :: F₂.freeSlots }
  if E.done .values && E.done .scales then F₃.completeEntry S.entry else F₃

/-- `reap_all`, one completion at a time; `done` is the fetcher after it. -/
def reapAll (done : Fetcher B) : Fetcher B :=
  match F.ring.cq with
  | [] => done
  | (r, res) :: cq => F.reapOne r res cq

/-! ### A request -/

/-- `begin_job`, before its row loop. -/
def beginJob (l : ℕ) : Fetcher B :=
  let req := F.mailbox l
  let big := decide (C.maxRows < req.nRows)
  { F.setJob l ⟨req, req.step, req.nRows, 0, 0, 0, 1, big, if big then 2 else 0, true⟩ with
    busy := true
    queued := []
    loc := fun _ => none
    begun := Function.update F.begun l (F.begun l ++ [req])
    pc := if big then .release l else .rows l 0 }

/-- A miss of row `i`: adopt the entry of a prefetch that is in flight, or queue a new one. -/
def miss (l i id : ℕ) : Fetcher B :=
  match F.pending l id with
  | some e =>
    let E := F.entries e
    if E.job = none then
      let F' := F.setEntry e { E with job := some l, firstDst := some i }
      { F'.setJob l { F'.jobs l with remaining := (F'.jobs l).remaining + 1 } with
        loc := Function.update F.loc id (some e) }
    else F.setEntry e { E with extra := E.extra ++ [i] }
  | none =>
    let e := F.allocEntry.1
    let F₁ := F.allocEntry.2
    let E := { F₁.entries e with layer := l, id := id, job := some l, firstDst := some i }
    let F₂ := (F₁.setEntry e E).setPending l id (some e)
    { F₂.setJob l { F₂.jobs l with remaining := (F₂.jobs l).remaining + 1 } with
      loc := Function.update F.loc id (some e)
      queued := F.queued ++ [e] }

/-- Row `i` of the request: zeros, a duplicate, a hit or a miss. -/
def row [Zero B] (l i : ℕ) : Fetcher B :=
  let J := F.jobs l
  let id := J.req.ids i
  if ¬ (C.layer l).InRange id then F.stage l i zeroRow
  else
    match F.loc id.toNat with
    | some e => F.setEntry e { F.entries e with extra := (F.entries e).extra ++ [i] }
    | none =>
      match (F.cache l).probe id.toNat with
      | some (row, K) =>
        ((F.setCache l K).stage l i row).setJob l { J with nHits := J.nHits + 1 }
      | none => (F.setJob l { J with nMisses := J.nMisses + 1 }).miss l i id.toNat

/-- The row loop. -/
def rowStep [Zero B] (l i : ℕ) : Fetcher B :=
  if i < (F.jobs l).nRows then (F.row C l i).goto (.rows l (i + 1)) else F.goto (.more l)

/-- The inner loop of the issue. -/
def issueStep (l : ℕ) : Fetcher B :=
  match F.queued with
  | [] => F.goto (.submit l)
  | e :: es =>
    match F.issueEntry C e with
    | none => F.goto (.submit l)
    | some F' => { F' with queued := es }

/-- After the submission: wait for slots, or be done. -/
def submitted (l : ℕ) : Fetcher B := F.goto (if F.queued = [] then .more l else .wait l)

/-- The release of the guard, and the end of the mailbox's turn. -/
def release (l : ℕ) : Fetcher B :=
  let F' := F.countDown l
  { F' with
    expected := Function.update F'.expected l (((F.jobs l).seq + 1) % 0x100000000)
    pc := .scan (l + 1) }

/-! ### `poll_once` -/

/-- The next iteration of the poll. -/
def newPoll : Fetcher B :=
  { F with
    pc := .scan 0
    busy := false }

/-- Layer `l`'s mailbox. -/
def scan (l : ℕ) : Fetcher B :=
  if l < C.nLayers then
    if (List.range l).any fun k => (F.jobs k).active then F.goto (.scan (l + 1))
    else
      let s := (F.mailbox l).step
      if s = F.expected l ∧ (F.jobs l).active = false then F.beginJob C l
      else if F.expected l < s ∧ s - F.expected l < 0x40000000 ∧ (F.jobs l).active = false then
        { F with
          expected := Function.update F.expected l s
          pc := .scan (l + 1) }
      else F.goto (.scan (l + 1))
  else F.goto .check

/-- The completions, or a prefetch batch when idle. -/
def check : Fetcher B :=
  if F.ring.cq ≠ [] then
    { F with
      busy := true
      pc := .reap }
  else if F.busy = false ∧ (List.range C.nLayers).all (fun l => !(F.jobs l).active) then
    F.goto .prefetch
  else F.newPoll

/-- The rows of the next batch of at most `room`, and the queue after it. -/
def takeBatch : ℕ → List Prefetch → List (ℕ × ℤ) × List Prefetch
  | _, [] => ([], [])
  | room, P :: Ps =>
    if room = 0 then ([], P :: Ps)
    else
      let taken := (P.ids.take room).map fun id => (P.layer, id)
      match P.ids.drop room with
      | [] =>
        let r := takeBatch (room - taken.length) Ps
        (taken ++ r.1, r.2)
      | ids => (taken, ⟨P.layer, ids⟩ :: Ps)

/-- `prefetch_step` up to its loop. -/
def prefetch : Fetcher B :=
  let room := min C.prefetchBatch (F.freeSlots.length / 2)
  if room = 0 then F.newPoll
  else
    let r := takeBatch room F.pfQueue
    if r.1 = [] then { F.newPoll with pfQueue := r.2 }
    else
      { F with
        pfQueue := r.2
        batch := r.1
        issued := false
        pc := .prefetchRow }

/-- A row to read ahead that is neither cached nor in flight. -/
def prefetchMiss (l id : ℕ) (rest : List (ℕ × ℤ)) : Fetcher B :=
  let e := F.allocEntry.1
  let F₀ := F.allocEntry.2
  let E := { F₀.entries e with layer := l, id := id, job := none }
  let F₁ := (F₀.setEntry e E).setPending l id (some e)
  match F₁.issueEntry C e with
  | none =>
    { F₁.setPending l id none with
      freeEntries := e :: F₁.freeEntries
      batch := [] }
  | some F₂ =>
    { F₂ with
      issued := true
      batch := rest }

/-- The loop of `prefetch_step`. -/
def prefetchRow : Fetcher B :=
  match F.batch with
  | [] => if F.issued then F.goto .prefetchSubmit else F.newPoll
  | (l, id) :: rest =>
    if ¬ (C.layer l).InRange id then { F with batch := rest }
    else
      match (F.cache l).probe id.toNat with
      | some (_, K) => { F.setCache l K with batch := rest }
      | none =>
        match F.pending l id.toNat with
        | some _ => { F with batch := rest }
        | none => F.prefetchMiss C l id.toNat rest

/-- The fetcher's next step, where it needs no answer from outside. -/
def tick [Zero B] : Option (Fetcher B) :=
  match F.pc with
  | .scan l => some (F.scan C l)
  | .rows l i => some (F.rowStep C l i)
  | .more l => some (F.goto (if F.queued = [] then .release l else .issue l))
  | .issue l => some (F.issueStep C l)
  | .submit l => if F.ring.sq = [] then some (F.submitted l) else none
  | .wait l => some (F.goto (.reapIn l))
  | .reapIn l => some (F.reapAll (F.goto (.more l)))
  | .release l => some (F.release l)
  | .check => some (F.check C)
  | .reap => some (F.reapAll F.newPoll)
  | .prefetch => some (F.prefetch C)
  | .prefetchRow => some (F.prefetchRow C)
  | .prefetchSubmit => none

/-- A submission that is answered by `a`. The error of the issue loop fails the job and
leaves the loop, with what is queued. -/
def answer (a : Answer) : Option (Fetcher B) :=
  (F.ring.submit a).bind fun R =>
    let F' := { F with ring := R }
    match F.pc with
    | .submit l =>
      if F.ring.sq = [] then none
      else if a = .error then
        some { F'.setJob l { F'.jobs l with failed := true, status := 1 } with
          queued := []
          pc := .release l }
      else some (F'.submitted l)
    | .prefetchSubmit => some F'.newPoll
    | _ => none

/-- The kernel completes the `i`-th submitted read with `res`: its first `res` bytes are in the
slot's buffer, whatever stands behind them. -/
def complete (i : ℕ) (res : ℤ) (garbage : ℕ → B) : Option (Fetcher B) :=
  F.ring.flying[i]?.bind fun r => (F.ring.complete i res).map fun R =>
    { F with
      ring := R
      slots := Function.update F.slots r.ud
        { F.slots r.ud with
          buf := fun j => if (j : ℤ) < res then (C.layer r.layer).file (r.start + j)
            else garbage j } }

end Fetcher

/-! ### The system -/

/-- The steps of the system. -/
inductive Act (B : Type*)
  /-- the fetcher goes on -/
  | tick
  /-- the fetcher's submission is answered -/
  | answer (a : Answer)
  /-- the `i`-th submitted read completes -/
  | complete (i : ℕ) (res : ℤ) (garbage : ℕ → B)
  /-- the GPU publishes a request of layer `l` -/
  | publish (l : ℕ) (req : Request)
  /-- `engram_v2_prefetch` -/
  | queuePrefetch (l : ℕ) (ids : List ℤ)
  /-- `engram_v2_prefetch_clear` -/
  | clearPrefetch
  /-- `engram_v2_stop` and `engram_v2_start` -/
  | restart (firstSeq : ℕ)

/-- One step of the system. -/
def Fetcher.step {B : Type*} [Zero B] (C : Cfg B) (F : Fetcher B) : Act B → Option (Fetcher B)
  | .tick => F.tick C
  | .answer a => F.answer a
  | .complete i res garbage => F.complete C i res garbage
  | .publish l req => some { F with mailbox := Function.update F.mailbox l req }
  | .queuePrefetch l ids =>
    if l < C.nLayers then
      some { F with pfQueue := F.pfQueue ++ if ids = [] then [] else [⟨l, ids⟩] }
    else none
  | .clearPrefetch => some { F with pfQueue := [] }
  | .restart firstSeq =>
    if F.pc = .scan 0 then
      some { F with expected := fun _ => firstSeq }
    else none

/-- A job that was never begun. -/
def Job.none : Job := ⟨⟨0, 0, fun _ => 0⟩, 0, 0, 0, 0, 0, 0, false, 0, false⟩

/-- A fetcher as `engram_v2_create` and `engram_v2_start` leave it. -/
structure Start {B : Type*} (C : Cfg B) (F : Fetcher B) : Prop where
  cache : ∀ l, ∃ mapped, F.cache l = RowCache.init (C.cacheBytes / C.nLayers) mapped
  ring : F.ring = ⟨[], [], []⟩
  freeSlots : F.freeSlots = List.range C.nSlots
  nEntries : F.nEntries = 0
  freeEntries : F.freeEntries = []
  jobs : ∀ l, F.jobs l = .none
  pending : ∀ l id, F.pending l id = none
  pfQueue : F.pfQueue = []
  pc : F.pc = .scan 0
  queued : F.queued = []
  logs : (∀ l, F.begun l = []) ∧ ∀ l, F.acks l = []

/-- Every run of a fetcher. -/
def fetcherSystem {B : Type*} [Zero B] (C : Cfg B) : TransitionSystem (Fetcher B) (Act B) :=
  .ofStep (Start C) (Fetcher.step C)

end Engram

end VllmMoet
