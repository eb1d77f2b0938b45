import Mathlib.Data.List.Sort
import VllmMoet.Lib.SlotMap
import VllmMoet.Lib.Transition

/-!
# The RAM arena over a pack file

A pack file holds the row of every (layer, expert) pair at a fixed offset. A `Store` keeps some
of these rows in the slots of an arena: `free` is the stack of unused slots, `owner` the pair
of a slot, `pos` the slot of a pair, `last` the clock of the last call that used a slot. Rows
that find no slot are read into the `stage`, which every call overwrites.

`rowsFor` answers a batch of pairs in three passes: hits, placement of the misses (`placeOne`,
one miss after the other), and the reads. Only when every read has succeeded are the new
positions published. `preheat` fills an empty arena from the list of pairs that the previous
run left in the heat file.

How the reads of a call go is an input (`ReadResult`): any of them may raise, and what a read
that raises leaves behind in its buffer is arbitrary.
-/

namespace VllmMoet.Pack

/-- A layer and an expert. -/
abbrev Pair := ℕ × ℕ

/-- The bytes of a buffer or of a part of the file. -/
abbrev Bytes := List UInt8

/-- Rows start at multiples of this. -/
def align : ℕ := 4096

/-- What is fixed when a store is built, and the pack file, which is only read from then on.
`present` are the layers its sidecar lists. -/
structure Config where
  nLayers : ℕ
  nExperts : ℕ
  slotBytes : ℕ
  ramBytes : ℕ
  present : ℕ → Bool
  direct : Bool
  scanEnabled : Bool
  file : ℕ → UInt8

namespace Config

variable (cfg : Config)

/-- The bytes of a slot, padded to whole pages. -/
def stride : ℕ :=
  (cfg.slotBytes + align - 1) / align * align

/-- The slots of the arena, sixteen at least. -/
def nArena : ℕ :=
  max (cfg.ramBytes / cfg.stride) 16

/-- The size of the pack file. -/
def size : ℕ :=
  cfg.nLayers * cfg.nExperts * cfg.stride

/-- Where the row of a pair starts. -/
def offset (p : Pair) : ℕ :=
  (p.1 * cfg.nExperts + p.2) * cfg.stride

/-- `len` bytes of the file. -/
def bytes (off len : ℕ) : Bytes :=
  (List.range len).map fun j => cfg.file (off + j)

/-- The row of a pair in the pack file. -/
def row (p : Pair) : Bytes :=
  cfg.bytes (cfg.offset p) cfg.slotBytes

/-- How much a read into an arena slot asks for: whole pages without the page cache. -/
def want : ℕ :=
  if cfg.direct then cfg.stride else cfg.slotBytes

end Config

/-- How the read of a row goes: every `preadv` makes progress as long as there are bytes in the
file, or one raises, with some bytes left behind in the buffer. -/
inductive ReadResult
  | ok
  | fails (left : Bytes)
  deriving DecidableEq, Repr

/-- A read writes the front of a buffer. -/
def overwrite (buf new : Bytes) : Bytes :=
  new ++ buf.drop new.length

section Reads

variable (cfg : Config) (want : ℕ)

/-- Read `want` bytes at `off` into one of the buffers; a file that ends early is an error. -/
def readRow (bufs : ℕ → Bytes) (slot off : ℕ) (r : ReadResult) : Bool × (ℕ → Bytes) :=
  match r with
  | .fails left => (false, Function.update bufs slot left)
  | .ok => (decide (off + want ≤ cfg.size), Function.update bufs slot
      (overwrite (bufs slot) (cfg.bytes off (min want (cfg.size - off)))))

/-- Read into one buffer after the other; `stop` says whether the first failure ends it. -/
def readSome (stop : Bool) : (ℕ → Bytes) → List ((ℕ × ℕ) × ReadResult) → Bool × (ℕ → Bytes)
  | bufs, [] => (true, bufs)
  | bufs, ((slot, off), r) :: rest =>
    let (ok, bufs) := readRow cfg want bufs slot off r
    if stop && !ok then (false, bufs)
    else
      let (oks, bufs) := readSome stop bufs rest
      (ok && oks, bufs)

/-- Up to two rows are read one after the other; more are read in parallel, and all of these
reads end before the first failure is raised. -/
def readMany (bufs : ℕ → Bytes) (fills : List (ℕ × ℕ)) (res : ℕ → ReadResult) :
    Bool × (ℕ → Bytes) :=
  readSome cfg want (decide (fills.length ≤ 2)) bufs
    (fills.zipIdx.map fun e => (e.1, res e.2))

end Reads

/-- The state of a store. The free slots stand in the order in which they are popped; a slot
without an owner and a pair without a slot are `none`. -/
structure Store where
  free : List ℕ
  owner : ℕ → Option Pair
  pos : Pair → Option ℕ
  last : ℕ → ℕ
  clock : ℕ
  arena : ℕ → Bytes
  stage : ℕ → Bytes

namespace Store

variable (cfg : Config) (st : Store)

/-- Every slot is free, the highest one is popped first; the buffers hold anything. -/
def init (arena stage : ℕ → Bytes) : Store where
  free := (List.range cfg.nArena).reverse
  owner _ := none
  pos _ := none
  last _ := 0
  clock := 0
  arena := arena
  stage := stage

/-- The bookkeeping of a store. -/
def book : SlotMap Pair :=
  ⟨st.free, st.owner, st.pos⟩

/-- The slots coldest first, without those of the current batch. -/
def evictOrder (busy : List ℕ) : List ℕ :=
  ((List.range cfg.nArena).insertionSort fun s r => st.last s ≤ st.last r).filter
    fun s => !busy.contains s

end Store

/-! ### Placing the misses of a batch -/

/-- Where a call stands while it places its misses. `evictOrder` is what is left of the order
of eviction once it was needed, `placed` the slots taken so far with the pairs they are for,
`out` the slots that answer the batch; `overflow` are the requests that found no slot. A
request is a pair with its place in the batch. -/
structure Placing where
  store : Store
  busy : List ℕ
  out : ℕ → Option ℕ
  evictOrder : Option (List ℕ)
  placed : List (Pair × ℕ)
  overflow : List (Pair × ℕ)

namespace Placing

/-- The slot that a pair of this batch was given earlier. -/
def pending (a : Placing) (p : Pair) : Option ℕ :=
  (a.placed.find? fun e => decide (e.1 = p)).map Prod.snd

/-- Answer a request from a slot. -/
def answer (a : Placing) (req : Pair × ℕ) (s : ℕ) : Placing :=
  { a with out := Function.update a.out req.2 (some s), busy := s :: a.busy }

/-- Take a slot for a request: what was there is invalid from now on, and the new pair is not
published yet. -/
def take (a : Placing) (req : Pair × ℕ) (s : ℕ) : Placing :=
  { a.answer req s with
    store := { a.store with
      owner := Function.update a.store.owner s none
      last := Function.update a.store.last s a.store.clock }
    placed := a.placed ++ [(req.1, s)] }

/-- The owner of a slot loses it. -/
def evict (a : Placing) (s : ℕ) : Placing :=
  { a with store := { a.store with pos := (a.store.book.evict [s]).place } }

end Placing

/-- The first pass: the hits are answered and noted; the misses are left. -/
def firstPass (st : Store) (pairs : List Pair) : Placing where
  store := { st with
    last := fun s => if (pairs.filterMap st.pos).contains s then st.clock else st.last s }
  busy := pairs.filterMap st.pos
  out i := pairs[i]?.bind st.pos
  evictOrder := none
  placed := []
  overflow := []

/-- A miss is answered by a slot that holds or will hold its pair, else it takes a free slot,
else it evicts the coldest slot that the batch does not use, unless the batch is a scan. -/
def placeOne (cfg : Config) (scan : Bool) (a : Placing) (req : Pair × ℕ) : Placing :=
  match a.store.pos req.1 with
  | some s => a.answer req s
  | none =>
    match a.pending req.1 with
    | some s => a.answer req s
    | none =>
      match a.store.free with
      | s :: free => { a with store := { a.store with free := free } }.take req s
      | [] =>
        if scan then { a with overflow := a.overflow ++ [req] }
        else
          match (a.evictOrder.getD (a.store.evictOrder cfg a.busy)).dropWhile
              fun s => a.busy.contains s with
          | [] => { a with evictOrder := some [], overflow := a.overflow ++ [req] }
          | s :: rest => ({ a with evictOrder := some rest }.evict s).take req s

/-- The misses of a batch. -/
def misses (st : Store) (pairs : List Pair) : List (Pair × ℕ) :=
  pairs.zipIdx.filter fun req => (st.pos req.1).isNone

/-- The first two passes over a batch. -/
def placeBatch (cfg : Config) (scan : Bool) (st : Store) (pairs : List Pair) : Placing :=
  (misses st pairs).foldl (placeOne cfg scan) (firstPass st pairs)

/-! ### The calls -/

/-- A row as the caller gets it: a view of an arena slot or of the stage. -/
inductive View
  | arena (slot : ℕ)
  | stage (row : ℕ)
  deriving DecidableEq, Repr

/-- The bytes a view shows. -/
def Store.look (cfg : Config) (st : Store) : View → Bytes
  | .arena s => (st.arena s).take cfg.slotBytes
  | .stage j => (st.stage j).take cfg.slotBytes

/-- The new pairs are published. -/
def Store.publish (st : Store) (placed : List (Pair × ℕ)) : Store :=
  { st with
    owner := (st.book.assign placed).owner
    pos := (st.book.assign placed).place }

/-- The slots that were taken are given back: their bytes cannot be trusted. -/
def Store.abandon (st : Store) (placed : List (Pair × ℕ)) : Store :=
  placed.foldl (fun st e => { st with
    owner := Function.update st.owner e.2 none
    last := Function.update st.last e.2 0
    free := e.2 :: st.free }) st

/-- The view that answers the `i`-th pair of a batch. -/
def Placing.view (a : Placing) (i : ℕ) : View :=
  match a.out i with
  | some s => .arena s
  | none => .stage ((a.overflow.map Prod.snd).idxOf i)

/-- `rows_for`: the views of the rows, or `none` when a read raised. The rows that found no
slot are read into the stage once the others have been read. -/
def rowsFor (cfg : Config) (st : Store) (pairs : List Pair) (scan : Bool)
    (res stageRes : ℕ → ReadResult) : Option (List View) × Store :=
  let a := placeBatch cfg (scan && cfg.scanEnabled) { st with clock := st.clock + 1 } pairs
  let (ok, arena) := readMany cfg cfg.want a.store.arena
    (a.placed.map fun e => (e.2, cfg.offset e.1)) res
  let (stageOk, stage) := if ok then
      readMany cfg cfg.slotBytes a.store.stage
        (a.overflow.zipIdx.map fun e => (e.2, cfg.offset e.1.1)) stageRes
    else (false, a.store.stage)
  let after := { a.store with arena := arena, stage := stage }
  if stageOk then (some ((List.range pairs.length).map a.view), after.publish a.placed)
  else (none, after.abandon a.placed)

/-- What the heat file says: it cannot be read, it is not what was written there, or it holds
a list of pairs, hot ones first. -/
inductive Heat
  | unreadable
  | malformed
  | keys (l : List (ℤ × ℤ))
  deriving DecidableEq, Repr

/-- A listed layer and the number of an expert. -/
def heatValid (cfg : Config) (k : ℤ × ℤ) : Bool :=
  decide (0 ≤ k.1) && cfg.present k.1.toNat && decide (0 ≤ k.2) &&
    decide (k.2 < (cfg.nExperts : ℤ))

/-- The pairs worth reading, each at its first place in the list. -/
def heatKeys (cfg : Config) (l : List (ℤ × ℤ)) : List Pair :=
  (((l.reverse.dedup.reverse).filter (heatValid cfg)).map fun k =>
    (k.1.toNat, k.2.toNat)).take cfg.nArena

/-- `_preheat`: the arena is filled from its bottom; a failure leaves it empty. -/
def preheat (cfg : Config) (st : Store) (heat : Heat) (res : ℕ → ReadResult) : Store :=
  match heat with
  | .unreadable => st
  | .malformed => st
  | .keys l =>
    let keys := heatKeys cfg l
    if keys = [] then st
    else
      let (ok, arena) := readMany cfg cfg.want st.arena
        (keys.zipIdx.map fun e => (e.2, cfg.offset e.1)) res
      let after := { st with arena := arena }
      if ok then
        { after.publish keys.zipIdx with
          last := scatter st.last (keys.zipIdx.map fun e => (e.2, keys.length - e.2))
          free := (List.range' keys.length (cfg.nArena - keys.length)).reverse
          clock := keys.length + 1 }
      else Store.init cfg arena st.stage

/-- A call on the store, with how its reads go. -/
inductive Call
  | preheat (heat : Heat) (res : ℕ → ReadResult)
  | rowsFor (pairs : List Pair) (scan : Bool) (res stageRes : ℕ → ReadResult)

/-- The store after a call. -/
def Store.after (cfg : Config) (st : Store) : Call → Store
  | .preheat heat res => preheat cfg st heat res
  | .rowsFor pairs scan res stageRes => (rowsFor cfg st pairs scan res stageRes).2

/-- A store whose arena and stage hold anything. -/
def NewStore (cfg : Config) (st : Store) : Prop :=
  ∃ arena stage, st = Store.init cfg arena stage

/-- Sequences of calls on a new store. -/
def tieredSystem (cfg : Config) : TransitionSystem Store Call :=
  .ofStep (NewStore cfg) fun st call => some (st.after cfg call)

end VllmMoet.Pack
