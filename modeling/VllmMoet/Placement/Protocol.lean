import VllmMoet.Lib.Stream
import VllmMoet.Lib.Transition
import VllmMoet.Placement.Plan

/-!
# The promotion protocol

The placement manager's calls around a step, and the two streams they order:

* `beforeLaunch`: the main stream waits for the unmaps of the last `after_launch` and for
  the maps of the ones before the previous `before_launch`;
* `launch`: a step, whose publishes read the slot table once per pair, and which is done
  with the slots it read at its end;
* `afterLaunch`: plans the promotions of the misses and enqueues them on the copy stream
  behind the step: every victim unmapped, then `U`; each record copied, repacked into its
  slot and mapped; then `M`.

The runner wraps every live step in `before_launch` and `after_launch`, so a step is
launched only after a `before_launch` with no `after_launch` since (`ready`).

A repack is two commands, for it is not done at once: from its begin to its end the row
holds no record. An `after_launch` that raises in `table_write` (more than 64 victims in a
layer) takes the worker down and is no step.
-/

namespace VllmMoet

namespace Placement

/-- The CUDA events of the `k`-th `after_launch` that schedules promotions. -/
inductive Event
  /-- on the main stream, behind the step -/
  | done (k : ℕ)
  /-- `U`: the victims are unmapped -/
  | unmap (k : ℕ)
  /-- `M`: the promoted experts are mapped -/
  | map (k : ℕ)
  deriving DecidableEq

/-- The call an event belongs to. -/
def Event.call : Event → ℕ
  | .done k | .unmap k | .map k => k

/-- The device memory the copy stream writes. -/
structure Memory where
  /-- the slot table of each layer -/
  table : ℕ → ℕ → Option ℕ
  /-- the record a row of a layer's pool holds: expert and slice, `none` if it is torn -/
  rows : ℕ → ℕ → Option (ℕ × ℕ)
  /-- the record in a layer's staging buffer -/
  staging : ℕ → Option (ℕ × ℕ)

/-- What a thread or a copy of the copy stream does. -/
inductive CopyOp
  /-- `slot_table[e] = -1` -/
  | unmap (l e : ℕ)
  /-- the record of slice `v` of `e` into the staging buffer -/
  | h2d (l e v : ℕ)
  /-- the repack of the staging buffer into a row begins -/
  | repackBegin (l row : ℕ)
  /-- the repack is done -/
  | repackEnd (l row : ℕ)
  /-- `slot_table[e] = s` -/
  | map (l e s : ℕ)
  deriving DecidableEq

/-- Write one entry of a layer's array. -/
def update₂ {α : Type*} (f : ℕ → ℕ → α) (l i : ℕ) (a : α) : ℕ → ℕ → α :=
  Function.update f l (Function.update (f l) i a)

theorem update₂_apply {α : Type*} (f : ℕ → ℕ → α) (l i : ℕ) (a : α) (l' i' : ℕ) :
    update₂ f l i a l' i' = if l' = l ∧ i' = i then a else f l' i' := by
  simp only [update₂, Function.update_apply]
  by_cases hl : l' = l
  · subst hl; simp [Function.update_apply]
  · simp [hl]

/-- A thread or a copy of the copy stream. -/
def CopyOp.run : CopyOp → Memory → Memory
  | .unmap l e, m => { m with table := update₂ m.table l e none }
  | .h2d l e v, m => { m with staging := Function.update m.staging l (some (e, v)) }
  | .repackBegin l row, m => { m with rows := update₂ m.rows l row none }
  | .repackEnd l row, m => { m with rows := update₂ m.rows l row (m.staging l) }
  | .map l e s, m => { m with table := update₂ m.table l e (some s) }

/-- What a thread of the main stream does. -/
inductive MainOp
  /-- a pair's read of the slot table, in `publish` -/
  | read (l e : ℕ)
  /-- the end of the step: its last read of the slots is done -/
  | finish
  deriving DecidableEq

/-- A thread of the main stream. The step holds on to the slots it has read from the table
(layer, expert, slot), until it ends. -/
def MainOp.run (m : Memory) : MainOp → List (ℕ × ℕ × ℕ) → List (ℕ × ℕ × ℕ)
  | .read l e, reading => match m.table l e with
    | some s => (l, e, s) :: reading
    | none => reading
  | .finish, _ => []

/-! ### The commands of a call -/

section Commands

variable (cfg : Config)

/-- Phase 1 of `after_launch` for a layer: `table_write` for all victims at once, or one
write for each. -/
def unmapCmds (l : ℕ) (out : List Promotion) : List (Cmd CopyOp Event) :=
  if cfg.batched then
    if victims out = [] then [] else [.kernel ((victims out).map (.unmap l))]
  else (victims out).map fun v => .kernel [.unmap l v]

/-- One slice of a promotion: the record into the staging buffer, then into its row. -/
def repackCmds (l e s v : ℕ) : List (Cmd CopyOp Event) :=
  [.kernel [.h2d l e v], .kernel [.repackBegin l (s * cfg.V + v)],
    .kernel [.repackEnd l (s * cfg.V + v)]]

/-- `promote_batch` / `promote_batch_v` for one expert: its slices, then its table entry. -/
def promoteCmds (l : ℕ) (p : Promotion) : List (Cmd CopyOp Event) :=
  (List.range cfg.V).flatMap (repackCmds cfg l p.expert p.slot) ++
    [.kernel [.map l p.expert p.slot]]

/-- What the `k`-th call enqueues on the copy stream. -/
def copyCmds (k : ℕ) (plans : List (ℕ × List Promotion)) : List (Cmd CopyOp Event) :=
  .wait (.done k) :: ((plans.flatMap fun p => unmapCmds cfg p.1 p.2) ++
    .record (.unmap k) :: ((plans.flatMap fun p => p.2.flatMap (promoteCmds cfg p.1)) ++
      [.record (.map k)]))

/-- A publish of layer `l`: each pair with an expert reads the slot table. -/
def publishCmd (l : ℕ) (ids : List ℤ) : Cmd MainOp Event :=
  .kernel ((ids.filter (0 ≤ ·)).map fun i => .read l i.toNat)

end Commands

/-- The host, the streams and the device memory. -/
structure Sys where
  pools : ℕ → ResidentPool
  lastMiss : ℕ → ℕ → ℤ
  unmapEvents : List Event
  mapEventsLast : List Event
  mapEventsPrev : List Event
  acquiredLast : List Pin
  acquiredPrev : List Pin
  /-- the pins passed to `record_release` so far -/
  released : List Pin
  /-- the calls that have scheduled promotions -/
  calls : ℕ
  /-- there was a `before_launch` since the last `after_launch` -/
  ready : Bool
  main : List (Cmd MainOp Event)
  copy : List (Cmd CopyOp Event)
  /-- the completed events -/
  done : List Event
  mem : Memory
  /-- the slots the running step has read from the table -/
  reading : List (ℕ × ℕ × ℕ)

/-- The steps of the system: the manager's calls, a step's launch, and the two streams. -/
inductive Act
  | beforeLaunch
  | launch (pubs : List (ℕ × List ℤ))
  | noteUses (uses : List (ℤ × ℕ × List ℤ))
  | afterLaunch (misses : List Miss) (avail : ℕ → ℕ → ℕ → Bool)
  /-- thread `i` of the main stream -/
  | main (i : ℕ)
  /-- thread `i` of the copy stream -/
  | copy (i : ℕ)

namespace Sys

variable (cfg : Config) (S : Sys)

/-- `before_launch`. With the store tail it blocks until the copies whose pins it drops are
done. -/
def beforeLaunch : Option Sys :=
  if cfg.tail ∧ S.acquiredPrev ≠ [] ∧ ∃ e ∈ S.mapEventsPrev, e ∉ S.done then none
  else
    some { S with
      main := S.main ++ (S.mapEventsPrev ++ S.unmapEvents).map .wait
      released := if cfg.tail then S.released ++ S.acquiredPrev else S.released
      mapEventsPrev := S.mapEventsLast
      mapEventsLast := []
      acquiredPrev := if cfg.tail then S.acquiredLast else S.acquiredPrev
      acquiredLast := if cfg.tail then [] else S.acquiredLast
      unmapEvents := []
      ready := true }

/-- A live step is launched: its publishes, in order, and its end. Dummy and profile runs go past the
manager's hooks, and are no steps of this system. -/
def launch (pubs : List (ℕ × List ℤ)) : Option Sys :=
  if S.ready then
    some { S with
      main := S.main ++ (pubs.map fun p => publishCmd p.1 p.2) ++ [.kernel [.finish]] }
  else none

/-- `note_uses`: the use log (step, layer, ids) of the steps. -/
def noteUses (uses : List (ℤ × ℕ × List ℤ)) : Sys :=
  { S with
    pools := uses.foldl (fun pools u =>
      Function.update pools u.2.1 ((pools u.2.1).noteUse u.2.2 u.1)) S.pools }

/-- The host side of `after_launch`: `plan`. -/
def planned (misses : List Miss) (avail : ℕ → ℕ → ℕ → Bool) : Sys :=
  { S with
    pools := plannedPools cfg avail misses S.lastMiss S.pools
    lastMiss := nextLastMiss cfg misses S.lastMiss
    acquiredLast := S.acquiredLast ++ plannedPins cfg avail misses S.lastMiss S.pools
    released := S.released ++ abandonedPins cfg avail misses S.lastMiss S.pools
    ready := false }

/-- The device side of `after_launch`: the promotions are enqueued behind the step. -/
def schedule (plans : List (ℕ × List Promotion)) : Sys :=
  { S with
    main := S.main ++ [.record (.done S.calls)]
    copy := S.copy ++ copyCmds cfg S.calls plans
    unmapEvents :=
      S.unmapEvents ++ .unmap S.calls :: if cfg.promoteSync then [.map S.calls] else []
    mapEventsLast := S.mapEventsLast ++ [.map S.calls]
    calls := S.calls + 1 }

/-- `after_launch`. -/
def afterLaunch (misses : List Miss) (avail : ℕ → ℕ → ℕ → Bool) : Option Sys :=
  let plans := plan cfg avail misses S.lastMiss S.pools
  if cfg.batched ∧ ∃ p ∈ plans, 64 < (victims p.2).length then none
  else if plans = [] then some (S.planned cfg misses avail)
  else some ((S.planned cfg misses avail).schedule cfg plans)

/-- A step of the main stream. -/
def mainStep (i : ℕ) : Option Sys :=
  (Cmd.step (MainOp.run S.mem) S.done S.reading S.main i).map fun r =>
    { S with reading := r.1, done := r.2.1, main := r.2.2 }

/-- A step of the copy stream. -/
def copyStep (i : ℕ) : Option Sys :=
  (Cmd.step CopyOp.run S.done S.mem S.copy i).map fun r =>
    { S with mem := r.1, done := r.2.1, copy := r.2.2 }

/-- One step of the system. -/
def step (S : Sys) : Act → Option Sys
  | .beforeLaunch => S.beforeLaunch cfg
  | .launch pubs => S.launch pubs
  | .noteUses uses => some (S.noteUses uses)
  | .afterLaunch misses avail => S.afterLaunch cfg misses avail
  | .main i => S.mainStep i
  | .copy i => S.copyStep i

end Sys

/-- Every mapped expert's slot holds its complete record. -/
def Complete (V : ℕ) (m : Memory) : Prop :=
  ∀ l e s, m.table l e = some s → ∀ v < V, m.rows l (s * V + v) = some (e, v)

/-- The system after `fill_initial`: each layer's residents, all different, are in their
slots, complete, and both streams are idle. -/
structure Start (cfg : Config) (S : Sys) : Prop where
  filled : ∀ l, ∃ E R evictable residents, residents.Nodup ∧ residents.length ≤ R ∧
    S.pools l = (ResidentPool.empty E R evictable).fillFrom 0 residents
  table : S.mem.table = fun l => (S.pools l).slotOfExpert
  complete : Complete cfg.V S.mem
  events : S.unmapEvents = [] ∧ S.mapEventsLast = [] ∧ S.mapEventsPrev = [] ∧ S.done = []
  pins : S.acquiredLast = [] ∧ S.acquiredPrev = [] ∧ S.released = []
  calls : S.calls = 0
  ready : S.ready = true
  streams : S.main = [] ∧ S.copy = [] ∧ S.reading = []

/-- Every run of the promotion protocol. -/
def protocolSystem (cfg : Config) : TransitionSystem Sys Act := .ofStep (Start cfg) (Sys.step cfg)

end Placement

end VllmMoet
