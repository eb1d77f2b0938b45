import VllmMoet.CpuTier.Serve
import VllmMoet.Lib.Transition

/-!
# The engine's calls, and the tier as a transition system

`cpu_tier_record_acquire` / `_release` and `cpu_tier_prefill_fetch` / `_release`, split into
their critical sections: a cold `acquire` and a `prefill_fetch` read the store file between
two steps. Any number of calls may be in progress at once.

Beside the tier the state remembers what the callers hold: the slots acquired, and for each
prefill round which of its experts were resident (pinned) when it was fetched. The code
does not see these; the release calls carry the position of the entry they give back, which
the code does not see either.

`Sys.step` is the whole system: a step of the dispatcher, a completion of the kernel, or a
section of an engine call.
-/

namespace VllmMoet

namespace CpuTier

/-- A record read or held: the pair it belongs to and its arena slot. -/
structure Held where
  layer : ℕ
  expert : ℕ
  slot : ℕ

/-- A prefill round: the call's arguments, and for each listed expert the slot pinned for it
(`none`: it was cold, and is read into the prefill arena). -/
structure Fetch where
  layer : ℕ
  experts : List ℤ
  taken : List (Option ℕ)

/-- The slots a prefill round pinned. -/
def Fetch.slots (f : Fetch) : List ℕ := f.taken.reduceOption

/-- The dispatcher, the calls in progress and what the callers hold. -/
structure Sys where
  disp : Dispatcher
  acquiring : List Held
  acquired : List Held
  fetching : List Fetch
  fetched : List Fetch
  leaked : List ℕ

/-- The steps of the system. -/
inductive Act
  /-- the dispatcher finds a request in layer `l`'s mailbox -/
  | serve (l seq : ℕ) (req : Request)
  /-- the dispatcher goes on -/
  | run
  /-- the dispatcher's kernel call returns `rc` -/
  | kernel (rc : ℤ)
  /-- the dispatcher's submission is answered -/
  | submit (a : Submitted)
  /-- the `i`-th submitted read completes -/
  | complete (i : ℕ) (res : ℤ)
  /-- `record_acquire`, up to the read of a cold record -/
  | acquire (layer expert : ℤ)
  /-- the `i`-th acquiring call's read ends, fully or not -/
  | acquireRead (i : ℕ) (ok : Bool)
  /-- `record_release`, giving back the `i`-th acquired record -/
  | release (layer expert : ℤ) (i : ℕ)
  /-- `prefill_fetch`, up to its reads -/
  | prefillFetch (layer : ℤ) (experts : List ℤ) (set : ℤ)
  /-- the reads of the `i`-th prefill round end, all fully or not -/
  | prefillRead (i : ℕ) (ok : Bool)
  /-- `prefill_release`, giving back the `i`-th fetched round -/
  | prefillRelease (layer : ℤ) (experts : List ℤ) (i : ℕ)

namespace Sys

variable (S : Sys)

/-- The tier. -/
abbrev tier : Tier := S.disp.tier

/-- Replace the tier. -/
def setTier (T : Tier) : Sys := { S with disp := { S.disp with tier := T } }

/-- `cpu_tier_record_acquire` up to the read: a resident record is pinned, a cold one gets
a spare slot to be read into. -/
def acquire (layer expert : ℤ) : Sys :=
  match checked layer S.tier.nLayers, checked expert S.tier.nExperts with
  | some l, some e =>
    if S.tier.tail.on then
      match (S.tier.layers l).slotOf e with
      | some s => { S.setTier (S.tier.pinUp s) with acquired := S.acquired ++ [⟨l, e, s⟩] }
      | none =>
        match (S.tier.layers l).cold e, S.tier.tail.freeSlots with
        | true, s :: fs =>
          { S.setTier (S.tier.setFree fs) with acquiring := S.acquiring ++ [⟨l, e, s⟩] }
        | _, _ => S
    else S
  | _, _ => S

/-- `cpu_tier_record_acquire` after the read: the slot of a short read is given back, the
record of a full one is inserted and pinned. -/
def acquireRead (i : ℕ) (ok : Bool) : Option Sys :=
  S.acquiring[i]?.map fun h =>
    let S' := { S with acquiring := S.acquiring.eraseIdx i }
    if ok then
      let T := lruInsert S.tier h.layer h.expert h.slot
      match (T.layers h.layer).slotOf h.expert with
      | none => S'.setTier T
      | some s₂ =>
        { S'.setTier (T.pinUp s₂) with acquired := S.acquired ++ [⟨h.layer, h.expert, s₂⟩] }
    else S'.setTier (S.tier.pushFree h.slot)

/-- `cpu_tier_record_release`. -/
def release (layer expert : ℤ) (i : ℕ) : Sys :=
  match checked layer S.tier.nLayers, checked expert S.tier.nExperts with
  | some l, some e =>
    if S.tier.tail.on then
      let T := match (S.tier.layers l).slotOf e with
        | some s => S.tier.pinDown s
        | none => S.tier
      { S.setTier (lruTrim T l) with acquired := S.acquired.eraseIdx i }
    else S
  | _, _ => S

/-- The locked loop of `cpu_tier_prefill_fetch`: pin the resident experts, note the cold
ones. The first component is `false` when an expert is out of range or not in the store
(the loop returns at once). -/
def pinExperts (T : Tier) (l : ℕ) : List ℤ → Bool × Tier × List (Option ℕ)
  | [] => (true, T, [])
  | x :: xs =>
    match checked x T.nExperts with
    | none => (false, T, [])
    | some e =>
      match (T.layers l).slotOf e with
      | some s =>
        let r := pinExperts (T.pinUp s) l xs
        (r.1, r.2.1, some s :: r.2.2)
      | none =>
        if (T.layers l).cold e then
          let r := pinExperts T l xs
          (r.1, r.2.1, none :: r.2.2)
        else (false, T, [])

/-- `cpu_tier_prefill_fetch` up to the reads. An error keeps the pins taken so far. -/
def prefillFetch (layer : ℤ) (experts : List ℤ) (set : ℤ) : Sys :=
  match checked layer S.tier.nLayers, checked set S.tier.tail.prefillSets with
  | some l, some _ =>
    if S.tier.tail.on ∧ S.tier.tail.prefillArena ∧
        experts.length ≤ S.tier.tail.prefillSetSlots then
      let r := pinExperts S.tier l experts
      if r.1 then
        { S.setTier r.2.1 with fetching := S.fetching ++ [⟨l, experts, r.2.2⟩] }
      else { S.setTier r.2.1 with leaked := S.leaked ++ r.2.2.reduceOption }
    else S
  | _, _ => S

/-- The reads of a prefill round end. A failed read makes the call return an error, with the
resident records still pinned; without a cold expert there is nothing to fail. -/
def prefillRead (i : ℕ) (ok : Bool) : Option Sys :=
  S.fetching[i]?.bind fun f =>
    let S' := { S with fetching := S.fetching.eraseIdx i }
    if ok then some { S' with fetched := S.fetched ++ [f] }
    else if none ∈ f.taken then some { S' with leaked := S.leaked ++ f.slots }
    else none

/-- The loop of `cpu_tier_prefill_release`: drop a pin of every listed expert that is
resident *now*. -/
def unpinExperts (T : Tier) (l : ℕ) : List ℤ → Tier
  | [] => T
  | x :: xs =>
    match checked x T.nExperts with
    | none => unpinExperts T l xs
    | some e =>
      match (T.layers l).slotOf e with
      | some s => unpinExperts (T.pinDown s) l xs
      | none => unpinExperts T l xs

/-- `cpu_tier_prefill_release`. -/
def prefillRelease (layer : ℤ) (experts : List ℤ) (i : ℕ) : Sys :=
  match checked layer S.tier.nLayers with
  | some l =>
    if S.tier.tail.on then
      { S.setTier (lruTrim (unpinExperts S.tier l experts) l) with
        fetched := S.fetched.eraseIdx i }
    else S
  | none => S

/-- One step of the system. -/
def step : Act → Option Sys
  | .serve l seq req => (S.disp.serve l seq req).map fun D => { S with disp := D }
  | .run => S.disp.run.map fun D => { S with disp := D }
  | .kernel rc => (S.disp.kernel rc).map fun D => { S with disp := D }
  | .submit a => (S.disp.submit a).map fun D => { S with disp := D }
  | .complete i res =>
    (S.disp.ring.complete i res).map fun R => { S with disp := { S.disp with ring := R } }
  | .acquire layer expert => some (S.acquire layer expert)
  | .acquireRead i ok => S.acquireRead i ok
  | .release layer expert i => some (S.release layer expert i)
  | .prefillFetch layer experts set => some (S.prefillFetch layer experts set)
  | .prefillRead i ok => S.prefillRead i ok
  | .prefillRelease layer experts i => some (S.prefillRelease layer experts i)

end Sys

/-- The system as the tier is started: `T` is a tier set up by `beforeAdopt` whose adopted
records are distinct arena records, and the ring is empty. -/
structure Start (S : Sys) : Prop where
  tier : ∃ T nLayers nExperts records arena nSlots perLayer qd prefillArena prefillSets
      prefillSetSlots cold,
    beforeAdopt nLayers nExperts records arena nSlots perLayer qd prefillArena prefillSets
      prefillSetSlots cold = some T ∧ DistinctArena T ∧ S.disp.tier = storeTailAdopt T
  ring : S.disp.ring.sq = [] ∧ S.disp.ring.flying = [] ∧ S.disp.ring.cq = []
  pc : S.disp.pc = .idle
  pinned : S.disp.frame.pinned = []
  calls : S.acquiring = [] ∧ S.acquired = [] ∧ S.fetching = [] ∧ S.fetched = [] ∧ S.leaked = []

/-- Every run of a tier with the store tail on. -/
def tierSystem : TransitionSystem Sys Act := .ofStep Start Sys.step

end CpuTier

end VllmMoet
