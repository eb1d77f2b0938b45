import Mathlib.Data.List.ProdSigma
import VllmMoet.Lib.SlotMap
import VllmMoet.Lib.TopK

/-!
# The expert pool of a residency tier

A `Tier` keeps some (layer, expert) pairs resident in the slots of a GPU pool. `free` is the
stack of unused slots; `owner` says which pair a slot was reserved for; `mirror` is the host's
copy of `slotTable`, the table that the kernels dispatch through. Slots and tables change in
one critical section (the tier's lock) of an operation, so an operation is a function from
tier to tier here; `ensure_resident`, which drops the lock in its middle, is two.

Every fetching operation takes its slots with `takeSlotsBatch`, free ones first and then by
evicting, reads the rows of its pairs from the host store and copies them into the pool. A
`Fault` is how the outside makes that fail: the read of the rows raises, or the copy does
after some of the rows. What the caller of the operation sees is an `Outcome`.

The routing counts an operation looks at, and the residency of the tier that is coupled to
this one, are inputs (`View`): other threads write them without this tier's lock.
-/

namespace VllmMoet.Delta

/-- A routed expert: its layer and its index. -/
abbrev Pair := ℕ × ℕ

/-- What makes a resident expert worth keeping. -/
inductive Policy
  | need
  | freq
  | lru
  deriving DecidableEq, Repr

/-- What is fixed when a tier is built. `inStore` are the layers the host store holds,
`base` says that this is the base cache and not a quality tier. -/
structure Config where
  nSlots : ℕ
  nLayers : ℕ
  nExperts : ℕ
  inStore : ℕ → Bool
  policy : Policy
  base : Bool
  promotePerTick : ℕ
  promoHyst : ℚ

/-- The residency state of a tier. The free slots stand in the order in which they are
popped; a slot without an owner and a pair without a slot (`-1` in the code) are `none`;
`pool` is the pair whose row a slot holds. -/
structure Tier where
  free : List ℕ
  slotTable : Pair → Option ℕ
  mirror : Pair → Option ℕ
  owner : ℕ → Option Pair
  ownerTick : ℕ → ℕ
  stepPin : ℕ → Bool
  layerPin : ℕ → Bool
  freq : Pair → ℚ
  need : Pair → ℚ
  tick : ℕ
  pool : ℕ → Option Pair
  frozen : Bool

/-- What an operation reads beside the tier: the host snapshot of the routing counts and the
pairs that are resident in the coupled FP4 tier. -/
structure View where
  seenHost : Pair → ℕ
  coupled : Pair → Bool

/-- How a fetch fails: the store cannot read the rows, or a copy raises after `done` rows. -/
inductive Fault
  | read
  | copy (done : ℕ)
  deriving DecidableEq, Repr

/-- How an operation ends: it returns how many pairs it promoted, or it raises. -/
inductive Outcome
  | returned (promoted : ℕ)
  | raised
  deriving DecidableEq, Repr

namespace Tier

/-- A new tier: every slot is free, the highest one is popped first. -/
def init (cfg : Config) : Tier where
  free := (List.range cfg.nSlots).reverse
  slotTable _ := none
  mirror _ := none
  owner _ := none
  ownerTick _ := 0
  stepPin _ := false
  layerPin _ := false
  freq _ := 0
  need _ := 0
  tick := 0
  pool _ := none
  frozen := false

/-- The owner of a slot, read with the layer and the expert clamped to `0`. -/
def clampedOwner (t : Tier) (s : ℕ) : Pair :=
  (t.owner s).getD (0, 0)

/-- The value of a slot under the eviction policy. -/
def key (cfg : Config) (t : Tier) (s : ℕ) : ℚ :=
  match cfg.policy with
  | .need => t.need (t.clampedOwner s)
  | .freq => t.freq (t.clampedOwner s)
  | .lru => t.ownerTick s

/-! ### Small updates -/

/-- The owners of the victims are unmapped in both tables; the owner entries stay. -/
def unmap (t : Tier) (victims : List ℕ) : Tier :=
  { t with
    slotTable := fun p => if victims.any fun s => decide (t.owner s = some p) then none
      else t.slotTable p
    mirror := fun p => if victims.any fun s => decide (t.owner s = some p) then none
      else t.mirror p }

/-- The slots of a plan are reserved for their pairs at the current tick. -/
def reserve (t : Tier) (plan : List (Pair × ℕ)) : Tier :=
  { t with
    owner := scatter t.owner (plan.map fun e => (e.2, some e.1))
    ownerTick := scatter t.ownerTick (plan.map fun e => (e.2, t.tick)) }

/-- The rows of a plan are copied into its slots. -/
def copyRows (t : Tier) (plan : List (Pair × ℕ)) : Tier :=
  { t with pool := scatter t.pool (plan.map fun e => (e.2, some e.1)) }

/-- The pairs of a plan are mapped for the kernels. -/
def mapTable (t : Tier) (plan : List (Pair × ℕ)) : Tier :=
  { t with slotTable := scatter t.slotTable (plan.map fun e => (e.1, some e.2)) }

/-- The pairs of a plan are mapped in the host's mirror. -/
def mapMirror (t : Tier) (plan : List (Pair × ℕ)) : Tier :=
  { t with mirror := scatter t.mirror (plan.map fun e => (e.1, some e.2)) }

/-- The slots in `slots` are pinned for the step. -/
def pinStep (t : Tier) (slots : List ℕ) : Tier :=
  { t with stepPin := fun s => t.stepPin s || slots.contains s }

/-- The slots in `slots` are pinned for the layer. -/
def pinLayer (t : Tier) (slots : List ℕ) : Tier :=
  { t with layerPin := fun s => t.layerPin s || slots.contains s }

/-- The last-seen tick of the slots in `slots` is refreshed. -/
def refresh (t : Tier) (slots : List ℕ) : Tier :=
  { t with ownerTick := fun s => if slots.contains s then t.tick else t.ownerTick s }

/-- The routing frequency of some pairs grows. -/
def bumpFreq (t : Tier) (ps : List Pair) (amount : Pair → ℚ) : Tier :=
  { t with freq := fun p => if ps.contains p then t.freq p + amount p else t.freq p }

/-- The need of some pairs grows by one. -/
def bumpNeed (t : Tier) (ps : List Pair) : Tier :=
  { t with need := fun p => if ps.contains p then t.need p + 1 else t.need p }

/-- The slots in which the pairs of a list are resident. -/
def hitSlots (t : Tier) (ps : List Pair) : List ℕ :=
  ps.filterMap t.mirror

end Tier

/-! ### Taking slots -/

section TakeSlots

variable (cfg : Config) (T : TopK) (v : View)

/-- The hard exclusions of an eviction: free markers, step pins, layer pins and the experts
that the coupled FP4 tier holds. -/
def hard (t : Tier) (s : ℕ) : Bool :=
  (t.owner s).isNone || t.stepPin s || t.layerPin s || v.coupled (t.clampedOwner s)

/-- The hard exclusions and the owners in the seen window. -/
def blocked (t : Tier) (s : ℕ) : Bool :=
  hard v t s || v.seenHost (t.clampedOwner s) != 0

/-- The hot half of the pool: what `protect_hot` makes untouchable. -/
def hotSlots (t : Tier) : List ℕ :=
  let valid := (List.range cfg.nSlots).filter fun s => (t.owner s).isSome
  T.pick true (t.key cfg) valid (min (cfg.nSlots / 2) valid.length)

/-- The eviction passes, each given by the slots it must not touch: cold victims only; then,
in an emergency, warm ones, and last those of the seen window. -/
def passes (t : Tier) (emergency : Bool) (minCold : ℕ) (protectHot : Bool) :
    List (ℕ → Bool) :=
  let hot : ℕ → Bool := fun s => protectHot && (hotSlots cfg T t).contains s
  [fun s => blocked v t s || hot s || decide (t.tick < t.ownerTick s + minCold)] ++
    if emergency then [fun s => blocked v t s || hot s, fun s => hard v t s || hot s] else []

/-- Where a take stands: the tier, the slots taken so far, those of them that were evicted,
and whether the admission keys have ended the take. -/
structure Taking where
  tier : Tier
  out : List ℕ
  taken : List ℕ
  done : Bool

/-- Victims are unmapped and taken. -/
def Taking.evict (a : Taking) (victims : List ℕ) : Taking :=
  { a with
    tier := a.tier.unmap victims
    out := a.out ++ victims
    taken := a.taken ++ victims }

/-- One victim under value-monotone admission: it is taken for the next candidate only if
that candidate's key exceeds its own. -/
def admitVictim (adm : List ℚ) (key : ℕ → ℚ) (a : Taking) (s : ℕ) : Taking :=
  if a.done then a
  else match adm[a.out.length]? with
    | none => { a with done := true }
    | some c => if c ≤ key s then { a with done := true } else a.evict [s]

/-- One eviction pass. -/
def takePass (key : ℕ → ℚ) (k : ℕ) (admission : Option (List ℚ)) (a : Taking)
    (ineligible : ℕ → Bool) : Taking :=
  if a.done || k ≤ a.out.length then a
  else
    let elig := (List.range cfg.nSlots).filter fun s => !ineligible s && !a.taken.contains s
    let victims := T.pick false key elig (min (k - a.out.length) elig.length)
    match admission with
    | none => a.evict victims
    | some adm => victims.foldl (admitVictim adm key) a

/-- `_take_slots_batch`: free slots first, then one eviction pass after the other. -/
def takeSlotsBatch (t : Tier) (k : ℕ) (emergency : Bool) (minCold : ℕ)
    (admission : Option (List ℚ)) (protectHot : Bool) : List ℕ × Tier :=
  let out := t.free.take k
  let t' := { t with free := t.free.drop k }
  if k ≤ out.length then (out, t')
  else if admission.any fun adm => adm.length ≤ out.length then (out, t')
  else
    let a := (passes cfg T v t' emergency minCold protectHot).foldl
      (takePass cfg T (t'.key cfg) k admission) ⟨t', out, [], false⟩
    (a.out, a.tier)

end TakeSlots

/-! ### Fetching -/

/-- The slots that `_promote_batch` gives back after a fault: unmapped, without an owner,
free. -/
def rollBack (t : Tier) (plan : List (Pair × ℕ)) : Tier :=
  plan.foldl (fun t e => { t with
    slotTable := Function.update t.slotTable e.1 none
    mirror := Function.update t.mirror e.1 none
    owner := Function.update t.owner e.2 none
    ownerTick := Function.update t.ownerTick e.2 0
    free := if e.2 ∈ t.free then t.free else e.2 :: t.free }) t

/-- Which pin a fetch sets on the slots it fills. -/
inductive Pin
  | step
  | layer
  | unpinned
  deriving DecidableEq, Repr

/-- Set a pin. -/
def Tier.pin (t : Tier) (pin : Pin) (slots : List ℕ) : Tier :=
  match pin with
  | .step => t.pinStep slots
  | .layer => t.pinLayer slots
  | .unpinned => t

/-- The common tail of `prefetch_pairs`, `force_promote` and `ensure_resident`: read the
rows, reserve and pin the slots, copy, and map only then. Nothing is undone when a read or a
copy raises. -/
def fetchPlan (t : Tier) (pin : Pin) (plan : List (Pair × ℕ)) (fault : Option Fault) :
    Tier × Outcome :=
  let slots := plan.map Prod.snd
  match fault with
  | some .read => (t, .raised)
  | some (.copy done) => (((t.reserve plan).pin pin slots).copyRows (plan.take done), .raised)
  | none =>
    let t' := ((t.reserve plan).pin pin slots).copyRows plan
    (((t'.mapTable plan).mapMirror plan).bumpFreq (plan.map Prod.fst) fun _ => 1,
      .returned plan.length)

section Operations

variable (cfg : Config) (T : TopK) (v : View)

/-- All (layer, expert) pairs, layer by layer. -/
def allPairs : List Pair :=
  List.range cfg.nLayers ×ˢ List.range cfg.nExperts

/-- The pairs with a count, in the order of `nonzero()`. -/
def nonzero (cnt : Pair → ℕ) : List Pair :=
  (allPairs cfg).filter fun p => cnt p != 0

/-- `_promote_batch`: the manager's promotion, which rolls back when it fails. -/
def promoteBatch (t : Tier) (candidates : List Pair) (fault : Option Fault) : Tier × Outcome :=
  if candidates = [] then (t, .returned 0)
  else
    let (slots, t) := takeSlotsBatch cfg T v t candidates.length false 2 none false
    let plan := candidates.zip slots
    if plan = [] then (t, .returned 0)
    else
      match fault with
      | some .read => (rollBack t plan, .raised)
      | some (.copy done) =>
        (rollBack ((t.copyRows (plan.take done)).mapTable (plan.take done)) plan, .raised)
      | none =>
        ((((t.copyRows plan).mapTable plan).mapMirror plan).reserve plan,
          .returned plan.length)

/-- `_promo_floor`: the frequency of the weakest slot that could be evicted. -/
def promoFloor (t : Tier) : Option ℚ :=
  let evictable := (List.range cfg.nSlots).filter fun s =>
    !((t.owner s).isNone || v.seenHost (t.clampedOwner s) != 0 ||
      decide (t.tick < t.ownerTick s + 2) || t.stepPin s || t.layerPin s)
  match evictable.map fun s => t.freq (t.clampedOwner s) with
  | [] => none
  | f :: fs => some (fs.foldl (fun a b => if b < a then b else a) f)

/-- The pairs a manager pass promotes: routed, not resident, in the store; the hottest first
under the frequency policy; into a full pool only those clearly hotter than its weakest. -/
def tickCandidates (t : Tier) (seen : List Pair) : List Pair :=
  let cand := seen.filter fun p => (t.mirror p).isNone && cfg.inStore p.1
  let cand := if cfg.policy = .freq then T.argsort t.freq cand else cand
  let cand :=
    if 1 < cfg.promoHyst ∧ t.free = [] then
      match promoFloor cfg v t with
      | none => cand
      | some floor => cand.filter fun p => floor * cfg.promoHyst + 4 < t.freq p
    else cand
  cand.take cfg.promotePerTick

/-- What a manager pass notes of the routed pairs: their frequencies, and the last-seen ticks
of those that are resident. -/
def noteRouted (t : Tier) (seen : List Pair) (cnt : Pair → ℕ) : Tier :=
  (t.bumpFreq seen fun p => cnt p).refresh (t.hitSlots seen)

/-- Both signals fade by a factor. -/
def decayBy (t : Tier) (f : ℚ) : Tier :=
  { t with freq := fun p => t.freq p * f, need := fun p => t.need p * f }

/-- The locked part of `_tick_once`, for the consumed routing counts `cnt`: the statistics, the
promotions unless the policy or a frozen membership forbids them, and the decay by a factor
when it is due and nothing raised. -/
def tickLocked (t : Tier) (cnt : Pair → ℕ) (decay : Option ℚ) (fault : Option Fault) :
    Tier × Outcome :=
  let seen := nonzero cfg cnt
  if seen = [] then (t, .returned 0)
  else
    let t := noteRouted t seen cnt
    let r :=
      if cfg.policy ≠ .need ∧ ¬ t.frozen then
        promoteBatch cfg T v t (tickCandidates cfg T v t seen) fault
      else (t, .returned 0)
    match r.2, decay with
    | .returned n, some f => (decayBy r.1 f, .returned n)
    | _, _ => r

/-- `prefetch_pairs`: fetch the cold ones of some pairs into free slots or slots that are at
least `coldTicks` ticks cold. A pair that is out of range raises when the mirror is read. -/
def prefetchPairs (t : Tier) (pairs : List Pair) (coldTicks : ℕ) (fault : Option Fault) :
    Tier × Outcome :=
  if t.frozen ∨ pairs = [] then (t, .returned 0)
  else if pairs.any fun p => decide (cfg.nLayers ≤ p.1 ∨ cfg.nExperts ≤ p.2) then (t, .raised)
  else
    let pairs := pairs.filter fun p => (t.mirror p).isNone && cfg.inStore p.1
    if pairs = [] then (t, .returned 0)
    else
      let (slots, t) := takeSlotsBatch cfg T v t pairs.length false (max coldTicks 2) none false
      let plan := pairs.zip slots
      if plan = [] then (t, .returned 0) else fetchPlan t .step plan fault

/-- The order in which `force_promote` serves its candidates: by need or frequency, and first
by this window's routing weight where those are kept. -/
def forceKey (t : Tier) (weights : Option (Pair → ℚ)) (p : Pair) : ℚ :=
  let rank := if cfg.policy = .need then t.need p else t.freq p
  match weights with
  | none => rank
  | some w => w p + rank / 1000000000

/-- `force_promote`: pull the routed pairs of the snapshot `v.seenHost` that are not resident,
in an emergency if it must be. `layers` restricts the layers, `maxPromote` caps the number. -/
def forcePromote (t : Tier) (layers : Option (List ℕ)) (maxPromote : Option ℕ) (pin : Bool)
    (weights : Option (Pair → ℚ)) (fault : Option Fault) : Tier × Outcome :=
  if t.frozen ∨ (List.range cfg.nLayers).all (fun l => !cfg.inStore l) then (t, .returned 0)
  else
    let seen := nonzero cfg v.seenHost
    if seen = [] then (t, .returned 0)
    else
      let keep : Pair → Bool := fun p => layers.all fun ls => ls.contains p.1
      let hits := t.hitSlots seen
      let t := (if pin then (t.refresh hits).pinStep hits else t.refresh hits).bumpNeed
        (seen.filter keep)
      let cand := seen.filter fun p => keep p && (t.mirror p).isNone && cfg.inStore p.1
      if cand = [] then (t, .returned 0)
      else
        let cand := T.argsort (forceKey cfg t weights) cand
        let cand := (maxPromote.map cand.take).getD cand
        let (slots, t) := takeSlotsBatch cfg T v t cand.length true 2 none false
        let plan := cand.zip slots
        if plan = [] then (t, .returned 0)
        else fetchPlan t (if pin then .step else .unpinned) plan fault

/-- The first critical section of `ensure_resident`: open the layer's pin scope, pin and
refresh the resident experts; the others are the candidates. -/
def ensureScan (t : Tier) (layer : ℕ) (ids : List ℕ) : Tier × List Pair :=
  if t.frozen ∨ ¬ cfg.inStore layer then (t, [])
  else
    let routed := ((List.range cfg.nExperts).filter ids.contains).map fun e => (layer, e)
    let t := { t with layerPin := fun _ => false }
    let hits := t.hitSlots routed
    ((t.refresh hits).pinLayer hits, routed.filter fun p => (t.mirror p).isNone)

/-- The second critical section of `ensure_resident`: fetch the candidates that are still not
resident, in an emergency in the base tier, and sparing the hot half of a quality tier. -/
def ensureFetch (t : Tier) (cand : List Pair) (fault : Option Fault) : Tier × Outcome :=
  let cand := cand.filter fun p => (t.mirror p).isNone
  if cand = [] then (t, .returned 0)
  else
    let (slots, t) := takeSlotsBatch cfg T v t cand.length cfg.base 2 none (!cfg.base)
    let plan := cand.zip slots
    if plan = [] then (t, .returned 0) else fetchPlan t .layer plan fault

/-- `step_begin`, and what `step_end` does to the tier: the pin scopes are closed. -/
def clearPins (t : Tier) : Tier :=
  { t with stepPin := fun _ => false, layerPin := fun _ => false }

end Operations

end VllmMoet.Delta
