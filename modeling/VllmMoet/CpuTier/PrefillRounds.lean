import VllmMoet.CpuTier.AckedRows

/-!
# The rounds of a prefill over several tiers

A prefill round asks every tier (one for each virtual rank) for the records of its experts.
`cpu_tier_prefill_fetch` pins those that are resident, under the tail's mutex, and reads the
others into a set of the prefill arena, by several threads. `_prefill_round_ptrs` starts the
calls of all tiers at once; it notes what to release (`tail_last` of the set) when all of them
have succeeded.

`Rounds` is the tiers with the round in progress. Every step of every tier's dispatcher, of its
io_uring and of the other engine calls may come in between. Beside what the code keeps, each
tier remembers for its fetched rounds the set whose `tail_last` will release it, if any.

* `prefill_all_or_nothing`: a step leaves a pin that nobody will release exactly when a call
  that pinned something fails, or a round of which some tier's call fails and another's has
  pinned something; and what a call that succeeds returns points to the records.
* `prefill_leaks`: a run of each kind.
-/

namespace VllmMoet

namespace CpuTier

/-! ### The calls -/

/-- The first listed expert that is out of range (`-3`) or not in the store (`-4`). -/
def expertsError (T : Tier) (l : ℕ) : List ℤ → Option ℤ
  | [] => none
  | x :: xs =>
    match checked x T.nExperts with
    | none => some (-3)
    | some e =>
      if ((T.layers l).slotOf e).isSome || (T.layers l).cold e then expertsError T l xs
      else some (-4)

/-- What `cpu_tier_prefill_fetch` returns before its reads, if it does. -/
def fetchError (T : Tier) (layer : ℤ) (experts : List ℤ) (set : ℤ) : Option ℤ :=
  match checked layer T.nLayers with
  | none => some (-1)
  | some l =>
    if T.tail.on = false then some (-1)
    else if T.tail.prefillArena = false ∨ checked set T.tail.prefillSets = none ∨
        T.tail.prefillSetSlots < experts.length then some (-2)
    else expertsError T l experts

/-- A pointer that `cpu_tier_prefill_fetch` returns: to a slot of the arena, or to a position of
a set of the prefill arena. -/
inductive Ptr
  | slot (s : ℕ)
  | position (set i : ℕ)
  deriving DecidableEq, Repr

/-- `out_ptrs` of a call that succeeds. -/
def Fetch.ptrs (f : Fetch) (set : ℕ) : List Ptr :=
  f.taken.mapIdx fun i t => match t with
    | some s => .slot s
    | none => .position set i

theorem Fetch.getElem?_ptrs_slot {f : Fetch} {set i s : ℕ} (h : f.taken[i]? = some (some s)) :
    (f.ptrs set)[i]? = some (.slot s) := by
  simp [Fetch.ptrs, h]

theorem Fetch.getElem?_ptrs_position {f : Fetch} {set i : ℕ} (h : f.taken[i]? = some none) :
    (f.ptrs set)[i]? = some (.position set i) := by
  simp [Fetch.ptrs, h]

/-- Where a tier's call of the round stands: its thread has not got to the locked section, it
reads (the positions whose read has ended, and whether one of them failed), or it has
returned. -/
inductive FetchCall
  | idle
  | waiting
  | reading (ended : List ℕ) (failed : Bool)
  | returned (rc : ℤ)
  deriving DecidableEq, Repr

/-- A tier with its memory, the records in the sets of its prefill arena, and its call of the
round. `tags` are the sets whose `tail_last` stands for the tier's fetched rounds. -/
structure RoundTier (B A Y : Type*) where
  mem : MemSys B A Y
  sets : ℕ → ℕ → B
  call : FetchCall
  tags : List (Option ℕ)

/-- What the engine's thread does: nothing with the tiers, it releases the last round of a set
on one tier after the other, or it waits for the calls of a round. -/
inductive RoundPhase
  | idle
  | releasing (set : ℕ) (layer : ℤ) (experts : List ℤ) (next : ℕ)
  | fetching (set : ℕ) (layer : ℤ) (experts : List ℤ)
  deriving DecidableEq, Repr

/-- The tiers, what the engine's thread does, and `tail_last` of every set. -/
structure Rounds (B A Y : Type*) where
  tiers : ℕ → RoundTier B A Y
  phase : RoundPhase
  tailLast : ℕ → Option (ℤ × List ℤ)

/-- The steps of the rounds. -/
inductive RoundAct (B A : Type*)
  /-- a step of tier `v` that is not one of a prefill call -/
  | tier (v : ℕ) (a : MemAct B A)
  /-- the engine's thread begins to release the last round of a set -/
  | release (set : ℕ)
  /-- `prefill_release` of the next tier -/
  | releaseNext
  /-- a round begins: every tier's call is started -/
  | start (set : ℕ) (layer : ℤ) (experts : List ℤ)
  /-- the locked section of tier `v`'s call -/
  | enter (v : ℕ)
  /-- a piece of a read of tier `v`'s call arrives -/
  | piece (v i : ℕ) (b : B)
  /-- a read of tier `v`'s call ends, in full or not -/
  | readEnd (v i : ℕ) (ok : Bool)
  /-- tier `v`'s call returns -/
  | ret (v : ℕ)
  /-- every call has returned: the round ends, by an exception if one of them failed -/
  | finish

/-- The steps of a prefill call. -/
def MemAct.ofPrefill {B A : Type*} : MemAct B A → Bool
  | .sys (.prefillFetch ..) | .sys (.prefillRead ..) | .sys (.prefillRelease ..) => true
  | _ => false

section Steps

variable {B A Y : Type*} (K : Store B A Y) (V : ℕ)

namespace RoundTier

variable (t : RoundTier B A Y)

/-- The round that the tier's call is reading. -/
def current : Option Fetch := t.mem.sys.fetching.head?

/-- Position `i` of the round is read by the call and its read has not ended. -/
def Pending (ended : List ℕ) (i : ℕ) : Prop :=
  (t.current.bind fun f => f.taken[i]?) = some none ∧ i ∉ ended

instance (ended : List ℕ) (i : ℕ) : Decidable (t.Pending ended i) :=
  inferInstanceAs (Decidable (_ ∧ _))

/-- The record of the expert at position `i` of the round. -/
def recordAt (i : ℕ) : Option B :=
  t.current.bind fun f => f.experts[i]?.bind fun x =>
    (checked x t.mem.sys.tier.nExperts).map fun e => K.file f.layer e

/-- Write a record into the prefill arena. -/
def write (set i : ℕ) (b : B) : RoundTier B A Y :=
  { t with sets := Function.update t.sets set (Function.update (t.sets set) i b) }

/-- The locked section of the call. -/
def enter (set : ℕ) (layer : ℤ) (experts : List ℤ) : Option (RoundTier B A Y) :=
  if t.call = .waiting then
    (t.mem.step K (.sys (.prefillFetch layer experts set))).map fun M => { t with
      mem := M
      call := match fetchError t.mem.sys.tier layer experts set with
        | some rc => .returned rc
        | none => .reading [] false }
  else none

/-- A piece of a read arrives. -/
def piece (set i : ℕ) (b : B) : Option (RoundTier B A Y) :=
  match t.call with
  | .reading ended _ => if t.Pending ended i then some (t.write set i b) else none
  | _ => none

/-- A read ends: in full, or short. -/
def readEnd (set i : ℕ) (ok : Bool) : Option (RoundTier B A Y) :=
  match t.call with
  | .reading ended failed =>
    if t.Pending ended i then
      (t.recordAt K i).map fun b => { (if ok then t.write set i b else t) with
        call := .reading (i :: ended) (failed || !ok) }
    else none
  | _ => none

/-- The reading threads are joined and the call returns. -/
def ret (set : ℕ) : Option (RoundTier B A Y) :=
  match t.call, t.current with
  | .reading ended failed, some f =>
    if ∀ i ∈ List.range f.taken.length, f.taken[i]? = some none → i ∈ ended then
      (t.mem.step K (.sys (.prefillRead 0 (!failed)))).map fun M => { t with
        mem := M
        call := .returned (if failed then -5 else (f.taken.count none : ℕ))
        tags := if failed then t.tags else t.tags ++ [some set] }
    else none
  | _, _ => none

/-- `prefill_release` of the last round of a set. -/
def release (set : ℕ) (layer : ℤ) (experts : List ℤ) : Option (RoundTier B A Y) :=
  (t.mem.step K (.sys (.prefillRelease layer experts (t.tags.idxOf (some set))))).map fun M =>
    { t with mem := M, tags := t.tags.eraseIdx (t.tags.idxOf (some set)) }

/-- The call has returned, with success or not. -/
def succeeded : Bool :=
  match t.call with
  | .returned rc => decide (0 ≤ rc)
  | _ => false

/-- The round ends. When it fails nothing will release what this tier has pinned for it. -/
def finish (set : ℕ) (good : Bool) : RoundTier B A Y :=
  { t with
    call := .idle
    tags := if good then t.tags else t.tags.map fun x => if x = some set then none else x }

/-- The fetched rounds, each with the set whose `tail_last` will release it. -/
def entries : List (Fetch × Option ℕ) := t.mem.sys.fetched.zip t.tags

/-- The pins that nobody will release. -/
def leftPins : List ℕ :=
  t.mem.sys.leaked ++ (t.entries.filter fun e => e.2 = none).flatMap fun e => e.1.slots

/-- The pointers that the call returns when it succeeds. -/
def outPtrs (set : ℕ) : List Ptr := (t.current.map fun f => f.ptrs set).getD []

/-- The record that a pointer points to. -/
def byPtr : Ptr → B
  | .slot s => t.mem.mem (t.mem.addr s)
  | .position set i => t.sets set i

end RoundTier

namespace Rounds

variable (s : Rounds B A Y)

/-- Replace tier `v`. -/
def setTier (v : ℕ) (t : RoundTier B A Y) : Rounds B A Y :=
  { s with tiers := Function.update s.tiers v t }

/-- The step of one tier's call. -/
def callStep (v : ℕ)
    (f : RoundTier B A Y → ℕ → ℤ → List ℤ → Option (RoundTier B A Y)) : Option (Rounds B A Y) :=
  match s.phase with
  | .fetching set layer experts =>
    if v < V then (f (s.tiers v) set layer experts).map (s.setTier v) else none
  | _ => none

/-- Every call of the round has succeeded. -/
def good : Bool := (List.range V).all fun v => (s.tiers v).succeeded

/-- Every call of the round has returned. -/
def allReturned : Bool := (List.range V).all fun v => match (s.tiers v).call with
  | .returned _ => true
  | _ => false

/-- One step. -/
def step : RoundAct B A → Option (Rounds B A Y)
  | .tier v a =>
    if v < V ∧ a.ofPrefill = false then
      ((s.tiers v).mem.step K a).map fun M => s.setTier v { s.tiers v with mem := M }
    else none
  | .release set =>
    match s.phase, s.tailLast set with
    | .idle, some r => some { s with phase := .releasing set r.1 r.2 0 }
    | _, _ => none
  | .releaseNext =>
    match s.phase with
    | .releasing set layer experts v =>
      if v < V then
        ((s.tiers v).release K set layer experts).map fun t =>
          { s.setTier v t with phase := .releasing set layer experts (v + 1) }
      else some { s with phase := .idle, tailLast := Function.update s.tailLast set none }
    | _ => none
  | .start set layer experts =>
    if s.phase = .idle ∧ s.tailLast set = none then
      some { s with
        phase := .fetching set layer experts
        tiers := fun v => { s.tiers v with call := .waiting } }
    else none
  | .enter v => s.callStep V v fun t set layer experts => t.enter K set layer experts
  | .piece v i b => s.callStep V v fun t set _ _ => t.piece set i b
  | .readEnd v i ok => s.callStep V v fun t set _ _ => t.readEnd K set i ok
  | .ret v => s.callStep V v fun t set _ _ => t.ret K set
  | .finish =>
    match s.phase with
    | .fetching set layer experts =>
      if s.allReturned V then
        some { s with
          tiers := fun v => (s.tiers v).finish set (s.good V)
          phase := .idle
          tailLast := if s.good V then Function.update s.tailLast set (some (layer, experts))
            else s.tailLast }
      else none
    | _ => none

end Rounds

/-- The step of a tier with its memory that a step is, and the tier. -/
def RoundAct.memAct (s : Rounds B A Y) : RoundAct B A → Option (ℕ × MemAct B A)
  | .tier v a => some (v, a)
  | .releaseNext =>
    match s.phase with
    | .releasing set layer experts v =>
      some (v, .sys (.prefillRelease layer experts ((s.tiers v).tags.idxOf (some set))))
    | _ => none
  | .enter v =>
    match s.phase with
    | .fetching set layer experts => some (v, .sys (.prefillFetch layer experts set))
    | _ => none
  | .ret v =>
    match (s.tiers v).call with
    | .reading _ failed => some (v, .sys (.prefillRead 0 (!failed)))
    | _ => none
  | .release _ | .start .. | .piece .. | .readEnd .. | .finish => none

/-- A step that respects the pins of its tier. -/
def RoundsRespected (s : Rounds B A Y) (a : RoundAct B A) : Prop :=
  ∀ v b, a.memAct s = some (v, b) → RowsRespected (s.tiers v).mem b

/-- The tiers are started, and there is no round. -/
structure RoundsStart (s : Rounds B A Y) : Prop where
  tier : ∀ v, MemStart K (s.tiers v).mem ∧ (s.tiers v).call = .idle ∧ (s.tiers v).tags = []
  phase : s.phase = .idle
  tailLast : s.tailLast = fun _ => none

/-- The runs of the rounds whose steps respect the pins. -/
def roundsSystem : TransitionSystem (Rounds B A Y) (RoundAct B A) :=
  (TransitionSystem.ofStep (RoundsStart K) fun s a => s.step K V a).onlySteps RoundsRespected

end Steps

/-! ### What a call pins -/

/-- The expert is in the store: its record is resident, or it is in the store file. -/
def available (T : Tier) (l : ℕ) (x : ℤ) : Bool :=
  (checked x T.nExperts).any fun e => ((T.layers l).slotOf e).isSome || (T.layers l).cold e

/-- The expert's record is resident. -/
def residentNow (T : Tier) (l : ℕ) (x : ℤ) : Bool :=
  (checked x T.nExperts).any fun e => ((T.layers l).slotOf e).isSome

/-- The arguments of a call beside its experts are accepted. -/
structure ArgsOk (T : Tier) (layer : ℤ) (experts : List ℤ) (set : ℤ) (l : ℕ) : Prop where
  layer : checked layer T.nLayers = some l
  set : ∃ k, checked set T.tail.prefillSets = some k
  on : T.tail.on = true ∧ T.tail.prefillArena = true
  length : experts.length ≤ T.tail.prefillSetSlots

section Pinned

variable {T : Tier} {l : ℕ} {S : Sys}

theorem expertsError_eq_none (xs : List ℤ) :
    expertsError T l xs = none ↔ ∀ x ∈ xs, available T l x = true := by
  induction xs with
  | nil => simp [expertsError]
  | cons x xs ih =>
    rw [expertsError, List.forall_mem_cons, available]
    cases he : checked x T.nExperts with
    | none => simp
    | some e =>
      dsimp only
      split
      · next h => simp [ih, h]
      · next h => simp [h]

/-- The locked loop gets through exactly when every listed expert is in the store. -/
theorem pinExperts_available (xs : List ℤ) :
    (Sys.pinExperts T l xs).1 = true ↔ ∀ x ∈ xs, available T l x = true := by
  induction xs generalizing T with
  | nil => simp [Sys.pinExperts]
  | cons x xs ih =>
    rw [Sys.pinExperts, List.forall_mem_cons, available]
    cases he : checked x T.nExperts with
    | none => simp
    | some e =>
      dsimp only
      cases hs : (T.layers l).slotOf e with
      | some s =>
        dsimp only
        rw [ih]
        have hsame : available (T.pinUp s) l = available T l := rfl
        simp [hsame, hs]
      | none =>
        dsimp only
        split
        · next hc => simp [ih, hs, hc]
        · next hc => simp [hs, hc]

/-- The locked loop pins nothing exactly when no expert is resident before the first that is not
in the store. -/
theorem pinExperts_nothing (xs : List ℤ) :
    (Sys.pinExperts T l xs).2.2.reduceOption = [] ↔
      ∀ x ∈ xs.takeWhile (available T l), residentNow T l x = false := by
  induction xs generalizing T with
  | nil => simp [Sys.pinExperts]
  | cons x xs ih =>
    rw [Sys.pinExperts, List.takeWhile_cons]
    cases he : checked x T.nExperts with
    | none => simp [available, he]
    | some e =>
      dsimp only
      cases hs : (T.layers l).slotOf e with
      | some s =>
        have hav : available T l x = true := by simp [available, he, hs]
        have hres : residentNow T l x = true := by simp [residentNow, he, hs]
        simp [hav, hres]
      | none =>
        dsimp only
        split
        · next hc =>
          have hav : available T l x = true := by simp [available, he, hc]
          have hres : residentNow T l x = false := by simp [residentNow, he, hs]
          simp [hav, hres, ih]
        · next hc =>
          have hav : available T l x = false := by simp [available, he, hs, hc]
          simp [hav]

/-- A call whose arguments are not accepted returns an error and leaves the tier alone. -/
theorem fetchError_of_not_argsOk {layer : ℤ} {experts : List ℤ} {set : ℤ}
    (h : ∀ l, ¬ ArgsOk S.tier layer experts set l) :
    (∃ rc < 0, fetchError S.tier layer experts set = some rc) ∧
      S.prefillFetch layer experts set = S := by
  rw [fetchError, Sys.prefillFetch]
  cases hl : checked layer S.tier.nLayers with
  | none => exact ⟨⟨-1, by decide, rfl⟩, rfl⟩
  | some l =>
    dsimp only
    cases hk : checked set S.tier.tail.prefillSets with
    | none =>
      refine ⟨?_, rfl⟩
      split
      · exact ⟨-1, by decide, rfl⟩
      · exact ⟨-2, by decide, by simp⟩
    | some k =>
      have hno : ¬ (S.tier.tail.on ∧ S.tier.tail.prefillArena ∧
          experts.length ≤ S.tier.tail.prefillSetSlots) := by
        rintro ⟨hon, harena, hlen⟩
        exact h l ⟨hl, ⟨k, hk⟩, ⟨hon, harena⟩, hlen⟩
      refine ⟨?_, if_neg hno⟩
      split
      · exact ⟨-1, by decide, rfl⟩
      · next hon =>
        refine ⟨-2, by decide, if_pos ?_⟩
        rw [Bool.not_eq_false] at hon
        by_contra hall
        simp only [reduceCtorEq, false_or, not_or, Bool.not_eq_false, not_lt] at hall
        exact hno ⟨hon, hall⟩

/-- A call whose arguments are accepted: its error is that of the listed experts. -/
theorem fetchError_of_argsOk {layer : ℤ} {experts : List ℤ} {set : ℤ}
    (h : ArgsOk S.tier layer experts set l) :
    fetchError S.tier layer experts set = expertsError S.tier l experts ∧
      S.prefillFetch layer experts set =
        if (Sys.pinExperts S.tier l experts).1 then
          { S.setTier (Sys.pinExperts S.tier l experts).2.1 with
            fetching := S.fetching ++ [⟨l, experts, (Sys.pinExperts S.tier l experts).2.2⟩] }
        else
          { S.setTier (Sys.pinExperts S.tier l experts).2.1 with
            leaked := S.leaked ++ (Sys.pinExperts S.tier l experts).2.2.reduceOption } := by
  obtain ⟨hl, ⟨k, hk⟩, ⟨hon, harena⟩, hlen⟩ := h
  rw [fetchError, Sys.prefillFetch, hl, hk]
  dsimp only
  constructor
  · rw [if_neg (by simp [hon]), if_neg (by simp [harena, hlen])]
  · rw [if_pos ⟨hon, harena, hlen⟩]

end Pinned

/-! ### What the other steps leave of the rounds -/

section Invariant

variable {B A Y : Type*} {K : Store B A Y} {V : ℕ} {M M' : MemSys B A Y}
  {t t' : RoundTier B A Y} {s s' : Rounds B A Y} {phase : RoundPhase}

/-- A step of the tier with its memory is a step of the tier, or only memory changes. -/
theorem sys_of_memStep {a : MemAct B A} (hs : M.step K a = some M') :
    M'.sys = M.sys ∨ ∃ b, a.tierStep = some b ∧ M.sys.step b = some M'.sys := by
  cases a with
  | serve l seq req acts =>
    obtain ⟨S, hS, rfl⟩ := Option.map_eq_some_iff.mp hs
    exact .inr ⟨_, rfl, hS⟩
  | pair p =>
    obtain ⟨c, -, hs⟩ := Option.bind_eq_some_iff.mp hs
    obtain ⟨q, -, hs⟩ := Option.bind_eq_some_iff.mp hs
    obtain ⟨r, -, hs⟩ := Option.bind_eq_some_iff.mp hs
    split at hs
    · exact absurd hs (by simp)
    · rw [← Option.some.inj hs]
      exact .inl rfl
  | transfer i b =>
    obtain ⟨r, -, rfl⟩ := Option.map_eq_some_iff.mp hs
    exact .inl rfl
  | acquireTransfer i b =>
    obtain ⟨r, -, rfl⟩ := Option.map_eq_some_iff.mp hs
    exact .inl rfl
  | sys a =>
    refine .inr ⟨a, rfl, ?_⟩
    cases a with
    | serve _ _ _ => simp [MemSys.step] at hs
    | kernel rc =>
      simp only [MemSys.step] at hs
      split at hs
      · obtain ⟨S, hS, rfl⟩ := Option.map_eq_some_iff.mp hs
        exact hS
      · simp at hs
    | complete i res =>
      obtain ⟨r, -, hs⟩ := Option.bind_eq_some_iff.mp hs
      obtain ⟨S, hS, rfl⟩ := Option.map_eq_some_iff.mp hs
      exact hS
    | acquireRead i ok =>
      obtain ⟨r, -, hs⟩ := Option.bind_eq_some_iff.mp hs
      obtain ⟨S, hS, rfl⟩ := Option.map_eq_some_iff.mp hs
      exact hS
    | run | submit _ | acquire _ _ | release _ _ _ | prefillFetch _ _ _ | prefillRead _ _
    | prefillRelease _ _ _ =>
      simp only [MemSys.step] at hs
      obtain ⟨S, hS, rfl⟩ := Option.map_eq_some_iff.mp hs
      exact hS

/-- Two states of a tier with the same rounds. -/
structure SameRounds (S S' : Sys) : Prop where
  fetching : S'.fetching = S.fetching
  fetched : S'.fetched = S.fetched
  leaked : S'.leaked = S.leaked

/-- Only the prefill calls change the rounds. -/
theorem sameRounds_of_step {S S' : Sys} {a : Act} (hs : S.step a = some S')
    (ha : (MemAct.sys a : MemAct B A).ofPrefill = false) : SameRounds S S' := by
  cases a with
  | serve l seq req | run | kernel rc | submit r | complete i res =>
    obtain ⟨D, -, rfl⟩ := Option.map_eq_some_iff.mp hs
    exact ⟨rfl, rfl, rfl⟩
  | acquire layer expert =>
    rw [← Option.some.inj hs, Sys.acquire]
    repeat' split
    all_goals exact ⟨rfl, rfl, rfl⟩
  | acquireRead i ok =>
    obtain ⟨r, -, rfl⟩ := Option.map_eq_some_iff.mp hs
    dsimp only
    repeat' split
    all_goals exact ⟨rfl, rfl, rfl⟩
  | release layer expert i =>
    rw [← Option.some.inj hs, Sys.release]
    repeat' split
    all_goals exact ⟨rfl, rfl, rfl⟩
  | prefillFetch _ _ _ | prefillRead _ _ | prefillRelease _ _ _ =>
    exact absurd ha (by simp [MemAct.ofPrefill])

theorem sameRounds_of_memStep {a : MemAct B A} (hs : M.step K a = some M')
    (ha : a.ofPrefill = false) : SameRounds M.sys M'.sys := by
  rcases sys_of_memStep hs with h | ⟨b, hb, h⟩
  · rw [h]
    exact ⟨rfl, rfl, rfl⟩
  · refine sameRounds_of_step (B := B) (A := A) h ?_
    cases a with
    | serve l seq req acts =>
      rw [← Option.some.inj hb]
      rfl
    | sys a =>
      rw [← Option.some.inj hb]
      exact ha
    | pair _ | transfer _ _ | acquireTransfer _ _ => exact absurd hb (by simp [MemAct.tierStep])

/-- No step changes the configuration. -/
theorem config_of_memStep (h : ServeOk K M) {a : MemAct B A} (hs : M.step K a = some M') :
    M'.sys.tier.config = M.sys.tier.config := by
  obtain ⟨c, hc⟩ := h.sys
  rcases sys_of_memStep hs with h | ⟨b, -, h⟩
  · rw [h]
  · exact (hc.indexStep h).config

theorem nExperts_of_config {T T' : Tier} (h : T'.config = T.config) : T'.nExperts = T.nExperts :=
  congrArg Config.nExperts h

/-! ### The invariant -/

/-- A call that reads `f`: the round is the one that was asked for, its experts are all in range,
and unless a read has failed the record of every position whose read has ended is there. -/
structure Reading (K : Store B A Y) (t : RoundTier B A Y) (set : ℕ) (x : ℤ)
    (xs : List ℤ) (ended : List ℕ) (failed : Bool) (f : Fetch) : Prop where
  fetching : t.mem.sys.fetching = [f]
  layer : checked x t.mem.sys.tier.nLayers = some f.layer
  experts : f.experts = xs
  inRange : ∀ y ∈ xs, ∃ e, checked y t.mem.sys.tier.nExperts = some e
  bytes : failed = false → ∀ i ∈ ended, t.recordAt K i = some (t.sets set i)

/-- A tier in a phase of the engine's thread. -/
structure RoundTierOk (K : Store B A Y) (phase : RoundPhase) (t : RoundTier B A Y) : Prop where
  serve : ServeOk K t.mem
  tags : t.tags.length = t.mem.sys.fetched.length
  busy : t.call ≠ .idle → ∃ set layer experts, phase = .fetching set layer experts
  resting : (∀ ended failed, t.call ≠ .reading ended failed) → t.mem.sys.fetching = []
  reading : ∀ ended failed, t.call = .reading ended failed → ∀ set layer experts,
    phase = .fetching set layer experts → ∃ f, Reading K t set layer experts ended failed f

/-- A call keeps reading through a step that leaves the rounds and the prefill arena alone. -/
theorem Reading.of_same {set : ℕ} {layer : ℤ} {experts : List ℤ} {ended : List ℕ} {failed : Bool}
    {f : Fetch} (h : Reading K t set layer experts ended failed f)
    (hf : t'.mem.sys.fetching = t.mem.sys.fetching)
    (hc : t'.mem.sys.tier.config = t.mem.sys.tier.config) (hsets : t'.sets = t.sets) :
    Reading K t' set layer experts ended failed f := by
  have hn := nExperts_of_config hc
  refine ⟨hf.trans h.fetching, ?_, h.experts, ?_, fun hfail i hi => ?_⟩
  · rw [nLayers_of_config hc]
    exact h.layer
  · rw [hn]
    exact h.inRange
  · have hrec : t'.recordAt K i = t.recordAt K i := by
      rw [RoundTier.recordAt, RoundTier.recordAt, RoundTier.current, RoundTier.current, hf, hn]
    rw [hrec, hsets]
    exact h.bytes hfail i hi

/-- A step of the tier that is not one of a prefill call. -/
theorem RoundTierOk.tier (h : RoundTierOk K phase t) {a : MemAct B A} (ha : a.ofPrefill = false)
    (hr : RowsRespected t.mem a) (hs : t.mem.step K a = some M) :
    RoundTierOk K phase { t with mem := M } := by
  have hsame := sameRounds_of_memStep hs ha
  have hc := config_of_memStep h.serve hs
  refine ⟨h.serve.step hr hs, ?_, h.busy, fun hrest => ?_, fun ended failed hcall set layer experts
    hphase => ?_⟩
  · rw [hsame.fetched]
    exact h.tags
  · rw [hsame.fetching]
    exact h.resting hrest
  · obtain ⟨f, hf⟩ := h.reading ended failed hcall set layer experts hphase
    exact ⟨f, hf.of_same hsame.fetching hc rfl⟩

/-- The engine's thread goes on while no call is in progress. -/
theorem RoundTierOk.idle (h : RoundTierOk K phase t)
    (hphase : ∀ set layer experts, phase ≠ .fetching set layer experts) : t.call = .idle := by
  by_contra hne
  obtain ⟨set, layer, experts, hp⟩ := h.busy hne
  exact hphase set layer experts hp

theorem RoundTierOk.rephase (h : RoundTierOk K phase t)
    (hphase : ∀ set layer experts, phase ≠ .fetching set layer experts) (phase' : RoundPhase) :
    RoundTierOk K phase' t := by
  have hidle := h.idle hphase
  refine ⟨h.serve, h.tags, fun hne => absurd hidle hne, h.resting, fun ended failed hcall => ?_⟩
  rw [hidle] at hcall
  exact absurd hcall (by simp)

/-! ### The steps of a call -/

/-- The call's locked section leaves no pin that nobody will release: it gets through, or nothing
is resident before the first expert that is not in the store. -/
def EnterClean (T : Tier) (layer : ℤ) (experts : List ℤ) (set : ℤ) : Prop :=
  ∀ l, ArgsOk T layer experts set l → (∀ x ∈ experts, available T l x = true) ∨
    ∀ x ∈ experts.takeWhile (available T l), residentNow T l x = false

theorem perm_insert_iff {α : Type} (xs new ys : List α) :
    (xs ++ new ++ ys).Perm (xs ++ ys) ↔ new = [] := by
  constructor
  · intro h
    have := h.length_eq
    simp only [List.length_append] at this
    exact List.eq_nil_of_length_eq_zero (by omega)
  · rintro rfl
    rw [List.append_nil]

/-- The locked section of a call. -/
theorem RoundTierOk.enter {set : ℕ} {layer : ℤ} {experts : List ℤ}
    (h : RoundTierOk K (.fetching set layer experts) t)
    (hr : RowsRespected t.mem (.sys (.prefillFetch layer experts set)))
    (hs : t.enter K set layer experts = some t') :
    RoundTierOk K (.fetching set layer experts) t' ∧
      (t'.leftPins.Perm t.leftPins ↔ EnterClean t.mem.sys.tier layer experts set) := by
  rw [RoundTier.enter] at hs
  split at hs
  · next hcall =>
    obtain ⟨M, hM, rfl⟩ := Option.map_eq_some_iff.mp hs
    have hserve : ServeOk K M := h.serve.step hr hM
    -- a tier makes one call at a time
    have hnone : t.mem.sys.fetching = [] := h.resting (by simp [hcall])
    obtain ⟨S, hS, rfl⟩ : ∃ S, t.mem.sys.step (.prefillFetch layer experts set) = some S ∧
        { t.mem with sys := S } = M := by
      have hM' := hM
      simp only [MemSys.step] at hM'
      exact Option.map_eq_some_iff.mp hM'
    obtain rfl := Option.some.inj hS
    by_cases hargs : ∃ l, ArgsOk t.mem.sys.tier layer experts set l
    · obtain ⟨l, hl⟩ := hargs
      obtain ⟨herr, hfetch⟩ := fetchError_of_argsOk hl
      have hc : (t.mem.sys.prefillFetch layer experts set).tier.config =
          t.mem.sys.tier.config := config_of_memStep h.serve hM
      by_cases hall : ∀ x ∈ experts, available t.mem.sys.tier l x = true
      · -- every expert is in the store: the call reads
        rw [if_pos ((pinExperts_available experts).mpr hall)] at hfetch
        rw [(expertsError_eq_none experts).mpr hall] at herr
        rw [hfetch] at hserve hc ⊢
        refine ⟨⟨hserve, h.tags, fun _ => ⟨set, layer, experts, rfl⟩, ?_, ?_⟩, ?_⟩
        · intro hrest
          exact absurd (by rw [herr]) (hrest [] false)
        · intro ended failed hread set' layer' experts' hphase
          rw [herr] at hread
          obtain ⟨rfl, rfl⟩ := FetchCall.reading.inj hread
          obtain ⟨rfl, rfl, rfl⟩ := RoundPhase.fetching.inj hphase
          refine ⟨⟨l, experts, (Sys.pinExperts t.mem.sys.tier l experts).2.2⟩,
            congrArg (· ++ _) hnone, ?_, rfl, fun y hy => ?_, fun _ i hi => ?_⟩
          · exact (congrArg (checked layer) (nLayers_of_config hc)).trans hl.layer
          · obtain ⟨e, he, -⟩ := (Option.any_eq_true _ _).mp (hall y hy)
            exact ⟨e, (congrArg (checked y) (nExperts_of_config hc)).trans he⟩
          · exact absurd hi List.not_mem_nil
        · refine ⟨fun _ l' hl' => .inl ?_, fun _ => List.Perm.refl _⟩
          obtain rfl : l = l' := Option.some.inj (hl.layer.symm.trans hl'.layer)
          exact hall
      · -- an expert is not in the store: what has been pinned so far stays pinned
        rw [if_neg fun h => hall ((pinExperts_available experts).mp h)] at hfetch
        obtain ⟨rc, hrc⟩ : ∃ rc, expertsError t.mem.sys.tier l experts = some rc :=
          Option.ne_none_iff_exists'.mp fun h => hall ((expertsError_eq_none experts).mp h)
        rw [hrc] at herr
        rw [hfetch] at hserve hc ⊢
        refine ⟨⟨hserve, h.tags, fun _ => ⟨set, layer, experts, rfl⟩, fun _ => hnone, ?_⟩, ?_⟩
        · intro ended failed hread
          rw [herr] at hread
          exact absurd hread (by simp)
        · refine (perm_insert_iff t.mem.sys.leaked _ _).trans ((pinExperts_nothing experts).trans ?_)
          constructor
          · intro hclean l' hl'
            obtain rfl : l = l' := Option.some.inj (hl.layer.symm.trans hl'.layer)
            exact .inr hclean
          · intro hclean
            exact (hclean l hl).resolve_left hall
    · -- the call is refused
      obtain ⟨⟨rc, -, herr⟩, hfetch⟩ := fetchError_of_not_argsOk fun l hl => hargs ⟨l, hl⟩
      rw [hfetch] at hserve ⊢
      refine ⟨⟨hserve, h.tags, fun _ => ⟨set, layer, experts, rfl⟩, fun _ => hnone, ?_⟩, ?_⟩
      · intro ended failed hread
        rw [herr] at hread
        exact absurd hread (by simp)
      · exact ⟨fun _ l hl => absurd ⟨l, hl⟩ hargs, fun _ => List.Perm.refl _⟩
  · exact absurd hs (by simp)

/-- A call that reads, with another record at a position it has not got yet. -/
theorem Reading.write {set i : ℕ} {x : ℤ} {xs : List ℤ} {ended : List ℕ} {failed : Bool}
    {f : Fetch} (h : Reading K t set x xs ended failed f) (hi : i ∉ ended) (b : B) :
    Reading K (t.write set i b) set x xs ended failed f := by
  refine ⟨h.fetching, h.layer, h.experts, h.inRange, fun hfail j hj => ?_⟩
  have hji : j ≠ i := fun hji => hi (hji ▸ hj)
  refine (h.bytes hfail j hj).trans (congrArg some ?_)
  simp [RoundTier.write, hji]

/-- A piece of a read. -/
theorem RoundTierOk.piece {set i : ℕ} {layer : ℤ} {experts : List ℤ} {b : B}
    (h : RoundTierOk K (.fetching set layer experts) t) (hs : t.piece set i b = some t') :
    RoundTierOk K (.fetching set layer experts) t' ∧ t'.leftPins = t.leftPins := by
  rw [RoundTier.piece] at hs
  split at hs
  · next ended failed hcall =>
    split at hs
    · next hpend =>
      obtain rfl := Option.some.inj hs
      refine ⟨⟨h.serve, h.tags, h.busy, h.resting, ?_⟩, rfl⟩
      intro ended' failed' hcall' set' layer' experts' hphase
      obtain ⟨rfl, rfl, rfl⟩ := RoundPhase.fetching.inj hphase
      obtain ⟨f, hf⟩ := h.reading ended' failed' hcall' _ _ _ rfl
      obtain ⟨rfl, rfl⟩ := FetchCall.reading.inj (hcall.symm.trans hcall')
      exact ⟨f, hf.write hpend.2 b⟩
    · exact absurd hs (by simp)
  · exact absurd hs (by simp)

/-- The end of a read. -/
theorem RoundTierOk.readEnd {set i : ℕ} {layer : ℤ} {experts : List ℤ} {ok : Bool}
    (h : RoundTierOk K (.fetching set layer experts) t) (hs : t.readEnd K set i ok = some t') :
    RoundTierOk K (.fetching set layer experts) t' ∧ t'.leftPins = t.leftPins := by
  rw [RoundTier.readEnd] at hs
  split at hs
  · next ended failed hcall =>
    split at hs
    · next hpend =>
      obtain ⟨b, hb, rfl⟩ := Option.map_eq_some_iff.mp hs
      obtain ⟨f, hf⟩ := h.reading ended failed hcall _ _ _ rfl
      cases ok with
      | true =>
        refine ⟨⟨h.serve, h.tags, fun _ => ⟨_, _, _, rfl⟩, fun hrest => absurd rfl (hrest _ _), ?_⟩,
          rfl⟩
        intro ended' failed' hcall' set' layer' experts' hphase
        obtain ⟨rfl, rfl, rfl⟩ := RoundPhase.fetching.inj hphase
        obtain ⟨rfl, rfl⟩ := FetchCall.reading.inj hcall'
        refine ⟨f, hf.fetching, hf.layer, hf.experts, hf.inRange, fun hfail j hj => ?_⟩
        rcases List.mem_cons.mp hj with rfl | hj
        · refine hb.trans (congrArg some ?_)
          simp [RoundTier.write]
        · exact (hf.write hpend.2 b).bytes (by simpa using hfail) j hj
      | false =>
        refine ⟨⟨h.serve, h.tags, fun _ => ⟨_, _, _, rfl⟩, fun hrest => absurd rfl (hrest _ _), ?_⟩,
          rfl⟩
        intro ended' failed' hcall' set' layer' experts' hphase
        obtain ⟨rfl, rfl, rfl⟩ := RoundPhase.fetching.inj hphase
        obtain ⟨rfl, rfl⟩ := FetchCall.reading.inj hcall'
        exact ⟨f, hf.fetching, hf.layer, hf.experts, hf.inRange, fun hfail => by simp at hfail⟩
    · exact absurd hs (by simp)
  · exact absurd hs (by simp)

/-- What a call that reads becomes when it returns. -/
theorem ret_cases {set : ℕ} (hs : t.ret K set = some t') : ∃ ended failed f,
    t.call = .reading ended failed ∧ t.current = some f ∧
      (∀ i < f.taken.length, f.taken[i]? = some none → i ∈ ended) ∧
      t.mem.step K (.sys (.prefillRead 0 (!failed))) = some t'.mem ∧ t'.sets = t.sets ∧
      t'.call = .returned (if failed then -5 else (f.taken.count none : ℕ)) ∧
      t'.tags = if failed then t.tags else t.tags ++ [some set] := by
  rw [RoundTier.ret] at hs
  split at hs
  · next ended failed f hcall hcur =>
    split at hs
    · next hall =>
      obtain ⟨M, hM, rfl⟩ := Option.map_eq_some_iff.mp hs
      exact ⟨ended, failed, f, hcall, hcur, fun i hi => hall i (List.mem_range.mpr hi), hM, rfl, rfl,
        rfl⟩
    · exact absurd hs (by simp)
  · exact absurd hs (by simp)

/-- The return of a call: a call that fails keeps what it has pinned. -/
theorem RoundTierOk.ret {set : ℕ} {layer : ℤ} {experts : List ℤ}
    (h : RoundTierOk K (.fetching set layer experts) t) (hs : t.ret K set = some t')
    (hr : ∀ ended failed, t.call = .reading ended failed →
      RowsRespected t.mem (.sys (.prefillRead 0 (!failed)))) :
    RoundTierOk K (.fetching set layer experts) t' ∧
      (t'.leftPins.Perm t.leftPins ↔ ∀ ended, t.call = .reading ended true →
        ∀ f, t.current = some f → f.slots = []) := by
  obtain ⟨ended, failed, f, hcall, hcur, -, hM, hsets, hret, htags⟩ := ret_cases hs
  have hserve : ServeOk K t'.mem := h.serve.step (hr ended failed hcall) hM
  obtain ⟨g, hg⟩ := h.reading ended failed hcall _ _ _ rfl
  obtain rfl : g = f := by
    rw [RoundTier.current, hg.fetching] at hcur
    exact Option.some.inj hcur
  obtain ⟨S, hS, hmem⟩ : ∃ S, t.mem.sys.step (.prefillRead 0 (!failed)) = some S ∧
      { t.mem with sys := S } = t'.mem := by
    simp only [MemSys.step] at hM
    exact Option.map_eq_some_iff.mp hM
  obtain ⟨g', hg', hS⟩ := Option.bind_eq_some_iff.mp hS
  have hget : t.mem.sys.fetching[0]? = some g := by rw [hg.fetching]; rfl
  obtain rfl := Option.some.inj (hg'.symm.trans hget)
  have hrest : t.mem.sys.fetching.eraseIdx 0 = [] := by rw [hg.fetching]; rfl
  have hnot : ∀ e f, t'.call ≠ .reading e f := by
    intro e f hc
    rw [hret] at hc
    exact absurd hc (by simp)
  have hok : ∀ (hf : t'.mem.sys.fetching = [])
      (ht : t'.tags.length = t'.mem.sys.fetched.length),
      RoundTierOk K (.fetching set layer experts) t' := fun hf ht =>
    ⟨hserve, ht, fun _ => ⟨_, _, _, rfl⟩, fun _ => hf, fun e f hc => absurd hc (hnot e f)⟩
  cases failed with
  | true =>
    rw [if_neg (by simp)] at hS
    split at hS
    · obtain rfl := Option.some.inj hS
      rw [if_pos rfl] at htags
      refine ⟨hok ?_ ?_, ?_⟩
      · rw [← hmem]
        exact hrest
      · rw [← hmem, htags]
        exact h.tags
      · rw [RoundTier.leftPins, RoundTier.leftPins, RoundTier.entries, RoundTier.entries, htags,
          ← hmem]
        refine (perm_insert_iff t.mem.sys.leaked _ _).trans ⟨fun hnil _ _ f hf => ?_, fun hnil => ?_⟩
        · rw [← Option.some.inj (hcur.symm.trans hf)]
          exact hnil
        · exact hnil ended hcall g' hcur
    · exact absurd hS (by simp)
  | false =>
    rw [if_pos (by simp)] at hS
    obtain rfl := Option.some.inj hS
    rw [if_neg (by simp)] at htags
    refine ⟨hok ?_ ?_, ?_⟩
    · rw [← hmem]
      exact hrest
    · rw [← hmem, htags]
      change (t.tags ++ [some set]).length = (t.mem.sys.fetched ++ [g']).length
      rw [List.length_append, List.length_append, h.tags]
      rfl
    · have heq : t'.leftPins = t.leftPins := by
        rw [RoundTier.leftPins, RoundTier.leftPins, RoundTier.entries, RoundTier.entries, htags,
          ← hmem]
        dsimp only
        rw [List.zip_append h.tags.symm, List.filter_append]
        simp
      rw [heq]
      refine ⟨fun _ ended' hcall' => ?_, fun _ => List.Perm.refl _⟩
      rw [hcall] at hcall'
      exact absurd hcall' (by simp)

theorem zip_eraseIdx {α β : Type} (xs : List α) (ys : List β) (i : ℕ) :
    (xs.eraseIdx i).zip (ys.eraseIdx i) = (xs.zip ys).eraseIdx i := by
  induction xs generalizing ys i with
  | nil => simp
  | cons x xs ih =>
    cases ys with
    | nil => simp
    | cons y ys =>
      cases i with
      | zero => rfl
      | succ i => exact congrArg ((x, y) :: ·) (ih ys i)

/-- The release of a fetched round. -/
theorem RoundTierOk.release {set : ℕ} {layer : ℤ} {experts : List ℤ} (h : RoundTierOk K phase t)
    (hs : t.release K set layer experts = some t')
    (hr : RowsRespected t.mem
      (.sys (.prefillRelease layer experts (t.tags.idxOf (some set))))) :
    RoundTierOk K phase t' ∧ t'.leftPins.Perm t.leftPins := by
  obtain ⟨M, hM, rfl⟩ := Option.map_eq_some_iff.mp hs
  have hserve : ServeOk K M := h.serve.step hr hM
  have hc : M.sys.tier.config = t.mem.sys.tier.config := config_of_memStep h.serve hM
  generalize hi : t.tags.idxOf (some set) = i at hr hM ⊢
  -- the round that is released is one of those fetched
  obtain ⟨f, hf, hle⟩ := (Option.any_eq_true _ _).mp (hr _ rfl).disciplined
  simp only [Bool.and_eq_true, beq_iff_eq] at hle
  obtain ⟨rfl, rfl⟩ := hle
  have hlt : f.layer < t.mem.sys.tier.nLayers :=
    (h.serve.pins.rounds f (List.mem_append_right _ (List.mem_of_getElem? hf))).1
  obtain ⟨c, hsys⟩ := h.serve.sys
  have hon : t.mem.sys.tier.tail.on = true :=
    (congrArg Config.on hsys.disp.config).trans hsys.disp.on
  obtain ⟨S, hS, rfl⟩ : ∃ S, t.mem.sys.step (.prefillRelease f.layer f.experts i) = some S ∧
      { t.mem with sys := S } = M := by
    have hM' := hM
    simp only [MemSys.step] at hM'
    exact Option.map_eq_some_iff.mp hM'
  have hrel : t.mem.sys.prefillRelease f.layer f.experts i =
      { t.mem.sys.setTier (lruTrim (Sys.unpinExperts t.mem.sys.tier f.layer f.experts) f.layer) with
        fetched := t.mem.sys.fetched.eraseIdx i } := by
    rw [Sys.prefillRelease, checked_ofNat hlt]
    exact if_pos hon
  obtain rfl : t.mem.sys.prefillRelease f.layer f.experts i = S := Option.some.inj hS
  rw [hrel] at hserve hc ⊢
  have hilt : i < t.mem.sys.fetched.length := (List.getElem?_eq_some_iff.mp hf).1
  have htag : t.tags[i]? = some (some set) := by
    rw [← hi] at hilt ⊢
    rw [← h.tags] at hilt
    exact List.getElem?_idxOf (List.idxOf_lt_length_iff.mp hilt)
  refine ⟨⟨hserve, ?_, h.busy, h.resting, ?_⟩, ?_⟩
  · change (t.tags.eraseIdx i).length = (t.mem.sys.fetched.eraseIdx i).length
    rw [List.length_eraseIdx, List.length_eraseIdx, h.tags]
  · intro ended failed hcall set' layer' experts' hphase
    obtain ⟨g, hg⟩ := h.reading ended failed hcall set' layer' experts' hphase
    exact ⟨g, hg.of_same rfl hc rfl⟩
  · have hentry : t.entries[i]? = some (f, some set) := by
      rw [RoundTier.entries, List.getElem?_zip_eq_some]
      exact ⟨hf, htag⟩
    have hperm := (perm_cons_eraseIdx hentry).filter fun e => e.2 = none
    rw [List.filter_cons_of_neg (by simp)] at hperm
    refine List.Perm.append_left _ (List.Perm.flatMap_right _ ?_)
    have herase : (t.mem.sys.fetched.eraseIdx i).zip (t.tags.eraseIdx i) = t.entries.eraseIdx i :=
      zip_eraseIdx _ _ i
    change (((t.mem.sys.fetched.eraseIdx i).zip (t.tags.eraseIdx i)).filter _).Perm _
    rw [herase]
    exact hperm.symm

/-- The entries that nobody will release once those of the set are given up. -/
theorem perm_retag (set : ℕ) (es : List (Fetch × Option ℕ)) :
    (((es.map fun e => (e.1, if e.2 = some set then none else e.2)).filter
        fun e => e.2 = none).flatMap fun e => e.1.slots).Perm
      (((es.filter fun e => e.2 = none).flatMap fun e => e.1.slots) ++
        (es.filter fun e => e.2 = some set).flatMap fun e => e.1.slots) := by
  induction es with
  | nil => exact List.Perm.refl _
  | cons e es ih =>
    obtain ⟨f, tag⟩ := e
    rw [List.map_cons]
    rcases eq_or_ne tag (some set) with rfl | hne
    · rw [if_pos rfl, List.filter_cons_of_pos (by simp), List.filter_cons_of_neg (by simp),
        List.filter_cons_of_pos (by simp), List.flatMap_cons, List.flatMap_cons]
      exact ((List.Perm.append_left _ ih).trans (List.perm_append_comm_assoc _ _ _))
    · rw [if_neg hne]
      cases tag with
      | none =>
        rw [List.filter_cons_of_pos (by simp), List.filter_cons_of_pos (by simp),
          List.filter_cons_of_neg (by simp), List.flatMap_cons, List.flatMap_cons,
          List.append_assoc]
        exact List.Perm.append_left _ ih
      | some set' =>
        rw [List.filter_cons_of_neg (by simp), List.filter_cons_of_neg (by simp),
          List.filter_cons_of_neg (by simpa using hne)]
        exact ih

/-- The end of a round for a tier: the pins of a failed round are left. -/
theorem RoundTierOk.finish {set : ℕ} (h : RoundTierOk K phase t)
    (hret : ∃ rc, t.call = .returned rc) (good : Bool) :
    RoundTierOk K .idle (t.finish set good) ∧
      ((t.finish set good).leftPins.Perm t.leftPins ↔
        good = true ∨ ∀ e ∈ t.entries, e.2 = some set → e.1.slots = []) := by
  obtain ⟨rc, hrc⟩ := hret
  have hnone : t.mem.sys.fetching = [] := h.resting (by simp [hrc])
  refine ⟨⟨h.serve, ?_, fun hne => absurd rfl hne, fun _ => hnone, fun _ _ hc => ?_⟩, ?_⟩
  · refine Eq.trans ?_ h.tags
    cases good with
    | true => rfl
    | false => exact List.length_map _
  · exact absurd hc (by simp [RoundTier.finish])
  · cases good with
    | true => exact ⟨fun _ => .inl rfl, fun _ => List.Perm.refl _⟩
    | false =>
      have hentries : (t.finish set false).entries =
          t.entries.map fun e => (e.1, if e.2 = some set then none else e.2) := by
        rw [RoundTier.entries, RoundTier.entries]
        exact List.zip_map_right
      rw [RoundTier.leftPins, hentries]
      refine Iff.trans (b := ((t.entries.filter fun e => e.2 = some set).flatMap fun e =>
        e.1.slots) = []) ?_ ?_
      · refine (List.perm_append_left_iff _).trans ?_
        rw [(perm_retag set t.entries).congr_left]
        constructor
        · intro hperm
          have := hperm.length_eq
          rw [List.length_append] at this
          exact List.eq_nil_of_length_eq_zero (by omega)
        · intro hnil
          rw [hnil, List.append_nil]
      · simp

/-! ### What a call returns -/

/-- The pointers of a call that succeeds point to the records. -/
theorem RoundTierOk.outPtrs {set : ℕ} {layer : ℤ} {experts : List ℤ}
    (h : RoundTierOk K (.fetching set layer experts) t) (hs : t.ret K set = some t') {rc : ℤ}
    (hcall' : t'.call = .returned rc) (hrc : 0 ≤ rc) : ∀ (i : ℕ) x, experts[i]? = some x →
      ∃ l e p, checked layer t.mem.sys.tier.nLayers = some l ∧
        checked x t.mem.sys.tier.nExperts = some e ∧ (t.outPtrs set)[i]? = some p ∧
          t'.byPtr p = K.file l e := by
  obtain ⟨ended, failed, f, hcall, hcur, hended, hM, hsets, hret, -⟩ := ret_cases hs
  obtain ⟨g, hg⟩ := h.reading ended failed hcall _ _ _ rfl
  obtain rfl : g = f := by
    rw [RoundTier.current, hg.fetching] at hcur
    exact Option.some.inj hcur
  obtain rfl : failed = false := by
    cases failed with
    | false => rfl
    | true =>
      rw [hret, if_pos rfl] at hcall'
      rw [← FetchCall.returned.inj hcall'] at hrc
      exact absurd hrc (by decide)
  intro i x hx
  obtain ⟨e, he⟩ := hg.inRange x (List.mem_of_getElem? hx)
  rw [← hg.experts] at hx
  have hround : g.Ok t.mem.sys.tier := by
    refine h.serve.pins.rounds g (List.mem_append_left _ ?_)
    rw [hg.fetching]
    exact List.mem_singleton_self g
  have hptrs : t.outPtrs set = g.ptrs set := by rw [RoundTier.outPtrs, hcur]; rfl
  have hmem : t'.mem.mem = t.mem.mem ∧ t'.mem.sys.tier.tail = t.mem.sys.tier.tail := by
    simp only [MemSys.step] at hM
    obtain ⟨S, hS, hM⟩ := Option.map_eq_some_iff.mp hM
    obtain ⟨f, -, hS⟩ := Option.bind_eq_some_iff.mp hS
    rw [if_pos (by simp)] at hS
    rw [← hM, ← Option.some.inj hS]
    exact ⟨rfl, rfl⟩
  obtain ⟨hilt, hget⟩ := List.getElem?_eq_some_iff.mp hx
  have hilt' : i < g.taken.length := hround.2.length_eq ▸ hilt
  have htaken : TakenOk t.mem.sys.tier.nExperts (t.mem.sys.tier.layers g.layer).slotOf
      g.experts[i] g.taken[i] := hround.2.get hilt hilt'
  have htaken? : g.taken[i]? = some g.taken[i] := List.getElem?_eq_getElem hilt'
  rw [hget] at htaken
  cases htk : g.taken[i] with
  | some s =>
    -- the record has been resident and pinned since the locked section
    rw [htk] at htaken htaken?
    refine ⟨g.layer, e, .slot s, hg.layer, he, hptrs ▸ Fetch.getElem?_ptrs_slot htaken?, ?_⟩
    obtain ⟨e', he', hslot⟩ := htaken s rfl
    obtain rfl : e = e' := Option.some.inj (he.symm.trans he')
    obtain ⟨c, hsys⟩ := h.serve.sys
    obtain ⟨ns, ha⟩ := hsys.disp.arena
    have hrec := (ha.layer g.layer hround.1).resident e s hslot
    rw [RoundTier.byPtr, hmem.1, MemSys.addr, hmem.2]
    exact h.serve.index.bytes g.layer hround.1 e _ hrec
  | none =>
    -- the record has been read into the prefill arena
    rw [htk] at htaken?
    refine ⟨g.layer, e, .position set i, hg.layer, he,
      hptrs ▸ Fetch.getElem?_ptrs_position htaken?, ?_⟩
    have hbytes := hg.bytes rfl i (hended i hilt' htaken?)
    have hrecord : t.recordAt K i = some (K.file g.layer e) := by
      rw [RoundTier.recordAt, hcur]
      change (g.experts[i]?.bind _) = _
      rw [hx]
      change (CpuTier.checked x _).map _ = _
      rw [he]
      rfl
    rw [RoundTier.byPtr, hsets]
    exact Option.some.inj (hbytes.symm.trans hrecord)

/-! ### Whole runs -/

/-- Every tier is in order. -/
def RoundsOk (K : Store B A Y) (V : ℕ) (s : Rounds B A Y) : Prop :=
  ∀ v < V, RoundTierOk K s.phase (s.tiers v)

/-- The step leaves no pin that nobody will release. -/
def LeavesNoPin (V : ℕ) (s s' : Rounds B A Y) : Prop :=
  ∀ v < V, (s'.tiers v).leftPins.Perm (s.tiers v).leftPins

/-- A call that returns an error has pinned nothing, and a round that fails has pinned nothing on
any tier. The slots of a call are those of the experts that were resident when it entered its locked
section (`pinExperts_nothing`), so that this is about residency there. -/
def Clean (V : ℕ) (s : Rounds B A Y) : RoundAct B A → Prop
  | .enter v => ∀ set layer experts, s.phase = .fetching set layer experts →
      EnterClean (s.tiers v).mem.sys.tier layer experts set
  | .ret v => ∀ ended, (s.tiers v).call = .reading ended true →
      ∀ f, (s.tiers v).current = some f → f.slots = []
  | .finish => ∀ set layer experts, s.phase = .fetching set layer experts → s.good V = true ∨
      ∀ v < V, ∀ e ∈ (s.tiers v).entries, e.2 = some set → e.1.slots = []
  | _ => True

theorem roundsOk_setTier {v : ℕ} {phase : RoundPhase}
    (hphase : ∀ u < V, u ≠ v → RoundTierOk K phase (s.tiers u)) (ht : RoundTierOk K phase t) :
    RoundsOk K V { s.setTier v t with phase := phase } := by
  intro u hu
  rcases eq_or_ne u v with rfl | hne
  · simpa [Rounds.setTier] using ht
  · simpa [Rounds.setTier, hne] using hphase u hu hne

theorem leavesNoPin_setTier {v : ℕ} (hv : v < V) (hs : s'.tiers = (s.setTier v t).tiers) :
    LeavesNoPin V s s' ↔ t.leftPins.Perm (s.tiers v).leftPins := by
  rw [LeavesNoPin, hs]
  constructor
  · intro h
    simpa [Rounds.setTier] using h v hv
  · intro h u hu
    rcases eq_or_ne u v with rfl | hne
    · simpa [Rounds.setTier] using h
    · simp [Rounds.setTier, hne]

/-- A step of one tier's call. -/
theorem callStep_cases {v : ℕ}
    {f : RoundTier B A Y → ℕ → ℤ → List ℤ → Option (RoundTier B A Y)}
    (hs : s.callStep V v f = some s') : ∃ set layer experts t, s.phase = .fetching set layer experts ∧
      v < V ∧ f (s.tiers v) set layer experts = some t ∧ s.setTier v t = s' := by
  rw [Rounds.callStep] at hs
  split at hs
  · next set layer experts hphase =>
    split at hs
    · next hv =>
      obtain ⟨t, ht, rfl⟩ := Option.map_eq_some_iff.mp hs
      exact ⟨set, layer, experts, t, hphase, hv, ht, rfl⟩
    · exact absurd hs (by simp)
  · exact absurd hs (by simp)

/-- The other tiers are as they were. -/
theorem RoundsOk.call (h : RoundsOk K V s) {v : ℕ} (ht : RoundTierOk K s.phase t) :
    RoundsOk K V (s.setTier v t) :=
  roundsOk_setTier (fun u hu _ => h u hu) ht

/-- **One step.** -/
theorem RoundsOk.step (h : RoundsOk K V s) {a : RoundAct B A} (ha : RoundsRespected s a)
    (hs : s.step K V a = some s') : RoundsOk K V s' ∧ (LeavesNoPin V s s' ↔ Clean V s a) := by
  cases a with
  | tier v a =>
    simp only [Rounds.step] at hs
    split at hs
    · next hv =>
      obtain ⟨M, hM, rfl⟩ := Option.map_eq_some_iff.mp hs
      refine ⟨h.call ((h v hv.1).tier hv.2 (ha v a rfl) hM), ?_⟩
      refine (leavesNoPin_setTier hv.1 rfl).trans ⟨fun _ => trivial, fun _ => ?_⟩
      have hsame := sameRounds_of_memStep hM hv.2
      rw [RoundTier.leftPins, RoundTier.leftPins, RoundTier.entries, RoundTier.entries,
        hsame.fetched, hsame.leaked]
    · exact absurd hs (by simp)
  | release set =>
    simp only [Rounds.step] at hs
    split at hs
    · next r hphase hlast =>
      obtain rfl := Option.some.inj hs
      refine ⟨fun v hv => (h v hv).rephase (by simp [hphase]) _, ?_⟩
      exact ⟨fun _ => trivial, fun _ v hv => List.Perm.refl _⟩
    · exact absurd hs (by simp)
  | releaseNext =>
    simp only [Rounds.step] at hs
    split at hs
    · next set layer experts v hphase =>
      have hidle : ∀ set layer experts, s.phase ≠ .fetching set layer experts := by simp [hphase]
      split at hs
      · next hv =>
        obtain ⟨t, ht, rfl⟩ := Option.map_eq_some_iff.mp hs
        have hr := ha v (.sys (.prefillRelease layer experts ((s.tiers v).tags.idxOf (some set))))
          (by simp only [RoundAct.memAct, hphase])
        obtain ⟨hok, hperm⟩ := (h v hv).release ht hr
        refine ⟨roundsOk_setTier (fun u hu _ => (h u hu).rephase hidle _) (hok.rephase hidle _), ?_⟩
        exact (leavesNoPin_setTier hv rfl).trans ⟨fun _ => trivial, fun _ => hperm⟩
      · obtain rfl := Option.some.inj hs
        refine ⟨fun v hv => (h v hv).rephase hidle _, ?_⟩
        exact ⟨fun _ => trivial, fun _ v hv => List.Perm.refl _⟩
    · exact absurd hs (by simp)
  | start set layer experts =>
    simp only [Rounds.step] at hs
    split at hs
    · next hstart =>
      obtain rfl := Option.some.inj hs
      refine ⟨fun v hv => ?_, fun _ => trivial, fun _ v hv => List.Perm.refl _⟩
      -- between two rounds no call is under way, so every tier rests
      have hidle := (h v hv).idle (by simp [hstart.1])
      refine ⟨(h v hv).serve, (h v hv).tags, fun _ => ⟨_, _, _, rfl⟩,
        fun _ => (h v hv).resting (by simp [hidle]), fun _ _ hc => absurd hc (by simp)⟩
    · exact absurd hs (by simp)
  | enter v =>
    simp only [Rounds.step] at hs
    obtain ⟨set, layer, experts, t, hphase, hv, ht, rfl⟩ := callStep_cases hs
    have hv' := h v hv
    rw [hphase] at hv'
    -- the pins of a round are taken where it is entered, by the residency there
    obtain ⟨hok, hleft⟩ := hv'.enter (ha v _ (by simp only [RoundAct.memAct, hphase])) ht
    refine ⟨h.call (hphase ▸ hok), (leavesNoPin_setTier hv rfl).trans (hleft.trans ?_)⟩
    constructor
    · intro hclean set' layer' experts' hphase'
      obtain ⟨rfl, rfl, rfl⟩ := RoundPhase.fetching.inj (hphase.symm.trans hphase')
      exact hclean
    · intro hclean
      exact hclean set layer experts hphase
  | piece v i b =>
    simp only [Rounds.step] at hs
    obtain ⟨set, layer, experts, t, hphase, hv, ht, rfl⟩ := callStep_cases hs
    have hv' := h v hv
    rw [hphase] at hv'
    obtain ⟨hok, hleft⟩ := hv'.piece ht
    refine ⟨h.call (hphase ▸ hok), (leavesNoPin_setTier hv rfl).trans ?_⟩
    rw [hleft]
    exact ⟨fun _ => trivial, fun _ => List.Perm.refl _⟩
  | readEnd v i ok =>
    simp only [Rounds.step] at hs
    obtain ⟨set, layer, experts, t, hphase, hv, ht, rfl⟩ := callStep_cases hs
    have hv' := h v hv
    rw [hphase] at hv'
    obtain ⟨hok, hleft⟩ := hv'.readEnd ht
    refine ⟨h.call (hphase ▸ hok), (leavesNoPin_setTier hv rfl).trans ?_⟩
    rw [hleft]
    exact ⟨fun _ => trivial, fun _ => List.Perm.refl _⟩
  | ret v =>
    simp only [Rounds.step] at hs
    obtain ⟨set, layer, experts, t, hphase, hv, ht, rfl⟩ := callStep_cases hs
    have hv' := h v hv
    rw [hphase] at hv'
    obtain ⟨hok, hleft⟩ := hv'.ret ht fun ended failed hcall =>
      ha v _ (by simp only [RoundAct.memAct, hcall])
    exact ⟨h.call (hphase ▸ hok), (leavesNoPin_setTier hv rfl).trans hleft⟩
  | finish =>
    simp only [Rounds.step] at hs
    split at hs
    · next set layer experts hphase =>
      split at hs
      · next hall =>
        obtain rfl := Option.some.inj hs
        -- all calls have returned; what is left is what they had pinned, unless the round was good
        have hfinish : ∀ v < V, RoundTierOk K .idle ((s.tiers v).finish set (s.good V)) ∧
            (((s.tiers v).finish set (s.good V)).leftPins.Perm (s.tiers v).leftPins ↔
              s.good V = true ∨ ∀ e ∈ (s.tiers v).entries, e.2 = some set → e.1.slots = []) := by
          intro v hv
          refine (h v hv).finish ?_ (s.good V)
          have hret := List.all_eq_true.mp hall v (List.mem_range.mpr hv)
          cases hcall : (s.tiers v).call with
          | returned rc => exact ⟨rc, rfl⟩
          | idle | waiting | reading _ _ => simp [hcall] at hret
        refine ⟨fun v hv => (hfinish v hv).1, ?_⟩
        constructor
        · intro hleft set' layer' experts' hphase'
          obtain ⟨rfl, rfl, rfl⟩ := RoundPhase.fetching.inj (hphase.symm.trans hphase')
          by_cases hgood : s.good V = true
          · exact .inl hgood
          · exact .inr fun v hv => ((hfinish v hv).2.mp (hleft v hv)).resolve_left hgood
        · intro hclean v hv
          refine (hfinish v hv).2.mpr ?_
          exact (hclean set layer experts hphase).imp id fun hnil => hnil v hv
      · exact absurd hs (by simp)
    · exact absurd hs (by simp)

theorem roundsOk_of_reachable (h : (roundsSystem K V).Reachable s) : RoundsOk K V s := by
  have hinv : (roundsSystem K V).Invariant (RoundsOk K V) := by
    constructor
    · intro s hs v hv
      obtain ⟨hmem, hcall, htags⟩ := hs.tier v
      obtain ⟨-, -, hfetching, hfetched, -⟩ := hmem.start.calls
      refine ⟨serveOk_start hmem, ?_, fun hne => absurd hcall hne, fun _ => hfetching,
        fun ended failed hc => ?_⟩
      · rw [htags, hfetched]
        rfl
      · rw [hcall] at hc
        exact absurd hc (by simp)
    · intro s a s' _ hs hstep
      exact (hs.step hstep.1 hstep.2).1
  exact hinv.holds h

/-- The slots that the takers of a tier's pins hold and will release: the dispatcher, the callers
of `record_acquire`, the call that reads, and the fetched rounds that a `tail_last` stands for. -/
def RoundTier.heldPins (t : RoundTier B A Y) : List ℕ :=
  t.mem.sys.disp.frame.pinned ++ t.mem.sys.acquired.map Held.slot ++
    t.mem.sys.fetching.flatMap Fetch.slots ++
      (t.entries.filter fun e => e.2 ≠ none).flatMap fun e => e.1.slots

/-- Every pin is one that its taker will release, or one that nobody will. -/
theorem RoundTierOk.pins (h : RoundTierOk K phase t) (r : ℕ) :
    (t.mem.sys.tier.tail.slots r).pins = t.heldPins.count r + t.leftPins.count r := by
  have hfetched : (t.mem.sys.fetched.flatMap Fetch.slots).Perm
      (((t.entries.filter fun e => e.2 ≠ none).flatMap fun e => e.1.slots) ++
        (t.entries.filter fun e => e.2 = none).flatMap fun e => e.1.slots) := by
    have hfst : t.entries.map Prod.fst = t.mem.sys.fetched :=
      List.map_fst_zip h.tags.ge
    have hsplit := (List.filter_append_perm (fun e : Fetch × Option ℕ => decide (e.2 ≠ none))
      t.entries).flatMap_right fun e => e.1.slots
    rw [List.flatMap_append] at hsplit
    rw [← hfst, List.flatMap_map]
    refine hsplit.symm.trans (List.Perm.append_left _ ?_)
    simp
  have hcount := hfetched.count_eq r
  rw [h.serve.pins.pins r]
  simp only [Sys.holders, RoundTier.heldPins, RoundTier.leftPins, List.count_append,
    List.flatMap_append] at hcount ⊢
  omega

/-- **A prefill fetch is all or nothing, but for its pins.** In every run of any number of tiers
whose steps respect the pins, every slot has as many pins as its takers hold and nobody will
release; a step adds none of the latter exactly when no call that returns an error had pinned
something, and no round that fails has pinned something on any tier; and the pointers of a call
that succeeds point to the records of its experts. -/
theorem prefill_all_or_nothing (h : (roundsSystem K V).Reachable s) :
    (∀ v < V, ∀ r, ((s.tiers v).mem.sys.tier.tail.slots r).pins =
      (s.tiers v).heldPins.count r + (s.tiers v).leftPins.count r) ∧
    ∀ a s', RoundsRespected s a → s.step K V a = some s' →
      (LeavesNoPin V s s' ↔ Clean V s a) ∧
      ∀ v, a = .ret v → ∀ rc, (s'.tiers v).call = .returned rc → 0 ≤ rc →
        ∀ set layer experts, s.phase = .fetching set layer experts →
          ∀ (i : ℕ) x, experts[i]? = some x →
            ∃ l e p, checked layer (s.tiers v).mem.sys.tier.nLayers = some l ∧
              checked x (s.tiers v).mem.sys.tier.nExperts = some e ∧
              ((s.tiers v).outPtrs set)[i]? = some p ∧ (s'.tiers v).byPtr p = K.file l e := by
  have hok := roundsOk_of_reachable h
  refine ⟨fun v hv r => (hok v hv).pins r, fun a s' ha hs => ⟨(hok.step ha hs).2, ?_⟩⟩
  rintro v rfl rc hrc hpos set layer experts hphase
  simp only [Rounds.step] at hs
  obtain ⟨set', layer', experts', t, hphase', hv, ht, rfl⟩ := callStep_cases hs
  obtain ⟨rfl, rfl, rfl⟩ := RoundPhase.fetching.inj (hphase.symm.trans hphase')
  have hself : (s.setTier v t).tiers v = t := Function.update_self _ _ _
  rw [hself] at hrc ⊢
  exact (hphase ▸ hok v hv).outPtrs ht hrc hpos

end Invariant

/-! ### A round that succeeds, and three that leave pins -/

/-- Of the tiers' steps only fetches and their returns, and few pins are held. -/
def RoundsFew (s : Rounds ℕ ℕ ℕ) (a : RoundAct ℕ ℕ) : Prop :=
  ((a.memAct s).all fun vb => match vb.2 with
    | .sys (.prefillFetch layer experts set) => decide ((s.tiers vb.1).mem.sys.holders.length +
        (Act.prefillFetch layer experts set).takes < 2 ^ 32)
    | .sys (.prefillRead _ _) => decide ((s.tiers vb.1).mem.sys.holders.length < 2 ^ 32)
    | _ => false) = true

instance (s : Rounds ℕ ℕ ℕ) (a : RoundAct ℕ ℕ) : Decidable (RoundsFew s a) :=
  inferInstanceAs (Decidable (_ = true))

theorem RoundsFew.respected {s : Rounds ℕ ℕ ℕ} {a : RoundAct ℕ ℕ} (h : RoundsFew s a) :
    RoundsRespected s a := by
  intro v b hb c hc
  rw [RoundsFew, hb] at h
  have hcount : ∀ r, (s.tiers v).mem.sys.holders.count r ≤ (s.tiers v).mem.sys.holders.length :=
    fun r => List.count_le_length
  cases b with
  | sys b =>
    obtain rfl := Option.some.inj hc
    cases b with
    | prefillFetch layer experts set =>
      have hlt := of_decide_eq_true h
      exact ⟨trivial, trivial, trivial, fun r => lt_of_le_of_lt (Nat.add_le_add_right (hcount r) _)
        hlt⟩
    | prefillRead i ok =>
      have hlt := of_decide_eq_true h
      exact ⟨trivial, trivial, trivial, fun r => lt_of_le_of_lt (hcount r) hlt⟩
    | _ => exact absurd h (by simp)
  | _ => exact absurd h (by simp)

/-- Two tiers as `smallMem`, with one set for the records of a round. -/
def smallRounds : Rounds ℕ ℕ ℕ where
  tiers _ := ⟨smallMem, fun _ _ => 0, .idle, []⟩
  phase := .idle
  tailLast _ := none

theorem start_smallRounds : RoundsStart smallStore smallRounds :=
  ⟨fun _ => ⟨memStart_smallMem, rfl, rfl⟩, rfl, rfl⟩

/-- A run of `smallRounds` with few pins. -/
theorem exists_rounds_of_run (as : List (RoundAct ℕ ℕ)) (P : Rounds ℕ ℕ ℕ → Bool)
    (h : (TransitionSystem.replay (TransitionSystem.guardedStep RoundsFew
      fun s a => Rounds.step smallStore 2 s a) smallRounds as).any P = true) :
    ∃ s, (roundsSystem smallStore 2).Reachable s ∧ P s = true := by
  obtain ⟨s, hs, hP⟩ := TransitionSystem.exists_reachable_of_replay
    (fun s a => Rounds.step smallStore 2 s a) RoundsFew start_smallRounds as P h
  exact ⟨s, hs.mono fun _ _ ha => ha.respected, hP⟩

/-- A round of a resident and a cold expert: the first tier's call has read the cold one and
returns. -/
theorem prefill_all_or_nothing_small : ∃ s s', (roundsSystem smallStore 2).Reachable s ∧
    s.step smallStore 2 (.ret 0) = some s' ∧ (LeavesNoPin 2 s s' ↔ Clean 2 s (.ret 0)) ∧
      ((s.tiers 0).mem.sys.tier.tail.slots 0).pins =
        (s.tiers 0).heldPins.count 0 + (s.tiers 0).leftPins.count 0 := by
  obtain ⟨s, hs, hP⟩ := exists_rounds_of_run
    [.start 0 0 [0, 1], .enter 1, .enter 0, .piece 0 1 7, .readEnd 0 1 true]
    (fun s => decide (RoundsFew s (.ret 0)) && (s.step smallStore 2 (.ret 0)).isSome) (by decide)
  obtain ⟨hfew, hsome⟩ := Bool.and_eq_true_iff.mp hP
  obtain ⟨s', hs'⟩ := Option.isSome_iff_exists.mp hsome
  obtain ⟨hpins, hstep⟩ := prefill_all_or_nothing hs
  exact ⟨s, s', hs, hs', (hstep _ s' (of_decide_eq_true hfew).respected hs').1,
    hpins 0 (by decide) 0⟩

/-- Pins that stay. The first call pins expert 0 and returns `-3` for the second id, which is out
of range. The second pins expert 0 and returns `-5`, as the read of expert 1 fails. In the third
run the first tier's call succeeds and pins expert 0; the other tier's fails, and the round
ends by an exception. -/
theorem prefill_leaks :
    (∃ s, (roundsSystem smallStore 2).Reachable s ∧ (s.tiers 0).call = .returned (-3) ∧
      (s.tiers 0).leftPins = [0]) ∧
    (∃ s, (roundsSystem smallStore 2).Reachable s ∧ (s.tiers 0).call = .returned (-5) ∧
      (s.tiers 0).leftPins = [0]) ∧
    ∃ s, (roundsSystem smallStore 2).Reachable s ∧ s.phase = .idle ∧ s.tailLast 0 = none ∧
      (s.tiers 0).leftPins = [0] ∧ (s.tiers 1).leftPins = [0] := by
  obtain ⟨s, hs, hP⟩ := exists_rounds_of_run [.start 0 0 [0, 3], .enter 0]
    (fun s => decide ((s.tiers 0).call = .returned (-3) ∧ (s.tiers 0).leftPins = [0])) (by decide)
  obtain ⟨s₁, hs₁, hP₁⟩ := exists_rounds_of_run
    [.start 0 0 [0, 1], .enter 0, .readEnd 0 1 false, .ret 0]
    (fun s => decide ((s.tiers 0).call = .returned (-5) ∧ (s.tiers 0).leftPins = [0])) (by decide)
  obtain ⟨s₂, hs₂, hP₂⟩ := exists_rounds_of_run
    [.start 0 0 [0, 1], .enter 1, .enter 0, .readEnd 0 1 true, .ret 0, .readEnd 1 1 false, .ret 1,
      .finish]
    (fun s => decide (s.phase = .idle ∧ s.tailLast 0 = none ∧ (s.tiers 0).leftPins = [0] ∧
      (s.tiers 1).leftPins = [0])) (by decide)
  exact ⟨⟨s, hs, of_decide_eq_true hP⟩, ⟨s₁, hs₁, of_decide_eq_true hP₁⟩, s₂, hs₂,
    of_decide_eq_true hP₂⟩

end CpuTier

end VllmMoet
