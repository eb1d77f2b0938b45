import VllmMoet.Delta.Bookkeeping

/-!
# The manager thread and the runner's safe point

Promotions by the manager thread are meant to happen between two forwards: `step_end` takes a
snapshot of the routing counts and wakes the manager, the manager makes one pass over it, and
`wait_manager_idle` holds the next forward back until the pass is over. The two threads share
two events, `_wake` and `_manager_idle`, the tier, and the state of the snapshot, which the
manager consumes only once its event has fired on the GPU.

Both threads are stepped statement by statement. The manager's `_loop` waits for `_wake`,
clears it, sleeps for the rate limit, clears `_manager_idle` and makes a pass; a pass that
raises sleeps first; every pass ends by setting `_manager_idle`. A pass that found the event
unfired then wakes the manager itself, after it has declared itself idle.

* `no_overlap`: while no wake is outstanding whenever `wait_manager_idle` returns, the manager
  mutates nothing from there until `step_end` wakes it.
* `self_wake_overlaps`: a run in which the self-wake puts a promotion into a forward.
* `overlap_of_wakeDue`: whenever a wake is outstanding at the safe point, the forward can be
  overlapped.
-/

namespace VllmMoet.Delta

/-- Where the manager stands in `_loop` and `_tick_once`. `ending retry` is about to set
`_manager_idle`; `retrying` is in the micro-sleep before the self-wake. -/
inductive ManagerPC
  | waiting
  | clearing
  | limiting
  | entering
  | consumed
  | promoted
  | failing
  | ending (retry : Bool)
  | retrying
  deriving DecidableEq, Repr

/-- Where the runner stands in its step: before the safe point, in the forward and its
replays, and in the statements of `step_end` and `wake`. -/
inductive RunnerPC
  | ready
  | forward
  | snapping
  | unpinning
  | unidling
  | signalling
  deriving DecidableEq, Repr

/-- The manager may promote, evict, write the slot table or copy into the pool here. -/
def ManagerPC.mutating : ManagerPC → Bool
  | .consumed | .promoted => true
  | _ => false

/-- A pass is under way, up to the moment it sets `_manager_idle`. -/
def ManagerPC.inPass : ManagerPC → Bool
  | .entering | .consumed | .promoted | .failing | .ending _ => true
  | _ => false

/-- The two threads, the two events, the snapshot and the tier. -/
structure ManagerState where
  manager : ManagerPC
  runner : RunnerPC
  wake : Bool
  idle : Bool
  snapshotPending : Bool
  snapshotFired : Bool
  delta : DeltaState

/-- The steps of the manager, of the runner and of the GPU. -/
inductive ManagerAct
  | waitReturns
  | clearWake
  | clearIdle
  | tickOnce
  | promote (v : View) (cnt : Pair → ℕ) (decay : Option ℚ) (fault : Option Fault)
  | pilot (v : View) (pairs : List Pair) (coldTicks : ℕ) (fault : Option Fault)
  | passReturns
  | passRaises
  | backoff
  | setIdle
  | selfWake
  | safePoint
  | run (op : Op)
  | stepEnd
  | snapshot
  | unpin
  | wakeClearIdle
  | wakeSet
  | fire

/-- The manager's own steps. -/
def ManagerAct.byManager : ManagerAct → Bool
  | .waitReturns | .clearWake | .clearIdle | .tickOnce | .promote .. | .pilot .. | .passReturns
  | .passRaises | .backoff | .setIdle | .selfWake => true
  | _ => false

/-- The operations that the runner calls during a step. -/
def Op.byRunner : Op → Bool
  | .prefetch .. | .force .. | .ensureScan .. | .ensureFetch .. | .stepBegin => true
  | .tick | .promote .. | .stepEnd => false

section System

variable (cfg : Config) (T : TopK)

/-- The start of `_tick_once`: count the tick and look at the snapshot. Without one the pass is
over; with one whose event has not fired it asks for a retry; else it consumes it. -/
def tickOnce (s : ManagerState) : ManagerState :=
  let s := { s with
    delta := { s.delta with tier := { s.delta.tier with tick := s.delta.tier.tick + 1 } } }
  if !s.snapshotPending then { s with manager := .ending false }
  else if !s.snapshotFired then { s with manager := .ending true }
  else { s with manager := .consumed, snapshotPending := false }

/-- The locked part of a pass. A pass without routings is over, one that raises backs off. -/
def lockedPart (s : ManagerState) (v : View) (cnt : Pair → ℕ) (decay : Option ℚ)
    (fault : Option Fault) : ManagerState :=
  let r := tickLocked cfg T v s.delta.tier cnt decay fault
  { s with
    delta := { s.delta with tier := r.1 }
    manager :=
      if nonzero cfg cnt = [] then .ending false
      else if r.2 = .raised then .failing else .promoted }

/-- One step of one of the threads or of the GPU. -/
def managerStep (s : ManagerState) : ManagerAct → Option ManagerState
  | .waitReturns =>
    if s.manager = .waiting ∧ s.wake = true then some { s with manager := .clearing } else none
  | .clearWake =>
    if s.manager = .clearing then some { s with manager := .limiting, wake := false } else none
  | .clearIdle =>
    if s.manager = .limiting then some { s with manager := .entering, idle := false } else none
  | .tickOnce => if s.manager = .entering then some (tickOnce s) else none
  | .promote v cnt decay fault =>
    if s.manager = .consumed then some (lockedPart cfg T s v cnt decay fault) else none
  | .pilot v pairs coldTicks fault =>
    -- the look-ahead's exceptions are swallowed inside the pass
    if s.manager = .promoted ∧ cfg.base = true then some { s with
      delta := { s.delta with
        tier := (prefetchPairs cfg T v s.delta.tier pairs coldTicks fault).1 } } else none
  | .passReturns =>
    if s.manager = .promoted then some { s with manager := .ending false } else none
  | .passRaises =>
    if s.manager = .entering ∨ s.manager = .consumed ∨ s.manager = .promoted then
      some { s with manager := .failing } else none
  | .backoff =>
    if s.manager = .failing then some { s with manager := .ending false } else none
  | .setIdle =>
    match s.manager with
    | .ending retry =>
      some { s with manager := if retry then .retrying else .waiting, idle := true }
    | _ => none
  | .selfWake =>
    if s.manager = .retrying then some { s with manager := .waiting, wake := true } else none
  | .safePoint =>
    if s.runner = .ready ∧ s.idle = true then some { s with runner := .forward } else none
  | .run op =>
    if s.runner = .forward ∧ op.byRunner = true then
      (opStep cfg T s.delta op).map fun d => { s with delta := d } else none
  | .stepEnd =>
    if s.runner = .forward then some { s with runner := .snapping } else none
  | .snapshot =>
    if s.runner = .snapping then some { s with
      runner := .unpinning
      snapshotFired := s.snapshotPending && s.snapshotFired
      snapshotPending := true } else none
  | .unpin =>
    if s.runner = .unpinning then some { s with
      runner := .unidling
      delta := { s.delta with tier := clearPins s.delta.tier } } else none
  | .wakeClearIdle =>
    if s.runner = .unidling then some { s with runner := .signalling, idle := false } else none
  | .wakeSet =>
    if s.runner = .signalling then some { s with runner := .ready, wake := true } else none
  | .fire =>
    if s.snapshotPending = true then some { s with snapshotFired := true } else none

/-- Both threads at rest, the manager idle, no snapshot, an empty tier. -/
def ManagerState.init : ManagerState where
  manager := .waiting
  runner := .ready
  wake := false
  idle := true
  snapshotPending := false
  snapshotFired := false
  delta := ⟨Tier.init cfg, []⟩

/-- Where a run starts. -/
def ManagerStart (s : ManagerState) : Prop :=
  s = ManagerState.init cfg

/-- All interleavings of the two threads and the GPU. -/
def managerSystem : TransitionSystem ManagerState ManagerAct :=
  .ofStep (ManagerStart cfg) (managerStep cfg T)

/-- A wake that has not led to a pass yet: the manager is about to wake itself, `_wake` is set,
or the pass has been woken and has not cleared `_manager_idle`. -/
def WakeDue (s : ManagerState) : Prop :=
  s.manager = .retrying ∨ s.wake = true ∨ s.manager = .clearing ∨ s.manager = .limiting

instance (s : ManagerState) : Decidable (WakeDue s) :=
  inferInstanceAs (Decidable (_ ∨ _))

/-- `wait_manager_idle` returns only while no wake is outstanding. -/
def SafeAtRest (s : ManagerState) : ManagerAct → Prop
  | .safePoint => ¬ WakeDue s
  | _ => True

instance (s : ManagerState) (a : ManagerAct) : Decidable (SafeAtRest s a) :=
  match a with
  | .safePoint => inferInstanceAs (Decidable (¬ WakeDue s))
  | .waitReturns | .clearWake | .clearIdle | .tickOnce | .promote .. | .pilot .. | .passReturns
  | .passRaises | .backoff | .setIdle | .selfWake | .run _ | .stepEnd | .snapshot | .unpin
  | .wakeClearIdle | .wakeSet | .fire => .isTrue trivial

end System

/-! ### The invariant -/

/-- How the two threads stand to each other: a pass has `_manager_idle` cleared; while the
runner is in its step the manager rests; an outstanding wake has a snapshot to look at. -/
structure ManagerOk (s : ManagerState) : Prop where
  busy : s.manager.inPass = true → s.idle = false
  rest : s.runner ≠ .ready → s.manager = .waiting ∧ s.wake = false
  cleared : s.manager ≠ .waiting → s.manager ≠ .clearing → s.wake = false
  snapped : s.runner = .unpinning ∨ s.runner = .unidling ∨ s.runner = .signalling →
    s.snapshotPending = true
  due : WakeDue s ∨ s.manager = .entering ∨ s.manager = .ending true → s.snapshotPending = true

section Invariant

variable {cfg : Config} {T : TopK} {s t : ManagerState}

/-- An idle manager without an outstanding wake is waiting for one. -/
theorem ManagerOk.resting (h : ManagerOk s) (hidle : s.idle = true) (hdue : ¬ WakeDue s) :
    s.manager = .waiting ∧ s.wake = false := by
  have hbusy : s.manager.inPass = false := by
    by_contra hpass
    rw [h.busy (by simpa using hpass)] at hidle
    simp at hidle
  simp only [WakeDue, not_or, Bool.not_eq_true] at hdue
  obtain ⟨hretry, hwake, hclear, hlimit⟩ := hdue
  refine ⟨?_, hwake⟩
  cases hm : s.manager <;> simp_all [ManagerPC.inPass]

/-- While the manager is at work the runner has not passed the safe point. -/
theorem ManagerOk.ready (h : ManagerOk s) (hm : s.manager ≠ .waiting ∨ s.wake = true) :
    s.runner = .ready := by
  by_contra hr
  obtain ⟨hwait, hwake⟩ := h.rest hr
  rcases hm with hm | hm
  · exact hm hwait
  · simp [hwake] at hm

/-- What is left to check while the runner is before the safe point. -/
theorem ManagerOk.of_ready (hr : t.runner = .ready)
    (busy : t.manager.inPass = true → t.idle = false)
    (cleared : t.manager ≠ .waiting → t.manager ≠ .clearing → t.wake = false)
    (due : WakeDue t ∨ t.manager = .entering ∨ t.manager = .ending true →
      t.snapshotPending = true) : ManagerOk t :=
  ⟨busy, fun h => absurd hr h, cleared, by simp [hr], due⟩

/-- What is left to check while the manager waits. -/
theorem ManagerOk.of_resting (hm : t.manager = .waiting) (hw : t.wake = false)
    (snapped : t.runner = .unpinning ∨ t.runner = .unidling ∨ t.runner = .signalling →
      t.snapshotPending = true) : ManagerOk t :=
  ⟨by simp [hm, ManagerPC.inPass], fun _ => ⟨hm, hw⟩, by simp [hm], snapped,
    by simp [WakeDue, hm, hw]⟩

/-- A pass that is not about to look at the snapshot: nothing is due. -/
theorem ManagerOk.of_inPass (hr : t.runner = .ready) (hm : t.manager.inPass = true)
    (hidle : t.idle = false) (hwake : t.wake = false) (hentering : t.manager ≠ .entering)
    (hending : t.manager ≠ .ending true) : ManagerOk t := by
  refine .of_ready hr (fun _ => hidle) (fun _ _ => hwake) fun hdue => ?_
  rcases hdue with (h | h | h | h) | h | h
  · simp [h, ManagerPC.inPass] at hm
  · simp [h] at hwake
  · simp [h, ManagerPC.inPass] at hm
  · simp [h, ManagerPC.inPass] at hm
  · exact absurd h hentering
  · exact absurd h hending

/-- The manager's look at the snapshot. -/
theorem ManagerOk.tickOnce (h : ManagerOk s) (hm : s.manager = .entering) :
    ManagerOk (tickOnce s) := by
  have hr := h.ready (.inl (by simp [hm]))
  have hidle := h.busy (by simp [hm, ManagerPC.inPass])
  have hwake := h.cleared (by simp [hm]) (by simp [hm])
  have hp : s.snapshotPending = true := h.due (.inr (.inl hm))
  cases hf : s.snapshotFired
  · refine .of_ready ?_ ?_ ?_ ?_ <;> simp [Delta.tickOnce, hp, hf, hr, hidle, hwake]
  · refine .of_inPass ?_ ?_ ?_ ?_ ?_ ?_ <;>
      simp [Delta.tickOnce, hp, hf, hr, hidle, hwake, ManagerPC.inPass]

/-- A step of the manager keeps the invariant. -/
theorem ManagerOk.manager_step {a : ManagerAct} (h : ManagerOk s) (hman : a.byManager = true)
    (hstep : managerStep cfg T s a = some t) : ManagerOk t := by
  cases a <;> simp only [ManagerAct.byManager, Bool.false_eq_true] at hman <;>
    simp only [managerStep, Option.ite_none_right_eq_some, Option.some.injEq] at hstep
  case waitReturns =>
    obtain ⟨⟨hm, hw⟩, rfl⟩ := hstep
    exact .of_ready (h.ready (.inr hw)) (by simp [ManagerPC.inPass]) (by simp)
      fun _ => h.due (.inl (.inr (.inl hw)))
  case clearWake =>
    obtain ⟨hm, rfl⟩ := hstep
    exact .of_ready (h.ready (.inl (by simp [hm]))) (by simp [ManagerPC.inPass]) (by simp)
      fun _ => h.due (.inl (.inr (.inr (.inl hm))))
  case clearIdle =>
    obtain ⟨hm, rfl⟩ := hstep
    exact .of_ready (h.ready (.inl (by simp [hm]))) (by simp)
      (fun _ _ => h.cleared (by simp [hm]) (by simp [hm]))
      fun _ => h.due (.inl (.inr (.inr (.inr hm))))
  case tickOnce =>
    obtain ⟨hm, rfl⟩ := hstep
    exact h.tickOnce hm
  case promote =>
    obtain ⟨hm, rfl⟩ := hstep
    refine .of_inPass (h.ready (.inl (by simp [hm]))) ?_ (h.busy (by simp [hm, ManagerPC.inPass]))
      (h.cleared (by simp [hm]) (by simp [hm])) ?_ ?_ <;> simp only [lockedPart] <;>
      split <;> (try split) <;> simp [ManagerPC.inPass]
  case pilot =>
    obtain ⟨⟨hm, -⟩, rfl⟩ := hstep
    exact .of_inPass (h.ready (.inl (by simp [hm]))) (by simp [hm, ManagerPC.inPass])
      (h.busy (by simp [hm, ManagerPC.inPass])) (h.cleared (by simp [hm]) (by simp [hm]))
      (by simp [hm]) (by simp [hm])
  case passReturns =>
    obtain ⟨hm, rfl⟩ := hstep
    exact .of_inPass (h.ready (.inl (by simp [hm]))) (by simp [ManagerPC.inPass])
      (h.busy (by simp [hm, ManagerPC.inPass])) (h.cleared (by simp [hm]) (by simp [hm]))
      (by simp) (by simp)
  case passRaises =>
    obtain ⟨hm, rfl⟩ := hstep
    have hm' : s.manager ≠ .waiting ∧ s.manager ≠ .clearing ∧ s.manager.inPass = true := by
      -- a pass raises at any of its three places
      rcases hm with hm | hm | hm <;> simp [hm, ManagerPC.inPass]
    exact .of_inPass (h.ready (.inl hm'.1)) (by simp [ManagerPC.inPass]) (h.busy hm'.2.2)
      (h.cleared hm'.1 hm'.2.1) (by simp) (by simp)
  case backoff =>
    obtain ⟨hm, rfl⟩ := hstep
    exact .of_inPass (h.ready (.inl (by simp [hm]))) (by simp [ManagerPC.inPass])
      (h.busy (by simp [hm, ManagerPC.inPass])) (h.cleared (by simp [hm]) (by simp [hm]))
      (by simp) (by simp)
  case setIdle =>
    split at hstep
    · next retry hm =>
      obtain rfl := Option.some.inj hstep
      have hr := h.ready (.inl (by simp [hm]))
      -- a retry is due to the wake that follows, and rests on the snapshot still being ready
      have hwake := h.cleared (by simp [hm]) (by simp [hm])
      cases retry
      · exact .of_resting rfl hwake (by simp [hr])
      · exact .of_ready hr (by simp [ManagerPC.inPass]) (fun _ _ => hwake)
          fun _ => h.due (.inr (.inr hm))
    · simp at hstep
  case selfWake =>
    obtain ⟨hm, rfl⟩ := hstep
    exact .of_ready (h.ready (.inl (by simp [hm]))) (by simp [ManagerPC.inPass]) (by simp)
      fun _ => h.due (.inl (.inl hm))

/-- One step keeps the invariant. -/
theorem ManagerOk.step {a : ManagerAct} (h : ManagerOk s) (ha : SafeAtRest s a)
    (hstep : managerStep cfg T s a = some t) : ManagerOk t := by
  by_cases hman : a.byManager = true
  · exact h.manager_step hman hstep
  · -- the runner's steps after the safe point find the manager at rest
    have hrest : ∀ {pc}, s.runner = pc → pc ≠ .ready → s.manager = .waiting ∧ s.wake = false :=
      fun hpc hne => h.rest (hpc ▸ hne)
    cases a <;> simp only [ManagerAct.byManager, not_true_eq_false] at hman <;>
      simp only [managerStep, Option.ite_none_right_eq_some, Option.some.injEq] at hstep
    case safePoint =>
      obtain ⟨⟨-, hidle⟩, rfl⟩ := hstep
      obtain ⟨hm, hw⟩ := h.resting hidle ha
      exact .of_resting hm hw (by simp)
    case run op =>
      obtain ⟨-, hop⟩ := hstep
      obtain ⟨d, -, rfl⟩ := Option.map_eq_some_iff.mp hop
      exact ⟨h.busy, h.rest, h.cleared, h.snapped, h.due⟩
    case stepEnd =>
      obtain ⟨hr, rfl⟩ := hstep
      exact .of_resting (hrest hr (by simp)).1 (hrest hr (by simp)).2 (by simp)
    case snapshot =>
      obtain ⟨hr, rfl⟩ := hstep
      exact .of_resting (hrest hr (by simp)).1 (hrest hr (by simp)).2 (by simp)
    case unpin =>
      obtain ⟨hr, rfl⟩ := hstep
      exact .of_resting (hrest hr (by simp)).1 (hrest hr (by simp)).2
        fun _ => h.snapped (.inl hr)
    case wakeClearIdle =>
      obtain ⟨hr, rfl⟩ := hstep
      exact .of_resting (hrest hr (by simp)).1 (hrest hr (by simp)).2
        fun _ => h.snapped (.inr (.inl hr))
    case wakeSet =>
      obtain ⟨hr, rfl⟩ := hstep
      exact .of_ready rfl (by simp [(hrest hr (by simp)).1, ManagerPC.inPass])
        (by simp [(hrest hr (by simp)).1]) fun _ => h.snapped (.inr (.inr hr))
    case fire =>
      obtain ⟨-, rfl⟩ := hstep
      exact ⟨h.busy, h.rest, h.cleared, h.snapped, h.due⟩

/-- The invariant holds in every state of a run in which `wait_manager_idle` returns only while
no wake is outstanding. -/
theorem reachable_managerOk (h : ((managerSystem cfg T).onlySteps SafeAtRest).Reachable s) :
    ManagerOk s := by
  have hinv : ((managerSystem cfg T).onlySteps SafeAtRest).Invariant ManagerOk := by
    constructor
    · rintro s rfl
      constructor <;> simp [ManagerState.init, ManagerPC.inPass, WakeDue]
    · rintro s a t - hs ⟨ha, hstep⟩
      exact hs.step ha hstep
  exact hinv.holds h

/-- What promotions, evictions, slot-table writes and pool copies change. -/
def residency (t : Tier) : List ℕ × (Pair → Option ℕ) × (Pair → Option ℕ) × (ℕ → Option Pair) ×
    (ℕ → Option Pair) :=
  (t.free, t.slotTable, t.mirror, t.owner, t.pool)

/-- Outside its mutating statements the manager leaves the residency alone. -/
theorem residency_of_not_mutating {a : ManagerAct} (hm : s.manager.mutating = false)
    (ha : a.byManager = true) (hstep : managerStep cfg T s a = some t) :
    residency t.delta.tier = residency s.delta.tier := by
  cases a <;> simp only [ManagerAct.byManager, Bool.false_eq_true] at ha
  case setIdle =>
    simp only [managerStep] at hstep
    split at hstep
    · obtain rfl := Option.some.inj hstep
      rfl
    · simp at hstep
  case tickOnce =>
    simp only [managerStep, Option.ite_none_right_eq_some, Option.some.injEq] at hstep
    obtain ⟨-, rfl⟩ := hstep
    simp only [tickOnce]
    split
    · rfl
    · split <;> rfl
  all_goals
    simp only [managerStep, Option.ite_none_right_eq_some, Option.some.injEq] at hstep
    obtain ⟨hguard, rfl⟩ := hstep
    first
      | rfl
      | simp_all [ManagerPC.mutating]

/-- **No mutation overlaps a forward.** From the return of `wait_manager_idle` until `step_end`
wakes the manager, the manager is not in a mutating statement, and no step of its changes the
residency, in every run in which `wait_manager_idle` returns only while no wake is
outstanding. -/
theorem no_overlap (h : ((managerSystem cfg T).onlySteps SafeAtRest).Reachable s)
    (hstep : s.runner ≠ .ready) :
    s.manager.mutating = false ∧ ∀ a t, a.byManager = true →
      managerStep cfg T s a = some t → residency t.delta.tier = residency s.delta.tier := by
  have hrest := (reachable_managerOk h).rest hstep
  have hm : s.manager.mutating = false := by
    rw [hrest.1]
    rfl
  exact ⟨hm, fun a t ha ht => residency_of_not_mutating hm ha ht⟩

/-! ### The condition is exact -/

/-- A woken manager that gets to its snapshot while the runner is in the forward. -/
theorem overlap_of_limiting (hm : s.manager = .limiting) (hr : s.runner = .forward)
    (hp : s.snapshotPending = true) :
    ∃ t, TransitionSystem.replay (managerStep cfg T) s [.clearIdle, .fire, .tickOnce] = some t ∧
      t.runner = .forward ∧ t.manager.mutating = true := by
  refine ⟨tickOnce { s with manager := .entering, idle := false, snapshotFired := true }, ?_, ?_⟩
  · simp [TransitionSystem.replay, managerStep, hm, hp]
  · simp [tickOnce, hp, hr, ManagerPC.mutating]

/-- While a wake is outstanding, the forward that `wait_manager_idle` lets through can be
overlapped: the pass that the wake leads to finds a snapshot to consume. -/
theorem overlap_of_wakeDue (h : ((managerSystem cfg T).onlySteps SafeAtRest).Reachable s)
    (hr : s.runner = .ready) (hidle : s.idle = true) (hdue : WakeDue s) :
    ∃ as t, TransitionSystem.replay (managerStep cfg T) s (.safePoint :: as) = some t ∧
      t.runner = .forward ∧ t.manager.mutating = true := by
  have hok := reachable_managerOk h
  have hp : s.snapshotPending = true := hok.due (.inl hdue)
  -- the manager gets to its rate limit, from wherever the wake stands
  suffices hlimit : ∃ as u, TransitionSystem.replay (managerStep cfg T) s (.safePoint :: as) =
      some u ∧ u.manager = .limiting ∧ u.runner = .forward ∧ u.snapshotPending = true by
    obtain ⟨as, u, hu, hum, hur, hup⟩ := hlimit
    obtain ⟨t, ht, hover⟩ : ∃ t, TransitionSystem.replay (managerStep cfg T) u
        [.clearIdle, .fire, .tickOnce] = some t ∧ t.runner = .forward ∧
          t.manager.mutating = true := overlap_of_limiting hum hur hup
    refine ⟨as ++ [.clearIdle, .fire, .tickOnce], t, ?_, hover⟩
    rw [← List.cons_append]
    exact TransitionSystem.replay_append hu ht
  have hpc : s.manager = .retrying ∨ (s.manager = .waiting ∧ s.wake = true) ∨
      s.manager = .clearing ∨ s.manager = .limiting := by
    rcases hdue with hm | hw | hm | hm
    · exact .inl hm
    · by_cases hwait : s.manager = .waiting
      · exact .inr (.inl ⟨hwait, hw⟩)
      · by_cases hclear : s.manager = .clearing
        · exact .inr (.inr (.inl hclear))
        · exact absurd hw (by simp [hok.cleared hwait hclear])
    · exact .inr (.inr (.inl hm))
    · exact .inr (.inr (.inr hm))
  rcases hpc with hm | ⟨hm, hw⟩ | hm | hm
  · refine ⟨[.selfWake, .waitReturns, .clearWake], { s with
      manager := .limiting, runner := .forward, wake := false }, ?_, rfl, rfl, hp⟩
    simp [TransitionSystem.replay, managerStep, hm, hr, hidle]
  · refine ⟨[.waitReturns, .clearWake], { s with
      manager := .limiting, runner := .forward, wake := false }, ?_, rfl, rfl, hp⟩
    simp [TransitionSystem.replay, managerStep, hm, hr, hidle, hw]
  · refine ⟨[.clearWake], { s with
      manager := .limiting, runner := .forward, wake := false }, ?_, rfl, rfl, hp⟩
    simp [TransitionSystem.replay, managerStep, hm, hr, hidle]
  · refine ⟨[], { s with runner := .forward }, ?_, hm, rfl, hp⟩
    simp [TransitionSystem.replay, managerStep, hr, hidle]

end Invariant

/-! ### One run of each kind -/

/-- A step of the runner in which nothing happens but its end. -/
def emptyStep : List ManagerAct :=
  [.safePoint, .stepEnd, .snapshot, .unpin, .wakeClearIdle, .wakeSet]

theorem start_smallManager : ManagerStart smallTier (ManagerState.init smallTier) :=
  rfl

/-- The snapshot's event fires before the manager looks: the pass promotes, and the next
forward starts after it. -/
theorem no_overlap_fired :
    ∃ s, ((managerSystem smallTier TopK.sorted).onlySteps SafeAtRest).Reachable s ∧
      decide (s.runner = .forward ∧ s.delta.tier.mirror (0, 0) = some 1) = true ∧
      s.manager.mutating = false ∧ ∀ a t, a.byManager = true →
        managerStep smallTier TopK.sorted s a = some t →
          residency t.delta.tier = residency s.delta.tier := by
  obtain ⟨s, hs, hP⟩ := TransitionSystem.exists_reachable_of_replay
    (managerStep smallTier TopK.sorted) SafeAtRest start_smallManager
    (emptyStep ++ [.fire, .waitReturns, .clearWake, .clearIdle, .tickOnce,
      .promote quiet (routed 0) none none, .passReturns, .setIdle, .safePoint])
    (fun s => decide (s.runner = .forward ∧ s.delta.tier.mirror (0, 0) = some 1))
    (by decide +kernel)
  have hr : s.runner ≠ .ready := by simp [(of_decide_eq_true hP).1]
  exact ⟨s, hs, hP, no_overlap hs hr⟩

/-- The manager finds the event unfired, declares itself idle, and wakes itself during the next
forward: by then the event has fired, and the pass promotes. -/
theorem self_wake_overlaps :
    ∃ s a t, (managerSystem smallTier TopK.sorted).Reachable s ∧ s.runner = .forward ∧
      ManagerAct.byManager a = true ∧ managerStep smallTier TopK.sorted s a = some t ∧
      t.delta.tier.slotTable (0, 0) ≠ s.delta.tier.slotTable (0, 0) := by
  obtain ⟨s, hs, hP⟩ := TransitionSystem.exists_reachable_of_run
    (managerStep smallTier TopK.sorted) start_smallManager
    (emptyStep ++ [.waitReturns, .clearWake, .clearIdle, .tickOnce, .setIdle, .safePoint,
      .selfWake, .waitReturns, .clearWake, .clearIdle, .fire, .tickOnce])
    (fun s => decide (s.runner = .forward) &&
      (managerStep smallTier TopK.sorted s (.promote quiet (routed 0) none none)).any
        fun t : ManagerState => decide (t.delta.tier.slotTable (0, 0) ≠ s.delta.tier.slotTable (0, 0)))
    (by decide +kernel)
  rw [Bool.and_eq_true] at hP
  obtain ⟨t, ht, hne⟩ := (Option.any_eq_true _ _).mp hP.2
  exact ⟨s, _, t, hs, of_decide_eq_true hP.1, rfl, ht, of_decide_eq_true hne⟩

end VllmMoet.Delta
