import VllmMoet.Placement.Manager
import VllmMoet.Placement.Safety

/-!
# The pins of promotions

With the store tail `plan` pins the records of the promotions it schedules, and `before_launch`
gives them back two calls later, when it has waited for the `M` events that shift through the
manager's lists along with the pins.

`pinSystem` is the runs of the protocol in which every pin carries the number of the call that
took it. `pins_released`: a pin that was taken is released, in `acquired_prev` or in
`acquired_last`, in one of them and once; and what is released has been copied.
-/

namespace VllmMoet

namespace Placement

/-! ### The commands of a call -/

/-- The call that the head of a queue of the copy stream belongs to: its `M` comes next. -/
def callOf : List (Cmd CopyOp Event) → Option ℕ
  | [] => none
  | .record (.map k) :: _ => some k
  | .record (.done _) :: q | .record (.unmap _) :: q | .kernel _ :: q | .wait _ :: q => callOf q

/-- The record of a pin that call `k` took is still to be copied. -/
def CopyPending (q : List (Cmd CopyOp Event)) (x : ℕ × Pin) : Prop :=
  ∃ pre as post, q = pre ++ .kernel as :: post ∧ .h2d x.2.1 x.2.2.1 x.2.2.2 ∈ as ∧
    callOf post = some x.1

section Queue

variable {q r : List (Cmd CopyOp Event)} {k : ℕ}

theorem mem_records_of_callOf (h : callOf q = some k) : .map k ∈ Cmd.records q := by
  induction q with
  | nil => exact absurd h (Option.some_ne_none k).symm
  | cons c q ih =>
    cases c with
    | kernel as => exact ih h
    | wait e => exact ih h
    | record e =>
      cases e with
      | map j =>
        obtain rfl : j = k := Option.some.inj h
        exact List.mem_cons_self
      | done j => exact List.mem_cons_of_mem _ (ih h)
      | unmap j => exact List.mem_cons_of_mem _ (ih h)

/-- In front of a queue nothing changes that. -/
theorem callOf_kernels (hq : ∀ c ∈ q, ∃ as, c = Cmd.kernel as) :
    callOf (q ++ r) = callOf r := by
  induction q with
  | nil => rfl
  | cons c q ih =>
    obtain ⟨as, rfl⟩ := hq c List.mem_cons_self
    exact ih fun c hc => hq c (List.mem_cons_of_mem _ hc)

/-- Once `M` is done the records of the call are copied. -/
theorem CopyPending.mem_records {x : ℕ × Pin} (h : CopyPending q x) :
    .map x.1 ∈ Cmd.records q := by
  obtain ⟨pre, as, post, rfl, -, hcall⟩ := h
  rw [Cmd.records_append]
  exact List.mem_append_right _ (mem_records_of_callOf hcall)

/-- The copies of a promotion. -/
theorem mem_promoteCmds {cfg : Config} {l v : ℕ} {p : Promotion} (hv : v < cfg.V) :
    .kernel [.h2d l p.expert v] ∈ promoteCmds cfg l p := by
  refine List.mem_append_left _ (List.mem_flatMap.mpr ⟨v, List.mem_range.mpr hv, ?_⟩)
  exact List.mem_cons_self

theorem promoteCmds_kernels {cfg : Config} {l : ℕ} {p : Promotion} :
    ∀ c ∈ promoteCmds cfg l p, ∃ as, c = Cmd.kernel as := by
  intro c hc
  rcases List.mem_append.mp hc with hc | hc
  · obtain ⟨v, -, hc⟩ := List.mem_flatMap.mp hc
    simp only [repackCmds, List.mem_cons, List.not_mem_nil, or_false] at hc
    rcases hc with rfl | rfl | rfl
    all_goals exact ⟨_, rfl⟩
  · exact ⟨_, List.mem_singleton.mp hc⟩

/-- A call enqueues the copies of its pins in front of its `M`. -/
theorem copyPending_copyCmds {cfg : Config} {plans : List (ℕ × List Promotion)} {x : Pin}
    {out : List Promotion} {p : Promotion} (hout : (x.1, out) ∈ plans) (hp : p ∈ out)
    (hexp : p.expert = x.2.1) (hv : x.2.2 < cfg.V) :
    CopyPending (q ++ copyCmds cfg k plans) (k, x) := by
  have hmem : Cmd.kernel [CopyOp.h2d x.1 x.2.1 x.2.2] ∈
      plans.flatMap fun p => p.2.flatMap (promoteCmds cfg p.1) := by
    refine List.mem_flatMap.mpr ⟨(x.1, out), hout, List.mem_flatMap.mpr ⟨p, hp, ?_⟩⟩
    rw [← hexp]
    exact mem_promoteCmds hv
  have hkernels : ∀ c ∈ plans.flatMap fun p => p.2.flatMap (promoteCmds cfg p.1),
      ∃ as, c = Cmd.kernel as := by
    intro c hc
    obtain ⟨_, -, hc⟩ := List.mem_flatMap.mp hc
    obtain ⟨_, -, hc⟩ := List.mem_flatMap.mp hc
    exact promoteCmds_kernels c hc
  obtain ⟨pre, post, heq⟩ := List.append_of_mem hmem
  refine ⟨q ++ .wait (.done k) :: ((plans.flatMap fun p => unmapCmds cfg p.1 p.2) ++
    .record (.unmap k) :: pre), _, post ++ [.record (.map k)], ?_, List.mem_singleton_self _, ?_⟩
  · rw [copyCmds, heq]
    simp only [List.append_assoc, List.cons_append]
  · refine callOf_kernels fun c hc => hkernels c ?_
    rw [heq]
    exact List.mem_append_right _ (List.mem_cons_of_mem _ hc)

end Queue

/-! ### Runs -/

/-- A run of the protocol whose pins carry the number of their call: those in `acquired_last`, in
`acquired_prev`, those passed to `record_release` by `before_launch`, all that were taken for
scheduled promotions, and those of promotions that were given up. -/
structure PinRun where
  sys : Sys
  last : List (ℕ × Pin)
  prev : List (ℕ × Pin)
  freed : List (ℕ × Pin)
  taken : List (ℕ × Pin)
  abandoned : List Pin

/-- One step. -/
def pinStep (cfg : Config) (s : PinRun) (a : Act) : Option PinRun :=
  (s.sys.step cfg a).map fun sys =>
    match a with
    | .beforeLaunch =>
      if cfg.tail then
        { s with sys := sys, last := [], prev := s.last, freed := s.freed ++ s.prev }
      else { s with sys := sys }
    | .afterLaunch misses avail =>
      let pins := (plannedPins cfg avail misses s.sys.lastMiss s.sys.pools).map (s.sys.calls, ·)
      { s with
        sys := sys
        last := s.last ++ pins
        taken := s.taken ++ pins
        abandoned := s.abandoned ++ abandonedPins cfg avail misses s.sys.lastMiss s.sys.pools }
    | .launch _ | .noteUses _ | .main _ | .copy _ => { s with sys := sys }

/-- Where a run starts. -/
def PinStart (cfg : Config) (s : PinRun) : Prop :=
  Start cfg s.sys ∧ s.last = [] ∧ s.prev = [] ∧ s.freed = [] ∧ s.taken = [] ∧ s.abandoned = []

/-- Every run of the protocol, with its pins. -/
def pinSystem (cfg : Config) : TransitionSystem PinRun Act :=
  .ofStep (PinStart cfg) (pinStep cfg)

/-- The pins and the events behind their copies shift through the manager's lists together. -/
structure PinsKept (cfg : Config) (s : PinRun) : Prop where
  last : s.sys.acquiredLast = s.last.map (·.2)
  prev : s.sys.acquiredPrev = s.prev.map (·.2)
  released : s.sys.released.Perm (s.freed.map (·.2) ++ s.abandoned)
  /-- a pin is in one of the three lists -/
  once : s.taken = s.freed ++ s.prev ++ s.last
  nodup : s.taken.Nodup
  called : ∀ x ∈ s.taken, x.1 < s.sys.calls
  lastEvent : ∀ x ∈ s.last, .map x.1 ∈ s.sys.mapEventsLast
  prevEvent : ∀ x ∈ s.prev, .map x.1 ∈ s.sys.mapEventsPrev
  synced : ∀ x ∈ s.freed, .map x.1 ∈ s.sys.done
  tailed : cfg.tail = false → s.taken = []

section Invariant

variable {cfg : Config} {s t : PinRun}

theorem PinStart.pinsKept (h : PinStart cfg s) : PinsKept cfg s := by
  obtain ⟨hsys, hlast, hprev, hfreed, htaken, habandoned⟩ := h
  obtain ⟨hpl, hpp, hrel⟩ := hsys.pins
  constructor
  case last => rw [hpl, hlast]; rfl
  case prev => rw [hpp, hprev]; rfl
  case released => rw [hrel, hfreed, habandoned]; exact .refl _
  case once => rw [htaken, hfreed, hprev, hlast]; rfl
  case nodup => rw [htaken]; exact List.nodup_nil
  case called => rw [htaken]; exact fun x hx => absurd hx List.not_mem_nil
  case lastEvent => rw [hlast]; exact fun x hx => absurd hx List.not_mem_nil
  case prevEvent => rw [hprev]; exact fun x hx => absurd hx List.not_mem_nil
  case synced => rw [hfreed]; exact fun x hx => absurd hx List.not_mem_nil
  case tailed => exact fun _ => htaken

/-- A step of the system that leaves the lists alone. -/
theorem PinsKept.congr (h : PinsKept cfg s) {sys : Sys}
    (hlast : sys.acquiredLast = s.sys.acquiredLast) (hprev : sys.acquiredPrev = s.sys.acquiredPrev)
    (hrel : sys.released = s.sys.released) (hcalls : sys.calls = s.sys.calls)
    (hl : sys.mapEventsLast = s.sys.mapEventsLast) (hp : sys.mapEventsPrev = s.sys.mapEventsPrev)
    (hdone : s.sys.done ⊆ sys.done) : PinsKept cfg { s with sys := sys } where
  last := hlast.trans h.last
  prev := hprev.trans h.prev
  released := hrel ▸ h.released
  once := h.once
  nodup := h.nodup
  called := hcalls ▸ h.called
  lastEvent := hl ▸ h.lastEvent
  prevEvent := hp ▸ h.prevEvent
  synced x hx := hdone (h.synced x hx)
  tailed := h.tailed

/-- What `before_launch` releases has been synchronised. -/
theorem PinsKept.beforeLaunch (h : PinsKept cfg s) (hs : pinStep cfg s .beforeLaunch = some t) :
    PinsKept cfg t := by
  obtain ⟨sys, hsys, rfl⟩ := Option.map_eq_some_iff.mp hs
  change s.sys.beforeLaunch cfg = some sys at hsys
  rw [Sys.beforeLaunch] at hsys
  split at hsys
  · exact absurd hsys (Option.some_ne_none sys).symm
  · next hready =>
    obtain rfl := Option.some.inj hsys
    dsimp only
    cases htail : cfg.tail with
    | false =>
      -- without the store tail there are no pins
      have hnil := h.tailed htail
      have hparts := h.once
      rw [hnil] at hparts
      obtain ⟨hfp, hlast⟩ := List.append_eq_nil_iff.mp hparts.symm
      have hprev := (List.append_eq_nil_iff.mp hfp).2
      constructor
      case last => exact h.last
      case prev => exact h.prev
      case released => exact h.released
      case once => exact h.once
      case nodup => exact h.nodup
      case called => exact h.called
      case lastEvent =>
        intro x hx
        exact absurd (hlast ▸ hx) List.not_mem_nil
      case prevEvent =>
        intro x hx
        exact absurd (hprev ▸ hx) List.not_mem_nil
      case synced => exact h.synced
      case tailed => exact h.tailed
    | true =>
      have hsynced : ∀ x ∈ s.prev, .map x.1 ∈ s.sys.done := by
        intro x hx
        by_contra hnot
        refine hready ⟨htail, ?_, _, h.prevEvent x hx, hnot⟩
        rw [h.prev]
        exact List.ne_nil_of_mem (List.mem_map_of_mem hx)
      constructor
      case last => rfl
      case prev => exact h.last
      case released =>
        change (s.sys.released ++ s.sys.acquiredPrev).Perm
          ((s.freed ++ s.prev).map (·.2) ++ s.abandoned)
        rw [h.prev, List.map_append, List.append_assoc]
        refine (h.released.append_right _).trans ?_
        rw [List.append_assoc]
        exact List.perm_append_comm.append_left _
      case once =>
        change s.taken = s.freed ++ s.prev ++ s.last ++ []
        rw [List.append_nil]
        exact h.once
      case nodup => exact h.nodup
      case called => exact h.called
      case lastEvent => exact fun x hx => absurd hx List.not_mem_nil
      case prevEvent => exact h.lastEvent
      case synced =>
        intro x hx
        rcases List.mem_append.mp hx with hx | hx
        · exact h.synced x hx
        · exact hsynced x hx
      case tailed => exact fun hfalse => absurd htail (Bool.eq_false_iff.mp hfalse)

/-- A plan's pins go behind the others, and its `M` behind the other events. -/
theorem PinsKept.afterLaunch (h : PinsKept cfg s) (hsys : SysOk cfg s.sys) {misses : List Miss}
    {avail : ℕ → ℕ → ℕ → Bool} (hs : pinStep cfg s (.afterLaunch misses avail) = some t) :
    PinsKept cfg t := by
  obtain ⟨sys, hstep, rfl⟩ := Option.map_eq_some_iff.mp hs
  change s.sys.afterLaunch cfg misses avail = some sys at hstep
  have hunpinned : cfg.tail = false →
      plannedPins cfg avail misses s.sys.lastMiss s.sys.pools = [] := by
    intro htail
    refine List.eq_nil_iff_forall_not_mem.mpr fun x hx => ?_
    obtain ⟨l, -, hx⟩ := List.mem_flatMap.mp hx
    rw [acquired_planLayer] at hx
    obtain ⟨p, -, hx⟩ := List.mem_flatMap.mp hx
    exact absurd (mem_pinsOf.mp hx).1 (Bool.eq_false_iff.mp htail)
  have hnodup := @nodup_plannedPins cfg avail misses s.sys.lastMiss s.sys.pools hsys.pools
  have hempty : plan cfg avail misses s.sys.lastMiss s.sys.pools = [] →
      plannedPins cfg avail misses s.sys.lastMiss s.sys.pools = [] := by
    intro hplan
    refine List.eq_nil_iff_forall_not_mem.mpr fun x hx => ?_
    obtain ⟨out, hout, -⟩ := mem_plannedPins hx
    exact absurd (hplan ▸ hout) List.not_mem_nil
  -- whether or not anything is scheduled, the host's lists change the same way
  have hhost : sys.acquiredLast = s.sys.acquiredLast ++
        plannedPins cfg avail misses s.sys.lastMiss s.sys.pools ∧
      sys.acquiredPrev = s.sys.acquiredPrev ∧
      sys.released = s.sys.released ++ abandonedPins cfg avail misses s.sys.lastMiss s.sys.pools ∧
      sys.mapEventsPrev = s.sys.mapEventsPrev ∧ sys.done = s.sys.done ∧
      (plannedPins cfg avail misses s.sys.lastMiss s.sys.pools = [] ∧
          sys.calls = s.sys.calls ∧ sys.mapEventsLast = s.sys.mapEventsLast ∨
        sys.calls = s.sys.calls + 1 ∧
          sys.mapEventsLast = s.sys.mapEventsLast ++ [.map s.sys.calls]) := by
    rw [Sys.afterLaunch] at hstep
    split at hstep
    · exact absurd hstep (Option.some_ne_none sys).symm
    · split at hstep
      · next hplan =>
        obtain rfl := Option.some.inj hstep
        exact ⟨rfl, rfl, rfl, rfl, rfl, .inl ⟨hempty hplan, rfl, rfl⟩⟩
      · obtain rfl := Option.some.inj hstep
        exact ⟨rfl, rfl, rfl, rfl, rfl, .inr ⟨rfl, rfl⟩⟩
  change PinsKept cfg { s with
    sys := sys
    last := s.last ++ (plannedPins cfg avail misses s.sys.lastMiss s.sys.pools).map (s.sys.calls, ·)
    taken :=
      s.taken ++ (plannedPins cfg avail misses s.sys.lastMiss s.sys.pools).map (s.sys.calls, ·)
    abandoned := s.abandoned ++ abandonedPins cfg avail misses s.sys.lastMiss s.sys.pools }
  generalize plannedPins cfg avail misses s.sys.lastMiss s.sys.pools = pins at *
  generalize abandonedPins cfg avail misses s.sys.lastMiss s.sys.pools = gone at *
  obtain ⟨hlast, hprev, hreleased, hprevEvents, hdone, hevents⟩ := hhost
  have hcalls : s.sys.calls ≤ sys.calls ∧ (pins ≠ [] → s.sys.calls < sys.calls) := by
    rcases hevents with ⟨hnil, hc, -⟩ | ⟨hc, -⟩
    · exact ⟨hc.ge, fun hne => absurd hnil hne⟩
    · exact ⟨by omega, fun _ => by omega⟩
  have hnew : ∀ x ∈ pins.map (s.sys.calls, ·), x.1 = s.sys.calls ∧ pins ≠ [] := by
    intro x hx
    obtain ⟨p, hp, rfl⟩ := List.mem_map.mp hx
    exact ⟨rfl, List.ne_nil_of_mem hp⟩
  constructor
  case last =>
    change sys.acquiredLast = (s.last ++ pins.map (s.sys.calls, ·)).map (·.2)
    rw [hlast, h.last, List.map_append, List.map_map]
    exact congrArg _ (List.map_id pins).symm
  case prev => exact hprev.trans h.prev
  case released =>
    change sys.released.Perm (s.freed.map (·.2) ++ (s.abandoned ++ gone))
    rw [hreleased, ← List.append_assoc]
    exact h.released.append_right gone
  case once =>
    change s.taken ++ pins.map (s.sys.calls, ·) =
      s.freed ++ s.prev ++ (s.last ++ pins.map (s.sys.calls, ·))
    rw [h.once, List.append_assoc (s.freed ++ s.prev)]
  case nodup =>
    refine List.nodup_append'.mpr ⟨h.nodup, hnodup.map fun p q heq => (Prod.mk.inj heq).2, ?_⟩
    intro x hx hx'
    have hlt := h.called x hx
    rw [(hnew x hx').1] at hlt
    exact Nat.lt_irrefl _ hlt
  case called =>
    intro x hx
    rcases List.mem_append.mp hx with hx | hx
    · exact (h.called x hx).trans_le hcalls.1
    · rw [(hnew x hx).1]
      exact hcalls.2 (hnew x hx).2
  case lastEvent =>
    intro x hx
    change .map x.1 ∈ sys.mapEventsLast
    rcases hevents with ⟨hnil, -, hmap⟩ | ⟨-, hmap⟩
    · rcases List.mem_append.mp hx with hx | hx
      · exact hmap ▸ h.lastEvent x hx
      · exact absurd hnil (hnew x hx).2
    · rw [hmap]
      rcases List.mem_append.mp hx with hx | hx
      · exact List.mem_append_left _ (h.lastEvent x hx)
      · rw [(hnew x hx).1]
        exact List.mem_append_right _ (List.mem_singleton_self _)
  case prevEvent => exact fun x hx => hprevEvents ▸ h.prevEvent x hx
  case synced => exact fun x hx => hdone ▸ h.synced x hx
  case tailed =>
    intro htail
    change s.taken ++ pins.map (s.sys.calls, ·) = []
    rw [h.tailed htail, hunpinned htail]
    rfl

/-- The lists are kept along every run, and so is the protocol's own invariant. -/
theorem pinsKept_invariant (cfg : Config) :
    (pinSystem cfg).Invariant fun s => SysOk cfg s.sys ∧ PinsKept cfg s where
  start s h := ⟨h.1.sysOk, h.pinsKept⟩
  step s a t _ h hs := by
    have hsys : s.sys.step cfg a = some t.sys := by
      obtain ⟨sys, hsys, rfl⟩ := Option.map_eq_some_iff.mp hs
      rw [hsys]
      cases a with
      | beforeLaunch =>
        cases cfg.tail <;> rfl
      | launch | noteUses | afterLaunch | main | copy => rfl
    refine ⟨h.1.step hsys, ?_⟩
    cases a with
    | beforeLaunch => exact h.2.beforeLaunch hs
    | afterLaunch misses avail => exact h.2.afterLaunch h.1 hs
    | launch pubs =>
      obtain ⟨sys, hstep, rfl⟩ := Option.map_eq_some_iff.mp hs
      obtain ⟨-, hstep⟩ := Option.ite_none_right_eq_some.mp hstep
      obtain rfl := Option.some.inj hstep
      exact h.2.congr rfl rfl rfl rfl rfl rfl (List.Subset.refl _)
    | noteUses uses =>
      obtain ⟨sys, hstep, rfl⟩ := Option.map_eq_some_iff.mp hs
      obtain rfl := Option.some.inj hstep
      exact h.2.congr rfl rfl rfl rfl rfl rfl (List.Subset.refl _)
    | main i =>
      obtain ⟨sys, hstep, rfl⟩ := Option.map_eq_some_iff.mp hs
      obtain ⟨r, hr, rfl⟩ := Option.map_eq_some_iff.mp hstep
      exact h.2.congr rfl rfl rfl rfl rfl rfl (Cmd.done_subset_of_step hr)
    | copy i =>
      obtain ⟨sys, hstep, rfl⟩ := Option.map_eq_some_iff.mp hs
      obtain ⟨r, hr, rfl⟩ := Option.map_eq_some_iff.mp hstep
      exact h.2.congr rfl rfl rfl rfl rfl rfl (Cmd.done_subset_of_step hr)

/-- What has been released or waits in `acquired_prev` never goes back. -/
theorem settled_of_step {a : Act} (hs : pinStep cfg s a = some t) :
    s.freed ++ s.prev ⊆ t.freed ++ t.prev := by
  obtain ⟨sys, -, rfl⟩ := Option.map_eq_some_iff.mp hs
  cases a with
  | beforeLaunch =>
    intro x hx
    dsimp only
    split
    · exact List.mem_append_left _ hx
    · exact hx
  | launch | noteUses | afterLaunch | main | copy => exact List.Subset.refl _

theorem settled_of_replay {as : List Act}
    (hs : TransitionSystem.replay (pinStep cfg) s as = some t) :
    s.freed ++ s.prev ⊆ t.freed ++ t.prev := by
  induction as generalizing s with
  | nil =>
    obtain rfl := Option.some.inj hs
    exact List.Subset.refl _
  | cons a as ih =>
    obtain ⟨r, hr, hrt⟩ := Option.bind_eq_some_iff.mp hs
    exact fun x hx => ih hrt (settled_of_step hr hx)

/-- What a `before_launch` does to the lists. -/
theorem lists_of_beforeLaunch (hs : pinStep cfg s .beforeLaunch = some t) (htail : cfg.tail = true) :
    t.last = [] ∧ t.prev = s.last ∧ t.freed = s.freed ++ s.prev := by
  obtain ⟨sys, -, rfl⟩ := Option.map_eq_some_iff.mp hs
  simp only [htail, if_true, and_self]

/-- The second `before_launch` after a pin was taken has released it. -/
theorem PinsKept.freed_of_two (h : PinsKept cfg s) {u v : PinRun} {as : List Act}
    (hst : pinStep cfg s .beforeLaunch = some t)
    (htu : TransitionSystem.replay (pinStep cfg) t as = some u)
    (huv : pinStep cfg u .beforeLaunch = some v) : s.taken ⊆ v.freed := by
  cases htail : cfg.tail with
  | false =>
    rw [h.tailed htail]
    exact List.nil_subset _
  | true =>
    obtain ⟨-, hprev, hfreed⟩ := lists_of_beforeLaunch hst htail
    have hmid := settled_of_replay htu
    rw [hprev, hfreed, ← h.once] at hmid
    rwa [← (lists_of_beforeLaunch huv htail).2.2] at hmid

/-- The copies of the pins that an `after_launch` takes are enqueued, in front of its `M`. -/
theorem PinsKept.copies_of_afterLaunch {misses : List Miss} {avail : ℕ → ℕ → ℕ → Bool}
    (hs : pinStep cfg s (.afterLaunch misses avail) = some t) {x : ℕ × Pin} (hx : x ∈ t.taken)
    (hnew : x ∉ s.taken) : CopyPending t.sys.copy x := by
  obtain ⟨sys, hstep, rfl⟩ := Option.map_eq_some_iff.mp hs
  change s.sys.afterLaunch cfg misses avail = some sys at hstep
  obtain ⟨pin, hpin, rfl⟩ := List.mem_map.mp ((List.mem_append.mp hx).resolve_left hnew)
  obtain ⟨out, hout, p, hp, hexp, hv⟩ := mem_plannedPins hpin
  rw [Sys.afterLaunch] at hstep
  split at hstep
  · exact absurd hstep (Option.some_ne_none sys).symm
  · rw [if_neg (List.ne_nil_of_mem hout)] at hstep
    obtain rfl := Option.some.inj hstep
    exact copyPending_copyCmds hout hp hexp hv

/-- **Every pin of a promotion is released once, and not before its copy is done.** In every
run: the pins taken for scheduled promotions are, each once, those that `before_launch` has
passed to `record_release`, those in `acquired_prev` and those in `acquired_last`, and
`record_release` was called for nothing else but the pins of promotions that were given up.
What an `after_launch` takes has its copies enqueued in front of the call's `M`; what has been
released had that `M` synchronised, and its copies are done. By the second `before_launch` a
pin is released. -/
theorem pins_released (cfg : Config) {s : PinRun} (hs : (pinSystem cfg).Reachable s) :
    (s.sys.acquiredLast = s.last.map (·.2) ∧ s.sys.acquiredPrev = s.prev.map (·.2) ∧
      s.sys.released.Perm (s.freed.map (·.2) ++ s.abandoned)) ∧
    (s.taken.Nodup ∧ s.taken = s.freed ++ s.prev ++ s.last) ∧
    (∀ misses avail t, pinStep cfg s (.afterLaunch misses avail) = some t →
      ∀ x ∈ t.taken, x ∉ s.taken → CopyPending t.sys.copy x) ∧
    (∀ x ∈ s.freed, .map x.1 ∈ s.sys.done ∧ ¬ CopyPending s.sys.copy x) ∧
    (∀ t as u v, pinStep cfg s .beforeLaunch = some t →
      TransitionSystem.replay (pinStep cfg) t as = some u →
      pinStep cfg u .beforeLaunch = some v → s.taken ⊆ v.freed) := by
  obtain ⟨hsys, h⟩ := (pinsKept_invariant cfg).holds hs
  refine ⟨⟨h.last, h.prev, h.released⟩, ⟨h.nodup, h.once⟩, ?_, ?_, ?_⟩
  · intro misses avail t ht x hx hnew
    exact PinsKept.copies_of_afterLaunch ht hx hnew
  · intro x hx
    refine ⟨h.synced x hx, fun hpending => ?_⟩
    -- an event that is still to be recorded is not done
    exact hsys.pending.notMem _ (List.mem_append_right _ hpending.mem_records) (h.synced x hx)
  · intro t as u v hst htu huv
    exact h.freed_of_two hst htu huv

end Invariant

/-! ### A promotion's pins through a run -/

/-- The layer of `smallConfig`, with the store tail. -/
def tailConfig : Config := { smallConfig with tail := true }

/-- No pin is held at the start. -/
def smallPinRun : PinRun where
  sys := smallSys
  last := []
  prev := []
  freed := []
  taken := []
  abandoned := []

theorem start_smallPinRun : PinStart tailConfig smallPinRun := by
  refine ⟨?_, rfl, rfl, rfl, rfl, rfl⟩
  obtain ⟨filled, table, complete, events, pins, calls, ready, streams⟩ := start_smallSys
  exact ⟨filled, table, complete, events, pins, calls, ready, streams⟩

/-- Expert `1` is promoted, its copies run, and two `before_launch`es go by. -/
def pinRun : List Act :=
  [.launch [(0, [0, 1])], .afterLaunch [⟨1, 0, 1⟩] fun _ _ _ => true] ++
    List.replicate 6 (.main 0) ++ List.replicate 19 (.copy 0) ++
    [.beforeLaunch, .launch [(0, [1])], .afterLaunch [] fun _ _ _ => true, .beforeLaunch]

/-- Both slices of the promoted expert are copied when their pins are given back. -/
theorem pins_released_tail : ∃ s, (pinSystem tailConfig).Reachable s ∧
    s.freed = [(0, 0, 1, 0), (0, 0, 1, 1)] ∧ .map 0 ∈ s.sys.done ∧
    ¬ CopyPending s.sys.copy (0, 0, 1, 1) := by
  obtain ⟨s, hs, hP⟩ := TransitionSystem.exists_reachable_of_run (pinStep tailConfig)
    start_smallPinRun pinRun (fun s => decide (s.freed = [(0, 0, 1, 0), (0, 0, 1, 1)])) (by decide)
  have hfreed := of_decide_eq_true hP
  obtain ⟨-, -, -, hreleased, -⟩ := pins_released tailConfig hs
  have hmem : (0, 0, 1, 1) ∈ s.freed := by
    rw [hfreed]
    exact List.mem_cons_of_mem _ List.mem_cons_self
  exact ⟨s, hs, hfreed, hreleased _ hmem⟩

end Placement

end VllmMoet
