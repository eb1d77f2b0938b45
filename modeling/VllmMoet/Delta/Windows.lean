import VllmMoet.Delta.Tier
import VllmMoet.Lib.Transition

/-!
# The windows of routing marks and the manager's snapshots

A forward marks the experts it routes to in `seen`, on the GPU. `step_end` closes the window of
a step: it merges `seen` into an accumulator, clears it, and, unless a snapshot is pending,
copies the accumulator into `_seen_host` with an event behind it. All of that is enqueued on a
side stream and runs later. A manager tick that finds the event fired consumes what
`_seen_host` holds and asks for the accumulator to be reset, which the next `step_end` does.
`force_promote`, `ensure_resident` and `mark_need_only` take a snapshot of `seen` of their own,
into the same `_seen_host`, and wait for it.

Marks carry the step they were made in. The manager's statistics are the marks it has consumed
and what it has added to `_freq` for them.

* `KeepsWindows`: the steps that drop no window.
* `keepsWindows_iff`: a step leaves every ended window delivered or under way exactly if it is one.
* `exists_lost`: any other step loses a mark for good.
-/

namespace VllmMoet.Delta

/-- An expert routed to in a step. -/
structure Mark where
  step : ℕ
  pair : Pair
  deriving DecidableEq, Repr

/-- The GPU buffers `seen` and `_seen_accum`, and the host buffer `_seen_host`. -/
structure Buffers where
  seen : List Mark
  accum : List Mark
  host : List Mark
  deriving DecidableEq, Repr

/-- What the side stream is given to do. -/
inductive SideOp
  | resetAccum
  | merge
  | zeroSeen
  | copyHost
  | record
  deriving DecidableEq, Repr

/-- One operation on the buffers. -/
def SideOp.run : SideOp → Buffers → Buffers
  | .resetAccum, b => { b with accum := [] }
  | .merge, b => { b with accum := b.accum ++ b.seen }
  | .zeroSeen, b => { b with seen := [] }
  | .copyHost, b => { b with host := b.accum }
  | .record, b => b

/-- Several operations, one after the other. -/
def runAll (ops : List SideOp) (b : Buffers) : Buffers :=
  ops.foldl (fun b op => op.run b) b

/-- The buffers, what the side stream still has to do, the flags of the snapshot, and the
marks made and consumed so far. -/
structure WindowState where
  step : ℕ
  buf : Buffers
  stream : List SideOp
  pending : Bool
  fired : Bool
  accumReset : Bool
  marked : List Mark
  consumed : List Mark
  added : Pair → ℕ

/-- What happens: a forward marks an expert, the side stream does its next operation, the
manager ticks, or the runner calls one of the four operations. -/
inductive WindowAct
  | mark (p : Pair)
  | gpu
  | tick
  | stepEnd
  | forcePromote
  | ensureResident
  | markNeedOnly
  deriving DecidableEq, Repr

namespace WindowState

/-- The buffers once the side stream has caught up. -/
def settled (s : WindowState) : Buffers :=
  runAll s.stream s.buf

/-- `mark_seen`. -/
def mark (s : WindowState) (p : Pair) : WindowState :=
  { s with
    buf := { s.buf with seen := s.buf.seen ++ [⟨s.step, p⟩] }
    marked := s.marked ++ [⟨s.step, p⟩] }

/-- The side stream does an operation. -/
def exec (s : WindowState) (op : SideOp) (rest : List SideOp) : WindowState :=
  { s with
    buf := op.run s.buf
    stream := rest
    fired := s.fired || decide (op = .record) }

/-- What `step_end` enqueues. -/
def stepOps (s : WindowState) : List SideOp :=
  (if s.accumReset then [.resetAccum] else []) ++ [.merge, .zeroSeen] ++
    (if s.pending then [] else [.copyHost, .record])

/-- `step_end`. -/
def stepEnd (s : WindowState) : WindowState :=
  { s with
    step := s.step + 1
    stream := s.stream ++ s.stepOps
    accumReset := false
    fired := s.pending && s.fired
    pending := true }

/-- `_tick_once`: without a snapshot, or with one whose event has not fired, nothing. -/
def tick (s : WindowState) : WindowState :=
  if s.pending && s.fired then { s with
    pending := false
    accumReset := true
    consumed := s.consumed ++ s.buf.host
    added := fun p => s.added p + s.buf.host.countP fun m => m.pair = p }
  else s

/-- A snapshot of `seen` behind everything on the side stream, waited for. -/
def snapshot (s : WindowState) : WindowState :=
  { s with
    buf := { s.settled with host := s.settled.seen }
    stream := []
    fired := s.fired || s.stream.contains .record }

/-- `force_promote`: with anything in its snapshot it clears `seen`. -/
def forcePromote (s : WindowState) : WindowState :=
  let s := s.snapshot
  if s.buf.host = [] then s else { s with buf := { s.buf with seen := [] } }

end WindowState

/-- One step. The ids that `ensure_resident` marks first are marks, its fetch path is the step
named after it. -/
def windowStep (s : WindowState) : WindowAct → Option WindowState
  | .mark p => some (s.mark p)
  | .gpu =>
    match s.stream with
    | [] => none
    | op :: rest => some (s.exec op rest)
  | .tick => some s.tick
  | .stepEnd => some s.stepEnd
  | .forcePromote => some s.forcePromote
  | .ensureResident => some s.snapshot
  | .markNeedOnly => some s.snapshot

/-- A tier that has just been built. -/
def WindowState.init : WindowState where
  step := 0
  buf := ⟨[], [], []⟩
  stream := []
  pending := false
  fired := false
  accumReset := false
  marked := []
  consumed := []
  added _ := 0

/-- All interleavings, from a state on. -/
def windowsFrom (s : WindowState) : TransitionSystem WindowState WindowAct :=
  .ofStep (fun t => t = s) windowStep

/-- Every mark of an ended step is consumed or in the snapshot that is pending. -/
def Delivering (s : WindowState) : Prop :=
  ∀ m ∈ s.marked, m.step < s.step → m ∈ s.consumed ∨ (s.pending = true ∧ m ∈ s.settled.host)

/-- The steps that drop no window: `step_end` when no snapshot is pending and the marks of the
step are all still in `seen`, or when those that have not been consumed are in the pending
snapshot already; a snapshot by one of the other operations when none is pending, or nothing
that has not been consumed is in it. -/
def KeepsWindows (s : WindowState) : WindowAct → Prop
  | .stepEnd => ∀ m ∈ s.marked, m.step = s.step → m ∈ s.consumed ∨
      m ∈ if s.pending then s.settled.host else s.settled.seen
  | .forcePromote | .ensureResident | .markNeedOnly =>
      s.pending = true → ∀ m ∈ s.marked, m.step < s.step → m ∈ s.consumed
  | .mark _ | .gpu | .tick => True

instance (s : WindowState) : ∀ a, Decidable (KeepsWindows s a)
  | .stepEnd => inferInstanceAs (Decidable (∀ m ∈ s.marked, m.step = s.step → m ∈ s.consumed ∨
      m ∈ if s.pending then s.settled.host else s.settled.seen))
  | .forcePromote | .ensureResident | .markNeedOnly =>
    inferInstanceAs (Decidable (s.pending = true → ∀ m ∈ s.marked, m.step < s.step →
      m ∈ s.consumed))
  | .mark _ | .gpu | .tick => inferInstanceAs (Decidable True)

/-! ### The side stream -/

theorem runAll_append (xs ys : List SideOp) (b : Buffers) :
    runAll (xs ++ ys) b = runAll ys (runAll xs b) :=
  List.foldl_append

/-- Where a mark gets depends on where it is, and on no other mark. -/
theorem mem_runAll_mono {m : Mark} (ops : List SideOp) {b b' : Buffers}
    (hs : m ∈ b.seen → m ∈ b'.seen) (ha : m ∈ b.accum → m ∈ b'.accum)
    (hh : m ∈ b.host → m ∈ b'.host) :
    (m ∈ (runAll ops b).seen → m ∈ (runAll ops b').seen) ∧
      (m ∈ (runAll ops b).accum → m ∈ (runAll ops b').accum) ∧
      (m ∈ (runAll ops b).host → m ∈ (runAll ops b').host) := by
  induction ops generalizing b b' with
  | nil => exact ⟨hs, ha, hh⟩
  | cons op ops ih =>
    refine @ih (op.run b) (op.run b') ?_ ?_ ?_
    · cases op with
      | zeroSeen => exact fun h => absurd h List.not_mem_nil
      | resetAccum | merge | copyHost | record => exact hs
    · cases op with
      | resetAccum => exact fun h => absurd h List.not_mem_nil
      | merge =>
        intro h
        exact List.mem_append.mpr ((List.mem_append.mp h).imp ha hs)
      | zeroSeen | copyHost | record => exact ha
    · cases op with
      | copyHost => exact ha
      | resetAccum | merge | zeroSeen | record => exact hh

/-- Without a copy the host buffer stays. -/
theorem runAll_host {ops : List SideOp} (h : SideOp.copyHost ∉ ops) (b : Buffers) :
    (runAll ops b).host = b.host := by
  induction ops generalizing b with
  | nil => rfl
  | cons op ops ih =>
    have hne := not_or.mp (List.mem_cons.not.mp h)
    refine (ih hne.2 (op.run b)).trans ?_
    cases op with
    | copyHost => exact absurd rfl hne.1
    | resetAccum | merge | zeroSeen | record => rfl

namespace WindowState

variable (s : WindowState)

/-- What `step_end` leaves once its operations are done. -/
theorem settled_stepEnd : s.stepEnd.settled =
    { seen := []
      accum := (if s.accumReset then [] else s.settled.accum) ++ s.settled.seen
      host := if s.pending then s.settled.host
        else (if s.accumReset then [] else s.settled.accum) ++ s.settled.seen } := by
  rw [settled, stepEnd, runAll_append]
  change runAll s.stepOps s.settled = _
  rw [stepOps]
  cases s.accumReset <;> cases s.pending <;> rfl

theorem settled_exec {op : SideOp} {rest : List SideOp} (h : s.stream = op :: rest) :
    (s.exec op rest).settled = s.settled := by
  rw [settled, settled, h]
  rfl

theorem settled_tick : s.tick.settled = s.settled := by
  rw [tick]
  split <;> rfl

/-- With an empty snapshot there is nothing to clear. -/
theorem forcePromote_eq :
    s.forcePromote = { s.snapshot with
      buf := { s.settled with seen := [], host := s.settled.seen } } := by
  rw [forcePromote]
  dsimp only
  split
  · next h =>
    have hnil : s.settled.seen = [] := h
    simp only [snapshot, hnil]
  · rfl

end WindowState

/-! ### What holds in every state -/

/-- The flags agree with what the side stream has done, and a settled `seen` holds marks of the
present step only. -/
structure FlagsOk (s : WindowState) : Prop where
  /-- nothing is copied behind an event, and there is one event at most -/
  order : s.stream.Pairwise fun a b => a = .record → b ≠ .copyHost ∧ b ≠ .record
  waiting : SideOp.record ∈ s.stream → s.pending = true ∧ s.fired = false
  copied : s.fired = true → SideOp.copyHost ∉ s.stream
  fires : s.pending = true → s.fired = true ∨ SideOp.record ∈ s.stream
  fresh : s.pending = false → s.accumReset = false → s.stream = [] ∧ s.buf.accum = []
  current : ∀ m ∈ s.settled.seen, m.step = s.step
  made : ∀ m ∈ s.marked, m.step ≤ s.step
  counted : ∀ m ∈ s.consumed, 0 < s.added m.pair

theorem FlagsOk.init : FlagsOk .init := by
  constructor <;> simp [WindowState.init, WindowState.settled, runAll]

/-- The other marks are where they were. -/
theorem WindowState.mem_settled_mark (s : WindowState) (p : Pair) {m : Mark}
    (hne : m ≠ ⟨s.step, p⟩) :
    (m ∈ (s.mark p).settled.seen → m ∈ s.settled.seen) ∧
      (m ∈ (s.mark p).settled.accum → m ∈ s.settled.accum) ∧
      (m ∈ (s.mark p).settled.host → m ∈ s.settled.host) := by
  refine mem_runAll_mono s.stream (fun h => ?_) (fun h => h) fun h => h
  refine (List.mem_append.mp h).resolve_right fun h => ?_
  exact hne (List.mem_singleton.mp h)

theorem FlagsOk.mark {s : WindowState} (h : FlagsOk s) (p : Pair) : FlagsOk (s.mark p) := by
  constructor
  case order => exact h.order
  case waiting => exact h.waiting
  case copied => exact h.copied
  case fires => exact h.fires
  case fresh => exact h.fresh
  case current =>
    intro m hm
    by_cases heq : m = ⟨s.step, p⟩
    · rw [heq]
      rfl
    · exact h.current m ((s.mem_settled_mark p heq).1 hm)
  case made =>
    intro m hm
    rcases List.mem_append.mp hm with hm | hm
    · exact h.made m hm
    · rw [List.mem_singleton.mp hm]
      exact le_rfl
  case counted => exact h.counted

theorem FlagsOk.exec {s : WindowState} (h : FlagsOk s) {op : SideOp} {rest : List SideOp}
    (hs : s.stream = op :: rest) : FlagsOk (s.exec op rest) := by
  have horder := h.order
  rw [hs] at horder
  have hcons := List.pairwise_cons.mp horder
  have hrest : ∀ op' ∈ rest, op' ∈ s.stream := fun op' h' => hs ▸ List.mem_cons_of_mem _ h'
  constructor
  case order => exact hcons.2
  case waiting =>
    intro hr
    obtain ⟨hp, hf⟩ := h.waiting (hrest _ hr)
    refine ⟨hp, ?_⟩
    have hne : op ≠ .record := fun heq => (hcons.1 _ hr heq).2 rfl
    simp [WindowState.exec, hf, hne]
  case copied =>
    intro hf hc
    rcases Bool.or_eq_true_iff.mp hf with hf | hf
    · exact h.copied hf (hrest _ hc)
    · exact (hcons.1 _ hc (of_decide_eq_true hf)).1 rfl
  case fires =>
    intro hp
    rcases h.fires hp with hf | hr
    · exact .inl (by simp [WindowState.exec, hf])
    · rw [hs] at hr
      rcases List.mem_cons.mp hr with rfl | hr
      · exact .inl (by simp [WindowState.exec])
      · exact .inr hr
  case fresh =>
    intro hp hr
    have hnil := (h.fresh hp hr).1
    rw [hs] at hnil
    exact absurd hnil (List.cons_ne_nil _ _)
  case current =>
    rw [s.settled_exec hs]
    exact h.current
  case made => exact h.made
  case counted => exact h.counted

theorem FlagsOk.tick {s : WindowState} (h : FlagsOk s) : FlagsOk s.tick := by
  rw [WindowState.tick]
  split
  · next hpf =>
    obtain ⟨hp, hf⟩ := Bool.and_eq_true_iff.mp hpf
    constructor
    case order => exact h.order
    case waiting =>
      intro hr
      rw [(h.waiting hr).2] at hf
      exact absurd hf (by simp)
    case copied => exact h.copied
    case fires => exact fun hp => absurd hp (by simp)
    case fresh => exact fun _ hr => absurd hr (by simp)
    case current => exact h.current
    case made => exact h.made
    case counted =>
      intro m hm
      rcases List.mem_append.mp hm with hm | hm
      · exact Nat.add_pos_left (h.counted m hm) _
      · exact Nat.add_pos_right _ (List.countP_pos_iff.mpr ⟨m, hm, by simp⟩)
  · exact h

theorem FlagsOk.stepEnd {s : WindowState} (h : FlagsOk s) : FlagsOk s.stepEnd := by
  have hcopy : s.pending = true → SideOp.copyHost ∉ s.stepOps ∧ SideOp.record ∉ s.stepOps := by
    intro hp
    rw [WindowState.stepOps, hp]
    cases s.accumReset <;> simp
  constructor
  case order =>
    refine List.pairwise_append.mpr ⟨h.order, ?_, ?_⟩
    · rw [WindowState.stepOps]
      cases s.accumReset <;> cases s.pending <;> simp
    · rintro a ha b hb rfl
      obtain ⟨hc, hr⟩ := hcopy (h.waiting ha).1
      exact ⟨fun heq => hc (heq ▸ hb), fun heq => hr (heq ▸ hb)⟩
  case waiting =>
    intro hr
    refine ⟨rfl, ?_⟩
    change (s.pending && s.fired) = false
    rcases List.mem_append.mp hr with hr | hr
    · rw [(h.waiting hr).2, Bool.and_false]
    · cases hp : s.pending with
      | false => rfl
      | true => exact absurd hr (hcopy hp).2
  case copied =>
    intro hf hc
    obtain ⟨hp, hf⟩ := Bool.and_eq_true_iff.mp hf
    rcases List.mem_append.mp hc with hc | hc
    · exact h.copied hf hc
    · exact (hcopy hp).1 hc
  case fires =>
    intro _
    cases hp : s.pending with
    | false =>
      refine .inr (List.mem_append_right _ ?_)
      rw [WindowState.stepOps, hp]
      simp
    | true =>
      rcases h.fires hp with hf | hr
      · exact .inl (by simp [WindowState.stepEnd, hp, hf])
      · exact .inr (List.mem_append_left _ hr)
  case fresh => exact fun hp => absurd hp (by simp [WindowState.stepEnd])
  case current =>
    rw [s.settled_stepEnd]
    exact fun m hm => absurd hm List.not_mem_nil
  case made => exact fun m hm => (h.made m hm).trans (Nat.le_succ _)
  case counted => exact h.counted

theorem FlagsOk.snapshot {s : WindowState} (h : FlagsOk s) : FlagsOk s.snapshot := by
  constructor
  case order => exact List.Pairwise.nil
  case waiting => exact fun hr => absurd hr List.not_mem_nil
  case copied => exact fun _ => List.not_mem_nil
  case fires =>
    intro hp
    refine .inl ?_
    rcases h.fires hp with hf | hr
    · simp [WindowState.snapshot, hf]
    · simp [WindowState.snapshot, hr]
  case fresh =>
    intro hp hr
    obtain ⟨hs, ha⟩ := h.fresh hp hr
    refine ⟨rfl, ?_⟩
    change s.settled.accum = []
    rw [WindowState.settled, hs]
    exact ha
  case current => exact h.current
  case made => exact h.made
  case counted => exact h.counted

theorem FlagsOk.forcePromote {s : WindowState} (h : FlagsOk s) : FlagsOk s.forcePromote := by
  have hsnap := h.snapshot
  rw [s.forcePromote_eq]
  exact ⟨hsnap.order, hsnap.waiting, hsnap.copied, hsnap.fires,
    fun hp hr => ⟨rfl, (hsnap.fresh hp hr).2⟩, fun m hm => absurd hm List.not_mem_nil,
    hsnap.made, hsnap.counted⟩

/-- Every step keeps the flags in order. -/
theorem FlagsOk.step {s t : WindowState} {a : WindowAct} (h : FlagsOk s)
    (hstep : windowStep s a = some t) : FlagsOk t := by
  cases a with
  | mark p => exact Option.some_inj.mp hstep ▸ h.mark p
  | tick => exact Option.some_inj.mp hstep ▸ h.tick
  | stepEnd => exact Option.some_inj.mp hstep ▸ h.stepEnd
  | forcePromote => exact Option.some_inj.mp hstep ▸ h.forcePromote
  | ensureResident => exact Option.some_inj.mp hstep ▸ h.snapshot
  | markNeedOnly => exact Option.some_inj.mp hstep ▸ h.snapshot
  | gpu =>
    rw [windowStep] at hstep
    split at hstep
    · simp at hstep
    · next op rest hs => exact Option.some_inj.mp hstep ▸ h.exec hs

/-! ### What a step keeps -/

section Steps

variable {s t : WindowState}

theorem Delivering.mark (h : Delivering s) (p : Pair) : Delivering (s.mark p) := by
  intro m hm hlt
  have hold : m ∈ s.marked := by
    refine (List.mem_append.mp hm).resolve_right fun hm => ?_
    rw [List.mem_singleton.mp hm] at hlt
    exact lt_irrefl _ hlt
  refine (h m hold hlt).imp_right fun hu => ⟨hu.1, ?_⟩
  exact (@mem_runAll_mono m s.stream s.buf (s.mark p).buf
    (fun h => List.mem_append_left _ h) (fun h => h) fun h => h).2.2 hu.2

theorem Delivering.tick (hf : FlagsOk s) (h : Delivering s) : Delivering s.tick := by
  intro m hm hlt
  rw [s.settled_tick]
  rw [WindowState.tick] at hm hlt ⊢
  split at hm
  · next hpf =>
    obtain ⟨_, hfired⟩ := Bool.and_eq_true_iff.mp hpf
    rw [if_pos hpf] at hlt ⊢
    refine .inl (List.mem_append.mpr ?_)
    rw [← runAll_host (hf.copied hfired) s.buf]
    exact (h m hm hlt).imp_right And.right
  · next hpf =>
    rw [if_neg hpf] at hlt ⊢
    exact h m hm hlt

/-- A mark of a step that has ended is not in `seen` any more. -/
theorem FlagsOk.not_seen (hf : FlagsOk s) {m : Mark} (hlt : m.step < s.step) :
    m ∉ s.settled.seen := fun h =>
  absurd (hf.current m h) hlt.ne

/-- A step that keeps the windows leaves them delivered or under way. -/
theorem Delivering.step (hf : FlagsOk s) (h : Delivering s) {a : WindowAct}
    (hstep : windowStep s a = some t) (hk : KeepsWindows s a) : Delivering t := by
  -- a snapshot finds nothing unconsumed, or overwrites what is not pending
  have hsnap : (s.pending = true → ∀ m ∈ s.marked, m.step < s.step → m ∈ s.consumed) →
      ∀ m ∈ s.marked, m.step < s.step → m ∈ s.consumed := by
    intro hk m hm hlt
    rcases h m hm hlt with hc | ⟨hp, _⟩
    · exact hc
    · exact hk hp m hm hlt
  cases a with
  | mark p => exact Option.some_inj.mp hstep ▸ h.mark p
  | tick => exact Option.some_inj.mp hstep ▸ h.tick hf
  | gpu =>
    rw [windowStep] at hstep
    split at hstep
    · simp at hstep
    · next op rest hs =>
      rw [← Option.some_inj.mp hstep]
      intro m hm hlt
      rw [s.settled_exec hs]
      exact h m hm hlt
  | forcePromote =>
    rw [← Option.some_inj.mp hstep, s.forcePromote_eq]
    exact fun m hm hlt => .inl (hsnap hk m hm hlt)
  | ensureResident =>
    rw [← Option.some_inj.mp hstep]
    exact fun m hm hlt => .inl (hsnap hk m hm hlt)
  | markNeedOnly =>
    rw [← Option.some_inj.mp hstep]
    exact fun m hm hlt => .inl (hsnap hk m hm hlt)
  | stepEnd =>
    rw [← Option.some_inj.mp hstep]
    intro m hm hlt
    rw [s.settled_stepEnd]
    have hnew : m ∈ s.consumed ∨ m ∈ (if s.pending then s.settled.host else s.settled.seen) := by
      rcases (hf.made m hm).lt_or_eq with hold | heq
      · rcases h m hm hold with hc | ⟨hp, hh⟩
        · exact .inl hc
        · exact .inr (by rwa [if_pos hp])
      · exact hk m hm heq
    refine hnew.imp_right fun hin => ⟨rfl, ?_⟩
    split at hin
    · next hp => simpa [hp] using hin
    · next hp => simp [hp, hin]

end Steps

/-! ### What is lost -/

/-- A mark of an ended step that no tick will consume: it is neither consumed nor in the pending
snapshot, and the accumulator, if it is still there, is reset before it is copied again. -/
structure Lost (m : Mark) (s : WindowState) : Prop where
  made : m ∈ s.marked
  ended : m.step < s.step
  unconsumed : m ∉ s.consumed
  unseen : m ∉ s.settled.seen
  notPending : s.pending = true → m ∉ s.settled.host
  doomed : m ∈ s.settled.accum → s.pending = true ∨ s.accumReset = true

instance (m : Mark) (s : WindowState) : Decidable (Lost m s) :=
  decidable_of_iff (m ∈ s.marked ∧ m.step < s.step ∧ m ∉ s.consumed ∧ m ∉ s.settled.seen ∧
      (s.pending = true → m ∉ s.settled.host) ∧
      (m ∈ s.settled.accum → s.pending = true ∨ s.accumReset = true))
    ⟨fun ⟨h₁, h₂, h₃, h₄, h₅, h₆⟩ => ⟨h₁, h₂, h₃, h₄, h₅, h₆⟩,
      fun ⟨h₁, h₂, h₃, h₄, h₅, h₆⟩ => ⟨h₁, h₂, h₃, h₄, h₅, h₆⟩⟩

section Lost

variable {s t : WindowState} {m : Mark}

/-- A snapshot brings back nothing. -/
theorem Lost.snapshot (h : Lost m s) : Lost m s.snapshot where
  made := h.made
  ended := h.ended
  unconsumed := h.unconsumed
  unseen := h.unseen
  notPending _ := h.unseen
  doomed := h.doomed

/-- What is lost stays lost, whatever happens. -/
theorem Lost.step (hf : FlagsOk s) (h : Lost m s) {a : WindowAct}
    (hstep : windowStep s a = some t) : Lost m t := by
  cases a with
  | mark p =>
    rw [← Option.some_inj.mp hstep]
    have hne : m ≠ ⟨s.step, p⟩ := fun heq => (heq ▸ h.ended).ne rfl
    obtain ⟨hs, ha, hh⟩ := s.mem_settled_mark p hne
    exact ⟨List.mem_append_left _ h.made, h.ended, h.unconsumed, fun hm => h.unseen (hs hm),
      fun hp hm => h.notPending hp (hh hm), fun hm => h.doomed (ha hm)⟩
  | gpu =>
    rw [windowStep] at hstep
    split at hstep
    · simp at hstep
    · next op rest hs =>
      rw [← Option.some_inj.mp hstep]
      have heq := s.settled_exec hs
      exact ⟨h.made, h.ended, h.unconsumed, by rw [heq]; exact h.unseen,
        by rw [heq]; exact h.notPending, by rw [heq]; exact h.doomed⟩
  | tick =>
    rw [← Option.some_inj.mp hstep, WindowState.tick]
    split
    · next hpf =>
      obtain ⟨hp, hfired⟩ := Bool.and_eq_true_iff.mp hpf
      refine ⟨h.made, h.ended, fun hc => ?_, h.unseen, fun hp => absurd hp (by simp),
        fun _ => .inr rfl⟩
      rcases List.mem_append.mp hc with hc | hc
      · exact h.unconsumed hc
      · exact h.notPending hp (by rwa [WindowState.settled, runAll_host (hf.copied hfired)])
    · exact h
  | stepEnd =>
    rw [← Option.some_inj.mp hstep]
    have hsettled := s.settled_stepEnd
    -- what goes into a copy is reset before it, or was never in the accumulator
    have hcopied : s.pending = false →
        m ∉ (if s.accumReset then [] else s.settled.accum) ++ s.settled.seen := by
      intro hp hm
      rcases List.mem_append.mp hm with hm | hm
      · split at hm
        · exact absurd hm List.not_mem_nil
        · next hr =>
          rcases h.doomed hm with hd | hd
          · rw [hp] at hd
            exact absurd hd (by simp)
          · exact hr hd
      · exact h.unseen hm
    refine ⟨h.made, h.ended.trans (Nat.lt_succ_self _), h.unconsumed, ?_, fun _ => ?_,
      fun _ => .inl rfl⟩
    · rw [hsettled]
      exact List.not_mem_nil
    · rw [hsettled]
      dsimp only
      split
      · next hp => exact h.notPending hp
      · next hp => exact hcopied (by simpa using hp)
  | forcePromote =>
    rw [← Option.some_inj.mp hstep, s.forcePromote_eq]
    exact ⟨h.made, h.ended, h.unconsumed, List.not_mem_nil, fun _ => h.unseen, h.doomed⟩
  | ensureResident => exact Option.some_inj.mp hstep ▸ h.snapshot
  | markNeedOnly => exact Option.some_inj.mp hstep ▸ h.snapshot

/-- No tick ever consumes what is lost. -/
theorem Lost.never_consumed (hf : FlagsOk s) (h : Lost m s)
    (ht : (windowsFrom s).Reachable t) : m ∉ t.consumed := by
  have hinv : (windowsFrom s).Invariant fun t => FlagsOk t ∧ Lost m t := by
    constructor
    · rintro t rfl
      exact ⟨hf, h⟩
    · intro t a u _ hok hstep
      exact ⟨hok.1.step hstep, hok.2.step hok.1 hstep⟩
  exact (hinv.holds ht).2.unconsumed

/-- A step that does not keep the windows loses a mark. -/
theorem exists_lost (hf : FlagsOk s) {a : WindowAct}
    (hstep : windowStep s a = some t) (hk : ¬ KeepsWindows s a) : ∃ m, Lost m t := by
  have hsnap : (¬ (s.pending = true → ∀ m ∈ s.marked, m.step < s.step → m ∈ s.consumed)) →
      ∃ m, m ∈ s.marked ∧ m.step < s.step ∧ m ∉ s.consumed ∧ s.pending = true := by
    intro hk
    simp only [not_forall] at hk
    obtain ⟨hp, m, hm, hlt, hc⟩ := hk
    exact ⟨m, hm, hlt, hc, hp⟩
  cases a with
  | mark p => exact absurd trivial hk
  | gpu => exact absurd trivial hk
  | tick => exact absurd trivial hk
  | forcePromote =>
    obtain ⟨m, hm, hlt, hc, hp⟩ := hsnap hk
    rw [← Option.some_inj.mp hstep, s.forcePromote_eq]
    exact ⟨m, hm, hlt, hc, List.not_mem_nil, fun _ => hf.not_seen hlt, fun _ => .inl hp⟩
  | ensureResident =>
    obtain ⟨m, hm, hlt, hc, hp⟩ := hsnap hk
    rw [← Option.some_inj.mp hstep]
    exact ⟨m, hm, hlt, hc, hf.not_seen hlt, fun _ => hf.not_seen hlt, fun _ => .inl hp⟩
  | markNeedOnly =>
    obtain ⟨m, hm, hlt, hc, hp⟩ := hsnap hk
    rw [← Option.some_inj.mp hstep]
    exact ⟨m, hm, hlt, hc, hf.not_seen hlt, fun _ => hf.not_seen hlt, fun _ => .inl hp⟩
  | stepEnd =>
    simp only [KeepsWindows, not_forall, not_or] at hk
    obtain ⟨m, hm, heq, hc, hnot⟩ := hk
    rw [← Option.some_inj.mp hstep]
    refine ⟨m, hm, heq ▸ Nat.lt_succ_self _, hc, ?_, fun _ => ?_, fun _ => .inl rfl⟩
    · rw [s.settled_stepEnd]
      exact List.not_mem_nil
    · rw [s.settled_stepEnd]
      dsimp only
      split at hnot
      · next hp => rwa [if_pos hp]
      · next hp =>
        rw [if_neg hp]
        intro hin
        rcases List.mem_append.mp hin with hin | hin
        · split at hin
          · exact absurd hin List.not_mem_nil
          · next hr =>
            -- before the first window the accumulator is empty
            obtain ⟨hstream, haccum⟩ := hf.fresh (by simpa using hp) (by simpa using hr)
            rw [WindowState.settled, hstream] at hin
            exact absurd (haccum ▸ hin) List.not_mem_nil
        · exact hnot hin

/-- A step keeps the windows exactly if it is one of those that do. -/
theorem keepsWindows_iff (hf : FlagsOk s) (h : Delivering s) {a : WindowAct}
    (hstep : windowStep s a = some t) : Delivering t ↔ KeepsWindows s a := by
  constructor
  · intro ht
    by_contra hk
    obtain ⟨m, hm⟩ := exists_lost hf hstep hk
    rcases ht m hm.made hm.ended with hc | ⟨hp, hh⟩
    · exact hm.unconsumed hc
    · exact hm.notPending hp hh
  · intro hk
    exact h.step hf hstep hk

end Lost

/-! ### Runs -/

/-- A run whose steps all keep the windows. -/
def keptWindows : TransitionSystem WindowState WindowAct :=
  (windowsFrom .init).onlySteps KeepsWindows

theorem start_init : (windowsFrom .init).Start .init :=
  rfl

theorem invariant_delivering :
    keptWindows.Invariant fun s => FlagsOk s ∧ Delivering s := by
  constructor
  · rintro s rfl
    exact ⟨.init, fun m hm => absurd hm List.not_mem_nil⟩
  · intro s a t _ h hstep
    exact ⟨h.1.step hstep.2, h.2.step h.1 hstep.2 hstep.1⟩

/-- A tick that finds no snapshot, or the event of one fired, leaves no mark of an ended step
unconsumed. -/
theorem Delivering.consumed_tick {s : WindowState} (hf : FlagsOk s) (h : Delivering s)
    (hfired : s.pending = true → s.fired = true) {m : Mark} (hm : m ∈ s.marked)
    (hlt : m.step < s.step) : m ∈ s.tick.consumed := by
  rw [WindowState.tick]
  rcases h m hm hlt with hc | ⟨hp, hh⟩
  · split
    · exact List.mem_append_left _ hc
    · exact hc
  · rw [if_pos (by rw [hp, hfired hp]; rfl)]
    refine List.mem_append_right _ ?_
    rwa [WindowState.settled, runAll_host (hf.copied (hfired hp))] at hh

/-- **When windows never drop.** In a run whose steps keep the windows, every mark of an ended
step is consumed or in the pending snapshot; the event of that one fires once the side stream
has caught up, and the next tick consumes it and adds to the frequency of its pair. A step that
does not keep the windows drops a mark: no run from there on consumes it. -/
theorem windows_never_drop (s : WindowState) (hs : keptWindows.Reachable s) :
    Delivering s ∧
      (s.pending = true → s.fired = true ∨ SideOp.record ∈ s.stream) ∧
      ((s.pending = true → s.fired = true) → ∀ m ∈ s.marked, m.step < s.step →
        m ∈ s.tick.consumed ∧ 0 < s.tick.added m.pair) ∧
      ∀ a t, windowStep s a = some t → ¬ KeepsWindows s a →
        ∃ m ∈ t.marked, m.step < t.step ∧
          ∀ u, (windowsFrom t).Reachable u → m ∉ u.consumed := by
  obtain ⟨hf, h⟩ := invariant_delivering.holds hs
  refine ⟨h, hf.fires, fun hfired m hm hlt => ?_, fun a t hstep hk => ?_⟩
  · have hc := h.consumed_tick hf hfired hm hlt
    exact ⟨hc, hf.tick.counted m hc⟩
  · obtain ⟨m, hm⟩ := exists_lost hf hstep hk
    exact ⟨m, hm.made, hm.ended, fun u hu => hm.never_consumed (hf.step hstep) hu⟩

/-- A step whose marks are fetched for after their window has been consumed. -/
theorem windows_never_drop_consumed :
    ∃ s, keptWindows.Reachable s ∧ decide (s.consumed = [⟨0, 0, 1⟩]) = true ∧ Delivering s := by
  obtain ⟨s, hs, hP⟩ := TransitionSystem.exists_reachable_of_replay windowStep KeepsWindows
    start_init [.mark (0, 1), .stepEnd, .gpu, .gpu, .gpu, .gpu, .tick, .mark (0, 2), .ensureResident]
    (fun s => decide (s.consumed = [⟨0, 0, 1⟩])) (by decide)
  exact ⟨s, hs, hP, (windows_never_drop s hs).1⟩

/-- A run that ends with a mark lost. -/
theorem lost_of_run (run : List WindowAct) (m : Mark)
    (h : (TransitionSystem.replay windowStep .init run).any (fun s => decide (Lost m s)) = true) :
    ∃ s, (windowsFrom .init).Reachable s ∧ m ∈ s.marked ∧ m.step < s.step ∧
      ∀ u, (windowsFrom s).Reachable u → m ∉ u.consumed := by
  obtain ⟨s, hs, hP⟩ := TransitionSystem.exists_reachable_of_run windowStep start_init run _ h
  have hinv : (windowsFrom .init).Invariant FlagsOk := by
    constructor
    · rintro s rfl
      exact .init
    · intro s a t _ hok hstep
      exact hok.step hstep
  have hlost := of_decide_eq_true hP
  exact ⟨s, hs, hlost.made, hlost.ended, fun u hu => hlost.never_consumed (hinv.holds hs) hu⟩

/-- Windows drop: a fetch by `ensure_resident` overwrites the snapshot that is pending; a
`step_end` before the event has fired merges a window that is reset before the next copy; and
`force_promote` clears the marks of its step. -/
theorem windows_drop :
    (∃ s, (windowsFrom .init).Reachable s ∧ ⟨0, 0, 1⟩ ∈ s.marked ∧ 0 < s.step ∧
      ∀ u, (windowsFrom s).Reachable u → ⟨0, 0, 1⟩ ∉ u.consumed) ∧
    (∃ s, (windowsFrom .init).Reachable s ∧ ⟨1, 0, 2⟩ ∈ s.marked ∧ 1 < s.step ∧
      ∀ u, (windowsFrom s).Reachable u → ⟨1, 0, 2⟩ ∉ u.consumed) ∧
    ∃ s, (windowsFrom .init).Reachable s ∧ ⟨0, 0, 1⟩ ∈ s.marked ∧ 0 < s.step ∧
      ∀ u, (windowsFrom s).Reachable u → ⟨0, 0, 1⟩ ∉ u.consumed := by
  refine ⟨?_, ?_, ?_⟩
  · exact lost_of_run [.mark (0, 1), .stepEnd, .gpu, .gpu, .gpu, .gpu, .mark (0, 2),
      .ensureResident] ⟨0, 0, 1⟩ (by decide)
  · exact lost_of_run [.mark (0, 1), .stepEnd, .gpu, .gpu, .mark (0, 2), .stepEnd] ⟨1, 0, 2⟩
      (by decide)
  · exact lost_of_run [.mark (0, 1), .forcePromote, .stepEnd] ⟨0, 0, 1⟩ (by decide)

end VllmMoet.Delta
