import VllmMoet.CpuTier.AckedRows

/-!
# What a request leaves behind

When `serve` returns it has dropped its pins, its reads are reaped and their slots are
resident or spare again, so that no completion of one request is reaped by a later one
(`nothing_left`). The drain of a failed request looks only at what is in flight, so this
is the case along the runs that never come to the drain with a prepared read that
`io_uring_enter` has not taken (`LeavesNothing`). A submission that is answered by an error
does come there, and its read is left in the queue (`read_left_behind`).
-/

namespace VllmMoet

namespace CpuTier

variable {c : Config} {T : Tier} {R : Ring} {F : Frame} {D D' : Dispatcher} {S S' : Sys}

/-- No `io_uring_enter` fails, and the waiting loop is not left by a failed request while a
prepared read waits to be taken. -/
def LeavesNothing (S : Sys) : Act → Prop
  | .submit a => a ≠ .error
  | .run => S.disp.pc = .loop → S.disp.frame.status ≠ 0 → S.disp.ring.sq = []
  | _ => True

instance (S : Sys) (a : Act) : Decidable (LeavesNothing S a) :=
  match a with
  | .submit _ => inferInstanceAs (Decidable (_ ≠ _))
  | .run => inferInstanceAs (Decidable (_ → _ → _))
  | .serve _ _ _ | .kernel _ | .complete _ _ | .acquire _ _ | .acquireRead _ _ | .release _ _ _
  | .prefillFetch _ _ _ | .prefillRead _ _ | .prefillRelease _ _ _ => isTrue trivial

/-- The request issues and submits no more reads. -/
def Pc.settled : Pc → Bool
  | .idle | .drain | .unpinEnd | .ack => true
  | _ => false

/-! ### Where the dispatcher goes -/

/-- Where the dispatcher's own steps lead. -/
def Pc.next : Pc → List Pc
  | .group => [.unpinEnd, .forwardAll, .issue]
  | .issue => [.submit]
  | .unpinResident => [.loop]
  | .loop => [.issueIdle, .wait, .drain, .unpinEnd]
  | .issueIdle => [.submitIdle]
  | .wait => [.loop, .reap]
  | .reap => [.reap, .issueNext, .forwardBatch, .unpinBatch]
  | .issueNext => [.submitNext]
  | .unpinBatch => [.loop]
  | .drain => [.drain, .unpinEnd]
  | .unpinEnd => [.ack]
  | .ack => [.idle]
  | .idle | .forwardAll | .submit | .forwardResident | .submitIdle | .submitNext
  | .forwardBatch => []

theorem runReap_pc (hpc : D.pc = .reap) : D.runReap.pc ∈ Pc.next .reap := by
  rw [Dispatcher.runReap]
  split
  · simp only
    split
    · simp [Pc.next]
    · rcases batchPc_cases D.frame with ⟨hb, -⟩ | ⟨hb, -⟩ <;> simp [hb, Pc.next]
  · simp only
    split <;> simp [hpc, Pc.next]

theorem run_pc (hs : D.run = some D') : D'.pc ∈ D.pc.next := by
  rw [Dispatcher.run] at hs
  cases hpc : D.pc <;> simp only [hpc, reduceCtorEq, Option.some.injEq] at hs
  case reap => exact hs ▸ runReap_pc hpc
  case drain =>
    rw [Dispatcher.runDrain] at hs
    split at hs
    · exact Option.some.inj hs ▸ by simp [Pc.next]
    · split at hs
      · simp at hs
      · exact Option.some.inj hs ▸ by simp [Pc.next, hpc]
  all_goals
    subst hs
    simp only [Dispatcher.runGroup, Dispatcher.runIssue, Dispatcher.runUnpin, Dispatcher.runLoop,
      Dispatcher.runAck, Pc.next]
    repeat' split
    all_goals simp

/-- A request settles after its grouping, or when it leaves the waiting loop. -/
theorem Pc.settled_of_next {p q : Pc} (h : q ∈ p.next) (hq : q.settled = true) :
    p = .group ∨ p = .loop ∨ p.settled = true := by
  have hall : p.next.all
      (fun q => !q.settled || (p == .group || (p == .loop || p.settled))) = true := by
    cases p <;> rfl
  simpa [hq] using List.all_eq_true.mp hall q h

/-- The acknowledgement follows the last unpinning, and the dispatcher is idle after it. -/
theorem Pc.unpinEnd_of_next {p q : Pc} (h : q ∈ p.next) (hq : q = .idle ∨ q = .ack) :
    p = .unpinEnd ∨ p = .ack := by
  have hall : p.next.all
      (fun q => !(q == .idle || q == .ack) || (p == .unpinEnd || p == .ack)) = true := by
    cases p <;> rfl
  rcases hq with rfl | rfl <;> simpa using List.all_eq_true.mp hall _ h

/-- The waiting loop of a request that has not failed is left once all records have landed. -/
theorem landed_of_runLoop (hst : D.frame.status = 0) (hset : D.runLoop.pc.settled = true) :
    D.frame.nCold ≤ D.frame.landed := by
  by_contra hland
  rw [not_le] at hland
  simp only [Dispatcher.runLoop, hst, hland, and_self, ↓reduceIte] at hset
  split at hset <;> simp [Pc.settled] at hset

/-! ### The submission queue -/

theorem batchPc_settled (F : Frame) : (Dispatcher.batchPc F).settled = false := by
  rcases batchPc_cases F with ⟨h, -⟩ | ⟨h, -⟩ <;> rw [h] <;> rfl

/-- Once all cold records have landed, no read of the request is left in the ring. -/
theorem DispOk.all_landed {held : List ℕ} (h : DispOk c D held) (hpc : D.pc.reading = true)
    (hst : D.frame.status = 0) (hland : D.frame.nCold ≤ D.frame.landed) : D.ring.reads = [] := by
  obtain ⟨hb, hle⟩ := h.balance hpc hst
  exact List.length_eq_zero_iff.mp (by omega)

/-- The dispatcher settles with an empty submission queue. -/
theorem DispOk.run_settled {held : List ℕ} (h : DispOk c D held) (hs : D.run = some D')
    (hq : D.pc.settled = true → D.ring.sq = [])
    (hloop : D.pc = .loop → D.frame.status ≠ 0 → D.ring.sq = []) :
    D'.pc.settled = true → D'.ring.sq = [] := by
  intro hset
  have hnext := run_pc hs
  have hsub : D'.pc.submitting = false := by
    cases hpc : D'.pc <;> simp [hpc, Pc.settled, Pc.submitting] at hset ⊢
  rw [(run_sq hs).2 hsub]
  rcases Pc.settled_of_next hnext hset with hpc | hpc | hpc
  · exact (h.early (by rw [hpc]; rfl)).1
  · rw [Dispatcher.run, hpc] at hs
    obtain rfl := Option.some.inj hs
    by_cases hst : D.frame.status = 0
    · have hreads := h.all_landed (by rw [hpc]; rfl) hst (landed_of_runLoop hst hset)
      simp only [Ring.reads, List.append_eq_nil_iff] at hreads
      exact hreads.1.1
    · exact hloop hpc hst
  · exact hq hpc

theorem DispOk.kernel_settled {held : List ℕ} (h : DispOk c D held) {rc : ℤ}
    (hs : D.kernel rc = some D') : D'.pc.settled = true → D'.ring.sq = [] := by
  intro hset
  rw [(kernel_sq hs).2]
  obtain ⟨call, next, -, rfl, ⟨hpc, -⟩ | ⟨-, hnext⟩ | ⟨-, hnext⟩⟩ := kernel_cases hs
  · exact (h.early (by rw [hpc]; rfl)).1
  · subst hnext
    simp [Pc.settled] at hset
  · subst hnext
    simp [Pc.settled] at hset

/-- A submission that does not fail leads on to the waiting loop. -/
theorem submit_settled {a : Submitted} (ha : a ≠ .error) (hs : D.submit a = some D') :
    D'.pc.settled = false := by
  rw [Dispatcher.submit] at hs
  split at hs
  · simp at hs
  · cases hpc : D.pc <;> simp only [hpc, reduceCtorEq, Option.some.injEq, if_neg ha] at hs
    case submit =>
      subst hs
      simp only
      split <;> rfl
    case submitIdle =>
      subst hs
      rfl
    case submitNext =>
      subst hs
      exact batchPc_settled _

/-! ### The pins of the frame -/

/-- A request takes no pin before its grouping, and has dropped all before its
acknowledgement. -/
def Dispatcher.PinsDropped (D : Dispatcher) : Prop :=
  D.pc = .idle ∨ D.pc = .ack → D.frame.pinned = []

theorem Dispatcher.PinsDropped.run (h : D.PinsDropped) (hon : D.tier.tail.on = true)
    (hs : D.run = some D') : D'.PinsDropped := by
  intro hq
  rcases Pc.unpinEnd_of_next (run_pc hs) hq with hpc | hpc
  · rw [Dispatcher.run, hpc] at hs
    obtain rfl := Option.some.inj hs
    by_cases hpin : D.frame.pinned = []
    · simp [hpin]
    · simp [hon, hpin, Dispatcher.runUnpin]
  · rw [Dispatcher.run, hpc] at hs
    exact Option.some.inj hs ▸ h (.inr hpc)

/-! ### The whole system -/

/-- A store whose records say nothing. -/
def blankStore : Store Unit Unit Unit := ⟨fun _ _ => (), fun _ _ _ => ()⟩

/-- The invariant of the runs that leave nothing behind. -/
structure TidyOk (S : Sys) : Prop where
  sys : ∃ c, SysOk c S
  reads : ReadsOk blankStore S fun _ => ()
  queue : S.disp.pc.settled = true → S.disp.ring.sq = []
  pins : S.disp.PinsDropped

theorem idle_of_serve {l seq : ℕ} {req : Request} (hs : D.serve l seq req = some D') :
    D.pc = .idle ∧ D'.ring = D.ring ∧ D'.frame.pinned = [] := by
  rw [Dispatcher.serve] at hs
  split at hs
  · next hpc => exact Option.some.inj hs ▸ ⟨hpc.1, rfl, rfl⟩
  · simp at hs

/-- Requests begin with an empty submission queue. -/
theorem TidyOk.clean (h : TidyOk S) {a : Act} (hs : S.step a = some S') : CleanStart S a := by
  cases a with
  | serve l seq req =>
    obtain ⟨D, hD, -⟩ := Option.map_eq_some_iff.mp hs
    exact h.queue (by rw [(idle_of_serve hD).1]; rfl)
  | run | kernel _ | submit _ | complete _ _ | acquire _ _ | acquireRead _ _ | release _ _ _
  | prefillFetch _ _ _ | prefillRead _ _ | prefillRelease _ _ _ => trivial

/-- The queue and the frame's pins after one step. -/
theorem TidyOk.step_disp (h : TidyOk S) {a : Act} (ha : LeavesNothing S a)
    (hs : S.step a = some S') :
    (S'.disp.pc.settled = true → S'.disp.ring.sq = []) ∧ S'.disp.PinsDropped := by
  obtain ⟨c, hc⟩ := h.sys
  rcases step_disp_eq hs with ⟨T, hT⟩ | hD
  · rw [hT]
    exact ⟨h.queue, h.pins⟩
  · cases a with
    | serve l seq req =>
      simp only at hD
      obtain ⟨hpc, hring, hpin⟩ := idle_of_serve hD
      refine ⟨fun _ => ?_, fun _ => hpin⟩
      rw [hring]
      exact h.queue (by rw [hpc]; rfl)
    | run =>
      have hon : S.disp.tier.tail.on = true :=
        (congrArg Config.on hc.disp.config).trans hc.disp.on
      exact ⟨hc.disp.run_settled hD h.queue ha, h.pins.run hon hD⟩
    | kernel rc =>
      simp only at hD
      refine ⟨hc.disp.kernel_settled hD, fun hq => ?_⟩
      obtain ⟨call, next, -, hD', hnext⟩ := kernel_cases hD
      rw [hD'] at hq
      rcases hnext with ⟨-, rfl⟩ | ⟨-, rfl⟩ | ⟨-, rfl⟩ <;> simp at hq
    | submit r =>
      have hset := submit_settled ha hD
      refine ⟨fun hq => ?_, fun hq => ?_⟩
      · simp [hset] at hq
      · rcases hq with hq | hq <;> simp [hq, Pc.settled] at hset
    | complete i res =>
      obtain ⟨R, hR, hD⟩ := hD
      obtain ⟨r, -, rfl⟩ := Option.map_eq_some_iff.mp hR
      rw [hD]
      exact ⟨h.queue, h.pins⟩
    | _ => exact hD.elim

theorem TidyOk.step (h : TidyOk S) {a : Act} (ha : LeavesNothing S a)
    (hs : S.step a = some S') : TidyOk S' := by
  obtain ⟨c, hc⟩ := h.sys
  obtain ⟨hq, hp⟩ := h.step_disp ha hs
  exact ⟨⟨c, hc.step (h.clean hs) hs⟩, h.reads.step hc hs fun _ _ _ _ => rfl, hq, hp⟩

theorem tidyOk_start (h : Start S) : TidyOk S := by
  obtain ⟨hsq, hfl, hcq⟩ := h.ring
  refine ⟨⟨_, sysOk_start h⟩, ⟨fun hg => ?_, fun hi => absurd h.pc hi, fun hd => ?_, fun r hr => ?_,
    fun hr => ?_, fun hr => ?_, fun r hr => ?_⟩, fun _ => hsq, fun _ => h.pinned⟩
  · simp [h.pc] at hg
  · simp [h.pc] at hd
  · simp [hcq] at hr
  · simp [h.pc, Pc.reading] at hr
  · simp [h.pc, Pc.reading] at hr
  · simp [h.calls.1] at hr

/-- The runs in which no submission fails and no failed request is drained while a prepared
read waits. -/
def tidySystem : TransitionSystem Sys Act := tierSystem.onlySteps LeavesNothing

theorem tidyOk_of_reachable (h : tidySystem.Reachable S) : TidyOk S := by
  have hinv : tidySystem.Invariant TidyOk :=
    ⟨fun _ hS => tidyOk_start hS, fun _ _ _ _ hok ⟨ha, hs⟩ => hok.step ha hs⟩
  exact hinv.holds h

/-- The runs of `tidySystem` whose callers respect the pins. -/
def tidyPinsSystem : TransitionSystem Sys Act :=
  tierSystem.onlySteps fun S a => LeavesNothing S a ∧ PinsKept S a

theorem pinsSystem_of_tidy (h : tidyPinsSystem.Reachable S) :
    tidySystem.Reachable S ∧ pinsSystem.Reachable S := by
  induction h with
  | start h0 => exact ⟨.start h0, .start h0⟩
  | step _ hstep ih =>
    obtain ⟨⟨ha, hk⟩, hs⟩ := hstep
    have hclean := (tidyOk_of_reachable ih.1).clean hs
    exact ⟨.step ih.1 ⟨ha, hs⟩,
      .step ih.2 ⟨⟨hk.disciplined, hk.own, hclean, hk.bounded⟩, hs⟩⟩

/-- **A request leaves nothing behind.** In every run in which no submission fails and no
failed request is drained while a prepared read waits, a read in the ring is the one its tag
stands for in the request in progress. When `serve` is about to acknowledge, with any status,
the ring is empty, the frame holds no pin, and every arena slot is spare, in a layer's list,
or the target of a `record_acquire`, exactly once. If the callers respect the pins, the pins
left are the callers'. -/
theorem nothing_left (h : tidySystem.Reachable S) :
    (∀ r ∈ S.disp.ring.reads, S.disp.frame.slotOfCold[r.ud]? = some r.slot ∧
      (S.disp.pc.reading = true → r.layer = S.disp.frame.layer ∧ r.ud < S.disp.frame.nCold ∧
        r.expert = S.disp.frame.eid (S.disp.frame.coldOf r))) ∧
    (S.disp.pc = .ack ∨ S.disp.pc = .idle →
      S.disp.ring.sq = [] ∧ S.disp.ring.flying = [] ∧ S.disp.ring.cq = [] ∧
      S.disp.frame.pinned = [] ∧
      (∃ ns : ℕ → List ℕ,
        (S.tier.tail.freeSlots ++ (List.range S.tier.nLayers).flatMap ns ++
          S.acquiring.map Held.slot).Perm (List.range S.tier.tail.nSlots) ∧
        ∀ l < S.tier.nLayers, S.tier.tail.links.IsList (S.tier.layers l).lru (ns l)) ∧
      (tidyPinsSystem.Reachable S → ∀ s, (S.tier.tail.slots s).pins =
        (S.acquired.map Held.slot ++ (S.fetching ++ S.fetched).flatMap Fetch.slots ++
          S.leaked).count s)) := by
  have hok := tidyOk_of_reachable h
  obtain ⟨c, hc⟩ := hok.sys
  refine ⟨fun r hr => ⟨hc.disp.tags r hr, fun hp => hok.reads.reads hp r hr⟩, fun hpc => ?_⟩
  have hsq : S.disp.ring.sq = [] := hok.queue (by rcases hpc with hpc | hpc <;> rw [hpc] <;> rfl)
  obtain ⟨hfl, hcq⟩ := hc.disp.quiet (by rcases hpc with hpc | hpc <;> rw [hpc] <;> rfl)
  have hpin := hok.pins hpc.symm
  refine ⟨hsq, hfl, hcq, hpin, ?_, fun hk s => ?_⟩
  · obtain ⟨ns, ha⟩ := hc.disp.arena
    refine ⟨ns, ?_, fun l hl => (ha.layer l hl).list⟩
    have hperm := ha.perm
    rwa [show S.disp.ring.targets = [] by simp [Ring.targets, Ring.reads, hsq, hfl, hcq],
      List.nil_append] at hperm
  · have hp := (pins_held (pinsSystem_of_tidy hk).2).1 s
    rw [hp, Sys.holders, hpin, List.nil_append]

/-- A request of `smallSys` for a cold expert whose read comes up short, up to its
acknowledgement. -/
def shortReadRun : List Act :=
  [.serve 0 1 ⟨1, 1, fun _ => ⟨0, 1, 5⟩, 0, fun _ => 0⟩, .run, .run, .submit (.accepted 1), .run,
    .run, .run, .complete 0 7, .run, .run, .run, .run, .run, .run]

theorem nothing_left_short : ∃ S, tidySystem.Reachable S ∧ S.disp.pc = .ack ∧
    S.disp.frame.status = 5 ∧ S.disp.frame.slotOfCold ≠ [] ∧ S.disp.ring.sq = [] := by
  obtain ⟨S, hS, hP⟩ := TransitionSystem.exists_reachable_of_replay Sys.step LeavesNothing
    start_smallSys shortReadRun (fun S => S.disp.pc == .ack && S.disp.frame.status == 5 &&
      S.disp.frame.slotOfCold != []) (by decide)
  simp only [Bool.and_eq_true, beq_iff_eq, bne_iff_ne] at hP
  obtain ⟨⟨hpc, hst⟩, hslot⟩ := hP
  exact ⟨S, hS, hpc, hst, hslot, ((nothing_left hS).2 (.inl hpc)).1⟩

/-- A request of `smallSys` for expert 1 whose submission is answered by an error, up to its
acknowledgement. -/
def leftReadRun : List Act :=
  [.serve 0 1 ⟨1, 1, fun _ => ⟨0, 1, 5⟩, 0, fun _ => 0⟩, .run, .run, .submit .error, .run, .run,
    .run, .run]

/-- The same, and then a request for expert 2 that submits both reads; the first request's
read completes. -/
def reapedReadRun : List Act :=
  leftReadRun ++ [.run, .serve 0 2 ⟨1, 1, fun _ => ⟨0, 2, 5⟩, 0, fun _ => 0⟩, .run, .run,
    .submit (.accepted 2), .run, .run, .complete 0 4700160, .run]

/-- **A read left behind.** A request is about to be acknowledged while its read is still
prepared; and a later request is about to reap the completion of that read, which its tag
takes for the read of another expert. -/
theorem read_left_behind :
    (∃ S, tierSystem.Reachable S ∧ S.disp.pc = .ack ∧ S.disp.ring.sq ≠ []) ∧
      ∃ S, tierSystem.Reachable S ∧ S.disp.pc = .reap ∧ ∃ x ∈ S.disp.ring.cq,
        x.1.expert ≠ S.disp.frame.eid (S.disp.frame.coldOf x.1) := by
  constructor
  · obtain ⟨S, hS, hP⟩ := TransitionSystem.exists_reachable_of_run Sys.step start_smallSys
      leftReadRun (fun S => S.disp.pc == .ack && S.disp.ring.sq != []) (by decide)
    simp only [Bool.and_eq_true, beq_iff_eq, bne_iff_ne] at hP
    exact ⟨S, hS, hP⟩
  · obtain ⟨S, hS, hP⟩ := TransitionSystem.exists_reachable_of_run Sys.step start_smallSys
      reapedReadRun (fun S => S.disp.pc == .reap && S.disp.ring.cq.any fun x =>
        x.1.expert != S.disp.frame.eid (S.disp.frame.coldOf x.1)) (by decide)
    simp only [Bool.and_eq_true, beq_iff_eq, List.any_eq_true, bne_iff_ne] at hP
    exact ⟨S, hS, hP⟩

end CpuTier

end VllmMoet
