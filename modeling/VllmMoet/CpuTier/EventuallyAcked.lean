import VllmMoet.CpuTier.Progress
import VllmMoet.Lib.Liveness

/-!
# Every request is acknowledged

In a fair execution every request `serve` begins is acknowledged with its sequence number
(`eventually_acked`), provided a submission made when all cold records have been asked for
takes every prepared read or fails: the waiting loop submits again only to ask for another
record. Where such a submission takes only a part, the dispatcher waits for ever with nothing
in flight (`stuck_forever`).
-/

namespace VllmMoet

namespace CpuTier

open TransitionSystem

variable {c : Config} {D D' : Dispatcher} {S S' : Sys} {E : Execution Sys.step} {i k m n : ℕ}

/-! ### The condition on the submissions -/

/-- No request is begun while a prepared read waits, and a submission made when all cold
records have been asked for takes every prepared read, or fails. -/
def LastTaken (S : Sys) : Act → Prop
  | .serve _ _ _ => S.disp.ring.sq = []
  | .submit a => S.disp.frame.issued = S.disp.frame.nCold →
      a = .error ∨ a = .accepted S.disp.ring.sq.length
  | _ => True

/-- A request that has asked for all cold records has submitted all reads. -/
def Dispatcher.AllSubmitted (D : Dispatcher) : Prop :=
  D.pc.reading = true → D.pc.submitting = false → D.frame.status = 0 →
    D.frame.issued = D.frame.nCold → D.ring.sq = []

/-- The tier is started, with a ring that has entries. -/
structure LiveStart (S : Sys) : Prop where
  start : Start S
  entries : 0 < S.disp.ring.entries

/-- What the acknowledgement of a request rests on. -/
structure LiveOk (S : Sys) : Prop where
  sys : ∃ c, SysOk c S
  submitted : S.disp.AllSubmitted
  entries : 0 < S.disp.ring.entries

/-- Only the sections that issue reads ask for records. -/
theorem run_issued (hs : D.run = some D') (hsub : D'.pc.submitting = false)
    (hgroup : D.pc ≠ .group) :
    D'.frame.issued = D.frame.issued ∧ D'.frame.nCold = D.frame.nCold := by
  rw [Dispatcher.run] at hs
  cases hpc : D.pc <;> simp only [hpc, reduceCtorEq, Option.some.injEq] at hs
  case group => exact absurd hpc hgroup
  case issue | issueIdle | issueNext =>
    subst hs
    simp [Dispatcher.runIssue, Pc.submitting] at hsub
  case reap =>
    subst hs
    rw [Dispatcher.runReap]
    split
    · exact ⟨rfl, rfl⟩
    · next r res cq hcq =>
      obtain ⟨-, -, -, -, hslot, hcold⟩ := land_frame D.tier D.frame r.ud
      simp only
      split
      · exact ⟨rfl, rfl⟩
      · exact ⟨congrArg List.length hslot, congrArg List.length hcold⟩
  case drain =>
    rw [Dispatcher.runDrain] at hs
    split at hs
    · exact Option.some.inj hs ▸ ⟨rfl, rfl⟩
    · split at hs
      · simp at hs
      · exact Option.some.inj hs ▸ ⟨rfl, rfl⟩
  case unpinBatch | unpinEnd =>
    subst hs
    split <;> exact ⟨rfl, rfl⟩
  all_goals
    subst hs
    exact ⟨rfl, rfl⟩

/-- The reading of a request is entered from its grouping only. -/
theorem Pc.reading_of_next {p q : Pc} (h : q ∈ p.next) (hq : q.reading = true) :
    p = .group ∨ p.reading = true := by
  have hall : p.next.all (fun q => !q.reading || (p == .group || p.reading)) = true := by
    cases p <;> rfl
  simpa [hq] using List.all_eq_true.mp hall q h

theorem Dispatcher.AllSubmitted.run {held : List ℕ} (h : D.AllSubmitted) (hok : DispOk c D held)
    (hs : D.run = some D') : D'.AllSubmitted := by
  intro hr hsub hst hall
  rw [(run_sq hs).2 hsub]
  rcases Pc.reading_of_next (run_pc hs) hr with hpc | hpc
  · exact (hok.early (by rw [hpc]; rfl)).1
  · have hgroup : D.pc ≠ .group := by
      rintro hg
      simp [hg, Pc.reading] at hpc
    have hack : D.pc ≠ .ack := by
      rintro hg
      simp [hg, Pc.reading] at hpc
    obtain ⟨hissued, hcold⟩ := run_issued hs hsub hgroup
    refine h hpc (run_sq hs).1 ?_ (by rw [← hissued, ← hcold, hall])
    by_contra hne
    exact (progresses_run hs hgroup hack).1.failed hne hst

theorem Dispatcher.AllSubmitted.kernel (h : D.AllSubmitted) {rc : ℤ}
    (hs : D.kernel rc = some D') : D'.AllSubmitted := by
  intro hr hsub hst hall
  rw [(kernel_sq hs).2]
  have hst' : D.frame.status = 0 := by
    by_contra hne
    exact (progresses_kernel hs).1.failed hne hst
  obtain ⟨call, next, -, rfl, ⟨-, rfl⟩ | ⟨hpc, rfl⟩ | ⟨hpc, rfl⟩⟩ := kernel_cases hs
  · simp [Pc.reading] at hr
  · exact h (by rw [hpc]; rfl) (by rw [hpc]; rfl) hst' hall
  · exact h (by rw [hpc]; rfl) (by rw [hpc]; rfl) hst' hall

theorem submit_issued {a : Submitted} (hs : D.submit a = some D') :
    D'.frame.issued = D.frame.issued ∧ D'.frame.nCold = D.frame.nCold ∧
      (a = .error → D'.frame.status ≠ 0) := by
  obtain ⟨R, pc, -, rfl, -⟩ := submit_ring hs
  simp only [Dispatcher.answered]
  split
  · exact ⟨rfl, rfl, fun _ => by simp⟩
  · next hne => exact ⟨rfl, rfl, fun ha => absurd ha hne⟩

theorem entries_of_run (hs : D.run = some D') : D'.ring.entries = D.ring.entries := by
  by_cases hgroup : D.pc = .group
  · rw [Dispatcher.run, hgroup] at hs
    exact Option.some.inj hs ▸ rfl
  · by_cases hack : D.pc = .ack
    · rw [Dispatcher.run, hack] at hs
      exact Option.some.inj hs ▸ rfl
    · exact (progresses_run hs hgroup hack).1.entries

/-- **One step** keeps what the acknowledgement rests on. -/
theorem LiveOk.step (h : LiveOk S) {a : Act} (ha : LastTaken S a) (hs : S.step a = some S') :
    LiveOk S' := by
  obtain ⟨c, hc⟩ := h.sys
  have hclean : CleanStart S a := by
    cases a with
    | serve _ _ _ => exact ha
    | run | kernel _ | submit _ | complete _ _ | acquire _ _ | acquireRead _ _ | release _ _ _
    | prefillFetch _ _ _ | prefillRead _ _ | prefillRelease _ _ _ => trivial
  refine ⟨⟨c, hc.step hclean hs⟩, ?_, ?_⟩
  · rcases step_disp_eq hs with ⟨T, hT⟩ | hD
    · rw [hT]
      exact h.submitted
    · cases a with
      | serve l seq req =>
        simp only [Dispatcher.serve] at hD
        split at hD
        · rw [← Option.some.inj hD]
          intro hr
          simp only at hr
          split at hr <;> simp [Pc.reading] at hr
        · simp at hD
      | run => exact h.submitted.run hc.disp hD
      | kernel rc => exact h.submitted.kernel hD
      | submit r =>
        simp only at hD
        intro _ _ hst hall
        obtain ⟨hissued, hcold, herr⟩ := submit_issued hD
        -- all cold records have been asked for: the submission takes all reads, or fails
        rcases ha (by rw [← hissued, ← hcold, hall]) with rfl | rfl
        · exact absurd hst (herr rfl)
        · exact submit_sq hD
      | complete i res =>
        obtain ⟨R, hR, hD⟩ := hD
        obtain ⟨r, -, rfl⟩ := Option.map_eq_some_iff.mp hR
        rw [hD]
        exact h.submitted
      | _ => exact hD.elim
  · rcases step_disp_eq hs with ⟨T, hT⟩ | hD
    · rw [hT]
      exact h.entries
    · cases a with
      | serve l seq req =>
        simp only at hD
        rw [(idle_of_serve hD).2.1]
        exact h.entries
      | run =>
        simp only at hD
        rw [entries_of_run hD]
        exact h.entries
      | kernel rc =>
        simp only at hD
        rw [(progresses_kernel hD).1.entries]
        exact h.entries
      | submit r =>
        simp only at hD
        rw [(progresses_submit hD).1.entries]
        exact h.entries
      | complete i res =>
        obtain ⟨R, hR, hD⟩ := hD
        obtain ⟨r, -, rfl⟩ := Option.map_eq_some_iff.mp hR
        rw [hD]
        exact h.entries
      | _ => exact hD.elim

theorem liveOk_start (h : LiveStart S) : LiveOk S := by
  refine ⟨⟨_, sysOk_start h.start⟩, fun hr => ?_, h.entries⟩
  simp [h.start.pc, Pc.reading] at hr

/-! ### Fair executions -/

/-- The dispatcher waits in the kernel for a completion. -/
def Dispatcher.Blocked (D : Dispatcher) : Prop :=
  (D.pc = .wait ∨ D.pc = .drain) ∧ D.ring.flying ≠ [] ∧ D.ring.cq = []

/-- The waiting loop looks for a spare slot with nothing in flight. -/
def Polls (E : Execution Sys.step) (n : ℕ) : Prop :=
  E.label n = .run ∧ (E.state n).disp.pc = .issueIdle

/-- A submission of at least one read is answered. -/
def Submits (E : Execution Sys.step) (n : ℕ) (a : Submitted) : Prop :=
  E.label n = .submit a ∧ (E.state n).disp.ring.sq ≠ []

/-- A fair execution: the dispatcher goes on unless it waits for a completion; submitted
reads complete; where the waiting loop looks for a spare slot again and again, it finds one
again and again; and not all of infinitely many submissions take nothing. -/
structure FairRing (E : Execution Sys.step) : Prop where
  dispatcher : ∀ n, (E.state n).disp.pc ≠ .idle →
    ∃ m ≥ n, (E.label m).ofServe ∨ (E.state m).disp.Blocked
  reads : ∀ n, (E.state n).disp.ring.flying ≠ [] → ∃ m ≥ n, ∃ i res, E.label m = .complete i res
  slots : (∃ᶠ n in Filter.atTop, Polls E n) →
    ∃ᶠ n in Filter.atTop, Polls E n ∧ (E.state n).tier.tail.freeSlots ≠ []
  submissions : (∃ᶠ n in Filter.atTop, ∃ a, Submits E n a) →
    ∃ᶠ n in Filter.atTop, ∃ a, Submits E n a ∧ a ≠ .accepted 0

/-- The dispatcher acknowledges. -/
def Acks (E : Execution Sys.step) (n : ℕ) : Prop :=
  E.label n = .run ∧ (E.state n).disp.pc = .ack

/-- A request that was begun meets a step of the dispatcher or a completion. -/
theorem exists_next_event (hfair : FairRing E) (hidle : (E.state n).disp.pc ≠ .idle) :
    ∃ m ≥ n, (∃ T, (E.state m).disp = { (E.state n).disp with tier := T }) ∧
      ((E.label m).ofServe ∨ ∃ i res, E.label m = .complete i res) := by
  refine exists_first ⟨_, rfl⟩ ?_ fun m _ hm hnone => ?_
  · obtain ⟨m, hm, hrun | hblocked⟩ := hfair.dispatcher n hidle
    · exact ⟨m, hm, .inl hrun⟩
    · obtain ⟨k, hk, hcomplete⟩ := hfair.reads m hblocked.2.1
      exact ⟨k, le_trans hm hk, .inr hcomplete⟩
  · obtain ⟨T, hT⟩ := hm
    obtain ⟨hown, hcomplete⟩ := not_or.mp hnone
    obtain ⟨T', hT'⟩ := exists_tier_of_call (E.next m) (by rwa [hT]) hown
      fun i res ha => hcomplete ⟨i, res, ha⟩
    exact ⟨T', by rw [hT', hT]⟩

/-- After its grouping a request goes on until it is acknowledged, work is done, or the
dispatcher advances. -/
theorem exists_next_advance (hfair : FairRing E) (hidle : (E.state n).disp.pc ≠ .idle)
    (hgroup : (E.state n).disp.pc ≠ .group) :
    ∃ m ≥ n, (∃ T, (E.state m).disp = { (E.state n).disp with tier := T }) ∧
      (Acks E m ∨ ((E.state n).disp.Continues (E.state (m + 1)).disp ∧
        ((E.state (m + 1)).disp.work < (E.state n).disp.work ∨
          ((E.label m).ofServe ∧ (E.state n).disp.Rests (E.state (m + 1)).disp ∧
            (E.state n).disp.Advances (E.state (m + 1)).disp)))) := by
  obtain ⟨m, hm, ⟨T, hT⟩, hevent⟩ := exists_next_event hfair hidle
  refine ⟨m, hm, ⟨T, hT⟩, ?_⟩
  have hstep := progress (E.next m) (by rwa [hT]) (by rwa [hT])
  rcases hstep with hack | ⟨hcont, hstep⟩
  · exact .inl hack
  · rw [hT] at hcont hstep
    refine .inr ⟨⟨hcont.layer, hcont.seq, hcont.req, hcont.acks, hcont.entries, hcont.failed,
      hcont.begun⟩, ?_⟩
    rcases hstep with hwork | ⟨hown, hrest, hadv⟩ | ⟨⟨hown, hcomplete⟩, -⟩
    · exact .inl hwork
    · exact .inr ⟨hown, ⟨hrest.ring, hrest.slotOfCold, hrest.landed, hrest.coldIdx⟩, hadv⟩
    · rcases hevent with hown' | ⟨i, res, ha⟩
      · exact absurd hown' hown
      · exact absurd ha (hcomplete i res)

/-- The dispatcher comes to the acknowledgement, or to the waiting loop with records missing,
unless work is done before. -/
theorem exists_missing (hfair : FairRing E) (hidle : (E.state n).disp.pc ≠ .idle)
    (hgroup : (E.state n).disp.pc ≠ .group) :
    ∃ m ≥ n, (E.state n).disp.Continues (E.state m).disp ∧
      (Acks E m ∨ (E.state m).disp.work < (E.state n).disp.work ∨
        ((E.state n).disp.Rests (E.state m).disp ∧ E.label m = .run ∧
          (E.state m).disp.Missing)) := by
  refine exists_of_measure (P := fun m => (E.state n).disp.Continues (E.state m).disp ∧
    (E.state n).disp.Rests (E.state m).disp) (fun m => (E.state m).disp.pc.rank) ?_
    ⟨⟨rfl, rfl, rfl, rfl, rfl, id, hidle, hgroup⟩, rfl, rfl, rfl, rfl⟩
  intro m ⟨hcont, hrest⟩
  obtain ⟨k, hk, ⟨T, hT⟩, hnext⟩ := exists_next_advance hfair hcont.begun.1 hcont.begun.2
  have hcont' : (E.state n).disp.Continues (E.state k).disp := by
    rw [hT]
    exact ⟨hcont.layer, hcont.seq, hcont.req, hcont.acks, hcont.entries, hcont.failed, hcont.begun⟩
  have hrest' : (E.state n).disp.Rests (E.state k).disp := by
    rw [hT]
    exact ⟨hrest.ring, hrest.slotOfCold, hrest.landed, hrest.coldIdx⟩
  rcases hnext with hack | ⟨hgo, hwork | ⟨hown, hstay, hrank | ⟨hmiss, -⟩⟩⟩
  · exact ⟨k, hk, .inl ⟨hcont', .inl hack⟩⟩
  · rw [hrest.work] at hwork
    exact ⟨k + 1, by omega, .inl ⟨hcont.trans hgo, .inr (.inl hwork)⟩⟩
  · exact ⟨k + 1, by omega, .inr ⟨⟨hcont.trans hgo, hrest.trans hstay⟩, hrank⟩⟩
  · have hmiss' : (E.state k).disp.Missing := by
      rw [hT]
      exact hmiss
    have hlabel := (run_of_ofServe hown (E.next k) (by rw [Dispatcher.call, hmiss'.1])
      (by rw [hmiss'.1]; rfl)).1
    exact ⟨k, hk, .inl ⟨hcont', .inr (.inr ⟨hrest', hlabel, hmiss'⟩)⟩⟩

/-! ### The waiting loop -/

/-- The request in progress is acknowledged later, or work is done on it. -/
def GoesOn (E : Execution Sys.step) (n : ℕ) : Prop :=
  ∃ m ≥ n, (E.state n).disp.Continues (E.state m).disp ∧
    (Acks E m ∨ (E.state m).disp.work < (E.state n).disp.work)

theorem GoesOn.of_continues (h : GoesOn E m) (hm : n ≤ m)
    (hcont : (E.state n).disp.Continues (E.state m).disp)
    (hwork : (E.state m).disp.work ≤ (E.state n).disp.work) : GoesOn E n := by
  obtain ⟨k, hk, hgo, hack | hlt⟩ := h
  · exact ⟨k, le_trans hm hk, hcont.trans hgo, .inl hack⟩
  · exact ⟨k, le_trans hm hk, hcont.trans hgo, .inr (lt_of_lt_of_le hlt hwork)⟩

/-- As long as a request does not go on, its reads rest. -/
theorem rests_of_not_goesOn (hno : ¬ GoesOn E n) (hidle : (E.state n).disp.pc ≠ .idle)
    (hgroup : (E.state n).disp.pc ≠ .group) (hm : n ≤ m) :
    (E.state n).disp.Continues (E.state m).disp ∧ (E.state n).disp.Rests (E.state m).disp := by
  induction m, hm using Nat.le_induction with
  | base => exact ⟨⟨rfl, rfl, rfl, rfl, rfl, id, hidle, hgroup⟩, rfl, rfl, rfl, rfl⟩
  | succ m hm ih =>
    obtain ⟨hcont, hrest⟩ := ih
    rcases progress (E.next m) hcont.begun.1 hcont.begun.2 with hack | ⟨hgo, hwork | ⟨-, hstay, -⟩ |
      ⟨-, T, hT⟩⟩
    · exact absurd ⟨m, hm, hcont, .inl hack⟩ hno
    · rw [hrest.work] at hwork
      exact absurd ⟨m + 1, by omega, hcont.trans hgo, .inr hwork⟩ hno
    · exact ⟨hcont.trans hgo, hrest.trans hstay⟩
    · refine ⟨hcont.trans hgo, hrest.trans ?_⟩
      rw [hT]
      exact ⟨rfl, rfl, rfl, rfl⟩

/-- With reads in flight, one completes. -/
theorem goesOn_of_flying (hfair : FairRing E) (hidle : (E.state n).disp.pc ≠ .idle)
    (hgroup : (E.state n).disp.pc ≠ .group) (hfl : (E.state n).disp.ring.flying ≠ []) :
    GoesOn E n := by
  by_contra hno
  obtain ⟨m, hm, i, res, ha⟩ := hfair.reads n hfl
  obtain ⟨-, hrest⟩ := rests_of_not_goesOn hno hidle hgroup (m := m + 1) (by omega)
  obtain ⟨-, hrest'⟩ := rests_of_not_goesOn hno hidle hgroup hm
  have hs := E.next m
  rw [ha] at hs
  obtain ⟨R, hR, hS⟩ := Option.map_eq_some_iff.mp hs
  have hwork : (E.state (m + 1)).disp.work < (E.state m).disp.work := by
    rw [← hS]
    exact work_complete hR
  rw [hrest.work, hrest'.work] at hwork
  exact lt_irrefl _ hwork

/-- As long as a request does not go on, the dispatcher comes to its next section. -/
theorem exists_next_run (hfair : FairRing E) (hno : ¬ GoesOn E n)
    (hidle : (E.state n).disp.pc ≠ .idle) (hgroup : (E.state n).disp.pc ≠ .group) (hm : n ≤ m)
    (hcall : (E.state m).disp.call = none) (hsub : (E.state m).disp.pc.submitting = false) :
    ∃ k ≥ m, E.label k = .run ∧ (∃ T, (E.state k).disp = { (E.state m).disp with tier := T }) ∧
      (E.state k).disp.run = some (E.state (k + 1)).disp := by
  obtain ⟨hcont, hrest⟩ := rests_of_not_goesOn hno hidle hgroup hm
  obtain ⟨k, hk, ⟨T, hT⟩, hnext⟩ := exists_next_advance hfair hcont.begun.1 hcont.begun.2
  have hown : (E.label k).ofServe := by
    rcases hnext with hk' | ⟨hgo, hwork | ⟨hown, -⟩⟩
    · exact hk'.1 ▸ trivial
    · rw [hrest.work] at hwork
      exact absurd ⟨k + 1, by omega, hcont.trans hgo, .inr hwork⟩ hno
    · exact hown
  obtain ⟨hlabel, hrun⟩ := run_of_ofServe hown (E.next k) (by rw [hT]; exact hcall)
    (by rw [hT]; exact hsub)
  exact ⟨k, hk, hlabel, ⟨T, hT⟩, hrun⟩

theorem runReap_ring (hcq : D.ring.cq ≠ []) : D.runReap.ring ≠ D.ring := by
  intro hring
  rw [Dispatcher.runReap] at hring
  split at hring
  · next hnil => exact hcq hnil
  · next r res cq hcons =>
    have hlen := congrArg (fun R => R.cq.length) hring
    simp only at hlen
    split at hlen <;> simp [hcons] at hlen

/-- With a completion to reap, the waiting loop reaps it. -/
theorem goesOn_of_cq (hfair : FairRing E) (hlabel : E.label n = .run)
    (hmiss : (E.state n).disp.Missing) (hcq : (E.state n).disp.ring.cq ≠ []) : GoesOn E n := by
  by_contra hno
  have hpc := hmiss.1
  have hidle : (E.state n).disp.pc ≠ .idle := by rw [hpc]; decide
  have hgroup : (E.state n).disp.pc ≠ .group := by rw [hpc]; decide
  have hrests : ∀ m ≥ n, (E.state n).disp.Rests (E.state m).disp := fun m hm =>
    (rests_of_not_goesOn hno hidle hgroup hm).2
  have hfly : (E.state n).disp.ring.inFlight ≠ 0 := by
    simp only [Ring.inFlight, ne_eq, Nat.add_eq_zero_iff, List.length_eq_zero_iff, not_and]
    exact fun _ => hcq
  -- the top of the loop, the wait, and the first completion
  have hwait : (E.state (n + 1)).disp.pc = .wait := by
    have hs := E.next n
    rw [hlabel] at hs
    obtain ⟨D, hD, hS⟩ := Option.map_eq_some_iff.mp hs
    rw [Dispatcher.run, hpc] at hD
    rw [← hS, ← Option.some.inj hD]
    simp [Dispatcher.runLoop, hmiss.2, hfly]
  obtain ⟨k, hk, -, ⟨T, hT⟩, hrun⟩ := exists_next_run hfair hno hidle hgroup
    (m := n + 1) (by omega) (by rw [Dispatcher.call, hwait]) (by rw [hwait]; rfl)
  have hreap : (E.state (k + 1)).disp.pc = .reap := by
    have hpc' : (E.state k).disp.pc = .wait := by
      rw [hT]
      exact hwait
    rw [Dispatcher.run, hpc'] at hrun
    rw [← Option.some.inj hrun]
    simp only [(hrests k (by omega)).ring, if_neg hfly]
  obtain ⟨j, hj, -, ⟨T', hT'⟩, hrun'⟩ := exists_next_run hfair hno hidle hgroup
    (m := k + 1) (by omega) (by rw [Dispatcher.call, hreap]) (by rw [hreap]; rfl)
  have hpc' : (E.state j).disp.pc = .reap := by
    rw [hT']
    exact hreap
  rw [Dispatcher.run, hpc'] at hrun'
  refine runReap_ring (D := (E.state j).disp) ?_ ?_
  · rw [(hrests j (by omega)).ring]
    exact hcq
  · rw [Option.some.inj hrun', (hrests (j + 1) (by omega)).ring, (hrests j (by omega)).ring]

/-- With a spare slot and a free entry, a read is prepared. -/
theorem runIssue_slots (hfree : D.tier.tail.freeSlots ≠ []) (hspace : D.ring.space ≠ 0)
    (hcold : D.frame.issued < D.frame.nCold) (next : Pc) :
    (D.runIssue next).frame.slotOfCold ≠ D.frame.slotOfCold := by
  obtain ⟨fuel, hfuel⟩ : ∃ fuel, D.frame.nCold - D.frame.issued = fuel + 1 :=
    ⟨_, (Nat.succ_pred_eq_of_pos (by omega)).symm⟩
  obtain ⟨s, fs, hs⟩ := List.exists_cons_of_ne_nil hfree
  simp only [Dispatcher.runIssue, issueSome, hfuel, issueLoop, hs, if_neg hspace]
  obtain ⟨ss, -, -, hF⟩ := exists_issued fuel (D.tier.setFree fs) (D.ring.prepRead
    ⟨D.frame.layer, D.frame.eid (D.frame.coldIdx.getD D.frame.issued 0), s, D.frame.issued⟩)
    { D.frame with slotOfCold := D.frame.slotOfCold ++ [s] }
  rw [hF]
  simp

/-- As long as a request does not go on, the waiting loop finds records missing again and
again. -/
theorem exists_later_missing (hfair : FairRing E) (hno : ¬ GoesOn E n)
    (hidle : (E.state n).disp.pc ≠ .idle) (hgroup : (E.state n).disp.pc ≠ .group) (hm : n ≤ m) :
    ∃ k ≥ m, (E.state m).disp.Continues (E.state k).disp ∧ E.label k = .run ∧
      (E.state k).disp.Missing := by
  obtain ⟨hcont, hrest⟩ := rests_of_not_goesOn hno hidle hgroup hm
  obtain ⟨k, hk, hgo, hack | hwork | ⟨-, hlabel, hmiss⟩⟩ :=
    exists_missing hfair hcont.begun.1 hcont.begun.2
  · exact absurd ⟨k, le_trans hm hk, hcont.trans hgo, .inl hack⟩ hno
  · rw [hrest.work] at hwork
    exact absurd ⟨k, le_trans hm hk, hcont.trans hgo, .inr hwork⟩ hno
  · exact ⟨k, hk, hgo, hlabel, hmiss⟩

/-- Such a request, with nothing in flight and records not asked for, looks for a spare slot
again and again. -/
theorem exists_later_poll (hfair : FairRing E) (hno : ¬ GoesOn E n)
    (hmiss : (E.state n).disp.Missing) (hfly : (E.state n).disp.ring.inFlight = 0)
    (hcold : (E.state n).disp.frame.issued < (E.state n).disp.frame.nCold) (hm : n ≤ m) :
    ∃ k ≥ m, Polls E k ∧ (E.state k).disp.run = some (E.state (k + 1)).disp := by
  have hidle : (E.state n).disp.pc ≠ .idle := by rw [hmiss.1]; decide
  have hgroup : (E.state n).disp.pc ≠ .group := by rw [hmiss.1]; decide
  obtain ⟨k, hk, -, hlabel, hmiss'⟩ := exists_later_missing hfair hno hidle hgroup hm
  obtain ⟨-, hrest⟩ := rests_of_not_goesOn hno hidle hgroup (le_trans hm hk)
  have hpoll : (E.state (k + 1)).disp.pc = .issueIdle := by
    have hs := E.next k
    rw [hlabel] at hs
    obtain ⟨D, hD, hS⟩ := Option.map_eq_some_iff.mp hs
    rw [Dispatcher.run, hmiss'.1] at hD
    rw [← hS, ← Option.some.inj hD]
    simp only [Dispatcher.runLoop, if_pos hmiss'.2]
    refine if_pos ⟨?_, ?_⟩
    · rw [hrest.ring]
      exact hfly
    · simpa only [Frame.issued, Frame.nCold, hrest.slotOfCold, hrest.coldIdx] using hcold
  obtain ⟨j, hj, hlabel', ⟨T, hT⟩, hrun⟩ := exists_next_run hfair hno hidle hgroup
    (m := k + 1) (by omega) (by rw [Dispatcher.call, hpoll]) (by rw [hpoll]; rfl)
  refine ⟨j, by omega, ⟨hlabel', ?_⟩, hrun⟩
  rw [hT]
  exact hpoll

/-- And it submits again and again. -/
theorem exists_later_submit (hfair : FairRing E) (hno : ¬ GoesOn E n)
    (hmiss : (E.state n).disp.Missing) (hfly : (E.state n).disp.ring.inFlight = 0)
    (hcold : (E.state n).disp.frame.issued < (E.state n).disp.frame.nCold) (hm : n ≤ m) :
    ∃ k ≥ m, ∃ a, E.label k = .submit a := by
  have hidle : (E.state n).disp.pc ≠ .idle := by rw [hmiss.1]; decide
  have hgroup : (E.state n).disp.pc ≠ .group := by rw [hmiss.1]; decide
  obtain ⟨k, hk, hpoll, hrun⟩ := exists_later_poll hfair hno hmiss hfly hcold hm
  have hpc : (E.state (k + 1)).disp.pc = .submitIdle := by
    rw [Dispatcher.run, hpoll.2] at hrun
    rw [← Option.some.inj hrun]
    rfl
  obtain ⟨j, hj, ⟨T, hT⟩, hevent⟩ := exists_next_event hfair (n := k + 1) (by rw [hpc]; decide)
  have hpc' : (E.state j).disp.pc = .submitIdle := by
    rw [hT]
    exact hpc
  refine ⟨j, by omega, ?_⟩
  have hs := E.next j
  rcases hevent with hown | ⟨i, res, ha⟩
  · cases ha : E.label j with
    | submit a => exact ⟨a, rfl⟩
    | run =>
      rw [ha] at hs
      simp [Sys.step, Dispatcher.run, hpc'] at hs
    | kernel rc =>
      rw [ha] at hs
      simp [Sys.step, Dispatcher.kernel, hpc'] at hs
    | _ =>
      rw [ha] at hown
      exact hown.elim
  · -- nothing is in flight
    rw [ha] at hs
    obtain ⟨R, hR, -⟩ := Option.map_eq_some_iff.mp hs
    obtain ⟨-, hrest⟩ := rests_of_not_goesOn hno hidle hgroup (m := j) (by omega)
    have hnil : (E.state n).disp.ring.flying = [] :=
      List.length_eq_zero_iff.mp (by rw [Ring.inFlight] at hfly; omega)
    simp [Ring.complete, hrest.ring, hnil] at hR

/-- With nothing in flight and records not asked for, a read is prepared and submitted in the
end. -/
theorem goesOn_of_polls (hfair : FairRing E) (hentries : 0 < (E.state n).disp.ring.entries)
    (hmiss : (E.state n).disp.Missing) (hfly : (E.state n).disp.ring.inFlight = 0)
    (hcold : (E.state n).disp.frame.issued < (E.state n).disp.frame.nCold) : GoesOn E n := by
  by_contra hno
  have hidle : (E.state n).disp.pc ≠ .idle := by rw [hmiss.1]; decide
  have hgroup : (E.state n).disp.pc ≠ .group := by rw [hmiss.1]; decide
  have hrests : ∀ m ≥ n, (E.state n).disp.Rests (E.state m).disp := fun m hm =>
    (rests_of_not_goesOn hno hidle hgroup hm).2
  -- a spare slot is found, but no read is prepared: the queue is full
  have hsq : (E.state n).disp.ring.sq ≠ [] := by
    have hpolls : ∃ᶠ m in Filter.atTop, Polls E m := by
      refine Filter.frequently_atTop.mpr fun a => ?_
      obtain ⟨k, hk, hpoll, -⟩ := exists_later_poll hfair hno hmiss hfly hcold (le_max_left n a)
      exact ⟨k, le_trans (le_max_right n a) hk, hpoll⟩
    obtain ⟨k, hk, ⟨hlabel, hpc⟩, hfree⟩ := Filter.frequently_atTop.mp (hfair.slots hpolls) n
    have hs := E.next k
    rw [hlabel] at hs
    obtain ⟨D, hD, hS⟩ := Option.map_eq_some_iff.mp hs
    rw [Dispatcher.run, hpc] at hD
    have hspace : (E.state k).disp.ring.space = 0 := by
      by_contra hspace
      refine runIssue_slots hfree hspace ?_ .submitIdle ?_
      · simpa only [Frame.issued, Frame.nCold, (hrests k hk).slotOfCold, (hrests k hk).coldIdx]
          using hcold
      · rw [Option.some.inj hD, (hrests k hk).slotOfCold, ← (hrests (k + 1) (by omega)).slotOfCold,
          ← hS]
    rintro hnil
    rw [(hrests k hk).ring, Ring.space, hnil, hfly] at hspace
    simp only [List.length_nil] at hspace
    omega
  -- the queue is submitted, and the answer is neither 0 nor an error
  have hsubmits : ∃ᶠ m in Filter.atTop, ∃ a, Submits E m a := by
    refine Filter.frequently_atTop.mpr fun a => ?_
    obtain ⟨k, hk, r, hr⟩ := exists_later_submit hfair hno hmiss hfly hcold (le_max_left n a)
    refine ⟨k, le_trans (le_max_right n a) hk, r, hr, ?_⟩
    rw [(hrests k (le_trans (le_max_left n a) hk)).ring]
    exact hsq
  obtain ⟨k, hk, a, ⟨hlabel, -⟩, ha⟩ := Filter.frequently_atTop.mp (hfair.submissions hsubmits) n
  have hs := E.next k
  rw [hlabel] at hs
  obtain ⟨D, hD, hS⟩ := Option.map_eq_some_iff.mp hs
  have hD' : (E.state (k + 1)).disp = D := by rw [← hS]
  cases a with
  | error =>
    obtain ⟨j, hj, hgo, -, hmiss'⟩ := exists_later_missing hfair hno hidle hgroup
      (m := k + 1) (by omega)
    refine hgo.failed ?_ hmiss'.2.1
    rw [hD']
    exact (submit_issued hD).2.2 rfl
  | accepted i =>
    obtain ⟨R, pc, hR, rfl, -⟩ := submit_ring hD
    have hring := (hrests (k + 1) (by omega)).ring
    rw [hD', ← (hrests k hk).ring] at hring
    simp only [Ring.submit] at hR
    split at hR
    · next hi =>
      have hlen := congrArg (fun R => R.sq.length) ((Option.some.inj hR).trans hring)
      simp only [List.length_drop] at hlen
      have : i ≠ 0 := fun hzero => ha (by rw [hzero])
      omega
    · simp at hR

/-- A request that finds records missing goes on. -/
theorem goesOn_of_missing (hfair : FairRing E) (hok : LiveOk (E.state n))
    (hlabel : E.label n = .run) (hmiss : (E.state n).disp.Missing) : GoesOn E n := by
  obtain ⟨hpc, hst, hland⟩ := hmiss
  by_cases hfl : (E.state n).disp.ring.flying = []
  · by_cases hcq : (E.state n).disp.ring.cq = []
    · refine goesOn_of_polls hfair hok.entries ⟨hpc, hst, hland⟩ (by simp [Ring.inFlight, hfl, hcq]) ?_
      -- else all reads were submitted, and all have landed
      obtain ⟨c, hc⟩ := hok.sys
      obtain ⟨hbal, hle⟩ := hc.disp.balance (by rw [hpc]; rfl) hst
      refine lt_of_le_of_ne hle fun hall => ?_
      have hsq := hok.submitted (by rw [hpc]; rfl) (by rw [hpc]; rfl) hst hall
      simp only [Ring.reads, hsq, hfl, hcq, List.append_nil, List.map_nil, List.length_nil] at hbal
      omega
    · exact goesOn_of_cq hfair hlabel ⟨hpc, hst, hland⟩ hcq
  · exact goesOn_of_flying hfair (by rw [hpc]; decide) (by rw [hpc]; decide) hfl

/-! ### The acknowledgement -/

/-- A request whose grouping is done is acknowledged. -/
theorem exists_ack (hfair : FairRing E) (hok : ∀ m, LiveOk (E.state m))
    (hidle : (E.state n).disp.pc ≠ .idle) (hgroup : (E.state n).disp.pc ≠ .group) :
    ∃ m ≥ n, (E.state n).disp.Continues (E.state m).disp ∧ Acks E m := by
  refine exists_of_measure (P := fun m => (E.state n).disp.Continues (E.state m).disp)
    (fun m => (E.state m).disp.work) (fun m hcont => ?_)
    ⟨rfl, rfl, rfl, rfl, rfl, id, hidle, hgroup⟩
  have hgo : GoesOn E m := by
    obtain ⟨k, hk, hgo, hack | hwork | ⟨hrest, hlabel, hmiss⟩⟩ :=
      exists_missing hfair hcont.begun.1 hcont.begun.2
    · exact ⟨k, hk, hgo, .inl hack⟩
    · exact ⟨k, hk, hgo, .inr hwork⟩
    · exact (goesOn_of_missing hfair (hok k) hlabel hmiss).of_continues hk hgo hrest.work.le
  obtain ⟨k, hk, hgo, hack | hwork⟩ := hgo
  · exact ⟨k, hk, .inl ⟨hcont.trans hgo, hack⟩⟩
  · exact ⟨k, hk, .inr ⟨hcont.trans hgo, hwork⟩⟩

theorem groupPairs_seq (is : List ℕ) (k : ℕ) (T : Tier) (F : Frame) :
    (groupPairs is k T F).2.seq = F.seq := by
  induction is generalizing k T F with
  | nil => rfl
  | cons i is ih =>
    have hexpert : ∀ e T F, (groupExpert T F e k).2.seq = F.seq := by
      intro e T F
      simp only [groupExpert]
      repeat' split
      all_goals rfl
    rw [groupPairs]
    set TF := if F.lastE = some (F.req.pairs i).expert then (T, F)
      else groupExpert T { F with lastE := some (F.req.pairs i).expert } (F.req.pairs i).expert k
      with hTF
    have hseq : TF.2.seq = F.seq := by
      rw [hTF]
      split
      · rfl
      · exact hexpert _ _ _
    split
    · exact hseq
    · exact (ih (k + 1) TF.1 (TF.2.addPair k i)).trans hseq

/-- A request that is begun is grouped, or acknowledged at once. -/
theorem exists_grouped (hfair : FairRing E) (hok : ∀ m, LiveOk (E.state m))
    (hpc : (E.state n).disp.pc = .group) :
    ∃ m ≥ n, (E.state m).disp.frame.layer = (E.state n).disp.frame.layer ∧
      (E.state m).disp.frame.seq = (E.state n).disp.frame.seq ∧
      (E.state m).disp.frame.req = (E.state n).disp.frame.req ∧
      (E.state m).disp.acks = (E.state n).disp.acks ∧
      (E.state m).disp.pc ≠ .idle ∧ (E.state m).disp.pc ≠ .group := by
  obtain ⟨k, hk, ⟨T, hT⟩, hevent⟩ := exists_next_event hfair (n := n) (by rw [hpc]; decide)
  have hpc' : (E.state k).disp.pc = .group := by
    rw [hT]
    exact hpc
  rcases hevent with hown | ⟨i, res, ha⟩
  · obtain ⟨-, hrun⟩ := run_of_ofServe hown (E.next k) (by rw [Dispatcher.call, hpc'])
      (by rw [hpc']; rfl)
    rw [Dispatcher.run, hpc'] at hrun
    obtain ⟨-, -, hreq, hlay⟩ := groupPairs_frame (E.state k).disp.frame.order 0
      (E.state k).disp.tier (E.state k).disp.frame
    have hseq := groupPairs_seq (E.state k).disp.frame.order 0
      (E.state k).disp.tier (E.state k).disp.frame
    have hnext : (E.state k).disp.runGroup.pc ≠ .idle ∧ (E.state k).disp.runGroup.pc ≠ .group := by
      simp only [Dispatcher.runGroup]
      repeat' split
      all_goals simp
    refine ⟨k + 1, by omega, ?_⟩
    rw [← Option.some.inj hrun]
    refine ⟨hlay.trans ?_, hseq.trans ?_, hreq.trans ?_, ?_, hnext⟩ <;>
      simp [Dispatcher.runGroup, hT]
  · -- no read is in flight before the grouping
    obtain ⟨c, hc⟩ := (hok k).sys
    have hs := E.next k
    rw [ha] at hs
    obtain ⟨R, hR, -⟩ := Option.map_eq_some_iff.mp hs
    simp [Ring.complete, (hc.disp.quiet (by rw [hpc']; rfl)).1] at hR

/-- **Every request is acknowledged.** In every fair execution of a started tier in which no
request is begun while a prepared read waits, and every submission made when all cold records
have been asked for takes every prepared read or fails: a request that `serve` begins is the
next to be acknowledged, with its layer and sequence number; and the waiting loop never has
records missing with nothing in flight and none left to ask for. -/
theorem eventually_acked (h0 : LiveStart (E.state 0))
    (hC : ∀ n, LastTaken (E.state n) (E.label n)) (hfair : FairRing E) :
    (∀ n l seq req, E.label n = .serve l seq req → ∃ m > n, ∃ status nExperts,
      (E.state m).disp.acks =
        (E.state n).disp.acks ++ [⟨l, seq, status, req.nPairs, nExperts⟩]) ∧
    ∀ n, (E.state n).disp.Missing → (E.state n).disp.ring.inFlight = 0 →
      (E.state n).disp.frame.issued ≠ (E.state n).disp.frame.nCold := by
  have hok : ∀ m, LiveOk (E.state m) := fun m => by
    have hinv : ((ofStep LiveStart Sys.step).onlySteps LastTaken).Invariant LiveOk :=
      ⟨fun _ hS => liveOk_start hS, fun _ _ _ _ hok ⟨ha, hs⟩ => hok.step ha hs⟩
    exact hinv.holds (E.reachable h0 hC m)
  refine ⟨fun n l seq req hn => ?_, fun n hmiss hfly hall => ?_⟩
  · -- the request is begun, grouped and acknowledged
    have hs := E.next n
    rw [hn] at hs
    obtain ⟨D, hD, hS⟩ := Option.map_eq_some_iff.mp hs
    have hbegun : D.frame.layer = l ∧ D.frame.seq = seq ∧ D.frame.req = req ∧
        D.acks = (E.state n).disp.acks ∧ (D.pc = .group ∨ D.pc = .ack) := by
      rw [Dispatcher.serve] at hD
      split at hD
      · rw [← Option.some.inj hD]
        refine ⟨rfl, rfl, rfl, rfl, ?_⟩
        simp only
        split
        · exact .inl rfl
        · exact .inr rfl
      · simp at hD
    have hD' : (E.state (n + 1)).disp = D := by rw [← hS]
    rw [← hD'] at hbegun
    obtain ⟨hlay, hseq, hreq, hacks, hpc⟩ := hbegun
    obtain ⟨m, hm, hlay', hseq', hreq', hacks', hidle, hgroup⟩ : ∃ m ≥ n + 1,
        (E.state m).disp.frame.layer = l ∧ (E.state m).disp.frame.seq = seq ∧
        (E.state m).disp.frame.req = req ∧ (E.state m).disp.acks = (E.state n).disp.acks ∧
        (E.state m).disp.pc ≠ .idle ∧ (E.state m).disp.pc ≠ .group := by
      rcases hpc with hpc | hpc
      · obtain ⟨m, hm, hlay', hseq', hreq', hacks', hbegun⟩ := exists_grouped hfair hok hpc
        exact ⟨m, hm, hlay'.trans hlay, hseq'.trans hseq, hreq'.trans hreq, hacks'.trans hacks,
          hbegun⟩
      · exact ⟨n + 1, le_rfl, hlay, hseq, hreq, hacks, by rw [hpc]; decide, by rw [hpc]; decide⟩
    obtain ⟨k, hk, hcont, hlabel, hack⟩ := exists_ack hfair hok hidle hgroup
    have hs := E.next k
    rw [hlabel] at hs
    obtain ⟨D, hD, hS⟩ := Option.map_eq_some_iff.mp hs
    rw [Dispatcher.run, hack] at hD
    refine ⟨k + 1, by omega, (E.state k).disp.frame.status, (E.state k).disp.frame.nExperts, ?_⟩
    rw [← hS, ← Option.some.inj hD]
    simp only [Dispatcher.runAck, hcont.acks, hcont.layer, hcont.seq, hcont.req, hlay', hseq',
      hreq', hacks']
  · obtain ⟨hpc, hst, hland⟩ := hmiss
    obtain ⟨c, hc⟩ := (hok n).sys
    -- what is missing has been asked for, and is neither prepared nor in flight
    obtain ⟨hbal, -⟩ := hc.disp.balance (by rw [hpc]; rfl) hst
    have hsq := (hok n).submitted (by rw [hpc]; rfl) (by rw [hpc]; rfl) hst hall
    simp only [Ring.reads, hsq, List.nil_append, List.length_append, List.length_map] at hbal
    rw [Ring.inFlight] at hfly
    omega

/-! ### Executions of a small tier -/

/-- A request of `smallSys` with one cold and one resident expert, up to its
acknowledgement. -/
def servedRun : List Act :=
  [.serve 0 1 ⟨2, 1, fun i => ⟨0, 1 - i, 5⟩, 0, fun _ => 0⟩, .run, .run, .submit (.accepted 1),
    .kernel 0, .run, .run, .complete 0 4700160, .run, .run, .run, .kernel 0, .run, .run, .run, .run]

instance (S : Sys) (a : Act) : Decidable (LastTaken S a) :=
  match a with
  | .serve _ _ _ => inferInstanceAs (Decidable (_ = _))
  | .submit _ => inferInstanceAs (Decidable (_ → _))
  | .run | .kernel _ | .complete _ _ | .acquire _ _ | .acquireRead _ _ | .release _ _ _
  | .prefillFetch _ _ _ | .prefillRead _ _ | .prefillRelease _ _ _ => isTrue trivial

/-- A call that finds nothing to do. -/
def noCall : Act := .acquire (-1) 0

/-- The state after `n` steps of `servedRun` meets the condition on the next step, and has no
read in flight after the completion and no request in progress at the end. -/
def servedCheck (n : ℕ) : Bool :=
  (replay Sys.step smallSys (servedRun.take n)).any fun S =>
    decide (LastTaken S (servedRun.getD n noCall)) && (S.disp.ring.flying == [] || decide (n ≤ 7)) &&
      (S.disp.pc == .idle || decide (n ≤ 15))

/-- `servedRun`, and then calls that do nothing: a fair execution. -/
theorem exists_served_execution : ∃ E : Execution Sys.step, LiveStart (E.state 0) ∧
    (∀ n, LastTaken (E.state n) (E.label n)) ∧ FairRing E ∧ (E.state 0).disp.acks = [] ∧
      E.label 0 = .serve 0 1 ⟨2, 1, fun i => ⟨0, 1 - i, 5⟩, 0, fun _ => 0⟩ := by
  have hcheck : ∀ n ≤ 16, servedCheck n = true := by decide
  obtain ⟨t, ht, -⟩ := (Option.any_eq_true _ _).mp (hcheck 16 le_rfl)
  have hrun : replay Sys.step smallSys servedRun = some t := ht
  obtain ⟨E, hstate, hlabel⟩ := exists_execution_of_replay hrun (b := noCall) rfl
  have hlate : ∀ n, 16 ≤ n → E.state n = E.state 16 ∧ E.label n = noCall := fun n hn => by
    have hlen : servedRun.length ≤ n := hn
    constructor
    · have h := hstate n
      rw [List.take_of_length_le hlen] at h
      exact Option.some.inj (h.symm.trans (hstate 16))
    · rw [hlabel, List.getD_eq_getElem?_getD, List.getElem?_eq_none hlen, Option.getD_none]
  have hearly : ∀ n ≤ 16, LastTaken (E.state n) (E.label n) ∧
      ((E.state n).disp.ring.flying = [] ∨ n ≤ 7) ∧ ((E.state n).disp.pc = .idle ∨ n ≤ 15) := by
    intro n hn
    have h := hcheck n hn
    rw [servedCheck, hstate n, ← hlabel n] at h
    simpa [and_assoc] using h
  have hdone : (E.state 16).disp.ring.flying = [] ∧ (E.state 16).disp.pc = .idle := by
    obtain ⟨-, hfl, hpc⟩ := hearly 16 le_rfl
    exact ⟨hfl.resolve_right (by decide), hpc.resolve_right (by decide)⟩
  have hstart : E.state 0 = smallSys := (Option.some.inj (hstate 0)).symm
  refine ⟨E, ⟨hstart ▸ start_smallSys, ?_⟩, fun n => ?_, ⟨fun n hn => ?_, fun n hn => ?_, fun h => ?_,
    fun h => ?_⟩, hstart ▸ rfl, hlabel 0⟩
  · rw [hstart]
    decide
  · rcases le_or_gt n 16 with hle | hgt
    · exact (hearly n hle).1
    · rw [(hlate n hgt.le).2]
      trivial
  · rcases le_or_gt n 16 with hle | hgt
    · have hle := (hearly n hle).2.2.resolve_left hn
      exact ⟨15, hle, .inl (by rw [hlabel]; trivial)⟩
    · rw [(hlate n hgt.le).1] at hn
      exact absurd hdone.2 hn
  · rcases le_or_gt n 16 with hle | hgt
    · have hle := (hearly n hle).2.1.resolve_left hn
      exact ⟨7, hle, 0, 4700160, hlabel 7⟩
    · rw [(hlate n hgt.le).1] at hn
      exact absurd hdone.1 hn
  · obtain ⟨k, hk, hpoll, -⟩ := Filter.frequently_atTop.mp h 16
    rw [(hlate k hk).2] at hpoll
    simp [noCall] at hpoll
  · obtain ⟨k, hk, a, hsub, -⟩ := Filter.frequently_atTop.mp h 16
    rw [(hlate k hk).2] at hsub
    simp [noCall] at hsub

theorem eventually_acked_small : ∃ E : Execution Sys.step, LiveStart (E.state 0) ∧ FairRing E ∧
    ∃ m > 0, ∃ status nExperts, (E.state m).disp.acks = [⟨0, 1, status, 2, nExperts⟩] := by
  obtain ⟨E, h0, hC, hfair, hacks, hlabel⟩ := exists_served_execution
  obtain ⟨m, hm, status, nExperts, hack⟩ := (eventually_acked h0 hC hfair).1 0 _ _ _ hlabel
  rw [hacks] at hack
  exact ⟨E, h0, hfair, m, hm, status, nExperts, hack⟩

/-! ### A submission that takes a part -/

/-- All cold records are asked for and nothing is in flight, but records are missing. -/
structure Dispatcher.Stuck (D : Dispatcher) : Prop where
  pc : D.pc = .loop ∨ D.pc = .wait
  status : D.frame.status = 0
  missing : D.frame.landed < D.frame.nCold
  issued : D.frame.issued = D.frame.nCold
  flying : D.ring.flying = []
  cq : D.ring.cq = []

/-- A stuck dispatcher goes from the top of its loop to the wait and back. -/
theorem Dispatcher.Stuck.run (h : D.Stuck) (hs : D.run = some D') :
    D'.Stuck ∧ D'.acks = D.acks := by
  have hfly : D.ring.inFlight = 0 := by simp [Ring.inFlight, h.flying, h.cq]
  rw [Dispatcher.run] at hs
  rcases h.pc with hpc | hpc
  · simp only [hpc, Option.some.injEq] at hs
    subst hs
    refine ⟨⟨.inr ?_, h.status, h.missing, h.issued, h.flying, h.cq⟩, rfl⟩
    have hissued := h.issued
    simp [Dispatcher.runLoop, h.status, h.missing, hissued]
  · simp only [hpc, Option.some.injEq] at hs
    subst hs
    exact ⟨⟨.inl (if_pos hfly), h.status, h.missing, h.issued, h.flying, h.cq⟩, rfl⟩

theorem Dispatcher.Stuck.step (h : S.disp.Stuck) {a : Act} (hs : S.step a = some S') :
    S'.disp.Stuck ∧ S'.disp.acks = S.disp.acks := by
  have hidle : S.disp.pc ≠ .idle := by
    rcases h.pc with hpc | hpc <;> rw [hpc] <;> decide
  by_cases hown : a.ofServe
  · obtain ⟨-, hrun⟩ := run_of_ofServe hown hs
      (by rw [Dispatcher.call]; rcases h.pc with hpc | hpc <;> rw [hpc])
      (by rcases h.pc with hpc | hpc <;> rw [hpc] <;> rfl)
    exact h.run hrun
  · obtain ⟨T, hT⟩ := exists_tier_of_call hs hidle hown fun i res ha => by
      rw [ha] at hs
      obtain ⟨R, hR, -⟩ := Option.map_eq_some_iff.mp hs
      simp [Ring.complete, h.flying] at hR
    rw [hT]
    exact ⟨⟨h.pc, h.status, h.missing, h.issued, h.flying, h.cq⟩, rfl⟩

/-- **A stuck request is never acknowledged**, whatever the other parties do. -/
theorem stuck_forever (h : S.disp.Stuck) (hr : (ofStep (fun U => U = S) Sys.step).Reachable S') :
    S'.disp.Stuck ∧ S'.disp.acks = S.disp.acks := by
  induction hr with
  | @start U h0 =>
    obtain rfl : U = S := h0
    exact ⟨h, rfl⟩
  | step _ hstep ih =>
    obtain ⟨hstuck, hacks⟩ := ih.1.step hstep
    exact ⟨hstuck, hacks.trans ih.2⟩

/-- A request of `smallSys` with two cold experts. `io_uring_enter` takes the first of the two
reads; it lands and is computed. -/
def stuckRun : List Act :=
  [.serve 0 1 ⟨2, 1, fun i => ⟨0, 1 + i, 5⟩, 0, fun _ => 0⟩, .run, .run, .submit (.accepted 1),
    .run, .run, .complete 0 4700160, .run, .run, .run, .kernel 0, .run]

/-- **A request that is never acknowledged.** A submission takes the first of two reads; once
it has landed, no branch of the loop submits the second one. -/
theorem never_acked : ∃ S, tierSystem.Reachable S ∧ S.disp.frame.seq = 1 ∧
    S.disp.ring.sq ≠ [] ∧ S.disp.acks = [] ∧
      ∀ S', (ofStep (fun U => U = S) Sys.step).Reachable S' →
        S'.disp.pc ≠ .ack ∧ S'.disp.acks = [] := by
  obtain ⟨S, hS, hP⟩ := exists_reachable_of_run Sys.step start_smallSys stuckRun
    (fun S => S.disp.pc == .loop && S.disp.frame.status == 0 && S.disp.frame.landed == 1 &&
      S.disp.frame.nCold == 2 && S.disp.frame.issued == 2 && S.disp.ring.flying == [] &&
      S.disp.ring.cq == [] && S.disp.frame.seq == 1 && S.disp.ring.sq != [] &&
      S.disp.acks.isEmpty) (by decide)
  simp only [Bool.and_eq_true, beq_iff_eq, bne_iff_ne, List.isEmpty_iff] at hP
  obtain ⟨⟨⟨⟨⟨⟨⟨⟨⟨hpc, hst⟩, hland⟩, hcold⟩, hissued⟩, hfl⟩, hcq⟩, hseq⟩, hsq⟩, hacks⟩ := hP
  have hstuck : S.disp.Stuck :=
    ⟨.inl hpc, hst, by rw [hland, hcold]; decide, by rw [hissued, hcold], hfl, hcq⟩
  refine ⟨S, hS, hseq, hsq, hacks, fun S' hS' => ?_⟩
  obtain ⟨hstuck', hacks'⟩ := stuck_forever hstuck hS'
  refine ⟨?_, hacks'.trans hacks⟩
  rcases hstuck'.pc with hpc' | hpc' <;> rw [hpc'] <;> decide

end CpuTier

end VllmMoet
