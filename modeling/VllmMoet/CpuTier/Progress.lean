import VllmMoet.CpuTier.Leftovers

/-!
# What a step of a request achieves

Every read of a request is prepared, submitted, completed and reaped once, so the `work` left
in it goes down with each of these. A step of the dispatcher that does none of them leaves the
reads as they are (`Rests`) and comes closer to the acknowledgement or to the condition of the
waiting loop (`Pc.rank`); only from there, with records still missing, does it go back
(`Dispatcher.progress`).
-/

namespace VllmMoet

namespace CpuTier

variable {c : Config} {T : Tier} {R : Ring} {F : Frame} {D D' D'' : Dispatcher} {S S' : Sys}

/-- The work left: a record not asked for is prepared, submitted, completed and reaped. -/
def Dispatcher.work (D : Dispatcher) : ℕ :=
  4 * (D.frame.nCold - D.frame.issued) + 3 * D.ring.sq.length + 2 * D.ring.flying.length +
    D.ring.cq.length

/-- The steps to the acknowledgement, or to the condition of the waiting loop. -/
def Pc.rank : Pc → ℕ
  | .idle => 0
  | .ack => 1
  | .unpinEnd => 2
  | .drain | .forwardAll => 3
  | .loop => 4
  | .unpinBatch | .unpinResident => 5
  | .forwardBatch | .forwardResident => 6
  | .submitNext | .submit => 7
  | .issueNext | .issue => 8
  | .reap | .group => 9
  | .wait => 10
  | .submitIdle => 11
  | .issueIdle => 12

/-- The same request goes on. -/
structure Dispatcher.Continues (D D' : Dispatcher) : Prop where
  layer : D'.frame.layer = D.frame.layer
  seq : D'.frame.seq = D.frame.seq
  req : D'.frame.req = D.frame.req
  acks : D'.acks = D.acks
  entries : D'.ring.entries = D.ring.entries
  failed : D.frame.status ≠ 0 → D'.frame.status ≠ 0
  begun : D'.pc ≠ .idle ∧ D'.pc ≠ .group

/-- The reads of the request stay as they are. -/
structure Dispatcher.Rests (D D' : Dispatcher) : Prop where
  ring : D'.ring = D.ring
  slotOfCold : D'.frame.slotOfCold = D.frame.slotOfCold
  landed : D'.frame.landed = D.frame.landed
  coldIdx : D'.frame.coldIdx = D.frame.coldIdx

/-- The waiting loop goes on: records are missing, and nothing failed. -/
def Dispatcher.Missing (D : Dispatcher) : Prop :=
  D.pc = .loop ∧ D.frame.status = 0 ∧ D.frame.landed < D.frame.nCold

theorem Dispatcher.Continues.trans (h : D.Continues D') (h' : D'.Continues D'') :
    D.Continues D'' :=
  ⟨h'.layer.trans h.layer, h'.seq.trans h.seq, h'.req.trans h.req, h'.acks.trans h.acks,
    h'.entries.trans h.entries, fun hst => h'.failed (h.failed hst), h'.begun⟩

theorem Dispatcher.Rests.trans (h : D.Rests D') (h' : D'.Rests D'') : D.Rests D'' :=
  ⟨h'.ring.trans h.ring, h'.slotOfCold.trans h.slotOfCold, h'.landed.trans h.landed,
    h'.coldIdx.trans h.coldIdx⟩

theorem Dispatcher.Rests.work (h : D.Rests D') : D'.work = D.work := by
  simp only [Dispatcher.work, Frame.nCold, Frame.issued, h.ring, h.slotOfCold, h.coldIdx]

/-- The step is one on the way, or the one back to the top of the waiting loop. -/
def Dispatcher.Advances (D D' : Dispatcher) : Prop :=
  D'.pc.rank < D.pc.rank ∨
    (D.Missing ∧ D'.pc =
      if D.ring.inFlight = 0 ∧ D.frame.issued < D.frame.nCold then .issueIdle else .wait)

/-- Work is done, or the reads rest and the dispatcher goes on. -/
def Dispatcher.Progresses (D D' : Dispatcher) : Prop :=
  D.Continues D' ∧ (D'.work < D.work ∨ (D.Rests D' ∧ D.Advances D'))

/-! ### The sections -/

/-- Issuing reads does work for each. -/
theorem progresses_runIssue {next : Pc} (hpc : next ≠ .idle ∧ next ≠ .group)
    (hrank : next.rank < D.pc.rank) : D.Progresses (D.runIssue next) := by
  obtain ⟨ss, hlen, hR, hF⟩ := exists_issued (D.frame.nCold - D.frame.issued) D.tier D.ring D.frame
  have hcont : D.Continues (D.runIssue next) := by
    refine ⟨?_, ?_, ?_, rfl, ?_, ?_, hpc⟩ <;> simp only [Dispatcher.runIssue, issueSome, hF, hR]
    exact id
  refine ⟨hcont, ?_⟩
  cases ss with
  | nil =>
    refine .inr ⟨⟨?_, ?_, ?_, ?_⟩, .inl hrank⟩ <;>
      simp [Dispatcher.runIssue, issueSome, hF, hR]
  | cons s ss =>
    left
    simp only [Dispatcher.work, Dispatcher.runIssue, issueSome, hF, hR]
    simp only [Frame.nCold, Frame.issued, List.length_append, List.length_mapIdx,
      List.length_cons] at hlen ⊢
    omega

/-- Unpinning goes on to a later place. -/
theorem progresses_runUnpin {next : Pc} (hpc : next ≠ .idle ∧ next ≠ .group)
    (hrank : next.rank < D.pc.rank) : D.Progresses (D.runUnpin next) :=
  ⟨⟨rfl, rfl, rfl, rfl, rfl, id, hpc⟩, .inr ⟨⟨rfl, rfl, rfl, rfl⟩, .inl hrank⟩⟩

/-- The loop goes on to its wait, or to its end. -/
theorem progresses_runLoop (hpc : D.pc = .loop) : D.Progresses D.runLoop := by
  by_cases hgo : D.frame.status = 0 ∧ D.frame.landed < D.frame.nCold
  · refine ⟨⟨rfl, rfl, rfl, rfl, rfl, id, ?_⟩, .inr ⟨⟨rfl, rfl, rfl, rfl⟩, .inr ⟨⟨hpc, hgo⟩, ?_⟩⟩⟩
    · simp only [Dispatcher.runLoop, if_pos hgo]
      split <;> simp
    · simp only [Dispatcher.runLoop, if_pos hgo]
  · refine ⟨⟨rfl, rfl, rfl, rfl, rfl, id, ?_⟩, .inr ⟨⟨rfl, rfl, rfl, rfl⟩, .inl ?_⟩⟩
    · simp only [Dispatcher.runLoop, if_neg hgo]
      split <;> simp
    · simp only [Dispatcher.runLoop, if_neg hgo, hpc]
      split <;> simp [Pc.rank]

/-- What landing a record keeps of the frame. -/
theorem land_frame (T : Tier) (F : Frame) (k : ℕ) :
    (land T F k).2.layer = F.layer ∧ (land T F k).2.seq = F.seq ∧ (land T F k).2.req = F.req ∧
      (land T F k).2.status = F.status ∧ (land T F k).2.slotOfCold = F.slotOfCold ∧
      (land T F k).2.coldIdx = F.coldIdx := by
  rw [land]
  split <;> exact ⟨rfl, rfl, rfl, rfl, rfl, rfl⟩

theorem batchPc_rank (F : Frame) : (Dispatcher.batchPc F).rank < 7 ∧
    (Dispatcher.batchPc F ≠ .idle ∧ Dispatcher.batchPc F ≠ .group) := by
  rcases batchPc_cases F with ⟨h, -⟩ | ⟨h, -⟩ <;> rw [h] <;> simp [Pc.rank]

/-- The reaping goes on to the next completion, or past the last. -/
theorem progresses_runReap (hpc : D.pc = .reap) : D.Progresses D.runReap := by
  rw [Dispatcher.runReap]
  split
  · have hb := batchPc_rank D.frame
    refine ⟨⟨rfl, rfl, rfl, rfl, rfl, id, ?_⟩, .inr ⟨⟨rfl, rfl, rfl, rfl⟩, .inl ?_⟩⟩
    · simp only
      split
      · simp
      · exact hb.2
    · simp only [hpc]
      split
      · simp [Pc.rank]
      · exact hb.1.trans (by simp [Pc.rank])
  · next r res cq hcq =>
    simp only
    split
    · refine ⟨⟨rfl, rfl, rfl, rfl, rfl, fun _ => by simp, by simp [hpc]⟩, .inl ?_⟩
      simp only [Dispatcher.work, Frame.nCold, Frame.issued, hcq, List.length_cons]
      omega
    · obtain ⟨hlay, hseq, hreq, hst, hslot, hcold⟩ := land_frame D.tier D.frame r.ud
      refine ⟨⟨hlay, hseq, hreq, rfl, rfl, fun hne => ?_, by simp [hpc]⟩, .inl ?_⟩
      · simpa only [hst] using hne
      · simp only [Dispatcher.work, Frame.nCold, Frame.issued, hcq, List.length_cons, hslot, hcold]
        omega

/-- The draining goes on to the next completion, or past the last. -/
theorem progresses_runDrain (hpc : D.pc = .drain) (hs : D.runDrain = some D') :
    D.Progresses D' := by
  rw [Dispatcher.runDrain] at hs
  split at hs
  · obtain rfl := Option.some.inj hs
    exact ⟨⟨rfl, rfl, rfl, rfl, rfl, id, by simp⟩, .inr ⟨⟨rfl, rfl, rfl, rfl⟩, .inl (by simp [hpc, Pc.rank])⟩⟩
  · split at hs
    · simp at hs
    · next r res cq hcq =>
      obtain rfl := Option.some.inj hs
      refine ⟨⟨rfl, rfl, rfl, rfl, rfl, id, by simp [hpc]⟩, .inl ?_⟩
      simp only [Dispatcher.work, hcq, List.length_cons]
      omega

/-! ### The steps -/

/-- A step of the dispatcher's own, other than the grouping and the acknowledgement. -/
theorem progresses_run (hs : D.run = some D') (hgroup : D.pc ≠ .group) (hack : D.pc ≠ .ack) :
    D.Progresses D' := by
  have go : ∀ pc : Pc, ∀ b : List ℕ, pc ≠ .idle ∧ pc ≠ .group → pc.rank < D.pc.rank →
      D.Progresses { D with
        pc := pc
        frame := { D.frame with batch := b } } := fun pc b hpc hrank =>
    ⟨⟨rfl, rfl, rfl, rfl, rfl, id, hpc⟩, .inr ⟨⟨rfl, rfl, rfl, rfl⟩, .inl hrank⟩⟩
  rw [Dispatcher.run] at hs
  cases hpc : D.pc <;> simp only [hpc, reduceCtorEq, Option.some.injEq] at hs
  case group => exact absurd hpc hgroup
  case ack => exact absurd hpc hack
  case issue | issueIdle | issueNext =>
    exact hs ▸ progresses_runIssue (by simp) (by simp [hpc, Pc.rank])
  case unpinResident => exact hs ▸ progresses_runUnpin (by simp) (by simp [hpc, Pc.rank])
  case loop => exact hs ▸ progresses_runLoop hpc
  case wait =>
    subst hs
    refine go _ [] ?_ ?_
    · split <;> simp
    · rw [hpc]
      split <;> simp [Pc.rank]
  case reap => exact hs ▸ progresses_runReap hpc
  case unpinBatch =>
    subst hs
    split
    · exact go .loop D.frame.batch (by simp) (by simp [hpc, Pc.rank])
    · exact progresses_runUnpin (by simp) (by simp [hpc, Pc.rank])
  case drain => exact progresses_runDrain hpc hs
  case unpinEnd =>
    subst hs
    split
    · exact progresses_runUnpin (by simp) (by simp [hpc, Pc.rank])
    · exact go .ack D.frame.batch (by simp) (by simp [hpc, Pc.rank])

/-- The kernel goes on to what follows its call. -/
theorem progresses_kernel {rc : ℤ} (hs : D.kernel rc = some D') : D.Progresses D' := by
  obtain ⟨call, next, -, rfl, hnext⟩ := kernel_cases hs
  refine ⟨⟨rfl, rfl, rfl, rfl, rfl, fun hst => ?_, ?_⟩, .inr ⟨⟨rfl, rfl, rfl, rfl⟩, .inl ?_⟩⟩
  · simp only [Dispatcher.called]
    split
    · decide
    · exact hst
  · rcases hnext with ⟨-, rfl⟩ | ⟨-, rfl⟩ | ⟨-, rfl⟩ <;> simp
  · rcases hnext with ⟨hpc, rfl⟩ | ⟨hpc, rfl⟩ | ⟨hpc, rfl⟩ <;> rw [hpc] <;> simp [Pc.rank]

/-- What a submission does to the ring. -/
theorem submit_ring {a : Submitted} (hs : D.submit a = some D') :
    ∃ R pc, D.ring.submit a = some R ∧ D' = { D with
        ring := R
        frame := D.answered a
        pc := pc } ∧ (pc ≠ .idle ∧ pc ≠ .group) ∧ pc.rank < D.pc.rank := by
  rw [Dispatcher.submit] at hs
  split at hs
  · simp at hs
  · next R hR =>
    refine ⟨R, D'.pc, hR, ?_⟩
    have hb := batchPc_rank (D.answered a)
    cases hpc : D.pc <;> simp only [hpc, reduceCtorEq, Option.some.injEq] at hs
    all_goals
      subst hs
      refine ⟨rfl, ?_, ?_⟩
    case submit.refine_1 | submitIdle.refine_1 => simp only; split <;> simp
    case submit.refine_2 | submitIdle.refine_2 => simp only; split <;> simp [Pc.rank]
    case submitNext.refine_1 =>
      simp only
      split
      · simp
      · exact hb.2
    case submitNext.refine_2 =>
      simp only
      split
      · simp [Pc.rank]
      · exact hb.1.trans_le (by simp [Pc.rank])

theorem Ring.entries_of_submit {R' : Ring} {a : Submitted} (hR : R.submit a = some R') :
    R'.entries = R.entries := by
  cases a with
  | error =>
    simp only [Ring.submit] at hR
    split at hR
    · simp at hR
    · exact Option.some.inj hR ▸ rfl
  | accepted n =>
    simp only [Ring.submit] at hR
    split at hR
    · exact Option.some.inj hR ▸ rfl
    · simp at hR

/-- A submission goes on to the loop, or to the end of its request. -/
theorem progresses_submit {a : Submitted} (hs : D.submit a = some D') : D.Progresses D' := by
  obtain ⟨R, pc, hR, rfl, hpc, hrank⟩ := submit_ring hs
  have hF : (D.answered a).layer = D.frame.layer ∧ (D.answered a).seq = D.frame.seq ∧
      (D.answered a).req = D.frame.req ∧ (D.answered a).slotOfCold = D.frame.slotOfCold ∧
      (D.answered a).landed = D.frame.landed ∧ (D.answered a).coldIdx = D.frame.coldIdx ∧
      (D.frame.status ≠ 0 → (D.answered a).status ≠ 0) := by
    rw [Dispatcher.answered]
    split
    · exact ⟨rfl, rfl, rfl, rfl, rfl, rfl, by simp⟩
    · exact ⟨rfl, rfl, rfl, rfl, rfl, rfl, id⟩
  obtain ⟨hlay, hseq, hreq, hslot, hland, hcold, hst⟩ := hF
  refine ⟨⟨hlay, hseq, hreq, rfl, ?_, hst, hpc⟩, ?_⟩
  · simp only [Ring.entries_of_submit hR]
  rcases eq_or_ne R D.ring with rfl | hne
  · exact .inr ⟨⟨rfl, hslot, hland, hcold⟩, .inl hrank⟩
  · left
    cases a with
    | error =>
      simp only [Ring.submit] at hR
      split at hR
      · simp at hR
      · exact absurd (Option.some.inj hR).symm hne
    | accepted n =>
      simp only [Ring.submit] at hR
      split at hR
      · next hn =>
        obtain rfl := Option.some.inj hR
        have hpos : n ≠ 0 := by
          rintro rfl
          simp at hne
        simp only [Dispatcher.work, Frame.nCold, Frame.issued, hslot, hcold, List.length_drop,
          List.length_append, List.length_take]
        omega
      · simp at hR

/-- A completion does work. -/
theorem work_complete {i : ℕ} {res : ℤ} (hR : D.ring.complete i res = some R) :
    { D with ring := R }.work < D.work := by
  obtain ⟨r, hr, rfl⟩ := Option.map_eq_some_iff.mp hR
  obtain ⟨hi, -⟩ := List.getElem?_eq_some_iff.mp hr
  simp only [Dispatcher.work, List.length_eraseIdx_of_lt hi, List.length_append,
    List.length_singleton]
  omega

/-- A step of the dispatcher inside `serve`. -/
def Act.ofServe : Act → Prop
  | .run | .kernel _ | .submit _ => True
  | _ => False

/-- Where neither a kernel nor a submission is due, the dispatcher steps by itself. -/
theorem run_of_ofServe {a : Act} (ha : a.ofServe) (hs : S.step a = some S')
    (hcall : S.disp.call = none) (hsub : S.disp.pc.submitting = false) :
    a = .run ∧ S.disp.run = some S'.disp := by
  cases a with
  | run =>
    obtain ⟨D, hD, rfl⟩ := Option.map_eq_some_iff.mp hs
    exact ⟨rfl, hD⟩
  | kernel rc =>
    obtain ⟨D, hD, rfl⟩ := Option.map_eq_some_iff.mp hs
    obtain ⟨call, next, hc, -⟩ := kernel_cases hD
    simp [hcall] at hc
  | submit r =>
    obtain ⟨D, hD, rfl⟩ := Option.map_eq_some_iff.mp hs
    rw [Dispatcher.submit] at hD
    split at hD
    · simp at hD
    · cases hpc : S.disp.pc <;> simp [hpc, Pc.submitting] at hD hsub
  | _ => exact ha.elim

/-- During a request, what is neither a step of the dispatcher nor a completion is a call of the
engine. -/
theorem exists_tier_of_call {a : Act} (hs : S.step a = some S') (hidle : S.disp.pc ≠ .idle)
    (hown : ¬ a.ofServe) (hcomplete : ∀ i res, a ≠ .complete i res) :
    ∃ T, S'.disp = { S.disp with tier := T } := by
  rcases step_disp_eq hs with hT | hD
  · exact hT
  · cases a with
    | serve l seq req =>
      simp only at hD
      exact absurd (idle_of_serve hD).1 hidle
    | run | kernel _ | submit _ => exact absurd trivial hown
    | complete i res => exact absurd rfl (hcomplete i res)
    | _ => exact hD.elim

/-- **One step of a request** after its grouping: it is acknowledged; or it goes on, with work
done, or by a step of the dispatcher, or by an engine call. -/
theorem progress {a : Act} (hs : S.step a = some S') (hidle : S.disp.pc ≠ .idle)
    (hgroup : S.disp.pc ≠ .group) :
    (a = .run ∧ S.disp.pc = .ack) ∨ (S.disp.Continues S'.disp ∧
      (S'.disp.work < S.disp.work ∨
        (a.ofServe ∧ S.disp.Rests S'.disp ∧ S.disp.Advances S'.disp) ∨
        ((¬ a.ofServe ∧ ∀ i res, a ≠ .complete i res) ∧
          ∃ T, S'.disp = { S.disp with tier := T }))) := by
  have own : ∀ D', S.disp.Progresses D' → a.ofServe →
      S.disp.Continues D' ∧ (D'.work < S.disp.work ∨
        (a.ofServe ∧ S.disp.Rests D' ∧ S.disp.Advances D') ∨
        ((¬ a.ofServe ∧ ∀ i res, a ≠ .complete i res) ∧ ∃ T, D' = { S.disp with tier := T })) :=
    fun D' h ha => ⟨h.1, h.2.imp_right fun h => .inl ⟨ha, h⟩⟩
  cases a with
  | serve l seq req =>
    obtain ⟨D, hD, rfl⟩ := Option.map_eq_some_iff.mp hs
    exact absurd (idle_of_serve hD).1 hidle
  | run =>
    obtain ⟨D, hD, rfl⟩ := Option.map_eq_some_iff.mp hs
    by_cases hack : S.disp.pc = .ack
    · exact .inl ⟨rfl, hack⟩
    · exact .inr (own D (progresses_run hD hgroup hack) trivial)
  | kernel rc =>
    obtain ⟨D, hD, rfl⟩ := Option.map_eq_some_iff.mp hs
    exact .inr (own D (progresses_kernel hD) trivial)
  | submit r =>
    obtain ⟨D, hD, rfl⟩ := Option.map_eq_some_iff.mp hs
    exact .inr (own D (progresses_submit hD) trivial)
  | complete i res =>
    obtain ⟨R, hR, rfl⟩ := Option.map_eq_some_iff.mp hs
    refine .inr ⟨⟨rfl, rfl, rfl, rfl, ?_, id, hidle, hgroup⟩, .inl (work_complete hR)⟩
    obtain ⟨r, -, rfl⟩ := Option.map_eq_some_iff.mp hR
    rfl
  | _ =>
    obtain ⟨T, hT⟩ := (step_disp_eq hs).resolve_right id
    refine .inr ⟨?_, .inr (.inr ⟨⟨id, by simp⟩, T, hT⟩)⟩
    rw [hT]
    exact ⟨rfl, rfl, rfl, rfl, rfl, id, hidle, hgroup⟩

end CpuTier

end VllmMoet
