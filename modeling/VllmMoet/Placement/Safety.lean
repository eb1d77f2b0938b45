import VllmMoet.Placement.Promotion

/-!
# Every run of the promotion protocol is safe

`SysOk` ties the two arguments of `Promotion` to the host's state, and is an invariant of
`protocolSystem`. `promotion_safe` reads the protocol's promise off it.
-/

namespace VllmMoet

namespace Placement

/-- The invariant of the protocol. -/
structure SysOk (cfg : Config) (S : Sys) : Prop where
  pools : ∀ l, (S.pools l).Consistent
  /-- the copy stream is safe and ends in the mirrors -/
  goes : Cmd.Goes CopyOp.run (Guard cfg.V)
    (fun m => m.table = fun l => (S.pools l).slotOfExpert) S.mem S.copy
  complete : Complete cfg.V S.mem
  /-- what the step has read is still mapped -/
  held : ∀ r ∈ S.reading, S.mem.table r.1 r.2.1 = some r.2.2
  pending : Cmd.Pending S.done (Cmd.records S.main ++ Cmd.records S.copy)
  /-- events are numbered by their call -/
  known : ∀ e, e ∈ S.done ∨ e ∈ Cmd.records S.main ∨ e ∈ Cmd.records S.copy → e.call < S.calls
  unmaps : Cmd.Along UnmapsFenced S.done S.copy
  reads : Cmd.Along (ReadsFenced S.calls) S.done S.main
  running : S.reading ≠ [] → Settled S.calls S.done S.main
  /-- every call's `U` is complete, waited for, or to be waited for -/
  waited : ∀ j < S.calls, .unmap j ∈ S.done ∨ .wait (.unmap j) ∈ S.main ∨
    .unmap j ∈ S.unmapEvents
  ready : S.ready = true → S.unmapEvents = []

section

variable {cfg : Config} {S S' : Sys}

theorem Start.sysOk (h : Start cfg S) : SysOk cfg S := by
  obtain ⟨hunmap, -, -, hdone⟩ := h.events
  obtain ⟨hmain, hcopy, hreading⟩ := h.streams
  refine ⟨fun l => ?_, ?_, h.complete, ?_, ⟨?_, ?_⟩, ?_, ?_, ?_, ?_, ?_, fun _ => hunmap⟩
  · obtain ⟨E, R, evictable, residents, hnodup, hle, hpool⟩ := h.filled l
    rw [hpool]
    exact (ResidentPool.empty_consistent E R evictable).fillFrom
      (by simpa [ResidentPool.empty] using hle) hnodup fun _ _ => rfl
  · rw [hcopy]
    exact .nil h.table
  · simp [hreading]
  · simp [hmain, hcopy, Cmd.records]
  · simp [hmain, hcopy, Cmd.records]
  · simp [hmain, hcopy, hdone, Cmd.records]
  · rw [hcopy]; trivial
  · rw [hmain]; trivial
  · simp [hreading]
  · simp [h.calls]

/-- While a step holds slots, the copy stream unmaps nothing: the unmap's call would have
completed its `done`, which is still behind the step, or recorded its `U`, which is still
behind the unmap. -/
theorem SysOk.next_not_unmap (h : SysOk cfg S) (hreading : S.reading ≠ []) {i l e : ℕ} :
    Cmd.next? S.copy i ≠ some (.unmap l e) := by
  intro hnext
  have hunmaps := h.unmaps
  have hpending := h.pending
  have hknown := h.known
  revert hnext hunmaps hpending hknown
  generalize S.copy = copy
  intro hnext hunmaps hpending hknown
  match copy, hnext with
  | .kernel as :: q, hnext =>
    obtain ⟨k, hdone, hrec⟩ := hunmaps.1 l e (List.mem_of_getElem? hnext)
    have hmem : Event.unmap k ∈ Cmd.records S.main ++ Cmd.records (.kernel as :: q) :=
      List.mem_append_right _ hrec
    obtain hk | hk := (h.running hreading).2 k (hknown (.unmap k) (.inr (.inr hrec)))
    · exact hpending.notMem _ hmem hk
    · exact hpending.notMem _ (List.mem_append_left _ hk) hdone

/-- A step of the copy stream. -/
theorem SysOk.copyStep (h : SysOk cfg S) {i : ℕ} (hs : S.copyStep i = some S') :
    SysOk cfg S' := by
  obtain ⟨⟨m', done', copy'⟩, hstep, rfl⟩ := Option.map_eq_some_iff.mp hs
  have hdone := Cmd.done_subset_of_step hstep
  obtain ⟨hsub, hnew⟩ := Cmd.records_subset_of_step hstep
  refine ⟨h.pools, h.goes.step hstep, ?_, ?_, ?_, ?_, h.unmaps.step (fun _ _ _ _ => .mono)
    (fun W as i q hf l e he => hf l e (List.mem_of_mem_eraseIdx he)) hstep,
    h.reads.mono (fun _ _ _ _ hW hf l e he => (hf l e he).mono hW) hdone,
    fun hr => (h.running hr).mono hdone, fun j hj => (h.waited j hj).imp (hdone ·) id, h.ready⟩
  · -- what changes in memory is one safe command
    obtain ⟨e, hq, rfl, -⟩ | ⟨e, hq, rfl, -, -⟩ | ⟨hq, rfl, -⟩ | ⟨as, a, r, hq, ha, rfl, -, -⟩ :=
      Cmd.step_cases hstep
    · exact h.complete
    · exact h.complete
    · exact h.complete
    · exact h.complete.run (h.goes.next (i := i) (by rw [hq]; exact ha))
  · intro r hr
    have hheld := h.held r hr
    obtain ⟨e, hq, rfl, -⟩ | ⟨e, hq, rfl, -, -⟩ | ⟨hq, rfl, -⟩ | ⟨as, a, q, hq, ha, rfl, -, -⟩ :=
      Cmd.step_cases hstep
    · exact hheld
    · exact hheld
    · exact hheld
    · have hnext : Cmd.next? S.copy i = some a := by rw [hq]; exact ha
      exact table_run (h.goes.next hnext)
        (fun l e hae => h.next_not_unmap (List.ne_nil_of_mem hr) (hae ▸ hnext)) hheld
  · exact (Cmd.Pending.step (h.pending.perm List.perm_append_comm) hstep).perm
      List.perm_append_comm
  · rintro e (he | he | he)
    · obtain he | he := hnew e he
      · exact h.known e (.inl he)
      · exact h.known e (.inr (.inr he))
    · exact h.known e (.inr (.inl he))
    · exact h.known e (.inr (.inr (hsub he)))

/-- A step of the main stream. -/
theorem SysOk.mainStep (h : SysOk cfg S) {i : ℕ} (hs : S.mainStep i = some S') :
    SysOk cfg S' := by
  obtain ⟨⟨reading', done', main'⟩, hstep, rfl⟩ := Option.map_eq_some_iff.mp hs
  have hdone := Cmd.done_subset_of_step hstep
  obtain ⟨hsub, hnew⟩ := Cmd.records_subset_of_step hstep
  have hreads : Cmd.Along (ReadsFenced S.calls) done' main' :=
    h.reads.step (fun _ _ _ _ hW hf l e he => (hf l e he).mono hW)
      (fun W as i q hf l e he => hf l e (List.mem_of_mem_eraseIdx he)) hstep
  refine ⟨h.pools, h.goes, h.complete, ?_, h.pending.step hstep, ?_,
    h.unmaps.mono (fun _ _ _ _ => .mono) hdone, hreads, ?_, ?_, h.ready⟩
  · intro r hr
    obtain ⟨e, -, rfl, -⟩ | ⟨e, -, rfl, -, -⟩ | ⟨-, rfl, -⟩ | ⟨as, a, q, -, -, rfl, -, -⟩ :=
      Cmd.step_cases hstep
    · exact h.held r hr
    · exact h.held r hr
    · exact h.held r hr
    · cases a with
      | finish => simp [MainOp.run] at hr
      | read l e =>
        simp only [MainOp.run] at hr
        split at hr
        next s hmap =>
          obtain rfl | hr := List.mem_cons.mp hr
          · exact hmap
          · exact h.held r hr
        next => exact h.held r hr
  · rintro e (he | he | he)
    · obtain he | he := hnew e he
      · exact h.known e (.inl he)
      · exact h.known e (.inr (.inl he))
    · exact h.known e (.inr (.inl (hsub he)))
    · exact h.known e (.inr (.inr he))
  · intro hr
    have hreadsS := h.reads
    have hrunning := h.running
    obtain ⟨e, hq, rfl, rfl⟩ | ⟨e, hq, rfl, rfl, -⟩ | ⟨hq, rfl, rfl⟩ | ⟨as, a, q, hq, ha, rfl, rfl, hq'⟩ :=
      Cmd.step_cases hstep
    · -- the end of the step comes before an event is recorded
      rw [hq] at hrunning
      exact absurd (hrunning hr).1 id
    · rw [hq] at hrunning
      exact hrunning hr
    · rw [hq] at hrunning
      exact ⟨(hrunning hr).1.resolve_left (by simp), (hrunning hr).2⟩
    · cases a with
      | finish => simp [MainOp.run] at hr
      | read l e =>
        rw [hq] at hreadsS
        -- the read is fenced: the plans before it have been copied
        have hsettled := hreadsS.1 l e (List.mem_of_getElem? ha)
        rw [hq']
        exact ⟨.inr hsettled.1, hsettled.2⟩
  · intro j hj
    obtain hw | hw | hw := h.waited j hj
    · exact .inl (hdone hw)
    · obtain ⟨e, hq, -, -⟩ | ⟨e, hq, -, -, he⟩ | ⟨hq, -, -⟩ | ⟨as, a, q, hq, -, -, -, hq'⟩ :=
        Cmd.step_cases hstep
      · exact .inr (.inl (by simpa [hq] using hw))
      · rw [hq] at hw
        obtain hw | hw := List.mem_cons.mp hw
        · obtain rfl : Event.unmap j = e := by simpa using hw
          exact .inl (hdone he)
        · exact .inr (.inl hw)
      · exact .inr (.inl (by simpa [hq] using hw))
      · exact .inr (.inl (by rw [hq']; simpa [hq] using hw))
    · exact .inr (.inr hw)

/-- `before_launch`. -/
theorem SysOk.beforeLaunch (h : SysOk cfg S) (hs : S.beforeLaunch cfg = some S') :
    SysOk cfg S' := by
  rw [Sys.beforeLaunch] at hs
  split at hs
  · simp at hs
  obtain rfl := Option.some.inj hs
  have hrec : Cmd.records (S.main ++ (S.mapEventsPrev ++ S.unmapEvents).map .wait) =
      Cmd.records S.main := by
    rw [Cmd.records_append, records_waits, List.append_nil]
  refine ⟨h.pools, h.goes, h.complete, h.held, ?_, ?_, h.unmaps, ?_,
    fun hr => (h.running hr).append _, fun j hj => ?_, fun _ => rfl⟩
  · simpa only [hrec] using h.pending
  · simpa only [hrec] using h.known
  · refine h.reads.append (fun W as q hf l e he => (hf l e he).append _) fun W' _ _ => ?_
    exact Cmd.Along.of_forall fun as has => by simp at has
  · obtain hw | hw | hw := h.waited j hj
    · exact .inl hw
    · exact .inr (.inl (List.mem_append_left _ hw))
    · exact .inr (.inl (List.mem_append_right _ (List.mem_map_of_mem (List.mem_append_right _ hw))))

/-- A step is launched. -/
theorem SysOk.launch (h : SysOk cfg S) {pubs : List (ℕ × List ℤ)}
    (hs : S.launch pubs = some S') : SysOk cfg S' := by
  rw [Sys.launch] at hs
  split at hs
  next hready =>
    obtain rfl := Option.some.inj hs
    have hrec : Cmd.records (S.main ++ (pubs.map fun p => publishCmd p.1 p.2) ++
        [.kernel [.finish]]) = Cmd.records S.main := by
      rw [List.append_assoc, Cmd.records_append, records_publishCmds, List.append_nil]
    refine ⟨h.pools, h.goes, h.complete, h.held, ?_, ?_, h.unmaps, ?_, fun hr => ?_,
      fun j hj => ?_, h.ready⟩
    · simpa only [hrec] using h.pending
    · simpa only [hrec] using h.known
    · rw [List.append_assoc]
      refine h.reads.append (fun W as q hf l e he => (hf l e he).append _) fun W' hW hw => ?_
      refine along_launch (fun j hj => ?_) pubs
      obtain hj | hj | hj := h.waited j hj
      · exact hW hj
      · exact hw _ hj
      · simp [h.ready hready] at hj
    · rw [List.append_assoc]
      exact (h.running hr).append _
    · refine (h.waited j hj).imp id (Or.imp (fun hw => ?_) id)
      rw [List.append_assoc]
      exact List.mem_append_left _ hw
  next => simp at hs

/-- The pools' owners change, their mirrors do not. -/
theorem SysOk.congr_pools (h : SysOk cfg S) {pools : ℕ → ResidentPool}
    (hok : ∀ l, (pools l).Consistent)
    (hmirror : ∀ l, (pools l).slotOfExpert = (S.pools l).slotOfExpert) :
    SysOk cfg { S with pools := pools } := by
  refine ⟨hok, ?_, h.complete, h.held, h.pending, h.known, h.unmaps, h.reads, h.running,
    h.waited, h.ready⟩
  simp only [hmirror]
  exact h.goes

/-- `note_uses`. -/
theorem SysOk.noteUses (h : SysOk cfg S) (uses : List (ℤ × ℕ × List ℤ)) :
    SysOk cfg (S.noteUses uses) := by
  refine h.congr_pools ?_ ?_
  · have hpools := h.pools
    generalize S.pools = pools at hpools
    induction uses generalizing pools with
    | nil => exact hpools
    | cons u uses ih =>
      refine ih _ fun l => ?_
      simp only [Function.update_apply]
      split
      · exact (hpools u.2.1).noteUse _ _
      · exact hpools l
  · generalize S.pools = pools
    induction uses generalizing pools with
    | nil => exact fun _ => rfl
    | cons u uses ih =>
      intro l
      refine (ih _ l).trans ?_
      simp only [Function.update_apply]
      split
      next hl => rw [(ResidentPool.noteUse_mirrors _ _).1, hl]
      next => rfl

/-- `after_launch`. -/
theorem SysOk.afterLaunch (h : SysOk cfg S) {misses : List Miss} {avail : ℕ → ℕ → ℕ → Bool}
    (hs : S.afterLaunch cfg misses avail = some S') : SysOk cfg S' := by
  have hok := plannedPools_consistent cfg avail misses S.lastMiss h.pools
  have hrest : ∀ l, l ∉ (plan cfg avail misses S.lastMiss S.pools).map (·.1) →
      (plannedPools cfg avail misses S.lastMiss S.pools l).slotOfExpert =
        (S.pools l).slotOfExpert :=
    fun l => plannedPools_of_notMem cfg avail misses S.lastMiss h.pools
  simp only [Sys.afterLaunch] at hs
  split at hs
  · simp at hs
  split at hs
  next hnil =>
    obtain rfl := Option.some.inj hs
    -- nothing is planned, and the pools are as before
    have := h.congr_pools hok fun l => hrest l (by simp [hnil])
    exact ⟨this.pools, this.goes, this.complete, this.held, this.pending, this.known,
      this.unmaps, this.reads, this.running, this.waited, by simp [Sys.planned]⟩
  next =>
    obtain rfl := Option.some.inj hs
    have hmain : Cmd.records (S.main ++ [.record (.done S.calls)]) =
        Cmd.records S.main ++ [.done S.calls] := by simp [Cmd.records]
    have hcopy : ∀ plans, Cmd.records (S.copy ++ copyCmds cfg S.calls plans) =
        Cmd.records S.copy ++ [.unmap S.calls, .map S.calls] := by
      intro plans
      rw [Cmd.records_append, records_copyCmds]
    refine ⟨hok, ?_, h.complete, h.held, ?_, ?_, ?_, ?_, fun hr => (h.running hr).record_done,
      fun j hj => ?_, by simp [Sys.schedule, Sys.planned]⟩
    · -- the mirrors the copy stream ends in are those the plan was made from
      refine h.goes.append fun m hm => ?_
      refine goes_copyCmds (x := fun l => (S.pools l).expertOfSlot) (fun p hp => ?_)
        (plan_nodup cfg avail misses S.lastMiss) (fun l hl => ?_) fun l e s hls => ?_
      · rw [hm]
        exact plan_planned cfg avail misses S.lastMiss h.pools hp
      · rw [hm]
        exact hrest l hl
      · rw [hm] at hls
        exact ((h.pools l e s).mp hls).2
    · -- the events of this call are new: those known are of earlier ones
      have hfresh : ∀ e : Event, e.call = S.calls →
          e ∉ S.done ∧ e ∉ Cmd.records S.main ++ Cmd.records S.copy := by
        refine fun e he => ⟨fun hd => ?_, fun hr => ?_⟩
        · exact absurd (h.known e (.inl hd)) (by omega)
        · exact absurd (h.known e (.inr (List.mem_append.mp hr))) (by omega)
      simp only [Sys.schedule, Sys.planned, hmain, hcopy]
      have hnew := ((h.pending.cons (hfresh (.map S.calls) rfl).1 (hfresh _ rfl).2).cons
        (hfresh (.unmap S.calls) rfl).1 (by simpa using (hfresh (.unmap S.calls) rfl).2)).cons
        (hfresh (.done S.calls) rfl).1 (by simpa using (hfresh (.done S.calls) rfl).2)
      refine hnew.perm (List.perm_iff_count.mpr fun e => ?_)
      simp only [List.count_cons, List.count_append, List.count_nil]
      omega
    · simp only [Sys.schedule, Sys.planned, hmain, hcopy, List.mem_append, List.mem_cons,
        List.not_mem_nil, or_false]
      have hk := h.known
      rintro e (he | (he | rfl) | he | rfl | rfl)
      · exact (hk e (.inl he)).trans (Nat.lt_succ_self _)
      · exact (hk e (.inr (.inl he))).trans (Nat.lt_succ_self _)
      · exact Nat.lt_succ_self _
      · exact (hk e (.inr (.inr he))).trans (Nat.lt_succ_self _)
      · exact Nat.lt_succ_self _
      · exact Nat.lt_succ_self _
    · refine h.unmaps.append (fun W as q hf l e he => ?_) fun W' _ _ => along_copyCmds cfg _ _
      obtain ⟨k, hk, hq⟩ := hf l e he
      exact ⟨k, hk, by rw [Cmd.records_append]; exact List.mem_append_left _ hq⟩
    · exact h.reads.append (fun W as q hf l e he => (hf l e he).record_done) fun _ _ _ => trivial
    · obtain hj | rfl := Nat.lt_succ_iff_lt_or_eq.mp hj
      · exact (h.waited j hj).imp id
          (Or.imp (List.mem_append_left _ ·) (List.mem_append_left _ ·))
      · exact .inr (.inr (List.mem_append_right _ (List.mem_cons_self ..)))

/-- The invariant is kept by every step. -/
theorem SysOk.step (h : SysOk cfg S) {a : Act} (hs : S.step cfg a = some S') : SysOk cfg S' := by
  cases a with
  | beforeLaunch => exact h.beforeLaunch hs
  | launch pubs => exact h.launch hs
  | noteUses uses => exact Option.some.inj hs ▸ h.noteUses uses
  | afterLaunch misses avail => exact h.afterLaunch hs
  | main i => exact h.mainStep hs
  | copy i => exact h.copyStep hs

/-- The invariant holds along every run. -/
theorem sysOk_invariant (cfg : Config) : (protocolSystem cfg).Invariant (SysOk cfg) where
  start _ h := h.sysOk
  step _ _ _ _ h hs := h.step hs

/-- **The promotion protocol never exposes a half-written slot.** In every run, whatever the
misses and the interleaving of the streams: a slot a step has read from the table holds the
expert's complete record until the step ends, and no repack of it is next on the copy stream;
and once both streams are idle the table is the host's mirror. -/
theorem promotion_safe (cfg : Config) {S : Sys} (hS : (protocolSystem cfg).Reachable S) :
    (∀ l e s, (l, e, s) ∈ S.reading → ∀ v < cfg.V, S.mem.rows l (s * cfg.V + v) = some (e, v)) ∧
    (∀ l e s, (l, e, s) ∈ S.reading → ∀ v < cfg.V, ∀ i,
      Cmd.next? S.copy i ≠ some (.repackBegin l (s * cfg.V + v)) ∧
      Cmd.next? S.copy i ≠ some (.repackEnd l (s * cfg.V + v))) ∧
    (S.main = [] → S.copy = [] → ∀ l e, S.mem.table l e = (S.pools l).slotOfExpert e) := by
  have h := (sysOk_invariant cfg).holds hS
  refine ⟨fun l e s hr v hv => h.complete l e s (h.held _ hr) v hv,
    fun l e s hr v hv i => ⟨fun hnext => ?_, fun hnext => ?_⟩, fun _ hcopy l e => ?_⟩
  · exact h.goes.next hnext e s (h.held _ hr) v hv rfl
  · exact h.goes.next hnext e s (h.held _ hr) v hv rfl
  · have hend := h.goes
    rw [hcopy] at hend
    rw [hend.of_nil]

end

/-! ### A run with a promotion in flight -/

/-- One layer, two slices per expert. -/
def smallConfig : Config where
  V := 2
  V_pos := by decide
  nLayers := 1
  maxPerLayer := 4
  window := 0
  batched := true
  tail := false
  promoteSync := false

/-- Of two experts, expert `0` is resident, in the only slot. -/
def smallSys : Sys where
  pools _ := (ResidentPool.empty 2 1 fun _ => true).fillFrom 0 [0]
  lastMiss _ _ := 0
  unmapEvents := []
  mapEventsLast := []
  mapEventsPrev := []
  acquiredLast := []
  acquiredPrev := []
  released := []
  calls := 0
  ready := true
  main := []
  copy := []
  done := []
  mem :=
    { table := fun _ e => if e = 0 then some 0 else none
      rows := fun _ r => if r < 2 then some (0, r) else none
      staging := fun _ => none }
  reading := []

theorem start_smallSys : Start smallConfig smallSys where
  filled _ := ⟨2, 1, fun _ => true, [0], by decide, by decide, rfl⟩
  table := by
    funext l e
    simp [smallSys, ResidentPool.fillFrom, ResidentPool.setSlot_slotOfExpert, ResidentPool.empty]
  complete := by
    intro l e s h v hv
    simp only [smallSys] at h
    split at h
    next he =>
      obtain rfl : 0 = s := by simpa using h
      have hv' : v < 2 := hv
      rw [Nat.zero_mul, Nat.zero_add, he]
      exact if_pos hv'
    next => simp at h
  events := ⟨rfl, rfl, rfl, rfl⟩
  pins := ⟨rfl, rfl, rfl⟩
  calls := rfl
  ready := rfl
  streams := ⟨rfl, rfl, rfl⟩

/-- A step reads expert `0`'s slot; a promotion of expert `1` into that slot is scheduled
before the step ends. -/
def smallRun : List Act :=
  [.launch [(0, [0, 1])], .main 0, .afterLaunch [⟨1, 0, 1⟩] fun _ _ _ => true]

/-- The step's slot is complete while the promotion waits. -/
theorem promotion_safe_running : ∃ S, (protocolSystem smallConfig).Reachable S ∧
    (0, 0, 0) ∈ S.reading ∧ S.calls = 1 ∧ S.mem.rows 0 1 = some (0, 1) := by
  obtain ⟨S, hS, hP⟩ := TransitionSystem.exists_reachable_of_run (Sys.step smallConfig)
    start_smallSys smallRun (fun S => decide ((0, 0, 0) ∈ S.reading ∧ S.calls = 1)) (by decide)
  obtain ⟨hr, hcalls⟩ := of_decide_eq_true hP
  exact ⟨S, hS, hr, hcalls, (promotion_safe smallConfig hS).1 0 0 0 hr 1 (by decide)⟩

end Placement

end VllmMoet
