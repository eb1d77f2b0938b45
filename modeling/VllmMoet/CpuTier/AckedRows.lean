import VllmMoet.CpuTier.ServedRows

/-!
# The rows of an acknowledged request

In every run whose steps respect the pins and in which no request is begun while a prepared
read of an earlier one waits to be submitted, an acknowledgement with status 0 means that
every row of the request is in the staging area and every pair was handed to the kernel once
(`acked_rows`). A prepared read that outlives its failed request lands under the next
request's tag, and the row is computed from a slot that was not read yet (`stale_read_row`).
-/

namespace VllmMoet

namespace CpuTier

variable {B A Y : Type*} {K : Store B A Y} {c : Config} {T T' : Tier} {R R' : Ring}
  {D D' : Dispatcher} {S S' : Sys} {M M' : MemSys B A Y} {l e i k s x : ℕ} {mem : ℕ → B}

/-! ### The tier and its memory -/

/-- The tier and its memory, whatever has become of the request. -/
structure TierOk (K : Store B A Y) (S : Sys) (mem : ℕ → B) : Prop where
  sys : ∃ c, SysOk c S
  pins : PinsOk S
  index : IndexOk K S.tier mem
  reads : ReadsOk K S mem

/-- One step of the tier keeps what is known of the reads. -/
theorem ReadsOk.step (h : ReadsOk K S mem) (hok : SysOk c S) {a : Act} (hs : S.step a = some S')
    (hfull : ∀ i, a = .complete i recordBytes → ∀ r, S.disp.ring.flying[i]? = some r →
      mem (S.tier.tail.addr r.slot) = K.file r.layer r.expert) : ReadsOk K S' mem := by
  cases a with
  | serve l seq req =>
    obtain ⟨D, hD, rfl⟩ := Option.map_eq_some_iff.mp hs
    exact h.serve hD
  | run =>
    obtain ⟨D, hD, rfl⟩ := Option.map_eq_some_iff.mp hs
    exact h.run hok hD
  | kernel rc =>
    obtain ⟨D, hD, rfl⟩ := Option.map_eq_some_iff.mp hs
    exact h.kernel hD
  | submit r =>
    obtain ⟨D, hD, rfl⟩ := Option.map_eq_some_iff.mp hs
    exact h.submit hD
  | complete i res =>
    obtain ⟨R, hR, rfl⟩ := Option.map_eq_some_iff.mp hs
    obtain ⟨r, hr, -⟩ := Option.map_eq_some_iff.mp hR
    exact h.complete hr hR fun hres => hfull i (hres ▸ rfl) r hr
  | acquire _ _ | acquireRead _ _ | release _ _ _ | prefillFetch _ _ _ | prefillRead _ _
  | prefillRelease _ _ _ => exact h.call hok hs trivial

/-- The record a step registers is in memory if the read of a step that ends one has brought
it there. -/
theorem TierOk.inserted (h : TierOk K S mem) {a : Act}
    (hacq : ∀ i, a = .acquireRead i true → ∀ r, S.acquiring[i]? = some r →
      mem (S.tier.tail.addr r.slot) = K.file r.layer r.expert) (hi : Inserted S a l e s) :
    s ∈ S.targets ∧ mem (S.tier.tail.addr s) = K.file l e ∧ (S.tier.layers l).cold e = true := by
  obtain ⟨c, hc⟩ := h.sys
  exact h.reads.inserted hc hacq hi

theorem TierOk.step (h : TierOk K S mem) {a : Act} (ha : PinsRespected S a)
    (hs : S.step a = some S')
    (hfull : ∀ i, a = .complete i recordBytes → ∀ r, S.disp.ring.flying[i]? = some r →
      mem (S.tier.tail.addr r.slot) = K.file r.layer r.expert)
    (hacq : ∀ i, a = .acquireRead i true → ∀ r, S.acquiring[i]? = some r →
      mem (S.tier.tail.addr r.slot) = K.file r.layer r.expert) : TierOk K S' mem := by
  obtain ⟨c, hc⟩ := h.sys
  exact ⟨⟨c, hc.step ha.clean hs⟩, h.pins.step hc ha hs,
    h.index.step (hc.indexStep hs) fun _ _ _ _ hi => (h.inserted hacq hi).2,
    h.reads.step hc hs hfull⟩

/-- A submitted read's slot is written. -/
theorem TierOk.transfer (h : TierOk K S mem) {r : Read} (hr : r ∈ S.disp.ring.flying) (b : B) :
    TierOk K S (Function.update mem (S.tier.tail.addr r.slot) b) := by
  obtain ⟨c, hc⟩ := h.sys
  obtain ⟨ns, ha⟩ := hc.disp.arena
  have hmem : r ∈ S.disp.ring.reads := by simp [Ring.reads, hr]
  refine ⟨⟨c, hc⟩, h.pins, h.index.write ha (List.mem_append_left _ (List.mem_map_of_mem hmem)) b,
    h.reads.write (fun r' res hr' hslot => ?_) b⟩
  -- the slots of the ring are distinct
  have hnd := (List.nodup_append.mp ha.nodup).2.1
  have hnd := (List.nodup_append.mp hnd).1
  simp only [Ring.targets, Ring.reads, List.map_append, List.map_map] at hnd
  refine (List.nodup_append.mp hnd).2.2 r.slot ?_ r'.slot ?_ hslot.symm
  · exact List.mem_append_right _ (List.mem_map_of_mem hr)
  · exact List.mem_map.mpr ⟨_, hr', rfl⟩

/-- An acquiring call's slot is written. -/
theorem TierOk.acquireTransfer (h : TierOk K S mem) {r : Held} (hr : r ∈ S.acquiring) (b : B) :
    TierOk K S (Function.update mem (S.tier.tail.addr r.slot) b) := by
  obtain ⟨c, hc⟩ := h.sys
  obtain ⟨ns, ha⟩ := hc.disp.arena
  refine ⟨⟨c, hc⟩, h.pins, h.index.write ha (List.mem_append_right _ (List.mem_map_of_mem hr)) b,
    h.reads.write (fun r' res hr' hslot => ?_) b⟩
  have hnd := (List.nodup_append.mp ha.nodup).2.1
  refine (List.nodup_append.mp hnd).2.2 r'.slot ?_ r.slot (List.mem_map_of_mem hr) hslot
  refine List.mem_map_of_mem (List.mem_append_right _ ?_)
  exact List.mem_map.mpr ⟨_, hr', rfl⟩

/-! ### The steps of a request -/

/-- Where a kernel call's result leads. -/
theorem kernel_cases {rc : ℤ} (hs : D.kernel rc = some D') :
    ∃ call next, D.call = some call ∧ D' = { D with frame := D.called call rc, pc := next } ∧
      ((D.pc = .forwardAll ∧ next = .unpinEnd) ∨
        (D.pc = .forwardResident ∧ next = .unpinResident) ∨
        (D.pc = .forwardBatch ∧ next = .unpinBatch)) := by
  rw [Dispatcher.kernel] at hs
  cases hpc : D.pc <;> simp only [hpc, reduceCtorEq, Option.some.injEq] at hs
  case forwardAll =>
    exact ⟨D.frame.all, .unpinEnd, by rw [Dispatcher.call, hpc], hs.symm, .inl ⟨rfl, rfl⟩⟩
  case forwardResident =>
    exact ⟨D.frame.subset D.frame.resIdx, .unpinResident, by rw [Dispatcher.call, hpc], hs.symm,
      .inr (.inl ⟨rfl, rfl⟩)⟩
  case forwardBatch =>
    exact ⟨D.frame.subset D.frame.batch, .unpinBatch, by rw [Dispatcher.call, hpc], hs.symm,
      .inr (.inr ⟨rfl, rfl⟩)⟩

/-- A kernel call that computed all its pairs: the pending groups are done. -/
theorem RowsOk.kernel {done : List ℕ} (h : RowsOk K M done)
    (ho : M.sys.disp.frame.order.Perm (List.range M.sys.disp.frame.req.nPairs.toNat))
    {call : KernelCall} (hcall : M.sys.disp.call = some call) {next : Pc}
    (hnext : (M.sys.disp.pc = .forwardAll ∧ next = .unpinEnd) ∨
      (M.sys.disp.pc = .forwardResident ∧ next = .unpinResident) ∨
      (M.sys.disp.pc = .forwardBatch ∧ next = .unpinBatch)) (rc : ℤ)
    (hall : ∀ j < call.pairs.length, j ∈ M.computed) :
    RowsOk K { M with
      sys := { M.sys with disp := { M.sys.disp with
        frame := M.sys.disp.called call rc
        pc := next } }
      computed := [] } (done ++ M.sys.disp.pending) := by
  have hnil : Dispatcher.pending { M.sys.disp with
      frame := M.sys.disp.called call rc
      pc := next } = [] := by
    rcases hnext with ⟨-, rfl⟩ | ⟨-, rfl⟩ | ⟨-, rfl⟩ <;> rfl
  refine ⟨h.toGroupsAt.kernel ho hcall hnext rc, fun x hx j hj => ?_, fun x hx => ?_,
    fun _ _ p hp => absurd hp List.not_mem_nil⟩
  · rcases List.mem_append.mp hx with hx | hx
    · exact h.rows x hx j hj
    · exact h.pending_rows ho hcall hall x hx j hj
  · rw [hnil] at hx
    exact absurd hx List.not_mem_nil

/-- The rows after a step that hands over nothing. -/
theorem RowsOk.handed {done : List ℕ} (h : RowsOk K M done) (hH : Handed M.sys S'.disp done)
    (hok : SysOk c M.sys) (hp : PinsOk S') {ins : ℕ → ℕ → ℕ → Prop}
    (hi : IndexStep M.sys.tier S'.tier ins)
    (hins : ∀ l e s, ins l e s → s ∈ M.sys.targets ∧ (M.sys.tier.layers l).cold e = true)
    (hl : M.sys.disp.frame.layer < M.sys.tier.nLayers)
    (hcomp : M.computed = [] ∨ S'.disp.call = M.sys.disp.call) (mem : ℕ → B) :
    RowsOk K { M with sys := S', mem := mem } done := by
  refine h.next hH.groups hH.same rfl rfl (fun x hx => ?_) (hcomp.imp_right fun hc => ⟨rfl, hc⟩)
  rcases hH.pending x hx with ⟨hx, hrecs, hpin⟩ | hheld
  · exact (h.records x hx).step hok hp hi hins hl hH.same hrecs hpin
  · exact hheld

/-- A request without pairs is acknowledged at once. -/
theorem rowsOk_serve {seq : ℕ} {req : Request} (hs : M.sys.disp.serve l seq req = some D)
    (hD : D.Alive) (hc : M.computed = []) (acts : ℕ → A) :
    RowsOk K { M with sys := { M.sys with disp := D }, acts := acts } [] := by
  rw [Dispatcher.serve] at hs
  split at hs
  · obtain rfl := Option.some.inj hs
    obtain ⟨-, hg, -, hst⟩ := hD
    have hn : ¬ (0 < req.nPairs ∧ (Frame.entry l seq req).status = 0) := fun hn => hg (if_pos hn)
    have horder : (Frame.entry l seq req).order = [] := by
      have hzero : req.nPairs.toNat = 0 := by
        have := not_and.mp hn
        have : ¬ 0 < req.nPairs := fun hpos => this hpos hst
        omega
      simp [Frame.entry, hzero]
    refine ⟨⟨?_, fun hsv => ?_, fun _ => List.Perm.refl _, rfl⟩,
      fun x hx => absurd hx List.not_mem_nil, fun x hx => ?_, fun _ _ p hp => ?_⟩
    · rw [horder]
      exact groupsOk_entry _
    · rw [if_neg hn] at hsv
      simp [Pc.serving, Pc.reading] at hsv
    · rw [Dispatcher.pending, if_neg hn] at hx
      exact absurd hx List.not_mem_nil
    · change p ∈ M.computed at hp
      rw [hc] at hp
      exact absurd hp List.not_mem_nil
  · simp at hs

/-- The grouping section looks the records of the resident groups up. -/
theorem rowsOk_runGroup (hok : SysOk c M.sys) (hr : ReadsOk K M.sys M.mem)
    (hpc : M.sys.disp.pc = .group) (hst : M.sys.disp.runGroup.frame.status = 0)
    (hc : M.computed = []) :
    RowsOk K { M with sys := { M.sys with disp := M.sys.disp.runGroup } } [] := by
  obtain ⟨hg, hl⟩ := groupsAt_runGroup hok.disp hpc (hr.entry hpc) hst
  have hsame := sameIndex_groupPairs M.sys.disp.frame.order 0 M.sys.disp.tier M.sys.disp.frame
  obtain ⟨-, -, -, hlay⟩ := groupPairs_frame M.sys.disp.frame.order 0 M.sys.disp.tier
    M.sys.disp.frame
  have hl' : LookedUp (M.sys.disp.runGroup.tier.layers M.sys.disp.runGroup.frame.layer)
      M.sys.disp.runGroup.frame := by
    have := hl.to_sameIndex hsame
    rw [← hlay] at this
    exact this
  refine ⟨hg, fun x hx => absurd hx List.not_mem_nil, fun x hx => hl'.resident x ?_,
    fun _ _ p hp => ?_⟩
  · change x ∈ M.sys.disp.runGroup.pending at hx
    rw [Dispatcher.pending] at hx
    rcases runGroup_pc hst with ⟨hp, hcold⟩ | hp
    · rw [hp] at hx
      have hsplit := hg.groups.split
      rw [hcold, List.append_nil] at hsplit
      exact hsplit.mem_iff.mpr hx
    · rw [hp] at hx
      exact hx
  · change p ∈ M.computed at hp
    rw [hc] at hp
    exact absurd hp List.not_mem_nil

/-- A step of the tier other than a kernel call's end leaves the call in progress alone. -/
theorem call_of_step {a : Act} (hs : S.step a = some S') (ha : ∀ rc, a ≠ .kernel rc) :
    S.disp.call = none ∨ S'.disp.call = S.disp.call := by
  rcases step_disp_eq hs with ⟨T, hT⟩ | hD
  · rw [hT]
    exact .inr rfl
  · cases a with
    | serve l seq req =>
      simp only [Dispatcher.serve] at hD
      split at hD
      · next hpc => exact .inl (by rw [Dispatcher.call, hpc.1])
      · simp at hD
    | run =>
      left
      rw [Dispatcher.run] at hD
      rw [Dispatcher.call]
      cases hpc : S.disp.pc <;> simp only [hpc, reduceCtorEq] at hD ⊢
    | kernel rc => exact absurd rfl (ha rc)
    | submit r =>
      left
      simp only [Dispatcher.submit] at hD
      rw [Dispatcher.call]
      split at hD
      · simp at hD
      · cases hpc : S.disp.pc <;> simp only [hpc, reduceCtorEq] at hD ⊢
    | complete i res =>
      obtain ⟨R, -, hD⟩ := hD
      rw [hD]
      exact .inr rfl
    | _ => exact hD.elim

/-! ### Whole runs -/

/-- The invariant of the tier with its memory. -/
structure ServeOk (K : Store B A Y) (M : MemSys B A Y) : Prop extends TierOk K M.sys M.mem where
  computed : M.sys.disp.call = none → M.computed = []
  rows : M.sys.disp.Alive → ∃ done, RowsOk K M done

/-- The step of the tier that a step is, unless only memory changes. -/
def MemAct.tierStep : MemAct B A → Option Act
  | .serve l seq req _ => some (.serve l seq req)
  | .pair _ | .transfer _ _ | .acquireTransfer _ _ => none
  | .sys a => some a

/-- A step that respects the pins, and begins no request over a read that waits. -/
def RowsRespected (M : MemSys B A Y) (a : MemAct B A) : Prop :=
  ∀ b, a.tierStep = some b → PinsRespected M.sys b

/-- The rows are kept by every step of the tier that hands nothing over; `mem'` is what the
step leaves in memory. -/
theorem ServeOk.rows_step (h : ServeOk K M) {a : Act} (hok : SysOk c M.sys) (hp : PinsOk S')
    (hs : M.sys.step a = some S') (hserve : ∀ l seq req, a ≠ .serve l seq req)
    (hkernel : ∀ rc, a ≠ .kernel rc)
    (hins : ∀ l e s, Inserted M.sys a l e s →
      s ∈ M.sys.targets ∧ (M.sys.tier.layers l).cold e = true) (mem' : ℕ → B)
    (hD' : S'.disp.Alive) : ∃ done, RowsOk K { M with sys := S', mem := mem' } done := by
  have hindex := hok.indexStep hs
  have hcomp : M.computed = [] ∨ S'.disp.call = M.sys.disp.call :=
    (call_of_step hs hkernel).imp_left h.computed
  have handed : M.sys.disp.Alive → (∀ done, GroupsAt M.sys.disp done → Handed M.sys S'.disp done) →
      ∃ done, RowsOk K { M with sys := S', mem := mem' } done := by
    intro hD hH
    obtain ⟨done, hrows⟩ := h.rows hD
    exact ⟨done, hrows.handed (hH done hrows.toGroupsAt) hok hp hindex hins (hok.disp.layer hD.1)
      hcomp mem'⟩
  rcases step_disp_eq hs with ⟨T, hT⟩ | hD
  · rw [hT] at hD'
    refine handed hD' fun done hg => ?_
    rw [hT]
    exact ⟨⟨hg.groups, hg.serving, hg.finished, hg.calls⟩, Frame.SameGroups.refl _,
      fun x hx => .inl ⟨hx, rfl, List.Subset.refl _⟩⟩
  · cases a with
    | serve l seq req => exact absurd rfl (hserve l seq req)
    | kernel rc => exact absurd rfl (hkernel rc)
    | run =>
      rcases Classical.em (M.sys.disp.pc = .group) with hpc | hpc
      · obtain ⟨D, hrun, rfl⟩ := Option.map_eq_some_iff.mp hs
        obtain rfl : M.sys.disp.runGroup = D := by
          rw [Dispatcher.run, hpc] at hrun
          exact Option.some.inj hrun
        have hcall : M.sys.disp.call = none := by rw [Dispatcher.call, hpc]
        have hrows := rowsOk_runGroup hok h.reads hpc hD'.2.2.2 (h.computed hcall)
        exact ⟨[], hrows.toGroupsAt, hrows.rows, hrows.records, hrows.computed⟩
      · have halive := alive_of_run hD hD' hpc h.reads.failed
        exact handed halive fun done hg => handed_run hg hok hD halive hD'
    | submit r =>
      exact handed (alive_of_submit hD hD') fun done hg => handed_submit hg hD hD'
    | complete i res =>
      obtain ⟨R, hR, hD⟩ := hD
      rw [hD] at hD'
      refine handed hD' fun done hg => ?_
      rw [hD]
      exact handed_goto hg (Frame.SameGroups.refl _) rfl rfl (reads_complete hR)
        (fun hsv => ⟨hsv, rfl⟩) hg.finished (.inr ⟨rfl, rfl⟩)
    | _ => exact hD.elim

/-- A step of the tier that leaves the staging area alone, with what it writes to memory. -/
theorem ServeOk.tierStep (h : ServeOk K M) {a : Act} (ha : PinsRespected M.sys a)
    (hs : M.sys.step a = some S') (hserve : ∀ l seq req, a ≠ .serve l seq req)
    (hkernel : ∀ rc, a ≠ .kernel rc) (hmem : TierOk K M.sys mem)
    (hfull : ∀ i, a = .complete i recordBytes → ∀ r, M.sys.disp.ring.flying[i]? = some r →
      mem (M.sys.tier.tail.addr r.slot) = K.file r.layer r.expert)
    (hacq : ∀ i, a = .acquireRead i true → ∀ r, M.sys.acquiring[i]? = some r →
      mem (M.sys.tier.tail.addr r.slot) = K.file r.layer r.expert) :
    ServeOk K { M with sys := S', mem := mem } := by
  have hT := hmem.step ha hs hfull hacq
  obtain ⟨c, hc⟩ := hmem.sys
  refine ⟨hT, fun hcall => ?_, fun hD' => ?_⟩
  · rcases call_of_step hs hkernel with hnone | hsame
    · exact h.computed hnone
    · exact h.computed (hsame.symm.trans hcall)
  · exact h.rows_step hc hT.pins hs hserve hkernel (fun l e s hi =>
      ⟨(hmem.inserted hacq hi).1, (hmem.inserted hacq hi).2.2⟩) mem hD'

/-- A step that only writes memory. -/
theorem ServeOk.write (h : ServeOk K M) {p : ℕ} {b : B}
    (hmem : TierOk K M.sys (Function.update M.mem p b)) : ServeOk K (M.write p b) := by
  refine ⟨hmem, h.computed, fun hD => ?_⟩
  obtain ⟨done, hrows⟩ := h.rows hD
  exact ⟨done, hrows.toGroupsAt, hrows.rows, hrows.records, hrows.computed⟩

/-- The kernel computes one pair. -/
theorem ServeOk.pair (h : ServeOk K M) {p : ℕ} (hs : M.step K (.pair p) = some M') :
    ServeOk K M' := by
  simp only [MemSys.step] at hs
  obtain ⟨call, hcall, hs⟩ := Option.bind_eq_some_iff.mp hs
  obtain ⟨q, hq, hs⟩ := Option.bind_eq_some_iff.mp hs
  obtain ⟨r, hr, hs⟩ := Option.bind_eq_some_iff.mp hs
  split at hs
  · simp at hs
  · obtain rfl := Option.some.inj hs
    refine ⟨h.toTierOk, fun hnone => ?_, fun hD => ?_⟩
    · change M.sys.disp.call = none at hnone
      rw [hcall] at hnone
      simp at hnone
    · obtain ⟨c, hc⟩ := h.sys
      obtain ⟨done, hrows⟩ := h.rows hD
      exact ⟨done, hrows.pair h.index (hc.disp.layer hD.1) (h.reads.order hD.1) hcall hq hr⟩

/-- A kernel call ends. -/
theorem ServeOk.kernel (h : ServeOk K M) {rc : ℤ} (ha : PinsRespected M.sys (.kernel rc))
    (hs : M.sys.step (.kernel rc) = some S')
    (hall : rc = 0 → ∀ call, M.sys.disp.call = some call →
      ∀ j < call.pairs.length, j ∈ M.computed) :
    ServeOk K { M with sys := S', computed := [] } := by
  have hT := h.toTierOk.step ha hs (fun _ hc => by simp at hc) fun _ hc => by simp at hc
  obtain ⟨D', hD, rfl⟩ := Option.map_eq_some_iff.mp hs
  obtain ⟨call, next, hcall, rfl, hnext⟩ := kernel_cases hD
  refine ⟨hT, fun _ => rfl, fun hD' => ?_⟩
  obtain ⟨-, -, -, hst⟩ := hD'
  have hrc : rc = 0 := by
    by_contra hne
    simp [Dispatcher.called, hne] at hst
  have halive : M.sys.disp.Alive := by
    rw [Dispatcher.Alive]
    refine ⟨?_, ?_, ?_, ?_⟩
    · rcases hnext with ⟨hpc, -⟩ | ⟨hpc, -⟩ | ⟨hpc, -⟩ <;> rw [hpc] <;> decide
    · rcases hnext with ⟨hpc, -⟩ | ⟨hpc, -⟩ | ⟨hpc, -⟩ <;> rw [hpc] <;> decide
    · rcases hnext with ⟨hpc, -⟩ | ⟨hpc, -⟩ | ⟨hpc, -⟩ <;> rw [hpc] <;> decide
    · simpa [Dispatcher.called, hrc] using hst
  obtain ⟨done, hrows⟩ := h.rows halive
  exact ⟨_, hrows.kernel (h.reads.order halive.1) hcall hnext rc (hall hrc call hcall)⟩

/-- **One step** of the tier with its memory. -/
theorem ServeOk.step (h : ServeOk K M) {a : MemAct B A} (ha : RowsRespected M a)
    (hs : M.step K a = some M') : ServeOk K M' := by
  have hT := h.toTierOk
  cases a with
  | serve l seq req acts =>
    obtain ⟨S', hS, rfl⟩ := Option.map_eq_some_iff.mp hs
    have hT' := hT.step (ha _ rfl) hS (fun _ hc => by simp at hc) fun _ hc => by simp at hc
    obtain ⟨D, hD, rfl⟩ := Option.map_eq_some_iff.mp hS
    -- between two requests no kernel call is under way
    have hcall : M.sys.disp.call = none := by
      have hD' := hD
      rw [Dispatcher.serve] at hD'
      split at hD'
      · next hpc => rw [Dispatcher.call, hpc.1]
      · simp at hD'
    exact ⟨hT', fun _ => h.computed hcall, fun hA =>
      ⟨[], rowsOk_serve hD hA (h.computed hcall) acts⟩⟩
  | pair p => exact h.pair hs
  | transfer i b =>
    obtain ⟨r, hr, rfl⟩ := Option.map_eq_some_iff.mp hs
    exact h.write (hT.transfer (List.mem_of_getElem? hr) b)
  | acquireTransfer i b =>
    obtain ⟨r, hr, rfl⟩ := Option.map_eq_some_iff.mp hs
    exact h.write (hT.acquireTransfer (List.mem_of_getElem? hr) b)
  | sys a =>
    have ha := ha a rfl
    cases a with
    | serve _ _ _ => simp [MemSys.step] at hs
    | kernel rc =>
      simp only [MemSys.step] at hs
      split at hs
      · next hcond =>
        obtain ⟨S', hS, rfl⟩ := Option.map_eq_some_iff.mp hs
        refine h.kernel ha hS fun hrc call hcall j hj => ?_
        -- the call succeeds only when all its pairs have been computed
        rcases hcond with hne | hall
        · exact absurd hrc hne
        · rw [hcall] at hall
          simpa using List.all_eq_true.mp hall j (List.mem_range.mpr hj)
      · simp at hs
    | complete i res =>
      obtain ⟨r, hr, hs⟩ := Option.bind_eq_some_iff.mp hs
      obtain ⟨S', hS, rfl⟩ := Option.map_eq_some_iff.mp hs
      rcases eq_or_ne res recordBytes with rfl | hres
      · rw [if_pos rfl]
        refine h.tierStep ha hS (by simp) (by simp)
          -- a read that completes in full has written the record of its expert
          (hT.transfer (List.mem_of_getElem? hr) (K.file r.layer r.expert))
          (fun j hj r' hr' => ?_) (by simp)
        obtain rfl : i = j := by simpa using hj
        obtain rfl : r = r' := Option.some.inj (hr.symm.trans hr')
        exact Function.update_self _ _ _
      · rw [if_neg hres]
        exact h.tierStep ha hS (by simp) (by simp) hT (fun j hj => absurd (by simpa using hj)
          fun hc : i = j ∧ res = recordBytes => hres hc.2) (by simp)
    | acquireRead i ok =>
      obtain ⟨r, hr, hs⟩ := Option.bind_eq_some_iff.mp hs
      obtain ⟨S', hS, rfl⟩ := Option.map_eq_some_iff.mp hs
      cases ok with
      | true =>
        rw [if_pos rfl]
        refine h.tierStep ha hS (by simp) (by simp)
          (hT.acquireTransfer (List.mem_of_getElem? hr) (K.file r.layer r.expert)) (by simp)
          fun j hj r' hr' => ?_
        obtain rfl : i = j := by simpa using hj
        obtain rfl : r = r' := Option.some.inj (hr.symm.trans hr')
        exact Function.update_self _ _ _
      | false =>
        rw [if_neg (by decide)]
        exact h.tierStep ha hS (by simp) (by simp) hT (by simp) (by simp)
    | run | submit _ | acquire _ _ | release _ _ _ | prefillFetch _ _ _ | prefillRead _ _
    | prefillRelease _ _ _ =>
      simp only [MemSys.step] at hs
      obtain ⟨S', hS, rfl⟩ := Option.map_eq_some_iff.mp hs
      exact h.tierStep ha hS (by simp) (by simp) hT (by simp) (by simp)

theorem serveOk_start (h : MemStart K M) : ServeOk K M := by
  have hpc := h.start.pc
  obtain ⟨hsq, hfl, hcq⟩ := h.start.ring
  refine ⟨⟨⟨_, sysOk_start h.start⟩, pinsOk_start h.start, indexOk_start h, ?_⟩, fun _ => h.computed,
    fun hD => absurd hpc hD.1⟩
  refine ⟨fun hg => ?_, fun hi => absurd hpc hi, fun hd => ?_, fun r hr => ?_, fun hr => ?_,
    fun hr => ?_, fun r hr => ?_⟩
  · simp [hpc] at hg
  · simp [hpc] at hd
  · simp [hcq] at hr
  · simp [hpc, Pc.reading] at hr
  · simp [hpc, Pc.reading] at hr
  · simp [h.start.calls.1] at hr

/-- The runs whose steps respect the pins, and that begin no request over a read that waits. -/
def rowsSystem (K : Store B A Y) : TransitionSystem (MemSys B A Y) (MemAct B A) :=
  (memSystem K).onlySteps RowsRespected

theorem serveOk_of_reachable (h : (rowsSystem K).Reachable M) : ServeOk K M := by
  have hinv : (rowsSystem K).Invariant (ServeOk K) :=
    ⟨fun M hM => serveOk_start hM, fun _ _ _ _ hok ⟨ha, hs⟩ => hok.step ha hs⟩
  exact hinv.holds h

/-- **An acknowledged request has all its rows.** In every run whose steps respect the pins
and that begins no request while a prepared read waits to be submitted, whatever the order in
which the reads complete: when `serve` is about to acknowledge status 0, every row of the
request is the kernel's row of its pair, and every pair was handed to the kernel once. -/
theorem acked_rows (h : (rowsSystem K).Reachable M) (hpc : M.sys.disp.pc = .ack)
    (hst : M.sys.disp.frame.status = 0) :
    (∀ i < M.sys.disp.frame.req.nPairs.toNat, M.RowDone K i) ∧
      (M.sys.disp.frame.calls.flatMap KernelCall.orow).Perm
        (List.range M.sys.disp.frame.req.nPairs.toNat) := by
  have hok := serveOk_of_reachable h
  have halive : M.sys.disp.Alive := by
    rw [Dispatcher.Alive, hpc]
    exact ⟨by decide, by decide, by decide, hst⟩
  obtain ⟨done, hrows⟩ := hok.rows halive
  have horder := hok.reads.order halive.1
  have hdone := hrows.finished (.inr hpc)
  have hcover := hrows.groups.rows
  refine ⟨fun i hi => ?_, ?_⟩
  · have hmem : i ∈ M.sys.disp.frame.order := horder.mem_iff.mpr (List.mem_range.mpr hi)
    rw [← hcover] at hmem
    obtain ⟨x, hx, hmem⟩ := List.mem_flatMap.mp hmem
    obtain ⟨k, hk, rfl⟩ := List.mem_map.mp hmem
    exact hrows.rows x (hdone.mem_iff.mpr hx) k hk
  · rw [hrows.calls]
    exact (hdone.flatMap_right _).trans (hcover.symm ▸ horder)

/-! ### Runs of a small tier -/

/-- A step that respects the pins. -/
structure PinsKept (S : Sys) (a : Act) : Prop where
  disciplined : Disciplined S a
  own : OwnPins S a
  bounded : ∀ s, S.holders.count s + a.takes < 2 ^ 32

/-- The runs whose steps respect the pins. -/
def pinsKeptSystem (K : Store B A Y) : TransitionSystem (MemSys B A Y) (MemAct B A) :=
  (memSystem K).onlySteps fun M a => ∀ b, a.tierStep = some b → PinsKept M.sys b

/-- A step of the dispatcher, its kernel or its reads. -/
def MemAct.ofDispatcher : MemAct B A → Bool
  | .serve _ _ _ _ | .pair _ | .transfer _ _ | .sys .run | .sys (.kernel _) | .sys (.submit _)
  | .sys (.complete _ _) => true
  | _ => false

/-- Few pins are held. -/
def FewPins (M : MemSys B A Y) (a : MemAct B A) : Prop :=
  a.ofDispatcher = true ∧ M.sys.holders.length + maxPairs.toNat < 2 ^ 32

instance (M : MemSys B A Y) (a : MemAct B A) : Decidable (FewPins M a) :=
  inferInstanceAs (Decidable (_ ∧ _))

theorem FewPins.pinsKept {a : MemAct B A} (h : FewPins M a) :
    ∀ b, a.tierStep = some b → PinsKept M.sys b := by
  obtain ⟨ha, hlen⟩ := h
  have hcount : ∀ s, M.sys.holders.count s + maxPairs.toNat < 2 ^ 32 := fun s =>
    lt_of_le_of_lt (Nat.add_le_add_right List.count_le_length _) hlen
  have hzero : ∀ s, M.sys.holders.count s + 0 < 2 ^ 32 := fun s =>
    lt_of_le_of_lt (Nat.add_le_add_left (Nat.zero_le _) _) (hcount s)
  intro b hb
  cases a with
  | serve l seq req acts =>
    obtain rfl := Option.some.inj hb
    exact ⟨trivial, trivial, hzero⟩
  | pair p => simp [MemAct.tierStep] at hb
  | transfer i x => simp [MemAct.tierStep] at hb
  | acquireTransfer i x => simp [MemAct.tierStep] at hb
  | sys a =>
    obtain rfl := Option.some.inj hb
    cases a with
    | run => exact ⟨trivial, trivial, hcount⟩
    | kernel _ | submit _ | complete _ _ => exact ⟨trivial, trivial, hzero⟩
    | _ => simp [MemAct.ofDispatcher] at ha

/-- Few pins are held, and no read waits when a request is begun. -/
def FewPinsClean (M : MemSys B A Y) (a : MemAct B A) : Prop :=
  FewPins M a ∧ (a.tierStep.all fun b => decide (CleanStart M.sys b)) = true

instance (M : MemSys B A Y) (a : MemAct B A) : Decidable (FewPinsClean M a) :=
  inferInstanceAs (Decidable (_ ∧ _))

theorem FewPinsClean.respected {a : MemAct B A} (h : FewPinsClean M a) : RowsRespected M a := by
  intro b hb
  obtain ⟨hd, ho, hc⟩ := h.1.pinsKept b hb
  have hclean := h.2
  rw [hb] at hclean
  exact ⟨hd, ho, of_decide_eq_true hclean, hc⟩

/-- The store of a small tier: three records, and a kernel that adds up. -/
def smallStore : Store ℕ ℕ ℕ := ⟨fun _ e => 100 + e, fun b a w => b + a + w⟩

/-- `smallSys` with its memory: every slot holds the record of expert 0. -/
def smallMem : MemSys ℕ ℕ ℕ := ⟨smallSys, fun _ => 100, fun _ => 0, [], fun _ _ => 0⟩

theorem memStart_smallMem : MemStart smallStore smallMem where
  start := start_smallSys
  bytes l hl e p hp := by
    have hl' : l < 1 := hl
    obtain rfl : l = 0 := by omega
    have hrec : ((storeTailAdopt smallSetup).layers 0).records e =
        (smallSetup.layers 0).records e := rfl
    obtain ⟨-, rfl, -⟩ := records_smallSetup (hrec.symm.trans hp)
    rfl
  computed := rfl

/-- A request of `smallMem` with one cold and one resident expert, served up to its
acknowledgement. -/
def ackedRun : List (MemAct ℕ ℕ) :=
  [.serve 0 1 ⟨2, 1, fun i => ⟨0, 1 - i, 5⟩, 0, fun _ => 0⟩ fun _ => 7, .sys .run, .sys .run,
    .sys (.submit (.accepted 1)), .pair 0, .sys (.kernel 0), .sys .run, .sys .run,
    .sys (.complete 0 4700160), .sys .run, .sys .run, .sys .run, .pair 0, .sys (.kernel 0),
    .sys .run, .sys .run, .sys .run]

theorem acked_rows_small : ∃ M, (rowsSystem smallStore).Reachable M ∧
    M.sys.disp.frame.req.nPairs = 2 ∧ (∀ i < 2, M.RowDone smallStore i) ∧
      (M.sys.disp.frame.calls.flatMap KernelCall.orow).Perm (List.range 2) := by
  obtain ⟨M, hM, hP⟩ := TransitionSystem.exists_reachable_of_replay
    (fun (M : MemSys ℕ ℕ ℕ) (a : MemAct ℕ ℕ) => M.step smallStore a) FewPinsClean memStart_smallMem
    ackedRun (fun M => M.sys.disp.pc == .ack && M.sys.disp.frame.status == 0 &&
      M.sys.disp.frame.req.nPairs == 2) (by decide)
  simp only [Bool.and_eq_true, beq_iff_eq] at hP
  obtain ⟨⟨hpc, hst⟩, hn⟩ := hP
  have hR : (rowsSystem smallStore).Reachable M := hM.mono fun _ _ ha => ha.respected
  obtain ⟨hrows, hperm⟩ := acked_rows hR hpc hst
  rw [hn] at hrows hperm
  exact ⟨M, hR, hn, hrows, hperm⟩

/-- Two requests of `smallMem`. The first, for expert 1, fails as `io_uring_enter` refuses its
read; the read stays prepared. The second, for expert 2, submits both reads; the first
request's completes, and is taken for the second's. -/
def staleReadRun : List (MemAct ℕ ℕ) :=
  [.serve 0 1 ⟨1, 1, fun _ => ⟨0, 1, 5⟩, 0, fun _ => 0⟩ fun _ => 7, .sys .run, .sys .run,
    .sys (.submit .error), .sys .run, .sys .run, .sys .run, .sys .run, .sys .run,
    .serve 0 2 ⟨1, 1, fun _ => ⟨0, 2, 5⟩, 0, fun _ => 0⟩ fun _ => 7, .sys .run, .sys .run,
    .sys (.submit (.accepted 2)), .sys .run, .sys .run, .sys (.complete 0 4700160), .sys .run,
    .sys .run, .sys .run, .pair 0, .sys (.kernel 0), .sys .run, .sys .run, .sys .run]

/-- **A row of a slot that was not read.** In a run whose steps respect the pins, and in which
all reads that complete are full, a request is about to be acknowledged with status 0 and its
row is not the kernel's row of its pair. -/
theorem stale_read_row : ∃ M, (pinsKeptSystem smallStore).Reachable M ∧
    M.sys.disp.pc = .ack ∧ M.sys.disp.frame.status = 0 ∧ M.sys.disp.frame.req.nPairs = 1 ∧
      ¬ M.RowDone smallStore 0 := by
  obtain ⟨M, hM, hP⟩ := TransitionSystem.exists_reachable_of_replay
    (fun (M : MemSys ℕ ℕ ℕ) (a : MemAct ℕ ℕ) => M.step smallStore a) FewPins memStart_smallMem
    staleReadRun (fun M => M.sys.disp.pc == .ack && M.sys.disp.frame.status == 0 &&
      M.sys.disp.frame.req.nPairs == 1 &&
      M.staging M.sys.disp.frame.layer 0 != M.row smallStore 0) (by decide)
  simp only [Bool.and_eq_true, beq_iff_eq, bne_iff_ne, ne_eq] at hP
  obtain ⟨⟨⟨hpc, hst⟩, hn⟩, hrow⟩ := hP
  exact ⟨M, hM.mono fun _ _ ha => ha.pinsKept, hpc, hst, hn, hrow⟩

end CpuTier

end VllmMoet
