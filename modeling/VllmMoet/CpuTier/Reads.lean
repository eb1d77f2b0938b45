import VllmMoet.CpuTier.Rows

/-!
# The reads of a request

A read in the ring is of the layer of the request in progress and of the expert its tag leads
to, and a completed full read has its record in its slot (`ReadsOk`); so what a step registers
is in memory (`ReadsOk.inserted`). This is kept also while a failed request is drained.
-/

namespace VllmMoet

namespace CpuTier

variable {B A Y : Type*} {K : Store B A Y} {c : Config} {T T' : Tier} {R R' : Ring} {F F' : Frame}
  {D D' : Dispatcher} {S S' : Sys} {M M' : MemSys B A Y} {ns : ℕ → List ℕ} {tg : List ℕ}
  {e i k l p s x : ℕ} {mem : ℕ → B}

/-! ### Frames -/

/-- What the grouping section alone changes. -/
structure Frame.SameGroups (F F' : Frame) : Prop where
  layer : F'.layer = F.layer
  req : F'.req = F.req
  order : F'.order = F.order
  nExperts : F'.nExperts = F.nExperts
  eid : F'.eid = F.eid
  mPer : F'.mPer = F.mPer
  off : F'.off = F.off
  arrays : F'.tok = F.tok ∧ F'.pw = F.pw ∧ F'.orow = F.orow
  lastE : F'.lastE = F.lastE
  idx : F'.coldIdx = F.coldIdx ∧ F'.resIdx = F.resIdx

/-- What changes after the grouping. -/
theorem Frame.sameGroups_later (F : Frame) (status : ℕ) (recs : ℕ → Option ℕ)
    (pinned slotOfCold : List ℕ) (landed : ℕ) (batch : List ℕ) (calls : List KernelCall) :
    F.SameGroups { F with
      status := status
      recs := recs
      pinned := pinned
      slotOfCold := slotOfCold
      landed := landed
      batch := batch
      calls := calls } :=
  ⟨rfl, rfl, rfl, rfl, rfl, rfl, rfl, ⟨rfl, rfl, rfl⟩, rfl, rfl, rfl⟩

theorem Frame.SameGroups.refl (F : Frame) : F.SameGroups F := F.sameGroups_later _ _ _ _ _ _ _

theorem Frame.SameGroups.group (h : F.SameGroups F') (x : ℕ) : F'.group x = F.group x := by
  rw [Frame.group, h.off, h.mPer, Frame.group]

theorem GroupsOk.of_same {is : List ℕ} (h : GroupsOk F is) (hs : F.SameGroups F') :
    GroupsOk F' is := by
  obtain ⟨htok, hpw, horow⟩ := hs.arrays
  obtain ⟨hcold, hres⟩ := hs.idx
  have hgroup : F'.group = F.group := funext hs.group
  refine ⟨⟨?_, ?_, ?_⟩, ?_, ?_, ?_, ?_⟩
  · rw [horow]
    exact h.orow
  · rw [htok, hs.req, horow]
    exact h.tok
  · rw [hpw, hs.req, horow]
    exact h.pw
  · rw [hs.nExperts, hgroup]
    exact h.cover
  · rw [hs.nExperts, hgroup, hs.req, horow, hs.eid]
    exact h.expert
  · rw [hcold, hres, hs.nExperts]
    exact h.split
  · rw [hs.lastE, hs.nExperts, hs.eid, hs.off, hs.mPer]
    exact h.last

/-- The grouping keeps what belongs to the request, and what comes later. -/
theorem groupPairs_frame (is : List ℕ) (k : ℕ) (T : Tier) (F : Frame) :
    (groupPairs is k T F).2.order = F.order ∧ (groupPairs is k T F).2.calls = F.calls ∧
      (groupPairs is k T F).2.req = F.req ∧ (groupPairs is k T F).2.layer = F.layer := by
  induction is generalizing k T F with
  | nil => exact ⟨rfl, rfl, rfl, rfl⟩
  | cons i is ih =>
    rw [groupPairs]
    set e := (F.req.pairs i).expert
    set TF := if F.lastE = some e then (T, F) else groupExpert T { F with lastE := some e } e k
      with hTF
    have h₁ : TF.2.order = F.order ∧ TF.2.calls = F.calls ∧ TF.2.req = F.req ∧
        TF.2.layer = F.layer := by
      rw [hTF]
      split
      · exact ⟨rfl, rfl, rfl, rfl⟩
      · simp only [groupExpert]
        repeat' split
        all_goals exact ⟨rfl, rfl, rfl, rfl⟩
    split
    · exact h₁
    · obtain ⟨ho, hc, hr, hl⟩ := ih (k + 1) TF.1 (TF.2.addPair k i)
      exact ⟨ho.trans h₁.1, hc.trans h₁.2.1, hr.trans h₁.2.2.1, hl.trans h₁.2.2.2⟩

/-- The group a read of the ring is for. -/
def Frame.coldOf (F : Frame) (r : Read) : ℕ := F.coldIdx.getD r.ud 0

/-- The read that is queued for the `j`-th of the slots `issue_some` takes. -/
def Frame.readOf (F : Frame) (j s : ℕ) : Read :=
  ⟨F.layer, F.eid (F.coldIdx.getD (F.issued + j) 0), s, F.issued + j⟩

/-- What `issue_some` queues. -/
theorem exists_issued (fuel : ℕ) (T : Tier) (R : Ring) (F : Frame) :
    ∃ ss : List ℕ, ss.length ≤ fuel ∧
      (issueLoop fuel T R F).2.1 = { R with sq := R.sq ++ ss.mapIdx F.readOf } ∧
      (issueLoop fuel T R F).2.2 = { F with slotOfCold := F.slotOfCold ++ ss } := by
  induction fuel generalizing T R F with
  | zero => exact ⟨[], le_rfl, by simp [issueLoop], by simp [issueLoop]⟩
  | succ fuel ih =>
    rw [issueLoop]
    split
    · exact ⟨[], Nat.zero_le _, by simp, by simp⟩
    · next s fs hfree =>
      split
      · exact ⟨[], Nat.zero_le _, by simp, by simp⟩
      · obtain ⟨ss, hlen, hR, hF⟩ := ih (T.setFree fs)
          (R.prepRead ⟨F.layer, F.eid (F.coldIdx.getD F.issued 0), s, F.issued⟩)
          { F with slotOfCold := F.slotOfCold ++ [s] }
        refine ⟨s :: ss, by simpa using hlen, ?_, ?_⟩
        · rw [hR, List.mapIdx_cons]
          simp only [Ring.prepRead, List.append_assoc, List.singleton_append, Ring.mk.injEq,
            true_and, and_true, List.append_cancel_left_eq, List.cons.injEq]
          refine ⟨rfl, ?_⟩
          refine List.mapIdx_eq_mapIdx_iff.mpr fun j hj => ?_
          simp only [Frame.readOf, Frame.issued, List.length_append, List.length_singleton,
            Nat.add_assoc, Nat.add_comm 1]
        · rw [hF]
          simp

/-! ### The reads -/

/-- What is known of the request and of the reads, also when the request has failed. -/
structure ReadsOk (K : Store B A Y) (S : Sys) (mem : ℕ → B) : Prop where
  entry : S.disp.pc = .group → S.disp.frame =
    Frame.entry S.disp.frame.layer S.disp.frame.seq S.disp.frame.req
  order : S.disp.pc ≠ .idle →
    S.disp.frame.order.Perm (List.range S.disp.frame.req.nPairs.toNat)
  failed : S.disp.pc = .drain → S.disp.frame.status ≠ 0
  full : ∀ r : Read, (r, (recordBytes : ℤ)) ∈ S.disp.ring.cq →
    mem (S.tier.tail.addr r.slot) = K.file r.layer r.expert
  reads : S.disp.pc.reading = true → ∀ r ∈ S.disp.ring.reads, r.layer = S.disp.frame.layer ∧
    r.ud < S.disp.frame.nCold ∧ r.expert = S.disp.frame.eid (S.disp.frame.coldOf r)
  cold : S.disp.pc.reading = true → ∀ x ∈ S.disp.frame.coldIdx,
    (S.tier.layers S.disp.frame.layer).cold (S.disp.frame.eid x) = true
  acquiring : ∀ h ∈ S.acquiring, (S.tier.layers h.layer).cold h.expert = true

/-- The request and the reads stay, and the dispatcher goes on. -/
theorem ReadsOk.goto (h : ReadsOk K S mem) (hc : D.tier.config = S.tier.config)
    (hF : S.disp.frame.SameGroups D.frame) (hidle : D.pc ≠ .idle → S.disp.pc ≠ .idle)
    (hgroup : D.pc ≠ .group) (hfailed : D.pc = .drain → D.frame.status ≠ 0)
    (hcq : ∀ x ∈ D.ring.cq, x ∈ S.disp.ring.cq)
    (hreading : D.pc.reading = true → S.disp.pc.reading = true)
    (hreads : D.pc.reading = true → ∀ r ∈ D.ring.reads, r ∈ S.disp.ring.reads ∨
      (r.layer = S.disp.frame.layer ∧ r.ud < S.disp.frame.nCold ∧
        r.expert = S.disp.frame.eid (S.disp.frame.coldOf r))) :
    ReadsOk K { S with disp := D } mem where
  entry hg := absurd hg hgroup
  order hi := by
    rw [hF.order, hF.req]
    exact h.order (hidle hi)
  failed := hfailed
  full r hr := by
    rw [addr_of_config hc]
    exact h.full r (hcq _ hr)
  reads hp r hr := by
    simp only [Frame.coldOf, Frame.nCold, hF.layer, hF.eid, hF.idx.1]
    rcases hreads hp r hr with hr | hr
    · exact h.reads (hreading hp) r hr
    · exact hr
  cold hp x hx := by
    rw [hF.idx.1] at hx
    rw [hF.layer, hF.eid, cold_of_config hc]
    exact h.cold (hreading hp) x hx
  acquiring r hr := by
    rw [cold_of_config hc]
    exact h.acquiring r hr

/-- An engine call that keeps the configuration. -/
theorem ReadsOk.setTier (h : ReadsOk K S mem) (hc : T.config = S.tier.config)
    {acquiring : List Held} (hq : ∀ r ∈ acquiring, (S.tier.layers r.layer).cold r.expert = true)
    (acquired : List Held) (fetching fetched : List Fetch) (leaked : List ℕ) :
    ReadsOk K ⟨{ S.disp with tier := T }, acquiring, acquired, fetching, fetched, leaked⟩ mem where
  entry := h.entry
  order := h.order
  failed := h.failed
  full r hr := by
    rw [addr_of_config hc]
    exact h.full r hr
  reads := h.reads
  cold hp x hx := by
    rw [cold_of_config hc]
    exact h.cold hp x hx
  acquiring r hr := by
    rw [cold_of_config hc]
    exact hq r hr

/-- A request that is taken up has no read yet. -/
theorem ReadsOk.serve (h : ReadsOk K S mem) {seq : ℕ} {req : Request}
    (hs : S.disp.serve l seq req = some D) : ReadsOk K { S with disp := D } mem := by
  rw [Dispatcher.serve] at hs
  split at hs
  · obtain rfl := Option.some.inj hs
    refine ⟨fun _ => rfl, fun _ => List.perm_insertionSort _ _, fun hd => ?_, h.full, fun hr => ?_,
      fun hr => ?_, h.acquiring⟩
    · simp only at hd
      split at hd <;> simp at hd
    · simp only at hr
      split at hr <;> simp [Pc.reading] at hr
    · simp only at hr
      split at hr <;> simp [Pc.reading] at hr
  · simp at hs

/-- The grouping section finds the experts it can fetch. -/
theorem ReadsOk.runGroup (h : ReadsOk K S mem) (hok : SysOk c S) (hpc : S.disp.pc = .group) :
    ReadsOk K { S with disp := S.disp.runGroup } mem := by
  have hsame := sameIndex_groupPairs S.disp.frame.order 0 S.disp.tier S.disp.frame
  obtain ⟨horder, -, hreq, hlay⟩ := groupPairs_frame S.disp.frame.order 0 S.disp.tier S.disp.frame
  obtain ⟨hfl, hcq⟩ := hok.disp.quiet (by rw [hpc]; rfl)
  obtain ⟨hsq, -⟩ := hok.disp.early (by rw [hpc]; rfl)
  have hreads : S.disp.ring.reads = [] := by simp [Ring.reads, hsq, hfl, hcq]
  refine ⟨fun hg => ?_, fun _ => ?_, fun hd => ?_, fun r hr => ?_, fun _ r hr => ?_,
    fun hr x hx => ?_, fun r hr => ?_⟩
  · simp only [Dispatcher.runGroup] at hg
    repeat' split at hg
    all_goals simp at hg
  · simp only [Dispatcher.runGroup, horder, hreq]
    exact h.order (by rw [hpc]; decide)
  · simp only [Dispatcher.runGroup] at hd
    repeat' split at hd
    all_goals simp at hd
  · change _ ∈ S.disp.ring.cq at hr
    simp [hcq] at hr
  · change r ∈ S.disp.ring.reads at hr
    simp [hreads] at hr
  · have hst : (groupPairs S.disp.frame.order 0 S.disp.tier S.disp.frame).2.status = 0 := by
      by_contra hne
      simp [Dispatcher.runGroup, hne, Pc.reading] at hr
    have hon : S.disp.tier.tail.on = true := (congrArg Config.on hok.disp.config).trans hok.disp.on
    obtain ⟨-, hl⟩ := groupsOk_of_entry hon (h.entry hpc) hst
    simp only [Dispatcher.runGroup, Sys.tier, hlay, cold_of_config hsame.config]
    exact hl.cold x hx
  · simp only [Dispatcher.runGroup, Sys.tier, cold_of_config hsame.config]
    exact h.acquiring r hr

/-- The reads that are issued are those of the cold groups, in their order. -/
theorem ReadsOk.runIssue (h : ReadsOk K S mem) (hpc : S.disp.pc.reading = true) {next : Pc}
    (hnext : next = .submit ∨ next = .submitIdle ∨ next = .submitNext) :
    ReadsOk K { S with disp := S.disp.runIssue next } mem := by
  obtain ⟨ss, hlen, hR, hF⟩ := exists_issued (S.disp.frame.nCold - S.disp.frame.issued)
    S.disp.tier S.disp.ring S.disp.frame
  have hne : next ≠ .idle ∧ next ≠ .group ∧ next ≠ .drain := by
    rcases hnext with rfl | rfl | rfl <;> decide
  refine h.goto (D := S.disp.runIssue next) (sameIndex_runIssue S.disp next).config ?_ (fun _ => ?_)
    hne.2.1 (fun hd => absurd hd hne.2.2) (fun x hx => ?_) (fun _ => hpc) fun _ r hr => ?_
  · simp only [Dispatcher.runIssue, issueSome, hF]
    exact (Frame.sameGroups_later _ _ _ _ _ _ _ _)
  · rintro hidle
    simp [hidle, Pc.reading] at hpc
  · simp only [Dispatcher.runIssue, issueSome, hR] at hx
    exact hx
  · simp only [Dispatcher.runIssue, issueSome, hR, Ring.reads, List.mem_append] at hr ⊢
    rcases hr with ((hr | hr) | hr) | hr
    · exact .inl (.inl (.inl hr))
    · obtain ⟨j, hj, rfl⟩ := List.mem_mapIdx.mp hr
      refine .inr ⟨rfl, ?_, rfl⟩
      simp only [Frame.readOf]
      omega
    · exact .inl (.inl (.inr hr))
    · exact .inl (.inr hr)

/-- Unpinning changes no read. -/
theorem ReadsOk.runUnpin (h : ReadsOk K S mem) (hok : SysOk c S) (hidle : S.disp.pc ≠ .idle)
    {next : Pc} (hnext : next ≠ .group ∧ next ≠ .drain)
    (hr : next.reading = true → S.disp.pc.reading = true) :
    ReadsOk K { S with disp := S.disp.runUnpin next } mem := by
  have hstep : IndexStep S.disp.tier (S.disp.runUnpin next).tier NoInsert :=
    hok.disp.indexStep_unpin hidle next
  exact h.goto (D := S.disp.runUnpin next) hstep.config
    (Frame.sameGroups_later _ _ _ _ _ _ _ _) (fun _ => hidle) hnext.1
    (fun hd => absurd hd hnext.2) (fun _ => id) hr fun _ _ hr => .inl hr

/-- A step that moves the program counter, and the frame with its groups. -/
theorem ReadsOk.move (h : ReadsOk K S mem) {next : Pc} {F : Frame} (hF : S.disp.frame.SameGroups F)
    (hidle : S.disp.pc ≠ .idle) (hnext : next ≠ .group) (hd : next = .drain → F.status ≠ 0)
    (hr : next.reading = true → S.disp.pc.reading = true) {uses : List Use} {misses : List Miss}
    {acks : List Ack} :
    ReadsOk K { S with disp := ⟨S.disp.tier, S.disp.ring, next, F, uses, misses, acks⟩ } mem :=
  h.goto (D := ⟨S.disp.tier, S.disp.ring, next, F, uses, misses, acks⟩) rfl hF (fun _ => hidle) hnext
    hd (fun _ => id) hr fun _ _ hr => .inl hr

theorem batchPc_cases (F : Frame) : (Dispatcher.batchPc F = .forwardBatch ∧ F.batch ≠ [] ∧
    F.status = 0) ∨ (Dispatcher.batchPc F = .unpinBatch ∧ (F.status = 0 → F.batch = [])) := by
  rw [Dispatcher.batchPc]
  split
  · next h => exact .inl ⟨rfl, h⟩
  · next h => exact .inr ⟨rfl, fun hst => Classical.not_not.mp fun hb => h ⟨hb, hst⟩⟩

/-- A record that lands leaves the groups as they are. -/
theorem sameGroups_land (T : Tier) (F : Frame) (k : ℕ) : F.SameGroups (land T F k).2 := by
  simp only [land]
  split
  · exact Frame.SameGroups.refl F
  · exact (Frame.sameGroups_later _ _ _ _ _ _ _ _)

/-- A completion that is popped lands or fails its request. -/
theorem ReadsOk.runReap (h : ReadsOk K S mem) (hok : SysOk c S) (hpc : S.disp.pc = .reap) :
    ReadsOk K { S with disp := S.disp.runReap } mem := by
  have hidle : S.disp.pc ≠ .idle := by rw [hpc]; decide
  have hreading : S.disp.pc.reading = true := by rw [hpc]; rfl
  have hconfig := (hok.indexStep_reap hpc).config
  rw [Dispatcher.runReap] at hconfig ⊢
  split
  · split
    · exact h.move (Frame.SameGroups.refl _) hidle (by decide) (fun hd => by simp at hd)
        fun _ => hreading
    · rcases batchPc_cases S.disp.frame with ⟨hb, -⟩ | ⟨hb, -⟩
      · rw [hb]
        exact h.move (Frame.SameGroups.refl _) hidle (by decide) (fun hd => by simp at hd)
          fun _ => hreading
      · rw [hb]
        exact h.move (Frame.SameGroups.refl _) hidle (by decide) (fun hd => by simp at hd)
          fun _ => hreading
  · next r res cq hcq =>
    have hp := reads_pop hcq
    have hsub : ∀ r' ∈ { S.disp.ring with cq := cq }.reads, r' ∈ S.disp.ring.reads :=
      fun r' hr' => hp.mem_iff.mpr (List.mem_cons_of_mem _ hr')
    have hcq' : ∀ x ∈ cq, x ∈ S.disp.ring.cq := fun x hx => by simp [hcq, hx]
    simp only [hcq] at hconfig
    simp only
    split
    · next hres =>
      rw [if_pos hres] at hconfig
      refine h.goto hconfig ?_ (fun _ => hidle) (by rw [hpc]; decide)
        (fun hd => ?_) hcq' (fun _ => hreading) fun _ r' hr' => .inl (hsub r' hr')
      · exact (Frame.sameGroups_later _ _ _ _ _ _ _ _)
      · simp [hpc] at hd
    · next hres =>
      rw [if_neg hres] at hconfig
      refine h.goto hconfig (sameGroups_land S.disp.tier S.disp.frame r.ud) (fun _ => hidle)
        (by rw [hpc]; decide) (fun hd => ?_) hcq' (fun _ => hreading)
        fun _ r' hr' => .inl (hsub r' hr')
      simp [hpc] at hd

/-- The dispatcher's own steps. -/
theorem ReadsOk.run (h : ReadsOk K S mem) (hok : SysOk c S) (hs : S.disp.run = some D) :
    ReadsOk K { S with disp := D } mem := by
  have hconfig := (hok.indexStep_run hs).config
  have hsame := Frame.SameGroups.refl S.disp.frame
  rw [Dispatcher.run] at hs
  cases hpc : S.disp.pc <;> simp only [hpc, reduceCtorEq, Option.some.injEq] at hs
  case group => exact hs ▸ h.runGroup hok hpc
  case issue => exact hs ▸ h.runIssue (by rw [hpc]; rfl) (.inl rfl)
  case unpinResident =>
    exact hs ▸ h.runUnpin hok (by rw [hpc]; decide) (by decide) fun _ => by rw [hpc]; rfl
  case loop =>
    subst hs
    rw [Dispatcher.runLoop]
    refine h.move hsame (by rw [hpc]; decide) ?_ (fun hd => ?_) fun _ => by rw [hpc]; rfl
    · repeat' split
      all_goals decide
    · split at hd
      · split at hd <;> simp at hd
      · split at hd
        · assumption
        · simp at hd
  case issueIdle => exact hs ▸ h.runIssue (by rw [hpc]; rfl) (.inr (.inl rfl))
  case wait =>
    subst hs
    refine h.move (F := { S.disp.frame with batch := [] })
      (Frame.sameGroups_later _ _ _ _ _ _ _ _) (by rw [hpc]; decide) ?_
      (fun hd => ?_) fun _ => by rw [hpc]; rfl
    · split <;> decide
    · split at hd <;> simp at hd
  case reap => exact hs ▸ h.runReap hok hpc
  case issueNext => exact hs ▸ h.runIssue (by rw [hpc]; rfl) (.inr (.inr rfl))
  case unpinBatch =>
    subst hs
    split
    · exact h.move hsame (by rw [hpc]; decide) (by decide) (fun hd => by simp at hd)
        fun _ => by rw [hpc]; rfl
    · exact h.runUnpin hok (by rw [hpc]; decide) (by decide) fun _ => by rw [hpc]; rfl
  case drain =>
    rw [Dispatcher.runDrain] at hs
    split at hs
    · obtain rfl := Option.some.inj hs
      exact h.move hsame (by rw [hpc]; decide) (by decide) (fun hd => by simp at hd)
        fun hr => by simp [Pc.reading] at hr
    · split at hs
      · simp at hs
      · next r res cq hcq =>
        obtain rfl := Option.some.inj hs
        refine h.goto hconfig hsame (fun _ => by rw [hpc]; decide) (by rw [hpc]; decide)
          (fun _ => h.failed hpc) (fun x hx => ?_) (fun hr => ?_) fun hr => ?_
        · -- what is drained are the completions of a failed request
          change x ∈ cq at hx
          simp [hcq, hx]
        · simp [hpc, Pc.reading] at hr
        · simp [hpc, Pc.reading] at hr
  case unpinEnd =>
    subst hs
    split
    · exact h.runUnpin hok (by rw [hpc]; decide) (by decide) fun hr => by simp [Pc.reading] at hr
    · exact h.move hsame (by rw [hpc]; decide) (by decide) (fun hd => by simp at hd)
        fun hr => by simp [Pc.reading] at hr
  case ack =>
    subst hs
    exact h.move hsame (by rw [hpc]; decide) (by decide) (fun hd => by simp at hd)
      fun hr => by simp [Pc.reading] at hr

theorem sameGroups_called (D : Dispatcher) (k : KernelCall) (rc : ℤ) :
    D.frame.SameGroups (D.called k rc) :=
  (Frame.sameGroups_later _ _ _ _ _ _ _ _)

/-- The kernel reads nothing from the store file. -/
theorem ReadsOk.kernel (h : ReadsOk K S mem) {rc : ℤ} (hs : S.disp.kernel rc = some D) :
    ReadsOk K { S with disp := D } mem := by
  rw [Dispatcher.kernel] at hs
  cases hpc : S.disp.pc <;> simp only [hpc, reduceCtorEq, Option.some.injEq] at hs
  case forwardAll =>
    subst hs
    exact h.move (sameGroups_called _ _ _) (by rw [hpc]; decide) (by decide)
      (fun hd => by simp at hd) fun hr => by simp [Pc.reading] at hr
  case forwardResident =>
    subst hs
    exact h.move (sameGroups_called _ _ _) (by rw [hpc]; decide) (by decide)
      (fun hd => by simp at hd) fun _ => by rw [hpc]; rfl
  case forwardBatch =>
    subst hs
    exact h.move (sameGroups_called _ _ _) (by rw [hpc]; decide) (by decide)
      (fun hd => by simp at hd) fun _ => by rw [hpc]; rfl

theorem sameGroups_answered (D : Dispatcher) (a : Submitted) : D.frame.SameGroups (D.answered a) := by
  rw [Dispatcher.answered]
  split
  · exact (Frame.sameGroups_later _ _ _ _ _ _ _ _)
  · exact Frame.SameGroups.refl _

theorem cq_submit {a : Submitted} (hR : R.submit a = some R') : R'.cq = R.cq := by
  cases a with
  | accepted n =>
    simp only [Ring.submit] at hR
    split at hR
    · exact Option.some.inj hR ▸ rfl
    · simp at hR
  | error =>
    simp only [Ring.submit] at hR
    split at hR
    · simp at hR
    · exact Option.some.inj hR ▸ rfl

/-- A submission that fails leaves its reads prepared, and fails the request. -/
theorem ReadsOk.submit (h : ReadsOk K S mem) {a : Submitted} (hs : S.disp.submit a = some D) :
    ReadsOk K { S with disp := D } mem := by
  have hF := sameGroups_answered S.disp a
  have herr : a = .error → (S.disp.answered a).status ≠ 0 := by
    rintro rfl
    simp [Dispatcher.answered]
  rw [Dispatcher.submit] at hs
  split at hs
  · simp at hs
  · next R hR =>
    have hcq := cq_submit hR
    -- a submission moves reads within the ring
    have hreads : ∀ r ∈ R.reads, r ∈ S.disp.ring.reads := fun r => (reads_submit hR).mem_iff.mp
    cases hpc : S.disp.pc <;> simp only [hpc, reduceCtorEq, Option.some.injEq] at hs
    case submit =>
      subst hs
      refine h.goto rfl hF (fun _ => by rw [hpc]; decide) ?_ (fun hd => ?_)
        (fun x hx => hcq ▸ hx) (fun _ => by rw [hpc]; rfl) fun _ r hr => .inl (hreads r hr)
      · simp only
        split <;> decide
      · simp only at hd
        split at hd <;> simp at hd
    case submitIdle =>
      subst hs
      refine h.goto rfl hF (fun _ => by rw [hpc]; decide) ?_ (fun hd => ?_)
        (fun x hx => hcq ▸ hx) (fun _ => by rw [hpc]; rfl) fun _ r hr => .inl (hreads r hr)
      · simp only
        split <;> decide
      · simp only at hd
        split at hd
        · next he => exact herr he
        · simp at hd
    case submitNext =>
      subst hs
      refine h.goto rfl hF (fun _ => by rw [hpc]; decide) ?_ (fun hd => ?_)
        (fun x hx => hcq ▸ hx) (fun _ => by rw [hpc]; rfl) fun _ r hr => .inl (hreads r hr)
      · simp only
        split
        · decide
        · rcases batchPc_cases (S.disp.answered a) with ⟨hb, -⟩ | ⟨hb, -⟩
          · rw [hb]
            decide
          · rw [hb]
            decide
      · simp only at hd
        split at hd
        · next he => exact herr he
        · rcases batchPc_cases (S.disp.answered a) with ⟨hb, -⟩ | ⟨hb, -⟩
          · rw [hb] at hd
            simp at hd
          · rw [hb] at hd
            simp at hd

/-- A completed read is in its slot if it is full. -/
theorem ReadsOk.complete (h : ReadsOk K S mem) {res : ℤ} {r : Read}
    (hr : S.disp.ring.flying[i]? = some r) (hR : S.disp.ring.complete i res = some R)
    (hfull : res = recordBytes → mem (S.tier.tail.addr r.slot) = K.file r.layer r.expert) :
    ReadsOk K { S with disp := { S.disp with ring := R } } mem := by
  obtain ⟨r', hr', rfl⟩ := Option.map_eq_some_iff.mp hR
  obtain rfl : r = r' := Option.some.inj (hr.symm.trans hr')
  refine ⟨h.entry, h.order, h.failed, fun x hx => ?_, fun hp x hx => h.reads hp x ?_, h.cold,
    h.acquiring⟩
  · rcases List.mem_append.mp hx with hx | hx
    · exact h.full x hx
    · obtain ⟨rfl, hres⟩ := Prod.mk.inj (List.mem_singleton.mp hx)
      exact hfull hres.symm
  · simp only [Ring.reads, List.map_append, List.map_cons, List.map_nil, List.mem_append,
      List.mem_singleton] at hx ⊢
    rcases hx with (hx | hx) | hx | rfl
    · exact .inl (.inl hx)
    · exact .inl (.inr (List.eraseIdx_subset hx))
    · exact .inr hx
    · exact .inl (.inr (List.mem_of_getElem? hr))

/-- The engine's calls: a record is only acquired from the store file if it is there. -/
theorem ReadsOk.call (h : ReadsOk K S mem) (hok : SysOk c S) {a : Act} (hs : S.step a = some S')
    (ha : match a with
      | .serve _ _ _ | .run | .kernel _ | .submit _ | .complete _ _ => False
      | _ => True) : ReadsOk K S' mem := by
  have hconfig := (hok.indexStep hs).config
  cases a with
  | serve _ _ _ | run | kernel _ | submit _ | complete _ _ => exact ha.elim
  | acquire layer expert =>
    obtain rfl := Option.some.inj hs
    rw [Sys.acquire]
    split
    · next l e hl he =>
      split
      · split
        · exact h.setTier (config_pinUp _ _) h.acquiring _ _ _ _
        · split
          · next s fs hcold hfree =>
            refine h.setTier (config_setFree _ fs) (fun r hr => ?_) _ _ _ _
            rcases List.mem_append.mp hr with hr | hr
            · exact h.acquiring r hr
            · obtain rfl := List.mem_singleton.mp hr
              -- the branch of the source: only a cold record is acquired by a read
              exact hcold
          · exact h
      · exact h
    · exact h
  | acquireRead i ok =>
    obtain ⟨r, hr, rfl⟩ := Option.map_eq_some_iff.mp hs
    have hrest : ∀ x ∈ S.acquiring.eraseIdx i,
        (S.tier.layers x.layer).cold x.expert = true := fun x hx =>
      h.acquiring x (List.eraseIdx_subset hx)
    revert hconfig
    split
    · simp only
      split
      · exact fun hconfig => h.setTier hconfig hrest _ _ _ _
      · exact fun hconfig => h.setTier hconfig hrest _ _ _ _
    · exact fun hconfig => h.setTier hconfig hrest _ _ _ _
  | release layer expert i =>
    obtain rfl := Option.some.inj hs
    revert hconfig
    rw [Sys.release]
    split
    · split
      · exact fun hconfig => h.setTier hconfig h.acquiring _ _ _ _
      · exact fun _ => h
    · exact fun _ => h
  | prefillFetch layer experts set =>
    obtain rfl := Option.some.inj hs
    revert hconfig
    rw [Sys.prefillFetch]
    split
    · split
      · simp only
        split
        · exact fun hconfig => h.setTier hconfig h.acquiring _ _ _ _
        · exact fun hconfig => h.setTier hconfig h.acquiring _ _ _ _
      · exact fun _ => h
    · exact fun _ => h
  | prefillRead i ok =>
    obtain ⟨f, -, hs⟩ := Option.bind_eq_some_iff.mp hs
    split at hs
    · exact Option.some.inj hs ▸ h.setTier rfl h.acquiring _ _ _ _
    · split at hs
      · exact Option.some.inj hs ▸ h.setTier rfl h.acquiring _ _ _ _
      · simp at hs
  | prefillRelease layer experts i =>
    obtain rfl := Option.some.inj hs
    revert hconfig
    rw [Sys.prefillRelease]
    split
    · split
      · exact fun hconfig => h.setTier hconfig h.acquiring _ _ _ _
      · exact fun _ => h
    · exact fun _ => h

/-- Reading into a slot changes no completed read's slot. -/
theorem ReadsOk.write (h : ReadsOk K S mem)
    (hs : ∀ r res, (r, res) ∈ S.disp.ring.cq → r.slot ≠ s) (b : B) :
    ReadsOk K S (Function.update mem (S.tier.tail.addr s) b) where
  entry := h.entry
  order := h.order
  failed := h.failed
  full r hr := by
    rw [Function.update_of_ne fun ha => hs r _ hr (addr_inj ha)]
    exact h.full r hr
  reads := h.reads
  cold := h.cold
  acquiring := h.acquiring

theorem coldOf_mem {r : Read} (hr : r.ud < F.nCold) : F.coldOf r ∈ F.coldIdx := by
  rw [Frame.coldOf, List.getD_eq_getElem?_getD, List.getElem?_eq_getElem hr, Option.getD_some]
  exact List.getElem_mem hr

/-- What a step registers is in memory: the target of a read that has completed in full, of an
expert of the store file. -/
theorem ReadsOk.inserted (h : ReadsOk K S mem) (hok : SysOk c S) {a : Act}
    (hacq : ∀ i, a = .acquireRead i true → ∀ r, S.acquiring[i]? = some r →
      mem (S.tier.tail.addr r.slot) = K.file r.layer r.expert) (hi : Inserted S a l e s) :
    s ∈ S.targets ∧ mem (S.tier.tail.addr s) = K.file l e ∧ (S.tier.layers l).cold e = true := by
  cases a with
  | run =>
    obtain ⟨hpc, r, cq, hcq, rfl, rfl, rfl⟩ := hi
    have hreading : S.disp.pc.reading = true := by rw [hpc]; rfl
    have hmem : r ∈ S.disp.ring.reads := (reads_pop hcq).mem_iff.mpr (by simp)
    obtain ⟨hlay, hud, hexp⟩ := h.reads hreading r hmem
    have hslot : S.disp.frame.slotOfCold.getD r.ud 0 = r.slot := by
      simp [List.getD_eq_getElem?_getD, hok.disp.tags r hmem]
    rw [hslot]
    refine ⟨List.mem_append_left _ (List.mem_map_of_mem hmem), ?_,
      h.cold hreading _ (coldOf_mem hud)⟩
    rw [h.full r (by simp [hcq]), hlay, hexp]
    rfl
  | acquireRead i ok =>
    obtain ⟨rfl, r, hr, rfl, rfl, rfl⟩ := hi
    have hmem := List.mem_of_getElem? hr
    exact ⟨List.mem_append_right _ (List.mem_map_of_mem hmem), hacq i rfl r hr,
      h.acquiring r hmem⟩
  | serve _ _ _ | kernel _ | submit _ | complete _ _ | acquire _ _ | release _ _ _
  | prefillFetch _ _ _ | prefillRead _ _ | prefillRelease _ _ _ => exact hi.elim

end CpuTier

end VllmMoet
