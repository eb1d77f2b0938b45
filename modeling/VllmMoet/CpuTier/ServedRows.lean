import VllmMoet.CpuTier.Reads

/-!
# An acknowledged request has all its rows

What `serve` has done of a request, at every place it can stand (`RowsOk`): the groups handed
to the kernel, the groups about to be handed, the groups whose reads are in the ring and those
whose reads are not issued are together all groups, each once; and the rows of the groups
handed over are in the staging area.
-/

namespace VllmMoet

namespace CpuTier

variable {B A Y : Type*} {K : Store B A Y} {c : Config} {T T' : Tier} {R R' : Ring} {F F' : Frame}
  {D D' : Dispatcher} {S S' : Sys} {M M' : MemSys B A Y} {ns : ℕ → List ℕ} {tg : List ℕ}
  {e i k l p s x : ℕ} {mem : ℕ → B}

/-! ### The rows -/

/-- The groups that are the next to be handed to the kernel. -/
def Dispatcher.pending (D : Dispatcher) : List ℕ :=
  match D.pc with
  | .forwardAll => List.range D.frame.nExperts
  | .issue | .submit | .forwardResident => D.frame.resIdx
  | .reap | .issueNext | .submitNext | .forwardBatch => D.frame.batch
  | _ => []

/-- The request's groups are made, and not yet all handed to the kernel. -/
def Pc.serving (pc : Pc) : Prop := pc.reading = true ∨ pc = .forwardAll

/-- The request's groups are all handed to the kernel. -/
def Pc.finished (pc : Pc) : Prop := pc = .unpinEnd ∨ pc = .ack

/-- The row of pair `i` of the request. -/
def MemSys.row (K : Store B A Y) (M : MemSys B A Y) (i : ℕ) : Y :=
  let F := M.sys.disp.frame
  K.kernel (K.file F.layer (F.req.pairs i).expert) (M.acts (F.req.pairs i).token)
    (F.req.pairs i).weight

/-- The row of pair `i` is in the staging area. -/
def MemSys.RowDone (K : Store B A Y) (M : MemSys B A Y) (i : ℕ) : Prop :=
  M.staging M.sys.disp.frame.layer i = M.row K i

/-- The record of group `x` is registered at the address the frame has, and held. -/
def RecordHeld (S : Sys) (x : ℕ) : Prop :=
  ∃ p, S.disp.frame.recs x = some p ∧
    (S.tier.layers S.disp.frame.layer).records (S.disp.frame.eid x) = some p ∧
    ∀ s, (S.tier.layers S.disp.frame.layer).slotOf (S.disp.frame.eid x) = some s →
      s ∈ S.disp.frame.pinned

/-- Where the groups of a request that has not failed are; `done` are those handed to the
kernel. -/
structure GroupsAt (D : Dispatcher) (done : List ℕ) : Prop where
  groups : GroupsOk D.frame D.frame.order
  serving : D.pc.serving → (done ++ D.pending ++ D.ring.reads.map D.frame.coldOf ++
    D.frame.coldIdx.drop D.frame.issued).Perm (List.range D.frame.nExperts)
  finished : D.pc.finished → done.Perm (List.range D.frame.nExperts)
  calls : D.frame.calls.flatMap KernelCall.orow =
    done.flatMap fun x => (D.frame.group x).map D.frame.orow

/-- A request that has not failed. -/
structure RowsOk (K : Store B A Y) (M : MemSys B A Y) (done : List ℕ) : Prop
    extends GroupsAt M.sys.disp done where
  rows : ∀ x ∈ done, ∀ k ∈ M.sys.disp.frame.group x, M.RowDone K (M.sys.disp.frame.orow k)
  records : ∀ x ∈ M.sys.disp.pending, RecordHeld M.sys x
  computed : ∀ k, M.sys.disp.call = some k → ∀ p ∈ M.computed, ∀ q, k.pairs[p]? = some q →
    M.RowDone K q.orow

theorem GroupsAt.pending_lt {done : List ℕ} (h : GroupsAt D done) (hs : D.pc.serving) :
    ∀ x ∈ D.pending, x < D.frame.nExperts := fun x hx =>
  List.mem_range.mp ((h.serving hs).mem_iff.mp (by simp [hx]))

theorem serving_of_call {k : KernelCall} (hk : D.call = some k) : D.pc.serving := by
  rw [Dispatcher.call] at hk
  split at hk
  · next hpc => exact .inr hpc
  · next hpc => exact .inl (by rw [hpc]; rfl)
  · next hpc => exact .inl (by rw [hpc]; rfl)
  · simp at hk

/-- The kernel call in progress is one for the pending groups. -/
theorem GroupsAt.call_eq {done : List ℕ} (h : GroupsAt D done)
    (ho : D.frame.order.Perm (List.range D.frame.req.nPairs.toNat)) {k : KernelCall}
    (hk : D.call = some k) : k = D.frame.subset D.pending := by
  have hlen : D.frame.order.length = D.frame.req.nPairs.toNat := by
    rw [ho.length_eq, List.length_range]
  rw [Dispatcher.call] at hk
  rw [Dispatcher.pending]
  split at hk
  · next hpc =>
    rw [hpc, ← Option.some.inj hk]
    exact h.groups.all_eq hlen
  · next hpc => rw [hpc, ← Option.some.inj hk]
  · next hpc => rw [hpc, ← Option.some.inj hk]
  · simp at hk

/-- A step that hands over and issues nothing. -/
theorem GroupsAt.goto {done : List ℕ} (h : GroupsAt D done) (hF : D.frame.SameGroups D'.frame)
    (hcalls : D'.frame.calls = D.frame.calls) (hslots : D'.frame.slotOfCold = D.frame.slotOfCold)
    (hreads : D'.ring.reads.Perm D.ring.reads)
    (hserving : D'.pc.serving → D.pc.serving ∧ D'.pending = D.pending)
    (hfinished : D'.pc.finished → done.Perm (List.range D.frame.nExperts)) : GroupsAt D' done where
  groups := by
    rw [hF.order]
    exact h.groups.of_same hF
  serving hs := by
    obtain ⟨hs', hpending⟩ := hserving hs
    have hcold : D'.frame.coldOf = D.frame.coldOf := by
      funext r
      rw [Frame.coldOf, hF.idx.1, Frame.coldOf]
    rw [hpending, hF.nExperts, hF.idx.1, Frame.issued, hslots, hcold]
    exact ((hreads.map _).append_left _ |>.append_right _).trans (h.serving hs')
  finished hs := by
    rw [hF.nExperts]
    exact hfinished hs
  calls := by
    have hgroup : D'.frame.group = D.frame.group := funext hF.group
    rw [hcalls, hF.arrays.2.2, hgroup]
    exact h.calls

/-- Where the grouping of a request that has not failed goes on. -/
theorem runGroup_pc (hst : D.runGroup.frame.status = 0) :
    (D.runGroup.pc = .forwardAll ∧ D.runGroup.frame.coldIdx = []) ∨ D.runGroup.pc = .issue := by
  have hst' : (groupPairs D.frame.order 0 D.tier D.frame).2.status = 0 := hst
  simp only [Dispatcher.runGroup, hst', ne_eq, not_true_eq_false, if_false]
  split
  · next hc => exact .inl ⟨rfl, List.length_eq_zero_iff.mp hc⟩
  · exact .inr rfl

/-- The groups before the first is handed over. -/
theorem groupsAt_runGroup (hD : DispOk c D tg) (hpc : D.pc = .group)
    (hentry : D.frame = Frame.entry D.frame.layer D.frame.seq D.frame.req)
    (hst : D.runGroup.frame.status = 0) :
    GroupsAt D.runGroup [] ∧ LookedUp (D.tier.layers D.frame.layer) D.runGroup.frame := by
  obtain ⟨hfl, hcq⟩ := hD.quiet (by rw [hpc]; rfl)
  obtain ⟨hsq, hslots, -⟩ := hD.early (by rw [hpc]; rfl)
  have hreads : D.runGroup.ring.reads = [] := by simp [Dispatcher.runGroup, Ring.reads, hsq, hfl, hcq]
  obtain ⟨ns, ha⟩ := hD.arena
  obtain ⟨-, -, -, -, hslots', -⟩ := ha.groupPairs (hD.layer (by rw [hpc]; decide)) D.frame.order 0
  obtain ⟨horder, hcalls, -, -⟩ := groupPairs_frame D.frame.order 0 D.tier D.frame
  have hon : D.tier.tail.on = true := (congrArg Config.on hD.config).trans hD.on
  obtain ⟨hg, hl⟩ := groupsOk_of_entry hon hentry hst
  have hg' : GroupsOk D.runGroup.frame D.runGroup.frame.order := by
    simp only [Dispatcher.runGroup, horder]
    exact hg
  have hissued : D.runGroup.frame.issued = 0 := by
    rw [Frame.issued]
    simp only [Dispatcher.runGroup]
    rw [hslots', hslots, List.length_nil]
  refine ⟨⟨hg', fun _ => ?_, fun hf => ?_, ?_⟩, hl⟩
  · rw [hissued, List.drop_zero, hreads, List.map_nil, List.append_nil, List.nil_append]
    rcases runGroup_pc hst with ⟨hp, hc⟩ | hp
    · rw [Dispatcher.pending, hp, hc, List.append_nil]
    · rw [Dispatcher.pending, hp]
      exact hg'.split
  · exfalso
    rcases runGroup_pc hst with ⟨hp, -⟩ | hp
    · simp [hp, Pc.finished] at hf
    · simp [hp, Pc.finished] at hf
  · simp only [Dispatcher.runGroup, hcalls]
    rw [hentry]
    rfl

/-- The groups of the reads that are queued are the next that are not issued. -/
theorem map_coldOf_issued (F : Frame) {ss : List ℕ} (h : ss.length ≤ F.nCold - F.issued) :
    (ss.mapIdx F.readOf).map F.coldOf = (F.coldIdx.drop F.issued).take ss.length := by
  have hn : F.nCold = F.coldIdx.length := rfl
  refine List.ext_getElem ?_ fun j hj hj' => ?_
  · simp only [List.length_map, List.length_mapIdx, List.length_take, List.length_drop]
    omega
  · simp only [List.length_map, List.length_mapIdx] at hj
    have hlt : F.issued + j < F.coldIdx.length := by omega
    simp [Frame.coldOf, Frame.readOf, List.getD_eq_getElem?_getD, List.getElem?_eq_getElem hlt]

/-- Issuing moves groups from those not issued to the ring. -/
theorem GroupsAt.runIssue {done : List ℕ} (h : GroupsAt D done) (hs : D.pc.serving) {next : Pc}
    (hnext : (D.pc = .issue ∧ next = .submit) ∨ (D.pc = .issueIdle ∧ next = .submitIdle) ∨
      (D.pc = .issueNext ∧ next = .submitNext)) : GroupsAt (D.runIssue next) done := by
  obtain ⟨ss, hlen, hR, hF⟩ := exists_issued (D.frame.nCold - D.frame.issued) D.tier D.ring D.frame
  have hsame : D.frame.SameGroups (D.runIssue next).frame := by
    simp only [Dispatcher.runIssue, issueSome, hF]
    exact (Frame.sameGroups_later _ _ _ _ _ _ _ _)
  refine ⟨h.groups.of_same hsame |> fun hg => hsame.order ▸ hg, fun _ => ?_, fun hf => ?_, ?_⟩
  · have hpending : (D.runIssue next).pending = D.pending := by
      rcases hnext with ⟨hpc, rfl⟩ | ⟨hpc, rfl⟩ | ⟨hpc, rfl⟩
      · simp only [Dispatcher.pending, hpc, Dispatcher.runIssue, issueSome, hF]
      · simp only [Dispatcher.pending, hpc, Dispatcher.runIssue]
      · simp only [Dispatcher.pending, hpc, Dispatcher.runIssue, issueSome, hF]
    have hold := h.serving hs
    have htake := List.take_append_drop ss.length (D.frame.coldIdx.drop D.frame.issued)
    rw [hpending]
    simp only [Dispatcher.runIssue, issueSome, hF, hR]
    have hcold : ({ D.frame with slotOfCold := D.frame.slotOfCold ++ ss } : Frame).coldOf =
        D.frame.coldOf := rfl
    rw [hcold]
    simp only [Ring.reads, List.map_append, map_coldOf_issued D.frame hlen, Frame.issued,
      List.length_append] at hold ⊢
    rw [← List.drop_drop]
    refine List.Perm.trans ?_ hold
    rw [List.perm_iff_count]
    intro y
    have hy := congrArg (List.count y) htake
    simp only [List.count_append, Frame.issued] at hy ⊢
    omega
  · rcases hnext with ⟨-, rfl⟩ | ⟨-, rfl⟩ | ⟨-, rfl⟩ <;>
      simp [Dispatcher.runIssue, Pc.finished] at hf
  · simp only [Dispatcher.runIssue, issueSome, hF]
    exact h.calls

/-- A record that lands is registered and pinned for the kernel. -/
theorem exists_land (ha : ArenaOk T ns (s :: tg)) (hl : F.layer < T.nLayers) {r : Read}
    (hs : F.slotOfCold[r.ud]? = some s) : ∃ v, (land T F r.ud).2 = { F with
        pinned := F.pinned ++ [v]
        recs := Function.update F.recs (F.coldOf r) (some (T.tail.addr v))
        batch := F.batch ++ [F.coldOf r]
        landed := F.landed + 1 } ∧
      ((land T F r.ud).1.layers F.layer).slotOf (F.eid (F.coldOf r)) = some v ∧
      ((land T F r.ud).1.layers F.layer).records (F.eid (F.coldOf r)) = some (T.tail.addr v) := by
  have hslot : F.slotOfCold.getD r.ud 0 = s := by simp [List.getD_eq_getElem?_getD, hs]
  obtain ⟨ns', h', -, -, -, hcfg, v, hv⟩ := ha.insert hl (F.eid (F.coldIdx.getD r.ud 0))
  have hres := (h'.layer F.layer ((nLayers_of_config hcfg).symm ▸ hl)).resident _ v hv
  simp only [land, hslot, hv, Frame.coldOf, addr_of_config hcfg] at hres ⊢
  exact ⟨v, rfl, hv, hres⟩

/-- A record that lands moves its group from the ring to the batch. -/
theorem GroupsAt.land {done : List ℕ} (h : GroupsAt D done) (hpc : D.pc = .reap) {r : Read}
    {res : ℤ} {cq : List (Read × ℤ)} (hcq : D.ring.cq = (r, res) :: cq) (T : Tier)
    (hF : D.frame.SameGroups F) (hbatch : F.batch = D.frame.batch ++ [D.frame.coldOf r])
    (hslots : F.slotOfCold = D.frame.slotOfCold) (hcalls : F.calls = D.frame.calls) :
    GroupsAt { D with tier := T, ring := { D.ring with cq := cq }, frame := F } done := by
  refine ⟨hF.order ▸ h.groups.of_same hF, fun _ => ?_, fun hf => ?_, ?_⟩
  · have hold := h.serving (.inl (by rw [hpc]; rfl))
    have hreads := (reads_pop hcq).map D.frame.coldOf
    have hcold : F.coldOf = D.frame.coldOf := by
      funext r'
      rw [Frame.coldOf, hF.idx.1, Frame.coldOf]
    simp only [Dispatcher.pending, hpc] at hold ⊢
    rw [hbatch, hF.nExperts, hF.idx.1, Frame.issued, hslots, hcold]
    refine List.Perm.trans ?_ hold
    rw [List.perm_iff_count] at hreads ⊢
    intro y
    have hy := hreads y
    simp only [List.map_cons, List.count_append, List.count_cons, List.count_nil,
      Frame.issued] at hy ⊢
    omega
  · simp [hpc, Pc.finished] at hf
  · have hgroup : F.group = D.frame.group := funext hF.group
    rw [hcalls, hgroup, hF.arrays.2.2]
    exact h.calls

/-- A kernel call that succeeds hands the pending groups over. -/
theorem GroupsAt.kernel {done : List ℕ} (h : GroupsAt D done)
    (ho : D.frame.order.Perm (List.range D.frame.req.nPairs.toNat)) {k : KernelCall}
    (hk : D.call = some k) {next : Pc}
    (hnext : (D.pc = .forwardAll ∧ next = .unpinEnd) ∨
      (D.pc = .forwardResident ∧ next = .unpinResident) ∨
      (D.pc = .forwardBatch ∧ next = .unpinBatch)) (rc : ℤ) :
    GroupsAt { D with frame := D.called k rc, pc := next } (done ++ D.pending) := by
  have hserving := serving_of_call hk
  have hold := h.serving hserving
  refine ⟨h.groups.of_same (sameGroups_called D k rc), fun hs => ?_, fun hf => ?_, ?_⟩
  · have hpending : Dispatcher.pending { D with frame := D.called k rc, pc := next } = [] := by
      rcases hnext with ⟨-, rfl⟩ | ⟨-, rfl⟩ | ⟨-, rfl⟩ <;> rfl
    rw [hpending, List.append_nil]
    exact hold
  · rcases hnext with ⟨hpc, rfl⟩ | ⟨-, rfl⟩ | ⟨-, rfl⟩
    · -- all groups are pending, so nothing else is left
      have hlen := hold.length_eq
      have hp : D.pending = List.range D.frame.nExperts := by rw [Dispatcher.pending, hpc]
      simp only [List.length_append, List.length_range, hp] at hlen
      have hdone : done = [] := List.length_eq_zero_iff.mp (by omega)
      rw [hdone, hp]
      exact List.Perm.refl _
    · simp [Pc.finished] at hf
    · simp [Pc.finished] at hf
  · simp only [Dispatcher.called, List.flatMap_append, List.flatMap_singleton]
    rw [h.call_eq ho hk, orow_subset]
    exact congrArg₂ _ h.calls rfl

/-! ### The dispatcher's steps -/

/-- The request has its groups and has not failed. -/
def Dispatcher.Alive (D : Dispatcher) : Prop :=
  D.pc ≠ .idle ∧ D.pc ≠ .group ∧ D.pc ≠ .drain ∧ D.frame.status = 0

/-- A step of the dispatcher from `S.disp` to `D'` that hands nothing over. -/
structure Handed (S : Sys) (D' : Dispatcher) (done : List ℕ) : Prop where
  groups : GroupsAt D' done
  same : S.disp.frame.SameGroups D'.frame
  pending : ∀ x ∈ D'.pending, (x ∈ S.disp.pending ∧
    D'.frame.recs x = S.disp.frame.recs x ∧ S.disp.frame.pinned ⊆ D'.frame.pinned) ∨
      RecordHeld { S with disp := D' } x

theorem serving_of_pending (hx : x ∈ D.pending) : D.pc.serving := by
  rw [Dispatcher.pending] at hx
  cases hpc : D.pc <;> simp only [hpc, List.not_mem_nil] at hx
  all_goals simp [Pc.serving, Pc.reading]

/-- A step that hands over, issues and lands nothing. -/
theorem handed_goto {done : List ℕ} (h : GroupsAt S.disp done)
    (hF : S.disp.frame.SameGroups D'.frame) (hcalls : D'.frame.calls = S.disp.frame.calls)
    (hslots : D'.frame.slotOfCold = S.disp.frame.slotOfCold)
    (hreads : D'.ring.reads.Perm S.disp.ring.reads)
    (hserving : D'.pc.serving → S.disp.pc.serving ∧ D'.pending = S.disp.pending)
    (hfinished : D'.pc.finished → done.Perm (List.range S.disp.frame.nExperts))
    (hpins : D'.pending = [] ∨
      (D'.frame.recs = S.disp.frame.recs ∧ D'.frame.pinned = S.disp.frame.pinned)) :
    Handed S D' done where
  groups := h.goto hF hcalls hslots hreads hserving hfinished
  same := hF
  pending x hx := by
    obtain ⟨-, heq⟩ := hserving (serving_of_pending hx)
    rcases hpins with hnil | ⟨hrecs, hpin⟩
    · rw [hnil] at hx
      exact absurd hx List.not_mem_nil
    · exact .inl ⟨heq ▸ hx, by rw [hrecs], fun s hs => hpin ▸ hs⟩

theorem handed_runIssue {done : List ℕ} (h : GroupsAt S.disp done) (hs : S.disp.pc.serving)
    {next : Pc} (hnext : (S.disp.pc = .issue ∧ next = .submit) ∨
      (S.disp.pc = .issueIdle ∧ next = .submitIdle) ∨
      (S.disp.pc = .issueNext ∧ next = .submitNext)) : Handed S (S.disp.runIssue next) done := by
  obtain ⟨ss, -, -, hF⟩ := exists_issued (S.disp.frame.nCold - S.disp.frame.issued) S.disp.tier
    S.disp.ring S.disp.frame
  have hF' : (S.disp.runIssue next).frame =
      { S.disp.frame with slotOfCold := S.disp.frame.slotOfCold ++ ss } := hF
  refine ⟨h.runIssue hs hnext, ?_, fun x hx => .inl ⟨?_, ?_, ?_⟩⟩
  · rw [hF']
    exact (Frame.sameGroups_later _ _ _ _ _ _ _ _)
  · rw [Dispatcher.pending, hF'] at hx
    rw [Dispatcher.pending]
    rcases hnext with ⟨hpc, rfl⟩ | ⟨hpc, rfl⟩ | ⟨hpc, rfl⟩
    · rw [hpc]
      exact hx
    · simp [Dispatcher.runIssue] at hx
    · rw [hpc]
      exact hx
  · rw [hF']
  · rw [hF']
    exact List.Subset.refl _

theorem pending_batchPc {D : Dispatcher} (hpc : D.pc = Dispatcher.batchPc D.frame)
    (hst : D.frame.status = 0) : D.pending = D.frame.batch := by
  rw [Dispatcher.pending, hpc]
  rcases batchPc_cases D.frame with ⟨hb, -⟩ | ⟨hb, hnil⟩
  · rw [hb]
  · rw [hb, hnil hst]

theorem serving_batchPc (F : Frame) : (Dispatcher.batchPc F).serving ∧
    ¬ (Dispatcher.batchPc F).finished := by
  rcases batchPc_cases F with ⟨hb, -⟩ | ⟨hb, -⟩
  · rw [hb]
    simp [Pc.serving, Pc.finished, Pc.reading]
  · rw [hb]
    simp [Pc.serving, Pc.finished, Pc.reading]

/-- A completion is popped: a full read lands, and one that is not fails the request. -/
theorem handed_runReap {done : List ℕ} (h : GroupsAt S.disp done) (hok : SysOk c S)
    (hpc : S.disp.pc = .reap) (hst : S.disp.runReap.frame.status = 0) :
    Handed S S.disp.runReap done := by
  have hserving : S.disp.pc.serving := .inl (by rw [hpc]; rfl)
  have hpending : S.disp.pending = S.disp.frame.batch := by rw [Dispatcher.pending, hpc]
  cases hcq : S.disp.ring.cq with
  | nil =>
    have hD : S.disp.runReap = { S.disp with pc := if S.disp.frame.issued < S.disp.frame.nCold
        then .issueNext else Dispatcher.batchPc S.disp.frame } := by
      rw [Dispatcher.runReap, hcq]
    rw [hD] at hst ⊢
    refine handed_goto h (Frame.SameGroups.refl _) rfl rfl (List.Perm.refl _)
      (fun _ => ⟨hserving, ?_⟩) (fun hf => ?_) (.inr ⟨rfl, rfl⟩)
    · rw [hpending]
      split
      · rw [Dispatcher.pending]
      · exact pending_batchPc rfl hst
    · simp only at hf
      split at hf
      · simp [Pc.finished] at hf
      · exact absurd hf (serving_batchPc _).2
  | cons rr cq =>
    obtain ⟨r, res⟩ := rr
    rcases eq_or_ne res recordBytes with rfl | hres
    · have hD : S.disp.runReap = { S.disp with
          tier := (land S.disp.tier S.disp.frame r.ud).1
          ring := { S.disp.ring with cq := cq }
          frame := (land S.disp.tier S.disp.frame r.ud).2 } := by
        simp [Dispatcher.runReap, hcq]
      have hp := reads_pop hcq
      have htag := hok.disp.tags r (hp.mem_iff.mpr (by simp))
      obtain ⟨ns, ha⟩ := hok.disp.arena
      have ha : ArenaOk S.disp.tier ns (r.slot :: ({ S.disp.ring with cq := cq }.targets ++
          S.acquiring.map Held.slot)) :=
        ha.targets_perm ((hp.map Read.slot).append_right _)
      -- the record lands, and its group is handed over with the pointer to it
      obtain ⟨v, hF, hslot, hrec⟩ := exists_land ha (hok.disp.layer (by rw [hpc]; decide)) htag
      have hsame := sameGroups_land S.disp.tier S.disp.frame r.ud
      rw [hD]
      refine ⟨h.land hpc hcq _ hsame (by rw [hF]) (by rw [hF]) (by rw [hF]), hsame, fun x hx => ?_⟩
      simp only [Dispatcher.pending, hpc, hF, List.mem_append, List.mem_singleton] at hx
      rcases eq_or_ne x (S.disp.frame.coldOf r) with rfl | hne
      · refine .inr ⟨S.disp.tier.tail.addr v, ?_, ?_, fun s hs => ?_⟩
        · rw [hF]
          exact Function.update_self _ _ _
        · simp only [hsame.layer, hsame.eid]
          exact hrec
        · simp only [hsame.layer, hsame.eid] at hs
          rw [hF]
          obtain rfl : v = s := Option.some.inj (hslot.symm.trans hs)
          exact List.mem_append_right _ (List.mem_singleton_self _)
      · refine .inl ⟨?_, ?_, ?_⟩
        · rw [hpending]
          exact hx.resolve_right hne
        · rw [hF]
          exact Function.update_of_ne hne _ _
        · rw [hF]
          exact List.subset_append_left _ _
    · simp [Dispatcher.runReap, hcq, hres] at hst

/-- The waiting loop ends when all cold groups have been handed over. -/
theorem handed_runLoop {done : List ℕ} (h : GroupsAt S.disp done) (hok : SysOk c S)
    (hpc : S.disp.pc = .loop) (hst : S.disp.frame.status = 0) : Handed S S.disp.runLoop done := by
  have hserving : S.disp.pc.serving := .inl (by rw [hpc]; rfl)
  have hpending : S.disp.pending = [] := by rw [Dispatcher.pending, hpc]
  have hnil : S.disp.runLoop.pending = [] := by
    have hnext : S.disp.runLoop.pc = .issueIdle ∨ S.disp.runLoop.pc = .wait ∨
        S.disp.runLoop.pc = .unpinEnd := by
      simp only [Dispatcher.runLoop, hst, true_and, ne_eq, not_true_eq_false, if_false]
      split
      · split
        · exact .inl rfl
        · exact .inr (.inl rfl)
      · exact .inr (.inr rfl)
    rw [Dispatcher.pending]
    rcases hnext with hp | hp | hp
    · rw [hp]
    · rw [hp]
    · rw [hp]
  refine handed_goto h (Frame.SameGroups.refl _) rfl rfl (List.Perm.refl _)
    (fun _ => ⟨hserving, hnil.trans hpending.symm⟩) (fun hf => ?_) (.inl hnil)
  have hall : ¬ S.disp.frame.landed < S.disp.frame.nCold := by
    intro hlt
    simp only [Dispatcher.runLoop, hst, hlt, and_self, if_true] at hf
    split at hf <;> simp [Pc.finished] at hf
  -- as many reads were issued as have landed, so none is left
  obtain ⟨hb, hle⟩ := hok.disp.balance (by rw [hpc]; rfl) hst
  have hreads : S.disp.ring.reads = [] := List.length_eq_zero_iff.mp (by omega)
  have hdrop : S.disp.frame.coldIdx.drop S.disp.frame.issued = [] := by
    refine List.drop_eq_nil_of_le ?_
    change S.disp.frame.nCold ≤ _
    omega
  have hold := h.serving hserving
  rw [hpending, hreads, hdrop] at hold
  simpa using hold

/-- The dispatcher's own steps after the grouping. -/
theorem handed_run {done : List ℕ} (h : GroupsAt S.disp done) (hok : SysOk c S)
    (hs : S.disp.run = some D') (hD : S.disp.Alive) (hD' : D'.Alive) : Handed S D' done := by
  have hsame := Frame.SameGroups.refl S.disp.frame
  obtain ⟨-, hg, hdrain, hst⟩ := hD
  obtain ⟨hidle', -, -, hst'⟩ := hD'
  rw [Dispatcher.run] at hs
  cases hpc : S.disp.pc <;> simp only [hpc, reduceCtorEq, Option.some.injEq] at hs
  case group => exact absurd hpc hg
  case issue => exact hs ▸ handed_runIssue h (.inl (by rw [hpc]; rfl)) (.inl ⟨hpc, rfl⟩)
  case unpinResident =>
    subst hs
    have hpending : S.disp.pending = [] := by rw [Dispatcher.pending, hpc]
    exact handed_goto h (Frame.sameGroups_later _ _ _ _ _ _ _ _) rfl rfl (List.Perm.refl _)
      (fun _ => ⟨.inl (by rw [hpc]; rfl), hpending.symm⟩)
      (fun hf => by simp [Dispatcher.runUnpin, Pc.finished] at hf) (.inl rfl)
  case loop => exact hs ▸ handed_runLoop h hok hpc hst
  case issueIdle =>
    exact hs ▸ handed_runIssue h (.inl (by rw [hpc]; rfl)) (.inr (.inl ⟨hpc, rfl⟩))
  case wait =>
    subst hs
    have hpending : S.disp.pending = [] := by rw [Dispatcher.pending, hpc]
    have hnil : Dispatcher.pending { S.disp with
        pc := if S.disp.ring.inFlight = 0 then .loop else .reap
        frame := { S.disp.frame with batch := [] } } = [] := by
      rcases Nat.eq_zero_or_pos S.disp.ring.inFlight with h₀ | h₀
      · rw [Dispatcher.pending, if_pos h₀]
      · rw [Dispatcher.pending, if_neg h₀.ne']
    refine handed_goto h (Frame.sameGroups_later _ _ _ _ _ _ _ _) rfl rfl
      (List.Perm.refl _) (fun _ => ⟨.inl (by rw [hpc]; rfl), hnil.trans hpending.symm⟩)
      (fun hf => ?_) (.inl hnil)
    simp only at hf
    split at hf <;> simp [Pc.finished] at hf
  case reap => exact hs ▸ handed_runReap h hok hpc (hs ▸ hst')
  case issueNext =>
    exact hs ▸ handed_runIssue h (.inl (by rw [hpc]; rfl)) (.inr (.inr ⟨hpc, rfl⟩))
  case unpinBatch =>
    subst hs
    have hserving : S.disp.pc.serving := .inl (by rw [hpc]; rfl)
    have hpending : S.disp.pending = [] := by rw [Dispatcher.pending, hpc]
    split
    · exact handed_goto h hsame rfl rfl (List.Perm.refl _) (fun _ => ⟨hserving, hpending.symm⟩)
        (fun hf => by simp [Pc.finished] at hf) (.inl rfl)
    · exact handed_goto h (Frame.sameGroups_later _ _ _ _ _ _ _ _) rfl
        rfl (List.Perm.refl _) (fun _ => ⟨hserving, hpending.symm⟩)
        (fun hf => by simp [Dispatcher.runUnpin, Pc.finished] at hf) (.inl rfl)
  case drain => exact absurd hpc hdrain
  case unpinEnd =>
    subst hs
    have hfinished := h.finished (.inl hpc)
    split
    · exact handed_goto h (Frame.sameGroups_later _ _ _ _ _ _ _ _) rfl rfl (List.Perm.refl _)
        (fun hsv => by simp [Dispatcher.runUnpin, Pc.serving, Pc.reading] at hsv)
        (fun _ => hfinished) (.inl rfl)
    · exact handed_goto h hsame rfl rfl (List.Perm.refl _)
        (fun hsv => by simp [Pc.serving, Pc.reading] at hsv) (fun _ => hfinished) (.inl rfl)
  case ack => exact absurd (hs ▸ rfl) hidle'

/-- A request that has not failed after a step had not failed before it. -/
theorem alive_of_run (hs : D.run = some D') (hD' : D'.Alive) (hg : D.pc ≠ .group)
    (hdrain : D.pc = .drain → D.frame.status ≠ 0) : D.Alive := by
  obtain ⟨-, -, hdrain', hst'⟩ := hD'
  have hidle : D.pc ≠ .idle := by
    intro hpc
    simp [Dispatcher.run, hpc] at hs
  have hst : D.frame.status = 0 := by
    rw [Dispatcher.run] at hs
    cases hpc : D.pc <;> simp only [hpc, reduceCtorEq, Option.some.injEq] at hs
    case group => exact absurd hpc hg
    case issue | issueIdle | issueNext =>
      obtain ⟨ss, -, -, hF⟩ := exists_issued (D.frame.nCold - D.frame.issued) D.tier D.ring D.frame
      subst hs
      simpa only [Dispatcher.runIssue, issueSome, hF] using hst'
    case reap =>
      subst hs
      rw [Dispatcher.runReap] at hst'
      split at hst'
      · exact hst'
      · simp only at hst'
        split at hst'
        · simp at hst'
        · simp only [land] at hst'
          split at hst' <;> exact hst'
    case drain =>
      rw [Dispatcher.runDrain] at hs
      split at hs
      · obtain rfl := Option.some.inj hs
        exact hst'
      · split at hs
        · simp at hs
        · obtain rfl := Option.some.inj hs
          exact hst'
    case unpinBatch | unpinEnd =>
      subst hs
      split at hst' <;> exact hst'
    case unpinResident | loop | wait | ack =>
      subst hs
      exact hst'
  exact ⟨hidle, hg, fun hpc => hdrain hpc hst, hst⟩

/-- A submission after which the request has not failed. -/
theorem submit_cases {a : Submitted} (hs : D.submit a = some D') (hst : D'.frame.status = 0) :
    D.frame.status = 0 ∧ ∃ R, D.ring.submit a = some R ∧
      ((D.pc = .submit ∧ D' = { D with
          ring := R, pc := if D.frame.resIdx = [] then .unpinResident else .forwardResident }) ∨
        (D.pc = .submitIdle ∧ D' = { D with ring := R, pc := .wait }) ∨
        (D.pc = .submitNext ∧ D' = { D with ring := R, pc := Dispatcher.batchPc D.frame })) := by
  rw [Dispatcher.submit] at hs
  split at hs
  · simp at hs
  · next R hR =>
    have hF : D'.frame = D.answered a := by
      cases hpc : D.pc <;> simp only [hpc, reduceCtorEq, Option.some.injEq] at hs
      all_goals
        subst hs
        rfl
    have herr : a ≠ .error := by
      rintro rfl
      simp [hF, Dispatcher.answered] at hst
    have hans : D.answered a = D.frame := by rw [Dispatcher.answered, if_neg herr]
    rw [hF, hans] at hst
    rw [hans] at hs
    refine ⟨hst, R, hR, ?_⟩
    cases hpc : D.pc <;> simp only [hpc, reduceCtorEq, Option.some.injEq] at hs
    case submit =>
      refine .inl ⟨rfl, hs.symm.trans ?_⟩
      rcases Classical.em (D.frame.resIdx = []) with hnil | hnil
      · rw [if_pos hnil, if_neg fun hc => hc.2 hnil]
      · rw [if_neg hnil, if_pos ⟨hst, hnil⟩]
    case submitIdle => exact .inr (.inl ⟨rfl, hs.symm.trans (by rw [if_neg herr])⟩)
    case submitNext => exact .inr (.inr ⟨rfl, hs.symm.trans (by rw [if_neg herr])⟩)

theorem alive_of_submit {a : Submitted} (hs : D.submit a = some D') (hD' : D'.Alive) : D.Alive := by
  obtain ⟨hst, R, -, ⟨hpc, -⟩ | ⟨hpc, -⟩ | ⟨hpc, -⟩⟩ := submit_cases hs hD'.2.2.2
  all_goals
    rw [Dispatcher.Alive, hpc]
    exact ⟨by decide, by decide, by decide, hst⟩

/-- A submission after which the request has not failed. -/
theorem handed_submit {done : List ℕ} {a : Submitted} (h : GroupsAt S.disp done)
    (hs : S.disp.submit a = some D') (hD' : D'.Alive) : Handed S D' done := by
  have hsame := Frame.SameGroups.refl S.disp.frame
  obtain ⟨hst, R, hR, ⟨hpc, rfl⟩ | ⟨hpc, rfl⟩ | ⟨hpc, rfl⟩⟩ := submit_cases hs hD'.2.2.2
  · refine handed_goto h hsame rfl rfl (reads_submit hR)
      (fun _ => ⟨.inl (by rw [hpc]; rfl), ?_⟩) (fun hf => ?_) (.inr ⟨rfl, rfl⟩)
    · rcases Classical.em (S.disp.frame.resIdx = []) with hnil | hnil
      · simp only [Dispatcher.pending, hpc, if_pos hnil]
        exact hnil.symm
      · simp only [Dispatcher.pending, hpc, if_neg hnil]
    · simp only at hf
      split at hf <;> simp [Pc.finished] at hf
  · refine handed_goto h hsame rfl rfl (reads_submit hR)
      (fun _ => ⟨.inl (by rw [hpc]; rfl), ?_⟩) (fun hf => by simp [Pc.finished] at hf) (.inl rfl)
    rw [Dispatcher.pending, Dispatcher.pending, hpc]
  · refine handed_goto h hsame rfl rfl (reads_submit hR)
      (fun _ => ⟨.inl (by rw [hpc]; rfl), ?_⟩) (fun hf => absurd hf (serving_batchPc _).2)
      (.inr ⟨rfl, rfl⟩)
    have hpending : S.disp.pending = S.disp.frame.batch := by rw [Dispatcher.pending, hpc]
    exact Eq.trans (pending_batchPc rfl hst) hpending.symm

/-! ### The rows of a run -/

/-- A held record stays where it is as long as its slot stays pinned. -/
theorem RecordHeld.step (h : RecordHeld S x) (hok : SysOk c S) (hp : PinsOk S')
    {ins : ℕ → ℕ → ℕ → Prop} (hi : IndexStep S.tier S'.tier ins)
    (hins : ∀ l e s, ins l e s → s ∈ S.targets ∧ (S.tier.layers l).cold e = true)
    (hl : S.disp.frame.layer < S.tier.nLayers) (hF : S.disp.frame.SameGroups S'.disp.frame)
    (hrecs : S'.disp.frame.recs x = S.disp.frame.recs x)
    (hpin : S.disp.frame.pinned ⊆ S'.disp.frame.pinned) : RecordHeld S' x := by
  obtain ⟨p, hr, hrec, hheld⟩ := h
  obtain ⟨ns, ha⟩ := hok.disp.arena
  have hL := ha.layer _ hl
  refine ⟨p, hrecs.trans hr, ?_⟩
  rw [hF.layer, hF.eid]
  rcases hi.entry S.disp.frame.layer (S.disp.frame.eid x) with
    ⟨hs, hrec'⟩ | ⟨v, hwas, hs, -⟩ | ⟨s, hin, hwas, -⟩
  · exact ⟨hrec'.trans hrec, fun s hslot => hpin (hheld s (hs.symm.trans hslot))⟩
  · -- the slot is pinned after the step, so some expert is in it then
    obtain ⟨e', -, he'⟩ := hp.pinned v (hpin (hheld v hwas))
    rw [hF.layer] at he'
    rcases hi.entry S.disp.frame.layer e' with ⟨hs', -⟩ | ⟨w, -, hs', -⟩ | ⟨w, hin, -, hs', -⟩
    · have heq : e' = S.disp.frame.eid x := hL.slotOf_inj (hs'.symm.trans he') hwas
      rw [heq, hs] at he'
      simp at he'
    · rw [hs'] at he'
      simp at he'
    · obtain rfl : w = v := Option.some.inj (hs'.symm.trans he')
      exact absurd ((hL.mem w).mpr ⟨_, hwas⟩) (ha.target_notMem hl (hins _ _ _ hin).1)
  · rw [hL.absent _ hwas (hins _ _ _ hin).2] at hrec
    simp at hrec

/-- Rows depend on the request, its tokens' activations and the staging area. -/
theorem rowDone_congr (hF : M.sys.disp.frame.SameGroups M'.sys.disp.frame)
    (hacts : M'.acts = M.acts) (hst : M'.staging = M.staging) :
    M'.RowDone K i ↔ M.RowDone K i := by
  rw [MemSys.RowDone, MemSys.RowDone, MemSys.row, MemSys.row, hF.layer, hF.req, hacts, hst]

/-- A step that computes no row. -/
theorem RowsOk.next {done : List ℕ} (h : RowsOk K M done) (hg : GroupsAt M'.sys.disp done)
    (hF : M.sys.disp.frame.SameGroups M'.sys.disp.frame) (hacts : M'.acts = M.acts)
    (hst : M'.staging = M.staging) (hrec : ∀ x ∈ M'.sys.disp.pending, RecordHeld M'.sys x)
    (hcomp : M'.computed = [] ∨
      (M'.computed = M.computed ∧ M'.sys.disp.call = M.sys.disp.call)) : RowsOk K M' done where
  toGroupsAt := hg
  rows x hx k hk := by
    rw [hF.group] at hk
    rw [hF.arrays.2.2, rowDone_congr hF hacts hst]
    exact h.rows x hx k hk
  records := hrec
  computed k hk p hp q hq := by
    rw [rowDone_congr hF hacts hst]
    rcases hcomp with hnil | ⟨hcomp, hcall⟩
    · rw [hnil] at hp
      exact absurd hp List.not_mem_nil
    · exact h.computed k (hcall.symm.trans hk) p (hcomp ▸ hp) q hq

/-- The pairs of the kernel call in progress are those of the pending groups. -/
theorem RowsOk.pair_mem {done : List ℕ} (h : RowsOk K M done)
    (ho : M.sys.disp.frame.order.Perm (List.range M.sys.disp.frame.req.nPairs.toNat))
    {k : KernelCall} (hk : M.sys.disp.call = some k) {q : KernelPair} (hq : q ∈ k.pairs) :
    ∃ x ∈ M.sys.disp.pending, ∃ j ∈ M.sys.disp.frame.group x,
      q = M.sys.disp.frame.kernelPair x j := by
  rw [h.call_eq ho hk, pairs_subset] at hq
  obtain ⟨x, hx, hq⟩ := List.mem_flatMap.mp hq
  obtain ⟨j, hj, rfl⟩ := List.mem_map.mp hq
  exact ⟨x, hx, j, hj, rfl⟩

/-- What the kernel computes for a pair of the call in progress is the pair's row. -/
theorem RowsOk.pair_row {done : List ℕ} (h : RowsOk K M done)
    (hi : IndexOk K M.sys.tier M.mem) (hl : M.sys.disp.frame.layer < M.sys.tier.nLayers)
    (ho : M.sys.disp.frame.order.Perm (List.range M.sys.disp.frame.req.nPairs.toNat))
    {k : KernelCall} (hk : M.sys.disp.call = some k) {q : KernelPair} (hq : q ∈ k.pairs)
    (hp : q.record = some p) : K.kernel (M.mem p) (M.acts q.tok) q.pw = M.row K q.orow := by
  obtain ⟨x, hx, j, hj, rfl⟩ := h.pair_mem ho hk hq
  obtain ⟨p', hp', hrec, -⟩ := h.records x hx
  obtain rfl : p' = p := Option.some.inj (hp'.symm.trans hp)
  have hlt := h.pending_lt (serving_of_call hk) x hx
  have hjlt := h.groups.lt_of_mem hlt hj
  simp only [Frame.kernelPair, MemSys.row]
  rw [h.groups.tok j hjlt, h.groups.pw j hjlt, h.groups.expert x hlt j hj, hi.bytes _ hl _ _ hrec]

/-- The kernel computes a pair: its row is done, and no other changes. -/
theorem RowsOk.pair {done : List ℕ} (h : RowsOk K M done)
    (hi : IndexOk K M.sys.tier M.mem) (hl : M.sys.disp.frame.layer < M.sys.tier.nLayers)
    (ho : M.sys.disp.frame.order.Perm (List.range M.sys.disp.frame.req.nPairs.toNat))
    {k : KernelCall} (hk : M.sys.disp.call = some k) {j : ℕ} {q : KernelPair}
    (hq : k.pairs[j]? = some q) (hp : q.record = some p) :
    RowsOk K { M.setRow M.sys.disp.frame.layer q.orow
      (K.kernel (M.mem p) (M.acts q.tok) q.pw) with computed := j :: M.computed } done := by
  have hrow := h.pair_row hi hl ho hk (List.mem_of_getElem? hq) hp
  set M' : MemSys B A Y := { M.setRow M.sys.disp.frame.layer q.orow
    (K.kernel (M.mem p) (M.acts q.tok) q.pw) with computed := j :: M.computed } with hM'
  have hself : M'.RowDone K q.orow := by
    rw [MemSys.RowDone, hM']
    simp only [MemSys.setRow, Function.update_self]
    exact hrow
  have hkeep : ∀ i, M.RowDone K i → M'.RowDone K i := by
    intro i hdone
    rcases eq_or_ne i q.orow with rfl | hne
    · exact hself
    · rw [MemSys.RowDone, hM']
      simp only [MemSys.setRow, Function.update_self, Function.update_of_ne hne]
      exact hdone
  refine ⟨h.toGroupsAt, fun x hx i hi => hkeep _ (h.rows x hx i hi), h.records,
    fun k' hk' j' hj' q' hq' => ?_⟩
  rcases List.mem_cons.mp hj' with rfl | hj'
  · obtain rfl : k = k' := Option.some.inj (hk.symm.trans hk')
    obtain rfl : q = q' := Option.some.inj (hq.symm.trans hq')
    exact hself
  · exact hkeep _ (h.computed k' hk' j' hj' q' hq')

/-- A kernel call that has computed all its pairs has the rows of the pending groups done. -/
theorem RowsOk.pending_rows {done : List ℕ} (h : RowsOk K M done)
    (ho : M.sys.disp.frame.order.Perm (List.range M.sys.disp.frame.req.nPairs.toNat))
    {k : KernelCall} (hk : M.sys.disp.call = some k)
    (hall : ∀ j < k.pairs.length, j ∈ M.computed) :
    ∀ x ∈ M.sys.disp.pending, ∀ j ∈ M.sys.disp.frame.group x,
      M.RowDone K (M.sys.disp.frame.orow j) := by
  intro x hx j hj
  have hmem : M.sys.disp.frame.kernelPair x j ∈ k.pairs := by
    rw [h.call_eq ho hk, pairs_subset]
    exact List.mem_flatMap.mpr ⟨x, hx, List.mem_map_of_mem hj⟩
  obtain ⟨n, hn, hget⟩ := List.getElem_of_mem hmem
  exact h.computed k hk n (hall n hn) _ (List.getElem?_eq_some_iff.mpr ⟨hn, hget⟩)

end CpuTier

end VllmMoet
