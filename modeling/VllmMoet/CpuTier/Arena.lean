import VllmMoet.CpuTier.Calls
import VllmMoet.CpuTier.TailInvariant

/-!
# Arena slots are neither lost nor shared

The representation invariant of the store tail holds in every reachable state of the tier,
with the targets of the unfinished reads as the third place a slot can be in.

What makes the dispatcher's reads find their slots again is the tag of a read, an index into
`slot_of_cold`; this is sound as long as no read outlives the request that prepared it. A
read that was submitted cannot, as `serve` leaves its loop only with nothing in flight. A
read that was prepared but not taken by `io_uring_enter` can, so the invariant is proved of
the runs in which a request is only begun with an empty submission queue (`CleanStart`);
when every prepared read is submitted at once these are all runs.
-/

namespace VllmMoet

namespace CpuTier

variable {c : Config} {T : Tier} {R : Ring} {F : Frame} {D D' : Dispatcher} {S S' : Sys}
  {ns : ℕ → List ℕ} {tg held : List ℕ} {l e s : ℕ}

/-- The unfinished reads of the ring. -/
def Ring.reads (R : Ring) : List Read := R.sq ++ R.flying ++ R.cq.map Prod.fst

/-- The targets of the unfinished reads of the ring. -/
def Ring.targets (R : Ring) : List ℕ := R.reads.map Read.slot

/-- The targets of all unfinished reads: the ring's, and those of the cold `record_acquire`
calls in progress. -/
def Sys.targets (S : Sys) : List ℕ := S.disp.ring.targets ++ S.acquiring.map Held.slot

/-! ### The tier's sections -/

/-- A pin that is taken moves no slot. -/
theorem ArenaOk.pinUp (h : ArenaOk T ns tg) (s : ℕ) : ArenaOk (T.pinUp s) ns tg := by
  refine h.congr rfl rfl rfl rfl rfl rfl fun x => ?_
  rcases eq_or_ne x s with rfl | hx
  · simp [Tier.pinUp]
  · simp [Tier.pinUp, hx]

/-- A pin that is given back moves no slot. -/
theorem ArenaOk.pinDown (h : ArenaOk T ns tg) (s : ℕ) :
    ArenaOk (T.pinDown s) ns tg := by
  refine h.congr rfl rfl rfl rfl rfl rfl fun x => ?_
  rcases eq_or_ne x s with rfl | hx
  · simp [Tier.pinDown]
  · simp [Tier.pinDown, hx]

theorem ArenaOk.unpinAll (h : ArenaOk T ns tg) (ss : List ℕ) :
    ArenaOk (unpinAll T ss) ns tg ∧ (CpuTier.unpinAll T ss).config = T.config := by
  induction ss generalizing T with
  | nil => exact ⟨h, rfl⟩
  | cons s ss ih => exact ⟨(ih (h.pinDown s)).1, (ih (h.pinDown s)).2⟩

theorem nLayers_of_config {T T' : Tier} (h : T'.config = T.config) : T'.nLayers = T.nLayers :=
  congrArg Config.nLayers h

theorem on_of_config {T T' : Tier} (h : T'.config = T.config) : T'.tail.on = T.tail.on :=
  congrArg Config.on h

/-- What the grouping leaves alone in the frame. -/
def Frame.SameReads (F F' : Frame) : Prop :=
  F'.layer = F.layer ∧ F'.req = F.req ∧ F'.slotOfCold = F.slotOfCold ∧ F'.landed = F.landed

/-- Looking up one expert of the request keeps the arena. -/
theorem ArenaOk.groupExpert (h : ArenaOk T ns tg) (hl : F.layer < T.nLayers) (e k : ℕ) :
    (∃ ns', ArenaOk (groupExpert T F e k).1 ns' tg) ∧
      (CpuTier.groupExpert T F e k).1.config = T.config ∧
      F.SameReads (CpuTier.groupExpert T F e k).2 := by
  simp only [CpuTier.groupExpert]
  split
  · split
    · exact ⟨⟨ns, h⟩, rfl, rfl, rfl, rfl, rfl⟩
    · exact ⟨⟨ns, h⟩, rfl, rfl, rfl, rfl, rfl⟩
  · split
    · exact ⟨⟨ns, h⟩, rfl, rfl, rfl, rfl, rfl⟩
    · next s hs =>
      split at hs
      · have hm : s ∈ ns F.layer := ((h.layer _ hl).mem s).mpr ⟨e, hs⟩
        exact ⟨⟨_, (h.pinUp s).touch hl hm⟩, by simp, rfl, rfl, rfl, rfl⟩
      · simp at hs

/-- The grouping section keeps the arena. -/
theorem ArenaOk.groupPairs (h : ArenaOk T ns tg) (hl : F.layer < T.nLayers)
    (is : List ℕ) (k : ℕ) :
    (∃ ns', ArenaOk (groupPairs is k T F).1 ns' tg) ∧
      (CpuTier.groupPairs is k T F).1.config = T.config ∧
      F.SameReads (CpuTier.groupPairs is k T F).2 := by
  induction is generalizing T F ns k with
  | nil => exact ⟨⟨ns, h⟩, rfl, rfl, rfl, rfl, rfl⟩
  | cons i is ih =>
    rw [CpuTier.groupPairs]
    set e := (F.req.pairs i).expert
    set TF := if F.lastE = some e then (T, F)
      else CpuTier.groupExpert T { F with lastE := some e } e k with hTF
    obtain ⟨⟨ns₁, h₁⟩, hc₁, hs₁⟩ : (∃ ns', ArenaOk TF.1 ns' tg) ∧ TF.1.config = T.config ∧
        F.SameReads TF.2 := by
      rw [hTF]
      split
      · exact ⟨⟨ns, h⟩, rfl, rfl, rfl, rfl, rfl⟩
      · exact h.groupExpert (F := { F with lastE := some e }) hl e k
    split
    · exact ⟨⟨ns₁, h₁⟩, hc₁, hs₁⟩
    · obtain ⟨hlay, hreq, hslot, hland⟩ := hs₁
      have hl₁ : (TF.2.addPair k i).layer < TF.1.nLayers := by
        rw [nLayers_of_config hc₁]
        exact hlay ▸ hl
      obtain ⟨hns, hc, hlay', hreq', hslot', hland'⟩ := ih h₁ hl₁ (k + 1)
      exact ⟨hns, hc.trans hc₁, hlay'.trans hlay, hreq'.trans hreq, hslot'.trans hslot,
        hland'.trans hland⟩

/-- The result of issuing reads: the new reads' targets come from the spare slots, their
tags are positions of `slot_of_cold`, and as many reads as entries are added. -/
structure Issued (T : Tier) (R : Ring) (F : Frame) (held : List ℕ) (fuel : ℕ)
    (TRF : Tier × Ring × Frame) : Prop where
  arena : ∃ ns, ArenaOk TRF.1 ns (TRF.2.1.targets ++ held)
  config : TRF.1.config = T.config
  inFlight : TRF.2.1.flying = R.flying ∧ TRF.2.1.cq = R.cq
  frame : ∃ ss, TRF.2.2 = { F with slotOfCold := F.slotOfCold ++ ss } ∧ ss.length ≤ fuel ∧
    TRF.2.1.reads.length = R.reads.length + ss.length
  tags : ∀ r ∈ TRF.2.1.reads, TRF.2.2.slotOfCold[r.ud]? = some r.slot

/-- The loop takes a spare slot for each read that it prepares. -/
theorem issued_issueLoop (h : ArenaOk T ns (R.targets ++ held))
    (ht : ∀ r ∈ R.reads, F.slotOfCold[r.ud]? = some r.slot) (fuel : ℕ) :
    Issued T R F held fuel (issueLoop fuel T R F) := by
  have stop : ∀ n, Issued T R F held n (T, R, F) := fun n =>
    ⟨⟨ns, h⟩, rfl, ⟨rfl, rfl⟩, ⟨[], by simp, by simp, by simp⟩, ht⟩
  induction fuel generalizing T R F with
  | zero => exact stop 0
  | succ fuel ih =>
    rw [issueLoop]
    split
    · exact stop _
    · next s fs hfree =>
      split
      · exact stop _
      · set r : Read := ⟨F.layer, F.eid (F.coldIdx.getD F.issued 0), s, F.issued⟩ with hr
        set F₁ : Frame := { F with slotOfCold := F.slotOfCold ++ [s] } with hF₁
        have h₁ : ArenaOk (T.setFree fs) ns ((R.prepRead r).targets ++ held) := by
          refine (h.popFree hfree).targets_perm ?_
          simp only [Ring.targets, Ring.reads, Ring.prepRead, List.map_append, List.map_cons,
            List.map_nil, hr]
          rw [List.perm_iff_count]
          intro a
          simp only [List.count_append, List.count_cons, List.count_nil]
          omega
        have ht₁ : ∀ r' ∈ (R.prepRead r).reads, F₁.slotOfCold[r'.ud]? = some r'.slot := by
          intro r' hr'
          have hr'' : r' ∈ R.reads ∨ r' = r := by
            simp only [Ring.reads, Ring.prepRead, List.mem_append, List.mem_singleton] at hr' ⊢
            tauto
          rcases hr'' with hr' | rfl
          · have := ht r' hr'
            rw [hF₁, List.getElem?_append_left (List.getElem?_eq_some_iff.mp this).1, this]
          · simp [hF₁, hr, Frame.issued]
        have hlen : (R.prepRead r).reads.length = R.reads.length + 1 := by
          simp [Ring.reads, Ring.prepRead]
          omega
        have stop₁ : ∀ n, Issued (T.setFree fs) (R.prepRead r) F₁ held n
            (T.setFree fs, R.prepRead r, F₁) := fun n =>
          ⟨⟨ns, h₁⟩, rfl, ⟨rfl, rfl⟩, ⟨[], by simp, by simp, by simp⟩, ht₁⟩
        obtain ⟨ha, hc, hfl, ⟨ss, hF, hle, hlen'⟩, htags⟩ := ih h₁ ht₁ stop₁
        refine ⟨ha, hc.trans (config_setFree T fs), hfl, ⟨s :: ss, ?_, by simp; omega, ?_⟩, htags⟩
        · rw [hF, hF₁]
          simp
        · rw [hlen', hlen]
          simp
          omega

/-- A full read lands: its target becomes a resident slot (or a spare one). -/
theorem ArenaOk.land {c : ℕ} (h : ArenaOk T ns (s :: tg)) (hl : F.layer < T.nLayers)
    (hc : F.slotOfCold[c]? = some s) :
    (∃ ns', ArenaOk (land T F c).1 ns' tg) ∧ (CpuTier.land T F c).1.config = T.config ∧
      ∃ pinned recs batch, (CpuTier.land T F c).2 = { F with
        pinned := pinned, recs := recs, batch := batch, landed := F.landed + 1 } := by
  have hs : F.slotOfCold.getD c 0 = s := by simp [List.getD_eq_getElem?_getD, hc]
  obtain ⟨ns', h', -, -, -, hcfg, x, hx⟩ := h.insert hl (F.eid (F.coldIdx.getD c 0))
  simp only [CpuTier.land, hs, hx]
  exact ⟨⟨ns', h'.pinUp x⟩, hcfg, _, _, _, rfl⟩

/-! ### The dispatcher -/

/-- Nothing of the request is in flight. -/
def Pc.quiet : Pc → Bool
  | .idle | .group | .forwardAll | .issue | .unpinEnd | .ack => true
  | _ => false

/-- No read of the request was prepared yet. -/
def Pc.early : Pc → Bool
  | .group | .forwardAll | .issue => true
  | _ => false

/-- The request's reads are issued and reaped. -/
def Pc.reading : Pc → Bool
  | .issue | .submit | .forwardResident | .unpinResident | .loop | .issueIdle | .submitIdle
  | .wait | .reap | .issueNext | .submitNext | .forwardBatch | .unpinBatch => true
  | _ => false

/-- The invariant of the dispatcher; `held` are the targets of the reads it does not know
about. As long as the request has not failed, its reads are the ones that have not landed
(`balance`), which is why nothing is in flight once all have. -/
structure DispOk (c : Config) (D : Dispatcher) (held : List ℕ) : Prop where
  arena : ∃ ns, ArenaOk D.tier ns (D.ring.targets ++ held)
  config : D.tier.config = c
  on : c.on = true
  tags : ∀ r ∈ D.ring.reads, D.frame.slotOfCold[r.ud]? = some r.slot
  layer : D.pc ≠ .idle → D.frame.layer < D.tier.nLayers
  quiet : D.pc.quiet = true → D.ring.flying = [] ∧ D.ring.cq = []
  early : D.pc.early = true → D.ring.sq = [] ∧ D.frame.slotOfCold = [] ∧ D.frame.landed = 0
  balance : D.pc.reading = true → D.frame.status = 0 →
    D.frame.issued = D.frame.landed + D.ring.reads.length ∧ D.frame.issued ≤ D.frame.nCold

/-- A change of the tier alone, made by an engine call. -/
theorem DispOk.setTier (h : DispOk c D held) {T : Tier} {held' : List ℕ}
    (ha : ∃ ns, ArenaOk T ns (D.ring.targets ++ held')) (hc : T.config = D.tier.config) :
    DispOk c { D with tier := T } held' where
  arena := ha
  config := hc.trans h.config
  on := h.on
  tags := h.tags
  layer hpc := (nLayers_of_config hc) ▸ h.layer hpc
  quiet := h.quiet
  early := h.early
  balance := h.balance

/-- A request is taken up with an empty submission queue. -/
theorem DispOk.serve (h : DispOk c D held) {seq : ℕ} {req : Request} (hsq : D.ring.sq = [])
    (hs : D.serve l seq req = some D') : DispOk c D' held := by
  rw [Dispatcher.serve] at hs
  split at hs
  · next hpc =>
    obtain ⟨hidle, hl⟩ := hpc
    obtain ⟨hfl, hcq⟩ := h.quiet (by rw [hidle]; rfl)
    have hreads : D.ring.reads = [] := by simp [Ring.reads, hsq, hfl, hcq]
    obtain rfl := Option.some.inj hs
    refine ⟨h.arena, h.config, h.on, by simp [hreads], fun _ => hl, fun _ => ⟨hfl, hcq⟩,
      fun _ => ⟨hsq, rfl, rfl⟩, fun _ _ => ?_⟩
    simp [hreads, Frame.issued, Frame.entry]
  · simp at hs

/-- The hits are pinned and the misses listed, and no slot moves. -/
theorem DispOk.runGroup (h : DispOk c D held) (hpc : D.pc = .group) : DispOk c D.runGroup held := by
  obtain ⟨ns, ha⟩ := h.arena
  obtain ⟨hsq, hslots, hland⟩ := h.early (by rw [hpc]; rfl)
  obtain ⟨hfl, hcq⟩ := h.quiet (by rw [hpc]; rfl)
  have hl := h.layer (by rw [hpc]; decide)
  obtain ⟨hns, hc, hlay, -, hslots', hland'⟩ := ha.groupPairs hl D.frame.order 0
  have hreads : D.ring.reads = [] := by simp [Ring.reads, hsq, hfl, hcq]
  refine ⟨hns, hc.trans h.config, h.on, ?_, fun _ => ?_, fun _ => ⟨hfl, hcq⟩,
    fun _ => ⟨hsq, hslots'.trans hslots, hland'.trans hland⟩, fun _ _ => ?_⟩
  · simp [Dispatcher.runGroup, hreads]
  · simp only [Dispatcher.runGroup, hlay, nLayers_of_config hc]
    exact hl
  · simp [Dispatcher.runGroup, hreads, Frame.issued, hslots', hland', hslots, hland]

/-- Every spare slot that is taken is the target of a read. -/
theorem DispOk.runIssue (h : DispOk c D held) (hpc : D.pc.reading = true) {next : Pc}
    (hnext : next = .submit ∨ next = .submitIdle ∨ next = .submitNext) :
    DispOk c (D.runIssue next) held := by
  obtain ⟨ns, ha⟩ := h.arena
  obtain ⟨ha', hc, hfl, ⟨ss, hF, hle, hlen⟩, htags⟩ :=
    issued_issueLoop ha h.tags (D.frame.nCold - D.frame.issued)
  have hnq : next.quiet = false ∧ next.early = false ∧ next ≠ .idle := by
    rcases hnext with rfl | rfl | rfl <;> decide
  have hl : D.pc ≠ .idle := by rintro hidle; simp [hidle, Pc.reading] at hpc
  refine ⟨ha', hc.trans h.config, h.on, htags, fun _ => ?_, fun hq => ?_, fun hq => ?_,
    fun _ hst => ?_⟩
  · simp only [Dispatcher.runIssue, issueSome, hF, nLayers_of_config hc]
    exact h.layer hl
  · exact absurd hq (by simp [Dispatcher.runIssue, hnq])
  · exact absurd hq (by simp [Dispatcher.runIssue, hnq])
  · have hst' : D.frame.status = 0 := by
      simpa [Dispatcher.runIssue, issueSome, hF] using hst
    obtain ⟨hb, hle'⟩ := h.balance hpc hst'
    simp only [Dispatcher.runIssue, issueSome, hF, Frame.issued, Frame.nCold,
      List.length_append] at *
    omega

/-- Unpinning moves no slot. -/
theorem DispOk.runUnpin (h : DispOk c D held) {next : Pc} (hpc : D.pc ≠ .idle)
    (hq : next.quiet = true → D.pc.quiet = true) (he : next.early = false)
    (hr : next.reading = true → D.pc.reading = true) : DispOk c (D.runUnpin next) held := by
  obtain ⟨ns, ha⟩ := h.arena
  obtain ⟨ha', hc⟩ := ha.unpinAll D.frame.pinned
  have hl := h.layer hpc
  obtain ⟨ns', ha'', -, -, hc'⟩ := ha'.trim (l := D.frame.layer) (by rwa [nLayers_of_config hc])
  refine ⟨⟨ns', ha''⟩, (hc'.trans hc).trans h.config, h.on, h.tags, fun _ => ?_,
    fun hnq => h.quiet (hq hnq), fun hne => ?_, fun hnr => h.balance (hr hnr)⟩
  · simp only [Dispatcher.runUnpin, nLayers_of_config (hc'.trans hc)]
    exact hl
  · exact absurd hne (by simp [Dispatcher.runUnpin, he])

/-- A step that moves the program counter and touches none of the arena, the ring or the
frame's reads. -/
theorem DispOk.goto (h : DispOk c D held) (next : Pc) (F : Frame) (hpc : D.pc ≠ .idle)
    (hq : next.quiet = true → D.ring.flying = [] ∧ D.ring.cq = [])
    (he : next.early = false) (hr : next.reading = true → D.pc.reading = true)
    (hF : F.layer = D.frame.layer ∧ F.slotOfCold = D.frame.slotOfCold ∧
      F.landed = D.frame.landed ∧ F.coldIdx = D.frame.coldIdx ∧
      (F.status = 0 → D.frame.status = 0)) {uses : List Use} {misses : List Miss}
    {acks : List Ack} :
    DispOk c ⟨D.tier, D.ring, next, F, uses, misses, acks⟩ held := by
  obtain ⟨hlay, hslots, hland, hcold, hst⟩ := hF
  refine ⟨h.arena, h.config, h.on, by simpa only [hslots] using h.tags, fun _ => ?_, hq, fun hne => ?_,
    fun hnr hs => ?_⟩
  · simp only [hlay]; exact h.layer hpc
  · exact absurd hne (by simp [he])
  · obtain ⟨hb, hle⟩ := h.balance (hr hnr) (hst hs)
    simp only [Frame.issued, Frame.nCold, hslots, hland, hcold] at hb hle ⊢
    exact ⟨hb, hle⟩

/-- Moving reads between the three stages of the ring keeps the invariant. -/
theorem DispOk.setRing (h : DispOk c D held) {R : Ring} (hp : R.reads.Perm D.ring.reads)
    (hq : D.pc.quiet = true → R.flying = [] ∧ R.cq = [])
    (he : D.pc.early = true → R.sq = []) : DispOk c { D with ring := R } held where
  arena := by
    obtain ⟨ns, ha⟩ := h.arena
    exact ⟨ns, ha.targets_perm ((hp.map _).symm.append_right _)⟩
  config := h.config
  on := h.on
  tags r hr := h.tags r (hp.mem_iff.mp hr)
  layer := h.layer
  quiet := hq
  early hne := ⟨he hne, (h.early hne).2⟩
  balance hr hs := by
    rw [hp.length_eq]
    exact h.balance hr hs

/-- A completion moves a read from one stage of the ring to the next. -/
theorem reads_complete {i : ℕ} {res : ℤ} {R' : Ring} (hR : R.complete i res = some R') :
    R'.reads.Perm R.reads := by
  obtain ⟨r, hr, rfl⟩ := Option.map_eq_some_iff.mp hR
  obtain ⟨hi, hget⟩ := List.getElem?_eq_some_iff.mp hr
  have hp : (r :: R.flying.eraseIdx i).Perm R.flying := by
    rw [← hget]
    exact List.getElem_cons_eraseIdx_perm hi
  rw [List.perm_iff_count] at hp ⊢
  intro a
  have hp := hp a
  simp only [Ring.reads, List.map_append, List.map_cons, List.map_nil, List.count_append,
    List.count_cons, List.count_nil] at hp ⊢
  omega

/-- The target of a read that has completed is still the read's. -/
theorem DispOk.complete (h : DispOk c D held) {i : ℕ} {res : ℤ}
    (hR : D.ring.complete i res = some R) : DispOk c { D with ring := R } held := by
  have hp := reads_complete hR
  obtain ⟨r, hr, rfl⟩ := Option.map_eq_some_iff.mp hR
  have hmem : D.ring.flying ≠ [] := by rintro hnil; simp [hnil] at hr
  exact h.setRing hp (fun hq => absurd (h.quiet hq).1 hmem) fun he => (h.early he).1

/-- The loop waits for reads, or is left once all have landed or one has failed. -/
theorem DispOk.runLoop (h : DispOk c D held) (hpc : D.pc = .loop) : DispOk c D.runLoop held := by
  have hidle : D.pc ≠ .idle := by rw [hpc]; decide
  have hreading : D.pc.reading = true := by rw [hpc]; rfl
  rw [Dispatcher.runLoop]
  split
  · next hcont =>
    split
    · exact h.goto .issueIdle D.frame hidle nofun rfl (fun _ => hreading) ⟨rfl, rfl, rfl, rfl, id⟩
    · exact h.goto .wait D.frame hidle nofun rfl (fun _ => hreading) ⟨rfl, rfl, rfl, rfl, id⟩
  · next hstop =>
    split
    · exact h.goto .drain D.frame hidle nofun rfl nofun ⟨rfl, rfl, rfl, rfl, id⟩
    · next hst =>
      -- every cold expert has landed, and no more reads were issued than there are
      have hst : D.frame.status = 0 := by simpa using hst
      obtain ⟨hb, hle⟩ := h.balance hreading hst
      have hreads : D.ring.reads.length = 0 := by
        have : ¬ D.frame.landed < D.frame.nCold := fun hlt => hstop ⟨hst, hlt⟩
        omega
      simp only [Ring.reads, List.length_append, List.length_map] at hreads
      refine h.goto .unpinEnd D.frame hidle (fun _ => ⟨?_, ?_⟩) rfl nofun
        ⟨rfl, rfl, rfl, rfl, id⟩
      · exact List.length_eq_zero_iff.mp (by omega)
      · exact List.length_eq_zero_iff.mp (by omega)

/-- Popping a completion takes its read out of the ring. -/
theorem reads_pop {r : Read} {res : ℤ} {cq : List (Read × ℤ)} (hcq : R.cq = (r, res) :: cq) :
    R.reads.Perm (r :: { R with cq := cq }.reads) := by
  simp only [Ring.reads, hcq, List.map_cons]
  exact List.perm_middle

theorem batchPc_quiet (F : Frame) {P : Prop} : (Dispatcher.batchPc F).quiet = true → P := by
  rw [Dispatcher.batchPc]
  split <;> nofun

theorem batchPc_early (F : Frame) : (Dispatcher.batchPc F).early = false := by
  rw [Dispatcher.batchPc]
  split <;> rfl

/-- A completed read gives its slot to the layer, or back to the spare slots. -/
theorem DispOk.runReap (h : DispOk c D held) (hpc : D.pc = .reap) : DispOk c D.runReap held := by
  have hidle : D.pc ≠ .idle := by rw [hpc]; decide
  have hreading : D.pc.reading = true := by rw [hpc]; rfl
  rw [Dispatcher.runReap]
  split
  · split
    · exact h.goto .issueNext D.frame hidle nofun rfl (fun _ => hreading) ⟨rfl, rfl, rfl, rfl, id⟩
    · exact h.goto (Dispatcher.batchPc D.frame) D.frame hidle (batchPc_quiet D.frame)
        (batchPc_early D.frame) (fun _ => hreading) ⟨rfl, rfl, rfl, rfl, id⟩
  · next r res cq hcq =>
    have hp := reads_pop hcq
    have htag : D.frame.slotOfCold[r.ud]? = some r.slot := h.tags r (hp.mem_iff.mpr (by simp))
    have htags : ∀ r' ∈ { D.ring with cq := cq }.reads,
        D.frame.slotOfCold[r'.ud]? = some r'.slot := fun r' hr' =>
      h.tags r' (hp.mem_iff.mpr (by simp [hr']))
    obtain ⟨ns, ha⟩ := h.arena
    have ha : ArenaOk D.tier ns (r.slot :: ({ D.ring with cq := cq }.targets ++ held)) :=
      ha.targets_perm ((hp.map Read.slot).append_right held)
    have hslot : D.frame.slotOfCold.getD r.ud 0 = r.slot := by
      simp [List.getD_eq_getElem?_getD, htag]
    have hl := h.layer hidle
    simp only
    split
    · rw [hslot]
      refine ⟨⟨ns, ha.pushFree⟩, h.config, h.on, htags, fun _ => hl, fun hq => ?_, fun he => ?_,
        fun _ hst => ?_⟩
      · simp [hpc, Pc.quiet] at hq
      · simp [hpc, Pc.early] at he
      · simp at hst
    · obtain ⟨ha', hc, pinned, recs, batch, hF⟩ := ha.land hl htag
      refine ⟨ha', hc.trans h.config, h.on, ?_, fun _ => ?_, fun hq => ?_, fun he => ?_,
        fun _ hst => ?_⟩
      · simp only [hF]; exact htags
      · simp only [hF, nLayers_of_config hc]; exact hl
      · simp [hpc, Pc.quiet] at hq
      · simp [hpc, Pc.early] at he
      · simp only [hF] at hst ⊢
        have hb := h.balance hreading hst
        rw [hp.length_eq, List.length_cons] at hb
        simp only [Frame.issued, Frame.nCold] at hb ⊢
        omega

/-- The reads that are left are waited for, and their slots given back. -/
theorem DispOk.runDrain (h : DispOk c D held) (hpc : D.pc = .drain)
    (hs : D.runDrain = some D') : DispOk c D' held := by
  have hidle : D.pc ≠ .idle := by rw [hpc]; decide
  rw [Dispatcher.runDrain] at hs
  split at hs
  · next hfl =>
    obtain rfl := Option.some.inj hs
    simp only [Ring.inFlight] at hfl
    refine h.goto .unpinEnd D.frame hidle (fun _ => ⟨?_, ?_⟩) rfl nofun
      ⟨rfl, rfl, rfl, rfl, id⟩
    · exact List.length_eq_zero_iff.mp (by omega)
    · exact List.length_eq_zero_iff.mp (by omega)
  · split at hs
    · simp at hs
    · next r res cq hcq =>
      obtain rfl := Option.some.inj hs
      have hp := reads_pop hcq
      obtain ⟨ns, ha⟩ := h.arena
      have htag : D.frame.slotOfCold[r.ud]? = some r.slot := h.tags r (hp.mem_iff.mpr (by simp))
      have ha : ArenaOk D.tier ns (r.slot :: ({ D.ring with cq := cq }.targets ++ held)) :=
        ha.targets_perm ((hp.map Read.slot).append_right held)
      have hslot : D.frame.slotOfCold.getD r.ud 0 = r.slot := by
        simp [List.getD_eq_getElem?_getD, htag]
      rw [hslot]
      refine ⟨⟨ns, ha.pushFree⟩, h.config, h.on, fun r' hr' => h.tags r' (hp.mem_iff.mpr (by simp [hr'])),
        h.layer, fun hq => ?_, fun he => ?_, fun hr => ?_⟩
      · simp [hpc, Pc.quiet] at hq
      · simp [hpc, Pc.early] at he
      · simp [hpc, Pc.reading] at hr

/-- The dispatcher's own steps keep its invariant. -/
theorem DispOk.run (h : DispOk c D held) (hs : D.run = some D') : DispOk c D' held := by
  have same : D.frame.layer = D.frame.layer ∧ D.frame.slotOfCold = D.frame.slotOfCold ∧
      D.frame.landed = D.frame.landed ∧ D.frame.coldIdx = D.frame.coldIdx ∧
      (D.frame.status = 0 → D.frame.status = 0) := ⟨rfl, rfl, rfl, rfl, id⟩
  rw [Dispatcher.run] at hs
  cases hpc : D.pc <;> simp only [hpc, reduceCtorEq, Option.some.injEq] at hs
  case group => exact hs ▸ h.runGroup hpc
  case issue => exact hs ▸ h.runIssue (by rw [hpc]; rfl) (.inl rfl)
  case unpinResident =>
    exact hs ▸ h.runUnpin (by rw [hpc]; decide) nofun rfl fun _ => by rw [hpc]; rfl
  case loop => exact hs ▸ h.runLoop hpc
  case issueIdle => exact hs ▸ h.runIssue (by rw [hpc]; rfl) (.inr (.inl rfl))
  case wait =>
    subst hs
    refine h.goto _ { D.frame with batch := [] } (by rw [hpc]; decide) ?_ ?_
      (fun _ => by rw [hpc]; rfl) same
    · split <;> nofun
    · split <;> rfl
  case reap => exact hs ▸ h.runReap hpc
  case issueNext => exact hs ▸ h.runIssue (by rw [hpc]; rfl) (.inr (.inr rfl))
  case unpinBatch =>
    subst hs
    have hidle : D.pc ≠ .idle := by rw [hpc]; decide
    split
    · exact h.goto .loop D.frame hidle nofun rfl (fun _ => by rw [hpc]; rfl) same
    · exact h.runUnpin hidle nofun rfl fun _ => by rw [hpc]; rfl
  case drain => exact h.runDrain hpc hs
  case unpinEnd =>
    subst hs
    have hidle : D.pc ≠ .idle := by rw [hpc]; decide
    have hq := h.quiet (by rw [hpc]; rfl)
    split
    · exact h.runUnpin hidle (fun _ => by rw [hpc]; rfl) rfl nofun
    · exact h.goto .ack D.frame hidle (fun _ => hq) rfl nofun same
  case ack =>
    subst hs
    exact h.goto .idle D.frame (by rw [hpc]; decide) (fun _ => h.quiet (by rw [hpc]; rfl)) rfl
      nofun same

/-- The kernel calls touch neither the arena nor the ring. -/
theorem DispOk.kernel (h : DispOk c D held) {rc : ℤ} (hs : D.kernel rc = some D') :
    DispOk c D' held := by
  have hF : ∀ c, (D.called c rc).layer = D.frame.layer ∧
      (D.called c rc).slotOfCold = D.frame.slotOfCold ∧
      (D.called c rc).landed = D.frame.landed ∧ (D.called c rc).coldIdx = D.frame.coldIdx ∧
      ((D.called c rc).status = 0 → D.frame.status = 0) := by
    refine fun c => ⟨rfl, rfl, rfl, rfl, fun hst => ?_⟩
    simp only [Dispatcher.called] at hst
    split at hst
    · simp at hst
    · exact hst
  rw [Dispatcher.kernel] at hs
  cases hpc : D.pc <;> simp only [hpc, reduceCtorEq, Option.some.injEq] at hs
  case forwardAll =>
    subst hs
    exact h.goto .unpinEnd _ (by rw [hpc]; decide) (fun _ => h.quiet (by rw [hpc]; rfl)) rfl
      nofun (hF _)
  case forwardResident =>
    subst hs
    exact h.goto .unpinResident _ (by rw [hpc]; decide) nofun rfl (fun _ => by rw [hpc]; rfl)
      (hF _)
  case forwardBatch =>
    subst hs
    exact h.goto .unpinBatch _ (by rw [hpc]; decide) nofun rfl (fun _ => by rw [hpc]; rfl)
      (hF _)

/-- Submitted reads stay the same reads. -/
theorem reads_submit {a : Submitted} {R' : Ring} (hR : R.submit a = some R') :
    R'.reads.Perm R.reads := by
  cases a with
  | accepted n =>
    simp only [Ring.submit] at hR
    split at hR
    · obtain rfl := Option.some.inj hR
      simp only [Ring.reads]
      refine List.Perm.append_right _ ?_
      rw [List.perm_iff_count]
      intro r
      have := congrArg (List.count r) (List.take_append_drop n R.sq)
      simp only [List.count_append] at this ⊢
      omega
    · simp at hR
  | error =>
    simp only [Ring.submit] at hR
    split at hR
    · simp at hR
    · obtain rfl := Option.some.inj hR
      exact List.Perm.refl _

/-- A submission moves reads to the device. -/
theorem DispOk.submit (h : DispOk c D held) {a : Submitted} (hs : D.submit a = some D') :
    DispOk c D' held := by
  have hF : (D.answered a).layer = D.frame.layer ∧
      (D.answered a).slotOfCold = D.frame.slotOfCold ∧
      (D.answered a).landed = D.frame.landed ∧ (D.answered a).coldIdx = D.frame.coldIdx ∧
      ((D.answered a).status = 0 → D.frame.status = 0) := by
    rw [Dispatcher.answered]
    split
    · exact ⟨rfl, rfl, rfl, rfl, by simp⟩
    · exact ⟨rfl, rfl, rfl, rfl, id⟩
  rw [Dispatcher.submit] at hs
  split at hs
  · simp at hs
  · next R hR =>
    have move (hq : D.pc.quiet = false) (he : D.pc.early = false) :
        DispOk c { D with ring := R } held :=
      h.setRing (reads_submit hR) (by simp [hq]) (by simp [he])
    cases hpc : D.pc <;> simp only [hpc, reduceCtorEq, Option.some.injEq] at hs
    case submit =>
      subst hs
      refine (move (by rw [hpc]; rfl) (by rw [hpc]; rfl)).goto _ (D.answered a) (by simp [hpc])
        ?_ ?_ (fun _ => by simp [hpc, Pc.reading]) hF
      · split <;> nofun
      · split <;> rfl
    case submitIdle =>
      subst hs
      refine (move (by rw [hpc]; rfl) (by rw [hpc]; rfl)).goto _ (D.answered a) (by simp [hpc])
        ?_ ?_ (fun _ => by simp [hpc, Pc.reading]) hF
      · split <;> nofun
      · split <;> rfl
    case submitNext =>
      subst hs
      refine (move (by rw [hpc]; rfl) (by rw [hpc]; rfl)).goto _ (D.answered a) (by simp [hpc])
        ?_ ?_ (fun _ => by simp [hpc, Pc.reading]) hF
      · split
        · nofun
        · exact batchPc_quiet _
      · split
        · rfl
        · exact batchPc_early _

/-! ### The whole system -/

/-- The arena invariant of the system. -/
structure SysOk (c : Config) (S : Sys) : Prop where
  disp : DispOk c S.disp (S.acquiring.map Held.slot)
  acquiring : ∀ h ∈ S.acquiring, h.layer < c.nLayers

/-- A request is only begun when no prepared read waits in the submission queue. -/
def CleanStart (S : Sys) : Act → Prop
  | .serve _ _ _ => S.disp.ring.sq = []
  | _ => True

instance (S : Sys) (a : Act) : Decidable (CleanStart S a) :=
  match a with
  | .serve _ _ _ => inferInstanceAs (Decidable (_ = _))
  | .run | .kernel _ | .submit _ | .complete _ _ | .acquire _ _ | .acquireRead _ _
  | .release _ _ _ | .prefillFetch _ _ _ | .prefillRead _ _ | .prefillRelease _ _ _ =>
    isTrue trivial

theorem SysOk.nLayers (h : SysOk c S) : S.tier.nLayers = c.nLayers :=
  congrArg Config.nLayers h.disp.config

/-- An engine call that keeps the configuration. -/
theorem SysOk.setTier (h : SysOk c S) {T : Tier} {acquiring : List Held}
    (ha : ∃ ns, ArenaOk T ns (S.disp.ring.targets ++ acquiring.map Held.slot))
    (hc : T.config = S.tier.config) (hq : ∀ h ∈ acquiring, h.layer < c.nLayers)
    (acquired : List Held) (fetching fetched : List Fetch) (leaked : List ℕ) :
    SysOk c ⟨{ S.disp with tier := T }, acquiring, acquired, fetching, fetched, leaked⟩ :=
  ⟨h.disp.setTier ha hc, hq⟩

/-- An acquire that misses takes a spare slot, which its read is going to fill. -/
theorem SysOk.acquire (h : SysOk c S) (layer expert : ℤ) : SysOk c (S.acquire layer expert) := by
  obtain ⟨ns, ha⟩ := h.disp.arena
  rw [Sys.acquire]
  split
  · next l e hl he =>
    split
    · split
      · next s hs => exact h.setTier ⟨ns, ha.pinUp s⟩ (config_pinUp _ s) h.acquiring _ _ _ _
      · split
        · next s fs hcold hfree =>
          refine h.setTier ⟨ns, ?_⟩ (config_setFree _ fs) (fun x hx => ?_) _ _ _ _
          · refine (ha.popFree hfree).targets_perm ?_
            rw [List.map_append, ← List.append_assoc]
            exact (List.perm_append_singleton s _).symm
          · rcases List.mem_append.mp hx with hx | hx
            · exact h.acquiring x hx
            · obtain rfl := List.mem_singleton.mp hx
              exact h.nLayers ▸ lt_of_checked hl
        · exact h
    · exact h
  · exact h

theorem perm_cons_eraseIdx {α : Type} {xs : List α} {i : ℕ} {x : α} (h : xs[i]? = some x) :
    xs.Perm (x :: xs.eraseIdx i) := by
  obtain ⟨hi, hget⟩ := List.getElem?_eq_some_iff.mp h
  rw [← hget]
  exact (List.getElem_cons_eraseIdx_perm hi).symm

/-- An acquiring call's slot, apart from the other unfinished reads' targets. -/
theorem SysOk.acquiring_arena (h : SysOk c S) {i : ℕ} {r : Held}
    (hr : S.acquiring[i]? = some r) :
    ∃ ns, ArenaOk S.tier ns
      (r.slot :: (S.disp.ring.targets ++ (S.acquiring.eraseIdx i).map Held.slot)) ∧
      r.layer < S.tier.nLayers := by
  obtain ⟨ns, ha⟩ := h.disp.arena
  refine ⟨ns, ha.targets_perm ?_, h.nLayers ▸ h.acquiring r (List.mem_of_getElem? hr)⟩
  exact (((perm_cons_eraseIdx hr).map Held.slot).append_left _).trans List.perm_middle

/-- The record that was read becomes resident, or its slot is spare again. -/
theorem SysOk.acquireRead (h : SysOk c S) {i : ℕ} {ok : Bool}
    (hs : S.acquireRead i ok = some S') : SysOk c S' := by
  obtain ⟨r, hr, rfl⟩ := Option.map_eq_some_iff.mp hs
  obtain ⟨ns, ha, hl⟩ := h.acquiring_arena hr
  have hrest : ∀ x ∈ S.acquiring.eraseIdx i, x.layer < c.nLayers := fun x hx =>
    h.acquiring x (List.eraseIdx_subset hx)
  split
  · obtain ⟨ns', ha', -, -, -, hc, s₂, hs₂⟩ := ha.insert hl r.expert
    simp only [hs₂]
    exact h.setTier ⟨ns', ha'.pinUp s₂⟩ hc hrest _ _ _ _
  · exact h.setTier ⟨ns, ha.pushFree⟩ (config_pushFree _ _) hrest _ _ _ _

/-- A release unpins, and the trim that follows gives slots back. -/
theorem SysOk.release (h : SysOk c S) (layer expert : ℤ) (i : ℕ) :
    SysOk c (S.release layer expert i) := by
  obtain ⟨ns, ha⟩ := h.disp.arena
  rw [Sys.release]
  split
  · next l e hl he =>
    split
    · split
      · next s hs =>
        obtain ⟨ns', ha', -, -, hc⟩ := (ha.pinDown s).trim (l := l) (lt_of_checked hl)
        exact h.setTier ⟨ns', ha'⟩ hc h.acquiring _ _ _ _
      · obtain ⟨ns', ha', -, -, hc⟩ := ha.trim (l := l) (lt_of_checked hl)
        exact h.setTier ⟨ns', ha'⟩ hc h.acquiring _ _ _ _
    · exact h
  · exact h

/-- The pins of a fetch move no slot. -/
theorem ArenaOk.pinExperts (h : ArenaOk T ns tg) (l : ℕ) (xs : List ℤ) :
    ArenaOk (Sys.pinExperts T l xs).2.1 ns tg ∧
      (Sys.pinExperts T l xs).2.1.config = T.config := by
  induction xs generalizing T with
  | nil => exact ⟨h, rfl⟩
  | cons x xs ih =>
    rw [Sys.pinExperts]
    split
    · exact ⟨h, rfl⟩
    · split
      · next s hs => exact ih (h.pinUp s)
      · split
        · exact ih h
        · exact ⟨h, rfl⟩

/-- A fetch that is unpinned moves no slot. -/
theorem ArenaOk.unpinExperts (h : ArenaOk T ns tg) (l : ℕ) (xs : List ℤ) :
    ArenaOk (Sys.unpinExperts T l xs) ns tg ∧
      (Sys.unpinExperts T l xs).config = T.config := by
  induction xs generalizing T with
  | nil => exact ⟨h, rfl⟩
  | cons x xs ih =>
    rw [Sys.unpinExperts]
    split
    · exact ih h
    · split
      · next s hs => exact ih (h.pinDown s)
      · exact ih h

/-- The misses of a fetch are read to the prefill arena. -/
theorem SysOk.prefillFetch (h : SysOk c S) (layer : ℤ) (experts : List ℤ) (set : ℤ) :
    SysOk c (S.prefillFetch layer experts set) := by
  obtain ⟨ns, ha⟩ := h.disp.arena
  rw [Sys.prefillFetch]
  split
  · next l k hl hk =>
    obtain ⟨ha', hc⟩ := ha.pinExperts l experts
    split
    · simp only
      split
      · exact h.setTier ⟨ns, ha'⟩ hc h.acquiring _ _ _ _
      · exact h.setTier ⟨ns, ha'⟩ hc h.acquiring _ _ _ _
    · exact h
  · exact h

/-- A read to the prefill arena moves no slot. -/
theorem SysOk.prefillRead (h : SysOk c S) {i : ℕ} {ok : Bool}
    (hs : S.prefillRead i ok = some S') : SysOk c S' := by
  obtain ⟨f, hf, hs⟩ := Option.bind_eq_some_iff.mp hs
  split at hs
  · exact Option.some.inj hs ▸ ⟨h.disp, h.acquiring⟩
  · split at hs
    · exact Option.some.inj hs ▸ ⟨h.disp, h.acquiring⟩
    · simp at hs

/-- A fetch that is released unpins its slots. -/
theorem SysOk.prefillRelease (h : SysOk c S) (layer : ℤ) (experts : List ℤ) (i : ℕ) :
    SysOk c (S.prefillRelease layer experts i) := by
  obtain ⟨ns, ha⟩ := h.disp.arena
  rw [Sys.prefillRelease]
  split
  · next l hl =>
    split
    · obtain ⟨ha', hc⟩ := ha.unpinExperts l experts
      obtain ⟨ns', ha'', -, -, hc'⟩ := ha'.trim (l := l)
        ((nLayers_of_config hc).symm ▸ lt_of_checked hl)
      exact h.setTier ⟨ns', ha''⟩ (hc'.trans hc) h.acquiring _ _ _ _
    · exact h
  · exact h

/-- Every step keeps the arena invariant, as long as a request is begun with no prepared
read waiting. -/
theorem SysOk.step (h : SysOk c S) {a : Act} (hclean : CleanStart S a)
    (hs : S.step a = some S') : SysOk c S' := by
  cases a with
  | serve l seq req =>
    obtain ⟨D, hD, rfl⟩ := Option.map_eq_some_iff.mp hs
    exact ⟨h.disp.serve hclean hD, h.acquiring⟩
  | run =>
    obtain ⟨D, hD, rfl⟩ := Option.map_eq_some_iff.mp hs
    exact ⟨h.disp.run hD, h.acquiring⟩
  | kernel rc =>
    obtain ⟨D, hD, rfl⟩ := Option.map_eq_some_iff.mp hs
    exact ⟨h.disp.kernel hD, h.acquiring⟩
  | submit r =>
    obtain ⟨D, hD, rfl⟩ := Option.map_eq_some_iff.mp hs
    exact ⟨h.disp.submit hD, h.acquiring⟩
  | complete i res =>
    obtain ⟨R, hR, rfl⟩ := Option.map_eq_some_iff.mp hs
    exact ⟨h.disp.complete hR, h.acquiring⟩
  | acquire layer expert => exact Option.some.inj hs ▸ h.acquire layer expert
  | acquireRead i ok => exact h.acquireRead hs
  | release layer expert i => exact Option.some.inj hs ▸ h.release layer expert i
  | prefillFetch layer experts set =>
    exact Option.some.inj hs ▸ h.prefillFetch layer experts set
  | prefillRead i ok => exact h.prefillRead hs
  | prefillRelease layer experts i =>
    exact Option.some.inj hs ▸ h.prefillRelease layer experts i

/-- The tier as it is started is in order. -/
theorem sysOk_start (h : Start S) : SysOk S.tier.config S := by
  obtain ⟨⟨T, _, _, _, _, _, _, _, _, _, _, _, hT, hd, htier⟩, ⟨hsq, hfl, hcq⟩, hpc, -, hcalls⟩ := h
  obtain ⟨hf, hon⟩ := fresh_beforeAdopt hT
  obtain ⟨ns, ha⟩ := arenaOk_storeTailAdopt hf hon hd
  have hreads : S.disp.ring.reads = [] := by simp [Ring.reads, hsq, hfl, hcq]
  refine ⟨⟨⟨ns, ?_⟩, rfl, ?_, by simp [hreads], fun hne => absurd hpc hne, fun _ => ⟨hfl, hcq⟩,
    fun he => ?_, fun hr => ?_⟩, by simp [hcalls.1]⟩
  · simpa [htier, Ring.targets, hreads, hcalls.1] using ha
  · change S.disp.tier.tail.on = true
    rw [htier]
    exact storeTailAdopt_on hf hon hd
  · simp [hpc, Pc.early] at he
  · simp [hpc, Pc.reading] at hr

/-- The runs in which every request is begun with no prepared read waiting. -/
def cleanSystem : TransitionSystem Sys Act := tierSystem.onlySteps CleanStart

/-- The arena invariant along every run that begins its requests cleanly. -/
theorem sysOk_of_reachable (h : cleanSystem.Reachable S) : ∃ c, SysOk c S := by
  have hinv : cleanSystem.Invariant fun S => ∃ c, SysOk c S :=
    ⟨fun S hS => ⟨_, sysOk_start hS⟩, fun _ _ _ _ ⟨c, hc⟩ ⟨hclean, hstep⟩ =>
      ⟨c, hc.step hclean hstep⟩⟩
  exact hinv.holds h

/-! ### When every prepared read is submitted -/

/-- Every submission takes all prepared reads. -/
def SubmitsAll (S : Sys) : Act → Prop
  | .submit a => a = .accepted S.disp.ring.sq.length
  | _ => True

/-- Where prepared reads may wait: between a section that issues them and the submission. -/
def Pc.submitting : Pc → Bool
  | .submit | .submitIdle | .submitNext => true
  | _ => false

/-- The dispatcher's own steps prepare reads only to submit them next. -/
theorem run_sq (hs : D.run = some D') :
    D.pc.submitting = false ∧ (D'.pc.submitting = false → D'.ring.sq = D.ring.sq) := by
  rw [Dispatcher.run] at hs
  cases hpc : D.pc <;> simp only [hpc, reduceCtorEq, Option.some.injEq] at hs
  case issue => subst hs; exact ⟨rfl, nofun⟩
  case issueIdle => subst hs; exact ⟨rfl, nofun⟩
  case issueNext => subst hs; exact ⟨rfl, nofun⟩
  case drain =>
    refine ⟨rfl, fun _ => ?_⟩
    rw [Dispatcher.runDrain] at hs
    split at hs
    · exact Option.some.inj hs ▸ rfl
    · split at hs
      · simp at hs
      · exact Option.some.inj hs ▸ rfl
  case reap =>
    subst hs
    refine ⟨rfl, fun _ => ?_⟩
    rw [Dispatcher.runReap]
    split
    · rfl
    · simp only
      split <;> rfl
  case unpinBatch =>
    subst hs
    refine ⟨rfl, fun _ => ?_⟩
    split <;> rfl
  case unpinEnd =>
    subst hs
    refine ⟨rfl, fun _ => ?_⟩
    split <;> rfl
  all_goals
    subst hs
    exact ⟨rfl, fun _ => rfl⟩

/-- An accepted submission of everything empties the submission queue. -/
theorem submit_sq (hs : D.submit (.accepted D.ring.sq.length) = some D') : D'.ring.sq = [] := by
  simp only [Dispatcher.submit, Ring.submit, le_refl, ↓reduceIte, List.drop_length] at hs
  cases hpc : D.pc <;> simp only [hpc, reduceCtorEq, Option.some.injEq] at hs
  all_goals
    subst hs
    rfl

/-- The kernel runs between two submissions. -/
theorem kernel_sq {rc : ℤ} (hs : D.kernel rc = some D') :
    D.pc.submitting = false ∧ D'.ring.sq = D.ring.sq := by
  rw [Dispatcher.kernel] at hs
  cases hpc : D.pc <;> simp only [hpc, reduceCtorEq, Option.some.injEq] at hs
  all_goals
    subst hs
    exact ⟨rfl, rfl⟩

/-- The engine's calls touch the dispatcher's tier only. -/
theorem step_disp_eq {a : Act} (hs : S.step a = some S') :
    (∃ T, S'.disp = { S.disp with tier := T }) ∨
      match a with
      | .serve l seq req => S.disp.serve l seq req = some S'.disp
      | .run => S.disp.run = some S'.disp
      | .kernel rc => S.disp.kernel rc = some S'.disp
      | .submit r => S.disp.submit r = some S'.disp
      | .complete i res => ∃ R, S.disp.ring.complete i res = some R ∧
          S'.disp = { S.disp with ring := R }
      | _ => False := by
  cases a with
  | serve l seq req =>
    obtain ⟨D, hD, rfl⟩ := Option.map_eq_some_iff.mp hs
    exact .inr hD
  | run =>
    obtain ⟨D, hD, rfl⟩ := Option.map_eq_some_iff.mp hs
    exact .inr hD
  | kernel rc =>
    obtain ⟨D, hD, rfl⟩ := Option.map_eq_some_iff.mp hs
    exact .inr hD
  | submit r =>
    obtain ⟨D, hD, rfl⟩ := Option.map_eq_some_iff.mp hs
    exact .inr hD
  | complete i res =>
    obtain ⟨R, hR, rfl⟩ := Option.map_eq_some_iff.mp hs
    exact .inr ⟨R, hR, rfl⟩
  | acquire layer expert =>
    obtain rfl := Option.some.inj hs
    left
    rw [Sys.acquire]
    repeat' split
    all_goals exact ⟨_, rfl⟩
  | acquireRead i ok =>
    obtain ⟨r, hr, rfl⟩ := Option.map_eq_some_iff.mp hs
    left
    simp only
    repeat' split
    all_goals exact ⟨_, rfl⟩
  | release layer expert i =>
    obtain rfl := Option.some.inj hs
    left
    rw [Sys.release]
    repeat' split
    all_goals exact ⟨_, rfl⟩
  | prefillFetch layer experts set =>
    obtain rfl := Option.some.inj hs
    left
    simp only [Sys.prefillFetch]
    repeat' split
    all_goals exact ⟨_, rfl⟩
  | prefillRead i ok =>
    obtain ⟨f, hf, hs⟩ := Option.bind_eq_some_iff.mp hs
    left
    split at hs
    · exact Option.some.inj hs ▸ ⟨_, rfl⟩
    · split at hs
      · exact Option.some.inj hs ▸ ⟨_, rfl⟩
      · simp at hs
  | prefillRelease layer experts i =>
    obtain rfl := Option.some.inj hs
    left
    rw [Sys.prefillRelease]
    repeat' split
    all_goals exact ⟨_, rfl⟩

/-- When every prepared read is submitted, none waits outside `submit`. -/
theorem sq_eq_nil_of_step (h : S.disp.pc.submitting = false → S.disp.ring.sq = [])
    {a : Act} (ha : SubmitsAll S a) (hs : S.step a = some S') :
    S'.disp.pc.submitting = false → S'.disp.ring.sq = [] := by
  rcases step_disp_eq hs with ⟨T, hT⟩ | hD
  · rw [hT]
    exact h
  · cases a with
    | serve l seq req =>
      intro _
      simp only [Dispatcher.serve] at hD
      split at hD
      · next hpc => exact Option.some.inj hD ▸ h (by rw [hpc.1]; rfl)
      · simp at hD
    | run => exact fun hpc => ((run_sq hD).2 hpc).trans (h (run_sq hD).1)
    | kernel rc => exact fun _ => (kernel_sq hD).2.trans (h (kernel_sq hD).1)
    | submit r =>
      obtain rfl : r = .accepted S.disp.ring.sq.length := ha
      exact fun _ => submit_sq hD
    | complete i res =>
      obtain ⟨R, hR, hD⟩ := hD
      obtain ⟨r, -, rfl⟩ := Option.map_eq_some_iff.mp hR
      rw [hD]
      exact h
    | _ => exact hD.elim

/-- The runs of the store tail in which every prepared read is submitted. -/
def submitsAllSystem : TransitionSystem Sys Act := tierSystem.onlySteps SubmitsAll

/-- Where every prepared read is submitted, every request is begun with an empty
submission queue. -/
theorem cleanSystem_of_submitsAll (h : submitsAllSystem.Reachable S) :
    cleanSystem.Reachable S := by
  suffices hs : cleanSystem.Reachable S ∧
      (S.disp.pc.submitting = false → S.disp.ring.sq = []) from hs.1
  induction h with
  | start h => exact ⟨.start h, fun _ => h.ring.1⟩
  | step _ hstep ih =>
    next S S' a _ =>
    obtain ⟨ha, hs⟩ := hstep
    refine ⟨.step ih.1 ⟨?_, hs⟩, sq_eq_nil_of_step ih.2 ha hs⟩
    cases a with
    | serve l seq req =>
      refine ih.2 ?_
      change (S.disp.serve l seq req).map _ = some S' at hs
      rw [Dispatcher.serve] at hs
      split at hs
      · next hpc => rw [hpc.1]; rfl
      · simp at hs
    | _ => trivial

/-- **Arena slots are neither lost nor shared.** In every reachable state of a tier whose
prepared reads are all submitted, the spare slots, the layers' nodes and the targets of the
unfinished reads are together the slots of the arena, each exactly once; every layer's
nodes form a doubly linked list of `n_resident` nodes, which contains a slot exactly if
`slot_of` of the slot's expert is the slot and its layer is this one, and `records` holds
the addresses of the resident slots and nothing for the other cold experts. -/
theorem arena_slots_once (h : submitsAllSystem.Reachable S) :
    ∃ ns : ℕ → List ℕ,
      (S.tier.tail.freeSlots ++ (List.range S.tier.nLayers).flatMap ns ++ S.targets).Perm
        (List.range S.tier.tail.nSlots) ∧
      ∀ l < S.tier.nLayers, let L := S.tier.layers l
        S.tier.tail.links.IsList L.lru (ns l) ∧ L.nResident = (ns l).length ∧
        (∀ s, s ∈ ns l ↔ ((S.tier.tail.slots s).expert.bind L.slotOf = some s ∧
          (S.tier.tail.slots s).layer = some l)) ∧
        ∀ e, (∀ s, L.slotOf e = some s → L.records e = some (S.tier.tail.addr s)) ∧
          (L.slotOf e = none → L.cold e = true → L.records e = none) := by
  obtain ⟨c, hc⟩ := sysOk_of_reachable (cleanSystem_of_submitsAll h)
  obtain ⟨ns, ha⟩ := hc.disp.arena
  refine ⟨ns, ha.perm, fun l hl => ?_⟩
  have hok := ha.layer l hl
  exact ⟨hok.list, hok.count, hok.mem_iff, fun e => ⟨hok.resident e, hok.absent e⟩⟩

/-- A tier of one layer before the adoption: expert 0's record is registered in the arena's
first slot, experts 1 and 2 are cold, one record may stay resident and there are two spare
slots. -/
def smallSetup : Tier :=
  (beforeAdopt 1 3 [(0, 0, some 4096)] 4096 3 1 8 true 1 2 [(0, 1), (0, 2)]).getD (create 0 0)

/-- The tier of `smallSetup`, just started. -/
def smallSys : Sys where
  disp := ⟨storeTailAdopt smallSetup, ⟨16, [], [], []⟩, .idle,
    Frame.entry 0 0 ⟨0, 0, fun _ => ⟨0, 0, 0⟩, 0, fun _ => 0⟩, [], [], []⟩
  acquiring := []
  acquired := []
  fetching := []
  fetched := []
  leaked := []

theorem records_smallSetup {l e p : ℕ} (h : (smallSetup.layers l).records e = some p) :
    l = 0 ∧ e = 0 ∧ p = 4096 := by
  rcases Nat.eq_zero_or_pos l with rfl | hl
  · rcases Nat.eq_zero_or_pos e with rfl | he
    · exact ⟨rfl, rfl, (Option.some.inj h).symm⟩
    · have hr : (smallSetup.layers 0).records e = if e = 0 then some 4096 else none :=
        Function.update_apply _ _ _ _
      simp [hr, he.ne'] at h
  · have hr : (smallSetup.layers l).records e = none := by
      simp [smallSetup, beforeAdopt, storeTailInit, setRecord, setRecordCold, checked, create,
        hl.ne']
    simp [hr] at h

theorem start_smallSys : Start smallSys where
  tier := by
    refine ⟨smallSetup, 1, 3, [(0, 0, some 4096)], 4096, 3, 1, 8, true, 1, 2, [(0, 1), (0, 2)],
      rfl, ⟨fun l e l' e' s hs hs' => ?_, fun l e p hc hp => ?_⟩, rfl⟩
    · obtain ⟨p, hp, -⟩ := Option.bind_eq_some_iff.mp hs
      obtain ⟨p', hp', -⟩ := Option.bind_eq_some_iff.mp hs'
      obtain ⟨rfl, rfl, -⟩ := records_smallSetup hp
      obtain ⟨rfl, rfl, -⟩ := records_smallSetup hp'
      exact ⟨rfl, rfl⟩
    · obtain ⟨rfl, rfl, rfl⟩ := records_smallSetup hp
      rfl
  ring := ⟨rfl, rfl, rfl⟩
  pc := rfl
  pinned := rfl
  calls := ⟨rfl, rfl, rfl, rfl, rfl⟩

/-- While `record_acquire` reads expert 1's record, slot 1 is the target of its read. -/
theorem arena_slots_once_acquiring :
    (smallSys.acquire 0 1).targets = [1] ∧ ∃ ns : ℕ → List ℕ,
      ((smallSys.acquire 0 1).tier.tail.freeSlots ++ (List.range 1).flatMap ns ++ [1]).Perm
        (List.range 3) := by
  obtain ⟨ns, hp, -⟩ := arena_slots_once (S := smallSys.acquire 0 1)
    (.step (a := .acquire 0 1) (.start start_smallSys) ⟨trivial, rfl⟩)
  exact ⟨rfl, ns, hp⟩

end CpuTier

end VllmMoet
