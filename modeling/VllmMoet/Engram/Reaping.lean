import VllmMoet.Engram.Bookkeeping

/-!
# Reaping keeps the books

A completion frees its slot and marks half an entry. The second half frees the entry, and its
job counts it down; the last count finishes the job.
-/

namespace VllmMoet

namespace Engram

variable {B : Type*} {C : Cfg B} {F F' : Fetcher B} {g d : Option ℕ} {q : List ℕ}
  {e i id l : ℕ} {h : Half} {r : Read} {res : ℤ} {cq : List (Read × ℤ)}

/-! ### The slot -/

/-- The oldest completion leaves the ring and its slot is free. -/
def Fetcher.pop (F : Fetcher B) (r : Read) (cq : List (Read × ℤ)) : Fetcher B :=
  { F with
    ring := { F.ring with cq := cq }
    freeSlots := r.ud :: F.freeSlots }

theorem mem_reads_pop (hcq : F.ring.cq = (r, res) :: cq) {r' : Read} :
    r' ∈ F.ring.reads ↔ r' = r ∨ r' ∈ (F.pop r cq).ring.reads :=
  (Uring.reads_pop hcq).mem_iff.trans List.mem_cons

/-- No other read is for the half that was reaped. -/
theorem Books.pop_target (hb : Books C F g d q) (hcq : F.ring.cq = (r, res) :: cq) :
    ∀ r' ∈ (F.pop r cq).ring.reads, F.target r' ≠ F.target r := by
  intro r' hr' heq
  have hnd := hb.distinct
  rw [((Uring.reads_pop hcq).map F.target).nodup_iff, List.map_cons, List.nodup_cons] at hnd
  exact hnd.1 (heq ▸ List.mem_map_of_mem hr')

theorem Books.pop (hb : Books C F g d q) (hcq : F.ring.cq = (r, res) :: cq) :
    Books C (F.pop r cq) g d q := by
  have hmem : ∀ r' ∈ (F.pop r cq).ring.reads, r' ∈ F.ring.reads := fun r' hr' =>
    (mem_reads_pop hcq).mpr (.inr hr')
  have hperm := Uring.reads_pop hcq
  refine ⟨hb.freeNodup, hb.freeLt, hb.pending, ?_, fun r' hr' => hb.reads r' (hmem r' hr'), ?_,
    hb.queueNodup, fun x hx => ?_, hb.owner, hb.count, hb.waiting, hb.guard, hb.log, hb.debt⟩
  · refine List.Perm.trans ?_ hb.slots
    refine List.Perm.trans ?_ ((hperm.map Read.ud).append_left F.freeSlots).symm
    rw [List.map_cons]
    exact List.perm_middle.symm
  · have hnd := hb.distinct
    rw [(hperm.map F.target).nodup_iff, List.map_cons, List.nodup_cons] at hnd
    exact hnd.2
  · obtain ⟨hlv, hjob, hdone, hread⟩ := hb.queued x hx
    exact ⟨hlv, hjob, hdone, fun r' hr' => hread r' (hmem r' hr')⟩

/-! ### The entry -/

/-- An entry is erased from the pending rows and goes to the free list. -/
def Fetcher.free (F : Fetcher B) (e : ℕ) : Fetcher B :=
  { F.setPending (F.entries e).layer (F.entries e).id none with
    freeEntries := e :: F.freeEntries }

theorem live_free (x : ℕ) : (F.free e).Live x ↔ F.Live x ∧ x ≠ e := by
  simp only [Fetcher.free, Fetcher.Live, Fetcher.setPending, List.mem_cons, not_or]
  tauto

theorem owned_free (l : ℕ) : (F.free e).owned l = (F.owned l).erase e := by
  ext x
  rw [mem_owned, live_free, Finset.mem_erase, mem_owned]
  change ((_ ∧ _) ∧ (F.entries x).job = some l) ↔ _
  tauto

theorem pending_free (l id : ℕ) : (F.free e).pending l id =
    if l = (F.entries e).layer ∧ id = (F.entries e).id then none else F.pending l id := by
  simp only [Fetcher.free, Fetcher.setPending, Function.update_apply]
  by_cases hl : l = (F.entries e).layer
  · by_cases hid : id = (F.entries e).id <;> simp [hl, hid]
  · simp [hl]

/-- An entry that has no reads is freed: its job, if any, has one to count down. -/
theorem Books.free (hb : Books C F g none q) (hlive : F.Live e)
    (hread : ∀ r ∈ F.ring.reads, (F.target r).1 ≠ e) (hq : e ∉ q) :
    Books C (F.free e) g (F.entries e).job q := by
  refine ⟨List.nodup_cons.mpr ⟨hlive.2, hb.freeNodup⟩, fun x hx => ?_, fun l id x => ?_, hb.slots,
    fun r hr => ?_, hb.distinct, hb.queueNodup, fun x hx => ?_, fun x hx l hl => ?_, fun l => ?_,
    hb.waiting, hb.guard, hb.log, fun l hl => (hb.owner e hlive l hl).2⟩
  · rcases List.mem_cons.mp hx with rfl | hx
    · exact hlive.1
    · exact hb.freeLt x hx
  · rw [pending_free, live_free]
    change _ ↔ (_ ∧ _) ∧ (F.entries x).layer = l ∧ (F.entries x).id = id
    split
    · next hrow =>
      obtain ⟨rfl, rfl⟩ := hrow
      constructor
      · intro hp
        simp at hp
      · rintro ⟨⟨hlv, hne⟩, hlay, hid⟩
        -- only one entry is pending for a row
        have hp := (hb.pending _ _ _).mpr ⟨hlv, hlay, hid⟩
        have hp' := (hb.pending _ _ _).mpr ⟨hlive, rfl, rfl⟩
        rw [hp] at hp'
        exact absurd (Option.some.inj hp') hne
    · next hrow =>
      rw [hb.pending]
      constructor
      · rintro ⟨hlv, hlay, hid⟩
        refine ⟨⟨hlv, fun heq => hrow ?_⟩, hlay, hid⟩
        subst heq
        exact ⟨hlay.symm, hid.symm⟩
      · rintro ⟨⟨hlv, -⟩, hrest⟩
        exact ⟨hlv, hrest⟩
  · obtain ⟨hlv, hdone⟩ := hb.reads r hr
    exact ⟨(live_free _).mpr ⟨hlv, hread r hr⟩, hdone⟩
  · obtain ⟨hlv, hrest⟩ := hb.queued x hx
    exact ⟨(live_free _).mpr ⟨hlv, fun heq => hq (heq ▸ hx)⟩, hrest⟩
  · exact hb.owner x ((live_free _).mp hx).1 l hl
  · rw [owned_free]
    have hcount := hb.count l
    change (F.jobs l).remaining = _
    rw [hcount, if_neg (by simp : ¬ (none : Option ℕ) = some l)]
    by_cases hjob : (F.entries e).job = some l
    · have he : e ∈ F.owned l := mem_owned.mpr ⟨hlive, hjob⟩
      have := Finset.card_pos.mpr ⟨e, he⟩
      rw [if_pos hjob, Finset.card_erase_of_mem he]
      omega
    · have he : e ∉ F.owned l := fun he => hjob (mem_owned.mp he).2
      rw [if_neg hjob, Finset.erase_eq_of_notMem he]

theorem Fetcher.Open.free (hF : F.Open) : (F.free e).Open := fun x hx =>
  hF x ((live_free x).mp hx).1

/-! ### The count -/

theorem countDown_eq (F : Fetcher B) (l : ℕ) : ∃ jobs acks, F.countDown l = { F with
    jobs := jobs
    acks := acks } := by
  rw [Fetcher.countDown]
  split <;> exact ⟨_, _, rfl⟩

/-- A job counts down what it has to. -/
theorem Books.countDown (hb : Books C F g (some l) q) : Books C (F.countDown l) g none q := by
  have hact := hb.debt l rfl
  have hcount := hb.count l
  have hpos := hb.waiting l hact
  rw [if_pos rfl] at hcount
  rw [Fetcher.countDown]
  have hother : ∀ k ≠ l, (F.jobs k).remaining =
      (F.owned k).card + (if g = some k then 1 else 0) + 0 := by
    intro k hk
    rw [hb.count k, if_neg fun heq => hk (Option.some.inj heq).symm]
  split
  · next hzero =>
    -- the last one: nothing is left that would count the job down again
    have hnone : F.owned l = ∅ := by
      rw [← Finset.card_eq_zero]
      split at hcount <;> omega
    have hg : g ≠ some l := by
      intro hg
      rw [if_pos hg] at hcount
      omega
    refine ⟨hb.freeNodup, hb.freeLt, hb.pending, hb.slots, hb.reads, hb.distinct, hb.queueNodup,
      hb.queued, fun x hx k hk => ?_, fun k => ?_, fun k hk => ?_, fun k hk => ?_, fun k => ?_,
      fun k hk => by simp at hk⟩
    · obtain ⟨hlay, hk'⟩ := hb.owner x hx k hk
      have hne : k ≠ l := by
        rintro rfl
        have : x ∈ F.owned k := mem_owned.mpr ⟨hx, hk⟩
        simp [hnone] at this
      exact ⟨hlay, by simpa [Fetcher.finishJob, Fetcher.setJob, hne] using hk'⟩
    · change _ = ((F.owned k).card : ℤ) + _ + _
      rcases eq_or_ne k l with rfl | hne
      · simp [hnone, Fetcher.finishJob, Fetcher.setJob, hzero, hg]
      · simpa [Fetcher.finishJob, Fetcher.setJob, hne] using hother k hne
    · rcases eq_or_ne k l with rfl | hne
      · simp [Fetcher.finishJob, Fetcher.setJob] at hk
      · simp only [Fetcher.finishJob, Fetcher.setJob, Function.update_of_ne hne] at hk ⊢
        exact hb.waiting k hk
    · have hne : k ≠ l := by
        rintro rfl
        exact hg hk
      simpa [Fetcher.finishJob, Fetcher.setJob, hne] using hb.guard k hk
    · have hlog := hb.log k
      rcases eq_or_ne k l with rfl | hne
      · simpa [Fetcher.finishJob, Fetcher.setJob, hact] using hlog
      · simpa [Fetcher.finishJob, Fetcher.setJob, hne] using hlog
  · next hzero =>
    refine ⟨hb.freeNodup, hb.freeLt, hb.pending, hb.slots, hb.reads, hb.distinct, hb.queueNodup,
      hb.queued, fun x hx k hk => ?_, fun k => ?_, fun k hk => ?_, fun k hk => ?_, fun k => ?_,
      fun k hk => by simp at hk⟩
    · obtain ⟨hlay, hk'⟩ := hb.owner x hx k hk
      refine ⟨hlay, ?_⟩
      rcases eq_or_ne k l with rfl | hne
      · simpa [Fetcher.setJob] using hk'
      · simpa [Fetcher.setJob, hne] using hk'
    · change _ = ((F.owned k).card : ℤ) + _ + _
      rcases eq_or_ne k l with rfl | hne
      · simp only [Fetcher.setJob, Function.update_self]
        rw [if_neg (by simp : ¬ (none : Option ℕ) = some k)]
        omega
      · simpa [Fetcher.setJob, hne] using hother k hne
    · rcases eq_or_ne k l with rfl | hne
      · simp only [Fetcher.setJob, Function.update_self]
        omega
      · simp only [Fetcher.setJob, Function.update_of_ne hne] at hk ⊢
        exact hb.waiting k hk
    · rcases eq_or_ne k l with rfl | hne
      · simpa [Fetcher.setJob] using hb.guard k hk
      · simpa [Fetcher.setJob, hne] using hb.guard k hk
    · have hlog := hb.log k
      rcases eq_or_ne k l with rfl | hne
      · simpa [Fetcher.setJob] using hlog
      · simpa [Fetcher.setJob, hne] using hlog

/-- The guard is an entry of its own. -/
theorem Books.guardDown (hb : Books C F (some l) none []) : Books C F none (some l) [] := by
  refine ⟨hb.freeNodup, hb.freeLt, hb.pending, hb.slots, hb.reads, hb.distinct, hb.queueNodup,
    fun x hx => absurd hx (by simp), hb.owner, fun k => ?_, hb.waiting, fun k hk => by simp at hk,
    hb.log, hb.guard⟩
  rw [hb.count k]
  simp

/-! ### An entry completes -/

theorem foldl_stage (k : ℕ) (row : Row B) (ds : List ℕ) :
    ∃ staging, ds.foldl (fun F i => F.stage k i row) F = { F with staging := staging } := by
  induction ds generalizing F with
  | nil => exact ⟨_, rfl⟩
  | cons i ds ih =>
    obtain ⟨staging, hds⟩ := ih (F := F.stage k i row)
    exact ⟨staging, hds⟩

/-- The count and the free list do not depend on each other. -/
theorem countDown_free (F : Fetcher B) (l e : ℕ) :
    { F.countDown l with freeEntries := e :: (F.countDown l).freeEntries } =
      Fetcher.countDown { F with freeEntries := e :: F.freeEntries } l := by
  rw [Fetcher.countDown, Fetcher.countDown]
  by_cases h : (F.jobs l).remaining - 1 = 0
  · rw [if_pos h, if_pos h]
    rfl
  · rw [if_neg h, if_neg h]
    rfl

/-- A delivery writes staging rows, may fail the job, and counts the entry down. -/
theorem deliver_eq (F : Fetcher B) (e l : ℕ) : ∃ staging J,
    (J.remaining = (F.jobs l).remaining ∧ J.active = (F.jobs l).active ∧
      J.seq = (F.jobs l).seq) ∧
    F.deliver e l = Fetcher.countDown { F.setJob l J with staging := staging } l := by
  simp only [Fetcher.deliver]
  split
  · let J : Job := { F.jobs l with failed := true, status := 1 }
    obtain ⟨staging, hst⟩ := foldl_stage (F := F.setJob l J) (F.entries e).layer
      (F.entries e).row (F.entries e).dsts
    exact ⟨staging, J, ⟨rfl, rfl, rfl⟩, congrArg (fun G => Fetcher.countDown G l) hst⟩
  · obtain ⟨staging, hst⟩ := foldl_stage (F := F) (F.entries e).layer (F.entries e).row
      (F.entries e).dsts
    have hjob : F.setJob l (F.jobs l) = F := by simp [Fetcher.setJob]
    refine ⟨staging, F.jobs l, ⟨rfl, rfl, rfl⟩, ?_⟩
    rw [hst, hjob]

/-- A completed entry is freed, and its job, if any, counts it down. -/
theorem completeEntry_cases (F : Fetcher B) (e : ℕ) : ∃ cache,
    ((F.entries e).job = none ∧ F.completeEntry e = { F.free e with cache := cache }) ∨
      ∃ l staging J, (F.entries e).job = some l ∧
        (J.remaining = (F.jobs l).remaining ∧ J.active = (F.jobs l).active ∧
          J.seq = (F.jobs l).seq) ∧
        F.completeEntry e = Fetcher.countDown { (F.free e).setJob l J with
          cache := cache
          staging := staging } l := by
  have hcache : ∃ cache, (if (F.entries e).failed then
        F.setPending (F.entries e).layer (F.entries e).id none
      else (F.setPending (F.entries e).layer (F.entries e).id none).setCache (F.entries e).layer
        ((F.cache (F.entries e).layer).insert (F.entries e).id (F.entries e).row)) =
      { F.setPending (F.entries e).layer (F.entries e).id none with cache := cache } := by
    split <;> exact ⟨_, rfl⟩
  obtain ⟨cache, hcache⟩ := hcache
  refine ⟨cache, ?_⟩
  rw [Fetcher.completeEntry]
  simp only [Fetcher.setPending] at hcache ⊢
  rw [hcache]
  split
  · next l hjob =>
    obtain ⟨staging, J, hJ, heq⟩ := deliver_eq { F.setPending (F.entries e).layer
      (F.entries e).id none with cache := cache } e l
    simp only [Fetcher.setPending] at heq
    rw [heq, countDown_free]
    exact .inr ⟨l, staging, J, hjob, hJ, rfl⟩
  · next hjob => exact .inl ⟨hjob, rfl⟩

/-- An entry whose halves are both done completes. -/
theorem Books.completeEntry (hb : Books C F g none q) (hlive : F.Live e)
    (hdone : ∀ h, (F.entries e).done h = true) : Books C (F.completeEntry e) g none q := by
  have hread : ∀ r ∈ F.ring.reads, (F.target r).1 ≠ e := by
    rintro r hr rfl
    have := (hb.reads r hr).2
    rw [hdone] at this
    simp at this
  have hq : e ∉ q := by
    intro he
    have := (hb.queued e he).2.2.1 .values
    rw [hdone] at this
    simp at this
  have hfree := hb.free hlive hread hq
  obtain ⟨cache, ⟨hjob, heq⟩ | ⟨l, staging, J, hjob, hJ, heq⟩⟩ := completeEntry_cases F e
  · rw [hjob] at hfree
    rw [heq]
    exact hfree.other _ _ _ _ _ _ _ _ _ _ _
  · rw [hjob] at hfree
    rw [heq]
    exact ((hfree.setJob hJ).other _ _ _ _ _ _ _ _ _ _ _).countDown

/-- Besides the free list and the pending rows, a completed entry changes the caches, the
staging rows, the jobs and their acknowledgements. -/
theorem completeEntry_frame (F : Fetcher B) (e : ℕ) : ∃ cache staging jobs acks,
    F.completeEntry e = { F.free e with
      cache := cache
      staging := staging
      jobs := jobs
      acks := acks } := by
  obtain ⟨cache, ⟨-, heq⟩ | ⟨l, staging, J, -, -, heq⟩⟩ := completeEntry_cases F e
  · exact ⟨cache, F.staging, F.jobs, F.acks, heq⟩
  · obtain ⟨jobs, acks, hdown⟩ := countDown_eq { (F.free e).setJob l J with
      cache := cache
      staging := staging } l
    exact ⟨cache, staging, jobs, acks, heq.trans hdown⟩

/-! ### A completion -/

theorem landed_same (S : Slot B) (E : Entry B) (res : ℤ) :
    (Fetcher.landed S E res).layer = E.layer ∧ (Fetcher.landed S E res).id = E.id ∧
      (Fetcher.landed S E res).done = Function.update E.done S.half true ∧
      (Fetcher.landed S E res).job = E.job := by
  rw [Fetcher.landed]
  split <;> simp

/-- The fetcher with the read's bytes at its entry and its slot free. -/
theorem reapOne_eq (F : Fetcher B) (r : Read) (res : ℤ) (cq : List (Read × ℤ)) : ∃ jobs,
    (∀ l, ∃ n, jobs l = { F.jobs l with nReads := n }) ∧
    F.reapOne r res cq =
      let e := (F.slots r.ud).entry
      let E := Fetcher.landed (F.slots r.ud) (F.entries e) res
      let G : Fetcher B := { (F.pop r cq).setEntry e E with jobs := jobs }
      if E.done .values && E.done .scales then G.completeEntry e else G := by
  rcases hjob : (Fetcher.landed (F.slots r.ud) (F.entries (F.slots r.ud).entry) res).job with _ | l
  · refine ⟨F.jobs, fun k => ⟨_, rfl⟩, ?_⟩
    simp only [Fetcher.reapOne, hjob]
    rfl
  · refine ⟨Function.update F.jobs l { F.jobs l with nReads := (F.jobs l).nReads + 1 },
      fun k => ?_, ?_⟩
    · rcases eq_or_ne k l with rfl | hne
      · exact ⟨_, Function.update_self ..⟩
      · exact ⟨_, Function.update_of_ne hne ..⟩
    · simp only [Fetcher.reapOne, hjob]
      rfl

/-- A job that counts a read keeps its other numbers. -/
theorem same_of_reads {jobs : ℕ → Job} (h : ∀ l, ∃ n, jobs l = { F.jobs l with nReads := n })
    (l : ℕ) : (jobs l).remaining = (F.jobs l).remaining ∧ (jobs l).active = (F.jobs l).active ∧
      (jobs l).seq = (F.jobs l).seq := by
  obtain ⟨n, hn⟩ := h l
  rw [hn]
  exact ⟨rfl, rfl, rfl⟩

/-- Reaping one completion keeps the books. -/
theorem Books.reapOne (hb : Books C F g none q) (hF : F.Open)
    (hcq : F.ring.cq = (r, res) :: cq) :
    Books C (F.reapOne r res cq) g none q ∧ (F.reapOne r res cq).Open := by
  obtain ⟨jobs, hjobs, heq⟩ := reapOne_eq F r res cq
  rw [heq]
  have hr : r ∈ F.ring.reads := (mem_reads_pop hcq).mpr (.inl rfl)
  have hlive : F.Live (F.slots r.ud).entry := (hb.reads r hr).1
  have hq : (F.slots r.ud).entry ∉ q := fun he => (hb.queued _ he).2.2.2 r hr rfl
  have hbE := (hb.pop hcq).mark (landed_same (F.slots r.ud) (F.entries (F.slots r.ud).entry) res)
    (hb.pop_target hcq) hq
  have hbG := hbE.setJobs (same_of_reads hjobs)
  -- the other entries stay open
  have hopen : ∀ x ≠ (F.slots r.ud).entry, F.Live x →
      ∃ h, ((F.setEntry (F.slots r.ud).entry (Fetcher.landed (F.slots r.ud)
        (F.entries (F.slots r.ud).entry) res)).entries x).done h = false := by
    intro x hx hlv
    simpa [Fetcher.setEntry, hx] using hF x hlv
  dsimp only
  split
  · next hdone =>
    rw [Bool.and_eq_true] at hdone
    have hfull : ∀ h, (Fetcher.landed (F.slots r.ud)
        (F.entries (F.slots r.ud).entry) res).done h = true := by
      rintro (_ | _)
      · exact hdone.1
      · exact hdone.2
    refine ⟨hbG.completeEntry hlive ?_, ?_⟩
    · simpa [Fetcher.setEntry] using hfull
    · obtain ⟨cache, staging, jobs', acks, hframe⟩ := completeEntry_frame
        { (F.pop r cq).setEntry (F.slots r.ud).entry (Fetcher.landed (F.slots r.ud)
          (F.entries (F.slots r.ud).entry) res) with jobs := jobs } (F.slots r.ud).entry
      rw [hframe]
      intro x hx
      obtain ⟨hlv, hne⟩ := (live_free x).mp hx
      exact hopen x hne hlv
  · next hdone =>
    refine ⟨hbG, fun x hx => ?_⟩
    rcases eq_or_ne x (F.slots r.ud).entry with rfl | hne
    · rcases hv : (Fetcher.landed (F.slots r.ud) (F.entries (F.slots r.ud).entry) res).done
        .values with _ | _
      · exact ⟨.values, by simpa [Fetcher.setEntry] using hv⟩
      · refine ⟨.scales, ?_⟩
        rw [hv, Bool.true_and, Bool.not_eq_true] at hdone
        simpa [Fetcher.setEntry] using hdone
    · exact hopen x hne hx

end Engram

end VllmMoet
