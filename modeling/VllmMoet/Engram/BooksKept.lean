import VllmMoet.Engram.Reaping

/-!
# The fetcher's books are kept

Every step of the fetcher, of the kernel and of the other threads keeps `Books`, from any
state, whatever the kernel answers (`booksOk_invariant`).
-/

namespace VllmMoet

namespace Engram

variable {B : Type*} {C : Cfg B} {F F' G : Fetcher B} {g d : Option ℕ} {q : List ℕ}
  {e i id l : ℕ} {h : Half} {r : Read} {res : ℤ} {cq : List (Read × ℤ)}

/-- The layer whose job has its guard at `pc`. -/
def Pc.guard : Pc → Option ℕ
  | .rows l _ => some l
  | .more l => some l
  | .issue l => some l
  | .submit l => some l
  | .wait l => some l
  | .reapIn l => some l
  | .release l => some l
  | _ => none

/-- The books agree where the fetcher stands. What is queued belongs to the job with the guard,
and nothing is when the guard is released. -/
structure BooksOk (C : Cfg B) (F : Fetcher B) : Prop where
  books : Books C F F.pc.guard none F.queued
  isOpen : F.Open
  idle : F.pc.guard = none → F.queued = []
  released : ∀ l, F.pc = .release l → F.queued = []

/-! ### Issuing -/

/-- Besides an entry's own record, issuing changes the slots and the ring. -/
theorem issueRead_frame (F : Fetcher B) (C : Cfg B) (e : ℕ) (h : Half) :
    ∃ freeSlots slots ring, F.issueRead C e h = { F with
      freeSlots := freeSlots
      slots := slots
      ring := ring } := by
  rw [Fetcher.issueRead]
  split
  · exact ⟨_, _, _, rfl⟩
  · exact ⟨_, _, _, rfl⟩

/-- Issuing an entry changes its slots, the ring and the entry. -/
theorem issueEntry_frame (hs : F.issueEntry C e = some F') :
    ∃ freeSlots slots ring entries, F' = { F with
      freeSlots := freeSlots
      slots := slots
      ring := ring
      entries := entries } := by
  simp only [Fetcher.issueEntry] at hs
  split at hs
  · split at hs
    · simp at hs
    · obtain rfl := Option.some.inj hs
      obtain ⟨_, _, _, heq⟩ := issueRead_frame (F.setEntry e _) C e .values
      rw [heq]
      exact ⟨_, _, _, _, rfl⟩
  · split at hs
    · simp at hs
    · obtain rfl := Option.some.inj hs
      obtain ⟨_, _, _, heq⟩ := issueRead_frame (F.issueRead C e .values) C e .scales
      obtain ⟨_, _, _, heq'⟩ := issueRead_frame F C e .values
      rw [heq, heq']
      exact ⟨_, _, _, _, rfl⟩

/-- The values of an entry that is issued are not done. -/
theorem Fetcher.Open.issueEntry (hF : F.Open) (hu : Unissued F e)
    (hs : F.issueEntry C e = some F') : F'.Open := by
  intro x hx
  have hlive : F.Live x := by
    obtain ⟨_, _, _, _, rfl⟩ := issueEntry_frame hs
    exact hx
  simp only [Fetcher.issueEntry] at hs
  split at hs
  · split at hs
    · simp at hs
    · obtain rfl := Option.some.inj hs
      rw [issueRead_entries]
      rcases eq_or_ne x e with rfl | hne
      · exact ⟨.values, by simpa [Fetcher.setEntry] using hu.done .values⟩
      · simpa [Fetcher.setEntry, hne] using hF x hlive
  · split at hs
    · simp at hs
    · obtain rfl := Option.some.inj hs
      rw [issueRead_entries, issueRead_entries]
      exact hF x hlive

/-- The entry of the queue is issued, or stays in it. -/
theorem BooksOk.issueStep (hF : BooksOk C F) (hpc : F.pc = .issue l) :
    BooksOk C (F.issueStep C l) := by
  obtain ⟨hb, hopen, -, -⟩ := hF
  rw [hpc] at hb
  rw [Fetcher.issueStep]
  have hstop : BooksOk C (F.goto (.submit l)) :=
    ⟨hb.other _ _ _ _ _ _ _ _ _ _ _, hopen, by simp [Fetcher.goto, Pc.guard],
      by simp [Fetcher.goto]⟩
  split
  · exact hstop
  · next e es hq =>
    split
    · exact hstop
    · next F' hs =>
      rw [hq] at hb
      obtain ⟨hlive, -, hdone, hread⟩ := hb.queued e (List.mem_cons_self ..)
      have hu : Unissued F e := ⟨hlive, hdone, hread⟩
      have hnot : e ∉ es := (List.nodup_cons.mp hb.queueNodup).1
      have hb' := hb.dequeue.issueEntry hu hnot hs
      have hpc' : F'.pc = F.pc := by
        obtain ⟨_, _, _, _, rfl⟩ := issueEntry_frame hs
        rfl
      have hopen' : F'.Open := hopen.issueEntry hu hs
      refine ⟨?_, hopen', ?_, ?_⟩
      · change Books C { F' with queued := es } F'.pc.guard none es
        rw [hpc', hpc]
        exact hb'.other _ _ _ _ _ _ _ _ _ _ _
      · change F'.pc.guard = none → _
        rw [hpc', hpc]
        exact fun hg => absurd hg (by simp [Pc.guard])
      · change ∀ k, F'.pc = _ → _
        rw [hpc', hpc]
        exact fun k hk => absurd hk (by simp)

/-! ### The rows of a request -/

/-- An entry with the same halves done is as open as before. -/
theorem open_setEntry (hopen : F.Open) {E : Entry B} (hE : E.done = (F.entries e).done) :
    (F.setEntry e E).Open := by
  intro x hx
  rcases eq_or_ne x e with rfl | hne
  · simpa [Fetcher.setEntry, hE] using hopen x hx
  · simpa [Fetcher.setEntry, hne] using hopen x hx

/-- A row that is missed is adopted, or counted and queued. -/
theorem Books.miss (hb : Books C F (some l) none F.queued) (hopen : F.Open) :
    Books C (F.miss l i id) (some l) none (F.miss l i id).queued ∧ (F.miss l i id).Open := by
  rw [Fetcher.miss]
  split
  · next e hp =>
    obtain ⟨hlive, hlayer, -⟩ := (hb.pending l id e).mp hp
    dsimp only
    split
    · next hnone =>
      have ha := hb.adopt (E := { F.entries e with job := some l, firstDst := some i })
        (J := { F.jobs l with remaining := (F.jobs l).remaining + 1 }) hlive hnone rfl
        ⟨rfl, rfl, rfl, rfl⟩ hlayer ⟨rfl, rfl, rfl⟩
      have hopen' : (F.setEntry e { F.entries e with job := some l, firstDst := some i }).Open :=
        open_setEntry hopen rfl
      exact ⟨ha.other _ _ _ _ _ _ _ _ _ _ _, hopen'⟩
    · exact ⟨hb.setEntry ⟨rfl, rfl, rfl, rfl⟩, open_setEntry hopen rfl⟩
  · next hp =>
    have halloc := hb.alloc
    dsimp only
    generalize F.allocEntry = a at halloc ⊢
    obtain ⟨e, F₁⟩ := a
    obtain ⟨entries, nEntries, freeEntries, rfl⟩ := halloc.same
    have hjobs : ∀ k, ((Function.update F.jobs l { F.jobs l with
          remaining := (F.jobs l).remaining + 1 }) k).remaining =
          (F.jobs k).remaining + (if some l = some k then 1 else 0) ∧
        ((Function.update F.jobs l { F.jobs l with
          remaining := (F.jobs l).remaining + 1 }) k).active = (F.jobs k).active ∧
        ((Function.update F.jobs l { F.jobs l with
          remaining := (F.jobs l).remaining + 1 }) k).seq = (F.jobs k).seq := by
      intro k
      rcases eq_or_ne k l with rfl | hne
      · simp
      · simp [hne, hne.symm]
    have hins := halloc.inserted (E := { entries e with
      layer := l, id := id, job := some l, firstDst := some i }) hjobs
    have hnew := hb.newEntry (p := F.queued ++ [e]) hins halloc.blank.1 hp
      (fun k hk => by
        obtain rfl := Option.some.inj hk
        exact ⟨rfl, hb.guard _ rfl⟩) (.inr ⟨rfl, rfl⟩)
    exact ⟨hnew.other _ _ _ _ _ _ _ _ _ _ _, hins.open hopen halloc.blank.1⟩

/-- A row adds its entry to what its request waits for, or leaves the books alone. -/
theorem BooksOk.rowStep [Zero B] (hF : BooksOk C F) (hpc : F.pc = .rows l i) :
    BooksOk C (F.rowStep C l i) := by
  obtain ⟨hb, hopen, -, -⟩ := hF
  rw [hpc] at hb
  have hrow : Books C (F.row C l i) (some l) none (F.row C l i).queued ∧ (F.row C l i).Open := by
    simp only [Fetcher.row]
    split
    · exact ⟨hb.other _ _ _ _ _ _ _ _ _ _ _, hopen⟩
    · split
      · next e hloc => exact ⟨hb.setEntry ⟨rfl, rfl, rfl, rfl⟩, open_setEntry hopen rfl⟩
      · split
        · next row K hhit =>
          have hb' := hb.setJob (l := l) (J := { F.jobs l with nHits := (F.jobs l).nHits + 1 })
            ⟨rfl, rfl, rfl⟩
          exact ⟨hb'.other _ _ _ _ _ _ _ _ _ _ _, hopen⟩
        · have hb' := hb.setJob (l := l)
            (J := { F.jobs l with nMisses := (F.jobs l).nMisses + 1 }) ⟨rfl, rfl, rfl⟩
          exact hb'.miss hopen
  rw [Fetcher.rowStep]
  split
  · exact ⟨hrow.1.other _ _ _ _ _ _ _ _ _ _ _, hrow.2, by simp [Fetcher.goto, Pc.guard],
      by simp [Fetcher.goto]⟩
  · exact ⟨hb.other _ _ _ _ _ _ _ _ _ _ _, hopen, by simp [Fetcher.goto, Pc.guard],
      by simp [Fetcher.goto]⟩

/-! ### A job begins and releases its guard -/

/-- A job that is not active waits for no entry. -/
theorem owned_eq_empty (hb : Books C F g d q) (hact : (F.jobs l).active = false) :
    F.owned l = ∅ := by
  refine Finset.eq_empty_of_forall_notMem fun e he => ?_
  obtain ⟨hlive, hjob⟩ := mem_owned.mp he
  have := (hb.owner e hlive l hjob).2
  rw [hact] at this
  simp at this

/-- A job that begins has its guard. -/
theorem Books.begin (hb : Books C F none none []) (hact : (F.jobs l).active = false) {J : Job}
    {R : Request} (hJ : J.remaining = 1 ∧ J.active = true ∧ J.seq = R.step) :
    Books C { F.setJob l J with begun := Function.update F.begun l (F.begun l ++ [R]) }
      (some l) none [] := by
  obtain ⟨hrem, hactive, hseq⟩ := hJ
  have hnone := owned_eq_empty hb hact
  refine ⟨hb.freeNodup, hb.freeLt, hb.pending, hb.slots, hb.reads, hb.distinct, hb.queueNodup,
    fun x hx => absurd hx (by simp), fun x hx k hk => ?_, fun k => ?_, fun k hk => ?_,
    fun k hk => ?_, fun k => ?_, fun k hk => by simp at hk⟩
  · obtain ⟨hlay, hk'⟩ := hb.owner x hx k hk
    refine ⟨hlay, ?_⟩
    rcases eq_or_ne k l with rfl | hne
    · simpa [Fetcher.setJob] using hactive
    · simpa [Fetcher.setJob, hne] using hk'
  · change _ = ((F.owned k).card : ℤ) + _ + _
    rcases eq_or_ne k l with rfl | hne
    · simp [Fetcher.setJob, hnone, hrem]
    · simpa [Fetcher.setJob, hne, hne.symm] using hb.count k
  · rcases eq_or_ne k l with rfl | hne
    · simp [Fetcher.setJob, hrem]
    · simp only [Fetcher.setJob, Function.update_of_ne hne] at hk ⊢
      exact hb.waiting k hk
  · obtain rfl := Option.some.inj hk
    simpa [Fetcher.setJob] using hactive
  · have hlog := hb.log k
    rcases eq_or_ne k l with rfl | hne
    · simpa [Fetcher.setJob, hact, hactive, hseq] using hlog
    · simpa [Fetcher.setJob, hne] using hlog

/-- A job that is begun owns nothing yet, and is counted by its guard. -/
theorem BooksOk.scan (hF : BooksOk C F) (hpc : F.pc = .scan l) : BooksOk C (F.scan C l) := by
  obtain ⟨hb, hopen, hidle, -⟩ := hF
  have hq : F.queued = [] := hidle (by simp [hpc, Pc.guard])
  rw [hpc, hq] at hb
  have hmove : ∀ (expected : ℕ → ℕ) (pc : Pc), pc.guard = none →
      BooksOk C { F with
        expected := expected
        pc := pc } := by
    intro expected pc hpc'
    refine ⟨?_, hopen, fun _ => hq, fun _ _ => hq⟩
    change Books C { F with
      expected := expected
      pc := pc } pc.guard none F.queued
    rw [hpc', hq]
    exact hb.other _ _ _ _ _ _ _ _ _ _ _
  rw [Fetcher.scan]
  split
  · split
    · exact hmove F.expected _ (by simp [Pc.guard])
    · dsimp only
      split
      · next hs =>
        rw [Fetcher.beginJob]
        have hbegin := hb.begin (R := F.mailbox l) (J := ⟨F.mailbox l, (F.mailbox l).step,
          (F.mailbox l).nRows, 0, 0, 0, 1, decide (C.maxRows < (F.mailbox l).nRows),
          if decide (C.maxRows < (F.mailbox l).nRows) = true then 2 else 0, true⟩) hs.2
          ⟨rfl, rfl, rfl⟩
        have hguard : ∀ big : Bool, (if big then Pc.release l else .rows l 0).guard = some l := by
          intro big
          split <;> rfl
        refine ⟨?_, hopen, fun _ => rfl, fun _ _ => rfl⟩
        dsimp only
        rw [hguard]
        exact hbegin.other _ _ _ _ _ _ _ _ _ _ _
      · split
        · exact hmove _ _ (by simp [Pc.guard])
        · exact hmove F.expected _ (by simp [Pc.guard])
  · exact hmove F.expected _ (by simp [Pc.guard])

/-- The guard is given back, and the job finishes if it has been the last. -/
theorem BooksOk.release (hF : BooksOk C F) (hpc : F.pc = .release l) :
    BooksOk C (F.release l) := by
  obtain ⟨hb, hopen, -, hrel⟩ := hF
  have hq : F.queued = [] := hrel l hpc
  rw [hpc, hq] at hb
  have hdown := hb.guardDown.countDown
  obtain ⟨jobs, acks, heq⟩ := countDown_eq F l
  rw [Fetcher.release, heq]
  rw [heq] at hdown
  refine ⟨?_, hopen, fun _ => hq, fun _ _ => hq⟩
  change Books C _ none none F.queued
  rw [hq]
  exact hdown.other _ _ _ _ _ _ _ _ _ _ _

/-! ### Reading ahead -/

/-- Where no job is being begun. -/
theorem BooksOk.move (hF : BooksOk C F) (hpc : F.pc.guard = none) (hG : Books C G none none [])
    (hopen : G.Open) (hsame : G.pc.guard = none ∧ G.queued = F.queued) : BooksOk C G := by
  have hq : G.queued = [] := by rw [hsame.2, hF.idle hpc]
  refine ⟨?_, hopen, fun _ => hq, fun _ _ => hq⟩
  rw [hsame.1, hq]
  exact hG

/-- Without a guard the books are those of no request. -/
theorem BooksOk.idleBooks (hF : BooksOk C F) (hpc : F.pc.guard = none) :
    Books C F none none [] := by
  have hb := hF.books
  rw [hpc, hF.idle hpc] at hb
  exact hb

/-- An entry for no job adds nothing to what jobs wait for. -/
theorem BooksOk.prefetchMiss (hF : BooksOk C F) (hpc : F.pc.guard = none)
    (hp : F.pending l id = none) {rest : List (ℕ × ℤ)} :
    BooksOk C (F.prefetchMiss C l id rest) := by
  have hb := hF.idleBooks hpc
  have hopen := hF.isOpen
  have halloc := hb.alloc
  simp only [Fetcher.prefetchMiss]
  generalize F.allocEntry = a at halloc ⊢
  obtain ⟨e, F₁⟩ := a
  obtain ⟨entries, nEntries, freeEntries, rfl⟩ := halloc.same
  have hins := halloc.inserted (E := { entries e with layer := l, id := id, job := none })
    (J := F.jobs) (fun k => by simp)
  have hnew := hb.newEntry (p := []) hins halloc.blank.1 hp (fun k hk => by simp at hk) (.inl rfl)
  have hopen' := hins.open hopen halloc.blank.1
  have hu : Unissued _ e := ⟨(hins.live e).mpr (.inr rfl), by
    rw [hins.entry]
    exact halloc.blank.1, fun r hr => by
    rw [hins.target]
    exact hb.read_ne hins.notLive (hins.io.1 ▸ hr)⟩
  split
  · -- no slot is free: the entry is taken back
    have hfree := hnew.free hu.live hu.reads (by simp)
    have hopen₁ := hopen'.free (e := e)
    rw [hins.entry] at hfree
    rw [Fetcher.free, hins.entry] at hfree hopen₁
    exact hF.move hpc (hfree.other _ _ _ _ _ _ _ _ _ _ _) hopen₁ ⟨hpc, rfl⟩
  · next F₂ hs =>
    have hb₂ := hnew.issueEntry hu (by simp) hs
    have hopen₂ := hopen'.issueEntry hu hs
    obtain ⟨_, _, _, _, rfl⟩ := issueEntry_frame hs
    exact hF.move hpc (hb₂.other _ _ _ _ _ _ _ _ _ _ _) hopen₂ ⟨hpc, rfl⟩

/-- A row of the batch. -/
theorem BooksOk.prefetchRow (hF : BooksOk C F) (hpc : F.pc.guard = none) :
    BooksOk C (F.prefetchRow C) := by
  have hb := hF.idleBooks hpc
  rw [Fetcher.prefetchRow]
  split
  · split
    · exact hF.move hpc (hb.other _ _ _ _ _ _ _ _ _ _ _) hF.isOpen ⟨rfl, rfl⟩
    · exact hF.move hpc (hb.other _ _ _ _ _ _ _ _ _ _ _) hF.isOpen ⟨rfl, rfl⟩
  · split
    · exact hF.move hpc (hb.other _ _ _ _ _ _ _ _ _ _ _) hF.isOpen ⟨hpc, rfl⟩
    · split
      · exact hF.move hpc (hb.other _ _ _ _ _ _ _ _ _ _ _) hF.isOpen ⟨hpc, rfl⟩
      · split
        · exact hF.move hpc (hb.other _ _ _ _ _ _ _ _ _ _ _) hF.isOpen ⟨hpc, rfl⟩
        · next hp => exact hF.prefetchMiss hpc hp

/-- The batch is no part of the books. -/
theorem BooksOk.prefetch (hF : BooksOk C F) (hpc : F.pc.guard = none) :
    BooksOk C (F.prefetch C) := by
  have hb := hF.idleBooks hpc
  rw [Fetcher.prefetch]
  dsimp only
  split
  · exact hF.move hpc (hb.other _ _ _ _ _ _ _ _ _ _ _) hF.isOpen ⟨rfl, rfl⟩
  · split
    · exact hF.move hpc (hb.other _ _ _ _ _ _ _ _ _ _ _) hF.isOpen ⟨rfl, rfl⟩
    · exact hF.move hpc (hb.other _ _ _ _ _ _ _ _ _ _ _) hF.isOpen ⟨rfl, rfl⟩

/-- At the end of the mailboxes there are completions, rows to prefetch, or a new poll. -/
theorem BooksOk.check (hF : BooksOk C F) (hpc : F.pc.guard = none) : BooksOk C (F.check C) := by
  have hb := hF.idleBooks hpc
  rw [Fetcher.check]
  split
  · exact hF.move hpc (hb.other _ _ _ _ _ _ _ _ _ _ _) hF.isOpen ⟨rfl, rfl⟩
  · split
    · exact hF.move hpc (hb.other _ _ _ _ _ _ _ _ _ _ _) hF.isOpen ⟨rfl, rfl⟩
    · exact hF.move hpc (hb.other _ _ _ _ _ _ _ _ _ _ _) hF.isOpen ⟨rfl, rfl⟩

/-! ### Every step -/

/-- A move that keeps the guard. -/
theorem BooksOk.goto (hF : BooksOk C F) {pc : Pc} (hg : pc.guard = F.pc.guard)
    (hrel : ∀ l, pc = .release l → F.queued = []) : BooksOk C (F.goto pc) := by
  refine ⟨?_, hF.isOpen, fun h => hF.idle (hg ▸ h), hrel⟩
  change Books C { F with pc := pc } pc.guard none F.queued
  rw [hg]
  exact hF.books.other _ _ _ _ _ _ _ _ _ _ _

/-- What reaping a completion does to the entries, the ring and the slots. -/
theorem reapOne_frame (F : Fetcher B) (r : Read) (res : ℤ) (cq : List (Read × ℤ)) :
    (F.reapOne r res cq).pc = F.pc ∧ (F.reapOne r res cq).queued = F.queued ∧
      (F.reapOne r res cq).entries = Function.update F.entries (F.slots r.ud).entry
        (Fetcher.landed (F.slots r.ud) (F.entries (F.slots r.ud).entry) res) ∧
      (F.reapOne r res cq).ring = { F.ring with cq := cq } ∧
      (F.reapOne r res cq).slots = F.slots ∧
      ∀ e, (F.reapOne r res cq).Live e → F.Live e := by
  obtain ⟨jobs, -, heq⟩ := reapOne_eq F r res cq
  rw [heq]
  dsimp only
  split
  · obtain ⟨_, _, _, _, hc⟩ := completeEntry_frame { (F.pop r cq).setEntry (F.slots r.ud).entry
      (Fetcher.landed (F.slots r.ud) (F.entries (F.slots r.ud).entry) res) with jobs := jobs }
      (F.slots r.ud).entry
    rw [hc]
    exact ⟨rfl, rfl, rfl, rfl, rfl, fun e he => ((live_free e).mp he).1⟩
  · exact ⟨rfl, rfl, rfl, rfl, rfl, fun _ he => he⟩

/-- One completion, or the place behind the loop. -/
theorem BooksOk.reapAll (hF : BooksOk C F) (hG : BooksOk C G) : BooksOk C (F.reapAll G) := by
  rw [Fetcher.reapAll]
  split
  · exact hG
  · next r res cq hcq =>
    obtain ⟨hb, hopen⟩ := hF.books.reapOne hF.isOpen hcq
    obtain ⟨hpc, hq, -⟩ := reapOne_frame F r res cq
    refine ⟨?_, hopen, ?_, ?_⟩
    · rw [hpc, hq]
      exact hb
    · rw [hpc, hq]
      exact hF.idle
    · rw [hpc, hq]
      exact hF.released

theorem BooksOk.newPoll (hF : BooksOk C F) (hpc : F.pc.guard = none) : BooksOk C F.newPoll :=
  hF.move hpc ((hF.idleBooks hpc).other _ _ _ _ _ _ _ _ _ _ _) hF.isOpen ⟨rfl, rfl⟩

/-- The submission loop goes on at another place. -/
theorem BooksOk.submitted (hF : BooksOk C F) (hpc : F.pc = .submit l) :
    BooksOk C (F.submitted l) := by
  rw [Fetcher.submitted]
  split
  · exact hF.goto (by rw [hpc]; rfl) fun _ hl => by simp at hl
  · exact hF.goto (by rw [hpc]; rfl) fun _ hl => by simp at hl

/-- **A step of the fetcher**, by its place. -/
theorem BooksOk.tick [Zero B] (hF : BooksOk C F) (hs : F.tick C = some F') : BooksOk C F' := by
  rw [Fetcher.tick] at hs
  split at hs
  · next l hpc => exact Option.some.inj hs ▸ hF.scan hpc
  · next l i hpc => exact Option.some.inj hs ▸ hF.rowStep hpc
  · next l hpc =>
    obtain rfl := Option.some.inj hs
    by_cases hq : F.queued = []
    · rw [if_pos hq]
      exact hF.goto (by rw [hpc]; rfl) fun _ _ => hq
    · rw [if_neg hq]
      exact hF.goto (by rw [hpc]; rfl) fun _ hl => by simp at hl
  · next l hpc => exact Option.some.inj hs ▸ hF.issueStep hpc
  · next l hpc =>
    split at hs
    · exact Option.some.inj hs ▸ hF.submitted hpc
    · simp at hs
  · next l hpc =>
    exact Option.some.inj hs ▸ hF.goto (by rw [hpc]; rfl) fun _ hl => by simp at hl
  · next l hpc =>
    exact Option.some.inj hs ▸
      hF.reapAll (hF.goto (by rw [hpc]; rfl) fun _ hl => by simp at hl)
  · next l hpc => exact Option.some.inj hs ▸ hF.release hpc
  · next hpc => exact Option.some.inj hs ▸ hF.check (by rw [hpc]; rfl)
  · next hpc => exact Option.some.inj hs ▸ hF.reapAll (hF.newPoll (by rw [hpc]; rfl))
  · next hpc => exact Option.some.inj hs ▸ hF.prefetch (by rw [hpc]; rfl)
  · next hpc => exact Option.some.inj hs ▸ hF.prefetchRow (by rw [hpc]; rfl)
  · simp at hs

/-- The ring moves reads without losing one. -/
theorem BooksOk.setRing (hF : BooksOk C F) {R : Uring Read} (hR : R.reads.Perm F.ring.reads) :
    BooksOk C { F with ring := R } :=
  ⟨hF.books.setRing hR, hF.isOpen, hF.idle, hF.released⟩

/-- A job is left with what is not issued. -/
theorem Books.abandon (hb : Books C F g d q) : Books C F g d [] :=
  ⟨hb.freeNodup, hb.freeLt, hb.pending, hb.slots, hb.reads, hb.distinct, List.nodup_nil,
    fun x hx => absurd hx (by simp), hb.owner, hb.count, hb.waiting, hb.guard, hb.log, hb.debt⟩

/-- A submission keeps the reads of the ring. -/
theorem BooksOk.answer (hF : BooksOk C F) {a : Answer} (hs : F.answer a = some F') :
    BooksOk C F' := by
  obtain ⟨R, hR, hs⟩ := Option.bind_eq_some_iff.mp hs
  have hF' := hF.setRing (Uring.reads_submit hR)
  dsimp only at hs
  split at hs
  · next l hpc =>
    split at hs
    · simp at hs
    · split at hs
      · obtain rfl := Option.some.inj hs
        have hb := hF'.books
        change Books C { F with ring := R } F.pc.guard none F.queued at hb
        rw [hpc] at hb
        have hjob := hb.abandon.setJob (l := l)
          (J := { F.jobs l with failed := true, status := 1 }) ⟨rfl, rfl, rfl⟩
        exact ⟨hjob.other _ _ _ _ _ _ _ _ _ _ _, hF.isOpen, fun _ => rfl, fun _ _ => rfl⟩
      · exact Option.some.inj hs ▸ hF'.submitted hpc
  · next hpc =>
    have hidle : F.pc.guard = none := by rw [hpc]; rfl
    have hb := hF'.idleBooks hidle
    exact Option.some.inj hs ▸
      hF'.move hidle (hb.other _ _ _ _ _ _ _ _ _ _ _) hF.isOpen ⟨rfl, rfl⟩
  · simp at hs

/-- A completion fills a slot and keeps the reads of the ring. -/
theorem BooksOk.complete (hF : BooksOk C F) {garbage : ℕ → B}
    (hs : F.complete C i res garbage = some F') : BooksOk C F' := by
  obtain ⟨r, hr, hs⟩ := Option.bind_eq_some_iff.mp hs
  obtain ⟨R, hR, rfl⟩ := Option.map_eq_some_iff.mp hs
  have hb := (hF.books.setRing (Uring.reads_complete hR)).setBuf r.ud fun j =>
    if (j : ℤ) < res then (C.layer r.layer).file (r.start + j) else garbage j
  exact ⟨hb, hF.isOpen, hF.idle, hF.released⟩

/-- A fetcher starts without entries. -/
theorem BooksOk.start (hF : Start C F) : BooksOk C F := by
  have hlive : ∀ e, ¬ F.Live e := by
    intro e he
    have := he.1
    rw [hF.nEntries] at this
    omega
  have howned : ∀ l, F.owned l = ∅ := fun l =>
    Finset.eq_empty_of_forall_notMem fun e he => hlive e (mem_owned.mp he).1
  have hreads : F.ring.reads = [] := by
    rw [hF.ring]
    rfl
  refine ⟨?_, fun e he => absurd he (hlive e), fun _ => hF.queued, fun _ _ => hF.queued⟩
  rw [hF.pc, hF.queued]
  refine ⟨by simp [hF.freeEntries], by simp [hF.freeEntries], fun l id e => ?_, ?_,
    by simp [hreads], by simp [hreads], List.nodup_nil, by simp, fun e he => absurd he (hlive e),
    fun l => ?_, fun l hl => ?_, fun l hl => by simp [Pc.guard] at hl, fun l => ?_,
    fun l hl => by simp at hl⟩
  · simp [hF.pending, hlive]
  · simp [hreads, hF.freeSlots]
  · simp [hF.jobs, howned, Job.none, Pc.guard]
  · simp [hF.jobs, Job.none] at hl
  · simp [hF.logs, hF.jobs, Job.none]

/-- The step is the fetcher's. -/
def Act.Own : Act B → Prop
  | .tick => True
  | .answer _ => True
  | _ => False

/-- A step is the fetcher's, a completion, or leaves all but the mailboxes, the prefetch queue
and the expected numbers alone. -/
theorem step_cases [Zero B] {a : Act B} (hs : F.step C a = some F') :
    (a = .tick ∧ F.tick C = some F') ∨ (∃ b, a = .answer b ∧ F.answer b = some F') ∨
      (∃ i res garbage, a = .complete i res garbage ∧ F.complete C i res garbage = some F') ∨
      (¬ a.Own ∧ ∃ mailbox pfQueue expected, F' = { F with
        mailbox := mailbox
        pfQueue := pfQueue
        expected := expected }) := by
  rcases a with _ | b | ⟨i, res, garbage⟩ | ⟨l, req⟩ | ⟨l, ids⟩ | _ | firstSeq
  · exact .inl ⟨rfl, hs⟩
  · exact .inr (.inl ⟨b, rfl, hs⟩)
  · exact .inr (.inr (.inl ⟨i, res, garbage, rfl, hs⟩))
  · exact .inr (.inr (.inr ⟨id, _, _, _, (Option.some.inj hs).symm⟩))
  · simp only [Fetcher.step] at hs
    split at hs
    · exact .inr (.inr (.inr ⟨id, _, _, _, (Option.some.inj hs).symm⟩))
    · simp at hs
  · exact .inr (.inr (.inr ⟨id, _, _, _, (Option.some.inj hs).symm⟩))
  · simp only [Fetcher.step] at hs
    split at hs
    · exact .inr (.inr (.inr ⟨id, _, _, _, (Option.some.inj hs).symm⟩))
    · simp at hs

/-- **One step** keeps the books. -/
theorem BooksOk.step [Zero B] (hF : BooksOk C F) {a : Act B} (hs : F.step C a = some F') :
    BooksOk C F' := by
  rcases step_cases hs with ⟨-, hs⟩ | ⟨b, -, hs⟩ | ⟨i, res, garbage, -, hs⟩ | ⟨-, _, _, _, rfl⟩
  · exact hF.tick hs
  · exact hF.answer hs
  · exact hF.complete hs
  · exact ⟨hF.books.other _ _ _ _ _ _ _ _ _ _ _, hF.isOpen, hF.idle, hF.released⟩

/-- Every reachable state keeps the books. -/
theorem booksOk_invariant [Zero B] (C : Cfg B) : (fetcherSystem C).Invariant (BooksOk C) where
  start _ h := .start h
  step _ _ _ _ hF hs := hF.step hs

end Engram

end VllmMoet
