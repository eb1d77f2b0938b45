import VllmMoet.Engram.BooksKept

/-!
# Every pending row is being read

As long as the submissions take what the fetcher does not submit again by itself (`Taken`),
every live entry has a read for each half that is not done, and outside the issue loop and
the prefetch batch these reads are submitted (`liveOk_invariant`).
-/

namespace VllmMoet

namespace Engram

variable {B : Type*} {C : Cfg B} {F F' G : Fetcher B} {g d : Option ℕ} {q : List ℕ}
  {e i id l : ℕ} {h : Half} {r : Read} {res : ℤ} {cq : List (Read × ℤ)}

/-! ### The condition on the submissions -/

/-- No submission fails. One after which the fetcher does not submit again by itself, the
last of a request or that of a prefetch batch, takes every prepared read; one before a wait
leaves something to wait for. -/
def Taken (F : Fetcher B) : Act B → Prop
  | .answer a => ∃ n, a = .accepted n ∧
    if F.pc.guard ≠ none ∧ F.queued ≠ [] then
      F.ring.flying ≠ [] ∨ F.ring.cq ≠ [] ∨ 0 < n
    else n = F.ring.sq.length
  | _ => True

/-- The places where every prepared read has been submitted. -/
def Fetcher.Settled (F : Fetcher B) : Prop :=
  match F.pc with
  | .more _ => F.queued = []
  | .issue _ => False
  | .submit _ => False
  | .wait _ => False
  | .reapIn _ => False
  | .prefetchRow => F.issued = false
  | .prefetchSubmit => False
  | _ => True

/-- There is a read for every half of the entry that is not done. -/
def Fetcher.Issued (F : Fetcher B) (e : ℕ) : Prop :=
  ∀ h, (F.entries e).done h = false → ∃ r ∈ F.ring.reads, F.target r = (e, h)

/-- What the completion of every job rests on. -/
structure LiveOk (C : Cfg B) (F : Fetcher B) : Prop where
  books : BooksOk C F
  issued : ∀ e, F.Live e → e ∉ F.queued → F.Issued e
  layer : ∀ l, F.pc.guard = some l → l < C.nLayers
  settled : F.Settled → F.ring.sq = []
  full : ∀ l, F.pc = .submit l → F.queued = [] ∨ F.freeSlots.length < 2
  waits : ∀ l, F.pc = .wait l → F.queued ≠ [] ∧ (F.ring.flying ≠ [] ∨ F.ring.cq ≠ [])
  reaps : ∀ l, F.pc = .reapIn l → F.queued ≠ []

/-! ### Reads -/

/-- The reads that are there stay, with their targets. -/
def ReadsKept (F F' : Fetcher B) : Prop :=
  ∀ r ∈ F.ring.reads, r ∈ F'.ring.reads ∧ F'.target r = F.target r

theorem ReadsKept.refl (F : Fetcher B) : ReadsKept F F := fun _ hr => ⟨hr, rfl⟩

theorem ReadsKept.trans (h : ReadsKept F F') (h' : ReadsKept F' G) : ReadsKept F G := by
  intro r hr
  obtain ⟨hr', ht⟩ := h r hr
  obtain ⟨hr'', ht'⟩ := h' r hr'
  exact ⟨hr'', ht'.trans ht⟩

/-- An entry keeps its reads if its halves stay as they are. -/
theorem Fetcher.Issued.kept (hF : F.Issued e) (hk : ReadsKept F F')
    (hdone : ∀ h, (F'.entries e).done h = false → (F.entries e).done h = false) :
    F'.Issued e := by
  intro h hh
  obtain ⟨r, hr, ht⟩ := hF h (hdone h hh)
  obtain ⟨hr', ht'⟩ := hk r hr
  exact ⟨r, hr', ht'.trans ht⟩

/-- A free slot takes the read of a half. -/
theorem Books.issueRead_reads (hb : Books C F g d q) (hfree : F.freeSlots ≠ []) :
    ReadsKept F (F.issueRead C e h) ∧
      ∃ r ∈ (F.issueRead C e h).ring.reads, (F.issueRead C e h).target r = (e, h) := by
  have hnd : (F.freeSlots ++ F.ring.reads.map Read.ud).Nodup :=
    hb.slots.nodup_iff.mpr List.nodup_range
  rw [Fetcher.issueRead]
  split
  · next hnil => exact absurd hnil hfree
  · next s ss hcons =>
    rw [hcons, List.cons_append, List.nodup_cons, List.mem_append, not_or] at hnd
    dsimp only
    refine ⟨fun r hr => ⟨(Uring.reads_prepRead F.ring _).mem_iff.mpr (.tail _ hr), ?_⟩,
      _, (Uring.reads_prepRead F.ring _).mem_iff.mpr (.head _), ?_⟩
    · have hne : r.ud ≠ s := fun heq => hnd.1.2 (heq ▸ List.mem_map_of_mem hr)
      simp [Fetcher.target, hne]
    · simp [Fetcher.target, Slot.aim]

/-- A read takes one slot. -/
theorem issueRead_freeSlots : (F.issueRead C e h).freeSlots = F.freeSlots.tail := by
  rw [Fetcher.issueRead]
  split
  · next hnil => rw [hnil, List.tail_nil]
  · next s ss hcons => rw [hcons, List.tail_cons]

/-- The reads of an entry that is issued. -/
theorem Books.issueEntry_reads (hb : Books C F g d q) (hu : Unissued F e) (hq : e ∉ q)
    (hs : F.issueEntry C e = some F') :
    ReadsKept F F' ∧ F'.Issued e ∧ ∀ x ≠ e, F'.entries x = F.entries x := by
  simp only [Fetcher.issueEntry] at hs
  split at hs
  · split at hs
    · simp at hs
    · next hfree =>
      -- the scales are resident: only the values are read
      obtain rfl := Option.some.inj hs
      set scales := (List.range Half.scales.size).map fun j =>
        (C.layer (F.entries e).layer).scalesRes
          (((F.entries e).id - (C.layer (F.entries e).layer).vocabStart) * Half.scales.size + j)
      set E : Entry B := { F.entries e with
        row := Function.update (F.entries e).row .scales scales
        done := Function.update (F.entries e).done .scales true }
      have hbE : Books C (F.setEntry e E) g d q := hb.mark (h := .scales) ⟨rfl, rfl, rfl, rfl⟩
        (fun r hr heq => hu.reads r hr (by rw [heq])) hq
      have hne : (F.setEntry e E).freeSlots ≠ [] := by
        intro hnil
        change F.freeSlots = [] at hnil
        simp [hnil] at hfree
      obtain ⟨hkept, r, hr, ht⟩ := hbE.issueRead_reads (e := e) (h := .values) hne
      refine ⟨hkept, ?_, fun x hx => ?_⟩
      · rintro (_ | _) hh
        · exact ⟨r, hr, ht⟩
        · rw [issueRead_entries] at hh
          simp [Fetcher.setEntry, E] at hh
      · rw [issueRead_entries]
        simp [Fetcher.setEntry, hx]
  · split at hs
    · simp at hs
    · next hfree =>
      obtain rfl := Option.some.inj hs
      have hlen : 2 ≤ F.freeSlots.length := Nat.le_of_not_lt hfree
      have hne : F.freeSlots ≠ [] := by
        rintro hnil
        simp [hnil] at hlen
      have hb' := hb.issueRead (C := C) (h := .values) hu.live (hu.done _)
        (fun r hr heq => hu.reads r hr (by rw [heq])) hq
      have hne' : (F.issueRead C e .values).freeSlots ≠ [] := by
        rw [issueRead_freeSlots]
        intro hnil
        have := congrArg List.length hnil
        rw [List.length_tail, List.length_nil] at this
        omega
      obtain ⟨hkept, r, hr, ht⟩ := hb.issueRead_reads (e := e) (h := .values) hne
      obtain ⟨hkept', r', hr', ht'⟩ := hb'.issueRead_reads (e := e) (h := .scales) hne'
      refine ⟨hkept.trans hkept', ?_, fun x _ => ?_⟩
      · rintro (_ | _) -
        · exact ⟨r, (hkept' r hr).1, (hkept' r hr).2.trans ht⟩
        · exact ⟨r', hr', ht'⟩
      · rw [issueRead_entries, issueRead_entries]

/-! ### Outside the issue loop -/

/-- Where everything is submitted and no read is awaited. -/
theorem LiveOk.ofSettled (hb : BooksOk C G)
    (hissued : ∀ e, G.Live e → e ∉ G.queued → G.Issued e)
    (hlayer : ∀ l, G.pc.guard = some l → l < C.nLayers) (hsq : G.ring.sq = [])
    (hpc : ∀ l, G.pc ≠ .submit l ∧ G.pc ≠ .wait l ∧ G.pc ≠ .reapIn l) : LiveOk C G :=
  ⟨hb, hissued, hlayer, fun _ => hsq, fun l hl => absurd hl (hpc l).1,
    fun l hl => absurd hl (hpc l).2.1, fun l hl => absurd hl (hpc l).2.2⟩

/-- What a mailbox's turn does, and where it goes on. -/
theorem scan_frame (F : Fetcher B) (C : Cfg B) (l : ℕ) :
    ∃ expected jobs busy queued loc begun pc, F.scan C l = { F with
      expected := expected
      jobs := jobs
      busy := busy
      queued := queued
      loc := loc
      begun := begun
      pc := pc } ∧ (queued = F.queued ∨ queued = []) ∧
      ((l < C.nLayers ∧ (pc = .scan (l + 1) ∨ pc = .release l ∨ pc = .rows l 0)) ∨
        (¬ l < C.nLayers ∧ pc = .check)) := by
  rw [Fetcher.scan]
  split
  · next hl =>
    split
    · exact ⟨_, _, _, _, _, _, _, rfl, .inl rfl, .inl ⟨hl, .inl rfl⟩⟩
    · dsimp only
      split
      · refine ⟨_, _, _, _, _, _, _, rfl, .inr rfl, .inl ⟨hl, .inr ?_⟩⟩
        split
        · exact .inl rfl
        · exact .inr rfl
      · split
        · exact ⟨_, _, _, _, _, _, _, rfl, .inl rfl, .inl ⟨hl, .inl rfl⟩⟩
        · exact ⟨_, _, _, _, _, _, _, rfl, .inl rfl, .inl ⟨hl, .inl rfl⟩⟩
  · next hl => exact ⟨_, _, _, _, _, _, _, rfl, .inl rfl, .inr ⟨hl, rfl⟩⟩

/-- The scan passes a mailbox by, or begins its request. -/
theorem LiveOk.scan (hF : LiveOk C F) (hpc : F.pc = .scan l) : LiveOk C (F.scan C l) := by
  have hb := hF.books.scan hpc
  have hq : F.queued = [] := hF.books.idle (by rw [hpc]; rfl)
  have hsq : F.ring.sq = [] := hF.settled (by rw [Fetcher.Settled, hpc]; trivial)
  obtain ⟨_, _, _, queued, _, _, pc, heq, -, hnext⟩ := scan_frame F C l
  rw [heq] at hb ⊢
  refine .ofSettled hb (fun e he _ => hF.issued e he (by rw [hq]; simp)) (fun k hk => ?_) hsq
    fun k => ?_
  · rcases hnext with ⟨hl, rfl | rfl | rfl⟩ | ⟨-, rfl⟩
    · simp [Pc.guard] at hk
    · exact Option.some.inj hk ▸ hl
    · exact Option.some.inj hk ▸ hl
    · simp [Pc.guard] at hk
  · rcases hnext with ⟨-, rfl | rfl | rfl⟩ | ⟨-, rfl⟩ <;> simp

/-! ### The rows of a request -/

/-- What a row of a request does to the entries that are not queued. -/
structure RowKeeps (F F' : Fetcher B) : Prop where
  ring : F'.ring = F.ring
  slots : F'.slots = F.slots
  pc : F'.pc = F.pc
  rest : ∀ e, F'.Live e → e ∉ F'.queued →
    F.Live e ∧ e ∉ F.queued ∧ (F'.entries e).done = (F.entries e).done

/-- An entry is replaced, with the same halves done. -/
theorem rowKeeps_setEntry {E : Entry B} (hE : E.done = (F.entries e).done) :
    RowKeeps F (F.setEntry e E) := by
  refine ⟨rfl, rfl, rfl, fun x hx hq => ⟨hx, hq, ?_⟩⟩
  rcases eq_or_ne x e with rfl | hne
  · simpa [Fetcher.setEntry] using hE
  · simp [Fetcher.setEntry, hne]

/-- A missing row queues its new entry, or joins one that is read already. -/
theorem Books.rowKeeps_miss (hb : Books C F g d q) : RowKeeps F (F.miss l i id) := by
  rw [Fetcher.miss]
  split
  · next e hp =>
    dsimp only
    split
    · obtain ⟨-, -, -, hrest⟩ := rowKeeps_setEntry (F := F) (e := e)
        (E := { F.entries e with job := some l, firstDst := some i }) rfl
      exact ⟨rfl, rfl, rfl, hrest⟩
    · exact rowKeeps_setEntry rfl
  · have halloc := hb.alloc
    dsimp only
    generalize F.allocEntry = a at halloc ⊢
    obtain ⟨e, F₁⟩ := a
    obtain ⟨entries, nEntries, freeEntries, rfl⟩ := halloc.same
    refine ⟨rfl, rfl, rfl, fun x hx hq => ?_⟩
    -- the new entry is queued
    have hne : x ≠ e := fun heq => hq (heq ▸ List.mem_append_right _ (List.mem_singleton_self _))
    have hlive := ((halloc.live x).mp hx).resolve_right hne
    refine ⟨hlive, fun hx => hq (List.mem_append_left _ hx), ?_⟩
    have := halloc.entries x hne
    simp only [Fetcher.setEntry, Fetcher.setPending, Fetcher.setJob, Function.update_of_ne hne]
    exact congrArg Entry.done this

/-- A row issues nothing. -/
theorem Books.rowKeeps [Zero B] (hb : Books C F g d q) : RowKeeps F (F.row C l i) := by
  simp only [Fetcher.row]
  split
  · exact ⟨rfl, rfl, rfl, fun x hx hq => ⟨hx, hq, rfl⟩⟩
  · split
    · exact rowKeeps_setEntry rfl
    · split
      · exact ⟨rfl, rfl, rfl, fun x hx hq => ⟨hx, hq, rfl⟩⟩
      · have hb' := hb.setJob (l := l) (J := { F.jobs l with
          nMisses := (F.jobs l).nMisses + 1 }) ⟨rfl, rfl, rfl⟩
        obtain ⟨hring, hslots, hpc, hrest⟩ : RowKeeps _ (Fetcher.miss _ l i
          ((F.jobs l).req.ids i).toNat) := hb'.rowKeeps_miss
        exact ⟨hring, hslots, hpc, hrest⟩

/-- The entries that a row takes wait in the queue of its request. -/
theorem LiveOk.rowStep [Zero B] (hF : LiveOk C F) (hpc : F.pc = .rows l i) :
    LiveOk C (F.rowStep C l i) := by
  have hb := hF.books.rowStep hpc
  have hsq : F.ring.sq = [] := hF.settled (by rw [Fetcher.Settled, hpc]; trivial)
  have hl : l < C.nLayers := hF.layer l (by rw [hpc]; rfl)
  rw [Fetcher.rowStep] at hb ⊢
  by_cases hi : i < (F.jobs l).nRows
  · rw [if_pos hi] at hb ⊢
    have hrow := hF.books.books.rowKeeps (l := l) (i := i)
    refine .ofSettled hb (fun e he hq => ?_) (fun k hk => ?_) ?_ fun k => ?_
    · obtain ⟨hlive, hnot, hdone⟩ := hrow.rest e he hq
      refine (hF.issued e hlive hnot).kept (fun r hr => ?_) fun h hh => ?_
      · change r ∈ (F.row C l i).ring.reads ∧ _
        rw [hrow.ring]
        refine ⟨hr, ?_⟩
        change (((F.row C l i).slots r.ud).entry, ((F.row C l i).slots r.ud).half) = _
        rw [hrow.slots]
        rfl
      · change ((F.row C l i).entries e).done h = false at hh
        rwa [hdone] at hh
    · exact Option.some.inj hk ▸ hl
    · change (F.row C l i).ring.sq = []
      rw [hrow.ring, hsq]
    · simp [Fetcher.goto]
  · rw [if_neg hi] at hb ⊢
    exact .ofSettled hb hF.issued (fun k hk => Option.some.inj hk ▸ hl) hsq
      fun k => by simp [Fetcher.goto]

/-! ### The issue loop -/

/-- An entry is put off only if there are not two slots for its halves. -/
theorem issueEntry_eq_none (hs : F.issueEntry C e = none) : F.freeSlots.length < 2 := by
  simp only [Fetcher.issueEntry] at hs
  split at hs
  · split at hs
    · omega
    · simp at hs
  · split at hs
    · assumption
    · simp at hs

/-- The first of the queue is issued, or the queue waits for the reads in flight. -/
theorem LiveOk.issueStep (hF : LiveOk C F) (hpc : F.pc = .issue l) :
    LiveOk C (F.issueStep C l) := by
  have hb := hF.books.issueStep hpc
  have hl : ∀ k, F.pc.guard = some k → k < C.nLayers := hF.layer
  rw [hpc] at hl
  rw [Fetcher.issueStep] at hb ⊢
  rcases hq : F.queued with _ | ⟨e, es⟩
  · simp only [hq] at hb ⊢
    exact ⟨hb, hF.issued, hl, fun h => h.elim, fun _ _ => .inl hq,
      fun k hk => by simp [Fetcher.goto] at hk, fun k hk => by simp [Fetcher.goto] at hk⟩
  · rcases hs : F.issueEntry C e with _ | F'
    · have hfew : F.freeSlots.length < 2 := issueEntry_eq_none hs
      simp only [hq, hs] at hb ⊢
      exact ⟨hb, hF.issued, hl, fun h => h.elim, fun _ _ => .inr hfew,
        fun k hk => by simp [Fetcher.goto] at hk, fun k hk => by simp [Fetcher.goto] at hk⟩
    · simp only [hq, hs] at hb ⊢
      have hbF := hF.books.books
      rw [hq] at hbF
      obtain ⟨hlive, -, hdone, hread⟩ := hbF.queued e (List.mem_cons_self ..)
      have hnot : e ∉ es := (List.nodup_cons.mp hbF.queueNodup).1
      obtain ⟨hkept, hissued, hentries⟩ := hbF.dequeue.issueEntry_reads ⟨hlive, hdone, hread⟩
        hnot hs
      obtain ⟨_, _, _, _, rfl⟩ := issueEntry_frame hs
      have hpc' : ∀ k, F.pc ≠ .submit k ∧ F.pc ≠ .wait k ∧ F.pc ≠ .reapIn k := by
        intro k
        rw [hpc]
        simp
      refine ⟨hb, fun x hx hxs => ?_, hF.layer, fun h => ?_, fun k hk => absurd hk (hpc' k).1,
        fun k hk => absurd hk (hpc' k).2.1, fun k hk => absurd hk (hpc' k).2.2⟩
      · rcases eq_or_ne x e with rfl | hne
        · exact hissued
        · have hxq : x ∉ F.queued := by
            rw [hq, List.mem_cons, not_or]
            exact ⟨hne, hxs⟩
          refine (hF.issued x hx hxq).kept hkept fun h hh => ?_
          rw [← hentries x hne]
          exact hh
      · simp only [Fetcher.Settled, hpc] at h

/-- With too few free slots some read is not reaped. -/
theorem Books.reads_ne_nil (hb : Books C F g d q) (hfree : F.freeSlots.length < 2) :
    F.ring.reads ≠ [] := by
  intro hnil
  have hlen := hb.slots.length_eq
  rw [hnil, List.map_nil, List.append_nil, List.length_range] at hlen
  have := C.slotsLe
  omega

/-- After a submission the fetcher goes to its completions while entries are queued. -/
theorem LiveOk.submitted (hF : LiveOk C F) (hpc : F.pc = .submit l)
    (hlast : F.queued = [] → F.ring.sq = [])
    (hwait : F.queued ≠ [] → F.ring.flying ≠ [] ∨ F.ring.cq ≠ []) :
    LiveOk C (F.submitted l) := by
  have hb := hF.books.submitted hpc
  have hl : ∀ k, F.pc.guard = some k → k < C.nLayers := hF.layer
  rw [hpc] at hl
  rw [Fetcher.submitted] at hb ⊢
  by_cases hq : F.queued = []
  · rw [if_pos hq] at hb ⊢
    exact .ofSettled hb hF.issued hl (hlast hq) fun k => by simp [Fetcher.goto]
  · rw [if_neg hq] at hb ⊢
    exact ⟨hb, hF.issued, hl, fun h => h.elim, fun k hk => by simp [Fetcher.goto] at hk,
      fun k _ => ⟨hq, hwait hq⟩, fun k hk => by simp [Fetcher.goto] at hk⟩

/-- Reaping a completion leaves every entry the reads of its other half. -/
theorem Fetcher.Issued.reapOne (hcq : F.ring.cq = (r, res) :: cq) (hF : F.Issued e) :
    (F.reapOne r res cq).Issued e := by
  obtain ⟨-, -, hentries, hring, hslots, -⟩ := reapOne_frame F r res cq
  intro h hh
  rw [hentries] at hh
  have hopen : (F.entries e).done h = false ∧ F.target r ≠ (e, h) := by
    rcases eq_or_ne e (F.slots r.ud).entry with rfl | hne
    · rw [Function.update_self, (landed_same _ _ _).2.2.1] at hh
      have hhalf : h ≠ (F.slots r.ud).half := by
        rintro rfl
        simp at hh
      rw [Function.update_of_ne hhalf] at hh
      exact ⟨hh, fun heq => hhalf (congrArg Prod.snd heq).symm⟩
    · rw [Function.update_of_ne hne] at hh
      exact ⟨hh, fun heq => hne (congrArg Prod.fst heq).symm⟩
  obtain ⟨r', hr', ht⟩ := hF h hopen.1
  refine ⟨r', ?_, by rw [Fetcher.target, hslots]; exact ht⟩
  rw [hring]
  exact ((mem_reads_pop hcq).mp hr').resolve_left fun heq => hopen.2 (heq ▸ ht)

/-- Reaping keeps what the completion of every job rests on. -/
theorem LiveOk.reapOne (hF : LiveOk C F) (hb : BooksOk C (F.reapOne r res cq))
    (hcq : F.ring.cq = (r, res) :: cq) (hpc : (∃ l, F.pc = .reapIn l) ∨ F.pc = .reap) :
    LiveOk C (F.reapOne r res cq) := by
  obtain ⟨hpc', hq, -, hring, -, hlive⟩ := reapOne_frame F r res cq
  have hissued : ∀ e, (F.reapOne r res cq).Live e → e ∉ (F.reapOne r res cq).queued →
      (F.reapOne r res cq).Issued e := by
    intro e he hnot
    rw [hq] at hnot
    exact (hF.issued e (hlive e he) hnot).reapOne hcq
  refine ⟨hb, hissued, by rw [hpc']; exact hF.layer, fun h => ?_, fun k hk => ?_,
    fun k hk => ?_, fun k hk => ?_⟩
  · rw [hring]
    refine hF.settled ?_
    rcases hpc with ⟨l, hpc⟩ | hpc
    · rw [Fetcher.Settled, hpc', hpc] at h
      exact h.elim
    · rw [Fetcher.Settled, hpc]
      trivial
  · rw [hpc'] at hk
    rcases hpc with ⟨l, hpc⟩ | hpc <;> simp [hpc] at hk
  · rw [hpc'] at hk
    rcases hpc with ⟨l, hpc⟩ | hpc <;> simp [hpc] at hk
  · rw [hpc'] at hk
    rw [hq]
    exact hF.reaps k hk

/-- Between two submissions the completions give slots back. -/
theorem LiveOk.reapIn (hF : LiveOk C F) (hpc : F.pc = .reapIn l) :
    LiveOk C (F.reapAll (F.goto (.more l))) := by
  have hgoto : BooksOk C (F.goto (.more l)) :=
    hF.books.goto (by rw [hpc]; rfl) fun k hk => by simp at hk
  have hb := hF.books.reapAll hgoto
  rcases hcq : F.ring.cq with _ | ⟨⟨r, res⟩, cq⟩
  · simp only [Fetcher.reapAll, hcq]
    exact ⟨hgoto, hF.issued, fun k hk => hF.layer k (by rw [hpc]; exact hk),
      fun h => absurd h (hF.reaps l hpc), fun k hk => by simp [Fetcher.goto] at hk,
      fun k hk => by simp [Fetcher.goto] at hk, fun k hk => by simp [Fetcher.goto] at hk⟩
  · simp only [Fetcher.reapAll, hcq] at hb ⊢
    exact hF.reapOne hb hcq (.inl ⟨l, hpc⟩)

/-- At the end of the mailboxes nothing is queued, and the completions are reaped. -/
theorem LiveOk.reap (hF : LiveOk C F) (hpc : F.pc = .reap) : LiveOk C (F.reapAll F.newPoll) := by
  have hnew : BooksOk C F.newPoll := hF.books.newPoll (by rw [hpc]; rfl)
  have hb := hF.books.reapAll hnew
  rcases hcq : F.ring.cq with _ | ⟨⟨r, res⟩, cq⟩
  · simp only [Fetcher.reapAll, hcq]
    exact .ofSettled hnew hF.issued (fun k hk => by simp [Fetcher.newPoll, Pc.guard] at hk)
      (hF.settled (by rw [Fetcher.Settled, hpc]; trivial)) fun k => by simp [Fetcher.newPoll]
  · simp only [Fetcher.reapAll, hcq] at hb ⊢
    exact hF.reapOne hb hcq (.inr hpc)

/-- The guard is released once every entry of the request is issued. -/
theorem LiveOk.release (hF : LiveOk C F) (hpc : F.pc = .release l) : LiveOk C (F.release l) := by
  have hb := hF.books.release hpc
  have hsq : F.ring.sq = [] := hF.settled (by rw [Fetcher.Settled, hpc]; trivial)
  obtain ⟨jobs, acks, heq⟩ := countDown_eq F l
  rw [Fetcher.release, heq] at hb ⊢
  exact .ofSettled hb hF.issued (fun k hk => by simp [Pc.guard] at hk) hsq fun k => by simp

/-! ### Reading ahead -/

theorem LiveOk.check (hF : LiveOk C F) (hpc : F.pc = .check) : LiveOk C (F.check C) := by
  have hb : BooksOk C (F.check C) := hF.books.check (by rw [hpc]; rfl)
  have hsq : F.ring.sq = [] := hF.settled (by rw [Fetcher.Settled, hpc]; trivial)
  obtain ⟨pc, busy, heq, hnext⟩ : ∃ pc busy, F.check C = { F with
      pc := pc
      busy := busy } ∧ (pc = .reap ∨ pc = .prefetch ∨ pc = .scan 0) := by
    rw [Fetcher.check]
    split
    · exact ⟨_, _, rfl, .inl rfl⟩
    · split
      · exact ⟨_, _, rfl, .inr (.inl rfl)⟩
      · exact ⟨_, _, rfl, .inr (.inr rfl)⟩
  rw [heq] at hb ⊢
  refine .ofSettled hb hF.issued (fun k hk => ?_) hsq fun k => ?_
  · rcases hnext with rfl | rfl | rfl <;> simp [Pc.guard] at hk
  · rcases hnext with rfl | rfl | rfl <;> simp

/-- A batch is taken from the rows that are queued to be prefetched. -/
theorem LiveOk.prefetch (hF : LiveOk C F) (hpc : F.pc = .prefetch) : LiveOk C (F.prefetch C) := by
  have hb : BooksOk C (F.prefetch C) := hF.books.prefetch (by rw [hpc]; rfl)
  have hsq : F.ring.sq = [] := hF.settled (by rw [Fetcher.Settled, hpc]; trivial)
  obtain ⟨pc, busy, pfQueue, batch, issued, heq, hnext⟩ : ∃ pc busy pfQueue batch issued,
      F.prefetch C = { F with
        pc := pc
        busy := busy
        pfQueue := pfQueue
        batch := batch
        issued := issued } ∧ (pc = .scan 0 ∨ pc = .prefetchRow) := by
    rw [Fetcher.prefetch]
    dsimp only
    split
    · exact ⟨_, _, _, _, _, rfl, .inl rfl⟩
    · split
      · exact ⟨_, _, _, _, _, rfl, .inl rfl⟩
      · exact ⟨_, _, _, _, _, rfl, .inr rfl⟩
  rw [heq] at hb ⊢
  refine .ofSettled hb hF.issued (fun k hk => ?_) hsq fun k => ?_
  · rcases hnext with rfl | rfl <;> simp [Pc.guard] at hk
  · rcases hnext with rfl | rfl <;> simp

/-- Inside the prefetch batch. -/
theorem LiveOk.ofPrefetchRow (hb : BooksOk C G) (hpc : G.pc = .prefetchRow)
    (hissued : ∀ e, G.Live e → G.Issued e) (hsq : G.issued = false → G.ring.sq = []) :
    LiveOk C G := by
  refine ⟨hb, fun e he _ => hissued e he, fun k hk => by simp [hpc, Pc.guard] at hk, fun h => ?_,
    fun k hk => by simp [hpc] at hk, fun k hk => by simp [hpc] at hk,
    fun k hk => by simp [hpc] at hk⟩
  rw [Fetcher.Settled, hpc] at h
  exact hsq h

/-- A new entry leaves the reads of the others alone. -/
theorem Inserted.issued {E : Entry B} {x : ℕ} (h : Inserted F e E F') (hx : F.Live x)
    (hF : F.Issued x) : F'.Issued x := by
  refine hF.kept (fun r hr => ⟨h.io.1 ▸ hr, by rw [h.target]⟩) fun k hk => ?_
  rwa [h.entries x hx] at hk

/-- The entry of a prefetch is issued at once or not at all. -/
theorem LiveOk.prefetchMiss (hF : LiveOk C F) (hpc : F.pc = .prefetchRow)
    (hp : F.pending l id = none) {rest : List (ℕ × ℤ)} :
    LiveOk C (F.prefetchMiss C l id rest) := by
  have hguard : F.pc.guard = none := by rw [hpc]; rfl
  have hbM : BooksOk C (F.prefetchMiss C l id rest) := hF.books.prefetchMiss hguard hp
  have hb := hF.books.idleBooks hguard
  have hold : ∀ e, F.Live e → F.Issued e := fun e he =>
    hF.issued e he (by rw [hF.books.idle hguard]; simp)
  have hsq : F.issued = false → F.ring.sq = [] := fun h =>
    hF.settled (by rw [Fetcher.Settled, hpc]; exact h)
  have halloc := hb.alloc
  simp only [Fetcher.prefetchMiss] at hbM ⊢
  generalize F.allocEntry = a at halloc hbM ⊢
  obtain ⟨e, F₁⟩ := a
  obtain ⟨entries, nEntries, freeEntries, rfl⟩ := halloc.same
  have hins := halloc.inserted (E := { entries e with layer := l, id := id, job := none })
    (J := F.jobs) (fun k => by simp)
  have hnew := hb.newEntry (p := []) hins halloc.blank.1 hp (fun k hk => by simp at hk) (.inl rfl)
  have hu : Unissued _ e := ⟨(hins.live e).mpr (.inr rfl), by
    rw [hins.entry]
    exact halloc.blank.1, fun r hr => by
    rw [hins.target]
    exact hb.read_ne hins.notLive (hins.io.1 ▸ hr)⟩
  dsimp only at hbM ⊢
  generalize hs : Fetcher.issueEntry C _ e = o at hbM ⊢
  rcases o with _ | F₂
  · refine .ofPrefetchRow hbM hpc (fun x hx => ?_) hsq
    obtain ⟨hx, hne⟩ := (live_free (F := Fetcher.setPending _ l id (some e)) x).mp hx
    have hlive : F.Live x := ((hins.live x).mp hx).resolve_right hne
    exact hins.issued hlive (hold x hlive)
  · obtain ⟨hkept, hissued, hentries⟩ := hnew.issueEntry_reads hu (by simp) hs
    obtain ⟨_, _, _, _, rfl⟩ := issueEntry_frame hs
    refine .ofPrefetchRow hbM hpc (fun x hx => ?_) (fun h => by simp at h)
    rcases eq_or_ne x e with rfl | hne
    · exact hissued
    · have hlive : F.Live x := ((hins.live x).mp hx).resolve_right hne
      refine (hins.issued hlive (hold x hlive)).kept hkept fun h hh => ?_
      rw [← hentries x hne]
      exact hh

/-- A row of the batch. -/
theorem LiveOk.prefetchRow (hF : LiveOk C F) (hpc : F.pc = .prefetchRow) :
    LiveOk C (F.prefetchRow C) := by
  have hguard : F.pc.guard = none := by rw [hpc]; rfl
  have hb := hF.books.prefetchRow hguard
  have hold : ∀ e, F.Live e → F.Issued e := fun e he =>
    hF.issued e he (by rw [hF.books.idle hguard]; simp)
  have hsq : F.issued = false → F.ring.sq = [] := fun h =>
    hF.settled (by rw [Fetcher.Settled, hpc]; exact h)
  rw [Fetcher.prefetchRow] at hb ⊢
  rcases hbatch : F.batch with _ | ⟨⟨l, id⟩, rest⟩
  · simp only [hbatch] at hb ⊢
    by_cases hi : F.issued = true
    · rw [if_pos hi] at hb ⊢
      exact ⟨hb, fun e he _ => hold e he, fun k hk => by simp [Fetcher.goto, Pc.guard] at hk,
        fun h => h.elim, fun k hk => by simp [Fetcher.goto] at hk,
        fun k hk => by simp [Fetcher.goto] at hk, fun k hk => by simp [Fetcher.goto] at hk⟩
    · rw [if_neg hi] at hb ⊢
      exact .ofSettled hb (fun e he _ => hold e he)
        (fun k hk => by simp [Fetcher.newPoll, Pc.guard] at hk) (hsq (by simpa using hi))
        fun k => by simp [Fetcher.newPoll]
  · simp only [hbatch] at hb ⊢
    by_cases hr : (C.layer l).InRange id
    · rw [if_neg (not_not_intro hr)] at hb ⊢
      rcases hprobe : (F.cache l).probe id.toNat with _ | ⟨row, K⟩
      · simp only [hprobe] at hb ⊢
        rcases hp : F.pending l id.toNat with _ | e
        · simp only [hp] at hb ⊢
          exact hF.prefetchMiss hpc hp
        · simp only [hp] at hb ⊢
          exact .ofPrefetchRow hb hpc hold hsq
      · simp only [hprobe] at hb ⊢
        exact .ofPrefetchRow hb hpc hold hsq
    · rw [if_pos hr] at hb ⊢
      exact .ofPrefetchRow hb hpc hold hsq

/-! ### Every step -/

/-- **A step of the fetcher**, by its place. -/
theorem LiveOk.tick [Zero B] (hF : LiveOk C F) (hs : F.tick C = some F') : LiveOk C F' := by
  have hl : ∀ k, F.pc.guard = some k → k < C.nLayers := hF.layer
  rw [Fetcher.tick] at hs
  split at hs
  · next l hpc => exact Option.some.inj hs ▸ hF.scan hpc
  · next l i hpc => exact Option.some.inj hs ▸ hF.rowStep hpc
  · next l hpc =>
    have hb : BooksOk C (F.goto (if F.queued = [] then .release l else .issue l)) :=
      hF.books.tick (by rw [Fetcher.tick, hpc])
    obtain rfl := Option.some.inj hs
    rw [hpc] at hl
    by_cases hq : F.queued = []
    · rw [if_pos hq] at hb ⊢
      exact .ofSettled hb hF.issued hl (hF.settled (by rw [Fetcher.Settled, hpc]; exact hq))
        fun k => by simp [Fetcher.goto]
    · rw [if_neg hq] at hb ⊢
      exact ⟨hb, hF.issued, hl, fun h => h.elim, fun k hk => by simp [Fetcher.goto] at hk,
        fun k hk => by simp [Fetcher.goto] at hk, fun k hk => by simp [Fetcher.goto] at hk⟩
  · next l hpc => exact Option.some.inj hs ▸ hF.issueStep hpc
  · next l hpc =>
    split at hs
    · next hsq =>
      refine Option.some.inj hs ▸ hF.submitted hpc (fun _ => hsq) fun hq => ?_
      -- an entry is left because the slots are, so reads are in flight
      have hreads := hF.books.books.reads_ne_nil ((hF.full l hpc).resolve_left hq)
      by_contra hnone
      rw [not_or, not_not, not_not] at hnone
      exact hreads (by simp [Uring.reads, hsq, hnone.1, hnone.2])
    · simp at hs
  · next l hpc =>
    have hb : BooksOk C (F.goto (.reapIn l)) := hF.books.tick (by rw [Fetcher.tick, hpc])
    obtain rfl := Option.some.inj hs
    rw [hpc] at hl
    exact ⟨hb, hF.issued, hl, fun h => h.elim, fun k hk => by simp [Fetcher.goto] at hk,
      fun k hk => by simp [Fetcher.goto] at hk, fun _ _ => (hF.waits l hpc).1⟩
  · next l hpc => exact Option.some.inj hs ▸ hF.reapIn hpc
  · next l hpc => exact Option.some.inj hs ▸ hF.release hpc
  · next hpc => exact Option.some.inj hs ▸ hF.check hpc
  · next hpc => exact Option.some.inj hs ▸ hF.reap hpc
  · next hpc => exact Option.some.inj hs ▸ hF.prefetch hpc
  · next hpc => exact Option.some.inj hs ▸ hF.prefetchRow hpc
  · simp at hs

/-- What a submission that is taken does to the ring. -/
theorem submit_accepted {R R' : Uring Read} {n : ℕ} (h : R.submit (.accepted n) = some R') :
    n ≤ R.sq.length ∧ R' = { R with
      sq := R.sq.drop n
      flying := R.flying ++ R.sq.take n } := by
  simp only [Uring.submit] at h
  split at h
  · next hn => exact ⟨hn, (Option.some.inj h).symm⟩
  · simp at h

/-- A submission that is taken leaves what is prepared to the device. -/
theorem LiveOk.answer (hF : LiveOk C F) {a : Answer} (ha : Taken F (.answer a))
    (hs : F.answer a = some F') : LiveOk C F' := by
  have hb := hF.books.answer hs
  obtain ⟨R, hR, hs⟩ := Option.bind_eq_some_iff.mp hs
  have hperm := Uring.reads_submit hR
  obtain ⟨n, rfl, hn⟩ := ha
  obtain ⟨hle, rfl⟩ := submit_accepted hR
  have hissued : ∀ e, F.Live e → e ∉ F.queued → ∀ h, (F.entries e).done h = false →
      ∃ r ∈ ({ F.ring with
        sq := F.ring.sq.drop n
        flying := F.ring.flying ++ F.ring.sq.take n } : Uring Read).reads, F.target r = (e, h) := by
    intro e he hq h hh
    obtain ⟨r, hr, ht⟩ := hF.issued e he hq h hh
    exact ⟨r, hperm.mem_iff.mpr hr, ht⟩
  dsimp only at hs
  split at hs
  · next l hpc =>
    rw [if_neg (by simp : ¬ Answer.accepted n = .error)] at hs
    split at hs
    · simp at hs
    · next hsq =>
      obtain rfl := Option.some.inj hs
      rw [hpc] at hn
      have hF' : LiveOk C { F with ring := { F.ring with
          sq := F.ring.sq.drop n
          flying := F.ring.flying ++ F.ring.sq.take n } } := by
        refine ⟨hF.books.setRing hperm, hissued, hF.layer, fun h => ?_, hF.full,
          fun k hk => by simp [hpc] at hk, fun k hk => by simp [hpc] at hk⟩
        simp only [Fetcher.Settled, hpc] at h
      refine hF'.submitted hpc (fun hq => ?_) fun hq => ?_
      · -- the last submission takes everything
        rw [if_neg fun h => h.2 hq] at hn
        rw [hn]
        exact List.drop_length
      · rw [if_pos ⟨by simp [Pc.guard], hq⟩] at hn
        rcases hn with hfly | hcq | hpos
        · exact .inl (List.append_ne_nil_of_left_ne_nil hfly _)
        · exact .inr hcq
        · refine .inl (List.append_ne_nil_of_right_ne_nil _ fun htake => ?_)
          rw [List.take_eq_nil_iff] at htake
          exact htake.elim (fun h0 => by omega) hsq
  · next hpc =>
    obtain rfl := Option.some.inj hs
    rw [hpc, if_neg (by simp [Pc.guard])] at hn
    have hguard : F.pc.guard = none := by rw [hpc]; rfl
    refine .ofSettled hb (fun e he _ => hissued e he ?_) (fun k hk => ?_) ?_ fun k => ?_
    · rw [hF.books.idle hguard]
      simp
    · simp [Fetcher.newPoll, Pc.guard] at hk
    · change F.ring.sq.drop n = []
      rw [hn]
      exact List.drop_length
    · simp [Fetcher.newPoll]
  · simp at hs

/-- A completion leaves the entries as they are. -/
theorem LiveOk.complete (hF : LiveOk C F) {garbage : ℕ → B}
    (hs : F.complete C i res garbage = some F') : LiveOk C F' := by
  have hb := hF.books.complete hs
  obtain ⟨r, hr, hs⟩ := Option.bind_eq_some_iff.mp hs
  obtain ⟨R, hR, rfl⟩ := Option.map_eq_some_iff.mp hs
  have hperm := Uring.reads_complete hR
  have hsame : R.sq = F.ring.sq ∧ R.cq ≠ [] := by
    rw [Uring.complete, hr] at hR
    obtain rfl := Option.some.inj hR
    simp
  refine ⟨hb, fun e he hq h hh => ?_, hF.layer, fun h => hsame.1.trans (hF.settled h), hF.full,
    fun k hk => ⟨(hF.waits k hk).1, .inr hsame.2⟩, hF.reaps⟩
  obtain ⟨r', hr', ht⟩ := hF.issued e he hq h hh
  refine ⟨r', hperm.mem_iff.mpr hr', ?_⟩
  rw [← ht]
  rcases eq_or_ne r'.ud r.ud with heq | hne
  · simp [Fetcher.target, heq]
  · simp [Fetcher.target, hne]

/-- A fetcher starts with empty queues. -/
theorem LiveOk.start (hF : Start C F) : LiveOk C F := by
  refine .ofSettled (.start hF) (fun e he _ => ?_) (fun k hk => ?_) ?_ fun k => ?_
  · have := he.1
    rw [hF.nEntries] at this
    omega
  · simp [hF.pc, Pc.guard] at hk
  · rw [hF.ring]
  · simp [hF.pc]

/-- **One step** keeps what the completion of every job rests on. -/
theorem LiveOk.step [Zero B] (hF : LiveOk C F) {a : Act B} (ha : Taken F a)
    (hs : F.step C a = some F') : LiveOk C F' := by
  have hb := hF.books.step hs
  rcases step_cases hs with ⟨-, hs⟩ | ⟨b, rfl, hs⟩ | ⟨i, res, garbage, -, hs⟩ |
    ⟨-, _, _, _, rfl⟩
  · exact hF.tick hs
  · exact hF.answer ha hs
  · exact hF.complete hs
  · exact ⟨hb, hF.issued, hF.layer, hF.settled, hF.full, hF.waits, hF.reaps⟩

/-- It holds in every state reached by submissions that are taken. -/
theorem liveOk_invariant [Zero B] (C : Cfg B) :
    ((fetcherSystem C).onlySteps Taken).Invariant (LiveOk C) where
  start _ h := .start h
  step _ _ _ _ hF hs := hF.step hs.1 hs.2

end Engram

end VllmMoet
