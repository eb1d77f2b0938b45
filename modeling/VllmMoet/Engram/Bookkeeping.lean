import VllmMoet.Engram.Fetcher

/-!
# The fetcher's bookkeeping

Entries, slots and jobs are counted in several places that must agree while entries move from
prefetch to job ownership and to the free list, and while completions are reaped inside the
issue loop of another job. `Books` is this agreement; it is proved operation by operation,
and holds in every reachable state (`books_kept`), whatever the kernel answers.
-/

namespace VllmMoet

namespace Engram

variable {B : Type*} {C : Cfg B} {F F' F₁ : Fetcher B} {g d : Option ℕ} {q : List ℕ}
  {e e' i id l : ℕ} {h : Half} {r : Read}

/-! ### The agreement -/

/-- The entry is handed out. -/
def Fetcher.Live (F : Fetcher B) (e : ℕ) : Prop := e < F.nEntries ∧ e ∉ F.freeEntries

/-- The entry and the half a read of the ring is for. -/
def Fetcher.target (F : Fetcher B) (r : Read) : ℕ × Half :=
  ((F.slots r.ud).entry, (F.slots r.ud).half)

/-- The entries layer `l`'s job waits for. -/
def Fetcher.owned (F : Fetcher B) (l : ℕ) : Finset ℕ :=
  (Finset.range F.nEntries).filter fun e => e ∉ F.freeEntries ∧ (F.entries e).job = some l

theorem mem_owned : e ∈ F.owned l ↔ F.Live e ∧ (F.entries e).job = some l := by
  simp [Fetcher.owned, Fetcher.Live, and_assoc]

/-- The index structures and counters agree. `g` is the layer whose job has its guard, and `q`
are the entries it has yet to issue; `d` is a layer whose job has yet to count one down. -/
structure Books (C : Cfg B) (F : Fetcher B) (g d : Option ℕ) (q : List ℕ) : Prop where
  freeNodup : F.freeEntries.Nodup
  freeLt : ∀ e ∈ F.freeEntries, e < F.nEntries
  pending : ∀ l id e, F.pending l id = some e ↔
    F.Live e ∧ (F.entries e).layer = l ∧ (F.entries e).id = id
  slots : (F.freeSlots ++ F.ring.reads.map Read.ud).Perm (List.range C.nSlots)
  reads : ∀ r ∈ F.ring.reads, F.Live (F.target r).1 ∧
    (F.entries (F.target r).1).done (F.target r).2 = false
  distinct : (F.ring.reads.map F.target).Nodup
  queueNodup : q.Nodup
  queued : ∀ e ∈ q, F.Live e ∧ (F.entries e).job = g ∧ (∀ h, (F.entries e).done h = false) ∧
    ∀ r ∈ F.ring.reads, (F.target r).1 ≠ e
  owner : ∀ e, F.Live e → ∀ l, (F.entries e).job = some l →
    (F.entries e).layer = l ∧ (F.jobs l).active = true
  count : ∀ l, (F.jobs l).remaining =
    (F.owned l).card + (if g = some l then 1 else 0) + if d = some l then 1 else 0
  waiting : ∀ l, (F.jobs l).active = true → 0 < (F.jobs l).remaining
  guard : ∀ l, g = some l → (F.jobs l).active = true
  log : ∀ l, (F.begun l).map Request.step = (F.acks l).map Ack.step ++
    if (F.jobs l).active then [(F.jobs l).seq] else []
  debt : ∀ l, d = some l → (F.jobs l).active = true

/-- A live entry has a half to come. -/
def Fetcher.Open (F : Fetcher B) : Prop := ∀ e, F.Live e → ∃ h, (F.entries e).done h = false

/-! ### Steps that leave the books alone -/

/-- The fields the books do not look at. -/
theorem Books.other (hb : Books C F g d q) (cache : ℕ → RowCache B) (expected : ℕ → ℕ)
    (mailbox : ℕ → Request) (staging : ℕ → ℕ → Row B) (pfQueue : List Prefetch) (pc : Pc)
    (busy : Bool) (queued : List ℕ) (loc : ℕ → Option ℕ) (batch : List (ℕ × ℤ)) (issued : Bool) :
    Books C { F with
      cache := cache
      expected := expected
      mailbox := mailbox
      staging := staging
      pfQueue := pfQueue
      pc := pc
      busy := busy
      queued := queued
      loc := loc
      batch := batch
      issued := issued } g d q :=
  ⟨hb.freeNodup, hb.freeLt, hb.pending, hb.slots, hb.reads, hb.distinct, hb.queueNodup, hb.queued,
    hb.owner, hb.count, hb.waiting, hb.guard, hb.log, hb.debt⟩

/-- Reads move from one stage of the ring to the next. -/
theorem Books.setRing (hb : Books C F g d q) {R : Uring Read} (hR : R.reads.Perm F.ring.reads) :
    Books C { F with ring := R } g d q where
  freeNodup := hb.freeNodup
  freeLt := hb.freeLt
  pending := hb.pending
  slots := ((hR.map Read.ud).append_left F.freeSlots).trans hb.slots
  reads r hr := hb.reads r (hR.mem_iff.mp hr)
  distinct := (hR.map F.target).nodup_iff.mpr hb.distinct
  queueNodup := hb.queueNodup
  queued e he := by
    obtain ⟨hlive, hjob, hdone, hread⟩ := hb.queued e he
    exact ⟨hlive, hjob, hdone, fun r hr => hread r (hR.mem_iff.mp hr)⟩
  owner := hb.owner
  count := hb.count
  waiting := hb.waiting
  guard := hb.guard
  log := hb.log
  debt := hb.debt

/-- A buffer is written. -/
theorem Books.setBuf (hb : Books C F g d q) (s : ℕ) (buf : ℕ → B) :
    Books C { F with slots := Function.update F.slots s { F.slots s with buf := buf } } g d q := by
  have htarget : Fetcher.target { F with
      slots := Function.update F.slots s { F.slots s with buf := buf } } = F.target := by
    funext r
    rcases eq_or_ne r.ud s with rfl | hne
    · simp [Fetcher.target]
    · simp [Fetcher.target, hne]
  refine ⟨hb.freeNodup, hb.freeLt, hb.pending, hb.slots, ?_, ?_, hb.queueNodup, ?_, hb.owner,
    hb.count, hb.waiting, hb.guard, hb.log, hb.debt⟩
  · rw [htarget]
    exact hb.reads
  · rw [htarget]
    exact hb.distinct
  · rw [htarget]
    exact hb.queued

theorem owned_setEntry {E : Entry B} (hjob : E.job = (F.entries e).job) (l : ℕ) :
    (F.setEntry e E).owned l = F.owned l := by
  refine Finset.filter_congr fun x _ => ?_
  rcases eq_or_ne x e with rfl | hne
  · simp [Fetcher.setEntry, hjob]
  · simp [Fetcher.setEntry, hne]

/-- An entry keeps its row, its owner and its halves. -/
theorem Books.setEntry (hb : Books C F g d q) {E : Entry B}
    (hE : E.layer = (F.entries e).layer ∧ E.id = (F.entries e).id ∧
      E.done = (F.entries e).done ∧ E.job = (F.entries e).job) :
    Books C (F.setEntry e E) g d q := by
  obtain ⟨hlayer, hid, hdone, hjob⟩ := hE
  have hsame : ∀ x, ((F.setEntry e E).entries x).layer = (F.entries x).layer ∧
      ((F.setEntry e E).entries x).id = (F.entries x).id ∧
      ((F.setEntry e E).entries x).done = (F.entries x).done ∧
      ((F.setEntry e E).entries x).job = (F.entries x).job := by
    intro x
    rcases eq_or_ne x e with rfl | hne
    · simpa [Fetcher.setEntry] using ⟨hlayer, hid, hdone, hjob⟩
    · simp [Fetcher.setEntry, hne]
  refine ⟨hb.freeNodup, hb.freeLt, fun l id x => ?_, hb.slots, fun r hr => ?_, hb.distinct,
    hb.queueNodup, fun x hx => ?_, fun x hx l hl => ?_, fun l => ?_, hb.waiting, hb.guard, hb.log, hb.debt⟩
  · rw [(hsame x).1, (hsame x).2.1]
    exact hb.pending l id x
  · rw [(hsame _).2.2.1]
    exact hb.reads r hr
  · rw [(hsame x).2.2.1, (hsame x).2.2.2]
    exact hb.queued x hx
  · rw [(hsame x).1]
    rw [(hsame x).2.2.2] at hl
    exact hb.owner x hx l hl
  · rw [owned_setEntry hjob]
    exact hb.count l

/-- The jobs keep their counts, their numbers and whether they are active. -/
theorem Books.setJobs (hb : Books C F g d q) {jobs : ℕ → Job}
    (hsame : ∀ l, (jobs l).remaining = (F.jobs l).remaining ∧
      (jobs l).active = (F.jobs l).active ∧ (jobs l).seq = (F.jobs l).seq) :
    Books C { F with jobs := jobs } g d q := by
  refine ⟨hb.freeNodup, hb.freeLt, hb.pending, hb.slots, hb.reads, hb.distinct, hb.queueNodup,
    hb.queued, fun e he k hk => ?_, fun k => ?_, fun k hk => ?_, fun k hk => ?_, fun k => ?_,
    fun k hk => ?_⟩
  · rw [(hsame k).2.1]
    exact hb.owner e he k hk
  · rw [(hsame k).1]
    exact hb.count k
  · rw [(hsame k).1]
    rw [(hsame k).2.1] at hk
    exact hb.waiting k hk
  · rw [(hsame k).2.1]
    exact hb.guard k hk
  · rw [(hsame k).2.1, (hsame k).2.2]
    exact hb.log k
  · rw [(hsame k).2.1]
    exact hb.debt k hk

/-- A job keeps its count, its number and whether it is active. -/
theorem Books.setJob (hb : Books C F g d q) {J : Job}
    (hJ : J.remaining = (F.jobs l).remaining ∧ J.active = (F.jobs l).active ∧
      J.seq = (F.jobs l).seq) : Books C (F.setJob l J) g d q := by
  refine hb.setJobs fun k => ?_
  rcases eq_or_ne k l with rfl | hne
  · simpa using hJ
  · simp [hne]

/-! ### A new entry -/

/-- What `alloc_entry` does: an entry that was not live is, and is blank. -/
structure Allocated (F : Fetcher B) (e : ℕ) (F₁ : Fetcher B) : Prop where
  notLive : ¬ F.Live e
  live : ∀ x, F₁.Live x ↔ F.Live x ∨ x = e
  entries : ∀ x ≠ e, F₁.entries x = F.entries x
  blank : (∀ h, (F₁.entries e).done h = false) ∧ (F₁.entries e).failed = false ∧
    (F₁.entries e).extra = []
  freeNodup : F₁.freeEntries.Nodup
  freeLt : ∀ x ∈ F₁.freeEntries, x < F₁.nEntries
  same : ∃ entries nEntries freeEntries, F₁ = { F with
    entries := entries
    nEntries := nEntries
    freeEntries := freeEntries }

theorem Books.alloc (hb : Books C F g d q) : Allocated F F.allocEntry.1 F.allocEntry.2 := by
  rw [Fetcher.allocEntry]
  split
  · next hnil =>
    refine ⟨fun hlive => absurd hlive.1 (lt_irrefl _), fun x => ?_, fun x hx => ?_, ?_, ?_, ?_,
      _, _, _, rfl⟩
    · simp only [Fetcher.Live, Fetcher.setEntry, hnil, List.not_mem_nil, not_false_eq_true,
        and_true]
      omega
    · simp [Fetcher.setEntry, hx]
    · simp [Fetcher.setEntry, Entry.fresh]
    · simp [Fetcher.setEntry, hnil]
    · simp [Fetcher.setEntry, hnil]
  · next e es hcons =>
    have hnd := hb.freeNodup
    rw [hcons, List.nodup_cons] at hnd
    have hlt : e < F.nEntries := hb.freeLt e (by rw [hcons]; exact List.mem_cons_self ..)
    refine ⟨fun hlive => hlive.2 ?_, fun x => ?_, fun x hx => ?_, ?_, hnd.2, fun x hx => ?_,
      _, _, _, rfl⟩
    · rw [hcons]
      exact List.mem_cons_self ..
    · simp only [Fetcher.Live, Fetcher.setEntry, hcons, List.mem_cons, not_or]
      constructor
      · rintro ⟨hx, hes⟩
        rcases eq_or_ne x e with rfl | hne
        · exact .inr rfl
        · exact .inl ⟨hx, hne, hes⟩
      · rintro (⟨hx, -, hes⟩ | rfl)
        · exact ⟨hx, hes⟩
        · exact ⟨hlt, hnd.1⟩
    · simp [Fetcher.setEntry, hx]
    · simp [Fetcher.setEntry, Entry.reset]
    · exact hb.freeLt x (by rw [hcons]; exact List.mem_cons_of_mem _ hx)

/-- The slots and the ring know nothing of an entry that is not live. -/
theorem Books.read_ne (hb : Books C F g d q) (h : ¬ F.Live e) (hr : r ∈ F.ring.reads) :
    (F.target r).1 ≠ e := by
  rintro rfl
  exact h (hb.reads r hr).1

/-- `F'` is `F` with the new entry `E` at `e`, pending and counted. -/
structure Inserted (F : Fetcher B) (e : ℕ) (E : Entry B) (F' : Fetcher B) : Prop where
  notLive : ¬ F.Live e
  live : ∀ x, F'.Live x ↔ F.Live x ∨ x = e
  entries : ∀ x, F.Live x → F'.entries x = F.entries x
  entry : F'.entries e = E
  freeNodup : F'.freeEntries.Nodup
  freeLt : ∀ x ∈ F'.freeEntries, x < F'.nEntries
  pending : ∀ l id, F'.pending l id = if l = E.layer ∧ id = E.id then some e else F.pending l id
  io : F'.ring = F.ring ∧ F'.slots = F.slots ∧ F'.freeSlots = F.freeSlots
  jobs : ∀ l, (F'.jobs l).remaining = (F.jobs l).remaining + (if E.job = some l then 1 else 0) ∧
    (F'.jobs l).active = (F.jobs l).active ∧ (F'.jobs l).seq = (F.jobs l).seq
  logs : F'.begun = F.begun ∧ F'.acks = F.acks

theorem Allocated.inserted (h : Allocated F e F₁) {E : Entry B} {J : ℕ → Job}
    (hjobs : ∀ l, (J l).remaining = (F.jobs l).remaining + (if E.job = some l then 1 else 0) ∧
      (J l).active = (F.jobs l).active ∧ (J l).seq = (F.jobs l).seq) :
    Inserted F e E
      { (F₁.setEntry e E).setPending E.layer E.id (some e) with jobs := J } := by
  obtain ⟨hnot, hlive, hentries, -, hnodup, hlt, entries, nEntries, freeEntries, rfl⟩ := h
  refine ⟨hnot, hlive, fun x hx => ?_, by simp [Fetcher.setEntry, Fetcher.setPending], hnodup, hlt,
    fun l id => ?_, ⟨rfl, rfl, rfl⟩, hjobs, rfl, rfl⟩
  · have hne : x ≠ e := fun heq => hnot (heq ▸ hx)
    simpa [Fetcher.setEntry, Fetcher.setPending, hne] using hentries x hne
  · rcases eq_or_ne l E.layer with rfl | hl
    · rcases eq_or_ne id E.id with rfl | hid
      · simp [Fetcher.setEntry, Fetcher.setPending]
      · simp [Fetcher.setEntry, Fetcher.setPending, hid]
    · simp [Fetcher.setEntry, Fetcher.setPending, hl]

theorem Inserted.target {E : Entry B} (h : Inserted F e E F') : F'.target = F.target := by
  funext r
  simp [Fetcher.target, h.io.2.1]

theorem Inserted.owned {E : Entry B} (h : Inserted F e E F') (l : ℕ) :
    F'.owned l = if E.job = some l then insert e (F.owned l) else F.owned l := by
  ext x
  rw [mem_owned, h.live]
  rcases eq_or_ne x e with rfl | hne
  · have hx : x ∉ F.owned l := fun hx => h.notLive (mem_owned.mp hx).1
    by_cases hjob : E.job = some l <;> simp [h.entry, hjob, hx]
  · have hiff : (F.Live x ∨ x = e) ∧ (F'.entries x).job = some l ↔ x ∈ F.owned l := by
      rw [mem_owned, or_iff_left hne]
      exact and_congr_right fun hx => by rw [h.entries x hx]
    rw [hiff]
    split <;> simp [hne]

/-- A new entry for a row that is not pending. -/
theorem Books.newEntry (hb : Books C F g d q) {E : Entry B} (h : Inserted F e E F')
    (hblank : ∀ h, E.done h = false) (habsent : F.pending E.layer E.id = none)
    (howner : ∀ l, E.job = some l → E.layer = l ∧ (F.jobs l).active = true)
    {p : List ℕ} (hq : p = q ∨ (p = q ++ [e] ∧ E.job = g)) : Books C F' g d p := by
  have hnew : ∀ r ∈ F'.ring.reads, r ∈ F.ring.reads := fun r hr => h.io.1 ▸ hr
  -- the queued entries are other ones than `e`, and stay as they were
  have hold : ∀ x ∈ q, F'.Live x ∧ (F'.entries x).job = g ∧
      (∀ h, (F'.entries x).done h = false) ∧ ∀ r ∈ F'.ring.reads, (F'.target r).1 ≠ x := by
    intro x hx
    obtain ⟨hlv, hjob, hdone, hread⟩ := hb.queued x hx
    rw [h.entries x hlv, h.target]
    exact ⟨(h.live x).mpr (.inl hlv), hjob, hdone, fun r hr => hread r (hnew r hr)⟩
  refine ⟨h.freeNodup, h.freeLt, fun l id x => ?_, ?_, fun r hr => ?_, ?_, ?_, fun x hx => ?_,
    fun x hx l hl => ?_, fun l => ?_, fun l hl => ?_, fun l hl => ?_, fun l => ?_, fun l hl => ?_⟩
  · -- the row of `e` was not pending, so it is now under `e` alone
    rw [h.pending, h.live]
    rcases eq_or_ne x e with rfl | hne
    · rw [h.entry]
      split
      · next hrow => simp [hrow]
      · next hrow =>
        constructor
        · intro hp
          exact absurd ((hb.pending _ _ _).mp hp).1 h.notLive
        · rintro ⟨-, rfl, rfl⟩
          exact absurd ⟨rfl, rfl⟩ hrow
    · rw [or_iff_left hne]
      split
      · next hrow =>
        obtain ⟨rfl, rfl⟩ := hrow
        constructor
        · intro hp
          exact absurd (Option.some.inj hp).symm hne
        · rintro ⟨hlv, hlay, hid⟩
          rw [h.entries x hlv] at hlay hid
          have := (hb.pending _ _ _).mpr ⟨hlv, hlay, hid⟩
          rw [habsent] at this
          exact absurd this (by simp)
      · rw [hb.pending]
        exact and_congr_right fun hlv => by rw [h.entries x hlv]
  · rw [h.io.1, h.io.2.2]
    exact hb.slots
  · obtain ⟨hlv, hdone⟩ := hb.reads r (hnew r hr)
    rw [h.target, h.entries _ hlv]
    exact ⟨(h.live _).mpr (.inl hlv), hdone⟩
  · rw [h.io.1, h.target]
    exact hb.distinct
  · rcases hq with rfl | ⟨rfl, -⟩
    · exact hb.queueNodup
    · have hnotq : e ∉ q := fun he => h.notLive (hb.queued e he).1
      exact hb.queueNodup.append (List.nodup_singleton e) (List.disjoint_singleton.mpr hnotq)
  · rcases hq with rfl | ⟨rfl, hjob⟩
    · exact hold x hx
    · rcases List.mem_append.mp hx with hx | hx
      · exact hold x hx
      · obtain rfl := List.mem_singleton.mp hx
        rw [h.entry, h.target]
        exact ⟨(h.live x).mpr (.inr rfl), hjob, hblank, fun r hr =>
          hb.read_ne h.notLive (hnew r hr)⟩
  · rcases (h.live x).mp hx with hlv | rfl
    · rw [h.entries x hlv] at hl ⊢
      rw [(h.jobs l).2.1]
      exact hb.owner x hlv l hl
    · rw [h.entry] at hl ⊢
      rw [(h.jobs l).2.1]
      exact howner l hl
  · -- the job that the entry is for waits for one more
    rw [(h.jobs l).1, hb.count l, h.owned]
    by_cases hjob : E.job = some l
    · rw [if_pos hjob, if_pos hjob,
        Finset.card_insert_of_notMem fun hx => h.notLive (mem_owned.mp hx).1]
      push_cast
      omega
    · rw [if_neg hjob, if_neg hjob]
      omega
  · rw [(h.jobs l).1]
    rw [(h.jobs l).2.1] at hl
    have := hb.waiting l hl
    split <;> omega
  · rw [(h.jobs l).2.1]
    exact hb.guard l hl
  · rw [(h.jobs l).2.1, (h.jobs l).2.2, h.logs.1, h.logs.2]
    exact hb.log l
  · rw [(h.jobs l).2.1]
    exact hb.debt l hl

theorem Inserted.open {E : Entry B} (h : Inserted F e E F') (hF : F.Open)
    (hblank : ∀ h, E.done h = false) : F'.Open := by
  intro x hx
  rcases (h.live x).mp hx with hlv | rfl
  · rw [h.entries x hlv]
    exact hF x hlv
  · rw [h.entry]
    exact ⟨.values, hblank _⟩

/-! ### Adoption -/

/-- An entry that no job waits for is given to an active job. -/
theorem Books.adopt (hb : Books C F g d q) {E : Entry B} {J : Job} (hlive : F.Live e)
    (hnone : (F.entries e).job = none) (hg : g = some l)
    (hE : E.layer = (F.entries e).layer ∧ E.id = (F.entries e).id ∧
      E.done = (F.entries e).done ∧ E.job = some l) (hlayer : (F.entries e).layer = l)
    (hJ : J.remaining = (F.jobs l).remaining + 1 ∧ J.active = (F.jobs l).active ∧
      J.seq = (F.jobs l).seq) : Books C ((F.setEntry e E).setJob l J) g d q := by
  obtain ⟨hlay, hid, hdone, hjob⟩ := hE
  obtain ⟨hrem, hact, hseq⟩ := hJ
  have hsame : ∀ x, ((F.setEntry e E).entries x).layer = (F.entries x).layer ∧
      ((F.setEntry e E).entries x).id = (F.entries x).id ∧
      ((F.setEntry e E).entries x).done = (F.entries x).done ∧
      (x ≠ e → ((F.setEntry e E).entries x).job = (F.entries x).job) := by
    intro x
    rcases eq_or_ne x e with rfl | hne
    · simpa [Fetcher.setEntry] using ⟨hlay, hid, hdone⟩
    · simp [Fetcher.setEntry, hne]
  have hjobs : ∀ k, ((F.setJob l J).jobs k).remaining =
        (F.jobs k).remaining + (if k = l then 1 else 0) ∧
      ((F.setJob l J).jobs k).active = (F.jobs k).active ∧
      ((F.setJob l J).jobs k).seq = (F.jobs k).seq := by
    intro k
    rcases eq_or_ne k l with rfl | hne
    · simpa [Fetcher.setJob] using ⟨hrem, hact, hseq⟩
    · simp [Fetcher.setJob, hne]
  have howned : ∀ k, ((F.setEntry e E).setJob l J).owned k =
      if k = l then insert e (F.owned k) else F.owned k := by
    intro k
    ext x
    rw [mem_owned]
    rcases eq_or_ne x e with rfl | hne
    · by_cases hk : k = l
      · simp [hk, Fetcher.setEntry, Fetcher.setJob, hjob]
        exact hlive
      · have hk' : l ≠ k := fun heq => hk heq.symm
        simp [hk, hk', Fetcher.setEntry, Fetcher.setJob, hjob, mem_owned, hnone]
    · have hiff : ((F.setEntry e E).setJob l J).Live x ∧
          (((F.setEntry e E).setJob l J).entries x).job = some k ↔ x ∈ F.owned k := by
        rw [mem_owned]
        refine and_congr_right fun _ => ?_
        simp [Fetcher.setEntry, Fetcher.setJob, hne]
      rw [hiff]
      split <;> simp [hne]
  -- nobody waited for the entry, so it is a new one for the job
  have hfresh : e ∉ F.owned l := by simp [mem_owned, hnone]
  refine ⟨hb.freeNodup, hb.freeLt, fun k id x => ?_, hb.slots, fun r hr => ?_, hb.distinct,
    hb.queueNodup, fun x hx => ?_, fun x hx k hk => ?_, fun k => ?_, fun k hk => ?_, fun k hk => ?_,
    fun k => ?_, fun k hk => ?_⟩
  · have hx := hsame x
    change F.pending k id = some x ↔ F.Live x ∧ ((F.setEntry e E).entries x).layer = k ∧
      ((F.setEntry e E).entries x).id = id
    rw [hx.1, hx.2.1]
    exact hb.pending k id x
  · have hx := hsame (F.target r).1
    change F.Live _ ∧ ((F.setEntry e E).entries (F.target r).1).done (F.target r).2 = false
    rw [hx.2.2.1]
    exact hb.reads r hr
  · obtain ⟨hlv, hjob', hdone', hread⟩ := hb.queued x hx
    -- a queued entry has a job, unlike the one that is adopted
    have hne : x ≠ e := by
      rintro rfl
      rw [hnone, hg] at hjob'
      simp at hjob'
    have hx := hsame x
    refine ⟨hlv, ?_, fun h => ?_, hread⟩
    · change ((F.setEntry e E).entries x).job = g
      rw [hx.2.2.2 hne]
      exact hjob'
    · change ((F.setEntry e E).entries x).done h = false
      rw [hx.2.2.1]
      exact hdone' h
  · change ((F.setEntry e E).entries x).job = some k at hk
    change ((F.setEntry e E).entries x).layer = k ∧ ((F.setJob l J).jobs k).active = true
    rw [(hsame x).1, (hjobs k).2.1]
    rcases eq_or_ne x e with rfl | hne
    · obtain rfl : l = k := by simpa [Fetcher.setEntry, hjob] using hk
      exact ⟨hlayer, hb.guard l hg⟩
    · rw [(hsame x).2.2.2 hne] at hk
      exact hb.owner x hx k hk
  · rw [howned]
    change ((F.setJob l J).jobs k).remaining = _
    rw [(hjobs k).1, hb.count k]
    by_cases hk : k = l
    · subst hk
      rw [if_pos rfl, if_pos rfl, Finset.card_insert_of_notMem hfresh]
      push_cast
      omega
    · rw [if_neg hk, if_neg hk]
      omega
  · change ((F.setJob l J).jobs k).active = true at hk
    change 0 < ((F.setJob l J).jobs k).remaining
    rw [(hjobs k).1]
    rw [(hjobs k).2.1] at hk
    have := hb.waiting k hk
    split <;> omega
  · change ((F.setJob l J).jobs k).active = true
    rw [(hjobs k).2.1]
    exact hb.guard k hk
  · change _ = _ ++ if ((F.setJob l J).jobs k).active then [((F.setJob l J).jobs k).seq] else []
    rw [(hjobs k).2.1, (hjobs k).2.2]
    exact hb.log k
  · change ((F.setJob l J).jobs k).active = true
    rw [(hjobs k).2.1]
    exact hb.debt k hk

/-! ### Issuing reads -/

/-- A half of an entry that no read is for is read into a free slot. -/
theorem Books.issueRead (hb : Books C F g d q) (hlive : F.Live e)
    (hdone : (F.entries e).done h = false) (hread : ∀ r ∈ F.ring.reads, F.target r ≠ (e, h))
    (hq : e ∉ q) : Books C (F.issueRead C e h) g d q := by
  rw [Fetcher.issueRead]
  split
  · exact hb
  · next s ss hfree =>
    have hnd : (F.freeSlots ++ F.ring.reads.map Read.ud).Nodup :=
      hb.slots.nodup_iff.mpr List.nodup_range
    rw [hfree, List.cons_append, List.nodup_cons, List.mem_append, not_or] at hnd
    -- the slot is free, so no read of the ring is aimed by it
    have hud : ∀ r ∈ F.ring.reads, r.ud ≠ s := fun r hr heq =>
      hnd.1.2 (heq ▸ List.mem_map_of_mem hr)
    set L := C.layer (F.entries e).layer
    set r₀ : Read :=
      ⟨(F.entries e).layer, L.windowStart (F.entries e).id h, L.windowLen (F.entries e).id h, s⟩
    have hperm := Uring.reads_prepRead F.ring r₀
    set F' : Fetcher B := { F with
      freeSlots := ss
      slots := Function.update F.slots s ((F.slots s).aim L e (F.entries e).id h)
      ring := F.ring.prepRead r₀ } with hF'
    change Books C F' g d q
    have htarget : ∀ r ∈ F.ring.reads, F'.target r = F.target r := fun r hr => by
      simp [F', Fetcher.target, hud r hr]
    have hnew : F'.target r₀ = (e, h) := by simp [F', Fetcher.target, r₀, Slot.aim]
    have hmem : ∀ r ∈ F'.ring.reads, r = r₀ ∨ r ∈ F.ring.reads := fun r hr =>
      List.mem_cons.mp (hperm.mem_iff.mp hr)
    refine ⟨hb.freeNodup, hb.freeLt, hb.pending, ?_, fun r hr => ?_, ?_, hb.queueNodup,
      fun x hx => ?_, hb.owner, hb.count, hb.waiting, hb.guard, hb.log, hb.debt⟩
    · refine List.Perm.trans ?_ hb.slots
      rw [hfree]
      refine ((hperm.map Read.ud).append_left ss).trans ?_
      rw [List.map_cons]
      exact List.perm_middle
    · rcases hmem r hr with rfl | hr
      · rw [hnew]
        exact ⟨hlive, hdone⟩
      · rw [htarget r hr]
        exact hb.reads r hr
    · rw [(hperm.map F'.target).nodup_iff, List.map_cons, List.nodup_cons, hnew,
        List.map_congr_left htarget]
      refine ⟨fun hm => ?_, hb.distinct⟩
      obtain ⟨r, hr, heq⟩ := List.mem_map.mp hm
      exact hread r hr heq
    · obtain ⟨hlv, hjob, hdone', hread'⟩ := hb.queued x hx
      refine ⟨hlv, hjob, hdone', fun r hr => ?_⟩
      rcases hmem r hr with rfl | hr
      · rw [hnew]
        rintro rfl
        exact hq hx
      · rw [htarget r hr]
        exact hread' r hr

/-- A half of an entry that no read is for is done. -/
theorem Books.mark (hb : Books C F g d q) {E : Entry B}
    (hE : E.layer = (F.entries e).layer ∧ E.id = (F.entries e).id ∧
      E.done = Function.update (F.entries e).done h true ∧ E.job = (F.entries e).job)
    (hread : ∀ r ∈ F.ring.reads, F.target r ≠ (e, h)) (hq : e ∉ q) :
    Books C (F.setEntry e E) g d q := by
  obtain ⟨hlayer, hid, hdone, hjob⟩ := hE
  have hsame : ∀ x, ((F.setEntry e E).entries x).layer = (F.entries x).layer ∧
      ((F.setEntry e E).entries x).id = (F.entries x).id ∧
      ((F.setEntry e E).entries x).job = (F.entries x).job := by
    intro x
    rcases eq_or_ne x e with rfl | hne
    · simpa [Fetcher.setEntry] using ⟨hlayer, hid, hjob⟩
    · simp [Fetcher.setEntry, hne]
  refine ⟨hb.freeNodup, hb.freeLt, fun l id x => ?_, hb.slots, fun r hr => ?_, hb.distinct,
    hb.queueNodup, fun x hx => ?_, fun x hx l hl => ?_, fun l => ?_, hb.waiting, hb.guard, hb.log,
    hb.debt⟩
  · rw [(hsame x).1, (hsame x).2.1]
    exact hb.pending l id x
  · obtain ⟨hlv, hopen⟩ := hb.reads r hr
    refine ⟨hlv, ?_⟩
    change ((F.setEntry e E).entries (F.target r).1).done (F.target r).2 = false
    by_cases he : (F.target r).1 = e
    · have hh : (F.target r).2 ≠ h := fun hh => hread r hr (Prod.ext he hh)
      rw [he] at hopen
      simp [Fetcher.setEntry, he, hdone, hh, hopen]
    · simp [Fetcher.setEntry, he, hopen]
  · have hne : x ≠ e := fun heq => hq (heq ▸ hx)
    obtain ⟨hlv, hjob', hdone', hread'⟩ := hb.queued x hx
    have hx' : (F.setEntry e E).entries x = F.entries x := by simp [Fetcher.setEntry, hne]
    rw [hx']
    exact ⟨hlv, hjob', hdone', hread'⟩
  · rw [(hsame x).1]
    rw [(hsame x).2.2] at hl
    exact hb.owner x hx l hl
  · rw [owned_setEntry hjob]
    exact hb.count l

/-- The next entry to issue leaves the queue. -/
theorem Books.dequeue (hb : Books C F g d (e :: q)) : Books C F g d q :=
  ⟨hb.freeNodup, hb.freeLt, hb.pending, hb.slots, hb.reads, hb.distinct,
    (List.nodup_cons.mp hb.queueNodup).2, fun x hx => hb.queued x (List.mem_cons_of_mem _ hx),
    hb.owner, hb.count, hb.waiting, hb.guard, hb.log, hb.debt⟩

/-- An entry whose reads are not issued yet. -/
structure Unissued (F : Fetcher B) (e : ℕ) : Prop where
  live : F.Live e
  done : ∀ h, (F.entries e).done h = false
  reads : ∀ r ∈ F.ring.reads, (F.target r).1 ≠ e

theorem issueRead_entries : (F.issueRead C e h).entries = F.entries := by
  rw [Fetcher.issueRead]
  split <;> rfl

theorem issueRead_live (x : ℕ) : (F.issueRead C e h).Live x ↔ F.Live x := by
  rw [Fetcher.issueRead]
  split <;> rfl

/-- The reads after one more is issued. -/
theorem Books.target_issueRead (hb : Books C F g d q) :
    ∀ r ∈ (F.issueRead C e h).ring.reads,
      (F.issueRead C e h).target r = (e, h) ∨
        (r ∈ F.ring.reads ∧ (F.issueRead C e h).target r = F.target r) := by
  intro r hr
  rw [Fetcher.issueRead] at hr ⊢
  split at hr
  · exact .inr ⟨hr, rfl⟩
  · next s ss hfree =>
    have hnd : (F.freeSlots ++ F.ring.reads.map Read.ud).Nodup :=
      hb.slots.nodup_iff.mpr List.nodup_range
    rw [hfree, List.cons_append, List.nodup_cons, List.mem_append, not_or] at hnd
    rcases List.mem_cons.mp ((Uring.reads_prepRead F.ring _).mem_iff.mp hr) with rfl | hr
    · left
      simp [Fetcher.target, Slot.aim]
    · right
      have hne : r.ud ≠ s := fun heq => hnd.1.2 (heq ▸ List.mem_map_of_mem hr)
      exact ⟨hr, by simp [Fetcher.target, hne]⟩

/-- Issuing the reads of an entry keeps the books. -/
theorem Books.issueEntry (hb : Books C F g d q) (hu : Unissued F e) (hq : e ∉ q)
    (hs : F.issueEntry C e = some F') : Books C F' g d q := by
  obtain ⟨hlive, hdone, hread⟩ := hu
  simp only [Fetcher.issueEntry] at hs
  split at hs
  · split at hs
    · simp at hs
    · -- the scales are resident: they are done at once, and only the values are read
      obtain rfl := Option.some.inj hs
      set scales := (List.range Half.scales.size).map fun j =>
        (C.layer (F.entries e).layer).scalesRes
          (((F.entries e).id - (C.layer (F.entries e).layer).vocabStart) * Half.scales.size + j)
      have hE := hb.mark (C := C) (h := .scales) (e := e)
        (E := { F.entries e with
          row := Function.update (F.entries e).row .scales scales
          done := Function.update (F.entries e).done .scales true }) ⟨rfl, rfl, rfl, rfl⟩
        (fun r hr heq => hread r hr (by rw [heq])) hq
      refine hE.issueRead hlive ?_ (fun r hr heq => hread r hr (congrArg Prod.fst heq)) hq
      simpa [Fetcher.setEntry] using hdone .values
  · split at hs
    · simp at hs
    · obtain rfl := Option.some.inj hs
      have hb' := hb.issueRead (C := C) (h := .values) hlive (hdone _)
        (fun r hr heq => hread r hr (by rw [heq])) hq
      refine hb'.issueRead ((issueRead_live e).mpr hlive) ?_ (fun r hr heq => ?_) hq
      · rw [issueRead_entries]
        exact hdone _
      · rcases hb.target_issueRead r hr with hnew | ⟨hold, hsame⟩
        · rw [hnew] at heq
          simp at heq
        · rw [hsame] at heq
          exact hread r hold (by rw [heq])

end Engram

end VllmMoet
