import VllmMoet.Engram.BooksKept

/-!
# The rows the fetcher holds

What is cached, read or staged is the table's, as long as no read has failed:

* `RowCache.Holds`: every cached row is the table's, whatever is probed and inserted;
* `Rows`: the halves of the live entries, the windows being read, the buffers that have
  landed, and the staging rows of the jobs. A row of an active job that is not staged yet is
  the destination of an entry the job waits for.
-/

namespace VllmMoet

namespace Engram

variable {B : Type*}

/-! ### The cache -/

/-- Every row in the cache is the table's. -/
def RowCache.Holds (K : RowCache B) (L : LayerCfg B) : Prop :=
  ∀ i w id, (K.sets i).tag w = some id → (K.sets i).data w = L.row id

section Cache

variable {K K' : RowCache B} {L : LayerCfg B} {S : CacheSet B} {i w id : ℕ} {row : Row B}

theorem holds_init (bytes : ℤ) (mapped : Bool) : (RowCache.init bytes mapped).Holds L := by
  intro i w id h
  simp [RowCache.init, CacheSet.empty] at h

theorem tag_of_find {t : Option ℕ} (h : S.find t = some w) : S.tag w = t := by
  simpa using List.find?_some h

/-- Replacing a set whose rows are the table's. -/
theorem RowCache.Holds.setSet (h : K.Holds L)
    (hS : ∀ w id, S.tag w = some id → S.data w = L.row id) : (K.setSet i S).Holds L := by
  intro j w id hj
  rcases eq_or_ne j i with rfl | hne
  · simp only [RowCache.setSet, Function.update_self] at hj ⊢
    exact hS w id hj
  · simp only [RowCache.setSet, Function.update_of_ne hne] at hj ⊢
    exact h j w id hj

theorem RowCache.Holds.probe (h : K.Holds L) (hp : K.probe id = some (row, K')) :
    row = L.row id ∧ K'.Holds L := by
  simp only [RowCache.probe] at hp
  split at hp
  · obtain ⟨w, hw, heq⟩ := Option.map_eq_some_iff.mp hp
    obtain ⟨rfl, rfl⟩ := Prod.mk.inj heq
    exact ⟨h _ w id (tag_of_find hw), h.setSet fun w' id' hw' => h _ w' id' hw'⟩
  · simp at hp

theorem clock_same (n : ℕ) (S : CacheSet B) :
    (S.clock n).2.tag = S.tag ∧ (S.clock n).2.data = S.data := by
  induction n generalizing S with
  | zero => exact ⟨rfl, rfl⟩
  | succ n ih =>
    rw [CacheSet.clock]
    dsimp only
    split
    · exact ih _
    · exact ⟨rfl, rfl⟩

/-- After an insertion a set holds the row and what it held before. -/
theorem insert_holds (hS : ∀ w id, S.tag w = some id → S.data w = L.row id) :
    ∀ w' id', (S.insert id (L.row id)).tag w' = some id' →
      (S.insert id (L.row id)).data w' = L.row id' := by
  have hput : ∀ (S : CacheSet B) (w : ℕ), (∀ w id, S.tag w = some id → S.data w = L.row id) →
      ∀ w' id', (S.put w id (L.row id)).tag w' = some id' →
        (S.put w id (L.row id)).data w' = L.row id' := by
    intro S w hS w' id' hw'
    rcases eq_or_ne w' w with rfl | hne
    · simp only [CacheSet.put, Function.update_self, Option.some.injEq] at hw' ⊢
      rw [hw']
    · simp only [CacheSet.put, Function.update_of_ne hne] at hw' ⊢
      exact hS w' id' hw'
  rw [CacheSet.insert]
  split
  · exact hput S _ hS
  · split
    · exact hput S _ hS
    · refine hput _ _ fun w' id' hw' => ?_
      obtain ⟨htag, hdata⟩ := clock_same ways S
      rw [htag] at hw'
      rw [hdata]
      exact hS w' id' hw'

theorem RowCache.Holds.insert (h : K.Holds L) (id : ℕ) : (K.insert id (L.row id)).Holds L := by
  rw [RowCache.insert]
  split
  · exact h.setSet (insert_holds (h _))
  · exact h

end Cache

/-! ### The windows -/

/-- The window begins at or before the half. -/
theorem windowStart_le (L : LayerCfg B) (id : ℕ) (h : Half) :
    L.windowStart id h ≤ L.off id h := by
  rw [LayerCfg.windowStart]
  exact Nat.div_mul_le_self _ _

/-! ### The rows -/

variable {C : Cfg B} {F F' F₁ : Fetcher B} {g d : Option ℕ} {q : List ℕ}
  {e i id k l : ℕ} {h : Half} {r : Read} {res : ℤ} {cq : List (Read × ℤ)}
  {p p' : ℕ → ℕ → Prop}

/-- A read's window and its slot are those of the half it is for. -/
def Fetcher.Aimed (C : Cfg B) (F : Fetcher B) (r : Read) : Prop :=
  let S := F.slots r.ud
  let E := F.entries S.entry
  r.layer = E.layer ∧ r.start = (C.layer E.layer).windowStart E.id S.half ∧
    S.windowOff = (C.layer E.layer).off E.id S.half - (C.layer E.layer).windowStart E.id S.half ∧
      S.want = S.half.size

/-- The staging row is the row that is asked for. -/
def Fetcher.Staged [Zero B] (C : Cfg B) (F : Fetcher B) (l i : ℕ) : Prop :=
  F.staging l i = (C.layer l).expected ((F.jobs l).req.ids i)

/-- A live entry that layer `l`'s job waits for will be put into the staging row. -/
def Fetcher.Awaited (F : Fetcher B) (l i : ℕ) : Prop :=
  ∃ e, F.Live e ∧ (F.entries e).job = some l ∧ i ∈ (F.entries e).dsts

/-- The halves of an entry that are done are the table's, unless a read of it failed. -/
def EntryOk (C : Cfg B) (E : Entry B) : Prop :=
  (C.layer E.layer).vocabStart ≤ E.id ∧
    (E.failed = false → ∀ h, E.done h = true → E.row h = (C.layer E.layer).row E.id h) ∧
      (E.job = none → E.extra = [])

/-- The staging rows an entry is for ask for its row. -/
def DstsOk (C : Cfg B) (F : Fetcher B) (E : Entry B) : Prop :=
  ∀ l, E.job = some l → ∀ i ∈ E.dsts,
    (C.layer l).InRange ((F.jobs l).req.ids i) ∧ ((F.jobs l).req.ids i).toNat = E.id

/-- What is cached, read and staged is the table's. `p l i` says that row `i` of layer `l`'s
request has been looked at. -/
structure Rows [Zero B] (C : Cfg B) (F : Fetcher B) (p : ℕ → ℕ → Prop) : Prop where
  cache : ∀ l, (F.cache l).Holds (C.layer l)
  entry : ∀ e, F.Live e → EntryOk C (F.entries e)
  dsts : ∀ e, F.Live e → DstsOk C F (F.entries e)
  aimed : ∀ r ∈ F.ring.reads, F.Aimed C r
  buf : ∀ x ∈ F.ring.cq, ∀ j : ℕ, (j : ℤ) < x.2 →
    (F.slots x.1.ud).buf j = (C.layer x.1.layer).file (x.1.start + j)
  job : ∀ l, (F.jobs l).active = true → (F.begun l).getLast? = some (F.jobs l).req ∧
    (F.jobs l).seq = (F.jobs l).req.step ∧ (F.jobs l).nRows = (F.jobs l).req.nRows ∧
      ((F.jobs l).failed = true → (F.jobs l).status ≠ 0)
  rows : ∀ l, (F.jobs l).active = true → (F.jobs l).failed = false →
    ∀ i < (F.jobs l).nRows, p l i → F.Staged C l i ∨ F.Awaited l i
  acked : ∀ l, (F.jobs l).active = false → ∀ a, (F.acks l).getLast? = some a → a.status = 0 →
    ∃ R, (F.begun l).getLast? = some R ∧ a.step = R.step ∧ a.nRows = R.nRows ∧
      ∀ i < R.nRows, F.staging l i = (C.layer l).expected (R.ids i)

/-- The staging rows after a row is written to several of them. -/
theorem foldl_stage_eq (F : Fetcher B) (k : ℕ) (row : Row B) (ds : List ℕ) :
    ds.foldl (fun F i => F.stage k i row) F = { F with
      staging := fun l i => if l = k ∧ i ∈ ds then row else F.staging l i } := by
  induction ds generalizing F with
  | nil => simp
  | cons d ds ih =>
    rw [List.foldl_cons, ih]
    simp only [Fetcher.stage]
    congr 1
    funext l i
    by_cases hl : l = k
    · subst hl
      by_cases hi : i = d <;> simp [hi]
    · simp [hl]

/-- The resident scales of a row are the table's. -/
theorem scalesRes_eq (L : LayerCfg B) (hle : L.vocabStart ≤ id) :
    ((List.range Half.scales.size).map fun j =>
      L.scalesRes ((id - L.vocabStart) * Half.scales.size + j)) = L.row id .scales := by
  refine List.map_congr_left fun j _ => ?_
  rw [LayerCfg.scalesRes, LayerCfg.off]
  congr 1
  have hmul : L.vocabStart * Half.scales.size + (id - L.vocabStart) * Half.scales.size =
      id * Half.scales.size := by
    rw [← Nat.add_mul, Nat.add_sub_cancel' hle]
  omega

variable [Zero B]

/-- The fields that are not about rows. -/
theorem Rows.other (hR : Rows C F p) (expected : ℕ → ℕ) (mailbox : ℕ → Request)
    (freeSlots : List ℕ) (pending : ℕ → ℕ → Option ℕ) (pfQueue : List Prefetch) (pc : Pc)
    (busy : Bool) (queued : List ℕ) (loc : ℕ → Option ℕ) (batch : List (ℕ × ℤ)) (issued : Bool) :
    Rows C { F with
      expected := expected
      mailbox := mailbox
      freeSlots := freeSlots
      pending := pending
      pfQueue := pfQueue
      pc := pc
      busy := busy
      queued := queued
      loc := loc
      batch := batch
      issued := issued } p :=
  ⟨hR.cache, hR.entry, hR.dsts, hR.aimed, hR.buf, hR.job, hR.rows, hR.acked⟩

/-- Fewer rows have been looked at. -/
theorem Rows.imp (hR : Rows C F p) (hp : ∀ l, ∀ i < (F.jobs l).nRows, p' l i → p l i) :
    Rows C F p' :=
  ⟨hR.cache, hR.entry, hR.dsts, hR.aimed, hR.buf, hR.job,
    fun l hact hfail i hi hpi => hR.rows l hact hfail i hi (hp l i hi hpi), hR.acked⟩

/-- One more row has been looked at. -/
theorem Rows.look (hR : Rows C F p) (hrow : F.Staged C l i ∨ F.Awaited l i)
    (hp : ∀ k j, p' k j → p k j ∨ (k = l ∧ j = i)) : Rows C F p' := by
  refine ⟨hR.cache, hR.entry, hR.dsts, hR.aimed, hR.buf, hR.job, fun k hact hfail j hj hpj => ?_,
    hR.acked⟩
  rcases hp k j hpj with hpj | ⟨rfl, rfl⟩
  · exact hR.rows k hact hfail j hj hpj
  · exact hrow

theorem Rows.setCache (hR : Rows C F p) {K : RowCache B} (hK : K.Holds (C.layer l)) :
    Rows C (F.setCache l K) p := by
  refine ⟨fun k => ?_, hR.entry, hR.dsts, hR.aimed, hR.buf, hR.job, hR.rows, hR.acked⟩
  rcases eq_or_ne k l with rfl | hne
  · simpa [Fetcher.setCache] using hK
  · simpa [Fetcher.setCache, hne] using hR.cache k

/-- Reads are submitted. -/
theorem Rows.setRing (hR : Rows C F p) {R : Uring Read} (hreads : R.reads.Perm F.ring.reads)
    (hcq : R.cq = F.ring.cq) : Rows C { F with ring := R } p :=
  ⟨hR.cache, hR.entry, hR.dsts, fun r hr => hR.aimed r (hreads.mem_iff.mp hr),
    fun x hx => hR.buf x (hcq ▸ hx), hR.job, hR.rows, hR.acked⟩

/-- A job keeps its request; it may be failed. -/
theorem Rows.setJob (hR : Rows C F p) {J : Job} (hreq : J.req = (F.jobs l).req)
    (hsame : J.active = (F.jobs l).active ∧ J.seq = (F.jobs l).seq ∧ J.nRows = (F.jobs l).nRows)
    (hfail : (J.failed = (F.jobs l).failed ∧ J.status = (F.jobs l).status) ∨
      (J.failed = true ∧ J.status ≠ 0)) : Rows C (F.setJob l J) p := by
  obtain ⟨hact, hseq, hn⟩ := hsame
  have hreq' : ∀ k, ((F.setJob l J).jobs k).req = (F.jobs k).req := by
    intro k
    rcases eq_or_ne k l with rfl | hne
    · simpa [Fetcher.setJob] using hreq
    · simp [Fetcher.setJob, hne]
  have hact' : ∀ k, ((F.setJob l J).jobs k).active = (F.jobs k).active := by
    intro k
    rcases eq_or_ne k l with rfl | hne
    · simpa [Fetcher.setJob] using hact
    · simp [Fetcher.setJob, hne]
  refine ⟨hR.cache, hR.entry, fun e he k hk i hi => ?_, hR.aimed, hR.buf, fun k hk => ?_,
    fun k hk hnot i hi hpi => ?_, fun k hk => hR.acked k (hact' k ▸ hk)⟩
  · rw [hreq']
    exact hR.dsts e he k hk i hi
  · obtain ⟨hlast, hseq', hn', hst⟩ := hR.job k (hact' k ▸ hk)
    rw [hreq' k]
    rcases eq_or_ne k l with rfl | hne
    · simp only [Fetcher.setJob, Function.update_self]
      refine ⟨hlast, hseq.trans hseq', hn.trans hn', fun hf => ?_⟩
      rcases hfail with ⟨hf', hst'⟩ | ⟨-, hst'⟩
      · rw [hst']
        exact hst (hf'.symm.trans hf)
      · exact hst'
    · simp only [Fetcher.setJob, Function.update_of_ne hne]
      exact ⟨hlast, hseq', hn', hst⟩
  · have hold : (F.jobs k).failed = false ∧ i < (F.jobs k).nRows := by
      rcases eq_or_ne k l with rfl | hne
      · simp only [Fetcher.setJob, Function.update_self] at hnot hi
        refine ⟨?_, hn ▸ hi⟩
        rcases hfail with ⟨hf, -⟩ | ⟨hf, -⟩
        · exact hf.symm.trans hnot
        · rw [hf] at hnot
          simp at hnot
      · simp only [Fetcher.setJob, Function.update_of_ne hne] at hnot hi
        exact ⟨hnot, hi⟩
    have hrow := hR.rows k (hact' k ▸ hk) hold.1 i hold.2 hpi
    rw [Fetcher.Staged, hreq']
    exact hrow

/-- Staging rows of an active job are written: with what is asked for, or the job failed. -/
theorem Rows.write (hR : Rows C F p) {row : Row B} {ds : List ℕ} (hact : (F.jobs l).active = true)
    (hrow : (F.jobs l).failed = true ∨
      ∀ i ∈ ds, row = (C.layer l).expected ((F.jobs l).req.ids i))
    (hp : ∀ k j, p' k j → p k j ∨ (k = l ∧ j ∈ ds)) :
    Rows C { F with staging := fun k j => if k = l ∧ j ∈ ds then row else F.staging k j } p' := by
  refine ⟨hR.cache, hR.entry, hR.dsts, hR.aimed, hR.buf, hR.job, fun k hk hnot j hj hpj => ?_,
    fun k hk a ha hst => ?_⟩
  · by_cases hkj : k = l ∧ j ∈ ds
    · obtain ⟨rfl, hjs⟩ := hkj
      left
      rcases hrow with hf | hrow
      · change (F.jobs k).failed = false at hnot
        rw [hf] at hnot
        simp at hnot
      · change (if k = k ∧ j ∈ ds then row else F.staging k j) = _
        rw [if_pos ⟨rfl, hjs⟩]
        exact hrow j hjs
    · have hpj' := (hp k j hpj).resolve_right hkj
      refine (hR.rows k hk hnot j hj hpj').imp_left fun hst => ?_
      refine Eq.trans ?_ hst
      exact if_neg hkj
  · have hne : k ≠ l := by
      rintro rfl
      change (F.jobs k).active = false at hk
      rw [hact] at hk
      simp at hk
    obtain ⟨R, hlast, hstep, hn, hrows⟩ := hR.acked k hk a ha hst
    refine ⟨R, hlast, hstep, hn, fun j hj => ?_⟩
    rw [← hrows j hj]
    exact if_neg fun hkj => hne hkj.1

/-- One staging row is written. -/
theorem Rows.stage (hR : Rows C F p) {row : Row B} (hact : (F.jobs l).active = true)
    (hrow : row = (C.layer l).expected ((F.jobs l).req.ids i))
    (hp : ∀ k j, p' k j → p k j ∨ (k = l ∧ j = i)) : Rows C (F.stage l i row) p' := by
  have hstage := foldl_stage_eq F l row [i]
  simp only [List.foldl_cons, List.foldl_nil] at hstage
  rw [hstage]
  refine hR.write hact (.inr fun j hj => ?_) fun k j hpj => ?_
  · rw [List.mem_singleton.mp hj]
    exact hrow
  · simpa using hp k j hpj

/-- An entry is changed: what it has is the table's, and it keeps its destinations. -/
theorem Rows.setEntry (hR : Rows C F p) {E : Entry B}
    (hsame : E.layer = (F.entries e).layer ∧ E.id = (F.entries e).id)
    (hE : EntryOk C E) (hdsts : DstsOk C F E)
    (hkeep : ∀ l, (F.entries e).job = some l →
      E.job = some l ∧ ∀ i ∈ (F.entries e).dsts, i ∈ E.dsts) : Rows C (F.setEntry e E) p := by
  refine ⟨hR.cache, fun x hx => ?_, fun x hx => ?_, fun r hr => ?_, hR.buf, hR.job,
    fun l hact hnot i hi hpi => (hR.rows l hact hnot i hi hpi).imp_right ?_, hR.acked⟩
  · rcases eq_or_ne x e with rfl | hne
    · simpa [Fetcher.setEntry] using hE
    · simpa [Fetcher.setEntry, hne] using hR.entry x hx
  · rcases eq_or_ne x e with rfl | hne
    · simp only [Fetcher.setEntry, Function.update_self]
      exact hdsts
    · simp only [Fetcher.setEntry, Function.update_of_ne hne]
      exact hR.dsts x hx
  · have ha := hR.aimed r hr
    simp only [Fetcher.Aimed, Fetcher.setEntry] at ha ⊢
    rcases eq_or_ne (F.slots r.ud).entry e with heq | hne
    · rw [heq, Function.update_self, hsame.1, hsame.2]
      rw [heq] at ha
      exact ha
    · rw [Function.update_of_ne hne]
      exact ha
  · rintro ⟨x, hx, hjob, hdst⟩
    refine ⟨x, hx, ?_⟩
    rcases eq_or_ne x e with rfl | hne
    · simp only [Fetcher.setEntry, Function.update_self]
      exact ⟨(hkeep l hjob).1, (hkeep l hjob).2 i hdst⟩
    · simp only [Fetcher.setEntry, Function.update_of_ne hne]
      exact ⟨hjob, hdst⟩

/-! ### Entries come and go -/

/-- A new entry, with nothing to be wrong about. -/
theorem Rows.insert (hR : Rows C F p) (hb : Books C F g d q) (halloc : Allocated F e F₁)
    {E : Entry B} (hE : EntryOk C E) (hdsts : DstsOk C F E) : Rows C (F₁.setEntry e E) p := by
  obtain ⟨hnot, hlive, hentries, -, -, -, entries, nEntries, freeEntries, rfl⟩ := halloc
  have hold : ∀ x ≠ e, (Function.update entries e E) x = F.entries x := by
    intro x hx
    rw [Function.update_of_ne hx]
    exact hentries x hx
  refine ⟨hR.cache, fun x hx => ?_, fun x hx => ?_, fun r hr => ?_, hR.buf, hR.job,
    fun l hact hfail i hi hpi => (hR.rows l hact hfail i hi hpi).imp_right ?_, hR.acked⟩
  · change EntryOk C (Function.update entries e E x)
    rcases eq_or_ne x e with rfl | hne
    · rw [Function.update_self]
      exact hE
    · rw [hold x hne]
      exact hR.entry x (((hlive x).mp hx).resolve_right hne)
  · change DstsOk C F (Function.update entries e E x)
    rcases eq_or_ne x e with rfl | hne
    · rw [Function.update_self]
      exact hdsts
    · rw [hold x hne]
      exact hR.dsts x (((hlive x).mp hx).resolve_right hne)
  · have ha := hR.aimed r hr
    simp only [Fetcher.Aimed, Fetcher.setEntry] at ha ⊢
    rw [hold (F.slots r.ud).entry (hb.read_ne hnot hr)]
    exact ha
  · rintro ⟨x, hx, hjob, hdst⟩
    have hne : x ≠ e := fun heq => hnot (heq ▸ hx)
    refine ⟨x, (hlive x).mpr (.inl hx), ?_⟩
    change (Function.update entries e E x).job = _ ∧ _ ∈ (Function.update entries e E x).dsts
    rw [hold x hne]
    exact ⟨hjob, hdst⟩

/-- An entry whose row is staged is freed. -/
theorem Rows.free (hR : Rows C F p) (hstaged : ∀ l, (F.entries e).job = some l →
    (F.jobs l).failed = true ∨ ∀ i ∈ (F.entries e).dsts, F.Staged C l i) :
    Rows C (F.free e) p := by
  refine ⟨hR.cache, fun x hx => hR.entry x ((live_free x).mp hx).1,
    fun x hx => hR.dsts x ((live_free x).mp hx).1, hR.aimed, hR.buf, hR.job,
    fun l hact hfail i hi hpi => ?_, hR.acked⟩
  rcases hR.rows l hact hfail i hi hpi with hst | ⟨x, hx, hjob, hdst⟩
  · exact .inl hst
  · rcases eq_or_ne x e with rfl | hne
    · change (F.jobs l).failed = false at hfail
      rcases hstaged l hjob with hf | hst
      · rw [hf] at hfail
        simp at hfail
      · exact .inl (hst i hdst)
    · exact .inr ⟨x, (live_free x).mpr ⟨hx, hne⟩, hjob, hdst⟩

/-! ### Reads -/

/-- A read is prepared for a half of an entry. -/
theorem Rows.issueRead (hR : Rows C F p) (hb : Books C F g d q) :
    Rows C (F.issueRead C e h) p := by
  have hnd : (F.freeSlots ++ F.ring.reads.map Read.ud).Nodup :=
    hb.slots.nodup_iff.mpr List.nodup_range
  rw [Fetcher.issueRead]
  split
  · exact hR
  · next s ss hfree =>
    rw [hfree, List.cons_append, List.nodup_cons, List.mem_append, not_or] at hnd
    have hud : ∀ r ∈ F.ring.reads, r.ud ≠ s := fun r hr heq =>
      hnd.1.2 (heq ▸ List.mem_map_of_mem hr)
    refine ⟨hR.cache, hR.entry, hR.dsts, fun r hr => ?_, fun x hx j hj => ?_, hR.job, hR.rows,
      hR.acked⟩
    · rcases List.mem_cons.mp ((Uring.reads_prepRead F.ring _).mem_iff.mp hr) with rfl | hr
      · simp [Fetcher.Aimed, Slot.aim]
      · have ha := hR.aimed r hr
        simp only [Fetcher.Aimed] at ha ⊢
        rw [Function.update_of_ne (hud r hr)]
        exact ha
    · have hx' : x.1 ∈ F.ring.reads := List.mem_append_right _ (List.mem_map_of_mem hx)
      dsimp only
      rw [Function.update_of_ne (hud _ hx')]
      exact hR.buf x hx j hj

/-- The reads of an entry are issued. -/
theorem Rows.issueEntry (hR : Rows C F p) (hb : Books C F g d q) (hu : Unissued F e) (hq : e ∉ q)
    (hs : F.issueEntry C e = some F') : Rows C F' p := by
  obtain ⟨hle, hrow, hjob⟩ := hR.entry e hu.live
  simp only [Fetcher.issueEntry] at hs
  split at hs
  · split at hs
    · simp at hs
    · -- the scales are resident, and the values are still to come
      obtain rfl := Option.some.inj hs
      rw [scalesRes_eq _ hle]
      have hmark := hb.mark (C := C) (h := .scales) (e := e)
        (E := { F.entries e with
          row := Function.update (F.entries e).row .scales
            ((C.layer (F.entries e).layer).row (F.entries e).id .scales)
          done := Function.update (F.entries e).done .scales true }) ⟨rfl, rfl, rfl, rfl⟩
        (fun r hr heq => hu.reads r hr (by rw [heq])) hq
      refine Rows.issueRead ?_ hmark
      refine hR.setEntry ⟨rfl, rfl⟩ ⟨hle, fun _ h hh => ?_, hjob⟩ (hR.dsts e hu.live)
        fun l hl => ⟨hl, fun i hi => hi⟩
      rcases h with _ | _
      · simp [hu.done] at hh
      · simp
  · split at hs
    · simp at hs
    · obtain rfl := Option.some.inj hs
      have hb' := hb.issueRead (C := C) (h := .values) hu.live (hu.done _)
        (fun r hr heq => hu.reads r hr (by rw [heq])) hq
      exact (hR.issueRead hb).issueRead hb'

/-- A read completes: its bytes are the file's. -/
theorem Rows.complete (hR : Rows C F p) (hb : Books C F g d q) {garbage : ℕ → B}
    (hs : F.complete C i res garbage = some F') : Rows C F' p := by
  obtain ⟨r, hr, hs⟩ := Option.bind_eq_some_iff.mp hs
  obtain ⟨R, hring, rfl⟩ := Option.map_eq_some_iff.mp hs
  have hperm := Uring.reads_complete hring
  obtain ⟨r', hr', rfl⟩ := Option.map_eq_some_iff.mp hring
  obtain rfl : r' = r := Option.some.inj (hr'.symm.trans hr)
  set R : Uring Read := { F.ring with
    flying := F.ring.flying.eraseIdx i
    cq := F.ring.cq ++ [(r', res)] }
  -- the other completed reads have other slots
  have hnd : (R.reads.map Read.ud).Nodup :=
    ((hperm.map Read.ud).nodup_iff.mpr
      (hb.slots.nodup_iff.mpr List.nodup_range).of_append_right)
  have hud : ∀ x ∈ F.ring.cq, x.1.ud ≠ r'.ud := by
    intro x hx heq
    simp only [R, Uring.reads, List.map_append, List.map_cons, List.map_nil] at hnd
    rw [← List.append_assoc] at hnd
    refine (List.nodup_append.mp hnd).2.2 x.1.ud ?_ r'.ud (List.mem_singleton_self _) heq
    exact List.mem_append_right _ (List.mem_map_of_mem (List.mem_map_of_mem hx))
  have hbuf : ∀ s, ∃ buf, Function.update F.slots r'.ud { F.slots r'.ud with
      buf := fun j : ℕ => if (j : ℤ) < res then (C.layer r'.layer).file (r'.start + j)
        else garbage j } s = { F.slots s with buf := buf } := by
    intro s
    rcases eq_or_ne s r'.ud with rfl | hne
    · exact ⟨_, Function.update_self ..⟩
    · exact ⟨(F.slots s).buf, by rw [Function.update_of_ne hne]⟩
  refine ⟨hR.cache, hR.entry, hR.dsts, fun x hx => ?_, fun x hx j hj => ?_, hR.job, hR.rows,
    hR.acked⟩
  · have ha := hR.aimed x (hperm.mem_iff.mp hx)
    obtain ⟨buf, hbuf⟩ := hbuf x.ud
    simp only [Fetcher.Aimed] at ha ⊢
    rw [hbuf]
    exact ha
  · rcases List.mem_append.mp hx with hx | hx
    · dsimp only
      rw [Function.update_of_ne (hud x hx)]
      exact hR.buf x hx j hj
    · obtain rfl := List.mem_singleton.mp hx
      dsimp only at hj ⊢
      rw [Function.update_self]
      exact if_pos hj

/-- The read's bytes are at its entry. -/
theorem Rows.landed (hR : Rows C F p) (hb : Books C F g d q)
    (hcq : F.ring.cq = (r, res) :: cq) :
    Rows C ((F.pop r cq).setEntry (F.slots r.ud).entry
      (Fetcher.landed (F.slots r.ud) (F.entries (F.slots r.ud).entry) res)) p := by
  have hr : r ∈ F.ring.reads := (mem_reads_pop hcq).mpr (.inl rfl)
  have hlive : F.Live (F.slots r.ud).entry := (hb.reads r hr).1
  have hpop : Rows C (F.pop r cq) p := by
    refine ⟨hR.cache, hR.entry, hR.dsts, fun x hx => hR.aimed x ?_, fun x hx => hR.buf x ?_,
      hR.job, hR.rows, hR.acked⟩
    · exact (mem_reads_pop hcq).mpr (.inr hx)
    · rw [hcq]
      exact List.mem_cons_of_mem _ hx
  have hbuf := hR.buf (r, res) (by rw [hcq]; exact List.mem_cons_self ..)
  obtain ⟨hlay, hstart, hoff, hwant⟩ := hR.aimed r hr
  obtain ⟨hle, hrow, hjob⟩ := hR.entry _ hlive
  have hdsts := hR.dsts _ hlive
  generalize F.slots r.ud = S at *
  dsimp only at hbuf
  refine hpop.setEntry ?_ ?_ ?_ ?_
  · obtain ⟨hl, hid, -⟩ := landed_same S (F.entries S.entry) res
    exact ⟨hl, hid⟩
  · rw [Fetcher.landed]
    split
    · exact ⟨hle, fun hf => by simp at hf, hjob⟩
    · next hok =>
      rw [not_or, not_lt, not_lt] at hok
      refine ⟨hle, fun hf h hh => ?_, hjob⟩
      dsimp only at hf hh ⊢
      rcases eq_or_ne h S.half with rfl | hne
      · rw [Function.update_self, LayerCfg.row, hwant]
        refine List.map_congr_left fun j hj => ?_
        have hj' := List.mem_range.mp hj
        rw [hbuf _ (by rw [hwant] at hok; push_cast at hok ⊢; omega), hlay, hstart, hoff]
        have hw := windowStart_le (C.layer (F.entries S.entry).layer) (F.entries S.entry).id S.half
        congr 1
        omega
      · rw [Function.update_of_ne hne] at hh ⊢
        exact hrow hf h hh
  · rw [Fetcher.landed]
    split <;> exact hdsts
  · intro l hl
    obtain ⟨-, -, -, hj⟩ := landed_same S (F.entries S.entry) res
    refine ⟨hj.trans hl, fun i hi => ?_⟩
    rw [Fetcher.landed]
    split <;> exact hi

/-! ### Jobs -/

/-- A request begins. -/
theorem Rows.begin (hR : Rows C F p) (hb : Books C F g d q) (hact : (F.jobs l).active = false)
    {J : Job} {Q : Request} (hJ : J.req = Q ∧ J.seq = Q.step ∧ J.nRows = Q.nRows ∧ J.active = true)
    (hst : J.failed = true → J.status ≠ 0) (hp : J.failed = true ∨ ∀ i, ¬ p' l i)
    (hold : ∀ k ≠ l, ∀ i, p' k i → p k i) :
    Rows C { F.setJob l J with begun := Function.update F.begun l (F.begun l ++ [Q]) } p' := by
  obtain ⟨hreq, hseq, hn, hactive⟩ := hJ
  have hnone := owned_eq_empty hb hact
  refine ⟨hR.cache, hR.entry, fun x hx k hk => ?_, hR.aimed, hR.buf, fun k hk => ?_,
    fun k hk hnot i hi hpi => ?_, fun k hk => ?_⟩
  · have hne : k ≠ l := by
      rintro rfl
      have : x ∈ F.owned k := mem_owned.mpr ⟨hx, hk⟩
      simp [hnone] at this
    simp only [Fetcher.setJob, Function.update_of_ne hne]
    exact hR.dsts x hx k hk
  · rcases eq_or_ne k l with rfl | hne
    · simp only [Fetcher.setJob, Function.update_self]
      exact ⟨by simp [hreq], by rw [hseq, hreq], by rw [hn, hreq], hst⟩
    · simp only [Fetcher.setJob, Function.update_of_ne hne] at hk ⊢
      exact hR.job k hk
  · rcases eq_or_ne k l with rfl | hne
    · simp only [Fetcher.setJob, Function.update_self] at hnot
      rcases hp with hf | hp
      · rw [hf] at hnot
        simp at hnot
      · exact absurd hpi (hp i)
    · simp only [Fetcher.setJob, Function.update_of_ne hne] at hk hnot hi
      simp only [Fetcher.Staged, Fetcher.setJob, Function.update_of_ne hne]
      exact hR.rows k hk hnot i hi (hold k hne i hpi)
  · have hne : k ≠ l := by
      rintro rfl
      simp only [Fetcher.setJob, Function.update_self] at hk
      rw [hactive] at hk
      simp at hk
    simp only [Fetcher.setJob, Function.update_of_ne hne] at hk ⊢
    exact hR.acked k hk

/-- A job counts down; the last count acknowledges rows that are all staged. -/
theorem Rows.countDown (hR : Rows C F p) (hb : Books C F g (some l) q)
    (hp : g ≠ some l → ∀ i, p l i) : Rows C (F.countDown l) p := by
  have hact := hb.debt l rfl
  have hcount := hb.count l
  rw [if_pos rfl] at hcount
  rw [Fetcher.countDown]
  split
  · next hzero =>
    have hnone : F.owned l = ∅ := by
      rw [← Finset.card_eq_zero]
      split at hcount <;> omega
    have hg : g ≠ some l := by
      intro hg
      rw [if_pos hg] at hcount
      omega
    -- no entry is left to stage a row
    have hstaged : (F.jobs l).failed = false → ∀ i < (F.jobs l).nRows, F.Staged C l i := by
      intro hfail i hi
      refine (hR.rows l hact hfail i hi (hp hg i)).resolve_right ?_
      rintro ⟨x, hx, hjob, -⟩
      have : x ∈ F.owned l := mem_owned.mpr ⟨hx, hjob⟩
      simp [hnone] at this
    have hdsts : ∀ x, F.Live x → ∀ k, (F.entries x).job = some k → k ≠ l := by
      rintro x hx k hk rfl
      have : x ∈ F.owned k := mem_owned.mpr ⟨hx, hk⟩
      simp [hnone] at this
    obtain ⟨hlast, hseq, hn, hst⟩ := hR.job l hact
    refine ⟨hR.cache, hR.entry, fun x hx k hk => ?_, hR.aimed, hR.buf, fun k hk => ?_,
      fun k hk hnot i hi hpi => ?_, fun k hk a ha h0 => ?_⟩
    · have hne := hdsts x hx k hk
      simp only [Fetcher.finishJob, Fetcher.setJob, Function.update_of_ne hne]
      exact hR.dsts x hx k hk
    · have hne : k ≠ l := by
        rintro rfl
        simp [Fetcher.finishJob, Fetcher.setJob] at hk
      simp only [Fetcher.finishJob, Fetcher.setJob, Function.update_of_ne hne] at hk ⊢
      exact hR.job k hk
    · have hne : k ≠ l := by
        rintro rfl
        simp [Fetcher.finishJob, Fetcher.setJob] at hk
      simp only [Fetcher.finishJob, Fetcher.setJob, Function.update_of_ne hne] at hk hnot hi
      simp only [Fetcher.Staged, Fetcher.finishJob, Fetcher.setJob, Function.update_of_ne hne]
      exact hR.rows k hk hnot i hi hpi
    · rcases eq_or_ne k l with rfl | hne
      · simp only [Fetcher.finishJob, Fetcher.setJob, Function.update_self,
          List.getLast?_concat, Option.some.injEq] at ha
        subst ha
        dsimp only at h0
        have hfail : (F.jobs k).failed = false := by
          by_contra hf
          rw [Bool.not_eq_false] at hf
          rw [if_pos hf] at h0
          exact hst hf h0
        exact ⟨_, hlast, hseq, hn, fun i hi => hstaged hfail i (hn ▸ hi)⟩
      · simp only [Fetcher.finishJob, Fetcher.setJob, Function.update_of_ne hne] at hk ha ⊢
        exact hR.acked k hk a ha h0
  · exact hR.setJob rfl ⟨rfl, rfl, rfl⟩ (.inl ⟨rfl, rfl⟩)

end Engram

end VllmMoet
