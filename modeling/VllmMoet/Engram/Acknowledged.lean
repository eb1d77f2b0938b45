import Mathlib.Tactic.IntervalCases
import VllmMoet.Engram.Finishing

/-!
# What the fetcher promises of its requests

* `resources_kept`: entries, slots and counters agree in every reachable state, and every
  request is finished once, when each submission takes every prepared read;
* `every_begun_acked`: every begun request is acknowledged, under the weaker condition `Taken`;
* `never_finished`: a submission that fails in the issue loop leaves an active job behind.
-/

namespace VllmMoet

namespace Engram

open TransitionSystem

variable {B : Type*} {C : Cfg B} {F F' : Fetcher B} {l n : ℕ}

/-! ### Resources -/

/-- Entries, slots, counters and acknowledgements agree: an entry is pending for exactly its
row or in the free list once; a slot is free once or the target of one read, for a half of a
live entry that is not done; a job counts the live entries it waits for, none of which is
complete, and its guard; and each begun request but the active one has been finished once. -/
structure ResourcesOk (C : Cfg B) (F : Fetcher B) : Prop where
  pending : ∀ l id e, F.pending l id = some e ↔
    F.Live e ∧ (F.entries e).layer = l ∧ (F.entries e).id = id
  freeNodup : F.freeEntries.Nodup
  freeOrPending : ∀ e < F.nEntries,
    Xor (e ∈ F.freeEntries) (∃ l id, F.pending l id = some e)
  slots : (F.freeSlots ++ F.ring.reads.map Read.ud).Perm (List.range C.nSlots)
  reads : ∀ r ∈ F.ring.reads, F.Live (F.target r).1 ∧
    (F.entries (F.target r).1).done (F.target r).2 = false
  distinct : (F.ring.reads.map F.target).Nodup
  incomplete : ∀ e, F.Live e → ∃ h, (F.entries e).done h = false
  remaining : ∀ l, (F.jobs l).remaining =
    (F.owned l).card + if F.pc.guard = some l then 1 else 0
  active : ∀ l, (F.jobs l).active = true ↔ 0 < (F.jobs l).remaining
  finished : ∀ l, (F.begun l).map Request.step = (F.acks l).map Ack.step ++
    if (F.jobs l).active then [(F.jobs l).seq] else []

theorem BooksOk.resourcesOk (h : BooksOk C F) : ResourcesOk C F := by
  have hb := h.books
  have hcount : ∀ l, (F.jobs l).remaining =
      (F.owned l).card + if F.pc.guard = some l then 1 else 0 := by
    intro l
    rw [hb.count l]
    simp
  refine ⟨hb.pending, hb.freeNodup, fun e he => ?_, hb.slots, hb.reads, hb.distinct, h.isOpen,
    hcount, fun l => ⟨hb.waiting l, fun hpos => ?_⟩, hb.log⟩
  · by_cases hfree : e ∈ F.freeEntries
    · refine .inl ⟨hfree, ?_⟩
      rintro ⟨l, id, hp⟩
      exact ((hb.pending l id e).mp hp).1.2 hfree
    · exact .inr ⟨⟨_, _, (hb.pending _ _ e).mpr ⟨⟨he, hfree⟩, rfl, rfl⟩⟩, hfree⟩
  · rw [hcount l] at hpos
    by_cases hg : F.pc.guard = some l
    · exact hb.guard l hg
    · rw [if_neg hg, add_zero] at hpos
      obtain ⟨e, he⟩ := Finset.card_pos.mp (Int.natCast_pos.mp hpos)
      obtain ⟨hlive, hjob⟩ := mem_owned.mp he
      exact (hb.owner e hlive l hjob).2

variable [Zero B] {E : Execution (Fetcher.step C)}

/-- Each submission takes every prepared read. -/
def AllTaken (E : Execution (Fetcher.step C)) : Prop :=
  ∀ n a, E.label n = .answer a → a = .accepted (E.state n).ring.sq.length

theorem AllTaken.taken (h : AllTaken E) (n : ℕ) : Taken (E.state n) (E.label n) := by
  rcases hlabel : E.label n with _ | a | _ | _ | _ | _ | _
  case answer =>
    have hs := E.next n
    rw [hlabel] at hs
    obtain rfl := h n a hlabel
    refine ⟨_, rfl, ?_⟩
    split
    · next hg =>
      -- there is something to submit
      obtain ⟨R, -, hs⟩ := Option.bind_eq_some_iff.mp hs
      dsimp only at hs
      split at hs
      · split at hs
        · simp at hs
        · next hsq => exact .inr (.inr (List.length_pos_iff.mpr hsq))
      · next hpc => simp [hpc, Pc.guard] at hg
      · simp at hs
    · rfl
  all_goals trivial

theorem liveOk_state (h0 : Start C (E.state 0)) (hC : ∀ n, Taken (E.state n) (E.label n))
    (n : ℕ) : LiveOk C (E.state n) :=
  (liveOk_invariant C).holds (E.reachable h0 hC n)

/-- **No resource is lost or shared.** Every reachable state keeps the books, whatever the
kernel answers; and in a fair execution whose submissions take every prepared read, the
requests begun are those finished, once each, again and again. -/
theorem resources_kept (C : Cfg B) :
    (∀ F, (fetcherSystem C).Reachable F → ResourcesOk C F) ∧
      ∀ E : Execution (Fetcher.step C), Start C (E.state 0) → Fair E → AllTaken E →
        ∀ n l, ∃ m ≥ n, (E.state n).begun l <+: (E.state m).begun l ∧
          ((E.state m).acks l).map Ack.step = ((E.state m).begun l).map Request.step :=
  ⟨fun _ hF => ((booksOk_invariant C).holds hF).resourcesOk, fun _ h0 hfair hall =>
    hfair.exists_acked (liveOk_state h0 hall.taken) hall.taken⟩

/-! ### Every begun request -/

/-- **Every begun request is acknowledged.** In a fair execution in which no submission fails,
one after which the fetcher does not submit again by itself takes every prepared read, and one
before a wait leaves something to wait for: every job reaches `finish_job`; and outside the
issue loop and the prefetch batch every half that a pending entry still lacks has a submitted
read, unless its reads are yet to be issued. -/
theorem every_begun_acked (h0 : Start C (E.state 0))
    (hC : ∀ n, Taken (E.state n) (E.label n)) (hfair : Fair E) :
    (∀ n l, ∃ m ≥ n, ((E.state m).jobs l).remaining = 0 ∧ ((E.state m).jobs l).active = false ∧
      (E.state n).begun l <+: (E.state m).begun l ∧
      ((E.state m).acks l).map Ack.step = ((E.state m).begun l).map Request.step) ∧
    ∀ n l id e h, (E.state n).Settled → (E.state n).pending l id = some e →
      e ∉ (E.state n).queued → ((E.state n).entries e).done h = false →
      ∃ r ∈ (E.state n).ring.flying ++ (E.state n).ring.cq.map Prod.fst,
        (E.state n).target r = (e, h) := by
  have hok := liveOk_state h0 hC
  refine ⟨fun n l => ?_, fun n l id e h hset hp hq hh => ?_⟩
  · obtain ⟨m, hm, hfin⟩ := hfair.exists_finished hok hC n l
    have hres := (hok m).books.resourcesOk
    have hlog := hres.finished l
    have hrem := (hres.active l).not.mp (by simp [hfin])
    have hzero := hres.remaining l
    rw [hfin] at hlog
    refine ⟨m, hm, ?_, hfin, begun_prefix hok hC hm l, by simpa using hlog.symm⟩
    split at hzero <;> omega
  · have hlive := (((hok n).books.books.pending l id e).mp hp).1
    obtain ⟨r, hr, ht⟩ := (hok n).issued e hlive hq h hh
    rw [Uring.reads, (hok n).settled hset, List.nil_append] at hr
    exact ⟨r, hr, ht⟩

/-! ### A small fetcher -/

/-- One layer of four rows, with resident scales and no cache. -/
def smallCfg : Cfg ℕ where
  nLayers := 1
  layer _ := ⟨id, 0, 4096, 0, 4, true⟩
  cacheBytes := 0
  nSlots := 8
  slotsLe := le_rfl
  maxRows := 4
  prefetchBatch := 2

/-- The fetcher of `smallCfg` at its start. -/
def smallFetcher : Fetcher ℕ where
  cache _ := .init 0 true
  expected _ := 1
  mailbox _ := ⟨0, 0, fun _ => 0⟩
  staging _ _ _ := []
  ring := ⟨[], [], []⟩
  slots _ := ⟨id, 0, .values, 0, 0, 0⟩
  freeSlots := List.range 8
  entries _ := .fresh
  nEntries := 0
  freeEntries := []
  jobs _ := .none
  pending _ _ := none
  pfQueue := []
  pc := .scan 0
  busy := false
  queued := []
  loc _ := none
  batch := []
  issued := false
  begun _ := []
  acks _ := []

theorem start_smallFetcher : Start smallCfg smallFetcher :=
  ⟨fun _ => ⟨true, rfl⟩, rfl, rfl, rfl, rfl, fun _ => rfl, fun _ _ => rfl, rfl, rfl, rfl,
    fun _ => rfl, fun _ => rfl⟩

/-- A request for one row, up to its acknowledgement and the next poll. -/
def servedRun : List (Act ℕ) :=
  [.publish 0 ⟨1, 1, fun _ => 2⟩, .tick, .tick, .tick, .tick, .tick, .tick, .answer (.accepted 1),
    .tick, .tick, .complete 0 512 id, .tick, .tick, .tick, .tick]

/-- Nothing is left to do. -/
structure Idle (F : Fetcher ℕ) : Prop where
  pc : F.pc = .scan 0 ∨ F.pc = .scan 1 ∨ F.pc = .check ∨ F.pc = .prefetch
  ring : F.ring = ⟨[], [], []⟩
  active : (F.jobs 0).active = false
  busy : F.busy = false
  mailbox : (F.mailbox 0).step < F.expected 0
  pfQueue : F.pfQueue = []

/-- An idle fetcher polls for ever. -/
theorem Idle.tick {F : Fetcher ℕ} (h : Idle F) :
    ∃ F', F.step smallCfg .tick = some F' ∧ Idle F' := by
  obtain ⟨hpc, hring, hact, hbusy, hmail, hpf⟩ := h
  have hgoto : ∀ pc, (pc = .scan 0 ∨ pc = .scan 1 ∨ pc = .check ∨ pc = .prefetch) →
      Idle (F.goto pc) := fun pc hpc => ⟨hpc, hring, hact, hbusy, hmail, hpf⟩
  have hnew : Idle F.newPoll := ⟨.inl rfl, hring, hact, rfl, hmail, hpf⟩
  rcases hpc with hpc | hpc | hpc | hpc
  · refine ⟨F.goto (.scan 1), ?_, hgoto _ (.inr (.inl rfl))⟩
    simp only [Fetcher.step, Fetcher.tick, hpc, Fetcher.scan, smallCfg]
    simp [hact, hmail.ne, hmail.le]
  · exact ⟨F.goto .check, by simp [Fetcher.step, Fetcher.tick, hpc, Fetcher.scan, smallCfg],
      hgoto _ (.inr (.inr (.inl rfl)))⟩
  · refine ⟨F.goto .prefetch, ?_, hgoto _ (.inr (.inr (.inr rfl)))⟩
    simp [Fetcher.step, Fetcher.tick, hpc, Fetcher.check, smallCfg, hring, hbusy, hact]
  · simp only [Fetcher.step, Fetcher.tick, hpc, Fetcher.prefetch, hpf, Fetcher.takeBatch]
    split
    · exact ⟨_, rfl, hnew⟩
    · exact ⟨_, rfl, .inl rfl, hring, hact, rfl, hmail, rfl⟩

/-- The reads in flight after `n` steps of a run, and how many are prepared. -/
def ringAfter (as : List (Act ℕ)) (n : ℕ) : Option (List Read × ℕ) :=
  (replay (Fetcher.step smallCfg) smallFetcher (as.take n)).map fun F =>
    (F.ring.flying, F.ring.sq.length)

/-- `servedRun`, and then polls: a fair execution that begins a request. -/
theorem exists_served_execution : ∃ E : Execution (Fetcher.step smallCfg),
    Start smallCfg (E.state 0) ∧ Fair E ∧ AllTaken E ∧
      ((E.state 8).begun 0).map Request.step = [1] := by
  have hring : ∀ n ≤ 15, ((ringAfter servedRun n).map Prod.fst = some [] ∨
      (n ≤ 10 ∧ (ringAfter servedRun n).map Prod.fst = (ringAfter servedRun 10).map Prod.fst)) := by
    decide
  have hone : (ringAfter servedRun 10).map (fun x => x.1.length) = some 1 := by decide
  have hseven : (ringAfter servedRun 7).map Prod.snd = some 1 := by decide
  have hend : (replay (Fetcher.step smallCfg) smallFetcher servedRun).any (fun F =>
      F.pc == .scan 0 && F.ring.sq == [] && F.ring.flying == [] && F.ring.cq == [] &&
        !(F.jobs 0).active && !F.busy && decide ((F.mailbox 0).step < F.expected 0) &&
        F.pfQueue.isEmpty) = true := by decide
  obtain ⟨t, ht, hidle⟩ := (Option.any_eq_true _ _).mp hend
  simp only [Bool.and_eq_true, beq_iff_eq, Bool.not_eq_true', decide_eq_true_eq,
    List.isEmpty_iff] at hidle
  obtain ⟨⟨⟨⟨⟨⟨⟨hpc, hsq⟩, hfly⟩, hcq⟩, hact⟩, hbusy⟩, hmail⟩, hpf⟩ := hidle
  have hnone : t.ring = ⟨t.ring.sq, t.ring.flying, t.ring.cq⟩ := rfl
  rw [hsq, hfly, hcq] at hnone
  have htidle : Idle t := ⟨.inl hpc, hnone, hact, hbusy, hmail, hpf⟩
  obtain ⟨E, hearly, hlabel, hlate⟩ := exists_execution_of_repeat ht htidle fun u hu => hu.tick
  have hafter : ∀ n ≤ 15, ringAfter servedRun n =
      some ((E.state n).ring.flying, (E.state n).ring.sq.length) := by
    intro n hn
    rw [ringAfter, hearly n hn]
    rfl
  have h0 : E.state 0 = smallFetcher := (Option.some.inj (hearly 0 (Nat.zero_le _))).symm
  have hticks : ∀ n ≥ 15, E.label n = .tick := by
    intro n hn
    rw [hlabel, List.getD_eq_getElem?_getD, List.getElem?_eq_none hn]
    rfl
  refine ⟨E, h0 ▸ start_smallFetcher, ⟨fun n => ?_, fun n r hr => ?_⟩, fun n a hn => ?_, ?_⟩
  · refine ⟨max n 15, le_max_left _ _, .inl ?_⟩
    rw [hticks _ (le_max_right _ _)]
    trivial
  · rcases le_or_gt n 15 with hle | hgt
    · -- the read that is in flight before the tenth step completes there
      have hcases := hring n hle
      rw [hafter n hle, hafter 10 (by omega)] at hcases
      simp only [Option.map_some, Option.some.injEq] at hcases
      rcases hcases with hnil | ⟨hn, hsame⟩
      · simp [hnil] at hr
      · rw [hsame] at hr
        refine ⟨10, hn, 0, 512, id, hlabel 10, ?_⟩
        rw [hafter 10 (by omega), Option.map_some, Option.some.injEq] at hone
        obtain ⟨x, hx⟩ := List.length_eq_one_iff.mp hone
        dsimp only at hx
        rw [hx] at hr ⊢
        rw [List.mem_singleton.mp hr]
        rfl
    · rw [(hlate n hgt.le).ring] at hr
      simp at hr
  · rcases lt_or_ge n 15 with hlt | hge
    · rw [hlabel] at hn
      have hn7 : n = 7 := by
        interval_cases n <;> simp [servedRun] at hn ⊢
      subst hn7
      rw [hafter 7 (by omega), Option.map_some, Option.some.injEq] at hseven
      dsimp only at hseven
      rw [hseven]
      exact (Act.answer.inj hn).symm
    · rw [hticks n hge] at hn
      simp at hn
  · have hbegun : (replay (Fetcher.step smallCfg) smallFetcher (servedRun.take 8)).map
        (fun F => (F.begun 0).map Request.step) = some [1] := by decide
    rw [hearly 8 (by decide)] at hbegun
    simpa using hbegun

/-- The books of the small fetcher in its served run, and its acknowledgement. -/
theorem resources_kept_small : ∃ E : Execution (Fetcher.step smallCfg),
    ResourcesOk smallCfg (E.state 8) ∧ ∃ m ≥ 8, [1] <+: ((E.state m).acks 0).map Ack.step := by
  obtain ⟨E, h0, hfair, hall, hbegun⟩ := exists_served_execution
  have hstate : (fetcherSystem smallCfg).Reachable (E.state 8) :=
    (E.reachable h0 hall.taken 8).of_onlySteps
  obtain ⟨m, hm, hpre, hacks⟩ := (resources_kept smallCfg).2 E h0 hfair hall 8 0
  refine ⟨E, (resources_kept smallCfg).1 _ hstate, m, hm, ?_⟩
  rw [hacks, ← hbegun]
  exact hpre.map _

/-- The request of the served run is acknowledged. -/
theorem every_begun_acked_small : ∃ E : Execution (Fetcher.step smallCfg),
    ((E.state 8).begun 0).map Request.step = [1] ∧ ∃ m ≥ 8,
      ((E.state m).jobs 0).active = false ∧ [1] <+: ((E.state m).acks 0).map Ack.step := by
  obtain ⟨E, h0, hfair, hall, hbegun⟩ := exists_served_execution
  obtain ⟨m, hm, -, hact, hpre, hacks⟩ := (every_begun_acked h0 hall.taken hfair).1 8 0
  refine ⟨E, hbegun, m, hm, hact, ?_⟩
  rw [hacks, ← hbegun]
  exact hpre.map _

/-! ### A submission that fails -/

/-- A job waits for an entry that no submitted read is for. -/
structure Stuck (F : Fetcher ℕ) : Prop where
  pc : F.pc = .scan 0 ∨ F.pc = .scan 1 ∨ F.pc = .check
  active : (F.jobs 0).active = true
  flying : F.ring.flying = []
  cq : F.ring.cq = []
  pending : F.pending 0 2 = some 0
  acks : F.acks 0 = []

/-- A stuck fetcher polls for ever. -/
theorem Stuck.tick {F : Fetcher ℕ} (h : Stuck F) :
    ∃ F', F.step smallCfg .tick = some F' ∧ Stuck F' := by
  obtain ⟨hpc, hact, hfly, hcq, hpend, hacks⟩ := h
  have hgoto : ∀ pc, (pc = .scan 0 ∨ pc = .scan 1 ∨ pc = .check) → Stuck (F.goto pc) :=
    fun pc hpc => ⟨hpc, hact, hfly, hcq, hpend, hacks⟩
  rcases hpc with hpc | hpc | hpc
  · -- an active job takes no new request
    refine ⟨F.goto (.scan 1), ?_, hgoto _ (.inr (.inl rfl))⟩
    simp [Fetcher.step, Fetcher.tick, hpc, Fetcher.scan, smallCfg, hact]
  · exact ⟨F.goto .check, by simp [Fetcher.step, Fetcher.tick, hpc, Fetcher.scan, smallCfg],
      hgoto _ (.inr (.inr rfl))⟩
  · -- and keeps the prefetch away
    refine ⟨F.newPoll, ?_, .inl rfl, hact, hfly, hcq, hpend, hacks⟩
    simp [Fetcher.step, Fetcher.tick, hpc, Fetcher.check, smallCfg, hcq, hact]

/-- A request for one row whose submission fails, up to the next poll. -/
def failedRun : List (Act ℕ) :=
  [.publish 0 ⟨1, 1, fun _ => 2⟩, .tick, .tick, .tick, .tick, .tick, .tick, .answer .error, .tick,
    .tick, .tick]

/-- **A request that is never acknowledged.** The submission of its only read fails; the job
stays active and its row pending, with no read in flight, in a fair execution. -/
theorem never_finished : ∃ E : Execution (Fetcher.step smallCfg), Start smallCfg (E.state 0) ∧
    Fair E ∧ ((E.state 11).begun 0).map Request.step = [1] ∧
      ∀ m ≥ 11, ((E.state m).jobs 0).active = true ∧ (E.state m).acks 0 = [] ∧
        (E.state m).pending 0 2 = some 0 ∧ (E.state m).ring.flying = [] ∧
          (E.state m).ring.cq = [] := by
  have hend : (replay (Fetcher.step smallCfg) smallFetcher failedRun).any (fun F =>
      F.pc == .scan 0 && (F.jobs 0).active && F.ring.flying == [] && F.ring.cq == [] &&
        F.pending 0 2 == some 0 && (F.acks 0).isEmpty &&
          (F.begun 0).map Request.step == [1]) = true := by decide
  have hnone : ∀ n ≤ 11, (ringAfter failedRun n).map Prod.fst = some [] := by decide
  obtain ⟨t, ht, hP⟩ := (Option.any_eq_true _ _).mp hend
  simp only [Bool.and_eq_true, beq_iff_eq, List.isEmpty_iff] at hP
  obtain ⟨⟨⟨⟨⟨⟨hpc, hact⟩, hfly⟩, hcq⟩, hpend⟩, hacks⟩, hbegun⟩ := hP
  obtain ⟨E, hearly, hlabel, hlate⟩ := exists_execution_of_repeat ht
    (⟨.inl hpc, hact, hfly, hcq, hpend, hacks⟩ : Stuck t) fun u hu => hu.tick
  have h0 : E.state 0 = smallFetcher := (Option.some.inj (hearly 0 (Nat.zero_le _))).symm
  have h11 : E.state 11 = t := Option.some.inj ((hearly 11 le_rfl).symm.trans ht)
  refine ⟨E, h0 ▸ start_smallFetcher, ⟨fun n => ?_, fun n r hr => ?_⟩, h11 ▸ hbegun, fun m hm => ?_⟩
  · refine ⟨max n 11, le_max_left _ _, .inl ?_⟩
    rw [hlabel, List.getD_eq_getElem?_getD, List.getElem?_eq_none (le_max_right n 11)]
    trivial
  · -- no read is ever submitted
    rcases le_or_gt n 11 with hle | hgt
    · have h := hnone n hle
      rw [ringAfter, hearly n hle, Option.map_some, Option.map_some, Option.some.injEq] at h
      dsimp only at h
      simp [h] at hr
    · rw [(hlate n hgt.le).flying] at hr
      simp at hr
  · have h := hlate m hm
    exact ⟨h.active, h.acks, h.pending, h.flying, h.cq⟩

end Engram

end VllmMoet
