import Mathlib.Data.Finset.Prod
import VllmMoet.Engram.Polling
import VllmMoet.Lib.Liveness

/-!
# Every begun job finishes

In a fair execution whose submissions are taken, every read is reaped (`exists_reaped`): the
fetcher comes back to its completions, and what is prepared has been submitted by then. The
halves a job waits for only become fewer, so every job finishes (`exists_finished`).
-/

namespace VllmMoet

namespace Engram

open TransitionSystem

variable {B : Type*} {C : Cfg B} {F F' G : Fetcher B} {g d : Option ℕ} {q : List ℕ}
  {e i id k l m n : ℕ} {h : Half} {r : Read} {res : ℤ} {cq : List (Read × ℤ)}

/-! ### One step -/

/-- The step reaps the read `r`. -/
def Reaps (F : Fetcher B) (r : Read) (F' : Fetcher B) : Prop :=
  ∃ res cq, F.ring.cq = (r, res) :: cq ∧ F' = F.reapOne r res cq

/-- What a step does to the reads, to the entries of the jobs that are not being begun, and to
the requests begun. -/
structure Moves (F F' : Fetcher B) : Prop where
  ring : (ReadsKept F F' ∧ ∃ new, F'.ring.cq = F.ring.cq ++ new) ∨ ∃ r, Reaps F r F'
  owns : ∀ e h k, F'.Live e → (F'.entries e).job = some k → F.pc.guard ≠ some k →
    (F'.entries e).done h = false →
    F.Live e ∧ (F.entries e).job = some k ∧ (F.entries e).done h = false
  begun : ∀ l, F.begun l <+: F'.begun l
  guard : ∀ k, F'.pc.guard = some k → F.pc.guard = some k ∨ (F.jobs k).active = false

/-- A step that leaves the entries and the ring alone. -/
theorem Moves.rest (hring : F'.ring = F.ring) (hslots : F'.slots = F.slots)
    (hentries : F'.entries = F.entries) (hlive : ∀ e, F'.Live e → F.Live e)
    (hbegun : ∀ l, F.begun l <+: F'.begun l)
    (hguard : ∀ k, F'.pc.guard = some k → F.pc.guard = some k ∨ (F.jobs k).active = false) :
    Moves F F' := by
  refine ⟨.inl ⟨fun r hr => ⟨hring ▸ hr, ?_⟩, [], by rw [hring, List.append_nil]⟩,
    fun e h k he hk _ hh => ?_, hbegun, hguard⟩
  · rw [Fetcher.target, hslots, Fetcher.target]
  · rw [hentries] at hk hh
    exact ⟨hlive e he, hk, hh⟩

/-- Going on at another place with the same guard, or with none. -/
theorem Moves.goto {pc : Pc} (hguard : pc.guard = F.pc.guard ∨ pc.guard = none) :
    Moves F (F.goto pc) := by
  refine .rest rfl rfl rfl (fun _ he => he) (fun _ => List.prefix_rfl) fun k hk => .inl ?_
  rcases hguard with hg | hg
  · exact hg ▸ hk
  · change pc.guard = some k at hk
    simp [hg] at hk

/-- A job that `begin_job` opens was closed; the scan moves nothing else. -/
theorem moves_scan (hpc : F.pc = .scan l) : Moves F (F.scan C l) := by
  rw [Fetcher.scan]
  split
  · split
    · exact .goto (.inr rfl)
    · dsimp only
      split
      · next hs =>
        refine .rest rfl rfl rfl (fun _ he => he) (fun k => ?_) fun k hk => .inr ?_
        · rcases eq_or_ne k l with rfl | hne
          · simp [Fetcher.beginJob]
          · simp [Fetcher.beginJob, Fetcher.setJob, hne]
        · have hkl : k = l := by
            simp only [Fetcher.beginJob] at hk
            split at hk
            · exact (Option.some.inj hk).symm
            · exact (Option.some.inj hk).symm
          exact hkl ▸ hs.2
      · split
        · exact .rest rfl rfl rfl (fun _ he => he) (fun _ => List.prefix_rfl)
            fun k hk => by simp [Pc.guard] at hk
        · exact .goto (.inr rfl)
  · exact .goto (.inr rfl)

/-- A row of layer `l`'s request leaves the entries of the other jobs alone. -/
def Spares (l : ℕ) (F F' : Fetcher B) : Prop :=
  F'.begun = F.begun ∧ ∀ e h k, F'.Live e → (F'.entries e).job = some k → k ≠ l →
    (F'.entries e).done h = false →
    F.Live e ∧ (F.entries e).job = some k ∧ (F.entries e).done h = false

/-- An entry that only changes its destinations or goes to layer `l` itself. -/
theorem spares_setEntry {E : Entry B} (hdone : E.done = (F.entries e).done)
    (hjob : E.job = (F.entries e).job ∨ E.job = some l) : Spares l F (F.setEntry e E) := by
  refine ⟨rfl, fun x h k hx hk hne hh => ?_⟩
  rcases eq_or_ne x e with rfl | hxe
  · simp only [Fetcher.setEntry, Function.update_self] at hk hh
    rw [hdone] at hh
    refine ⟨hx, ?_, hh⟩
    rcases hjob with hjob | hjob
    · rw [← hjob, hk]
    · rw [hjob] at hk
      exact absurd (Option.some.inj hk).symm hne
  · simp only [Fetcher.setEntry, Function.update_of_ne hxe] at hk hh
    exact ⟨hx, hk, hh⟩

/-- A missing row joins the entry of its id, or takes a blank one for its own job. -/
theorem Books.spares_miss (hb : Books C F g d q) : Spares l F (F.miss l i id) := by
  rw [Fetcher.miss]
  split
  · next e hp =>
    dsimp only
    split
    · obtain ⟨-, hrest⟩ := spares_setEntry (F := F) (e := e) (l := l)
        (E := { F.entries e with job := some l, firstDst := some i }) rfl (.inr rfl)
      exact ⟨rfl, hrest⟩
    · exact spares_setEntry rfl (.inl rfl)
  · have halloc := hb.alloc
    dsimp only
    generalize F.allocEntry = a at halloc ⊢
    obtain ⟨e, F₁⟩ := a
    obtain ⟨entries, nEntries, freeEntries, rfl⟩ := halloc.same
    refine ⟨rfl, fun x h k hx hk hne hh => ?_⟩
    simp only [Fetcher.setEntry, Fetcher.setPending, Fetcher.setJob] at hk hh
    rcases eq_or_ne x e with rfl | hxe
    · rw [Function.update_self] at hk
      exact absurd (Option.some.inj hk).symm hne
    · have hsame : entries x = F.entries x := halloc.entries x hxe
      rw [Function.update_of_ne hxe, hsame] at hk hh
      exact ⟨((halloc.live x).mp hx).resolve_right hxe, hk, hh⟩

/-- A row that is staged at once touches no entry; the others join a read or are missing. -/
theorem Books.spares_row [Zero B] (hb : Books C F g d q) : Spares l F (F.row C l i) := by
  simp only [Fetcher.row]
  split
  · exact ⟨rfl, fun x h k hx hk _ hh => ⟨hx, hk, hh⟩⟩
  · split
    · exact spares_setEntry rfl (.inl rfl)
    · split
      · exact ⟨rfl, fun x h k hx hk _ hh => ⟨hx, hk, hh⟩⟩
      · have hb' := hb.setJob (l := l) (J := { F.jobs l with
          nMisses := (F.jobs l).nMisses + 1 }) ⟨rfl, rfl, rfl⟩
        obtain ⟨hbegun, hrest⟩ : Spares l _ (Fetcher.miss _ l i ((F.jobs l).req.ids i).toNat) :=
          hb'.spares_miss
        exact ⟨hbegun, hrest⟩

/-- The guard is on the request's own job, and that is the only one whose entries change. -/
theorem moves_rowStep [Zero B] (hF : LiveOk C F) (hpc : F.pc = .rows l i) :
    Moves F (F.rowStep C l i) := by
  rw [Fetcher.rowStep]
  split
  · obtain ⟨hbegun, hrest⟩ := hF.books.books.spares_row (l := l) (i := i)
    obtain ⟨hring, hslots, -, -⟩ := hF.books.books.rowKeeps (l := l) (i := i)
    refine ⟨.inl ⟨fun r hr => ⟨?_, ?_⟩, [], ?_⟩, fun e h k he hk hne hh => ?_, fun k => ?_,
      fun k hk => .inl ?_⟩
    · change r ∈ (F.row C l i).ring.reads
      rwa [hring]
    · change (((F.row C l i).slots r.ud).entry, ((F.row C l i).slots r.ud).half) = _
      rw [hslots]
      rfl
    · change (F.row C l i).ring.cq = _
      rw [hring, List.append_nil]
    · refine hrest e h k he hk (fun heq => hne ?_) hh
      rw [hpc, heq]
      rfl
    · change F.begun k <+: (F.row C l i).begun k
      rw [hbegun]
    · rw [hpc]
      exact hk
  · exact .goto (.inl (by rw [hpc]; rfl))

/-- Issuing prepares reads and leaves the completions alone. -/
theorem cq_issueEntry (hs : F.issueEntry C e = some F') : F'.ring.cq = F.ring.cq := by
  have hone : ∀ (G : Fetcher B) (h : Half), (G.issueRead C e h).ring.cq = G.ring.cq := by
    intro G h
    rw [Fetcher.issueRead]
    split <;> rfl
  simp only [Fetcher.issueEntry] at hs
  split at hs
  · split at hs
    · simp at hs
    · exact Option.some.inj hs ▸ hone _ _
  · split at hs
    · simp at hs
    · exact Option.some.inj hs ▸ (hone _ _).trans (hone _ _)

/-- Issuing does not change whom an entry is for. -/
theorem job_issueEntry (hs : F.issueEntry C e = some F') (x : ℕ) :
    (F'.entries x).job = (F.entries x).job := by
  simp only [Fetcher.issueEntry] at hs
  split at hs
  · split at hs
    · simp at hs
    · rw [← Option.some.inj hs, issueRead_entries]
      rcases eq_or_ne x e with rfl | hne
      · simp [Fetcher.setEntry]
      · simp [Fetcher.setEntry, hne]
  · split at hs
    · simp at hs
    · rw [← Option.some.inj hs, issueRead_entries, issueRead_entries]

/-- A completion begins no request. -/
theorem reapOne_begun : (F.reapOne r res cq).begun = F.begun := by
  obtain ⟨jobs, -, heq⟩ := reapOne_eq F r res cq
  rw [heq]
  dsimp only
  split
  · obtain ⟨_, _, _, _, hc⟩ := completeEntry_frame { (F.pop r cq).setEntry (F.slots r.ud).entry
      (Fetcher.landed (F.slots r.ud) (F.entries (F.slots r.ud).entry) res) with jobs := jobs }
      (F.slots r.ud).entry
    rw [hc]
    rfl
  · rfl

/-- The entry that is issued had no half done, so no job waits for more than before. -/
theorem moves_issueStep (hF : LiveOk C F) (hpc : F.pc = .issue l) :
    Moves F (F.issueStep C l) := by
  have hstop : Moves F (F.goto (.submit l)) := .goto (.inl (by rw [hpc]; rfl))
  rw [Fetcher.issueStep]
  split
  · exact hstop
  · next e es hq =>
    split
    · exact hstop
    · next F' hs =>
      have hb := hF.books.books
      rw [hq] at hb
      obtain ⟨hlive, -, hdone, hread⟩ := hb.queued e (List.mem_cons_self ..)
      have hu : Unissued F e := ⟨hlive, hdone, hread⟩
      obtain ⟨hkept, -, hentries⟩ := hb.dequeue.issueEntry_reads hu
        (List.nodup_cons.mp hb.queueNodup).1 hs
      have hcq := cq_issueEntry hs
      have hjob := job_issueEntry hs
      obtain ⟨_, _, _, _, rfl⟩ := issueEntry_frame hs
      refine ⟨.inl ⟨hkept, [], by rw [List.append_nil]; exact hcq⟩, fun x h k hx hk _ hh => ?_,
        fun _ => List.prefix_rfl, fun k hk => .inl hk⟩
      have hk' : (F.entries x).job = some k := (hjob x).symm.trans hk
      rcases eq_or_ne x e with rfl | hne
      · exact ⟨hx, hk', hdone h⟩
      · have hsame := hentries x hne
        dsimp only at hsame hh
        rw [hsame] at hh
        exact ⟨hx, hk', hh⟩

/-- A completion gets one half of its entry done. -/
theorem moves_reapOne (hcq : F.ring.cq = (r, res) :: cq) : Moves F (F.reapOne r res cq) := by
  obtain ⟨hpc, -, hentries, -, -, hlive⟩ := reapOne_frame F r res cq
  refine ⟨.inr ⟨r, res, cq, hcq, rfl⟩, fun e h k he hk _ hh => ?_, fun l => ?_, fun k hk => .inl ?_⟩
  · rw [hentries] at hk hh
    refine ⟨hlive e he, ?_⟩
    rcases eq_or_ne e (F.slots r.ud).entry with rfl | hne
    · obtain ⟨-, -, hdone, hjob⟩ := landed_same (F.slots r.ud)
        (F.entries (F.slots r.ud).entry) res
      rw [Function.update_self] at hk hh
      rw [hjob] at hk
      rw [hdone, Function.update_apply] at hh
      split at hh
      · simp at hh
      · exact ⟨hk, hh⟩
    · rw [Function.update_of_ne hne] at hk hh
      exact ⟨hk, hh⟩
  · rw [reapOne_begun]
  · rw [← hpc]
    exact hk

theorem moves_reapAll (hG : Moves F G) : Moves F (F.reapAll G) := by
  rw [Fetcher.reapAll]
  split
  · exact hG
  · next r res cq hcq => exact moves_reapOne hcq

theorem moves_newPoll : Moves F F.newPoll :=
  .rest rfl rfl rfl (fun _ he => he) (fun _ => List.prefix_rfl)
    fun k hk => by simp [Fetcher.newPoll, Pc.guard] at hk

theorem moves_release (l : ℕ) : Moves F (F.release l) := by
  obtain ⟨_, _, heq⟩ := countDown_eq F l
  rw [Fetcher.release, heq]
  exact .rest rfl rfl rfl (fun _ he => he) (fun _ => List.prefix_rfl)
    fun k hk => by simp [Pc.guard] at hk

theorem moves_check : Moves F (F.check C) := by
  rw [Fetcher.check]
  split
  · exact .rest rfl rfl rfl (fun _ he => he) (fun _ => List.prefix_rfl)
      fun k hk => by simp [Pc.guard] at hk
  · split
    · exact .goto (.inr rfl)
    · exact moves_newPoll

theorem moves_prefetch : Moves F (F.prefetch C) := by
  rw [Fetcher.prefetch]
  dsimp only
  split
  · exact moves_newPoll
  · split
    · exact .rest rfl rfl rfl (fun _ he => he) (fun _ => List.prefix_rfl)
        fun k hk => by simp [Fetcher.newPoll, Pc.guard] at hk
    · exact .rest rfl rfl rfl (fun _ he => he) (fun _ => List.prefix_rfl)
        fun k hk => by simp [Pc.guard] at hk

/-- A prefetch takes a blank entry, for which no job waits; an entry that cannot be issued is given
back. -/
theorem moves_prefetchMiss (hF : LiveOk C F) (hpc : F.pc = .prefetchRow)
    (hp : F.pending l id = none) {rest : List (ℕ × ℤ)} :
    Moves F (F.prefetchMiss C l id rest) := by
  have hguard : F.pc.guard = none := by rw [hpc]; rfl
  have hb := hF.books.idleBooks hguard
  have halloc := hb.alloc
  simp only [Fetcher.prefetchMiss]
  generalize F.allocEntry = a at halloc ⊢
  obtain ⟨e, F₁⟩ := a
  obtain ⟨entries, nEntries, freeEntries, rfl⟩ := halloc.same
  have hins := halloc.inserted (E := { entries e with layer := l, id := id, job := none })
    (J := F.jobs) (fun k => by simp)
  have hnew := hb.newEntry (p := []) hins halloc.blank.1 hp (fun k hk => by simp at hk) (.inl rfl)
  have hu : Unissued _ e := ⟨(hins.live e).mpr (.inr rfl), by
    rw [hins.entry]
    exact halloc.blank.1, fun r hr => by
    rw [hins.target]
    exact hb.read_ne hins.notLive (hins.io.1 ▸ hr)⟩
  dsimp only
  generalize hs : Fetcher.issueEntry C _ e = o
  rcases o with _ | F₂
  · refine ⟨.inl ⟨fun r hr => ⟨hr, rfl⟩, [], (List.append_nil _).symm⟩, fun x h k hx hk _ hh => ?_,
      fun _ => List.prefix_rfl, fun k hk => .inl hk⟩
    obtain ⟨hx, hne⟩ := (live_free (F := Fetcher.setPending _ l id (some e)) x).mp hx
    have hlive : F.Live x := ((hins.live x).mp hx).resolve_right hne
    have hsame := hins.entries x hlive
    change ((Function.update entries e _) x).job = some k at hk
    change ((Function.update entries e _) x).done h = false at hh
    change (Function.update entries e _) x = F.entries x at hsame
    rw [hsame] at hk hh
    exact ⟨hlive, hk, hh⟩
  · obtain ⟨hkept, -, hentries⟩ := hnew.issueEntry_reads hu (by simp) hs
    have hcq := cq_issueEntry hs
    have hjob := job_issueEntry hs
    obtain ⟨_, _, _, _, rfl⟩ := issueEntry_frame hs
    refine ⟨.inl ⟨hkept, [], by rw [List.append_nil]; exact hcq⟩, fun x h k hx hk _ hh => ?_,
      fun _ => List.prefix_rfl, fun k hk => .inl hk⟩
    have hk' := (hjob x).symm.trans hk
    rcases eq_or_ne x e with rfl | hne
    · -- no job waits for the new entry
      simp [Fetcher.setEntry, Fetcher.setPending] at hk'
    · have hlive : F.Live x := ((hins.live x).mp hx).resolve_right hne
      have hsame := (hentries x hne).trans (hins.entries x hlive)
      dsimp only at hsame hk hh
      rw [hsame] at hk hh
      exact ⟨hlive, hk, hh⟩

/-- A prefetched row that is cached, pending or out of the vocabulary is dropped. -/
theorem moves_prefetchRow (hF : LiveOk C F) (hpc : F.pc = .prefetchRow) :
    Moves F (F.prefetchRow C) := by
  have hguard : ∀ k, F.pc.guard ≠ some k := by
    intro k
    rw [hpc]
    simp [Pc.guard]
  rw [Fetcher.prefetchRow]
  split
  · split
    · exact .goto (.inr rfl)
    · exact moves_newPoll
  · split
    · exact .rest rfl rfl rfl (fun _ he => he) (fun _ => List.prefix_rfl)
        fun k hk => absurd hk (hguard k)
    · split
      · exact .rest rfl rfl rfl (fun _ he => he) (fun _ => List.prefix_rfl)
          fun k hk => absurd hk (hguard k)
      · split
        · exact .rest rfl rfl rfl (fun _ he => he) (fun _ => List.prefix_rfl)
            fun k hk => absurd hk (hguard k)
        · next hp => exact moves_prefetchMiss hF hpc hp

theorem moves_submitted (hpc : F.pc = .submit l) : Moves F (F.submitted l) := by
  rw [Fetcher.submitted]
  split
  · exact .goto (.inl (by rw [hpc]; rfl))
  · exact .goto (.inl (by rw [hpc]; rfl))

/-- **What a step of the fetcher does**, by its place. -/
theorem moves_tick [Zero B] (hF : LiveOk C F) (hs : F.tick C = some F') : Moves F F' := by
  rw [Fetcher.tick] at hs
  split at hs
  · next l hpc => exact Option.some.inj hs ▸ moves_scan hpc
  · next l i hpc => exact Option.some.inj hs ▸ moves_rowStep hF hpc
  · next l hpc =>
    obtain rfl := Option.some.inj hs
    refine .goto (.inl ?_)
    rw [hpc]
    split <;> rfl
  · next l hpc => exact Option.some.inj hs ▸ moves_issueStep hF hpc
  · next l hpc =>
    split at hs
    · exact Option.some.inj hs ▸ moves_submitted hpc
    · simp at hs
  · next l hpc => exact Option.some.inj hs ▸ .goto (.inl (by rw [hpc]; rfl))
  · next l hpc => exact Option.some.inj hs ▸ moves_reapAll (.goto (.inl (by rw [hpc]; rfl)))
  · next l hpc => exact Option.some.inj hs ▸ moves_release l
  · next hpc => exact Option.some.inj hs ▸ moves_check
  · exact Option.some.inj hs ▸ moves_reapAll moves_newPoll
  · next hpc => exact Option.some.inj hs ▸ moves_prefetch
  · next hpc => exact Option.some.inj hs ▸ moves_prefetchRow hF hpc
  · simp at hs

/-- A submission moves reads from the queue to the device and begins no request. -/
theorem moves_answer {a : Answer} (ha : Taken F (.answer a)) (hs : F.answer a = some F') :
    Moves F F' := by
  obtain ⟨R, hR, hs⟩ := Option.bind_eq_some_iff.mp hs
  obtain ⟨n, rfl, -⟩ := ha
  have hring : (∀ r ∈ F.ring.reads, r ∈ R.reads ∧ F.target r = F.target r) ∧
      ∃ new, R.cq = F.ring.cq ++ new :=
    ⟨fun r hr => ⟨(Uring.reads_submit hR).mem_iff.mpr hr, rfl⟩, [], by
      rw [List.append_nil, Uring.cq_submit hR]⟩
  dsimp only at hs
  split at hs
  · next l hpc =>
    rw [if_neg (by simp : ¬ Answer.accepted n = .error)] at hs
    split at hs
    · simp at hs
    · obtain rfl := Option.some.inj hs
      refine ⟨.inl hring, fun e h k he hk _ hh => ⟨he, hk, hh⟩, fun _ => List.prefix_rfl,
        fun k hk => .inl ?_⟩
      rw [hpc]
      simp only [Fetcher.submitted, Fetcher.goto] at hk
      split at hk <;> exact hk
  · obtain rfl := Option.some.inj hs
    exact ⟨.inl hring, fun e h k he hk _ hh => ⟨he, hk, hh⟩, fun _ => List.prefix_rfl,
      fun k hk => by simp [Fetcher.newPoll, Pc.guard] at hk⟩
  · simp at hs

/-- The completion is the last of the queue. -/
theorem cq_complete {garbage : ℕ → B} (hs : F.complete C i res garbage = some F') :
    ∃ r, F.ring.flying[i]? = some r ∧ F'.ring.cq = F.ring.cq ++ [(r, res)] := by
  obtain ⟨r, hr, hs⟩ := Option.bind_eq_some_iff.mp hs
  obtain ⟨R, hR, rfl⟩ := Option.map_eq_some_iff.mp hs
  rw [Uring.complete, hr] at hR
  exact ⟨r, hr, Option.some.inj hR ▸ rfl⟩

/-- A completion by the device is put behind the others. -/
theorem moves_complete {garbage : ℕ → B} (hs : F.complete C i res garbage = some F') :
    Moves F F' := by
  obtain ⟨r, hr, hs⟩ := Option.bind_eq_some_iff.mp hs
  obtain ⟨R, hR, rfl⟩ := Option.map_eq_some_iff.mp hs
  have hperm := Uring.reads_complete hR
  refine ⟨.inl ⟨fun r' hr' => ⟨hperm.mem_iff.mpr hr', ?_⟩, [(r, res)], ?_⟩,
    fun e h k he hk _ hh => ⟨he, hk, hh⟩, fun _ => List.prefix_rfl, fun k hk => .inl hk⟩
  · rcases eq_or_ne r'.ud r.ud with heq | hne
    · simp [Fetcher.target, heq]
    · simp [Fetcher.target, hne]
  · rw [Uring.complete, hr] at hR
    exact Option.some.inj hR ▸ rfl

/-- What every step does. -/
theorem LiveOk.moves [Zero B] (hF : LiveOk C F) {a : Act B} (ha : Taken F a)
    (hs : F.step C a = some F') : Moves F F' := by
  rcases step_cases hs with ⟨-, hs⟩ | ⟨b, rfl, hs⟩ | ⟨i, res, garbage, -, hs⟩ |
    ⟨-, _, _, _, rfl⟩
  · exact moves_tick hF hs
  · exact moves_answer ha hs
  · exact moves_complete hs
  · exact .rest rfl rfl rfl (fun _ he => he) (fun _ => List.prefix_rfl) fun k hk => .inl hk

/-! ### The effort of a step -/

theorem load_le_of_effort (h : F'.effort C < F.effort C) : F'.load C ≤ F.load C := by
  rcases Prod.Lex.toLex_lt_toLex.mp h with hlt | ⟨heq, -⟩
  · exact hlt.le
  · exact heq.le

/-- A step of a fetcher that does not wait comes closer to the end of the mailboxes. -/
theorem LiveOk.effort_own [Zero B] (hF : LiveOk C F) {a : Act B} (ha : Taken F a) (hown : a.Own)
    (hs : F.step C a = some F') (hcheck : F.pc ≠ .check) (hblocked : ¬ F.Blocked) :
    F'.pc = .check ∨ F'.effort C < F.effort C := by
  rcases step_cases hs with ⟨-, hs⟩ | ⟨b, rfl, hs⟩ | ⟨i, res, garbage, rfl, -⟩ | ⟨hnot, -⟩
  · exact hF.effort_tick hs hcheck hblocked
  · exact .inr (effort_answer ha hs)
  · exact hown.elim
  · exact absurd hown hnot

/-- The others' steps do not move the fetcher. -/
theorem effort_other [Zero B] {a : Act B} (hnot : ¬ a.Own) (hs : F.step C a = some F') :
    F'.pc = F.pc ∧ F'.effort C ≤ F.effort C ∧ (F.ring.cq ≠ [] → F'.ring.cq ≠ []) := by
  rcases step_cases hs with ⟨rfl, -⟩ | ⟨b, rfl, -⟩ | ⟨i, res, garbage, -, hs⟩ |
    ⟨-, _, _, _, rfl⟩
  · exact absurd trivial hnot
  · exact absurd trivial hnot
  · obtain ⟨hlt, hpc⟩ := load_complete (C := C) hs
    obtain ⟨r, -, hcq'⟩ := cq_complete hs
    refine ⟨hpc, (effort_lt_of_load hlt).le, fun hcq => ?_⟩
    rw [hcq']
    exact List.append_ne_nil_of_left_ne_nil hcq _
  · exact ⟨rfl, le_rfl, fun hcq => hcq⟩

/-- No step adds to the load before the mailboxes are done. -/
theorem LiveOk.load_step [Zero B] (hF : LiveOk C F) {a : Act B} (ha : Taken F a)
    (hs : F.step C a = some F') (hcheck : F.pc ≠ .check) :
    F'.pc = .check ∨ F'.load C ≤ F.load C := by
  by_cases hown : a.Own
  · by_cases hblocked : F.Blocked
    · rcases step_cases hs with ⟨-, hs⟩ | ⟨b, rfl, hs⟩ | ⟨i, res, garbage, rfl, -⟩ | ⟨hnot, -⟩
      · exact .inr (load_tick_blocked hs hblocked).1.le
      · exact .inr (load_le_of_effort (effort_answer ha hs))
      · exact hown.elim
      · exact absurd hown hnot
    · exact (hF.effort_own ha hown hs hcheck hblocked).imp_right load_le_of_effort
  · obtain ⟨-, hle, -⟩ := effort_other (C := C) hown hs
    rcases hle.lt_or_eq with hlt | heq
    · exact .inr (load_le_of_effort hlt)
    · exact .inr (congrArg (fun x => (ofLex x).1) heq).le

/-- Where no submission is due, the fetcher's step is determined. -/
theorem tick_of_own [Zero B] {a : Act B} (hown : a.Own) (hs : F.step C a = some F')
    (hpc : (∀ l, F.pc ≠ .submit l) ∧ F.pc ≠ .prefetchSubmit) : F.tick C = some F' := by
  rcases step_cases hs with ⟨-, hs⟩ | ⟨b, -, hs⟩ | ⟨i, res, garbage, rfl, -⟩ | ⟨hnot, -⟩
  · exact hs
  · obtain ⟨R, -, hs⟩ := Option.bind_eq_some_iff.mp hs
    dsimp only at hs
    split at hs
    · next l hl => exact absurd hl (hpc.1 l)
    · next hl => exact absurd hl hpc.2
    · simp at hs
  · exact hown.elim
  · exact absurd hown hnot

/-- As long as nothing is reaped the completions stay in the queue. -/
theorem cq_ne_nil_of_moves {F F' : Fetcher B} (h : Moves F F') (hcq : F.ring.cq ≠ [])
    (hnot : ¬ ∃ r, Reaps F r F') : F'.ring.cq ≠ [] := by
  obtain ⟨-, new, hnew⟩ := h.ring.resolve_right hnot
  rw [hnew]
  exact List.append_ne_nil_of_left_ne_nil hcq new

/-! ### What a job waits for -/

/-- The halves layer `l`'s job waits for. -/
def Fetcher.missing (F : Fetcher B) (l : ℕ) : Finset (ℕ × Half) :=
  (F.owned l ×ˢ {Half.values, Half.scales}).filter fun x => (F.entries x.1).done x.2 = false

/-- A half is missing while its entry is the job's and has not got it. -/
theorem mem_missing {x : ℕ × Half} : x ∈ F.missing l ↔
    F.Live x.1 ∧ (F.entries x.1).job = some l ∧ (F.entries x.1).done x.2 = false := by
  have hhalf : x.2 ∈ ({Half.values, Half.scales} : Finset Half) := by
    rcases x with ⟨e, _ | _⟩
    · exact Finset.mem_insert_self ..
    · exact Finset.mem_insert_of_mem (Finset.mem_singleton_self _)
  rw [Fetcher.missing, Finset.mem_filter, Finset.mem_product, mem_owned, and_iff_left hhalf,
    and_assoc]

/-- Nothing is added to what a job waits for once its guard is released. -/
theorem Moves.missing (h : Moves F F') (hguard : F.pc.guard ≠ some l) :
    F'.missing l ⊆ F.missing l := by
  intro x hx
  obtain ⟨hlive, hjob, hdone⟩ := mem_missing.mp hx
  exact mem_missing.mpr (h.owns x.1 x.2 l hlive hjob hguard hdone)

/-- What is reaped is not waited for any more. -/
theorem Reaps.target_notMem (h : Reaps F r F') : F.target r ∉ F'.missing l := by
  obtain ⟨res, cq, -, rfl⟩ := h
  obtain ⟨-, -, hentries, -, -, -⟩ := reapOne_frame F r res cq
  intro hmem
  obtain ⟨-, -, hdone⟩ := mem_missing.mp hmem
  rw [hentries] at hdone
  simp [Fetcher.target, (landed_same _ _ _).2.2.1] at hdone

/-- An active job without its guard waits for a half that is being read. -/
theorem LiveOk.exists_missing (hF : LiveOk C F) (hact : (F.jobs l).active = true)
    (hguard : F.pc.guard ≠ some l) : ∃ r ∈ F.ring.reads, F.target r ∈ F.missing l := by
  have hb := hF.books.books
  have hpos := hb.waiting l hact
  rw [hb.count l, if_neg hguard, if_neg (by simp : ¬ (none : Option ℕ) = some l)] at hpos
  have hcard : 0 < (F.owned l).card := by omega
  obtain ⟨e, he⟩ := Finset.card_pos.mp hcard
  obtain ⟨hlive, hjob⟩ := mem_owned.mp he
  obtain ⟨h, hh⟩ := hF.books.isOpen e hlive
  have hq : e ∉ F.queued := by
    intro heq
    obtain ⟨-, hg, -⟩ := hb.queued e heq
    exact hguard (hg.symm.trans hjob)
  obtain ⟨r, hr, ht⟩ := hF.issued e hlive hq h hh
  exact ⟨r, hr, ht ▸ mem_missing.mpr ⟨hlive, hjob, hh⟩⟩

/-! ### Fair executions -/

/-- The fetcher goes on unless it waits for a read, and every submitted read completes. -/
structure Fair [Zero B] (E : Execution (Fetcher.step C)) : Prop where
  goesOn : ∀ n, ∃ m ≥ n, (E.label m).Own ∨ (E.state m).Blocked
  completes : ∀ n, ∀ r ∈ (E.state n).ring.flying, ∃ m ≥ n, ∃ i res garbage,
    E.label m = .complete i res garbage ∧ (E.state m).ring.flying[i]? = some r

section Runs

variable [Zero B] {E : Execution (Fetcher.step C)}

/-- A fetcher that is neither blocked nor at the end of the mailboxes takes its next step. -/
theorem Fair.exists_own (hE : Fair E) (hn : ¬ (E.state n).Blocked) :
    ∃ m ≥ n, ((E.state m).pc = (E.state n).pc ∧ ¬ (E.state m).Blocked ∧
      (E.state m).effort C ≤ (E.state n).effort C ∧
      ((E.state n).ring.cq ≠ [] → (E.state m).ring.cq ≠ [])) ∧ (E.label m).Own := by
  obtain ⟨m, hm, ⟨hpc, hblocked, heff, hcq⟩, hown⟩ := exists_first
    (P := fun m => (E.state m).pc = (E.state n).pc ∧ ¬ (E.state m).Blocked ∧
      (E.state m).effort C ≤ (E.state n).effort C ∧
      ((E.state n).ring.cq ≠ [] → (E.state m).ring.cq ≠ []))
    (A := fun m => (E.label m).Own ∨ (E.state m).Blocked)
    ⟨rfl, hn, le_rfl, id⟩ (hE.goesOn n) fun m _ hm hnot => by
      obtain ⟨hpc, hblocked, heff, hcq⟩ := hm
      rw [not_or] at hnot
      obtain ⟨hpc', heff', hcq'⟩ := effort_other (C := C) hnot.1 (E.next m)
      refine ⟨hpc'.trans hpc, ?_, heff'.trans heff, fun h => hcq' (hcq h)⟩
      rintro ⟨⟨l, hl⟩, hnil⟩
      refine hcq' (fun hnil' => ?_) hnil
      exact hblocked ⟨⟨l, hpc' ▸ hl⟩, hnil'⟩
  exact ⟨m, hm, ⟨hpc, hblocked, heff, hcq⟩, hown.resolve_right hblocked⟩

/-- The fetcher comes to the end of the mailboxes again and again. -/
theorem Fair.exists_check (hE : Fair E) (hok : ∀ n, LiveOk C (E.state n))
    (htaken : ∀ n, Taken (E.state n) (E.label n)) (n : ℕ) :
    ∃ m ≥ n, (E.state m).pc = .check := by
  by_cases hcheck : (E.state n).pc = .check
  · exact ⟨n, le_rfl, hcheck⟩
  refine exists_of_measure (P := fun m => (E.state m).pc ≠ .check)
    (fun m => (E.state m).effort C) (fun m hm => ?_) hcheck
  by_cases hblocked : (E.state m).Blocked
  · -- a read is in flight, and its completion is the progress
    obtain ⟨⟨l, hpc⟩, hcq⟩ := hblocked
    have hfly := ((hok m).waits l hpc).2.resolve_right (not_not_intro hcq)
    obtain ⟨r, hr⟩ := List.exists_mem_of_ne_nil _ hfly
    obtain ⟨k, hk, hQ | ⟨hP, hlt⟩⟩ := exists_lt_of_event (fun m => (E.state m).load C) hm
      (Q := fun m => (E.state m).pc = .check) (hE.completes m r hr)
      (fun k hk _ => by
        rcases eq_or_ne (E.state (k + 1)).pc .check with hc | hc
        · exact .inl hc
        · exact .inr ⟨hc, ((hok k).load_step (htaken k) (E.next k) hk).resolve_left hc⟩)
      (fun k hk hevent => by
        obtain ⟨i, res, garbage, hlabel, -⟩ := hevent
        have hs := E.next k
        rw [hlabel] at hs
        obtain ⟨hlt, hpc⟩ := load_complete (C := C) hs
        exact .inr ⟨hpc ▸ hk, hlt⟩)
    · exact ⟨k, hk.le, .inl hQ⟩
    · exact ⟨k, hk.le, .inr ⟨hP, effort_lt_of_load hlt⟩⟩
  · obtain ⟨k, hk, ⟨hpc, hblocked, heff, -⟩, hown⟩ := hE.exists_own hblocked
    rcases (hok k).effort_own (htaken k) hown (E.next k) (hpc ▸ hm) hblocked with hc | hlt
    · exact ⟨k + 1, by omega, .inl hc⟩
    · rcases eq_or_ne (E.state (k + 1)).pc .check with hc | hc
      · exact ⟨k + 1, by omega, .inl hc⟩
      · exact ⟨k + 1, by omega, .inr ⟨hc, hlt.trans_le heff⟩⟩

/-- A completion in the queue is followed by a reap. -/
theorem Fair.exists_reaps (hE : Fair E) (hok : ∀ n, LiveOk C (E.state n))
    (htaken : ∀ n, Taken (E.state n) (E.label n)) (hcq : (E.state n).ring.cq ≠ []) :
    ∃ m ≥ n, ∃ r, Reaps (E.state m) r (E.state (m + 1)) := by
  by_contra hno
  have hnot : ∀ m ≥ n, ¬ ∃ r, Reaps (E.state m) r (E.state (m + 1)) :=
    fun m hm hr => hno ⟨m, hm, hr⟩
  have hkeep : ∀ m ≥ n, (E.state m).ring.cq ≠ [] := by
    intro m hm
    induction m, hm using Nat.le_induction with
    | base => exact hcq
    | succ m hm ih => exact cq_ne_nil_of_moves ((hok m).moves (htaken m) (E.next m)) ih (hnot m hm)
  -- from the end of the mailboxes the fetcher goes to `reap_all`, and there it reaps
  obtain ⟨m, hm, hcheck⟩ := hE.exists_check hok htaken n
  have hfree : ∀ {m}, (E.state m).pc = .check ∨ (E.state m).pc = .reap → ¬ (E.state m).Blocked := by
    rintro m hpc ⟨⟨l, hl⟩, -⟩
    rw [hl] at hpc
    simp at hpc
  obtain ⟨k, hk, ⟨hpc, -, -, -⟩, hown⟩ := hE.exists_own (hfree (.inl hcheck))
  rw [hcheck] at hpc
  have hreap : (E.state (k + 1)).pc = .reap := by
    have hs := tick_of_own hown (E.next k) (by simp [hpc])
    rw [Fetcher.tick, hpc, Fetcher.check, if_pos (hkeep k (by omega))] at hs
    exact Option.some.inj hs ▸ rfl
  obtain ⟨j, hj, ⟨hpc', -, -, -⟩, hown'⟩ := hE.exists_own (hfree (.inr hreap))
  rw [hreap] at hpc'
  have hs := tick_of_own hown' (E.next j) (by simp [hpc'])
  obtain ⟨⟨r, res⟩, cq, hcons⟩ := List.exists_cons_of_ne_nil (hkeep j (by omega))
  rw [Fetcher.tick, hpc', Fetcher.reapAll, hcons] at hs
  exact hnot j (by omega) ⟨r, res, cq, hcons, (Option.some.inj hs).symm⟩

/-- The completions are reaped in their order. -/
theorem Fair.exists_reaps_of_mem_cq (hE : Fair E) (hok : ∀ n, LiveOk C (E.state n))
    (htaken : ∀ n, Taken (E.state n) (E.label n)) (hr : (r, res) ∈ (E.state n).ring.cq) :
    ∃ m ≥ n, Reaps (E.state m) r (E.state (m + 1)) := by
  obtain ⟨older, newer, hcq⟩ := List.append_of_mem hr
  clear hr
  induction older generalizing n newer with
  | nil =>
    obtain ⟨m, hm, ⟨newer', hcq'⟩, r', res', cq', hcons, heq⟩ := exists_first
      (P := fun m => ∃ newer, (E.state m).ring.cq = (r, res) :: newer) ⟨newer, hcq⟩
      (hE.exists_reaps hok htaken (by rw [hcq]; simp)) fun m _ hm hnot => by
        obtain ⟨newer, hcq⟩ := hm
        obtain ⟨-, new, hnew⟩ :=
          ((hok m).moves (htaken m) (E.next m)).ring.resolve_right hnot
        exact ⟨newer ++ new, by rw [hnew, hcq, List.cons_append]⟩
    obtain ⟨hpair, -⟩ := List.cons.inj (hcons.symm.trans hcq')
    obtain ⟨rfl, -⟩ := Prod.mk.inj hpair
    exact ⟨m, hm, res', cq', hcons, heq⟩
  | cons x older ih =>
    obtain ⟨m, hm, ⟨newer', hcq'⟩, r', res', cq', hcons, heq⟩ := exists_first
      (P := fun m => ∃ newer, (E.state m).ring.cq = x :: older ++ (r, res) :: newer) ⟨newer, hcq⟩
      (hE.exists_reaps hok htaken (by rw [hcq]; simp)) fun m _ hm hnot => by
        obtain ⟨newer, hcq⟩ := hm
        obtain ⟨-, new, hnew⟩ :=
          ((hok m).moves (htaken m) (E.next m)).ring.resolve_right hnot
        exact ⟨newer ++ new, by simp [hnew, hcq]⟩
    obtain ⟨-, hrest⟩ := List.cons.inj (hcons.symm.trans hcq')
    obtain ⟨-, -, -, hring, -, -⟩ := reapOne_frame (E.state m) r' res' cq'
    obtain ⟨k, hk, hr⟩ := ih (n := m + 1) newer' (by rw [heq, hring]; exact hrest)
    exact ⟨k, by omega, hr⟩

/-- **Every read is reaped**, for the half it was issued for. -/
theorem Fair.exists_reaped (hE : Fair E) (hok : ∀ n, LiveOk C (E.state n))
    (htaken : ∀ n, Taken (E.state n) (E.label n)) (hr : r ∈ (E.state n).ring.reads) :
    ∃ m ≥ n, Reaps (E.state m) r (E.state (m + 1)) := by
  by_contra hno
  have hkeep : ∀ m ≥ n, r ∈ (E.state m).ring.reads := by
    intro m hm
    induction m, hm using Nat.le_induction with
    | base => exact hr
    | succ m hm ih =>
      rcases ((hok m).moves (htaken m) (E.next m)).ring with ⟨hkept, -⟩ | ⟨r', res', cq', hcq, heq⟩
      · exact (hkept r ih).1
      · obtain ⟨-, -, -, hring, -, -⟩ := reapOne_frame (E.state m) r' res' cq'
        rw [heq, hring]
        refine ((mem_reads_pop hcq).mp ih).resolve_left ?_
        rintro rfl
        exact hno ⟨m, hm, res', cq', hcq, heq⟩
  -- at the end of the mailboxes every prepared read has been submitted
  obtain ⟨m, hm, hcheck⟩ := hE.exists_check hok htaken n
  have hsq := (hok m).settled (by rw [Fetcher.Settled, hcheck]; trivial)
  have hmem := hkeep m hm
  rw [Uring.reads, hsq, List.nil_append, List.mem_append] at hmem
  rcases hmem with hfly | hcq
  · obtain ⟨k, hk, i, res, garbage, hlabel, hget⟩ := hE.completes m r hfly
    have hs := E.next k
    rw [hlabel] at hs
    obtain ⟨r', hr', hcq⟩ := cq_complete hs
    obtain rfl : r = r' := Option.some.inj (hget.symm.trans hr')
    have hlast : (r, res) ∈ (E.state (k + 1)).ring.cq := by
      rw [hcq]
      simp
    obtain ⟨j, hj, hreap⟩ := hE.exists_reaps_of_mem_cq hok htaken hlast
    exact hno ⟨j, by omega, hreap⟩
  · obtain ⟨⟨r', res⟩, hmem, rfl⟩ := List.mem_map.mp hcq
    obtain ⟨j, hj, hreap⟩ := hE.exists_reaps_of_mem_cq hok htaken hmem
    exact hno ⟨j, by omega, hreap⟩

/-- **Every job finishes.** -/
theorem Fair.exists_finished (hE : Fair E) (hok : ∀ n, LiveOk C (E.state n))
    (htaken : ∀ n, Taken (E.state n) (E.label n)) (n l : ℕ) :
    ∃ m ≥ n, ((E.state m).jobs l).active = false := by
  obtain ⟨n', hn', hcheck⟩ := hE.exists_check hok htaken n
  by_cases hact : ((E.state n').jobs l).active = true
  swap
  · exact ⟨n', hn', by simpa using hact⟩
  have hguard : (E.state n').pc.guard ≠ some l := by
    rw [hcheck]
    simp [Pc.guard]
  suffices hfin : ∃ m ≥ n', ((E.state m).jobs l).active = false from
    hfin.imp fun m hm => ⟨hn'.trans hm.1, hm.2⟩
  refine exists_of_measure
    (P := fun m => ((E.state m).jobs l).active = true ∧ (E.state m).pc.guard ≠ some l)
    (fun m => ((E.state m).missing l).card) (fun m hm => ?_) ⟨hact, hguard⟩
  obtain ⟨r, hr, hmiss⟩ := (hok m).exists_missing hm.1 hm.2
  -- until the read is reaped, or the job finishes, the job waits for no more than now
  obtain ⟨k, hk, ⟨hact', hguard', hsub, ht, hr'⟩, hend⟩ := exists_first
    (P := fun k => ((E.state k).jobs l).active = true ∧ (E.state k).pc.guard ≠ some l ∧
      (E.state k).missing l ⊆ (E.state m).missing l ∧
      (E.state k).target r = (E.state m).target r ∧ r ∈ (E.state k).ring.reads)
    (A := fun k => Reaps (E.state k) r (E.state (k + 1)) ∨
      ((E.state (k + 1)).jobs l).active = false)
    ⟨hm.1, hm.2, subset_rfl, rfl, hr⟩
    ((hE.exists_reaped hok htaken hr).imp fun k hk => ⟨hk.1, .inl hk.2⟩)
    fun k _ hk hnot => by
      obtain ⟨hact, hguard, hsub, ht, hr⟩ := hk
      rw [not_or, Bool.not_eq_false] at hnot
      have hmoves := (hok k).moves (htaken k) (E.next k)
      have hkept : r ∈ (E.state (k + 1)).ring.reads ∧
          (E.state (k + 1)).target r = (E.state k).target r := by
        rcases hmoves.ring with ⟨hkept, -⟩ | ⟨r', res', cq', hcq, heq⟩
        · exact hkept r hr
        · obtain ⟨-, -, -, hring, hslots, -⟩ := reapOne_frame (E.state k) r' res' cq'
          rw [heq, hring, Fetcher.target, hslots]
          refine ⟨((mem_reads_pop hcq).mp hr).resolve_left ?_, rfl⟩
          rintro rfl
          exact hnot.1 ⟨res', cq', hcq, heq⟩
      refine ⟨hnot.2, fun hg => ?_, (hmoves.missing hguard).trans hsub, hkept.2.trans ht, hkept.1⟩
      rcases hmoves.guard l hg with hg | hg
      · exact hguard hg
      · simp [hact] at hg
  have hmoves := (hok k).moves (htaken k) (E.next k)
  by_cases hfin : ((E.state (k + 1)).jobs l).active = false
  · exact ⟨k + 1, by omega, .inl hfin⟩
  have hreaps := hend.resolve_right hfin
  refine ⟨k + 1, by omega, .inr ⟨⟨by simpa using hfin, fun hg => ?_⟩, Finset.card_lt_card ?_⟩⟩
  · rcases hmoves.guard l hg with hg | hg
    · exact hguard' hg
    · simp [hact'] at hg
  · refine Finset.ssubset_iff_subset_ne.mpr ⟨(hmoves.missing hguard').trans hsub, fun heq => ?_⟩
    refine hreaps.target_notMem (l := l) ?_
    rw [ht, heq]
    exact hmiss

/-- The requests begun are never forgotten. -/
theorem begun_prefix (hok : ∀ n, LiveOk C (E.state n))
    (htaken : ∀ n, Taken (E.state n) (E.label n)) (hm : n ≤ m) (l : ℕ) :
    (E.state n).begun l <+: (E.state m).begun l := by
  induction m, hm using Nat.le_induction with
  | base => exact List.prefix_rfl
  | succ m _ ih => exact ih.trans (((hok m).moves (htaken m) (E.next m)).begun l)

/-- Every request that is begun is acknowledged once. -/
theorem Fair.exists_acked (hE : Fair E) (hok : ∀ n, LiveOk C (E.state n))
    (htaken : ∀ n, Taken (E.state n) (E.label n)) (n l : ℕ) :
    ∃ m ≥ n, (E.state n).begun l <+: (E.state m).begun l ∧
      ((E.state m).acks l).map Ack.step = ((E.state m).begun l).map Request.step := by
  obtain ⟨m, hm, hfin⟩ := hE.exists_finished hok htaken n l
  refine ⟨m, hm, begun_prefix hok htaken hm l, ?_⟩
  have hlog := (hok m).books.books.log l
  rw [hfin] at hlog
  simpa using hlog.symm

end Runs

end Engram

end VllmMoet
