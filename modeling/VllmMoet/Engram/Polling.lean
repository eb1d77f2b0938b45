import Mathlib.Data.Prod.Lex
import VllmMoet.Engram.Issued

/-!
# Every poll comes to its end

The `effort` left until the mailboxes of a poll are done goes down with each step of the
fetcher, except where it waits for a read; there it goes down when a read completes.
-/

namespace VllmMoet

namespace Engram

variable {B : Type*} {C : Cfg B} {F F' G : Fetcher B} {g d : Option ℕ} {q : List ℕ}
  {e i id l : ℕ} {h : Half} {r : Read} {res : ℤ} {cq : List (Read × ℤ)}

/-! ### The measure -/

/-- How far a place is from the end of the mailboxes, with `n` layers. -/
def Pc.stage (n : ℕ) : Pc → ℕ
  | .check => 0
  | .scan l => 2 * (n - l) + 2
  | .rows l _ => 2 * (n - l) + 1
  | .more l => 2 * (n - l) + 1
  | .issue l => 2 * (n - l) + 1
  | .submit l => 2 * (n - l) + 1
  | .wait l => 2 * (n - l) + 1
  | .reapIn l => 2 * (n - l) + 1
  | .release l => 2 * (n - l) + 1
  | .reap => 2 * n + 3
  | .prefetchSubmit => 2 * n + 3
  | .prefetchRow => 2 * n + 4
  | .prefetch => 2 * n + 5

/-- The iterations left of the loop over the rows, and the parts of `begin_job` after it. -/
def Fetcher.turns (F : Fetcher B) : ℕ :=
  match F.pc with
  | .rows l i => (F.jobs l).nRows - i + 2
  | .more _ => 1
  | .issue _ => 1
  | .submit _ => 1
  | .wait _ => 1
  | .reapIn _ => 1
  | .prefetchRow => F.batch.length
  | _ => 0

/-- An entry is issued, and each read submitted, completed and reaped. -/
def Fetcher.work (F : Fetcher B) : ℕ :=
  10 * F.queued.length + 3 * F.ring.sq.length + 2 * F.ring.flying.length + F.ring.cq.length

/-- The steps of the issue loop to the next work: to its end when nothing is queued, else to
the completions, if any, or to the submission. -/
def Fetcher.steps (F : Fetcher B) : ℕ :=
  match F.pc with
  | .more _ => if F.queued = [] then 0 else if F.ring.cq = [] then 3 else 4
  | .issue _ => if F.queued = [] ∨ F.ring.cq = [] then 2 else 3
  | .submit _ => if F.queued = [] ∨ F.ring.cq = [] then 1 else 2
  | .wait _ => if F.ring.cq = [] then 0 else 1
  | .reapIn _ => if F.ring.cq = [] then 4 else 0
  | _ => 0

/-- What is left but for the steps of the issue loop. -/
def Fetcher.load (C : Cfg B) (F : Fetcher B) : ℕ ×ₗ (ℕ ×ₗ ℕ) :=
  toLex (F.pc.stage C.nLayers, toLex (F.turns, F.work))

/-- What is left until the mailboxes are done. -/
def Fetcher.effort (C : Cfg B) (F : Fetcher B) : (ℕ ×ₗ (ℕ ×ₗ ℕ)) ×ₗ ℕ :=
  toLex (F.load C, F.steps)

/-- Less load is less effort, whatever the steps. -/
theorem effort_lt_of_load (h : F'.load C < F.load C) : F'.effort C < F.effort C :=
  Prod.Lex.toLex_lt_toLex.mpr (.inl h)

/-- The place counts first. -/
theorem load_lt_of_stage (h : F'.pc.stage C.nLayers < F.pc.stage C.nLayers) :
    F'.load C < F.load C :=
  Prod.Lex.toLex_lt_toLex.mpr (.inl h)

/-- At the same place the turns of its loop count. -/
theorem load_lt_of_turns (h : F'.pc.stage C.nLayers = F.pc.stage C.nLayers)
    (ht : F'.turns < F.turns) : F'.load C < F.load C :=
  Prod.Lex.toLex_lt_toLex.mpr (.inr ⟨h, Prod.Lex.toLex_lt_toLex.mpr (.inl ht)⟩)

/-- At the same place and turn the reads count. -/
theorem load_lt_of_work (h : F'.pc.stage C.nLayers = F.pc.stage C.nLayers)
    (ht : F'.turns = F.turns) (hw : F'.work < F.work) : F'.load C < F.load C :=
  Prod.Lex.toLex_lt_toLex.mpr (.inr ⟨h, Prod.Lex.toLex_lt_toLex.mpr (.inr ⟨ht, hw⟩)⟩)

theorem load_eq (h : F'.pc.stage C.nLayers = F.pc.stage C.nLayers)
    (ht : F'.turns = F.turns) (hw : F'.work = F.work) : F'.load C = F.load C := by
  rw [Fetcher.load, Fetcher.load, h, ht, hw]

/-- With the load unchanged the steps of the issue loop count. -/
theorem effort_lt_of_steps (h : F'.pc.stage C.nLayers = F.pc.stage C.nLayers)
    (ht : F'.turns = F.turns) (hw : F'.work = F.work) (hs : F'.steps < F.steps) :
    F'.effort C < F.effort C :=
  Prod.Lex.toLex_lt_toLex.mpr (.inr ⟨load_eq h ht hw, hs⟩)

/-- The fetcher waits for a read. -/
def Fetcher.Blocked (F : Fetcher B) : Prop := (∃ l, F.pc = .wait l) ∧ F.ring.cq = []

/-! ### A step of the fetcher -/

/-- Where the entries come from is all that an allocation changes. -/
theorem allocEntry_frame (F : Fetcher B) : ∃ entries nEntries freeEntries,
    F.allocEntry.2 = { F with
      entries := entries
      nEntries := nEntries
      freeEntries := freeEntries } := by
  rw [Fetcher.allocEntry]
  split
  · exact ⟨_, _, _, rfl⟩
  · exact ⟨_, _, _, rfl⟩

/-- A missing row stays in the loop over the rows, whose number it leaves alone. -/
theorem miss_frame (F : Fetcher B) (l i id : ℕ) :
    (F.miss l i id).pc = F.pc ∧ ((F.miss l i id).jobs l).nRows = (F.jobs l).nRows := by
  rw [Fetcher.miss]
  split
  · dsimp only
    split
    · exact ⟨rfl, by simp [Fetcher.setJob, Fetcher.setEntry]⟩
    · exact ⟨rfl, rfl⟩
  · obtain ⟨_, _, _, heq⟩ := allocEntry_frame F
    dsimp only
    rw [heq]
    exact ⟨rfl, by simp [Fetcher.setJob, Fetcher.setEntry, Fetcher.setPending]⟩

/-- Every row stays in the loop over the rows, whose number it leaves alone. -/
theorem row_frame [Zero B] (F : Fetcher B) (C : Cfg B) (l i : ℕ) :
    (F.row C l i).pc = F.pc ∧ ((F.row C l i).jobs l).nRows = (F.jobs l).nRows := by
  simp only [Fetcher.row]
  split
  · exact ⟨rfl, rfl⟩
  · split
    · exact ⟨rfl, rfl⟩
    · split
      · exact ⟨rfl, by simp [Fetcher.setJob, Fetcher.stage, Fetcher.setCache]⟩
      · obtain ⟨hpc, hn⟩ := miss_frame (F.setJob l { F.jobs l with
          nMisses := (F.jobs l).nMisses + 1 }) l i ((F.jobs l).req.ids i).toNat
        refine ⟨hpc, hn.trans ?_⟩
        simp [Fetcher.setJob]

/-- The scan goes to the next mailbox, or to the end of them. -/
theorem effort_scan (hpc : F.pc = .scan l) :
    (F.scan C l).pc = .check ∨ (F.scan C l).load C < F.load C := by
  obtain ⟨_, _, _, _, _, _, pc, heq, -, ⟨hl, hnext⟩ | ⟨-, hnext⟩⟩ := scan_frame F C l
  · right
    rw [heq]
    refine load_lt_of_stage ?_
    rw [hpc]
    rcases hnext with rfl | rfl | rfl <;> simp only [Pc.stage] <;> omega
  · rw [heq, hnext]
    exact .inl rfl

/-- A row is done, or the loop over the rows is left. -/
theorem effort_rowStep [Zero B] (hpc : F.pc = .rows l i) :
    (F.rowStep C l i).load C < F.load C := by
  rw [Fetcher.rowStep]
  by_cases hi : i < (F.jobs l).nRows
  · rw [if_pos hi]
    refine load_lt_of_turns (by rw [hpc]; rfl) ?_
    obtain ⟨-, hn⟩ := row_frame F C l i
    simp only [Fetcher.turns, Fetcher.goto, hpc, hn]
    omega
  · rw [if_neg hi]
    refine load_lt_of_turns (by rw [hpc]; rfl) ?_
    simp only [Fetcher.turns, Fetcher.goto, hpc]
    omega

/-- A read that is prepared is submitted, completed and reaped later. -/
theorem work_issueRead : (F.issueRead C e h).work ≤ F.work + 3 := by
  rw [Fetcher.issueRead]
  split
  · omega
  · simp only [Fetcher.work, Uring.prepRead, List.length_append, List.length_singleton]
    omega

/-- Two reads at most weigh less than the queued entry. -/
theorem work_issueEntry (hs : F.issueEntry C e = some F') : F'.work ≤ F.work + 6 := by
  simp only [Fetcher.issueEntry] at hs
  split at hs
  · split at hs
    · simp at hs
    · obtain rfl := Option.some.inj hs
      exact work_issueRead.trans (Nat.add_le_add_left (by omega) _)
  · split at hs
    · simp at hs
    · obtain rfl := Option.some.inj hs
      exact work_issueRead.trans (Nat.add_le_add_right work_issueRead 3)

/-- An entry leaves the queue, or the loop goes on to its submission. -/
theorem effort_issueStep (hpc : F.pc = .issue l) :
    (F.issueStep C l).effort C < F.effort C := by
  have hsteps : F.steps = if F.queued = [] ∨ F.ring.cq = [] then 2 else 3 := by
    rw [Fetcher.steps, hpc]
  have hstop : (F.goto (.submit l)).effort C < F.effort C := by
    refine effort_lt_of_steps (by rw [hpc]; rfl) ?_ rfl ?_
    · simp only [Fetcher.turns, Fetcher.goto, hpc]
    · rw [hsteps]
      by_cases hc : F.queued = [] ∨ F.ring.cq = []
      · have hgoto : (F.goto (.submit l)).steps = 1 := if_pos hc
        rw [if_pos hc]
        omega
      · have hgoto : (F.goto (.submit l)).steps = 2 := if_neg hc
        rw [if_neg hc]
        omega
  rw [Fetcher.issueStep]
  split
  · exact hstop
  · next e es hq =>
    split
    · exact hstop
    · next F' hs =>
      have hwork := work_issueEntry hs
      obtain ⟨_, _, _, _, rfl⟩ := issueEntry_frame hs
      refine effort_lt_of_load (load_lt_of_work rfl ?_ ?_)
      · simp only [Fetcher.turns, hpc]
      · simp only [Fetcher.work, hq, List.length_cons] at hwork ⊢
        omega

/-- After a submission the loop goes to what there is to do. -/
theorem effort_submitted (hpc : F.pc = .submit l) :
    (F.submitted l).effort C < F.effort C := by
  have hsteps : F.steps = if F.queued = [] ∨ F.ring.cq = [] then 1 else 2 := by
    rw [Fetcher.steps, hpc]
  rw [Fetcher.submitted]
  by_cases hq : F.queued = []
  · rw [if_pos hq]
    refine effort_lt_of_steps (by rw [hpc]; rfl) ?_ rfl ?_
    · simp only [Fetcher.turns, Fetcher.goto, hpc]
    · rw [hsteps]
      simp [Fetcher.steps, Fetcher.goto, hq]
  · rw [if_neg hq]
    refine effort_lt_of_steps (by rw [hpc]; rfl) ?_ rfl ?_
    · simp only [Fetcher.turns, Fetcher.goto, hpc]
    · rw [hsteps]
      by_cases hcq : F.ring.cq = []
      · simp [Fetcher.steps, Fetcher.goto, hcq]
      · simp [Fetcher.steps, Fetcher.goto, hcq, hq]

/-- A completion is reaped. -/
theorem work_reapOne (hcq : F.ring.cq = (r, res) :: cq) :
    (F.reapOne r res cq).work < F.work := by
  obtain ⟨-, hq, -, hring, -, -⟩ := reapOne_frame F r res cq
  simp only [Fetcher.work, hq, hring, hcq, List.length_cons]
  omega

theorem effort_reapOne (hcq : F.ring.cq = (r, res) :: cq)
    (hpc : (∃ l, F.pc = .reapIn l) ∨ F.pc = .reap) :
    (F.reapOne r res cq).effort C < F.effort C := by
  obtain ⟨hpc', -⟩ := reapOne_frame F r res cq
  refine effort_lt_of_load (load_lt_of_work (by rw [hpc']) ?_ (work_reapOne hcq))
  rcases hpc with ⟨l, hpc⟩ | hpc <;> simp only [Fetcher.turns, hpc', hpc]

/-- Completions are reaped before the loop goes back to the queue. -/
theorem effort_reapIn (hpc : F.pc = .reapIn l) (hq : F.queued ≠ []) :
    (F.reapAll (F.goto (.more l))).effort C < F.effort C := by
  rcases hcq : F.ring.cq with _ | ⟨⟨r, res⟩, cq⟩
  · simp only [Fetcher.reapAll, hcq]
    refine effort_lt_of_steps (by rw [hpc]; rfl) ?_ rfl ?_
    · simp only [Fetcher.turns, Fetcher.goto, hpc]
    · simp [Fetcher.steps, Fetcher.goto, hpc, hcq, hq]
  · simp only [Fetcher.reapAll, hcq]
    exact effort_reapOne hcq (.inl ⟨l, hpc⟩)

/-- A completion is reaped, or a new poll begins. -/
theorem effort_reap (hpc : F.pc = .reap) : (F.reapAll F.newPoll).effort C < F.effort C := by
  rcases hcq : F.ring.cq with _ | ⟨⟨r, res⟩, cq⟩
  · simp only [Fetcher.reapAll, hcq]
    refine effort_lt_of_load (load_lt_of_stage ?_)
    rw [hpc]
    simp only [Fetcher.newPoll, Pc.stage]
    omega
  · simp only [Fetcher.reapAll, hcq]
    exact effort_reapOne hcq (.inr hpc)

/-- The guard is released, and the scan goes on. -/
theorem effort_release (hpc : F.pc = .release l) (hl : l < C.nLayers) :
    (F.release l).load C < F.load C := by
  refine load_lt_of_stage ?_
  rw [hpc]
  simp only [Fetcher.release, Pc.stage]
  omega

/-- A batch is taken, or a new poll begins. -/
theorem effort_prefetch (hpc : F.pc = .prefetch) : (F.prefetch C).load C < F.load C := by
  refine load_lt_of_stage ?_
  rw [hpc, Fetcher.prefetch]
  dsimp only
  split
  · simp only [Fetcher.newPoll, Pc.stage]
    omega
  · split
    · simp only [Fetcher.newPoll, Pc.stage]
      omega
    · simp only [Pc.stage]
      omega

/-- A prefetch that finds no slots drops the rest of its batch. -/
theorem prefetchMiss_frame {rest : List (ℕ × ℤ)} :
    (F.prefetchMiss C l id rest).pc = F.pc ∧
      ((F.prefetchMiss C l id rest).batch = [] ∨ (F.prefetchMiss C l id rest).batch = rest) := by
  obtain ⟨_, _, _, heq⟩ := allocEntry_frame F
  simp only [Fetcher.prefetchMiss, heq]
  split
  · exact ⟨rfl, .inl rfl⟩
  · next F₂ hs =>
    obtain ⟨_, _, _, _, rfl⟩ := issueEntry_frame hs
    exact ⟨rfl, .inr rfl⟩

/-- A row of the batch is done, or the batch is submitted. -/
theorem effort_prefetchRow (hpc : F.pc = .prefetchRow) :
    (F.prefetchRow C).load C < F.load C := by
  have hrow : ∀ {G : Fetcher B} {x : ℕ × ℤ} {rest : List (ℕ × ℤ)}, F.batch = x :: rest →
      G.pc = F.pc → (G.batch = [] ∨ G.batch = rest) → G.load C < F.load C := by
    intro G x rest hbatch hG hrest
    refine load_lt_of_turns (by rw [hG]) ?_
    rw [Fetcher.turns, Fetcher.turns, hG, hpc]
    dsimp only
    rcases hrest with hrest | hrest <;> simp [hrest, hbatch]
  rw [Fetcher.prefetchRow]
  split
  · split
    · refine load_lt_of_stage ?_
      rw [hpc]
      simp only [Fetcher.goto, Pc.stage]
      omega
    · refine load_lt_of_stage ?_
      rw [hpc]
      simp only [Fetcher.newPoll, Pc.stage]
      omega
  · next l id rest hbatch =>
    split
    · exact hrow hbatch rfl (.inr rfl)
    · split
      · exact hrow hbatch rfl (.inr rfl)
      · split
        · exact hrow hbatch rfl (.inr rfl)
        · exact hrow hbatch prefetchMiss_frame.1 prefetchMiss_frame.2

/-- The queue is empty and the guard released, or its first entry is issued. -/
theorem effort_more (hpc : F.pc = .more l) :
    (F.goto (if F.queued = [] then .release l else .issue l)).effort C < F.effort C := by
  by_cases hq : F.queued = []
  · rw [if_pos hq]
    refine effort_lt_of_load (load_lt_of_turns (by rw [hpc]; rfl) ?_)
    simp only [Fetcher.turns, Fetcher.goto, hpc]
    omega
  · rw [if_neg hq]
    refine effort_lt_of_steps (by rw [hpc]; rfl) ?_ rfl ?_
    · simp only [Fetcher.turns, Fetcher.goto, hpc]
    · by_cases hcq : F.ring.cq = []
      · simp [Fetcher.steps, Fetcher.goto, hpc, hq, hcq]
      · simp [Fetcher.steps, Fetcher.goto, hpc, hq, hcq]

/-- A step of a fetcher that does not wait comes closer to the end of the mailboxes. -/
theorem LiveOk.effort_tick [Zero B] (hF : LiveOk C F) (hs : F.tick C = some F')
    (hcheck : F.pc ≠ .check) (hblocked : ¬ F.Blocked) :
    F'.pc = .check ∨ F'.effort C < F.effort C := by
  rw [Fetcher.tick] at hs
  split at hs
  · next l hpc => exact Option.some.inj hs ▸ (effort_scan hpc).imp_right effort_lt_of_load
  · next l i hpc => exact .inr (Option.some.inj hs ▸ effort_lt_of_load (effort_rowStep hpc))
  · next l hpc => exact .inr (Option.some.inj hs ▸ effort_more hpc)
  · next l hpc => exact .inr (Option.some.inj hs ▸ effort_issueStep hpc)
  · next l hpc =>
    split at hs
    · exact .inr (Option.some.inj hs ▸ effort_submitted hpc)
    · simp at hs
  · next l hpc =>
    obtain rfl := Option.some.inj hs
    have hcq : F.ring.cq ≠ [] := fun hcq => hblocked ⟨⟨l, hpc⟩, hcq⟩
    refine .inr (effort_lt_of_steps (by rw [hpc]; rfl) ?_ rfl ?_)
    · simp only [Fetcher.turns, Fetcher.goto, hpc]
    · simp [Fetcher.steps, Fetcher.goto, hpc, hcq]
  · next l hpc =>
    exact .inr (Option.some.inj hs ▸ effort_reapIn hpc (hF.reaps l hpc))
  · next l hpc =>
    have hl : l < C.nLayers := hF.layer l (by rw [hpc]; rfl)
    exact .inr (Option.some.inj hs ▸ effort_lt_of_load (effort_release hpc hl))
  · next hpc => exact absurd hpc hcheck
  · next hpc => exact .inr (Option.some.inj hs ▸ effort_reap hpc)
  · next hpc => exact .inr (Option.some.inj hs ▸ effort_lt_of_load (effort_prefetch hpc))
  · next hpc => exact .inr (Option.some.inj hs ▸ effort_lt_of_load (effort_prefetchRow hpc))
  · simp at hs

/-- A step that wakes a waiting fetcher up without a completion leaves the load. -/
theorem load_tick_blocked [Zero B] (hs : F.tick C = some F') (hblocked : F.Blocked) :
    F'.load C = F.load C ∧ F'.pc ≠ .check := by
  obtain ⟨⟨l, hpc⟩, -⟩ := hblocked
  rw [Fetcher.tick, hpc] at hs
  obtain rfl := Option.some.inj hs
  refine ⟨load_eq (by rw [hpc]; rfl) ?_ rfl, by simp [Fetcher.goto]⟩
  simp only [Fetcher.turns, Fetcher.goto, hpc]

/-- The submission loop stays at its layer. -/
theorem submitted_place (F : Fetcher B) (l : ℕ) :
    (∀ n, (F.submitted l).pc.stage n = 2 * (n - l) + 1) ∧ (F.submitted l).turns = 1 := by
  rw [Fetcher.submitted]
  split
  · exact ⟨fun _ => rfl, rfl⟩
  · exact ⟨fun _ => rfl, rfl⟩

/-- A submission moves reads on, or is followed by the next place. -/
theorem effort_answer {a : Answer} (ha : Taken F (.answer a)) (hs : F.answer a = some F') :
    F'.effort C < F.effort C := by
  obtain ⟨R, hR, hs⟩ := Option.bind_eq_some_iff.mp hs
  obtain ⟨n, rfl, -⟩ := ha
  obtain ⟨hle, rfl⟩ := submit_accepted hR
  dsimp only at hs
  split at hs
  · next l hpc =>
    rw [if_neg (by simp : ¬ Answer.accepted n = .error)] at hs
    split at hs
    · simp at hs
    · obtain rfl := Option.some.inj hs
      rcases Nat.eq_zero_or_pos n with rfl | hpos
      · simpa using effort_submitted (C := C) hpc
      · refine effort_lt_of_load (load_lt_of_work ?_ ?_ ?_)
        · rw [(submitted_place _ l).1, hpc]
          rfl
        · rw [(submitted_place _ l).2, Fetcher.turns, hpc]
        · simp only [Fetcher.work, Fetcher.submitted, Fetcher.goto, List.length_drop,
            List.length_append, List.length_take]
          omega
  · next hpc =>
    obtain rfl := Option.some.inj hs
    refine effort_lt_of_load (load_lt_of_stage ?_)
    rw [hpc]
    simp only [Fetcher.newPoll, Pc.stage]
    omega
  · simp at hs

/-- The completion of a read brings the fetcher closer. -/
theorem load_complete {garbage : ℕ → B} (hs : F.complete C i res garbage = some F') :
    F'.load C < F.load C ∧ F'.pc = F.pc := by
  obtain ⟨r, hr, hs⟩ := Option.bind_eq_some_iff.mp hs
  obtain ⟨R, hR, rfl⟩ := Option.map_eq_some_iff.mp hs
  rw [Uring.complete, hr] at hR
  obtain rfl := Option.some.inj hR
  obtain ⟨hi, -⟩ := List.getElem?_eq_some_iff.mp hr
  refine ⟨load_lt_of_work rfl rfl ?_, rfl⟩
  simp only [Fetcher.work, List.length_eraseIdx_of_lt hi, List.length_append,
    List.length_singleton]
  omega

end Engram

end VllmMoet
