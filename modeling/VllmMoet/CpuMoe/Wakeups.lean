import VllmMoet.CpuMoe.Worker
import VllmMoet.Lib.Tally

/-!
# The pool loses no wake-up

A worker counts itself in `n_sleeping` before it looks at `gen` for the last time, and the main
thread raises `gen` and `wake_seq` before it looks at `n_sleeping`. So either the worker sees the
job, or `wake_seq` is no longer the word it sleeps on, or the main thread sees the worker.

* `Awake`, `Jobs`, `Ok`: the invariant; `Ok.work` and `Ok.main` are its steps;
* `Ok.holds`: it holds in every run;
* `no_lost_wakeup`: a worker that sleeps through a job or a stop is about to be woken, and every
  worker runs the jobs in order, each once.

A destroy does not collect a prefetch: a worker may leave without it, or start it after the pool
was stopped (`prefetch_dropped`).
-/

namespace VllmMoet

namespace CpuMoe

variable {n : ℕ}

/-! ### The invariant -/

/-- What keeps a worker from sleeping through a kick. -/
structure Awake (s : State n) : Prop where
  linked : Linked s.code
  seq : s.mem.seq + (if s.code.head? = some .incSeq then 1 else 0) = s.mem.gen + s.mem.stop.toNat
  sleeping : s.mem.nSleeping = tally Worker.asleep s.workers
  blocked : ∀ i, (s.workers i).pc = .blocked →
    (s.workers i).seen = s.mem.gen ∧ s.mem.stop = false ∨ Waking s.code

/-- The main thread knows this. -/
structure Known.Of (a : Known) (s : State n) : Prop where
  inflight : a.inflight = s.mem.inflight
  opened : a.opened = s.opened
  job : s.mem.job = s.mem.gen + a.ready.toNat
  ready : a.ready = true → s.opened = false
  zero : a.zero = true → s.opened = false ∧ s.mem.done = 0
  stop : a.stop = s.mem.stop

/-- What makes every worker do every job. -/
structure Jobs (s : State n) : Prop where
  main : ∃ a : Known, a.Of s ∧ Safe a s.code
  opened : s.opened = true → s.mem.done + tally (Worker.behind s.mem.gen) s.workers = n
  closed : s.opened = false → ∀ i, (s.workers i).behind s.mem.gen = false
  stopped : s.mem.stop = true → s.opened = true → s.mem.inflight = true

/-- What holds in every run. -/
structure Ok (s : State n) : Prop where
  awake : Awake s
  jobs : Jobs s
  workers : ∀ i, (s.workers i).Ok s.mem

/-- `wake_seq` is at most one behind `gen`. -/
theorem Awake.gen_le {s : State n} (h : Awake s) : s.mem.gen ≤ s.mem.seq + 1 := by
  have := h.seq
  split_ifs at this <;> omega

/-- And ahead of it by a stop only. -/
theorem Awake.seq_le {s : State n} (h : Awake s) :
    s.mem.seq ≤ s.mem.gen + s.mem.stop.toNat := by
  have := h.seq
  omega

/-- The job of a worker that has one to do is that of the generation. -/
theorem Jobs.job_eq {s : State n} (h : Jobs s) {i : Fin n}
    (hb : (s.workers i).behind s.mem.gen = true) : s.mem.job = s.mem.gen := by
  obtain ⟨a, ha, -⟩ := h.main
  have hopen : s.opened ≠ false := fun h0 => by simp [h.closed h0 i] at hb
  have hready : a.ready = false := by
    by_contra hr
    exact hopen (ha.ready (by simpa using hr))
  simpa [hready] using ha.job

/-! ### A step of a worker -/

/-- The worker that has moved is where it should be, the others are where they were. -/
theorem forall_update (p : Worker → Prop) {ws : Fin n → Worker} {i : Fin n} {w : Worker}
    (hw : p w) (h : ∀ j, p (ws j)) (j : Fin n) : p (Function.update ws i w j) :=
  (Function.forall_update_iff ws fun _ => p).mpr ⟨hw, fun k _ => h k⟩ j

/-- A worker blocks only if it has seen the generation and no stop, or its wake-up is due. -/
theorem Awake.blocks {s : State n} (h : Awake s) {i : Fin n} (hw : (s.workers i).Ok s.mem)
    {m : Mem} {w : Worker} {long : Bool} (he : (s.workers i).step s.mem long = some (m, w))
    (hb : w.pc = .blocked) : w.seen = s.mem.gen ∧ s.mem.stop = false ∨ Waking s.code := by
  obtain ⟨k, hp, hword, hsame⟩ := Worker.wait_of_blocked he hb
  have hseq := h.seq
  have hle := hw.seq_le hp h.seq_le hword
  have hseen := hw.seenLe
  by_cases hhead : s.code.head? = some .incSeq
  · exact .inr (.inl hhead)
  · rw [if_neg hhead] at hseq
    refine .inl ⟨by omega, ?_⟩
    by_contra hst
    simp only [Bool.not_eq_false] at hst
    simp only [hst, Bool.toNat_true] at hseq
    omega

/-- A step of a worker keeps the invariant. -/
theorem Ok.work {s : State n} (h : Ok s) {i : Fin n} {m : Mem} {w : Worker} {long : Bool}
    (he : (s.workers i).step s.mem long = some (m, w)) :
    Ok { s with mem := m, workers := Function.update s.workers i w } := by
  have hw := h.workers i
  have hasleep : (s.workers i).asleep = true → 0 < s.mem.nSleeping := fun ha =>
    h.awake.sleeping ▸ tally_pos ha
  have hb := h.awake.blocks hw he
  have hok := hw.step h.awake.gen_le h.awake.seq_le h.jobs.job_eq he
  obtain ⟨ns, d, rfl, hns, hd, hle⟩ := hw.effect hasleep he
  have hsl := tally_update Worker.asleep s.workers i w
  have hbl := tally_update (Worker.behind s.mem.gen) s.workers i w
  have hclosed : s.opened = false → w.behind s.mem.gen = false ∧ d = s.mem.done := fun h0 => by
    rw [h.jobs.closed h0 i, Bool.toNat_false] at hd
    refine ⟨?_, by omega⟩
    by_contra hw'
    simp only [Bool.not_eq_false] at hw'
    rw [hw', Bool.toNat_true] at hd
    omega
  refine ⟨⟨h.awake.linked, h.awake.seq, ?_, ?_⟩, ⟨?_, ?_, ?_, h.jobs.stopped⟩, ?_⟩
  · have := h.awake.sleeping
    dsimp only
    omega
  · exact forall_update
      (fun v => v.pc = .blocked → v.seen = s.mem.gen ∧ s.mem.stop = false ∨ Waking s.code)
      hb h.awake.blocked
  · obtain ⟨a, ha, hsafe⟩ := h.jobs.main
    refine ⟨a, ⟨ha.inflight, ha.opened, ha.job, ha.ready, fun hz => ?_, ha.stop⟩, hsafe⟩
    obtain ⟨h0, hdone⟩ := ha.zero hz
    exact ⟨h0, (hclosed h0).2.trans hdone⟩
  · intro hopen
    have := h.jobs.opened hopen
    dsimp only
    omega
  · intro h0
    exact forall_update (Worker.behind s.mem.gen · = false) (hclosed h0).1 (h.jobs.closed h0)
  · exact forall_update (Worker.Ok _) (hok.later rfl (Nat.le_refl _) id)
      fun j => (h.workers j).later rfl (Nat.le_refl _) id

/-- So does a worker that wakes up by itself. -/
theorem Ok.wake {s : State n} (h : Ok s) (i : Fin n) :
    Ok { s with workers := Function.update s.workers i (s.workers i).woken } := by
  have hsl := tally_update Worker.asleep s.workers i (s.workers i).woken
  have hbl := tally_update (Worker.behind s.mem.gen) s.workers i (s.workers i).woken
  rw [Worker.asleep_woken] at hsl
  rw [Worker.behind_woken] at hbl
  refine ⟨⟨h.awake.linked, h.awake.seq, ?_, ?_⟩, ⟨?_, ?_, ?_, h.jobs.stopped⟩, ?_⟩
  · have := h.awake.sleeping
    dsimp only
    omega
  · exact forall_update
      (fun v => v.pc = .blocked → v.seen = s.mem.gen ∧ s.mem.stop = false ∨ Waking s.code)
      (fun hb => absurd hb (Worker.woken_ne_blocked _)) h.awake.blocked
  · obtain ⟨a, ha, hsafe⟩ := h.jobs.main
    exact ⟨a, ⟨ha.inflight, ha.opened, ha.job, ha.ready, ha.zero, ha.stop⟩, hsafe⟩
  · intro hopen
    have := h.jobs.opened hopen
    dsimp only
    omega
  · intro h0
    refine forall_update (Worker.behind s.mem.gen · = false) ?_ (h.jobs.closed h0)
    rw [Worker.behind_woken]
    exact h.jobs.closed h0 i
  · exact forall_update (Worker.Ok s.mem) (h.workers i).woken h.workers

/-! ### A statement of the main thread -/

/-- A statement that has nothing to do with waking the workers. -/
def Stmt.quiet : Stmt → Bool
  | .incGen | .incSeq | .checkSleepers | .wakeAll | .setStop => false
  | _ => true

/-- Such a statement leaves the workers as awake as they were. -/
theorem Awake.quiet {s s' : State n} {x : Stmt} {c : List Stmt} (h : Awake s)
    (hc : s.code = x :: c) (hx : x.quiet = true) (hc' : s'.code = c)
    (hgen : s'.mem.gen = s.mem.gen) (hseq : s'.mem.seq = s.mem.seq)
    (hstop : s'.mem.stop = s.mem.stop) (hsl : s'.mem.nSleeping = s.mem.nSleeping)
    (hw : s'.workers = s.workers) : Awake s' := by
  obtain ⟨hl, hs, hsleep, hblocked⟩ := h
  rw [hc] at hl hs hblocked
  have hhead : c.head? ≠ some .incSeq := fun h0 => by
    rcases hl.1.mp h0 with rfl | rfl <;> simp [Stmt.quiet] at hx
  refine ⟨hc' ▸ hl.2.2, ?_, by rw [hsl, hw, hsleep], fun i hi => ?_⟩
  · rw [if_neg (by simpa using by rintro rfl; simp [Stmt.quiet] at hx)] at hs
    rw [hc', if_neg hhead, hgen, hseq, hstop, hs]
  · rw [hw, hgen, hstop]
    rw [hw] at hi
    refine .inl ((hblocked i hi).resolve_right ?_)
    rintro (h0 | h0 | h0)
    all_goals
      obtain rfl := Option.some.inj h0
      simp [Stmt.quiet] at hx

/-- After the wait, every worker has done its job. -/
theorem Jobs.all_done {s : State n} (h : Jobs s) (hn : n ≤ s.mem.done) (i : Fin n) :
    (s.workers i).behind s.mem.gen = false := by
  cases hopen : s.opened with
  | false => exact h.closed hopen i
  | true =>
    have := h.opened hopen
    exact tally_eq_zero.mp (by omega) i

/-- With a new generation, every worker has a job to do. -/
theorem tally_behind_succ {s : State n} (h : ∀ i, (s.workers i).Ok s.mem) :
    tally (Worker.behind (s.mem.gen + 1)) s.workers = n := by
  have hall : ∀ i, (s.workers i).behind (s.mem.gen + 1) = true := fun i => by
    have := (h i).seenLe
    have hne : (s.workers i).seen ≠ s.mem.gen + 1 := by omega
    simp [Worker.behind, hne]
  rw [tally_eq_card hall, Fintype.card_fin]

/-- The statements that set up a job, and those that wait for one. -/
theorem Ok.quiet {s s' : State n} {x : Stmt} {c : List Stmt} (h : Ok s) (hc : s.code = x :: c)
    (hx : x.quiet = true) (he : x.run s c = some s') : Ok s' := by
  obtain ⟨⟨a, ha, hsafe⟩, hopened, hclosed, hstopped⟩ := h.jobs
  have hworkers := h.workers
  rw [hc] at hsafe
  -- the statements before the opening are run with no job open
  have hnone (h0 : a.opened = false) : s.opened ≠ true := by
    rw [← ha.opened, h0]
    simp
  have hlater {m : Mem} (hm : (m.gen, m.seq, m.stop) = (s.mem.gen, s.mem.seq, s.mem.stop))
      (i : Fin n) : (s.workers i).Ok m := by
    simp only [Prod.mk.injEq] at hm
    exact (hworkers i).later hm.1 (Nat.le_of_eq hm.2.1.symm) fun hst => hm.2.2.trans hst
  cases x with
  | incGen | incSeq | checkSleepers | wakeAll | setStop => simp [Stmt.quiet] at hx
  | waitDone =>
    obtain ⟨hn, he⟩ := Option.ite_none_right_eq_some.mp he
    obtain rfl := Option.some.inj he
    -- every worker has reported, so the job is closed
    refine ⟨h.awake.quiet hc rfl rfl rfl rfl rfl rfl rfl, ⟨⟨{ a with opened := false }, ?_, hsafe⟩,
      by simp, fun _ => h.jobs.all_done hn, by simp⟩, hworkers⟩
    exact ⟨ha.inflight, rfl, ha.job, fun _ => rfl, fun hz => ⟨rfl, (ha.zero hz).2⟩, ha.stop⟩
  | endPrefetch =>
    obtain rfl := Option.some.inj he
    obtain ⟨h0, hsafe⟩ := hsafe
    refine ⟨h.awake.quiet hc rfl rfl rfl rfl rfl rfl rfl, ⟨⟨{ a with inflight := false }, ?_,
      hsafe⟩, hopened, hclosed, fun _ h1 => absurd h1 (hnone h0)⟩, hlater rfl⟩
    exact ⟨rfl, ha.opened, ha.job, ha.ready, ha.zero, ha.stop⟩
  | setJob =>
    obtain rfl := Option.some.inj he
    obtain ⟨h0, hr, hsafe⟩ := hsafe
    have hjob : s.mem.job = s.mem.gen := by simpa [hr] using ha.job
    refine ⟨h.awake.quiet hc rfl rfl rfl rfl rfl rfl rfl, ⟨⟨{ a with ready := true }, ?_,
      hsafe⟩, hopened, hclosed, hstopped⟩, hlater rfl⟩
    exact ⟨ha.inflight, ha.opened, by simp [hjob], fun _ => by simpa using hnone h0, ha.zero,
      ha.stop⟩
  | clearDone =>
    obtain rfl := Option.some.inj he
    obtain ⟨h0, hsafe⟩ := hsafe
    refine ⟨h.awake.quiet hc rfl rfl rfl rfl rfl rfl rfl, ⟨⟨{ a with zero := true }, ?_, hsafe⟩,
      fun h1 => absurd h1 (hnone h0), hclosed, hstopped⟩, hlater rfl⟩
    exact ⟨ha.inflight, ha.opened, ha.job, ha.ready, fun _ => ⟨by simpa using hnone h0, rfl⟩,
      ha.stop⟩
  | setInflight =>
    obtain rfl := Option.some.inj he
    refine ⟨h.awake.quiet hc rfl rfl rfl rfl rfl rfl rfl, ⟨⟨{ a with inflight := true }, ?_,
      hsafe.2⟩, hopened, hclosed, fun _ _ => rfl⟩, hlater rfl⟩
    exact ⟨rfl, ha.opened, ha.job, ha.ready, ha.zero, ha.stop⟩
  | join =>
    obtain ⟨-, he⟩ := Option.ite_none_right_eq_some.mp he
    obtain rfl := Option.some.inj he
    refine ⟨h.awake.quiet hc rfl rfl rfl rfl rfl rfl rfl, ⟨⟨a, ?_, hsafe⟩, hopened, hclosed,
      hstopped⟩, hworkers⟩
    exact ⟨ha.inflight, ha.opened, ha.job, ha.ready, ha.zero, ha.stop⟩

/-- `P.gen.fetch_add(1)`: every worker gets a job, and none was at one. -/
theorem Ok.incGen {s : State n} {c : List Stmt} (h : Ok s) (hc : s.code = .incGen :: c) :
    Ok { s with code := c, mem := { s.mem with gen := s.mem.gen + 1 }, opened := true } := by
  obtain ⟨⟨a, ha, hsafe⟩, -, hclosed, -⟩ := h.jobs
  have hl := h.awake.linked
  have hseq := h.awake.seq
  rw [hc] at hsafe hl hseq
  obtain ⟨hr, hz, hst, hsafe⟩ := hsafe
  obtain ⟨h0, hdone⟩ := ha.zero hz
  have hhead : c.head? = some .incSeq := hl.1.mpr (.inl rfl)
  have hjob : s.mem.job = s.mem.gen + 1 := by simpa [hr] using ha.job
  refine ⟨⟨hl.2.2, ?_, h.awake.sleeping, fun _ _ => .inr (.inl hhead)⟩,
    ⟨⟨{ a with opened := true, ready := false, zero := false }, ?_, hsafe⟩, ?_, by simp, ?_⟩,
    fun i => (h.workers i).kick (hclosed h0 i)⟩
  · dsimp only
    rw [if_pos hhead]
    simp only [List.head?_cons, Option.some.injEq, reduceCtorEq, if_false] at hseq
    omega
  · exact ⟨ha.inflight, rfl, hjob, by simp, by simp, ha.stop⟩
  · intro _
    dsimp only
    rw [tally_behind_succ h.workers, hdone, Nat.zero_add]
  · intro hst'
    exact absurd hst' (by simp [← ha.stop, hst])

/-- `P->stop.store(true)`. -/
theorem Ok.setStop {s : State n} {c : List Stmt} (h : Ok s) (hc : s.code = .setStop :: c) :
    Ok { s with code := c, mem := { s.mem with stop := true } } := by
  obtain ⟨⟨a, ha, hsafe⟩, hopened, hclosed, -⟩ := h.jobs
  have hl := h.awake.linked
  have hseq := h.awake.seq
  rw [hc] at hsafe hl hseq
  obtain ⟨hoi, hst, hsafe⟩ := hsafe
  have hhead : c.head? = some .incSeq := hl.1.mpr (.inr rfl)
  refine ⟨⟨hl.2.2, ?_, h.awake.sleeping, fun _ _ => .inr (.inl hhead)⟩,
    ⟨⟨{ a with stop := true }, ?_, hsafe⟩, hopened, hclosed, ?_⟩,
    fun i => (h.workers i).later rfl (Nat.le_refl _) fun _ => rfl⟩
  · dsimp only
    rw [if_pos hhead]
    simpa [← ha.stop, hst] using hseq
  · exact ⟨ha.inflight, ha.opened, ha.job, ha.ready, ha.zero, rfl⟩
  · intro _ hopen
    dsimp only
    rw [← ha.inflight, ← hoi, ha.opened, hopen]

/-- `P.wake_seq.fetch_add(1)`: whoever sleeps on the old word is about to be woken. -/
theorem Ok.incSeq {s : State n} {c : List Stmt} (h : Ok s) (hc : s.code = .incSeq :: c) :
    Ok { s with code := c, mem := { s.mem with seq := s.mem.seq + 1 } } := by
  obtain ⟨⟨a, ha, hsafe⟩, hopened, hclosed, hstopped⟩ := h.jobs
  have hl := h.awake.linked
  have hseq := h.awake.seq
  rw [hc] at hsafe hl hseq
  have hhead : c.head? ≠ some .incSeq := fun h0 => by simpa using hl.1.mp h0
  refine ⟨⟨hl.2.2, ?_, h.awake.sleeping, fun _ _ => .inr (.inr (hl.2.1 rfl))⟩,
    ⟨⟨a, ?_, hsafe⟩, hopened, hclosed, hstopped⟩,
    fun i => (h.workers i).later rfl (Nat.le_succ _) id⟩
  · dsimp only
    rw [if_neg hhead]
    simpa using hseq
  · exact ⟨ha.inflight, ha.opened, ha.job, ha.ready, ha.zero, ha.stop⟩

/-- `if (P.n_sleeping.load(..) > 0)`: a worker that sleeps is counted. -/
theorem Ok.checkSleepers {s : State n} {c : List Stmt} (h : Ok s)
    (hc : s.code = .checkSleepers :: c) :
    Ok { s with code := if 0 < s.mem.nSleeping then .wakeAll :: c else c } := by
  obtain ⟨⟨a, ha, hsafe⟩, hopened, hclosed, hstopped⟩ := h.jobs
  have hl := h.awake.linked
  have hseq := h.awake.seq
  rw [hc] at hsafe hl hseq
  have hhead : c.head? ≠ some .incSeq := fun h0 => by simpa using hl.1.mp h0
  have hof (t : State n) (ht : t.mem = s.mem) (ht' : t.opened = s.opened) : a.Of t :=
    ⟨ht ▸ ha.inflight, ht' ▸ ha.opened, ht ▸ ha.job, ht' ▸ ha.ready, ht ▸ ht' ▸ ha.zero,
      ht ▸ ha.stop⟩
  split_ifs with hsl
  · refine ⟨⟨⟨by simpa using hhead, by simp, hl.2.2⟩, ?_, h.awake.sleeping,
      fun _ _ => .inr (.inr (.inr rfl))⟩, ⟨⟨a, hof _ rfl rfl, hsafe⟩, hopened, hclosed, hstopped⟩,
      h.workers⟩
    simpa using hseq
  · refine ⟨⟨hl.2.2, ?_, h.awake.sleeping, fun i hi => ?_⟩,
      ⟨⟨a, hof _ rfl rfl, hsafe⟩, hopened, hclosed, hstopped⟩, h.workers⟩
    · dsimp only
      rw [if_neg hhead]
      simpa using hseq
    · have hi' : (s.workers i).asleep = true := by
        dsimp only at hi
        simp [Worker.asleep, hi]
      exact absurd (h.awake.sleeping ▸ tally_pos hi') hsl

/-- `futex_wake_all(&P.wake_seq)`: nobody sleeps after it. -/
theorem Ok.wakeAll {s : State n} {c : List Stmt} (h : Ok s) (hc : s.code = .wakeAll :: c) :
    Ok { s with code := c, workers := fun i => (s.workers i).woken } := by
  obtain ⟨⟨a, ha, hsafe⟩, hopened, hclosed, hstopped⟩ := h.jobs
  have hl := h.awake.linked
  have hseq := h.awake.seq
  rw [hc] at hsafe hl hseq
  have hhead : c.head? ≠ some .incSeq := fun h0 => by simpa using hl.1.mp h0
  have hsl : tally Worker.asleep (fun i => (s.workers i).woken) = tally Worker.asleep s.workers :=
    tally_congr fun i => (s.workers i).asleep_woken
  have hbl : tally (Worker.behind s.mem.gen) (fun i => (s.workers i).woken) =
      tally (Worker.behind s.mem.gen) s.workers :=
    tally_congr fun i => (s.workers i).behind_woken _
  refine ⟨⟨hl.2.2, ?_, h.awake.sleeping.trans hsl.symm,
    fun i hi => absurd hi (Worker.woken_ne_blocked _)⟩,
    ⟨⟨a, ?_, hsafe⟩, fun h1 => by rw [hbl]; exact hopened h1, fun h0 i => ?_, hstopped⟩,
    fun i => (h.workers i).woken⟩
  · dsimp only
    rw [if_neg hhead]
    simpa using hseq
  · exact ⟨ha.inflight, ha.opened, ha.job, ha.ready, ha.zero, ha.stop⟩
  · dsimp only
    rw [Worker.behind_woken]
    exact hclosed h0 i

/-- A statement of the main thread keeps the invariant. -/
theorem Ok.main {s s' : State n} {x : Stmt} {c : List Stmt} (h : Ok s) (hc : s.code = x :: c)
    (he : x.run s c = some s') : Ok s' := by
  cases hx : x.quiet with
  | true => exact h.quiet hc hx he
  | false =>
    cases x with
    | incGen => exact Option.some.inj he ▸ h.incGen hc
    | incSeq => exact Option.some.inj he ▸ h.incSeq hc
    | checkSleepers => exact Option.some.inj he ▸ h.checkSleepers hc
    | wakeAll => exact Option.some.inj he ▸ h.wakeAll hc
    | setStop => exact Option.some.inj he ▸ h.setStop hc
    | _ => simp [Stmt.quiet] at hx

/-- A call that begins keeps the invariant: all calls before it have returned. -/
theorem Ok.call {s : State n} (h : Ok s) (hc : s.code = []) (hs : s.mem.stop = false) (c : Call) :
    Ok { s with code := callBody s.mem c } := by
  obtain ⟨⟨a, ha, hsafe⟩, hopened, hclosed, hstopped⟩ := h.jobs
  obtain ⟨hl, hhead⟩ := linked_callBody s.mem c
  have hseq := h.awake.seq
  rw [hc] at hsafe hseq
  refine ⟨⟨hl, ?_, h.awake.sleeping, fun i hi => .inl ?_⟩, ⟨⟨a, ?_, ?_⟩, hopened, hclosed,
    hstopped⟩, h.workers⟩
  · dsimp only
    rw [if_neg hhead]
    simpa using hseq
  · exact (h.awake.blocked i hi).resolve_right (by simp [hc, Waking])
  · exact ⟨ha.inflight, ha.opened, ha.job, ha.ready, ha.zero, ha.stop⟩
  · exact safe_callBody s.mem c ha.inflight hsafe.1 hsafe.2 (ha.stop.trans hs)

/-- A new pool satisfies the invariant. -/
theorem ok_fresh (n : ℕ) : Ok (State.fresh n) := by
  refine ⟨⟨trivial, rfl, ?_, ?_⟩, ⟨⟨⟨false, false, false, false, false⟩, ?_, rfl, rfl⟩, ?_, ?_, ?_⟩,
    fun i => ⟨Nat.le_refl _, Nat.zero_le _, rfl, trivial⟩⟩
  · exact (tally_eq_zero.mpr fun _ => rfl).symm
  · simp [State.fresh]
  · exact ⟨rfl, rfl, rfl, by simp, by simp, rfl⟩
  · simp [State.fresh]
  · exact fun _ _ => rfl
  · simp [State.fresh]

/-- The invariant holds in every run. -/
theorem Ok.holds {s : State n} (hs : (pool n).Reachable s) : Ok s := by
  refine TransitionSystem.Invariant.holds ⟨?_, ?_⟩ hs
  · rintro s rfl
    exact ok_fresh n
  · intro s a t _ h hstep
    cases a with
    | call c =>
      obtain ⟨⟨hc, hst⟩, he⟩ := Option.ite_none_right_eq_some.mp hstep
      exact Option.some.inj he ▸ h.call hc hst c
    | main =>
      change step s .main = some t at hstep
      cases hc : s.code with
      | nil => simp [step, hc] at hstep
      | cons x c => exact h.main hc (by simpa [step, hc] using hstep)
    | work i long =>
      obtain ⟨⟨m, w⟩, he, rfl⟩ := Option.map_eq_some_iff.mp hstep
      exact h.work he
    | wake i =>
      obtain ⟨-, he⟩ := Option.ite_none_right_eq_some.mp hstep
      exact Option.some.inj he ▸ h.wake i

/-! ### What follows for the workers -/

/-- A worker that sleeps has seen the generation and no stop, or is about to be woken. -/
theorem Ok.wakes {s : State n} (h : Ok s) {i : Fin n} (hb : (s.workers i).pc = .blocked)
    (hne : s.mem.gen ≠ (s.workers i).seen ∨ s.mem.stop = true) :
    Wakes s.mem.nSleeping s.code := by
  have hsl : (s.workers i).asleep = true := by simp [Worker.asleep, hb]
  refine Waking.wakes ((h.awake.blocked i hb).resolve_left ?_) h.awake.linked
    (h.awake.sleeping ▸ tally_pos hsl)
  rintro ⟨hseen, hst⟩
  rcases hne with hne | hne
  · exact hne hseen.symm
  · simp [hst] at hne

/-- A worker has run the jobs in order, each once, and at most the last is missing. -/
theorem Worker.Ok.jobs {m : Mem} {w : Worker} (h : w.Ok m) :
    w.ran = List.range' 1 w.ran.length ∧ w.ran.length ≤ m.gen ∧ m.gen ≤ w.ran.length + 1 := by
  have hran := h.ran
  have hle := h.seenLe
  have hge := h.genLe
  have hlen := congrArg List.length hran
  split_ifs at hran hlen with hp
  · have hseen : w.seen = m.gen := by
      have := h.knows
      rwa [hp] at this
    simp only [List.length_append, List.length_cons, List.length_nil, List.length_range'] at hlen
    refine ⟨?_, by omega, by omega⟩
    rw [← hlen, List.range'_concat] at hran
    exact (List.append_inj' hran rfl).1
  · simp only [List.append_nil, List.length_range'] at hran hlen
    exact ⟨by rw [hlen]; exact hran, by omega, by omega⟩

/-- A worker that is not behind has run them all, and does not start one. -/
theorem Worker.Ok.length_eq {m : Mem} {w : Worker} (h : w.Ok m)
    (hb : w.behind m.gen = false) : w.ran.length = m.gen ∧ w.pc ≠ .start := by
  simp only [Worker.behind, Bool.or_eq_false_iff, bne_eq_false_iff_eq] at hb
  have hp : w.pc ≠ .start := fun hp => by simp [hp, Pc.working] at hb
  refine ⟨?_, hp⟩
  have := congrArg List.length h.ran
  simpa [hp, hb.1] using this

/-- Outside a prefetch, a stop or the return of a call finds every worker done. -/
theorem Ok.not_behind {s : State n} (h : Ok s) (hi : s.mem.inflight = false)
    (hs : s.mem.stop = true ∨ s.code = []) (i : Fin n) :
    (s.workers i).behind s.mem.gen = false := by
  refine h.jobs.closed ?_ i
  rcases hs with hs | hs
  · by_contra hopen
    exact absurd (h.jobs.stopped hs (by simpa using hopen)) (by simp [hi])
  · obtain ⟨a, ha, hsafe⟩ := h.jobs.main
    rw [hs] at hsafe
    rw [← ha.opened, hsafe.1, ha.inflight, hi]

/-- **The pool loses no wake-up.** A worker that is blocked although there is a new generation or a
stop is woken by the next statements of the main thread. Every worker runs the jobs in order, each
once, and is at most one behind; when a call has returned with no prefetch in flight it has run
all of them, and so it has when the pool was stopped then, and starts no other. -/
theorem no_lost_wakeup {s : State n} (hs : (pool n).Reachable s) :
    (∀ i, (s.workers i).pc = .blocked →
      s.mem.gen ≠ (s.workers i).seen ∨ s.mem.stop = true → Wakes s.mem.nSleeping s.code) ∧
    (∀ i, (s.workers i).ran = List.range' 1 (s.workers i).ran.length ∧
      (s.workers i).ran.length ≤ s.mem.gen ∧ s.mem.gen ≤ (s.workers i).ran.length + 1) ∧
    (s.mem.inflight = false → s.mem.stop = true ∨ s.code = [] →
      ∀ i, (s.workers i).ran.length = s.mem.gen ∧ (s.workers i).pc ≠ .start) := by
  have h := Ok.holds hs
  exact ⟨fun i hb hne => h.wakes hb hne, fun i => (h.workers i).jobs,
    fun hi hst i => (h.workers i).length_eq (h.not_behind hi hst i)⟩

/-- A run of a pool of one worker that was just created. -/
theorem exists_reachable_one (as : List (Act 1)) (P : State 1 → Bool)
    (h : (TransitionSystem.replay step (State.fresh 1) as).any P = true) :
    ∃ s, (pool 1).Reachable s ∧ P s = true := by
  obtain ⟨t, ht, hP⟩ := (Option.any_eq_true _ _).mp h
  exact ⟨t, TransitionSystem.Reachable.replay (.start rfl) ht, hP⟩

/-- A worker that went to sleep just before a kick. -/
theorem no_lost_wakeup_asleep : ∃ s : State 1, (s.workers 0).pc = .blocked ∧
    s.mem.gen ≠ (s.workers 0).seen ∧ Wakes s.mem.nSleeping s.code := by
  obtain ⟨s, hs, hP⟩ := exists_reachable_one
    (List.replicate 8 (.work 0 true) ++ .call .expertsForward :: List.replicate 3 .main)
    (fun s => decide ((s.workers 0).pc = .blocked ∧ s.mem.gen ≠ (s.workers 0).seen)) (by rfl)
  obtain ⟨hb, hne⟩ := of_decide_eq_true hP
  exact ⟨s, hb, hne, (no_lost_wakeup hs).1 0 hb (.inl hne)⟩

/-- A destroy with a prefetch in flight: a worker that has not come to it leaves without it, and
one that was about to start it does so although the pool is stopped. -/
theorem prefetch_dropped :
    (∃ s, (pool 1).Reachable s ∧
      (s.workers 0).pc = .exited ∧ s.mem.gen = 1 ∧ (s.workers 0).ran = []) ∧
    ∃ s, (pool 1).Reachable s ∧ s.mem.stop = true ∧ (s.workers 0).ran = [] ∧
      (step s (.work 0 false)).map (fun t => (t.workers 0).ran) = some [1] := by
  constructor
  · obtain ⟨s, hs, hP⟩ := exists_reachable_one
      (.call .prefetchStart :: List.replicate 6 .main ++ [.call .destroy, .main, .work 0 false])
      (fun s => decide ((s.workers 0).pc = .exited ∧ s.mem.gen = 1 ∧ (s.workers 0).ran = []))
      (by rfl)
    exact ⟨s, hs, of_decide_eq_true hP⟩
  · obtain ⟨s, hs, hP⟩ := exists_reachable_one
      (.work 0 false :: .call .prefetchStart :: List.replicate 6 .main ++
        [.work 0 false, .call .destroy, .main])
      (fun s => decide (s.mem.stop = true ∧ (s.workers 0).ran = [] ∧
        (step s (.work 0 false)).map (fun t => (t.workers 0).ran) = some [1])) (by rfl)
    exact ⟨s, hs, of_decide_eq_true hP⟩

end CpuMoe

end VllmMoet
