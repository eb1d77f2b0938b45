import Mathlib.Order.WellFounded
import VllmMoet.PrefillPipe.Turns

/-!
# `PipeStep.run` is a coroutine scheduler

* `sched_invariant`: where the runner stands, and whose turn it is;
* `step_shrinks`: every step shortens a function, or else the statements that are left;
* `run_correct`: one group at a time, each with its own globals; the run ends, with the
  runner's globals as they were and with both outputs or the error of the smallest failed
  group.
-/

namespace VllmMoet

namespace PrefillPipe

variable {R V E : Type*}

/-! ### What is left to do -/

/-- A function goes on as one of the functions below it. -/
inductive Below : Prog R V E → Prog R V E → Prop
  | look (k : View R → Prog R V E) (w : View R) : Below (k w) (.look k)
  | leave (w : View R) (k : Prog R V E) : Below k (.leave w k)
  | choose (k : ℕ → Prog R V E) (n : ℕ) : Below (k n) (.choose k)
  | call (c : Call) (k : Option (PipeError E) → Prog R V E) (e : Option (PipeError E)) :
    Below (k e) (.call c k)

/-- What is left of a thread's function gets shorter: it ends, or goes on. -/
inductive Shorter : Option (Prog R V E) → Option (Prog R V E) → Prop
  | ended (p : Prog R V E) : Shorter none (some p)
  | below {p q : Prog R V E} (h : Below p q) : Shorter (some p) (some q)

/-- A function has no infinite run. -/
theorem shorter_wf : WellFounded (Shorter : Option (Prog R V E) → Option (Prog R V E) → Prop) := by
  have hnone : Acc Shorter (none : Option (Prog R V E)) := ⟨_, fun q hq => by cases hq⟩
  -- below a function are its end and what it goes on as
  have hsome : ∀ p : Prog R V E, (∀ q, Below q p → Acc Shorter (some q)) →
      Acc Shorter (some p) := by
    intro p hp
    refine ⟨_, fun q hq => ?_⟩
    cases hq with
    | ended => exact hnone
    | below h => exact hp _ h
  refine ⟨fun p => ?_⟩
  rcases p with _ | p
  · exact hnone
  · induction p with
    | ret v => exact hsome _ fun q hq => by cases hq
    | raise e => exact hsome _ fun q hq => by cases hq
    | look k ih =>
      refine hsome _ fun q hq => ?_
      cases hq with
      | look _ w => exact ih w
    | leave w k ih =>
      refine hsome _ fun q hq => ?_
      cases hq with
      | leave => exact ih
    | choose k ih =>
      refine hsome _ fun q hq => ?_
      cases hq with
      | choose _ n => exact ih n
    | call c k ih =>
      refine hsome _ fun q hq => ?_
      cases hq with
      | call _ _ e => exact ih e

/-- The test of `yield_` is worth the statements it may lead to. -/
def Stmt.weight : Stmt → ℕ
  | .test => 8
  | _ => 1

/-- The statements a thread has left. -/
def weight : List Stmt → ℕ
  | [] => 0
  | s :: code => s.weight + weight code

namespace Pipe

variable {C : Cfg} {S S' S₀ : Pipe R V E} {i j n : ℕ}

/-! ### Where the runner stands -/

/-- A group has the turn, or both have ended. -/
def Turns (S : Pipe R V E) : Prop := (∃ k, S.Turn k) ∨ (S.Over 0 ∧ S.Over 1)

/-- Both threads wait for their first turn. -/
def Before (S : Pipe R V E) : Prop := ∀ k < 2, S.Parked k ∧ S.wake k = false

/-- The runner has saved its globals. -/
def RunSaved (S₀ S : Pipe R V E) : Prop :=
  S.savedContext = S₀.context ∧ S.savedPin = S₀.pin

/-- Both threads have been started. -/
def BothStarted (S : Pipe R V E) : Prop := ∀ k < 2, S.started k = true

/-- What holds before each statement of `run`, begun in `S₀`. -/
inductive Sched (S₀ S : Pipe R V E) : List RunStmt → Prop
  | save (hb : S.Before) (hc : S.context = S₀.context) (hp : S.pin = S₀.pin) : Sched S₀ S runCode
  | start0 (hb : S.Before) (hs : RunSaved S₀ S) : Sched S₀ S (.start 0 :: runCode.drop 2)
  | start1 (hb : S.Before) (hs : RunSaved S₀ S) (h0 : S.started 0 = true) :
    Sched S₀ S (.start 1 :: runCode.drop 3)
  | wake (hb : S.Before) (hs : RunSaved S₀ S) (hst : S.BothStarted) :
    Sched S₀ S (.wake :: runCode.drop 4)
  | join0 (ht : S.Turns) (hs : RunSaved S₀ S) (hst : S.BothStarted) :
    Sched S₀ S (.join 0 :: runCode.drop 5)
  | join1 (ht : S.Turns) (hs : RunSaved S₀ S) (hst : S.BothStarted) (h0 : S.Over 0) :
    Sched S₀ S (.join 1 :: runCode.drop 6)
  | setContext (ho : S.Over 0 ∧ S.Over 1) (hs : RunSaved S₀ S) :
    Sched S₀ S [.setContext, .switchRows, .setPin, .result]
  | switchRows (ho : S.Over 0 ∧ S.Over 1) (hs : RunSaved S₀ S) (hc : S.context = S₀.context) :
    Sched S₀ S [.switchRows, .setPin, .result]
  | setPin (ho : S.Over 0 ∧ S.Over 1) (hs : RunSaved S₀ S) (hc : S.context = S₀.context)
    (hr : S.current = 0) : Sched S₀ S [.setPin, .result]
  | result (ho : S.Over 0 ∧ S.Over 1) (hc : S.context = S₀.context) (hr : S.current = 0)
    (hp : S.pin = S₀.pin) : Sched S₀ S [.result]
  | done (ho : S.Over 0 ∧ S.Over 1) (hc : S.context = S₀.context) (hr : S.current = 0)
    (hp : S.pin = S₀.pin) (ho : S.result = some S.outcome) : Sched S₀ S []

/-- Whose turn it is, and what the groups left. -/
structure RunOk (S₀ S : Pipe R V E) : Prop where
  rows : S.RowsOwn
  sched : Sched S₀ S S.runner

/-- A thread that waits, that has ended or that has not been started does not move. -/
theorem not_step_of_before (hb : S.Before) : S.stepThread C j n = none := by
  rcases lt_or_ge j 2 with hj | hj
  · obtain ⟨hp, hw⟩ := hb j hj
    exact hp.stuck hw
  · exact if_neg fun h => absurd h.1 (Nat.not_lt.mpr hj)

theorem not_step_of_over (ho : S.Over 0 ∧ S.Over 1) : S.stepThread C j n = none := by
  rcases j with _ | _ | j
  · exact ho.1.stuck
  · exact ho.2.stuck
  · exact if_neg fun h => absurd h.1 (by omega)

theorem Over.ended (h : S.Over i) (hst : S.started i = true) : S.ended i = true := by
  simp [Pipe.ended, hst, h.2.1, h.1.prog]

/-- A thread that has ended has left its `finally`. -/
theorem Turns.over_of_ended (h : S.Turns) (hi : i < 2) (he : S.ended i = true) : S.Over i := by
  simp only [Pipe.ended, Bool.and_eq_true, List.isEmpty_iff, Option.isNone_iff_eq_none] at he
  obtain ⟨⟨-, hcode⟩, hprog⟩ := he
  rcases h with ⟨k, hk⟩ | ⟨h0, h1⟩
  · obtain rfl | rfl := eq_or_eq_other hk.lt hi
    · rcases hk.holder with hrun | hend | ⟨hpark, -⟩
      · exact absurd hprog hrun.1.prog
      · rcases hend.2 with ⟨hfc, -⟩ | ⟨hfc, -⟩
        · rw [hcode] at hfc
          simp [finallyCode] at hfc
        · rw [hcode] at hfc
          simp at hfc
      · exact absurd hprog hpark.1.prog
    · rcases hk.rest with ⟨hpark, -⟩ | ho
      · exact absurd hprog hpark.1.prog
      · exact ho
  · obtain rfl | rfl : i = 0 ∨ i = 1 := by omega
    · exact h0
    · exact h1

theorem Turns.step (h : S.Turns) (hr : S.RowsOwn) (hs : S.stepThread C j n = some S') :
    S'.Turns ∧ S'.RowsOwn ∧ ∀ k < 2, S.Over k → S'.Over k := by
  rcases h with ⟨k, hk⟩ | ho
  · exact hk.step hr hs
  · rw [not_step_of_over ho] at hs
    simp at hs

/-- A thread's step keeps the schedule. -/
theorem RunOk.thread (h : RunOk S₀ S) (hs : S.stepThread C j n = some S') : RunOk S₀ S' := by
  obtain ⟨hr, hsched⟩ := h
  obtain ⟨hstarted, hrunner, ⟨hsc, hsp⟩, -⟩ := stepThread_kept hs
  have hsaved : RunSaved S₀ S → RunSaved S₀ S' := fun ⟨hc, hp⟩ => ⟨hsc.trans hc, hsp.trans hp⟩
  have hboth : S.BothStarted → S'.BothStarted := fun hst k hk => by
    rw [hstarted]
    exact hst k hk
  generalize hR : S.runner = code at hsched
  cases hsched with
  | join0 ht hs' hst =>
    obtain ⟨ht', hr', -⟩ := ht.step hr hs
    refine ⟨hr', ?_⟩
    rw [hrunner, hR]
    exact .join0 ht' (hsaved hs') (hboth hst)
  | join1 ht hs' hst h0 =>
    obtain ⟨ht', hr', hover⟩ := ht.step hr hs
    refine ⟨hr', ?_⟩
    rw [hrunner, hR]
    exact .join1 ht' (hsaved hs') (hboth hst) (hover 0 Nat.two_pos h0)
  | save hb | start0 hb | start1 hb | wake hb =>
    rw [not_step_of_before hb] at hs
    simp at hs
  | setContext ho | switchRows ho | setPin ho | result ho | done ho =>
    rw [not_step_of_over ho] at hs
    simp at hs

theorem Turns.setRunner (h : S.Turns) (runner : List RunStmt) :
    { S with runner := runner }.Turns :=
  h.imp (fun ⟨k, hk⟩ => ⟨k, hk.setRunner runner⟩) fun ⟨h0, h1⟩ =>
    ⟨h0.same ⟨rfl, rfl, rfl, rfl, rfl, rfl⟩, h1.same ⟨rfl, rfl, rfl, rfl, rfl, rfl⟩⟩

/-- A statement of the runner's leaves the groups and their threads alone. -/
theorem execRun_same {s : RunStmt} {rest : List RunStmt} (hs : S.execRun rest s = some S')
    (k : ℕ) : Same S S' k := by
  cases s with
  | join i =>
    rw [execRun] at hs
    split at hs
    · exact Option.some.inj hs ▸ ⟨rfl, rfl, rfl, rfl, rfl, rfl⟩
    · simp at hs
  | _ => exact Option.some.inj hs ▸ ⟨rfl, rfl, rfl, rfl, rfl, rfl⟩

/-- A statement of the runner's keeps the schedule. -/
theorem RunOk.run (h : RunOk S₀ S) (hs : S.stepRun = some S') : RunOk S₀ S' := by
  obtain ⟨hr, hsched⟩ := h
  rw [stepRun] at hs
  generalize hR : S.runner = code at hsched hs
  have hover : ∀ {s : RunStmt} {rest : List RunStmt}, S.execRun rest s = some S' →
      S.Over 0 ∧ S.Over 1 → S'.Over 0 ∧ S'.Over 1 := fun hs ho =>
    ⟨ho.1.same (execRun_same hs 0), ho.2.same (execRun_same hs 1)⟩
  have hbefore : ∀ {s : RunStmt} {rest : List RunStmt}, S.execRun rest s = some S' →
      S'.wake = S.wake → S.Before → S'.Before := fun hs hw hb k hk =>
    ⟨(hb k hk).1.same (execRun_same hs k), hw ▸ (hb k hk).2⟩
  cases hsched with
  | save hb hc hp =>
    have hb' := hbefore hs (by obtain rfl := Option.some.inj hs; rfl) hb
    obtain rfl := Option.some.inj hs
    exact ⟨hr, .start0 hb' ⟨hc, hp⟩⟩
  | start0 hb hsv =>
    have hb' := hbefore hs (by obtain rfl := Option.some.inj hs; rfl) hb
    obtain rfl := Option.some.inj hs
    exact ⟨hr, .start1 hb' hsv (by simp)⟩
  | start1 hb hsv h0 =>
    have hb' := hbefore hs (by obtain rfl := Option.some.inj hs; rfl) hb
    obtain rfl := Option.some.inj hs
    refine ⟨hr, .wake hb' hsv fun k hk => ?_⟩
    obtain rfl | rfl : k = 0 ∨ k = 1 := by omega
    · simpa using h0
    · simp
  | wake hb hsv hst =>
    have hsame := execRun_same hs
    obtain rfl := Option.some.inj hs
    -- the first thread is woken up, and gets the turn
    obtain ⟨hp0, -⟩ := hb 0 Nat.two_pos
    obtain ⟨hp1, hw1⟩ := hb 1 Nat.one_lt_two
    refine ⟨hr, .join0 (.inl ⟨0, Nat.two_pos, .inr (.inr ⟨hp0.same (hsame 0), ?_⟩),
      .inl ⟨hp1.same (hsame 1), ?_⟩⟩) hsv hst⟩
    · simp
    · exact hw1
  | join0 ht hsv hst =>
    simp only [execRun] at hs
    split at hs
    · next he =>
      obtain rfl := Option.some.inj hs
      -- one thread has ended, so the turn is over for it only
      exact ⟨hr, .join1 (ht.setRunner _) hsv hst ((ht.over_of_ended Nat.two_pos he).same
        ⟨rfl, rfl, rfl, rfl, rfl, rfl⟩)⟩
    · simp at hs
  | join1 ht hsv hst h0 =>
    simp only [execRun] at hs
    split at hs
    · next he =>
      obtain rfl := Option.some.inj hs
      -- now both are over
      have ho := ht.over_of_ended Nat.one_lt_two he
      exact ⟨hr, .setContext ⟨h0.same ⟨rfl, rfl, rfl, rfl, rfl, rfl⟩,
        ho.same ⟨rfl, rfl, rfl, rfl, rfl, rfl⟩⟩ hsv⟩
    · simp at hs
  | setContext ho hsv =>
    have ho' := hover hs ho
    obtain rfl := Option.some.inj hs
    exact ⟨hr, .switchRows ho' hsv hsv.1⟩
  | switchRows ho hsv hc =>
    have ho' := hover hs ho
    obtain rfl := Option.some.inj hs
    exact ⟨hr, .setPin ho' hsv hc rfl⟩
  | setPin ho hsv hc hcur =>
    have ho' := hover hs ho
    obtain rfl := Option.some.inj hs
    exact ⟨hr, .result ho' hc hcur hsv.2⟩
  | result ho hc hcur hp =>
    have ho' := hover hs ho
    obtain rfl := Option.some.inj hs
    exact ⟨hr, .done ho' hc hcur hp rfl⟩
  | done => simp at hs

/-- Both threads of a fresh step wait for their first turn. -/
theorem before_of_fresh {contexts : ℕ → ℕ} {fns : ℕ → Prog R V E} (h0 : Fresh C contexts fns S₀) :
    S₀.Before := by
  refine fun k _ => ⟨⟨⟨?_, h0.finished k, h0.outputs k, h0.errors k⟩, ⟨?_, ?_, ?_⟩, ?_⟩, h0.wake k⟩
  · simp [h0.threads]
  · simp [h0.groups, h0.own]
  · simp [h0.groups, h0.own]
  · simp [h0.groups, h0.own]
  · simp [h0.threads]

/-- Every reachable state keeps the schedule. -/
theorem sched_invariant {contexts : ℕ → ℕ} {fns : ℕ → Prog R V E}
    (h0 : Fresh C contexts fns S₀) : (pipeSystem C S₀).Invariant (RunOk S₀) where
  start S hS := by
    obtain rfl : S = S₀ := hS
    refine ⟨fun k => by rw [h0.own], ?_⟩
    rw [h0.runner]
    exact .save (before_of_fresh h0) rfl rfl
  step S a S' _ h hs := by
    cases a with
    | run => exact h.run hs
    | thread j n => exact h.thread hs

/-! ### The run ends -/

/-- The functions, and then the statements, that are left. -/
def work (S : Pipe R V E) : Option (Prog R V E) × Option (Prog R V E) × ℕ :=
  ((S.threads 0).prog, (S.threads 1).prog,
    weight (S.threads 0).code + weight (S.threads 1).code + S.runner.length)

/-- There is less left to do. -/
def Less : Option (Prog R V E) × Option (Prog R V E) × ℕ →
    Option (Prog R V E) × Option (Prog R V E) × ℕ → Prop :=
  Prod.Lex Shorter (Prod.Lex Shorter (· < ·))

theorem less_wf : WellFounded (Less : Option (Prog R V E) × Option (Prog R V E) × ℕ → _ → Prop) :=
  WellFounded.prod_lex shorter_wf (WellFounded.prod_lex shorter_wf Nat.lt_wfRel.wf)

theorem exec_threads {s : Stmt} {rest : List Stmt} {prog : Option (Prog R V E)}
    (hs : S.exec i prog rest s = some S') : ∃ code,
    S'.threads = Function.update S.threads i ⟨code, prog⟩ ∧ weight code < weight (s :: rest) := by
  have hrest : weight rest < weight (s :: rest) := by
    have hpos : 0 < s.weight := by cases s <;> simp [Stmt.weight]
    rw [weight]
    omega
  cases s with
  | test =>
    rw [Pipe.exec] at hs
    split at hs
    · obtain rfl := Option.some.inj hs
      refine ⟨_, rfl, ?_⟩
      simp only [weight, resumeCode, Stmt.weight, List.cons_append, List.nil_append]
      omega
    · obtain rfl := Option.some.inj hs
      refine ⟨_, rfl, ?_⟩
      simp only [weight, turnCode, resumeCode, Stmt.weight, List.cons_append, List.nil_append]
      omega
  | wait =>
    rw [Pipe.exec] at hs
    split at hs
    · exact Option.some.inj hs ▸ ⟨rest, rfl, hrest⟩
    · simp at hs
  | _ => exact Option.some.inj hs ▸ ⟨rest, rfl, hrest⟩

theorem runProg_threads (C : Cfg) (S : Pipe R V E) (i n : ℕ) (p : Prog R V E) : ∃ code q,
    (S.runProg C i n p).threads = Function.update S.threads i ⟨code, q⟩ ∧ Shorter q (some p) := by
  cases p with
  | ret v => exact ⟨_, _, rfl, .ended _⟩
  | raise e => exact ⟨_, _, rfl, .ended _⟩
  | look k => exact ⟨_, _, rfl, .below (.look k _)⟩
  | leave w k => exact ⟨_, _, rfl, .below (.leave w k)⟩
  | choose k => exact ⟨_, _, rfl, .below (.choose k n)⟩
  | call c k =>
    obtain ⟨s, G, hframe⟩ := call_frame C S i c
    rw [Pipe.runProg, hframe]
    split
    · exact ⟨_, _, rfl, .below (.call c k _)⟩
    · exact ⟨_, _, rfl, .below (.call c k _)⟩
    · exact ⟨_, _, rfl, .below (.call c k _)⟩

/-- **Every step** leaves less to do. -/
theorem step_shrinks {a : Act} (hs : S.step C a = some S') : Less S'.work S.work := by
  cases a with
  | run =>
    change S.stepRun = some S' at hs
    rw [stepRun] at hs
    split at hs
    · simp at hs
    · next s rest hR =>
      have hsame := execRun_same hs
      -- a statement of the runner is used up
      have hrest : S'.runner = rest := by
        cases s with
        | join i =>
          rw [execRun] at hs
          split at hs
          · exact Option.some.inj hs ▸ rfl
          · simp at hs
        | _ => exact Option.some.inj hs ▸ rfl
      rw [Pipe.work, Pipe.work, (hsame 0).threads, (hsame 1).threads, hrest, hR]
      refine .right _ (.right _ ?_)
      simp
  | thread i n =>
    change S.stepThread C i n = some S' at hs
    have hrunner := (stepThread_kept hs).runner
    rw [stepThread] at hs
    split at hs
    · next hi =>
      split at hs
      · next s rest hcode =>
        -- a statement of a thread leaves less of its code
        obtain ⟨code, hthreads, hlt⟩ := exec_threads hs
        rw [Pipe.work, Pipe.work, hthreads, hrunner]
        obtain rfl | rfl : i = 0 ∨ i = 1 := by omega
        · rw [← hcode] at hlt
          refine .right _ (.right _ ?_)
          simp only [Function.update_self, Function.update_of_ne Nat.one_ne_zero]
          omega
        · rw [← hcode] at hlt
          refine .right _ ?_
          simp only [Function.update_self, Function.update_of_ne Nat.zero_ne_one]
          exact .right _ (by omega)
      · -- a call of the program may give more code, and leaves less of the program
        obtain ⟨p, hp, rfl⟩ := Option.map_eq_some_iff.mp hs
        obtain ⟨code, q, hthreads, hq⟩ := runProg_threads C S i n p
        rw [← hp] at hq
        rw [Pipe.work, Pipe.work, hthreads, hrunner]
        obtain rfl | rfl : i = 0 ∨ i = 1 := by omega
        · refine .left _ _ ?_
          simpa using hq
        · simp only [Function.update_of_ne Nat.zero_ne_one]
          refine .right _ (.left _ _ ?_)
          simpa using hq
    · simp at hs

/-- No run goes on for ever. -/
theorem not_infinite (f : ℕ → Pipe R V E) :
    ¬ ∀ n, ∃ a, (f n).step C a = some (f (n + 1)) := by
  intro hf
  have hwf : IsWellFounded _ (fun S' S : Pipe R V E => Less S'.work S.work) :=
    ⟨InvImage.wf Pipe.work less_wf⟩
  obtain ⟨n, hn⟩ := WellFounded.not_rel_apply_succ
    (r := fun S' S : Pipe R V E => Less S'.work S.work) f
  obtain ⟨a, ha⟩ := hf n
  exact hn (step_shrinks ha)

/-- The thread with the turn can go on. -/
theorem Turn.enabled (h : S.Turn i) (hst : S.BothStarted) :
    ∃ S', S.stepThread C i 0 = some S' := by
  rw [stepThread, if_pos ⟨h.lt, hst i h.lt⟩]
  rcases h.holder with ⟨halive, hat, -⟩ | ⟨-, ⟨hcode, -⟩ | ⟨hcode, -⟩⟩ | ⟨hpark, hw⟩
  · rcases hcode : (S.threads i).code with _ | ⟨s, rest⟩
    · obtain ⟨p, hp⟩ := Option.ne_none_iff_exists'.mp halive.prog
      rw [hp]
      exact ⟨_, rfl⟩
    · rw [hcode] at hat
      cases hat with
      | test =>
        dsimp only
        rw [Pipe.exec]
        split <;> exact ⟨_, rfl⟩
      | _ => exact ⟨_, rfl⟩
  · rw [hcode]
    exact ⟨_, rfl⟩
  · rw [hcode]
    exact ⟨_, rfl⟩
  · rw [hpark.2.2, turnCode]
    exact ⟨_, if_pos hw⟩

/-- Until `run` is over, something can go on. -/
theorem RunOk.enabled (h : RunOk S₀ S) (hR : S.runner ≠ []) : ∃ a S', S.step C a = some S' := by
  obtain ⟨-, hsched⟩ := h
  have hrun : ∀ {s : RunStmt} {rest : List RunStmt}, S.runner = s :: rest →
      (∃ S', S.execRun rest s = some S') → ∃ a S', S.step C a = some S' := by
    rintro s rest hcode ⟨S', hS'⟩
    refine ⟨.run, S', ?_⟩
    change S.stepRun = some S'
    rw [stepRun, hcode]
    exact hS'
  have hjoin : ∀ k, k < 2 → S.Turns → S.BothStarted → (∃ S', S.stepRun = some S') ∨
      ¬ S.Over k → ∃ a S', S.step C a = some S' := by
    rintro k hk (⟨m, hm⟩ | ⟨h0, h1⟩) hst hjoin
    · obtain ⟨S', hS'⟩ := hm.enabled (C := C) hst
      exact ⟨.thread m 0, S', hS'⟩
    · rcases hjoin with ⟨S', hS'⟩ | hnot
      · exact ⟨.run, S', hS'⟩
      · obtain rfl | rfl : k = 0 ∨ k = 1 := by omega
        · exact absurd h0 hnot
        · exact absurd h1 hnot
  have hended : ∀ k < 2, S.BothStarted → ∀ rest, S.runner = .join k :: rest → S.Over k →
      ∃ S', S.stepRun = some S' := by
    intro k hk hst rest hcode ho
    rw [stepRun, hcode]
    exact ⟨_, if_pos (ho.ended (hst k hk))⟩
  generalize hcode : S.runner = code at hsched
  cases hsched with
  | join0 ht hs hst =>
    refine hjoin 0 Nat.two_pos ht hst ?_
    by_cases ho : S.Over 0
    · exact .inl (hended 0 Nat.two_pos hst _ hcode ho)
    · exact .inr ho
  | join1 ht hs hst h0 =>
    refine hjoin 1 Nat.one_lt_two ht hst ?_
    by_cases ho : S.Over 1
    · exact .inl (hended 1 Nat.one_lt_two hst _ hcode ho)
    · exact .inr ho
  | done => exact absurd hcode hR
  | _ => exact hrun hcode ⟨_, rfl⟩

/-! ### What `run` promises -/

/-- The thread is in its group's code or in the handoff's: it has been started, it does not
wait, and it has not ended. -/
def Busy (S : Pipe R V E) (i : ℕ) : Prop :=
  S.started i = true ∧ (S.threads i).code.head? ≠ some .wait ∧ S.ended i = false

/-- The group's code is about to go on. -/
def InCode (S : Pipe R V E) (i : ℕ) : Prop :=
  S.started i = true ∧ (S.threads i).code = [] ∧ (S.threads i).prog ≠ none

theorem Parked.not_busy (h : S.Parked i) : ¬ S.Busy i := fun hb => by
  have := hb.2.1
  simp [h.2.2, turnCode] at this

theorem Over.not_busy (h : S.Over i) : ¬ S.Busy i := fun hb => by
  have := hb.2.2
  rw [h.ended hb.1] at this
  simp at this

/-- Where the group's code is about to go on, the thread has the turn. -/
theorem Turns.loaded (h : S.Turns) (hi : i < 2) (hcode : S.InCode i) : S.Loaded i := by
  obtain ⟨-, hnil, hprog⟩ := hcode
  have hparked : ¬ S.Parked i := fun hp => by
    have := hp.2.2
    simp [hnil, turnCode] at this
  have hover : ¬ S.Over i := fun ho => hprog ho.1.prog
  rcases h with ⟨k, hk⟩ | ⟨h0, h1⟩
  · obtain rfl | rfl := eq_or_eq_other hk.lt hi
    · rcases hk.holder with ⟨-, hat, -⟩ | hend | ⟨hp, -⟩
      · rw [hnil] at hat
        cases hat with
        | code hload => exact hload
      · exact absurd hend.1.prog hprog
      · exact absurd hp hparked
    · rcases hk.rest with ⟨hp, -⟩ | ho
      · exact absurd hp hparked
      · exact absurd ho hover
  · obtain rfl | rfl : i = 0 ∨ i = 1 := by omega
    · exact absurd h0 hover
    · exact absurd h1 hover

/-- One thread at a time is busy. -/
theorem Turns.not_both (h : S.Turns) : ¬ (S.Busy 0 ∧ S.Busy 1) := by
  rintro ⟨hb0, hb1⟩
  have hidle : ∀ k, (S.Parked k ∧ S.wake k = false) ∨ S.Over k → ¬ S.Busy k := by
    rintro k (hp | ho)
    · exact hp.1.not_busy
    · exact ho.not_busy
  rcases h with ⟨k, hk⟩ | ⟨h0, -⟩
  · have hother := hidle _ hk.rest
    have hlt := hk.lt
    obtain rfl | rfl : k = 0 ∨ k = 1 := by omega
    · exact hother hb1
    · exact hother hb0
  · exact h0.not_busy hb0

/-- One thread at a time, with the globals its group left. -/
theorem RunOk.exclusive (h : RunOk S₀ S) :
    ¬ (S.Busy 0 ∧ S.Busy 1) ∧ ∀ i < 2, S.InCode i → S.view i = S.own i := by
  obtain ⟨hr, hsched⟩ := h
  have hbefore : S.Before → ¬ (S.Busy 0 ∧ S.Busy 1) ∧
      ∀ i < 2, S.InCode i → S.view i = S.own i := by
    refine fun hb => ⟨fun h => (hb 0 Nat.two_pos).1.not_busy h.1, fun i hi hcode => ?_⟩
    have hpark := (hb i hi).1.2.2
    simp [hcode.2.1, turnCode] at hpark
  have hturns : S.Turns → ¬ (S.Busy 0 ∧ S.Busy 1) ∧
      ∀ i < 2, S.InCode i → S.view i = S.own i := fun ht =>
    ⟨ht.not_both, fun i hi hcode => (ht.loaded hi hcode).view hr⟩
  generalize S.runner = code at hsched
  cases hsched with
  | save hb | start0 hb | start1 hb | wake hb => exact hbefore hb
  | join0 ht | join1 ht => exact hturns ht
  | setContext ho | switchRows ho | setPin ho | result ho | done ho => exact hturns (.inr ho)

/-- Both groups' outputs, in order, or the error of the smallest failed group. -/
theorem outcome_spec (h0 : S.Over 0) (h1 : S.Over 1) :
    (∃ v w, S.outputs 0 = some v ∧ S.outputs 1 = some w ∧ S.errors 0 = none ∧ S.errors 1 = none ∧
      S.outcome = .outputs [v, w]) ∨
    ∃ i < 2, ∃ e, S.errors i = some e ∧ (∀ k < i, S.errors k = none) ∧ S.outcome = .failed i e := by
  have hfind : ((List.range 2).findSome? fun i => (S.errors i).map fun e => (i, e)) =
      ((S.errors 0).map fun e => (0, e)).or ((S.errors 1).map fun e => (1, e)) := by
    have hrange : List.range 2 = [0, 1] := rfl
    rw [hrange, List.findSome?_cons, List.findSome?_cons, List.findSome?_nil]
    cases S.errors 0 with
    | some e => rfl
    | none => cases S.errors 1 <;> rfl
  rcases h0.1.outcome with ⟨v, hv, hv'⟩ | ⟨e, -, he⟩
  · rcases h1.1.outcome with ⟨w, hw, hw'⟩ | ⟨e, -, he⟩
    · refine .inl ⟨v, w, hv, hw, hv', hw', ?_⟩
      simp [Pipe.outcome, hfind, hv, hw, hv', hw']
    · refine .inr ⟨1, Nat.one_lt_two, e, he, fun k hk => ?_, ?_⟩
      · obtain rfl : k = 0 := by omega
        exact hv'
      · simp [Pipe.outcome, hfind, hv', he]
  · refine .inr ⟨0, Nat.two_pos, e, he, fun k hk => absurd hk (Nat.not_lt_zero k), ?_⟩
    simp [Pipe.outcome, hfind, he]

/-- **`PipeStep.run` is a coroutine scheduler.** For any two functions and every interleaving
of the threads' statements: never are both threads in a group's or the handoff's code; a
group's code sees of the globals what it last left there; no run goes on for ever, and one
that cannot go on is at its end; and then the context, the pin and the row buffers are those
of before the call, and the result is both outputs in order or the error of the smallest
failed group. -/
theorem run_correct {contexts : ℕ → ℕ} {fns : ℕ → Prog R V E} (h0 : Fresh C contexts fns S₀) :
    (∀ S, (pipeSystem C S₀).Reachable S →
      ¬ (S.Busy 0 ∧ S.Busy 1) ∧
      (∀ i < 2, S.InCode i → S.view i = S.own i) ∧
      ((∀ a, S.step C a = none) → S.runner = []) ∧
      (S.runner = [] → S.context = S₀.context ∧ S.pin = S₀.pin ∧ S.current = S₀.current ∧
        ((∃ v w, S.outputs 0 = some v ∧ S.outputs 1 = some w ∧ S.errors 0 = none ∧
            S.errors 1 = none ∧ S.result = some (.outputs [v, w])) ∨
          ∃ i < 2, ∃ e, S.errors i = some e ∧ (∀ k < i, S.errors k = none) ∧
            S.result = some (.failed i e)))) ∧
    ∀ f : ℕ → Pipe R V E, f 0 = S₀ → ¬ ∀ n, ∃ a, (f n).step C a = some (f (n + 1)) := by
  refine ⟨fun S hS => ?_, fun f _ => not_infinite f⟩
  have hok := (sched_invariant h0).holds hS
  refine ⟨hok.exclusive.1, hok.exclusive.2, fun hnone => ?_, fun hR => ?_⟩
  · by_contra hR
    obtain ⟨a, S', hs⟩ := hok.enabled (C := C) hR
    rw [hnone a] at hs
    simp at hs
  · have hsched := hok.sched
    rw [hR] at hsched
    cases hsched with
    | done ho hc hcur hp hres =>
      refine ⟨hc, hp, hcur.trans h0.current.symm, ?_⟩
      rw [hres]
      rcases outcome_spec ho.1 ho.2 with ⟨v, w, hv, hw, hv', hw', heq⟩ | ⟨i, hi, e, he, hk, heq⟩
      · exact .inl ⟨v, w, hv, hw, hv', hw', congrArg some heq⟩
      · exact .inr ⟨i, hi, e, he, hk, congrArg some heq⟩

end Pipe

/-! ### A step of two groups -/

/-- Group 0 opens a phase, changes the globals and ends it; group 1 returns what it sees. -/
def twoGroups : ℕ → Prog ℕ ℕ ℕ
  | 0 => .call .phaseBegin fun _ => .leave ⟨2, 9, 5, some 4096⟩
    (.call .phaseEnd fun _ => .look fun w => .ret w.context)
  | _ => .look fun w => .ret w.context

/-- The streams of a small step. -/
def smallCfg : Cfg := ⟨1, 2, 2, true, false⟩

/-- A small step, as `run` finds it. -/
def smallPipe : Pipe ℕ ℕ ℕ where
  context := 3
  pin := none
  current := 0
  rows _ := 0
  streams _ := 0
  groups i := ⟨0, none, none, 7 + i, 1⟩
  threads i := ⟨turnCode, some (twoGroups i)⟩
  started _ := false
  wake _ := false
  finished _ := false
  outputs _ := none
  errors _ := none
  runner := runCode
  savedContext := 0
  savedPin := none
  result := none
  own i := ⟨1, 7 + i, 0, none⟩

theorem fresh_smallPipe : Fresh smallCfg (fun i => 7 + i) twoGroups smallPipe :=
  ⟨rfl, fun _ => rfl, fun _ => rfl, fun _ => rfl, fun _ => rfl, fun _ => rfl, fun _ => rfl,
    fun _ => rfl, rfl, rfl, fun _ => rfl⟩

/-- One of its interleavings. -/
def smallRun : List Act :=
  List.replicate 4 .run ++ List.replicate 14 (.thread 0 0) ++ List.replicate 10 (.thread 1 0) ++
    List.replicate 10 (.thread 0 0) ++ List.replicate 6 .run

/-- Each group returns the context that it left, or that it was given. -/
theorem run_correct_small : ∃ S, (pipeSystem smallCfg smallPipe).Reachable S ∧ S.context = 3 ∧
    S.pin = none ∧ S.current = 0 ∧ S.result = some (.outputs [9, 8]) := by
  have hdone : (TransitionSystem.replay (Pipe.step smallCfg) smallPipe smallRun).any (fun S =>
      S.runner == [] && S.outputs 0 == some 9 && S.outputs 1 == some 8 && (S.errors 0).isNone &&
        (S.errors 1).isNone) = true := by decide
  obtain ⟨S, ht, hP⟩ := (Option.any_eq_true _ _).mp hdone
  have hS : (pipeSystem smallCfg smallPipe).Reachable S := .replay (.start rfl) ht
  simp only [Bool.and_eq_true, beq_iff_eq, Option.isNone_iff_eq_none] at hP
  obtain ⟨⟨⟨⟨hR, h9⟩, h8⟩, he0⟩, he1⟩ := hP
  obtain ⟨-, -, -, hend⟩ := (Pipe.run_correct fresh_smallPipe).1 S hS
  obtain ⟨hc, hp, hcur, ⟨v, w, hv, hw, -, -, hres⟩ | ⟨i, hi, e, he, -⟩⟩ := hend hR
  · obtain rfl : v = 9 := Option.some.inj (hv.symm.trans h9)
    obtain rfl : w = 8 := Option.some.inj (hw.symm.trans h8)
    exact ⟨S, hS, hc, hp, hcur, hres⟩
  · obtain rfl | rfl : i = 0 ∨ i = 1 := by omega
    · rw [he0] at he
      simp at he
    · rw [he1] at he
      simp at he

end PrefillPipe

end VllmMoet
