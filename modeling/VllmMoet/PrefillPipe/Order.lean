import VllmMoet.PrefillPipe.Run

/-!
# The order of the groups' work

Group 0 takes the first turn, and the groups take turns from then on. The turns of a group are
divided by its handoffs: the phase ends it is let past by `check_order`, and the yield points
that hand the CPU over.

* `Counted`: a step of the pipeline with each group's handoffs so far;
* `Counted.Balanced`: while both groups are alive they are at the same turn, or group 0 is one
  ahead;
* `groups_in_order`: group 0 is never in its `k`-th turn after group 1 was in its own, and where
  group 0 has handed over at no more yield points than group 1, the same holds for the phases.

A yield point hands over in the middle of a phase, so without this condition the phases of two
equal functions are out of order (`yield_before_phase_end`).
-/

namespace VllmMoet

namespace PrefillPipe

variable {R V E : Type*}

/-! ### The handoffs -/

/-- The call a group's function is about to make, and how it comes back. -/
def Pipe.nextCall (C : Cfg) (S : Pipe R V E) (i : ℕ) : Option (Call × Pipe.Back E) :=
  match (S.threads i).code, (S.threads i).prog with
  | [], some (.call c _) => some (c, (S.call C i c).2)
  | _, _ => none

/-- A step under way with each group's handoffs at phase ends and at yield points, and whether
`check_order` has raised. -/
structure Counted (R V E : Type*) where
  pipe : Pipe R V E
  phaseTurns : ℕ → ℕ
  yieldTurns : ℕ → ℕ
  refused : ℕ → Bool

namespace Counted

/-- The handoffs of a group. -/
def turns (s : Counted R V E) (i : ℕ) : ℕ := s.phaseTurns i + s.yieldTurns i

/-- Count what group `i` is about to do. -/
def count (C : Cfg) (s : Counted R V E) (i : ℕ) (P : Pipe R V E) : Counted R V E :=
  match s.pipe.nextCall C i with
  | some (.yieldPoint, .handoff) =>
    { s with
      pipe := P
      yieldTurns := Function.update s.yieldTurns i (s.yieldTurns i + 1) }
  | some (_, .handoff) =>
    { s with
      pipe := P
      phaseTurns := Function.update s.phaseTurns i (s.phaseTurns i + 1) }
  | some (_, .error (.order _ _ _ _)) =>
    { s with
      pipe := P
      refused := Function.update s.refused i true }
  | _ => { s with pipe := P }

/-- One step. -/
def step (C : Cfg) (s : Counted R V E) : Act → Option (Counted R V E)
  | .run => s.pipe.stepRun.map fun P => { s with pipe := P }
  | .thread i n => (s.pipe.stepThread C i n).map (s.count C i)

/-- A step of the pipeline that has not begun. -/
def fresh (S₀ : Pipe R V E) : Counted R V E :=
  ⟨S₀, fun _ => 0, fun _ => 0, fun _ => false⟩

end Counted

/-- Every run that goes on from a state. -/
def countedSystem (C : Cfg) (s₀ : Counted R V E) : TransitionSystem (Counted R V E) Act :=
  .ofStep (fun s => s = s₀) (Counted.step C)

/-- A thread that is in `yield_`, up to its parking. -/
def handing : List Stmt → Bool
  | .savePin :: _ | .saveContext :: _ | .saveStream :: _ | .test :: _ => true
  | .wakeOther :: _ :: _ => true
  | _ => false

namespace Pipe

variable {C : Cfg} {S S' S₀ : Pipe R V E} {i j n : ℕ} {rest : List Stmt}

/-- The call hands over. -/
def handsOver (C : Cfg) (S : Pipe R V E) (i : ℕ) : Bool :=
  match S.nextCall C i with
  | some (_, .handoff) => true
  | _ => false

theorem At.ne_turnCode (h : At S i rest) : rest ≠ turnCode := by
  cases h <;> simp [turnCode, resumeCode]

/-- A group that is let go on, or that ends, is not in `yield_`; one that hands over is. -/
theorem runProg_handing (hcode : (S.threads i).code = []) {p : Prog R V E}
    (hprog : (S.threads i).prog = some p) :
    handing ((S.runProg C i n p).threads i).code = S.handsOver C i := by
  rw [handsOver, nextCall, hcode, hprog]
  cases p with
  | call c k =>
    rw [Pipe.runProg]
    cases hback : (S.call C i c).2 with
    | now => simp [hback, Pipe.goOn, handing]
    | error e => simp [hback, Pipe.goOn, handing]
    | handoff => simp [hback, Pipe.goOn, handing, yieldCode]
  | ret v => simp [Pipe.runProg, Pipe.goOn, handing, finallyCode]
  | raise e => simp [Pipe.runProg, Pipe.goOn, handing, finallyCode]
  | look k => simp [Pipe.runProg, Pipe.goOn, handing]
  | leave w k => simp [Pipe.runProg, Pipe.goOn, handing]
  | choose k => simp [Pipe.runProg, Pipe.goOn, handing]

/-- A thread hands over when its code is done, not before. -/
theorem handsOver_of_code {s : Stmt} (hcode : (S.threads i).code = s :: rest) :
    S.handsOver C i = false := by
  rw [handsOver, nextCall, hcode]

/-- A statement of the thread with the turn: it stays in `yield_` or out of it, or the other
group has ended, or `yield_` is over and the thread parks. -/
theorem Running.exec_handing (h : S.Running i) {s : Stmt} (hcode : (S.threads i).code = s :: rest)
    (hs : S.exec i (S.threads i).prog rest s = some S') :
    (handing (S'.threads i).code = handing (s :: rest) ∧ (S'.threads i).code ≠ turnCode) ∨
      S.finished (other i) = true ∨
      ((S'.threads i).code = turnCode ∧ handing (s :: rest) = true) := by
  have hat := h.2.1
  rw [hcode] at hat
  cases hat with
  | test hsv =>
    rw [Pipe.exec] at hs
    split at hs
    · next hf => exact .inr (.inl hf)
    · obtain rfl := Option.some.inj hs
      simp [Pipe.goOn, handing, turnCode, resumeCode]
  | wakeOther hsv hf =>
    obtain rfl := Option.some.inj hs
    simp [Pipe.goOn, handing, turnCode]
  | _ =>
    obtain rfl := Option.some.inj hs
    simp [Pipe.goOn, handing, turnCode, resumeCode]

theorem Ending.handing (h : S.Ending i) : handing (S.threads i).code = false := by
  rcases h.2 with ⟨hcode, -⟩ | ⟨hcode, -⟩ <;> rw [hcode] <;> rfl

/-- While some group has the turn, not both are before their first one. -/
theorem Turns.not_before (h : S.Turns) : ¬S.Before := by
  intro hb
  have hparked : ∀ k < 2, S.Parked k := fun k hk => (hb k hk).1
  rcases h with ⟨k, hk⟩ | ⟨h0, -⟩
  · have hpark := hparked k hk.lt
    rcases hk.holder with hrun | hend | ⟨-, hw⟩
    · exact hrun.2.1.ne_turnCode hpark.2.2
    · exact hpark.1.prog hend.1.prog
    · rw [(hb k hk.lt).2] at hw
      cases hw
  · exact (hparked 0 Nat.two_pos).1.prog h0.1.prog

end Pipe

/-! ### The groups alternate -/

namespace Counted

variable {C : Cfg} {s s' : Counted R V E} {S₀ P : Pipe R V E} {i j n : ℕ}

@[simp]
theorem count_pipe : (s.count C i P).pipe = P := by
  rw [count]
  split <;> rfl

/-- A handoff is one more turn of its group. -/
theorem count_turns (k : ℕ) : (s.count C i P).turns k =
    s.turns k + if k = i ∧ s.pipe.handsOver C i = true then 1 else 0 := by
  have hadd : ∀ f : ℕ → ℕ, Function.update f i (f i + 1) k = f k + if k = i then 1 else 0 := by
    intro f
    rw [Function.update_apply]
    split_ifs with hk
    · rw [hk]
    · rfl
  rw [count, Pipe.handsOver]
  split <;> simp_all [turns] <;> omega

theorem count_turns_of_code {st : Stmt} {rest : List Stmt}
    (hcode : (s.pipe.threads i).code = st :: rest) (k : ℕ) :
    (s.count C i P).turns k = s.turns k := by
  rw [count_turns, Pipe.handsOver_of_code hcode, if_neg (by simp), Nat.add_zero]

/-- The groups' turns while group `k` has the turn: they are even, or group 0 is one ahead; a
group in `yield_` has already counted its handoff. -/
def Even (s : Counted R V E) (k : ℕ) : Prop :=
  s.turns 0 = s.turns 1 + if handing (s.pipe.threads k).code then other k else k

theorem even_add {t₀ t₁ k : ℕ} (hk : k < 2) (b : Bool)
    (h : t₀ = t₁ + if false then other k else k) : (t₀ + if 0 = k ∧ b = true then 1 else 0) =
      (t₁ + if 1 = k ∧ b = true then 1 else 0) + if b then other k else k := by
  obtain rfl | rfl : k = 0 ∨ k = 1 := by omega
  · cases b <;> simp_all [other]
  · cases b <;> simp_all [other]

/-- **The invariant**: no turn was taken, or the turns of two groups that are alive are even, or
both have ended. -/
def Balanced (s : Counted R V E) : Prop :=
  (s.pipe.Before ∧ s.turns 0 = 0 ∧ s.turns 1 = 0) ∨
    (∃ k, s.pipe.Turn k ∧ (¬s.pipe.Over (other k) → s.Even k)) ∨
    (s.pipe.Over 0 ∧ s.pipe.Over 1)

/-- A step of the thread with the turn. -/
theorem Even.thread (h : s.pipe.Turn i) (hr : s.pipe.RowsOwn)
    (heven : ¬s.pipe.Over (other i) → s.Even i) (hs : s.pipe.stepThread C i n = some P) :
    (s.count C i P).Balanced := by
  have hlt := h.lt
  -- the other group ends only in its own steps
  have hkeep : Pipe.Same s.pipe P (other i) → ¬P.Over (other i) → ¬s.pipe.Over (other i) :=
    fun hsame hnot ho => hnot (ho.same hsame)
  rcases h.holder with hrun | hend | ⟨hpark, hwake⟩
  · rcases hcode : (s.pipe.threads i).code with _ | ⟨st, rest⟩
    · obtain ⟨p, hprog, rfl⟩ := Pipe.stepThread_nil hcode hs
      obtain ⟨hsame, hw, hnext, -⟩ := hrun.runProg (C := C) (n := n) hr hcode p
      refine .inr (.inl ⟨i, ?_, fun hnot => ?_⟩)
      · rw [count_pipe]
        exact h.run hsame hw hnext
      · rw [count_pipe] at hnot
        have heven' := heven (hkeep hsame hnot)
        have hquiet : handing (s.pipe.threads i).code = false := by
          rw [hcode]
          rfl
        rw [Even, hquiet] at heven'
        rw [Even, count_pipe, Pipe.runProg_handing hcode hprog, count_turns, count_turns]
        exact even_add hlt _ heven'
    · have hexec := Pipe.stepThread_cons hcode hs
      have hcount := count_turns_of_code (C := C) (P := P) hcode
      obtain ⟨hsame, hnext⟩ := hrun.exec hcode hexec
      have hcode' := hrun.exec_handing hcode hexec
      rcases hnext with ⟨hrun', hw⟩ | ⟨hpark, hw, hwo, hf⟩
      · refine .inr (.inl ⟨i, ?_, fun hnot => ?_⟩)
        · rw [count_pipe]
          exact h.run hsame hw (.inl hrun')
        · rw [count_pipe] at hnot
          have hnot' := hkeep hsame hnot
          rw [Even, count_pipe, hcount, hcount]
          rcases hcode' with ⟨hhand, -⟩ | hfin | ⟨hturn, -⟩
          · rw [hhand, ← hcode]
            exact heven hnot'
          · -- only a group that has ended is finished while this one runs
            rcases h.rest with ⟨hp, -⟩ | ho
            · rw [hp.1.finished] at hfin
              cases hfin
            · exact absurd ho hnot'
          · exact absurd hturn hrun'.2.1.ne_turnCode
      · -- the other group has not ended, so it is parked, and has the turn from here on
        rcases h.rest with ⟨hp, -⟩ | ho
        · have hhand : handing (s.pipe.threads i).code = true := by
            rw [hcode]
            rcases hcode' with ⟨-, hne⟩ | hfin | ⟨-, hhand⟩
            · exact absurd hpark.2.2 hne
            · rw [hf] at hfin
              cases hfin
            · exact hhand
          have hp' := hp.same hsame
          have heven' := heven fun ho => hp.1.prog ho.1.prog
          rw [Even, hhand] at heven'
          refine .inr (.inl ⟨other i, ⟨Pipe.other_lt i, ?_, ?_⟩, fun _ => ?_⟩)
          · rw [count_pipe]
            exact .inr (.inr ⟨hp', hwo⟩)
          · rw [count_pipe, Pipe.other_other hlt]
            exact .inl ⟨hpark, hw⟩
          · rw [Even, count_pipe, hp'.2.2, hcount, hcount]
            exact heven'
        · rw [ho.2.2] at hf
          cases hf
  · rcases hcode : (s.pipe.threads i).code with _ | ⟨st, rest⟩
    · rcases hend.2 with ⟨hfc, -⟩ | ⟨hfc, -⟩
      · simp [hcode, finallyCode] at hfc
      · simp [hcode] at hfc
    · have hexec := Pipe.stepThread_cons hcode hs
      obtain ⟨hsame, hnext⟩ := hend.exec hcode hexec
      have hcount := count_turns_of_code (C := C) (P := P) hcode
      rcases hnext with ⟨hend', hw⟩ | ⟨hover', hwo⟩
      · refine .inr (.inl ⟨i, ?_, fun hnot => ?_⟩)
        · rw [count_pipe]
          exact h.run hsame hw (.inr hend')
        · rw [count_pipe] at hnot
          have heven' := heven (hkeep hsame hnot)
          rw [Even, hend.handing] at heven'
          rw [Even, count_pipe, hend'.handing, hcount, hcount]
          exact heven'
      · rcases h.rest with ⟨hp, -⟩ | ho
        · refine .inr (.inl ⟨other i, ⟨Pipe.other_lt i, ?_, ?_⟩, fun hnot => ?_⟩)
          · rw [count_pipe]
            exact .inr (.inr ⟨hp.same hsame, hwo⟩)
          · rw [count_pipe, Pipe.other_other hlt]
            exact .inr hover'
          · rw [count_pipe, Pipe.other_other hlt] at hnot
            exact absurd hover' hnot
        · have ho' := ho.same hsame
          refine .inr (.inr ?_)
          rw [count_pipe]
          obtain rfl | rfl : i = 0 ∨ i = 1 := by omega
          · exact ⟨hover', ho'⟩
          · exact ⟨ho', hover'⟩
  · have hexec := Pipe.stepThread_cons hpark.2.2 hs
    rw [Pipe.exec, if_pos hwake] at hexec
    obtain rfl := Option.some.inj hexec
    refine .inr (.inl ⟨i, ?_, fun hnot => ?_⟩)
    · rw [count_pipe]
      refine h.run Pipe.same_goOn rfl (.inl ⟨⟨?_, hpark.1.finished, hpark.1.outcome⟩, ?_, ?_⟩)
      · simpa [Pipe.goOn] using hpark.1.prog
      · simp only [Pipe.goOn, Function.update_self]
        exact .clear ⟨hpark.2.1.pin, hpark.2.1.context, hpark.2.1.stream⟩
      · simp [Pipe.goOn]
    · rw [count_pipe] at hnot
      have heven' := heven (hkeep Pipe.same_goOn hnot)
      rw [Even, hpark.2.2] at heven'
      rw [Even, count_pipe, count_turns_of_code hpark.2.2, count_turns_of_code hpark.2.2]
      simpa [Pipe.goOn, handing, turnCode] using heven'

/-- A step of a thread keeps the turns balanced. -/
theorem Balanced.thread (h : s.Balanced) (hr : s.pipe.RowsOwn)
    (hs : s.pipe.stepThread C j n = some P) : (s.count C j P).Balanced := by
  rcases h with ⟨hb, -⟩ | ⟨k, hk, heven⟩ | ho
  · rw [Pipe.not_step_of_before hb] at hs
    cases hs
  · have hj : j < 2 := by
      by_contra hj
      rw [Pipe.stepThread, if_neg fun hand => hj hand.1] at hs
      cases hs
    obtain rfl | rfl := Pipe.eq_or_eq_other hk.lt hj
    · exact Even.thread hk hr heven hs
    · rcases hk.rest with ⟨hp, hf⟩ | ho
      · rw [hp.stuck hf] at hs
        cases hs
      · rw [ho.stuck] at hs
        cases hs
  · rw [Pipe.not_step_of_over ho] at hs
    cases hs

/-- A statement of the runner's takes no turn. -/
theorem Balanced.run (h : s.Balanced) (hok : Pipe.RunOk S₀ s.pipe)
    (hs : s.pipe.stepRun = some P) : ({ s with pipe := P } : Counted R V E).Balanced := by
  obtain ⟨hr, hsched⟩ := hok
  rw [Pipe.stepRun] at hs
  generalize hR : s.pipe.runner = code at hsched hs
  have hover : ∀ {st : RunStmt} {rest : List RunStmt}, s.pipe.execRun rest st = some P →
      s.pipe.Over 0 ∧ s.pipe.Over 1 → P.Over 0 ∧ P.Over 1 := fun hs ho =>
    ⟨ho.1.same (Pipe.execRun_same hs 0), ho.2.same (Pipe.execRun_same hs 1)⟩
  -- before the first turn the counts are zero
  have hzero : s.pipe.Before → s.turns 0 = 0 ∧ s.turns 1 = 0 := by
    intro hb
    rcases h with ⟨-, hz⟩ | ⟨k, hk, -⟩ | ho
    · exact hz
    · exact absurd hb (Pipe.Turns.not_before (.inl ⟨k, hk⟩))
    · exact absurd hb (Pipe.Turns.not_before (.inr ho))
  have hbefore : ∀ {st : RunStmt} {rest : List RunStmt}, s.pipe.execRun rest st = some P →
      P.wake = s.pipe.wake → s.pipe.Before → P.Before := fun hs hw hb k hk =>
    ⟨(hb k hk).1.same (Pipe.execRun_same hs k), hw ▸ (hb k hk).2⟩
  have hjoin : ∀ runner, s.pipe.Turns → P = { s.pipe with runner := runner } →
      ({ s with pipe := P } : Counted R V E).Balanced := by
    rintro runner ht rfl
    have hsame : ∀ k, Pipe.Same s.pipe { s.pipe with runner := runner } k := fun _ =>
      ⟨rfl, rfl, rfl, rfl, rfl, rfl⟩
    rcases h with ⟨hb, -⟩ | ⟨k, hk, heven⟩ | ho
    · exact absurd hb ht.not_before
    · exact .inr (.inl ⟨k, hk.setRunner runner, fun hnot =>
        heven fun ho => hnot (ho.same (hsame _))⟩)
    · exact .inr (.inr ⟨ho.1.same (hsame 0), ho.2.same (hsame 1)⟩)
  cases hsched with
  | save hb | start0 hb | start1 hb =>
    exact .inl ⟨hbefore hs (by obtain rfl := Option.some.inj hs; rfl) hb, hzero hb⟩
  | wake hb =>
    have hsame := Pipe.execRun_same hs
    obtain rfl := Option.some.inj hs
    obtain ⟨hp0, -⟩ := hb 0 Nat.two_pos
    obtain ⟨hp1, hw1⟩ := hb 1 Nat.one_lt_two
    refine .inr (.inl ⟨0, ⟨Nat.two_pos, .inr (.inr ⟨hp0.same (hsame 0), ?_⟩),
      .inl ⟨hp1.same (hsame 1), ?_⟩⟩, fun _ => ?_⟩)
    · simp
    · exact hw1
    · obtain ⟨hz0, hz1⟩ := hzero hb
      have hcode := hp0.2.2
      simp only [Even, turns] at hz0 hz1 ⊢
      rw [hz0, hz1, hcode]
      rfl
  | join0 ht | join1 ht =>
    simp only [Pipe.execRun] at hs
    split at hs
    · exact hjoin _ ht (Option.some.inj hs).symm
    · cases hs
  | setContext ho | switchRows ho | setPin ho | result ho =>
    exact .inr (.inr (hover hs ho))
  | done => cases hs

/-! ### Every run -/

/-- The counts do not disturb the pipe. -/
theorem step_pipe {a : Act} (hs : s.step C a = some s') : s.pipe.step C a = some s'.pipe := by
  cases a with
  | run =>
    obtain ⟨P, hP, rfl⟩ := Option.map_eq_some_iff.mp hs
    exact hP
  | thread i n =>
    obtain ⟨P, hP, rfl⟩ := Option.map_eq_some_iff.mp hs
    rw [count_pipe]
    exact hP

/-- A run of the counted pipeline is one of the pipeline. -/
theorem reachable_pipe {s₀ : Counted R V E} (hs : (countedSystem C s₀).Reachable s) :
    (pipeSystem C s₀.pipe).Reachable s.pipe := by
  induction hs with
  | start h0 =>
    rw [show _ = s₀ from h0]
    exact .start rfl
  | step _ hstep ih => exact .step ih (step_pipe hstep)

/-- The turns are balanced in every run. -/
theorem balanced_invariant {contexts : ℕ → ℕ} {fns : ℕ → Prog R V E}
    (h0 : Fresh C contexts fns S₀) : (countedSystem C (fresh S₀)).Invariant Balanced where
  start s hs := by
    rw [show s = _ from hs]
    exact .inl ⟨Pipe.before_of_fresh h0, rfl, rfl⟩
  step s a s' hr h hs := by
    have hok := (Pipe.sched_invariant h0).holds (reachable_pipe hr)
    cases a with
    | run =>
      obtain ⟨P, hP, rfl⟩ := Option.map_eq_some_iff.mp hs
      exact h.run hok hP
    | thread i n =>
      obtain ⟨P, hP, rfl⟩ := Option.map_eq_some_iff.mp hs
      exact h.thread hok.rows hP

end Counted

/-! ### Phase ends and yield points -/

namespace Pipe

variable {C : Cfg} {S S' : Pipe R V E} {i n : ℕ}

/-- What a call does to the phases: nothing, and then it hands over at a yield point at most; or
it ends one, and `check_order` raises, or lets it past after every earlier group's. -/
inductive CallDone (C : Cfg) (S S' : Pipe R V E) (i : ℕ) (c : Call) : Back E → Prop
  | now (h : ∀ k, (S'.groups k).phasesDone = (S.groups k).phasesDone) : CallDone C S S' i c .now
  | nested (h : ∀ k, (S'.groups k).phasesDone = (S.groups k).phasesDone) (a b : Kind) :
    CallDone C S S' i c (.error (.nested a b))
  | yielded (h : ∀ k, (S'.groups k).phasesDone = (S.groups k).phasesDone)
    (hc : c = .yieldPoint) (hstream : C.streamReplay = true) : CallDone C S S' i c .handoff
  | refused (h : ∀ k, (S'.groups k).phasesDone = (S.groups k).phasesDone + if k = i then 1 else 0)
    (a b x y : ℕ) : CallDone C S S' i c (.error (.order a b x y))
  | passed (h : ∀ k, (S'.groups k).phasesDone = (S.groups k).phasesDone + if k = i then 1 else 0)
    (hc : c ≠ .yieldPoint) (hle : ∀ k < i, (S.groups i).phasesDone + 1 ≤ (S.groups k).phasesDone) :
    CallDone C S S' i c .handoff

theorem setGroup_phasesDone {G : Group} (k : ℕ) : ((S.setGroup i G).groups k).phasesDone =
    if k = i then G.phasesDone else (S.groups k).phasesDone := by
  simp only [Pipe.setGroup, Function.update_apply]
  split_ifs <;> rfl

theorem beginPhase_done (kind : Kind) (c : Call) :
    CallDone C S (S.beginPhase C i kind).1 i c (S.beginPhase C i kind).2 := by
  rw [Pipe.beginPhase]
  split
  · split
    · exact .nested (fun _ => rfl) ..
    · refine .now fun k => ?_
      rw [setGroup_phasesDone]
      by_cases hk : k = i
      · rw [if_pos hk, hk]
      · rw [if_neg hk]
        rfl
  · exact .now fun _ => rfl

/-- An earlier group that is not behind lets the phase end pass. -/
theorem le_of_checkOrder (h : (S.checkOrder i : Option (PipeError E)) = none) :
    ∀ k < i, (S.groups i).phasesDone ≤ (S.groups k).phasesDone := by
  intro k hk
  rw [Pipe.checkOrder, Option.map_eq_none_iff, List.find?_eq_none] at h
  have hle := h k (List.mem_range.mpr hk)
  simpa using hle

theorem phaseEnd_done {c : Call} (hc : c ≠ .yieldPoint) :
    CallDone C S (S.phaseEnd C i).1 i c (S.phaseEnd C i).2 := by
  rw [Pipe.phaseEnd]
  split_ifs
  · split
    · exact .now fun _ => rfl
    · dsimp only
      generalize hT : (S.setStream i C.computeStream).setGroup i { S.groups i with
        openPhase := none
        phasesDone := (S.groups i).phasesDone + 1 } = T
      have hdone : ∀ k, (T.groups k).phasesDone =
          (S.groups k).phasesDone + if k = i then 1 else 0 := by
        intro k
        rw [← hT, setGroup_phasesDone]
        split_ifs with hk
        · rw [hk]
        · rfl
      rcases hcheck : T.checkOrder i with _ | e
      · refine .passed hdone hc fun k hk => ?_
        have hle := le_of_checkOrder hcheck k hk
        rw [hdone, hdone, if_pos rfl, if_neg (Nat.ne_of_lt hk)] at hle
        exact hle
      · rw [Pipe.checkOrder, Option.map_eq_some_iff] at hcheck
        obtain ⟨k, -, rfl⟩ := hcheck
        exact .refused hdone ..
  · exact .now fun _ => rfl

theorem call_done (c : Call) : CallDone C S (S.call C i c).1 i c (S.call C i c).2 := by
  cases c with
  | phaseBegin => exact beginPhase_done .comm _
  | phaseEnd => exact phaseEnd_done (by decide)
  | replayBegin =>
    rw [Pipe.call]
    split
    · exact beginPhase_done .replay _
    · exact .now fun _ => rfl
  | replayEnd =>
    rw [Pipe.call]
    split
    · exact phaseEnd_done (by decide)
    · exact .now fun _ => rfl
  | yieldPoint =>
    rw [Pipe.call]
    split_ifs with hopen hstream
    · exact .now fun _ => rfl
    · exact .yielded (fun _ => rfl) rfl hstream
    · exact .now fun _ => rfl

/-- The statements of the handoff end no phase. -/
theorem exec_phasesDone {st : Stmt} {rest : List Stmt} {prog : Option (Prog R V E)}
    (hs : S.exec i prog rest st = some S') (k : ℕ) :
    (S'.groups k).phasesDone = (S.groups k).phasesDone := by
  have hrecord : ∀ G : Group, G.phasesDone = (S.groups i).phasesDone →
      ((S.setGroup i G).groups k).phasesDone = (S.groups k).phasesDone := by
    intro G hG
    rw [setGroup_phasesDone]
    split_ifs with hk
    · rw [hk, hG]
    · rfl
  cases st with
  | savePin | saveContext | saveStream =>
    obtain rfl := Option.some.inj hs
    exact hrecord _ rfl
  | test =>
    rw [Pipe.exec] at hs
    split at hs <;> obtain rfl := Option.some.inj hs <;> rfl
  | wait =>
    rw [Pipe.exec] at hs
    split at hs
    · obtain rfl := Option.some.inj hs
      rfl
    · cases hs
  | _ =>
    obtain rfl := Option.some.inj hs
    rfl

end Pipe

namespace Counted

variable {C : Cfg} {s s' : Counted R V E} {S₀ P : Pipe R V E} {i n : ℕ}

/-- What a step of a thread does to the phases and to the counts. -/
inductive Counting (C : Cfg) (s s' : Counted R V E) (i : ℕ) : Prop
  | quiet (h : ∀ k, (s'.pipe.groups k).phasesDone = (s.pipe.groups k).phasesDone)
    (hp : s'.phaseTurns = s.phaseTurns) (hr : s'.refused = s.refused)
    (hy : s'.yieldTurns = s.yieldTurns ∨ C.streamReplay = true)
  | refused (h : ∀ k, (s'.pipe.groups k).phasesDone =
      (s.pipe.groups k).phasesDone + if k = i then 1 else 0)
    (hp : s'.phaseTurns = s.phaseTurns) (hr : s'.refused = Function.update s.refused i true)
    (hy : s'.yieldTurns = s.yieldTurns)
  | passed (h : ∀ k, (s'.pipe.groups k).phasesDone =
      (s.pipe.groups k).phasesDone + if k = i then 1 else 0)
    (hp : s'.phaseTurns = Function.update s.phaseTurns i (s.phaseTurns i + 1))
    (hr : s'.refused = s.refused) (hy : s'.yieldTurns = s.yieldTurns)
    (hle : ∀ k < i, (s.pipe.groups i).phasesDone + 1 ≤ (s.pipe.groups k).phasesDone)

/-- What a step of a thread adds to the counts. -/
theorem counting (hs : s.pipe.stepThread C i n = some P) : Counting C s (s.count C i P) i := by
  -- without a call nothing is counted
  have hsilent : s.pipe.nextCall C i = none → (∀ k, (P.groups k).phasesDone =
      (s.pipe.groups k).phasesDone) → Counting C s (s.count C i P) i := by
    intro hnext hdone
    rw [count, hnext]
    exact .quiet hdone rfl rfl (.inl rfl)
  rcases hcode : (s.pipe.threads i).code with _ | ⟨st, rest⟩
  · obtain ⟨p, hprog, hP⟩ := Pipe.stepThread_nil hcode hs
    cases p with
    | call c k =>
      have hnext : s.pipe.nextCall C i = some (c, (s.pipe.call C i c).2) := by
        rw [Pipe.nextCall, hcode, hprog]
      have hgroups : P.groups = (s.pipe.call C i c).1.groups := by
        rw [← hP, Pipe.runProg]
        split <;> rfl
      have hkeep : (∀ k, ((s.pipe.call C i c).1.groups k).phasesDone =
          (s.pipe.groups k).phasesDone) → ∀ k, (P.groups k).phasesDone =
          (s.pipe.groups k).phasesDone := fun h k => by rw [hgroups, h]
      have hend : (∀ k, ((s.pipe.call C i c).1.groups k).phasesDone =
          (s.pipe.groups k).phasesDone + if k = i then 1 else 0) → ∀ k, (P.groups k).phasesDone =
          (s.pipe.groups k).phasesDone + if k = i then 1 else 0 := fun h k => by rw [hgroups, h]
      have hdone := Pipe.call_done (C := C) (S := s.pipe) (i := i) c
      rw [count, hnext]
      generalize (s.pipe.call C i c).2 = back at hdone
      cases hdone with
      | now h => cases c <;> exact .quiet (hkeep h) rfl rfl (.inl rfl)
      | nested h a b => cases c <;> exact .quiet (hkeep h) rfl rfl (.inl rfl)
      | yielded h hc hstream =>
        subst hc
        exact .quiet (hkeep h) rfl rfl (.inr hstream)
      | refused h a b x y => cases c <;> exact .refused (hend h) rfl rfl rfl
      | passed h hc hle =>
        cases c with
        | yieldPoint => exact absurd rfl hc
        | _ => exact .passed (hend h) rfl rfl rfl hle
    | _ =>
      refine hsilent (by rw [Pipe.nextCall, hcode, hprog]) fun k => ?_
      rw [← hP]
      rfl
  · refine hsilent ?_ (Pipe.exec_phasesDone (Pipe.stepThread_cons hcode hs))
    rw [Pipe.nextCall, hcode]

/-- What the counts say of the phases. -/
structure PhasesOk (C : Cfg) (s : Counted R V E) : Prop where
  le : ∀ i, s.phaseTurns i ≤ (s.pipe.groups i).phasesDone
  eq : ∀ i, s.refused i = false → (s.pipe.groups i).phasesDone = s.phaseTurns i
  order : s.phaseTurns 1 ≤ (s.pipe.groups 0).phasesDone
  serial : C.streamReplay = false → ∀ i, s.yieldTurns i = 0

/-- A step keeps the phases of the two threads in order. -/
theorem PhasesOk.step (h : PhasesOk C s) (hs : Counting C s s' i) : PhasesOk C s' := by
  obtain ⟨hle, heq, horder, hserial⟩ := h
  cases hs with
  | quiet hd hp hr hy =>
    refine ⟨fun k => ?_, fun k hk => ?_, ?_, fun hstream k => ?_⟩
    · rw [hp, hd]
      exact hle k
    · rw [hr] at hk
      rw [hp, hd]
      exact heq k hk
    · rw [hp, hd]
      exact horder
    · rcases hy with hy | hy
      · rw [hy]
        exact hserial hstream k
      · rw [hstream] at hy
        cases hy
  | refused hd hp hr hy =>
    refine ⟨fun k => ?_, fun k hk => ?_, ?_, fun hstream k => hy ▸ hserial hstream k⟩
    · rw [hp, hd]
      exact (hle k).trans (Nat.le_add_right _ _)
    · rw [hr, Function.update_apply] at hk
      split_ifs at hk with hki
      rw [hp, hd, if_neg hki, heq k hk, Nat.add_zero]
    · rw [hp, hd]
      exact horder.trans (Nat.le_add_right _ _)
  | passed hd hp hr hy hpass =>
    have hcount : ∀ k, s'.phaseTurns k = s.phaseTurns k + if k = i then 1 else 0 := by
      intro k
      rw [hp, Function.update_apply]
      split_ifs with hk
      · rw [hk]
      · rfl
    refine ⟨fun k => ?_, fun k hk => ?_, ?_, fun hstream k => hy ▸ hserial hstream k⟩
    · rw [hcount, hd]
      exact Nat.add_le_add_right (hle k) _
    · rw [hr] at hk
      rw [hcount, hd, heq k hk]
    · rw [hcount, hd]
      have hle1 := hle 1
      split_ifs with h1 h0
      · omega
      · have hpass0 := hpass 0 (by omega)
        rw [← h1] at hpass0
        omega
      · omega
      · exact horder

/-- The phases are in order in every run. -/
theorem phasesOk_invariant {contexts : ℕ → ℕ} {fns : ℕ → Prog R V E}
    (h0 : Fresh C contexts fns S₀) : (countedSystem C (fresh S₀)).Invariant (PhasesOk C) where
  start s hs := by
    rw [show s = _ from hs]
    have hdone : ∀ i, ((fresh S₀).pipe.groups i).phasesDone = 0 := fun i => by
      simp [fresh, h0.groups]
    exact ⟨fun i => Nat.zero_le _, fun i _ => hdone i, Nat.zero_le _, fun _ _ => rfl⟩
  step s a s' _ h hs := by
    cases a with
    | run =>
      obtain ⟨P, hP, rfl⟩ := Option.map_eq_some_iff.mp hs
      have hgroups : ∀ k, P.groups k = s.pipe.groups k := by
        rw [Pipe.stepRun] at hP
        split at hP
        · cases hP
        · exact fun k => (Pipe.execRun_same hP k).groups
      refine ⟨fun i => ?_, fun i hi => ?_, ?_, h.serial⟩
      · rw [hgroups]
        exact h.le i
      · rw [hgroups]
        exact h.eq i hi
      · rw [hgroups]
        exact h.order
    | thread i n =>
      obtain ⟨P, hP, rfl⟩ := Option.map_eq_some_iff.mp hs
      exact h.step (counting hP)

/-! ### What goes on from a state -/

/-- Turns are not taken back, and a function that has ended does not go on. -/
structure Onward (s s' : Counted R V E) : Prop where
  turns : ∀ k, s.turns k ≤ s'.turns k
  ended : ∀ k, (s.pipe.threads k).prog = none → (s'.pipe.threads k).prog = none

/-- A thread that has ended stays so. -/
theorem ended_of_stepThread (hs : s.pipe.stepThread C i n = some P) {k : ℕ}
    (hk : (s.pipe.threads k).prog = none) : (P.threads k).prog = none := by
  rcases hcode : (s.pipe.threads i).code with _ | ⟨st, rest⟩
  · obtain ⟨p, hprog, rfl⟩ := Pipe.stepThread_nil hcode hs
    obtain ⟨code, q, hthreads, -⟩ := Pipe.runProg_threads C s.pipe i n p
    have hne : k ≠ i := by
      rintro rfl
      rw [hk] at hprog
      cases hprog
    rw [hthreads, Function.update_of_ne hne]
    exact hk
  · obtain ⟨code, hthreads, -⟩ := Pipe.exec_threads (Pipe.stepThread_cons hcode hs)
    rw [hthreads, Function.update_apply]
    split_ifs with hki
    · rw [← hki]
      exact hk
    · exact hk

/-- The counts only grow. -/
theorem onward_step {a : Act} (hs : s.step C a = some s') : Onward s s' := by
  cases a with
  | run =>
    obtain ⟨P, hP, rfl⟩ := Option.map_eq_some_iff.mp hs
    refine ⟨fun _ => le_rfl, fun k hk => ?_⟩
    rw [Pipe.stepRun] at hP
    split at hP
    · cases hP
    · rw [(Pipe.execRun_same hP k).threads]
      exact hk
  | thread i n =>
    obtain ⟨P, hP, rfl⟩ := Option.map_eq_some_iff.mp hs
    refine ⟨fun k => ?_, fun k hk => ?_⟩
    · rw [count_turns]
      exact Nat.le_add_right _ _
    · rw [count_pipe]
      exact ended_of_stepThread hP hk

/-- Whatever goes on from a state is a state of the run, and onward of it. -/
theorem reachable_onward {s₀ : Counted R V E} (hs : (countedSystem C s₀).Reachable s)
    (hs' : (countedSystem C s).Reachable s') :
    (countedSystem C s₀).Reachable s' ∧ Onward s s' := by
  induction hs' with
  | start h0 =>
    rw [show _ = s from h0]
    exact ⟨hs, fun _ => le_rfl, fun _ hk => hk⟩
  | step _ hstep ih =>
    obtain ⟨hreach, hturns, hended⟩ := ih
    obtain ⟨hturns', hended'⟩ := onward_step hstep
    exact ⟨.step hreach hstep, fun k => (hturns k).trans (hturns' k),
      fun k hk => hended' k (hended k hk)⟩

/-- In group 1's code group 0 is a turn ahead, or has ended. -/
theorem Balanced.ahead (h : s.Balanced) (hcode : s.pipe.InCode 1) :
    s.turns 1 < s.turns 0 ∨ (s.pipe.threads 0).prog = none := by
  obtain ⟨-, hnil, hprog⟩ := hcode
  have hparked : ¬s.pipe.Parked 1 := fun hp => by
    have := hp.2.2
    simp [hnil, turnCode] at this
  have hover : ¬s.pipe.Over 1 := fun ho => hprog ho.1.prog
  rcases h with ⟨hb, -⟩ | ⟨k, hk, heven⟩ | ho
  · exact absurd (hb 1 Nat.one_lt_two).1 hparked
  · have hlt := hk.lt
    obtain rfl | rfl : k = 0 ∨ k = 1 := by omega
    · rcases hk.rest with ⟨hp, -⟩ | ho
      · exact absurd hp hparked
      · exact absurd ho hover
    · by_cases ho : s.pipe.Over (other 1)
      · exact .inr ho.1.prog
      · have heven' := heven ho
        rw [Even, hnil] at heven'
        refine .inl ?_
        rw [heven']
        exact Nat.lt_succ_self _
  · exact absurd ho.2 hover

/-- **Earlier rows first.** For any two functions and every interleaving: group 1 is let past its
`k`-th phase end only after group 0 has ended `k` phases; group 0 is never in its `k`-th turn
after group 1 was in its own; and where group 0 has not handed over at more yield points than
group 1 had, as when yield points do not hand over, and `check_order` has not raised, group 0 is
never between its `k`-th and its next phase end after group 1 was between its own. -/
theorem groups_in_order {contexts : ℕ → ℕ} {fns : ℕ → Prog R V E} (h0 : Fresh C contexts fns S₀)
    (hs : (countedSystem C (fresh S₀)).Reachable s) (hs' : (countedSystem C s).Reachable s') :
    s.phaseTurns 1 ≤ (s.pipe.groups 0).phasesDone ∧
      (s.pipe.InCode 1 → s'.pipe.InCode 0 → s.turns 1 < s'.turns 0 ∧
        (s.refused 1 = false → C.streamReplay = false ∨ s'.yieldTurns 0 ≤ s.yieldTurns 1 →
          (s.pipe.groups 1).phasesDone < (s'.pipe.groups 0).phasesDone)) := by
  obtain ⟨hreach, hturns, hended⟩ := reachable_onward hs hs'
  have hphases := (phasesOk_invariant h0).holds hs
  have hphases' := (phasesOk_invariant h0).holds hreach
  refine ⟨hphases.order, fun h1 h0' => ?_⟩
  have hlt : s.turns 1 < s'.turns 0 := by
    rcases ((balanced_invariant h0).holds hs).ahead h1 with hlt | hnone
    · exact hlt.trans_le (hturns 0)
    · exact absurd (hended 0 hnone) h0'.2.2
  refine ⟨hlt, fun hrefused hyield => ?_⟩
  have hdone := hphases.eq 1 hrefused
  have hle := hphases'.le 0
  have hyields : s'.yieldTurns 0 ≤ s.yieldTurns 1 := by
    rcases hyield with hserial | hyield
    · rw [hphases'.serial hserial]
      exact Nat.zero_le _
    · exact hyield
  rw [turns, turns] at hlt
  omega

end Counted

/-! ### Two equal functions with a yield point -/

/-- A group's function: work, a yield point, work, and an empty phase. -/
def yielding : ℕ → Prog ℕ ℕ ℕ := fun _ =>
  .leave ⟨1, 7, 0, none⟩ (.call .yieldPoint fun _ => .leave ⟨1, 7, 0, none⟩
    (.call .phaseBegin fun _ => .call .phaseEnd fun _ => .ret 0))

/-- The streams of a step in which yield points hand over. -/
def yieldCfg : Cfg := ⟨1, 2, 3, true, true⟩

/-- A step of the two functions, as `run` finds it. -/
def yieldPipe : Pipe ℕ ℕ ℕ where
  context := 3
  pin := none
  current := 0
  rows _ := 0
  streams _ := 1
  groups _ := ⟨0, none, none, 7, 1⟩
  threads i := ⟨turnCode, some (yielding i)⟩
  started _ := false
  wake _ := false
  finished _ := false
  outputs _ := none
  errors _ := none
  runner := runCode
  savedContext := 0
  savedPin := none
  result := none
  own _ := ⟨1, 7, 0, none⟩

theorem fresh_yieldPipe : Fresh yieldCfg (fun _ => 7) yielding yieldPipe :=
  ⟨rfl, fun _ => rfl, fun _ => rfl, fun _ => rfl, fun _ => rfl, fun _ => rfl, fun _ => rfl,
    fun _ => rfl, rfl, rfl, fun _ => rfl⟩

/-- Group `i` is about to work, before its first phase end. -/
def worksFirst (i : ℕ) (S : Pipe ℕ ℕ ℕ) : Bool :=
  S.started i && (S.threads i).code.isEmpty && (S.groups i).phasesDone == 0 &&
    match (S.threads i).prog with
    | some (.leave _ _) => true
    | _ => false

/-- `run` is over, without an error, and both groups have ended a phase. -/
def overInOrder (S : Pipe ℕ ℕ ℕ) : Bool :=
  S.runner.isEmpty && (S.errors 0).isNone && (S.errors 1).isNone &&
    (S.groups 0).phasesDone == 1 && (S.groups 1).phasesDone == 1

theorem inCode_of_worksFirst {i : ℕ} {S : Pipe ℕ ℕ ℕ} (h : worksFirst i S = true) :
    S.InCode i ∧ (S.groups i).phasesDone = 0 ∧ ∃ w k, (S.threads i).prog = some (.leave w k) := by
  simp only [worksFirst, Bool.and_eq_true, List.isEmpty_iff, beq_iff_eq] at h
  obtain ⟨⟨⟨hstarted, hcode⟩, hdone⟩, hwork⟩ := h
  split at hwork
  · next w k hprog => exact ⟨⟨hstarted, hcode, by simp [hprog]⟩, hdone, w, k, hprog⟩
  · cases hwork

/-- Up to group 1's first work. -/
def firstWork : List Act :=
  List.replicate 4 .run ++ List.replicate 13 (.thread 0 0) ++ List.replicate 6 (.thread 1 0)

/-- On to group 0's work after its yield point. -/
def secondWork : List Act :=
  List.replicate 7 (.thread 1 0) ++ List.replicate 6 (.thread 0 0)

/-- On to the end. -/
def remainder : List Act :=
  List.replicate 8 (.thread 0 0) ++ List.replicate 14 (.thread 1 0) ++
    List.replicate 9 (.thread 0 0) ++ List.replicate 9 (.thread 1 0) ++ List.replicate 6 .run

/-- Group 1 works before its first phase end, and later group 0 before its own, without an
error. -/
theorem yield_before_phase_end : ∃ S S' S'', (pipeSystem yieldCfg yieldPipe).Reachable S ∧
    (pipeSystem yieldCfg S).Reachable S' ∧ (pipeSystem yieldCfg S').Reachable S'' ∧
    S.InCode 1 ∧ (S.groups 1).phasesDone = 0 ∧ (∃ w k, (S.threads 1).prog = some (.leave w k)) ∧
    S'.InCode 0 ∧ (S'.groups 0).phasesDone = 0 ∧ (∃ w k, (S'.threads 0).prog = some (.leave w k)) ∧
    overInOrder S'' = true := by
  have hrun : ((TransitionSystem.replay (Pipe.step yieldCfg) yieldPipe firstWork).any fun S =>
      worksFirst 1 S && (TransitionSystem.replay (Pipe.step yieldCfg) S secondWork).any fun S' =>
        worksFirst 0 S' &&
          (TransitionSystem.replay (Pipe.step yieldCfg) S' remainder).any overInOrder) = true := by
    decide
  obtain ⟨S, hS, h⟩ := (Option.any_eq_true _ _).mp hrun
  obtain ⟨h1, h⟩ := Bool.and_eq_true_iff.mp h
  obtain ⟨S', hS', h⟩ := (Option.any_eq_true _ _).mp h
  obtain ⟨h0, h⟩ := Bool.and_eq_true_iff.mp h
  obtain ⟨S'', hS'', hover⟩ := (Option.any_eq_true _ _).mp h
  obtain ⟨hcode1, hdone1, hwork1⟩ := inCode_of_worksFirst h1
  obtain ⟨hcode0, hdone0, hwork0⟩ := inCode_of_worksFirst h0
  exact ⟨S, S', S'', .replay (.start rfl) hS, .replay (.start rfl) hS', .replay (.start rfl) hS'',
    hcode1, hdone1, hwork1, hcode0, hdone0, hwork0, hover⟩

/-- Group 1's first turn is before group 0's second. -/
theorem groups_in_order_yielding : ∃ s s' : Counted ℕ ℕ ℕ, s.pipe.InCode 1 ∧ s'.pipe.InCode 0 ∧
    s.turns 1 < s'.turns 0 := by
  have hrun : ((TransitionSystem.replay (Counted.step yieldCfg) (.fresh yieldPipe) firstWork).any
      fun s => worksFirst 1 s.pipe &&
        (TransitionSystem.replay (Counted.step yieldCfg) s secondWork).any fun s' =>
          worksFirst 0 s'.pipe) = true := by
    decide
  obtain ⟨s, hs, h⟩ := (Option.any_eq_true _ _).mp hrun
  obtain ⟨h1, h⟩ := Bool.and_eq_true_iff.mp h
  obtain ⟨s', hs', h0⟩ := (Option.any_eq_true _ _).mp h
  have hcode1 := (inCode_of_worksFirst h1).1
  have hcode0 := (inCode_of_worksFirst h0).1
  exact ⟨s, s', hcode1, hcode0, ((Counted.groups_in_order fresh_yieldPipe
    (.replay (.start rfl) hs) (.replay (.start rfl) hs')).2 hcode1 hcode0).1⟩

end PrefillPipe

end VllmMoet
