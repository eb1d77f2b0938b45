import VllmMoet.PrefillPipe.Handoff

/-!
# One thread at a time

Exactly one group has the turn, from the runner's first wake-up to the end of both threads: it
runs, or it was woken and has yet to notice; the other is parked or has ended
(`sched_invariant`). What the thread with the turn sees of the globals at its own code is what
it last left there.
-/

namespace VllmMoet

namespace PrefillPipe

namespace Pipe

variable {R V E : Type*} {C : Cfg} {S S' S₀ : Pipe R V E} {i j n : ℕ} {rest : List Stmt}

/-! ### Where a thread stands -/

/-- The group's record holds what its code left of the pin, the context and the stream. -/
structure Saved (S : Pipe R V E) (i : ℕ) : Prop where
  pin : (S.groups i).pin = (S.own i).pin
  context : (S.groups i).activeContext = (S.own i).context
  stream : (S.groups i).stream = (S.own i).stream

/-- The globals are what the group's code left. -/
structure Loaded (S : Pipe R V E) (i : ℕ) : Prop where
  stream : S.streams i = (S.own i).stream
  context : S.context = (S.own i).context
  current : S.current = i
  pin : S.pin = (S.own i).pin

/-- What holds before each statement of the thread that has the turn. -/
inductive At (S : Pipe R V E) (i : ℕ) : List Stmt → Prop
  | clear (h : S.Saved i) : At S i (.clear :: resumeCode)
  | setStream (h : S.Saved i) : At S i [.setStream, .setContext, .switchRows, .setPin]
  | setContext (h : S.Saved i) (hs : S.streams i = (S.own i).stream) :
    At S i [.setContext, .switchRows, .setPin]
  | switchRows (h : S.Saved i) (hs : S.streams i = (S.own i).stream)
    (hc : S.context = (S.own i).context) : At S i [.switchRows, .setPin]
  | setPin (h : S.Saved i) (hs : S.streams i = (S.own i).stream)
    (hc : S.context = (S.own i).context) (hr : S.current = i) : At S i [.setPin]
  | code (h : S.Loaded i) : At S i []
  | savePin (h : S.Loaded i) : At S i [.savePin, .saveContext, .saveStream, .test]
  | saveContext (h : S.Loaded i) (hp : (S.groups i).pin = (S.own i).pin) :
    At S i [.saveContext, .saveStream, .test]
  | saveStream (h : S.Loaded i) (hp : (S.groups i).pin = (S.own i).pin)
    (hc : (S.groups i).activeContext = (S.own i).context) : At S i [.saveStream, .test]
  | test (h : S.Saved i) : At S i [.test]
  | wakeOther (h : S.Saved i) (hf : S.finished (other i) = false) :
    At S i (.wakeOther :: turnCode)

/-- The group's function has not ended. -/
structure Alive (S : Pipe R V E) (i : ℕ) : Prop where
  prog : (S.threads i).prog ≠ none
  finished : S.finished i = false
  outcome : S.outputs i = none ∧ S.errors i = none

/-- The group's function returned or raised. -/
structure Gone (S : Pipe R V E) (i : ℕ) : Prop where
  prog : (S.threads i).prog = none
  outcome : (∃ v, S.outputs i = some v ∧ S.errors i = none) ∨
    ∃ e, S.outputs i = none ∧ S.errors i = some e

/-- The thread waits for its turn. -/
def Parked (S : Pipe R V E) (i : ℕ) : Prop :=
  S.Alive i ∧ S.Saved i ∧ (S.threads i).code = turnCode

/-- The thread has the turn and runs. -/
def Running (S : Pipe R V E) (i : ℕ) : Prop :=
  S.Alive i ∧ At S i (S.threads i).code ∧
    ((S.threads i).code ≠ .clear :: resumeCode → S.wake i = false)

/-- The thread has the turn and is in its `finally`. -/
def Ending (S : Pipe R V E) (i : ℕ) : Prop :=
  S.Gone i ∧ (((S.threads i).code = finallyCode ∧ S.finished i = false) ∨
    ((S.threads i).code = [.wakeOther] ∧ S.finished i = true))

/-- The thread has nothing left to do. -/
def Over (S : Pipe R V E) (i : ℕ) : Prop :=
  S.Gone i ∧ (S.threads i).code = [] ∧ S.finished i = true

/-- Group `i` has the turn. -/
structure Turn (S : Pipe R V E) (i : ℕ) : Prop where
  lt : i < 2
  holder : S.Running i ∨ S.Ending i ∨ (S.Parked i ∧ S.wake i = true)
  rest : (S.Parked (other i) ∧ S.wake (other i) = false) ∨ S.Over (other i)

theorem other_lt (i : ℕ) : other i < 2 := Nat.mod_lt _ Nat.two_pos

theorem other_ne (i : ℕ) : other i ≠ i := by
  rw [other]
  omega

theorem other_other (h : i < 2) : other (other i) = i := by
  rw [other, other]
  omega

theorem eq_or_eq_other (h : i < 2) (hj : j < 2) : j = i ∨ j = other i := by
  rw [other]
  omega

/-! ### What a step leaves alone -/

/-- Nothing of group `j` changes. -/
structure Same (S S' : Pipe R V E) (j : ℕ) : Prop where
  threads : S'.threads j = S.threads j
  groups : S'.groups j = S.groups j
  own : S'.own j = S.own j
  finished : S'.finished j = S.finished j
  outputs : S'.outputs j = S.outputs j
  errors : S'.errors j = S.errors j

/-- A thread that is left alone stays parked. -/
theorem Parked.same (h : S.Parked j) (hs : Same S S' j) : S'.Parked j := by
  obtain ⟨⟨hprog, hfin, hout⟩, ⟨hp, hc, hst⟩, hcode⟩ := h
  refine ⟨⟨?_, ?_, ?_⟩, ⟨?_, ?_, ?_⟩, ?_⟩
  · rwa [hs.threads]
  · rwa [hs.finished]
  · rwa [hs.outputs, hs.errors]
  · rwa [hs.groups, hs.own]
  · rwa [hs.groups, hs.own]
  · rwa [hs.groups, hs.own]
  · rwa [hs.threads]

/-- A thread that is over and left alone stays over. -/
theorem Over.same (h : S.Over j) (hs : Same S S' j) : S'.Over j := by
  obtain ⟨⟨hprog, hout⟩, hcode, hfin⟩ := h
  refine ⟨⟨?_, ?_⟩, ?_, ?_⟩
  · rwa [hs.threads]
  · rwa [hs.outputs, hs.errors]
  · rwa [hs.threads]
  · rwa [hs.finished]

/-- The thread with the turn goes on running. -/
theorem Turn.run (h : S.Turn i) (hs : Same S S' (other i))
    (hw : S'.wake (other i) = S.wake (other i)) (hrun : S'.Running i ∨ S'.Ending i) :
    S'.Turn i := by
  refine ⟨h.lt, hrun.imp_right .inl, ?_⟩
  rcases h.rest with ⟨hp, hf⟩ | ho
  · exact .inl ⟨hp.same hs, hw.trans hf⟩
  · exact .inr (ho.same hs)

/-! ### A step of a thread -/

/-- A thread with code runs its next statement. -/
theorem stepThread_cons {s : Stmt} {rest : List Stmt} (hcode : (S.threads i).code = s :: rest)
    (hs : S.stepThread C i n = some S') : S.exec i (S.threads i).prog rest s = some S' := by
  rw [stepThread] at hs
  split at hs
  · rw [hcode] at hs
    exact hs
  · simp at hs

/-- A thread without code goes on with its program. -/
theorem stepThread_nil (hcode : (S.threads i).code = [])
    (hs : S.stepThread C i n = some S') :
    ∃ p, (S.threads i).prog = some p ∧ S.runProg C i n p = S' := by
  rw [stepThread] at hs
  split at hs
  · rw [hcode] at hs
    exact Option.map_eq_some_iff.mp hs
  · simp at hs

/-- A thread that waits for its turn does not move. -/
theorem Parked.stuck (h : S.Parked i) (hw : S.wake i = false) : S.stepThread C i n = none := by
  rcases hs : S.stepThread C i n with _ | S'
  · rfl
  · have hexec := stepThread_cons h.2.2 hs
    simp [exec, hw] at hexec

/-- Neither does one that has ended. -/
theorem Over.stuck (h : S.Over i) : S.stepThread C i n = none := by
  rcases hs : S.stepThread C i n with _ | S'
  · rfl
  · obtain ⟨p, hp, -⟩ := stepThread_nil h.2.1 hs
    rw [h.1.prog] at hp
    simp at hp

/-- Where a thread stands does not depend on what the threads have left to do. -/
theorem At.other (h : At S i rest) (threads : ℕ → Thread R V E) (runner : List RunStmt) :
    At { S with
      threads := threads
      runner := runner } i rest := by
  cases h with
  | clear h => exact .clear ⟨h.pin, h.context, h.stream⟩
  | setStream h => exact .setStream ⟨h.pin, h.context, h.stream⟩
  | setContext h hs => exact .setContext ⟨h.pin, h.context, h.stream⟩ hs
  | switchRows h hs hc => exact .switchRows ⟨h.pin, h.context, h.stream⟩ hs hc
  | setPin h hs hc hr => exact .setPin ⟨h.pin, h.context, h.stream⟩ hs hc hr
  | code h => exact .code ⟨h.stream, h.context, h.current, h.pin⟩
  | savePin h => exact .savePin ⟨h.stream, h.context, h.current, h.pin⟩
  | saveContext h hp => exact .saveContext ⟨h.stream, h.context, h.current, h.pin⟩ hp
  | saveStream h hp hc => exact .saveStream ⟨h.stream, h.context, h.current, h.pin⟩ hp hc
  | test h => exact .test ⟨h.pin, h.context, h.stream⟩
  | wakeOther h hf => exact .wakeOther ⟨h.pin, h.context, h.stream⟩ hf

/-- What a statement leaves alone. -/
structure Quiet (S S' : Pipe R V E) (i : ℕ) : Prop where
  same : Same S S' (other i)
  wake : S'.wake (other i) = S.wake (other i)
  finished : S'.finished i = S.finished i
  outputs : S'.outputs i = S.outputs i
  errors : S'.errors i = S.errors i

/-- A thread that runs goes on with `rest`. -/
theorem Running.goOn (h : S.Running i) (hq : Quiet S S' i) (hat : At S' i rest)
    (hw : rest ≠ .clear :: resumeCode → S'.wake i = false) {prog : Option (Prog R V E)}
    (hprog : prog ≠ none) :
    Same S (S'.goOn i rest prog) (other i) ∧ (S'.goOn i rest prog).Running i ∧
      (S'.goOn i rest prog).wake (other i) = S.wake (other i) := by
  obtain ⟨hthreads, hgroups, hown, hfin, hout, herr⟩ := hq.same
  obtain ⟨⟨-, hfin', hout'⟩, -, -⟩ := h
  have hself : (S'.goOn i rest prog).threads i = ⟨rest, prog⟩ := by simp [Pipe.goOn]
  refine ⟨⟨?_, hgroups, hown, hfin, hout, herr⟩, ⟨⟨?_, ?_, ?_⟩, ?_, ?_⟩, hq.wake⟩
  · rw [← hthreads]
    simp [Pipe.goOn, other_ne]
  · rwa [hself]
  · exact hq.finished.trans hfin'
  · exact ⟨hq.outputs.trans hout'.1, hq.errors.trans hout'.2⟩
  · rw [hself]
    exact hat.other _ S'.runner
  · rw [hself]
    exact hw

theorem same_goOn {code : List Stmt} {prog : Option (Prog R V E)} :
    Same S (S.goOn i code prog) (other i) :=
  ⟨by simp [Pipe.goOn, other_ne], rfl, rfl, rfl, rfl, rfl⟩

/-- **A statement** of the thread with the turn: it runs on, or it parks and has woken the
other one. -/
theorem Running.exec (h : S.Running i) {s : Stmt} (hcode : (S.threads i).code = s :: rest)
    (hs : S.exec i (S.threads i).prog rest s = some S') :
    Same S S' (other i) ∧ ((S'.Running i ∧ S'.wake (other i) = S.wake (other i)) ∨
      (S'.Parked i ∧ S'.wake i = false ∧ S'.wake (other i) = true ∧
        S.finished (other i) = false)) := by
  have hat := h.2.1
  have hw := h.2.2
  have hprog := h.1.prog
  rw [hcode] at hat hw
  have hne := other_ne i
  have hsame : Same S S (other i) := ⟨rfl, rfl, rfl, rfl, rfl, rfl⟩
  -- the statements that write the group's record
  have hrecord : ∀ G, Quiet S (S.setGroup i G) i := fun G =>
    ⟨⟨rfl, by simp [Pipe.setGroup, hne], rfl, rfl, rfl, rfl⟩, rfl, rfl, rfl, rfl⟩
  have hon : ∀ {S₁ : Pipe R V E}, Quiet S S₁ i → At S₁ i rest →
      (rest ≠ .clear :: resumeCode → S₁.wake i = false) →
      Same S (S₁.goOn i rest (S.threads i).prog) (other i) ∧
        (((S₁.goOn i rest (S.threads i).prog).Running i ∧
          (S₁.goOn i rest (S.threads i).prog).wake (other i) = S.wake (other i)) ∨
        ((S₁.goOn i rest (S.threads i).prog).Parked i ∧
          (S₁.goOn i rest (S.threads i).prog).wake i = false ∧
          (S₁.goOn i rest (S.threads i).prog).wake (other i) = true ∧
          S.finished (other i) = false)) := fun hq hat' hw' =>
    (h.goOn hq hat' hw' hprog).imp_right .inl
  cases hat with
  | clear h =>
    obtain rfl := Option.some.inj hs
    refine hon ⟨⟨rfl, rfl, rfl, rfl, rfl, rfl⟩, ?_, rfl, rfl, rfl⟩
      (.setStream ⟨h.pin, h.context, h.stream⟩) fun _ => ?_
    · exact Function.update_of_ne hne ..
    · exact Function.update_self ..
  | setStream h =>
    obtain rfl := Option.some.inj hs
    refine hon ⟨⟨rfl, rfl, rfl, rfl, rfl, rfl⟩, rfl, rfl, rfl, rfl⟩
      (.setContext ⟨h.pin, h.context, h.stream⟩ ?_) fun _ => hw (by simp)
    simp [Pipe.setStream, h.stream]
  | setContext h hst =>
    obtain rfl := Option.some.inj hs
    exact hon ⟨⟨rfl, rfl, rfl, rfl, rfl, rfl⟩, rfl, rfl, rfl, rfl⟩
      (.switchRows ⟨h.pin, h.context, h.stream⟩ hst h.context) fun _ => hw (by simp)
  | switchRows h hst hc =>
    obtain rfl := Option.some.inj hs
    exact hon ⟨⟨rfl, rfl, rfl, rfl, rfl, rfl⟩, rfl, rfl, rfl, rfl⟩
      (.setPin ⟨h.pin, h.context, h.stream⟩ hst hc rfl) fun _ => hw (by simp)
  | setPin h hst hc hr =>
    obtain rfl := Option.some.inj hs
    exact hon ⟨⟨rfl, rfl, rfl, rfl, rfl, rfl⟩, rfl, rfl, rfl, rfl⟩
      (.code ⟨hst, hc, hr, h.pin⟩) fun _ => hw (by simp)
  | savePin h =>
    obtain rfl := Option.some.inj hs
    refine hon (hrecord _) (.saveContext ⟨h.stream, h.context, h.current, h.pin⟩ ?_)
      fun _ => hw (by simp)
    simp [Pipe.setGroup, h.pin]
  | saveContext h hp =>
    obtain rfl := Option.some.inj hs
    refine hon (hrecord _) (.saveStream ⟨h.stream, h.context, h.current, h.pin⟩ ?_ ?_)
      fun _ => hw (by simp)
    · simp [Pipe.setGroup, hp]
    · simp [Pipe.setGroup, h.context]
  | saveStream h hp hc =>
    obtain rfl := Option.some.inj hs
    refine hon (hrecord _) (.test ⟨?_, ?_, ?_⟩) fun _ => hw (by simp)
    · simp [Pipe.setGroup, hp]
    · simp [Pipe.setGroup, hc]
    · simp [Pipe.setGroup, h.stream]
  | test hsv =>
    rw [Pipe.exec] at hs
    split at hs
    · obtain rfl := Option.some.inj hs
      exact (h.goOn ⟨hsame, rfl, rfl, rfl, rfl⟩ (.setStream hsv) (fun _ => hw (by simp))
        hprog).imp_right .inl
    · next hf =>
      obtain rfl := Option.some.inj hs
      exact (h.goOn ⟨hsame, rfl, rfl, rfl, rfl⟩ (.wakeOther hsv (by simpa using hf))
        (fun _ => hw (by simp)) hprog).imp_right .inl
  | wakeOther hsv hf =>
    -- the other thread has the turn from here on
    obtain rfl := Option.some.inj hs
    refine ⟨⟨by simp [Pipe.goOn, hne], rfl, rfl, rfl, rfl, rfl⟩,
      .inr ⟨⟨⟨?_, h.1.finished, h.1.outcome⟩, ⟨hsv.pin, hsv.context, hsv.stream⟩, ?_⟩, ?_, ?_,
        hf⟩⟩
    · simpa [Pipe.goOn] using hprog
    · simp [Pipe.goOn]
    · simpa [Pipe.goOn, hne.symm] using hw (by simp)
    · simp [Pipe.goOn]

/-! ### The groups' code -/

/-- The row buffers hold what each group left there. -/
def RowsOwn (S : Pipe R V E) : Prop := ∀ k, S.rows k = (S.own k).rows

/-- A group that is loaded sees what it owns. -/
theorem Loaded.view (h : S.Loaded i) (hr : S.RowsOwn) : S.view i = S.own i := by
  have hrows := hr i
  rw [Pipe.view, h.stream, h.context, h.current, h.pin, hrows]

/-- What a group's code leaves is what it sees next. -/
theorem loaded_left (hc : S.current = i) : (S.left i).Loaded i := by
  have hself : (S.left i).own i = S.view i := Function.update_self ..
  refine ⟨?_, ?_, hc, ?_⟩
  · rw [hself]
    rfl
  · rw [hself]
    rfl
  · rw [hself]
    rfl

/-- A group that is left owns the rows it has worked on. -/
theorem rowsOwn_left (hr : S.RowsOwn) (hc : S.current = i) : (S.left i).RowsOwn := by
  intro k
  rcases eq_or_ne k i with rfl | hne
  · have hself : (S.left k).own k = S.view k := Function.update_self ..
    rw [hself, Pipe.view, hc]
    rfl
  · have hother : (S.left i).own k = S.own k := Function.update_of_ne hne ..
    rw [hother]
    exact hr k

/-- A call changes the thread's stream and the group's record. -/
theorem call_frame (C : Cfg) (S : Pipe R V E) (i : ℕ) (c : Call) :
    ∃ s G, (S.call C i c).1 = (S.setStream i s).setGroup i G := by
  have hsame : ∃ s G, S = (S.setStream i s).setGroup i G :=
    ⟨S.streams i, S.groups i, by simp [Pipe.setStream, Pipe.setGroup]⟩
  have hbegin : ∀ kind, ∃ s G, (S.beginPhase C i kind).1 = (S.setStream i s).setGroup i G := by
    intro kind
    rw [Pipe.beginPhase]
    split
    · split
      · exact hsame
      · exact ⟨_, _, rfl⟩
    · exact hsame
  have hend : ∃ s G, (S.phaseEnd C i).1 = (S.setStream i s).setGroup i G := by
    rw [Pipe.phaseEnd]
    split
    · split
      · exact hsame
      · exact ⟨_, _, rfl⟩
    · exact hsame
  cases c with
  | phaseBegin => exact hbegin .comm
  | phaseEnd => exact hend
  | replayBegin =>
    rw [Pipe.call]
    split
    · exact hbegin .replay
    · exact hsame
  | replayEnd =>
    rw [Pipe.call]
    split
    · exact hend
    · exact hsame
  | yieldPoint =>
    rw [Pipe.call]
    split
    · exact hsame
    · split
      · exact hsame
      · exact hsame

/-- **An interaction** of the group's function: the thread runs on, or ends. -/
theorem Running.runProg (h : S.Running i) (hr : S.RowsOwn) (hcode : (S.threads i).code = [])
    (p : Prog R V E) :
    Same S (S.runProg C i n p) (other i) ∧
      (S.runProg C i n p).wake (other i) = S.wake (other i) ∧
      ((S.runProg C i n p).Running i ∨ (S.runProg C i n p).Ending i) ∧
      (S.runProg C i n p).RowsOwn := by
  have hat := h.2.1
  have hw : S.wake i = false := h.2.2 (by simp [hcode])
  rw [hcode] at hat
  obtain ⟨-, hfin, hout⟩ := h.1
  have hne := other_ne i
  have hquiet : ∀ s G, Quiet S (((S.setStream i s).setGroup i G).left i) i := fun s G =>
    ⟨⟨rfl, by simp [Pipe.left, Pipe.setGroup, Pipe.setStream, hne], by simp [Pipe.left,
      Pipe.setGroup, Pipe.setStream, hne], rfl, rfl, rfl⟩, rfl, rfl, rfl, rfl⟩
  cases hat with
  | code hload =>
  have hon : ∀ {S₁ : Pipe R V E} (code : List Stmt) (q : Prog R V E), Quiet S S₁ i →
      At S₁ i code → S₁.wake i = false → S₁.RowsOwn →
      Same S (S₁.goOn i code (some q)) (other i) ∧
        (S₁.goOn i code (some q)).wake (other i) = S.wake (other i) ∧
        ((S₁.goOn i code (some q)).Running i ∨ (S₁.goOn i code (some q)).Ending i) ∧
        (S₁.goOn i code (some q)).RowsOwn := by
    intro S₁ code q hq hat' hw' hr'
    have hsome : (some q : Option (Prog R V E)) ≠ none := by simp
    obtain ⟨hs, hrun, hwo⟩ := h.goOn hq hat' (fun _ => hw') hsome
    exact ⟨hs, hwo, .inl hrun, hr'⟩
  cases p with
  | ret v =>
    refine ⟨⟨by simp [Pipe.runProg, Pipe.goOn, hne], rfl, rfl, rfl,
      by simp [Pipe.runProg, Pipe.goOn, hne], rfl⟩, rfl,
      .inr ⟨⟨?_, .inl ⟨v, ?_, hout.2⟩⟩, .inl ⟨?_, hfin⟩⟩, hr⟩
    · simp [Pipe.runProg, Pipe.goOn]
    · simp [Pipe.runProg, Pipe.goOn]
    · simp [Pipe.runProg, Pipe.goOn]
  | raise e =>
    refine ⟨⟨by simp [Pipe.runProg, Pipe.goOn, hne], rfl, rfl, rfl, rfl,
      by simp [Pipe.runProg, Pipe.goOn, hne]⟩, rfl,
      .inr ⟨⟨?_, .inr ⟨e, hout.1, ?_⟩⟩, .inl ⟨?_, hfin⟩⟩, hr⟩
    · simp [Pipe.runProg, Pipe.goOn]
    · simp [Pipe.runProg, Pipe.goOn]
    · simp [Pipe.runProg, Pipe.goOn]
  | look k =>
    exact hon [] _ ⟨⟨rfl, rfl, rfl, rfl, rfl, rfl⟩, rfl, rfl, rfl, rfl⟩ (.code hload) hw hr
  | choose k =>
    exact hon [] _ ⟨⟨rfl, rfl, rfl, rfl, rfl, rfl⟩, rfl, rfl, rfl, rfl⟩ (.code hload) hw hr
  | leave w k =>
    refine hon [] k ⟨⟨rfl, rfl, by simp [Pipe.left, Pipe.setStream, hne], rfl, rfl, rfl⟩, rfl, rfl,
      rfl, rfl⟩ (.code (loaded_left hload.current)) hw fun m => ?_
    -- only this group's buffers are written
    rcases eq_or_ne m i with rfl | hm
    · simp [Pipe.left, Pipe.setStream, Pipe.view, hload.current]
    · have hrows := hr m
      simpa [Pipe.left, Pipe.setStream, hload.current, hm] using hrows
  | call c k =>
    obtain ⟨s, G, hframe⟩ := call_frame C S i c
    have hq := hquiet s G
    have hl : (((S.setStream i s).setGroup i G).left i).Loaded i := loaded_left hload.current
    have hr' : (((S.setStream i s).setGroup i G).left i).RowsOwn :=
      rowsOwn_left (S := (S.setStream i s).setGroup i G) hr hload.current
    rw [Pipe.runProg, hframe]
    split
    · exact hon [] _ hq (.code hl) hw hr'
    · exact hon [] _ hq (.code hl) hw hr'
    · exact hon yieldCode _ hq (.savePin hl) hw hr'

/-! ### The turn -/

/-- A step of a thread that is in its `finally`. -/
theorem Ending.exec (h : S.Ending i) {s : Stmt} (hcode : (S.threads i).code = s :: rest)
    (hs : S.exec i (S.threads i).prog rest s = some S') :
    Same S S' (other i) ∧ ((S'.Ending i ∧ S'.wake (other i) = S.wake (other i)) ∨
      (S'.Over i ∧ S'.wake (other i) = true)) := by
  obtain ⟨⟨hprog, hout⟩, ⟨hfc, hfin⟩ | ⟨hfc, hfin⟩⟩ := h
  · rw [finallyCode, hcode] at hfc
    obtain ⟨rfl, rfl⟩ := List.cons.inj hfc
    obtain rfl := Option.some.inj hs
    refine ⟨⟨by simp [Pipe.goOn, other_ne], rfl, rfl, by simp [Pipe.goOn, other_ne], rfl, rfl⟩,
      .inl ⟨⟨⟨?_, hout⟩, .inr ⟨?_, ?_⟩⟩, rfl⟩⟩
    · simpa [Pipe.goOn] using hprog
    · simp [Pipe.goOn]
    · simp [Pipe.goOn]
  · rw [hcode] at hfc
    obtain ⟨rfl, rfl⟩ := List.cons.inj hfc
    obtain rfl := Option.some.inj hs
    refine ⟨⟨by simp [Pipe.goOn, other_ne], rfl, rfl, rfl, rfl, rfl⟩,
      .inr ⟨⟨⟨?_, hout⟩, ?_, hfin⟩, ?_⟩⟩
    · simpa [Pipe.goOn] using hprog
    · simp [Pipe.goOn]
    · simp [Pipe.goOn]

/-- What no step of a thread changes. -/
structure Kept (S S' : Pipe R V E) : Prop where
  started : S'.started = S.started
  runner : S'.runner = S.runner
  saved : S'.savedContext = S.savedContext ∧ S'.savedPin = S.savedPin
  result : S'.result = S.result

/-- A statement keeps what the runner has set, and the rows. -/
theorem exec_kept {s : Stmt} {prog : Option (Prog R V E)} (hs : S.exec i prog rest s = some S') :
    Kept S S' ∧ S'.rows = S.rows ∧ S'.own = S.own := by
  cases s with
  | test =>
    rw [Pipe.exec] at hs
    split at hs <;> obtain rfl := Option.some.inj hs <;>
      exact ⟨⟨rfl, rfl, ⟨rfl, rfl⟩, rfl⟩, rfl, rfl⟩
  | wait =>
    rw [Pipe.exec] at hs
    split at hs
    · obtain rfl := Option.some.inj hs
      exact ⟨⟨rfl, rfl, ⟨rfl, rfl⟩, rfl⟩, rfl, rfl⟩
    · simp at hs
  | _ =>
    obtain rfl := Option.some.inj hs
    exact ⟨⟨rfl, rfl, ⟨rfl, rfl⟩, rfl⟩, rfl, rfl⟩

theorem runProg_kept (p : Prog R V E) : Kept S (S.runProg C i n p) := by
  cases p with
  | call c k =>
    obtain ⟨s, G, hframe⟩ := call_frame C S i c
    rw [Pipe.runProg, hframe]
    split <;> exact ⟨rfl, rfl, ⟨rfl, rfl⟩, rfl⟩
  | _ => exact ⟨rfl, rfl, ⟨rfl, rfl⟩, rfl⟩

theorem stepThread_kept (hs : S.stepThread C i n = some S') : Kept S S' := by
  rw [stepThread] at hs
  split at hs
  · split at hs
    · exact (exec_kept hs).1
    · obtain ⟨p, -, rfl⟩ := Option.map_eq_some_iff.mp hs
      exact runProg_kept p
  · simp at hs

/-- **A step of a thread** leaves one group with the turn, or both threads at their end. -/
theorem Turn.step (h : S.Turn i) (hr : S.RowsOwn) (hs : S.stepThread C j n = some S') :
    ((∃ k, S'.Turn k) ∨ (S'.Over 0 ∧ S'.Over 1)) ∧ S'.RowsOwn ∧
      ∀ k < 2, S.Over k → S'.Over k := by
  have hj : j < 2 := by
    by_contra hj
    rw [stepThread, if_neg fun hand => hj hand.1] at hs
    simp at hs
  obtain rfl | rfl := eq_or_eq_other h.lt hj
  · -- the thread with the turn
    have hover : Same S S' (other j) → ¬ S.Over j → ∀ k < 2, S.Over k → S'.Over k := by
      intro hsame hnot k hk hok
      obtain rfl | rfl := eq_or_eq_other h.lt hk
      · exact absurd hok hnot
      · exact hok.same hsame
    -- it runs its program, or its last statements, or is woken up
    rcases h.holder with hrun | hend | ⟨hpark, hwake⟩
    · have hnot : ¬ S.Over j := fun ho => hrun.1.prog ho.1.prog
      -- a thread whose statements are done goes on with its program
      rcases hcode : (S.threads j).code with _ | ⟨s, rest⟩
      · obtain ⟨p, -, rfl⟩ := stepThread_nil hcode hs
        obtain ⟨hsame, hw, hnext, hr'⟩ := hrun.runProg (C := C) (n := n) hr hcode p
        exact ⟨.inl ⟨j, h.run hsame hw hnext⟩, hr', hover hsame hnot⟩
      · have hexec := stepThread_cons hcode hs
        obtain ⟨hsame, hnext⟩ := hrun.exec hcode hexec
        obtain ⟨-, hrows, hown⟩ := exec_kept hexec
        refine ⟨?_, fun k => by rw [hrows, hown]; exact hr k, hover hsame hnot⟩
        rcases hnext with ⟨hrun', hw⟩ | ⟨hpark, hw, hwo, hf⟩
        · exact .inl ⟨j, h.run hsame hw (.inl hrun')⟩
        · -- the other one has not ended, so it is parked, and woken
          rcases h.rest with ⟨hp, -⟩ | ho
          · refine .inl ⟨other j, other_lt j, .inr (.inr ⟨hp.same hsame, hwo⟩), .inl ?_⟩
            rw [other_other h.lt]
            exact ⟨hpark, hw⟩
          · rw [ho.2.2] at hf
            simp at hf
    · have hnot : ¬ S.Over j := by
        rintro ⟨-, hcode, -⟩
        rcases hend.2 with ⟨hfc, -⟩ | ⟨hfc, -⟩
        · rw [hcode] at hfc
          simp [finallyCode] at hfc
        · rw [hcode] at hfc
          simp at hfc
      rcases hcode : (S.threads j).code with _ | ⟨s, rest⟩
      · rcases hend.2 with ⟨hfc, -⟩ | ⟨hfc, -⟩
        · rw [hcode] at hfc
          simp [finallyCode] at hfc
        · rw [hcode] at hfc
          simp at hfc
      · have hexec := stepThread_cons hcode hs
        obtain ⟨hsame, hnext⟩ := hend.exec hcode hexec
        obtain ⟨-, hrows, hown⟩ := exec_kept hexec
        refine ⟨?_, fun k => by rw [hrows, hown]; exact hr k, hover hsame hnot⟩
        rcases hnext with ⟨hend', hw⟩ | ⟨hover', hwo⟩
        · exact .inl ⟨j, h.run hsame hw (.inr hend')⟩
        · rcases h.rest with ⟨hp, -⟩ | ho
          · refine .inl ⟨other j, other_lt j, .inr (.inr ⟨hp.same hsame, hwo⟩), .inr ?_⟩
            rw [other_other h.lt]
            exact hover'
          · -- the other thread had ended before, so both are over now
            right
            have ho' := ho.same hsame
            have hlt := h.lt
            rcases j with _ | _ | j
            · exact ⟨hover', ho'⟩
            · exact ⟨ho', hover'⟩
            · omega
    · have hnot : ¬ S.Over j := fun ho => hpark.1.prog ho.1.prog
      have hexec := stepThread_cons hpark.2.2 hs
      rw [Pipe.exec, if_pos hwake] at hexec
      obtain rfl := Option.some.inj hexec
      refine ⟨.inl ⟨j, h.run same_goOn rfl (.inl ⟨⟨?_, hpark.1.finished, hpark.1.outcome⟩, ?_, ?_⟩)⟩,
        hr, hover same_goOn hnot⟩
      · simpa [Pipe.goOn] using hpark.1.prog
      · simp only [Pipe.goOn, Function.update_self]
        exact .clear ⟨hpark.2.1.pin, hpark.2.1.context, hpark.2.1.stream⟩
      · simp [Pipe.goOn]
  · -- the other one does not move
    rcases h.rest with ⟨hp, hf⟩ | ho
    · rw [hp.stuck hf] at hs
      simp at hs
    · rw [ho.stuck] at hs
      simp at hs

/-- The runner's statements leave the turn alone. -/
theorem Turn.setRunner (h : S.Turn i) (runner : List RunStmt) :
    { S with runner := runner }.Turn i := by
  have hsame : ∀ k, Same S { S with runner := runner } k := fun _ =>
    ⟨rfl, rfl, rfl, rfl, rfl, rfl⟩
  refine ⟨h.lt, ?_, ?_⟩
  · rcases h.holder with ⟨⟨hprog, hfin, hout⟩, hat, hw⟩ | ⟨⟨hprog, hout⟩, hend⟩ | ⟨hpark, hw⟩
    · exact .inl ⟨⟨hprog, hfin, hout⟩, hat.other S.threads _, hw⟩
    · exact .inr (.inl ⟨⟨hprog, hout⟩, hend⟩)
    · exact .inr (.inr ⟨hpark.same (hsame i), hw⟩)
  · exact h.rest.imp (fun hp => ⟨hp.1.same (hsame _), hp.2⟩) fun ho => ho.same (hsame _)

end Pipe

end PrefillPipe

end VllmMoet
