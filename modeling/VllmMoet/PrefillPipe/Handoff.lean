import Mathlib.Data.Nat.Notation
import Mathlib.Logic.Function.Basic
import VllmMoet.Lib.Transition

/-!
# The handoff of the prefill pipeline

`moet_prefill_pipe.py`: the two row groups of a step run on a thread each and hand the CPU to
each other at the phase ends.

* `Prog`: what a group's function does, as a tree of its interactions with the handoff;
* `Stmt`: the statements of `_save`, `yield_`, `_wait_turn`, `_resume` and `_thread_main`;
* `RunStmt`: the statements of `PipeStep.run`;
* `Pipe`: the threads, the wake events, and the globals they share;
* `Pipe.step`: one statement of one thread.

A context, a stream or a pin is a number that stands for the object. `PipeStep.wake[i].wait`
has no timeout. What the streams wait for on the GPU is left out, and so are the events.
-/

namespace VllmMoet

namespace PrefillPipe

variable {R V E : Type*}

/-! ### The groups' functions -/

/-- `phase_kind`. -/
inductive Kind
  | comm
  | replay
  deriving DecidableEq

/-- What a group's function raises: the handoff's own errors, with the values in their texts,
and the others. -/
inductive PipeError (E : Type*)
  /-- a phase was opened inside an open one -/
  | nested (kind phaseKind : Kind)
  /-- an earlier group has ended fewer phases -/
  | order (idx phasesDone earlier earlierDone : ℕ)
  | other (e : E)

/-- What a group's code sees of the globals: its thread's stream, `_forward_context`, the row
buffers' contents and `_MOET_SP_PIN_TOKENS`. Without row buffers `R` is a unit type. -/
structure View (R : Type*) where
  stream : ℕ
  context : ℕ
  rows : R
  pin : Option ℕ

/-- The calls of the handoff. -/
inductive Call
  | phaseBegin
  | phaseEnd
  | replayBegin
  | replayEnd
  | yieldPoint
  deriving DecidableEq

/-- A group's function: it returns, raises, looks at the globals, leaves them changed, takes
something from elsewhere, or makes a call, which comes back with or without an error. -/
inductive Prog (R V E : Type*)
  | ret (v : V)
  | raise (e : PipeError E)
  | look (k : View R → Prog R V E)
  | leave (w : View R) (k : Prog R V E)
  | choose (k : ℕ → Prog R V E)
  | call (c : Call) (k : Option (PipeError E) → Prog R V E)

/-! ### The records -/

/-- The streams of a step, and the switches. -/
structure Cfg where
  computeStream : ℕ
  commStream : ℕ
  replayStream : ℕ
  pipelined : Bool
  streamReplay : Bool

/-- `PipeGroup`, what the handoff keeps of it. `openPhase` is `phase_kind` while
`phase_open`; `phase_stream` is its stream. -/
structure Group where
  phasesDone : ℕ
  openPhase : Option Kind
  pin : Option ℕ
  activeContext : ℕ
  stream : ℕ

/-- The statements of a group's thread. -/
inductive Stmt
  | savePin
  | saveContext
  | saveStream
  /-- `if not self.finished[other]` -/
  | test
  /-- `self.wake[other].set()` -/
  | wakeOther
  | wait
  | clear
  | setStream
  | setContext
  | switchRows
  | setPin
  /-- `self.finished[g.idx] = True` -/
  | finish
  deriving DecidableEq

/-- `_resume`. -/
def resumeCode : List Stmt := [.setStream, .setContext, .switchRows, .setPin]

/-- `_wait_turn` and `_resume`. -/
def turnCode : List Stmt := .wait :: .clear :: resumeCode

/-- `yield_`, up to its branch. -/
def yieldCode : List Stmt := [.savePin, .saveContext, .saveStream, .test]

/-- The `finally` of `_thread_main`. -/
def finallyCode : List Stmt := [.finish, .wakeOther]

/-- A group's thread: the statements before it goes on with its function, and what is left of
the function; nothing, once it returned or raised. -/
structure Thread (R V E : Type*) where
  code : List Stmt
  prog : Option (Prog R V E)

/-- The statements of `PipeStep.run`. -/
inductive RunStmt
  | save
  | start (i : ℕ)
  | wake
  | join (i : ℕ)
  | setContext
  | switchRows
  | setPin
  | result
  deriving DecidableEq

/-- `PipeStep.run`. -/
def runCode : List RunStmt :=
  [.save, .start 0, .start 1, .wake, .join 0, .join 1, .setContext, .switchRows, .setPin, .result]

/-- What `run` comes back with: the outputs, the error that names a group, or the lookup of an
output that is not there. -/
inductive Result (V E : Type*)
  | outputs (vs : List V)
  | failed (group : ℕ) (cause : PipeError E)
  | missing

/-- A step under way. `own i` is what group `i`'s code last left of the globals. -/
structure Pipe (R V E : Type*) where
  context : ℕ
  pin : Option ℕ
  current : ℕ
  rows : ℕ → R
  streams : ℕ → ℕ
  groups : ℕ → Group
  threads : ℕ → Thread R V E
  started : ℕ → Bool
  wake : ℕ → Bool
  finished : ℕ → Bool
  outputs : ℕ → Option V
  errors : ℕ → Option (PipeError E)
  runner : List RunStmt
  savedContext : ℕ
  savedPin : Option ℕ
  result : Option (Result V E)
  own : ℕ → View R

/-- The other group. -/
def other (i : ℕ) : ℕ := (i + 1) % 2

namespace Pipe

variable (C : Cfg) (S : Pipe R V E) (i : ℕ)

/-- What group `i`'s code sees of the globals. -/
def view : View R := ⟨S.streams i, S.context, S.rows S.current, S.pin⟩

/-- Group `i` leaves the globals as they are. -/
def left : Pipe R V E := { S with own := Function.update S.own i (S.view i) }

/-- Replace a group's record. -/
def setGroup (G : Group) : Pipe R V E := { S with groups := Function.update S.groups i G }

/-- `set_stream`, on group `i`'s thread. -/
def setStream (s : ℕ) : Pipe R V E := { S with streams := Function.update S.streams i s }

/-- A thread goes on with `code` and then with `prog`. -/
def goOn (code : List Stmt) (prog : Option (Prog R V E)) : Pipe R V E :=
  { S with threads := Function.update S.threads i ⟨code, prog⟩ }

/-! ### The calls -/

/-- How a call comes back: at once, with an error, or after a handoff. -/
inductive Back (E : Type*)
  | now
  | error (e : PipeError E)
  | handoff

/-- `_phase_begin`. -/
def beginPhase (kind : Kind) : Pipe R V E × Back E :=
  if C.pipelined then
    match (S.groups i).openPhase with
    | some phaseKind => (S, .error (.nested kind phaseKind))
    | none =>
      let stream := if kind = .comm then C.commStream else C.replayStream
      ((S.setStream i stream).setGroup i { S.groups i with openPhase := some kind }, .now)
  else (S, .now)

/-- `check_order`: an earlier group that has ended fewer phases than group `i`. -/
def checkOrder : Option (PipeError E) :=
  ((List.range i).find? fun k => (S.groups k).phasesDone < (S.groups i).phasesDone).map fun k =>
    .order i (S.groups i).phasesDone k (S.groups k).phasesDone

/-- `phase_end`. -/
def phaseEnd : Pipe R V E × Back E :=
  if C.pipelined then
    match (S.groups i).openPhase with
    | none => (S, .now)
    | some _ =>
      let G := { S.groups i with
        openPhase := none
        phasesDone := (S.groups i).phasesDone + 1 }
      let S' := (S.setStream i C.computeStream).setGroup i G
      (S', ((S'.checkOrder i).map Back.error).getD .handoff)
  else (S, .now)

/-- The five calls. -/
def call : Call → Pipe R V E × Back E
  | .phaseBegin => S.beginPhase C i .comm
  | .phaseEnd => S.phaseEnd C i
  | .replayBegin => if C.streamReplay then S.beginPhase C i .replay else (S, .now)
  | .replayEnd => if (S.groups i).openPhase = some .replay then S.phaseEnd C i else (S, .now)
  | .yieldPoint =>
    if C.pipelined = false ∨ (S.groups i).openPhase = some .comm then (S, .now)
    else if C.streamReplay then (S, .handoff)
    else (S, .now)

/-! ### The steps -/

/-- A statement of group `i`'s thread, with `rest` after it. -/
def exec (prog : Option (Prog R V E)) (rest : List Stmt) : Stmt → Option (Pipe R V E)
  | .savePin => some ((S.setGroup i { S.groups i with pin := S.pin }).goOn i rest prog)
  | .saveContext =>
    some ((S.setGroup i { S.groups i with activeContext := S.context }).goOn i rest prog)
  | .saveStream =>
    some ((S.setGroup i { S.groups i with stream := S.streams i }).goOn i rest prog)
  | .test =>
    if S.finished (other i) then some (S.goOn i (resumeCode ++ rest) prog)
    else some (S.goOn i (.wakeOther :: turnCode ++ rest) prog)
  | .wakeOther =>
    some ({ S with wake := Function.update S.wake (other i) true }.goOn i rest prog)
  | .wait => if S.wake i then some (S.goOn i rest prog) else none
  | .clear => some ({ S with wake := Function.update S.wake i false }.goOn i rest prog)
  | .setStream => some ((S.setStream i (S.groups i).stream).goOn i rest prog)
  | .setContext => some ({ S with context := (S.groups i).activeContext }.goOn i rest prog)
  | .switchRows => some ({ S with current := i }.goOn i rest prog)
  | .setPin => some ({ S with pin := (S.groups i).pin }.goOn i rest prog)
  | .finish => some ({ S with finished := Function.update S.finished i true }.goOn i rest prog)

/-- One interaction of group `i`'s function; `n` is what it takes from elsewhere. -/
def runProg (n : ℕ) : Prog R V E → Pipe R V E
  | .ret v => { S with outputs := Function.update S.outputs i (some v) }.goOn i finallyCode none
  | .raise e => { S with errors := Function.update S.errors i (some e) }.goOn i finallyCode none
  | .look k => S.goOn i [] (some (k (S.view i)))
  | .leave w k =>
    ({ S.setStream i w.stream with
      context := w.context
      pin := w.pin
      rows := Function.update S.rows S.current w.rows }.left i).goOn i [] (some k)
  | .choose k => S.goOn i [] (some (k n))
  | .call c k =>
    let S' := (S.call C i c).1.left i
    match (S.call C i c).2 with
    | .now => S'.goOn i [] (some (k none))
    | .error e => S'.goOn i [] (some (k (some e)))
    | .handoff => S'.goOn i yieldCode (some (k none))

/-- The next step of group `i`'s thread. -/
def stepThread (n : ℕ) : Option (Pipe R V E) :=
  if i < 2 ∧ S.started i = true then
    match (S.threads i).code with
    | s :: rest => S.exec i (S.threads i).prog rest s
    | [] => (S.threads i).prog.map (S.runProg C i n)
  else none

/-- The thread has ended. -/
def ended : Bool := S.started i && (S.threads i).code.isEmpty && (S.threads i).prog.isNone

/-- The end of `run`: the error that names the smallest failed group, or the outputs. -/
def outcome : Result V E :=
  match (List.range 2).findSome? fun i => (S.errors i).map fun e => (i, e) with
  | some (i, e) => .failed i e
  | none =>
    match S.outputs 0, S.outputs 1 with
    | some v, some w => .outputs [v, w]
    | _, _ => .missing

/-- A statement of `run`, with `rest` after it. -/
def execRun (rest : List RunStmt) : RunStmt → Option (Pipe R V E)
  | .save => some { S with
      savedContext := S.context
      savedPin := S.pin
      runner := rest }
  | .start i => some { S with
      started := Function.update S.started i true
      runner := rest }
  | .wake => some { S with
      wake := Function.update S.wake 0 true
      runner := rest }
  | .join i => if S.ended i then some { S with runner := rest } else none
  | .setContext => some { S with
      context := S.savedContext
      runner := rest }
  | .switchRows => some { S with
      current := 0
      runner := rest }
  | .setPin => some { S with
      pin := S.savedPin
      runner := rest }
  | .result => some { S with
      result := some S.outcome
      runner := rest }

/-- The next step of the runner's thread. -/
def stepRun : Option (Pipe R V E) :=
  match S.runner with
  | [] => none
  | s :: rest => S.execRun rest s

end Pipe

/-- Whose turn it is on the CPU. -/
inductive Act
  | run
  | thread (i n : ℕ)

/-- One step: a statement of the runner's or of a group's thread. -/
def Pipe.step (C : Cfg) (S : Pipe R V E) : Act → Option (Pipe R V E)
  | .run => S.stepRun
  | .thread i n => S.stepThread C i n

/-- A step as `run` finds it: `PipeStep` is fresh, and the row buffers are the originals. -/
structure Fresh (C : Cfg) (contexts : ℕ → ℕ) (fns : ℕ → Prog R V E) (S : Pipe R V E) : Prop where
  current : S.current = 0
  groups : ∀ i, S.groups i = ⟨0, none, none, contexts i, C.computeStream⟩
  threads : ∀ i, S.threads i = ⟨turnCode, some (fns i)⟩
  started : ∀ i, S.started i = false
  wake : ∀ i, S.wake i = false
  finished : ∀ i, S.finished i = false
  outputs : ∀ i, S.outputs i = none
  errors : ∀ i, S.errors i = none
  runner : S.runner = runCode
  result : S.result = none
  own : ∀ i, S.own i = ⟨C.computeStream, contexts i, S.rows i, none⟩

/-- Every interleaving of a step that begins in `S₀`. -/
def pipeSystem (C : Cfg) (S₀ : Pipe R V E) : TransitionSystem (Pipe R V E) Act :=
  .ofStep (fun S => S = S₀) (Pipe.step C)

end PrefillPipe

end VllmMoet
