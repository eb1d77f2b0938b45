import Mathlib.Data.Nat.Notation
import Mathlib.Logic.Function.Basic
import Mathlib.Tactic.Common
import VllmMoet.Lib.Transition

/-!
# The worker pool

The pool of `cpu_moe_b12x.cpp`. The main thread kicks a job, waits until every worker has done it,
and at the end destroys the pool. A worker polls `gen` and, when it has been idle for long, sleeps
on the word `wake_seq`. The wake syscall is left out when `n_sleeping` says that nobody sleeps.

* `Worker.step`: the statements of `worker_main`, one atomic access at a time;
* `callBody`: the statements of the main thread's calls;
* `State`, `step`, `pool`: any interleaving of the two. A sleeping worker may also wake up by
  itself.
-/

namespace VllmMoet

namespace CpuMoe

/-- The pool's shared words. `seq` counts the increments of `wake_seq`, whose word is 32 bits wide,
and `job` the jobs that were set up, a ghost. -/
structure Mem where
  gen : ℕ
  seq : ℕ
  nSleeping : ℕ
  done : ℕ
  job : ℕ
  stop : Bool
  inflight : Bool
deriving DecidableEq

/-- `wake_seq`. -/
def wakeWord (seq : ℕ) : ℕ := seq % 4294967296

/-- Where a worker is in `worker_main`. -/
inductive Pc
  /-- `while (!P->stop.load(..))`. -/
  | outer
  /-- `while ((g = P->gen.load(..)) == seen)`. -/
  | poll
  /-- `if (P->stop.load(..)) return`. -/
  | stopCheck
  /-- The time check, and a pause if the worker stays awake. -/
  | idle
  /-- `P->n_sleeping.fetch_add(1)`, having read `w`. -/
  | incSleep (w : ℕ)
  /-- `P->gen.load(..) == seen`. -/
  | checkGen (w : ℕ)
  /-- `!P->stop.load(..)`. -/
  | checkStop (w : ℕ)
  /-- `futex_wait_u32(&P->wake_seq, w)`. -/
  | wait (w : ℕ)
  /-- Asleep in the kernel. -/
  | blocked
  /-- `P->n_sleeping.fetch_sub(1)`. -/
  | decSleep
  /-- `run_prefetch` or `run_job`. -/
  | start
  /-- `P->done.fetch_add(1)`. -/
  | finish
  /-- `worker_main` has returned. -/
  | exited
deriving DecidableEq

/-- A worker. `ran`, the jobs it has run so far, is not kept by the source. -/
structure Worker where
  pc : Pc
  seen : ℕ
  ran : List ℕ
deriving DecidableEq

/-- The next step of a worker; `long`: it has been idle for longer than `spin_ns`. -/
def Worker.step (m : Mem) (long : Bool) (w : Worker) : Option (Mem × Worker) :=
  match w.pc with
  | .outer => some (m, { w with pc := if m.stop then .exited else .poll })
  | .poll =>
    some (m, if m.gen = w.seen then { w with pc := .stopCheck }
      else { w with pc := .start, seen := m.gen })
  | .stopCheck => some (m, { w with pc := if m.stop then .exited else .idle })
  | .idle => some (m, { w with pc := if long then .incSleep m.seq else .poll })
  | .incSleep k => some ({ m with nSleeping := m.nSleeping + 1 }, { w with pc := .checkGen k })
  | .checkGen k => some (m, { w with pc := if m.gen = w.seen then .checkStop k else .decSleep })
  | .checkStop k => some (m, { w with pc := if m.stop then .decSleep else .wait k })
  | .wait k =>
    some (m, { w with pc := if wakeWord m.seq = wakeWord k then .blocked else .decSleep })
  | .blocked => none
  | .decSleep => some ({ m with nSleeping := m.nSleeping - 1 }, { w with pc := .poll })
  | .start => some (m, { w with pc := .finish, ran := w.ran ++ [m.job] })
  | .finish => some ({ m with done := m.done + 1 }, { w with pc := .outer })
  | .exited => none

/-- What a wake-up does to a worker. -/
def Worker.woken (w : Worker) : Worker :=
  if w.pc = .blocked then { w with pc := .decSleep } else w

/-- The main thread's statements. -/
inductive Stmt
  /-- `while (P->done.load(..) < P->nthreads)`. -/
  | waitDone
  /-- `P->prefetch_inflight = false`. -/
  | endPrefetch
  /-- `J = Job(); ..`. -/
  | setJob
  /-- `P->done.store(0)`. -/
  | clearDone
  /-- `P->prefetch_inflight = true`. -/
  | setInflight
  /-- `P.gen.fetch_add(1)`. -/
  | incGen
  /-- `P.wake_seq.fetch_add(1)`. -/
  | incSeq
  /-- `if (P.n_sleeping.load(..) > 0)`. -/
  | checkSleepers
  /-- `futex_wake_all(&P.wake_seq)`. -/
  | wakeAll
  /-- `P->stop.store(true)`. -/
  | setStop
  /-- `th.join()` for each thread. -/
  | join
deriving DecidableEq

/-- The main thread's calls. -/
inductive Call
  | expertsForward
  | prefetchStart
  | prefetchFinish
  | destroy
deriving DecidableEq

/-- `pool_kick`. -/
def poolKick : List Stmt := [.incGen, .incSeq, .checkSleepers]

/-- `moe_b12x_pool_prefetch_finish`: nothing if no prefetch is in flight. -/
def prefetchFinish (m : Mem) : List Stmt :=
  if m.inflight then [.waitDone, .endPrefetch] else []

/-- The statements of a call. -/
def callBody (m : Mem) : Call → List Stmt
  | .expertsForward => prefetchFinish m ++ ([.setJob, .clearDone] ++ poolKick ++ [.waitDone])
  | .prefetchStart => prefetchFinish m ++ ([.setJob, .clearDone, .setInflight] ++ poolKick)
  | .prefetchFinish => prefetchFinish m
  | .destroy => [.setStop, .incSeq, .wakeAll, .join]

/-- The state: `code` is what is left of the main thread's call. `opened`, that the last job kicked
has not been waited for, is not kept by the source. -/
structure State (n : ℕ) where
  mem : Mem
  workers : Fin n → Worker
  code : List Stmt
  opened : Bool

variable {n : ℕ}

/-- What a statement of the main thread does; `c` is the code after it. -/
def Stmt.run (s : State n) (c : List Stmt) : Stmt → Option (State n)
  | .waitDone => if n ≤ s.mem.done then some { s with code := c, opened := false } else none
  | .endPrefetch => some { s with code := c, mem := { s.mem with inflight := false } }
  | .setJob => some { s with code := c, mem := { s.mem with job := s.mem.job + 1 } }
  | .clearDone => some { s with code := c, mem := { s.mem with done := 0 } }
  | .setInflight => some { s with code := c, mem := { s.mem with inflight := true } }
  | .incGen => some { s with code := c, mem := { s.mem with gen := s.mem.gen + 1 }, opened := true }
  | .incSeq => some { s with code := c, mem := { s.mem with seq := s.mem.seq + 1 } }
  | .checkSleepers => some { s with code := if 0 < s.mem.nSleeping then .wakeAll :: c else c }
  | .wakeAll => some { s with code := c, workers := fun i => (s.workers i).woken }
  | .setStop => some { s with code := c, mem := { s.mem with stop := true } }
  | .join => if ∀ i, (s.workers i).pc = .exited then some { s with code := c } else none

/-- Who moves. -/
inductive Act (n : ℕ)
  | call (c : Call)
  | main
  | work (i : Fin n) (long : Bool)
  | wake (i : Fin n)
deriving DecidableEq

/-- One step. A call begins when the one before it has returned, and none after a destroy. -/
def step (s : State n) : Act n → Option (State n)
  | .call c =>
    if s.code = [] ∧ s.mem.stop = false then some { s with code := callBody s.mem c } else none
  | .main =>
    match s.code with
    | [] => none
    | x :: c => x.run s c
  | .work i long =>
    ((s.workers i).step s.mem long).map fun r =>
      { s with mem := r.1, workers := Function.update s.workers i r.2 }
  | .wake i =>
    if (s.workers i).pc = .blocked then
      some { s with workers := Function.update s.workers i (s.workers i).woken }
    else none

/-- A pool that was just created. -/
def State.fresh (n : ℕ) : State n where
  mem := ⟨0, 0, 0, 0, 0, false, false⟩
  workers _ := ⟨.outer, 0, []⟩
  code := []
  opened := false

/-- The pool of `n` workers. -/
def pool (n : ℕ) : TransitionSystem (State n) (Act n) := .ofStep (· = .fresh n) step

end CpuMoe

end VllmMoet
