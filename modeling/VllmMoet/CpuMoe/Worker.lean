import Mathlib.Data.Bool.Basic
import Mathlib.Data.List.Range
import Mathlib.Order.Basic
import VllmMoet.CpuMoe.Pool

/-!
# The two sides of a wake-up

What the main thread's code is allowed to be, and what a worker knows at each of its statements.

* `Linked`, `Safe`: after a new generation comes the new `wake_seq` and then the wake-up, and a job
  is kicked only when the one before it is done;
* `Worker.Ok`: what a worker has seen and run, and how old the word can be that it sleeps on;
* `Worker.Ok.step`, `Worker.Ok.effect`: what a step of a worker keeps, and what it does to the
  shared words.
-/

namespace VllmMoet

namespace CpuMoe

/-! ### The main thread's code -/

/-- After a new generation or a stop comes the new `wake_seq`, after that the wake-up. -/
def Linked : List Stmt → Prop
  | [] => True
  | x :: c =>
    (c.head? = some .incSeq ↔ x = .incGen ∨ x = .setStop) ∧
      (x = .incSeq → c.head? = some .checkSleepers ∨ c.head? = some .wakeAll) ∧ Linked c

/-- What the main thread knows between two of its statements: whether a prefetch is in flight,
whether a job is open, whether the next one is set up and `done` cleared for it, and whether the
pool was stopped. -/
structure Known where
  inflight : Bool
  opened : Bool
  ready : Bool
  zero : Bool
  stop : Bool

/-- The code keeps the order: a job is set up and `done` cleared when none is open, it is kicked
after that, and a call returns with the prefetch open or nothing. -/
def Safe (a : Known) : List Stmt → Prop
  | [] => a.opened = a.inflight ∧ a.ready = false
  | .waitDone :: c => Safe { a with opened := false } c
  | .endPrefetch :: c => a.opened = false ∧ Safe { a with inflight := false } c
  | .setJob :: c => a.opened = false ∧ a.ready = false ∧ Safe { a with ready := true } c
  | .clearDone :: c => a.opened = false ∧ Safe { a with zero := true } c
  | .setInflight :: c => a.stop = false ∧ Safe { a with inflight := true } c
  | .incGen :: c =>
    a.ready = true ∧ a.zero = true ∧ a.stop = false ∧
      Safe { a with opened := true, ready := false, zero := false } c
  | .incSeq :: c => Safe a c
  | .checkSleepers :: c => Safe a c
  | .wakeAll :: c => Safe a c
  | .setStop :: c => a.opened = a.inflight ∧ a.stop = false ∧ Safe { a with stop := true } c
  | .join :: c => Safe a c

/-- Each call keeps the order. -/
theorem safe_callBody (m : Mem) (c : Call) {a : Known} (hi : a.inflight = m.inflight)
    (ho : a.opened = a.inflight) (hr : a.ready = false) (hs : a.stop = false) :
    Safe a (callBody m c) := by
  cases c <;> cases hm : m.inflight <;>
    simp [callBody, prefetchFinish, poolKick, Safe, hi, ho, hr, hs, hm]

/-- Each call wakes after what it has to wake for. -/
theorem linked_callBody (m : Mem) (c : Call) :
    Linked (callBody m c) ∧ (callBody m c).head? ≠ some .incSeq := by
  cases c <;> cases hm : m.inflight <;>
    simp [callBody, prefetchFinish, poolKick, Linked, hm]

/-- The next statements of the main thread issue a wake-up. It waits for nothing before that. -/
def Wakes (nSleeping : ℕ) : List Stmt → Prop
  | .incSeq :: c => Wakes nSleeping c
  | .checkSleepers :: _ => 0 < nSleeping
  | .wakeAll :: _ => True
  | _ => False

/-- The code before a wake-up, if somebody sleeps. -/
def Waking (c : List Stmt) : Prop :=
  c.head? = some .incSeq ∨ c.head? = some .checkSleepers ∨ c.head? = some .wakeAll

/-- If somebody sleeps, the wake-up is issued. -/
theorem Waking.wakes {c : List Stmt} {k : ℕ} (h : Waking c) (hl : Linked c) (hk : 0 < k) :
    Wakes k c := by
  rcases c with - | ⟨x, c⟩
  · simp [Waking] at h
  · rcases h with h | h | h
    · obtain rfl : x = .incSeq := by simpa using h
      rcases c with - | ⟨y, c⟩
      · simp [Linked] at hl
      · rcases hl.2.1 rfl with hy | hy
        · obtain rfl : y = .checkSleepers := by simpa using hy
          exact hk
        · obtain rfl : y = .wakeAll := by simpa using hy
          trivial
    · obtain rfl : x = .checkSleepers := by simpa using h
      exact hk
    · obtain rfl : x = .wakeAll := by simpa using h
      trivial

/-! ### One worker -/

/-- A worker that `n_sleeping` counts. -/
def Worker.asleep (w : Worker) : Bool :=
  match w.pc with
  | .checkGen _ | .checkStop _ | .wait _ | .blocked | .decSleep => true
  | _ => false

/-- A worker that is at a job. -/
def Pc.working : Pc → Bool
  | .start | .finish => true
  | _ => false

/-- A worker that has not done the job of the generation `gen`. -/
def Worker.behind (gen : ℕ) (w : Worker) : Bool :=
  w.seen != gen || w.pc.working

/-- What a worker knows where it is. The word it sleeps on is from before the last kick at the
earliest; once it has looked at `gen` and at `stop`, it is from before the next one. -/
def Pc.Knows (m : Mem) (seen : ℕ) : Pc → Prop
  | .incSleep k | .checkGen k => k ≤ m.seq ∧ seen ≤ k + 1
  | .checkStop k => k ≤ m.seq ∧ seen ≤ k + 1 ∧ k ≤ seen + m.stop.toNat
  | .wait k => k ≤ m.seq ∧ seen ≤ k + 1 ∧ k ≤ seen
  | .start | .finish => seen = m.gen
  | .exited => m.stop = true
  | _ => True

/-- What a worker has seen and run. -/
structure Worker.Ok (m : Mem) (w : Worker) : Prop where
  seenLe : w.seen ≤ m.gen
  genLe : m.gen ≤ w.seen + 1
  ran : w.ran ++ (if w.pc = .start then [w.seen] else []) = List.range' 1 w.seen
  knows : w.pc.Knows m w.seen

/-- What a step of a worker does to the memory: it moves `n_sleeping` and `done` only, and these
as it moves itself. -/
theorem Worker.Ok.effect {m m' : Mem} {w w' : Worker} {long : Bool} (h : w.Ok m)
    (hs : w.asleep = true → 0 < m.nSleeping) (he : w.step m long = some (m', w')) :
    ∃ ns d, m' = { m with nSleeping := ns, done := d } ∧
      ns + w.asleep.toNat = m.nSleeping + w'.asleep.toNat ∧
      d + (w'.behind m.gen).toNat = m.done + (w.behind m.gen).toNat ∧ m.done ≤ d := by
  obtain ⟨pc, seen, ran⟩ := w
  cases pc with
  | blocked => exact absurd he (by simp [Worker.step])
  | exited => exact absurd he (by simp [Worker.step])
  | poll =>
    obtain ⟨rfl, rfl⟩ := Prod.mk.inj (Option.some.inj he)
    refine ⟨_, _, rfl, ?_, ?_, Nat.le_refl _⟩ <;> dsimp only <;> split_ifs with hg
    all_goals simp [Worker.asleep, Worker.behind, Pc.working]
    rw [bne_iff_ne.mpr (Ne.symm hg), Bool.toNat_true]
  | decSleep =>
    obtain ⟨rfl, rfl⟩ := Prod.mk.inj (Option.some.inj he)
    have := hs rfl
    refine ⟨_, _, rfl, ?_, rfl, Nat.le_refl _⟩
    simp only [Worker.asleep, Bool.toNat_true, Bool.toNat_false]
    omega
  | finish =>
    obtain ⟨rfl, rfl⟩ := Prod.mk.inj (Option.some.inj he)
    have : seen = m.gen := h.knows
    exact ⟨_, _, rfl, rfl, by simp [Worker.behind, Pc.working, this], Nat.le_succ _⟩
  | _ =>
    obtain ⟨rfl, rfl⟩ := Prod.mk.inj (Option.some.inj he)
    refine ⟨_, _, rfl, ?_, ?_, Nat.le_refl _⟩ <;> dsimp only <;> (try split_ifs) <;>
      simp [Worker.asleep, Worker.behind, Pc.working]

/-- A worker that goes on without a job. -/
theorem Worker.Ok.move {m : Mem} {w : Worker} (h : w.Ok m) (hp : w.pc ≠ .start) {p : Pc}
    (hp' : p ≠ .start) (hk : p.Knows m w.seen) : ({ w with pc := p } : Worker).Ok m := by
  refine ⟨h.seenLe, h.genLe, ?_, hk⟩
  simpa [hp, hp'] using h.ran

/-- And it keeps what it has seen and run, provided that `wake_seq` is at most one behind `gen`
and ahead of it by a stop only, and that the job is that of the generation while it is open. -/
theorem Worker.Ok.step {m m' : Mem} {w w' : Worker} {long : Bool} (h : w.Ok m)
    (hle : m.gen ≤ m.seq + 1) (hge : m.seq ≤ m.gen + m.stop.toNat)
    (hjob : w.behind m.gen = true → m.job = m.gen) (he : w.step m long = some (m', w')) :
    w'.Ok m := by
  obtain ⟨pc, seen, ran⟩ := w
  have hseen : seen ≤ m.gen := h.seenLe
  have hgen : m.gen ≤ seen + 1 := h.genLe
  cases pc with
  | blocked => exact absurd he (by simp [Worker.step])
  | exited => exact absurd he (by simp [Worker.step])
  | poll =>
    obtain ⟨rfl, rfl⟩ := Prod.mk.inj (Option.some.inj he)
    dsimp only
    split_ifs with hg
    · exact h.move (by simp) (by simp) trivial
    · -- the worker has seen a new generation, the next one after the last it ran
      have hran : ran = List.range' 1 seen := by simpa using h.ran
      have hnext : m.gen = seen + 1 := by omega
      refine ⟨Nat.le_refl _, Nat.le_succ _, ?_, rfl⟩
      simp [hran, hnext, List.range'_concat, Nat.add_comm 1]
  | idle =>
    obtain ⟨rfl, rfl⟩ := Prod.mk.inj (Option.some.inj he)
    refine h.move (by simp) (by split_ifs <;> simp) ?_
    split_ifs
    · exact ⟨Nat.le_refl _, by dsimp only; omega⟩
    · trivial
  | incSleep k =>
    obtain ⟨rfl, rfl⟩ := Prod.mk.inj (Option.some.inj he)
    exact h.move (by simp) (by simp) h.knows
  | checkGen k =>
    obtain ⟨rfl, rfl⟩ := Prod.mk.inj (Option.some.inj he)
    refine h.move (by simp) (by split_ifs <;> simp) ?_
    obtain ⟨hk, hk'⟩ : k ≤ m.seq ∧ seen ≤ k + 1 := h.knows
    split_ifs with hg
    · exact ⟨hk, hk', by dsimp only at hg ⊢; omega⟩
    · trivial
  | checkStop k =>
    obtain ⟨rfl, rfl⟩ := Prod.mk.inj (Option.some.inj he)
    refine h.move (by simp) (by split_ifs <;> simp) ?_
    obtain ⟨hk, hk', hks⟩ : k ≤ m.seq ∧ seen ≤ k + 1 ∧ k ≤ seen + m.stop.toNat := h.knows
    split_ifs with hst
    · trivial
    · exact ⟨hk, hk', by simpa [hst] using hks⟩
  | start =>
    obtain ⟨rfl, rfl⟩ := Prod.mk.inj (Option.some.inj he)
    -- the job is the one of the generation that the worker has seen
    have hs : seen = m.gen := h.knows
    refine ⟨hseen, hgen, ?_, hs⟩
    simpa [hjob (by simp [Worker.behind, Pc.working]), hs] using h.ran
  | decSleep | finish =>
    obtain ⟨rfl, rfl⟩ := Prod.mk.inj (Option.some.inj he)
    exact h.move (by simp) (by simp) trivial
  | outer | stopCheck | wait =>
    obtain ⟨rfl, rfl⟩ := Prod.mk.inj (Option.some.inj he)
    refine h.move (by simp) (by split_ifs <;> simp) ?_
    split_ifs with hst
    · first | exact hst | trivial
    · trivial

/-- A worker blocks in `futex_wait`, if the word is still the one it has read. -/
theorem Worker.wait_of_blocked {m m' : Mem} {w w' : Worker} {long : Bool}
    (he : w.step m long = some (m', w')) (hb : w'.pc = .blocked) :
    ∃ k, w.pc = .wait k ∧ wakeWord m.seq = wakeWord k ∧ w'.seen = w.seen := by
  obtain ⟨pc, seen, ran⟩ := w
  cases pc with
  | blocked | exited => exact absurd he (by simp [Worker.step])
  | wait k =>
    obtain ⟨rfl, rfl⟩ := Prod.mk.inj (Option.some.inj he)
    refine ⟨k, rfl, ?_, rfl⟩
    by_contra hne
    simp [hne] at hb
  | _ =>
    obtain ⟨rfl, rfl⟩ := Prod.mk.inj (Option.some.inj he)
    dsimp only at hb
    (try split_ifs at hb) <;> simp at hb

/-- A worker that blocks does so on a `wake_seq` from before the next kick. -/
theorem Worker.Ok.seq_le {m : Mem} {w : Worker} {k : ℕ} (h : w.Ok m) (hp : w.pc = .wait k)
    (hge : m.seq ≤ m.gen + m.stop.toNat) (hw : wakeWord m.seq = wakeWord k) : m.seq ≤ w.seen := by
  obtain ⟨hk, hk', hks⟩ : k ≤ m.seq ∧ w.seen ≤ k + 1 ∧ k ≤ w.seen := by
    have := h.knows
    rwa [hp] at this
  have hgen := h.genLe
  have hstop := Bool.toNat_le m.stop
  -- the word is 32 bits wide, and `wake_seq` has not gone around since it was read
  simp only [wakeWord] at hw
  omega

/-- What a worker knows stays true while `gen` stays. -/
theorem Worker.Ok.later {m m' : Mem} {w : Worker} (h : w.Ok m) (hgen : m'.gen = m.gen)
    (hseq : m.seq ≤ m'.seq) (hstop : m.stop = true → m'.stop = true) : w.Ok m' := by
  obtain ⟨pc, seen, ran⟩ := w
  obtain ⟨h1, h2, h3, h4⟩ := h
  refine ⟨hgen ▸ h1, hgen ▸ h2, h3, ?_⟩
  cases pc with
  | incSleep k | checkGen k => exact ⟨h4.1.trans hseq, h4.2⟩
  | checkStop k =>
    refine ⟨h4.1.trans hseq, h4.2.1, h4.2.2.trans (Nat.add_le_add_left ?_ _)⟩
    exact Bool.toNat_le_toNat hstop
  | wait k => exact ⟨h4.1.trans hseq, h4.2⟩
  | start | finish => exact h4.trans hgen.symm
  | exited => exact hstop h4
  | _ => trivial

/-- A worker that has done its job can be given the next. -/
theorem Worker.Ok.kick {m : Mem} {w : Worker} (h : w.Ok m) (hb : w.behind m.gen = false) :
    w.Ok { m with gen := m.gen + 1 } := by
  obtain ⟨pc, seen, ran⟩ := w
  obtain ⟨h1, h2, h3, h4⟩ := h
  simp only [Worker.behind, Bool.or_eq_false_iff, bne_eq_false_iff_eq] at hb
  refine ⟨Nat.le_succ_of_le h1, by dsimp only; omega, h3, ?_⟩
  cases pc with
  | start | finish => exact absurd hb.2 (by simp [Pc.working])
  | _ => exact h4

/-- Nor is it disturbed by a wake-up. -/
theorem Worker.Ok.woken {m : Mem} {w : Worker} (h : w.Ok m) : w.woken.Ok m := by
  unfold Worker.woken
  split_ifs with hp
  · exact h.move (by simp [hp]) (by simp) trivial
  · exact h

theorem Worker.woken_ne_blocked (w : Worker) : w.woken.pc ≠ .blocked := by
  unfold Worker.woken
  split_ifs with hp
  · simp
  · exact hp

theorem Worker.asleep_woken (w : Worker) : w.woken.asleep = w.asleep := by
  unfold Worker.woken
  split_ifs with hp
  · simp [Worker.asleep, hp]
  · rfl

theorem Worker.behind_woken (gen : ℕ) (w : Worker) : w.woken.behind gen = w.behind gen := by
  unfold Worker.woken
  split_ifs with hp
  · simp [Worker.behind, Pc.working, hp]
  · rfl

end CpuMoe

end VllmMoet
