import Mathlib.Logic.Basic

/-!
# Labelled transition systems and their reachable states

A `TransitionSystem` has a set of start states and a labelled step relation; a run is any
finite sequence of steps from a start state, so a statement about every reachable state
is a statement about every run and every interleaving the labels allow.

Two constructions are used throughout:

* `TransitionSystem.ofStep`: the system of a partial step *function*. Its runs can be
  replayed (`TransitionSystem.replay`), which is how a concrete run is exhibited.
* `TransitionSystem.onlySteps`: the same system, restricted to the steps that meet a
  condition. A property proved of its reachable states holds along every run whose steps
  all meet the condition.

The proof rule is `TransitionSystem.Invariant`: true at the start, preserved by each
step from a reachable state, hence true of every reachable state.
-/

namespace VllmMoet

universe u v

/-- Start states and a labelled step relation. -/
structure TransitionSystem (σ : Type u) (α : Type v) where
  Start : σ → Prop
  Step : σ → α → σ → Prop

namespace TransitionSystem

variable {σ : Type u} {α : Type v} {M : TransitionSystem σ α}

/-- The states some run from a start state ends in. -/
inductive Reachable (M : TransitionSystem σ α) : σ → Prop
  | start {s : σ} : M.Start s → Reachable M s
  | step {s t : σ} {a : α} : Reachable M s → M.Step s a t → Reachable M t

/-- `P` is an **invariant**: it holds at the start and every step from a reachable state
where it holds leads to a state where it holds. -/
structure Invariant (M : TransitionSystem σ α) (P : σ → Prop) : Prop where
  start : ∀ s, M.Start s → P s
  step : ∀ s a t, M.Reachable s → P s → M.Step s a t → P t

/-- An invariant holds in every reachable state. -/
theorem Invariant.holds {P : σ → Prop} (h : M.Invariant P) {s : σ} (hs : M.Reachable s) :
    P s := by
  induction hs with
  | start h0 => exact h.start _ h0
  | step hr hstep ih => exact h.step _ _ _ hr ih hstep

/-- Two invariants, the second proved with the first at hand. -/
theorem Invariant.and {P Q : σ → Prop} (hP : M.Invariant P)
    (start : ∀ s, M.Start s → Q s)
    (step : ∀ s a t, P s → Q s → M.Step s a t → Q t) : M.Invariant fun s => P s ∧ Q s where
  start s h := ⟨hP.start s h, start s h⟩
  step s a t hr h hs := ⟨hP.step s a t hr h.1 hs, step s a t h.1 h.2 hs⟩

/-- The system restricted to the steps that meet a condition. -/
def onlySteps (M : TransitionSystem σ α) (C : σ → α → Prop) : TransitionSystem σ α where
  Start := M.Start
  Step s a t := C s a ∧ M.Step s a t

/-- A weaker condition on the steps has more runs. -/
theorem Reachable.mono {C C' : σ → α → Prop} (hC : ∀ s a, C s a → C' s a) {s : σ}
    (h : (M.onlySteps C).Reachable s) : (M.onlySteps C').Reachable s := by
  induction h with
  | start h0 => exact .start h0
  | step _ hstep ih => exact .step ih ⟨hC _ _ hstep.1, hstep.2⟩

/-- A run whose steps meet a condition is a run. -/
theorem Reachable.of_onlySteps {C : σ → α → Prop} {s : σ} (h : (M.onlySteps C).Reachable s) :
    M.Reachable s := by
  induction h with
  | start h0 => exact .start h0
  | step _ hstep ih => exact .step ih hstep.2

/-- The system of a partial step function. -/
def ofStep (Start : σ → Prop) (step : σ → α → Option σ) : TransitionSystem σ α where
  Start := Start
  Step s a t := step s a = some t

/-- Run a list of labels through a partial step function. -/
def replay (step : σ → α → Option σ) : σ → List α → Option σ
  | s, [] => some s
  | s, a :: as => (step s a).bind fun t => replay step t as

/-- What a replay from a reachable state ends in is reachable. -/
theorem Reachable.replay {Start : σ → Prop} {step : σ → α → Option σ} {s t : σ}
    (hs : (ofStep Start step).Reachable s) {as : List α}
    (h : replay step s as = some t) : (ofStep Start step).Reachable t := by
  induction as generalizing s with
  | nil =>
    obtain rfl : s = t := by simpa [TransitionSystem.replay] using h
    exact hs
  | cons a as ih =>
    obtain ⟨r, hr, hrt⟩ := Option.bind_eq_some_iff.mp h
    exact ih (.step hs hr) hrt

/-- One replay after the other. -/
theorem replay_append {step : σ → α → Option σ} {s t u : σ} {as bs : List α}
    (hs : replay step s as = some t) (ht : replay step t bs = some u) :
    replay step s (as ++ bs) = some u := by
  induction as generalizing s with
  | nil =>
    obtain rfl : s = t := by simpa [replay] using hs
    exact ht
  | cons a as ih =>
    obtain ⟨r, hr, hrt⟩ := Option.bind_eq_some_iff.mp hs
    exact Option.bind_eq_some_iff.mpr ⟨r, hr, ih hrt⟩

/-- A replayed run that ends in a state with a decidable property exhibits a reachable state
with it. -/
theorem exists_reachable_of_run {Start : σ → Prop} (step : σ → α → Option σ) {s : σ}
    (hs : Start s) (as : List α) (P : σ → Bool)
    (h : (TransitionSystem.replay step s as).any P = true) :
    ∃ t, (ofStep Start step).Reachable t ∧ P t = true := by
  obtain ⟨t, ht, hP⟩ := (Option.any_eq_true _ _).mp h
  exact ⟨t, Reachable.replay (.start hs) ht, hP⟩

/-- A step function restricted to the steps that meet a decidable condition. -/
def guardedStep (C : σ → α → Prop) [∀ s a, Decidable (C s a)] (step : σ → α → Option σ) (s : σ)
    (a : α) : Option σ :=
  if C s a then step s a else none

/-- Restricting the step function is restricting the system. -/
theorem Reachable.of_guardedStep {Start : σ → Prop} {step : σ → α → Option σ}
    {C : σ → α → Prop} [∀ s a, Decidable (C s a)] {s : σ}
    (h : (ofStep Start (guardedStep C step)).Reachable s) :
    ((ofStep Start step).onlySteps C).Reachable s := by
  induction h with
  | start h0 => exact .start h0
  | @step s t a _ hstep ih =>
    change guardedStep C step s a = some t at hstep
    rw [guardedStep] at hstep
    split at hstep
    · exact .step ih ⟨‹_›, hstep⟩
    · simp at hstep

/-- A replayed run whose steps meet a decidable condition, and which ends in a state with a
decidable property, exhibits a reachable state with it. -/
theorem exists_reachable_of_replay {Start : σ → Prop} (step : σ → α → Option σ)
    (C : σ → α → Prop) [∀ s a, Decidable (C s a)] {s : σ} (hs : Start s) (as : List α)
    (P : σ → Bool) (h : (TransitionSystem.replay (guardedStep C step) s as).any P = true) :
    ∃ t, ((ofStep Start step).onlySteps C).Reachable t ∧ P t = true := by
  obtain ⟨t, ht, hP⟩ := exists_reachable_of_run _ hs as P h
  exact ⟨t, ht.of_guardedStep, hP⟩

end TransitionSystem

end VllmMoet
