import Mathlib.Order.Filter.AtTopBot.Basic
import VllmMoet.Lib.Transition

/-!
# Infinite executions and what must happen in them

An `Execution` is an infinite run of a partial step function. A set of moments is given by a
predicate on `ℕ`; "again and again" is `∃ᶠ n in Filter.atTop, P n`.

* `exists_of_measure`: a goal is reached if, short of it, a well-founded measure always
  decreases later on;
* `exists_lt_of_event`: a measure that no step increases is lower after an event that
  decreases it;
* `exists_first`: what is kept until an event holds at its first occurrence;
* `exists_execution_of_repeat`: a finite run that ends where a label can be repeated is the
  start of an execution;
* `exists_execution_of_replay`: a finite run that ends in a state with an idle step is the
  start of an execution.
-/

namespace VllmMoet

namespace TransitionSystem

universe u v w

variable {σ : Type u} {α : Type v} {step : σ → α → Option σ}

/-- An infinite run of a step function. -/
structure Execution (step : σ → α → Option σ) where
  state : ℕ → σ
  label : ℕ → α
  next : ∀ n, step (state n) (label n) = some (state (n + 1))

/-- The states of an execution whose steps all meet a condition are reachable in the system
restricted to it. -/
theorem Execution.reachable (E : Execution step) {Start : σ → Prop} {C : σ → α → Prop}
    (h0 : Start (E.state 0)) (hC : ∀ n, C (E.state n) (E.label n)) (n : ℕ) :
    ((ofStep Start step).onlySteps C).Reachable (E.state n) := by
  induction n with
  | zero => exact .start h0
  | succ n ih => exact .step ih ⟨hC n, E.next n⟩

/-! ### Rules -/

variable {P Q A : ℕ → Prop} {n : ℕ}

/-- A goal is reached if, as long as it is not, a measure decreases later on. -/
theorem exists_of_measure {ι : Type w} [LT ι] [WellFoundedLT ι] (μ : ℕ → ι)
    (h : ∀ m, P m → ∃ k ≥ m, Q k ∨ (P k ∧ μ k < μ m)) (hn : P n) : ∃ m ≥ n, Q m := by
  induction hi : μ n using WellFoundedLT.induction generalizing n with
  | ind i ih =>
    subst hi
    obtain ⟨k, hk, hQ | ⟨hP, hlt⟩⟩ := h n hn
    · exact ⟨k, hk, hQ⟩
    · obtain ⟨m, hm, hQ⟩ := ih _ hlt hP rfl
      exact ⟨m, hk.trans hm, hQ⟩

/-- A measure that no step increases is lower after an event that decreases it. -/
theorem exists_lt_of_event {ι : Type w} [Preorder ι] (μ : ℕ → ι) (hn : P n) (hA : ∃ m ≥ n, A m)
    (hstep : ∀ m, P m → ¬ A m → Q (m + 1) ∨ (P (m + 1) ∧ μ (m + 1) ≤ μ m))
    (hevent : ∀ m, P m → A m → Q (m + 1) ∨ (P (m + 1) ∧ μ (m + 1) < μ m)) :
    ∃ k > n, Q k ∨ (P k ∧ μ k < μ n) := by
  obtain ⟨m, hm, hAm⟩ := hA
  obtain ⟨d, rfl⟩ := Nat.exists_eq_add_of_le hm
  induction d generalizing n with
  | zero => exact ⟨n + 1, Nat.lt_succ_self n, hevent n hn hAm⟩
  | succ d ih =>
    by_cases hfirst : A n
    · exact ⟨n + 1, Nat.lt_succ_self n, hevent n hn hfirst⟩
    · rcases hstep n hn hfirst with hQ | ⟨hP, hle⟩
      · exact ⟨n + 1, Nat.lt_succ_self n, .inl hQ⟩
      · obtain ⟨k, hk, hQ | ⟨hP', hlt⟩⟩ := ih hP (Nat.le_add_right _ _)
          (by rwa [Nat.add_right_comm, Nat.add_assoc])
        · exact ⟨k, by omega, .inl hQ⟩
        · exact ⟨k, by omega, .inr ⟨hP', hlt.trans_le hle⟩⟩

/-- What is kept until an event holds at the first one. -/
theorem exists_first (hn : P n) (hA : ∃ m ≥ n, A m)
    (hkeep : ∀ m ≥ n, P m → ¬ A m → P (m + 1)) : ∃ m ≥ n, P m ∧ A m := by
  obtain ⟨m, hm, hAm⟩ := hA
  obtain ⟨d, rfl⟩ := Nat.exists_eq_add_of_le hm
  induction d generalizing n with
  | zero => exact ⟨n, le_rfl, hn, hAm⟩
  | succ d ih =>
    by_cases hfirst : A n
    · exact ⟨n, le_rfl, hn, hfirst⟩
    · obtain ⟨k, hk, hP⟩ := ih (hkeep n le_rfl hn hfirst)
        (fun m hm => hkeep m (by omega)) (Nat.le_add_right _ _)
        (by rwa [Nat.add_right_comm, Nat.add_assoc])
      exact ⟨k, by omega, hP⟩

/-! ### Executions of a finite run -/

theorem exists_replay_take {s t : σ} {as : List α} (h : replay step s as = some t) (n : ℕ) :
    ∃ r, replay step s (as.take n) = some r := by
  induction as generalizing s n with
  | nil => exact ⟨s, by simp [replay]⟩
  | cons a as ih =>
    obtain ⟨r, hr, hrt⟩ := Option.bind_eq_some_iff.mp h
    cases n with
    | zero => exact ⟨s, rfl⟩
    | succ n =>
      obtain ⟨q, hq⟩ := ih hrt n
      exact ⟨q, Option.bind_eq_some_iff.mpr ⟨r, hr, hq⟩⟩

theorem replay_concat {s : σ} {as : List α} {a : α} :
    replay step s (as ++ [a]) = (replay step s as).bind fun t => step t a := by
  induction as generalizing s with
  | nil => cases h : step s a <;> simp [replay, h]
  | cons b as ih => cases h : step s b <;> simp [replay, h, ih]

/-- A finite run that ends where a label can be repeated is the start of an execution. -/
theorem exists_execution_of_repeat {s t : σ} {as : List α} {b : α} {I : σ → Prop}
    (h : replay step s as = some t) (ht : I t) (hI : ∀ u, I u → ∃ v, step u b = some v ∧ I v) :
    ∃ E : Execution step, (∀ n ≤ as.length, replay step s (as.take n) = some (E.state n)) ∧
      (∀ n, E.label n = as.getD n b) ∧ ∀ n ≥ as.length, I (E.state n) := by
  choose early hearly using exists_replay_take h
  choose next hnext hkeep using fun u : { u // I u } => hI u.1 u.2
  let late : ℕ → { u // I u } := fun n => (fun u => ⟨next u, hkeep u⟩)^[n] ⟨t, ht⟩
  have hlate : ∀ n, step (late n).1 b = some (late (n + 1)).1 := fun n => by
    simp only [late, Function.iterate_succ_apply']
    exact hnext _
  have hjoin : early as.length = t := by
    have hlen := hearly as.length
    rw [List.take_length, h] at hlen
    exact (Option.some.inj hlen).symm
  let state : ℕ → σ := fun n => if n < as.length then early n else (late (n - as.length)).1
  have hstate : ∀ n ≤ as.length, state n = early n := fun n hn => by
    rcases hn.lt_or_eq with hlt | rfl
    · exact if_pos hlt
    · simp only [state, lt_self_iff_false, if_false, Nat.sub_self]
      exact hjoin.symm
  refine ⟨⟨state, fun n => as.getD n b, fun n => ?_⟩, fun n hn => ?_, fun _ => rfl, fun n hn => ?_⟩
  · rcases lt_or_ge n as.length with hlt | hge
    · have hsucc := hearly (n + 1)
      rw [List.take_succ_eq_append_getElem hlt, replay_concat, hearly n] at hsucc
      rw [hstate n hlt.le, hstate (n + 1) hlt, List.getD_eq_getElem?_getD,
        List.getElem?_eq_getElem hlt, Option.getD_some]
      exact hsucc
    · have hsub : n + 1 - as.length = n - as.length + 1 := by omega
      rw [List.getD_eq_getElem?_getD, List.getElem?_eq_none hge, Option.getD_none]
      simp only [state, if_neg (by omega : ¬ n < as.length),
        if_neg (by omega : ¬ n + 1 < as.length), hsub]
      exact hlate _
  · rw [hearly n]
    exact congrArg some (hstate n hn).symm
  · simp only [state, if_neg (by omega : ¬ n < as.length)]
    exact (late (n - as.length)).2

/-- A finite run that ends in a state with an idle step is the start of an execution. -/
theorem exists_execution_of_replay {s t : σ} {as : List α} (h : replay step s as = some t) {b : α}
    (hb : step t b = some t) : ∃ E : Execution step,
      (∀ n, replay step s (as.take n) = some (E.state n)) ∧ ∀ n, E.label n = as.getD n b := by
  obtain ⟨E, hstate, hlabel, hend⟩ := exists_execution_of_repeat (b := b) (I := fun u => u = t) h rfl
    fun u hu => ⟨t, by rw [hu]; exact hb, rfl⟩
  refine ⟨E, fun n => ?_, hlabel⟩
  rcases le_or_gt n as.length with hle | hgt
  · exact hstate n hle
  · rw [List.take_of_length_le hgt.le, h, hend n hgt.le]

end TransitionSystem

end VllmMoet
