import Mathlib.Data.List.Induction
import VllmMoet.Placement.Plan

/-!
# The admission window of a placement manager

With a window `plan` promotes an expert on its second miss within that many steps. It compares
the latest miss of the call with the last one of the earlier calls; a call that brings several
steps of the log at once has only its latest miss compared, so two misses of one call do not count
as two.

* `MissedTwice`: the law, a property of the misses alone.
* `admitted_iff_missedTwice`: exactly when a call follows it.
* `second_miss_skipped`: two misses a step apart, admitted in two calls and not in one.
-/

namespace VllmMoet

namespace Placement

/-- The value `last_miss` starts with. -/
def noMiss : ℤ := -10 ^ 9

/-- The steps at which an expert of a layer was missed, in the order of the log. -/
def missSteps (misses : List Miss) (l e : ℕ) : List ℤ :=
  (misses.filter fun r => r.layer = l ∧ r.expert = e).map (·.step)

/-- `last_miss` after some calls of `plan`. -/
def lastMissAfter (cfg : Config) (calls : List (List Miss)) : ℕ → ℕ → ℤ :=
  calls.foldl (fun lastMiss misses => nextLastMiss cfg misses lastMiss) fun _ _ => noMiss

/-- The latest of some misses was preceded by another one at most `w` steps earlier. -/
def MissedTwice (w : ℕ) (steps : List ℤ) : Prop :=
  ∃ b ∈ steps.getLast?, ∃ a ∈ steps.dropLast, b - a ≤ w

instance (w : ℕ) (steps : List ℤ) : Decidable (MissedTwice w steps) :=
  match h : steps.getLast? with
  | none => .isFalse (by simp [MissedTwice, h])
  | some b => decidable_of_iff (∃ a ∈ steps.dropLast, b - a ≤ w) (by simp [MissedTwice, h])

section Steps

variable {misses misses' : List Miss} {l e w : ℕ}

theorem missSteps_append :
    missSteps (misses ++ misses') l e = missSteps misses l e ++ missSteps misses' l e := by
  rw [missSteps, List.filter_append, List.map_append]
  rfl

theorem mem_missedExperts : e ∈ missedExperts misses l ↔ missSteps misses l e ≠ [] := by
  simp only [missedExperts, missSteps, List.mem_reverse, List.mem_dedup, List.mem_map,
    List.mem_filter, decide_eq_true_eq, ne_eq, List.map_eq_nil_iff, List.filter_eq_nil_iff,
    not_forall, not_not]
  constructor
  · rintro ⟨r, ⟨hr, hl⟩, he⟩
    exact ⟨r, hr, hl, he⟩
  · rintro ⟨r, hr, hl, he⟩
    exact ⟨r, ⟨hr, hl⟩, he⟩

/-- The misses of an expert are in the order of the log. -/
theorem missSteps_sorted (h : (misses.map (·.step)).Pairwise (· ≤ ·)) :
    (missSteps misses l e).Pairwise (· ≤ ·) :=
  h.sublist (List.filter_sublist.map _)

/-- In a log whose steps do not decrease the latest miss is the last one. -/
theorem lastMissStep_eq (h : (missSteps misses l e).Pairwise (· ≤ ·)) :
    lastMissStep misses l e = (missSteps misses l e).getLast?.getD 0 := by
  change (missSteps misses l e).max?.getD 0 = _
  rcases List.eq_nil_or_concat (missSteps misses l e) with hnil | ⟨init, b, hb⟩
  · rw [hnil]
    rfl
  · rw [List.concat_eq_append] at hb
    rw [hb] at h ⊢
    have hle : ∀ a ∈ init ++ [b], a ≤ b := by
      intro a ha
      rcases List.mem_append.mp ha with ha | ha
      · exact (List.pairwise_append.mp h).2.2 a ha b (List.mem_singleton_self b)
      · exact (List.mem_singleton.mp ha).le
    have hmax : (init ++ [b]).max? = some b :=
      List.max?_eq_some_iff.mpr ⟨List.mem_append_right _ (List.mem_singleton_self b), hle⟩
    rw [hmax, List.getLast?_append, List.getLast?_singleton]
    rfl

/-- What a call compares with: the last miss of the earlier calls, if there is one. -/
theorem lastMissAfter_eq (cfg : Config) (hw : 0 < cfg.window) (calls : List (List Miss))
    (h : (calls.flatten.map (·.step)).Pairwise (· ≤ ·)) :
    lastMissAfter cfg calls l e = (missSteps calls.flatten l e).getLast?.getD noMiss := by
  induction calls using List.reverseRecOn with
  | nil => rfl
  | append_singleton calls misses ih =>
    rw [List.flatten_append, List.flatten_singleton] at h ⊢
    have hpair := List.pairwise_append.mp (List.map_append ▸ h)
    have hnext : lastMissAfter cfg (calls ++ [misses]) l e =
        nextLastMiss cfg misses (lastMissAfter cfg calls) l e := by
      rw [lastMissAfter, List.foldl_append]
      rfl
    rw [hnext, nextLastMiss, missSteps_append, List.getLast?_append]
    by_cases he : e ∈ missedExperts misses l
    · rw [if_pos ⟨hw, he⟩, lastMissStep_eq (missSteps_sorted hpair.2.1)]
      obtain ⟨b, hb⟩ := Option.isSome_iff_exists.mp
        (List.getLast?_isSome.mpr (mem_missedExperts.mp he))
      rw [hb]
      rfl
    · rw [if_neg fun hin => he hin.2, ih hpair.1]
      have hnil : missSteps misses l e = [] := not_not.mp fun hne => he (mem_missedExperts.mpr hne)
      rw [hnil]
      rfl

/-- Two misses in a longer log: both in its end, or one before. -/
theorem missedTwice_append {ss ts : List ℤ} {b : ℤ} (hb : ts.getLast? = some b) :
    MissedTwice w (ss ++ ts) ↔ MissedTwice w ts ∨ ∃ a ∈ ss, b - a ≤ w := by
  have hne : ts ≠ [] := by
    rintro rfl
    exact absurd hb (Option.some_ne_none b).symm
  have hlast : (ss ++ ts).getLast? = some b := by rw [List.getLast?_append, hb]; rfl
  rw [MissedTwice, MissedTwice, hlast, hb, List.dropLast_append_of_ne_nil hne]
  simp only [Option.mem_some_iff, exists_eq_left', List.mem_append]
  constructor
  · rintro ⟨a, ha | ha, hle⟩
    · exact .inr ⟨a, ha, hle⟩
    · exact .inl ⟨a, ha, hle⟩
  · rintro (⟨a, ha, hle⟩ | ⟨a, ha, hle⟩)
    · exact ⟨a, .inr ha, hle⟩
    · exact ⟨a, .inl ha, hle⟩

end Steps

/-- The call sees the misses as the law does: two of them within the window are also within it
of the last miss of an earlier call, and a first miss is not within the window of the initial
value unless it is followed by a second one. -/
def SeenAlike (cfg : Config) (calls : List (List Miss)) (misses : List Miss) (l e : ℕ) : Prop :=
  (MissedTwice cfg.window (missSteps misses l e) →
      lastMissStep misses l e - lastMissAfter cfg calls l e ≤ cfg.window) ∧
    (missSteps calls.flatten l e = [] → lastMissStep misses l e - noMiss ≤ cfg.window →
      MissedTwice cfg.window (missSteps misses l e))

/-- **A call admits on the second miss, if it sees it.** For a log whose steps do not decrease,
however it is split into calls, a missed expert is a candidate of a call exactly if its latest
miss was preceded by another one within the window, if and only if the call sees the misses
alike. -/
theorem admitted_iff_missedTwice (cfg : Config) (hw : 0 < cfg.window) (calls : List (List Miss))
    (misses : List Miss)
    (hlog : ((calls.flatten ++ misses).map (·.step)).Pairwise (· ≤ ·)) (l e : ℕ)
    (he : e ∈ missedExperts misses l) :
    (e ∈ admitted cfg misses (lastMissAfter cfg calls l) l ↔
      MissedTwice cfg.window (missSteps (calls.flatten ++ misses) l e)) ↔
    SeenAlike cfg calls misses l e := by
  have hsorted := List.pairwise_append.mp (List.map_append ▸ hlog)
  obtain ⟨b, hb⟩ := Option.isSome_iff_exists.mp
    (List.getLast?_isSome.mpr (mem_missedExperts.mp he))
  have hlatest : lastMissStep misses l e = b := by
    rw [lastMissStep_eq (missSteps_sorted hsorted.2.1), hb]
    rfl
  have hbefore := lastMissAfter_eq (l := l) (e := e) cfg hw calls hsorted.1
  have hadmitted : e ∈ admitted cfg misses (lastMissAfter cfg calls l) l ↔
      b - lastMissAfter cfg calls l e ≤ cfg.window := by
    rw [admitted, if_pos hw, List.mem_filter, and_iff_right he, decide_eq_true_eq, hlatest]
  rw [missSteps_append, missedTwice_append hb, hadmitted, SeenAlike, hlatest]
  -- an earlier miss is within the window exactly if the last of them is
  have hearlier : (∃ a ∈ missSteps calls.flatten l e, b - a ≤ cfg.window) ↔
      missSteps calls.flatten l e ≠ [] ∧ b - lastMissAfter cfg calls l e ≤ cfg.window := by
    rw [hbefore]
    rcases List.eq_nil_or_concat (missSteps calls.flatten l e) with hnil | ⟨init, a, ha⟩
    · simp [hnil]
    · have hsteps : (missSteps calls.flatten l e).Pairwise (· ≤ ·) := missSteps_sorted hsorted.1
      rw [List.concat_eq_append] at ha
      rw [ha] at hsteps ⊢
      rw [List.getLast?_append, List.getLast?_singleton]
      change _ ↔ _ ∧ b - a ≤ _
      constructor
      · rintro ⟨a', ha', hle⟩
        refine ⟨List.append_ne_nil_of_right_ne_nil _ (List.cons_ne_nil a []), ?_⟩
        rcases List.mem_append.mp ha' with hin | hin
        · have := (List.pairwise_append.mp hsteps).2.2 a' hin a (List.mem_singleton_self a)
          omega
        · rwa [← List.mem_singleton.mp hin]
      · rintro ⟨-, hle⟩
        exact ⟨a, List.mem_append_right _ (List.mem_singleton_self a), hle⟩
  rw [hearlier]
  by_cases hnil : missSteps calls.flatten l e = []
  · have hnone : lastMissAfter cfg calls l e = noMiss := by rw [hbefore, hnil]; rfl
    simp only [hnil, ne_eq, not_true_eq_false, false_and, or_false, true_implies, hnone]
    exact Iff.comm.trans iff_iff_implies_and_implies
  · simp only [hnil, ne_eq, not_false_eq_true, true_and, false_implies, and_true]
    constructor
    · exact fun h htwice => h.mpr (.inl htwice)
    · exact fun h => ⟨.inr, fun hor => hor.elim h id⟩

/-- One slice per expert, and a window of eight steps. -/
def windowed : Config where
  V := 1
  V_pos := Nat.one_pos
  nLayers := 1
  maxPerLayer := 4
  window := 8
  batched := true
  tail := true
  promoteSync := false

/-- Expert 3 is missed in two steps, and the second miss admits it in a call of its own. -/
theorem admitted_iff_missedTwice_split :
    3 ∈ admitted windowed [⟨6, 0, 3⟩] (lastMissAfter windowed [[⟨5, 0, 3⟩]] 0) 0 ↔
      MissedTwice 8 (missSteps [⟨5, 0, 3⟩, ⟨6, 0, 3⟩] 0 3) :=
  (admitted_iff_missedTwice windowed (by decide) [[⟨5, 0, 3⟩]] [⟨6, 0, 3⟩] (by decide) 0 3
    (by decide)).mpr ⟨by decide, by decide⟩

/-- When both misses come in one call the expert is skipped. -/
theorem second_miss_skipped :
    (([⟨5, 0, 3⟩, ⟨6, 0, 3⟩] : List Miss).map (·.step)).Pairwise (· ≤ ·) ∧
      3 ∈ missedExperts [⟨5, 0, 3⟩, ⟨6, 0, 3⟩] 0 ∧
      MissedTwice windowed.window (missSteps [⟨5, 0, 3⟩, ⟨6, 0, 3⟩] 0 3) ∧
      3 ∉ admitted windowed [⟨5, 0, 3⟩, ⟨6, 0, 3⟩] (lastMissAfter windowed [] 0) 0 ∧
      3 ∈ admitted windowed [⟨6, 0, 3⟩] (lastMissAfter windowed [[⟨5, 0, 3⟩]] 0) 0 := by
  decide

end Placement

end VllmMoet
