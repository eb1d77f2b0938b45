import Mathlib.Algebra.Order.BigOperators.Group.Finset
import VllmMoet.Delta.Bookkeeping

/-!
# Which slots a take evicts

A take returns free slots first, as the stack gives them, and evicts the others pass by pass.
`EvictsInPasses` says of the evicted ones what the passes promise: each pass takes the eligible
slots of the smallest keys in their order, and a later pass takes something only where the
earlier one has left nothing eligible.

* `foldl_takePass`: the passes evict so, under admission keys or without.
* `takeSlotsBatch_spec`: what a take returns and what it does to the tables.
-/

namespace VllmMoet

/-- The front of a selection is a selection. -/
theorem IsTopK.of_prefix {largest : Bool} {key : ℕ → ℚ} {elig out out' : List ℕ} {m : ℕ}
    (h : IsTopK largest key elig m out) (hp : out' <+: out) :
    IsTopK largest key elig out'.length out' := by
  obtain ⟨rest, rfl⟩ := hp
  have hord := List.pairwise_append.mp h.ordered
  have hsub : ∀ i ∈ out', i ∈ elig := fun i hi => h.subset i (List.mem_append_left _ hi)
  constructor
  case nodup => exact (List.nodup_append.mp h.nodup).1
  case subset => exact hsub
  case length =>
    have hle := ((List.nodup_append.mp h.nodup).1.subperm hsub).length_le
    omega
  case ordered => exact hord.1
  case best =>
    intro i hi j hj hnot
    by_cases hr : j ∈ rest
    · exact hord.2.2 i hi j hr
    · exact h.best i (List.mem_append_left _ hi) j hj (by simp [hnot, hr])

/-- A selection of as many as are eligible leaves none of them out. -/
theorem IsTopK.all_mem {largest : Bool} {key : ℕ → ℚ} {elig out : List ℕ} {m : ℕ}
    (h : IsTopK largest key elig m out) (hm : elig.length ≤ m) : ∀ s ∈ elig, s ∈ out := by
  have hperm : out.Perm elig := (List.subperm_of_subset h.nodup h.subset).perm_of_length_le
    (by rw [h.length, Nat.min_eq_right hm])
  intro s hs
  exact hperm.mem_iff.mpr hs

namespace Delta

/-- The free stack holds slots of the pool that no pair owns, each once. -/
structure FreeOk (cfg : Config) (t : Tier) : Prop where
  nodup : t.free.Nodup
  lt : ∀ s ∈ t.free, s < cfg.nSlots
  unowned : ∀ s ∈ t.free, t.owner s = none

/-- `ev` are evicted in the passes that are given by the slots they must not touch: by each the
smallest keys of what is eligible, by a later one only when nothing eligible is left. -/
def EvictsInPasses (cfg : Config) (key : ℕ → ℚ) :
    List (ℕ → Bool) → List ℕ → List ℕ → Prop
  | [], _, ev => ev = []
  | ineligible :: rest, taken, ev => ∃ victims later, ev = victims ++ later ∧
      IsTopK false key (eligible cfg ineligible taken) victims.length victims ∧
      (later ≠ [] → ∀ s ∈ eligible cfg ineligible taken, s ∈ victims) ∧
      EvictsInPasses cfg key rest (taken ++ victims) later

theorem mem_eligible {cfg : Config} {ineligible : ℕ → Bool} {taken : List ℕ} {s : ℕ} :
    s ∈ eligible cfg ineligible taken ↔
      s < cfg.nSlots ∧ ineligible s = false ∧ s ∉ taken := by
  simp [eligible]

namespace EvictsInPasses

variable {cfg : Config} {key : ℕ → ℚ}

/-- Nothing is evicted. -/
theorem nothing (ps : List (ℕ → Bool)) (taken : List ℕ) : EvictsInPasses cfg key ps taken [] := by
  induction ps generalizing taken with
  | nil => rfl
  | cons ineligible ps ih =>
    refine ⟨[], [], rfl, ⟨List.nodup_nil, by simp, by simp, List.Pairwise.nil, by simp⟩, ?_, ?_⟩
    · intro h
      exact absurd rfl h
    · exact ih (taken ++ [])

/-- An evicted slot is one of the pool, not taken before, that some pass may touch. -/
theorem mem {ps : List (ℕ → Bool)} {taken ev : List ℕ} (h : EvictsInPasses cfg key ps taken ev)
    {s : ℕ} (hs : s ∈ ev) :
    s < cfg.nSlots ∧ s ∉ taken ∧ ∃ ineligible ∈ ps, ineligible s = false := by
  induction ps generalizing taken ev with
  | nil =>
    rw [show ev = [] from h] at hs
    exact absurd hs (by simp)
  | cons ineligible ps ih =>
    obtain ⟨victims, later, rfl, hpick, _, hrest⟩ := h
    rcases List.mem_append.mp hs with hs | hs
    · obtain ⟨hlt, hel, hnot⟩ := mem_eligible.mp (hpick.subset s hs)
      exact ⟨hlt, hnot, ineligible, by simp, hel⟩
    · obtain ⟨hlt, hnot, p, hp, hel⟩ := ih hrest hs
      exact ⟨hlt, fun h => hnot (by simp [h]), p, by simp [hp], hel⟩

/-- No slot is evicted twice. -/
theorem nodup {ps : List (ℕ → Bool)} {taken ev : List ℕ}
    (h : EvictsInPasses cfg key ps taken ev) : ev.Nodup := by
  induction ps generalizing taken ev with
  | nil =>
    rw [show ev = [] from h]
    exact List.nodup_nil
  | cons ineligible ps ih =>
    obtain ⟨victims, later, rfl, hpick, _, hrest⟩ := h
    refine List.nodup_append.mpr ⟨hpick.nodup, ih hrest, ?_⟩
    rintro s hs _ hl rfl
    exact (hrest.mem hl).2.1 (by simp [hs])

end EvictsInPasses

/-! ### Victims under admission keys -/

section Admission

variable {cfg : Config} {T : TopK} {t : Tier} {k : ℕ} {key : ℕ → ℚ}

/-- Each of the slots serves a candidate of larger key, counted from the place `n` on. -/
def Admitted (adm : List ℚ) (key : ℕ → ℚ) (n : ℕ) (ev : List ℕ) : Prop :=
  ∀ i s, ev[i]? = some s → ∃ c, adm[n + i]? = some c ∧ key s < c

theorem Admitted.append {adm : List ℚ} {n : ℕ} {ev ev' : List ℕ} (h : Admitted adm key n ev)
    (h' : Admitted adm key (n + ev.length) ev') : Admitted adm key n (ev ++ ev') := by
  intro i s hs
  rcases Nat.lt_or_ge i ev.length with hi | hi
  · rw [List.getElem?_append_left hi] at hs
    exact h i s hs
  · rw [List.getElem?_append_right hi] at hs
    obtain ⟨c, hc, hlt⟩ := h' _ s hs
    refine ⟨c, ?_, hlt⟩
    rw [← hc]
    congr 1
    omega

theorem unmap_unmap (t : Tier) (xs ys : List ℕ) : (t.unmap xs).unmap ys = t.unmap (xs ++ ys) := by
  have htable : ∀ f : Pair → Option ℕ,
      (fun p => if ys.any fun s => decide (t.owner s = some p) then none
        else if xs.any fun s => decide (t.owner s = some p) then none else f p) =
      fun p => if (xs ++ ys).any fun s => decide (t.owner s = some p) then none else f p := by
    intro f
    funext p
    rw [List.any_append]
    cases xs.any fun s => decide (t.owner s = some p) <;>
      cases ys.any fun s => decide (t.owner s = some p) <;> rfl
  unfold Tier.unmap
  congr 1
  · exact htable t.slotTable
  · exact htable t.mirror

theorem Taking.evict_evict (a : Taking) (xs ys : List ℕ) :
    (a.evict xs).evict ys = a.evict (xs ++ ys) := by
  simp only [Taking.evict, unmap_unmap, List.append_assoc]

theorem Taking.evict_nil (a : Taking) : a.evict [] = a := by
  simp [Taking.evict, Tier.unmap]

/-- Victims are admitted from the front up to the first that is not. -/
theorem foldl_admitVictim (adm : List ℚ) (victims : List ℕ) (a : Taking) :
    ∃ ws d, ws <+: victims ∧ victims.foldl (admitVictim adm key) a =
        { a.evict ws with done := d } ∧ Admitted adm key a.out.length ws ∧
      (a.done = true → ws = [] ∧ d = true) ∧ (d = false → ws = victims) := by
  induction victims generalizing a with
  | nil =>
    refine ⟨[], a.done, List.prefix_rfl, ?_, ?_, ?_, fun _ => rfl⟩
    · rw [a.evict_nil]
      rfl
    · intro i s hs
      simp at hs
    · intro h
      exact ⟨rfl, h⟩
  | cons s victims ih =>
    -- once the take is done nothing changes any more
    have hdone : ∀ b : Taking, b = { a with done := true } →
        victims.foldl (admitVictim adm key) b = { a.evict [] with done := true } := by
      rintro b rfl
      obtain ⟨ws, d, _, hfold, _, hd, _⟩ := ih { a with done := true }
      obtain ⟨rfl, rfl⟩ := hd rfl
      rw [hfold]
      simp [Taking.evict, Tier.unmap]
    have hstop : ∀ b : Taking, b = { a with done := true } → admitVictim adm key a s = b →
        ∃ ws d, ws <+: s :: victims ∧ (s :: victims).foldl (admitVictim adm key) a =
          { a.evict ws with done := d } ∧ Admitted adm key a.out.length ws ∧
        (a.done = true → ws = [] ∧ d = true) ∧ (d = false → ws = s :: victims) := by
      intro b hb hstep
      refine ⟨[], true, List.nil_prefix, ?_, ?_, fun _ => ⟨rfl, rfl⟩, by simp⟩
      · rw [List.foldl_cons, hstep]
        exact hdone b hb
      · intro i r hr
        simp at hr
    by_cases ha : a.done = true
    · refine hstop a ?_ (by rw [admitVictim, if_pos ha])
      rw [← ha]
    · rcases hc : adm[a.out.length]? with _ | c
      · exact hstop _ rfl (by rw [admitVictim, if_neg ha, hc])
      · by_cases hle : c ≤ key s
        · refine hstop _ rfl ?_
          rw [admitVictim, if_neg ha, hc]
          exact if_pos hle
        · have hstep : admitVictim adm key a s = a.evict [s] := by
            rw [admitVictim, if_neg ha, hc]
            exact if_neg hle
          obtain ⟨ws, d, hp, hfold, hadm, _, hall⟩ := ih (a.evict [s])
          have hlen : (a.evict [s]).out.length = a.out.length + [s].length :=
            List.length_append
          refine ⟨s :: ws, d, List.cons_prefix_cons.mpr ⟨rfl, hp⟩, ?_, ?_, ?_, ?_⟩
          · rw [List.foldl_cons, hstep, hfold, Taking.evict_evict]
            rfl
          · rw [hlen] at hadm
            have hone : Admitted adm key a.out.length [s] := by
              intro i r hr
              obtain ⟨rfl, rfl⟩ : i = 0 ∧ s = r := by
                cases i with
                | zero => exact ⟨rfl, by simpa using hr⟩
                | succ i => simp at hr
              exact ⟨c, hc, not_le.mp hle⟩
            exact hone.append hadm
          · intro h
            exact absurd h ha
          · intro h
            rw [hall h]

end Admission

/-! ### The passes -/

section Passes

variable {cfg : Config} {T : TopK} {k : ℕ} {key : ℕ → ℚ} {admission : Option (List ℚ)}

/-- What one pass evicts: the smallest keys of what is eligible to it, all of that unless it
comes to `k` slots or the admission keys end the take. -/
structure PassEvicts (cfg : Config) (key : ℕ → ℚ) (k : ℕ) (admission : Option (List ℚ))
    (a : Taking) (ineligible : ℕ → Bool) (victims : List ℕ) (d : Bool) : Prop where
  smallest : IsTopK false key (eligible cfg ineligible a.taken) victims.length victims
  length : a.out.length ≤ k → a.out.length + victims.length ≤ k
  ended : a.done = true ∨ k ≤ a.out.length → victims = [] ∧ d = a.done
  all : d = false → k ≤ a.out.length + victims.length ∨
    ∀ s ∈ eligible cfg ineligible a.taken, s ∈ victims
  admitted : ∀ adm, admission = some adm → Admitted adm key a.out.length victims
  plain : admission = none → d = a.done

theorem takePass_evicts (a : Taking) (ineligible : ℕ → Bool) :
    ∃ victims d, takePass cfg T key k admission a ineligible =
        { a.evict victims with done := d } ∧
      PassEvicts cfg key k admission a ineligible victims d := by
  by_cases hgo : (a.done || decide (k ≤ a.out.length)) = true
  · -- a pass after the end, or with enough slots, does nothing
    have hended : a.done = true ∨ k ≤ a.out.length := by simpa using hgo
    refine ⟨[], a.done, by rw [takePass, if_pos hgo, a.evict_nil], ?_⟩
    constructor
    case smallest => exact ⟨List.nodup_nil, by simp, by simp, List.Pairwise.nil, by simp⟩
    case length => exact fun h => h
    case ended => exact fun _ => ⟨rfl, rfl⟩
    case all =>
      intro hd
      exact .inl (hended.resolve_left (by simp [hd]))
    case admitted =>
      intro adm _ i s hs
      simp at hs
    case plain => exact fun _ => rfl
  · have hrun : a.done = false ∧ ¬ k ≤ a.out.length := by simpa using hgo
    have hnot : ¬ (a.done = true ∨ k ≤ a.out.length) := by simpa using hrun
    obtain ⟨picked, hpicked⟩ : ∃ picked, picked = T.pick false key (eligible cfg ineligible a.taken)
        (min (k - a.out.length) (eligible cfg ineligible a.taken).length) := ⟨_, rfl⟩
    have hspec : IsTopK false key (eligible cfg ineligible a.taken)
        (min (k - a.out.length) (eligible cfg ineligible a.taken).length) picked :=
      hpicked ▸ T.spec false key _ _ (List.nodup_range.filter _)
    have hlen := hspec.length
    have hall : picked.length < k - a.out.length →
        ∀ s ∈ eligible cfg ineligible a.taken, s ∈ picked := fun hlt => hspec.all_mem (by omega)
    cases admission with
    | none =>
      have hstep : takePass cfg T key k none a ineligible = a.evict picked := by
        rw [takePass, if_neg hgo, hpicked]
        rfl
      refine ⟨picked, a.done, hstep, ?_⟩
      constructor
      case smallest => exact hspec.of_prefix List.prefix_rfl
      case length => exact fun h => by omega
      case ended => exact fun h => absurd h hnot
      case all =>
        intro _
        by_cases hk : k ≤ a.out.length + picked.length
        · exact .inl hk
        · exact .inr (hall (by omega))
      case admitted => exact fun adm h => by simp at h
      case plain => exact fun _ => rfl
    | some adm =>
      -- under admission a prefix of the picked slots is evicted, up to the first that is refused
      obtain ⟨ws, d, hp, hfold, hadm, _, hdall⟩ := @foldl_admitVictim key adm picked a
      have hstep : takePass cfg T key k (some adm) a ineligible =
          picked.foldl (admitVictim adm key) a := by
        rw [takePass, if_neg hgo, hpicked]
        rfl
      have hle := hp.length_le
      refine ⟨ws, d, hstep.trans hfold, ?_⟩
      constructor
      case smallest => exact hspec.of_prefix hp
      case length => exact fun h => by omega
      case ended => exact fun h => absurd h hnot
      case all =>
        intro hd
        rw [hdall hd]
        by_cases hk : k ≤ a.out.length + picked.length
        · exact .inl hk
        · exact .inr (hall (by omega))
      case admitted =>
        intro adm' h
        rw [← Option.some_inj.mp h]
        exact hadm
      case plain => exact fun h => by simp at h

/-- What all passes evict. -/
theorem foldl_takePass (ps : List (ℕ → Bool)) (a : Taking) :
    ∃ ev d, ps.foldl (takePass cfg T key k admission) a = { a.evict ev with done := d } ∧
      EvictsInPasses cfg key ps a.taken ev ∧
      (a.out.length ≤ k → a.out.length + ev.length ≤ k) ∧
      (a.done = true ∨ k ≤ a.out.length → ev = []) ∧
      (∀ adm, admission = some adm → Admitted adm key a.out.length ev) ∧
      (admission = none → a.done = false → k ≤ a.out.length + ev.length ∨
        ∀ ineligible ∈ ps, ∀ s ∈ eligible cfg ineligible a.taken, s ∈ ev) := by
  induction ps generalizing a with
  | nil =>
    refine ⟨[], a.done, by rw [a.evict_nil]; rfl, rfl, fun h => h, fun _ => rfl, ?_, ?_⟩
    · intro adm _ i s hs
      simp at hs
    · intro _ _
      exact .inr (by simp)
  | cons ineligible ps ih =>
    obtain ⟨victims, d, hpass, hv⟩ := @takePass_evicts cfg T k key admission a ineligible
    obtain ⟨ev, d', hfold, hev, hlen, hended, hadm, hplain⟩ :=
      ih { a.evict victims with done := d }
    have hout : (a.evict victims).out.length = a.out.length + victims.length :=
      List.length_append
    simp only [hout] at hlen hended hadm hplain
    refine ⟨victims ++ ev, d', ?_, ⟨victims, ev, rfl, hv.smallest, ?_, hev⟩, ?_, ?_, ?_, ?_⟩
    · rw [List.foldl_cons, hpass, hfold, ← Taking.evict_evict]
      rfl
    · -- a later pass evicts only if this one has taken all that it may
      intro hne
      cases d with
      | true => exact absurd (hended (.inl rfl)) hne
      | false =>
        rcases hv.all rfl with hk | hall
        · exact absurd (hended (.inr hk)) hne
        · exact hall
    · intro hk
      have := hlen (hv.length hk)
      rw [List.length_append]
      omega
    · intro h
      -- nothing is evicted once the take has ended
      obtain ⟨rfl, rfl⟩ := hv.ended h
      rw [hended (h.imp id fun hk => by simpa using hk), List.append_nil]
    · intro adm h
      exact (hv.admitted adm h).append (hadm adm h)
    · intro hnone hd
      have hdv : d = false := (hv.plain hnone).trans hd
      rw [List.length_append]
      rcases hplain hnone hdv with hk | hall
      · exact .inl (by omega)
      · rcases hv.all hdv with hk | hfirst
        · exact .inl (by omega)
        · refine .inr fun p hp s hs => ?_
          obtain ⟨hlt, hel, hnot⟩ := mem_eligible.mp hs
          rcases List.mem_cons.mp hp with rfl | hp
          · exact List.mem_append_left _ (hfirst s hs)
          · by_cases hsv : s ∈ victims
            · exact List.mem_append_left _ hsv
            · refine List.mem_append_right _ (hall p hp s (mem_eligible.mpr ⟨hlt, hel, ?_⟩))
              exact fun h => (List.mem_append.mp h).elim hnot hsv

end Passes

/-! ### A take -/

section Take

variable (cfg : Config) (T : TopK) (v : View) (t : Tier)

/-- The slots that no pass touches. -/
def untouchable (protectHot : Bool) (s : ℕ) : Bool :=
  hard v t s || (protectHot && (hotSlots cfg T t).contains s)

/-- The value of a slot once the slots of `out` are granted to the candidates in their order. -/
def grantedKey (adm : List ℚ) (out : List ℕ) (key : ℕ → ℚ) (s : ℕ) : ℚ :=
  if s ∈ out then adm.getD (out.idxOf s) 0 else key s

/-- What a take of `k` slots returns, `ev` of them evicted, and the tier it leaves. -/
structure TakeSpec (k : ℕ) (emergency : Bool) (minCold : ℕ) (admission : Option (List ℚ))
    (protectHot : Bool) (out : List ℕ) (t' : Tier) (ev : List ℕ) : Prop where
  out_eq : out = t.free.take k ++ ev
  length_le : out.length ≤ k
  nodup : out.Nodup
  lt : ∀ s ∈ out, s < cfg.nSlots
  /-- free slots are used up before one is evicted -/
  freeFirst : ev ≠ [] → t.free.length < k
  spared : ∀ s ∈ ev, t.owner s ≠ none ∧ t.stepPin s = false ∧ t.layerPin s = false ∧
    ∀ p, t.owner s = some p → v.coupled p = false
  cold : protectHot → ∀ s ∈ ev, s ∉ hotSlots cfg T t ∧
    ∀ r ∈ hotSlots cfg T t, t.key cfg s ≤ t.key cfg r
  inPasses : EvictsInPasses cfg (t.key cfg) (passes cfg T v t emergency minCold protectHot) [] ev
  tier : t' = { t.unmap ev with free := t.free.drop k }
  unmapped : ∀ p, (∃ s ∈ ev, t.owner s = some p) → t'.slotTable p = none ∧ t'.mirror p = none
  kept : ∀ p, (∀ s ∈ ev, t.owner s ≠ some p) →
    t'.slotTable p = t.slotTable p ∧ t'.mirror p = t.mirror p
  admitted : ∀ adm, admission = some adm → Admitted adm (t.key cfg) (t.free.take k).length ev
  /-- an admitted take never lowers the value of the pool -/
  value : ∀ adm, admission = some adm →
    ∑ s ∈ Finset.range cfg.nSlots with t.owner s ≠ none, t.key cfg s ≤
      ∑ s ∈ Finset.range cfg.nSlots with t.owner s ≠ none, grantedKey adm out (t.key cfg) s
  urgent : emergency → admission = none → out.length = min k (t.free.length +
    ((List.range cfg.nSlots).filter fun s => !untouchable cfg T v t protectHot s).length)

variable {cfg T v t} {k : ℕ} {emergency : Bool} {minCold : ℕ} {admission : Option (List ℚ)}
  {protectHot : Bool}

theorem passes_untouchable {ineligible : ℕ → Bool}
    (hmem : ineligible ∈ passes cfg T v t emergency minCold protectHot) {s : ℕ}
    (hs : ineligible s = false) : untouchable cfg T v t protectHot s = false := by
  simp only [passes, List.mem_append, List.mem_singleton] at hmem
  rcases hmem with rfl | hmem
  · simp only [blocked, Bool.or_eq_false_iff] at hs
    exact Bool.or_eq_false_iff.mpr ⟨hs.1.1.1, hs.1.2⟩
  · split at hmem
    · rcases List.mem_pair.mp hmem with rfl | rfl
      · simp only [blocked, Bool.or_eq_false_iff] at hs
        exact Bool.or_eq_false_iff.mpr ⟨hs.1.1, hs.2⟩
      · exact hs
    · simp at hmem

/-- A slot that is not untouchable has none of the exclusions. -/
theorem untouchable_eq_false {s : ℕ} :
    untouchable cfg T v t protectHot s = false ↔
      (t.owner s ≠ none ∧ t.stepPin s = false ∧ t.layerPin s = false ∧
        v.coupled (t.clampedOwner s) = false) ∧
      (protectHot → s ∉ hotSlots cfg T t) := by
  cases protectHot <;> simp [untouchable, hard, and_assoc, Option.isSome_iff_ne_none]

/-- The hot half has the larger keys. -/
theorem key_le_of_hot {s r : ℕ} (hs : s < cfg.nSlots) (hown : t.owner s ≠ none)
    (hcold : s ∉ hotSlots cfg T t) (hr : r ∈ hotSlots cfg T t) : t.key cfg s ≤ t.key cfg r := by
  have hspec := T.spec true (t.key cfg)
    ((List.range cfg.nSlots).filter fun s => (t.owner s).isSome)
    (min (cfg.nSlots / 2) ((List.range cfg.nSlots).filter fun s => (t.owner s).isSome).length)
    (List.nodup_range.filter _)
  refine hspec.best r hr s ?_ hcold
  simpa [hs, Option.isSome_iff_ne_none] using hown

/-- The pool is worth no less when each victim serves a candidate of larger key. -/
theorem sum_le_grantedKey {adm : List ℚ} {key : ℕ → ℚ} {popped ev : List ℕ}
    (hpop : ∀ s ∈ popped, t.owner s = none) (hadm : Admitted adm key popped.length ev) :
    ∑ s ∈ Finset.range cfg.nSlots with t.owner s ≠ none, key s ≤
      ∑ s ∈ Finset.range cfg.nSlots with t.owner s ≠ none,
        grantedKey adm (popped ++ ev) key s := by
  refine Finset.sum_le_sum fun s hs => ?_
  have hown := (Finset.mem_filter.mp hs).2
  have hnot : s ∉ popped := fun h => hown (hpop s h)
  rw [grantedKey]
  split_ifs with hin
  · have hev : s ∈ ev := (List.mem_append.mp hin).resolve_left hnot
    obtain ⟨c, hc, hlt⟩ := hadm _ s (List.getElem?_idxOf hev)
    rw [List.idxOf_append_of_notMem hnot, List.getD_eq_getElem?_getD, hc]
    exact hlt.le
  · exact le_rfl

/-- A take that pops free slots and evicts nothing. -/
theorem TakeSpec.popped (hok : FreeOk cfg t)
    (hend : emergency → admission = none → k ≤ (t.free.take k).length) :
    TakeSpec cfg T v t k emergency minCold admission protectHot (t.free.take k)
      { t with free := t.free.drop k } [] := by
  constructor
  case out_eq => exact (List.append_nil _).symm
  case length_le => simp
  case nodup => exact hok.nodup.sublist (List.take_sublist _ _)
  case lt => exact fun s hs => hok.lt s (List.mem_of_mem_take hs)
  case freeFirst => exact fun h => absurd rfl h
  case spared => exact fun s hs => absurd hs (by simp)
  case cold => exact fun _ s hs => absurd hs (by simp)
  case inPasses => exact EvictsInPasses.nothing _ _
  case tier => simp [Tier.unmap]
  case unmapped =>
    rintro p ⟨s, hs, _⟩
    exact absurd hs (by simp)
  case kept => exact fun p _ => ⟨rfl, rfl⟩
  case admitted =>
    intro adm _ i s hs
    simp at hs
  case value =>
    intro adm _
    have hnone : Admitted adm (t.key cfg) (t.free.take k).length [] := by
      intro i s hs
      simp at hs
    have hsum := @sum_le_grantedKey cfg t adm (t.key cfg) (t.free.take k) []
      (fun s hs => hok.unowned s (List.mem_of_mem_take hs)) hnone
    rwa [List.append_nil] at hsum
  case urgent =>
    intro he hnone
    have := hend he hnone
    rw [List.length_take] at this ⊢
    omega

/-- The tier after the victims of a take. -/
theorem unmap_apply (ev : List ℕ) (f : Pair → Option ℕ) (p : Pair) :
    ((∃ s ∈ ev, t.owner s = some p) →
      (if ev.any fun s => decide (t.owner s = some p) then none else f p) = none) ∧
    ((∀ s ∈ ev, t.owner s ≠ some p) →
      (if ev.any fun s => decide (t.owner s = some p) then none else f p) = f p) := by
  constructor
  · rintro ⟨s, hs, hp⟩
    exact if_pos (List.any_eq_true.mpr ⟨s, hs, decide_eq_true hp⟩)
  · intro h
    refine if_neg fun hany => ?_
    obtain ⟨s, hs, hp⟩ := List.any_eq_true.mp hany
    exact h s hs (of_decide_eq_true hp)

/-- A take that pops all free slots and goes on to the passes. -/
theorem TakeSpec.passed (hok : FreeOk cfg t) (hshort : t.free.length < k) {ev : List ℕ}
    (hin : EvictsInPasses cfg (t.key cfg) (passes cfg T v t emergency minCold protectHot) [] ev)
    (hlen : (t.free.take k).length + ev.length ≤ k)
    (hadm : ∀ adm, admission = some adm → Admitted adm (t.key cfg) (t.free.take k).length ev)
    (hall : admission = none → k ≤ (t.free.take k).length + ev.length ∨
      ∀ ineligible ∈ passes cfg T v t emergency minCold protectHot,
        ∀ s ∈ eligible cfg ineligible [], s ∈ ev) :
    TakeSpec cfg T v t k emergency minCold admission protectHot (t.free.take k ++ ev)
      { t.unmap ev with free := t.free.drop k } ev := by
  -- the free slots are short of what is asked for, so all of them are popped
  have hpop : t.free.take k = t.free := List.take_of_length_le hshort.le
  have hev : ∀ s ∈ ev, s < cfg.nSlots ∧ untouchable cfg T v t protectHot s = false := by
    intro s hs
    obtain ⟨hlt, _, p, hp, hel⟩ := hin.mem hs
    exact ⟨hlt, passes_untouchable hp hel⟩
  constructor
  case out_eq => rfl
  case length_le => rwa [List.length_append]
  case nodup =>
    rw [hpop]
    refine List.nodup_append.mpr ⟨hok.nodup, hin.nodup, ?_⟩
    rintro s hs _ hr rfl
    exact (untouchable_eq_false.mp (hev s hr).2).1.1 (hok.unowned s hs)
  case lt =>
    intro s hs
    rcases List.mem_append.mp hs with hs | hs
    · exact hok.lt s (List.mem_of_mem_take hs)
    · exact (hev s hs).1
  case freeFirst => exact fun _ => hshort
  case spared =>
    intro s hs
    obtain ⟨hown, hstep, hlayer, hcpl⟩ := (untouchable_eq_false.mp (hev s hs).2).1
    refine ⟨hown, hstep, hlayer, fun p hp => ?_⟩
    rwa [Tier.clampedOwner, hp] at hcpl
  case cold =>
    intro hprot s hs
    have hspared := untouchable_eq_false.mp (hev s hs).2
    have hcold := hspared.2 hprot
    exact ⟨hcold, fun r hr => key_le_of_hot (hev s hs).1 hspared.1.1 hcold hr⟩
  case inPasses => exact hin
  case tier => rfl
  case unmapped =>
    intro p hp
    exact ⟨(unmap_apply ev t.slotTable p).1 hp, (unmap_apply ev t.mirror p).1 hp⟩
  case kept =>
    intro p hp
    exact ⟨(unmap_apply ev t.slotTable p).2 hp, (unmap_apply ev t.mirror p).2 hp⟩
  case admitted => exact hadm
  case value =>
    intro adm h
    exact sum_le_grantedKey (fun s hs => hok.unowned s (List.mem_of_mem_take hs)) (hadm adm h)
  case urgent =>
    intro he hnone
    have hsub : ∀ s ∈ ev, s ∈ (List.range cfg.nSlots).filter
        fun s => !untouchable cfg T v t protectHot s := by
      intro s hs
      simp [(hev s hs).1, (hev s hs).2]
    have hle := (hin.nodup.subperm hsub).length_le
    rw [List.length_append]
    rcases hall hnone with hk | hmem
    · rw [hpop] at hk hlen ⊢
      omega
    · -- the last pass of an emergency leaves no slot that may be touched
      have hlast : (fun s => hard v t s || (protectHot && (hotSlots cfg T t).contains s)) ∈
          passes cfg T v t emergency minCold protectHot := by
        simp [passes, he]
      have hsup : ∀ s ∈ (List.range cfg.nSlots).filter
          (fun s => !untouchable cfg T v t protectHot s), s ∈ ev := by
        intro s hs
        obtain ⟨hlt, hfree⟩ := List.mem_filter.mp hs
        exact hmem _ hlast s (mem_eligible.mpr ⟨List.mem_range.mp hlt,
          (Bool.not_eq_true' _).mp hfree, by simp⟩)
      have hge := ((List.nodup_range.filter _).subperm hsup).length_le
      rw [hpop] at hlen ⊢
      omega

/-- A take either stops at the free slots it pops, as a plain one does only when they are enough,
or goes on to the passes, which evict what `foldl_takePass` says. -/
theorem takeSlotsBatch_evicts (cfg : Config) (T : TopK) (v : View) (t : Tier) (k : ℕ)
    (emergency : Bool) (minCold : ℕ) (admission : Option (List ℚ)) (protectHot : Bool) :
    ∃ ev, takeSlotsBatch cfg T v t k emergency minCold admission protectHot =
        (t.free.take k ++ ev, { t.unmap ev with free := t.free.drop k }) ∧
      ((ev = [] ∧ (admission = none → k ≤ (t.free.take k).length)) ∨
        t.free.length < k ∧
        EvictsInPasses cfg (t.key cfg) (passes cfg T v t emergency minCold protectHot) [] ev ∧
        (t.free.take k).length + ev.length ≤ k ∧
        (∀ adm, admission = some adm →
          Admitted adm (t.key cfg) (t.free.take k).length ev) ∧
        (admission = none → k ≤ (t.free.take k).length + ev.length ∨
          ∀ ineligible ∈ passes cfg T v t emergency minCold protectHot,
            ∀ s ∈ eligible cfg ineligible [], s ∈ ev)) := by
  have hpopped : (t.free.take k, { t with free := t.free.drop k }) =
      (t.free.take k ++ [], { t.unmap [] with free := t.free.drop k }) := by
    simp [Tier.unmap]
  rw [takeSlotsBatch]
  dsimp only
  split
  · next hk => exact ⟨[], hpopped, .inl ⟨rfl, fun _ => hk⟩⟩
  · next hk =>
    split
    · next hadm =>
      refine ⟨[], hpopped, .inl ⟨rfl, fun hnone => ?_⟩⟩
      rw [hnone] at hadm
      exact absurd hadm (by simp)
    · have hshort : t.free.length < k := by
        rw [List.length_take] at hk
        omega
      obtain ⟨ev, d, hfold, hin, hlen, _, hadm, hall⟩ := @foldl_takePass cfg T k (t.key cfg)
        admission (passes cfg T v t emergency minCold protectHot)
        ⟨{ t with free := t.free.drop k }, t.free.take k, [], false⟩
      exact ⟨ev, congrArg (fun a : Taking => (a.out, a.tier)) hfold,
        .inr ⟨hshort, hin, hlen (by simp), hadm, fun hnone => hall hnone rfl⟩⟩

/-- **What a take evicts.** From any pool whose free stack is in order, for every way of taking:
free slots come first; the evicted ones are distinct, have none of the exclusions and are the
smallest keys pass by pass; exactly their owners are unmapped, in both tables; under admission
keys the value of the pool does not fall; in an emergency nothing but `k` and the exclusions
bounds the take. -/
theorem takeSlotsBatch_spec (cfg : Config) (T : TopK) (v : View) (t : Tier) (hok : FreeOk cfg t)
    (k : ℕ) (emergency : Bool) (minCold : ℕ) (admission : Option (List ℚ)) (protectHot : Bool) :
    ∃ ev, TakeSpec cfg T v t k emergency minCold admission protectHot
      (takeSlotsBatch cfg T v t k emergency minCold admission protectHot).1
      (takeSlotsBatch cfg T v t k emergency minCold admission protectHot).2 ev := by
  obtain ⟨ev, htake, hev⟩ := takeSlotsBatch_evicts cfg T v t k emergency minCold admission
    protectHot
  refine ⟨ev, ?_⟩
  rw [htake]
  rcases hev with ⟨rfl, hend⟩ | ⟨hshort, hin, hlen, hadm, hall⟩
  · have hpopped := @TakeSpec.popped cfg T v t k emergency minCold admission protectHot hok
      fun _ => hend
    simpa [Tier.unmap] using hpopped
  · exact .passed hok hshort hin hlen hadm hall

/-- The small tier with both slots taken. -/
def fullTier : Tier :=
  { Tier.init smallTier with
    free := []
    owner := fun s => some (0, s)
    slotTable := fun p => if p.1 = 0 ∧ p.2 < 2 then some p.2 else none
    mirror := fun p => if p.1 = 0 ∧ p.2 < 2 then some p.2 else none }

theorem takeSlotsBatch_spec_full :
    (takeSlotsBatch smallTier .sorted quiet fullTier 1 true 2 none false).1.length = 1 := by
  have hok : FreeOk smallTier fullTier := ⟨List.nodup_nil, nofun, nofun⟩
  obtain ⟨ev, h⟩ := takeSlotsBatch_spec smallTier .sorted quiet fullTier hok 1 true 2 none false
  exact (h.urgent rfl rfl).trans (by decide)

/-- What a take returns may be free-marked: from a new tier it is a slot off the free stack. -/
theorem takeSlotsBatch_free_marked :
    (Tier.init smallTier).book.Consistent smallTier.nSlots ∧
      ∃ s ∈ (takeSlotsBatch smallTier .sorted quiet (Tier.init smallTier) 1 false 2 none false).1,
        (Tier.init smallTier).owner s = none :=
  ⟨(slotsOk_iff.mp (slotsOk_init smallTier)).1, 1, by decide, rfl⟩

end Take

end Delta

end VllmMoet
