import VllmMoet.Delta.Bookkeeping

/-!
# What a step has touched stays

The passes of one step pin the slots they touch: `force_promote` those in which it finds a
routed pair resident, and it and `prefetch_pairs` those they fill. A pinned slot is excluded
from every eviction pass, emergency or not (`takeSlotsBatch_spares`), so it keeps its pair and
its bytes until the step boundary clears the pins, whoever evicts in between: `Keeps` is that
promise for one operation, and `touched_kept` for every run.

It holds on a tier with consistent books only: a stale owner entry, as a pair fetched twice by
one prefetch leaves it, lets an eviction unmap a pair that lives in a pinned slot
(`duplicate_unmaps_pinned`).
-/

namespace VllmMoet.Delta

/-! ### What a take leaves alone -/

/-- A take changes the free list and the two tables and nothing else. -/
structure TakeFrame (t t' : Tier) : Prop where
  owner : t'.owner = t.owner
  stepPin : t'.stepPin = t.stepPin
  pool : t'.pool = t.pool

section Take

variable {cfg : Config} {T : TopK} {v : View} {t : Tier}

/-- Where a take stands between two victims: the frame, and that it evicts nothing in `P`. -/
structure Spares (t : Tier) (P : ℕ → Prop) (a : Taking) : Prop extends TakeFrame t a.tier where
  taken : ∀ s ∈ a.taken, ¬ P s
  origin : ∀ s ∈ a.out, s ∈ a.taken ∨ s ∈ t.free

variable {P : ℕ → Prop}

theorem Spares.evict {a : Taking} (h : Spares t P a) {victims : List ℕ}
    (hv : ∀ s ∈ victims, ¬ P s) : Spares t P (a.evict victims) where
  owner := h.owner
  stepPin := h.stepPin
  pool := h.pool
  taken s hs := (List.mem_append.mp hs).elim (h.taken s) (hv s)
  origin s hs := by
    simp only [Taking.evict, List.mem_append] at hs ⊢
    rcases hs with hs | hs
    · exact (h.origin s hs).imp_left Or.inl
    · exact .inl (.inr hs)

theorem Spares.foldl_admitVictim (adm : List ℚ) (key : ℕ → ℚ) {victims : List ℕ} {a : Taking}
    (h : Spares t P a) (hv : ∀ s ∈ victims, ¬ P s) :
    Spares t P (victims.foldl (admitVictim adm key) a) := by
  refine List.foldlRecOn (motive := Spares t P) _ _ h fun b hb s hs => ?_
  have hstop : Spares t P { b with done := true } :=
    ⟨⟨hb.owner, hb.stepPin, hb.pool⟩, hb.taken, hb.origin⟩
  rw [admitVictim]
  split
  · exact hb
  · split
    · exact hstop
    · split
      · exact hstop
      · exact hb.evict fun r hr => by
          rw [List.mem_singleton.mp hr]
          exact hv s hs

/-- A pass that must not touch `P` does not. -/
theorem Spares.takePass {a : Taking} (h : Spares t P a) (key : ℕ → ℚ) (k : ℕ)
    (admission : Option (List ℚ)) {ineligible : ℕ → Bool}
    (hP : ∀ s, P s → ineligible s = true) :
    Spares t P (takePass cfg T key k admission a ineligible) := by
  rw [Delta.takePass]
  split
  · exact h
  · have hv : ∀ s ∈ T.pick false key (eligible cfg ineligible a.taken)
        (min (k - a.out.length) (eligible cfg ineligible a.taken).length), ¬ P s :=
      fun s hs hPs => by
        have helig := (T.spec false key _ _ (List.nodup_range.filter _)).subset s hs
        simp [hP s hPs] at helig
    cases admission with
    | none => exact h.evict hv
    | some adm => exact h.foldl_admitVictim adm key hv

/-- Every pass respects the hard exclusions. -/
theorem passes_hard {emergency : Bool} {minCold : ℕ} {protectHot : Bool}
    {ineligible : ℕ → Bool} (hmem : ineligible ∈ passes cfg T v t emergency minCold protectHot)
    {s : ℕ} (hs : hard v t s = true) : ineligible s = true := by
  have hblocked : blocked v t s = true := by simp [blocked, hs]
  simp only [passes, List.mem_append, List.mem_singleton] at hmem
  rcases hmem with rfl | hmem
  · simp [hblocked]
  · split at hmem
    · rcases List.mem_pair.mp hmem with rfl | rfl
      · simp [hblocked]
      · simp [hs]
    · simp at hmem

/-- A take leaves owners, pins and bytes alone, and returns free slots and slots that are not
excluded for a hard reason. -/
theorem takeSlotsBatch_spares (cfg : Config) (T : TopK) (v : View) (t : Tier) (k : ℕ)
    (emergency : Bool) (minCold : ℕ) (admission : Option (List ℚ)) (protectHot : Bool) :
    TakeFrame t (takeSlotsBatch cfg T v t k emergency minCold admission protectHot).2 ∧
      ∀ s ∈ (takeSlotsBatch cfg T v t k emergency minCold admission protectHot).1,
        s ∈ t.free ∨ hard v t s = false := by
  have hpop : ∀ s ∈ t.free.take k, s ∈ t.free ∨ hard v t s = false :=
    fun s hs => .inl (List.mem_of_mem_take hs)
  simp only [takeSlotsBatch]
  split
  · exact ⟨⟨rfl, rfl, rfl⟩, hpop⟩
  · split
    · exact ⟨⟨rfl, rfl, rfl⟩, hpop⟩
    · have hstart : Spares t (fun s => hard v t s = true)
          ⟨{ t with free := t.free.drop k }, t.free.take k, [], false⟩ :=
        ⟨⟨rfl, rfl, rfl⟩, by simp, fun s hs => .inr (List.mem_of_mem_take hs)⟩
      have hend : Spares t (fun s => hard v t s = true)
          ((passes cfg T v { t with free := t.free.drop k } emergency minCold protectHot).foldl
            (takePass cfg T (Tier.key cfg { t with free := t.free.drop k }) k admission)
            ⟨{ t with free := t.free.drop k }, t.free.take k, [], false⟩) :=
        List.foldlRecOn (motive := Spares t fun s => hard v t s = true) _ _ hstart
          fun a ha ineligible hmem => ha.takePass _ k admission fun s hs => passes_hard hmem hs
      refine ⟨hend.toTakeFrame, fun s hs => ?_⟩
      rcases hend.origin s hs with hs | hs
      · exact .inr (by simpa using hend.taken s hs)
      · exact .inl hs

end Take

/-! ### What an operation keeps -/

/-- Every resident pair's slot holds its row. -/
def RowsOk (t : Tier) : Prop :=
  ∀ p s, t.mirror p = some s → t.pool s = some p

/-- A pair that lives in a pinned slot stays there, pinned, with its bytes; and if every
resident pair's slot held its row it still does. -/
structure Keeps (t t' : Tier) : Prop where
  pinned : ∀ p s, t.mirror p = some s → t.stepPin s = true →
    t'.mirror p = some s ∧ t'.stepPin s = true ∧ t'.pool s = t.pool s
  rows : RowsOk t → RowsOk t'

section Keep

variable {cfg : Config} {T : TopK} {v : View} {t t' u : Tier}

theorem Keeps.refl (t : Tier) : Keeps t t :=
  ⟨fun _ _ hp hs => ⟨hp, hs, rfl⟩, id⟩

theorem Keeps.trans (h : Keeps t t') (h' : Keeps t' u) : Keeps t u where
  pinned p s hp hs := by
    obtain ⟨hp', hs', hpool⟩ := h.pinned p s hp hs
    obtain ⟨hp'', hs'', hpool'⟩ := h'.pinned p s hp' hs'
    exact ⟨hp'', hs'', hpool'.trans hpool⟩
  rows hr := h'.rows (h.rows hr)

/-- An operation that touches neither mirror nor bytes and drops no step pin. -/
theorem Keeps.of_eq (hm : t'.mirror = t.mirror) (hp : t'.pool = t.pool)
    (hs : ∀ s, t.stepPin s = true → t'.stepPin s = true) : Keeps t t' where
  pinned p s hmap hpin := ⟨hm ▸ hmap, hs s hpin, by rw [hp]⟩
  rows hr p s hmap := by
    rw [hp]
    exact hr p s (hm ▸ hmap)

/-- The slots of a plan are filled; every other slot is as the take left it. -/
structure Filled (t' : Tier) (plan : List (Pair × ℕ)) (u : Tier) : Prop where
  mirror : u.mirror = scatter t'.mirror (plan.map fun e => (e.1, some e.2))
  pool : u.pool = scatter t'.pool (plan.map fun e => (e.2, some e.1))
  stepPin : ∀ s, t'.stepPin s = true → u.stepPin s = true

variable {keys : List Pair} {out : List ℕ}

/-- What a take from consistent books says about the pairs that are still mapped. -/
theorem Took.mirror_eq (h : Took cfg t keys.length out t') (hframe : TakeFrame t t')
    (hok : SlotsOk cfg t) {p : Pair} {s : ℕ} :
    t'.mirror p = some s ↔ t.mirror p = some s ∧ s ∉ out := by
  have hbook := (slotsOk_iff.mp hok).1
  have hold : t.mirror p = some s ↔ s < cfg.nSlots ∧ t.owner s = some p := by
    simpa [Tier.book] using hbook.place_iff p s
  have hnew : t'.mirror p = some s ↔ s < cfg.nSlots ∧ s ∉ out ∧ t'.owner s = some p :=
    h.lent.place_iff p s
  rw [hnew, hold, hframe.owner]
  tauto

/-- Nobody takes a slot in which a pinned pair lives. -/
theorem Took.pinned_not_taken (hok : SlotsOk cfg t)
    (hout : ∀ s ∈ out, s ∈ t.free ∨ hard v t s = false) {p : Pair} {s : ℕ}
    (hp : t.mirror p = some s) (hs : t.stepPin s = true) : s ∉ out := by
  intro hmem
  obtain ⟨hlt, hown, -⟩ := hok.mapped p s hp
  rcases hout s hmem with hf | hh
  · rcases hok.slot s hlt with ⟨-, hnone⟩ | ⟨hnf, -⟩
    · simp [hown] at hnone
    · exact hnf hf
  · simp [hard, hs] at hh

/-- A take, and an operation that keeps the mapping and the bytes outside the slots taken and
maps nothing to a slot without its row. -/
theorem Took.keeps (hframe : TakeFrame t t')
    (hout : ∀ s ∈ out, s ∈ t.free ∨ hard v t s = false) (hok : SlotsOk cfg t)
    (hmap : ∀ p s, t.mirror p = some s → s ∉ out → u.mirror p = some s)
    (hpool : ∀ s, s ∉ out → u.pool s = t'.pool s)
    (hpin : ∀ s, t'.stepPin s = true → u.stepPin s = true)
    (hrow : ∀ p s, u.mirror p = some s → (t.mirror p = some s ∧ s ∉ out) ∨ u.pool s = some p) :
    Keeps t u where
  pinned p s hp hs := by
    have hs' := Took.pinned_not_taken hok hout hp hs
    refine ⟨hmap p s hp hs', hpin s ?_, ?_⟩
    · rw [hframe.stepPin]
      exact hs
    · rw [hpool s hs', hframe.pool]
  rows hr p s hp := by
    rcases hrow p s hp with ⟨hold, hs⟩ | hnew
    · rw [hpool s hs, hframe.pool]
      exact hr p s hold
    · exact hnew

/-- The pairs of a plan are mapped to their slots, the others as the take left them. -/
theorem Filled.mirror_iff (hfill : Filled t' (keys.zip out) u)
    (hkeys : (keys.take out.length).Nodup) {p : Pair} {s : ℕ} :
    u.mirror p = some s ↔
      (p, s) ∈ keys.zip out ∨ (p ∉ (keys.zip out).map Prod.fst ∧ t'.mirror p = some s) := by
  have hpairs : (((keys.zip out).map fun e => (e.1, some e.2)).map Prod.fst).Nodup := by
    rw [List.map_map]
    change ((keys.zip out).map Prod.fst).Nodup
    rwa [plan_keys]
  rw [hfill.mirror]
  by_cases hmem : p ∈ (keys.zip out).map Prod.fst
  · obtain ⟨e, he, rfl⟩ := List.mem_map.mp hmem
    have hval : scatter t'.mirror ((keys.zip out).map fun e => (e.1, some e.2)) e.1 =
        some e.2 := scatter_of_mem (List.mem_map.mpr ⟨e, he, rfl⟩) hpairs
    rw [hval]
    constructor
    · intro hs
      rw [← Option.some.inj hs]
      exact .inl he
    · rintro (hs | ⟨hnot, -⟩)
      · have hval' := scatter_of_mem (f := t'.mirror) (List.mem_map.mpr ⟨_, hs, rfl⟩) hpairs
        exact hval.symm.trans hval'
      · exact absurd hmem hnot
  · rw [scatter_of_not_mem (by simpa [List.map_map] using hmem)]
    constructor
    · exact fun hs => .inr ⟨hmem, hs⟩
    · rintro (hs | ⟨-, hs⟩)
      · exact absurd (List.mem_map.mpr ⟨_, hs, rfl⟩) hmem
      · exact hs

/-- A take, and the filling of its slots with distinct pairs that had none. -/
theorem Took.keeps_filled (h : Took cfg t keys.length out t') (hframe : TakeFrame t t')
    (hout : ∀ s ∈ out, s ∈ t.free ∨ hard v t s = false) (hok : SlotsOk cfg t)
    (hkeys : (keys.take out.length).Nodup) (hnew : ∀ p ∈ keys, t.mirror p = none)
    (hfill : Filled t' (keys.zip out) u) : Keeps t u := by
  have hslots : ((keys.zip out).map fun e => (e.2, some e.1)).map Prod.fst = out := by
    rw [List.map_map]
    exact plan_slots h.length_le
  refine Took.keeps hframe hout hok (fun p s hp hs => ?_) (fun s hs => ?_) hfill.stepPin
    fun p s hp => ?_
  · refine (hfill.mirror_iff hkeys).mpr (.inr ⟨fun hmem => ?_, (h.mirror_eq hframe hok).mpr
      ⟨hp, hs⟩⟩)
    obtain ⟨e, he, rfl⟩ := List.mem_map.mp hmem
    simp [hnew _ (List.of_mem_zip he).1] at hp
  · rw [hfill.pool, scatter_of_not_mem (by rwa [hslots])]
  · rcases (hfill.mirror_iff hkeys).mp hp with he | ⟨-, hold⟩
    · refine .inr ?_
      rw [hfill.pool]
      exact scatter_of_mem (List.mem_map.mpr ⟨_, he, rfl⟩)
        (by rw [hslots]; exact h.lent.taken_nodup)
    · exact .inl ((h.mirror_eq hframe hok).mp hold)

/-- What a fetch maps anew lives in a slot that was taken for it. -/
theorem Filled.fetched (hfill : Filled t' (keys.zip out) u)
    (h : Took cfg t keys.length out t') (hkeys : (keys.take out.length).Nodup) {p : Pair} {s : ℕ}
    (hp : t.mirror p = none) (hs : u.mirror p = some s) : s ∈ out := by
  rcases (hfill.mirror_iff hkeys).mp hs with he | ⟨-, hold⟩
  · exact (List.of_mem_zip he).2
  · simp [h.unmapped p hp] at hold

/-- A take, and the rollback of its plan, whatever part of it was copied. -/
theorem Took.keeps_rollBack (h : Took cfg t keys.length out t') (hframe : TakeFrame t t')
    (hout : ∀ s ∈ out, s ∈ t.free ∨ hard v t s = false) (hok : SlotsOk cfg t)
    (hnew : ∀ p ∈ keys, t.mirror p = none) {t'' : Tier} (hmirror : t''.mirror = t'.mirror)
    (hpool : ∀ s, s ∉ out → t''.pool s = t'.pool s) (hpin : t''.stepPin = t'.stepPin) :
    Keeps t (Delta.rollBack t'' (keys.zip out)) := by
  have hrest : (Delta.rollBack t'' (keys.zip out)).pool = t''.pool ∧
      (Delta.rollBack t'' (keys.zip out)).stepPin = t''.stepPin :=
    List.foldlRecOn (motive := fun u : Tier => u.pool = t''.pool ∧ u.stepPin = t''.stepPin) _ _
      ⟨rfl, rfl⟩ fun _ hu _ _ => hu
  have hkey : ∀ {p s}, t.mirror p = some s → p ∉ (keys.zip out).map Prod.fst := fun hp hmem => by
    obtain ⟨e, he, rfl⟩ := List.mem_map.mp hmem
    simp [hnew _ (List.of_mem_zip he).1] at hp
  refine Took.keeps hframe hout hok (fun p s hp hs => ?_)
    (fun s hs => by rw [hrest.1, hpool s hs]) (fun s hs => by rwa [hrest.2, hpin]) fun p s hp => ?_
  · rw [(rollBack_tables _ _ p).2, if_neg (hkey hp), hmirror]
    exact (h.mirror_eq hframe hok).mpr ⟨hp, hs⟩
  · rw [(rollBack_tables _ _ p).2] at hp
    split at hp
    · simp at hp
    · exact .inl ((h.mirror_eq hframe hok).mp (hmirror ▸ hp))

end Keep

/-! ### The operations -/

section Operations

variable {cfg : Config} {T : TopK} {v : View} {t t' u : Tier} {keys : List Pair} {out : List ℕ}

/-- A fetch that does not fail fills its plan. -/
theorem filled_fetchPlan (t' : Tier) (pin : Pin) (plan : List (Pair × ℕ)) :
    Filled t' plan (fetchPlan t' pin plan none).1 := by
  refine ⟨?_, ?_, fun s hs => ?_⟩
  · cases pin <;> rfl
  · cases pin <;> rfl
  · cases pin with
    | step =>
      change (t'.stepPin s || _) = true
      rw [hs, Bool.true_or]
    | layer => exact hs
    | unpinned => exact hs

/-- A fetch that pins for the step pins every slot of its plan. -/
theorem fetchPlan_pinned (t' : Tier) {plan : List (Pair × ℕ)} {s : ℕ}
    (hs : s ∈ plan.map Prod.snd) : (fetchPlan t' .step plan none).1.stepPin s = true := by
  change (t'.stepPin s || (plan.map Prod.snd).contains s) = true
  simp [hs]

/-- What every operation does: nothing, or a take followed by the filling of its slots. -/
theorem Took.keeps_plan_nil (h : Took cfg t keys.length out t') (hframe : TakeFrame t t')
    (hok : SlotsOk cfg t) (hplan : keys.zip out = []) : Keeps t t' := by
  have hout : out = [] := by
    rcases List.zip_eq_nil_iff.mp hplan with hk | ho
    · exact List.eq_nil_of_length_eq_zero (Nat.le_zero.mp (by simpa [hk] using h.length_le))
    · exact ho
  subst hout
  refine .of_eq (funext fun p => Option.ext fun s => ?_) hframe.pool fun s hs => ?_
  · simpa using h.mirror_eq (p := p) (s := s) hframe hok
  · rw [hframe.stepPin]
    exact hs

/-- Promotion by the manager, however it ends. -/
theorem keeps_promoteBatch (hok : SlotsOk cfg t) {candidates : List Pair}
    (hcand : candidates.Nodup) (hnew : ∀ p ∈ candidates, t.mirror p = none)
    (fault : Option Fault) : Keeps t (promoteBatch cfg T v t candidates fault).1 := by
  obtain ⟨hbook, htab⟩ := slotsOk_iff.mp hok
  have took := takeSlotsBatch_took (T := T) (v := v) hbook htab candidates.length false 2 none
    false
  obtain ⟨hframe, hout⟩ := takeSlotsBatch_spares cfg T v t candidates.length false 2 none
    false
  rw [promoteBatch]
  split
  · exact .refl t
  · dsimp only
    split
    · next hplan => exact took.keeps_plan_nil hframe hok hplan
    · rcases fault with _ | (_ | done)
      · exact took.keeps_filled hframe hout hok (hcand.sublist (List.take_sublist _ _)) hnew
          ⟨rfl, rfl, fun _ hs => hs⟩
      · exact took.keeps_rollBack hframe hout hok hnew rfl (fun _ _ => rfl) rfl
      · refine took.keeps_rollBack hframe hout hok hnew rfl (fun s hs => ?_) rfl
        -- what was copied before the copy raised went into slots that were taken
        refine scatter_of_not_mem fun hmem => hs ?_
        simp only [List.map_map, List.mem_map, Function.comp_apply] at hmem
        obtain ⟨e, he, rfl⟩ := hmem
        exact (List.of_mem_zip (List.mem_of_mem_take he)).2

/-- A manager pass, however it ends. -/
theorem keeps_tickLocked (hok : SlotsOk cfg t) (cnt : Pair → ℕ) (decay : Option ℚ)
    (fault : Option Fault) : Keeps t (tickLocked cfg T v t cnt decay fault).1 := by
  rw [tickLocked]
  dsimp only
  split
  · exact .refl t
  · have hnote : Keeps t (noteRouted t (nonzero cfg cnt) cnt) := .of_eq rfl rfl fun _ hs => hs
    have hstats : SlotsOk cfg (noteRouted t (nonzero cfg cnt) cnt) := hok.congr rfl rfl
    generalize noteRouted t (nonzero cfg cnt) cnt = t₁ at hnote hstats ⊢
    have hcand : (tickCandidates cfg T v t₁ (nonzero cfg cnt)).Nodup ∧
        ∀ p ∈ tickCandidates cfg T v t₁ (nonzero cfg cnt), t₁.mirror p = none :=
      tickCandidates_spec t₁ (nodup_nonzero cfg cnt)
    have hr : Keeps t (if cfg.policy ≠ .need ∧ ¬ t₁.frozen then
        promoteBatch cfg T v t₁ (tickCandidates cfg T v t₁ (nonzero cfg cnt)) fault
        else (t₁, .returned 0)).1 := by
      split
      · exact hnote.trans (keeps_promoteBatch hstats hcand.1 hcand.2 fault)
      · exact hnote
    split
    · exact hr.trans (.of_eq rfl rfl fun _ hs => hs)
    · exact hr

/-- A prefetch that does not fail and plans no pair twice; what it fetches is pinned. -/
theorem keeps_prefetchPairs (hok : SlotsOk cfg t) {pairs : List Pair} {coldTicks : ℕ}
    (hpairs : (plannedPairs cfg v t pairs coldTicks).Nodup) :
    Keeps t (prefetchPairs cfg T v t pairs coldTicks none).1 ∧
      ∀ p s, t.mirror p = none →
        (prefetchPairs cfg T v t pairs coldTicks none).1.mirror p = some s →
          (prefetchPairs cfg T v t pairs coldTicks none).1.stepPin s = true := by
  obtain ⟨hbook, htab⟩ := slotsOk_iff.mp hok
  have hnothing : Keeps t t ∧ ∀ p s, t.mirror p = none → t.mirror p = some s →
      t.stepPin s = true := ⟨.refl t, fun p s hp hs => by simp [hp] at hs⟩
  rw [prefetchPairs]
  dsimp only
  split
  · exact hnothing
  · split
    · exact hnothing
    · split
      · exact hnothing
      · generalize hk : (pairs.filter fun p => (t.mirror p).isNone && cfg.inStore p.1) = keys
        have hnew : ∀ p ∈ keys, t.mirror p = none := fun p hp => by
          rw [← hk, List.mem_filter] at hp
          simp only [Bool.and_eq_true, Option.isNone_iff_eq_none] at hp
          exact hp.2.1
        have took := takeSlotsBatch_took (T := T) (v := v) hbook htab keys.length false
          (max coldTicks 2) none false
        obtain ⟨hframe, hout⟩ := takeSlotsBatch_spares cfg T v t keys.length false
          (max coldTicks 2) none false
        have hplanned : (keys.take (takeSlotsBatch cfg T v t keys.length false (max coldTicks 2)
            none false).1.length).Nodup := by
          rw [takeSlotsBatch_length, Nat.min_comm, ← List.take_eq_take_min, ← hk]
          exact hpairs
        split
        · next hplan =>
          refine ⟨took.keeps_plan_nil hframe hok hplan, fun p s hp hs => ?_⟩
          rw [took.unmapped p hp] at hs
          simp at hs
        · have hfill := filled_fetchPlan (takeSlotsBatch cfg T v t keys.length false
            (max coldTicks 2) none false).2 .step (keys.zip (takeSlotsBatch cfg T v t keys.length
              false (max coldTicks 2) none false).1)
          refine ⟨took.keeps_filled hframe hout hok hplanned hnew hfill, fun p s hp hs => ?_⟩
          refine fetchPlan_pinned _ ?_
          rw [plan_slots took.length_le]
          exact hfill.fetched took hplanned hp hs

/-- A take for distinct pairs without a slot, and a fetch into what it returned. -/
theorem keeps_take_fetchPlan (hok : SlotsOk cfg t) (hkeys : keys.Nodup)
    (hnew : ∀ p ∈ keys, t.mirror p = none) (emergency protectHot : Bool) (pin : Pin) :
    Keeps t (fetchPlan (takeSlotsBatch cfg T v t keys.length emergency 2 none protectHot).2 pin
        (keys.zip (takeSlotsBatch cfg T v t keys.length emergency 2 none protectHot).1) none).1 ∧
      (pin = .step → ∀ p s, t.mirror p = none →
        (fetchPlan (takeSlotsBatch cfg T v t keys.length emergency 2 none protectHot).2 pin
          (keys.zip (takeSlotsBatch cfg T v t keys.length emergency 2 none protectHot).1)
            none).1.mirror p = some s →
        (fetchPlan (takeSlotsBatch cfg T v t keys.length emergency 2 none protectHot).2 pin
          (keys.zip (takeSlotsBatch cfg T v t keys.length emergency 2 none protectHot).1)
            none).1.stepPin s = true) := by
  obtain ⟨hbook, htab⟩ := slotsOk_iff.mp hok
  have took := takeSlotsBatch_took (T := T) (v := v) hbook htab keys.length emergency 2 none
    protectHot
  obtain ⟨hframe, hout⟩ := takeSlotsBatch_spares cfg T v t keys.length emergency 2 none protectHot
  have hplanned := hkeys.sublist (List.take_sublist
    (takeSlotsBatch cfg T v t keys.length emergency 2 none protectHot).1.length keys)
  generalize takeSlotsBatch cfg T v t keys.length emergency 2 none protectHot = r at *
  have hfill := filled_fetchPlan r.2 pin (keys.zip r.1)
  refine ⟨took.keeps_filled hframe hout hok hplanned hnew hfill, ?_⟩
  rintro rfl p s hp hs
  refine fetchPlan_pinned _ ?_
  rw [plan_slots took.length_le]
  exact hfill.fetched took hplanned hp hs

/-- Whether a forced promotion looks at the routing at all. -/
def Looks (cfg : Config) (t : Tier) : Bool :=
  !(t.frozen || (List.range cfg.nLayers).all fun l => !cfg.inStore l)

/-- A pass pins what it touches: it keeps and pins the pairs that it finds resident, and pins
those that it fetches. -/
structure PinsTouched (cfg : Config) (v : View) (t u : Tier) : Prop where
  found : ∀ p s, Looks cfg t = true → p ∈ nonzero cfg v.seenHost → t.mirror p = some s →
    u.mirror p = some s ∧ u.stepPin s = true
  fetched : ∀ p s, t.mirror p = none → u.mirror p = some s → u.stepPin s = true

/-- A forced promotion that does not fail; with `pin` it pins what it touches. -/
theorem keeps_forcePromote (hok : SlotsOk cfg t) (layers : Option (List ℕ))
    (maxPromote : Option ℕ) (pin : Bool) (weights : Option (Pair → ℚ)) :
    Keeps t (forcePromote cfg T v t layers maxPromote pin weights none).1 ∧
      (pin = true →
        PinsTouched cfg v t (forcePromote cfg T v t layers maxPromote pin weights none).1) := by
  rw [forcePromote]
  dsimp only
  split
  · next hlook =>
    refine ⟨.refl t, fun _ => ⟨fun p s hl => ?_, fun p s hp hs => by simp [hp] at hs⟩⟩
    rcases hlook with hf | hst
    · simp [Looks, hf] at hl
    · simp [Looks, hst] at hl
  · split
    · next hempty =>
      exact ⟨.refl t, fun _ => ⟨fun p s _ hmem => by simp [hempty] at hmem,
        fun p s hp hs => by simp [hp] at hs⟩⟩
    · generalize ht : (if pin = true then _ else _ : Tier).bumpNeed _ = t₁
      have h₁ : SlotsOk cfg t₁ := by
        rw [← ht]
        cases pin <;> exact hok.congr rfl rfl
      have hmirror : t₁.mirror = t.mirror := by
        rw [← ht]
        cases pin <;> rfl
      have hkeep₁ : Keeps t t₁ := by
        rw [← ht]
        cases pin with
        | false => exact .of_eq rfl rfl fun _ hs => hs
        | true =>
          refine .of_eq rfl rfl fun s hs => ?_
          change (t.stepPin s || _) = true
          rw [hs, Bool.true_or]
      -- the slots in which a routed pair is found are pinned before anything is taken
      have hhits : pin = true → ∀ p s, p ∈ nonzero cfg v.seenHost → t.mirror p = some s →
          t₁.stepPin s = true := by
        rintro rfl p s hmem hp
        rw [← ht]
        change (t.stepPin s || (t.hitSlots (nonzero cfg v.seenHost)).contains s) = true
        have hs : s ∈ t.hitSlots (nonzero cfg v.seenHost) :=
          List.mem_filterMap.mpr ⟨p, hmem, hp⟩
        simp [hs]
      have hnone : ∀ u, Keeps t₁ u → (∀ p s, t₁.mirror p = none → u.mirror p = some s →
          pin = true → u.stepPin s = true) →
          Keeps t u ∧ (pin = true → PinsTouched cfg v t u) := by
        intro u hu hfetch
        refine ⟨hkeep₁.trans hu, fun hpin => ⟨fun p s _ hmem hp => ?_, fun p s hp hs => ?_⟩⟩
        · obtain ⟨hmap, hstep, -⟩ :=
            hu.pinned p s (by rw [hmirror]; exact hp) (hhits hpin p s hmem hp)
          exact ⟨hmap, hstep⟩
        · exact hfetch p s (by rw [hmirror]; exact hp) hs hpin
      split
      · exact hnone t₁ (.refl t₁) fun p s hp hs => by simp [hp] at hs
      · generalize hc : (nonzero cfg v.seenHost).filter _ = cand
        have hnodup : cand.Nodup := hc ▸ (nodup_nonzero cfg _).filter _
        have hnew : ∀ p ∈ cand, t₁.mirror p = none := fun p hp => by
          rw [← hc, List.mem_filter] at hp
          simp only [Bool.and_eq_true, Option.isNone_iff_eq_none] at hp
          exact hp.2.1.2
        obtain ⟨hkeys, hsub⟩ := capped_argsort T (forceKey cfg t₁ weights) hnodup maxPromote
        generalize (maxPromote.map (T.argsort (forceKey cfg t₁ weights) cand).take).getD
          (T.argsort (forceKey cfg t₁ weights) cand) = keys at hkeys hsub ⊢
        have hnew' : ∀ p ∈ keys, t₁.mirror p = none := fun p hp => hnew p (hsub p hp)
        obtain ⟨hbook, htab⟩ := slotsOk_iff.mp h₁
        split
        · next hplan =>
          have took := takeSlotsBatch_took (T := T) (v := v) hbook htab keys.length true 2 none
            false
          obtain ⟨hframe, -⟩ := takeSlotsBatch_spares cfg T v t₁ keys.length true 2 none false
          refine hnone _ (took.keeps_plan_nil hframe h₁ hplan) fun p s hp hs => ?_
          rw [took.unmapped p hp] at hs
          simp at hs
        · have hfetch := keeps_take_fetchPlan (T := T) (v := v) h₁ hkeys hnew' true false
            (if pin = true then .step else .unpinned)
          refine hnone _ hfetch.1 fun p s hp hs hpin => hfetch.2 ?_ p s hp hs
          rw [if_pos hpin]

/-- Both halves of `ensure_resident`. -/
theorem keeps_ensureScan (layer : ℕ) (ids : List ℕ) :
    Keeps t (ensureScan cfg t layer ids).1 := by
  rw [ensureScan]
  split
  · exact .refl t
  · exact .of_eq rfl rfl fun _ hs => hs

theorem keeps_ensureFetch (hok : SlotsOk cfg t) {cand : List Pair} (hcand : cand.Nodup) :
    Keeps t (ensureFetch cfg T v t cand none).1 := by
  rw [ensureFetch]
  dsimp only
  split
  · exact .refl t
  · generalize hk : cand.filter (fun p => (t.mirror p).isNone) = keys
    have hnew : ∀ p ∈ keys, t.mirror p = none := fun p hp => by
      rw [← hk, List.mem_filter] at hp
      simpa using hp.2
    obtain ⟨hbook, htab⟩ := slotsOk_iff.mp hok
    split
    · next hplan =>
      exact (takeSlotsBatch_took hbook htab keys.length cfg.base 2 none
        (!cfg.base)).keeps_plan_nil
          (takeSlotsBatch_spares cfg T v t keys.length cfg.base 2 none (!cfg.base)).1 hok hplan
    · exact (keeps_take_fetchPlan hok (hk ▸ hcand.filter _) hnew cfg.base (!cfg.base) .layer).1

end Operations

/-! ### The passes of a step -/

/-- What a forced promotion finds resident: its routed pairs and their slots. -/
def foundResident (cfg : Config) (v : View) (t : Tier) : List (Pair × ℕ) :=
  if Looks cfg t then
    (nonzero cfg v.seenHost).filterMap fun p => (t.mirror p).map fun s => (p, s)
  else []

/-- What a pass fetches: those of some pairs that had no slot before it and have one after. -/
def fetched (t t' : Tier) (ps : List Pair) : List (Pair × ℕ) :=
  ps.filterMap fun p =>
    if t.mirror p = none then (t'.mirror p).map fun s => (p, s) else none

/-- What an operation touches for the step: a pinned forced promotion what it finds and what
it fetches, a prefetch what it fetches. -/
def touchedBy (cfg : Config) (t t' : Tier) : Op → List (Pair × ℕ)
  | .force v _ _ true _ _ => foundResident cfg v t ++ fetched t t' (nonzero cfg v.seenHost)
  | .prefetch _ pairs _ _ => fetched t t' pairs
  | _ => []

/-- The tier, and what the passes of the current step have touched so far. -/
structure StepState where
  delta : DeltaState
  touched : List (Pair × ℕ)

section Runs

variable (cfg : Config) (T : TopK)

/-- An operation within a step adds to what the step has touched; a step boundary starts a new
step. -/
def touchStep (s : StepState) (op : Op) : Option StepState :=
  (opStep cfg T s.delta op).map fun d => ⟨d,
    match op with
    | .stepBegin | .stepEnd => []
    | op => s.touched ++ touchedBy cfg s.delta.tier d.tier op⟩

/-- Where a run starts. -/
def TouchStart (s : StepState) : Prop :=
  s = ⟨⟨Tier.init cfg, []⟩, []⟩

/-- All runs of the operations, with what each step touches. -/
def touchSystem : TransitionSystem StepState Op :=
  .ofStep (TouchStart cfg) (touchStep cfg T)

/-- No store read and no copy fails. -/
def Faultless : Op → Prop
  | .promote _ _ _ fault | .prefetch _ _ _ fault | .force _ _ _ _ _ fault
  | .ensureFetch _ fault => fault = none
  | _ => True

instance : (op : Op) → Decidable (Faultless op)
  | .promote _ _ _ fault | .prefetch _ _ _ fault | .force _ _ _ _ _ fault
  | .ensureFetch _ fault => inferInstanceAs (Decidable (fault = none))
  | .tick | .ensureScan .. | .stepBegin | .stepEnd => .isTrue trivial

/-- A prefetch plans no pair twice. -/
def PlansDistinct (s : DeltaState) : Op → Prop
  | .prefetch v pairs coldTicks _ => (plannedPairs cfg v s.tier pairs coldTicks).Nodup
  | _ => True

instance (s : DeltaState) : (op : Op) → Decidable (PlansDistinct cfg s op)
  | .prefetch v pairs coldTicks _ =>
    inferInstanceAs (Decidable (plannedPairs cfg v s.tier pairs coldTicks).Nodup)
  | .tick | .promote .. | .force .. | .ensureScan .. | .ensureFetch .. | .stepBegin
  | .stepEnd => .isTrue trivial

/-- The runs in question: nothing fails, and no prefetch plans a pair twice. -/
def Undisturbed (s : StepState) (op : Op) : Prop :=
  Faultless op ∧ PlansDistinct cfg s.delta op

instance (s : StepState) (op : Op) : Decidable (Undisturbed cfg s op) :=
  inferInstanceAs (Decidable (_ ∧ _))

variable {cfg T}

theorem Undisturbed.careful {s : StepState} {op : Op} (h : Undisturbed cfg s op) :
    Careful cfg s.delta op := by
  cases op with
  | prefetch v pairs coldTicks fault => exact h
  | force v layers maxPromote pin weights fault => exact h.1
  | ensureFetch v fault => exact h.1
  | tick | promote _ _ _ _ | ensureScan _ _ | stepBegin | stepEnd => trivial

/-- The books are in order, every slot holds its pair's row, and what the step has touched is
where it was touched and pinned. -/
structure TouchOk (cfg : Config) (s : StepState) : Prop where
  state : StateOk cfg s.delta
  rows : RowsOk s.delta.tier
  touched : ∀ e ∈ s.touched,
    s.delta.tier.mirror e.1 = some e.2 ∧ s.delta.tier.stepPin e.2 = true

/-- An operation within the step: what was touched stays, and what it touches is pinned. -/
theorem TouchOk.of_keeps {s : StepState} {d : DeltaState} {new : List (Pair × ℕ)}
    (h : TouchOk cfg s) (hstate : StateOk cfg d) (hkeep : Keeps s.delta.tier d.tier)
    (hnew : ∀ e ∈ new, d.tier.mirror e.1 = some e.2 ∧ d.tier.stepPin e.2 = true) :
    TouchOk cfg ⟨d, s.touched ++ new⟩ where
  state := hstate
  rows := hkeep.rows h.rows
  touched e he := by
    rcases List.mem_append.mp he with he | he
    · obtain ⟨hmap, hpin⟩ := h.touched e he
      obtain ⟨hmap', hpin', -⟩ := hkeep.pinned e.1 e.2 hmap hpin
      exact ⟨hmap', hpin'⟩
    · exact hnew e he

/-- A step boundary: nothing is touched yet. -/
theorem TouchOk.boundary {s : StepState} (h : TouchOk cfg s) :
    TouchOk cfg ⟨{ s.delta with tier := clearPins s.delta.tier }, []⟩ :=
  ⟨⟨h.state.1.congr rfl rfl, h.state.2⟩, h.rows, by simp⟩

theorem mem_fetched {t t' : Tier} {ps : List Pair} {e : Pair × ℕ} (h : e ∈ fetched t t' ps) :
    e.1 ∈ ps ∧ t.mirror e.1 = none ∧ t'.mirror e.1 = some e.2 := by
  obtain ⟨p, hp, he⟩ := List.mem_filterMap.mp h
  split at he
  · next hnone =>
    obtain ⟨s, hs, rfl⟩ := Option.map_eq_some_iff.mp he
    exact ⟨hp, hnone, hs⟩
  · simp at he

theorem mem_foundResident {v : View} {t : Tier} {e : Pair × ℕ}
    (h : e ∈ foundResident cfg v t) :
    Looks cfg t = true ∧ e.1 ∈ nonzero cfg v.seenHost ∧ t.mirror e.1 = some e.2 := by
  rw [foundResident] at h
  split at h
  · next hlook =>
    obtain ⟨p, hp, he⟩ := List.mem_filterMap.mp h
    obtain ⟨s, hs, rfl⟩ := Option.map_eq_some_iff.mp he
    exact ⟨hlook, hp, hs⟩
  · simp at h

/-- One operation keeps what the step has touched. -/
theorem TouchOk.step {s s' : StepState} {op : Op} (h : TouchOk cfg s)
    (hop : Undisturbed cfg s op) (hstep : touchStep cfg T s op = some s') : TouchOk cfg s' := by
  obtain ⟨d, hd, rfl⟩ := Option.map_eq_some_iff.mp hstep
  have hstate := h.state.opStep hop.careful hd
  have hslots := h.state.1
  obtain ⟨hfault, hplan⟩ := hop
  cases op with
  | tick =>
    obtain rfl := Option.some.inj hd
    exact h.of_keeps hstate (.of_eq rfl rfl fun _ hs => hs) (by simp [touchedBy])
  | promote v cnt decay fault =>
    obtain rfl := Option.some.inj hd
    exact h.of_keeps hstate (keeps_tickLocked hslots cnt decay fault) (by simp [touchedBy])
  | prefetch v pairs coldTicks fault =>
    obtain rfl : fault = none := hfault
    obtain rfl := Option.some.inj hd
    have hpre := keeps_prefetchPairs (T := T) hslots hplan
    refine h.of_keeps hstate hpre.1 fun e he => ?_
    obtain ⟨-, hnone, hmap⟩ := mem_fetched he
    exact ⟨hmap, hpre.2 e.1 e.2 hnone hmap⟩
  | force v layers maxPromote pin weights fault =>
    obtain rfl : fault = none := hfault
    obtain rfl := Option.some.inj hd
    obtain ⟨hkeep, hpin⟩ := keeps_forcePromote (T := T) (v := v) hslots layers maxPromote pin
      weights
    refine h.of_keeps hstate hkeep fun e he => ?_
    cases pin with
    | false => simp [touchedBy] at he
    | true =>
      rcases List.mem_append.mp he with he | he
      · obtain ⟨hlook, hmem, hold⟩ := mem_foundResident he
        exact (hpin rfl).found e.1 e.2 hlook hmem hold
      · obtain ⟨-, hnone, hmap⟩ := mem_fetched he
        exact ⟨hmap, (hpin rfl).fetched e.1 e.2 hnone hmap⟩
  | ensureScan layer ids =>
    obtain rfl := Option.some.inj hd
    exact h.of_keeps hstate (keeps_ensureScan layer ids) (by simp [touchedBy])
  | ensureFetch v fault =>
    obtain rfl : fault = none := hfault
    obtain rfl := Option.some.inj hd
    exact h.of_keeps hstate (keeps_ensureFetch hslots h.state.2) (by simp [touchedBy])
  | stepBegin =>
    obtain rfl := Option.some.inj hd
    exact h.boundary
  | stepEnd =>
    obtain rfl := Option.some.inj hd
    exact h.boundary

/-- **A step never loses what it touched.** In every run in which nothing fails and no prefetch
plans a pair twice, what the passes of the current step have found resident or fetched is still
mapped to the same slot, in both tables, and the slot still holds its row; and an operation
within the step only adds to it. -/
theorem touched_kept {s : StepState}
    (h : ((touchSystem cfg T).onlySteps (Undisturbed cfg)).Reachable s) :
    (∀ e ∈ s.touched, s.delta.tier.mirror e.1 = some e.2 ∧
      s.delta.tier.slotTable e.1 = some e.2 ∧ s.delta.tier.pool e.2 = some e.1) ∧
    ∀ op s', op ≠ .stepBegin → op ≠ .stepEnd → touchStep cfg T s op = some s' →
      s.touched ⊆ s'.touched := by
  have hinv : ((touchSystem cfg T).onlySteps (Undisturbed cfg)).Invariant (TouchOk cfg) := by
    constructor
    · rintro s rfl
      exact ⟨⟨slotsOk_init cfg, List.nodup_nil⟩, fun p s hp => by simp [Tier.init] at hp,
        by simp⟩
    · rintro s op s' - hs ⟨hop, hstep⟩
      exact hs.step hop hstep
  have hok := hinv.holds h
  refine ⟨fun e he => ?_, fun op s' hbegin hend hstep => ?_⟩
  · have hmap := (hok.touched e he).1
    exact ⟨hmap, (hok.state.1.mapped e.1 e.2 hmap).2.2, hok.rows e.1 e.2 hmap⟩
  · obtain ⟨d, -, rfl⟩ := Option.map_eq_some_iff.mp hstep
    cases op with
    | stepBegin => exact absurd rfl hbegin
    | stepEnd => exact absurd rfl hend
    | _ => exact List.subset_append_left _ _

end Runs

/-! ### A step that holds on, and one that does not -/

theorem start_smallTouch : TouchStart smallTier ⟨⟨Tier.init smallTier, []⟩, []⟩ :=
  rfl

/-- A view with two routed experts. -/
def routedBoth (e f : ℕ) : View :=
  ⟨fun p => if p = (0, e) ∨ p = (0, f) then 1 else 0, fun _ => false⟩

/-- A forced promotion finds expert 0 and fetches expert 1; the next pass, which wants experts
2 and 3, gets no slot. -/
theorem touched_kept_small :
    ∃ s, ((touchSystem smallTier TopK.sorted).onlySteps (Undisturbed smallTier)).Reachable s ∧
      decide (s.touched = [((0, 0), 1), ((0, 1), 0)]) = true ∧
      ((∀ e ∈ s.touched, s.delta.tier.mirror e.1 = some e.2 ∧
        s.delta.tier.slotTable e.1 = some e.2 ∧ s.delta.tier.pool e.2 = some e.1) ∧
      ∀ op s', op ≠ .stepBegin → op ≠ .stepEnd → touchStep smallTier TopK.sorted s op = some s' →
        s.touched ⊆ s'.touched) := by
  obtain ⟨s, hs, hP⟩ := TransitionSystem.exists_reachable_of_replay
    (touchStep smallTier TopK.sorted) (Undisturbed smallTier) start_smallTouch
    [.prefetch quiet [(0, 0)] 0 none, .stepEnd, .tick, .tick, .stepBegin,
      .force (routedBoth 0 1) none none true none none,
      .force (routedBoth 2 3) none none true none none,
      .promote quiet (routed 2) none none]
    (fun s => decide (s.touched = [((0, 0), 1), ((0, 1), 0)])) (by decide +kernel)
  exact ⟨s, hs, hP, touched_kept hs⟩

/-- A prefetch that lists expert 0 twice leaves it in slot 0 and a stale owner in slot 1. In a
later step a forced promotion finds expert 0 in slot 0 and pins it, then evicts slot 1 for
expert 1, and with it unmaps expert 0. -/
theorem duplicate_unmaps_pinned :
    ∃ s, ((touchSystem smallTier TopK.sorted).onlySteps fun _ op => Faultless op).Reachable s ∧
      ∃ e ∈ s.touched, s.delta.tier.mirror e.1 = none := by
  obtain ⟨s, hs, hP⟩ := TransitionSystem.exists_reachable_of_replay
    (touchStep smallTier TopK.sorted) (fun _ op => Faultless op) start_smallTouch
    [.prefetch quiet [(0, 0), (0, 0)] 0 none, .stepEnd, .tick, .tick, .stepBegin,
      .force (routedBoth 0 1) none none true none none]
    (fun s => decide (∃ e ∈ s.touched, s.delta.tier.mirror e.1 = none)) (by decide +kernel)
  exact ⟨s, hs, of_decide_eq_true hP⟩

end VllmMoet.Delta
