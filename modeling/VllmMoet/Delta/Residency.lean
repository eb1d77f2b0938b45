import VllmMoet.Delta.Evictions
import VllmMoet.Delta.StepPins

/-!
# A prefill layer made resident

`ensure_resident` has two critical sections. The first pins the slots of the listed experts that
are resident, the second fetches the others and pins the slots it fills; the manager may run in
between. `residentSystem` is the runs of a tier with the calls as what they promise: every expert
a call listed, with the slot in which it was when the call returned without a warning.

* `Keeps.layerPins`: an operation that leaves the layer's pin scope open keeps what lives in a
  slot of it, as `Keeps` says of the step's.
* `resident_kept`: while what the manager has mapped meanwhile is pinned, and there is a slot to
  be had for a call that needs one, a promised expert stays in its slot.
* `resident_broken`: a run in which a call evicts what the manager has just mapped for it, and
  one in which it gets no slot at all; neither gives a warning.
-/

namespace VllmMoet.Delta

/-! ### Layer pins as step pins -/

/-- The slots of `L` are pinned for the step as well. -/
def Tier.withPins (t : Tier) (L : ℕ → Bool) : Tier :=
  { t with stepPin := fun s => t.stepPin s || L s }

/-- A take in the tier in which the slots of `L` are pinned for the step as well. -/
def Taking.withPins (a : Taking) (L : ℕ → Bool) : Taking :=
  { a with tier := a.tier.withPins L }

section WithPins

variable {cfg : Config} {T : TopK} {v : View} {t : Tier} {L : ℕ → Bool}

/-- Pins of slots that the layer pins exclude anyway. -/
theorem hard_withPins (hL : ∀ s, L s = true → t.layerPin s = true) :
    hard v (t.withPins L) = hard v t := by
  funext s
  change ((t.owner s).isNone || (t.stepPin s || L s) || t.layerPin s ||
    v.coupled (t.clampedOwner s)) = hard v t s
  rw [hard]
  cases hs : L s with
  | false => rw [Bool.or_false]
  | true => simp [hL s hs]

/-- More pins on slots that the layer has pinned already change no pass. -/
theorem passes_withPins (hL : ∀ s, L s = true → t.layerPin s = true) (emergency : Bool)
    (minCold : ℕ) (protectHot : Bool) :
    passes cfg T v (t.withPins L) emergency minCold protectHot =
      passes cfg T v t emergency minCold protectHot := by
  have hhard : hard v (t.withPins L) = hard v t := hard_withPins hL
  have hblocked : blocked v (t.withPins L) = blocked v t := by
    funext s
    rw [blocked, blocked, hhard]
    rfl
  have hhot : hotSlots cfg T (t.withPins L) = hotSlots cfg T t := rfl
  rw [passes, passes, hblocked, hhard, hhot]
  rfl

/-- They change no admission. -/
theorem admitVictim_withPins (adm : List ℚ) (key : ℕ → ℚ) (a : Taking) (s : ℕ) :
    admitVictim adm key (a.withPins L) s = (admitVictim adm key a s).withPins L := by
  have hdone : (a.withPins L).done = a.done := rfl
  have hout : (a.withPins L).out = a.out := rfl
  rw [admitVictim, admitVictim, hdone, hout]
  split
  · rfl
  · cases adm[a.out.length]? with
    | none => rfl
    | some c =>
      dsimp only
      split
      · rfl
      · rfl

/-- They change no victim of a pass. -/
theorem takePass_withPins (key : ℕ → ℚ) (k : ℕ) (admission : Option (List ℚ)) (a : Taking)
    (ineligible : ℕ → Bool) :
    takePass cfg T key k admission (a.withPins L) ineligible =
      (takePass cfg T key k admission a ineligible).withPins L := by
  have hdone : (a.withPins L).done = a.done := rfl
  have hout : (a.withPins L).out = a.out := rfl
  rw [takePass, takePass, hdone, hout]
  split
  · rfl
  · cases admission with
    | none => rfl
    | some adm =>
      exact List.foldl_hom (Taking.withPins · L) fun a s => admitVictim_withPins adm key a s

/-- They change no take. -/
theorem takeSlotsBatch_withPins (hL : ∀ s, L s = true → t.layerPin s = true) (k : ℕ)
    (emergency : Bool) (minCold : ℕ) (admission : Option (List ℚ)) (protectHot : Bool) :
    takeSlotsBatch cfg T v (t.withPins L) k emergency minCold admission protectHot =
      ((takeSlotsBatch cfg T v t k emergency minCold admission protectHot).1,
        (takeSlotsBatch cfg T v t k emergency minCold admission protectHot).2.withPins L) := by
  have hfree : (t.withPins L).free = t.free := rfl
  rw [takeSlotsBatch, takeSlotsBatch]
  dsimp only
  rw [hfree]
  split
  · rfl
  · split
    · rfl
    · have hpasses : passes cfg T v { t.withPins L with free := t.free.drop k } emergency minCold
          protectHot = passes cfg T v { t with free := t.free.drop k } emergency minCold
            protectHot := passes_withPins hL emergency minCold protectHot
      rw [hpasses]
      have hfold : ∀ a : Taking,
          (passes cfg T v { t with free := t.free.drop k } emergency minCold protectHot).foldl
            (takePass cfg T (Tier.key cfg { t with free := t.free.drop k }) k admission)
            (a.withPins L) =
          ((passes cfg T v { t with free := t.free.drop k } emergency minCold protectHot).foldl
            (takePass cfg T (Tier.key cfg { t with free := t.free.drop k }) k admission)
            a).withPins L := fun a =>
        List.foldl_hom (Taking.withPins · L) fun a p => takePass_withPins _ k admission a p
      have hrun := hfold ⟨{ t with free := t.free.drop k }, t.free.take k, [], false⟩
      exact congrArg (fun a : Taking => (a.out, a.tier)) hrun

theorem pin_withPins (t : Tier) (pin : Pin) (slots : List ℕ) :
    (t.withPins L).pin pin slots = (t.pin pin slots).withPins L := by
  cases pin with
  | step =>
    change ({ t with stepPin := fun s => (t.stepPin s || L s) || slots.contains s } : Tier) =
      { t with stepPin := fun s => (t.stepPin s || slots.contains s) || L s }
    congr 1
    funext s
    exact Bool.or_right_comm _ _ _
  | layer => rfl
  | unpinned => rfl

theorem fetchPlan_withPins (pin : Pin) (plan : List (Pair × ℕ)) (fault : Option Fault) :
    fetchPlan (t.withPins L) pin plan fault =
      ((fetchPlan t pin plan fault).1.withPins L, (fetchPlan t pin plan fault).2) := by
  have hreserve := @pin_withPins L (t.reserve plan) pin (plan.map Prod.snd)
  cases fault with
  | none =>
    exact congrArg (fun u : Tier => ((((u.copyRows plan).mapTable plan).mapMirror plan).bumpFreq
      (plan.map Prod.fst) fun _ => 1, Outcome.returned plan.length)) hreserve
  | some fault =>
    cases fault with
    | read => rfl
    | copy done =>
      exact congrArg (fun u : Tier => (u.copyRows (plan.take done), Outcome.raised)) hreserve

theorem rollBack_withPins (plan : List (Pair × ℕ)) :
    rollBack (t.withPins L) plan = (rollBack t plan).withPins L :=
  List.foldl_hom (Tier.withPins · L) fun _ _ => rfl

/-- An operation with the pins of `L` set for the step as well: it ends the same way, and those
pins are all there is to tell its tier by. -/
def withPins (L : ℕ → Bool) (r : Tier × Outcome) : Tier × Outcome :=
  (r.1.withPins L, r.2)

/-- A promotion does the same with more pins. -/
theorem promoteBatch_withPins (hL : ∀ s, L s = true → t.layerPin s = true)
    (candidates : List Pair) (fault : Option Fault) :
    promoteBatch cfg T v (t.withPins L) candidates fault =
      withPins L (promoteBatch cfg T v t candidates fault) := by
  rw [promoteBatch, promoteBatch, takeSlotsBatch_withPins hL]
  generalize takeSlotsBatch cfg T v t candidates.length false 2 none false = r
  generalize hplan : candidates.zip r.1 = plan
  dsimp only
  rw [hplan]
  split
  · rfl
  · split
    · rfl
    · cases fault with
      | none => rfl
      | some fault =>
        cases fault with
        | read => exact congrArg (fun u => (u, Outcome.raised)) (rollBack_withPins plan)
        | copy done =>
          exact congrArg (fun u => (u, Outcome.raised)) (@rollBack_withPins
            ((r.2.copyRows (plan.take done)).mapTable (plan.take done)) L plan)

theorem tickCandidates_withPins (hL : ∀ s, L s = true → t.layerPin s = true) (seen : List Pair) :
    tickCandidates cfg T v (t.withPins L) seen = tickCandidates cfg T v t seen := by
  have hpins : ∀ s, (t.stepPin s || L s || t.layerPin s) = (t.stepPin s || t.layerPin s) := by
    intro s
    cases hs : L s with
    | false => rw [Bool.or_false]
    | true => simp [hL s hs]
  have hslots : (List.range cfg.nSlots).filter (fun s =>
      !(((t.withPins L).owner s).isNone || v.seenHost ((t.withPins L).clampedOwner s) != 0 ||
        decide ((t.withPins L).tick < (t.withPins L).ownerTick s + 2) ||
        (t.withPins L).stepPin s || (t.withPins L).layerPin s)) =
      (List.range cfg.nSlots).filter (fun s =>
        !((t.owner s).isNone || v.seenHost (t.clampedOwner s) != 0 ||
          decide (t.tick < t.ownerTick s + 2) || t.stepPin s || t.layerPin s)) := by
    refine List.filter_congr fun s _ => congrArg (!·) ?_
    change (_ || (t.stepPin s || L s) || t.layerPin s) = _
    rw [Bool.or_assoc, hpins, ← Bool.or_assoc]
    rfl
  have hfloor : promoFloor cfg v (t.withPins L) = promoFloor cfg v t := by
    rw [promoFloor, promoFloor, hslots]
    rfl
  rw [tickCandidates, tickCandidates, hfloor]
  rfl

/-- A tick does the same with more pins. -/
theorem tickLocked_withPins (hL : ∀ s, L s = true → t.layerPin s = true) (cnt : Pair → ℕ)
    (decay : Option ℚ) (fault : Option Fault) :
    tickLocked cfg T v (t.withPins L) cnt decay fault =
      withPins L (tickLocked cfg T v t cnt decay fault) := by
  have hnote : noteRouted (t.withPins L) (nonzero cfg cnt) cnt =
      (noteRouted t (nonzero cfg cnt) cnt).withPins L := rfl
  rw [tickLocked, tickLocked]
  dsimp only
  rw [hnote]
  generalize hu : noteRouted t (nonzero cfg cnt) cnt = u
  have hLu : ∀ s, L s = true → u.layerPin s = true := by
    rw [← hu]
    exact hL
  have hfrozen : (u.withPins L).frozen = u.frozen := rfl
  rw [tickCandidates_withPins hLu, promoteBatch_withPins hLu, hfrozen]
  generalize promoteBatch cfg T v u (tickCandidates cfg T v u (nonzero cfg cnt)) fault = r
  by_cases hempty : nonzero cfg cnt = []
  · rw [if_pos hempty, if_pos hempty]
    rfl
  · rw [if_neg hempty, if_neg hempty]
    by_cases hgo : cfg.policy ≠ .need ∧ ¬ u.frozen = true
    · rw [if_pos hgo, if_pos hgo]
      obtain ⟨u', o⟩ := r
      cases o with
      | returned n => cases decay <;> rfl
      | raised => cases decay <;> rfl
    · rw [if_neg hgo, if_neg hgo]
      cases decay <;> rfl

/-- A prefetch does the same with more pins. -/
theorem prefetchPairs_withPins (hL : ∀ s, L s = true → t.layerPin s = true) (pairs : List Pair)
    (coldTicks : ℕ) (fault : Option Fault) :
    prefetchPairs cfg T v (t.withPins L) pairs coldTicks fault =
      withPins L (prefetchPairs cfg T v t pairs coldTicks fault) := by
  have hfrozen : (t.withPins L).frozen = t.frozen := rfl
  have hmirror : (t.withPins L).mirror = t.mirror := rfl
  rw [prefetchPairs, prefetchPairs, hfrozen, hmirror]
  dsimp only
  rw [takeSlotsBatch_withPins hL]
  split
  · rfl
  · split
    · rfl
    · split
      · rfl
      · split
        · rfl
        · exact fetchPlan_withPins _ _ _

/-- A forced promotion does the same with more pins. -/
theorem forcePromote_withPins (hL : ∀ s, L s = true → t.layerPin s = true)
    (layers : Option (List ℕ)) (maxPromote : Option ℕ) (pin : Bool)
    (weights : Option (Pair → ℚ)) (fault : Option Fault) :
    forcePromote cfg T v (t.withPins L) layers maxPromote pin weights fault =
      withPins L (forcePromote cfg T v t layers maxPromote pin weights fault) := by
  have hfrozen : (t.withPins L).frozen = t.frozen := rfl
  have hhits : (t.withPins L).hitSlots = t.hitSlots := rfl
  -- what is found resident is pinned and noted
  have hfound : ∀ (hits : List ℕ) (ps : List Pair),
      (if pin then ((t.withPins L).refresh hits).pinStep hits
        else (t.withPins L).refresh hits).bumpNeed ps =
      ((if pin then (t.refresh hits).pinStep hits else t.refresh hits).bumpNeed ps).withPins L := by
    intro hits ps
    cases pin with
    | false => rfl
    | true => exact congrArg (Tier.bumpNeed · ps) (pin_withPins (t.refresh hits) .step hits)
  rw [forcePromote, forcePromote, hfrozen, hhits]
  dsimp only
  rw [hfound]
  generalize hu : (if pin = true then _ else _ : Tier).bumpNeed _ = u
  have hLu : ∀ s, L s = true → u.layerPin s = true := by
    rw [← hu]
    cases pin <;> exact hL
  have hmirror : (u.withPins L).mirror = u.mirror := rfl
  have hkey : forceKey cfg (u.withPins L) weights = forceKey cfg u weights := rfl
  rw [hmirror, hkey, takeSlotsBatch_withPins hLu]
  dsimp only
  split
  · rfl
  · split
    · rfl
    · split
      · rfl
      · split
        · rfl
        · exact fetchPlan_withPins _ _ _

/-- A fetch does the same with more pins. -/
theorem ensureFetch_withPins (hL : ∀ s, L s = true → t.layerPin s = true) (cand : List Pair)
    (fault : Option Fault) :
    ensureFetch cfg T v (t.withPins L) cand fault =
      withPins L (ensureFetch cfg T v t cand fault) := by
  have hmirror : (t.withPins L).mirror = t.mirror := rfl
  rw [ensureFetch, ensureFetch, hmirror]
  dsimp only
  rw [takeSlotsBatch_withPins hL]
  split
  · rfl
  · split
    · rfl
    · exact fetchPlan_withPins _ _ _

end WithPins

/-! ### What a take leaves of the layer's pins -/

section Pins

variable {cfg : Config} {T : TopK} {v : View} {t u : Tier}

/-- A take pops free slots and evicts others, and touches no pin. An urgent one that stays short
has evicted every slot that is not excluded. -/
theorem exists_taken (cfg : Config) (T : TopK) (v : View) (t : Tier) (k : ℕ) (emergency : Bool)
    (minCold : ℕ) (protectHot : Bool) :
    ∃ ev, takeSlotsBatch cfg T v t k emergency minCold none protectHot =
        (t.free.take k ++ ev, { t.unmap ev with free := t.free.drop k }) ∧
      (emergency = true → protectHot = false → k ≤ (t.free.take k ++ ev).length ∨
        ∀ s < cfg.nSlots, hard v t s = false → s ∈ ev) := by
  obtain ⟨ev, htake, hev⟩ := takeSlotsBatch_evicts cfg T v t k emergency minCold none protectHot
  refine ⟨ev, htake, fun he hp => ?_⟩
  rw [List.length_append]
  rcases hev with ⟨rfl, hend⟩ | ⟨_, _, _, _, hall⟩
  · exact .inl (hend rfl)
  · refine (hall rfl).imp_right fun hmem s hs hfree => ?_
    -- the last pass of an emergency respects the hard exclusions only
    have hlast : (fun s => hard v t s || (protectHot && (hotSlots cfg T t).contains s)) ∈
        passes cfg T v t emergency minCold protectHot := by
      simp [passes, he]
    exact hmem _ hlast s (mem_eligible.mpr ⟨hs, by simp [hfree, hp], List.not_mem_nil⟩)

/-- A take pins nothing. -/
theorem takeSlotsBatch_layerPin (k : ℕ) (emergency : Bool) (minCold : ℕ) (protectHot : Bool) :
    (takeSlotsBatch cfg T v t k emergency minCold none protectHot).2.layerPin = t.layerPin := by
  obtain ⟨ev, hev, _⟩ := exists_taken cfg T v t k emergency minCold protectHot
  rw [hev]
  rfl

/-- An operation does not drop a layer pin. -/
def HoldsLayer (t u : Tier) : Prop :=
  ∀ s, t.layerPin s = true → u.layerPin s = true

theorem HoldsLayer.of_eq (h : u.layerPin = t.layerPin) : HoldsLayer t u := by
  intro s hs
  rwa [h]

/-- A fetch may pin what it has fetched, and unpins nothing. -/
theorem holdsLayer_fetchPlan (pin : Pin) (plan : List (Pair × ℕ)) (fault : Option Fault) :
    HoldsLayer t (fetchPlan t pin plan fault).1 := by
  have hpin : HoldsLayer t ((t.reserve plan).pin pin (plan.map Prod.snd)) := by
    intro s hs
    cases pin with
    | layer => exact Bool.or_eq_true_iff.mpr (.inl hs)
    | step => exact hs
    | unpinned => exact hs
  cases fault with
  | none => exact hpin
  | some fault =>
    cases fault with
    | read => exact .of_eq rfl
    | copy done => exact hpin

theorem layerPin_rollBack (plan : List (Pair × ℕ)) : (rollBack t plan).layerPin = t.layerPin :=
  List.foldlRecOn (motive := fun u : Tier => u.layerPin = t.layerPin) _ _ rfl fun _ hu _ _ => hu

/-- A promotion does not touch the pins of the layer. -/
theorem layerPin_promoteBatch (candidates : List Pair) (fault : Option Fault) :
    (promoteBatch cfg T v t candidates fault).1.layerPin = t.layerPin := by
  have htake := @takeSlotsBatch_layerPin cfg T v t candidates.length false 2 false
  rw [promoteBatch]
  dsimp only
  split
  · rfl
  · split
    · exact htake
    · cases fault with
      | none => exact htake
      | some fault =>
        cases fault with
        | read => exact (layerPin_rollBack _).trans htake
        | copy done => exact (layerPin_rollBack _).trans htake

/-- A tick does not touch the pins of the layer. -/
theorem layerPin_tickLocked (cnt : Pair → ℕ) (decay : Option ℚ) (fault : Option Fault) :
    (tickLocked cfg T v t cnt decay fault).1.layerPin = t.layerPin := by
  rw [tickLocked]
  dsimp only
  split
  · rfl
  · have hr : (if cfg.policy ≠ .need ∧ ¬ (noteRouted t (nonzero cfg cnt) cnt).frozen then
        promoteBatch cfg T v (noteRouted t (nonzero cfg cnt) cnt)
          (tickCandidates cfg T v (noteRouted t (nonzero cfg cnt) cnt) (nonzero cfg cnt)) fault
        else (noteRouted t (nonzero cfg cnt) cnt, .returned 0)).1.layerPin = t.layerPin := by
      split
      · exact layerPin_promoteBatch _ _
      · rfl
    split
    · exact hr
    · exact hr

/-- A prefetch unpins nothing of the layer. -/
theorem holdsLayer_prefetchPairs (pairs : List Pair) (coldTicks : ℕ) (fault : Option Fault) :
    HoldsLayer t (prefetchPairs cfg T v t pairs coldTicks fault).1 := by
  rw [prefetchPairs]
  dsimp only
  split
  · exact .of_eq rfl
  · split
    · exact .of_eq rfl
    · split
      · exact .of_eq rfl
      · split
        · exact .of_eq (takeSlotsBatch_layerPin _ _ _ _)
        · intro s hs
          exact holdsLayer_fetchPlan _ _ _ s (by rwa [takeSlotsBatch_layerPin])

/-- A forced promotion unpins nothing of the layer. -/
theorem holdsLayer_forcePromote (layers : Option (List ℕ)) (maxPromote : Option ℕ) (pin : Bool)
    (weights : Option (Pair → ℚ)) (fault : Option Fault) :
    HoldsLayer t (forcePromote cfg T v t layers maxPromote pin weights fault).1 := by
  rw [forcePromote]
  dsimp only
  split
  · exact .of_eq rfl
  · split
    · exact .of_eq rfl
    · generalize hu : (if pin = true then _ else _ : Tier).bumpNeed _ = u
      have hlayer : u.layerPin = t.layerPin := by
        rw [← hu]
        cases pin <;> rfl
      split
      · exact .of_eq hlayer
      · split
        · exact .of_eq ((takeSlotsBatch_layerPin _ _ _ _).trans hlayer)
        · intro s hs
          exact holdsLayer_fetchPlan _ _ _ s (by rwa [takeSlotsBatch_layerPin, hlayer])

/-- A fetch for a forward unpins nothing of the layer. -/
theorem holdsLayer_ensureFetch (cand : List Pair) (fault : Option Fault) :
    HoldsLayer t (ensureFetch cfg T v t cand fault).1 := by
  rw [ensureFetch]
  dsimp only
  split
  · exact .of_eq rfl
  · split
    · exact .of_eq (takeSlotsBatch_layerPin _ _ _ _)
    · intro s hs
      exact holdsLayer_fetchPlan _ _ _ s (by rwa [takeSlotsBatch_layerPin])

/-! ### What lives in a pinned slot -/

/-- The step or the layer has pinned the slot. -/
def Tier.held (t : Tier) (s : ℕ) : Bool :=
  t.stepPin s || t.layerPin s

/-- A pair that lives in a pinned slot stays there, pinned; and if every resident pair's slot
held its row it still does. -/
structure KeepsHeld (t u : Tier) : Prop where
  held : ∀ p s, t.mirror p = some s → t.held s = true → u.mirror p = some s ∧ u.held s = true
  rows : RowsOk t → RowsOk u

/-- What an operation keeps of the step's pins it keeps of the layer's as well. -/
theorem Keeps.layerPins (h : Keeps (t.withPins t.layerPin) (u.withPins t.layerPin))
    (hlayer : HoldsLayer t u) : KeepsHeld t u where
  held p s hp hs := by
    obtain ⟨hmap, hpin, _⟩ := h.pinned p s hp hs
    refine ⟨hmap, ?_⟩
    rcases Bool.or_eq_true_iff.mp hpin with hpin | hpin
    · exact Bool.or_eq_true_iff.mpr (.inl hpin)
    · exact Bool.or_eq_true_iff.mpr (.inr (hlayer s hpin))
  rows := h.rows

theorem KeepsHeld.of_eq (hm : u.mirror = t.mirror) (hp : u.pool = t.pool)
    (hs : ∀ s, t.held s = true → u.held s = true) : KeepsHeld t u where
  held p s hmap hheld := ⟨by rwa [hm], hs s hheld⟩
  rows hr p s hmap := by
    rw [hp]
    exact hr p s (hm ▸ hmap)

/-- The tier with its layer pins set for the step as well has the same books. -/
theorem slotsOk_withPins (hok : SlotsOk cfg t) : SlotsOk cfg (t.withPins t.layerPin) :=
  hok.congr rfl rfl

/-- What is held stays resident through a tick. -/
theorem keepsHeld_tickLocked (hok : SlotsOk cfg t) (cnt : Pair → ℕ) (decay : Option ℚ)
    (fault : Option Fault) : KeepsHeld t (tickLocked cfg T v t cnt decay fault).1 := by
  have hkeep := @keeps_tickLocked cfg T v _ (slotsOk_withPins hok) cnt decay fault
  rw [tickLocked_withPins fun _ hs => hs] at hkeep
  exact hkeep.layerPins (.of_eq (layerPin_tickLocked cnt decay fault))

/-- What is held stays resident through a prefetch. -/
theorem keepsHeld_prefetchPairs (hok : SlotsOk cfg t) {pairs : List Pair} {coldTicks : ℕ}
    (hpairs : (plannedPairs cfg v t pairs coldTicks).Nodup) :
    KeepsHeld t (prefetchPairs cfg T v t pairs coldTicks none).1 := by
  have hblocked : blocked v (t.withPins t.layerPin) = blocked v t := by
    funext s
    rw [blocked, blocked, hard_withPins fun _ hs => hs]
    rfl
  have hplanned : plannedPairs cfg v (t.withPins t.layerPin) pairs coldTicks =
      plannedPairs cfg v t pairs coldTicks := by
    rw [plannedPairs, plannedPairs, coldSlots, coldSlots, hblocked]
    rfl
  have hkeep := (@keeps_prefetchPairs cfg T v _ (slotsOk_withPins hok) pairs coldTicks
    (by rwa [hplanned])).1
  rw [prefetchPairs_withPins fun _ hs => hs] at hkeep
  exact hkeep.layerPins (holdsLayer_prefetchPairs pairs coldTicks none)

/-- What is held stays resident through a forced promotion. -/
theorem keepsHeld_forcePromote (hok : SlotsOk cfg t) (layers : Option (List ℕ))
    (maxPromote : Option ℕ) (pin : Bool) (weights : Option (Pair → ℚ)) :
    KeepsHeld t (forcePromote cfg T v t layers maxPromote pin weights none).1 := by
  have hkeep := (@keeps_forcePromote cfg T v _ (slotsOk_withPins hok) layers maxPromote pin
    weights).1
  rw [forcePromote_withPins fun _ hs => hs] at hkeep
  exact hkeep.layerPins (holdsLayer_forcePromote layers maxPromote pin weights none)

/-- What is held stays resident through a fetch for a forward. -/
theorem keepsHeld_ensureFetch (hok : SlotsOk cfg t) {cand : List Pair} (hcand : cand.Nodup) :
    KeepsHeld t (ensureFetch cfg T v t cand none).1 := by
  have hkeep := @keeps_ensureFetch cfg T v _ (slotsOk_withPins hok) cand hcand
  rw [ensureFetch_withPins fun _ hs => hs] at hkeep
  exact hkeep.layerPins (holdsLayer_ensureFetch cand none)

end Pins

/-! ### A call -/

section Call

variable (cfg : Config) (T : TopK) (v : View) (t : Tier)

/-- The pairs that a call lists, each once. -/
def listedPairs (layer : ℕ) (ids : List ℕ) : List Pair :=
  ((List.range cfg.nExperts).filter ids.contains).map fun e => (layer, e)

/-- The call ends without a warning: it returns, and unless it fetched nothing it fetched every
candidate that was still not resident. -/
def returnsQuietly (cand : List Pair) : Outcome → Bool
  | .returned n =>
    !(decide (0 < n) && decide (n < (cand.filter fun p => (t.mirror p).isNone).length))
  | .raised => false

/-- There is a slot to be had: a free one, or one without a hard exclusion. -/
def HasRoom : Prop :=
  t.free ≠ [] ∨ ∃ s ∈ List.range cfg.nSlots, hard v t s = false

instance : Decidable (HasRoom cfg v t) :=
  inferInstanceAs (Decidable (_ ∨ _))

variable {cfg T v t}

/-- What a call finds resident it pins, the rest are its candidates. -/
theorem ensureScan_covers {layer : ℕ} (ids : List ℕ) (hf : t.frozen = false)
    (hl : cfg.inStore layer = true) : ∀ p ∈ listedPairs cfg layer ids,
      p ∈ (ensureScan cfg t layer ids).2 ∨ ∃ s, (ensureScan cfg t layer ids).1.mirror p = some s ∧
        (ensureScan cfg t layer ids).1.held s = true := by
  intro p hp
  rw [ensureScan, if_neg (by simp [hf, hl])]
  dsimp only
  cases hs : t.mirror p with
  | none => exact .inl (List.mem_filter.mpr ⟨hp, by simp [hs]⟩)
  | some s =>
    refine .inr ⟨s, hs, Bool.or_eq_true_iff.mpr (.inr ?_)⟩
    exact List.contains_iff_mem.mpr (List.mem_filterMap.mpr ⟨p, hp, hs⟩)

/-- In the base tier, where there is a slot to be had, a call that ends quietly has fetched and
pinned every candidate. -/
theorem ensureFetch_fills (hbase : cfg.base = true) (hok : SlotsOk cfg t) {cand : List Pair}
    (hcand : cand.Nodup) (hroom : (∃ p ∈ cand, t.mirror p = none) → HasRoom cfg v t)
    (hquiet : returnsQuietly t cand (ensureFetch cfg T v t cand none).2 = true) :
    ∀ p ∈ cand, t.mirror p = none → ∃ s, (ensureFetch cfg T v t cand none).1.mirror p = some s ∧
      (ensureFetch cfg T v t cand none).1.held s = true := by
  intro p hp hnone
  have hroom' := hroom ⟨p, hp, hnone⟩
  rw [ensureFetch] at hquiet ⊢
  rw [returnsQuietly.eq_def] at hquiet
  generalize hk : cand.filter (fun p => (t.mirror p).isNone) = keys at hquiet ⊢
  have hmem : p ∈ keys := hk ▸ List.mem_filter.mpr ⟨hp, by simp [hnone]⟩
  have hkeys : keys.Nodup := hk ▸ hcand.filter _
  have hpos : 0 < keys.length := List.length_pos_of_mem hmem
  obtain ⟨hbook, htab⟩ := slotsOk_iff.mp hok
  have took := @takeSlotsBatch_took cfg T v t hbook htab keys.length cfg.base 2 none (!cfg.base)
  obtain ⟨ev, hev, hall⟩ := exists_taken cfg T v t keys.length cfg.base 2 (!cfg.base)
  rw [if_neg (List.ne_nil_of_mem hmem)] at hquiet ⊢
  rw [hev] at took hquiet ⊢
  dsimp only at took hquiet ⊢
  generalize hout : t.free.take keys.length ++ ev = out at took hquiet hall ⊢
  generalize ({ t.unmap ev with free := t.free.drop keys.length } : Tier) = t' at took hquiet ⊢
  -- a slot is to be had, so the plan is not empty
  have hne : 0 < out.length := by
    rcases hroom' with hfree | ⟨s, hs, hfree⟩
    · have : 0 < t.free.length := List.length_pos_of_ne_nil hfree
      rw [← hout, List.length_append, List.length_take]
      omega
    · rcases hall hbase (by simp [hbase]) with hle | hmem
      · omega
      · have hin : s ∈ out := hout ▸ List.mem_append_right _ (hmem s (List.mem_range.mp hs) hfree)
        exact List.length_pos_of_mem hin
  have hplan : keys.zip out ≠ [] := by
    intro h
    have := congrArg List.length h
    rw [List.length_zip, List.length_nil] at this
    omega
  rw [if_neg hplan] at hquiet ⊢
  have hlen : out.length = keys.length := by
    have hle := took.length_le
    have hq : (!(decide (0 < (keys.zip out).length) &&
        decide ((keys.zip out).length < keys.length))) = true := hquiet
    rw [Bool.not_eq_true', Bool.and_eq_false_iff, decide_eq_false_iff_not,
      decide_eq_false_iff_not, List.length_zip] at hq
    omega
  have hfst : p ∈ (keys.zip out).map Prod.fst := by
    rw [plan_keys, hlen, List.take_length]
    exact hmem
  obtain ⟨⟨q, s⟩, he, rfl⟩ := List.mem_map.mp hfst
  have hfill := filled_fetchPlan t' .layer (keys.zip out)
  refine ⟨s, (hfill.mirror_iff (hkeys.sublist (List.take_sublist _ _))).mpr (.inl he), ?_⟩
  have hslot : ((keys.zip out).map Prod.snd).contains s = true :=
    List.contains_iff_mem.mpr (List.mem_map.mpr ⟨_, he, rfl⟩)
  change (t'.stepPin s || (t'.layerPin s || _)) = true
  rw [hslot, Bool.or_true, Bool.or_true]

end Call

/-! ### Runs -/

/-- The tier, what the call of `ensure_resident` that is under way lists, and what the last call
has promised: the pairs it listed, each with the slot in which it was when the call returned. -/
structure ResidentState where
  delta : DeltaState
  asked : Option (List Pair)
  promised : List (Pair × Option ℕ)

/-- What may happen while the runner is in a call: the manager's operations, and the second
half of the call. -/
def Op.duringCall : Op → Bool
  | .tick | .promote .. | .prefetch .. | .ensureFetch .. => true
  | .force .. | .ensureScan .. | .stepBegin | .stepEnd => false

/-- A call of `ensure_resident`, or a step boundary. -/
def Op.endsPromise : Op → Bool
  | .ensureScan .. | .ensureFetch .. | .stepBegin | .stepEnd => true
  | .tick | .promote .. | .prefetch .. | .force .. => false

/-- Each of some pairs with the slot in which it is. -/
def inSlots (t : Tier) (ps : List Pair) : List (Pair × Option ℕ) :=
  ps.map fun p => (p, t.mirror p)

section Runs

variable (cfg : Config) (T : TopK)

/-- What is under way and what is promised after an operation that has left `d`. A call
returns after its scan when everything is resident, else after its fetch; it promises what it
lists if it has given no warning. A promise ends with the next call and at a step boundary. -/
def afterOp (s : ResidentState) (d : DeltaState) : Op → Option ResidentState
  | .ensureScan layer ids =>
    let ps := listedPairs cfg layer ids
    some (if d.fetching = [] then ⟨d, none, inSlots d.tier ps⟩ else ⟨d, some ps, []⟩)
  | .ensureFetch v fault =>
    s.asked.map fun ps => ⟨d, none,
      if returnsQuietly s.delta.tier s.delta.fetching
        (ensureFetch cfg T v s.delta.tier s.delta.fetching fault).2
      then inSlots d.tier ps else []⟩
  | .stepBegin | .stepEnd => some ⟨d, none, []⟩
  | .tick | .promote .. | .prefetch .. | .force .. => some ⟨d, s.asked, s.promised⟩

/-- One operation. -/
def residentStep (s : ResidentState) (op : Op) : Option ResidentState :=
  if s.asked.isSome && !op.duringCall then none
  else (opStep cfg T s.delta op).bind fun d => afterOp cfg T s d op

/-- Where a run starts. -/
def ResidentStart (s : ResidentState) : Prop :=
  s = ⟨⟨Tier.init cfg, []⟩, none, []⟩

/-- All runs of the operations, with what the calls of `ensure_resident` promise. -/
def residentSystem : TransitionSystem ResidentState Op :=
  .ofStep (ResidentStart cfg) (residentStep cfg T)

/-- Nothing fails, no prefetch plans a pair twice, and a call is for a layer of the store while
the membership is not frozen. -/
def Served (s : ResidentState) : Op → Prop
  | .ensureScan layer _ => s.delta.tier.frozen = false ∧ cfg.inStore layer = true
  | op => Faultless op ∧ PlansDistinct cfg s.delta op

/-- Beside that, where a call fetches: what has been mapped of its candidates since its scan
is in a pinned slot, and if anything is left to fetch there is a slot to be had. -/
def Secured (s : ResidentState) (op : Op) : Prop :=
  Served cfg s op ∧
    match op with
    | .ensureFetch v _ =>
      (∀ p ∈ s.delta.fetching, (s.delta.tier.mirror p).all s.delta.tier.held = true) ∧
        ((∃ p ∈ s.delta.fetching, s.delta.tier.mirror p = none) → HasRoom cfg v s.delta.tier)
    | _ => True

instance (s : ResidentState) : (op : Op) → Decidable (Served cfg s op)
  | .ensureScan layer _ => inferInstanceAs (Decidable (_ ∧ cfg.inStore layer = true))
  | .tick | .promote .. | .prefetch .. | .force .. | .ensureFetch .. | .stepBegin | .stepEnd =>
    inferInstanceAs (Decidable (Faultless _ ∧ PlansDistinct cfg s.delta _))

instance (s : ResidentState) : (op : Op) → Decidable (Secured cfg s op)
  | .ensureFetch v fault => inferInstanceAs (Decidable (Served cfg s (.ensureFetch v fault) ∧
      (∀ p ∈ s.delta.fetching, (s.delta.tier.mirror p).all s.delta.tier.held = true) ∧
        ((∃ p ∈ s.delta.fetching, s.delta.tier.mirror p = none) → HasRoom cfg v s.delta.tier)))
  | .tick | .promote .. | .prefetch .. | .force .. | .ensureScan .. | .stepBegin | .stepEnd =>
    inferInstanceAs (Decidable (Served cfg s _ ∧ True))

variable {cfg T} {s : ResidentState}

/-- The books are in order, every slot holds its pair's row, what a call under way lists is
either a candidate of it or in a pinned slot, and what is promised is in a pinned slot. -/
structure ResidentOk (cfg : Config) (s : ResidentState) : Prop where
  state : StateOk cfg s.delta
  rows : RowsOk s.delta.tier
  asked : ∀ ps, s.asked = some ps → ∀ p ∈ ps, p ∈ s.delta.fetching ∨
    ∃ r, s.delta.tier.mirror p = some r ∧ s.delta.tier.held r = true
  promised : ∀ e ∈ s.promised,
    ∃ r, e.2 = some r ∧ s.delta.tier.mirror e.1 = some r ∧ s.delta.tier.held r = true

/-- An operation that takes place. -/
theorem residentStep_eq {op : Op} {t : ResidentState} (h : residentStep cfg T s op = some t) :
    ((opStep cfg T s.delta op).bind fun d => afterOp cfg T s d op) = some t := by
  rw [residentStep] at h
  split at h
  · exact absurd h (by simp)
  · exact h

/-- An operation beside a call, or after it. -/
theorem ResidentOk.beside (h : ResidentOk cfg s) {d : DeltaState} (hstate : StateOk cfg d)
    (hkeep : KeepsHeld s.delta.tier d.tier) (hfetch : d.fetching = s.delta.fetching) :
    ResidentOk cfg ⟨d, s.asked, s.promised⟩ where
  state := hstate
  rows := hkeep.rows h.rows
  asked ps hps p hp := by
    refine (h.asked ps hps p hp).imp (fun hc => hfetch ▸ hc) ?_
    rintro ⟨r, hr, hheld⟩
    exact ⟨r, hkeep.held p r hr hheld⟩
  promised e he := by
    obtain ⟨r, heq, hr, hheld⟩ := h.promised e he
    exact ⟨r, heq, hkeep.held e.1 r hr hheld⟩

/-- What lives in a pinned slot is promised with that slot. -/
theorem promised_inSlots {t : Tier} {ps : List Pair}
    (h : ∀ p ∈ ps, ∃ r, t.mirror p = some r ∧ t.held r = true) :
    ∀ e ∈ inSlots t ps, ∃ r, e.2 = some r ∧ t.mirror e.1 = some r ∧ t.held r = true := by
  intro e he
  obtain ⟨p, hp, rfl⟩ := List.mem_map.mp he
  obtain ⟨r, hr, hheld⟩ := h p hp
  exact ⟨r, hr, hr, hheld⟩

/-- The first half of a call. -/
theorem ResidentOk.scanned (h : ResidentOk cfg s) {layer : ℕ} {ids : List ℕ}
    (hserved : Served cfg s (.ensureScan layer ids)) {t : ResidentState}
    (hstep : residentStep cfg T s (.ensureScan layer ids) = some t) : ResidentOk cfg t := by
  have hstate : StateOk cfg ⟨(ensureScan cfg s.delta.tier layer ids).1,
      (ensureScan cfg s.delta.tier layer ids).2⟩ :=
    ⟨h.state.1.ensureScan layer ids, nodup_ensureScan layer ids⟩
  have hrows : RowsOk (ensureScan cfg s.delta.tier layer ids).1 :=
    (keeps_ensureScan layer ids).rows h.rows
  have hcover := ensureScan_covers ids hserved.1 hserved.2
  rw [residentStep] at hstep
  split at hstep
  · exact absurd hstep (by simp)
  · obtain rfl := Option.some.inj hstep
    dsimp only
    split
    · next hnil =>
      refine ⟨hstate, hrows, by simp, promised_inSlots fun p hp => ?_⟩
      refine (hcover p hp).resolve_left fun hc => ?_
      rw [show (ensureScan cfg s.delta.tier layer ids).2 = [] from hnil] at hc
      exact List.not_mem_nil hc
    · refine ⟨hstate, hrows, ?_, by simp⟩
      rintro ps hps p hp
      exact hcover p (Option.some.inj hps ▸ hp)

/-- The second half of a call. -/
theorem ResidentOk.fetched (hbase : cfg.base = true) (h : ResidentOk cfg s) {v : View}
    {fault : Option Fault} (hsec : Secured cfg s (.ensureFetch v fault)) {t : ResidentState}
    (hstep : residentStep cfg T s (.ensureFetch v fault) = some t) : ResidentOk cfg t := by
  obtain ⟨⟨hfault, _⟩, hpinned, hroom⟩ := hsec
  obtain rfl : fault = none := hfault
  have hslots := h.state.1
  have hkeep : KeepsHeld s.delta.tier (ensureFetch cfg T v s.delta.tier s.delta.fetching none).1 :=
    keepsHeld_ensureFetch hslots h.state.2
  have hstate : StateOk cfg ⟨(ensureFetch cfg T v s.delta.tier s.delta.fetching none).1, []⟩ :=
    ⟨hslots.ensureFetch h.state.2, List.nodup_nil⟩
  rw [residentStep] at hstep
  split at hstep
  · exact absurd hstep (by simp)
  · obtain ⟨ps, hps, rfl⟩ := Option.map_eq_some_iff.mp hstep
    refine ⟨hstate, hkeep.rows h.rows, by simp, ?_⟩
    dsimp only
    split
    · next hquiet =>
      refine promised_inSlots fun p hp => ?_
      rcases h.asked ps hps p hp with hc | ⟨r, hr, hheld⟩
      · cases hr : s.delta.tier.mirror p with
        | none => exact ensureFetch_fills hbase hslots h.state.2 hroom hquiet p hc hr
        | some r =>
          have hpin := hpinned p hc
          rw [hr] at hpin
          exact ⟨r, hkeep.held p r hr hpin⟩
      · exact ⟨r, hkeep.held p r hr hheld⟩
    · simp

/-- One operation. -/
theorem ResidentOk.step (hbase : cfg.base = true) (h : ResidentOk cfg s) {op : Op}
    {t : ResidentState} (hsec : Secured cfg s op) (hstep : residentStep cfg T s op = some t) :
    ResidentOk cfg t := by
  have hslots := h.state.1
  cases op with
  | ensureScan layer ids => exact h.scanned hsec.1 hstep
  | ensureFetch v fault => exact h.fetched hbase hsec hstep
  | tick =>
    obtain ⟨d, hd, hstep⟩ := Option.bind_eq_some_iff.mp (residentStep_eq hstep)
    obtain rfl := Option.some.inj hstep
    obtain rfl := Option.some.inj hd
    exact h.beside ⟨hslots.congr rfl rfl, h.state.2⟩ (.of_eq rfl rfl fun _ hs => hs) rfl
  | promote v cnt decay fault =>
    obtain ⟨d, hd, hstep⟩ := Option.bind_eq_some_iff.mp (residentStep_eq hstep)
    obtain rfl := Option.some.inj hstep
    obtain rfl := Option.some.inj hd
    exact h.beside ⟨hslots.tickLocked cnt decay fault, h.state.2⟩
      (keepsHeld_tickLocked hslots cnt decay fault) rfl
  | prefetch v pairs coldTicks fault =>
    obtain ⟨d, hd, hstep⟩ := Option.bind_eq_some_iff.mp (residentStep_eq hstep)
    obtain rfl := Option.some.inj hstep
    obtain rfl := Option.some.inj hd
    obtain ⟨⟨hfault, hplan⟩, _⟩ := hsec
    obtain rfl : fault = none := hfault
    exact h.beside ⟨hslots.prefetchPairs hplan, h.state.2⟩ (keepsHeld_prefetchPairs hslots hplan)
      rfl
  | force v layers maxPromote pin weights fault =>
    obtain ⟨d, hd, hstep⟩ := Option.bind_eq_some_iff.mp (residentStep_eq hstep)
    obtain rfl := Option.some.inj hstep
    obtain rfl := Option.some.inj hd
    obtain ⟨⟨hfault, _⟩, _⟩ := hsec
    obtain rfl : fault = none := hfault
    exact h.beside ⟨hslots.forcePromote layers maxPromote pin weights, h.state.2⟩
      (keepsHeld_forcePromote hslots layers maxPromote pin weights) rfl
  | stepBegin =>
    obtain ⟨d, hd, hstep⟩ := Option.bind_eq_some_iff.mp (residentStep_eq hstep)
    obtain rfl := Option.some.inj hstep
    obtain rfl := Option.some.inj hd
    exact ⟨⟨hslots.congr rfl rfl, h.state.2⟩, h.rows, by simp, by simp⟩
  | stepEnd =>
    obtain ⟨d, hd, hstep⟩ := Option.bind_eq_some_iff.mp (residentStep_eq hstep)
    obtain rfl := Option.some.inj hstep
    obtain rfl := Option.some.inj hd
    exact ⟨⟨hslots.congr rfl rfl, h.state.2⟩, h.rows, by simp, by simp⟩

/-- **A prefill layer stays resident.** In the base tier, in every run whose steps are secured,
every expert that a call has promised has been given a slot and is still in it, in both tables,
and the slot holds its row; and a promise ends only with the next call or at a step boundary. -/
theorem resident_kept (hbase : cfg.base = true)
    (h : ((residentSystem cfg T).onlySteps (Secured cfg)).Reachable s) :
    (∀ e ∈ s.promised, ∃ r, e.2 = some r ∧ s.delta.tier.mirror e.1 = some r ∧
      s.delta.tier.slotTable e.1 = some r ∧ s.delta.tier.pool r = some e.1) ∧
    ∀ op t, op.endsPromise = false → residentStep cfg T s op = some t →
      t.promised = s.promised := by
  have hinv : ((residentSystem cfg T).onlySteps (Secured cfg)).Invariant (ResidentOk cfg) := by
    constructor
    · rintro s rfl
      refine ⟨⟨slotsOk_init cfg, List.nodup_nil⟩, fun p r hr => ?_, by simp, by simp⟩
      exact absurd hr (by simp [Tier.init])
    · rintro s op t - hs ⟨hsec, hstep⟩
      exact hs.step hbase hsec hstep
  have hok := hinv.holds h
  constructor
  · intro e he
    obtain ⟨r, heq, hr, -⟩ := hok.promised e he
    exact ⟨r, heq, hr, (hok.state.1.mapped e.1 r hr).2.2, hok.rows e.1 r hr⟩
  · intro op t hop hstep
    obtain ⟨d, -, hstep⟩ := Option.bind_eq_some_iff.mp (residentStep_eq hstep)
    cases op with
    | ensureScan | ensureFetch | stepBegin | stepEnd => exact absurd hop (by simp [Op.endsPromise])
    | tick | promote | prefetch | force =>
      obtain rfl := Option.some.inj hstep
      rfl

end Runs

/-! ### A promise that is kept, and two that are not -/

theorem start_smallResident : ResidentStart smallTier ⟨⟨Tier.init smallTier, []⟩, none, []⟩ :=
  rfl

/-- Every expert has been routed in the window. -/
def allSeen : View :=
  ⟨fun _ => 1, fun _ => false⟩

/-- A call finds expert 0 and fetches expert 1; a forced promotion of two others finds no slot. -/
theorem resident_kept_small :
    ∃ s, ((residentSystem smallTier TopK.sorted).onlySteps (Secured smallTier)).Reachable s ∧
      decide (s.promised = [((0, 0), some 1), ((0, 1), some 0)]) = true ∧
      ((∀ e ∈ s.promised, ∃ r, e.2 = some r ∧ s.delta.tier.mirror e.1 = some r ∧
        s.delta.tier.slotTable e.1 = some r ∧ s.delta.tier.pool r = some e.1) ∧
      ∀ op t, op.endsPromise = false → residentStep smallTier TopK.sorted s op = some t →
        t.promised = s.promised) := by
  obtain ⟨s, hs, hP⟩ := TransitionSystem.exists_reachable_of_replay
    (residentStep smallTier TopK.sorted) (Secured smallTier) start_smallResident
    [.promote quiet (routed 0) none none, .ensureScan 0 [0, 1], .tick,
      .promote quiet (routed 0) none none, .ensureFetch allSeen none,
      .force (routedBoth 2 3) none none true none none]
    (fun s => decide (s.promised = [((0, 0), some 1), ((0, 1), some 0)])) (by decide +kernel)
  exact ⟨s, hs, hP, resident_kept rfl hs⟩

/-- Two calls that end without a warning. The first lists experts 0 and 1; between its halves
the manager promotes expert 0, and the fetch of expert 1 evicts it, for expert 2 in the other
slot is hotter. The second lists three experts, has two of them resident and pins both slots:
the fetch of the third finds no slot at all. -/
theorem resident_broken :
    (∃ s, ((residentSystem smallTier TopK.sorted).onlySteps (Served smallTier)).Reachable s ∧
      s.promised = [((0, 0), none), ((0, 1), some 0)]) ∧
    ∃ s, ((residentSystem smallTier TopK.sorted).onlySteps (Served smallTier)).Reachable s ∧
      s.promised = [((0, 0), some 1), ((0, 1), some 0), ((0, 2), none)] := by
  obtain ⟨s, hs, hP⟩ := TransitionSystem.exists_reachable_of_replay
    (residentStep smallTier TopK.sorted) (Served smallTier) start_smallResident
    [.promote quiet (routed 2) none none, .promote quiet (routed 2) none none,
      .ensureScan 0 [0, 1], .promote quiet (routed 0) none none, .ensureFetch allSeen none]
    (fun s => decide (s.promised = [((0, 0), none), ((0, 1), some 0)])) (by decide +kernel)
  obtain ⟨s', hs', hP'⟩ := TransitionSystem.exists_reachable_of_replay
    (residentStep smallTier TopK.sorted) (Served smallTier) start_smallResident
    [.promote quiet (routed 0) none none, .promote quiet (routed 1) none none,
      .ensureScan 0 [0, 1, 2], .ensureFetch allSeen none]
    (fun s => decide (s.promised = [((0, 0), some 1), ((0, 1), some 0), ((0, 2), none)]))
    (by decide +kernel)
  exact ⟨⟨s, hs, of_decide_eq_true hP⟩, s', hs', of_decide_eq_true hP'⟩

end VllmMoet.Delta
