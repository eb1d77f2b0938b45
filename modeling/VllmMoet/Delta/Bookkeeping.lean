import VllmMoet.Delta.TakeSlots
import VllmMoet.Lib.Transition

/-!
# The slot bookkeeping over whole runs

`SlotsOk` is the promise of the pool: every slot is free exactly once and without an owner,
or it belongs to one pair, which both tables map to it; and no pair is mapped anywhere else.

A run is a sequence of the critical sections of the tier's operations (`Op`), each with any
arguments, any routing counts and any failure of the store or of a copy; what an operation
that raises leaves behind is where the next one starts. `_promote_batch` rolls back and keeps
the promise however it fails (`SlotsOk.promoteBatch`). The other three fetches do not: after a
failed read or copy the slots of the plan are neither free nor mapped, and two entries of one pair
in the plan of `prefetch_pairs` own two slots. `Careful` excludes these, and under it the
promise holds along every run (`reachable_slotsOk`).
-/

namespace VllmMoet.Delta

/-- The slots, the pairs and the two tables agree. -/
structure SlotsOk (cfg : Config) (t : Tier) : Prop where
  free_nodup : t.free.Nodup
  free_lt : ∀ s ∈ t.free, s < cfg.nSlots
  slot : ∀ s, s < cfg.nSlots → (s ∈ t.free ∧ t.owner s = none) ∨
    (s ∉ t.free ∧ ∃ p, t.owner s = some p ∧ t.mirror p = some s ∧ t.slotTable p = some s)
  mapped : ∀ p s, t.mirror p = some s →
    s < cfg.nSlots ∧ t.owner s = some p ∧ t.slotTable p = some s
  tables : t.slotTable = t.mirror
  place_inj : ∀ p q s, t.mirror p = some s → t.mirror q = some s → p = q
  owner_inj : ∀ p s r, s < cfg.nSlots → r < cfg.nSlots → t.owner s = some p →
    t.owner r = some p → s = r

section Books

variable {cfg : Config} {t : Tier}

/-- In terms of the bookkeeping: it is consistent, and the two tables are one. -/
theorem slotsOk_iff :
    SlotsOk cfg t ↔ t.book.Consistent cfg.nSlots ∧ t.slotTable = t.mirror := by
  constructor
  · intro h
    refine ⟨⟨by simp, by simp, by simp, h.free_nodup, h.free_lt, fun s hs _ => ?_,
      fun p s => ?_⟩, h.tables⟩
    · rcases h.slot s hs with ⟨hf, ho⟩ | ⟨hf, p, ho, -⟩
      · exact ⟨fun _ => ho, fun _ => hf⟩
      · exact ⟨fun hf' => absurd hf' hf, fun ho' => by simp [Tier.book, ho] at ho'⟩
    · constructor
      · intro hp
        exact ⟨(h.mapped p s hp).1, by simp, (h.mapped p s hp).2.1⟩
      · rintro ⟨hs, -, ho⟩
        rcases h.slot s hs with ⟨-, ho'⟩ | ⟨-, q, hq, hm, -⟩
        · exact absurd ho (by simp [Tier.book, ho'])
        · have hqp : q = p := Option.some.inj (hq.symm.trans ho)
          exact hqp ▸ hm
  · rintro ⟨hc, htab⟩
    have hmapped : ∀ p s, t.mirror p = some s ↔ s < cfg.nSlots ∧ t.owner s = some p :=
      fun p s => by simpa [Tier.book] using hc.place_iff p s
    refine ⟨hc.free_nodup, hc.free_lt, fun s hs => ?_, fun p s hp => ?_, htab,
      fun p q s hp hq => hc.place_inj hp hq, fun p s r hs hr hos hor => ?_⟩
    · have hfree : s ∈ t.free ↔ t.owner s = none := hc.free_iff s hs (by simp)
      rcases ho : t.owner s with _ | p
      · exact .inl ⟨hfree.mpr ho, rfl⟩
      · have hm := (hmapped p s).mpr ⟨hs, ho⟩
        exact .inr ⟨by simp [hfree, ho], p, rfl, hm, htab ▸ hm⟩
    · exact ⟨((hmapped p s).mp hp).1, ((hmapped p s).mp hp).2, htab ▸ hp⟩
    · have h1 := (hmapped p s).mpr ⟨hs, hos⟩
      rw [(hmapped p r).mpr ⟨hr, hor⟩] at h1
      exact (Option.some.inj h1).symm

/-- Only the books and the tables count. -/
theorem SlotsOk.congr {t' : Tier} (h : SlotsOk cfg t) (hbook : t'.book = t.book)
    (htable : t'.slotTable = t.slotTable) : SlotsOk cfg t' := by
  obtain ⟨hc, htab⟩ := slotsOk_iff.mp h
  have hmirror : t'.mirror = t.mirror := congrArg SlotMap.place hbook
  exact slotsOk_iff.mpr ⟨hbook ▸ hc, by rw [htable, htab, hmirror]⟩

/-- A new tier. -/
theorem slotsOk_init (cfg : Config) : SlotsOk cfg (Tier.init cfg) := by
  refine slotsOk_iff.mpr ⟨⟨by simp, by simp, by simp, ?_, ?_, ?_, ?_⟩, rfl⟩
  · simpa [Tier.book, Tier.init] using List.nodup_range
  · simp [Tier.book, Tier.init]
  · intro s hs _
    simpa [Tier.book, Tier.init] using hs
  · simp [Tier.book, Tier.init]

/-- The slots of a plan are the slots taken for it. -/
theorem plan_slots {keys : List Pair} {out : List ℕ} (h : out.length ≤ keys.length) :
    (keys.zip out).map Prod.snd = out :=
  List.map_snd_zip h

/-- The pairs of a plan are the first of those it was made for. -/
theorem plan_keys (keys : List Pair) (out : List ℕ) :
    (keys.zip out).map Prod.fst = keys.take out.length := by
  induction keys generalizing out with
  | nil => simp
  | cons p keys ih =>
    cases out with
    | nil => simp
    | cons s out => simp [ih]

end Books

section Fetches

variable {cfg : Config} {t t' : Tier} {keys : List Pair} {out : List ℕ}

/-- The slots that a take lent out are filled by distinct pairs without a slot. -/
theorem Took.assign (h : Took cfg t keys.length out t')
    (hkeys : (keys.take out.length).Nodup) (hnew : ∀ p ∈ keys, t.mirror p = none) :
    (t'.book.assign (keys.zip out)).Consistent cfg.nSlots := by
  have hlent : t'.book.Lent cfg.nSlots ((keys.zip out).map Prod.snd ++ []) := by
    rw [plan_slots h.length_le, List.append_nil]
    exact h.lent
  exact hlent.assign (by rwa [plan_keys]) fun e he =>
    h.unmapped _ (hnew _ (List.of_mem_zip he).1)

/-- A fetch that does not fail, of distinct pairs without a slot. -/
theorem Took.fetchPlan (h : Took cfg t keys.length out t')
    (hkeys : (keys.take out.length).Nodup) (hnew : ∀ p ∈ keys, t.mirror p = none) (pin : Pin) :
    SlotsOk cfg (fetchPlan t' pin (keys.zip out) none).1 := by
  refine slotsOk_iff.mpr ⟨?_, ?_⟩
  · have hbook : (Delta.fetchPlan t' pin (keys.zip out) none).1.book =
        t'.book.assign (keys.zip out) := by
      cases pin <;> rfl
    rw [hbook]
    exact h.assign hkeys hnew
  · cases pin <;>
      simp only [Delta.fetchPlan, Tier.pin, Tier.bumpFreq, Tier.mapMirror, Tier.mapTable,
        Tier.copyRows, Tier.pinStep, Tier.pinLayer, Tier.reserve, h.tables]

/-- Nothing was taken, so nothing was changed that counts. -/
theorem Took.of_plan_nil (h : Took cfg t keys.length out t') (hplan : keys.zip out = []) :
    SlotsOk cfg t' := by
  have hout : out = [] := by
    rcases List.zip_eq_nil_iff.mp hplan with hk | ho
    · exact List.eq_nil_of_length_eq_zero (Nat.le_zero.mp (by simpa [hk] using h.length_le))
    · exact ho
  subst hout
  exact slotsOk_iff.mpr ⟨h.lent, h.tables⟩

/-! ### The rollback of `_promote_batch` -/

/-- Rolling back gives the slots back. -/
theorem rollBack_book (t : Tier) (plan : List (Pair × ℕ)) :
    (rollBack t plan).book = t.book.giveBack plan := by
  induction plan generalizing t with
  | nil => rfl
  | cons e plan ih => exact ih _

/-- Rolling back unmaps the pairs of the plan in both tables and leaves the others. -/
theorem rollBack_tables (t : Tier) (plan : List (Pair × ℕ)) (p : Pair) :
    (rollBack t plan).slotTable p =
        (if p ∈ plan.map Prod.fst then none else t.slotTable p) ∧
      (rollBack t plan).mirror p =
        (if p ∈ plan.map Prod.fst then none else t.mirror p) := by
  induction plan generalizing t with
  | nil => simp [rollBack]
  | cons e plan ih =>
    refine ⟨(ih _).1.trans ?_, (ih _).2.trans ?_⟩ <;>
      by_cases hp : p ∈ plan.map Prod.fst <;> by_cases he : p = e.1 <;> simp [hp, he]

/-- A rollback of the whole plan, however much of it was mapped for the kernels. -/
theorem Took.rollBack (h : Took cfg t keys.length out t') (hnew : ∀ p ∈ keys, t.mirror p = none)
    {t'' : Tier} (hbook : t''.book = t'.book)
    (htable : ∀ p, p ∉ (keys.zip out).map Prod.fst → t''.slotTable p = t'.slotTable p) :
    SlotsOk cfg (rollBack t'' (keys.zip out)) := by
  have hmirror : t''.mirror = t'.mirror := congrArg SlotMap.place hbook
  refine slotsOk_iff.mpr ⟨?_, funext fun p => ?_⟩
  · have hlent : t'.book.Lent cfg.nSlots ((keys.zip out).map Prod.snd ++ []) := by
      rw [plan_slots h.length_le, List.append_nil]
      exact h.lent
    rw [rollBack_book, hbook]
    exact hlent.giveBack fun e he => h.unmapped _ (hnew _ (List.of_mem_zip he).1)
  · rw [(rollBack_tables _ _ p).1, (rollBack_tables _ _ p).2]
    split
    · rfl
    · next hp => rw [htable p hp, h.tables, hmirror]

end Fetches

/-! ### The operations -/

section Operations

variable {cfg : Config} {T : TopK} {v : View} {t : Tier}

theorem nodup_nonzero (cfg : Config) (cnt : Pair → ℕ) : (nonzero cfg cnt).Nodup :=
  (List.nodup_range.product List.nodup_range).filter _

/-- Promotion by the manager, however it ends. -/
theorem SlotsOk.promoteBatch (h : SlotsOk cfg t) {candidates : List Pair}
    (hcand : candidates.Nodup) (hnew : ∀ p ∈ candidates, t.mirror p = none)
    (fault : Option Fault) : SlotsOk cfg (promoteBatch cfg T v t candidates fault).1 := by
  obtain ⟨hbook, htab⟩ := slotsOk_iff.mp h
  have took := takeSlotsBatch_took (T := T) (v := v) hbook htab candidates.length false 2 none
    false
  rw [Delta.promoteBatch]
  split
  · exact h
  · next hne =>
    dsimp only
    split
    · next hplan => exact took.of_plan_nil hplan
    · match fault with
      | none =>
        refine slotsOk_iff.mpr ⟨took.assign (hcand.sublist (List.take_sublist _ _)) hnew, ?_⟩
        simp only [Tier.reserve, Tier.mapMirror, Tier.mapTable, Tier.copyRows, took.tables]
      | some .read => exact took.rollBack hnew rfl fun _ _ => rfl
      | some (.copy done) =>
        refine took.rollBack hnew rfl fun p hp => ?_
        -- what was mapped before the copy raised is part of the plan
        refine scatter_of_not_mem fun hmem => hp ?_
        simp only [List.map_map, List.mem_map, Function.comp_apply] at hmem ⊢
        obtain ⟨e, he, rfl⟩ := hmem
        exact ⟨e, List.mem_of_mem_take he, rfl⟩

/-- The candidates of a manager pass are distinct and have no slot. -/
theorem tickCandidates_spec (t : Tier) {seen : List Pair} (hseen : seen.Nodup) :
    (tickCandidates cfg T v t seen).Nodup ∧
      ∀ p ∈ tickCandidates cfg T v t seen, t.mirror p = none := by
  have hgood : ∀ l : List Pair, (l.Nodup ∧ ∀ p ∈ l, t.mirror p = none) →
      ∀ l' : List Pair, l'.Sublist l → l'.Nodup ∧ ∀ p ∈ l', t.mirror p = none :=
    fun l hl l' hsub => ⟨hl.1.sublist hsub, fun p hp => hl.2 p (hsub.subset hp)⟩
  have h1 : (seen.filter fun p => (t.mirror p).isNone && cfg.inStore p.1).Nodup ∧
      ∀ p ∈ seen.filter fun p => (t.mirror p).isNone && cfg.inStore p.1, t.mirror p = none :=
    ⟨hseen.filter _, fun p hp => by simp_all⟩
  have h2 : ∀ l : List Pair, (l.Nodup ∧ ∀ p ∈ l, t.mirror p = none) →
      (if cfg.policy = .freq then T.argsort t.freq l else l).Nodup ∧
        ∀ p ∈ (if cfg.policy = .freq then T.argsort t.freq l else l), t.mirror p = none := by
    intro l hl
    split
    · have hperm := T.argsort_perm t.freq l
      exact ⟨hperm.nodup_iff.mpr hl.1, fun p hp => hl.2 p (hperm.mem_iff.mp hp)⟩
    · exact hl
  rw [tickCandidates]
  refine hgood _ ?_ _ (List.take_sublist _ _)
  split
  · split
    · exact h2 _ h1
    · exact hgood _ (h2 _ h1) _ List.filter_sublist
  · exact h2 _ h1

/-- A manager pass, however it ends. -/
theorem SlotsOk.tickLocked (h : SlotsOk cfg t) (cnt : Pair → ℕ) (decay : Option ℚ)
    (fault : Option Fault) : SlotsOk cfg (tickLocked cfg T v t cnt decay fault).1 := by
  rw [Delta.tickLocked]
  dsimp only
  split
  · exact h
  · generalize ht : noteRouted t (nonzero cfg cnt) cnt = t₁
    have hstats : SlotsOk cfg t₁ := ht ▸ h.congr rfl rfl
    have hcand : (tickCandidates cfg T v t₁ (nonzero cfg cnt)).Nodup ∧
        ∀ p ∈ tickCandidates cfg T v t₁ (nonzero cfg cnt), t₁.mirror p = none :=
      tickCandidates_spec t₁ (nodup_nonzero cfg cnt)
    have hr : SlotsOk cfg (if cfg.policy ≠ .need ∧ ¬ t₁.frozen then
        Delta.promoteBatch cfg T v t₁ (tickCandidates cfg T v t₁ (nonzero cfg cnt)) fault
        else (t₁, .returned 0)).1 := by
      split
      · exact hstats.promoteBatch hcand.1 hcand.2 fault
      · exact hstats
    -- the decay does not touch the books
    split
    · exact hr.congr rfl rfl
    · exact hr

/-- The pairs that `prefetch_pairs` makes a plan for: the cold ones, as many as there are free
or cold slots. -/
def plannedPairs (cfg : Config) (v : View) (t : Tier) (pairs : List Pair) (coldTicks : ℕ) :
    List Pair :=
  (pairs.filter fun p => (t.mirror p).isNone && cfg.inStore p.1).take
    (t.free.length + (coldSlots cfg v t (max coldTicks 2)).length)

/-- A prefetch that does not fail and plans no pair twice. -/
theorem SlotsOk.prefetchPairs (h : SlotsOk cfg t) {pairs : List Pair} {coldTicks : ℕ}
    (hpairs : (plannedPairs cfg v t pairs coldTicks).Nodup) :
    SlotsOk cfg (prefetchPairs cfg T v t pairs coldTicks none).1 := by
  obtain ⟨hbook, htab⟩ := slotsOk_iff.mp h
  rw [Delta.prefetchPairs]
  dsimp only
  split
  · exact h
  · split
    · exact h
    · split
      · exact h
      · next hne =>
        have took := takeSlotsBatch_took (T := T) (v := v) hbook htab
          (pairs.filter fun p => (t.mirror p).isNone && cfg.inStore p.1).length false
          (max coldTicks 2) none false
        split
        · next hplan => exact took.of_plan_nil hplan
        · refine took.fetchPlan ?_ (fun p hp => by simp_all) .step
          rw [takeSlotsBatch_length, Nat.min_comm, ← List.take_eq_take_min]
          exact hpairs

/-- The cap keeps a front of the reordered candidates. -/
theorem capped_argsort (T : TopK) (key : Pair → ℚ) {cand : List Pair} (hnodup : cand.Nodup)
    (cap : Option ℕ) :
    ((cap.map (T.argsort key cand).take).getD (T.argsort key cand)).Nodup ∧
      ∀ p ∈ (cap.map (T.argsort key cand).take).getD (T.argsort key cand), p ∈ cand := by
  have hperm := T.argsort_perm key cand
  have hsub : ((cap.map (T.argsort key cand).take).getD (T.argsort key cand)).Sublist
      (T.argsort key cand) := by
    cases cap with
    | none => exact List.Sublist.refl _
    | some n => exact List.take_sublist _ _
  exact ⟨(hperm.nodup_iff.mpr hnodup).sublist hsub,
    fun p hp => hperm.mem_iff.mp (hsub.subset hp)⟩

/-- A forced promotion that does not fail. -/
theorem SlotsOk.forcePromote (h : SlotsOk cfg t) (layers : Option (List ℕ))
    (maxPromote : Option ℕ) (pin : Bool) (weights : Option (Pair → ℚ)) :
    SlotsOk cfg (forcePromote cfg T v t layers maxPromote pin weights none).1 := by
  rw [Delta.forcePromote]
  dsimp only
  split
  · exact h
  · split
    · exact h
    · generalize ht : (if pin = true then _ else _ : Tier).bumpNeed _ = t₁
      have h₁ : SlotsOk cfg t₁ := by
        rw [← ht]
        cases pin <;> exact h.congr rfl rfl
      obtain ⟨hbook, htab⟩ := slotsOk_iff.mp h₁
      split
      · exact h₁
      · next hcand =>
        generalize hc : (nonzero cfg v.seenHost).filter _ = cand at hcand ⊢
        have hnodup : cand.Nodup := hc ▸ (nodup_nonzero cfg _).filter _
        have hnew : ∀ p ∈ cand, t₁.mirror p = none := fun p hp => by
          rw [← hc, List.mem_filter] at hp
          simp only [Bool.and_eq_true, Option.isNone_iff_eq_none] at hp
          exact hp.2.1.2
        obtain ⟨hkeys, hsub⟩ := capped_argsort T (forceKey cfg t₁ weights) hnodup maxPromote
        generalize (maxPromote.map (T.argsort (forceKey cfg t₁ weights) cand).take).getD
          (T.argsort (forceKey cfg t₁ weights) cand) = keys at hkeys hsub ⊢
        have took := takeSlotsBatch_took (T := T) (v := v) hbook htab keys.length true 2 none false
        split
        · next hplan => exact took.of_plan_nil hplan
        · refine took.fetchPlan ?_ (fun p hp => hnew p (hsub p hp)) _
          exact hkeys.sublist (List.take_sublist _ _)

/-- The first half of `ensure_resident` changes pins and ticks only. -/
theorem SlotsOk.ensureScan (h : SlotsOk cfg t) (layer : ℕ) (ids : List ℕ) :
    SlotsOk cfg (ensureScan cfg t layer ids).1 := by
  rw [Delta.ensureScan]
  split
  · exact h
  · exact h.congr rfl rfl

/-- The candidates of `ensure_resident` are distinct. -/
theorem nodup_ensureScan (layer : ℕ) (ids : List ℕ) : (ensureScan cfg t layer ids).2.Nodup := by
  rw [Delta.ensureScan]
  split
  · exact List.nodup_nil
  · refine ((List.nodup_range.filter _).map ?_).filter _
    exact fun e e' heq => (Prod.mk.inj heq).2

/-- The second half of `ensure_resident`, when it does not fail. -/
theorem SlotsOk.ensureFetch (h : SlotsOk cfg t) {cand : List Pair} (hcand : cand.Nodup) :
    SlotsOk cfg (ensureFetch cfg T v t cand none).1 := by
  obtain ⟨hbook, htab⟩ := slotsOk_iff.mp h
  rw [Delta.ensureFetch]
  dsimp only
  split
  · exact h
  · next hne =>
    have took := takeSlotsBatch_took (T := T) (v := v) hbook htab
      (cand.filter fun p => (t.mirror p).isNone).length cfg.base 2 none (!cfg.base)
    split
    · next hplan => exact took.of_plan_nil hplan
    · exact took.fetchPlan ((hcand.filter _).sublist (List.take_sublist _ _))
        (fun p hp => by simp_all) .layer

end Operations

/-! ### Runs -/

/-- The tier, and the pairs that a call of `ensure_resident` is about to fetch. -/
structure DeltaState where
  tier : Tier
  fetching : List Pair

/-- The critical sections of the tier's operations. `promote` is the locked part of a manager
pass. -/
inductive Op
  | tick
  | promote (v : View) (cnt : Pair → ℕ) (decay : Option ℚ) (fault : Option Fault)
  | prefetch (v : View) (pairs : List Pair) (coldTicks : ℕ) (fault : Option Fault)
  | force (v : View) (layers : Option (List ℕ)) (maxPromote : Option ℕ) (pin : Bool)
      (weights : Option (Pair → ℚ)) (fault : Option Fault)
  | ensureScan (layer : ℕ) (ids : List ℕ)
  | ensureFetch (v : View) (fault : Option Fault)
  | stepBegin
  | stepEnd

section System

variable (cfg : Config) (T : TopK)

/-- One operation. The callers either swallow an exception or pass it on: the tier is left as
the operation left it. -/
def opStep (s : DeltaState) : Op → Option DeltaState
  | .tick => some { s with tier := { s.tier with tick := s.tier.tick + 1 } }
  | .promote v cnt decay fault =>
    some { s with tier := (tickLocked cfg T v s.tier cnt decay fault).1 }
  | .prefetch v pairs coldTicks fault =>
    some { s with tier := (prefetchPairs cfg T v s.tier pairs coldTicks fault).1 }
  | .force v layers maxPromote pin weights fault =>
    some { s with tier := (forcePromote cfg T v s.tier layers maxPromote pin weights fault).1 }
  | .ensureScan layer ids =>
    some ⟨(ensureScan cfg s.tier layer ids).1, (ensureScan cfg s.tier layer ids).2⟩
  | .ensureFetch v fault =>
    some ⟨(ensureFetch cfg T v s.tier s.fetching fault).1, []⟩
  | .stepBegin => some { s with tier := clearPins s.tier }
  | .stepEnd => some { s with tier := clearPins s.tier }

/-- A tier starts empty. -/
def DeltaStart (s : DeltaState) : Prop :=
  s = ⟨Tier.init cfg, []⟩

/-- All runs of the operations on one tier. -/
def deltaSystem : TransitionSystem DeltaState Op :=
  .ofStep (DeltaStart cfg) (opStep cfg T)

/-- No read or copy of a prefetch, of a forced promotion or of `ensure_resident` fails, and no
prefetch plans a pair twice. -/
def Careful (s : DeltaState) : Op → Prop
  | .prefetch v pairs coldTicks fault =>
    fault = none ∧ (plannedPairs cfg v s.tier pairs coldTicks).Nodup
  | .force _ _ _ _ _ fault => fault = none
  | .ensureFetch _ fault => fault = none
  | _ => True

instance (s : DeltaState) : (op : Op) → Decidable (Careful cfg s op)
  | .prefetch v pairs coldTicks fault => inferInstanceAs
      (Decidable (fault = none ∧ (plannedPairs cfg v s.tier pairs coldTicks).Nodup))
  | .force _ _ _ _ _ fault => inferInstanceAs (Decidable (fault = none))
  | .ensureFetch _ fault => inferInstanceAs (Decidable (fault = none))
  | .tick | .promote .. | .ensureScan .. | .stepBegin | .stepEnd => .isTrue trivial

variable {cfg T}

/-- The promise, and the candidates of a call that is under way are distinct. -/
def StateOk (cfg : Config) (s : DeltaState) : Prop :=
  SlotsOk cfg s.tier ∧ s.fetching.Nodup

/-- One careful operation keeps the promise. -/
theorem StateOk.opStep {s s' : DeltaState} {op : Op} (h : StateOk cfg s)
    (hop : Careful cfg s op) (hstep : opStep cfg T s op = some s') : StateOk cfg s' := by
  obtain ⟨hslots, hfetch⟩ := h
  cases op with
  | tick =>
    obtain rfl := Option.some.inj hstep
    exact ⟨hslots.congr rfl rfl, hfetch⟩
  | promote v cnt decay fault =>
    obtain rfl := Option.some.inj hstep
    exact ⟨hslots.tickLocked cnt decay fault, hfetch⟩
  | prefetch v pairs coldTicks fault =>
    obtain rfl := Option.some.inj hstep
    obtain ⟨rfl, hnodup⟩ := hop
    exact ⟨hslots.prefetchPairs hnodup, hfetch⟩
  | force v layers maxPromote pin weights fault =>
    obtain rfl := Option.some.inj hstep
    obtain rfl : fault = none := hop
    exact ⟨hslots.forcePromote layers maxPromote pin weights, hfetch⟩
  | ensureScan layer ids =>
    obtain rfl := Option.some.inj hstep
    exact ⟨hslots.ensureScan layer ids, nodup_ensureScan layer ids⟩
  | ensureFetch v fault =>
    obtain rfl := Option.some.inj hstep
    obtain rfl : fault = none := hop
    exact ⟨hslots.ensureFetch hfetch, List.nodup_nil⟩
  | stepBegin =>
    obtain rfl := Option.some.inj hstep
    exact ⟨hslots.congr rfl rfl, hfetch⟩
  | stepEnd =>
    obtain rfl := Option.some.inj hstep
    exact ⟨hslots.congr rfl rfl, hfetch⟩

/-- The promise holds in every state of a run whose operations are all careful. -/
theorem reachable_slotsOk {s : DeltaState}
    (h : ((deltaSystem cfg T).onlySteps (Careful cfg)).Reachable s) : SlotsOk cfg s.tier := by
  have hinv : ((deltaSystem cfg T).onlySteps (Careful cfg)).Invariant (StateOk cfg) := by
    constructor
    · rintro s rfl
      exact ⟨slotsOk_init cfg, List.nodup_nil⟩
    · rintro s op s' - hs ⟨hop, hstep⟩
      exact hs.opStep hop hstep
  exact (hinv.holds h).1

end System

/-! ### A careful run, and one that loses a mapping -/

/-- Two slots, one layer of four experts, all of them in the store. -/
def smallTier : Config where
  nSlots := 2
  nLayers := 1
  nExperts := 4
  inStore l := decide (l < 1)
  policy := .freq
  base := true
  promotePerTick := 8
  promoHyst := 0

theorem start_smallTier : DeltaStart smallTier ⟨Tier.init smallTier, []⟩ :=
  rfl

/-- Nothing was routed. -/
def quiet : View :=
  ⟨fun _ => 0, fun _ => false⟩

/-- Expert `e` of the layer was routed twenty times. -/
def routed (e : ℕ) : Pair → ℕ :=
  fun p => if p = (0, e) then 20 else 0

/-- Along a careful run a manager pass, a failed one, and both halves of `ensure_resident`
leave the books in order. -/
theorem reachable_slotsOk_small :
    ∃ s, ((deltaSystem smallTier TopK.sorted).onlySteps (Careful smallTier)).Reachable s ∧
      decide (s.tier.mirror (0, 2) = some 0 ∧ s.tier.mirror (0, 0) = some 1) = true ∧
        SlotsOk smallTier s.tier := by
  obtain ⟨s, hs, hP⟩ := TransitionSystem.exists_reachable_of_replay
    (opStep smallTier TopK.sorted) (Careful smallTier) start_smallTier
    [.prefetch quiet [(0, 0)] 0 none, .stepEnd, .tick,
      .promote ⟨routed 1, fun _ => false⟩ (routed 1) none (some (.copy 1)),
      .stepBegin, .ensureScan 0 [2, 0], .ensureFetch quiet none]
    (fun s => decide (s.tier.mirror (0, 2) = some 0 ∧ s.tier.mirror (0, 0) = some 1))
    (by decide +kernel)
  exact ⟨s, hs, hP, reachable_slotsOk hs⟩

/-- A prefetch for expert 2 evicts expert 0 and then cannot read its row. The slot keeps the
stale owner: expert 0 is promoted into the other slot, and the next eviction, which takes the
stale slot, unmaps it there. -/
theorem prefetch_fault_unmaps :
    ∃ s, (deltaSystem smallTier TopK.sorted).Reachable s ∧ ¬ SlotsOk smallTier s.tier := by
  obtain ⟨s, hs, hP⟩ := TransitionSystem.exists_reachable_of_run
    (opStep smallTier TopK.sorted) start_smallTier
    [.prefetch quiet [(0, 0), (0, 1)] 0 none, .promote quiet (routed 1) none none, .stepEnd,
      .tick, .tick, .prefetch quiet [(0, 2)] 0 (some .read),
      .promote ⟨routed 0, fun _ => false⟩ (routed 0) none none,
      .prefetch quiet [(0, 3)] 0 none]
    (fun s => decide (s.tier.owner 0 = some (0, 0) ∧ s.tier.pool 0 = some (0, 0) ∧
      s.tier.mirror (0, 0) = none))
    (by decide +kernel)
  obtain ⟨hown, -, hmirror⟩ := of_decide_eq_true hP
  refine ⟨s, hs, fun hok => ?_⟩
  rcases hok.slot 0 (by decide) with ⟨-, hnone⟩ | ⟨-, p, hp, hm, -⟩
  · simp [hown] at hnone
  · rw [hown] at hp
    rw [← Option.some.inj hp, hmirror] at hm
    simp at hm

end VllmMoet.Delta
