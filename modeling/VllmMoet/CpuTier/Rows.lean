import VllmMoet.CpuTier.Memory
import VllmMoet.CpuTier.Capacity

/-!
# The index of records and the memory

What a step of the tier does to the index of records (`IndexStep`), and that every registered
address holds its expert's record in every state of a run that begins its requests cleanly
(`IndexOk`): a read only writes slots that nobody is registered in, and a slot is registered
when its read has completed.
-/

namespace VllmMoet

namespace CpuTier

variable {B A Y : Type*} {K : Store B A Y} {c : Config} {T T' T₁ T₂ T₃ : Tier} {F : Frame}
  {D D' : Dispatcher} {S S' : Sys} {ns : ℕ → List ℕ} {tg : List ℕ} {l e s : ℕ}
  {ins ins' : ℕ → ℕ → ℕ → Prop} {mem : ℕ → B}

/-! ### What happens to an entry of the index -/

/-- What a step may do to the entry of an expert: leave it, evict the expert's record, or
register the record in a slot. -/
inductive EntryStep (T T' : Tier) (ins : ℕ → ℕ → ℕ → Prop) (l e : ℕ) : Prop
  | same (slotOf : (T'.layers l).slotOf e = (T.layers l).slotOf e)
      (records : (T'.layers l).records e = (T.layers l).records e)
  | evicted (v : ℕ) (was : (T.layers l).slotOf e = some v)
      (slotOf : (T'.layers l).slotOf e = none) (records : (T'.layers l).records e = none)
  | inserted (s : ℕ) (ins : ins l e s) (was : (T.layers l).slotOf e = none)
      (slotOf : (T'.layers l).slotOf e = some s)
      (records : (T'.layers l).records e = some (T.tail.addr s))

/-- What a step does to the index; `ins` are the records it may register. -/
structure IndexStep (T T' : Tier) (ins : ℕ → ℕ → ℕ → Prop) : Prop where
  config : T'.config = T.config
  entry : ∀ l e, EntryStep T T' ins l e

theorem IndexStep.refl (T : Tier) : IndexStep T T ins := ⟨rfl, fun _ _ => .same rfl rfl⟩

/-- A step that leaves the index alone is an index step. -/
theorem SameIndex.indexStep (h : SameIndex T T') : IndexStep T T' ins :=
  ⟨h.config, fun l e => .same (by rw [h.slotOf]) (by rw [h.records])⟩

theorem IndexStep.mono (h : IndexStep T T' ins) (hi : ∀ l e s, ins l e s → ins' l e s) :
    IndexStep T T' ins' := by
  refine ⟨h.config, fun l e => ?_⟩
  rcases h.entry l e with ⟨hs, hr⟩ | ⟨v, hw, hs, hr⟩ | ⟨s, hins, hw, hs, hr⟩
  · exact .same hs hr
  · exact .evicted v hw hs hr
  · exact .inserted s (hi l e s hins) hw hs hr

theorem addr_of_config (h : T'.config = T.config) (s : ℕ) : T'.tail.addr s = T.tail.addr s := by
  have : T'.tail.arena = T.tail.arena := congrArg Config.arena h
  rw [Tail.addr, Tail.addr, this]

/-- A step that registers nothing, before or after another one. -/
theorem IndexStep.then_same (h : IndexStep T₁ T₂ ins) (h' : SameIndex T₂ T₃) :
    IndexStep T₁ T₃ ins := by
  refine ⟨h'.config.trans h.config, fun l e => ?_⟩
  rcases h.entry l e with ⟨hs, hr⟩ | ⟨v, hw, hs, hr⟩ | ⟨s, hins, hw, hs, hr⟩
  · exact .same (by rw [h'.slotOf, hs]) (by rw [h'.records, hr])
  · exact .evicted v hw (by rw [h'.slotOf, hs]) (by rw [h'.records, hr])
  · exact .inserted s hins hw (by rw [h'.slotOf, hs]) (by rw [h'.records, hr])

/-- An index step after one that leaves the index alone. -/
theorem SameIndex.then (h : SameIndex T₁ T₂) (h' : IndexStep T₂ T₃ ins) :
    IndexStep T₁ T₃ ins := by
  refine ⟨h'.config.trans h.config, fun l e => ?_⟩
  rcases h'.entry l e with ⟨hs, hr⟩ | ⟨v, hw, hs, hr⟩ | ⟨s, hins, hw, hs, hr⟩
  · exact .same (by rw [hs, h.slotOf]) (by rw [hr, h.records])
  · exact .evicted v (by rw [← h.slotOf, hw]) hs hr
  · exact .inserted s hins (by rw [← h.slotOf, hw]) hs (by rw [hr, addr_of_config h.config])

/-- No record is registered. -/
def NoInsert (_ _ _ : ℕ) : Prop := False

/-- Two steps that make nothing resident. -/
theorem IndexStep.trans (h : IndexStep T₁ T₂ NoInsert) (h' : IndexStep T₂ T₃ NoInsert) :
    IndexStep T₁ T₃ NoInsert := by
  refine ⟨h'.config.trans h.config, fun l e => ?_⟩
  rcases h.entry l e with ⟨hs, hr⟩ | ⟨v, hw, hs, hr⟩ | ⟨_, hins, -⟩
  · rcases h'.entry l e with ⟨hs', hr'⟩ | ⟨v, hw', hs', hr'⟩ | ⟨_, hins, -⟩
    · exact .same (hs'.trans hs) (hr'.trans hr)
    · exact .evicted v (hs.symm.trans hw') hs' hr'
    · exact hins.elim
  · rcases h'.entry l e with ⟨hs', hr'⟩ | ⟨v', hw', -⟩ | ⟨_, hins, -⟩
    · exact .evicted v hw (hs'.trans hs) (hr'.trans hr)
    · rw [hs] at hw'
      simp at hw'
    · exact hins.elim
  · exact hins.elim

/-! ### The tier's operations -/

theorem sameIndex_of_layers (hc : T'.config = T.config) (h : T'.layers = T.layers) :
    SameIndex T T' := ⟨hc, fun l => by rw [h], fun l => by rw [h]⟩

/-- An eviction removes the entry of the expert in the slot. -/
theorem ArenaOk.indexStep_evict (h : ArenaOk T ns tg) (hl : l < T.nLayers) {v : ℕ}
    (hv : v ∈ ns l) : IndexStep T (lruEvict T l v) NoInsert := by
  obtain ⟨e₀, he₀⟩ := ((h.layer l hl).mem v).mp hv
  have hexp := ((h.layer l hl).node e₀ v he₀).1
  refine ⟨config_lruEvict T l v, fun l' e => ?_⟩
  rcases eq_or_ne l' l with rfl | hne
  · rcases eq_or_ne e e₀ with rfl | hee
    · refine .evicted v he₀ ?_ ?_
      · simp [lruEvict, lruForget, lruUnlink, Tier.pushFree, hexp]
      · simp [lruEvict, lruForget, lruUnlink, Tier.pushFree, hexp]
    · refine .same ?_ ?_
      · simp [lruEvict, lruForget, lruUnlink, Tier.pushFree, hexp, hee]
      · simp [lruEvict, lruForget, lruUnlink, Tier.pushFree, hexp, hee]
  · refine .same ?_ ?_
    · simp [lruEvict, lruForget, lruUnlink, Tier.pushFree, hne]
    · simp [lruEvict, lruForget, lruUnlink, Tier.pushFree, hne]

/-- A trim makes nothing resident. -/
theorem ArenaOk.indexStep_trimLoop (h : ArenaOk T ns tg) (hl : l < T.nLayers) (fuel : ℕ) :
    IndexStep T (lruTrimLoop fuel T l) NoInsert := by
  induction fuel generalizing T ns with
  | zero => exact IndexStep.refl T
  | succ fuel ih =>
    rw [lruTrimLoop]
    split
    · cases hv : lruVictim T l with
      | none => exact IndexStep.refl T
      | some v =>
        rw [h.victim_eq hl] at hv
        have hmem := List.mem_of_find?_eq_some hv
        exact (h.indexStep_evict hl hmem).trans (ih (h.evict hl hmem) hl)
    · exact IndexStep.refl T

theorem ArenaOk.indexStep_trim (h : ArenaOk T ns tg) (hl : l < T.nLayers) :
    IndexStep T (lruTrim T l) NoInsert :=
  h.indexStep_trimLoop hl _

/-- An insertion registers the record, and may evict others. -/
theorem ArenaOk.indexStep_insert (h : ArenaOk T ns (s :: tg)) (hl : l < T.nLayers) (e : ℕ) :
    IndexStep T (lruInsert T l e s) fun l' e' s' => l' = l ∧ e' = e ∧ s' = s := by
  cases he : (T.layers l).slotOf e with
  | some x =>
    have hfree : SameIndex T (T.pushFree s) := sameIndex_of_layers rfl rfl
    simp only [lruInsert, he]
    exact hfree.indexStep
  | none =>
    have hkeep := h.insert hl e
    simp only [lruInsert, he] at hkeep ⊢
    obtain ⟨-, -, -, -, -, hcfg, x, hx⟩ := hkeep
    set T₁ := lruPushTail (lruAssign T l e s) l s with hT₁
    have ha := h.assign hl he
    have htrim := ha.indexStep_trim (l := l) hl
    refine ⟨hcfg, fun l' e' => ?_⟩
    have hset : ∀ T : Tier, (T.setPins s 0).layers = T.layers := fun _ => rfl
    rw [hset] at hx
    rcases Classical.em (l' = l ∧ e' = e) with ⟨rfl, rfl⟩ | hne
    · -- the inserter's pin keeps the record where it is
      have hslot : (T₁.layers l').slotOf e' = some s := by simp [hT₁, lruPushTail, lruAssign]
      have hrec : (T₁.layers l').records e' = some (T.tail.addr s) := by
        simp [hT₁, lruPushTail, lruAssign]
      rcases htrim.entry l' e' with ⟨hs, hr⟩ | ⟨v, -, hs, -⟩ | ⟨_, hins, -⟩
      · exact .inserted s ⟨rfl, rfl, rfl⟩ he (by rw [hset, hs, hslot]) (by rw [hset, hr, hrec])
      · rw [hs] at hx
        simp at hx
      · exact hins.elim
    · have hsame : (T₁.layers l').slotOf e' = (T.layers l').slotOf e' ∧
          (T₁.layers l').records e' = (T.layers l').records e' := by
        rcases eq_or_ne l' l with rfl | hll
        · have hee : e' ≠ e := fun hee => hne ⟨rfl, hee⟩
          simp [hT₁, lruPushTail, lruAssign, hee]
        · simp [hT₁, lruPushTail, lruAssign, hll]
      rcases htrim.entry l' e' with ⟨hs, hr⟩ | ⟨v, hw, hs, hr⟩ | ⟨_, hins, -⟩
      · exact .same (by rw [hset, hs, hsame.1]) (by rw [hset, hr, hsame.2])
      · exact .evicted v (hsame.1.symm.trans hw) (by rw [hset, hs]) (by rw [hset, hr])
      · exact hins.elim

/-! ### The system's steps -/

/-- The record a step registers: that of a full read that is reaped, or of a full read of an
acquiring call. -/
def Inserted (S : Sys) (a : Act) (l e s : ℕ) : Prop :=
  match a with
  | .run => S.disp.pc = .reap ∧ ∃ r cq, S.disp.ring.cq = (r, (recordBytes : ℤ)) :: cq ∧
      l = S.disp.frame.layer ∧ e = S.disp.frame.eid (S.disp.frame.coldIdx.getD r.ud 0) ∧
      s = S.disp.frame.slotOfCold.getD r.ud 0
  | .acquireRead i ok => ok = true ∧ ∃ h, S.acquiring[i]? = some h ∧ l = h.layer ∧ e = h.expert ∧
      s = h.slot
  | _ => False

theorem sameIndex_unpinAll (T : Tier) (ss : List ℕ) (hc : (unpinAll T ss).config = T.config) :
    SameIndex T (unpinAll T ss) := sameIndex_of_layers hc (layers_unpinAll T ss)

theorem sameIndex_pinUp (T : Tier) (s : ℕ) : SameIndex T (T.pinUp s) :=
  sameIndex_of_layers (config_pinUp T s) rfl

theorem sameIndex_pinDown (T : Tier) (s : ℕ) : SameIndex T (T.pinDown s) :=
  sameIndex_of_layers (config_pinDown T s) rfl

theorem sameIndex_pushFree (T : Tier) (s : ℕ) : SameIndex T (T.pushFree s) :=
  sameIndex_of_layers (config_pushFree T s) rfl

/-- The pins of a fetch are no part of the layers. -/
theorem layers_pinExperts (T : Tier) (l : ℕ) (xs : List ℤ) :
    (Sys.pinExperts T l xs).2.1.layers = T.layers := by
  induction xs generalizing T with
  | nil => rfl
  | cons x xs ih =>
    rw [Sys.pinExperts]
    split
    · rfl
    · split
      · exact ih _
      · split
        · exact ih T
        · rfl

theorem DispOk.indexStep_unpin {held : List ℕ} (h : DispOk c D held) (hpc : D.pc ≠ .idle)
    (next : Pc) : IndexStep D.tier (D.runUnpin next).tier ins := by
  obtain ⟨ns, ha⟩ := h.arena
  obtain ⟨ha', hc⟩ := ha.unpinAll D.frame.pinned
  have hl : D.frame.layer < (unpinAll D.tier D.frame.pinned).nLayers := by
    rw [nLayers_of_config hc]
    exact h.layer hpc
  exact ((sameIndex_unpinAll _ _ hc).then (ha'.indexStep_trim hl)).mono fun _ _ _ => False.elim

theorem sameIndex_runIssue (D : Dispatcher) (next : Pc) : SameIndex D.tier (D.runIssue next).tier := by
  obtain ⟨hl, -, hc, -, -⟩ := issueLoop_same (D.frame.nCold - D.frame.issued) D.tier D.ring D.frame
  exact sameIndex_of_layers hc hl

/-- A full read that is reaped is registered, unless its expert is resident. -/
theorem SysOk.indexStep_reap (h : SysOk c S) (hpc : S.disp.pc = .reap) :
    IndexStep S.tier S.disp.runReap.tier (Inserted S .run) := by
  have hok := h.disp
  rw [Dispatcher.runReap]
  split
  · exact IndexStep.refl _
  · next r res cq hcq =>
    simp only
    split
    · exact (sameIndex_pushFree _ _).indexStep
    · next hres =>
      obtain rfl : res = recordBytes := Classical.not_not.mp hres
      have hp := reads_pop hcq
      have htag := hok.tags r (hp.mem_iff.mpr (by simp))
      obtain ⟨ns, ha⟩ := hok.arena
      have ha : ArenaOk S.disp.tier ns (r.slot :: ({ S.disp.ring with cq := cq }.targets ++
          S.acquiring.map Held.slot)) :=
        ha.targets_perm ((hp.map Read.slot).append_right _)
      have hslot : S.disp.frame.slotOfCold.getD r.ud 0 = r.slot := by
        simp [List.getD_eq_getElem?_getD, htag]
      have hl := hok.layer (by rw [hpc]; decide)
      have hto : ∀ l e s, l = S.disp.frame.layer ∧
          e = S.disp.frame.eid (S.disp.frame.coldIdx.getD r.ud 0) ∧ s = r.slot →
            Inserted S .run l e s := by
        rintro l e s ⟨hl, he, hs⟩
        exact ⟨hpc, r, cq, hcq, hl, he, hs.trans hslot.symm⟩
      have hins := (ha.indexStep_insert hl
        (S.disp.frame.eid (S.disp.frame.coldIdx.getD r.ud 0))).mono hto
      rw [← hslot] at hins
      simp only [land]
      split
      · exact hins
      · exact hins.then_same (sameIndex_pinUp _ _)

/-- The dispatcher's own steps. -/
theorem SysOk.indexStep_run (h : SysOk c S) (hs : S.disp.run = some D') :
    IndexStep S.tier D'.tier (Inserted S .run) := by
  rw [Dispatcher.run] at hs
  cases hpc : S.disp.pc <;> simp only [hpc, reduceCtorEq, Option.some.injEq] at hs
  case group => exact hs ▸ (sameIndex_groupPairs _ 0 _ _).indexStep
  case issue => exact hs ▸ (sameIndex_runIssue _ _).indexStep
  case unpinResident => exact hs ▸ h.disp.indexStep_unpin (by rw [hpc]; decide) _
  case loop => exact hs ▸ IndexStep.refl _
  case issueIdle => exact hs ▸ (sameIndex_runIssue _ _).indexStep
  case wait => exact hs ▸ IndexStep.refl _
  case reap => exact hs ▸ h.indexStep_reap hpc
  case issueNext => exact hs ▸ (sameIndex_runIssue _ _).indexStep
  case unpinBatch =>
    subst hs
    split
    · exact IndexStep.refl _
    · exact h.disp.indexStep_unpin (by rw [hpc]; decide) _
  case drain =>
    rw [Dispatcher.runDrain] at hs
    split at hs
    · exact Option.some.inj hs ▸ IndexStep.refl _
    · split at hs
      · simp at hs
      · exact Option.some.inj hs ▸ (sameIndex_pushFree _ _).indexStep
  case unpinEnd =>
    subst hs
    split
    · exact h.disp.indexStep_unpin (by rw [hpc]; decide) _
    · exact IndexStep.refl _
  case ack => exact hs ▸ IndexStep.refl _

/-- What a step of the system does to the index. -/
theorem SysOk.indexStep (h : SysOk c S) {a : Act} (hs : S.step a = some S') :
    IndexStep S.tier S'.tier (Inserted S a) := by
  obtain ⟨ns, ha⟩ := h.disp.arena
  cases a with
  | serve l seq req =>
    obtain ⟨D, hD, rfl⟩ := Option.map_eq_some_iff.mp hs
    rw [Dispatcher.serve] at hD
    split at hD
    · exact Option.some.inj hD ▸ IndexStep.refl _
    · simp at hD
  | run =>
    obtain ⟨D, hD, rfl⟩ := Option.map_eq_some_iff.mp hs
    exact h.indexStep_run hD
  | kernel rc =>
    obtain ⟨D, hD, rfl⟩ := Option.map_eq_some_iff.mp hs
    rw [Dispatcher.kernel] at hD
    cases hpc : S.disp.pc <;> simp only [hpc, reduceCtorEq, Option.some.injEq] at hD
    all_goals exact hD ▸ IndexStep.refl _
  | submit r =>
    obtain ⟨D, hD, rfl⟩ := Option.map_eq_some_iff.mp hs
    rw [Dispatcher.submit] at hD
    split at hD
    · simp at hD
    · cases hpc : S.disp.pc <;> simp only [hpc, reduceCtorEq, Option.some.injEq] at hD
      all_goals exact hD ▸ IndexStep.refl _
  | complete i res =>
    obtain ⟨R, -, rfl⟩ := Option.map_eq_some_iff.mp hs
    exact IndexStep.refl _
  | acquire layer expert =>
    obtain rfl := Option.some.inj hs
    rw [Sys.acquire]
    split
    · split
      · split
        · exact (sameIndex_pinUp _ _).indexStep
        · split
          · next s fs _ _ =>
            have hfree : SameIndex S.tier (S.tier.setFree fs) := sameIndex_of_layers rfl rfl
            exact hfree.indexStep
          · exact IndexStep.refl _
      · exact IndexStep.refl _
    · exact IndexStep.refl _
  | acquireRead i ok =>
    obtain ⟨r, hr, rfl⟩ := Option.map_eq_some_iff.mp hs
    obtain ⟨ns', ha', hl⟩ := h.acquiring_arena hr
    split
    · next hok =>
      -- the only record that this step makes resident is the one that was read
      have hto : ∀ l e s, l = r.layer ∧ e = r.expert ∧ s = r.slot →
          Inserted S (.acquireRead i ok) l e s := fun l e s hle => ⟨hok, r, hr, hle⟩
      have hins := (ha'.indexStep_insert hl r.expert).mono hto
      simp only
      split
      · exact hins
      · exact hins.then_same (sameIndex_pinUp _ _)
    · exact (sameIndex_pushFree _ _).indexStep
  | release layer expert i =>
    obtain rfl := Option.some.inj hs
    rw [Sys.release]
    split
    · next l e hl he =>
      split
      · split
        · next s _ =>
          -- the trim after an unpin can only take records out of the index
          exact ((sameIndex_pinDown S.tier s).then
            ((ha.pinDown s).indexStep_trim (l := l) (lt_of_checked hl))).mono
              fun _ _ _ => False.elim
        · exact (ha.indexStep_trim (l := l) (lt_of_checked hl)).mono fun _ _ _ => False.elim
      · exact IndexStep.refl _
    · exact IndexStep.refl _
  | prefillFetch layer experts set =>
    obtain rfl := Option.some.inj hs
    rw [Sys.prefillFetch]
    split
    · next l k hl hk =>
      obtain ⟨-, hc⟩ := ha.pinExperts l experts
      have hsame : SameIndex S.tier (Sys.pinExperts S.tier l experts).2.1 :=
        sameIndex_of_layers hc (layers_pinExperts S.tier l experts)
      split
      · simp only
        split
        · exact hsame.indexStep
        · exact hsame.indexStep
      · exact IndexStep.refl _
    · exact IndexStep.refl _
  | prefillRead i ok =>
    obtain ⟨f, -, hs⟩ := Option.bind_eq_some_iff.mp hs
    split at hs
    · exact Option.some.inj hs ▸ IndexStep.refl _
    · split at hs
      · exact Option.some.inj hs ▸ IndexStep.refl _
      · simp at hs
  | prefillRelease layer experts i =>
    obtain rfl := Option.some.inj hs
    rw [Sys.prefillRelease]
    split
    · next l hl =>
      split
      · obtain ⟨ha', hc⟩ := ha.unpinExperts l experts
        have hsame : SameIndex S.tier (Sys.unpinExperts S.tier l experts) :=
          sameIndex_of_layers hc (unpinExperts_same S.tier l experts).1
        exact (hsame.then (ha'.indexStep_trim (l := l)
          ((nLayers_of_config hc).symm ▸ lt_of_checked hl))).mono fun _ _ _ => False.elim
      · exact IndexStep.refl _
    · exact IndexStep.refl _

/-! ### The registered records are in memory -/

theorem slotAt_of_config (h : T'.config = T.config) (p : ℕ) :
    T'.tail.slotAt p = T.tail.slotAt p := by
  have ha : T'.tail.arena = T.tail.arena := congrArg Config.arena h
  have hn : T'.tail.nSlots = T.tail.nSlots := congrArg Config.nSlots h
  simp only [Tail.slotAt, ha, hn]

/-- The address of a slot is found to be its own. -/
theorem slotAt_addr {X : Tail} (hs : s < X.nSlots) : X.slotAt (X.addr s) = some s := by
  have hoff : ((X.addr s : ℕ) : ℤ) - X.arena = s * recordBytes := by
    rw [Tail.addr]
    omega
  have hpos : (0 : ℤ) < recordBytes := by decide
  simp only [Tail.slotAt, hoff]
  rw [if_neg]
  · rw [Int.mul_ediv_cancel _ hpos.ne', Int.toNat_natCast]
  · rintro (h | h | h)
    · exact absurd h (not_lt.mpr (Int.mul_nonneg (Int.natCast_nonneg s) hpos.le))
    · exact h (Int.mul_emod_left _ _)
    · rw [Int.mul_ediv_cancel _ hpos.ne'] at h
      omega

theorem addr_inj {X : Tail} {s' : ℕ} (h : X.addr s = X.addr s') : s = s' := by
  simp only [Tail.addr, recordBytes] at h
  omega

/-- Every registered address holds the record of its expert; a registered record outside the
arena's slots stays what it is, and only experts of the store file are in slots. -/
structure IndexOk (K : Store B A Y) (T : Tier) (mem : ℕ → B) : Prop where
  bytes : ∀ l < T.nLayers, ∀ e p, (T.layers l).records e = some p → mem p = K.file l e
  static : ∀ l < T.nLayers, ∀ e p, (T.layers l).slotOf e = none →
    (T.layers l).records e = some p → T.tail.slotAt p = none
  cold : ∀ l < T.nLayers, ∀ e s, (T.layers l).slotOf e = some s → (T.layers l).cold e = true

/-- A step that registers only records that are in memory keeps the index. -/
theorem IndexOk.step (h : IndexOk K T mem) (hi : IndexStep T T' ins)
    (hins : ∀ l < T.nLayers, ∀ e s, ins l e s →
      mem (T.tail.addr s) = K.file l e ∧ (T.layers l).cold e = true) : IndexOk K T' mem := by
  have hn : T'.nLayers = T.nLayers := nLayers_of_config hi.config
  refine ⟨fun l hl e p hp => ?_, fun l hl e p hs hp => ?_, fun l hl e s hs => ?_⟩
  · rw [hn] at hl
    rcases hi.entry l e with ⟨hslot, hrec⟩ | ⟨v, -, -, hrec⟩ | ⟨s, hins', -, -, hrec⟩
    · exact h.bytes l hl e p (hrec.symm.trans hp)
    · rw [hrec] at hp
      simp at hp
    · rw [hrec] at hp
      rw [← Option.some.inj hp]
      exact (hins l hl e s hins').1
  · rw [hn] at hl
    rw [slotAt_of_config hi.config]
    rcases hi.entry l e with ⟨hslot, hrec⟩ | ⟨v, -, -, hrec⟩ | ⟨s, -, -, hslot, -⟩
    · exact h.static l hl e p (hslot.symm.trans hs) (hrec.symm.trans hp)
    · rw [hrec] at hp
      simp at hp
    · rw [hslot] at hs
      simp at hs
  · rw [hn] at hl
    rw [cold_of_config hi.config]
    rcases hi.entry l e with ⟨hslot, -⟩ | ⟨v, -, hslot, -⟩ | ⟨s, hins', -, -, -⟩
    · exact h.cold l hl e s (hslot.symm.trans hs)
    · rw [hslot] at hs
      simp at hs
    · exact (hins l hl e s hins').2

/-- A record is not registered at the address of a slot that is read into. -/
theorem IndexOk.ne_target (h : IndexOk K T mem) (ha : ArenaOk T ns tg) (hs : s ∈ tg) {p : ℕ}
    (hl : l < T.nLayers) (hp : (T.layers l).records e = some p) : p ≠ T.tail.addr s := by
  rintro rfl
  cases hslot : (T.layers l).slotOf e with
  | some s' =>
    have hrec := (ha.layer l hl).resident e s' hslot
    obtain rfl := addr_inj (Option.some.inj (hp.symm.trans hrec))
    exact ha.target_notMem hl hs (((ha.layer l hl).mem s).mpr ⟨e, hslot⟩)
  | none =>
    have hlt : s < T.tail.nSlots := List.mem_range.mp
      (ha.perm.mem_iff.mp (List.mem_append_right _ hs))
    have := h.static l hl e _ hslot hp
    rw [slotAt_addr hlt] at this
    simp at this

/-- Reading into a slot changes no registered record. -/
theorem IndexOk.write (h : IndexOk K T mem) (ha : ArenaOk T ns tg) (hs : s ∈ tg) (b : B) :
    IndexOk K T (Function.update mem (T.tail.addr s) b) where
  bytes l hl e p hp := by
    rw [Function.update_of_ne (h.ne_target ha hs hl hp)]
    exact h.bytes l hl e p hp
  static := h.static
  cold := h.cold

/-- An adopted expert can be fetched. -/
theorem cold_adoptOne (h : ∀ l e s, (T.layers l).slotOf e = some s → (T.layers l).cold e = true)
    (l e : ℕ) : ∀ l' e' s, ((adoptOne T l e).layers l').slotOf e' = some s →
      ((adoptOne T l e).layers l').cold e' = true := by
  intro l' e' s' hs'
  rw [adoptOne] at hs' ⊢
  split at hs'
  · exact h l' e' s' hs'
  · next s hs =>
    rcases eq_or_ne l' l with rfl | hne
    · rcases eq_or_ne e' e with rfl | hee
      · simp [lruPushTail]
      · simp only [lruPushTail, setLinks_layers, setLayer_layers, Function.update_self,
          Function.update_of_ne hee] at hs' ⊢
        exact h l' e' s' hs'
    · simp only [lruPushTail, setLinks_layers, setLayer_layers, setSlot_layers,
        Function.update_of_ne hne] at hs' ⊢
      exact h l' e' s' hs'

/-- A record that is adopted is marked as cold, so that it may be evicted and read again. -/
theorem cold_storeTailAdopt (hf : Fresh T) : ∀ l e s,
    ((storeTailAdopt T).layers l).slotOf e = some s →
      ((storeTailAdopt T).layers l).cold e = true := by
  have key : ∀ ps : List (ℕ × ℕ), ∀ T : Tier,
      (∀ l e s, (T.layers l).slotOf e = some s → (T.layers l).cold e = true) →
      ∀ l e s, ((ps.foldl (fun T' le => adoptOne T' le.1 le.2) T).layers l).slotOf e = some s →
        ((ps.foldl (fun T' le => adoptOne T' le.1 le.2) T).layers l).cold e = true := by
    intro ps
    induction ps with
    | nil => exact fun T h => h
    | cons le ps ih => exact fun T h => ih _ (cold_adoptOne h le.1 le.2)
  have h₀ : ∀ l e s, (T.layers l).slotOf e = some s → (T.layers l).cold e = true := by
    intro l e s hs
    rw [hf.slotOf] at hs
    simp at hs
  rw [storeTailAdopt]
  split
  · exact key _ T h₀
  · exact h₀

/-- A registered record that is not in a slot after the adoption is outside the slots. -/
theorem static_storeTailAdopt (hf : Fresh T) (hon : T.tail.on = true) (hd : DistinctArena T)
    {p : ℕ} (hs : ((storeTailAdopt T).layers l).slotOf e = none)
    (hp : ((storeTailAdopt T).layers l).records e = some p) :
    (storeTailAdopt T).tail.slotAt p = none := by
  obtain ⟨ns, h⟩ := adopted_foldl hf hd (nodup_pairs T) fun le hm => (mem_pairs.mp hm).1
  obtain ⟨-, -, ha, hk⟩ := h.config
  rw [storeTailAdopt, if_pos hon] at hs hp ⊢
  rw [setFree_layers] at hs hp
  rw [h.records] at hp
  have hat : ∀ q, ((T.pairs.foldl (fun T' le => adoptOne T' le.1 le.2) T).setFree
      ((List.range T.tail.nSlots).filter fun s => s ∉ T.used)).tail.slotAt q =
        T.tail.slotAt q := by
    intro q
    simp only [Tail.slotAt, setFree_tail, ha, hk]
  rw [hat]
  by_contra hne
  obtain ⟨s, hs'⟩ := Option.ne_none_iff_exists'.mp hne
  have hr : T.recordSlot l e = some s := by simp [Tier.recordSlot, hp, hs']
  rw [(h.slotOf l e s).mpr ⟨mem_pairs.mpr (hf.record_lt l e p hp), hr⟩] at hs
  simp at hs

/-- At the start every resident slot holds its record. -/
theorem indexOk_start {M : MemSys B A Y} (h : MemStart K M) : IndexOk K M.sys.tier M.mem := by
  obtain ⟨T, _, _, _, _, _, _, _, _, _, _, _, hT, hd, htier⟩ := h.start.tier
  obtain ⟨hf, hon⟩ := fresh_beforeAdopt hT
  refine ⟨h.bytes, fun l _ e p hs hp => ?_, fun l _ e s hs => ?_⟩
  · change (M.sys.disp.tier.layers l).slotOf e = none at hs
    change (M.sys.disp.tier.layers l).records e = some p at hp
    change M.sys.disp.tier.tail.slotAt p = none
    rw [htier] at hs hp ⊢
    exact static_storeTailAdopt hf hon hd hs hp
  · change (M.sys.disp.tier.layers l).slotOf e = some s at hs
    change (M.sys.disp.tier.layers l).cold e = true
    rw [htier] at hs ⊢
    exact cold_storeTailAdopt hf l e s hs

end CpuTier

end VllmMoet
