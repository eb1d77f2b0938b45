import Mathlib.Algebra.Group.Action.Defs
import Mathlib.Algebra.Order.BigOperators.Group.List
import Mathlib.Algebra.Order.Ring.Nat
import VllmMoet.CpuTier.Pins

/-!
# The store tail does not run out of read targets for good

A layer may hold more than its share of `per_layer` records, but only while all of them are
pinned: `lru_insert` and every section that drops pins end with `lru_trim` of the layer
(`Tier.Trimmed`). The arena has a slot more than the layers' shares, so with no read
unfinished and no layer with more than its share of pinned slots there is a spare slot, and
the waiting `serve` issues its next read.

The dispatcher trims the layer of its request only. This is enough as long as the slots it
unpins are in that layer, which `prefill_release` can break by dropping the dispatcher's
pins (`capacity_leaked`); the invariant is proved of the runs in which it does not happen
(`RoomKept`).
-/

namespace VllmMoet

namespace CpuTier

variable {c : Config} {T T' : Tier} {R : Ring} {F : Frame} {D D' : Dispatcher} {S S' : Sys}
  {ns ns' : ℕ → List ℕ} {tg tg' : List ℕ} {l e s : ℕ}

/-- Layer `l` holds at most its share of records, or has none to give back: every one is
pinned. -/
def Tier.Trimmed (T : Tier) (l : ℕ) : Prop :=
  (T.layers l).nResident ≤ T.tail.perLayer ∨
    ∀ e s, (T.layers l).slotOf e = some s → (T.tail.slots s).pins ≠ 0

/-- Every layer is trimmed. -/
def Tier.AllTrimmed (T : Tier) : Prop := ∀ l < T.nLayers, T.Trimmed l

/-- The slots of layer `l` that are resident and pinned. -/
def Tier.pinnedSlots (T : Tier) (l : ℕ) : List ℕ :=
  (List.range T.tail.nSlots).filter fun s =>
    (T.tail.slots s).expert.bind (T.layers l).slotOf = some s ∧
      (T.tail.slots s).layer = some l ∧ (T.tail.slots s).pins ≠ 0

theorem perLayer_of_config (h : T'.config = T.config) : T'.tail.perLayer = T.tail.perLayer :=
  congrArg Config.perLayer h

/-! ### Trimming -/

/-- A layer stays trimmed as long as its records stay and pinned slots stay pinned. -/
theorem Tier.Trimmed.of_same (h : T.Trimmed l) (hc : T'.config = T.config)
    (hs : (T'.layers l).slotOf = (T.layers l).slotOf)
    (hn : (T'.layers l).nResident = (T.layers l).nResident)
    (hp : ∀ e s, (T.layers l).slotOf e = some s → (T.tail.slots s).pins ≠ 0 →
      (T'.tail.slots s).pins ≠ 0) : T'.Trimmed l := by
  rcases h with h | h
  · left
    rw [hn, perLayer_of_config hc]
    exact h
  · right
    intro e s he
    rw [hs] at he
    exact hp e s he (h e s he)

/-- The number of resident slots is determined by `slot_of`. -/
theorem ArenaOk.nResident_eq (h : ArenaOk T ns tg) (h' : ArenaOk T' ns' tg')
    (hl : l < T.nLayers) (hc : T'.config = T.config)
    (hs : (T'.layers l).slotOf = (T.layers l).slotOf) :
    (T'.layers l).nResident = (T.layers l).nResident := by
  have hl' : l < T'.nLayers := by rwa [nLayers_of_config hc]
  have hok := h.layer l hl
  have hok' := h'.layer l hl'
  rw [hok.count, hok'.count]
  refine ((List.perm_ext_iff_of_nodup hok'.list.nodup hok.list.nodup).mpr fun s => ?_).length_eq
  rw [hok'.mem, hok.mem, hs]

theorem layers_lruEvict_of_ne {v l' : ℕ} (hne : l' ≠ l) :
    (lruEvict T l v).layers l' = T.layers l' := by
  simp [lruEvict, lruForget, lruUnlink, Tier.pushFree, hne]

theorem nResident_lruEvict (T : Tier) (l v : ℕ) :
    ((lruEvict T l v).layers l).nResident = (T.layers l).nResident - 1 := by
  simp [lruEvict, lruForget, lruUnlink, Tier.pushFree]

/-- `lru_trim` of a layer leaves the other layers alone. -/
theorem layers_lruTrimLoop_of_ne {l' : ℕ} (hne : l' ≠ l) (fuel : ℕ) (T : Tier) :
    (lruTrimLoop fuel T l).layers l' = T.layers l' := by
  induction fuel generalizing T with
  | zero => rfl
  | succ fuel ih =>
    rw [lruTrimLoop]
    split
    · split
      · rfl
      · exact (ih _).trans (layers_lruEvict_of_ne hne)
    · rfl

/-- The loop of `lru_trim` ends with the layer trimmed: it stops at the share, or for want
of an unpinned record. -/
theorem ArenaOk.trimmed_trimLoop (h : ArenaOk T ns tg) (hl : l < T.nLayers) (fuel : ℕ)
    (hf : (T.layers l).nResident ≤ fuel) : (lruTrimLoop fuel T l).Trimmed l := by
  induction fuel generalizing T ns with
  | zero => exact .inl (hf.trans (Nat.zero_le _))
  | succ fuel ih =>
    rw [lruTrimLoop]
    split
    · cases hv : lruVictim T l with
      | none =>
        rw [h.victim_eq hl, List.find?_eq_none] at hv
        refine .inr fun e s he => ?_
        simpa using hv s (((h.layer l hl).mem s).mpr ⟨e, he⟩)
      | some v =>
        rw [h.victim_eq hl] at hv
        refine ih (h.evict hl (List.mem_of_find?_eq_some hv)) hl ?_
        rw [nResident_lruEvict]
        omega
    · next hle => exact .inl (not_lt.mp hle)

/-- Trimming the one layer that may need it trims every layer. -/
theorem ArenaOk.allTrimmed_trim (h : ArenaOk T ns tg) (hl : l < T.nLayers)
    (ho : ∀ l' < T.nLayers, l' ≠ l → T.Trimmed l') : (lruTrim T l).AllTrimmed := by
  obtain ⟨-, -, -, hp, hc⟩ := h.trim hl
  intro l' hl'
  rw [nLayers_of_config hc] at hl'
  rcases eq_or_ne l' l with rfl | hne
  · exact h.trimmed_trimLoop hl _ le_rfl
  · have hlay : (lruTrim T l).layers l' = T.layers l' := layers_lruTrimLoop_of_ne hne _ T
    refine (ho l' hl' hne).of_same hc (by rw [hlay]) (by rw [hlay]) fun e s _ hs => ?_
    rwa [hp s]

/-- A section that changes no record and drops no slot's last pin keeps every layer
trimmed. -/
theorem Tier.AllTrimmed.of_layers (h : T.AllTrimmed) (hc : T'.config = T.config)
    (hlay : T'.layers = T.layers)
    (hp : ∀ s, (T.tail.slots s).pins ≠ 0 → (T'.tail.slots s).pins ≠ 0) : T'.AllTrimmed := by
  intro l hl
  rw [nLayers_of_config hc] at hl
  exact (h l hl).of_same hc (by rw [hlay]) (by rw [hlay]) fun _ s _ hs => hp s hs

/-- Taking a pin keeps every layer trimmed, as long as the counter does not wrap. -/
theorem Tier.AllTrimmed.pinUp (h : T.AllTrimmed) (hb : (T.tail.slots s).pins + 1 < 2 ^ 32) :
    (T.pinUp s).AllTrimmed := by
  refine h.of_layers (config_pinUp T s) rfl fun x hx => ?_
  rw [pins_pinUp]
  split
  · next hxs =>
    subst hxs
    rw [Nat.mod_eq_of_lt hb]
    exact Nat.succ_ne_zero _
  · exact hx

theorem Tier.AllTrimmed.setFree (h : T.AllTrimmed) (fs : List ℕ) : (T.setFree fs).AllTrimmed :=
  h.of_layers (config_setFree T fs) rfl fun _ hx => hx

/-- A record is inserted and then pinned: `lru_insert` trims the layer while it holds a pin
of its own on the new slot, drops it, and the caller pins the slot again. -/
theorem ArenaOk.allTrimmed_insert (h : ArenaOk T ns (s :: tg)) (hl : l < T.nLayers)
    (ht : T.AllTrimmed) (e : ℕ) {x : ℕ}
    (hx : ((lruInsert T l e s).layers l).slotOf e = some x)
    (hb : ((lruInsert T l e s).tail.slots x).pins + 1 < 2 ^ 32) :
    ((lruInsert T l e s).pinUp x).AllTrimmed := by
  cases he : (T.layers l).slotOf e with
  | some y =>
    simp only [lruInsert, he] at hb ⊢
    exact (ht.setFree _).pinUp hb
  | none =>
    simp only [lruInsert, he] at hx ⊢
    have ha := h.assign hl he
    set T₁ := lruPushTail (lruAssign T l e s) l s with hT₁
    have hc₁ : T₁.config = T.config := by
      rw [hT₁, config_lruPushTail, lruAssign, config_setLayer (by rfl), config_setSlot]
    have hs₁ : (T₁.layers l).slotOf e = some s := by simp [hT₁, lruPushTail, lruAssign]
    have hp₁ : (T₁.tail.slots s).pins = 1 := by simp [hT₁, lruPushTail, lruAssign]
    have ho : ∀ l' < T₁.nLayers, l' ≠ l → T₁.Trimmed l' := by
      intro l' hl' hne
      rw [nLayers_of_config hc₁] at hl'
      have hlay : T₁.layers l' = T.layers l' := by simp [hT₁, lruPushTail, lruAssign, hne]
      refine (ht l' hl').of_same hc₁ (by rw [hlay]) (by rw [hlay]) fun e' y hy hpos => ?_
      have hys : y ≠ s := by
        rintro rfl
        exact h.target_notMem hl' (by simp) (((h.layer l' hl').mem y).mpr ⟨e', hy⟩)
      simpa [hT₁, lruPushTail, lruAssign, hys] using hpos
    obtain ⟨-, -, hk, hp, hc⟩ := ha.trim (l := l) (by rwa [nLayers_of_config hc₁])
    have htrim := ha.allTrimmed_trim (by rwa [nLayers_of_config hc₁]) ho
    have hslot := hk l e s hs₁ (by omega)
    obtain rfl : s = x := by
      change ((lruTrim T₁ l).layers l).slotOf e = some x at hx
      rw [hslot] at hx
      exact Option.some.inj hx
    -- the pin dropped and taken again leaves the slot with one pin
    refine htrim.of_layers rfl rfl fun y hy => ?_
    rw [pins_pinUp]
    rcases eq_or_ne y s with rfl | hys
    · simp [Tier.setPins]
    · simpa [Tier.setPins, hys] using hy

/-! ### The sections that pin and unpin -/

/-- The grouping section only takes pins. -/
theorem allTrimmed_groupPairs (h : ArenaOk T ns tg) (hl : F.layer < T.nLayers)
    (ht : T.AllTrimmed) (is : List ℕ)
    (hb : ∀ x, (T.tail.slots x).pins + is.length < 2 ^ 32) (k : ℕ) :
    (groupPairs is k T F).1.AllTrimmed := by
  obtain ⟨⟨ns', h'⟩, hc, -⟩ := h.groupPairs hl is k
  obtain ⟨new, hg⟩ := exists_grouped_groupPairs T F is k
  intro l hl'
  rw [nLayers_of_config hc] at hl'
  refine (ht l hl').of_same hc (hg.slotOf l) (h.nResident_eq h' hl' hc (hg.slotOf l))
    fun e s _ hs => ?_
  rw [hg.pins hb s]
  omega

/-- Dropping pins of slots of layer `l` and trimming the layer keeps every layer trimmed. -/
theorem ArenaOk.allTrimmed_unpin (h : ArenaOk T' ns tg) (ht : T.AllTrimmed)
    (hc : T'.config = T.config) (hlay : T'.layers = T.layers) (hl : l < T.nLayers)
    (hp : ∀ l' < T.nLayers, l' ≠ l → ∀ e s, (T.layers l').slotOf e = some s →
      (T'.tail.slots s).pins = (T.tail.slots s).pins) : (lruTrim T' l).AllTrimmed := by
  have hl' : l < T'.nLayers := by rwa [nLayers_of_config hc]
  refine h.allTrimmed_trim hl' fun l' hlt hne => ?_
  rw [nLayers_of_config hc] at hlt
  refine (ht l' hlt).of_same hc (by rw [hlay]) (by rw [hlay]) fun e s he hs => ?_
  rwa [hp l' hlt hne e s he]

/-- A slot is resident in one layer. -/
theorem ArenaOk.layer_unique (h : ArenaOk T ns tg) (hl : l < T.nLayers) {l' e' : ℕ}
    (hl' : l' < T.nLayers) (he : (T.layers l).slotOf e = some s)
    (he' : (T.layers l').slotOf e' = some s) : l' = l := by
  have h₁ := ((h.layer l hl).node e s he).2
  rw [((h.layer l' hl').node e' s he').2] at h₁
  exact Option.some.inj h₁

/-- The loop of `prefill_release` drops pins of its layer's resident slots only. -/
theorem unpinExperts_same (T : Tier) (l : ℕ) (xs : List ℤ) :
    (Sys.unpinExperts T l xs).layers = T.layers ∧
      ∀ s, (∀ e, (T.layers l).slotOf e ≠ some s) →
        ((Sys.unpinExperts T l xs).tail.slots s).pins = (T.tail.slots s).pins := by
  induction xs generalizing T with
  | nil => exact ⟨rfl, fun _ _ => rfl⟩
  | cons x xs ih =>
    rw [Sys.unpinExperts]
    split
    · exact ih T
    · next e _ =>
      split
      · next s hs =>
        obtain ⟨hlay, hp⟩ := ih (T.pinDown s)
        refine ⟨hlay, fun y hy => ?_⟩
        have hys : y ≠ s := by
          rintro rfl
          exact hy e hs
        rw [hp y hy, pins_pinDown, if_neg hys]
      · exact ih T

/-! ### The dispatcher -/

/-- A section in which the dispatcher drops the frame's pins. -/
def Pc.unpins : Pc → Bool
  | .unpinResident | .unpinBatch | .unpinEnd => true
  | _ => false

/-- The dispatcher unpins no slot that is resident in another layer than its request's. -/
def OwnLayer (S : Sys) : Act → Prop
  | .run => S.disp.pc.unpins = true → ∀ s ∈ S.disp.frame.pinned, ∀ l < S.tier.nLayers, ∀ e,
      (S.tier.layers l).slotOf e = some s → l = S.disp.frame.layer
  | _ => True

/-- A step that keeps the layers' room: the dispatcher unpins slots of its layer only, no
request is begun while a prepared read still waits to be submitted, and no pin counter
wraps. -/
structure RoomKept (S : Sys) (a : Act) : Prop where
  own : OwnLayer S a
  clean : CleanStart S a
  bounded : ∀ s, (S.tier.tail.slots s).pins + a.takes < 2 ^ 32

theorem allTrimmed_runUnpin (hok : SysOk c S) (ht : S.tier.AllTrimmed)
    (hpc : S.disp.pc.unpins = true) (hown : OwnLayer S .run) {next : Pc} :
    (S.disp.runUnpin next).tier.AllTrimmed := by
  obtain ⟨ns, ha⟩ := hok.disp.arena
  obtain ⟨ha', hc⟩ := ha.unpinAll S.disp.frame.pinned
  have hl := hok.disp.layer (by rintro hidle; simp [hidle, Pc.unpins] at hpc)
  refine ha'.allTrimmed_unpin ht hc (layers_unpinAll _ _) hl fun l' hl' hne e s he => ?_
  rw [pins_unpinAll, List.count_eq_zero_of_not_mem, Nat.sub_zero]
  exact fun hs => hne (hown hpc s hs l' hl' e he)

/-- `lru_insert` takes no pin. -/
theorem ArenaOk.pins_insert_le (h : ArenaOk T ns (s :: tg)) (hl : l < T.nLayers) (e x : ℕ) :
    ((lruInsert T l e s).tail.slots x).pins ≤ (T.tail.slots x).pins := by
  rcases eq_or_ne x s with rfl | hx
  · rw [lruInsert]
    split
    · exact le_rfl
    · simp [Tier.setPins]
  · obtain ⟨-, -, -, hp, -⟩ := h.insert hl e
    exact (hp x hx).le

/-- A full read lands and is pinned. -/
theorem allTrimmed_land {t k : ℕ} (ha : ArenaOk T ns (t :: tg)) (hl : F.layer < T.nLayers)
    (ht : T.AllTrimmed) (hb : ∀ s, (T.tail.slots s).pins + 1 < 2 ^ 32)
    (hk : F.slotOfCold[k]? = some t) : (land T F k).1.AllTrimmed := by
  have hs : F.slotOfCold.getD k 0 = t := by simp [List.getD_eq_getElem?_getD, hk]
  obtain ⟨-, -, -, -, -, -, x, hx⟩ := ha.insert hl (F.eid (F.coldIdx.getD k 0))
  simp only [land, hs, hx]
  have hle := ha.pins_insert_le hl (F.eid (F.coldIdx.getD k 0)) x
  have hbx := hb x
  exact ha.allTrimmed_insert hl ht _ hx (by omega)

/-- What the runs keep beside the arena: the layers are trimmed, a request that is grouped
has at most the mailbox's pairs, and the ring has an entry. -/
structure RoomOk (D : Dispatcher) : Prop where
  trimmed : D.tier.AllTrimmed
  order : D.pc = .group → D.frame.order.length ≤ maxPairs.toNat
  entries : 0 < D.ring.entries

/-- A step of the dispatcher that leaves the tier and the ring's size alone. -/
theorem RoomOk.goto (h : RoomOk D) (ht : D'.tier = D.tier) (hpc : D'.pc ≠ .group)
    (hr : D'.ring.entries = D.ring.entries) : RoomOk D' :=
  ⟨ht ▸ h.trimmed, fun hg => absurd hg hpc, hr ▸ h.entries⟩

theorem RoomOk.serve (h : RoomOk D) {seq : ℕ} {req : Request}
    (hs : D.serve l seq req = some D') : RoomOk D' := by
  refine ⟨?_, fun hg => length_order_of_serve hs hg, ?_⟩
  all_goals
    rw [Dispatcher.serve] at hs
    split at hs
    · obtain rfl := Option.some.inj hs
      first
        | exact h.trimmed
        | exact h.entries
    · simp at hs

theorem entries_issueLoop (fuel : ℕ) (T : Tier) (R : Ring) (F : Frame) :
    (issueLoop fuel T R F).2.1.entries = R.entries := by
  induction fuel generalizing T R F with
  | zero => rfl
  | succ fuel ih =>
    rw [issueLoop]
    split
    · rfl
    · split
      · rfl
      · exact ih _ _ _

theorem RoomOk.runIssue (h : RoomOk D) {next : Pc} (hnext : next ≠ .group) :
    RoomOk (D.runIssue next) := by
  obtain ⟨hl, hp, hc, -, -⟩ := issueLoop_same (D.frame.nCold - D.frame.issued) D.tier D.ring
    D.frame
  refine ⟨h.trimmed.of_layers hc hl fun s hs => ?_, fun hg => absurd hg hnext, ?_⟩
  · exact (hp s).symm ▸ hs
  · exact (entries_issueLoop _ _ _ _).symm ▸ h.entries

/-- The dispatcher's own steps keep the layers trimmed. -/
theorem RoomOk.run (h : RoomOk S.disp) (hok : SysOk c S) (ha : RoomKept S .run)
    (hs : S.disp.run = some D) : RoomOk D := by
  have hb : ∀ s, (S.disp.tier.tail.slots s).pins + maxPairs.toNat < 2 ^ 32 := ha.bounded
  have unpin : S.disp.pc.unpins = true → ∀ next ≠ Pc.group, RoomOk (S.disp.runUnpin next) :=
    fun hpc next hnext => ⟨allTrimmed_runUnpin hok h.trimmed hpc ha.own, fun hg => absurd hg hnext,
      h.entries⟩
  rw [Dispatcher.run] at hs
  cases hpc : S.disp.pc <;> simp only [hpc, reduceCtorEq, Option.some.injEq] at hs
  case group =>
    subst hs
    obtain ⟨ns, harena⟩ := hok.disp.arena
    -- a group pins and moves its hits but lets nothing become resident
    refine ⟨allTrimmed_groupPairs harena (hok.disp.layer (by simp [hpc])) h.trimmed _
      (fun x => ?_) 0, fun hg => ?_, h.entries⟩
    · have := h.order hpc
      have := hb x
      omega
    · simp only [Dispatcher.runGroup] at hg
      split at hg
      · simp at hg
      · split at hg <;> simp at hg
  case issue => exact hs ▸ h.runIssue (by decide)
  case unpinResident => exact hs ▸ unpin (by rw [hpc]; rfl) .loop (by decide)
  case loop =>
    subst hs
    refine h.goto rfl ?_ rfl
    rw [Dispatcher.runLoop]
    repeat' split
    all_goals simp
  case issueIdle => exact hs ▸ h.runIssue (by decide)
  case wait =>
    subst hs
    refine h.goto rfl ?_ rfl
    simp only
    split <;> simp
  case reap =>
    subst hs
    rw [Dispatcher.runReap]
    split
    · refine h.goto rfl ?_ rfl
      simp only [Dispatcher.batchPc]
      repeat' split
      all_goals simp
    · next r res cq hcq =>
      have hp := reads_pop hcq
      have htag := hok.disp.tags r (hp.mem_iff.mpr (by simp))
      simp only
      split
      · exact ⟨h.trimmed.setFree _, fun hg => absurd hg (by simp [hpc]), h.entries⟩
      · obtain ⟨ns, harena⟩ := hok.disp.arena
        -- the record that lands is trimmed for, since its pins are not at the end of their counter
        refine ⟨allTrimmed_land (harena.targets_perm ((hp.map Read.slot).append_right _))
          (hok.disp.layer (by simp [hpc])) h.trimmed (fun x => ?_) htag,
          fun hg => absurd hg (by simp [hpc]), h.entries⟩
        have := hb x
        have hmax : maxPairs.toNat = 96 := rfl
        omega
  case issueNext => exact hs ▸ h.runIssue (by decide)
  case unpinBatch =>
    subst hs
    split
    · exact h.goto rfl (by simp) rfl
    · exact unpin (by rw [hpc]; rfl) .loop (by decide)
  case drain =>
    rw [Dispatcher.runDrain] at hs
    split at hs
    · exact Option.some.inj hs ▸ h.goto rfl (by simp) rfl
    · split at hs
      · simp at hs
      · obtain rfl := Option.some.inj hs
        exact ⟨h.trimmed.setFree _, fun hg => absurd hg (by simp [hpc]), h.entries⟩
  case unpinEnd =>
    subst hs
    split
    · exact unpin (by rw [hpc]; rfl) .ack (by decide)
    · exact h.goto rfl (by simp) rfl
  case ack =>
    subst hs
    exact h.goto rfl (by simp [Dispatcher.runAck]) rfl

theorem RoomOk.kernel (h : RoomOk D) {rc : ℤ} (hs : D.kernel rc = some D') : RoomOk D' := by
  rw [Dispatcher.kernel] at hs
  cases hpc : D.pc <;> simp only [hpc, reduceCtorEq, Option.some.injEq] at hs
  all_goals
    subst hs
    exact h.goto rfl (by simp) rfl

theorem entries_submit {a : Submitted} {R' : Ring} (hR : R.submit a = some R') :
    R'.entries = R.entries := by
  cases a with
  | accepted n =>
    simp only [Ring.submit] at hR
    split at hR
    · exact Option.some.inj hR ▸ rfl
    · simp at hR
  | error =>
    simp only [Ring.submit] at hR
    split at hR
    · simp at hR
    · exact Option.some.inj hR ▸ rfl

theorem RoomOk.submit (h : RoomOk D) {a : Submitted} (hs : D.submit a = some D') :
    RoomOk D' := by
  rw [Dispatcher.submit] at hs
  split at hs
  · simp at hs
  · next R hR =>
    have he := entries_submit hR
    cases hpc : D.pc <;> simp only [hpc, reduceCtorEq, Option.some.injEq] at hs
    all_goals
      subst hs
      refine h.goto rfl ?_ he
      simp only [Dispatcher.batchPc]
      repeat' split
      all_goals simp

/-! ### The engine's calls -/

/-- A call's section that changes the tier only. -/
theorem RoomOk.setTier (h : RoomOk D) (ht : T.AllTrimmed) : RoomOk { D with tier := T } :=
  ⟨ht, h.order, h.entries⟩

theorem RoomOk.acquire (h : RoomOk S.disp) {layer expert : ℤ}
    (ha : RoomKept S (.acquire layer expert)) : RoomOk (S.acquire layer expert).disp := by
  rw [Sys.acquire]
  split
  · split
    · split
      · next s hs => exact h.setTier (h.trimmed.pinUp (ha.bounded s))
      · split
        · exact h.setTier (h.trimmed.setFree _)
        · exact h
    · exact h
  · exact h

theorem RoomOk.acquireRead (h : RoomOk S.disp) (hok : SysOk c S) {i : ℕ} {ok : Bool}
    (ha : RoomKept S (.acquireRead i ok)) (hs : S.acquireRead i ok = some S') :
    RoomOk S'.disp := by
  obtain ⟨r, hr, rfl⟩ := Option.map_eq_some_iff.mp hs
  obtain ⟨ns, harena, hl⟩ := hok.acquiring_arena hr
  split
  · obtain ⟨-, -, -, -, -, -, x, hx⟩ := harena.insert hl r.expert
    simp only [hx]
    have hle := harena.pins_insert_le hl r.expert x
    have hbx : (S.tier.tail.slots x).pins + 1 < 2 ^ 32 := ha.bounded x
    exact h.setTier (harena.allTrimmed_insert hl h.trimmed _ hx (by omega))
  · exact h.setTier (h.trimmed.setFree _)

theorem RoomOk.release (h : RoomOk S.disp) (hok : SysOk c S) (layer expert : ℤ) (i : ℕ) :
    RoomOk (S.release layer expert i).disp := by
  obtain ⟨ns, ha⟩ := hok.disp.arena
  rw [Sys.release]
  split
  · next l e hl he =>
    have hlt := lt_of_checked hl
    split
    · refine h.setTier ?_
      split
      · next s hs =>
        refine (ha.pinDown s).allTrimmed_unpin h.trimmed rfl rfl hlt fun l' hl' hne e' y hy => ?_
        have hys : y ≠ s := by
          rintro rfl
          exact hne (ha.layer_unique hlt hl' hs hy)
        rw [pins_pinDown, if_neg hys]
      · exact ha.allTrimmed_unpin h.trimmed rfl rfl hlt fun _ _ _ _ _ _ => rfl
    · exact h
  · exact h

theorem RoomOk.prefillFetch (h : RoomOk S.disp) {layer : ℤ} {experts : List ℤ} {set : ℤ}
    (hok : SysOk c S) (ha : RoomKept S (.prefillFetch layer experts set)) :
    RoomOk (S.prefillFetch layer experts set).disp := by
  obtain ⟨ns, harena⟩ := hok.disp.arena
  rw [Sys.prefillFetch]
  split
  · next l k hl hk =>
    obtain ⟨-, hc⟩ := harena.pinExperts l experts
    have hf := fetched_pinExperts S.tier l experts
    have ht : (Sys.pinExperts S.tier l experts).2.1.AllTrimmed := by
      refine h.trimmed.of_layers hc hf.layers fun s hs => ?_
      rw [hf.pins ha.bounded s]
      exact fun hzero => hs (Nat.eq_zero_of_add_eq_zero_right hzero)
    split
    · simp only
      split
      · exact h.setTier ht
      · exact h.setTier ht
    · exact h
  · exact h

theorem RoomOk.prefillRelease (h : RoomOk S.disp) (hok : SysOk c S) (layer : ℤ)
    (experts : List ℤ) (i : ℕ) : RoomOk (S.prefillRelease layer experts i).disp := by
  obtain ⟨ns, ha⟩ := hok.disp.arena
  rw [Sys.prefillRelease]
  split
  · next l hl =>
    have hlt := lt_of_checked hl
    split
    · obtain ⟨ha', hc⟩ := ha.unpinExperts l experts
      obtain ⟨hlay, hp⟩ := unpinExperts_same S.tier l experts
      refine h.setTier (ha'.allTrimmed_unpin h.trimmed hc hlay hlt fun l' hl' hne e s hs => ?_)
      exact hp s fun e' he' => hne (ha.layer_unique hlt hl' he' hs)
    · exact h
  · exact h

theorem RoomOk.prefillRead (h : RoomOk S.disp) {i : ℕ} {ok : Bool}
    (hs : S.prefillRead i ok = some S') : RoomOk S'.disp := by
  obtain ⟨f, -, hs⟩ := Option.bind_eq_some_iff.mp hs
  split at hs
  · exact Option.some.inj hs ▸ h
  · split at hs
    · exact Option.some.inj hs ▸ h
    · simp at hs

/-! ### Whole runs -/

/-- A step that keeps the room keeps the layers trimmed. -/
theorem RoomOk.step (h : RoomOk S.disp) (hok : SysOk c S) {a : Act} (ha : RoomKept S a)
    (hs : S.step a = some S') : RoomOk S'.disp := by
  cases a with
  | serve l seq req =>
    obtain ⟨D, hD, rfl⟩ := Option.map_eq_some_iff.mp hs
    exact h.serve hD
  | run =>
    obtain ⟨D, hD, rfl⟩ := Option.map_eq_some_iff.mp hs
    exact h.run hok ha hD
  | kernel rc =>
    obtain ⟨D, hD, rfl⟩ := Option.map_eq_some_iff.mp hs
    exact h.kernel hD
  | submit r =>
    obtain ⟨D, hD, rfl⟩ := Option.map_eq_some_iff.mp hs
    exact h.submit hD
  | complete i res =>
    obtain ⟨R, hR, rfl⟩ := Option.map_eq_some_iff.mp hs
    obtain ⟨r, -, rfl⟩ := Option.map_eq_some_iff.mp hR
    exact ⟨h.trimmed, h.order, h.entries⟩
  | acquire layer expert => exact Option.some.inj hs ▸ h.acquire ha
  | acquireRead i ok => exact h.acquireRead hok ha hs
  | release layer expert i => exact Option.some.inj hs ▸ h.release hok layer expert i
  | prefillFetch layer experts set => exact Option.some.inj hs ▸ h.prefillFetch hok ha
  | prefillRead i ok => exact h.prefillRead hs
  | prefillRelease layer experts i =>
    exact Option.some.inj hs ▸ h.prefillRelease hok layer experts i

/-- The arena is sized as `ExpertStore` sizes it: a share of `per_layer` slots for every
layer and at least one spare slot, at most a share of records is adopted in each layer, and
the ring has an entry. -/
structure SizedStart (S : Sys) : Prop where
  start : Start S
  room : ∃ spare ≥ 1, S.tier.tail.nSlots = S.tier.tail.perLayer * S.tier.nLayers + spare
  share : ∀ l < S.tier.nLayers, (S.tier.layers l).nResident ≤ S.tier.tail.perLayer
  entries : 0 < S.disp.ring.entries

/-- The runs of a sized tier whose steps keep the layers' room. -/
def roomSystem : TransitionSystem Sys Act :=
  (TransitionSystem.ofStep SizedStart Sys.step).onlySteps RoomKept

/-- The arena, the trimmed layers and the arena's size along every run that keeps the
room. -/
theorem sysOk_roomOk_of_reachable (h : roomSystem.Reachable S) :
    ∃ c, SysOk c S ∧ RoomOk S.disp ∧ c.perLayer * c.nLayers < c.nSlots := by
  have hinv : roomSystem.Invariant fun S =>
      ∃ c, SysOk c S ∧ RoomOk S.disp ∧ c.perLayer * c.nLayers < c.nSlots := by
    refine ⟨fun S hS => ⟨S.tier.config, sysOk_start hS.start, ?_, ?_⟩,
      fun S a S' _ ⟨c, hok, hroom, hsize⟩ ⟨ha, hstep⟩ =>
        ⟨c, hok.step ha.clean hstep, hroom.step hok ha hstep, hsize⟩⟩
    · exact ⟨fun l hl => .inl (hS.share l hl), fun hg => absurd hg (by simp [hS.start.pc]),
        hS.entries⟩
    · obtain ⟨spare, hspare, hsize⟩ := hS.room
      change S.tier.tail.perLayer * S.tier.nLayers < S.tier.tail.nSlots
      omega
  exact hinv.holds h

/-! ### A spare slot -/

/-- A trimmed layer with at most its share of pinned slots holds at most its share. -/
theorem ArenaOk.length_le_perLayer (h : ArenaOk T ns tg) (hl : l < T.nLayers)
    (ht : T.Trimmed l) (hp : (T.pinnedSlots l).length ≤ T.tail.perLayer) :
    (ns l).length ≤ T.tail.perLayer := by
  have hok := h.layer l hl
  rcases ht with ht | ht
  · rwa [← hok.count]
  · have hsub : ns l ⊆ T.pinnedSlots l := by
      intro s hs
      obtain ⟨e, he⟩ := (hok.mem s).mp hs
      have hlt : s < T.tail.nSlots := by
        refine List.mem_range.mp (h.perm.mem_iff.mp ?_)
        simp only [List.mem_append, List.mem_flatMap, List.mem_range]
        exact .inl (.inr ⟨l, hl, hs⟩)
      obtain ⟨hexp, hlay⟩ := hok.node e s he
      simp [Tier.pinnedSlots, hlt, hexp, hlay, he, ht e s he]
    exact (List.subperm_of_subset hok.list.nodup hsub).length_le.trans hp

/-- With no read unfinished and no layer beyond its share of pinned slots, there is a spare
slot. -/
theorem ArenaOk.free_ne_nil (h : ArenaOk T ns []) (ht : T.AllTrimmed)
    (hsize : T.tail.perLayer * T.nLayers < T.tail.nSlots)
    (hp : ∀ l < T.nLayers, (T.pinnedSlots l).length ≤ T.tail.perLayer) :
    T.tail.freeSlots ≠ [] := by
  intro hfree
  have hlen := h.perm.length_eq
  have hsum : (((List.range T.nLayers).map fun l => (ns l).length)).sum ≤
      ((List.range T.nLayers).map fun l => (ns l).length).length • T.tail.perLayer := by
    refine List.sum_le_card_nsmul _ _ fun x hx => ?_
    obtain ⟨l, hl, rfl⟩ := List.mem_map.mp hx
    have hl := List.mem_range.mp hl
    exact h.length_le_perLayer hl (ht l hl) (hp l hl)
  simp only [hfree, List.nil_append, List.append_nil, List.length_flatMap, List.length_range,
    List.length_map, smul_eq_mul] at hlen hsum
  rw [Nat.mul_comm] at hsum
  omega

/-- With a spare slot, an empty ring and a cold expert left, the waiting loop issues a
read. -/
theorem issued_lt_runIssue {next : Pc} (hf : D.tier.tail.freeSlots ≠ [])
    (hr : 0 < D.ring.space) (hc : D.frame.issued < D.frame.nCold) :
    D.frame.issued < (D.runIssue next).frame.issued := by
  have grow : ∀ fuel T R F, F.issued ≤ (issueLoop fuel T R F).2.2.issued := by
    intro fuel
    induction fuel with
    | zero => exact fun _ _ _ => le_rfl
    | succ fuel ih =>
      intro T R F
      rw [issueLoop]
      repeat' split
      · exact le_rfl
      · exact le_rfl
      · refine le_trans ?_ (ih _ _ _)
        simp [Frame.issued]
  obtain ⟨s, fs, hfs⟩ := List.exists_cons_of_ne_nil hf
  obtain ⟨fuel, hfuel⟩ : ∃ fuel, D.frame.nCold - D.frame.issued = fuel + 1 :=
    ⟨D.frame.nCold - D.frame.issued - 1, by omega⟩
  simp only [Dispatcher.runIssue, issueSome, hfuel, issueLoop, hfs, if_neg hr.ne']
  refine lt_of_lt_of_le ?_ (grow _ _ _ _)
  simp [Frame.issued]

/-! ### Runs that respect the pins -/

/-- A step that respects the pins keeps the room: what the dispatcher noted as pinned is still
resident in the layer of its request. -/
theorem RoomKept.of_pins (hok : SysOk c S) (hp : PinsOk S) {a : Act} (ha : PinsRespected S a) :
    RoomKept S a := by
  refine ⟨?_, ha.clean, fun s => by rw [hp.pins s]; exact ha.bounded s⟩
  cases a with
  | run =>
    intro _ s hs l hl e he
    obtain ⟨ns, hns⟩ := hok.disp.arena
    obtain ⟨e', hlayer, he'⟩ := hp.pinned s hs
    exact Option.some.inj (((hns.layer l hl).node e s he).2.symm.trans
      ((hns.layer _ hlayer).node e' s he').2)
  | _ => trivial

/-- A run of a sized tier whose steps respect the pins keeps the layers' room. -/
theorem roomSystem_reachable_of_pins
    (h : ((TransitionSystem.ofStep SizedStart Sys.step).onlySteps PinsRespected).Reachable S) :
    roomSystem.Reachable S := by
  have hboth : ((∃ c, SysOk c S) ∧ PinsOk S) ∧ roomSystem.Reachable S := by
    induction h with
    | start h0 => exact ⟨⟨⟨_, sysOk_start h0.start⟩, pinsOk_start h0.start⟩, .start h0⟩
    | step _ hstep ih =>
      obtain ⟨⟨⟨c, hok⟩, hp⟩, hroom⟩ := ih
      obtain ⟨ha, hs⟩ := hstep
      exact ⟨⟨⟨c, hok.step ha.clean hs⟩, hp.step hok ha hs⟩,
        .step hroom ⟨.of_pins hok hp ha, hs⟩⟩
  exact hboth.2

/-- **The store tail does not run out of read targets for good.** In every run that keeps
the layers' room, every layer holds at most its share of records or has all of them pinned.
So with no read unfinished and no layer with more than its share of pinned slots there is a
spare slot, and a `serve` that waits with cold experts left to read issues one of them. -/
theorem spare_slot_returns (h : roomSystem.Reachable S) :
    (∀ l < S.tier.nLayers, S.tier.Trimmed l) ∧
      (S.targets = [] →
        (∀ l < S.tier.nLayers, (S.tier.pinnedSlots l).length ≤ S.tier.tail.perLayer) →
        S.tier.tail.freeSlots ≠ [] ∧
          (S.disp.pc = .issueIdle → S.disp.frame.issued < S.disp.frame.nCold →
            ∃ D, S.disp.run = some D ∧ S.disp.frame.issued < D.frame.issued)) := by
  obtain ⟨c, hok, hroom, hsize⟩ := sysOk_roomOk_of_reachable h
  refine ⟨hroom.trimmed, fun htg hpin => ?_⟩
  obtain ⟨ns, ha⟩ := hok.disp.arena
  have ha : ArenaOk S.tier ns [] := by
    rw [Sys.targets] at htg
    rwa [htg] at ha
  have hfree : S.tier.tail.freeSlots ≠ [] := by
    refine ha.free_ne_nil hroom.trimmed ?_ hpin
    rw [← hok.disp.config] at hsize
    exact hsize
  refine ⟨hfree, fun hpc hcold => ⟨S.disp.runIssue .submitIdle, by rw [Dispatcher.run, hpc], ?_⟩⟩
  refine issued_lt_runIssue hfree ?_ hcold
  have hlen := congrArg List.length htg
  have hentries := hroom.entries
  simp only [Sys.targets, Ring.targets, Ring.reads, List.length_append, List.length_map,
    List.length_nil] at hlen
  simp only [Ring.space, Ring.inFlight]
  omega

/-! ### A tier of two layers -/

/-- A tier of two layers before the adoption: expert 0 of each layer is registered in the
arena, experts 1 and 2 are cold, one record may stay resident in each layer and there is one
spare slot. -/
def pairSetup : Tier :=
  (beforeAdopt 2 3 [(0, 0, some 0), (1, 0, some 4700160)] 0 3 1 8 true 1 2
    [(0, 1), (0, 2), (1, 1), (1, 2)]).getD (create 0 0)

/-- The tier of `pairSetup`, just started. -/
def pairSys : Sys where
  disp := ⟨storeTailAdopt pairSetup, ⟨16, [], [], []⟩, .idle,
    Frame.entry 0 0 ⟨0, 0, fun _ => ⟨0, 0, 0⟩, 0, fun _ => 0⟩, [], [], []⟩
  acquiring := []
  acquired := []
  fetching := []
  fetched := []
  leaked := []

/-- The warm record of a layer of `pairSetup` is expert 0's, in the arena slot of the layer's
number. -/
theorem records_pairSetup {l e p : ℕ} (h : (pairSetup.layers l).records e = some p) :
    l < 2 ∧ e = 0 ∧ p = l * 4700160 := by
  have hr : ∀ l e, (pairSetup.layers l).records e =
      if l < 2 ∧ e = 0 then some (l * 4700160) else none := by
    intro l e
    rcases l with _ | _ | l
    · rcases eq_or_ne e 0 with rfl | he
      · rfl
      · simp [pairSetup, beforeAdopt, storeTailInit, setRecord, setRecordCold, checked, create, he]
    · rcases eq_or_ne e 0 with rfl | he
      · rfl
      · simp [pairSetup, beforeAdopt, storeTailInit, setRecord, setRecordCold, checked, create, he]
    · simp [pairSetup, beforeAdopt, storeTailInit, setRecord, setRecordCold, checked, create]
  rw [hr] at h
  split at h
  · next hle => exact ⟨hle.1, hle.2, (Option.some.inj h).symm⟩
  · simp at h

theorem start_pairSys : Start pairSys where
  tier := by
    refine ⟨pairSetup, 2, 3, [(0, 0, some 0), (1, 0, some 4700160)], 0, 3, 1, 8, true, 1, 2,
      [(0, 1), (0, 2), (1, 1), (1, 2)], rfl,
      ⟨fun l e l' e' s hs hs' => ?_, fun l e p hc hp => ?_⟩, rfl⟩
    · obtain ⟨p, hp, hps⟩ := Option.bind_eq_some_iff.mp hs
      obtain ⟨p', hp', hps'⟩ := Option.bind_eq_some_iff.mp hs'
      obtain ⟨-, rfl, rfl⟩ := records_pairSetup hp
      obtain ⟨-, rfl, rfl⟩ := records_pairSetup hp'
      have h₁ := (addr_of_slotAt hps).1
      rw [(addr_of_slotAt hps').1] at h₁
      exact ⟨by omega, rfl⟩
    · obtain ⟨hl, rfl, rfl⟩ := records_pairSetup hp
      have hl' : l = 0 ∨ l = 1 := by omega
      rcases hl' with rfl | rfl <;> rfl
  ring := ⟨rfl, rfl, rfl⟩
  pc := rfl
  pinned := rfl
  calls := ⟨rfl, rfl, rfl, rfl, rfl⟩

theorem sizedStart_pairSys : SizedStart pairSys where
  start := start_pairSys
  room := ⟨1, by decide, rfl⟩
  share := fun l hl => by
    have hl' : l < 2 := hl
    have hl' : l = 0 ∨ l = 1 := by omega
    rcases hl' with rfl | rfl <;> decide
  entries := by decide

/-- A step that can be seen to respect the pins: few of them are held altogether. -/
def FewHolders (S : Sys) (a : Act) : Prop :=
  (Disciplined S a ∧ OwnPins S a) ∧ CleanStart S a ∧ S.holders.length + a.takes < 2 ^ 32

instance (S : Sys) (a : Act) : Decidable (FewHolders S a) :=
  inferInstanceAs (Decidable ((_ ∧ _) ∧ _ ∧ _))

theorem FewHolders.respected {a : Act} (h : FewHolders S a) : PinsRespected S a :=
  ⟨h.1.1, h.1.2, h.2.1, fun _ =>
    lt_of_le_of_lt (Nat.add_le_add_right List.count_le_length _) h.2.2⟩

/-- A run of `pairSys`. A prefill round pins expert 0 of layer 0, and `record_acquire` takes the one
spare slot to read expert 1 of layer 1. The dispatcher serves a request of layer 0 for experts 0
and 1: it computes the first and waits for a slot for the second. The round is released and
the read lands; layer 1 is trimmed to its share and gives a slot back. -/
def waitingRun : List Act :=
  [.prefillFetch 0 [0] 0, .prefillRead 0 true, .acquire 1 1,
    .serve 0 1 ⟨2, 2, fun i => ⟨0, i, 0⟩, 0, fun _ => 0⟩, .run, .run, .submit (.accepted 0),
    .kernel 0, .run, .run, .run, .submit (.accepted 0), .run,
    .prefillRelease 0 [0] 0, .acquireRead 0 true, .run]

/-- At the end of `waitingRun` the waiting `serve` issues its read. -/
theorem spare_slot_returns_waiting : ∃ S, roomSystem.Reachable S ∧
    S.disp.pc = .issueIdle ∧ S.disp.frame.issued = 0 ∧ S.tier.tail.freeSlots ≠ [] ∧
      ∃ D, S.disp.run = some D ∧ 0 < D.frame.issued := by
  obtain ⟨S, hS, hP⟩ := TransitionSystem.exists_reachable_of_replay Sys.step FewHolders
    sizedStart_pairSys waitingRun (fun S => S.disp.pc = .issueIdle ∧ S.disp.frame.issued = 0 ∧
      S.disp.frame.nCold = 1 ∧ S.targets = [] ∧
      ∀ l < S.tier.nLayers, (S.tier.pinnedSlots l).length ≤ S.tier.tail.perLayer) (by decide)
  obtain ⟨hpc, hissued, hcold, htg, hpin⟩ := of_decide_eq_true hP
  have hroom : roomSystem.Reachable S :=
    roomSystem_reachable_of_pins (hS.mono fun _ _ h => h.respected)
  obtain ⟨hfree, hrun⟩ := (spare_slot_returns hroom).2 htg hpin
  obtain ⟨D, hD, hlt⟩ := hrun hpc (by omega)
  exact ⟨S, hroom, hpc, hissued, hfree, D, hD, by omega⟩

/-! ### The room that is lost -/

/-- A run of `pairSys`. A prefill round finds expert 1 of layer 0 cold; the dispatcher
serves a request for it and is about to call the kernel when the round's release drops the
dispatcher's pin, another record evicts the slot, and layer 1 gets it for a second pinned
record. Then the dispatcher unpins the slot and trims layer 0. -/
def lostRoomRun : List Act :=
  [.prefillFetch 0 [1] 0, .prefillRead 0 true,
    .serve 0 1 ⟨1, 1, fun _ => ⟨0, 1, 0⟩, 0, fun _ => 0⟩, .run, .run, .submit (.accepted 1),
    .run, .run, .complete 0 4700160, .run, .run, .run,
    .prefillRelease 0 [1] 0, .acquire 1 0, .acquire 0 2, .acquireRead 0 true,
    .acquire 1 1, .acquireRead 0 true, .kernel 0, .run]

/-- **The room is lost.** In a run of a sized tier in which every caller releases exactly
what it asked for, layer 1 holds two records with a share of one, and one of them is not
pinned; no read is unfinished and no layer has more than its share of pinned slots, but
there is no spare slot. -/
theorem capacity_leaked : ∃ S,
    ((TransitionSystem.ofStep SizedStart Sys.step).onlySteps Disciplined).Reachable S ∧
      ¬ S.tier.Trimmed 1 ∧ S.targets = [] ∧
      (∀ l < S.tier.nLayers, (S.tier.pinnedSlots l).length ≤ S.tier.tail.perLayer) ∧
      S.tier.tail.freeSlots = [] := by
  obtain ⟨S, hS, hP⟩ := TransitionSystem.exists_reachable_of_replay Sys.step Disciplined
    sizedStart_pairSys lostRoomRun (fun S =>
      S.tier.tail.perLayer < (S.tier.layers 1).nResident ∧
      (S.tier.layers 1).slotOf 1 = some 2 ∧ (S.tier.tail.slots 2).pins = 0 ∧ S.targets = [] ∧
      (∀ l < S.tier.nLayers, (S.tier.pinnedSlots l).length ≤ S.tier.tail.perLayer) ∧
      S.tier.tail.freeSlots = [])
    (by decide)
  obtain ⟨hn, hslot, hpins, hrest⟩ := of_decide_eq_true hP
  refine ⟨S, hS, ?_, hrest⟩
  rintro (hle | hall)
  · omega
  · exact hall 1 2 hslot hpins

end CpuTier

end VllmMoet
