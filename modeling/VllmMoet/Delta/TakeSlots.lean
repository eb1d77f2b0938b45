import VllmMoet.Delta.Tier

/-!
# What taking slots does to the bookkeeping

The bookkeeping of a tier (`Tier.book`) is a `SlotMap`: its free stack, the owners, and the
mirror as the place of every pair. A take lends the slots it returns out of that map:
`takeSlotsBatch_took` says so for every way of taking, plain or under admission keys, in an
emergency or not. `takeSlotsBatch_length` counts them for a take that is not an emergency.
-/

namespace VllmMoet.Delta

/-- The bookkeeping of a tier. -/
def Tier.book (t : Tier) : SlotMap Pair :=
  ⟨t.free, t.owner, t.mirror⟩

/-- `r.1` are slots taken from `t`, and `r.2` is the tier they were taken out of: at most
`k`, lent by its bookkeeping, both tables in step, and no pair mapped that was not before. -/
structure Took (cfg : Config) (t : Tier) (k : ℕ) (out : List ℕ) (t' : Tier) : Prop where
  lent : t'.book.Lent cfg.nSlots out
  length_le : out.length ≤ k
  tables : t'.slotTable = t'.mirror
  unmapped : ∀ p, t.mirror p = none → t'.mirror p = none
  frozen : t'.frozen = t.frozen

section Passes

variable {cfg : Config} {T : TopK} {v : View} {t : Tier} {k : ℕ}

/-- Where a take stands between two victims: what it has taken so far is lent, and each slot
of it was evicted or had no owner from the start. -/
structure TakingOk (cfg : Config) (t : Tier) (k : ℕ) (a : Taking) : Prop
    extends Took cfg t k a.out a.tier where
  owner : a.tier.owner = t.owner
  origin : ∀ s ∈ a.out, s ∈ a.taken ∨ t.owner s = none

/-- Evicting owned slots that are not taken yet. -/
theorem TakingOk.evict {a : Taking} (h : TakingOk cfg t k a) {victims : List ℕ}
    (hnodup : victims.Nodup) (hlt : ∀ s ∈ victims, s < cfg.nSlots)
    (hnew : ∀ s ∈ victims, s ∉ a.out) (hown : ∀ s ∈ victims, t.owner s ≠ none)
    (hlen : a.out.length + victims.length ≤ k) : TakingOk cfg t k (a.evict victims) where
  lent := h.lent.evict hnodup hlt hnew fun s hs => by
    rw [show a.tier.book.owner s = a.tier.owner s from rfl, h.owner]
    exact hown s hs
  length_le := by simpa [Taking.evict] using hlen
  tables := by
    simp only [Taking.evict, Tier.unmap, h.tables]
  unmapped p hp := by
    simp only [Taking.evict, Tier.unmap, h.unmapped p hp, ite_self]
  frozen := h.frozen
  owner := h.owner
  origin s hs := by
    simp only [Taking.evict, List.mem_append] at hs ⊢
    rcases hs with hs | hs
    · exact (h.origin s hs).imp_left Or.inl
    · exact .inl (.inr hs)

/-- Evicting victims one by one, each only if it is admitted. -/
theorem TakingOk.foldl_admitVictim (adm : List ℚ) (key : ℕ → ℚ) {victims : List ℕ}
    {a : Taking} (h : TakingOk cfg t k a) (hnodup : victims.Nodup)
    (hlt : ∀ s ∈ victims, s < cfg.nSlots) (hnew : ∀ s ∈ victims, s ∉ a.out)
    (hown : ∀ s ∈ victims, t.owner s ≠ none) (hlen : a.out.length + victims.length ≤ k) :
    TakingOk cfg t k (victims.foldl (admitVictim adm key) a) := by
  induction victims generalizing a with
  | nil => exact h
  | cons s victims ih =>
    have hnd := List.nodup_cons.mp hnodup
    simp only [List.length_cons] at hlen
    -- a victim that is not admitted ends the take and changes nothing else
    have hstop : TakingOk cfg t k { a with done := true } :=
      ⟨⟨h.lent, h.length_le, h.tables, h.unmapped, h.frozen⟩, h.owner, h.origin⟩
    have hrest : ∀ b : Taking, TakingOk cfg t k b → b.out = a.out →
        TakingOk cfg t k (victims.foldl (admitVictim adm key) b) := fun b hb hout =>
      ih hb hnd.2 (fun r hr => hlt r (List.mem_cons_of_mem _ hr))
        (fun r hr => hout ▸ hnew r (List.mem_cons_of_mem _ hr))
        (fun r hr => hown r (List.mem_cons_of_mem _ hr)) (by rw [hout]; omega)
    rw [List.foldl_cons, admitVictim]
    split
    · exact hrest a h rfl
    · split
      · exact hrest _ hstop rfl
      · split
        · exact hrest _ hstop rfl
        · refine ih (h.evict (List.nodup_singleton s) ?_ ?_ ?_ ?_) hnd.2
            (fun r hr => hlt r (List.mem_cons_of_mem _ hr)) (fun r hr => ?_)
            (fun r hr => hown r (List.mem_cons_of_mem _ hr)) ?_
          · exact fun r hr => hlt r (by simp_all)
          · exact fun r hr => hnew r (by simp_all)
          · exact fun r hr => hown r (by simp_all)
          · simp only [List.length_singleton]
            omega
          · simp only [Taking.evict, List.mem_append, List.mem_singleton, not_or]
            exact ⟨hnew r (List.mem_cons_of_mem _ hr), fun heq => hnd.1 (heq ▸ hr)⟩
          · simp only [Taking.evict, List.length_append, List.length_singleton]
            omega

/-- The slots a pass may still evict. -/
def eligible (cfg : Config) (ineligible : ℕ → Bool) (taken : List ℕ) : List ℕ :=
  (List.range cfg.nSlots).filter fun s => !ineligible s && !taken.contains s

/-- A pass that never touches a slot without an owner keeps the take in order. -/
theorem TakingOk.takePass {a : Taking} (h : TakingOk cfg t k a) (key : ℕ → ℚ)
    (admission : Option (List ℚ)) {ineligible : ℕ → Bool}
    (hfree : ∀ s, t.owner s = none → ineligible s = true) :
    TakingOk cfg t k (takePass cfg T key k admission a ineligible) := by
  rw [Delta.takePass]
  split
  · exact h
  · next hgo =>
    have hneed : ¬ k ≤ a.out.length := fun h' => hgo (by simp [h'])
    have hspec := T.spec false key (eligible cfg ineligible a.taken)
      (min (k - a.out.length) (eligible cfg ineligible a.taken).length)
      (List.nodup_range.filter _)
    have hmem : ∀ s ∈ T.pick false key (eligible cfg ineligible a.taken)
        (min (k - a.out.length) (eligible cfg ineligible a.taken).length),
        s < cfg.nSlots ∧ s ∉ a.out ∧ t.owner s ≠ none := fun s hs => by
      have helig := hspec.subset s hs
      simp only [eligible, List.mem_filter, List.mem_range, Bool.and_eq_true,
        Bool.not_eq_true', List.contains_eq_mem, decide_eq_false_iff_not] at helig
      have hown : t.owner s ≠ none := fun hs => by
        rw [hfree s hs] at helig
        simp at helig
      exact ⟨helig.1, fun ho => (h.origin s ho).elim helig.2.2 hown, hown⟩
    have hlen : a.out.length + (T.pick false key (eligible cfg ineligible a.taken)
        (min (k - a.out.length) (eligible cfg ineligible a.taken).length)).length ≤ k := by
      rw [hspec.length]
      omega
    cases admission with
    | none =>
      exact h.evict hspec.nodup (fun s hs => (hmem s hs).1) (fun s hs => (hmem s hs).2.1)
        (fun s hs => (hmem s hs).2.2) hlen
    | some adm =>
      exact h.foldl_admitVictim adm key hspec.nodup (fun s hs => (hmem s hs).1)
        (fun s hs => (hmem s hs).2.1) (fun s hs => (hmem s hs).2.2) hlen

/-- No pass touches a slot without an owner. -/
theorem passes_free {emergency : Bool} {minCold : ℕ} {protectHot : Bool}
    {ineligible : ℕ → Bool} (hmem : ineligible ∈ passes cfg T v t emergency minCold protectHot)
    {s : ℕ} (hs : t.owner s = none) : ineligible s = true := by
  have hhard : hard v t s = true := by simp [hard, hs]
  have hblocked : blocked v t s = true := by simp [blocked, hhard]
  simp only [passes, List.mem_append, List.mem_singleton] at hmem
  rcases hmem with rfl | hmem
  · simp [hblocked]
  · split at hmem
    · rcases List.mem_pair.mp hmem with rfl | rfl
      · simp [hblocked]
      · simp [hhard]
    · simp at hmem

end Passes

section Take

variable {cfg : Config} {T : TopK} {v : View} {t : Tier}

/-- The tier with `k` slots popped off its free stack. -/
theorem Took.popFree (hbook : t.book.Consistent cfg.nSlots) (htab : t.slotTable = t.mirror)
    (k : ℕ) : Took cfg t k (t.free.take k) { t with free := t.free.drop k } where
  lent := SlotMap.Lent.popFree hbook k
  length_le := by simp
  tables := htab
  unmapped _ hp := hp
  frozen := rfl

/-- A take from a tier with consistent books lends what it returns. -/
theorem takeSlotsBatch_took (hbook : t.book.Consistent cfg.nSlots)
    (htab : t.slotTable = t.mirror) (k : ℕ) (emergency : Bool) (minCold : ℕ)
    (admission : Option (List ℚ)) (protectHot : Bool) :
    Took cfg t k (takeSlotsBatch cfg T v t k emergency minCold admission protectHot).1
      (takeSlotsBatch cfg T v t k emergency minCold admission protectHot).2 := by
  have hpop := Took.popFree hbook htab k
  simp only [takeSlotsBatch]
  split
  · exact hpop
  · split
    · exact hpop
    · -- every pass extends the take, starting from what was popped
      have hstart : TakingOk cfg t k ⟨{ t with free := t.free.drop k }, t.free.take k, [], false⟩ :=
        ⟨hpop, rfl, fun s hs => .inr ((hbook.free_iff s
          (hbook.free_lt s (List.mem_of_mem_take hs)) (by simp)).mp (List.mem_of_mem_take hs))⟩
      refine (List.foldlRecOn (motive := TakingOk cfg t k) _ _ hstart
        fun a ha ineligible hmem => ?_).toTook
      exact ha.takePass _ admission fun s hs => passes_free hmem hs

/-- The slots that a take which is not an emergency may evict. -/
def coldSlots (cfg : Config) (v : View) (t : Tier) (minCold : ℕ) : List ℕ :=
  (List.range cfg.nSlots).filter fun s =>
    !(blocked v t s || decide (t.tick < t.ownerTick s + minCold))

/-- A plain take returns as many slots as asked for, or as are free or cold. -/
theorem takeSlotsBatch_length (k minCold : ℕ) :
    (takeSlotsBatch cfg T v t k false minCold none false).1.length =
      min k (t.free.length + (coldSlots cfg v t minCold).length) := by
  simp only [takeSlotsBatch, Option.any_none, Bool.false_eq_true, if_false]
  split
  · next hk =>
    rw [List.length_take] at hk ⊢
    omega
  · next hk =>
    have helig : eligible cfg (fun s => blocked v t s || decide (t.tick < t.ownerTick s + minCold))
        [] = coldSlots cfg v t minCold := by
      simp [eligible, coldSlots]
    have hspec := T.spec false (t.key cfg) (coldSlots cfg v t minCold)
      (min (k - (t.free.take k).length) (coldSlots cfg v t minCold).length)
      (List.nodup_range.filter _)
    have hpass : (takePass cfg T (t.key cfg) k none ⟨{ t with free := t.free.drop k },
        t.free.take k, [], false⟩
        fun s => blocked v t s || decide (t.tick < t.ownerTick s + minCold)).out =
        t.free.take k ++ T.pick false (t.key cfg) (coldSlots cfg v t minCold)
          (min (k - (t.free.take k).length) (coldSlots cfg v t minCold).length) := by
      rw [takePass, if_neg (by simpa using hk)]
      change _ ++ T.pick false _ (eligible cfg _ []) (min _ (eligible cfg _ []).length) = _
      rw [helig]
    have hlen := congrArg List.length hpass
    rw [List.length_append, hspec.length, List.length_take] at hlen
    rw [List.length_take] at hk
    simp only [passes, Bool.false_and, Bool.or_false]
    refine Eq.trans ?_ (hlen.trans (by omega))
    rfl

end Take

end VllmMoet.Delta
