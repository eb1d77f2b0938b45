import Mathlib.Algebra.Order.Group.Multiset
import VllmMoet.Lib.Transition
import VllmMoet.Placement.Admission

/-!
# The calls of a placement manager

The host's side alone, without the streams: `fill_initial`, `note_uses` and `plan`, in any order
and with any logs, over the pools and the pins that `record_ptr` takes with the store tail.

* `pinsOfAll`: the pins of a plan are those of its promotions.
* `Planning.Chosen`: what the slots of a layer's promotions held before the call.
* `consistent_fillFrom_iff`: a fill keeps the mirrors inverse exactly if its residents are
  different and none of them is in a later slot than the one it is put in.
* `pools_kept`: every run.
-/

namespace VllmMoet

namespace Placement

/-! ### The pins of a plan -/

section Plans

variable {cfg : Config} {avail : ℕ → ℕ → ℕ → Bool} {misses : List Miss} {lastMiss : ℕ → ℕ → ℤ}
  {pools : ℕ → ResidentPool} {l : ℕ} {protect : List ℕ} {missStep : ℕ → ℤ} {st : Planning}

/-- The pins of some promotions of a layer. -/
def pinsOfAll (cfg : Config) (l : ℕ) (out : List Promotion) : List Pin :=
  out.flatMap fun p => pinsOf cfg l p.expert (List.range cfg.V)

theorem mem_pinsOf {e : ℕ} {slices : List ℕ} {x : Pin} :
    x ∈ pinsOf cfg l e slices ↔ cfg.tail = true ∧ ∃ v ∈ slices, x = (l, e, v) := by
  rw [pinsOf]
  split
  · next h => simp [h, eq_comm (a := x)]
  · next h => simp [h]

/-- The pins that the promotion loop holds are those of its promotions. -/
theorem acquired_promoteExperts (es : List ℕ) (h : st.acquired = pinsOfAll cfg l st.out) :
    (promoteExperts cfg avail l protect missStep st es).acquired =
      pinsOfAll cfg l (promoteExperts cfg avail l protect missStep st es).out := by
  induction es generalizing st with
  | nil => exact h
  | cons e es ih =>
    rw [promoteExperts]
    split
    · exact h
    · refine ih ?_
      rw [promoteExpert]
      cases st.pool.slotOfExpert e with
      | some t => exact h
      | none =>
        cases st.pool.pickVictim protect (missStep e) 1 with
        | none => exact h
        | some s =>
          dsimp only
          split
          · rw [h, pinsOfAll, pinsOfAll, List.flatMap_append, List.flatMap_singleton]
          · exact h

theorem acquired_planLayer (l : ℕ) : (planLayer cfg avail misses lastMiss pools l).acquired =
    pinsOfAll cfg l (planLayer cfg avail misses lastMiss pools l).out :=
  acquired_promoteExperts _ rfl

/-- A pin that a plan holds is that of a slice of one of its promotions. -/
theorem mem_plannedPins {x : Pin} (hx : x ∈ plannedPins cfg avail misses lastMiss pools) :
    ∃ out, (x.1, out) ∈ plan cfg avail misses lastMiss pools ∧
      ∃ p ∈ out, p.expert = x.2.1 ∧ x.2.2 < cfg.V := by
  obtain ⟨l, hl, hx⟩ := List.mem_flatMap.mp hx
  rw [acquired_planLayer] at hx
  obtain ⟨p, hp, hx⟩ := List.mem_flatMap.mp hx
  obtain ⟨-, v, hv, rfl⟩ := mem_pinsOf.mp hx
  refine ⟨_, List.mem_filter.mpr ⟨List.mem_map.mpr ⟨l, hl, rfl⟩, ?_⟩, p, hp, rfl,
    List.mem_range.mp hv⟩
  exact decide_eq_true (List.ne_nil_of_mem hp)

/-- A plan takes every pin once. -/
theorem nodup_plannedPins (h : ∀ l, (pools l).Consistent) :
    (plannedPins cfg avail misses lastMiss pools).Nodup := by
  rw [plannedPins, List.nodup_flatMap]
  have hlayer : ∀ l, ∀ x ∈ (planLayer cfg avail misses lastMiss pools l).acquired, x.1 = l := by
    intro l x hx
    rw [acquired_planLayer] at hx
    obtain ⟨p, -, hx⟩ := List.mem_flatMap.mp hx
    obtain ⟨-, v, -, rfl⟩ := mem_pinsOf.mp hx
    rfl
  constructor
  · intro l _
    have hexperts := (planLayer_ok cfg avail misses lastMiss h l).planned.experts
    rw [acquired_planLayer, pinsOfAll, List.nodup_flatMap]
    constructor
    · intro p _
      rw [pinsOf]
      split
      · exact List.nodup_range.map fun v v' heq => (Prod.mk.inj (Prod.mk.inj heq).2).2
      · exact List.nodup_nil
    · refine (List.pairwise_map.mp hexperts).imp fun hne x hx hx' => ?_
      obtain ⟨-, v, -, rfl⟩ := mem_pinsOf.mp hx
      obtain ⟨-, v', -, heq⟩ := mem_pinsOf.mp hx'
      exact hne (Prod.mk.inj (Prod.mk.inj heq).2).1
  · refine (List.nodup_range.filter _).imp fun hne x hx hx' => ?_
    exact hne ((hlayer _ x hx).symm.trans (hlayer _ x hx'))

end Plans

/-! ### What a plan evicts -/

/-- The promotions of a layer against the pool before the call: how many there are, that they are
missed experts, and that each slot was empty or held an expert that may be evicted for it. -/
structure Planning.Chosen (cfg : Config) (P : ResidentPool) (protect : List ℕ) (missStep : ℕ → ℤ)
    (st : Planning) : Prop where
  size : st.pool.R = P.R
  evictable : st.pool.evictable = P.evictable
  /-- the slots that are not filled are as they were -/
  frame : ∀ s, s ∉ st.out.map (·.slot) → st.pool.key s = P.key s
  bound : st.out.length ≤ cfg.maxPerLayer
  missed : ∀ p ∈ st.out, p.expert ∈ protect ∧ p.missStep = missStep p.expert
  slot : ∀ p ∈ st.out, p.slot < P.R
  evicted : ∀ p ∈ st.out, ∀ v, p.victim = some v → P.evictable v = true ∧ v ∉ protect ∧
    P.key p.slot < p.missStep * keyUses + 1

section Choice

variable {cfg : Config} {avail : ℕ → ℕ → ℕ → Bool} {l : ℕ} {protect : List ℕ} {missStep : ℕ → ℤ}
  {P : ResidentPool} {st : Planning} {e : ℕ}

/-- Filling a slot changes no other slot's key. -/
theorem ResidentPool.key_setSlot {s t : ℕ} {step : ℤ} (hne : t ≠ s) :
    (P.setSlot s (some e) step).key t = P.key t := by
  simp only [ResidentPool.key, ResidentPool.setSlot, Function.update_of_ne hne]

theorem Planning.Chosen.init (cfg : Config) (P : ResidentPool) (protect : List ℕ)
    (missStep : ℕ → ℤ) : Planning.Chosen cfg P protect missStep ⟨P, [], [], []⟩ where
  size := rfl
  evictable := rfl
  frame _ _ := rfl
  bound := Nat.zero_le _
  missed _ hp := absurd hp List.not_mem_nil
  slot _ hp := absurd hp List.not_mem_nil
  evicted _ hp := absurd hp List.not_mem_nil

/-- One turn of the promotion loop, below the limit. -/
theorem Planning.Chosen.promoteExpert (h : st.Chosen cfg P protect missStep)
    (hok : st.Ok P protect) (he : e ∈ protect) (hlt : st.out.length < cfg.maxPerLayer) :
    (promoteExpert cfg avail l protect missStep st e).Chosen cfg P protect missStep := by
  obtain ⟨hpool, hout⟩ | ⟨s, hnone, hpick, hpool, hout⟩ :=
    promoteExpert_cases cfg avail l protect missStep st e
  · obtain ⟨h₁, h₂, h₃, h₄, h₅, h₆, h₇⟩ := h
    exact ⟨hpool ▸ h₁, hpool ▸ h₂, by rw [hpool, hout]; exact h₃, hout ▸ h₄, hout ▸ h₅, hout ▸ h₆,
      hout ▸ h₇⟩
  obtain ⟨hs, hvictim⟩ := ResidentPool.pickVictim_spec hpick
  -- the slots filled before hold protected experts
  have hfresh : s ∉ st.out.map (·.slot) := by
    intro hmem
    obtain ⟨p, hp, rfl⟩ := List.mem_map.mp hmem
    obtain ⟨hprot, hslot⟩ := hok.held p hp
    rcases hvictim with hempty | ⟨e', he', -, hne, -⟩
    · exact absurd (hslot.symm.trans hempty) (Option.some_ne_none _)
    · obtain rfl := Option.some.inj (hslot.symm.trans he')
      exact hne hprot
  have hmem : ∀ p, p ∈ st.out ++ [⟨e, s, st.pool.expertOfSlot s, missStep e⟩] →
      p ∈ st.out ∨ p = ⟨e, s, st.pool.expertOfSlot s, missStep e⟩ := by
    intro p hp
    exact (List.mem_append.mp hp).imp id List.mem_singleton.mp
  constructor
  case size => rw [hpool, ResidentPool.setSlot_R, h.size]
  case evictable =>
    rw [hpool]
    exact h.evictable
  case frame =>
    intro t ht
    rw [hout, List.map_append, List.mem_append, not_or] at ht
    have hne : t ≠ s := fun heq => ht.2 (List.mem_singleton.mpr heq)
    rw [hpool, ResidentPool.key_setSlot hne]
    exact h.frame t ht.1
  case bound =>
    rw [hout, List.length_append]
    exact hlt
  case missed =>
    rw [hout]
    intro p hp
    rcases hmem p hp with hp | rfl
    · exact h.missed p hp
    · exact ⟨he, rfl⟩
  case slot =>
    rw [hout]
    intro p hp
    rcases hmem p hp with hp | rfl
    · exact h.slot p hp
    · exact h.size ▸ hs
  case evicted =>
    rw [hout]
    intro p hp v hv
    rcases hmem p hp with hp | rfl
    · exact h.evicted p hp v hv
    · rcases hvictim with hempty | ⟨e', he', hev, hne, hkey⟩
      · exact absurd (hv.symm.trans hempty) (Option.some_ne_none _)
      · obtain rfl := Option.some.inj (he'.symm.trans hv)
        rw [h.frame s hfresh] at hkey
        exact ⟨h.evictable ▸ hev, hne, hkey⟩

/-- The promotion loop. -/
theorem Planning.Chosen.loop (h : st.Chosen cfg P protect missStep) (hok : st.Ok P protect)
    {es : List ℕ} (hes : ∀ e ∈ es, e ∈ protect) :
    (promoteExperts cfg avail l protect missStep st es).Chosen cfg P protect missStep := by
  induction es generalizing st with
  | nil => exact h
  | cons e es ih =>
    have he := hes e List.mem_cons_self
    rw [promoteExperts]
    split
    · exact h
    · next hlt =>
      refine ih (h.promoteExpert hok he (Nat.lt_of_not_le hlt)) ?_
        fun x hx => hes x (List.mem_cons_of_mem e hx)
      exact Planning.Ok.promoteExpert hok he

end Choice

/-! ### Fills -/

namespace ResidentPool

/-- The residents of a fill are different, and none of them is in a later slot than the one it is
put in. -/
def Fillable (P : ResidentPool) (residents : List ℕ) : Prop :=
  residents.Nodup ∧
    ∀ (j i e : ℕ), residents[j]? = some e → P.slotOfExpert e = some i → i ≤ j

section Fill

variable {P : ResidentPool} {s e : ℕ} {es : List ℕ}

theorem fillFrom_R : (P.fillFrom s es).R = P.R := by
  induction es generalizing P s with
  | nil => rfl
  | cons e es ih => exact ih.trans (setSlot_R s (some e) 0)

theorem fillFrom_evictable : (P.fillFrom s es).evictable = P.evictable := by
  induction es generalizing P s with
  | nil => rfl
  | cons e es ih => exact ih

theorem fillFrom_append (bs : List ℕ) :
    P.fillFrom s (es ++ bs) = (P.fillFrom s es).fillFrom (s + es.length) bs := by
  induction es generalizing P s with
  | nil => rfl
  | cons e es ih =>
    rw [List.cons_append, fillFrom, fillFrom, ih, List.length_cons, Nat.add_right_comm, Nat.add_assoc]

/-- What the slots hold after a fill. -/
theorem fillFrom_expertOfSlot (k : ℕ) : (P.fillFrom s es).expertOfSlot k =
    if s ≤ k ∧ k < s + es.length then es[k - s]? else P.expertOfSlot k := by
  induction es generalizing P s with
  | nil => rw [if_neg (by simp)]; rfl
  | cons e es ih =>
    rw [fillFrom, ih, setSlot_expertOfSlot, Function.update_apply, List.length_cons]
    rcases Nat.lt_trichotomy k s with hlt | rfl | hlt
    · rw [if_neg (by omega), if_neg (by omega), if_neg (by omega)]
    · rw [if_neg (by omega), if_pos rfl, if_pos (by omega), Nat.sub_self]
      rfl
    · obtain ⟨d, rfl⟩ : ∃ d, k = s + 1 + d := ⟨k - (s + 1), by omega⟩
      rw [Nat.add_sub_cancel_left, show s + 1 + d - s = d + 1 by omega, List.getElem?_cons_succ]
      rw [if_neg (show ¬ s + 1 + d = s by omega)]
      exact if_congr (by omega) rfl rfl

/-- A slot that is filled with the expert it holds keeps the mirrors inverse too. -/
theorem Consistent.setSlot_of_le (h : P.Consistent) (hs : s < P.R)
    (he : P.slotOfExpert e = none ∨ P.slotOfExpert e = some s) (step : ℤ) :
    (P.setSlot s (some e) step).Consistent := by
  rcases he with he | he
  · exact h.setSlot hs he step
  · have hse := ((h e s).mp he).2
    intro x t
    have hx := h x t
    rw [setSlot_slotOfExpert, setSlot_R, setSlot_expertOfSlot, hse, Function.update_apply]
    by_cases hxe : x = e
    · subst hxe
      rw [if_pos rfl, ← he, hx]
      by_cases hts : t = s
      · simp only [hts, hse, if_true]
      · rw [if_neg hts]
    · have hne : ¬ some e = some x := fun heq => hxe (Option.some.inj heq).symm
      rw [if_neg hxe, if_neg hne, hx]
      by_cases hts : t = s
      · simp only [hts, hse, if_true]
      · rw [if_neg hts]

/-- The residents behind slot `s`, none of them in a later slot than its new one. -/
theorem Consistent.fillFrom_of_le (h : P.Consistent) (hs : s + es.length ≤ P.R)
    (hnodup : es.Nodup)
    (hes : ∀ (j i e : ℕ), es[j]? = some e → P.slotOfExpert e = some i → s ≤ i ∧ i ≤ s + j) :
    (P.fillFrom s es).Consistent := by
  induction es generalizing P s with
  | nil => exact h
  | cons e es ih =>
    obtain ⟨he, hnodup⟩ := List.nodup_cons.mp hnodup
    rw [List.length_cons] at hs
    have hsR : s < P.R := by omega
    have hhead : P.slotOfExpert e = none ∨ P.slotOfExpert e = some s := by
      cases hslot : P.slotOfExpert e with
      | none => exact .inl rfl
      | some i =>
        have hi := hes 0 i e rfl hslot
        rw [show i = s by omega]
        exact .inr rfl
    refine ih (h.setSlot_of_le hsR hhead 0) (by rw [setSlot_R]; omega) hnodup ?_
    intro j i x hx hxi
    have hne : x ≠ e := fun heq => he (heq ▸ List.mem_of_getElem? hx)
    rw [setSlot_slotOfExpert, if_neg hne] at hxi
    split at hxi
    · exact absurd hxi (Option.some_ne_none i).symm
    · next hold =>
      have hi := hes (j + 1) i x hx hxi
      -- slot `s` did not hold `x`
      have his : i ≠ s := fun his => hold (his ▸ ((h x i).mp hxi).2)
      omega

/-- An expert that is not filled in and that was nowhere, or in a slot the fill overwrites, is
nowhere. -/
theorem fillFrom_slotOfExpert_none {x : ℕ} (hx : x ∉ es)
    (hold : P.slotOfExpert x = none ∨
      ∃ k, s ≤ k ∧ k < s + es.length ∧ P.expertOfSlot k = some x) :
    (P.fillFrom s es).slotOfExpert x = none := by
  induction es generalizing P s with
  | nil =>
    rcases hold with hold | ⟨k, hk, hk', -⟩
    · exact hold
    · exact absurd hk' (Nat.not_lt.mpr hk)
  | cons e es ih =>
    rw [List.mem_cons, not_or] at hx
    refine ih hx.2 ?_
    rw [setSlot_slotOfExpert, setSlot_expertOfSlot, if_neg hx.1]
    rcases hold with hold | ⟨k, hk, hk', hslot⟩
    · exact .inl (by rw [hold, ite_self])
    · by_cases hks : k = s
      · exact .inl (if_pos (hks ▸ hslot))
      · rw [List.length_cons] at hk'
        refine .inr ⟨k, by omega, by omega, ?_⟩
        rw [Function.update_of_ne hks]
        exact hslot

/-- **When a fill keeps the mirrors inverse.** -/
theorem consistent_fillFrom_iff (h : P.Consistent) (hes : es.length ≤ P.R) :
    (P.fillFrom 0 es).Consistent ↔ P.Fillable es := by
  constructor
  · intro hfill
    -- an expert of the list is found where it was filled, so it is listed once
    have hheld : ∀ (j e : ℕ), es[j]? = some e → (P.fillFrom 0 es).slotOfExpert e = some j := by
      intro j e he
      obtain ⟨hj, -⟩ := List.getElem?_eq_some_iff.mp he
      refine (hfill e j).mpr ⟨by rw [fillFrom_R]; omega, ?_⟩
      rw [fillFrom_expertOfSlot, if_pos (by omega)]
      exact he
    have hnodup : es.Nodup := by
      refine List.nodup_iff_injective_get.mpr fun i j hij => Fin.ext ?_
      have hi := hheld i _ (List.getElem?_eq_getElem i.2)
      have hj := hheld j _ (List.getElem?_eq_getElem j.2)
      have heq : es[(i : ℕ)] = es[(j : ℕ)] := hij
      rw [heq] at hi
      exact Option.some.inj (hi.symm.trans hj)
    refine ⟨hnodup, fun j i e he hi => ?_⟩
    by_contra hlt
    obtain ⟨hiR, hslot⟩ := (h e i).mp hi
    obtain ⟨hj, hget⟩ := List.getElem?_eq_some_iff.mp he
    by_cases hil : i < es.length
    · -- the fill of slot `i` unmaps `e` from its new slot
      have hsplit : es = es.take j ++ (e :: es.drop (j + 1)) := by
        rw [← hget, List.getElem_cons_drop, List.take_append_drop]
      have hlen : (es.take j).length = j := List.length_take_of_le hj.le
      have hnot : e ∉ es.drop (j + 1) := by
        rw [hsplit] at hnodup
        exact (List.nodup_cons.mp (List.nodup_append.mp hnodup).2.1).1
      have hnone : (P.fillFrom 0 es).slotOfExpert e = none := by
        rw [hsplit, fillFrom_append, fillFrom, hlen, Nat.zero_add]
        refine fillFrom_slotOfExpert_none hnot (.inr ⟨i, by omega, ?_, ?_⟩)
        · rw [List.length_drop]
          omega
        · rw [setSlot_expertOfSlot, Function.update_of_ne (by omega), fillFrom_expertOfSlot,
            if_neg (by omega)]
          exact hslot
      exact absurd (hnone.symm.trans (hheld j e he)) (Option.some_ne_none j).symm
    · -- slot `i` still holds `e`
      have hstill : (P.fillFrom 0 es).slotOfExpert e = some i := by
        refine (hfill e i).mpr ⟨by rw [fillFrom_R]; exact hiR, ?_⟩
        rw [fillFrom_expertOfSlot, if_neg (by omega)]
        exact hslot
      have hij := Option.some.inj (hstill.symm.trans (hheld j e he))
      omega
  · rintro ⟨hnodup, hle⟩
    refine h.fillFrom_of_le (by omega) hnodup fun j i e he hi => ?_
    have := hle j i e he hi
    omega

end Fill

/-- The use log changes the keys only. -/
theorem noteUse_evictable {P : ResidentPool} (ids : List ℤ) (step : ℤ) :
    (P.noteUse ids step).evictable = P.evictable := by
  rw [noteUse]
  generalize ids.filterMap _ = slots
  induction slots generalizing P with
  | nil => rfl
  | cons s slots ih => exact ih (P := P.touchSlot step s)

end ResidentPool

/-! ### The pins, call by call -/

section Ledger

variable (cfg : Config) (avail : ℕ → ℕ → ℕ → Bool)

/-- `_acquire`, on the pins that are held: `record_ptr` pins every slice that is available, and if
one is not, `record_release` gives the others back. -/
def acquire (held : Multiset Pin) (l e : ℕ) : Multiset Pin :=
  let pins := pinsOf cfg l e ((List.range cfg.V).filter (avail l e))
  if (List.range cfg.V).all (avail l e) then held + pins else held + pins - pins

/-- The pins that are held after one turn of the promotion loop. -/
def holdExpert (l : ℕ) (protect : List ℕ) (missStep : ℕ → ℤ) (st : Planning) (held : Multiset Pin)
    (e : ℕ) : Multiset Pin :=
  match st.pool.slotOfExpert e with
  | some _ => held
  | none =>
    match st.pool.pickVictim protect (missStep e) 1 with
    | none => held
    | some _ => acquire cfg avail held l e

/-- The pins that are held after the promotion loop. -/
def holdExperts (l : ℕ) (protect : List ℕ) (missStep : ℕ → ℤ) :
    Planning → Multiset Pin → List ℕ → Multiset Pin
  | _, held, [] => held
  | st, held, e :: es =>
    if cfg.maxPerLayer ≤ st.out.length then held
    else
      holdExperts l protect missStep (promoteExpert cfg avail l protect missStep st e)
        (holdExpert cfg avail l protect missStep st held e) es

/-- The pins that are held after `plan`. -/
def holdLayers (misses : List Miss) (lastMiss : ℕ → ℕ → ℤ) (pools : ℕ → ResidentPool)
    (held : Multiset Pin) : Multiset Pin :=
  (missedLayers cfg misses).foldl (fun held l =>
    holdExperts cfg avail l (missedExperts misses l) (lastMissStep misses l) ⟨pools l, [], [], []⟩
      held (admitted cfg misses (lastMiss l) l)) held

variable {cfg avail} {l : ℕ} {protect : List ℕ} {missStep : ℕ → ℤ} {st : Planning}
  {held : Multiset Pin} {misses : List Miss} {lastMiss : ℕ → ℕ → ℤ} {pools : ℕ → ResidentPool}

/-- An `_acquire` that fails leaves no pin. -/
theorem acquire_eq (e : ℕ) : acquire cfg avail held l e =
    if (List.range cfg.V).all (avail l e) then held + pinsOf cfg l e (List.range cfg.V)
    else held := by
  rw [acquire]
  split
  · next hall =>
    rw [List.filter_eq_self.mpr fun v hv => List.all_eq_true.mp hall v hv]
  · exact Multiset.add_sub_cancel_right

theorem holdExpert_add (e : ℕ) :
    holdExpert cfg avail l protect missStep st held e + st.acquired =
      held + (promoteExpert cfg avail l protect missStep st e).acquired := by
  rw [holdExpert, promoteExpert]
  cases st.pool.slotOfExpert e with
  | some t => rfl
  | none =>
    cases st.pool.pickVictim protect (missStep e) 1 with
    | none => rfl
    | some s =>
      dsimp only
      rw [acquire_eq]
      split
      · rw [← Multiset.coe_add, add_assoc, add_comm (Multiset.ofList st.acquired)]
      · rfl

/-- What the promotion loop adds to the pins is what it holds for its promotions. -/
theorem holdExperts_add (es : List ℕ) :
    holdExperts cfg avail l protect missStep st held es + st.acquired =
      held + (promoteExperts cfg avail l protect missStep st es).acquired := by
  induction es generalizing st held with
  | nil => rfl
  | cons e es ih =>
    rw [holdExperts, promoteExperts]
    split
    · rfl
    · refine add_right_cancel (b := ((promoteExpert cfg avail l protect missStep st e).acquired :
        Multiset Pin)) ?_
      rw [add_right_comm, ih, add_right_comm, holdExpert_add, add_right_comm]

/-- `plan` leaves the pins of its promotions held, and no other. -/
theorem holdLayers_eq : holdLayers cfg avail misses lastMiss pools held =
    held + ((plan cfg avail misses lastMiss pools).flatMap fun p => pinsOfAll cfg p.1 p.2) := by
  have hpins : ((plan cfg avail misses lastMiss pools).flatMap fun p => pinsOfAll cfg p.1 p.2) =
      (missedLayers cfg misses).flatMap fun l =>
        (planLayer cfg avail misses lastMiss pools l).acquired := by
    rw [plan]
    induction missedLayers cfg misses with
    | nil => rfl
    | cons l ls ih =>
      rw [List.map_cons, List.filter_cons, List.flatMap_cons, acquired_planLayer]
      split
      · rw [List.flatMap_cons, ih]
      · next hnil =>
        have hout : (planLayer cfg avail misses lastMiss pools l).out = [] :=
          not_not.mp fun hne => hnil (decide_eq_true hne)
        rw [ih, hout]
        rfl
  rw [hpins, holdLayers]
  induction missedLayers cfg misses generalizing held with
  | nil => exact (add_zero held).symm
  | cons l ls ih =>
    have hlayer : holdExperts cfg avail l (missedExperts misses l) (lastMissStep misses l)
        ⟨pools l, [], [], []⟩ held (admitted cfg misses (lastMiss l) l) + ([] : List Pin) =
          held + (planLayer cfg avail misses lastMiss pools l).acquired := holdExperts_add _
    rw [Multiset.coe_nil, add_zero] at hlayer
    rw [List.foldl_cons, ih, hlayer, List.flatMap_cons, ← Multiset.coe_add, add_assoc]

end Ledger

/-! ### Runs -/

/-- The manager's state on the host. -/
structure Manager where
  pools : ℕ → ResidentPool
  lastMiss : ℕ → ℕ → ℤ
  /-- the records that are pinned for promotions -/
  held : Multiset Pin

/-- The calls. -/
inductive ManagerCall
  | fillInitial (l : ℕ) (residents : List ℕ)
  | noteUses (uses : List (ℤ × ℕ × List ℤ))
  | plan (misses : List Miss) (avail : ℕ → ℕ → ℕ → Bool)

/-- One call. `fill_initial` asserts that the residents fit. -/
def Manager.call (cfg : Config) (M : Manager) : ManagerCall → Option Manager
  | .fillInitial l residents =>
    if residents.length ≤ (M.pools l).R then
      some { M with pools := Function.update M.pools l ((M.pools l).fillFrom 0 residents) }
    else none
  | .noteUses uses =>
    some { M with
      pools := uses.foldl (fun pools u =>
        Function.update pools u.2.1 ((pools u.2.1).noteUse u.2.2 u.1)) M.pools }
  | .plan misses avail =>
    some
      { pools := plannedPools cfg avail misses M.lastMiss M.pools
        lastMiss := nextLastMiss cfg misses M.lastMiss
        held := holdLayers cfg avail misses M.lastMiss M.pools M.held }

/-- A new manager: the pools are empty, and know which experts have a record. -/
def Manager.Start (recordOk : ℕ → ℕ → Bool) (M : Manager) : Prop :=
  (∀ l, ∃ E R, M.pools l = ResidentPool.empty E R (recordOk l)) ∧
    M.lastMiss = (fun _ _ => noMiss) ∧ M.held = 0

/-- Every sequence of calls. -/
def managerSystem (cfg : Config) (recordOk : ℕ → ℕ → Bool) : TransitionSystem Manager ManagerCall :=
  .ofStep (Manager.Start recordOk) (Manager.call cfg)

/-- A fill keeps the mirrors inverse. -/
def FillOk (M : Manager) : ManagerCall → Prop
  | .fillInitial l residents => (M.pools l).Fillable residents
  | .noteUses _ | .plan _ _ => True

section Runs

variable {cfg : Config} {recordOk : ℕ → ℕ → Bool} {M M' : Manager}

/-- The pools of a run. -/
def Manager.Kept (recordOk : ℕ → ℕ → Bool) (M : Manager) : Prop :=
  ∀ l, (M.pools l).Consistent ∧ (M.pools l).evictable = recordOk l

theorem Manager.Start.kept (h : M.Start recordOk) : M.Kept recordOk := by
  intro l
  obtain ⟨E, R, hpool⟩ := h.1 l
  rw [hpool]
  exact ⟨ResidentPool.empty_consistent E R _, rfl⟩

theorem Manager.Kept.noteUses (h : M.Kept recordOk) (uses : List (ℤ × ℕ × List ℤ)) (l : ℕ) :
    let pools := uses.foldl (fun pools u =>
      Function.update pools u.2.1 ((pools u.2.1).noteUse u.2.2 u.1)) M.pools
    (pools l).Consistent ∧ (pools l).evictable = recordOk l := by
  change ∀ l, _ at h
  generalize M.pools = pools at h
  induction uses generalizing pools with
  | nil => exact h l
  | cons u uses ih =>
    refine ih _ fun l => ?_
    dsimp only
    by_cases hl : l = u.2.1
    · subst hl
      rw [Function.update_self]
      exact ⟨(h _).1.noteUse _ _, (ResidentPool.noteUse_evictable _ _).trans (h _).2⟩
    · rw [Function.update_of_ne hl]
      exact h l

/-- What a layer's plan is to the pool before it. -/
theorem Manager.Kept.planLayer (h : M.Kept recordOk) (cfg : Config) (misses : List Miss)
    (avail : ℕ → ℕ → ℕ → Bool) (l : ℕ) :
    (planLayer cfg avail misses M.lastMiss M.pools l).Ok (M.pools l) (missedExperts misses l) ∧
      (planLayer cfg avail misses M.lastMiss M.pools l).Chosen cfg (M.pools l)
        (missedExperts misses l) (lastMissStep misses l) := by
  refine ⟨planLayer_ok cfg avail misses M.lastMiss (fun l => (h l).1) l, ?_⟩
  refine (Planning.Chosen.init cfg _ _ _).loop (Planning.Ok.init (h l).1 _) fun e he => ?_
  exact missed_of_admitted cfg misses he

/-- Every call keeps the pools. -/
theorem Manager.Kept.call (h : M.Kept recordOk) {c : ManagerCall} (hc : FillOk M c)
    (hs : M.call cfg c = some M') : M'.Kept recordOk := by
  cases c with
  | fillInitial l residents =>
    obtain ⟨hlen, hs⟩ := Option.ite_none_right_eq_some.mp hs
    obtain rfl := Option.some.inj hs
    intro l'
    by_cases hl : l' = l
    · subst hl
      dsimp only
      rw [Function.update_self]
      exact ⟨(ResidentPool.consistent_fillFrom_iff (h l').1 hlen).mpr hc,
        ResidentPool.fillFrom_evictable.trans (h l').2⟩
    · dsimp only
      rw [Function.update_of_ne hl]
      exact h l'
  | noteUses uses =>
    obtain rfl := Option.some.inj hs
    exact h.noteUses uses
  | plan misses avail =>
    obtain rfl := Option.some.inj hs
    intro l
    dsimp only
    rw [plannedPools]
    split
    · obtain ⟨hok, hchosen⟩ := h.planLayer cfg misses avail l
      exact ⟨hok.consistent, hchosen.evictable.trans (h l).2⟩
    · exact h l

/-- What the promotions of a call are to the pools before it. -/
theorem Manager.Kept.plan (h : M.Kept recordOk) {misses : List Miss}
    {avail : ℕ → ℕ → ℕ → Bool} {l : ℕ} {out : List Promotion}
    (hout : (l, out) ∈ plan cfg avail misses M.lastMiss M.pools) :
    out.length ≤ cfg.maxPerLayer ∧ (out.map (·.slot)).Nodup ∧ (out.map (·.expert)).Nodup ∧
    ∀ p ∈ out, p.expert ∈ missedExperts misses l ∧
      p.missStep = lastMissStep misses l p.expert ∧
      (M.pools l).slotOfExpert p.expert = none ∧ p.slot < (M.pools l).R ∧
      (M.pools l).expertOfSlot p.slot = p.victim ∧
      ∀ v, p.victim = some v → recordOk l v = true ∧ v ∉ missedExperts misses l ∧
        (M.pools l).key p.slot < p.missStep * keyUses + 1 := by
  obtain ⟨l', hl', heq⟩ := List.mem_map.mp (List.mem_filter.mp hout).1
  obtain ⟨rfl, rfl⟩ := Prod.mk.inj heq
  obtain ⟨hok, hchosen⟩ := h.planLayer cfg misses avail l'
  refine ⟨hchosen.bound, hok.planned.slots, hok.planned.experts, fun p hp => ?_⟩
  obtain ⟨hmissed, hstep⟩ := hchosen.missed p hp
  refine ⟨hmissed, hstep, hok.planned.absent p hp, hchosen.slot p hp, hok.planned.victim p hp, ?_⟩
  intro v hv
  obtain ⟨hev, hnot, hkey⟩ := hchosen.evicted p hp v hv
  exact ⟨(h l').2 ▸ hev, hnot, hkey⟩

/-- The pools are kept along every run whose fills are fillable. -/
theorem kept_invariant (cfg : Config) (recordOk : ℕ → ℕ → Bool) :
    ((managerSystem cfg recordOk).onlySteps FillOk).Invariant (Manager.Kept recordOk) where
  start _ h := h.kept
  step _ _ _ _ h hs := h.call hs.1 hs.2

/-- **Planning keeps the resident pool consistent.** In every run whose fills put different
experts into slots that are not before their old ones: the mirrors are inverse to each other, and
whatever `plan` is called with, a layer's promotions are at most `maxPerLayer`, of different missed
experts that are nowhere in the pool, into different slots, each of them empty or held by an
expert that has a record, is not missed in the call and has a key below the candidate's; and the
pins of these promotions are what the call leaves held. -/
theorem pools_kept (cfg : Config) (recordOk : ℕ → ℕ → Bool)
    (hM : ((managerSystem cfg recordOk).onlySteps FillOk).Reachable M) :
    (∀ l, (M.pools l).Consistent) ∧
    ∀ misses avail, M.call cfg (.plan misses avail) = some M' →
      (∀ l out, (l, out) ∈ plan cfg avail misses M.lastMiss M.pools →
        out.length ≤ cfg.maxPerLayer ∧ (out.map (·.slot)).Nodup ∧ (out.map (·.expert)).Nodup ∧
        ∀ p ∈ out, p.expert ∈ missedExperts misses l ∧
          p.missStep = lastMissStep misses l p.expert ∧
          (M.pools l).slotOfExpert p.expert = none ∧ p.slot < (M.pools l).R ∧
          (M.pools l).expertOfSlot p.slot = p.victim ∧
          ∀ v, p.victim = some v → recordOk l v = true ∧ v ∉ missedExperts misses l ∧
            (M.pools l).key p.slot < p.missStep * keyUses + 1) ∧
      M'.held = M.held + ((plan cfg avail misses M.lastMiss M.pools).flatMap fun p =>
        pinsOfAll cfg p.1 p.2) := by
  have h := (kept_invariant cfg recordOk).holds hM
  refine ⟨fun l => (h l).1, fun misses avail hs => ⟨fun l out hout => h.plan hout, ?_⟩⟩
  obtain rfl := Option.some.inj hs
  exact holdLayers_eq

end Runs

/-- One layer with two slots, at most one promotion a call. -/
def pairConfig : Config where
  V := 2
  V_pos := Nat.two_pos
  nLayers := 1
  maxPerLayer := 1
  window := 0
  batched := true
  tail := true
  promoteSync := false

/-- A manager of four experts. -/
def newManager : Manager where
  pools _ := ResidentPool.empty 4 2 fun _ => true
  lastMiss _ _ := noMiss
  held := 0

theorem start_newManager : newManager.Start fun _ _ => true :=
  ⟨fun _ => ⟨4, 2, rfl⟩, rfl, rfl⟩

theorem fillable_newManager : FillOk newManager (.fillInitial 0 [0, 1]) :=
  ⟨by decide, fun _ i _ _ hi => absurd hi (Option.some_ne_none i).symm⟩

/-- Experts 2 and 3 are missed while expert 1 is in use: 2 takes the slot of 0, and 3 has to
wait. -/
theorem pools_kept_evicting : ∃ M M' : Manager,
    ((managerSystem pairConfig fun _ _ => true).onlySteps FillOk).Reachable M ∧
    M.call pairConfig (.plan [⟨5, 0, 2⟩, ⟨5, 0, 3⟩] fun _ _ _ => true) = some M' ∧
    (M'.pools 0).slotOfExpert 2 = some 0 ∧ (M'.pools 0).slotOfExpert 0 = none ∧
    (M'.pools 0).slotOfExpert 3 = none ∧ (∀ l, (M'.pools l).Consistent) ∧
    M'.held = M.held + ([(0, 2, 0), (0, 2, 1)] : List Pin) := by
  have hfilled := TransitionSystem.Reachable.step (.start start_newManager)
    (show ((managerSystem pairConfig fun _ _ => true).onlySteps FillOk).Step newManager
      (.fillInitial 0 [0, 1]) _ from ⟨fillable_newManager, rfl⟩)
  have hused := hfilled.step (show TransitionSystem.Step _ _ (.noteUses [(3, 0, [1])]) _ from
    ⟨trivial, rfl⟩)
  refine ⟨_, _, hused, rfl, by decide, by decide, by decide, ?_, ?_⟩
  · have hplanned := hused.step (show TransitionSystem.Step _ _
      (.plan [⟨5, 0, 2⟩, ⟨5, 0, 3⟩] fun _ _ _ => true) _ from ⟨trivial, rfl⟩)
    exact (@pools_kept _ newManager pairConfig (fun _ _ => true) hplanned).1
  · have hheld := ((pools_kept pairConfig (fun _ _ => true) hused).2 [⟨5, 0, 2⟩, ⟨5, 0, 3⟩]
      (fun _ _ _ => true) rfl).2
    exact hheld.trans (congrArg _ (by decide))

/-- A fill that swaps the residents of two slots leaves one of them in a slot and unmapped. -/
theorem swapped_fill : ∃ M : Manager,
    (managerSystem pairConfig fun _ _ => true).Reachable M ∧ ¬ (M.pools 0).Consistent := by
  obtain ⟨M, hM, hP⟩ := TransitionSystem.exists_reachable_of_run (Manager.call pairConfig)
    start_newManager [.fillInitial 0 [0, 1], .fillInitial 0 [1, 0]]
    (fun M => decide ((M.pools 0).expertOfSlot 0 = some 1 ∧ (M.pools 0).slotOfExpert 1 = none ∧
      0 < (M.pools 0).R)) (by decide)
  obtain ⟨hslot, hnone, hR⟩ := of_decide_eq_true hP
  refine ⟨M, hM, fun h => ?_⟩
  have hmapped := (h 1 0).mpr ⟨hR, hslot⟩
  exact absurd (hnone.symm.trans hmapped) (Option.some_ne_none 0).symm

end Placement

end VllmMoet
