import VllmMoet.Placement.Pool
import Mathlib.Data.List.Dedup

/-!
# Planning the promotions of a step

`plan` turns the misses of the step just launched into promotions, layer by layer: the
missed experts in the order of their first miss, the ones outside the admission window
dropped, and for each of the rest a slot (`pickVictim`) and the record's slices
(`acquire`). It changes the mirrors at once; the device follows on the copy stream.

`Planned m x m' out` is what the rest of the development uses of it: how a layer's mirror
`m'` after the promotions `out` relates to the mirrors `m`, `x` before.
-/

namespace VllmMoet

namespace Placement

/-- The parameters of a placement manager. -/
structure Config where
  /-- slices per expert -/
  V : ℕ
  V_pos : 0 < V
  /-- layers with a resident pool -/
  nLayers : ℕ
  /-- `max_promotions_per_layer` -/
  maxPerLayer : ℕ
  /-- the admission window in steps; `0` admits every miss -/
  window : ℕ
  /-- the extension has `promote_batch` -/
  batched : Bool
  /-- `record_release` is given: the records are pinned by the store tail -/
  tail : Bool
  /-- `VLLM_MOET_CPU_TIER_PROMOTE_SYNC` -/
  promoteSync : Bool

/-- A row of the misses: expert `expert` of layer `layer` missed at `step`. -/
structure Miss where
  step : ℤ
  layer : ℕ
  expert : ℕ

/-- A promotion of a layer: `expert` into `slot`, where `victim` was. -/
structure Promotion where
  expert : ℕ
  slot : ℕ
  victim : Option ℕ
  missStep : ℤ

/-- A pinned record: layer, expert, slice. -/
abbrev Pin := ℕ × ℕ × ℕ

/-- What planning a layer has come to: its pool, the promotions, and the pins taken and
given back. -/
structure Planning where
  pool : ResidentPool
  out : List Promotion
  acquired : List Pin
  released : List Pin

section Plan

variable (cfg : Config) (avail : ℕ → ℕ → ℕ → Bool)

/-- The pins on an expert's slices. -/
def pinsOf (l e : ℕ) (slices : List ℕ) : List Pin :=
  if cfg.tail then slices.map fun v => (l, e, v) else []

/-- One turn of the promotion loop of `plan`. `avail l e v`: `record_ptr` answers for slice
`v` (with the store tail: it is read and pinned). -/
def promoteExpert (l : ℕ) (protect : List ℕ) (missStep : ℕ → ℤ) (st : Planning) (e : ℕ) :
    Planning :=
  match st.pool.slotOfExpert e with
  | some _ => st
  | none =>
    match st.pool.pickVictim protect (missStep e) 1 with
    | none => st
    | some s =>
      let slices := List.range cfg.V
      if slices.all (avail l e) then
        { st with
          pool := st.pool.setSlot s (some e) (missStep e)
          out := st.out ++ [⟨e, s, st.pool.expertOfSlot s, missStep e⟩]
          acquired := st.acquired ++ pinsOf cfg l e slices }
      else { st with released := st.released ++ pinsOf cfg l e (slices.filter (avail l e)) }

/-- The promotion loop of `plan`, over the admitted experts of a layer. -/
def promoteExperts (l : ℕ) (protect : List ℕ) (missStep : ℕ → ℤ) : Planning → List ℕ → Planning
  | st, [] => st
  | st, e :: es =>
    if cfg.maxPerLayer ≤ st.out.length then st
    else promoteExperts l protect missStep (promoteExpert cfg avail l protect missStep st e) es

/-- The layer's missed experts, in the order of their first miss. -/
def missedExperts (misses : List Miss) (l : ℕ) : List ℕ :=
  ((misses.filter (·.layer = l)).map (·.expert)).reverse.dedup.reverse

/-- The latest step an expert was missed at. -/
def lastMissStep (misses : List Miss) (l e : ℕ) : ℤ :=
  ((misses.filter fun r => r.layer = l ∧ r.expert = e).map (·.step)).max?.getD 0

/-- The experts of a layer the admission window lets through. `lastMiss` is the step of the
previous miss. -/
def admitted (misses : List Miss) (lastMiss : ℕ → ℤ) (l : ℕ) : List ℕ :=
  if 0 < cfg.window then
    (missedExperts misses l).filter fun e => lastMissStep misses l e - lastMiss e ≤ cfg.window
  else missedExperts misses l

/-- The previous miss steps after a plan. -/
def nextLastMiss (misses : List Miss) (lastMiss : ℕ → ℕ → ℤ) (l e : ℕ) : ℤ :=
  if 0 < cfg.window ∧ e ∈ missedExperts misses l then lastMissStep misses l e else lastMiss l e

/-- `plan` for one layer. -/
def planLayer (misses : List Miss) (lastMiss : ℕ → ℕ → ℤ) (pools : ℕ → ResidentPool) (l : ℕ) :
    Planning :=
  promoteExperts cfg avail l (missedExperts misses l) (lastMissStep misses l)
    ⟨pools l, [], [], []⟩ (admitted cfg misses (lastMiss l) l)

/-- The layers with a miss, ascending. -/
def missedLayers (misses : List Miss) : List ℕ :=
  (List.range cfg.nLayers).filter fun l => misses.any (·.layer = l)

/-- `plan`: the promotions of the layers that have any. Each layer is planned on its own pool. -/
def plan (misses : List Miss) (lastMiss : ℕ → ℕ → ℤ) (pools : ℕ → ResidentPool) :
    List (ℕ × List Promotion) :=
  ((missedLayers cfg misses).map fun l =>
    (l, (planLayer cfg avail misses lastMiss pools l).out)).filter (·.2 ≠ [])

/-- The pools after `plan`. -/
def plannedPools (misses : List Miss) (lastMiss : ℕ → ℕ → ℤ) (pools : ℕ → ResidentPool) (l : ℕ) :
    ResidentPool :=
  if l ∈ missedLayers cfg misses then (planLayer cfg avail misses lastMiss pools l).pool
  else pools l

/-- The pins `plan` leaves held, one entry for each slice of each promotion. -/
def plannedPins (misses : List Miss) (lastMiss : ℕ → ℕ → ℤ) (pools : ℕ → ResidentPool) :
    List Pin :=
  (missedLayers cfg misses).flatMap fun l =>
    (planLayer cfg avail misses lastMiss pools l).acquired

/-- The pins `plan` gives back: those of records that were not complete. -/
def abandonedPins (misses : List Miss) (lastMiss : ℕ → ℕ → ℤ) (pools : ℕ → ResidentPool) :
    List Pin :=
  (missedLayers cfg misses).flatMap fun l =>
    (planLayer cfg avail misses lastMiss pools l).released

end Plan

/-! ### What a layer's plan does to its mirrors -/

/-- The victims of a layer's promotions. -/
def victims (out : List Promotion) : List ℕ := out.filterMap (·.victim)

/-- The mirror `m'` after the promotions `out`, from the mirrors `m` and `x`: the promoted
experts were nowhere and are different, so are their slots, which held the victims. -/
structure Planned (m x m' : ℕ → Option ℕ) (out : List Promotion) : Prop where
  absent : ∀ p ∈ out, m p.expert = none
  experts : (out.map (·.expert)).Nodup
  slots : (out.map (·.slot)).Nodup
  victim : ∀ p ∈ out, x p.slot = p.victim
  promoted : ∀ p ∈ out, m' p.expert = some p.slot
  rest : ∀ e, e ∉ out.map (·.expert) → m' e = if e ∈ victims out then none else m e

/-- The state of the promotion loop: the plan so far, whose slots now hold protected
experts. -/
structure Planning.Ok (P : ResidentPool) (protect : List ℕ) (st : Planning) : Prop where
  consistent : st.pool.Consistent
  planned : Planned P.slotOfExpert P.expertOfSlot st.pool.slotOfExpert st.out
  held : ∀ p ∈ st.out, p.expert ∈ protect ∧ st.pool.expertOfSlot p.slot = some p.expert
  unprotected : ∀ v ∈ victims st.out, v ∉ protect
  frame : ∀ s, s ∉ st.out.map (·.slot) → st.pool.expertOfSlot s = P.expertOfSlot s
  size : st.pool.R = P.R

theorem Planning.Ok.init {P : ResidentPool} (h : P.Consistent) (protect : List ℕ) :
    Planning.Ok P protect ⟨P, [], [], []⟩ where
  consistent := h
  planned := ⟨by simp, by simp, by simp, by simp, by simp, by simp [victims]⟩
  held := by simp
  unprotected := by simp [victims]
  frame _ _ := rfl
  size := rfl

section

variable {cfg : Config} {avail : ℕ → ℕ → ℕ → Bool} {l : ℕ} {protect : List ℕ} {missStep : ℕ → ℤ}
  {P : ResidentPool} {st : Planning} {e : ℕ}

/-- What one turn of the promotion loop can do: nothing to the pool, or fill the picked slot. -/
theorem promoteExpert_cases (cfg : Config) (avail : ℕ → ℕ → ℕ → Bool) (l : ℕ) (protect : List ℕ)
    (missStep : ℕ → ℤ) (st : Planning) (e : ℕ) :
    ((promoteExpert cfg avail l protect missStep st e).pool = st.pool ∧
      (promoteExpert cfg avail l protect missStep st e).out = st.out) ∨
    ∃ s, st.pool.slotOfExpert e = none ∧
      st.pool.pickVictim protect (missStep e) 1 = some s ∧
      (promoteExpert cfg avail l protect missStep st e).pool =
        st.pool.setSlot s (some e) (missStep e) ∧
      (promoteExpert cfg avail l protect missStep st e).out =
        st.out ++ [⟨e, s, st.pool.expertOfSlot s, missStep e⟩] := by
  rw [promoteExpert]
  cases he : st.pool.slotOfExpert e with
  | some t => exact .inl ⟨rfl, rfl⟩
  | none =>
    cases hs : st.pool.pickVictim protect (missStep e) 1 with
    | none => exact .inl ⟨rfl, rfl⟩
    | some s =>
      simp only
      split
      · exact .inr ⟨s, trivial, rfl, rfl, rfl⟩
      · exact .inl ⟨rfl, rfl⟩

/-- The plan depends on the pool and the promotions only. -/
theorem Planning.Ok.congr (h : st.Ok P protect) {st' : Planning} (hpool : st'.pool = st.pool)
    (hout : st'.out = st.out) : st'.Ok P protect := by
  obtain ⟨h₁, h₂, h₃, h₄, h₅, h₆⟩ := h
  exact ⟨hpool ▸ h₁, by rw [hpool, hout]; exact h₂, by rw [hpool, hout]; exact h₃, hout ▸ h₄,
    by rw [hpool, hout]; exact h₅, hpool ▸ h₆⟩

/-- Filling a picked slot extends the plan. -/
theorem Planning.Ok.fill (h : st.Ok P protect) (hep : e ∈ protect)
    (he : st.pool.slotOfExpert e = none) {s : ℕ} {step : ℤ}
    (hpick : st.pool.pickVictim protect step 1 = some s) {st' : Planning}
    (hpool : st'.pool = st.pool.setSlot s (some e) step)
    (hout : st'.out = st.out ++ [⟨e, s, st.pool.expertOfSlot s, step⟩]) : st'.Ok P protect := by
  obtain ⟨hs, hvictim⟩ := ResidentPool.pickVictim_spec hpick
  -- the slots filled before hold protected experts, so another one was picked
  have hfresh : s ∉ st.out.map (·.slot) := by
    intro hmem
    obtain ⟨p, hp, rfl⟩ := List.mem_map.mp hmem
    obtain ⟨hprot, hslot⟩ := h.held p hp
    obtain hnone | ⟨e', he', -, hne, -⟩ := hvictim
    · simp [hslot] at hnone
    · rw [hslot, Option.some.injEq] at he'
      exact hne (he' ▸ hprot)
  have hnew : e ∉ st.out.map (·.expert) := by
    intro hmem
    obtain ⟨p, hp, rfl⟩ := List.mem_map.mp hmem
    simp [h.planned.promoted p hp] at he
  -- the victim is not protected, so it is none of the promoted experts
  have hunprot : ∀ e', st.pool.expertOfSlot s = some e' → e' ∉ protect := by
    intro e' he'
    obtain hnone | ⟨e'', he'', -, hne, -⟩ := hvictim
    · simp [he'] at hnone
    · rw [he', Option.some.injEq] at he''
      exact he'' ▸ hne
  have hx : st.pool.expertOfSlot s = P.expertOfSlot s := h.frame s hfresh
  have hm : ∀ e', e' ∉ st.out.map (·.expert) →
      st.pool.slotOfExpert e' = if e' ∈ victims st.out then none else P.slotOfExpert e' :=
    h.planned.rest
  refine ⟨?_, ⟨?_, ?_, ?_, ?_, ?_, ?_⟩, ?_, ?_, ?_, ?_⟩
  · rw [hpool]
    exact h.consistent.setSlot hs he step
  · rw [hout]
    simp only [List.mem_append, List.mem_singleton]
    rintro p (hp | rfl)
    · exact h.planned.absent p hp
    · rw [← he, hm e hnew, if_neg fun hv => h.unprotected e hv hep]
  · rw [hout, List.map_append, List.map_singleton]
    exact List.nodup_append_comm.mp (List.nodup_cons.mpr ⟨hnew, h.planned.experts⟩)
  · rw [hout, List.map_append, List.map_singleton]
    exact List.nodup_append_comm.mp (List.nodup_cons.mpr ⟨hfresh, h.planned.slots⟩)
  · rw [hout]
    simp only [List.mem_append, List.mem_singleton]
    rintro p (hp | rfl)
    · exact h.planned.victim p hp
    · exact hx.symm
  · rw [hout, hpool]
    simp only [List.mem_append, List.mem_singleton, ResidentPool.setSlot_slotOfExpert]
    rintro p (hp | rfl)
    · have hne : p.expert ≠ e := fun heq => hnew (List.mem_map.mpr ⟨p, hp, heq⟩)
      rw [if_neg hne, if_neg, h.planned.promoted p hp]
      exact fun hsp => hunprot _ hsp (h.held p hp).1
    · simp
  · intro x hxe
    rw [hout] at hxe ⊢
    simp only [List.map_append, List.map_singleton, List.mem_append, List.mem_singleton,
      not_or] at hxe
    rw [hpool, ResidentPool.setSlot_slotOfExpert, if_neg hxe.2, hm x hxe.1]
    simp only [victims, List.filterMap_append, List.mem_append]
    by_cases hsx : st.pool.expertOfSlot s = some x
    · simp [hsx]
    · simp [hsx]
  · rw [hout, hpool]
    simp only [List.mem_append, List.mem_singleton, ResidentPool.setSlot_expertOfSlot,
      Function.update_apply]
    rintro p (hp | rfl)
    · rw [if_neg fun heq => hfresh (List.mem_map.mpr ⟨p, hp, heq⟩)]
      exact h.held p hp
    · exact ⟨hep, if_pos rfl⟩
  · intro v hv
    rw [hout] at hv
    simp only [victims, List.filterMap_append, List.mem_append] at hv
    obtain hv | hv := hv
    · exact h.unprotected v hv
    · exact hunprot v (by simpa using hv)
  · intro t ht
    rw [hout, List.map_append, List.mem_append, not_or] at ht
    rw [hpool, ResidentPool.setSlot_expertOfSlot, Function.update_apply, if_neg (by simpa using ht.2)]
    exact h.frame t ht.1
  · rw [hpool, ResidentPool.setSlot_R, h.size]

/-- One turn of the promotion loop keeps the plan. -/
theorem Planning.Ok.promoteExpert (h : st.Ok P protect) (he : e ∈ protect) :
    (promoteExpert cfg avail l protect missStep st e).Ok P protect := by
  obtain ⟨hpool, hout⟩ | ⟨s, hnone, hpick, hpool, hout⟩ :=
    promoteExpert_cases cfg avail l protect missStep st e
  · exact h.congr hpool hout
  · exact h.fill he hnone hpick hpool hout

/-- The promotion loop keeps the plan. -/
theorem Planning.Ok.loop (h : st.Ok P protect) {es : List ℕ} (hes : ∀ e ∈ es, e ∈ protect) :
    (promoteExperts cfg avail l protect missStep st es).Ok P protect := by
  induction es generalizing st with
  | nil => exact h
  | cons e es ih =>
    rw [promoteExperts]
    split
    · exact h
    · exact ih (h.promoteExpert (hes e (List.mem_cons_self ..)))
        fun x hx => hes x (List.mem_cons_of_mem e hx)

end

section

variable (cfg : Config) (avail : ℕ → ℕ → ℕ → Bool) (misses : List Miss) (lastMiss : ℕ → ℕ → ℤ)
  {pools : ℕ → ResidentPool}

/-- The admitted experts are missed experts. -/
theorem missed_of_admitted {last : ℕ → ℤ} {l e : ℕ} (he : e ∈ admitted cfg misses last l) :
    e ∈ missedExperts misses l := by
  rw [admitted] at he
  split at he
  · exact (List.mem_filter.mp he).1
  · exact he

/-- Planning a layer. -/
theorem planLayer_ok (h : ∀ l, (pools l).Consistent) (l : ℕ) :
    (planLayer cfg avail misses lastMiss pools l).Ok (pools l) (missedExperts misses l) :=
  (Planning.Ok.init (h l) _).loop fun _ he => missed_of_admitted cfg misses he

theorem plannedPools_consistent (h : ∀ l, (pools l).Consistent) (l : ℕ) :
    (plannedPools cfg avail misses lastMiss pools l).Consistent := by
  rw [plannedPools]
  split
  · exact (planLayer_ok cfg avail misses lastMiss h l).consistent
  · exact h l

/-- The mirrors of a layer with promotions. -/
theorem plan_planned (h : ∀ l, (pools l).Consistent) {l : ℕ} {out : List Promotion}
    (hl : (l, out) ∈ plan cfg avail misses lastMiss pools) :
    Planned (pools l).slotOfExpert (pools l).expertOfSlot
      (plannedPools cfg avail misses lastMiss pools l).slotOfExpert out := by
  obtain ⟨hmem, -⟩ := List.mem_filter.mp hl
  obtain ⟨l', hl', heq⟩ := List.mem_map.mp hmem
  obtain ⟨rfl, rfl⟩ := Prod.mk.inj heq
  rw [plannedPools, if_pos hl']
  exact (planLayer_ok cfg avail misses lastMiss h l').planned

/-- The mirror of a layer without promotions. -/
theorem plannedPools_of_notMem (h : ∀ l, (pools l).Consistent) {l : ℕ}
    (hl : l ∉ (plan cfg avail misses lastMiss pools).map (·.1)) :
    (plannedPools cfg avail misses lastMiss pools l).slotOfExpert = (pools l).slotOfExpert := by
  rw [plannedPools]
  split
  next hmissed =>
    have hout : (planLayer cfg avail misses lastMiss pools l).out = [] := by
      by_contra hne
      refine hl (List.mem_map.mpr ⟨(l, _), List.mem_filter.mpr ⟨?_, decide_eq_true hne⟩, rfl⟩)
      exact List.mem_map.mpr ⟨l, hmissed, rfl⟩
    funext e
    have := (planLayer_ok cfg avail misses lastMiss h l).planned.rest e (by simp [hout])
    simpa [hout, victims] using this
  next => rfl

/-- A layer is planned at most once. -/
theorem plan_nodup : ((plan cfg avail misses lastMiss pools).map (·.1)).Nodup := by
  have hlayers : (missedLayers cfg misses).Nodup := List.nodup_range.filter _
  refine hlayers.sublist ?_
  have h := (List.filter_sublist (p := fun x : ℕ × List Promotion => decide (x.2 ≠ []))
    (l := (missedLayers cfg misses).map fun l =>
      (l, (planLayer cfg avail misses lastMiss pools l).out))).map (·.1)
  simpa [List.map_map, Function.comp_def, plan] using h

end

end Placement

end VllmMoet
