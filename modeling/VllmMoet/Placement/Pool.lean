import Mathlib.Algebra.Order.Ring.Int
import Mathlib.Logic.Function.Basic

/-!
# The resident pool of a layer

`ResidentPool`: the host's view of the `R` slots a layer's resident experts live in. It
mirrors the device's slot table (`slotOfExpert`, and `expertOfSlot` the other way round) and
keeps what the least-recently-used choice of a victim needs. Slots and experts are numbers;
`none` is the code's `-1`.

`ResidentPool.Consistent`: the two mirrors are inverse to each other.
-/

namespace VllmMoet

namespace Placement

/-- `_KEY_USES`: the LRU key is `last_used * 2^20 + min(use_count, 2^20 - 1)`. -/
def keyUses : ℕ := 2 ^ 20

/-- The host side of a layer's resident pool. -/
structure ResidentPool where
  /-- experts of the layer -/
  E : ℕ
  /-- slots of the pool -/
  R : ℕ
  /-- the expert each slot holds -/
  expertOfSlot : ℕ → Option ℕ
  /-- the slot each expert is in: the mirror of the device's table -/
  slotOfExpert : ℕ → Option ℕ
  /-- step of the last routing to the slot's expert -/
  lastUsed : ℕ → ℤ
  /-- routings since the slot was filled -/
  useCount : ℕ → ℕ
  /-- the tier holds a record of the expert -/
  evictable : ℕ → Bool

namespace ResidentPool

variable (P : ResidentPool)

/-- `set_slot`: slot `s` holds `e`, or is empty. -/
def setSlot (s : ℕ) (e : Option ℕ) (step : ℤ) : ResidentPool :=
  let cleared := match P.expertOfSlot s with
    | some old => Function.update P.slotOfExpert old none
    | none => P.slotOfExpert
  match e with
  | none =>
    { P with
      slotOfExpert := cleared
      expertOfSlot := Function.update P.expertOfSlot s none }
  | some e =>
    { P with
      slotOfExpert := Function.update cleared e (some s)
      expertOfSlot := Function.update P.expertOfSlot s (some e)
      lastUsed := Function.update P.lastUsed s step
      useCount := Function.update P.useCount s (if 0 < step then 1 else 0) }

/-- One routing to slot `s` at `step`. -/
def touchSlot (step : ℤ) (s : ℕ) : ResidentPool :=
  { P with
    lastUsed := Function.update P.lastUsed s (max (P.lastUsed s) step)
    useCount := Function.update P.useCount s (P.useCount s + 1) }

/-- `note_use`: the routings of a step, hits and misses alike. -/
def noteUse (ids : List ℤ) (step : ℤ) : ResidentPool :=
  (ids.filterMap fun i : ℤ =>
    if 0 ≤ i ∧ i < P.E then P.slotOfExpert i.toNat else none).foldl (touchSlot · step) P

/-- The LRU key of a slot. -/
def key (s : ℕ) : ℤ := P.lastUsed s * keyUses + min (P.useCount s) (keyUses - 1)

/-- `np.argmin`: the first slot with the least key. -/
def leastKey : List ℕ → Option ℕ
  | [] => none
  | s :: ss =>
    match leastKey ss with
    | some t => if P.key t < P.key s then some t else some s
    | none => some s

/-- The slots whose expert may be evicted. -/
def candidates (protect : List ℕ) : List ℕ :=
  (List.range P.R).filter fun s =>
    (P.expertOfSlot s).any fun e => P.evictable e && decide (e ∉ protect)

/-- `pick_victim`: an empty slot, else the least recently used slot whose expert has a
record, is not protected and is older than the candidate (`candStep`, `candUses`). -/
def pickVictim (protect : List ℕ) (candStep : ℤ) (candUses : ℕ) : Option ℕ :=
  match (List.range P.R).find? fun s => (P.expertOfSlot s).isNone with
  | some s => some s
  | none =>
    match P.leastKey (P.candidates protect) with
    | some s => if P.key s < candStep * keyUses + min candUses (keyUses - 1) then some s else none
    | none => none

/-- A pool without residents. -/
def empty (E R : ℕ) (evictable : ℕ → Bool) : ResidentPool where
  E := E
  R := R
  expertOfSlot _ := none
  slotOfExpert _ := none
  lastUsed _ := -1
  useCount _ := 0
  evictable := evictable

/-- `fill_initial`, the host side: the residents in slot order, from slot `s` on. -/
def fillFrom (P : ResidentPool) : ℕ → List ℕ → ResidentPool
  | _, [] => P
  | s, e :: es => (P.setSlot s (some e) 0).fillFrom (s + 1) es

/-- The two mirrors are inverse to each other, and every slot is one of the pool's. -/
def Consistent : Prop := ∀ e s, P.slotOfExpert e = some s ↔ s < P.R ∧ P.expertOfSlot s = some e

variable {P}

theorem mem_of_leastKey {ss : List ℕ} {s : ℕ} (h : P.leastKey ss = some s) : s ∈ ss := by
  induction ss generalizing s with
  | nil => simp [leastKey] at h
  | cons t ss ih =>
    rw [leastKey] at h
    split at h
    next u hu =>
      split at h
      · obtain rfl := Option.some.inj h
        exact List.mem_cons_of_mem t (ih hu)
      · obtain rfl := Option.some.inj h
        exact List.mem_cons_self ..
    next =>
      obtain rfl := Option.some.inj h
      exact List.mem_cons_self ..

/-- A picked slot is the pool's, and empty or held by an evictable, unprotected expert older
than the candidate. -/
theorem pickVictim_spec {protect : List ℕ} {candStep : ℤ} {candUses s : ℕ}
    (h : P.pickVictim protect candStep candUses = some s) :
    s < P.R ∧ (P.expertOfSlot s = none ∨ ∃ e, P.expertOfSlot s = some e ∧ P.evictable e = true ∧
      e ∉ protect ∧ P.key s < candStep * keyUses + min candUses (keyUses - 1)) := by
  rw [pickVictim] at h
  split at h
  next s' hfind =>
    obtain rfl : s' = s := by simpa using h
    have hempty := List.find?_some hfind
    exact ⟨List.mem_range.mp (List.mem_of_find?_eq_some hfind), .inl (by simpa using hempty)⟩
  next =>
    split at h
    next s' hmin =>
      split at h
      next hlt =>
        obtain rfl : s' = s := by simpa using h
        have hmem : s' ∈ P.candidates protect := mem_of_leastKey hmin
        obtain ⟨hs, hany⟩ := List.mem_filter.mp hmem
        obtain ⟨e, he, hok⟩ := (Option.any_eq_true _ _).mp hany
        obtain ⟨hev, hpr⟩ := Bool.and_eq_true_iff.mp hok
        exact ⟨List.mem_range.mp hs, .inr ⟨e, he, hev, by simpa using hpr, hlt⟩⟩
      next => simp at h
    next => simp at h

@[simp] theorem setSlot_R (s : ℕ) (e : Option ℕ) (step : ℤ) : (P.setSlot s e step).R = P.R := by
  cases e <;> rfl

@[simp] theorem setSlot_expertOfSlot (s : ℕ) (e : Option ℕ) (step : ℤ) :
    (P.setSlot s e step).expertOfSlot = Function.update P.expertOfSlot s e := by
  cases e <;> rfl

/-- Where an expert is after a slot is filled. -/
theorem setSlot_slotOfExpert (s e : ℕ) (step : ℤ) (x : ℕ) :
    (P.setSlot s (some e) step).slotOfExpert x =
      if x = e then some s
      else if P.expertOfSlot s = some x then none else P.slotOfExpert x := by
  simp only [setSlot, Function.update_apply]
  split
  · rfl
  · cases hs : P.expertOfSlot s with
    | none => simp
    | some old => simp only [Function.update_apply, Option.some.injEq, eq_comm (a := x)]

/-- Filling a slot with an expert that is nowhere keeps the mirrors inverse. -/
theorem Consistent.setSlot (h : P.Consistent) {s e : ℕ} (hs : s < P.R)
    (he : P.slotOfExpert e = none) (step : ℤ) : (P.setSlot s (some e) step).Consistent := by
  intro x t
  rw [setSlot_slotOfExpert, setSlot_R, setSlot_expertOfSlot, Function.update_apply]
  have hx := h x t
  by_cases hxe : x = e
  · subst hxe
    by_cases hts : t = s
    · subst hts; simp [hs]
    · simp only [if_true, hts, if_false, Option.some.injEq, eq_comm (a := s)]
      rw [← hx, he]
      simp
  · by_cases hts : t = s
    · subst hts
      simp only [hxe, if_false, if_true, Option.some.injEq, Ne.symm hxe, and_false, iff_false]
      split
      next => simp
      next hold => exact fun ht => hold (hx.mp ht).2
    · simp only [hxe, if_false, hts]
      rw [← hx]
      split
      next hold =>
        have := (h x s).mpr ⟨hs, hold⟩
        simp [this, eq_comm (a := s), hts]
      next => rfl

/-- Filling a pool with different experts that are nowhere keeps the mirrors inverse. -/
theorem Consistent.fillFrom (h : P.Consistent) {s : ℕ} {es : List ℕ} (hs : s + es.length ≤ P.R)
    (hnodup : es.Nodup) (hes : ∀ e ∈ es, P.slotOfExpert e = none) :
    (P.fillFrom s es).Consistent := by
  induction es generalizing P s with
  | nil => exact h
  | cons e es ih =>
    obtain ⟨he, hnodup⟩ := List.nodup_cons.mp hnodup
    rw [List.length_cons] at hs
    refine ih (h.setSlot (by omega) (hes e (List.mem_cons_self ..)) 0)
      (by rw [setSlot_R]; omega) hnodup fun x hx => ?_
    rw [setSlot_slotOfExpert, if_neg (fun hxe : x = e => he (hxe ▸ hx)),
      hes x (List.mem_cons_of_mem e hx), ite_self]

theorem empty_consistent (E R : ℕ) (evictable : ℕ → Bool) : (empty E R evictable).Consistent := by
  intro e s
  simp [empty]

/-- The use log changes neither mirror. -/
theorem noteUse_mirrors (ids : List ℤ) (step : ℤ) :
    (P.noteUse ids step).slotOfExpert = P.slotOfExpert ∧
      (P.noteUse ids step).expertOfSlot = P.expertOfSlot ∧ (P.noteUse ids step).R = P.R := by
  rw [noteUse]
  generalize ids.filterMap _ = slots
  induction slots generalizing P with
  | nil => exact ⟨rfl, rfl, rfl⟩
  | cons s slots ih => exact ih (P := P.touchSlot step s)

theorem Consistent.noteUse (h : P.Consistent) (ids : List ℤ) (step : ℤ) :
    (P.noteUse ids step).Consistent := by
  obtain ⟨hslot, hexp, hR⟩ := noteUse_mirrors (P := P) ids step
  intro e s
  rw [hslot, hexp, hR]
  exact h e s

end ResidentPool

end Placement

end VllmMoet
