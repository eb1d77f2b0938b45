import Mathlib.Data.List.Basic
import Mathlib.Logic.Function.Basic

/-!
# Slots handed out to keys

A `SlotMap` is the bookkeeping of a pool of slots `0, …, n - 1`: a list of free slots, the
owner of every slot and the place of every key. It is `Consistent` when the free slots are
exactly those without an owner and owner and place are inverse to each other.

Between taking slots and filling them the bookkeeping is not consistent: `Lent m taken` says
that it is, but for the slots `taken`, which are neither free nor the place of any key,
whatever their owner entry still says. The rules follow the life of a slot:

* `Lent.pop`, `Lent.popFree`: slots popped off the free list are lent;
* `Lent.evict`: slots whose owners lose their place are lent;
* `Lent.assign`: a lent slot with a new owner, placed there, is no longer lent;
* `Lent.putBack`, `Lent.giveBack`: neither is a lent slot put back on the free list.
-/

namespace VllmMoet

universe u v

section Scatter

variable {α : Type u} {β : Type v} [DecidableEq α]

/-- Write a list of entries into a table, one after the other. -/
def scatter (f : α → β) (kvs : List (α × β)) : α → β :=
  kvs.foldl (fun f kv => Function.update f kv.1 kv.2) f

@[simp] theorem scatter_nil (f : α → β) : scatter f [] = f := rfl

@[simp] theorem scatter_cons (f : α → β) (kv : α × β) (kvs : List (α × β)) :
    scatter f (kv :: kvs) = scatter (Function.update f kv.1 kv.2) kvs := rfl

/-- A place that is not written keeps its value. -/
theorem scatter_of_not_mem {f : α → β} {kvs : List (α × β)} {a : α}
    (h : a ∉ kvs.map Prod.fst) : scatter f kvs a = f a := by
  induction kvs generalizing f with
  | nil => simp
  | cons kv kvs ih =>
    simp only [List.map_cons, List.mem_cons, not_or] at h
    rw [scatter_cons, ih h.2, Function.update_of_ne h.1]

/-- What is written once is found where it was written. -/
theorem scatter_of_mem {f : α → β} {kvs : List (α × β)} {a : α} {b : β}
    (h : (a, b) ∈ kvs) (hkeys : (kvs.map Prod.fst).Nodup) : scatter f kvs a = b := by
  induction kvs generalizing f with
  | nil => simp at h
  | cons kv kvs ih =>
    have hnd := List.nodup_cons.mp hkeys
    rcases List.mem_cons.mp h with rfl | hmem
    · rw [scatter_cons, scatter_of_not_mem hnd.1, Function.update_self]
    · exact ih hmem hnd.2

end Scatter

/-- The bookkeeping of a pool of slots: the free slots, the next one to hand out first; the
owner of every slot; the place of every key. -/
structure SlotMap (κ : Type u) where
  free : List ℕ
  owner : ℕ → Option κ
  place : κ → Option ℕ

namespace SlotMap

variable {κ : Type u} {n : ℕ} {m : SlotMap κ} {taken : List ℕ}

/-- Consistent, but for the slots `taken`: these are neither free nor anyone's place. -/
structure Lent (n : ℕ) (m : SlotMap κ) (taken : List ℕ) : Prop where
  taken_nodup : taken.Nodup
  taken_lt : ∀ s ∈ taken, s < n
  taken_not_free : ∀ s ∈ taken, s ∉ m.free
  free_nodup : m.free.Nodup
  free_lt : ∀ s ∈ m.free, s < n
  free_iff : ∀ s, s < n → s ∉ taken → (s ∈ m.free ↔ m.owner s = none)
  place_iff : ∀ p s, m.place p = some s ↔ s < n ∧ s ∉ taken ∧ m.owner s = some p

/-- The free slots are exactly those without an owner; owner and place are inverse. -/
def Consistent (n : ℕ) (m : SlotMap κ) : Prop :=
  m.Lent n []

/-- Only which slots are lent matters, not their order. -/
theorem Lent.perm (h : m.Lent n taken) {taken' : List ℕ} (hp : taken.Perm taken') :
    m.Lent n taken' where
  taken_nodup := hp.nodup_iff.mp h.taken_nodup
  taken_lt s hs := h.taken_lt s (hp.mem_iff.mpr hs)
  taken_not_free s hs := h.taken_not_free s (hp.mem_iff.mpr hs)
  free_nodup := h.free_nodup
  free_lt := h.free_lt
  free_iff s hs ht := h.free_iff s hs fun h' => ht (hp.mem_iff.mp h')
  place_iff p s := by rw [h.place_iff, hp.mem_iff]

/-- Two keys never share a slot. -/
theorem Lent.place_inj (h : m.Lent n taken) {p q : κ} {s : ℕ} (hp : m.place p = some s)
    (hq : m.place q = some s) : p = q := by
  have hown := ((h.place_iff p s).mp hp).2.2
  rw [((h.place_iff q s).mp hq).2.2] at hown
  exact (Option.some.inj hown).symm

/-- What the owner entry of a lent slot says does not matter. -/
theorem Lent.of_owner (h : m.Lent n taken) {owner : ℕ → Option κ}
    (hown : ∀ s, s ∉ taken → owner s = m.owner s) : Lent n { m with owner := owner } taken where
  taken_nodup := h.taken_nodup
  taken_lt := h.taken_lt
  taken_not_free := h.taken_not_free
  free_nodup := h.free_nodup
  free_lt := h.free_lt
  free_iff s hs ht := by
    change s ∈ m.free ↔ owner s = none
    rw [hown s ht]
    exact h.free_iff s hs ht
  place_iff p s := by
    change m.place p = some s ↔ s < n ∧ s ∉ taken ∧ owner s = some p
    rw [h.place_iff]
    constructor
    · rintro ⟨hs, ht, ho⟩
      exact ⟨hs, ht, (hown s ht).trans ho⟩
    · rintro ⟨hs, ht, ho⟩
      exact ⟨hs, ht, (hown s ht).symm.trans ho⟩

/-! ### Taking slots -/

/-- Take up to `k` slots off the free list. -/
def popFree (k : ℕ) (m : SlotMap κ) : SlotMap κ :=
  { m with free := m.free.drop k }

/-- Slots popped off the free list are lent. -/
theorem Lent.popFree (h : m.Consistent n) (k : ℕ) : (m.popFree k).Lent n (m.free.take k) := by
  have hsplit : (m.free.take k ++ m.free.drop k).Nodup := by
    rw [List.take_append_drop]
    exact h.free_nodup
  obtain ⟨htake, hdrop, hdisj⟩ := List.nodup_append.mp hsplit
  refine ⟨htake, fun s hs => h.free_lt s (List.mem_of_mem_take hs),
    fun s hs hs' => hdisj s hs s hs' rfl, hdrop,
    fun s hs => h.free_lt s (List.mem_of_mem_drop hs), fun s hs ht => ?_, fun p s => ?_⟩
  · rw [show (m.popFree k).owner s = m.owner s from rfl, ← h.free_iff s hs (by simp)]
    constructor
    · exact List.mem_of_mem_drop
    · intro hf
      rw [← List.take_append_drop k m.free, List.mem_append] at hf
      exact hf.resolve_left ht
  · -- a free slot has no owner, so nothing was placed in what is popped
    rw [show (m.popFree k).place p = m.place p from rfl, h.place_iff]
    constructor
    · rintro ⟨hs, -, hown⟩
      refine ⟨hs, fun ht => ?_, hown⟩
      have hnone := (h.free_iff s hs (by simp)).mp (List.mem_of_mem_take ht)
      rw [hnone] at hown
      simp at hown
    · rintro ⟨hs, -, hown⟩
      exact ⟨hs, by simp, hown⟩

/-- A slot popped off the free list is lent, whatever its owner entry says from then on. -/
theorem Lent.pop {s : ℕ} {free : List ℕ} (h : m.Lent n taken) (hfree : m.free = s :: free)
    (o : Option κ) : Lent n ⟨free, Function.update m.owner s o, m.place⟩ (s :: taken) := by
  have hnd := List.nodup_cons.mp (hfree ▸ h.free_nodup)
  have hmem : s ∈ m.free := by simp [hfree]
  have hs := h.free_lt s hmem
  have hst : s ∉ taken := fun ht => h.taken_not_free s ht hmem
  have hown : m.owner s = none := (h.free_iff s hs hst).mp hmem
  refine ⟨List.nodup_cons.mpr ⟨hst, h.taken_nodup⟩, fun r hr => ?_, fun r hr hf => ?_, hnd.2,
    fun r hr => h.free_lt r (by simp [hfree, hr]), fun r hr ht => ?_, fun p r => ?_⟩
  · rcases List.mem_cons.mp hr with rfl | hr
    · exact hs
    · exact h.taken_lt r hr
  · rcases List.mem_cons.mp hr with rfl | hr
    · exact hnd.1 hf
    · exact h.taken_not_free r hr (by simp [hfree, show r ∈ free from hf])
  · simp only [List.mem_cons, not_or] at ht
    simpa [hfree, ht.1] using h.free_iff r hr ht.2
  · -- a free slot has no owner, so nothing was placed in it
    by_cases hrs : r = s
    · subst hrs
      simp [h.place_iff, hown]
    · simpa [hrs] using h.place_iff p r

/-- A lent slot without an owner that is put back on the free list is no longer lent. -/
theorem Lent.putBack {s : ℕ} (h : m.Lent n (s :: taken)) :
    Lent n ⟨s :: m.free, Function.update m.owner s none, m.place⟩ taken := by
  have hs := h.taken_lt s (by simp)
  have hfree := h.taken_not_free s (by simp)
  have hst := List.nodup_cons.mp h.taken_nodup
  refine ⟨hst.2, fun r hr => h.taken_lt r (List.mem_cons_of_mem _ hr), fun r hr hf => ?_,
    List.nodup_cons.mpr ⟨hfree, h.free_nodup⟩, fun r hr => ?_, fun r hr ht => ?_, fun q r => ?_⟩
  · rcases List.mem_cons.mp hf with rfl | hf
    · exact hst.1 hr
    · exact h.taken_not_free r (List.mem_cons_of_mem _ hr) hf
  · rcases List.mem_cons.mp hr with rfl | hr
    · exact hs
    · exact h.free_lt r hr
  · by_cases hrs : r = s
    · simp [hrs]
    · simpa [hrs] using h.free_iff r hr (by simp [hrs, ht])
  · change m.place q = some r ↔ _
    rw [h.place_iff]
    by_cases hrs : r = s
    · simp [hrs]
    · simp [hrs]

variable [DecidableEq κ]

/-- The owners of the victims lose their place; the owner entries stay. -/
def evict (victims : List ℕ) (m : SlotMap κ) : SlotMap κ :=
  { m with place := fun p => if victims.any fun s => decide (m.owner s = some p) then none
      else m.place p }

/-- Evicted slots are lent. -/
theorem Lent.evict (h : m.Lent n taken) {victims : List ℕ} (hnodup : victims.Nodup)
    (hlt : ∀ s ∈ victims, s < n) (hnew : ∀ s ∈ victims, s ∉ taken)
    (hown : ∀ s ∈ victims, m.owner s ≠ none) : (m.evict victims).Lent n (taken ++ victims) where
  taken_nodup := List.nodup_append.mpr ⟨h.taken_nodup, hnodup,
    fun s hs s' hs' heq => hnew s' hs' (heq ▸ hs)⟩
  taken_lt s hs := (List.mem_append.mp hs).elim (h.taken_lt s) (hlt s)
  taken_not_free s hs := by
    rcases List.mem_append.mp hs with hs | hs
    · exact h.taken_not_free s hs
    · exact fun hf => hown s hs ((h.free_iff s (hlt s hs) (hnew s hs)).mp hf)
  free_nodup := h.free_nodup
  free_lt := h.free_lt
  free_iff s hs ht := h.free_iff s hs fun h' => ht (List.mem_append_left _ h')
  place_iff p s := by
    simp only [SlotMap.evict, List.any_eq_true, decide_eq_true_eq, List.mem_append, not_or]
    split
    · next hex =>
      obtain ⟨v, hv, hvp⟩ := hex
      -- `p` lived in the victim `v`, and nowhere else
      refine ⟨by simp, fun ⟨hs, ⟨hst, hsv⟩, hsp⟩ => absurd hv ?_⟩
      have h1 := (h.place_iff p v).mpr ⟨hlt v hv, hnew v hv, hvp⟩
      have h2 := (h.place_iff p s).mpr ⟨hs, hst, hsp⟩
      rw [h1] at h2
      rwa [Option.some.inj h2]
    · next hex =>
      rw [h.place_iff]
      constructor
      · rintro ⟨hs, hst, hsp⟩
        exact ⟨hs, ⟨hst, fun hv => hex ⟨s, hv, hsp⟩⟩, hsp⟩
      · rintro ⟨hs, ⟨hst, -⟩, hsp⟩
        exact ⟨hs, hst, hsp⟩

/-! ### Filling slots, giving slots back -/

/-- The slots of a plan get their new owners, which are placed there. -/
def assign (plan : List (κ × ℕ)) (m : SlotMap κ) : SlotMap κ :=
  { m with
    owner := scatter m.owner (plan.map fun e => (e.2, some e.1))
    place := scatter m.place (plan.map fun e => (e.1, some e.2)) }

/-- A lent slot that gets a new, unplaced owner is no longer lent. -/
theorem Lent.assign_one {p : κ} {s : ℕ} (h : m.Lent n (s :: taken)) (hp : m.place p = none) :
    (m.assign [(p, s)]).Lent n taken where
  taken_nodup := (List.nodup_cons.mp h.taken_nodup).2
  taken_lt r hr := h.taken_lt r (List.mem_cons_of_mem _ hr)
  taken_not_free r hr := h.taken_not_free r (List.mem_cons_of_mem _ hr)
  free_nodup := h.free_nodup
  free_lt := h.free_lt
  free_iff r hr ht := by
    by_cases hrs : r = s
    · subst hrs
      simpa [assign] using h.taken_not_free r (by simp)
    · simpa [assign, hrs] using h.free_iff r hr (by simp [hrs, ht])
  place_iff q r := by
    simp only [assign, List.map_cons, List.map_nil, scatter_cons, scatter_nil]
    have hs := h.taken_lt s (by simp)
    have hst := (List.nodup_cons.mp h.taken_nodup).1
    by_cases hrs : r = s <;> by_cases hqp : q = p
    · subst hrs hqp
      simp [hs, hst]
    · subst hrs
      have hq : m.place q ≠ some r := fun hq => ((h.place_iff q r).mp hq).2.1 (by simp)
      simp [hqp, hq, Ne.symm hqp]
    · -- the new owner had no place, so no other slot is owned by it
      subst hqp
      have hr : ¬ (r < n ∧ r ∉ s :: taken ∧ m.owner r = some q) := fun h' => by
        rw [(h.place_iff q r).mpr h'] at hp
        simp at hp
      simp only [List.mem_cons, hrs, false_or] at hr
      simpa [hrs, Ne.symm hrs] using hr
    · simpa [hrs, hqp] using h.place_iff q r

/-- Slots filled by distinct, unplaced owners are no longer lent. -/
theorem Lent.assign {plan : List (κ × ℕ)} (h : m.Lent n (plan.map Prod.snd ++ taken))
    (hkeys : (plan.map Prod.fst).Nodup) (hnew : ∀ e ∈ plan, m.place e.1 = none) :
    (m.assign plan).Lent n taken := by
  induction plan generalizing m with
  | nil => exact h
  | cons e plan ih =>
    simp only [List.map_cons, List.nodup_cons] at hkeys
    refine ih (m := m.assign [e]) (h.assign_one (hnew e (by simp))) hkeys.2 fun e' he' => ?_
    have hne : e'.1 ≠ e.1 := fun heq => hkeys.1 (heq ▸ List.mem_map_of_mem he')
    simpa [SlotMap.assign, hne] using hnew e' (List.mem_cons_of_mem _ he')

/-- A slot and the key it was meant for are taken off the books; the slot is free again. -/
def giveBackOne (m : SlotMap κ) (e : κ × ℕ) : SlotMap κ where
  free := if e.2 ∈ m.free then m.free else e.2 :: m.free
  owner := Function.update m.owner e.2 none
  place := Function.update m.place e.1 none

/-- The slots of a plan are given back. -/
def giveBack (plan : List (κ × ℕ)) (m : SlotMap κ) : SlotMap κ :=
  plan.foldl giveBackOne m

/-- A lent slot that is given back is no longer lent. -/
theorem Lent.giveBack_one {e : κ × ℕ} (h : m.Lent n (e.2 :: taken))
    (hp : m.place e.1 = none) : (m.giveBackOne e).Lent n taken := by
  have hfree : e.2 ∉ m.free := h.taken_not_free e.2 (by simp)
  have hplace : Function.update m.place e.1 none = m.place := by
    rw [Function.update_eq_iff]
    exact ⟨hp.symm, fun _ _ => by trivial⟩
  have hback : m.giveBackOne e = ⟨e.2 :: m.free, Function.update m.owner e.2 none, m.place⟩ := by
    simp [giveBackOne, hfree, hplace]
  rw [hback]
  exact h.putBack

/-- Slots that are given back are no longer lent. -/
theorem Lent.giveBack {plan : List (κ × ℕ)} (h : m.Lent n (plan.map Prod.snd ++ taken))
    (hnew : ∀ e ∈ plan, m.place e.1 = none) : (m.giveBack plan).Lent n taken := by
  induction plan generalizing m with
  | nil => exact h
  | cons e plan ih =>
    refine ih (h.giveBack_one (hnew e (by simp))) fun e' he' => ?_
    have hold := hnew e' (List.mem_cons_of_mem _ he')
    by_cases heq : e'.1 = e.1
    · simp [giveBackOne, heq]
    · simpa [giveBackOne, heq] using hold

end SlotMap

end VllmMoet
