import Mathlib.Algebra.Group.Nat.Defs
import Mathlib.Data.List.Range
import VllmMoet.Lib.LinkedList

/-!
# The store tail of the CPU expert tier

The data model and the locked operations of `cpu_tier.cpp`'s store tail: a DRAM arena of
record slots, per layer an LRU list of the resident slots threaded through the slots
themselves, a stack of spare slots, and pins that keep a record in place.

An index `-1` of the source is `none`, a null pointer is `none`, and `free_slots` is the
list whose head is the vector's back. The vectors are functions of their index; every
function checks its arguments as the source does. Totals and KPIs are left out.

* `lruUnlink`, `lruPushTail`, `lruTrim`, `lruInsert`: the four LRU operations, called with
  the tail's mutex held;
* `setRecord`, `storeTailInit`, `setRecordCold`, `storeTailAdopt`: how a tier gets its
  records and its arena.
-/

namespace VllmMoet

namespace CpuTier

/-- Bytes of one expert record (`REC`). -/
def recordBytes : ℕ := 4700160

/-- One arena slot; its two list links are kept in `Tail.links`. -/
structure Slot where
  expert : Option ℕ := none
  layer : Option ℕ := none
  pins : ℕ := 0

/-- One tier layer: the host pointer of every expert's record, whether the expert can be
fetched from the store file, the LRU slot holding its record, and the layer's LRU list. -/
structure Layer where
  records : ℕ → Option ℕ
  cold : ℕ → Bool
  slotOf : ℕ → Option ℕ
  lru : Ends ℕ
  nResident : ℕ

/-- The store tail: the arena, its slots and the spare slots. -/
structure Tail where
  on : Bool
  arena : ℕ
  nSlots : ℕ
  perLayer : ℕ
  qd : ℕ
  slots : ℕ → Slot
  links : Links ℕ
  freeSlots : List ℕ
  prefillArena : Bool
  prefillSets : ℕ
  prefillSetSlots : ℕ

/-- The tier of one rank. -/
structure Tier where
  nLayers : ℕ
  nExperts : ℕ
  layers : ℕ → Layer
  tail : Tail

/-- The address of arena slot `s`. -/
def Tail.addr (X : Tail) (s : ℕ) : ℕ := X.arena + s * recordBytes

/-- Replace one layer. -/
def Tier.setLayer (T : Tier) (l : ℕ) (L : Layer) : Tier :=
  { T with layers := Function.update T.layers l L }

/-- Replace one slot. -/
def Tier.setSlot (T : Tier) (s : ℕ) (S : Slot) : Tier :=
  { T with tail := { T.tail with slots := Function.update T.tail.slots s S } }

/-- Replace the link fields of the slots. -/
def Tier.setLinks (T : Tier) (H : Links ℕ) : Tier :=
  { T with tail := { T.tail with links := H } }

/-- Replace the stack of spare slots. -/
def Tier.setFree (T : Tier) (fs : List ℕ) : Tier :=
  { T with tail := { T.tail with freeSlots := fs } }

/-- `free_slots.push_back(s)`. -/
def Tier.pushFree (T : Tier) (s : ℕ) : Tier := T.setFree (s :: T.tail.freeSlots)

/-- `++slots[s].pins`, a 32-bit counter. -/
def Tier.pinUp (T : Tier) (s : ℕ) : Tier :=
  T.setSlot s { T.tail.slots s with pins := ((T.tail.slots s).pins + 1) % 2 ^ 32 }

/-- `if (slots[s].pins) --slots[s].pins`. -/
def Tier.pinDown (T : Tier) (s : ℕ) : Tier :=
  T.setSlot s { T.tail.slots s with pins := (T.tail.slots s).pins - 1 }

/-- Set a slot's pin count. -/
def Tier.setPins (T : Tier) (s n : ℕ) : Tier :=
  T.setSlot s { T.tail.slots s with pins := n }

section Fields

variable (T : Tier) (l s : ℕ) (L : Layer) (S : Slot) (H : Links ℕ) (fs : List ℕ)

@[simp] theorem setLayer_nLayers : (T.setLayer l L).nLayers = T.nLayers := rfl
@[simp] theorem setLayer_nExperts : (T.setLayer l L).nExperts = T.nExperts := rfl
@[simp] theorem setLayer_tail : (T.setLayer l L).tail = T.tail := rfl
@[simp] theorem setLayer_layers : (T.setLayer l L).layers = Function.update T.layers l L := rfl
@[simp] theorem setSlot_nLayers : (T.setSlot s S).nLayers = T.nLayers := rfl
@[simp] theorem setSlot_nExperts : (T.setSlot s S).nExperts = T.nExperts := rfl
@[simp] theorem setSlot_layers : (T.setSlot s S).layers = T.layers := rfl
@[simp] theorem setSlot_tail : (T.setSlot s S).tail =
    { T.tail with slots := Function.update T.tail.slots s S } := rfl
@[simp] theorem setLinks_nLayers : (T.setLinks H).nLayers = T.nLayers := rfl
@[simp] theorem setLinks_nExperts : (T.setLinks H).nExperts = T.nExperts := rfl
@[simp] theorem setLinks_layers : (T.setLinks H).layers = T.layers := rfl
@[simp] theorem setLinks_tail : (T.setLinks H).tail = { T.tail with links := H } := rfl
@[simp] theorem setFree_nLayers : (T.setFree fs).nLayers = T.nLayers := rfl
@[simp] theorem setFree_nExperts : (T.setFree fs).nExperts = T.nExperts := rfl
@[simp] theorem setFree_layers : (T.setFree fs).layers = T.layers := rfl
@[simp] theorem setFree_tail : (T.setFree fs).tail = { T.tail with freeSlots := fs } := rfl

end Fields

/-- What no operation changes once the tier is set up: the sizes, the arena and which
experts are in the store file. -/
structure Config where
  nLayers : ℕ
  nExperts : ℕ
  on : Bool
  arena : ℕ
  nSlots : ℕ
  perLayer : ℕ
  prefillArena : Bool
  prefillSets : ℕ
  prefillSetSlots : ℕ
  cold : ℕ → ℕ → Bool

/-- The tier's configuration. -/
def Tier.config (T : Tier) : Config :=
  ⟨T.nLayers, T.nExperts, T.tail.on, T.tail.arena, T.tail.nSlots, T.tail.perLayer,
    T.tail.prefillArena, T.tail.prefillSets, T.tail.prefillSetSlots, fun l => (T.layers l).cold⟩

@[simp] theorem config_setSlot (T : Tier) (s : ℕ) (S : Slot) :
    (T.setSlot s S).config = T.config := rfl

@[simp] theorem config_setLinks (T : Tier) (H : Links ℕ) :
    (T.setLinks H).config = T.config := rfl

@[simp] theorem config_setFree (T : Tier) (fs : List ℕ) :
    (T.setFree fs).config = T.config := rfl

@[simp] theorem config_pushFree (T : Tier) (s : ℕ) : (T.pushFree s).config = T.config := rfl

@[simp] theorem config_setPins (T : Tier) (s n : ℕ) : (T.setPins s n).config = T.config := rfl

@[simp] theorem config_pinUp (T : Tier) (s : ℕ) : (T.pinUp s).config = T.config := rfl

@[simp] theorem config_pinDown (T : Tier) (s : ℕ) : (T.pinDown s).config = T.config := rfl

theorem config_setLayer {T : Tier} {l : ℕ} {L : Layer} (h : L.cold = (T.layers l).cold) :
    (T.setLayer l L).config = T.config := by
  have hc : (fun l' => ((T.setLayer l L).layers l').cold) = fun l' => (T.layers l').cold := by
    funext l'
    rcases eq_or_ne l' l with rfl | hne
    · simp [h]
    · simp [hne]
  simp only [Tier.config, hc, setLayer_nLayers, setLayer_nExperts, setLayer_tail]

/-! ### The LRU operations -/

/-- Take slot `s` out of layer `l`'s list. -/
def lruUnlink (T : Tier) (l s : ℕ) : Tier :=
  (T.setLayer l { T.layers l with lru := T.tail.links.unlinkEnds (T.layers l).lru s }).setLinks
    (T.tail.links.unlink s)

/-- Append slot `s` to layer `l`'s list: most recently served. -/
def lruPushTail (T : Tier) (l s : ℕ) : Tier :=
  (T.setLayer l { T.layers l with lru := Links.pushTailEnds (T.layers l).lru s }).setLinks
    (T.tail.links.pushTail (T.layers l).lru.tail s)

/-- The least recently served unpinned slot of layer `l`. -/
def lruVictim (T : Tier) (l : ℕ) : Option ℕ :=
  T.tail.links.scan (fun v => (T.tail.slots v).pins == 0) (T.tail.nSlots + 1) (T.layers l).lru.head

/-- Clear the index entries of the expert a victim holds (the body of `lru_trim`'s loop,
between the unlink and the return of the slot). -/
def lruForget (T : Tier) (l v : ℕ) : Tier :=
  let L := T.layers l
  let L' := match (T.tail.slots v).expert with
    | some e =>
      { L with slotOf := Function.update L.slotOf e none
               records := Function.update L.records e none }
    | none => L
  (T.setLayer l { L' with nResident := L.nResident - 1 }).setSlot v
    { T.tail.slots v with expert := none, layer := none }

/-- One eviction of `lru_trim`. -/
def lruEvict (T : Tier) (l v : ℕ) : Tier :=
  (lruForget (lruUnlink T l v) l v).pushFree v

/-- `lru_trim`'s loop; every iteration that does not end it removes one resident slot, so
the number of resident slots is fuel enough. -/
def lruTrimLoop : ℕ → Tier → ℕ → Tier
  | 0, T, _ => T
  | fuel + 1, T, l =>
    if T.tail.perLayer < (T.layers l).nResident then
      match lruVictim T l with
      | none => T
      | some v => lruTrimLoop fuel (lruEvict T l v) l
    else T

/-- Evict the layer's least recently served unpinned records while it holds more than
`perLayer`. -/
def lruTrim (T : Tier) (l : ℕ) : Tier := lruTrimLoop (T.layers l).nResident T l

/-- Write the index entries of a slot that becomes resident (`lru_insert` up to the list
insertion); the inserter holds one pin. -/
def lruAssign (T : Tier) (l e s : ℕ) : Tier :=
  let L := T.layers l
  (T.setSlot s { expert := some e, layer := some l, pins := 1 }).setLayer l
    { L with slotOf := Function.update L.slotOf e (some s)
             records := Function.update L.records e (some (T.tail.addr s))
             nResident := L.nResident + 1 }

/-- Slot `s`, a spare slot now holding expert `e`'s record, becomes resident in layer `l`;
a record that became resident meanwhile keeps the first copy. -/
def lruInsert (T : Tier) (l e s : ℕ) : Tier :=
  match (T.layers l).slotOf e with
  | some _ => T.pushFree s
  | none => (lruTrim (lruPushTail (lruAssign T l e s) l s) l).setPins s 0

/-! ### Setting up a tier -/

/-- An index argument of the C interface: `none` when the function's range check
(`i < 0 || i >= n`) rejects it. -/
def checked (i : ℤ) (n : ℕ) : Option ℕ := if 0 ≤ i ∧ i < n then some i.toNat else none

/-- `cpu_tier_create`. -/
def create (nLayers nExperts : ℕ) : Tier where
  nLayers := nLayers
  nExperts := nExperts
  layers _ := ⟨fun _ => none, fun _ => false, fun _ => none, ⟨none, none⟩, 0⟩
  tail := ⟨false, 0, 0, 0, 8, fun _ => {}, ⟨fun _ => none, fun _ => none⟩, [], false, 0, 0⟩

/-- `cpu_tier_set_record`. -/
def setRecord (T : Tier) (layer expert : ℤ) (record : Option ℕ) : Tier :=
  match checked layer T.nLayers, checked expert T.nExperts with
  | some l, some e =>
    T.setLayer l { T.layers l with records := Function.update (T.layers l).records e record }
  | _, _ => T

/-- `cpu_tier_store_tail_init`, when the store files open and the ring is set up; `none`
is its argument error. -/
def storeTailInit (T : Tier) (arena : ℕ) (nSlots perLayer qd : ℤ) (prefillArena : Bool)
    (prefillSets prefillSetSlots : ℕ) : Option Tier :=
  if nSlots < 1 ∨ perLayer < 1 then none
  else some { T with tail := {
    on := true, arena := arena, nSlots := nSlots.toNat, perLayer := perLayer.toNat
    qd := (max 1 qd).toNat, slots := fun _ => {}, links := ⟨fun _ => none, fun _ => none⟩
    freeSlots := List.range nSlots.toNat, prefillArena := prefillArena
    prefillSets := prefillSets, prefillSetSlots := prefillSetSlots } }

/-- `cpu_tier_set_record_cold`. -/
def setRecordCold (T : Tier) (layer expert : ℤ) : Tier :=
  match T.tail.on, checked layer T.nLayers, checked expert T.nExperts with
  | true, some l, some e =>
    T.setLayer l { T.layers l with cold := Function.update (T.layers l).cold e true }
  | _, _, _ => T

/-- The arena slot a record pointer is the address of, if it is one. -/
def Tail.slotAt (X : Tail) (p : ℕ) : Option ℕ :=
  let off : ℤ := p - X.arena
  if off < 0 ∨ off % recordBytes ≠ 0 ∨ off / recordBytes ≥ X.nSlots then none
  else some (off / recordBytes).toNat

/-- The arena slot holding the registered record of `(l, e)`, if it is an arena record. -/
def Tier.recordSlot (T : Tier) (l e : ℕ) : Option ℕ :=
  (T.layers l).records e |>.bind T.tail.slotAt

/-- No two experts share an arena record, and what is registered for a cold expert is an
arena record. -/
structure DistinctArena (T : Tier) : Prop where
  distinct : ∀ l e l' e' s, T.recordSlot l e = some s → T.recordSlot l' e' = some s →
    l = l' ∧ e = e'
  arena : ∀ l e p, (T.layers l).cold e = true → (T.layers l).records e = some p →
    (T.tail.slotAt p).isSome

/-- Adopt the record of `(l, e)` as a resident slot, if it is an arena record. -/
def adoptOne (T : Tier) (l e : ℕ) : Tier :=
  match T.recordSlot l e with
  | none => T
  | some s =>
    let L := T.layers l
    lruPushTail ((T.setSlot s { expert := some e, layer := some l, pins := 0 }).setLayer l
      { L with slotOf := Function.update L.slotOf e (some s)
               cold := Function.update L.cold e true
               nResident := L.nResident + 1 }) l s

/-- The pairs `(l, e)` in the order `cpu_tier_store_tail_adopt` visits them. -/
def Tier.pairs (T : Tier) : List (ℕ × ℕ) :=
  (List.range T.nLayers).flatMap fun l => (List.range T.nExperts).map fun e => (l, e)

/-- The slots whose records `cpu_tier_store_tail_adopt` finds in the arena (`used`). -/
def Tier.used (T : Tier) : List ℕ := T.pairs.filterMap fun le => T.recordSlot le.1 le.2

/-- `cpu_tier_store_tail_adopt`. -/
def storeTailAdopt (T : Tier) : Tier :=
  if T.tail.on then
    (T.pairs.foldl (fun T' le => adoptOne T' le.1 le.2) T).setFree
      ((List.range T.tail.nSlots).filter fun s => s ∉ T.used)
  else T

/-- A tier set up as `ExpertStore.attach` does it, up to the adoption: the loaded records are
registered, the tail is initialised and the cold experts are marked. -/
def beforeAdopt (nLayers nExperts : ℕ) (records : List (ℤ × ℤ × Option ℕ)) (arena : ℕ)
    (nSlots perLayer qd : ℤ) (prefillArena : Bool) (prefillSets prefillSetSlots : ℕ)
    (cold : List (ℤ × ℤ)) : Option Tier :=
  (storeTailInit (records.foldl (fun T r => setRecord T r.1 r.2.1 r.2.2) (create nLayers nExperts))
    arena nSlots perLayer qd prefillArena prefillSets prefillSetSlots).map
    fun T => cold.foldl (fun T' c => setRecordCold T' c.1 c.2) T

end CpuTier

end VllmMoet
