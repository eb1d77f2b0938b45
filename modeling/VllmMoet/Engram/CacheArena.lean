import Mathlib.Data.Finset.Card
import Mathlib.Data.Finset.Prod
import Mathlib.Data.Nat.Log
import Mathlib.Logic.Function.Basic
import Mathlib.Tactic.Common
import VllmMoet.Lib.Transition

/-!
# The arena of the row cache

`RowCache` of `engram_v2.cpp` as it stands in memory: sets of eight ways, each with the id of its
row plus one as its tag, reference bits for CLOCK replacement, and a hash of the id by a shift
that is counted down from the number of sets.

* `CacheSet.clock`, `CacheSet.insert`: a set's replacement;
* `RowCache.init`, `RowCache.probe`, `RowCache.insert`;
* `cacheSystem`: the runs of probes and inserts, with the row that was last inserted of each id;
* `rowCache_kept`: in every run no id is cached twice, a hit returns the row last inserted of
  its id, and an insert makes its id present and costs at most one other row of its set.

Without sets, that is for a size that is not positive or when the arena cannot be mapped,
nothing is ever cached.
-/

namespace VllmMoet

namespace EngramCache

variable {ρ : Type*}

/-- `WAYS`. -/
def ways : ℕ := 8

/-- A row id: a 32-bit integer that is not negative. -/
structure RowId where
  val : ℕ
  lt : val < 2147483648
  deriving DecidableEq

/-- The tag of an id, `id + 1` as a 32-bit integer. -/
def tagOf (id : RowId) : ℤ :=
  (BitVec.ofNat 32 (id.val + 1)).toInt

/-- One set; a tag of `0` is that of an empty way. -/
structure CacheSet (ρ : Type*) where
  tag : ℕ → ℤ
  ref : ℕ → Bool
  hand : ℕ
  data : ℕ → Option ρ

namespace CacheSet

variable (S : CacheSet ρ)

/-- A set of the zeroed arena. -/
def empty : CacheSet ρ :=
  ⟨fun _ => 0, fun _ => false, 0, fun _ => none⟩

/-- The first way with a tag. -/
def find (t : ℤ) : Option ℕ :=
  (List.range ways).find? fun w => S.tag w == t

/-- A row is copied into a way, under a tag. -/
def put (w : ℕ) (t : ℤ) (row : ρ) : CacheSet ρ :=
  { S with
    tag := Function.update S.tag w t
    ref := Function.update S.ref w true
    data := Function.update S.data w (some row) }

/-- The CLOCK loop, for a number of iterations: the first way without a reference bit, clearing
the bits passed. -/
def clock : ℕ → CacheSet ρ → Option (ℕ × CacheSet ρ)
  | 0, _ => none
  | fuel + 1, S =>
    if S.ref S.hand then
      clock fuel { S with
        hand := (S.hand + 1) % ways
        ref := Function.update S.ref S.hand false }
    else some (S.hand, { S with hand := (S.hand + 1) % ways })

/-- What an insertion into a set did. -/
inductive Kind
  | replaced
  | filled
  | evicted
  deriving DecidableEq

/-- The insertion of a row: over the row's own way, into an empty one, or into the one the clock
finds, which gets two turns of the hand. -/
def insert (t : ℤ) (row : ρ) : Option (CacheSet ρ × Kind) :=
  match S.find t with
  | some w => some (S.put w t row, .replaced)
  | none =>
    match S.find 0 with
    | some w => some (S.put w t row, .filled)
    | none => (S.clock (2 * ways)).map fun c => (c.2.put c.1 t row, .evicted)

end CacheSet

/-- The cache; `on` tells that `sets_` is not null. -/
structure RowCache (ρ : Type*) where
  on : Bool
  nsets : ℕ
  shift : ℕ
  sets : ℕ → CacheSet ρ
  filled : ℕ
  evictions : ℕ

/-- `while (p * 2 <= n) p *= 2`, for a number of iterations. -/
def roundDown (n : ℕ) : ℕ → ℕ → ℕ
  | 0, p => p
  | fuel + 1, p => if p * 2 ≤ n then roundDown n fuel (p * 2) else p

/-- `while ((1 << (64 - shift)) < nsets) --shift`. -/
def shiftFor (nsets : ℕ) : ℕ → ℕ
  | 0 => 0
  | s + 1 => if 1 <<< (64 - (s + 1)) < nsets then shiftFor nsets s else s + 1

namespace RowCache

/-- A cache without sets. -/
def off (shift : ℕ) : RowCache ρ :=
  ⟨false, 0, shift, fun _ => .empty, 0, 0⟩

/-- `sizeof(Set)`. -/
def setBytes : ℤ := 2176

/-- `init`, for a size in bytes; `mapped` tells whether the arena can be mapped. -/
def init (bytes : BitVec 64) (mapped : Bool) : RowCache ρ :=
  if bytes.toInt ≤ 0 then off 64
  else
    let nsets := roundDown (bytes.toInt / setBytes).toNat 64 1
    let shift := shiftFor nsets 64
    if mapped then ⟨true, nsets, shift, fun _ => .empty, 0, 0⟩ else off shift

variable (c : RowCache ρ)

/-- `index` -/
def index (id : RowId) : ℕ :=
  if 64 ≤ c.shift then 0
  else (id.val * 0x9E3779B97F4A7C15 % 0x10000000000000000) >>> c.shift

/-- `probe`: the row, if the id is cached. -/
def probe (id : RowId) : Option ρ × RowCache ρ :=
  if c.on then
    let S := c.sets (c.index id)
    match S.find (tagOf id) with
    | some w => (S.data w, { c with
        sets := Function.update c.sets (c.index id)
          { S with ref := Function.update S.ref w true } })
    | none => (none, c)
  else (none, c)

/-- `insert`. There is no result if the clock has not found a way. -/
def insert (id : RowId) (row : ρ) : Option (RowCache ρ) :=
  if c.on then
    ((c.sets (c.index id)).insert (tagOf id) row).map fun r => { c with
      sets := Function.update c.sets (c.index id) r.1
      filled := if r.2 = .filled then c.filled + 1 else c.filled
      evictions := if r.2 = .evicted then c.evictions + 1 else c.evictions }
  else some c

/-- The id is in a way of a set. -/
def Occupies (id : RowId) (i w : ℕ) : Prop :=
  i < c.nsets ∧ w < ways ∧ (c.sets i).tag w = tagOf id

/-- The ways that hold a row. -/
def occupied : Finset (ℕ × ℕ) :=
  (Finset.range c.nsets ×ˢ Finset.range ways).filter fun p => (c.sets p.1).tag p.2 ≠ 0

end RowCache

/-! ### Tags -/

theorem tagOf_eq (id : RowId) :
    tagOf id = if id.val = 2147483647 then -2147483648 else (id.val : ℤ) + 1 := by
  have hlt := id.lt
  rw [tagOf, BitVec.toInt_eq_toNat_cond, BitVec.toNat_ofNat, Nat.mod_eq_of_lt (by omega)]
  split_ifs <;> omega

theorem tagOf_ne_zero (id : RowId) : tagOf id ≠ 0 := by
  rw [tagOf_eq]
  split_ifs <;> omega

theorem tagOf_injective {id id' : RowId} (h : tagOf id = tagOf id') : id = id' := by
  have hlt := id.lt
  have hlt' := id'.lt
  have hval : id.val = id'.val := by
    rw [tagOf_eq, tagOf_eq] at h
    split_ifs at h <;> omega
  cases id
  cases id'
  cases hval
  rfl

/-! ### The number of sets -/

/-- The rounding ends at the largest power of two that fits. -/
theorem roundDown_eq {n j fuel : ℕ} (hj : 2 ^ j ≤ n) (hfuel : Nat.log 2 n ≤ j + fuel) :
    roundDown n fuel (2 ^ j) = 2 ^ Nat.log 2 n := by
  have hlog : j ≤ Nat.log 2 n := Nat.le_log_of_pow_le (by decide) hj
  induction fuel generalizing j with
  | zero =>
    rw [roundDown]
    congr 1
    omega
  | succ fuel ih =>
    rw [roundDown]
    split
    · next hle =>
      rw [← Nat.pow_succ] at hle ⊢
      exact ih hle (by omega) (Nat.le_log_of_pow_le (by decide) hle)
    · next hlt =>
      rw [← Nat.pow_succ, Nat.not_le] at hlt
      congr 1
      have hpos := Nat.two_pow_pos j
      have := Nat.log_lt_of_lt_pow (by omega) hlt
      omega

/-- The shift leaves as many bits as number the sets. -/
theorem shiftFor_eq {k s : ℕ} (hk : 64 - k ≤ s) (hs : s ≤ 64) (hk64 : k ≤ 64) :
    shiftFor (2 ^ k) s = 64 - k := by
  induction s with
  | zero =>
    rw [shiftFor]
    omega
  | succ s ih =>
    rw [shiftFor]
    split
    · next hlt =>
      rw [Nat.one_shiftLeft] at hlt
      have := (Nat.pow_lt_pow_iff_right (by decide)).mp hlt
      exact ih (by omega) (by omega)
    · next hge =>
      rw [Nat.one_shiftLeft, Nat.not_lt] at hge
      have := (Nat.pow_le_pow_iff_right (by decide)).mp hge
      omega

/-! ### One set -/

namespace CacheSet

variable {S S' : CacheSet ρ} {t : ℤ} {row : ρ} {w : ℕ}

theorem find_eq_some (h : S.find t = some w) : w < ways ∧ S.tag w = t := by
  refine ⟨List.mem_range.mp (List.mem_of_find?_eq_some h), ?_⟩
  simpa using List.find?_some h

theorem find_eq_none (h : S.find t = none) : ∀ v < ways, S.tag v ≠ t := by
  intro v hv htag
  have hnone := List.find?_eq_none.mp h v (List.mem_range.mpr hv)
  simp only [htag, BEq.rfl, not_true_eq_false] at hnone

/-- A tag that only one way has is found there. -/
theorem find_of_unique (hw : w < ways) (htag : S.tag w = t)
    (huniq : ∀ v < ways, S.tag v = t → v = w) : S.find t = some w := by
  rcases hfind : S.find t with _ | v
  · exact absurd htag (find_eq_none hfind w hw)
  · obtain ⟨hv, hvtag⟩ := find_eq_some hfind
    rw [huniq v hv hvtag]

/-- The clock finds one of the ways, and changes no row. -/
theorem clock_spec {fuel : ℕ} (hhand : S.hand < ways) (h : S.clock fuel = some (w, S')) :
    w < ways ∧ S'.tag = S.tag ∧ S'.data = S.data ∧ S'.hand < ways := by
  induction fuel generalizing S with
  | zero => simp only [clock, reduceCtorEq] at h
  | succ fuel ih =>
    have hnext : (S.hand + 1) % ways < ways := Nat.mod_lt _ (by decide)
    rw [clock] at h
    split at h
    · have hrest := ih (by exact hnext) h
      exact hrest
    · obtain ⟨rfl, rfl⟩ := Prod.mk.inj (Option.some.inj h)
      exact ⟨hhand, rfl, rfl, hnext⟩

/-- The ways with a reference bit. -/
def referenced (S : CacheSet ρ) : Finset ℕ :=
  (Finset.range ways).filter fun w => S.ref w = true

/-- Every iteration of the clock but the last clears a bit. -/
theorem clock_ends {fuel : ℕ} (hhand : S.hand < ways) (hfuel : S.referenced.card < fuel) :
    ∃ r, ∀ more, S.clock (fuel + more) = some r := by
  induction fuel generalizing S with
  | zero => exact absurd hfuel (Nat.not_lt_zero _)
  | succ fuel ih =>
    by_cases href : S.ref S.hand = true
    · have herase : ({ S with
          hand := (S.hand + 1) % ways
          ref := Function.update S.ref S.hand false } : CacheSet ρ).referenced =
          S.referenced.erase S.hand := by
        ext v
        simp only [referenced, Finset.mem_filter, Finset.mem_erase, Function.update_apply]
        split_ifs with hv
        · simp [hv]
        · simp [hv]
      have hmem : S.hand ∈ S.referenced :=
        Finset.mem_filter.mpr ⟨Finset.mem_range.mpr hhand, href⟩
      have hcard := Finset.card_erase_add_one hmem
      have hnext : (S.hand + 1) % ways < ways := Nat.mod_lt _ (by decide)
      obtain ⟨r, hr⟩ := ih hnext (herase ▸ (by omega : (S.referenced.erase S.hand).card < fuel))
      refine ⟨r, fun more => ?_⟩
      rw [Nat.add_right_comm, clock, if_pos href]
      exact hr more
    · refine ⟨(S.hand, { S with hand := (S.hand + 1) % ways }), fun more => ?_⟩
      rw [Nat.add_right_comm, clock, if_neg href]

theorem card_referenced_le (S : CacheSet ρ) : S.referenced.card ≤ ways :=
  (Finset.card_filter_le _ _).trans (Finset.card_range _).le

/-- Two turns of the hand are enough, however long the loop would go on. -/
theorem clock_two_turns (hhand : S.hand < ways) :
    ∃ r, ∀ fuel, 2 * ways ≤ fuel → S.clock fuel = some r := by
  have hle := S.card_referenced_le
  have hlt : ways < 2 * ways := by decide
  obtain ⟨r, hr⟩ := clock_ends hhand (hle.trans_lt hlt)
  refine ⟨r, fun fuel hfuel => ?_⟩
  obtain ⟨more, rfl⟩ := Nat.exists_eq_add_of_le hfuel
  exact hr more

/-- What an insertion did to a set: the way that was written, and what was in it. -/
structure Written (S S' : CacheSet ρ) (t : ℤ) (row : ρ) (k : Kind) (w : ℕ) : Prop where
  lt : w < ways
  tag : S'.tag = Function.update S.tag w t
  data : S'.data = Function.update S.data w (some row)
  hand : S.hand < ways → S'.hand < ways
  fresh : S.tag w = t ∨ ∀ v < ways, S.tag v ≠ t
  filled : k = .filled ↔ S.tag w = 0

/-- An insertion ends, and writes one way. -/
theorem insert_spec (hhand : S.hand < ways) (ht : t ≠ 0) (row : ρ) :
    ∃ S' k, S.insert t row = some (S', k) ∧ ∃ w, Written S S' t row k w := by
  rw [insert]
  rcases hfind : S.find t with _ | w
  · have hfresh := find_eq_none hfind
    rcases hempty : S.find 0 with _ | w
    · obtain ⟨⟨w, S₁⟩, hclock⟩ := clock_two_turns hhand
      obtain ⟨hw, htag, hdata, hhand₁⟩ := clock_spec hhand (hclock _ le_rfl)
      refine ⟨S₁.put w t row, .evicted, ?_, w, hw, ?_, ?_, fun _ => hhand₁, .inr hfresh, ?_⟩
      · simp only [hclock _ le_rfl, Option.map_some]
      · rw [← htag, put]
      · rw [← hdata, put]
      · exact iff_of_false (by decide) (find_eq_none hempty w hw)
    · obtain ⟨hw, hzero⟩ := find_eq_some hempty
      exact ⟨S.put w t row, .filled, rfl, w, hw, rfl, rfl, id, .inr hfresh,
        iff_of_true rfl hzero⟩
  · obtain ⟨hw, htag⟩ := find_eq_some hfind
    exact ⟨S.put w t row, .replaced, rfl, w, hw, rfl, rfl, id, .inl htag,
      iff_of_false (by decide) (htag ▸ ht)⟩

end CacheSet

/-! ### The runs -/

section Runs

/-- The calls of the fetcher. -/
inductive Op (ρ : Type*)
  | probe (id : RowId)
  | insert (id : RowId) (row : ρ)

/-- The cache, with the row that was last inserted of each id. -/
structure State (ρ : Type*) where
  cache : RowCache ρ
  last : RowId → Option ρ

/-- One call. -/
def step (s : State ρ) : Op ρ → Option (State ρ)
  | .probe id => some { s with cache := (s.cache.probe id).2 }
  | .insert id row => (s.cache.insert id row).map fun c =>
    { cache := c, last := Function.update s.last id (some row) }

/-- Every sequence of probes and inserts on a cache of a size. -/
def cacheSystem (ρ : Type*) (bytes : BitVec 64) (mapped : Bool) :
    TransitionSystem (State ρ) (Op ρ) :=
  .ofStep (fun s => s = ⟨RowCache.init bytes mapped, fun _ => none⟩) step

/-- A way with a tag holds the last row of the id of the tag, which belongs into the way's set. -/
structure Holds (s : State ρ) (i w : ℕ) (id : RowId) : Prop where
  tag : (s.cache.sets i).tag w = tagOf id
  index : s.cache.index id = i
  data : (s.cache.sets i).data w = s.last id
  isSome : (s.last id).isSome

/-- **The invariant.** -/
structure CacheOk (s : State ρ) : Prop where
  index_lt : s.cache.on = true → ∀ id, s.cache.index id < s.cache.nsets
  off : s.cache.on = false → s.cache.nsets = 0 ∧ ∀ i w, (s.cache.sets i).tag w = 0
  hand_lt : ∀ i, (s.cache.sets i).hand < ways
  holds : ∀ i, ∀ w < ways, (s.cache.sets i).tag w ≠ 0 → ∃ id, Holds s i w id
  once : ∀ i, ∀ w < ways, ∀ v < ways, (s.cache.sets i).tag w ≠ 0 →
    (s.cache.sets i).tag v = (s.cache.sets i).tag w → v = w
  filled : s.cache.filled = s.cache.occupied.card

variable {s s' : State ρ} {id : RowId} {row : ρ}

/-! ### The start -/

/-- The number of sets of a positive size is a power of two, and the hash is shifted to as many
bits. -/
theorem init_sets {n : ℕ} (hlt : n < 2 ^ 63) :
    Nat.log 2 n ≤ 63 ∧ roundDown n 64 1 = 2 ^ Nat.log 2 n ∧
      shiftFor (2 ^ Nat.log 2 n) 64 = 64 - Nat.log 2 n := by
  by_cases hn : n = 0
  · rw [hn]
    decide
  · have hlog := Nat.log_lt_of_lt_pow hn hlt
    exact ⟨by omega, roundDown_eq (j := 0) (by omega) (by omega),
      shiftFor_eq (by omega) le_rfl (by omega)⟩

/-- The sets that the bytes have room for are counted by a positive 64-bit integer. -/
theorem sets_lt (bytes : BitVec 64) : (bytes.toInt / RowCache.setBytes).toNat < 2 ^ 63 := by
  have := BitVec.toInt_lt (x := bytes)
  rw [RowCache.setBytes]
  omega

/-- The hash of an id is shifted below the number of sets. -/
theorem index_lt_pow {c : RowCache ρ} {k : ℕ} (hk : k ≤ 63) (hshift : c.shift = 64 - k)
    (id : RowId) : c.index id < 2 ^ k := by
  rw [RowCache.index, hshift]
  split
  · exact Nat.two_pow_pos k
  · rw [Nat.shiftRight_eq_div_pow, Nat.div_lt_iff_lt_mul (Nat.two_pow_pos _), ← Nat.pow_add,
      show k + (64 - k) = 64 by omega]
    exact Nat.mod_lt _ (by decide)

theorem cacheOk_start (bytes : BitVec 64) (mapped : Bool) :
    CacheOk (⟨RowCache.init bytes mapped, fun _ => none⟩ : State ρ) := by
  have hempty : ∀ c : RowCache ρ, c.sets = (fun _ => .empty) → c.filled = 0 →
      (c.on = true → ∀ id, c.index id < c.nsets) → (c.on = false → c.nsets = 0) →
      CacheOk (⟨c, fun _ => none⟩ : State ρ) := by
    intro c hsets hfilled hindex hoff
    have hzero : ∀ i w, (c.sets i).tag w = 0 := fun i w => by rw [hsets, CacheSet.empty]
    refine ⟨hindex, fun h => ⟨hoff h, hzero⟩, fun i => ?_, fun i w _ hw => absurd (hzero i w) hw,
      fun i w _ _ _ hw => absurd (hzero i w) hw, ?_⟩
    · simp only [hsets, CacheSet.empty, ways, Nat.zero_lt_succ]
    · rw [hfilled, RowCache.occupied, Finset.filter_false_of_mem, Finset.card_empty]
      exact fun p _ hp => hp (hzero p.1 p.2)
  obtain ⟨hk, hround, hshift⟩ := init_sets (sets_lt bytes)
  rw [RowCache.init]
  split
  · exact hempty _ rfl rfl (fun h => absurd h (by simp [RowCache.off])) fun _ => rfl
  · cases mapped with
    | false => exact hempty _ rfl rfl (fun h => absurd h (by simp [RowCache.off])) fun _ => rfl
    | true =>
      refine hempty _ rfl rfl (fun _ id => ?_) fun h => absurd h (by simp)
      simp only [if_true, hround]
      exact index_lt_pow hk hshift id

/-! ### Probes -/

theorem probe_fst (c : RowCache ρ) (id : RowId) :
    (c.probe id).1 = if c.on then
      ((c.sets (c.index id)).find (tagOf id)).bind (c.sets (c.index id)).data else none := by
  rw [RowCache.probe]
  split
  · rcases hfind : (c.sets (c.index id)).find (tagOf id) with _ | w
    · simp only [hfind, Option.bind_none]
    · simp only [hfind, Option.bind_some]
  · rfl

/-- The id is in a way of its set. -/
def Present (c : RowCache ρ) (id : RowId) : Prop :=
  c.on = true ∧ ∃ w < ways, (c.sets (c.index id)).tag w = tagOf id

/-- A probe returns the last row of an id that is present. -/
theorem probe_of_present (h : CacheOk s) (hp : Present s.cache id) :
    (s.cache.probe id).1 = s.last id := by
  obtain ⟨hon, w, hw, htag⟩ := hp
  have hne : (s.cache.sets (s.cache.index id)).tag w ≠ 0 := htag ▸ tagOf_ne_zero id
  have hfind := CacheSet.find_of_unique hw htag fun v hv hvtag =>
    h.once _ w hw v hv hne (hvtag.trans htag.symm)
  obtain ⟨id', hid'⟩ := h.holds _ w hw hne
  obtain rfl := tagOf_injective (htag.symm.trans hid'.tag)
  rw [probe_fst, if_pos hon, hfind, Option.bind_some, hid'.data]

/-- A probe returns nothing for an id that is not. -/
theorem probe_of_not_present {c : RowCache ρ} (hp : ¬Present c id) : (c.probe id).1 = none := by
  rw [probe_fst]
  split_ifs with hon
  · rcases hfind : (c.sets (c.index id)).find (tagOf id) with _ | w
    · rw [Option.bind_none]
    · exact absurd ⟨hon, w, CacheSet.find_eq_some hfind⟩ hp
  · rfl

/-- Two caches that differ in their reference bits only. -/
structure SameRows (c c' : RowCache ρ) : Prop where
  on : c'.on = c.on
  nsets : c'.nsets = c.nsets
  shift : c'.shift = c.shift
  filled : c'.filled = c.filled
  tag : ∀ i, (c'.sets i).tag = (c.sets i).tag
  data : ∀ i, (c'.sets i).data = (c.sets i).data
  hand : ∀ i, (c'.sets i).hand = (c.sets i).hand

theorem SameRows.refl (c : RowCache ρ) : SameRows c c :=
  ⟨rfl, rfl, rfl, rfl, fun _ => rfl, fun _ => rfl, fun _ => rfl⟩

theorem sameRows_ref (c : RowCache ρ) (i : ℕ) (ref : ℕ → Bool) :
    SameRows c { c with sets := Function.update c.sets i { c.sets i with ref := ref } } := by
  have hset : ∀ j, ∃ r, Function.update c.sets i { c.sets i with ref := ref } j =
      { c.sets j with ref := r } := by
    intro j
    rw [Function.update_apply]
    split_ifs with hj
    · exact ⟨ref, by rw [hj]⟩
    · exact ⟨(c.sets j).ref, rfl⟩
  refine ⟨rfl, rfl, rfl, rfl, fun j => ?_, fun j => ?_, fun j => ?_⟩ <;>
  · obtain ⟨r, hr⟩ := hset j
    simp only [hr]

theorem probe_sameRows (c : RowCache ρ) (id : RowId) : SameRows c (c.probe id).2 := by
  rw [RowCache.probe]
  split
  · rcases hfind : (c.sets (c.index id)).find (tagOf id) with _ | w
    · simp only [hfind]
      exact .refl c
    · simp only [hfind]
      exact sameRows_ref c _ _
  · exact .refl c

theorem CacheOk.sameRows (h : CacheOk s) {c' : RowCache ρ} (hc : SameRows s.cache c') :
    CacheOk { s with cache := c' } := by
  have hindex : ∀ id, c'.index id = s.cache.index id := fun id => by
    rw [RowCache.index, RowCache.index, hc.shift]
  refine ⟨fun hon id => ?_, fun hoff => ?_, fun i => ?_, fun i w hw htag => ?_,
    fun i w hw v hv htag => ?_, ?_⟩
  · rw [hindex, hc.nsets]
    exact h.index_lt (hc.on ▸ hon) id
  · rw [hc.nsets]
    simp only [hc.tag]
    exact h.off (hc.on ▸ hoff)
  · rw [hc.hand]
    exact h.hand_lt i
  · rw [hc.tag] at htag
    obtain ⟨id, hid⟩ := h.holds i w hw htag
    refine ⟨id, ?_, (hindex id).trans hid.index, ?_, hid.isSome⟩
    · rw [hc.tag]
      exact hid.tag
    · rw [hc.data]
      exact hid.data
  · simp only [hc.tag] at htag ⊢
    exact h.once i w hw v hv htag
  · simp only [hc.filled, RowCache.occupied, hc.nsets, hc.tag]
    exact h.filled

/-! ### Inserts -/

/-- The cache after an insertion, by the set that was written. -/
structure Inserted (s : State ρ) (id : RowId) (row : ρ) (c' : RowCache ρ) (k : CacheSet.Kind)
    (w : ℕ) : Prop where
  written : CacheSet.Written (s.cache.sets (s.cache.index id)) (c'.sets (s.cache.index id))
    (tagOf id) row k w
  others : ∀ i, i ≠ s.cache.index id → c'.sets i = s.cache.sets i
  on : c'.on = s.cache.on
  nsets : c'.nsets = s.cache.nsets
  shift : c'.shift = s.cache.shift
  filled : c'.filled = if k = .filled then s.cache.filled + 1 else s.cache.filled

/-- An insertion ends. -/
theorem insert_inserted (h : CacheOk s) (hon : s.cache.on = true) (id : RowId) (row : ρ) :
    ∃ c', s.cache.insert id row = some c' ∧ ∃ k w, Inserted s id row c' k w := by
  obtain ⟨S', k, hinsert, w, hw⟩ := CacheSet.insert_spec (h.hand_lt (s.cache.index id))
    (tagOf_ne_zero id) row
  rw [RowCache.insert, if_pos hon, hinsert, Option.map_some]
  refine ⟨_, rfl, k, w, ?_, fun i hi => ?_, rfl, rfl, rfl, rfl⟩
  · simp only [Function.update_self]
    exact hw
  · simp only [Function.update_of_ne hi]

namespace Inserted

variable {c' : RowCache ρ} {k : CacheSet.Kind} {w : ℕ}

theorem index_eq (h : Inserted s id row c' k w) (id' : RowId) :
    c'.index id' = s.cache.index id' := by
  rw [RowCache.index, RowCache.index, h.shift]

/-- The tags after an insertion. -/
theorem tag_eq (h : Inserted s id row c' k w) (i v : ℕ) : (c'.sets i).tag v =
    if i = s.cache.index id ∧ v = w then tagOf id else (s.cache.sets i).tag v := by
  by_cases hi : i = s.cache.index id
  · rw [hi, h.written.tag, Function.update_apply]
    simp only [true_and]
  · rw [h.others i hi, if_neg fun hc => hi hc.1]

/-- The rows after an insertion. -/
theorem data_eq (h : Inserted s id row c' k w) (i v : ℕ) : (c'.sets i).data v =
    if i = s.cache.index id ∧ v = w then some row else (s.cache.sets i).data v := by
  by_cases hi : i = s.cache.index id
  · rw [hi, h.written.data, Function.update_apply]
    simp only [true_and]
  · rw [h.others i hi, if_neg fun hc => hi hc.1]

/-- The id's own tag is nowhere but in the way that was written. -/
theorem tag_ne (h : Inserted s id row c' k w) (hok : CacheOk s) {i v : ℕ} (hv : v < ways)
    (hother : ¬(i = s.cache.index id ∧ v = w)) : (s.cache.sets i).tag v ≠ tagOf id := by
  intro htag
  obtain ⟨id', hid'⟩ := hok.holds i v hv (htag ▸ tagOf_ne_zero id)
  obtain rfl := tagOf_injective (htag.symm.trans hid'.tag)
  obtain rfl := hid'.index
  rcases h.written.fresh with hsame | hnone
  · refine hother ⟨rfl, hok.once _ w h.written.lt v hv ?_ (htag.trans hsame.symm)⟩
    exact hsame ▸ tagOf_ne_zero id
  · exact hnone v hv htag

/-- The ways in use after an insertion. -/
theorem occupied_eq (h : Inserted s id row c' k w) (hlt : s.cache.index id < s.cache.nsets) :
    c'.occupied = insert (s.cache.index id, w) s.cache.occupied := by
  ext p
  simp only [RowCache.occupied, Finset.mem_insert, Finset.mem_filter, Finset.mem_product,
    Finset.mem_range, h.tag_eq, h.nsets, Prod.ext_iff]
  split_ifs with hp
  · simp only [hp.1, hp.2, hlt, h.written.lt, tagOf_ne_zero, ne_eq, not_false_iff, and_self,
      true_or]
  · simp only [hp, false_or]

theorem filled_eq (h : Inserted s id row c' k w) (hok : CacheOk s)
    (hlt : s.cache.index id < s.cache.nsets) : c'.filled = c'.occupied.card := by
  rw [h.occupied_eq hlt, h.filled, hok.filled]
  have hmem : (s.cache.index id, w) ∈ s.cache.occupied ↔
      (s.cache.sets (s.cache.index id)).tag w ≠ 0 := by
    simp only [RowCache.occupied, Finset.mem_filter, Finset.mem_product, Finset.mem_range, hlt,
      h.written.lt, and_self, true_and]
  split_ifs with hk
  · rw [Finset.card_insert_of_notMem]
    exact fun hin => hmem.mp hin (h.written.filled.mp hk)
  · rw [Finset.insert_eq_of_mem]
    exact hmem.mpr fun hzero => hk (h.written.filled.mpr hzero)

/-- An insertion keeps the invariant. -/
theorem cacheOk (h : Inserted s id row c' k w) (hok : CacheOk s) (hon : s.cache.on = true) :
    CacheOk ⟨c', Function.update s.last id (some row)⟩ := by
  have hlt := hok.index_lt hon id
  have hself : (⟨c', Function.update s.last id (some row)⟩ : State ρ).last id = some row :=
    Function.update_self ..
  have hkeep : ∀ id' ≠ id,
      (⟨c', Function.update s.last id (some row)⟩ : State ρ).last id' = s.last id' :=
    fun id' hne => Function.update_of_ne hne ..
  refine ⟨fun _ id' => ?_, fun hoff => ?_, fun i => ?_, fun i v hv htag => ?_,
    fun i v hv u hu htag heq => ?_, h.filled_eq hok hlt⟩
  · rw [h.index_eq, h.nsets]
    exact hok.index_lt hon id'
  · rw [h.on, hon] at hoff
    exact absurd hoff (by decide)
  · by_cases hi : i = s.cache.index id
    · rw [hi]
      exact h.written.hand (hok.hand_lt _)
    · rw [h.others i hi]
      exact hok.hand_lt i
  · by_cases hp : i = s.cache.index id ∧ v = w
    · refine ⟨id, ?_, (h.index_eq id).trans hp.1.symm, ?_, ?_⟩
      · rw [h.tag_eq, if_pos hp]
      · rw [h.data_eq, if_pos hp]
        exact hself.symm
      · rw [hself, Option.isSome_some]
    · rw [h.tag_eq, if_neg hp] at htag
      obtain ⟨id', hid'⟩ := hok.holds i v hv htag
      have hne : id' ≠ id := fun heq => h.tag_ne hok hv hp (heq ▸ hid'.tag)
      refine ⟨id', ?_, (h.index_eq id').trans hid'.index, ?_, ?_⟩
      · rw [h.tag_eq, if_neg hp, hid'.tag]
      · rw [h.data_eq, if_neg hp, hkeep id' hne, hid'.data]
      · rw [hkeep id' hne]
        exact hid'.isSome
  · by_cases hpv : i = s.cache.index id ∧ v = w
    · by_cases hpu : i = s.cache.index id ∧ u = w
      · rw [hpu.2, hpv.2]
      · rw [h.tag_eq, if_neg hpu, h.tag_eq, if_pos hpv] at heq
        exact absurd heq (h.tag_ne hok hu hpu)
    · rw [h.tag_eq, if_neg hpv] at htag
      by_cases hpu : i = s.cache.index id ∧ u = w
      · rw [h.tag_eq, if_pos hpu, h.tag_eq, if_neg hpv] at heq
        exact absurd heq.symm (h.tag_ne hok hv hpv)
      · rw [h.tag_eq, if_neg hpu, h.tag_eq, if_neg hpv] at heq
        exact hok.once i v hv u hu htag heq

/-- The id that was inserted is present. -/
theorem present (h : Inserted s id row c' k w) (hon : s.cache.on = true) : Present c' id := by
  refine ⟨h.on.trans hon, w, h.written.lt, ?_⟩
  rw [h.index_eq, h.tag_eq, if_pos ⟨rfl, rfl⟩]

/-- An id is still present unless its tag was in the way that was written. -/
theorem present_iff (h : Inserted s id row c' k w) {id' : RowId} (hne : id' ≠ id)
    (hkept : (s.cache.sets (s.cache.index id)).tag w ≠ tagOf id') :
    Present c' id' ↔ Present s.cache id' := by
  have htag : ∀ i v, (c'.sets i).tag v = tagOf id' ↔ (s.cache.sets i).tag v = tagOf id' := by
    intro i v
    rw [h.tag_eq]
    split_ifs with hp
    · refine iff_of_false (fun heq => hne (tagOf_injective heq).symm) ?_
      rw [hp.1, hp.2]
      exact hkept
    · rfl
  simp only [Present, h.on, h.index_eq, htag]

/-- An insertion costs at most one other id, of the same set. -/
theorem victim (h : Inserted s id row c' k w) (hok : CacheOk s) (hon : s.cache.on = true) :
    ∃ v, s.cache.index v = s.cache.index id ∧
      ∀ id', id' ≠ id → id' ≠ v → (c'.probe id').1 = (s.cache.probe id').1 := by
  have hok' := h.cacheOk hok hon
  have hsame : ∀ id', id' ≠ id → (s.cache.sets (s.cache.index id)).tag w ≠ tagOf id' →
      (c'.probe id').1 = (s.cache.probe id').1 := by
    intro id' hne hkept
    have hiff := h.present_iff hne hkept
    by_cases hp : Present s.cache id'
    · rw [probe_of_present hok hp, probe_of_present hok' (hiff.mpr hp)]
      exact Function.update_of_ne hne ..
    · rw [probe_of_not_present hp, probe_of_not_present fun hp' => hp (hiff.mp hp')]
  by_cases hzero : (s.cache.sets (s.cache.index id)).tag w = 0
  · exact ⟨id, rfl, fun id' hne _ => hsame id' hne (hzero ▸ (tagOf_ne_zero id').symm)⟩
  · obtain ⟨v, hv⟩ := hok.holds _ w h.written.lt hzero
    refine ⟨v, hv.index, fun id' hne hnev => hsame id' hne fun htag => ?_⟩
    exact hnev (tagOf_injective (htag.symm.trans hv.tag))

end Inserted

/-! ### Every run -/

theorem insert_of_off {c : RowCache ρ} (hon : c.on = false) (id : RowId) (row : ρ) :
    c.insert id row = some c := by
  rw [RowCache.insert, hon]
  rfl

/-- Without sets the invariant says nothing about the rows. -/
theorem CacheOk.of_off (h : CacheOk s) (hon : s.cache.on = false) (last : RowId → Option ρ) :
    CacheOk ⟨s.cache, last⟩ :=
  ⟨h.index_lt, h.off, h.hand_lt, fun i w _ hw => absurd ((h.off hon).2 i w) hw, h.once, h.filled⟩

theorem cacheOk_invariant (bytes : BitVec 64) (mapped : Bool) :
    (cacheSystem ρ bytes mapped).Invariant CacheOk where
  start s hs := by
    rw [show s = _ from hs]
    exact cacheOk_start bytes mapped
  step s op s' _ hok hstep := by
    cases op with
    | probe id =>
      obtain rfl := Option.some.inj hstep
      exact hok.sameRows (probe_sameRows _ id)
    | insert id row =>
      obtain ⟨c', hinsert, rfl⟩ := Option.map_eq_some_iff.mp hstep
      cases hon : s.cache.on with
      | true =>
        obtain ⟨c₁, hinsert₁, k, w, hins⟩ := insert_inserted hok hon id row
        obtain rfl := Option.some.inj (hinsert.symm.trans hinsert₁)
        exact hins.cacheOk hok hon
      | false =>
        rw [insert_of_off hon] at hinsert
        obtain rfl := Option.some.inj hinsert
        exact hok.of_off hon _

theorem on_invariant (bytes : BitVec 64) (mapped : Bool) :
    (cacheSystem ρ bytes mapped).Invariant fun s =>
      s.cache.on = true ↔ 0 < bytes.toInt ∧ mapped = true where
  start s hs := by
    rw [show s = _ from hs, RowCache.init]
    split
    · exact iff_of_false (by simp [RowCache.off]) fun h => by omega
    · cases mapped with
      | false => exact iff_of_false (by simp [RowCache.off]) fun h => absurd h.2 (by decide)
      | true => exact iff_of_true rfl ⟨by omega, rfl⟩
  step s op s' _ hon hstep := by
    cases op with
    | probe id =>
      obtain rfl := Option.some.inj hstep
      rw [← hon, (probe_sameRows s.cache id).on]
    | insert id row =>
      obtain ⟨c', hinsert, rfl⟩ := Option.map_eq_some_iff.mp hstep
      rw [RowCache.insert] at hinsert
      split at hinsert
      · obtain ⟨r, -, rfl⟩ := Option.map_eq_some_iff.mp hinsert
        exact hon
      · obtain rfl := Option.some.inj hinsert
        exact hon

/-- What the cache promises in a state. -/
structure Kept (bytes : BitVec 64) (mapped : Bool) (s : State ρ) : Prop where
  /-- There are sets for a positive size that can be mapped. -/
  on_iff : s.cache.on = true ↔ 0 < bytes.toInt ∧ mapped = true
  /-- Every id is in at most one way of one set. -/
  once : ∀ id i w i' w', s.cache.Occupies id i w → s.cache.Occupies id i' w' → i = i' ∧ w = w'
  /-- The index of an id is that of a set. -/
  index_lt : s.cache.on = true → ∀ id, s.cache.index id < s.cache.nsets
  /-- A hit returns the row of the last insert of the id. -/
  hit : ∀ id row, (s.cache.probe id).1 = some row → s.last id = some row
  /-- The clock ends within two turns of the hand. -/
  clock_ends : ∀ i, ∃ r, ∀ fuel, 2 * ways ≤ fuel → (s.cache.sets i).clock fuel = some r
  /-- An insert makes the id present, with its row; but for one other id of the same set, every
  id's probe is as before. -/
  insert : s.cache.on = true → ∀ id row, ∃ c', s.cache.insert id row = some c' ∧
    (c'.probe id).1 = some row ∧ ∃ v, s.cache.index v = s.cache.index id ∧
      ∀ id', id' ≠ id → id' ≠ v → (c'.probe id').1 = (s.cache.probe id').1
  /-- The rows in use are counted, and fit. -/
  filled_eq : s.cache.filled = s.cache.occupied.card
  filled_le : s.cache.filled ≤ s.cache.nsets * ways
  /-- Without sets nothing is cached, and an insert does nothing. -/
  off : s.cache.on = false → ∀ id, (s.cache.probe id).1 = none ∧
    ∀ row, s.cache.insert id row = some s.cache

theorem CacheOk.once_of_occupies (h : CacheOk s) {i w i' w' : ℕ} (hocc : s.cache.Occupies id i w)
    (hocc' : s.cache.Occupies id i' w') : i = i' ∧ w = w' := by
  have hset : ∀ {j v}, s.cache.Occupies id j v → s.cache.index id = j := by
    rintro j v ⟨-, hv, htag⟩
    obtain ⟨id', hid'⟩ := h.holds j v hv (htag ▸ tagOf_ne_zero id)
    rw [tagOf_injective (htag.symm.trans hid'.tag)]
    exact hid'.index
  obtain rfl : i = i' := (hset hocc).symm.trans (hset hocc')
  refine ⟨rfl, h.once i w' hocc'.2.1 w hocc.2.1 ?_ (hocc.2.2.trans hocc'.2.2.symm)⟩
  exact hocc'.2.2 ▸ tagOf_ne_zero id

theorem CacheOk.hit (h : CacheOk s) (hprobe : (s.cache.probe id).1 = some row) :
    s.last id = some row := by
  by_cases hp : Present s.cache id
  · rw [← probe_of_present h hp, hprobe]
  · rw [probe_of_not_present hp] at hprobe
    cases hprobe

theorem CacheOk.insert (h : CacheOk s) (hon : s.cache.on = true) (id : RowId) (row : ρ) :
    ∃ c', s.cache.insert id row = some c' ∧ (c'.probe id).1 = some row ∧
      ∃ v, s.cache.index v = s.cache.index id ∧
        ∀ id', id' ≠ id → id' ≠ v → (c'.probe id').1 = (s.cache.probe id').1 := by
  obtain ⟨c', hinsert, k, w, hins⟩ := insert_inserted h hon id row
  refine ⟨c', hinsert, ?_, hins.victim h hon⟩
  rw [probe_of_present (hins.cacheOk h hon) (hins.present hon)]
  exact Function.update_self ..

theorem CacheOk.filled_le (h : CacheOk s) : s.cache.filled ≤ s.cache.nsets * ways := by
  rw [h.filled, RowCache.occupied]
  refine (Finset.card_filter_le _ _).trans ?_
  rw [Finset.card_product, Finset.card_range, Finset.card_range]

/-- For every size, and after every sequence of probes and inserts, the cache keeps what it
promises. -/
theorem rowCache_kept (bytes : BitVec 64) (mapped : Bool) (s : State ρ)
    (hs : (cacheSystem ρ bytes mapped).Reachable s) : Kept bytes mapped s := by
  have hok := (cacheOk_invariant bytes mapped).holds hs
  refine ⟨(on_invariant bytes mapped).holds hs, fun id i w i' w' => hok.once_of_occupies,
    hok.index_lt, fun id row => hok.hit, fun i => CacheSet.clock_two_turns (hok.hand_lt i),
    hok.insert, hok.filled, hok.filled_le, fun hoff id => ⟨?_, insert_of_off hoff id⟩⟩
  rw [probe_fst, hoff]
  rfl

/-- A row is inserted into a cache of 2176 bytes, one set. -/
theorem rowCache_kept_one_set :
    ∃ s, step (⟨RowCache.init 2176 true, fun _ => none⟩ : State ℕ)
      (.insert ⟨5, Nat.le_of_ble_eq_true rfl⟩ 7) = some s ∧ Kept 2176 true s := by
  obtain ⟨s, hs⟩ := Option.isSome_iff_exists.mp (show
    (step (⟨RowCache.init 2176 true, fun _ => none⟩ : State ℕ)
      (.insert ⟨5, Nat.le_of_ble_eq_true rfl⟩ 7)).isSome = true by decide)
  exact ⟨s, hs, rowCache_kept 2176 true s (.step (.start rfl) hs)⟩

/-- A cache of zero bytes does not keep the row that is inserted. -/
theorem zero_bytes_keeps_nothing :
    ((RowCache.init 0 true : RowCache ℕ).insert ⟨5, Nat.le_of_ble_eq_true rfl⟩ 7).map
      (fun c => (c.probe ⟨5, Nat.le_of_ble_eq_true rfl⟩).1) = some none := by
  rfl

end Runs

end EngramCache

end VllmMoet
