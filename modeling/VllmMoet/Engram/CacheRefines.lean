import Mathlib.Data.List.Find
import VllmMoet.Engram.CacheArena
import VllmMoet.Engram.Fetcher

/-!
# What the arena stands for

The fetcher is modelled with a cache whose ways hold row ids and rows. In memory the cache is an
arena of zeroed sets with 32-bit tags. What the arena's operations do, the fetcher's do to the cache
that it stands for.

* `toSet`, `toCache`: the sets and the cache that an arena stands for.
* `toCache_init`: the cache that the fetcher begins with.
* `cache_refines`: probes and insertions, in every run.
-/

namespace VllmMoet

namespace EngramCache

variable {B : Type*}

/-- The row id that a tag is of. -/
def idOfTag (t : ℤ) : Option ℕ :=
  if t = 0 then none else some ((t - 1) % 4294967296).toNat

theorem idOfTag_tagOf (id : RowId) : idOfTag (tagOf id) = some id.val := by
  have hlt := id.lt
  rw [idOfTag, if_neg (tagOf_ne_zero id), tagOf_eq]
  congr 1
  split_ifs <;> omega

theorem idOfTag_eq_none {t : ℤ} : idOfTag t = none ↔ t = 0 := by
  rw [idOfTag]
  split_ifs with h <;> simp [h]

/-- The set that a set of the arena stands for; the row of an empty way does not matter. -/
def toSet (S : CacheSet (Engram.Row B)) : Engram.CacheSet B where
  tag w := idOfTag (S.tag w)
  ref := S.ref
  data w := (S.data w).getD fun _ => []
  hand := S.hand

/-- The cache that the arena stands for. -/
def toCache (c : RowCache (Engram.Row B)) : Engram.RowCache B where
  on := c.on
  shift := c.shift
  sets i := toSet (c.sets i)

/-- Every way is empty or has the tag of a row. -/
def CacheSet.Tagged {ρ : Type*} (S : CacheSet ρ) : Prop :=
  ∀ w < ways, S.tag w = 0 ∨ ∃ id, S.tag w = tagOf id

section Sets

variable {S S' : CacheSet (Engram.Row B)} {row : Engram.Row B} {id : RowId} {w : ℕ}

/-- The way of a row. -/
theorem find_toSet (h : S.Tagged) (id : RowId) :
    (toSet S).find (some id.val) = S.find (tagOf id) := by
  refine List.find?_congr fun w hw => ?_
  change (idOfTag (S.tag w) == some id.val) = (S.tag w == tagOf id)
  rcases h w (List.mem_range.mp hw) with hzero | ⟨id', hid⟩
  · rw [hzero, Bool.eq_iff_iff, beq_iff_eq, beq_iff_eq, idOfTag, if_pos rfl]
    exact iff_of_false (Option.some_ne_none _).symm (tagOf_ne_zero id).symm
  · rw [hid, idOfTag_tagOf, Bool.eq_iff_iff, beq_iff_eq, beq_iff_eq, Option.some_inj]
    refine ⟨fun hval => ?_, fun htag => congrArg RowId.val (tagOf_injective htag)⟩
    cases id
    cases id'
    cases hval
    rfl

/-- The first empty way. -/
theorem find_toSet_none (S : CacheSet (Engram.Row B)) : (toSet S).find none = S.find 0 := by
  refine List.find?_congr fun w _ => ?_
  change (idOfTag (S.tag w) == none) = (S.tag w == 0)
  rw [Bool.eq_iff_iff, beq_iff_eq, beq_iff_eq, idOfTag_eq_none]

theorem toSet_put (S : CacheSet (Engram.Row B)) (w : ℕ) (id : RowId) (row : Engram.Row B) :
    toSet (S.put w (tagOf id) row) = (toSet S).put w id.val row := by
  have htag : (fun v => idOfTag (Function.update S.tag w (tagOf id) v)) =
      Function.update (fun v => idOfTag (S.tag v)) w (some id.val) := by
    funext v
    rcases eq_or_ne v w with rfl | hv
    · rw [Function.update_self, Function.update_self, idOfTag_tagOf]
    · rw [Function.update_of_ne hv, Function.update_of_ne hv]
  have hdata : (fun v => (Function.update S.data w (some row) v).getD fun _ => []) =
      Function.update (fun v => (S.data v).getD fun _ => []) w row := by
    funext v
    rcases eq_or_ne v w with rfl | hv
    · rw [Function.update_self, Function.update_self, Option.getD_some]
    · rw [Function.update_of_ne hv, Function.update_of_ne hv]
  rw [CacheSet.put, Engram.CacheSet.put, toSet, htag, hdata]
  rfl

/-- The arena's clock stops where the fetcher's does, if a bit is clear within its iterations. -/
theorem clock_toSet {n m : ℕ} (hnm : n < m) {c : ℕ × CacheSet (Engram.Row B)}
    (hclear : ∃ i ≤ n, S.ref ((S.hand + i) % ways) = false) (hhand : S.hand < ways)
    (hc : S.clock m = some c) : Engram.CacheSet.clock n (toSet S) = (c.1, toSet c.2) := by
  induction n generalizing S m with
  | zero =>
    obtain ⟨i, hi, href⟩ := hclear
    obtain ⟨m, rfl⟩ := Nat.exists_eq_succ_of_ne_zero hnm.ne'
    rw [Nat.le_zero.mp hi, Nat.add_zero, Nat.mod_eq_of_lt hhand] at href
    rw [CacheSet.clock, href] at hc
    obtain rfl := Option.some.inj hc
    rfl
  | succ n ih =>
    obtain ⟨m, rfl⟩ := Nat.exists_eq_succ_of_ne_zero (Nat.ne_zero_of_lt hnm)
    rw [CacheSet.clock] at hc
    rw [Engram.CacheSet.clock]
    by_cases href : S.ref S.hand = true
    · rw [if_pos href] at hc
      refine (if_pos href).trans (ih (by omega) ?_ (Nat.mod_lt _ (by decide)) hc)
      -- the clear bit is further on
      obtain ⟨i, hi, hbit⟩ := hclear
      obtain ⟨i, rfl⟩ : ∃ j, i = j + 1 := Nat.exists_eq_succ_of_ne_zero fun hzero => by
        rw [hzero, Nat.add_zero, Nat.mod_eq_of_lt hhand, href] at hbit
        exact Bool.noConfusion hbit
      refine ⟨i, Nat.le_of_succ_le_succ hi, ?_⟩
      change Function.update S.ref S.hand false (((S.hand + 1) % ways + i) % ways) = false
      rw [Nat.mod_add_mod, Nat.add_right_comm, Nat.add_assoc, Function.update_apply, hbit, ite_self]
    · rw [if_neg href] at hc
      obtain rfl := Option.some.inj hc
      exact if_neg href

/-- A turn of the fetcher's clock comes to a clear bit: after seven iterations that have found none
the first bit has been cleared. -/
theorem clock_turn (hhand : S.hand < ways) {c : ℕ × CacheSet (Engram.Row B)}
    (hc : S.clock (2 * ways) = some c) :
    Engram.CacheSet.clock Engram.ways (toSet S) = (c.1, toSet c.2) := by
  by_cases href : S.ref S.hand = true
  · change S.clock (15 + 1) = some c at hc
    change Engram.CacheSet.clock (7 + 1) (toSet S) = _
    rw [CacheSet.clock, if_pos href] at hc
    rw [Engram.CacheSet.clock]
    refine (if_pos href).trans (clock_toSet (by decide) ⟨7, le_rfl, ?_⟩
      (Nat.mod_lt _ (by decide)) hc)
    have hback : ((S.hand + 1) % ways + 7) % ways = S.hand := by
      rw [ways] at hhand ⊢
      omega
    change Function.update S.ref S.hand false (((S.hand + 1) % ways + 7) % ways) = false
    rw [hback, Function.update_self]
  · refine clock_toSet (by decide) ⟨0, Nat.zero_le _, ?_⟩ hhand hc
    rw [Nat.add_zero, Nat.mod_eq_of_lt hhand]
    exact Bool.eq_false_iff.mpr href

/-- An insertion into a set. -/
theorem insert_toSet (h : S.Tagged) (hhand : S.hand < ways) {k : CacheSet.Kind}
    (hS : S.insert (tagOf id) row = some (S', k)) :
    (toSet S).insert id.val row = toSet S' := by
  rw [CacheSet.insert] at hS
  rw [Engram.CacheSet.insert, find_toSet h, find_toSet_none]
  cases hfind : S.find (tagOf id) with
  | some w =>
    rw [hfind] at hS
    obtain ⟨rfl, -⟩ := Prod.mk.inj (Option.some.inj hS)
    exact (toSet_put S w id row).symm
  | none =>
    rw [hfind] at hS
    cases hempty : S.find 0 with
    | some w =>
      rw [hempty] at hS
      obtain ⟨rfl, -⟩ := Prod.mk.inj (Option.some.inj hS)
      exact (toSet_put S w id row).symm
    | none =>
      rw [hempty] at hS
      obtain ⟨c, hc, hput⟩ := Option.map_eq_some_iff.mp hS
      obtain ⟨rfl, -⟩ := Prod.mk.inj hput
      dsimp only
      rw [clock_turn hhand hc, toSet_put]

end Sets

/-! ### The cache -/

/-- A set is replaced. -/
theorem setSet_toSet (c c' : RowCache (Engram.Row B)) (i : ℕ) (S : CacheSet (Engram.Row B))
    (hon : c'.on = c.on) (hshift : c'.shift = c.shift)
    (hsets : c'.sets = Function.update c.sets i S) :
    (toCache c).setSet i (toSet S) = toCache c' := by
  have h : (fun j => toSet (Function.update c.sets i S j)) =
      Function.update (fun j => toSet (c.sets j)) i (toSet S) := by
    funext j
    rcases eq_or_ne j i with rfl | hj
    · rw [Function.update_self, Function.update_self]
    · rw [Function.update_of_ne hj, Function.update_of_ne hj]
  rw [toCache, toCache, hon, hshift, hsets, h]
  rfl

/-- The fetcher begins with the cache that the new arena stands for. -/
theorem toCache_init (bytes : BitVec 64) (mapped : Bool) :
    toCache (RowCache.init bytes mapped : RowCache (Engram.Row B)) =
      Engram.RowCache.init bytes.toInt mapped := by
  have hempty : toSet (CacheSet.empty : CacheSet (Engram.Row B)) = Engram.CacheSet.empty := rfl
  have hoff (shift : ℕ) : toCache (RowCache.off shift : RowCache (Engram.Row B)) =
      ⟨false, shift, fun _ => .empty⟩ := rfl
  rw [RowCache.init, Engram.RowCache.init]
  split_ifs with hbytes hmapped
  · have hzero : (bytes.toInt / 2176).toNat = 0 := by omega
    rw [hoff, hzero, decide_eq_false (not_lt.mpr hbytes), Bool.false_and]
    rfl
  · obtain ⟨-, hround, hshift⟩ := init_sets (sets_lt bytes)
    dsimp only
    rw [hround, hshift, hmapped, decide_eq_true (not_le.mp hbytes)]
    rfl
  · obtain ⟨-, hround, hshift⟩ := init_sets (sets_lt bytes)
    dsimp only
    rw [hoff, hround, hshift, Bool.eq_false_iff.mpr hmapped, Bool.and_false]
    rfl

variable {s : State (Engram.Row B)} {id : RowId}

theorem CacheOk.tagged (h : CacheOk s) (i : ℕ) : (s.cache.sets i).Tagged := by
  intro w hw
  by_cases hzero : (s.cache.sets i).tag w = 0
  · exact .inl hzero
  · obtain ⟨id, hid⟩ := h.holds i w hw hzero
    exact .inr ⟨id, hid.tag⟩

/-- A probe returns the row that the fetcher's returns, and sets the same bit; a probe that finds
nothing changes nothing. -/
theorem toCache_probe (h : CacheOk s) (id : RowId) :
    ((toCache s.cache).probe id.val =
      (s.cache.probe id).1.map fun row => (row, toCache (s.cache.probe id).2)) ∧
    ((s.cache.probe id).1 = none → (s.cache.probe id).2 = s.cache) := by
  rw [Engram.RowCache.probe, RowCache.probe]
  by_cases hon : s.cache.on = true
  · have hon' : (toCache s.cache).on = true := hon
    rw [if_pos hon, if_pos hon']
    dsimp only
    change ((toSet (s.cache.sets (s.cache.index id))).find (some id.val)).map _ = _ ∧ _
    rw [find_toSet (h.tagged _)]
    cases hfind : (s.cache.sets (s.cache.index id)).find (tagOf id) with
    | none => exact ⟨rfl, fun _ => rfl⟩
    | some w =>
      obtain ⟨hw, htag⟩ := CacheSet.find_eq_some hfind
      obtain ⟨id', hid'⟩ := h.holds _ w hw (htag ▸ tagOf_ne_zero id)
      obtain ⟨row, hrow⟩ := Option.isSome_iff_exists.mp hid'.isSome
      have hdata : (s.cache.sets (s.cache.index id)).data w = some row := hid'.data.trans hrow
      dsimp only
      rw [hdata, Option.map_some, Option.map_some]
      refine ⟨congrArg some (Prod.ext ?_ ?_), fun hnone => absurd hnone (Option.some_ne_none row)⟩
      · change ((s.cache.sets (s.cache.index id)).data w).getD _ = row
        rw [hdata, Option.getD_some]
      · exact setSet_toSet s.cache _ _ { s.cache.sets (s.cache.index id) with
          ref := Function.update (s.cache.sets (s.cache.index id)).ref w true } rfl rfl rfl
  · have hon' : ¬ (toCache s.cache).on = true := hon
    rw [if_neg hon, if_neg hon']
    exact ⟨rfl, fun _ => rfl⟩

/-- An insertion leaves the cache that the fetcher's leaves. -/
theorem toCache_insert (h : CacheOk s) (id : RowId) (row : Engram.Row B) :
    ∃ c, s.cache.insert id row = some c ∧ (toCache s.cache).insert id.val row = toCache c := by
  rw [RowCache.insert, Engram.RowCache.insert]
  by_cases hon : s.cache.on = true
  · have hon' : (toCache s.cache).on = true := hon
    obtain ⟨S', k, hS, -⟩ := CacheSet.insert_spec (h.hand_lt (s.cache.index id))
      (tagOf_ne_zero id) row
    rw [if_pos hon, if_pos hon', hS, Option.map_some]
    refine ⟨_, rfl, ?_⟩
    have hset := insert_toSet (h.tagged _) (h.hand_lt (s.cache.index id)) hS
    refine (congrArg ((toCache s.cache).setSet (s.cache.index id)) hset).trans ?_
    exact setSet_toSet s.cache _ _ S' rfl rfl rfl
  · have hon' : ¬ (toCache s.cache).on = true := hon
    rw [if_neg hon, if_neg hon']
    exact ⟨s.cache, rfl, rfl⟩

/-- **The arena refines the fetcher's cache.** In every run of the arena its probes and insertions
do to the cache that it stands for what the fetcher's do. -/
theorem cache_refines {bytes : BitVec 64} {mapped : Bool}
    (hs : (cacheSystem (Engram.Row B) bytes mapped).Reachable s) (id : RowId) :
    ((toCache s.cache).probe id.val =
      (s.cache.probe id).1.map fun row => (row, toCache (s.cache.probe id).2)) ∧
    ((s.cache.probe id).1 = none → (s.cache.probe id).2 = s.cache) ∧
    ∀ row, ∃ c, s.cache.insert id row = some c ∧
      (toCache s.cache).insert id.val row = toCache c := by
  have hok := (cacheOk_invariant bytes mapped).holds hs
  exact ⟨(toCache_probe hok id).1, (toCache_probe hok id).2, toCache_insert hok id⟩

end EngramCache

end VllmMoet
