import VllmMoet.Lib.FloatOrder

/-!
# The keys of a row

`det_topk_sm120.cu` selects by 32-bit keys of the logits (`keyOf`) that it reads four columns at a
time, from the row (`loadKeys4`) or from its copy in shared memory (`smemKeys4`).

* `keyOf_lt_iff`: the keys have the order of the numbers, with every NaN on top and one zero;
* `loadKeys4_eq`, `smemKeys4_eq`: both ways to read give the keys of the columns below the end.
-/

namespace VllmMoet

namespace DetTopk

open Binary32

/-- `key_of`. -/
def keyOf (x : BitVec 32) : BitVec 32 :=
  if 0x7F800000#32 < x &&& 0x7FFFFFFF#32 then 0xFFFFFFFF#32
  else
    -- -0.0 == +0.0
    let u := if x &&& 0x7FFFFFFF#32 = 0#32 then 0#32 else x
    if u &&& 0x80000000#32 ≠ 0#32 then ~~~u else u ||| 0x80000000#32

/-- A NaN ranks above every number, and no other number above a NaN. -/
def RanksAbove (a b : BitVec 32) : Prop :=
  isNan b = false ∧ (isNan a = true ∨ extVal b < extVal a)

section Order

variable {a b : BitVec 32}

theorem lt_and_iff_isNan (a : BitVec 32) :
    0x7F800000#32 < a &&& 0x7FFFFFFF#32 ↔ isNan a = true := by
  rw [isNan, magnitude, decide_eq_true_iff, BitVec.lt_def]
  rfl

/-- The sign of a number below the NaNs is its top bit. -/
theorem and_sign_ne_zero (u : BitVec 32) : u &&& 0x80000000#32 ≠ 0#32 ↔ 2147483648 ≤ u.toNat := by
  have hbit : u &&& 0x80000000#32 = if u.getLsbD 31 then 0x80000000#32 else 0#32 :=
    BitVec.and_twoPow u 31
  have htop : u.getLsbD 31 = decide (2147483648 ≤ u.toNat) := by
    have hlt := u.isLt
    rw [BitVec.getLsbD, Nat.testBit_eq_decide_div_mod_eq]
    congr 1
    rw [eq_iff_iff]
    omega
  rw [hbit, htop]
  simp

theorem toNat_or_sign {u : BitVec 32} (h : u.toNat < 2147483648) :
    (u ||| 0x80000000#32).toNat = 2147483648 + u.toNat := by
  rw [BitVec.toNat_or]
  have hor := Nat.two_pow_add_eq_or_of_lt (i := 31) h 1
  rw [Nat.mul_one, Nat.or_comm] at hor
  exact hor.symm

/-- The key of a number: its place in the order, from the middle of the range. -/
theorem toNat_keyOf (h : isNan a = false) :
    ((keyOf a).toNat : ℤ) =
      if ordKey a < 0 then 2147483647 + ordKey a else 2147483648 + ordKey a := by
  have hnot : ¬ 0x7F800000#32 < a &&& 0x7FFFFFFF#32 :=
    fun hlt => by simp [(lt_and_iff_isNan a).mp hlt] at h
  have hmag := magnitude_eq a
  have hlt := a.isLt
  have hzero : a &&& 0x7FFFFFFF#32 = 0#32 ↔ magnitude a = 0 := by
    rw [magnitude, ← BitVec.toNat_inj]
    rfl
  rw [keyOf, if_neg hnot, ordKey, negative]
  simp only [and_sign_ne_zero, hzero, decide_eq_true_eq]
  by_cases hm : magnitude a = 0
  · rw [if_pos hm, hm]
    simp
  · rw [if_neg hm]
    by_cases hs : 2147483648 ≤ a.toNat
    · rw [if_pos hs, if_pos hs, BitVec.toNat_not, if_pos (by omega)]
      omega
    · rw [if_neg hs, if_neg hs, toNat_or_sign (by omega), if_neg (by omega)]
      omega

theorem toNat_keyOf_nan (h : isNan a = true) : (keyOf a).toNat = 4294967295 := by
  rw [keyOf, if_pos ((lt_and_iff_isNan a).mpr h)]
  rfl

/-- **The keys have the order of the numbers.** -/
theorem keyOf_lt_iff : (keyOf b).toNat < (keyOf a).toNat ↔ RanksAbove a b := by
  have hrange {c : BitVec 32} (hc : isNan c = false) : ordKey c < 2147483647 := by
    rw [isNan, decide_eq_false_iff_not] at hc
    rw [ordKey]
    split_ifs <;> omega
  rw [RanksAbove]
  cases hb : isNan b
  · have hkb := toNat_keyOf hb
    have hlt := hrange hb
    rw [and_iff_right rfl]
    cases ha : isNan a
    · have hka := toNat_keyOf ha
      rw [extVal_lt_iff hb ha, or_iff_right Bool.false_ne_true]
      split_ifs at hka hkb <;> omega
    · have hka := toNat_keyOf_nan ha
      rw [hka]
      refine iff_of_true ?_ (.inl rfl)
      split_ifs at hkb <;> omega
  · rw [toNat_keyOf_nan hb]
    have := (keyOf a).isLt
    exact iff_of_false (by omega) fun h => absurd h.1 (by simp)

end Order

/-! ### Reading -/

/-- A row of logits. `vec`: 16-byte aligned with unit column stride. -/
structure Row where
  mem : ℕ → BitVec 32
  stride1 : ℕ
  vec : Bool
  unit : vec = true → stride1 = 1

/-- The key of a column. -/
def Row.key (row : Row) (c : ℕ) : BitVec 32 := keyOf (row.mem (c * row.stride1))

/-- `load_keys4`: the keys of four columns, where they are valid. -/
def loadKeys4 (row : Row) (n base v : ℕ) : Option (BitVec 32) :=
  if row.vec ∧ base + 3 < n then some (keyOf (row.mem (base + v)))
  else if base + v < n then some (keyOf (row.mem ((base + v) * row.stride1))) else none

/-- `smem_keys4`. -/
def smemKeys4 (skeys : ℕ → BitVec 32) (n base v : ℕ) : Option (BitVec 32) :=
  if base + 3 < n then some (skeys (base + v))
  else if base + v < n then some (skeys (base + v)) else none

section Reading

variable {n base v : ℕ}

theorem loadKeys4_eq (row : Row) (hv : v < 4) :
    loadKeys4 row n base v = if base + v < n then some (row.key (base + v)) else none := by
  rw [loadKeys4]
  split_ifs with h1 h2 h2
  · rw [Row.key, row.unit h1.1, Nat.mul_one]
  · omega
  · rfl
  · rfl

theorem smemKeys4_eq (skeys : ℕ → BitVec 32) (hv : v < 4) :
    smemKeys4 skeys n base v = if base + v < n then some (skeys (base + v)) else none := by
  rw [smemKeys4]
  split_ifs with h1 h2 h2
  · rfl
  · omega
  · rfl
  · rfl

end Reading

end DetTopk

end VllmMoet
