import VllmMoet.Lib.Binary32

/-!
# Finite doubles

Double precision as it is used for exact sums: a finite double is a sign, an integer and the power
of two that the integer counts, in no particular form. Infinities are left out, since nothing here
comes near them.

* `round`: the nearest double, of 53 bits and at least `2 ^ -1074`; `value_round`: a number that fits
  is left as it is;
* `ofInt`, `ofExponentField`, `ofBinary32`: conversions that are exact;
* `fma`: the fused multiply-add, which rounds once; `value_fma`: a sum that fits is exact;
* `toBinary32`: the conversion to single precision, toward zero (`toBinary32_eq`).
-/

namespace VllmMoet

open Binary32

/-- A finite double, `m * 2 ^ e` with a sign. -/
structure Binary64 where
  neg : Bool
  m : ℕ
  e : ℤ

namespace Binary64

/-- The integer with its sign. -/
def int (d : Binary64) : ℤ := if d.neg then -d.m else d.m

/-- The value. -/
def value (d : Binary64) : ℚ := d.int * 2 ^ d.e

/-- The double nearest to `m * 2 ^ e`, and the even one of two. -/
def round (neg : Bool) (m : ℕ) (e : ℤ) : Binary64 :=
  let s : ℤ := max (Nat.log 2 m - 52) (-1074 - e)
  if s ≤ 0 then ⟨neg, m, e⟩ else ⟨neg, rndEven m s.toNat, e + s⟩

/-- A 32-bit integer. -/
def ofInt (z : ℤ) : Binary64 := ⟨decide (z < 0), z.natAbs, 0⟩

/-- The power of two whose exponent field is `f`. -/
def ofExponentField (f : ℤ) : Binary64 := ⟨false, 1, f - 1023⟩

/-- A finite single. -/
def ofBinary32 (a : BitVec 32) : Binary64 := ⟨negative a, significand a, scale a⟩

/-- The exponent that `a * b` and `c` have in common. -/
def commonExp (a b c : Binary64) : ℤ := min (a.e + b.e) c.e

/-- `a * b + c` in units of that power. -/
def exactSum (a b c : Binary64) : ℤ :=
  (a.int * b.int) <<< (a.e + b.e - commonExp a b c).toNat + c.int <<< (c.e - commonExp a b c).toNat

/-- `a * b + c`, rounded once. A sum of zeros is negative if both are. -/
def fma (a b c : Binary64) : Binary64 :=
  round (if exactSum a b c = 0 then (a.neg ^^ b.neg) && c.neg else decide (exactSum a b c < 0))
    (exactSum a b c).natAbs (commonExp a b c)

/-- The single nearest toward zero. -/
def toBinary32 (d : Binary64) : BitVec 32 :=
  if d.m ≠ 0 ∧ 128 ≤ Nat.log 2 d.m + d.e then ofMagnitude d.neg 0x7F7FFFFF
  else pack rndZero d.neg d.m d.e

/-! ### Exactness -/

@[simp] theorem value_ofInt (z : ℤ) : (ofInt z).value = z := by
  rw [value, ofInt, int]
  rcases lt_or_ge z 0 with h | h
  · simp [h, abs_of_neg h]
  · simp [not_lt.mpr h, abs_of_nonneg h]

@[simp] theorem value_ofExponentField (f : ℤ) : (ofExponentField f).value = 2 ^ (f - 1023) := by
  simp [value, ofExponentField, int]

@[simp] theorem value_ofBinary32 (a : BitVec 32) : (ofBinary32 a).value = val a := by
  rw [value, ofBinary32, int, val, absVal]
  dsimp only
  split_ifs <;> simp

/-- Dropping bits that are zero loses nothing. -/
theorem rndEven_mul (n s : ℕ) : rndEven (n * 2 ^ s) s = n := by
  have hpos : 0 < 2 ^ s := Nat.two_pow_pos s
  have hmod : n * 2 ^ s % 1 <<< s = 0 := by
    rw [Nat.shiftLeft_eq, one_mul, Nat.mul_mod_left]
  have hne : ¬ (1 <<< s < 2 * 0 ∨ 1 <<< s = 2 * 0 ∧ (n * 2 ^ s) >>> s % 2 = 1) := by
    rw [Nat.shiftLeft_eq, one_mul]
    omega
  rw [rndEven]
  simp only [hmod, if_neg hne]
  rw [Nat.shiftRight_eq_div_pow, Nat.mul_div_cancel _ hpos]

/-- A number of 53 bits is left as it is, whatever integer it is given as. -/
theorem round_eq (neg : Bool) {m N : ℕ} {e E : ℤ} (hN : N < 2 ^ 53) (hE : -1074 ≤ E)
    (h : (m : ℚ) * 2 ^ e = N * 2 ^ E) :
    (round neg m e).neg = neg ∧ ((round neg m e).m : ℚ) * 2 ^ (round neg m e).e = m * 2 ^ e := by
  rw [round]
  split_ifs with hs
  · exact ⟨rfl, rfl⟩
  · refine ⟨rfl, ?_⟩
    rcases Nat.eq_zero_or_pos m with rfl | hm
    · have h0 := rndEven_mul 0 (max ((Nat.log 2 0 : ℤ) - 52) (-1074 - e)).toNat
      rw [Nat.zero_mul] at h0
      simp only [h0, Nat.cast_zero, zero_mul]
    · -- the bits that are dropped lie below those of `N`
      have hm' : (0 : ℚ) < m * 2 ^ e := mul_pos (Nat.cast_pos.mpr hm) (zpow_pos two_pos e)
      have hN0 : N ≠ 0 := by
        rintro rfl
        rw [Nat.cast_zero, zero_mul] at h
        exact hm'.ne' h
      have hlog : (Nat.log 2 m : ℤ) + e = Nat.log 2 N + E := by
        rw [← log_mul_zpow hm.ne', h, log_mul_zpow hN0]
      have hlogN : Nat.log 2 N < 53 := Nat.log_lt_of_lt_pow hN0 hN
      set s := max ((Nat.log 2 m : ℤ) - 52) (-1074 - e) with hsdef
      obtain ⟨t, ht⟩ : ∃ t : ℕ, E - e = s.toNat + t := ⟨(E - e - s).toNat, by omega⟩
      have hmN : m = N * 2 ^ t * 2 ^ s.toNat := by
        have hpow : (2 : ℚ) ^ E = 2 ^ (s.toNat + t) * 2 ^ e := by
          rw [← zpow_natCast, ← zpow_add₀ two_ne_zero]
          congr 1
          push_cast
          omega
        rw [hpow, ← mul_assoc] at h
        have hcast := mul_right_cancel₀ (zpow_ne_zero e two_ne_zero) h
        rw [mul_assoc, ← pow_add, add_comm t]
        exact_mod_cast hcast
      have hto : (2 : ℚ) ^ s = 2 ^ s.toNat := by
        rw [← zpow_natCast, Int.toNat_of_nonneg (by omega)]
      rw [hmN, rndEven_mul, zpow_add₀ two_ne_zero, hto]
      push_cast
      ring

/-- Zero stays zero. -/
theorem round_zero (neg : Bool) (e : ℤ) : (round neg 0 e).neg = neg ∧ (round neg 0 e).m = 0 := by
  have h0 (s : ℕ) : rndEven 0 s = 0 := by simpa using rndEven_mul 0 s
  rw [round]
  split_ifs
  · exact ⟨rfl, rfl⟩
  · exact ⟨rfl, h0 _⟩

theorem exactSum_mul (a b c : Binary64) :
    (exactSum a b c : ℚ) * 2 ^ commonExp a b c = a.value * b.value + c.value := by
  have hshift {x : ℤ} (hx : commonExp a b c ≤ x) :
      (2 : ℚ) ^ x = 2 ^ (x - commonExp a b c).toNat * 2 ^ commonExp a b c := by
    rw [← zpow_natCast, ← zpow_add₀ two_ne_zero]
    congr 1
    omega
  rw [value, value, value, mul_mul_mul_comm, ← zpow_add₀ two_ne_zero, hshift (min_le_left _ _),
    hshift (min_le_right (a.e + b.e) c.e), exactSum, Int.shiftLeft_eq, Int.shiftLeft_eq]
  push_cast
  ring

/-- A fused multiply-add is exact if the sum fits in 53 bits. -/
theorem value_fma {a b c : Binary64} {N : ℕ} {E : ℤ} (hN : N < 2 ^ 53) (hE : -1074 ≤ E)
    (h : |a.value * b.value + c.value| = N * 2 ^ E) :
    (fma a b c).value = a.value * b.value + c.value := by
  have hpos : (0 : ℚ) < 2 ^ commonExp a b c := zpow_pos two_pos _
  have habs : (((exactSum a b c).natAbs : ℕ) : ℚ) * 2 ^ commonExp a b c = N * 2 ^ E := by
    rw [Nat.cast_natAbs, Int.cast_abs, ← h, ← exactSum_mul, abs_mul, abs_of_pos hpos]
  obtain ⟨hneg, hm⟩ := round_eq (if exactSum a b c = 0 then (a.neg ^^ b.neg) && c.neg
    else decide (exactSum a b c < 0)) hN hE habs
  rw [← exactSum_mul, value, int, fma, hneg]
  rcases lt_trichotomy (exactSum a b c) 0 with hv | hv | hv
  · have hcast : (exactSum a b c : ℚ) = -((exactSum a b c).natAbs : ℚ) := by
      rw [Nat.cast_natAbs, Int.cast_abs, abs_of_neg (Int.cast_lt_zero.mpr hv), neg_neg]
    rw [hcast, neg_mul, ← hm]
    simp [hv, hv.ne]
  · have hz := (round_zero ((a.neg ^^ b.neg) && c.neg) (commonExp a b c)).2
    simp [hv, hz]
  · have hcast : (exactSum a b c : ℚ) = ((exactSum a b c).natAbs : ℚ) := by
      rw [Nat.cast_natAbs, Int.cast_abs, abs_of_pos (Int.cast_pos.mpr hv)]
    rw [hcast, ← hm]
    simp [hv.ne', hv.not_gt]

/-- A sum that is zero has the sign that both addends have. -/
theorem toBinary32_fma_of_zero {a b c : Binary64} (h : a.value * b.value + c.value = 0) :
    toBinary32 (fma a b c) = ofMagnitude ((a.neg ^^ b.neg) && c.neg) 0 := by
  have hv : exactSum a b c = 0 := by
    rw [← exactSum_mul, mul_eq_zero_iff_right (zpow_ne_zero _ two_ne_zero)] at h
    exact_mod_cast h
  obtain ⟨hneg, hm⟩ := round_zero ((a.neg ^^ b.neg) && c.neg) (commonExp a b c)
  rw [fma, hv, if_pos rfl, Int.natAbs_zero, toBinary32, hm, hneg, pack]
  simp

/-- The conversion truncates. -/
theorem toBinary32_eq {d : Binary64} (h0 : d.value ≠ 0) (hlow : -126 ≤ Int.log 2 |d.value|)
    (hhigh : Int.log 2 |d.value| ≤ 127) : toBinary32 d = towardZero d.value := by
  have hval : d.value = (if d.neg then -1 else 1) * (d.m * 2 ^ d.e) := by
    rw [value, int]
    split_ifs <;> simp
  have hm : d.m ≠ 0 := by
    intro hm
    simp [hval, hm] at h0
  have habs : |d.value| = d.m * 2 ^ d.e := by
    have hnonneg := mul_nonneg (Nat.cast_nonneg (α := ℚ) d.m) (zpow_pos two_pos d.e).le
    rw [hval, abs_mul, abs_of_nonneg hnonneg]
    split_ifs <;> simp
  rw [habs, log_mul_zpow hm] at hlow hhigh
  rw [toBinary32, if_neg (by omega), pack_rndZero_eq hm hlow hhigh, ← hval]

end Binary64

end VllmMoet
