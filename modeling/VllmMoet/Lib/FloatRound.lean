import VllmMoet.Lib.Binary64
import VllmMoet.Lib.FloatOrder

/-!
# Rounding to nearest

Products of floats, and conversions between integers, doubles and singles, are rounded to the nearest
number, and of two to the even one. Arguments are finite.

* `Binary32.mul`, `Binary64.mul`, `Binary64.ofNat`, `Binary64.nearest32`;
* `absVal_pack`, `absVal_pack_le`: what rounding gives, and that it adds half a unit at most;
* `absVal_pack_lt_one_iff`: what is rounded to a single below 1;
* `val_mul_lt_iff`: an integer of 24 bits times such a single stays below the integer.
-/

namespace VllmMoet

namespace Binary32

/-- A product of finite singles. -/
def mul (a b : BitVec 32) : BitVec 32 :=
  pack rndEven (negative a ^^ negative b) (significand a * significand b) (scale a + scale b)

/-! ### What rounding gives -/

/-- Rounding adds half a unit at most. -/
theorem rndEven_mul_le (m s : ℕ) : 2 * (rndEven m s * 2 ^ s) ≤ 2 * m + 2 ^ s := by
  have hdm : m / 2 ^ s * 2 ^ s + m % 2 ^ s = m := Nat.div_add_mod' m _
  rw [rndEven]
  simp only [Nat.shiftLeft_eq, Nat.one_mul, Nat.shiftRight_eq_div_pow]
  split_ifs with h
  · have hup : 2 ^ s ≤ 2 * (m % 2 ^ s) := by omega
    rw [Nat.add_mul, Nat.one_mul]
    omega
  · omega

/-- Rounding cuts nothing off a bound that is a multiple of the unit. -/
theorem rndEven_le {m s N : ℕ} (h : m ≤ N * 2 ^ s) : rndEven m s ≤ N := by
  have hpos : 0 < 2 ^ s := Nat.two_pow_pos s
  have hdiv : m / 2 ^ s ≤ N := Nat.div_le_of_le_mul (by rwa [Nat.mul_comm])
  have hdm : m / 2 ^ s * 2 ^ s + m % 2 ^ s = m := Nat.div_add_mod' m _
  rw [rndEven]
  simp only [Nat.shiftLeft_eq, Nat.one_mul, Nat.shiftRight_eq_div_pow]
  rcases hdiv.eq_or_lt with heq | hlt
  · rw [heq] at hdm ⊢
    rw [if_neg (by omega)]
  · split_ifs <;> omega

/-- A pattern made of an exponent and a significand of up to 25 bits: a carry goes to the
exponent. -/
theorem absVal_ofMagnitude (s : Bool) {k q : ℕ} (hk : k < 253) (hq : q ≤ 16777216)
    (hlow : k = 0 ∨ 8388608 ≤ q) :
    absVal (ofMagnitude s (k * 8388608 + q)) = q * 2 ^ ((k : ℤ) - 149) := by
  have hunits : magUnits (k * 8388608 + q) = q * 2 ^ k := by
    rw [magUnits]
    rcases Nat.lt_or_ge q 8388608 with hlt | hge
    · obtain rfl : k = 0 := hlow.resolve_right (by omega)
      rw [if_pos (by omega)]
      omega
    · rcases hq.eq_or_lt with rfl | hlt
      · have hdiv : (k * 8388608 + 16777216) / 8388608 = k + 2 := by omega
        have hmod : (k * 8388608 + 16777216) % 8388608 = 0 := by omega
        have hexp : k + 2 - 1 = k + 1 := by omega
        rw [hdiv, hmod, if_neg (by omega), hexp, pow_succ]
        omega
      · have hdiv : (k * 8388608 + q) / 8388608 = k + 1 := by omega
        have hmod : 8388608 + (k * 8388608 + q) % 8388608 = q := by omega
        rw [hdiv, hmod, if_neg (by omega), Nat.add_sub_cancel]
  rw [absVal_eq, magnitude_ofMagnitude (by omega), hunits, sub_eq_add_neg, zpow_add₀ two_ne_zero,
    zpow_natCast]
  push_cast
  ring

/-- The exponent that a number is rounded at. -/
def roundExp (m : ℕ) (e : ℤ) : ℤ := max (Nat.log 2 m + e) (-126)

/-- The integer that is left of it, in units of the last place. -/
def roundQuot (m : ℕ) (e : ℤ) : ℕ :=
  if 0 ≤ roundExp m e - 23 - e then rndEven m (roundExp m e - 23 - e).toNat
  else m <<< (-(roundExp m e - 23 - e)).toNat

variable {m : ℕ} {e : ℤ}

/-- A unit of the last place, in that of the number. -/
theorem zpow_roundExp (h : 0 ≤ roundExp m e - 23 - e) :
    (2 : ℚ) ^ (roundExp m e - 23) = 2 ^ (roundExp m e - 23 - e).toNat * 2 ^ e := by
  rw [← zpow_natCast, ← zpow_add₀ two_ne_zero, Int.toNat_of_nonneg h]
  congr 1
  ring

/-- If no bits are dropped the integer is the number. -/
theorem roundQuot_eq (h : ¬ 0 ≤ roundExp m e - 23 - e) :
    (roundQuot m e : ℚ) * 2 ^ (roundExp m e - 23) = m * 2 ^ e := by
  rw [roundQuot, if_neg h, Nat.shiftLeft_eq]
  push_cast
  rw [← zpow_natCast, mul_assoc, ← zpow_add₀ two_ne_zero, Int.toNat_of_nonneg (by omega)]
  congr 2
  ring

/-- The integer has 24 bits, or just 25. -/
theorem roundQuot_le (m : ℕ) (e : ℤ) : roundQuot m e ≤ 16777216 := by
  have hlt : m < 2 ^ (Nat.log 2 m + 1) := Nat.lt_pow_succ_log_self Nat.one_lt_two m
  have hexp : (Nat.log 2 m : ℤ) + e ≤ roundExp m e := le_max_left _ _
  rw [roundQuot]
  split_ifs with hs
  · refine rndEven_le (hlt.le.trans ?_)
    calc 2 ^ (Nat.log 2 m + 1) ≤ 2 ^ (24 + (roundExp m e - 23 - e).toNat) :=
          Nat.pow_le_pow_right Nat.two_pos (by omega)
      _ = 16777216 * 2 ^ (roundExp m e - 23 - e).toNat := by rw [Nat.pow_add]
  · rw [Nat.shiftLeft_eq]
    calc m * 2 ^ (-(roundExp m e - 23 - e)).toNat
        ≤ 2 ^ (Nat.log 2 m + 1) * 2 ^ (-(roundExp m e - 23 - e)).toNat :=
          Nat.mul_le_mul_right _ hlt.le
      _ = 2 ^ (Nat.log 2 m + 1 + (-(roundExp m e - 23 - e)).toNat) := (Nat.pow_add _ _ _).symm
      _ ≤ 2 ^ 24 := Nat.pow_le_pow_right Nat.two_pos (by omega)

/-- Above the smallest exponent it has its leading bit. -/
theorem le_roundQuot (hm : m ≠ 0) (h : -126 < roundExp m e) : 8388608 ≤ roundQuot m e := by
  have hlow : 2 ^ Nat.log 2 m ≤ m := Nat.pow_log_le_self 2 hm
  have hexp : roundExp m e = Nat.log 2 m + e := max_eq_left (by rw [roundExp] at h; omega)
  rw [roundQuot]
  split_ifs with hs
  · have hdiv : 8388608 ≤ m / 2 ^ (roundExp m e - 23 - e).toNat := by
      refine (Nat.le_div_iff_mul_le (Nat.two_pow_pos _)).mpr ?_
      calc 8388608 * 2 ^ (roundExp m e - 23 - e).toNat
          = 2 ^ (23 + (roundExp m e - 23 - e).toNat) := by rw [Nat.pow_add]
        _ ≤ 2 ^ Nat.log 2 m := Nat.pow_le_pow_right Nat.two_pos (by omega)
        _ ≤ m := hlow
    rw [rndEven]
    simp only [Nat.shiftRight_eq_div_pow]
    split_ifs <;> omega
  · rw [Nat.shiftLeft_eq]
    calc 8388608 = 2 ^ 23 := rfl
      _ ≤ 2 ^ (Nat.log 2 m + (-(roundExp m e - 23 - e)).toNat) :=
          Nat.pow_le_pow_right Nat.two_pos (by omega)
      _ = 2 ^ Nat.log 2 m * 2 ^ (-(roundExp m e - 23 - e)).toNat := Nat.pow_add _ _ _
      _ ≤ m * 2 ^ (-(roundExp m e - 23 - e)).toNat := Nat.mul_le_mul_right _ hlow

/-- **A number rounded to nearest**, as an integer in units of the last place. -/
theorem absVal_pack (s : Bool) (hm : m ≠ 0) (h : roundExp m e ≤ 126) :
    absVal (pack rndEven s m e) = roundQuot m e * 2 ^ (roundExp m e - 23) := by
  have hlow : -126 ≤ roundExp m e := le_max_right _ _
  have hq := roundQuot_le m e
  have hpack : pack rndEven s m e =
      ofMagnitude s ((roundExp m e + 126).toNat * 8388608 + roundQuot m e) := by
    rw [pack, if_neg hm]
    change ofMagnitude s (min ((roundExp m e + 126).toNat * 8388608 + roundQuot m e) 0x7F800000) = _
    rw [min_eq_left (by omega)]
  have hk : (((roundExp m e + 126).toNat : ℕ) : ℤ) - 149 = roundExp m e - 23 := by omega
  rw [hpack, absVal_ofMagnitude s (by omega) hq, hk]
  rcases hlow.eq_or_lt with heq | hlt
  · exact .inl (by omega)
  · exact .inr (le_roundQuot hm hlt)

/-- Rounding adds half a unit of the last place at most. -/
theorem absVal_pack_le (s : Bool) (hm : m ≠ 0) (h : roundExp m e ≤ 126) :
    absVal (pack rndEven s m e) ≤ m * 2 ^ e + 2 ^ (roundExp m e - 24) := by
  have hhalf : (2 : ℚ) ^ (roundExp m e - 23) = 2 * 2 ^ (roundExp m e - 24) := by
    rw [← zpow_one_add₀ two_ne_zero]
    congr 1
    ring
  rw [absVal_pack s hm h]
  by_cases hs : 0 ≤ roundExp m e - 23 - e
  · have hrnd : (2 * (rndEven m (roundExp m e - 23 - e).toNat *
        2 ^ (roundExp m e - 23 - e).toNat) : ℚ) ≤ 2 * m + 2 ^ (roundExp m e - 23 - e).toNat := by
      exact_mod_cast rndEven_mul_le m _
    have hpos : (0 : ℚ) ≤ 2 ^ e := (zpow_pos two_pos e).le
    have hmul := mul_le_mul_of_nonneg_right hrnd hpos
    rw [roundQuot, if_pos hs]
    rw [zpow_roundExp hs] at hhalf ⊢
    linarith
  · rw [roundQuot_eq hs]
    linarith [zpow_pos (two_pos : (0 : ℚ) < 2) (roundExp m e - 24)]

/-! ### Below one -/

/-- The singles below 1 end with `1 - 2 ^ -24`. -/
theorem absVal_le_of_lt_one {a : BitVec 32} (h : absVal a < 1) : absVal a ≤ 1 - 2 ^ (-24 : ℤ) := by
  have hone : absVal 0x3F800000#32 = 1 := by
    rw [absVal_eq]
    have hu : magUnits (magnitude 0x3F800000#32) = 8388608 * 2 ^ 126 := by decide
    rw [hu]
    norm_num
  have hlast : absVal 0x3F7FFFFF#32 = 1 - 2 ^ (-24 : ℤ) := by
    rw [absVal_eq]
    have hu : magUnits (magnitude 0x3F7FFFFF#32) = 16777215 * 2 ^ 125 := by decide
    rw [hu]
    norm_num
  rw [← hone, absVal_lt_iff] at h
  rw [← hlast, ← not_lt, absVal_lt_iff]
  have h1 : magnitude 0x3F800000#32 = 1065353216 := by decide
  have h2 : magnitude 0x3F7FFFFF#32 = 1065353215 := by decide
  omega

/-- A number of 24 bits, or `2 ^ 24`, is a single. -/
theorem absVal_ofNat {n : ℕ} (hn0 : n ≠ 0) (hn : n ≤ 2 ^ 24) :
    absVal (pack rndEven false n 0) = n := by
  rcases hn.eq_or_lt with rfl | hlt
  · have hp : pack rndEven false (2 ^ 24) 0 = 0x4B800000#32 := by decide +kernel
    rw [hp, absVal_eq]
    have hu : magUnits (magnitude 0x4B800000#32) = 8388608 * 2 ^ 150 := by decide
    rw [hu]
    norm_num
  · have hlog : Nat.log 2 n < 24 := Nat.log_lt_of_lt_pow hn0 hlt
    have hexp : roundExp n 0 = Nat.log 2 n := by
      rw [roundExp]
      omega
    rw [absVal_pack false hn0 (by omega)]
    by_cases hs : 0 ≤ roundExp n 0 - 23 - 0
    · have h0 : (roundExp n 0 - 23 - 0).toNat = 0 := by omega
      have h23 : roundExp n 0 - 23 = 0 := by omega
      rw [roundQuot, if_pos hs, h0, h23]
      simp [rndEven, Nat.mod_one]
    · rw [roundQuot_eq hs, zpow_zero, mul_one]

/-- The exponent that a product below `2 ^ 25` is rounded at. -/
theorem roundExp_le {b : ℤ} (hb : -126 ≤ b) (hm : m ≠ 0) (h : (m : ℚ) * 2 ^ e < 2 ^ (b + 1)) :
    roundExp m e ≤ b := by
  have hpos : (0 : ℚ) < m * 2 ^ e := mul_pos (by exact_mod_cast Nat.pos_of_ne_zero hm)
    (zpow_pos two_pos e)
  have hlog := (Int.lt_zpow_iff_log_lt Nat.one_lt_two hpos (x := b + 1)).mp (by exact_mod_cast h)
  rw [log_mul_zpow hm] at hlog
  rw [roundExp]
  omega

/-- Either rounding goes to the smallest unit, or the unit is `2 ^ -23` of a power of two not above the
number. -/
theorem roundExp_cases (hm : m ≠ 0) :
    roundExp m e = -126 ∨ (2 : ℚ) ^ roundExp m e ≤ m * 2 ^ e := by
  rcases le_total ((Nat.log 2 m : ℤ) + e) (-126) with h | h
  · exact .inl (max_eq_right h)
  · have hlow : ((2 ^ Nat.log 2 m : ℕ) : ℚ) ≤ m := by exact_mod_cast Nat.pow_log_le_self 2 hm
    refine .inr ?_
    rw [roundExp, max_eq_left h, zpow_add₀ two_ne_zero, zpow_natCast]
    refine mul_le_mul_of_nonneg_right ?_ (zpow_pos two_pos e).le
    exact_mod_cast hlow

/-- A single below 1 makes an integer of 24 bits, or anything else of that size, smaller. -/
theorem absVal_mul_lt {a b : BitVec 32} (ha : 1 ≤ absVal a) (ha' : absVal a ≤ 2 ^ 24)
    (hb : absVal b < 1) : absVal (mul a b) < absVal a := by
  have hprod : ((significand a * significand b : ℕ) : ℚ) * 2 ^ (scale a + scale b) =
      absVal a * absVal b := by
    rw [absVal, absVal, zpow_add₀ two_ne_zero]
    push_cast
    ring
  have hle : absVal a * absVal b ≤ absVal a - absVal a * 2 ^ (-24 : ℤ) := by
    have := mul_le_mul_of_nonneg_left (absVal_le_of_lt_one hb) (zero_le_one.trans ha)
    linarith
  rw [mul]
  by_cases hm : significand a * significand b = 0
  · have hzero : absVal (pack rndEven (negative a ^^ negative b) 0 (scale a + scale b)) = 0 := by
      rw [pack, if_pos rfl, absVal_eq_zero, magnitude_ofMagnitude (by omega)]
    rw [hm, hzero]
    linarith
  · have hsmall : (0 : ℚ) < 2 ^ (-24 : ℤ) := by positivity
    have hexp : roundExp (significand a * significand b) (scale a + scale b) ≤ 24 := by
      refine roundExp_le (by omega) hm ?_
      rw [hprod]
      norm_num
      nlinarith
    have hround := absVal_pack_le (negative a ^^ negative b) hm (hexp.trans (by omega))
    rw [hprod] at hround
    rcases roundExp_cases (e := scale a + scale b) hm with heq | hge
    · rw [heq] at hround
      have htiny : (2 : ℚ) ^ (-126 - 24 : ℤ) < 2 ^ (-24 : ℤ) := by norm_num
      nlinarith
    · rw [hprod] at hge
      have hunit : (2 : ℚ) ^ (roundExp (significand a * significand b) (scale a + scale b) - 24) ≤
          absVal a * absVal b * 2 ^ (-24 : ℤ) := by
        rw [sub_eq_add_neg, zpow_add₀ two_ne_zero]
        exact mul_le_mul_of_nonneg_right hge hsmall.le
      have hless : absVal a * absVal b < absVal a := by nlinarith
      have := mul_lt_mul_of_pos_right hless hsmall
      linarith

/-- A number is left as it is if the bits that are dropped are zeros. -/
theorem absVal_pack_of_dvd (s : Bool) (hm : m ≠ 0) (h : roundExp m e ≤ 126)
    (hdvd : 2 ^ (roundExp m e - 23 - e).toNat ∣ m) : absVal (pack rndEven s m e) = m * 2 ^ e := by
  rw [absVal_pack s hm h]
  by_cases hs : 0 ≤ roundExp m e - 23 - e
  · obtain ⟨c, hc⟩ := hdvd
    have hrnd : rndEven m (roundExp m e - 23 - e).toNat = c := by
      generalize (roundExp m e - 23 - e).toNat = t at hc
      rw [hc, Nat.mul_comm]
      exact Binary64.rndEven_mul c t
    have hcast : (m : ℚ) = 2 ^ (roundExp m e - 23 - e).toNat * c := by exact_mod_cast hc
    rw [roundQuot, if_pos hs, hrnd, zpow_roundExp hs, ← mul_assoc, mul_comm (c : ℚ), ← hcast]
  · exact roundQuot_eq hs

/-- The only singles of magnitude 1 are 1 and -1. -/
theorem fields_of_absVal_one {b : BitVec 32} (hb : absVal b = 1) :
    significand b = 8388608 ∧ scale b = -23 := by
  have hone : absVal 0x3F800000#32 = 1 := by
    rw [absVal_eq]
    have hu : magUnits (magnitude 0x3F800000#32) = 8388608 * 2 ^ 126 := by decide
    rw [hu]
    norm_num
  have hmag : magnitude b = 1065353216 := by
    have h1 : magnitude 0x3F800000#32 = 1065353216 := by decide
    have hlt : ¬ magnitude b < magnitude 0x3F800000#32 := by
      rw [← absVal_lt_iff, hb, hone]
      exact lt_irrefl _
    have hgt : ¬ magnitude 0x3F800000#32 < magnitude b := by
      rw [← absVal_lt_iff, hb, hone]
      exact lt_irrefl _
    omega
  have hexp : exponent b = 127 := by rw [exponent_eq, hmag]
  have hfrac : fraction b = 0 := by rw [fraction, hmag]
  constructor
  · rw [significand, hexp, hfrac]
    rfl
  · rw [scale, hexp]
    rfl

/-- Multiplying by 1 is exact. -/
theorem absVal_mul_one {a b : BitVec 32} (ha : absVal a ≤ 2 ^ 24) (hb : absVal b = 1) :
    absVal (mul a b) = absVal a := by
  obtain ⟨hsig, hscale⟩ := fields_of_absVal_one hb
  have hprod : ((significand a * 8388608 : ℕ) : ℚ) * 2 ^ (scale a + -23) = absVal a := by
    rw [absVal, zpow_add₀ two_ne_zero]
    push_cast
    norm_num
    ring
  rw [mul, hsig, hscale]
  by_cases hm : significand a = 0
  · rw [hm, Nat.zero_mul, pack, if_pos rfl, absVal, absVal, hm, Nat.cast_zero, zero_mul,
      ← absVal, absVal_eq_zero, magnitude_ofMagnitude (by omega)]
  · have hm' : significand a * 8388608 ≠ 0 := Nat.mul_ne_zero hm (by omega)
    have hexp : roundExp (significand a * 8388608) (scale a + -23) ≤ 24 := by
      refine roundExp_le (by omega) hm' ?_
      rw [hprod]
      norm_num
      linarith
    rw [absVal_pack_of_dvd _ hm' (hexp.trans (by omega)), hprod]
    -- 23 zeros are there, and not more are dropped
    have hsig' : significand a < 2 ^ 24 := by
      have := fraction_lt a
      rw [significand]
      split_ifs <;> omega
    have hlog : Nat.log 2 (significand a * 8388608) < 47 := by
      refine Nat.log_lt_of_lt_pow hm' ?_
      omega
    have hlow : -149 ≤ scale a := by
      rw [scale]
      split_ifs <;> omega
    refine (pow_dvd_pow 2 (?_ : _ ≤ 23)).trans (Dvd.intro_left _ rfl)
    rw [roundExp]
    omega

/-- 1 in units of the last place. -/
theorem one_eq_units (h : roundExp m e ≤ 23) :
    (2 : ℚ) ^ (23 - roundExp m e).toNat * 2 ^ (roundExp m e - 23) = 1 := by
  rw [← zpow_natCast, ← zpow_add₀ two_ne_zero, Int.toNat_of_nonneg (by omega)]
  norm_num

/-- A number up to 1 is rounded to one up to 1. -/
theorem absVal_pack_le_one (s : Bool) (h : (m : ℚ) * 2 ^ e ≤ 1) :
    absVal (pack rndEven s m e) ≤ 1 := by
  by_cases hm : m = 0
  · have hzero : absVal (pack rndEven s m e) = 0 := by
      rw [pack, if_pos hm, absVal_eq_zero, magnitude_ofMagnitude (by omega)]
    rw [hzero]
    exact zero_le_one
  have hexp : roundExp m e ≤ 0 := roundExp_le (by omega) hm (by norm_num; linarith)
  rw [absVal_pack s hm (by omega)]
  by_cases hs : 0 ≤ roundExp m e - 23 - e
  · have hone := one_eq_units (hexp.trans (by omega : (0 : ℤ) ≤ 23))
    rw [zpow_roundExp hs, ← mul_assoc] at hone
    have hcast : (m : ℚ) ≤ 2 ^ (23 - roundExp m e).toNat * 2 ^ (roundExp m e - 23 - e).toNat :=
      le_of_mul_le_mul_right (h.trans_eq hone.symm) (zpow_pos two_pos e)
    have hq : ((rndEven m (roundExp m e - 23 - e).toNat : ℕ) : ℚ) ≤
        2 ^ (23 - roundExp m e).toNat := by exact_mod_cast rndEven_le (by exact_mod_cast hcast)
    have hpos : (0 : ℚ) ≤ 2 ^ e := (zpow_pos two_pos e).le
    rw [roundQuot, if_pos hs, zpow_roundExp hs, ← mul_assoc, ← hone]
    gcongr
  · rw [roundQuot_eq hs]
    exact h

/-- Rounding to nearest goes up from halfway to an even integer on. -/
theorem le_rndEven {m s N : ℕ} (h : 2 * (N * 2 ^ s) ≤ 2 * m + 2 ^ s) (hN : N % 2 = 0) :
    N ≤ rndEven m s := by
  have hdm : m / 2 ^ s * 2 ^ s + m % 2 ^ s = m := Nat.div_add_mod' m _
  have hmod : m % 2 ^ s < 2 ^ s := Nat.mod_lt _ (Nat.two_pow_pos s)
  by_cases hge : N ≤ m / 2 ^ s
  · rw [rndEven]
    simp only [Nat.shiftRight_eq_div_pow]
    split_ifs <;> omega
  · obtain ⟨j, rfl⟩ : ∃ j, N = m / 2 ^ s + 1 + j := ⟨N - (m / 2 ^ s + 1), by omega⟩
    rw [Nat.add_mul, Nat.add_mul, Nat.one_mul] at h
    obtain rfl : j = 0 := by
      by_contra hj
      have := Nat.le_mul_of_pos_left (2 ^ s) (Nat.pos_of_ne_zero hj)
      omega
    rw [rndEven]
    simp only [Nat.shiftLeft_eq, Nat.one_mul, Nat.shiftRight_eq_div_pow]
    rw [Nat.zero_mul] at h
    rw [if_pos (by omega)]

/-- **What is rounded to a single below 1.** -/
theorem absVal_pack_lt_one_iff (s : Bool) (h : (m : ℚ) * 2 ^ e ≤ 1) :
    absVal (pack rndEven s m e) < 1 ↔ (m : ℚ) * 2 ^ e < 1 - 2 ^ (-25 : ℤ) := by
  by_cases hm : m = 0
  · subst hm
    refine iff_of_true ?_ (by norm_num)
    have hzero : absVal (pack rndEven s 0 e) = 0 := by
      rw [pack, if_pos rfl, absVal_eq_zero, magnitude_ofMagnitude (by omega)]
    rw [hzero]
    exact zero_lt_one
  have hexp : roundExp m e ≤ 0 := roundExp_le (by omega) hm (by norm_num; linarith)
  constructor
  · intro hlt
    by_contra hge
    rw [not_lt] at hge
    have hbig : (2 : ℚ) ^ (-1 : ℤ) ≤ m * 2 ^ e := le_trans (by norm_num) hge
    -- from half of the unit below 1 on, the number is in the last binade or at 1
    have hexp' : -1 ≤ roundExp m e := by
      have hlog := (Int.zpow_le_iff_le_log Nat.one_lt_two (lt_of_lt_of_le (by norm_num) hbig)
        (x := -1)).mp (by exact_mod_cast hbig)
      rw [log_mul_zpow hm] at hlog
      exact hlog.trans (le_max_left _ _)
    have hone : (2 : ℚ) ^ roundExp m e ≤ m * 2 ^ e :=
      (roundExp_cases hm).resolve_left (by omega)
    have hhalf : 1 - (2 : ℚ) ^ (roundExp m e - 24) ≤ m * 2 ^ e := by
      rcases hexp'.eq_or_lt with heq | hgt
      · rw [← heq]
        exact hge
      · have h0 : roundExp m e = 0 := by omega
        rw [h0] at hone ⊢
        norm_num at hone ⊢
        linarith
    have hsplit := one_eq_units (hexp.trans (by omega : (0 : ℤ) ≤ 23))
    rw [absVal_pack s hm (by omega)] at hlt
    -- the quotient is rounded up to the even one, which stands for 1
    have hquot : 2 ^ (23 - roundExp m e).toNat ≤ roundQuot m e := by
      have hhalf' : (2 : ℚ) * 2 ^ (roundExp m e - 24) = 2 ^ (roundExp m e - 23) := by
        rw [← zpow_one_add₀ two_ne_zero]
        congr 1
        ring
      by_cases hs : 0 ≤ roundExp m e - 23 - e
      · obtain ⟨t, ht⟩ : ∃ t, (23 - roundExp m e).toNat = t + 1 :=
          ⟨(22 - roundExp m e).toNat, by omega⟩
        rw [roundQuot, if_pos hs]
        refine le_rndEven ?_ (by rw [ht, pow_succ]; omega)
        have hpos : (0 : ℚ) < 2 ^ e := zpow_pos two_pos e
        rw [zpow_roundExp hs] at hsplit hhalf'
        have hcast : (2 * (2 ^ (23 - roundExp m e).toNat * 2 ^ (roundExp m e - 23 - e).toNat) : ℚ) ≤
            2 * m + 2 ^ (roundExp m e - 23 - e).toNat := by
          refine le_of_mul_le_mul_right ?_ hpos
          linarith
        exact_mod_cast hcast
      · have hpos : (0 : ℚ) < 2 ^ (roundExp m e - 23) := zpow_pos two_pos _
        rw [← roundQuot_eq hs] at hhalf
        by_contra hlt'
        have hcast : (roundQuot m e + 1 : ℚ) ≤ 2 ^ (23 - roundExp m e).toNat := by
          exact_mod_cast not_le.mp hlt'
        have := mul_le_mul_of_nonneg_right hcast hpos.le
        linarith
    have hcast : (2 : ℚ) ^ (23 - roundExp m e).toNat ≤ roundQuot m e := by exact_mod_cast hquot
    have := mul_le_mul_of_nonneg_right hcast (zpow_pos two_pos (roundExp m e - 23)).le
    linarith
  · intro hlt
    have hexp' : roundExp m e ≤ -1 := by
      refine roundExp_le (by omega) hm ?_
      have : (0 : ℚ) < 2 ^ (-25 : ℤ) := by positivity
      norm_num at hlt ⊢
      linarith
    -- rounding moves by half a unit at most
    have hunit : (2 : ℚ) ^ (roundExp m e - 24) ≤ 2 ^ (-25 : ℤ) :=
      zpow_le_zpow_right₀ one_le_two (by omega)
    have := absVal_pack_le s hm (hexp.trans (by omega))
    linarith

/-- The single nearest to an integer. -/
def ofNat (n : ℕ) : BitVec 32 :=
  pack rndEven false n 0

theorem negative_ofNat (n : ℕ) : negative (ofNat n) = false :=
  negative_pack _ _ _ _

/-- A product of two numbers that are not negative. -/
theorem val_mul_of_nonneg {a b : BitVec 32} (ha : negative a = false) (hb : negative b = false) :
    val (mul a b) = absVal (mul a b) := by
  rw [val, mul, negative_pack, ha, hb]
  rfl

end Binary32

namespace Binary64

open Binary32 hiding mul ofNat

/-- A product of finite doubles. -/
def mul (a b : Binary64) : Binary64 :=
  round (a.neg ^^ b.neg) (a.m * b.m) (a.e + b.e)

/-- The double nearest to an integer. -/
def ofNat (n : ℕ) : Binary64 :=
  round false n 0

/-- The single nearest to a double. -/
def nearest32 (d : Binary64) : BitVec 32 :=
  pack rndEven d.neg d.m d.e

/-- The sign and the magnitude of a number that is positive. -/
theorem of_value_pos {d : Binary64} (h : 0 < d.value) : d.neg = false ∧ d.value = d.m * 2 ^ d.e := by
  have hpos : (0 : ℚ) < 2 ^ d.e := zpow_pos two_pos _
  rw [value, int] at h ⊢
  cases hneg : d.neg with
  | false => simp
  | true =>
    rw [hneg] at h
    have hle : ((-(d.m : ℤ) : ℤ) : ℚ) * 2 ^ d.e ≤ 0 := by
      refine mul_nonpos_of_nonpos_of_nonneg ?_ hpos.le
      push_cast
      exact neg_nonpos.mpr (Nat.cast_nonneg _)
    exact absurd h (not_lt.mpr hle)

/-- A product with zero. -/
theorem val_mul_of_value_zero {d : Binary64} (h : d.value = 0) (a : BitVec 32) :
    val (Binary32.mul a d.nearest32) = 0 := by
  have hm : d.m = 0 := by
    rw [value, mul_eq_zero_iff_right (zpow_ne_zero _ two_ne_zero), int] at h
    split_ifs at h <;> simpa using h
  have hnear : absVal d.nearest32 = 0 := by
    rw [nearest32, pack, if_pos hm, absVal_eq_zero, magnitude_ofMagnitude (by omega)]
  have hsig : significand d.nearest32 = 0 := by
    rwa [absVal, mul_eq_zero_iff_right (zpow_ne_zero _ two_ne_zero), Nat.cast_eq_zero] at hnear
  have habs : absVal (Binary32.mul a d.nearest32) = 0 := by
    rw [Binary32.mul, hsig, Nat.mul_zero, pack, if_pos rfl, absVal_eq_zero,
      magnitude_ofMagnitude (by omega)]
  rw [val, habs]
  simp

/-- **An integer times a number up to 1 stays below the integer** exactly if the number is rounded to a
single below 1, for integers of 24 bits. -/
theorem val_mul_lt_iff {d : Binary64} (h : 0 < d.value) (h' : d.value ≤ 1) {n : ℕ} (hn0 : n ≠ 0)
    (hn : n ≤ 2 ^ 24) : val (Binary32.mul (Binary32.ofNat n) d.nearest32) < n ↔
      d.value < 1 - 2 ^ (-25 : ℤ) := by
  obtain ⟨hneg, hvalue⟩ := of_value_pos h
  have habs : absVal (Binary32.ofNat n) = n := absVal_ofNat hn0 hn
  have hsize : (n : ℚ) ≤ 2 ^ 24 := by exact_mod_cast hn
  have hone : (1 : ℚ) ≤ n := by exact_mod_cast Nat.one_le_iff_ne_zero.mpr hn0
  have hnear : negative d.nearest32 = false := (negative_pack _ _ _ _).trans hneg
  rw [val_mul_of_nonneg (negative_ofNat n) hnear, hvalue,
    ← absVal_pack_lt_one_iff d.neg (hvalue ▸ h')]
  constructor
  · intro hlt
    by_contra hge
    have heq : absVal d.nearest32 = 1 := le_antisymm (absVal_pack_le_one _ (hvalue ▸ h'))
      (not_lt.mp hge)
    rw [absVal_mul_one (habs.trans_le hsize) heq, habs] at hlt
    exact lt_irrefl _ hlt
  · intro hlt
    have := absVal_mul_lt (b := d.nearest32) (habs.symm ▸ hone) (habs.trans_le hsize) hlt
    rwa [habs] at this

end Binary64

end VllmMoet
