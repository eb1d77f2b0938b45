import Mathlib.Algebra.Order.Floor.Semifield
import Mathlib.Data.Int.Log
import Mathlib.Data.Rat.Floor
import Mathlib.Tactic.Common
import Mathlib.Tactic.Positivity
import Mathlib.Tactic.Ring

/-!
# Bit patterns of binary32

The single-precision format as its bit patterns: a sign, eight bits of exponent and 23 of fraction.

* `exponent`, `significand`, `scale`, `val`: the fields, and the value of a finite number;
* `log_absVal_of_normal`, `log_absVal_of_subnormal`: the true exponent of a number;
* `pack`: the number nearest to `m * 2 ^ e` by a rounding of `m`; `pack_eq`: in the normal range it
  is made of the leading bits of `m`;
* `ldexp`: scaling by a power of two. In the normal range it moves the exponent field
  (`add_exponent`, `ldexp_eq`).
* `towardZero`: a rational number truncated to binary32; `pack_rndZero_eq`: packing toward zero does
  that.
-/

namespace VllmMoet

namespace Binary32

/-- The bits without the sign. -/
def magnitude (a : BitVec 32) : ℕ := (a &&& 0x7FFFFFFF#32).toNat

/-- The exponent field. -/
def exponent (a : BitVec 32) : ℕ := magnitude a >>> 23

/-- The fraction field. -/
def fraction (a : BitVec 32) : ℕ := magnitude a % 8388608

/-- Below the normal range, and not zero. -/
def Subnormal (a : BitVec 32) : Prop := exponent a = 0 ∧ magnitude a ≠ 0

instance (a : BitVec 32) : Decidable (Subnormal a) := inferInstanceAs (Decidable (_ ∧ _))

/-- Zero, or in the normal range. -/
def ZeroOrNormal (a : BitVec 32) : Prop := magnitude a = 0 ∨ exponent a ≠ 0 ∧ exponent a ≠ 255

instance (a : BitVec 32) : Decidable (ZeroOrNormal a) := inferInstanceAs (Decidable (_ ∨ _))

/-- The bits of the number itself, with the leading one of the normal range. -/
def significand (a : BitVec 32) : ℕ :=
  if exponent a = 0 then fraction a else 8388608 + fraction a

/-- What the last bit of the significand stands for. -/
def scale (a : BitVec 32) : ℤ := if exponent a = 0 then -149 else (exponent a : ℤ) - 150

/-- The magnitude of a finite number. -/
def absVal (a : BitVec 32) : ℚ := significand a * 2 ^ scale a

/-- The sign. -/
def negative (a : BitVec 32) : Bool := 2147483648 ≤ a.toNat

/-- The value of a finite number. -/
def val (a : BitVec 32) : ℚ := if negative a then -absVal a else absVal a

theorem magnitude_eq (a : BitVec 32) : magnitude a = a.toNat % 2147483648 := by
  rw [magnitude, BitVec.toNat_and]
  exact Nat.and_two_pow_sub_one_eq_mod a.toNat 31

theorem exponent_eq (a : BitVec 32) : exponent a = magnitude a / 8388608 :=
  Nat.shiftRight_eq_div_pow _ 23

/-- The two fields make up the bits. -/
theorem magnitude_fields (a : BitVec 32) : magnitude a = exponent a * 8388608 + fraction a := by
  rw [exponent_eq, fraction, Nat.mul_comm]
  exact (Nat.div_add_mod _ _).symm

theorem fraction_lt (a : BitVec 32) : fraction a < 8388608 := Nat.mod_lt _ (by omega)

/-- A number of the form `n * 2 ^ k` has the exponent of `n`, moved by `k`. -/
theorem log_mul_zpow {n : ℕ} (hn : n ≠ 0) (k : ℤ) :
    Int.log 2 ((n : ℚ) * 2 ^ k) = Nat.log 2 n + k := by
  have hpos : (0 : ℚ) < n := by exact_mod_cast Nat.pos_of_ne_zero hn
  have h2 : (1 : ℕ) < 2 := by omega
  have hpow (z : ℤ) : ((2 : ℕ) : ℚ) ^ (z + k) = ((2 : ℕ) : ℚ) ^ z * 2 ^ k := by
    push_cast
    exact zpow_add₀ two_ne_zero z k
  have hk : (0 : ℚ) < 2 ^ k := zpow_pos two_pos k
  have hlog : Int.log 2 (n : ℚ) = Nat.log 2 n := Int.log_natCast 2 n
  refine le_antisymm (Int.lt_add_one_iff.mp ?_) ?_
  · rw [← Int.lt_zpow_iff_log_lt h2 (mul_pos hpos hk), add_right_comm, hpow]
    refine mul_lt_mul_of_pos_right ?_ hk
    rw [Int.lt_zpow_iff_log_lt h2 hpos]
    omega
  · rw [← Int.zpow_le_iff_le_log h2 (mul_pos hpos hk), hpow]
    refine mul_le_mul_of_nonneg_right ?_ hk.le
    rw [Int.zpow_le_iff_le_log h2 hpos]
    omega

/-- The true exponent of a normal number is that of its field. -/
theorem log_absVal_of_normal {a : BitVec 32} (h : exponent a ≠ 0) :
    Int.log 2 (absVal a) = exponent a - 127 := by
  have hf := fraction_lt a
  have hlog : Nat.log 2 (8388608 + fraction a) = 23 :=
    (Nat.log_eq_iff (.inl (by omega))).mpr ⟨by omega, by omega⟩
  rw [absVal, significand, scale, if_neg h, if_neg h, log_mul_zpow (by omega), hlog]
  push_cast
  ring

/-- That of a number below the normal range is where its first bit is. -/
theorem log_absVal_of_subnormal {a : BitVec 32} (h : Subnormal a) :
    Int.log 2 (absVal a) = Nat.log 2 (magnitude a) - 149 := by
  have hm := magnitude_fields a
  rw [h.1, Nat.zero_mul, Nat.zero_add] at hm
  rw [absVal, significand, scale, if_pos h.1, if_pos h.1, ← hm, log_mul_zpow h.2]
  ring

/-- A number is zero exactly if its bits are. -/
theorem absVal_eq_zero {a : BitVec 32} : absVal a = 0 ↔ magnitude a = 0 := by
  have hm := magnitude_fields a
  rw [absVal, mul_eq_zero_iff_right (zpow_ne_zero _ two_ne_zero), Nat.cast_eq_zero, significand]
  split_ifs with h <;> omega

/-! ### Rounding and packing -/

/-- The pattern with a sign and the bits below it. -/
def ofMagnitude (neg : Bool) (m : ℕ) : BitVec 32 :=
  BitVec.ofNat 32 ((if neg then 2147483648 else 0) + m)

/-- Dropping `s` bits. -/
def rndZero (m s : ℕ) : ℕ := m >>> s

/-- Dropping `s` bits, to the nearest, and to the even one of two. -/
def rndEven (m s : ℕ) : ℕ :=
  let r := m % (1 <<< s)
  if 1 <<< s < 2 * r ∨ (1 <<< s = 2 * r ∧ (m >>> s) % 2 = 1) then (m >>> s) + 1 else m >>> s

/-- `m * 2 ^ e` rounded to a binary32 number, infinite if it is too large. -/
def pack (rnd : ℕ → ℕ → ℕ) (neg : Bool) (m : ℕ) (e : ℤ) : BitVec 32 :=
  if m = 0 then ofMagnitude neg 0
  else
    let te := max (Nat.log 2 m + e) (-126)
    let s := te - 23 - e
    let q := if 0 ≤ s then rnd m s.toNat else m <<< (-s).toNat
    ofMagnitude neg (min ((te + 126).toNat * 8388608 + q) 0x7F800000)

/-- The opposite number. -/
def neg (a : BitVec 32) : BitVec 32 := ofMagnitude (!negative a) (magnitude a)

/-- `a * 2 ^ e`, rounded to nearest; an infinity or what is not a number stays. -/
def ldexp (a : BitVec 32) (e : ℤ) : BitVec 32 :=
  if exponent a = 255 then a else pack rndEven (negative a) (significand a) (scale a + e)

/-- The 24 leading bits. -/
def leading (m : ℕ) : ℕ :=
  if Nat.log 2 m < 23 then m <<< (23 - Nat.log 2 m) else m >>> (Nat.log 2 m - 23)

/-- The leading bits begin with a one. -/
theorem leading_bounds {m : ℕ} (hm : m ≠ 0) : 8388608 ≤ leading m ∧ leading m < 16777216 := by
  have hlow : 2 ^ Nat.log 2 m ≤ m := Nat.pow_log_le_self 2 hm
  have hhigh : m < 2 ^ (Nat.log 2 m + 1) := Nat.lt_pow_succ_log_self Nat.one_lt_two m
  unfold leading
  split_ifs with h
  · have h23 : (2 : ℕ) ^ Nat.log 2 m * 2 ^ (23 - Nat.log 2 m) = 8388608 := by
      rw [← Nat.pow_add, Nat.add_sub_cancel' h.le]
    have hpos : 0 < 2 ^ (23 - Nat.log 2 m) := Nat.two_pow_pos _
    rw [Nat.shiftLeft_eq]
    refine ⟨h23 ▸ Nat.mul_le_mul_right _ hlow, ?_⟩
    calc m * 2 ^ (23 - Nat.log 2 m)
        < 2 ^ (Nat.log 2 m + 1) * 2 ^ (23 - Nat.log 2 m) := Nat.mul_lt_mul_of_pos_right hhigh hpos
      _ = 2 * (2 ^ Nat.log 2 m * 2 ^ (23 - Nat.log 2 m)) := by rw [Nat.pow_succ]; ring
      _ = 16777216 := by rw [h23]
  · obtain ⟨k, hk⟩ : ∃ k, Nat.log 2 m = 23 + k := ⟨Nat.log 2 m - 23, by omega⟩
    rw [hk] at hlow hhigh ⊢
    have hpos : 0 < 2 ^ k := Nat.two_pow_pos _
    rw [Nat.add_sub_cancel_left, Nat.shiftRight_eq_div_pow]
    refine ⟨(Nat.le_div_iff_mul_le hpos).mpr ?_, (Nat.div_lt_iff_lt_mul hpos).mpr ?_⟩
    · calc 8388608 * 2 ^ k = 2 ^ (23 + k) := by rw [Nat.pow_add]
        _ ≤ m := hlow
    · calc m < 2 ^ (23 + k + 1) := hhigh
        _ = 16777216 * 2 ^ k := by rw [Nat.add_right_comm, Nat.pow_add]

/-- In the normal range, a number is packed from its leading bits, if that is how it is rounded. -/
theorem pack_eq {rnd : ℕ → ℕ → ℕ} {neg : Bool} {m : ℕ} {e : ℤ} (hm : m ≠ 0)
    (hrnd : 23 ≤ Nat.log 2 m → rnd m (Nat.log 2 m - 23) = m >>> (Nat.log 2 m - 23))
    (hlow : -126 ≤ Nat.log 2 m + e) (hhigh : Nat.log 2 m + e ≤ 127) :
    pack rnd neg m e =
      ofMagnitude neg ((Nat.log 2 m + e + 126).toNat * 8388608 + leading m) := by
  have hlead := leading_bounds hm
  have hs : (Nat.log 2 m : ℤ) + e - 23 - e = Nat.log 2 m - 23 := by ring
  have hq : (if 0 ≤ (Nat.log 2 m : ℤ) - 23 then rnd m ((Nat.log 2 m : ℤ) - 23).toNat
      else m <<< (-((Nat.log 2 m : ℤ) - 23)).toNat) = leading m := by
    unfold leading
    split_ifs with h h'
    · omega
    · have hto : ((Nat.log 2 m : ℤ) - 23).toNat = Nat.log 2 m - 23 := by omega
      rw [hto, hrnd (by omega)]
    · have hto : (-((Nat.log 2 m : ℤ) - 23)).toNat = 23 - Nat.log 2 m := by omega
      rw [hto]
    · omega
  rw [pack, if_neg hm]
  simp only [max_eq_left hlow, hs, hq]
  rw [min_eq_left]
  omega

/-- Toward zero that is always so. -/
theorem pack_rndZero {neg : Bool} {m : ℕ} {e : ℤ} (hm : m ≠ 0)
    (hlow : -126 ≤ Nat.log 2 m + e) (hhigh : Nat.log 2 m + e ≤ 127) :
    pack rndZero neg m e =
      ofMagnitude neg ((Nat.log 2 m + e + 126).toNat * 8388608 + leading m) :=
  pack_eq hm (fun _ => rfl) hlow hhigh

/-- To nearest it is so for a number of 24 bits. -/
theorem pack_rndEven {neg : Bool} {m : ℕ} {e : ℤ} (hm : m ≠ 0) (hlog : Nat.log 2 m ≤ 23)
    (hlow : -126 ≤ Nat.log 2 m + e) (hhigh : Nat.log 2 m + e ≤ 127) :
    pack rndEven neg m e =
      ofMagnitude neg ((Nat.log 2 m + e + 126).toNat * 8388608 + leading m) := by
  refine pack_eq hm (fun h => ?_) hlow hhigh
  rw [Nat.sub_eq_zero_of_le hlog]
  simp [rndEven, Nat.mod_one]

/-! ### Numbers in the normal range -/

section Normal

variable {s : Bool} {k M : ℕ} (hk : k < 254) (hM : 8388608 ≤ M) (hM' : M < 16777216)

theorem toNat_ofMagnitude {m : ℕ} (hm : m < 2147483648) :
    (ofMagnitude s m).toNat = (if s then 2147483648 else 0) + m := by
  rw [ofMagnitude, BitVec.toNat_ofNat]
  refine Nat.mod_eq_of_lt ?_
  split_ifs <;> omega

theorem magnitude_ofMagnitude {m : ℕ} (hm : m < 2147483648) : magnitude (ofMagnitude s m) = m := by
  rw [magnitude_eq, toNat_ofMagnitude hm]
  split_ifs <;> omega

theorem negative_ofMagnitude {m : ℕ} (hm : m < 2147483648) : negative (ofMagnitude s m) = s := by
  rw [negative, toNat_ofMagnitude hm]
  cases s <;> simp
  omega

theorem neg_ofMagnitude {m : ℕ} (hm : m < 2147483648) :
    neg (ofMagnitude s m) = ofMagnitude (!s) m := by
  rw [neg, negative_ofMagnitude hm, magnitude_ofMagnitude hm]

/-- A pattern is its sign and the bits below it. -/
theorem ofMagnitude_magnitude (a : BitVec 32) : ofMagnitude (negative a) (magnitude a) = a := by
  refine BitVec.eq_of_toNat_eq ?_
  have hlt := a.isLt
  rw [toNat_ofMagnitude (by rw [magnitude_eq]; omega), magnitude_eq, negative]
  rcases le_or_gt 2147483648 a.toNat with h | h
  · simp only [h, decide_true, if_true]
    omega
  · simp only [h.not_ge, decide_false, Bool.false_eq_true, if_false]
    omega

/-- A normal number from its fields. -/
theorem eq_normal {a : BitVec 32} (h : exponent a ≠ 0) :
    a = ofMagnitude (negative a) ((exponent a - 1) * 8388608 + significand a) ∧
      8388608 ≤ significand a ∧ significand a < 16777216 := by
  have hf := fraction_lt a
  have hm := magnitude_fields a
  rw [significand, if_neg h]
  have hsplit : (exponent a - 1) * 8388608 + (8388608 + fraction a) = magnitude a := by omega
  exact ⟨by rw [hsplit, ofMagnitude_magnitude], by omega, by omega⟩

include hk hM hM'

theorem exponent_normal : exponent (ofMagnitude s (k * 8388608 + M)) = k + 1 := by
  rw [exponent_eq, magnitude_ofMagnitude (by omega)]
  omega

theorem significand_normal : significand (ofMagnitude s (k * 8388608 + M)) = M := by
  have hfrac : fraction (ofMagnitude s (k * 8388608 + M)) = M - 8388608 := by
    rw [fraction, magnitude_ofMagnitude (by omega)]
    omega
  rw [significand, exponent_normal hk hM hM', if_neg (by omega), hfrac]
  omega

theorem scale_normal : scale (ofMagnitude s (k * 8388608 + M)) = (k : ℤ) - 149 := by
  rw [scale, exponent_normal hk hM hM', if_neg (by omega)]
  push_cast
  ring

/-- Its value. -/
theorem val_normal : val (ofMagnitude s (k * 8388608 + M)) =
    (if s then -1 else 1) * (M * 2 ^ ((k : ℤ) - 149)) := by
  rw [val, negative_ofMagnitude (by omega), absVal, significand_normal hk hM hM',
    scale_normal hk hM hM']
  cases s <;> simp

/-- Scaling moves the exponent, as long as the number stays in the range. -/
theorem ldexp_eq {e : ℤ} (hlow : 0 ≤ k + e) (hhigh : k + e < 254) :
    ldexp (ofMagnitude s (k * 8388608 + M)) e =
      ofMagnitude s ((k + e).toNat * 8388608 + M) := by
  have hlog : Nat.log 2 M = 23 := (Nat.log_eq_iff (.inl (by omega))).mpr ⟨by omega, by omega⟩
  have hlead : leading M = M := by simp [leading, hlog]
  rw [ldexp, exponent_normal hk hM hM', if_neg (by omega), negative_ofMagnitude (by omega),
    significand_normal hk hM hM', scale_normal hk hM hM',
    pack_rndEven (by omega) hlog.le (by omega) (by omega), hlead, hlog]
  congr 3
  push_cast
  omega

end Normal

/-- So does an addition to the bits. -/
theorem add_exponent {s : Bool} {k M : ℕ} {e : ℤ} (hlow : 0 ≤ k + e) :
    ofMagnitude s (k * 8388608 + M) + (BitVec.ofInt 32 e <<< 23) =
      ofMagnitude s ((k + e).toNat * 8388608 + M) := by
  have hshift : BitVec.ofInt 32 e <<< 23 = BitVec.ofInt 32 (e * 8388608) := by
    rw [BitVec.shiftLeft_eq_mul_twoPow, BitVec.ofInt_mul]
    rfl
  have hof (m : ℕ) : ofMagnitude s m =
      BitVec.ofInt 32 (((if s then 2147483648 else 0) + m : ℕ) : ℤ) := by
    rw [BitVec.ofInt_natCast, ofMagnitude]
  rw [hshift, hof, hof, ← BitVec.ofInt_add]
  congr 1
  push_cast
  rw [Int.toNat_of_nonneg hlow]
  ring

/-- Packing keeps the sign. -/
theorem negative_pack (rnd : ℕ → ℕ → ℕ) (s : Bool) (m : ℕ) (e : ℤ) :
    negative (pack rnd s m e) = s := by
  rw [pack]
  split_ifs
  · exact negative_ofMagnitude (by omega)
  · exact negative_ofMagnitude ((min_le_right _ _).trans_lt (by omega))

theorem magnitude_neg (a : BitVec 32) : magnitude (neg a) = magnitude a := by
  have hlt : magnitude a < 2147483648 := by
    rw [magnitude_eq]
    omega
  rw [neg, magnitude_ofMagnitude hlt]

theorem negative_neg (a : BitVec 32) : negative (neg a) = !negative a := by
  have hlt : magnitude a < 2147483648 := by
    rw [magnitude_eq]
    omega
  rw [neg, negative_ofMagnitude hlt]

/-- The leading bits are a number of 24 bits. -/
theorem pack_leading {m : ℕ} (hm : m ≠ 0) :
    pack rndEven false (leading m) 0 = ofMagnitude false (149 * 8388608 + leading m) := by
  obtain ⟨hlow, hhigh⟩ := leading_bounds hm
  have h23 : Nat.log 2 (leading m) = 23 :=
    (Nat.log_eq_iff (.inl (by omega))).mpr ⟨by omega, by omega⟩
  have htwice : leading (leading m) = leading m := by
    rw [leading, h23]
    simp
  have h149 : (((23 : ℕ) : ℤ) + 0 + 126).toNat = 149 := rfl
  rw [pack_rndEven (by omega) h23.le (by omega) (by omega), htwice, h23, h149]

/-- Scaling them packs them anew. -/
theorem ldexp_pack_leading {m : ℕ} (hm : m ≠ 0) (e : ℤ) :
    ldexp (pack rndEven false (leading m) 0) e = pack rndEven false (leading m) e := by
  obtain ⟨hM, hM'⟩ := leading_bounds hm
  rw [pack_leading hm, ldexp, exponent_normal (by omega) hM hM', if_neg (by omega),
    negative_ofMagnitude (by omega), significand_normal (by omega) hM hM',
    scale_normal (by omega) hM hM']
  congr 1
  push_cast
  ring

/-- Two bits below an exponent, a number of 24 bits does not reach it. -/
theorem exponent_pack_leading_lt {m : ℕ} (hm : m ≠ 0) {x e : ℤ} (he : -126 ≤ e) (he' : e ≤ 127)
    (hx : x + 25 ≤ e) : (exponent (pack rndEven false (leading m) x) : ℤ) < e + 127 := by
  obtain ⟨hM, hM'⟩ := leading_bounds hm
  have h23 : Nat.log 2 (leading m) = 23 :=
    (Nat.log_eq_iff (.inl (by omega))).mpr ⟨by omega, by omega⟩
  have htwice : leading (leading m) = leading m := by
    rw [leading, h23]
    simp
  rcases le_or_gt (-126) (23 + x) with hlow | hlow
  · rw [pack_rndEven (by omega) h23.le (by omega) (by omega), htwice, h23,
      exponent_normal (by omega) hM hM']
    omega
  · -- below the normal range rounding up reaches the smallest normal number at most
    obtain ⟨s, hs⟩ : ∃ s : ℕ, -126 - 23 - x = s := ⟨(-126 - 23 - x).toNat, by omega⟩
    have hle : rndEven (leading m) s ≤ leading m >>> s + 1 := by
      rw [rndEven]
      split_ifs <;> omega
    have hpack : pack rndEven false (leading m) x =
        ofMagnitude false (min (rndEven (leading m) s) 0x7F800000) := by
      have hte : max (((23 : ℕ) : ℤ) + x) (-126) = -126 := max_eq_right (by omega)
      have h0 : (0 : ℤ) ≤ s := by omega
      rw [pack, if_neg (by omega)]
      simp only [h23, hte, hs, if_pos h0, Int.toNat_natCast]
      simp
    rw [Nat.shiftRight_eq_div_pow] at hle
    rw [hpack, exponent_eq, magnitude_ofMagnitude ((min_le_right _ _).trans_lt (by omega))]
    rcases (show s = 1 ∨ 2 ≤ s by omega) with rfl | h2
    · omega
    · have hpow : 2 ^ 2 ≤ 2 ^ s := Nat.pow_le_pow_right Nat.two_pos h2
      have hdiv : leading m / 2 ^ s ≤ leading m / 2 ^ 2 := Nat.div_le_div_left hpow (by omega)
      omega

/-- Scaled back they make up the number, rounded toward zero. -/
theorem ldexp_leading {m : ℕ} (hm : m ≠ 0) {e : ℤ} (hlow : -126 ≤ Nat.log 2 m + e)
    (hhigh : Nat.log 2 m + e ≤ 127) :
    ldexp (pack rndEven false (leading m) 0) ((Nat.log 2 m : ℤ) - 23 + e) =
      ofMagnitude false ((Nat.log 2 m + e + 126).toNat * 8388608 + leading m) := by
  obtain ⟨hM, hM'⟩ := leading_bounds hm
  rw [pack_leading hm, ldexp_eq (by omega) hM hM' (by omega) (by omega)]
  congr 3
  omega

/-! ### Truncation -/

/-- `v` truncated toward zero, in the normal range. -/
def towardZero (v : ℚ) : BitVec 32 :=
  ofMagnitude (decide (v < 0))
    ((Int.log 2 |v| + 126).toNat * 8388608 + ⌊|v| * 2 ^ (23 - Int.log 2 |v|)⌋₊)

/-- The leading bits are what truncation leaves of the scaled number. -/
theorem leading_eq_floor (m : ℕ) :
    leading m = ⌊(m : ℚ) * 2 ^ ((23 : ℤ) - Nat.log 2 m)⌋₊ := by
  unfold leading
  split_ifs with h
  · have hexp : (23 : ℤ) - Nat.log 2 m = ((23 - Nat.log 2 m : ℕ) : ℤ) := by omega
    have hcast : (m : ℚ) * 2 ^ (23 - Nat.log 2 m) = ((m * 2 ^ (23 - Nat.log 2 m) : ℕ) : ℚ) := by
      push_cast
      rfl
    rw [hexp, zpow_natCast, hcast, Nat.floor_natCast, Nat.shiftLeft_eq]
  · have hexp : (23 : ℤ) - Nat.log 2 m = -((Nat.log 2 m - 23 : ℕ) : ℤ) := by omega
    have hcast : (m : ℚ) * (2 ^ (Nat.log 2 m - 23))⁻¹ = m / ((2 ^ (Nat.log 2 m - 23) : ℕ) : ℚ) := by
      push_cast
      exact (div_eq_mul_inv _ _).symm
    rw [hexp, zpow_neg, zpow_natCast, hcast, Nat.floor_div_eq_div, Nat.shiftRight_eq_div_pow]

/-- Packing toward zero depends on the value only. -/
theorem pack_rndZero_eq {neg : Bool} {m : ℕ} {e : ℤ} (hm : m ≠ 0)
    (hlow : -126 ≤ Nat.log 2 m + e) (hhigh : Nat.log 2 m + e ≤ 127) :
    pack rndZero neg m e = towardZero ((if neg then -1 else 1) * (m * 2 ^ e)) := by
  have hpos : (0 : ℚ) < m * 2 ^ e :=
    mul_pos (Nat.cast_pos.mpr (Nat.pos_of_ne_zero hm)) (zpow_pos two_pos e)
  have habs : |(if neg then -1 else 1) * ((m : ℚ) * 2 ^ e)| = m * 2 ^ e := by
    cases neg <;> simp [abs_of_pos hpos]
  have hneg : decide ((if neg then -1 else 1) * ((m : ℚ) * 2 ^ e) < 0) = neg := by
    cases neg
    · simpa using hpos.le
    · simpa using hpos
  have hscaled : (m : ℚ) * 2 ^ e * 2 ^ (23 - (Nat.log 2 m + e)) =
      m * 2 ^ ((23 : ℤ) - Nat.log 2 m) := by
    rw [mul_assoc, ← zpow_add₀ two_ne_zero]
    congr 2
    ring
  rw [pack_rndZero hm hlow hhigh, towardZero, habs, hneg, log_mul_zpow hm, hscaled,
    leading_eq_floor]

/-- A normal number is not zero. -/
theorem val_ne_zero {a : BitVec 32} (h : exponent a ≠ 0) : val a ≠ 0 := by
  have habs : absVal a ≠ 0 := fun h0 => h (by simp [exponent, absVal_eq_zero.mp h0])
  rw [val]
  split_ifs
  · exact neg_ne_zero.mpr habs
  · exact habs

/-- A normal number is its own truncation. -/
theorem towardZero_val {a : BitVec 32} (h : exponent a ≠ 0) (h' : exponent a ≠ 255) :
    towardZero (val a) = a := by
  obtain ⟨ha, hlow, hhigh⟩ := eq_normal h
  have hexp : exponent a < 256 := by
    rw [exponent_eq, magnitude_eq]
    omega
  have hlog : Nat.log 2 (significand a) = 23 :=
    (Nat.log_eq_iff (.inl (by omega))).mpr ⟨by omega, by omega⟩
  have hlead : leading (significand a) = significand a := by simp [leading, hlog]
  have hscale : scale a = (exponent a : ℤ) - 150 := by rw [scale, if_neg h]
  have hval : val a = (if negative a then -1 else 1) * (significand a * 2 ^ scale a) := by
    rw [val, absVal]
    split_ifs <;> simp
  have hfield : ((23 : ℕ) + scale a + 126).toNat = exponent a - 1 := by omega
  rw [hval, ← pack_rndZero_eq (by omega) (by omega) (by omega),
    pack_rndZero (by omega) (by omega) (by omega), hlog, hlead, hfield, ← ha]

/-- The truncation of a number in the normal range is normal. -/
theorem exponent_towardZero {v : ℚ} (h0 : v ≠ 0) (hlow : -126 ≤ Int.log 2 |v|)
    (hhigh : Int.log 2 |v| ≤ 127) :
    exponent (towardZero v) ≠ 0 ∧ exponent (towardZero v) ≠ 255 := by
  have hpos : 0 < |v| := abs_pos.mpr h0
  have h2 : (1 : ℕ) < 2 := by omega
  have hle : (2 : ℚ) ^ Int.log 2 |v| ≤ |v| := by exact_mod_cast Int.zpow_log_le_self h2 hpos
  have hlt : |v| < (2 : ℚ) ^ (Int.log 2 |v| + 1) := by
    exact_mod_cast Int.lt_zpow_succ_log_self h2 |v|
  have hscale : (0 : ℚ) < 2 ^ (23 - Int.log 2 |v|) := zpow_pos two_pos _
  have hM : 8388608 ≤ ⌊|v| * 2 ^ (23 - Int.log 2 |v|)⌋₊ := by
    refine Nat.le_floor ?_
    have h := mul_le_mul_of_nonneg_right hle hscale.le
    rw [← zpow_add₀ two_ne_zero, add_sub_cancel] at h
    exact (by norm_num : ((8388608 : ℕ) : ℚ) = 2 ^ (23 : ℤ)) ▸ h
  have hM' : ⌊|v| * 2 ^ (23 - Int.log 2 |v|)⌋₊ < 16777216 := by
    refine (Nat.floor_lt (mul_pos hpos hscale).le).mpr ?_
    have h := mul_lt_mul_of_pos_right hlt hscale
    have hexp : Int.log 2 |v| + 1 + (23 - Int.log 2 |v|) = 24 := by ring
    rw [← zpow_add₀ two_ne_zero, hexp] at h
    exact (by norm_num : ((16777216 : ℕ) : ℚ) = 2 ^ (24 : ℤ)) ▸ h
  rw [towardZero, exponent_normal (by omega) hM hM']
  omega

end Binary32

end VllmMoet
