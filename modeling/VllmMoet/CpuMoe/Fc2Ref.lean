import VllmMoet.CpuMoe.Fc2Step

/-!
# The scalar reference of FC2

`ref_fc2_block` of `cpu_moe_b12x.cpp`, which the tests compare `fc2_step4` with: exact integers of
128 bits in place of lanes and doubles.

* `refFc2Block`: the reference, `none` where an integer operation of it is undefined;
* `refFc2Block_eq`: where its integers do not overflow it computes the truncated exact sum;
* `refFc2Block_ne_of_overflow`, `refFc2Block_of_far`: the accumulators far above the scales, and
  those far below them with no product, for which it does not;
* `fc2Step4_eq_ref_iff`: so when the step and the reference agree.
-/

namespace VllmMoet

namespace CpuMoe

open Lanes Binary32

/-! ### Integers of 128 bits -/

/-- A sum or an opposite in `__int128`: where it overflows the result is undefined. -/
def int128 (z : ℤ) : Option ℤ :=
  if -170141183460469231731687303715884105728 ≤ z ∧
    z < 170141183460469231731687303715884105728 then some z else none

/-- `z << n`: the bits beyond the width are lost, and a count of 128 or more is undefined. -/
def shl128 (z n : ℤ) : Option ℤ :=
  if n < 128 then some ((z <<< n.toNat).bmod 340282366920938463463374607431768211456) else none

/-- `z >> n` for a number that is not negative. -/
def shr128 (z : ℕ) (n : ℤ) : Option ℤ := if n < 128 then some (z >>> n.toNat : ℕ) else none

/-! ### The reference -/

/-- A product with the bits below the cut cleared. -/
def refCut (p qShift : ℤ) : ℤ :=
  if 1 ≤ qShift then
    if 62 ≤ qShift then 0
    else
      let a : ℕ := (p.natAbs >>> qShift.toNat) <<< qShift.toNat
      if p < 0 then -a else a
  else p

/-- The sum of the products, in units of `2 ^ eUnit`. -/
def refProducts (p : ℕ → ℤ) (qShift n : ℤ) : Option ℤ :=
  (List.range 32).foldlM (fun total i =>
    (shl128 (refCut (p i) qShift) n).bind fun x => int128 (total + x)) 0

/-- The truncated accumulator is added, in the same units. -/
def refAddAcc (accT : BitVec 32) (eUnit total : ℤ) : Option ℤ :=
  if magnitude accT = 0 then some total
  else
    let ea := f32Exp accT
    let mant : ℕ := if -126 ≤ ea then fraction accT ||| 0x800000 else fraction accT
    let eLsb : ℤ := if -126 ≤ ea then ea - 23 else -149
    (if eUnit ≤ eLsb then shl128 mant (eLsb - eUnit) else shr128 mant (eUnit - eLsb)).bind fun av =>
      (if negative accT then int128 (-av) else some av).bind fun d => int128 (total + d)

/-- The sum truncated to fp32. -/
def refRound (total eUnit : ℤ) : Option (BitVec 32) :=
  (if total < 0 then int128 (-total) else some total).bind fun mag =>
    if mag = 0 then some 0#32
    else
      let shift : ℤ := Nat.log 2 mag.natAbs - 23
      let m24 : ℕ :=
        if 0 < shift then mag.natAbs >>> shift.toNat else mag.natAbs <<< (-shift).toNat
      let f := ldexp (pack rndEven false m24 0) (shift + eUnit)
      some (if total < 0 then neg f else f)

/-- `ref_fc2_block`. -/
def refFc2Block (acc : BitVec 32) (nib q : ℕ → UInt8) (b : ℕ) (sa sb : UInt8) :
    Option (BitVec 32) :=
  let sc := scaleExp sa sb
  let top := topRef acc nib q b sc
  if top = intMin then some acc
  else
    let eCut := top - 25
    let eUnit := min eCut (sc - 10)
    (refProducts (product nib q b) (eCut - (sc - 10)) (sc - 10 - eUnit)).bind fun total =>
      (refAddAcc (truncBelow acc eCut) eUnit total).bind fun total => refRound total eUnit

/-! ### Where nothing overflows -/

theorem int128_of_abs {z : ℤ} (h : |z| < 170141183460469231731687303715884105728) :
    int128 z = some z := by
  have := abs_lt.mp h
  rw [int128, if_pos (by omega)]

theorem shl128_of_abs {z n : ℤ} (hn : n < 128)
    (h : |z * 2 ^ n.toNat| < 170141183460469231731687303715884105728) :
    shl128 z n = some (z * 2 ^ n.toNat) := by
  have := abs_lt.mp h
  rw [shl128, if_pos hn, Int.shiftLeft_eq]
  exact congrArg some (Int.bmod_eq_of_le (by omega) (by omega))

/-- Nothing overflows in a sum of 32 small numbers. -/
theorem refProducts_eq {p f : ℕ → ℤ} {qShift n B : ℤ}
    (hf : ∀ i < 32, shl128 (refCut (p i) qShift) n = some (f i)) (hB : ∀ i < 32, |f i| ≤ B)
    (hsmall : 32 * B < 170141183460469231731687303715884105728) :
    refProducts p qShift n = some (∑ i ∈ Finset.range 32, f i) := by
  have hB0 : 0 ≤ B := (abs_nonneg _).trans (hB 0 (by omega))
  have hrun (j : ℕ) (hj : j ≤ 32) : (List.range j).foldlM (fun total i =>
      (shl128 (refCut (p i) qShift) n).bind fun x => int128 (total + x)) 0 =
        some (∑ i ∈ Finset.range j, f i) ∧ |∑ i ∈ Finset.range j, f i| ≤ j * B := by
    induction j with
    | zero => exact ⟨rfl, by simp⟩
    | succ j ih =>
      obtain ⟨hsome, hle⟩ := ih (by omega)
      have habs : |∑ i ∈ Finset.range (j + 1), f i| ≤ (j + 1 : ℕ) * B := by
        rw [Finset.sum_range_succ]
        refine (abs_add_le _ _).trans ((add_le_add hle (hB j (by omega))).trans_eq ?_)
        push_cast
        ring
      refine ⟨?_, habs⟩
      have hlt : ((j + 1 : ℕ) : ℤ) * B ≤ 32 * B :=
        mul_le_mul_of_nonneg_right (by exact_mod_cast hj) hB0
      rw [List.range_succ, List.foldlM_append, hsome]
      simp only [List.foldlM_cons, List.foldlM_nil, bind, Option.bind_some, hf j (by omega)]
      rw [← Finset.sum_range_succ, int128_of_abs (by omega)]
      rfl
  exact (hrun 32 le_rfl).1

/-- The reference cuts a product as the lanes do. -/
theorem refCut_eq {p : ℤ} (hp : p.natAbs < 2 ^ 62) (qShift : ℤ) :
    refCut p qShift = truncProduct p qShift.toNat := by
  rw [refCut]
  by_cases h : 1 ≤ qShift
  · by_cases h62 : 62 ≤ qShift
    · have hz : p.natAbs >>> qShift.toNat = 0 := by
        rw [Nat.shiftRight_eq_div_pow]
        exact Nat.div_eq_of_lt (hp.trans_le (Nat.pow_le_pow_right Nat.two_pos (by omega)))
      simp [truncProduct, hz, h, h62]
    · rw [if_pos h, if_neg h62]
      rfl
  · rw [if_neg h, Int.toNat_of_nonpos (by omega), truncProduct_of_none]

/-- The bits that the reference rounds to are the leading ones. -/
theorem refBits_eq (m : ℕ) : (if 0 < (Nat.log 2 m : ℤ) - 23 then
    m >>> ((Nat.log 2 m : ℤ) - 23).toNat else m <<< (-((Nat.log 2 m : ℤ) - 23)).toNat) =
      leading m := by
  rw [leading]
  split_ifs with h h' h'
  · omega
  · rw [show ((Nat.log 2 m : ℤ) - 23).toNat = Nat.log 2 m - 23 by omega]
  · rw [show (-((Nat.log 2 m : ℤ) - 23)).toNat = 23 - Nat.log 2 m by omega]
  · have hlog : Nat.log 2 m = 23 := by omega
    simp [hlog]

/-- The sum is rounded toward zero. -/
theorem refRound_eq {total eUnit : ℤ} {S : ℚ} (hS : (total : ℚ) * 2 ^ eUnit = S)
    (hsmall : |total| < 170141183460469231731687303715884105728) (hrange : NormalRange S) :
    refRound total eUnit = some (if S = 0 then 0#32 else towardZero S) := by
  have hmag : (if total < 0 then int128 (-total) else some total) = some |total| := by
    split_ifs with h
    · rw [abs_of_neg h, int128_of_abs (by rwa [abs_neg])]
    · rw [abs_of_nonneg (not_lt.mp h)]
  rw [refRound, hmag, Option.bind_some]
  have hpow : (2 : ℚ) ^ eUnit ≠ 0 := zpow_ne_zero _ two_ne_zero
  rcases eq_or_ne total 0 with h0 | h0
  · have hS0 : S = 0 := by simp [← hS, h0]
    rw [if_pos (by simp [h0]), if_pos hS0]
  · have hS0 : S ≠ 0 := by
      rw [← hS]
      exact mul_ne_zero (Int.cast_ne_zero.mpr h0) hpow
    have hm : total.natAbs ≠ 0 := Int.natAbs_ne_zero.mpr h0
    have habs : |S| = total.natAbs * 2 ^ eUnit := by
      rw [← hS, abs_mul, abs_of_pos (zpow_pos (two_pos (α := ℚ)) _), Nat.cast_natAbs, Int.cast_abs]
    obtain ⟨hlow, hhigh⟩ := hrange.log hS0
    rw [habs, log_mul_zpow hm] at hlow hhigh
    obtain ⟨hM, hM'⟩ := leading_bounds hm
    have hval : S = (if decide (total < 0) then -1 else 1) * (total.natAbs * 2 ^ eUnit) := by
      rw [← hS, Nat.cast_natAbs, Int.cast_abs]
      rcases lt_or_gt_of_ne h0 with h | h
      · simp [h, abs_of_neg (Int.cast_lt_zero.mpr h : (total : ℚ) < 0)]
      · simp [h.not_gt, abs_of_pos (Int.cast_pos.mpr h : (0 : ℚ) < total)]
    rw [if_neg (abs_ne_zero.mpr h0), if_neg hS0]
    simp only [Int.natAbs_abs, refBits_eq]
    rw [ldexp_leading hm hlow hhigh, hval, ← pack_rndZero_eq hm hlow hhigh,
      pack_rndZero hm hlow hhigh]
    rcases lt_or_gt_of_ne h0 with h | h
    · rw [if_pos h, neg_ofMagnitude (by omega), decide_eq_true h]
      rfl
    · rw [if_neg h.not_gt, decide_eq_false h.not_gt]

/-- A normal accumulator is its significand, shifted into place. -/
theorem refAddAcc_of_normal {x : BitVec 32} (h : exponent x ≠ 0) (eUnit total : ℤ) :
    refAddAcc x eUnit total =
      (if eUnit ≤ scale x then shl128 (significand x : ℕ) (scale x - eUnit)
        else shr128 (significand x) (eUnit - scale x)).bind fun av =>
        (if negative x then int128 (-av) else some av).bind fun d => int128 (total + d) := by
  have hm : magnitude x ≠ 0 := by
    intro hm
    exact h (by simp [exponent, hm])
  have hexp := f32Exp_of_normal h
  have hscale : scale x = f32Exp x - 23 := by
    rw [scale, if_neg h, hexp]
    ring
  have hsig : fraction x ||| 0x800000 = significand x := by
    have hor := Nat.two_pow_add_eq_or_of_lt (i := 23) (b := fraction x) (fraction_lt x) 1
    rw [Nat.mul_one] at hor
    rw [significand, if_neg h, Nat.or_comm]
    exact hor.symm
  have hea : -126 ≤ f32Exp x := by omega
  rw [refAddAcc, if_neg hm]
  simp only [if_pos hea, hsig, ← hscale]

/-- The accumulator in units of `2 ^ eUnit`, where that loses nothing. -/
theorem refAddAcc_eq {x : BitVec 32} (hx : magnitude x = 0 ∨ exponent x ≠ 0) {eUnit total d : ℤ}
    (hd : (d : ℚ) * 2 ^ eUnit = val x)
    (hunit : exponent x ≠ 0 → scale x ≤ eUnit + 103 ∧ eUnit ≤ scale x + 127)
    (hsmall : |total + d| < 170141183460469231731687303715884105728) :
    refAddAcc x eUnit total = some (total + d) := by
  have hpow : (2 : ℚ) ^ eUnit ≠ 0 := zpow_ne_zero _ two_ne_zero
  rcases hx with h0 | h
  · have hd0 : d = 0 := by
      rw [val_of_zero h0, mul_eq_zero_iff_right hpow] at hd
      exact_mod_cast hd
    rw [refAddAcc, if_pos h0, hd0, add_zero]
  · obtain ⟨-, hlow, hhigh⟩ := eq_normal h
    obtain ⟨hunit, hunit'⟩ := hunit h
    -- either way the magnitude of the number
    have hav : (if eUnit ≤ scale x then shl128 (significand x : ℕ) (scale x - eUnit)
        else shr128 (significand x) (eUnit - scale x)) = some |d| ∧
          |d| < 170141183460469231731687303715884105728 := by
      have habs : |(d : ℚ)| * 2 ^ eUnit = significand x * 2 ^ scale x := by
        rw [← abs_of_pos (zpow_pos (two_pos (α := ℚ)) eUnit), ← abs_mul, hd, val, absVal]
        split_ifs <;> simp [abs_of_pos (zpow_pos (two_pos (α := ℚ)) (scale x))]
      split_ifs with hle
      · obtain ⟨n, hn⟩ : ∃ n : ℕ, scale x = eUnit + n := ⟨(scale x - eUnit).toNat, by omega⟩
        have hd' : |d| = significand x * 2 ^ n := by
          rw [hn, add_comm, zpow_add₀ two_ne_zero, zpow_natCast, ← mul_assoc] at habs
          exact_mod_cast mul_right_cancel₀ hpow habs
        have hto : (scale x - eUnit).toNat = n := by omega
        have hn103 : (2 : ℤ) ^ n ≤ 2 ^ 103 := pow_le_pow_right₀ (by omega) (by omega)
        have hfits : |(significand x : ℤ) * 2 ^ (scale x - eUnit).toNat| <
            170141183460469231731687303715884105728 := by
          rw [hto, abs_of_nonneg (by positivity)]
          calc (significand x : ℤ) * 2 ^ n ≤ 16777215 * 2 ^ 103 :=
              mul_le_mul (by omega) hn103 (by positivity) (by omega)
            _ < 170141183460469231731687303715884105728 := by decide
        rw [shl128_of_abs (by omega) hfits, hto, hd']
        rw [hto, ← hd', abs_abs] at hfits
        exact ⟨rfl, hd' ▸ hfits⟩
      · obtain ⟨n, hn⟩ : ∃ n : ℕ, eUnit = scale x + n := ⟨(eUnit - scale x).toNat, by omega⟩
        have hsig' : (significand x : ℤ) = |d| * 2 ^ n := by
          rw [hn, add_comm, zpow_add₀ two_ne_zero, zpow_natCast, ← mul_assoc] at habs
          have := mul_right_cancel₀ (zpow_ne_zero (scale x) two_ne_zero) habs
          exact_mod_cast this.symm
        have hto : (eUnit - scale x).toNat = n := by omega
        have hnat : significand x = d.natAbs * 2 ^ n := by
          have : ((significand x : ℕ) : ℤ) = ((d.natAbs * 2 ^ n : ℕ) : ℤ) := by
            push_cast
            exact hsig'
          exact_mod_cast this
        have hle : d.natAbs ≤ significand x := by
          rw [hnat]
          exact Nat.le_mul_of_pos_right _ (Nat.two_pow_pos n)
        rw [shr128, if_pos (by omega), hto, hnat, Nat.shiftRight_eq_div_pow,
          Nat.mul_div_cancel _ (Nat.two_pow_pos n), Int.natCast_natAbs]
        refine ⟨rfl, ?_⟩
        rw [Int.abs_eq_natAbs]
        omega
    have hpos : 0 < absVal x :=
      mul_pos (Nat.cast_pos.mpr (by omega)) (zpow_pos two_pos _)
    -- and its sign
    have hsign : (if negative x then int128 (-|d|) else some |d|) = some d := by
      rw [val] at hd
      split_ifs at hd ⊢ with hneg
      · have hd0 : d < 0 := by
          by_contra hge
          have : (0 : ℚ) ≤ d * 2 ^ eUnit :=
            mul_nonneg (by exact_mod_cast not_lt.mp hge) (zpow_pos two_pos _).le
          linarith
        rw [int128_of_abs (by rw [abs_neg, abs_abs]; exact hav.2), abs_of_neg hd0, neg_neg]
      · have hd0 : 0 ≤ d := by
          by_contra hlt
          have : (d : ℚ) * 2 ^ eUnit < 0 :=
            mul_neg_of_neg_of_pos (Int.cast_lt_zero.mpr (not_le.mp hlt)) (zpow_pos two_pos _)
          linarith
        rw [abs_of_nonneg hd0]
    rw [refAddAcc_of_normal h, hav.1, Option.bind_some, hsign, Option.bind_some, int128_of_abs hsmall]

/-- Truncation leaves zero, or a number with the same exponent. -/
theorem truncBelow_cases {a : BitVec 32} (h : exponent a ≠ 0) (h' : exponent a ≠ 255) (cut : ℤ) :
    truncBelow a cut = 0#32 ∨ exponent (truncBelow a cut) = exponent a ∧ cut ≤ f32Exp a := by
  have hm : magnitude a ≠ 0 := by
    intro hm
    exact h (by simp [exponent, hm])
  have hexp : exponent a < 256 := by
    rw [exponent_eq, magnitude_eq]
    omega
  rcases le_or_gt cut (f32Exp a - 23) with hle | hgt
  · rw [truncBelow_of_le hle]
    exact .inr ⟨rfl, by omega⟩
  · rcases le_or_gt 24 (cut - (f32Exp a - 23)) with hge | hlt
    · rw [truncBelow, if_neg hm]
      dsimp only
      rw [if_neg (by omega), if_pos hge]
      exact .inl rfl
    · have hcut : cut = f32Exp a - 23 + (cut - (f32Exp a - 23)).toNat := by omega
      obtain ⟨heq, hlow, hhigh⟩ := truncBelow_normal h hcut (by omega) (by omega)
      rw [heq, exponent_normal (by omega) hlow hhigh]
      exact .inr ⟨by omega, by omega⟩

section Block

variable {a : BitVec 32} {nib q : ℕ → UInt8} {b : ℕ} {sa sb : UInt8}

theorem scaleExp_bounds (sa sb : UInt8) : -254 ≤ scaleExp sa sb ∧ scaleExp sa sb ≤ 256 := by
  have ha := sa.toNat_lt
  have hb := sb.toNat_lt
  rw [scaleExp]
  omega

/-- The exponent of the step is that of something. -/
theorem topRef_ne_intMin (ha : ZeroOrNormal a)
    (h : magnitude a ≠ 0 ∨ ∃ k < 32, product nib q b k ≠ 0) (sa sb : UInt8) :
    topRef a nib q b (scaleExp sa sb) ≠ intMin := by
  obtain ⟨hsc, -⟩ := scaleExp_bounds sa sb
  rw [intMin]
  rcases h with hz | ⟨k, hk, h0⟩
  · have hge := f32Exp_le_topRef nib q b a (scaleExp sa sb)
    rw [f32Exp_of_normal (ha.resolve_left hz).1] at hge
    omega
  · have hfe := productFexp_le_topRef nib q b a (scaleExp sa sb) hk h0
    rcases productFexp_cases nib q b k with ⟨hz, -⟩ | ⟨-, h, -⟩
    · exact absurd hz h0
    · omega

/-- Only the accumulator reaches far above the scales. -/
theorem topRef_of_high {sc : ℤ} (h : sc + 10 < topRef a nib q b sc) :
    topRef a nib q b sc = f32Exp a := by
  rcases topRef_cases nib q b a sc with ht | ⟨k, hk, h0, ht⟩
  · exact ht
  · rcases productFexp_cases nib q b k with ⟨hz, -⟩ | ⟨-, -, -, hle⟩
    · exact absurd hz h0
    · rcases e4m3Fexp_cases (q (b * 32 + k)) with h' | h' <;> omega

/-- Far above the scales it is all that is left of the block. -/
theorem fc2Sum_of_far (a : BitVec 32) (nib q : ℕ → UInt8) (b : ℕ) {sc : ℤ} (hfar : sc + 40 < f32Exp a) :
    topRef a nib q b sc = f32Exp a ∧ (∀ k, truncated a nib q b sc k = 0) ∧
      fc2Sum a nib q b sc = val a := by
  have hge := f32Exp_le_topRef nib q b a sc
  have htop : topRef a nib q b sc = f32Exp a := topRef_of_high (by omega)
  have hzero (k : ℕ) : truncated a nib q b sc k = 0 := by
    have hle := natAbs_product_le nib q b k
    have hz : (product nib q b k).natAbs >>> (f32Exp a - 25 - (sc - 10)).toNat = 0 := by
      have hpow : 2 ^ 25 ≤ 2 ^ (f32Exp a - 25 - (sc - 10)).toNat :=
        Nat.pow_le_pow_right Nat.two_pos (by omega)
      rw [Nat.shiftRight_eq_div_pow]
      exact Nat.div_eq_of_lt (by omega)
    simp [truncated, htop, truncProduct, hz]
  refine ⟨htop, hzero, ?_⟩
  rw [fc2Sum, Finset.sum_eq_zero fun k _ => hzero k, htop, truncBelow_of_le (by omega)]
  simp

/-- The reference's sum of the products. -/
theorem refProducts_block (a : BitVec 32) (nib q : ℕ → UInt8) (b : ℕ) {sa sb : UInt8}
    (hn : scaleExp sa sb - 10 - min (topRef a nib q b (scaleExp sa sb) - 25)
    (scaleExp sa sb - 10) < 128) :
    refProducts (product nib q b)
      (topRef a nib q b (scaleExp sa sb) - 25 - (scaleExp sa sb - 10))
      (scaleExp sa sb - 10 - min (topRef a nib q b (scaleExp sa sb) - 25) (scaleExp sa sb - 10)) =
      some ((∑ k ∈ Finset.range 32, truncated a nib q b (scaleExp sa sb) k) *
        2 ^ (scaleExp sa sb - 10 -
          min (topRef a nib q b (scaleExp sa sb) - 25) (scaleExp sa sb - 10)).toNat) ∧
    |(∑ k ∈ Finset.range 32, truncated a nib q b (scaleExp sa sb) k) *
        2 ^ (scaleExp sa sb - 10 -
          min (topRef a nib q b (scaleExp sa sb) - 25) (scaleExp sa sb - 10)).toNat| ≤
      94371840 * 2 ^ 21 := by
  set sc := scaleExp sa sb
  set n := sc - 10 - min (topRef a nib q b sc - 25) (sc - 10) with hndef
  -- a product that is not zero is at most 21 bits above the cut
  have hfew (k : ℕ) (hk : k < 32) (h0 : product nib q b k ≠ 0) : n.toNat ≤ 21 := by
    have hfe := productFexp_le_topRef nib q b a sc hk h0
    rcases productFexp_cases nib q b k with ⟨hz, -⟩ | ⟨-, h, -⟩
    · exact absurd hz h0
    · omega
  have hzero (k : ℕ) (h0 : product nib q b k = 0) : truncated a nib q b sc k = 0 := by
    rw [truncated, h0, truncProduct_zero]
  have hsmall (k : ℕ) (hk : k < 32) :
      |truncated a nib q b sc k * 2 ^ n.toNat| ≤ 2949120 * 2 ^ 21 := by
    rcases eq_or_ne (product nib q b k) 0 with h0 | h0
    · rw [hzero k h0, zero_mul, abs_zero]
      decide
    · have hpow : (2 : ℤ) ^ n.toNat ≤ 2 ^ 21 := pow_le_pow_right₀ (by omega) (hfew k hk h0)
      rw [abs_mul, abs_of_pos (by positivity : (0 : ℤ) < 2 ^ n.toNat)]
      exact mul_le_mul (abs_truncated_le a nib q b sc k) hpow (by positivity) (by omega)
  have hshl (k : ℕ) (hk : k < 32) :
      shl128 (refCut (product nib q b k) (topRef a nib q b sc - 25 - (sc - 10))) n =
        some (truncated a nib q b sc k * 2 ^ n.toNat) := by
    have hle := natAbs_product_le nib q b k
    rw [refCut_eq (hle.trans_lt (by omega))]
    exact shl128_of_abs hn ((hsmall k hk).trans_lt (by decide))
  rw [Finset.sum_mul]
  refine ⟨refProducts_eq hshl hsmall (by decide), ?_⟩
  refine (Finset.abs_sum_le_sum_abs _ _).trans ((Finset.sum_le_card_nsmul _ _ (2949120 * 2 ^ 21)
    fun k hk => hsmall k (Finset.mem_range.mp hk)).trans ?_)
  rw [Finset.card_range]
  decide

/-- The truncated accumulator in the reference's units. -/
theorem exists_accUnits (ha : ZeroOrNormal a) (hT : topRef a nib q b (scaleExp sa sb) ≠ intMin)
    (hfit : magnitude a ≠ 0 → f32Exp a ≤ scaleExp sa sb + 116) :
    ∃ d : ℤ, (d : ℚ) * 2 ^ min (topRef a nib q b (scaleExp sa sb) - 25) (scaleExp sa sb - 10) =
        val (truncBelow a (topRef a nib q b (scaleExp sa sb) - 25)) ∧
      |d| ≤ 16777215 * 2 ^ 103 := by
  set sc := scaleExp sa sb
  have hge := f32Exp_le_topRef nib q b a sc
  rcases le_or_gt (topRef a nib q b sc - 25) (sc - 10) with hle | hgt
  · obtain ⟨d, hd, hlt⟩ := val_truncBelow ha (topRef a nib q b sc - 25) (by omega)
    exact ⟨d, by rw [min_eq_left hle, hd], by omega⟩
  · -- only the accumulator reaches that high, and all of it is kept
    have htop : topRef a nib q b sc = f32Exp a := topRef_of_high (by omega)
    have hm : magnitude a ≠ 0 := fun h0 => hT (htop.trans (f32Exp_of_zero h0))
    obtain ⟨h, h'⟩ := ha.resolve_left hm
    obtain ⟨-, hlow, hhigh⟩ := eq_normal h
    have hexp := f32Exp_of_normal h
    have hfit := hfit hm
    obtain ⟨j, hj⟩ : ∃ j : ℕ, scale a = sc - 10 + j := by
      rw [scale, if_neg h]
      exact ⟨((exponent a : ℤ) - 150 - (sc - 10)).toNat, by omega⟩
    have hscale : scale a = f32Exp a - 23 := by
      rw [scale, if_neg h, hexp]
      ring
    have hpow : (2 : ℤ) ^ j ≤ 2 ^ 103 := pow_le_pow_right₀ (by omega) (by omega)
    refine ⟨(if negative a then -1 else 1) * (significand a * 2 ^ j), ?_, ?_⟩
    · rw [min_eq_right hgt.le, truncBelow_of_le (by omega), val, absVal, hj,
        zpow_add₀ two_ne_zero, zpow_natCast]
      split_ifs <;> push_cast <;> ring
    · have hsign : |(if negative a then -1 else 1 : ℤ)| = 1 := by split_ifs <;> rfl
      rw [abs_mul, hsign, one_mul, abs_of_nonneg (by positivity)]
      exact mul_le_mul (by omega) hpow (by positivity) (by omega)

/-- **The reference.** Where its integers do not overflow it computes the truncated sum. -/
theorem refFc2Block_eq (ha : ZeroOrNormal a)
    (hS : NormalRange (fc2Sum a nib q b (scaleExp sa sb)))
    (hne : magnitude a ≠ 0 ∨ ∃ k < 32, product nib q b k ≠ 0)
    (hfit : magnitude a ≠ 0 → f32Exp a ≤ scaleExp sa sb + 116 ∧
      ((∀ k < 32, product nib q b k = 0) → scaleExp sa sb ≤ f32Exp a + 112)) :
    refFc2Block a nib q b sa sb = some (if fc2Sum a nib q b (scaleExp sa sb) = 0 then 0#32
      else towardZero (fc2Sum a nib q b (scaleExp sa sb))) := by
  have hT := topRef_ne_intMin ha hne sa sb
  obtain ⟨d, hd, hdle⟩ := exists_accUnits ha hT fun h => (hfit h).1
  have hge := f32Exp_le_topRef nib q b a (scaleExp sa sb)
  obtain ⟨hlow, hhigh⟩ := scaleExp_bounds sa sb
  have hn : scaleExp sa sb - 10 - min (topRef a nib q b (scaleExp sa sb) - 25)
      (scaleExp sa sb - 10) < 128 := by
    by_cases h : ∃ k < 32, product nib q b k ≠ 0
    · obtain ⟨k, hk, h0⟩ := h
      have hfe := productFexp_le_topRef nib q b a (scaleExp sa sb) hk h0
      rcases productFexp_cases nib q b k with ⟨hz, -⟩ | ⟨-, h, -⟩
      · exact absurd hz h0
      · omega
    · have hm := hne.resolve_right h
      have hfit := (hfit hm).2 fun k hk => by
        by_contra h0
        exact h ⟨k, hk, h0⟩
      omega
  obtain ⟨hprod, hprodle⟩ := refProducts_block a nib q b hn
  set sc := scaleExp sa sb
  set eUnit := min (topRef a nib q b sc - 25) (sc - 10) with heUnit
  set total := (∑ k ∈ Finset.range 32, truncated a nib q b sc k) * 2 ^ (sc - 10 - eUnit).toNat
    with htotal
  have hx : magnitude (truncBelow a (topRef a nib q b sc - 25)) = 0 ∨
      exponent (truncBelow a (topRef a nib q b sc - 25)) ≠ 0 := by
    rcases ha with h0 | ⟨h, h'⟩
    · rw [truncBelow, if_pos h0]
      exact .inl h0
    · rcases truncBelow_cases h h' (topRef a nib q b sc - 25) with h0 | ⟨hsame, -⟩
      · rw [h0]
        exact .inl rfl
      · exact .inr (hsame ▸ h)
  have hunit : exponent (truncBelow a (topRef a nib q b sc - 25)) ≠ 0 →
      scale (truncBelow a (topRef a nib q b sc - 25)) ≤ eUnit + 103 ∧
        eUnit ≤ scale (truncBelow a (topRef a nib q b sc - 25)) + 127 := by
    intro hx0
    have hm : magnitude a ≠ 0 := by
      intro h0
      rw [truncBelow, if_pos h0] at hx0
      exact hx0 (by simp [exponent, h0])
    obtain ⟨h, h'⟩ := ha.resolve_left hm
    have hexp := f32Exp_of_normal h
    have hfit := (hfit hm).1
    rcases truncBelow_cases h h' (topRef a nib q b sc - 25) with h0 | ⟨hsame, hcut⟩
    · rw [h0] at hx0
      exact absurd rfl hx0
    · rw [scale, if_neg hx0, hsame]
      omega
  have hsum : |total + d| < 170141183460469231731687303715884105728 := by
    -- one of the two is small
    have h1 := abs_le.mp hprodle
    have h2 := abs_le.mp hdle
    rw [abs_lt]
    omega
  have hS' : ((total + d : ℤ) : ℚ) * 2 ^ eUnit = fc2Sum a nib q b sc := by
    have hpow : (2 : ℚ) ^ (sc - 10) = 2 ^ (sc - 10 - eUnit).toNat * 2 ^ eUnit := by
      rw [← zpow_natCast, ← zpow_add₀ two_ne_zero]
      congr 1
      omega
    rw [Int.cast_add, add_mul, hd, fc2Sum, hpow, htotal]
    push_cast
    ring
  rw [refFc2Block]
  dsimp only
  rw [if_neg hT, hprod, Option.bind_some, refAddAcc_eq hx hd hunit hsum, Option.bind_some,
    refRound_eq hS' hsum hS]

end Block

/-! ### Where the reference overflows -/

/-- What the reference rounds to, if anything. -/
theorem eq_of_refRound {total eUnit : ℤ} {x : BitVec 32} (h : refRound total eUnit = some x)
    (h0 : total ≠ 0) : ∃ f, f = pack rndEven false (leading total.natAbs)
      ((Nat.log 2 total.natAbs : ℤ) - 23 + eUnit) ∧ x = if total < 0 then neg f else f := by
  have hm : total.natAbs ≠ 0 := Int.natAbs_ne_zero.mpr h0
  obtain ⟨mag, hmag, h⟩ := Option.bind_eq_some_iff.mp h
  obtain rfl : mag = |total| := by
    split_ifs at hmag with hneg
    · rw [int128] at hmag
      split_ifs at hmag
      rw [← Option.some.inj hmag, abs_of_neg hneg]
    · rw [← Option.some.inj hmag, abs_of_nonneg (not_lt.mp hneg)]
  rw [if_neg (abs_ne_zero.mpr h0)] at h
  simp only [Int.natAbs_abs, refBits_eq] at h
  rw [ldexp_pack_leading hm] at h
  exact ⟨_, rfl, (Option.some.inj h).symm⟩

/-- An accumulator far above the scales does not survive the reference's shift. -/
theorem refFc2Block_ne_of_overflow {a : BitVec 32} {nib q : ℕ → UInt8} {b : ℕ} {sa sb : UInt8}
    (h : exponent a ≠ 0) (h' : exponent a ≠ 255) (hover : scaleExp sa sb + 116 < f32Exp a) :
    refFc2Block a nib q b sa sb ≠ some a := by
  intro hsome
  obtain ⟨hsc, -⟩ := scaleExp_bounds sa sb
  obtain ⟨-, hlow, hhigh⟩ := eq_normal h
  have hexp := f32Exp_of_normal h
  have hfield : exponent a < 256 := by
    rw [exponent_eq, magnitude_eq]
    omega
  have hrange : -126 ≤ f32Exp a ∧ f32Exp a ≤ 127 := by omega
  set sc := scaleExp sa sb
  obtain ⟨htop, hcut, -⟩ := fc2Sum_of_far a nib q b (show sc + 40 < f32Exp a by omega)
  have hunit : min (f32Exp a - 25) (sc - 10) = sc - 10 := min_eq_right (by omega)
  have hn : sc - 10 - min (topRef a nib q b sc - 25) (sc - 10) < 128 := by
    rw [htop, hunit]
    omega
  have hprod := (refProducts_block a nib q b hn).1
  have hzero : ∑ k ∈ Finset.range 32, truncated a nib q b sc k = 0 :=
    Finset.sum_eq_zero fun k _ => hcut k
  rw [htop, hzero, zero_mul, hunit] at hprod
  have hkeep : truncBelow a (f32Exp a - 25) = a := truncBelow_of_le (by omega)
  rw [refFc2Block] at hsome
  dsimp only at hsome
  rw [htop, if_neg (by rw [intMin]; omega), hunit, hprod, Option.bind_some, hkeep,
    refAddAcc_of_normal h] at hsome
  have hscale : scale a = f32Exp a - 23 := by
    rw [scale, if_neg h, hexp]
    ring
  rw [if_pos (by omega)] at hsome
  obtain ⟨total, hadd, hround⟩ := Option.bind_eq_some_iff.mp hsome
  obtain ⟨av, hav, hadd⟩ := Option.bind_eq_some_iff.mp hadd
  obtain ⟨d, hd, hadd⟩ := Option.bind_eq_some_iff.mp hadd
  obtain rfl : total = d := by
    rw [zero_add, int128] at hadd
    split_ifs at hadd
    exact (Option.some.inj hadd).symm
  obtain rfl : total = if negative a then -av else av := by
    split_ifs at hd ⊢
    · rw [int128] at hd
      split_ifs at hd
      exact (Option.some.inj hd).symm
    · exact (Option.some.inj hd).symm
  have hne : (if negative a then -av else av) ≠ 0 := by
    intro h0
    have ha : 0#32 = a := by
      rw [h0] at hround
      exact Option.some.inj hround
    exact h (by rw [← ha]; rfl)
  obtain ⟨f, hf, haf⟩ := eq_of_refRound hround hne
  -- the sign is right only if the shifted significand still counts as positive
  have hsign : negative f = false := by rw [hf, negative_pack]
  have hpos : 0 < av := by
    have hneg := congrArg negative haf
    by_cases hna : negative a = true
    · rw [if_pos hna] at hneg hne
      split_ifs at hneg with hlt
      · omega
      · simp [hna, hsign] at hneg
    · rw [if_neg hna] at hneg hne
      split_ifs at hneg with hlt
      · simp [negative_neg, hsign, hna] at hneg
      · omega
  have habs : (if negative a then -av else av).natAbs = av.natAbs := by
    split_ifs <;> omega
  rw [habs] at hf
  -- and then it has lost bits at the top
  obtain ⟨hav128, hmod⟩ : scale a - (sc - 10) < 128 ∧ av = ((significand a : ℤ) *
      2 ^ (scale a - (sc - 10)).toNat).bmod 340282366920938463463374607431768211456 := by
    rw [shl128, Int.shiftLeft_eq] at hav
    split_ifs at hav with hlt
    exact ⟨hlt, (Option.some.inj hav).symm⟩
  have hlt : av < 170141183460469231731687303715884105728 := by
    rw [hmod]
    exact Int.bmod_lt (by omega)
  have hk : scale a - (sc - 10) ≠ 104 := by
    intro hk
    have h104 : (104 : ℤ).toNat = 104 := rfl
    rw [hk, h104, Int.bmod_def] at hmod
    split_ifs at hmod <;> omega
  have hav0 : av.natAbs ≠ 0 := Int.natAbs_ne_zero.mpr hpos.ne'
  have hlog : Nat.log 2 av.natAbs < 127 := by
    refine Nat.log_lt_of_lt_pow hav0 ?_
    have h127 : 2 ^ 127 = 170141183460469231731687303715884105728 := by decide
    rw [h127]
    clear hmod hav128
    omega
  have hexp' := exponent_pack_leading_lt hav0
    (x := (Nat.log 2 av.natAbs : ℤ) - 23 + (sc - 10)) hrange.1 hrange.2 (by clear hmod; omega)
  rw [← hf] at hexp'
  have hneg : exponent (neg f) = exponent f := by rw [exponent, magnitude_neg, exponent]
  have hsame : exponent a = exponent f := by
    rw [haf]
    by_cases htotal : (if negative a = true then -av else av) < 0
    · rw [if_pos htotal, hneg]
    · rw [if_neg htotal]
  omega

/-- A zero and no product: the reference returns the accumulator. -/
theorem refFc2Block_of_zero {a : BitVec 32} {nib q : ℕ → UInt8} {b : ℕ} (sa sb : UInt8)
    (h0 : magnitude a = 0) (h : ∀ k < 32, product nib q b k = 0) :
    refFc2Block a nib q b sa sb = some a := by
  have htop := (fc2Sum_of_zero h a (scaleExp sa sb)).2
  rw [f32Exp_of_zero h0] at htop
  rw [refFc2Block]
  dsimp only
  rw [if_pos htop]

/-- An accumulator far below the scales, and no product: the shift of the products is undefined. -/
theorem refFc2Block_of_far {a : BitVec 32} {nib q : ℕ → UInt8} {b : ℕ} {sa sb : UInt8}
    (hm : exponent a ≠ 0) (h : ∀ k < 32, product nib q b k = 0)
    (hfar : f32Exp a + 112 < scaleExp sa sb) : refFc2Block a nib q b sa sb = none := by
  have htop := (fc2Sum_of_zero h a (scaleExp sa sb)).2
  have hexp := f32Exp_of_normal hm
  have hunit : min (f32Exp a - 25) (scaleExp sa sb - 10) = f32Exp a - 25 := min_eq_left (by omega)
  have hnone (z : ℤ) : shl128 z (scaleExp sa sb - 10 - (f32Exp a - 25)) = none :=
    if_neg (by omega)
  rw [refFc2Block]
  dsimp only
  rw [htop, if_neg (by rw [intMin]; omega), hunit, refProducts, List.range_succ_eq_map]
  simp only [List.foldlM_cons, hnone, Option.bind_none]
  rfl

/-- **The step and its reference.** For an accumulator that is zero or normal, and a result that is,
they agree if and only if a negative zero comes with a product that is not zero, and any other
accumulator lies at most 116 binary orders above the scales, and at most 112 below them where it
comes with no product. -/
theorem fc2Step4_eq_ref_iff (acc4 : Fin 4 → BitVec 32) (nib : Fin 4 → ℕ → UInt8)
    (q sbytes : ℕ → UInt8) (b : ℕ) (sb4 : Fin 4 → UInt8) (general q0 : ℕ) (r : Fin 4)
    (ha : ZeroOrNormal (acc4 r))
    (hS : NormalRange (fc2Sum (acc4 r) (nib r) q b (scaleExp (sbytes b) (sb4 r)))) :
    refFc2Block (acc4 r) (nib r) q b (sbytes b) (sb4 r) =
        some ((fc2Step4 acc4 (fun i => blockBytes (nib i) b) (prepareY q sbytes) b sb4 general
          q0).acc r) ↔
      (acc4 r = 0x80000000#32 → ∃ k < 32, product (nib r) q b k ≠ 0) ∧
      (magnitude (acc4 r) ≠ 0 → f32Exp (acc4 r) ≤ scaleExp (sbytes b) (sb4 r) + 116 ∧
        ((∀ k < 32, product (nib r) q b k = 0) →
          scaleExp (sbytes b) (sb4 r) ≤ f32Exp (acc4 r) + 112)) := by
  rw [fc2Step4_acc acc4 nib q sbytes b sb4 general q0 r ha hS]
  set a := acc4 r
  rcases Classical.em (∃ k < 32, product (nib r) q b k ≠ 0) with hex | hnone
  · have hnot : ¬ ∀ k < 32, product (nib r) q b k = 0 := fun hall =>
      hex.elim fun k hk => hk.2 (hall k hk.1)
    rcases eq_or_ne (magnitude a) 0 with h0 | hm
    · refine iff_of_true ?_ ⟨fun _ => hex, fun h => absurd h0 h⟩
      exact refFc2Block_eq ha hS (.inr hex) fun h => absurd h0 h
    · obtain ⟨h, h'⟩ := ha.resolve_left hm
      rcases le_or_gt (f32Exp a) (scaleExp (sbytes b) (sb4 r) + 116) with hle | hgt
      · refine iff_of_true ?_ ⟨fun _ => hex, fun _ => ⟨hle, fun hall => absurd hall hnot⟩⟩
        exact refFc2Block_eq ha hS (.inl hm) fun _ => ⟨hle, fun hall => absurd hall hnot⟩
      · -- the lane is the accumulator, and the reference's is another number
        have hfar : scaleExp (sbytes b) (sb4 r) + 40 < f32Exp a := by omega
        have hsum := (fc2Sum_of_far a (nib r) q b hfar).2.2
        rw [hsum, if_neg (val_ne_zero h), towardZero_val h h']
        exact iff_of_false (refFc2Block_ne_of_overflow h h' hgt) fun hc =>
          absurd (hc.2 hm).1 hgt.not_ge
  · -- without a product the lane adds nothing to its accumulator
    have hall (k : ℕ) (hk : k < 32) : product (nib r) q b k = 0 := by
      by_contra h0
      exact hnone ⟨k, hk, h0⟩
    have hsum := (fc2Sum_of_zero hall a (scaleExp (sbytes b) (sb4 r))).1
    rcases eq_or_ne (magnitude a) 0 with h0 | hm
    · rw [refFc2Block_of_zero _ _ h0 hall, hsum, val_of_zero h0, if_pos rfl, Option.some_inj]
      have ha0 : a = ofMagnitude (negative a) 0 := by rw [← h0, ofMagnitude_magnitude]
      -- the lane keeps a negative zero, which the reference turns into zero
      cases hs : negative a with
      | false =>
        rw [hs] at ha0
        have hne : a ≠ 0x80000000#32 := ha0 ▸ by decide
        exact iff_of_true ha0 ⟨fun h => absurd h hne, fun h => absurd h0 h⟩
      | true =>
        rw [hs] at ha0
        have hne : a ≠ 0#32 := ha0 ▸ by decide
        exact iff_of_false hne fun hc => hnone (hc.1 ha0)
    · obtain ⟨h, h'⟩ := ha.resolve_left hm
      rcases le_or_gt (scaleExp (sbytes b) (sb4 r)) (f32Exp a + 112) with hle | hgt
      · rcases le_or_gt (f32Exp a) (scaleExp (sbytes b) (sb4 r) + 116) with hle' | hgt'
        · refine iff_of_true ?_ ⟨fun hneg => ?_, fun _ => ⟨hle', fun _ => hle⟩⟩
          · exact refFc2Block_eq ha hS (.inl hm) fun _ => ⟨hle', fun _ => hle⟩
          · exact absurd (by rw [hneg]; rfl) hm
        · rw [hsum, if_neg (val_ne_zero h), towardZero_val h h']
          exact iff_of_false (refFc2Block_ne_of_overflow h h' hgt') fun hc =>
            absurd (hc.2 hm).1 hgt'.not_ge
      · rw [refFc2Block_of_far h hall hgt]
        exact iff_of_false (by simp) fun hc => absurd ((hc.2 hm).2 hall) hgt.not_ge

/-- Activations of 1 in the first block, and 0 in the others. -/
def firstOnes (k : ℕ) : UInt8 := if k < 32 then 0x38 else 0

/-- With weights of 1, the first block is worth 32. -/
theorem fc2Sum_firstOnes : fc2Sum 0#32 (fun _ => 34) firstOnes 0 0 = 32 := by
  have hnib (k : ℕ) : nibCode (fun _ => 34) k = 2 := by
    rcases Nat.mod_two_eq_zero_or_one k with h | h <;> simp [nibCode, h]
  have hq {k : ℕ} (hk : k < 32) : firstOnes (0 * 32 + k) = 0x38 := if_pos (by omega)
  have hp {k : ℕ} (hk : k < 32) : product (fun _ => 34) firstOnes 0 k = 1024 := by
    rw [product, hq hk, hnib]
    decide
  have hfe {k : ℕ} (hk : k < 32) : productFexp (fun _ => 34) firstOnes 0 k + 0 = 0 := by
    rw [productFexp, hq hk, hnib]
    decide
  have htop : topRef 0#32 (fun _ => 34) firstOnes 0 0 = 0 := by
    have hge := productFexp_le_topRef (fun _ => 34) firstOnes 0 0#32 0 Nat.ofNat_pos
      (by rw [hp Nat.ofNat_pos]; decide)
    rcases topRef_cases (fun _ => 34) firstOnes 0 0#32 0 with h | ⟨k, hk, -, h⟩
    · rw [h, hfe Nat.ofNat_pos] at hge
      exact absurd hge (by decide)
    · rw [h, hfe hk]
  have hsum : ∑ k ∈ Finset.range 32, truncated 0#32 (fun _ => 34) firstOnes 0 0 k = 32 * 1024 := by
    rw [Finset.sum_congr rfl fun k hk => by
      rw [truncated, hp (Finset.mem_range.mp hk), htop]]
    decide
  have hval : val (truncBelow 0#32 (0 - 25)) = 0 := val_of_zero rfl
  rw [fc2Sum, hsum, htop, hval]
  norm_num

/-- It is in the normal range. -/
theorem normalRange_32 : NormalRange (32 : ℚ) := by
  intro _
  rw [abs_of_pos (by norm_num : (0 : ℚ) < 32), zpow_neg]
  norm_num

/-- The first block of such a row. -/
theorem fc2Step4_eq_ref_firstOnes :
    refFc2Block 0#32 (fun _ => 34) firstOnes 0 220 34 = some ((fc2Step4 (fun _ => 0#32)
      (fun _ => blockBytes (fun _ => 34) 0) (prepareY firstOnes fun _ => 220) 0 (fun _ => 34) 0
      0).acc 0) :=
  (fc2Step4_eq_ref_iff (fun _ => 0#32) (fun _ _ => 34) firstOnes (fun _ => 220) 0 (fun _ => 34) 0 0 0
    (.inl rfl) (by
      have hsc : scaleExp 220 34 = 0 := by decide
      rw [hsc, fc2Sum_firstOnes]
      exact normalRange_32)).mpr ⟨fun h => absurd h (by decide), fun h => absurd rfl h⟩

end CpuMoe

end VllmMoet
