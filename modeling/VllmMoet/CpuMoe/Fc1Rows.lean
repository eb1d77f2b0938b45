import VllmMoet.CpuMoe.Fc1Dot
import VllmMoet.Lib.Binary32
import VllmMoet.Lib.WarpReduce

/-!
# The rows of FC1

`fc1_rows` of `cpu_moe_b12x.cpp`, the vector kernel, beside its scalar reference `ref_fc1`. The
kernel truncates a block's dot to fp32 and scales it by an addition to the exponent field; the
reference truncates it with integer code and scales it with `ldexpf`.

* `blockValuesRz16`, `fc1Rows`: the kernel; `rzI64ToF32`, `refFc1`: the reference. The fp32 addition
  and multiplication are whatever the machine has (`fadd`, `fmul`), the same in both;
* `trunc24`, `blockValue`: what a block is worth;
* `blockValue_lane`: the kernel's lane and the reference's number for a block are the same, and
  worth that, if the block stays in the normal range;
* `fc1_exact`: so nothing overflows, and each row's projection is the reference's.
-/

namespace VllmMoet

namespace CpuMoe

open Lanes Binary32

/-! ### The kernel -/

/-- `bf16_rne`. -/
def bf16Rne (u : BitVec 32) : BitVec 16 :=
  if u &&& 0x7F800000#32 = 0x7F800000#32 then
    ((u >>> 16) ||| (if u &&& 0x7FFFFF#32 ≠ 0#32 then 0x40#32 else 0#32)).setWidth 16
  else ((u + (0x7FFF#32 + ((u >>> 16) &&& 1#32))) >>> 16).setWidth 16

/-- A lane of `_mm512_cvt_roundepi32_ps`, toward zero. -/
def cvtRz (d : BitVec 32) : BitVec 32 := pack rndZero (decide (d.toInt < 0)) d.toInt.natAbs 0

/-- `block_values_rz16`. -/
def blockValuesRz16 (dots : ℕ → BitVec 32) (sa sb : ℕ → UInt8) (b : ℕ) : BitVec 32 :=
  let f := cvtRz (dots b)
  let e := BitVec.ofInt 32 (((sa b).toNat : ℤ) + (sb b).toNat - 264) <<< 23
  if f ≠ 0#32 then f + e else f

/-- `INTER_R`. -/
def interR : ℕ := 576

/-- `N13`: the rows of `w1`, then those of `w3`. -/
def n13 : ℕ := 1152

/-- Where the record has the nibbles of row `r`: `w1` first, then `w3`, each followed by its
scales. -/
def nibOff (r : ℕ) : ℕ :=
  if interR ≤ r then interR * 2560 + interR * 160 + (r - interR) * 2560 else r * 2560

/-- Where it has the scales of row `r`. -/
def scaleOff (r : ℕ) : ℕ :=
  if interR ≤ r then 2 * (interR * 2560) + interR * 160 + (r - interR) * 160
  else interR * 2560 + r * 160

/-- The registers of group `g` of row `r`: the weights of its 16 blocks, and the token's halves. -/
def rowGroup (rec : ℕ → UInt8) (r : ℕ) (X : XPrep) (g : ℕ) : Group where
  w16 i := decodeBlockUnits fun k => rec (nibOff r + ((g * 16 + i) * 16 + k))
  xhi i j := X.hi (g * 512 + (i * 32 + j))
  xlo i j := X.lo (g * 512 + (i * 32 + j))

/-- The values of the 16 blocks. -/
def groupValues (rec : ℕ → UInt8) (r : ℕ) (X : XPrep) (g : ℕ) : ℕ → BitVec 32 :=
  blockValuesRz16 (rowGroup rec r X g).dots (fun i => X.sa (g * 16 + i))
    fun i => rec (scaleOff r + (g * 16 + i))

variable (fadd fmul : BitVec 32 → BitVec 32 → BitVec 32)

/-- The accumulators of row `r`: group after group, token after token, block after block. -/
def fc1Acc (rec : ℕ → UInt8) (r : ℕ) (X : ℕ → XPrep) (m : ℕ) : ℕ → BitVec 32 :=
  (List.range 10).foldl
    (fun acc g => (List.range m).foldl
      (fun acc t => Function.update acc t
        ((List.range 16).foldl (fun a i => fadd a (groupValues rec r (X t) g i)) (acc t))) acc)
    fun _ => 0#32

/-- `fc1_rows`: row after row, the projections of its tokens are stored. -/
def fc1Rows (rec : ℕ → UInt8) (r0 r1 : ℕ) (X : ℕ → XPrep) (m : ℕ) (proj : ℕ → BitVec 16)
    (vs1 : BitVec 32) : ℕ → BitVec 16 :=
  stores ((List.range' r0 (r1 - r0)).flatMap fun r => (List.range m).map fun t =>
    (t * n13 + r, bf16Rne (fmul vs1 (fc1Acc fadd rec r X m t)))) proj

/-! ### The reference -/

/-- `rz_i64_to_f32`. -/
def rzI64ToF32 (v : ℤ) : BitVec 32 :=
  let u := v.natAbs
  if u = 0 then 0#32
  else
    let shift : ℤ := Nat.log 2 u - 23
    let f := if shift ≤ 0 then pack rndEven false u 0
      else ldexp (pack rndEven false (u >>> shift.toNat) 0) shift
    if v < 0 then neg f else f

/-- The dot of a block: exact integers. -/
def refDot (aq nib : ℕ → UInt8) (b : ℕ) : ℤ :=
  ∑ k ∈ Finset.range 32, e4m3Units (aq (b * 32 + k)) * e2m1Units (nibCode nib (b * 32 + k))

/-- The number the reference adds for a block. -/
def refBlock (rec aq as : ℕ → UInt8) (r b : ℕ) : BitVec 32 :=
  ldexp (rzI64ToF32 (refDot aq (fun i => rec (nibOff r + i)) b))
    (((as b).toNat : ℤ) + (rec (scaleOff r + b)).toNat - 254 - 10)

/-- The accumulator of a row. -/
def refAcc (rec aq as : ℕ → UInt8) (r : ℕ) : BitVec 32 :=
  (List.range 160).foldl (fun acc b => fadd acc (refBlock rec aq as r b)) 0#32

/-- `ref_fc1`. -/
def refFc1 (rec aq as : ℕ → UInt8) (vs1 : BitVec 32) (proj : ℕ → BitVec 16) : ℕ → BitVec 16 :=
  stores ((List.range n13).map fun r =>
    (r, bf16Rne (fmul vs1 (refAcc fadd rec aq as r)))) proj

/-! ### A block's value -/

/-- An integer truncated toward zero to its 24 leading bits. -/
def trunc24 (z : ℤ) : ℤ :=
  let s := Nat.log 2 z.natAbs - 23
  z.sign * ((z.natAbs >>> s) <<< s : ℕ)

/-- What a block is worth: the truncated dot, scaled. -/
def blockValue (z : ℤ) (sa sb : UInt8) : ℚ :=
  trunc24 z * 2 ^ ((sa.toNat : ℤ) + sb.toNat - 264)

/-- In the normal range of fp32, if not zero. -/
def NormalRange (v : ℚ) : Prop := v ≠ 0 → 2 ^ (-126 : ℤ) ≤ |v| ∧ |v| < 2 ^ (128 : ℤ)

/-- The exponent is then that of a normal number. -/
theorem NormalRange.log {v : ℚ} (h : NormalRange v) (hv : v ≠ 0) :
    -126 ≤ Int.log 2 |v| ∧ Int.log 2 |v| ≤ 127 := by
  obtain ⟨hlow, hhigh⟩ := h hv
  have hpos : 0 < |v| := abs_pos.mpr hv
  have h2 : (1 : ℕ) < 2 := by omega
  have hge := (Int.zpow_le_iff_le_log h2 hpos (x := -126)).mp (by rwa [Nat.cast_ofNat])
  have hlt := (Int.lt_zpow_iff_log_lt h2 hpos (x := 128)).mp (by rwa [Nat.cast_ofNat])
  exact ⟨hge, Int.lt_add_one_iff.mp hlt⟩

/-- The leading bits and the exponent make up the truncated integer. -/
theorem trunc24_eq (z : ℤ) : (trunc24 z : ℚ) =
    z.sign * (leading z.natAbs * 2 ^ ((Nat.log 2 z.natAbs : ℤ) - 23)) := by
  rw [trunc24, leading, Int.cast_mul, Int.cast_natCast]
  congr 1
  split_ifs with h
  · have hs : Nat.log 2 z.natAbs - 23 = 0 := by omega
    have hexp : (Nat.log 2 z.natAbs : ℤ) - 23 = -((23 - Nat.log 2 z.natAbs : ℕ) : ℤ) := by omega
    rw [hs, hexp, Nat.shiftRight_zero, Nat.shiftLeft_zero, Nat.shiftLeft_eq, zpow_neg, zpow_natCast,
      Nat.cast_mul, Nat.cast_pow, Nat.cast_ofNat, mul_assoc,
      mul_inv_cancel₀ (pow_ne_zero _ two_ne_zero), mul_one]
  · have hexp : (Nat.log 2 z.natAbs : ℤ) - 23 = ((Nat.log 2 z.natAbs - 23 : ℕ) : ℤ) := by omega
    rw [hexp, zpow_natCast, Nat.shiftLeft_eq, Nat.cast_mul, Nat.cast_pow, Nat.cast_ofNat]

/-- The exponent of a block that is not zero, in the normal range. -/
theorem exponent_of_normalRange {z : ℤ} (hz : z ≠ 0) {sa sb : UInt8}
    (h : NormalRange (blockValue z sa sb)) :
    -126 ≤ (Nat.log 2 z.natAbs : ℤ) + ((sa.toNat : ℤ) + sb.toNat - 264) ∧
      (Nat.log 2 z.natAbs : ℤ) + ((sa.toNat : ℤ) + sb.toNat - 264) ≤ 127 := by
  have hlead := leading_bounds (Int.natAbs_ne_zero.mpr hz)
  have hlog : Nat.log 2 (leading z.natAbs) = 23 :=
    (Nat.log_eq_iff (.inl (by omega))).mpr ⟨by omega, by omega⟩
  have hsign : |(z.sign : ℚ)| = 1 := by
    rcases Int.lt_or_gt_of_ne hz with hneg | hpos
    · simp [Int.sign_eq_neg_one_of_neg hneg]
    · simp [Int.sign_eq_one_of_pos hpos]
  have habs : |blockValue z sa sb| = leading z.natAbs *
      2 ^ ((Nat.log 2 z.natAbs : ℤ) - 23 + ((sa.toNat : ℤ) + sb.toNat - 264)) := by
    rw [blockValue, trunc24_eq, abs_mul, abs_mul, hsign, one_mul,
      abs_of_nonneg (mul_nonneg (Nat.cast_nonneg _) (zpow_pos two_pos _).le),
      abs_of_pos (zpow_pos two_pos _), mul_assoc, ← zpow_add₀ two_ne_zero]
  have hpos : 0 < |blockValue z sa sb| := by
    rw [habs]
    exact mul_pos (Nat.cast_pos.mpr (by omega)) (zpow_pos two_pos _)
  have hexp : Int.log 2 |blockValue z sa sb| =
      (Nat.log 2 z.natAbs : ℤ) + ((sa.toNat : ℤ) + sb.toNat - 264) := by
    rw [habs, log_mul_zpow (by omega), hlog]
    push_cast
    ring
  rw [← hexp]
  exact h.log (abs_pos.mp hpos)

/-- The reference's truncation keeps the leading bits. -/
theorem rzI64ToF32_eq {z : ℤ} (hz : z ≠ 0) (hlog : Nat.log 2 z.natAbs ≤ 62) :
    rzI64ToF32 z = ofMagnitude (decide (z < 0))
      ((Nat.log 2 z.natAbs + 126) * 8388608 + leading z.natAbs) := by
  have hu : z.natAbs ≠ 0 := Int.natAbs_ne_zero.mpr hz
  have hlead := leading_bounds hu
  have hpos : (if (Nat.log 2 z.natAbs : ℤ) - 23 ≤ 0 then pack rndEven false z.natAbs 0
      else ldexp (pack rndEven false (z.natAbs >>> ((Nat.log 2 z.natAbs : ℤ) - 23).toNat) 0)
        ((Nat.log 2 z.natAbs : ℤ) - 23)) =
      ofMagnitude false ((Nat.log 2 z.natAbs + 126) * 8388608 + leading z.natAbs) := by
    split_ifs with h
    · rw [pack_rndEven hu (by omega) (by omega) (by omega)]
      congr 3
    · -- the leading bits first, then the shift
      have hto : ((Nat.log 2 z.natAbs : ℤ) - 23).toNat = Nat.log 2 z.natAbs - 23 := by omega
      have hbits : z.natAbs >>> (Nat.log 2 z.natAbs - 23) = leading z.natAbs := by
        rw [leading, if_neg (by omega)]
      have hscaled := ldexp_leading hu (e := 0) (by omega) (by omega)
      rw [add_zero] at hscaled
      rw [hto, hbits, hscaled]
      congr 3
  simp only [rzI64ToF32, if_neg hu, hpos]
  split_ifs with h
  · rw [neg_ofMagnitude (by omega)]
    simp [h]
  · simp [h]

/-- Zero is worth nothing. -/
theorem blockValue_zero (sa sb : UInt8) : blockValue 0 sa sb = 0 := by
  simp [blockValue, trunc24]

/-- The bits of zero. -/
theorem val_zero : val 0#32 = 0 := by
  have h : absVal 0#32 = 0 := absVal_eq_zero.mpr (by decide)
  simp [val, h]

/-- **A block's value.** In the normal range the kernel's lane is the reference's number, and it is
worth the truncated and scaled dot. -/
theorem blockValue_lane (dots : ℕ → BitVec 32) (sa sb : ℕ → UInt8) {b : ℕ}
    (h : NormalRange (blockValue (dots b).toInt (sa b) (sb b))) :
    blockValuesRz16 dots sa sb b =
        ldexp (rzI64ToF32 (dots b).toInt) (((sa b).toNat : ℤ) + (sb b).toNat - 254 - 10) ∧
      val (blockValuesRz16 dots sa sb b) = blockValue (dots b).toInt (sa b) (sb b) := by
  have hexp : ((sa b).toNat : ℤ) + (sb b).toNat - 254 - 10 =
      ((sa b).toNat : ℤ) + (sb b).toNat - 264 := by ring
  rw [hexp]
  unfold blockValuesRz16 cvtRz
  generalize hz : (dots b).toInt = z at *
  have hsize : z.natAbs < 4294967296 := by
    have := (dots b).toInt_lt
    have := (dots b).le_toInt
    omega
  rcases eq_or_ne z 0 with rfl | hne
  · have h0 : pack rndZero false 0 0 = 0#32 := rfl
    have hl (e : ℤ) : ldexp (rzI64ToF32 0) e = 0#32 := rfl
    simp [h0, hl, blockValue_zero, val_zero]
  · have hu : z.natAbs ≠ 0 := Int.natAbs_ne_zero.mpr hne
    obtain ⟨hlow, hhigh⟩ := exponent_of_normalRange hne h
    obtain ⟨hM, hM'⟩ := leading_bounds hu
    have hlog : Nat.log 2 z.natAbs < 32 := Nat.log_lt_of_lt_pow hu hsize
    have hk : (Nat.log 2 z.natAbs : ℤ) + 0 + 126 = (Nat.log 2 z.natAbs + 126 : ℕ) := by
      push_cast
      ring
    -- a dot that is not zero stays so when it is converted
    have hnz : ofMagnitude (decide (z < 0))
        ((Nat.log 2 z.natAbs + 126) * 8388608 + leading z.natAbs) ≠ 0#32 := fun h0 => by
      have := congrArg BitVec.toNat h0
      rw [toNat_ofMagnitude (by omega)] at this
      simp only [BitVec.toNat_ofNat, Nat.zero_mod] at this
      omega
    have hcvt : pack rndZero (decide (z < 0)) z.natAbs 0 = ofMagnitude (decide (z < 0))
        ((Nat.log 2 z.natAbs + 126) * 8388608 + leading z.natAbs) := by
      rw [pack_rndZero hu (by omega) (by omega), hk, Int.toNat_natCast]
    rw [hcvt, rzI64ToF32_eq hne (by omega)]
    simp only [if_pos hnz]
    rw [add_exponent (by push_cast; omega),
      ldexp_eq (by omega) hM hM' (by push_cast; omega) (by push_cast; omega)]
    refine ⟨rfl, ?_⟩
    -- the biases cancel: scaling adds to the exponent alone
    have hscale : (((Nat.log 2 z.natAbs + 126 : ℕ) +
        (((sa b).toNat : ℤ) + (sb b).toNat - 264)).toNat : ℤ) - 149 =
        (Nat.log 2 z.natAbs : ℤ) - 23 + (((sa b).toNat : ℤ) + (sb b).toNat - 264) := by
      push_cast
      omega
    have hsign : (if decide (z < 0) then -1 else 1 : ℚ) = z.sign := by
      rcases Int.lt_or_gt_of_ne hne with hneg | hpos
      · simp [Int.sign_eq_neg_one_of_neg hneg, hneg]
      · simp [Int.sign_eq_one_of_pos hpos, Int.not_lt.mpr hpos.le]
    rw [val_normal (by omega) hM hM', blockValue, trunc24_eq, hscale, hsign,
      zpow_add₀ two_ne_zero]
    ring

/-! ### The blocks of a row -/

variable {fadd fmul} {rec : ℕ → UInt8} {aq as : ℕ → UInt8} {r : ℕ}

/-- The registers of a group hold codes. -/
theorem rowGroup_codes (rec aq as : ℕ → UInt8) (r g : ℕ) :
    (rowGroup rec r (prepareX aq as) g).Codes where
  w16 _ j := abs_decodeBlockUnits_le _ j
  xhi _ _ := (prepareX_toInt aq as _).1
  xlo _ _ := (prepareX_toInt aq as _).2.1

/-- A nibble of a block is a nibble of the row. -/
theorem nibCode_block (nib : ℕ → UInt8) (b k : ℕ) :
    nibCode (fun i => nib (b * 16 + i)) k = nibCode nib (b * 32 + k) := by
  have hbyte : b * 16 + k >>> 1 = (b * 32 + k) >>> 1 := by omega
  have hpar : (b * 32 + k) % 2 = k % 2 := by omega
  simp only [nibCode, hbyte, hpar]

/-- The group's dots are those of the reference. -/
theorem rowGroup_dots (rec aq as : ℕ → UInt8) (r g : ℕ) {i : ℕ} (hi : i < 16) :
    ((rowGroup rec r (prepareX aq as) g).dots i).toInt =
      refDot aq (fun j => rec (nibOff r + j)) (g * 16 + i) := by
  rw [(rowGroup_codes rec aq as r g).dots_toInt hi, refDot]
  refine Finset.sum_congr rfl fun k hk => ?_
  have hx : g * 512 + (i * 32 + k) = (g * 16 + i) * 32 + k := by ring
  have hw : ints ((rowGroup rec r (prepareX aq as) g).w16 i) k =
      e2m1Units (nibCode (fun j => rec (nibOff r + j)) ((g * 16 + i) * 32 + k)) := by
    rw [← nibCode_block]
    exact decodeBlockUnits_toInt _ (Finset.mem_range.mp hk)
  rw [hw, mul_comm, ← (prepareX_toInt aq as _).2.2, ← hx]
  rfl

/-- A block of the row stays in the normal range. -/
def BlockInRange (rec aq as : ℕ → UInt8) (r b : ℕ) : Prop :=
  NormalRange (blockValue (refDot aq (fun j => rec (nibOff r + j)) b) (as b)
    (rec (scaleOff r + b)))

/-- The kernel adds what the reference adds, and it is what the block is worth. -/
theorem groupValues_eq {g i : ℕ} (hi : i < 16) (h : BlockInRange rec aq as r (g * 16 + i)) :
    groupValues rec r (prepareX aq as) g i = refBlock rec aq as r (g * 16 + i) ∧
      val (groupValues rec r (prepareX aq as) g i) =
        blockValue (refDot aq (fun j => rec (nibOff r + j)) (g * 16 + i)) (as (g * 16 + i))
          (rec (scaleOff r + (g * 16 + i))) := by
  have hdots := rowGroup_dots rec aq as r g hi
  have hlane := blockValue_lane (rowGroup rec r (prepareX aq as) g).dots
    (fun i => as (g * 16 + i)) (fun i => rec (scaleOff r + (g * 16 + i))) (b := i)
    (by rw [hdots]; exact h)
  rw [hdots] at hlane
  exact hlane

/-! ### The accumulators -/

/-- Each token has an accumulator of its own. -/
theorem foldl_update {β : Type*} (f : ℕ → β → β) (acc : ℕ → β) (m t : ℕ) :
    (List.range m).foldl (fun acc t => Function.update acc t (f t (acc t))) acc t =
      if t < m then f t (acc t) else acc t := by
  induction m with
  | zero => rfl
  | succ m ih =>
    rw [List.range_succ, List.foldl_append, List.foldl_cons, List.foldl_nil]
    rcases eq_or_ne t m with rfl | hne
    · rw [Function.update_self, ih, if_neg (Nat.lt_irrefl t), if_pos (Nat.lt_succ_self t)]
    · rw [Function.update_of_ne hne, ih]
      have : t < m + 1 ↔ t < m := by omega
      simp only [this]

/-- Group after group is block after block. -/
theorem foldl_groups {β : Type*} (f : β → ℕ → β) (k n : ℕ) (a : β) :
    (List.range n).foldl (fun a g => (List.range k).foldl (fun a i => f a (g * k + i)) a) a =
      (List.range (n * k)).foldl f a := by
  induction n with
  | zero => rw [Nat.zero_mul]; rfl
  | succ n ih =>
    rw [List.range_succ, List.foldl_append, ih, Nat.succ_mul, List.range_add, List.foldl_append,
      List.foldl_map]
    rfl

/-- The accumulator of a token, without the others. -/
theorem fc1Acc_apply (X : ℕ → XPrep) {m t : ℕ} (ht : t < m) : fc1Acc fadd rec r X m t =
    (List.range 10).foldl
      (fun a g => (List.range 16).foldl (fun a i => fadd a (groupValues rec r (X t) g i)) a)
      0#32 := by
  rw [fc1Acc]
  generalize (List.range 10) = gs
  induction gs using List.reverseRecOn with
  | nil => rfl
  | append_singleton gs g ih =>
    rw [List.foldl_append, List.foldl_append, ← ih, List.foldl_cons, List.foldl_nil,
      foldl_update (fun t a => (List.range 16).foldl
        (fun a i => fadd a (groupValues rec r (X t) g i)) a), if_pos ht]
    rfl

/-- Where every block of the row is in range, it is the accumulator of the reference. -/
theorem fc1Acc_eq {aq as : ℕ → ℕ → UInt8} {m t : ℕ} (ht : t < m)
    (h : ∀ b < 160, BlockInRange rec (aq t) (as t) r b) :
    fc1Acc fadd rec r (fun t => prepareX (aq t) (as t)) m t =
      refAcc fadd rec (aq t) (as t) r := by
  rw [fc1Acc_apply _ ht, refAcc, ← foldl_groups _ 16 10]
  refine List.foldl_ext _ _ _ fun a g hg => List.foldl_ext _ _ _ fun a' i hi => ?_
  have hg' := List.mem_range.mp hg
  have hi' := List.mem_range.mp hi
  rw [(groupValues_eq hi' (h _ (by omega))).1]

/-- What the kernel stores for a row and a token. -/
theorem fc1Rows_apply (X : ℕ → XPrep) (proj : ℕ → BitVec 16) (vs1 : BitVec 32) {r0 r1 m t : ℕ}
    (hr0 : r0 ≤ r) (hr1 : r < r1) (h13 : r1 ≤ n13) (ht : t < m) :
    fc1Rows fadd fmul rec r0 r1 X m proj vs1 (t * n13 + r) =
      bf16Rne (fmul vs1 (fc1Acc fadd rec r X m t)) := by
  refine stores_of_mem ?_ ?_
  · simp only [List.mem_flatMap, List.mem_range'_1, List.mem_map, List.mem_range]
    exact ⟨r, ⟨hr0, by omega⟩, t, ht, rfl⟩
  · simp only [List.mem_flatMap, List.mem_range'_1, List.mem_map, List.mem_range]
    rintro _ ⟨r', ⟨-, hr'⟩, t', -, rfl⟩ heq
    -- a place belongs to one token and one row
    dsimp only [n13] at heq h13
    obtain rfl : t' = t := by omega
    obtain rfl : r' = r := by omega
    rfl

/-- What the reference stores for a row. -/
theorem refFc1_apply (vs1 : BitVec 32) (proj : ℕ → BitVec 16) (hr : r < n13) :
    refFc1 fadd fmul rec aq as vs1 proj r = bf16Rne (fmul vs1 (refAcc fadd rec aq as r)) := by
  refine stores_of_mem ?_ ?_
  · exact List.mem_map.mpr ⟨r, List.mem_range.mpr hr, rfl⟩
  · intro x hx heq
    obtain ⟨r', -, rfl⟩ := List.mem_map.mp hx
    obtain rfl : r' = r := heq
    rfl

/-- **FC1 is exact.** For every record, row and token: no lane overflows on the way from the codes
to the dots of a group; each dot is the exact integer. If the blocks of the row are in the normal
range, each is worth the truncated and scaled dot, and the row's projection is the reference's. -/
theorem fc1_exact (fadd fmul : BitVec 32 → BitVec 32 → BitVec 32) (rec : ℕ → UInt8)
    (aq as : ℕ → ℕ → UInt8) (vs1 : BitVec 32) (proj : ℕ → BitVec 16) {r0 r1 m r t : ℕ}
    (hr0 : r0 ≤ r) (hr1 : r < r1) (h13 : r1 ≤ n13) (ht : t < m)
    (h : ∀ b < 160, BlockInRange rec (aq t) (as t) r b) :
    (∀ g, (rowGroup rec r (prepareX (aq t) (as t)) g).NoOverflow) ∧
    (∀ g < 10, ∀ i < 16,
      ((rowGroup rec r (prepareX (aq t) (as t)) g).dots i).toInt =
          refDot (aq t) (fun j => rec (nibOff r + j)) (g * 16 + i) ∧
        val (groupValues rec r (prepareX (aq t) (as t)) g i) =
          blockValue (refDot (aq t) (fun j => rec (nibOff r + j)) (g * 16 + i))
            (as t (g * 16 + i)) (rec (scaleOff r + (g * 16 + i)))) ∧
    ∀ proj', fc1Rows fadd fmul rec r0 r1 (fun t => prepareX (aq t) (as t)) m proj vs1
        (t * n13 + r) = refFc1 fadd fmul rec (aq t) (as t) vs1 proj' r := by
  refine ⟨fun g => (rowGroup_codes rec _ _ r g).noOverflow, fun g hg i hi => ?_, fun proj' => ?_⟩
  · exact ⟨rowGroup_dots rec _ _ r g hi, (groupValues_eq hi (h _ (by omega))).2⟩
  · rw [fc1Rows_apply _ _ _ hr0 hr1 h13 ht, fc1Acc_eq ht h, refFc1_apply _ _ (by omega)]

/-- A record whose bytes are all 34 (each weight is 1), and activations of 1 with scale byte 220:
each block is worth 32. -/
theorem blockInRange_ones (b : ℕ) :
    BlockInRange (fun _ => 34) (fun _ => 0x38) (fun _ => 220) 0 b := by
  have hnib (nib : ℕ → UInt8) (hn : nib = fun _ => 34) (k : ℕ) : nibCode nib k = 2 := by
    subst hn
    rcases Nat.mod_two_eq_zero_or_one k with h | h <;> simp [nibCode, h]
  have hdot : refDot (fun _ => 0x38) (fun j => (fun _ => 34 : ℕ → UInt8) (nibOff 0 + j)) b =
      32768 := by
    have hx : e4m3Units 0x38 = 512 := by decide
    have hw : e2m1Units 2 = 2 := by decide
    simp [refDot, hnib, hx, hw]
  have htrunc : trunc24 32768 = 32768 := by decide
  have hval : blockValue 32768 220 34 = 32 := by
    have he : (((220 : UInt8).toNat : ℤ) + (34 : UInt8).toNat - 264) = -10 := by decide
    rw [blockValue, htrunc, he, zpow_neg]
    norm_num
  rw [BlockInRange, hdot, hval]
  intro _
  rw [abs_of_pos (by norm_num : (0 : ℚ) < 32), zpow_neg]
  norm_num

/-- The first row of that record. The accumulators are whole numbers, so the sum and the product of
two numbers are their integer sum and product. -/
theorem fc1_exact_ones :
    fc1Rows (fun a b => pack rndEven false ⌊val a + val b⌋.toNat 0)
        (fun a b => pack rndEven false ⌊val a * val b⌋.toNat 0) (fun _ => 34) 0 n13
        (fun _ => prepareX (fun _ => 0x38) fun _ => 220) 1 (fun _ => 0#16) 0x3F800000#32
        (0 * n13 + 0) =
      refFc1 (fun a b => pack rndEven false ⌊val a + val b⌋.toNat 0)
        (fun a b => pack rndEven false ⌊val a * val b⌋.toNat 0) (fun _ => 34) (fun _ => 0x38)
        (fun _ => 220) 0x3F800000#32 (fun _ => 0#16) 0 :=
  (fc1_exact _ _ (fun _ => 34) (fun _ _ => 0x38) (fun _ _ => 220) _ (fun _ => 0#16)
    (Nat.le_refl 0) (Nat.zero_lt_succ _) (Nat.le_refl _) Nat.one_pos
    fun b _ => blockInRange_ones b).2.2 _

end CpuMoe

end VllmMoet
