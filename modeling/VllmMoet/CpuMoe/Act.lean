import VllmMoet.CpuMoe.Fc2Rows
import VllmMoet.Lib.FloatOrder

/-!
# The activation between FC1 and FC2

`act_group` of `cpu_moe_b12x.cpp`: the gate and up projections of 32 columns become 32 e4m3 codes
with one scale byte, and the operand that FC2 reads. Beside it the scalar reference `ref_act`.

* `f32ToE4m3Rne`, `pow2CeilByte`: the codes and the scale byte;
* `actGroup`, `refAct`: the kernel's group and the reference's token;
* `assemble_prepareGroup`: the groups of a token make up the operand prepared from its codes.

The tables `g_act_m` and `g_inv` come from the GPU and are parameters, as is the fp32
multiplication.
-/

namespace VllmMoet

namespace CpuMoe

open Binary32

/-! ### Scalar numerics -/

/-- `bf16_to_f32`. -/
def bf16ToF32 (b : BitVec 16) : BitVec 32 := b.setWidth 32 <<< 16

/-- `fabsf`. -/
def fabs (a : BitVec 32) : BitVec 32 := a &&& 0x7FFFFFFF#32

/-- `a >= b`: false if one is not a number. -/
def fge (a b : BitVec 32) : Bool := !isNan a && !isNan b && decide (ordKey b ≤ ordKey a)

/-- `a < b`: false too. -/
def flt (a b : BitVec 32) : Bool := !isNan a && !isNan b && decide (ordKey a < ordKey b)

/-- `fmaxf`. -/
def fmaxf (a b : BitVec 32) : BitVec 32 :=
  if isNan a then b else if isNan b then a else if fge a b then a else b

/-- `CLAMP`, 10. -/
def clampMax : BitVec 32 := 0x41200000#32

/-- The two comparisons with `CLAMP`. -/
def clampU (u : BitVec 32) : BitVec 32 :=
  let u := if fge u clampMax then clampMax else u
  if fge (neg clampMax) u then neg clampMax else u

/-- `INV_FP8_MAX`. -/
def invFp8Max : BitVec 32 := 0x3B124925#32

/-- `pow2_ceil_byte`. -/
def pow2CeilByte (sc : BitVec 32) : UInt8 :=
  let bits :=
    if sc &&& 0x007FFFFF#32 ≠ 0#32 then (sc + 0x00800000#32) &&& 0x7F800000#32 else sc
  UInt8.ofNat ((bits >>> 23).toNat % 256)

/-- `nearbyintf` of `m * 2 ^ e`. -/
def nearbyint (m : ℕ) (e : ℤ) : ℕ := if 0 ≤ e then m <<< e.toNat else rndEven m (-e).toNat

/-- The code of a magnitude: saturated from `FP8_MAX` on, subnormal below `2 ^ -6`, else the
exponent with the fraction rounded to three bits. -/
def e4m3Magnitude (a : BitVec 32) : ℕ :=
  if fge a 0x43E00000#32 then 0x7E
  else if flt a 0x3C800000#32 then
    let m := nearbyint (significand a) (scale a + 9)
    if 8 ≤ m then 0x08 else m
  else
    let e : ℤ := (exponent a : ℤ) - 127
    let mant := rndEven (fraction a) 20
    let e' := if 8 ≤ mant then e + 1 else e
    let mant' := if 8 ≤ mant then 0 else mant
    if 8 < e' ∨ e' = 8 ∧ 6 < mant' then 0x7E else ((e' + 7).toNat <<< 3) ||| mant'

/-- `f32_to_e4m3_rne`, for a number. -/
def f32ToE4m3Rne (x : BitVec 32) : UInt8 :=
  let sign := if negative x then 0x80 else 0
  let a := fabs x
  UInt8.ofNat (if magnitude x = 0 then sign else sign ||| e4m3Magnitude a)

/-! ### The kernel's group -/

/-- `YPrep`, group by group: what `act_group` writes. -/
structure YGroup where
  sa : UInt8
  eaMax : ℤ
  fexp : ℕ → ℤ
  x32 : ℕ → BitVec 32
  hi : ℕ → BitVec 16
  lo : ℕ → BitVec 16

/-- The operand of a group of codes. -/
def prepareGroup (q : ℕ → UInt8) (sa : UInt8) : YGroup where
  sa := sa
  eaMax := max (maxOver (fun _ => true) (fun i => e4m3Fexp (q i)) (List.range 32) (-1000)) (-100)
  fexp i := e4m3Fexp (q i)
  x32 i := BitVec.ofInt 32 (e4m3Units (q i))
  hi i := (splitUnits (e4m3Units (q i))).1
  lo i := (splitUnits (e4m3Units (q i))).2

instance : Inhabited YGroup := ⟨prepareGroup (fun _ => 0) 0⟩

/-- The operand that `fc2_rows` reads. -/
def assemble (Y : ℕ → YGroup) : YOperand where
  sa b := (Y b).sa
  eaMax b := (Y b).eaMax
  fexp k := (Y (k / 32)).fexp (k % 32)
  x32 k := (Y (k / 32)).x32 (k % 32)
  hi k := (Y (k / 32)).hi (k % 32)
  lo k := (Y (k / 32)).lo (k % 32)

/-- The groups of a row of codes make up the operand of the row. -/
theorem assemble_prepareGroup (c : ℕ → ℕ → UInt8) (sbytes : ℕ → UInt8) :
    assemble (fun b => prepareGroup (c b) (sbytes b)) =
      prepareY (fun k => c (k / 32) (k % 32)) sbytes := by
  have hmax (b : ℕ) (l : List ℕ) (hl : ∀ i ∈ l, i < 32) (x : ℤ) :
      maxOver (fun _ => true) (fun i => e4m3Fexp (c b i)) l x =
        maxOver (fun _ => true)
          (fun i => e4m3Fexp (c ((b * 32 + i) / 32) ((b * 32 + i) % 32))) l x := by
    induction l generalizing x with
    | nil => rfl
    | cons i l ih =>
      have hi := hl i List.mem_cons_self
      have hdiv : (b * 32 + i) / 32 = b := by omega
      have hmod : (b * 32 + i) % 32 = i := by omega
      rw [maxOver_cons, maxOver_cons, hdiv, hmod]
      exact ih (fun j hj => hl j (List.mem_cons_of_mem i hj)) _
  have hea : (fun b => max (maxOver (fun _ => true) (fun i => e4m3Fexp (c b i)) (List.range 32)
      (-1000)) (-100)) = (prepareY (fun k => c (k / 32) (k % 32)) sbytes).eaMax := by
    funext b
    rw [hmax b _ fun i => List.mem_range.mp]
    rfl
  rw [assemble, YOperand.mk.injEq, YPrep.mk.injEq]
  exact ⟨⟨rfl, hea, rfl⟩, rfl, rfl, rfl⟩

section Group

variable (fmul : BitVec 32 → BitVec 32 → BitVec 32) (actM : BitVec 16 → BitVec 32)
  (inv : UInt8 → BitVec 32)

/-- The activated value of a column. -/
def actValue (gate up : BitVec 16) : BitVec 32 :=
  bf16ToF32 (bf16Rne (fmul (clampU (bf16ToF32 up)) (actM gate)))

/-- The largest magnitude of a group. -/
def actMax (y : ℕ → BitVec 32) : BitVec 32 :=
  (List.range 32).foldl (fun amax i => fmaxf amax (fabs (y i))) 0#32

/-- `act_group`: the codes and the scale byte of a group, from its gate and up projections. -/
def actGroup (gate up : ℕ → BitVec 16) : (ℕ → UInt8) × UInt8 :=
  let y i := actValue fmul actM (gate i) (up i)
  let byte := pow2CeilByte (fmul (actMax y) invFp8Max)
  (fun i => f32ToE4m3Rne (fmul (inv byte) (y i)), byte)

/-- `ref_act`: the codes and the scale bytes of a token; nothing beyond their arrays. -/
def refAct (proj : ℕ → BitVec 16) : (ℕ → UInt8) × (ℕ → UInt8) :=
  let y j := actValue fmul actM (proj j) (proj (interR + j))
  let byte grp := pow2CeilByte (fmul (actMax fun i => y (grp * 32 + i)) invFp8Max)
  (fun j => if j < 576 then f32ToE4m3Rne (fmul (inv (byte (j / 32))) (y j)) else 0,
    fun grp => if grp < 18 then byte grp else 0)

/-- Only the 32 columns of a group count. -/
theorem actGroup_congr {gate up gate' up' : ℕ → BitVec 16} (h : ∀ i < 32, gate i = gate' i)
    (h' : ∀ i < 32, up i = up' i) : (actGroup fmul actM inv gate up).2 =
      (actGroup fmul actM inv gate' up').2 ∧
    ∀ i < 32, (actGroup fmul actM inv gate up).1 i = (actGroup fmul actM inv gate' up').1 i := by
  have hmax : actMax (fun i => actValue fmul actM (gate i) (up i)) =
      actMax fun i => actValue fmul actM (gate' i) (up' i) :=
    List.foldl_ext _ _ _ fun a i hi => by
      dsimp only
      rw [h i (List.mem_range.mp hi), h' i (List.mem_range.mp hi)]
  refine ⟨by rw [actGroup, actGroup, hmax], fun i hi => ?_⟩
  simp only [actGroup, hmax, h i hi, h' i hi]

/-- Group by group they are the kernel's. -/
theorem refAct_group (proj : ℕ → BitVec 16) {grp : ℕ} (hgrp : grp < 18) :
    (refAct fmul actM inv proj).2 grp = (actGroup fmul actM inv
        (fun j => proj (grp * 32 + j)) fun j => proj (interR + (grp * 32 + j))).2 ∧
      ∀ i < 32, (refAct fmul actM inv proj).1 (grp * 32 + i) = (actGroup fmul actM inv
        (fun j => proj (grp * 32 + j)) fun j => proj (interR + (grp * 32 + j))).1 i := by
  refine ⟨if_pos hgrp, fun i hi => ?_⟩
  have hdiv : (grp * 32 + i) / 32 = grp := by omega
  rw [refAct]
  dsimp only
  rw [if_pos (by omega), hdiv]
  rfl

end Group

end CpuMoe

end VllmMoet
