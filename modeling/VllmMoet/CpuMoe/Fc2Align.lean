import Mathlib.Logic.Function.Basic
import VllmMoet.CpuMoe.Decode
import VllmMoet.Lib.Binary32

/-!
# How many bits of the products FC2 drops

Before it adds a block's products to an accumulator, `fc2_step4` of `cpu_moe_b12x.cpp` chooses how
many bits of the products it truncates: for the four lanes at once, from the exponent fields, and
then again by the scalar code for the lanes that are rare or below the normal range.

* `f32Exp`, `truncBelow`, `fc2BlockMaxFexp`: what the scalar code uses;
* `vecQ`, `slow`, `scalarStep`, `alignStep4`: the prologue;
* `qRule`: the documented rule, with the true exponent;
* `alignStep4_q_iff`: the prologue follows the rule for every normal accumulator, and for one below
  the normal range only when the vector code has dropped nothing or the scalar code drops something.

The scalar code stores its result only when it is not zero, and the vector code takes every
accumulator below the normal range for one with exponent -127 (`tiny_scale_drops_bits`).
-/

namespace VllmMoet

namespace CpuMoe

open Binary32 Lanes

/-! ### The scalar code -/

/-- `INT_MIN`. -/
def intMin : ℤ := -2147483648

/-- `__builtin_clz` of a word that is not zero. -/
def clz (u : ℕ) : ℤ := 31 - (Nat.log 2 u : ℤ)

/-- `f32_exp`. -/
def f32Exp (a : BitVec 32) : ℤ :=
  let u := magnitude a
  if u = 0 then intMin
  else
    let e : ℤ := (u >>> 23 : ℕ)
    if e = 0 then -127 - (clz u - 9) else e - 127

/-- `trunc_below`. -/
def truncBelow (a : BitVec 32) (eCut : ℤ) : BitVec 32 :=
  if magnitude a = 0 then a
  else
    let s := eCut - (f32Exp a - 23)
    if s ≤ 0 then a else if 24 ≤ s then 0#32 else (a >>> s.toNat) <<< s.toNat

/-- The prepared activations of a token: for each block the scale byte and the largest field
exponent, and the field exponents. -/
structure YPrep where
  sa : ℕ → UInt8
  eaMax : ℕ → ℤ
  fexp : ℕ → ℤ

/-- A lane together with the one that a shuffle puts there. -/
def maxWith (d : ℕ) (v : ℕ → ℤ) (k : ℕ) : ℤ := max (v k) (v (k ^^^ d))

/-- `fc2_block_max_fexp`: the lanes are folded in halves, and lane 0 is read. -/
def fc2BlockMaxFexp (nib16 : ℕ → UInt8) (Y : YPrep) (b : ℕ) (sc : ℤ) : ℤ :=
  let v (k : ℕ) : ℤ :=
    (permutexvar16 (decodeBlockCodes nib16) lutFexp k).toInt + Y.fexp (b * 32 + k)
  let M := maxWith 1 (maxWith 2 (maxWith 4 (maxWith 8 (maxWith 16 v)))) 0
  if M < -500 then intMin else M + sc

/-! ### The prologue -/

/-- What the prologue leaves for each lane: the bits to drop and the accumulator to go on with,
and the count of the rare lanes. -/
structure Align where
  q4 : Fin 4 → ℤ
  accT : Fin 4 → BitVec 32
  general : ℕ

/-- A lane of `sc4`. -/
def scaleExp (sa sb : UInt8) : ℤ := (sb.toNat : ℤ) + ((sa.toNat : ℤ) - 254)

/-- A lane of `e_acc`, from the exponent field. -/
def vecExp (a : BitVec 32) : ℤ := (magnitude a >>> 23 : ℕ) - 127

/-- A lane of `fast`. -/
def fast (a : BitVec 32) (sc ea : ℤ) : Bool :=
  magnitude a ≠ 0 ∧ sc + (ea + 2) ≤ vecExp a

/-- A lane of `q4` as the vector code leaves it. -/
def vecQ (a : BitVec 32) (sc ea : ℤ) : ℤ :=
  if fast a sc ea then max (vecExp a - sc - 15) 0 else 0

/-- A lane of `rare`. -/
def rare (a : BitVec 32) (sc ea : ℤ) : Bool :=
  (magnitude a ≠ 0 ∧ !fast a sc ea) ∧ vecExp a + 2 < sc + (ea + 2)

/-- A lane of `denorm`. -/
def denorm (a : BitVec 32) : Bool :=
  magnitude a ≠ 0 ∧ magnitude a >>> 23 = 0

/-- A lane of `slow`. -/
def slow (a : BitVec 32) (sc ea : ℤ) : Bool := rare a sc ea || denorm a

/-- The scalar code for lane `r`, whose accumulator is `a`. -/
def scalarStep (a : BitVec 32) (nib16 : ℕ → UInt8) (Y : YPrep) (b : ℕ) (sc : ℤ) (s : Align)
    (r : Fin 4) : Align :=
  if magnitude a = 0 then s
  else
    let eAcc := f32Exp a
    let bound := Y.eaMax b + 2 + sc
    if bound ≤ eAcc then
      let q := max (eAcc - sc - 15) 0
      if q ≠ 0 then { s with q4 := Function.update s.q4 r q } else s
    else if eAcc + 2 < bound then
      let M := fc2BlockMaxFexp nib16 Y b sc
      { s with
        accT := if eAcc + 2 < M then Function.update s.accT r (truncBelow a (M - 25)) else s.accT
        general := s.general + 1 }
    else s

/-- The alignment prologue of `fc2_step4`: the vector code, then the scalar code for the flagged
lanes, the lowest first. -/
def alignStep4 (acc4 : Fin 4 → BitVec 32) (nib16 : Fin 4 → ℕ → UInt8) (Y : YPrep) (b : ℕ)
    (sb4 : Fin 4 → UInt8) (general : ℕ) : Align :=
  let sc (r : Fin 4) := scaleExp (Y.sa b) (sb4 r)
  ((List.finRange 4).filter fun r => slow (acc4 r) (sc r) (Y.eaMax b)).foldl
    (fun s r => scalarStep (acc4 r) (nib16 r) Y b (sc r) s r)
    ⟨fun r => vecQ (acc4 r) (sc r) (Y.eaMax b), acc4, general⟩

/-! ### What each lane gets -/

/-- `f32_exp` is the true exponent of every finite number but zero. -/
theorem f32Exp_eq_log {a : BitVec 32} (ha : magnitude a ≠ 0) :
    f32Exp a = Int.log 2 (absVal a) := by
  simp only [f32Exp, if_neg ha]
  change (if (exponent a : ℤ) = 0 then _ else (exponent a : ℤ) - 127) = _
  split_ifs with he
  · rw [log_absVal_of_subnormal ⟨by exact_mod_cast he, ha⟩, clz]
    ring
  · rw [log_absVal_of_normal (by exact_mod_cast he)]

/-- What the scalar code makes of the bits that lane `r` drops. -/
def scalarQ (a : BitVec 32) (sc ea q : ℤ) : ℤ :=
  if magnitude a ≠ 0 ∧ ea + 2 + sc ≤ f32Exp a ∧ max (f32Exp a - sc - 15) 0 ≠ 0 then
    max (f32Exp a - sc - 15) 0
  else q

/-- The scalar code for a lane leaves the others alone. -/
theorem scalarStep_q4 (a : BitVec 32) (nib16 : ℕ → UInt8) (Y : YPrep) (b : ℕ) (sc : ℤ) (s : Align)
    (r i : Fin 4) : (scalarStep a nib16 Y b sc s r).q4 i =
      if i = r then scalarQ a sc (Y.eaMax b) (s.q4 i) else s.q4 i := by
  unfold scalarStep scalarQ
  dsimp only
  rcases eq_or_ne i r with rfl | hi
  · split_ifs <;> simp_all
  · split_ifs <;> simp_all [Function.update_of_ne]

/-- What the scalar code makes of the accumulator of lane `r`. -/
def scalarAcc (a : BitVec 32) (nib16 : ℕ → UInt8) (Y : YPrep) (b : ℕ) (sc : ℤ) (x : BitVec 32) :
    BitVec 32 :=
  if magnitude a ≠ 0 ∧ f32Exp a < Y.eaMax b + 2 + sc ∧ f32Exp a + 2 < Y.eaMax b + 2 + sc ∧
      f32Exp a + 2 < fc2BlockMaxFexp nib16 Y b sc then
    truncBelow a (fc2BlockMaxFexp nib16 Y b sc - 25)
  else x

theorem scalarStep_accT (a : BitVec 32) (nib16 : ℕ → UInt8) (Y : YPrep) (b : ℕ) (sc : ℤ)
    (s : Align) (r i : Fin 4) : (scalarStep a nib16 Y b sc s r).accT i =
      if i = r then scalarAcc a nib16 Y b sc (s.accT i) else s.accT i := by
  unfold scalarStep scalarAcc
  dsimp only
  rcases eq_or_ne i r with rfl | hi
  · split_ifs <;> simp_all
    all_goals omega
  · split_ifs <;> simp_all [Function.update_of_ne]

/-- So the lanes of a list get what the scalar code makes of them, and the others keep theirs. -/
theorem foldl_lane {β : Type*} {f : Align → Fin 4 → Align} {g : Align → Fin 4 → β}
    {F : Fin 4 → β → β}
    (hf : ∀ s r i, g (f s r) i = if i = r then F i (g s i) else g s i) (i : Fin 4) :
    ∀ (l : List (Fin 4)) (_ : l.Nodup) (s : Align),
      g (l.foldl f s) i = if i ∈ l then F i (g s i) else g s i
  | [], _, s => by simp
  | r :: l, hl, s => by
    obtain ⟨hr, hl⟩ := List.nodup_cons.mp hl
    rw [List.foldl_cons, foldl_lane hf i l hl, hf]
    rcases eq_or_ne i r with rfl | hi
    · simp [hr]
    · simp [hi]

/-- The bits that a lane drops in the end. -/
theorem alignStep4_q4 (acc4 : Fin 4 → BitVec 32) (nib16 : Fin 4 → ℕ → UInt8) (Y : YPrep) (b : ℕ)
    (sb4 : Fin 4 → UInt8) (general : ℕ) (r : Fin 4) :
    (alignStep4 acc4 nib16 Y b sb4 general).q4 r =
      if slow (acc4 r) (scaleExp (Y.sa b) (sb4 r)) (Y.eaMax b) then
        scalarQ (acc4 r) (scaleExp (Y.sa b) (sb4 r)) (Y.eaMax b)
          (vecQ (acc4 r) (scaleExp (Y.sa b) (sb4 r)) (Y.eaMax b))
      else vecQ (acc4 r) (scaleExp (Y.sa b) (sb4 r)) (Y.eaMax b) := by
  rw [alignStep4, foldl_lane (g := Align.q4)
    (F := fun i => scalarQ (acc4 i) (scaleExp (Y.sa b) (sb4 i)) (Y.eaMax b))
    (fun s r i => ?_) r _ ((List.nodup_finRange 4).filter _)]
  · simp [List.mem_filter]
  · rw [scalarStep_q4]
    rcases eq_or_ne i r with rfl | hi
    · rfl
    · rw [if_neg hi, if_neg hi]

/-- The accumulator that a lane goes on with. -/
theorem alignStep4_accT (acc4 : Fin 4 → BitVec 32) (nib16 : Fin 4 → ℕ → UInt8) (Y : YPrep) (b : ℕ)
    (sb4 : Fin 4 → UInt8) (general : ℕ) (r : Fin 4) :
    (alignStep4 acc4 nib16 Y b sb4 general).accT r =
      if slow (acc4 r) (scaleExp (Y.sa b) (sb4 r)) (Y.eaMax b) then
        scalarAcc (acc4 r) (nib16 r) Y b (scaleExp (Y.sa b) (sb4 r)) (acc4 r)
      else acc4 r := by
  rw [alignStep4, foldl_lane (g := Align.accT)
    (F := fun i => scalarAcc (acc4 i) (nib16 i) Y b (scaleExp (Y.sa b) (sb4 i)))
    (fun s r i => ?_) r _ ((List.nodup_finRange 4).filter _)]
  · simp [List.mem_filter]
  · rw [scalarStep_accT]
    rcases eq_or_ne i r with rfl | hi
    · rfl
    · rw [if_neg hi, if_neg hi]

/-! ### The rule -/

/-- The documented rule, with the true exponent: `max(e_acc - sc - 15, 0)` where
`e_acc >= ea_max + 2 + sc`, else 0. -/
def qRule (a : BitVec 32) (sc ea : ℤ) : ℤ :=
  if absVal a ≠ 0 ∧ ea + 2 + sc ≤ Int.log 2 (absVal a) then
    max (Int.log 2 (absVal a) - sc - 15) 0
  else 0

/-- The rule in terms of `f32_exp`. -/
theorem qRule_eq (a : BitVec 32) (sc ea : ℤ) :
    qRule a sc ea =
      if magnitude a ≠ 0 ∧ ea + 2 + sc ≤ f32Exp a then max (f32Exp a - sc - 15) 0 else 0 := by
  simp only [qRule, ne_eq, absVal_eq_zero]
  rcases eq_or_ne (magnitude a) 0 with h0 | h0
  · simp [h0]
  · rw [f32Exp_eq_log h0]

/-- The exponent field of a number in the normal range is its exponent. -/
theorem vecExp_eq {a : BitVec 32} (ha : magnitude a ≠ 0) (hd : ¬ Subnormal a) :
    vecExp a = f32Exp a := by
  have he : exponent a ≠ 0 := fun he => hd ⟨he, ha⟩
  rw [f32Exp_eq_log ha, log_absVal_of_normal he]
  rfl

/-- That of a number below it is taken for -127. -/
theorem vecExp_of_subnormal {a : BitVec 32} (hd : Subnormal a) : vecExp a = -127 := by
  have he : (magnitude a >>> 23 : ℕ) = 0 := hd.1
  simp [vecExp, he]

/-- A lane in the normal range follows the rule by the vector code alone: a rare lane is not a fast
one, and the scalar code finds the same exponent. -/
theorem lane_of_normal {a : BitVec 32} (hd : ¬ Subnormal a) (sc ea : ℤ) :
    (if slow a sc ea then scalarQ a sc ea (vecQ a sc ea) else vecQ a sc ea) = qRule a sc ea := by
  rw [qRule_eq]
  rcases eq_or_ne (magnitude a) 0 with h0 | h0
  · simp [scalarQ, vecQ, fast, h0]
  · have hv := vecExp_eq h0 hd
    have hvec : vecQ a sc ea =
        if ea + 2 + sc ≤ f32Exp a then max (f32Exp a - sc - 15) 0 else 0 := by
      simp [vecQ, fast, h0, hv, add_comm sc]
    rw [scalarQ, hvec]
    by_cases hb : ea + 2 + sc ≤ f32Exp a
    · by_cases hq : max (f32Exp a - sc - 15) 0 ≠ 0 <;> simp [h0, hb, hq]
    · simp [h0, hb]

/-- A lane below the normal range follows it only if the vector code has dropped nothing there, or
the scalar code drops something. -/
theorem lane_of_subnormal {a : BitVec 32} (hd : Subnormal a) (sc ea : ℤ) :
    (if slow a sc ea then scalarQ a sc ea (vecQ a sc ea) else vecQ a sc ea) = qRule a sc ea ↔
      -142 ≤ sc ∨ -127 < ea + 2 + sc ∨ (ea + 2 + sc ≤ f32Exp a ∧ sc + 15 < f32Exp a) := by
  have hslow : slow a sc ea = true := by
    have he : (magnitude a >>> 23 : ℕ) = 0 := hd.1
    simp [slow, denorm, hd.2, he]
  have hvec : vecQ a sc ea = if ea + 2 + sc ≤ -127 then max (-127 - sc - 15) 0 else 0 := by
    simp [vecQ, fast, hd.2, vecExp_of_subnormal hd, add_comm sc]
  rw [qRule_eq, if_pos hslow, scalarQ, hvec]
  simp only [hd.2, ne_eq, not_false_eq_true, true_and]
  by_cases hb : ea + 2 + sc ≤ f32Exp a
  · by_cases hq : max (f32Exp a - sc - 15) 0 = 0
    · -- the scalar code finds nothing to drop and stores nothing
      simp only [hb, hq, not_true_eq_false, and_false, if_false, if_true, true_and]
      split_ifs <;> omega
    · simp only [hb, hq, not_false_eq_true, and_self, if_true, true_and, true_iff]
      omega
  · simp only [hb, false_and, if_false, or_false]
    split_ifs <;> omega

/-- **The bits FC2 drops.** Whatever the other lanes hold, a lane drops what the rule says if and
only if its accumulator is zero or in the normal range, or the scales are large enough for the
vector code to have dropped nothing, or the scalar code drops something. -/
theorem alignStep4_q_iff (acc4 : Fin 4 → BitVec 32) (nib16 : Fin 4 → ℕ → UInt8) (Y : YPrep)
    (b : ℕ) (sb4 : Fin 4 → UInt8) (general : ℕ) (r : Fin 4) :
    (alignStep4 acc4 nib16 Y b sb4 general).q4 r =
        qRule (acc4 r) (scaleExp (Y.sa b) (sb4 r)) (Y.eaMax b) ↔
      (Subnormal (acc4 r) → -142 ≤ scaleExp (Y.sa b) (sb4 r) ∨
        -127 < Y.eaMax b + 2 + scaleExp (Y.sa b) (sb4 r) ∨
        (Y.eaMax b + 2 + scaleExp (Y.sa b) (sb4 r) ≤ Int.log 2 (absVal (acc4 r)) ∧
          scaleExp (Y.sa b) (sb4 r) + 15 < Int.log 2 (absVal (acc4 r)))) := by
  rw [alignStep4_q4]
  by_cases hd : Subnormal (acc4 r)
  · rw [lane_of_subnormal hd, f32Exp_eq_log hd.2]
    exact ⟨fun h _ => h, fun h => h hd⟩
  · exact iff_of_true (lane_of_normal hd _ _) fun h => absurd h hd

/-- The smallest accumulator of all, with two small scales: the vector code drops 18 bits of its
products, the scalar code finds nothing to drop and leaves it at that. -/
theorem tiny_scale_drops_bits :
    (alignStep4 (fun _ => 1#32) (fun _ _ => 0x22) ⟨fun _ => 47, fun _ => 8, fun _ => 8⟩ 0
      (fun _ => 47) 0).q4 0 = 18 ∧ qRule 1#32 (scaleExp 47 47) 8 = 0 := by
  refine ⟨by decide, ?_⟩
  rw [qRule_eq]
  decide

/-! ### The products -/

/-- A product with `cnt` bits dropped toward zero. -/
def truncProduct (p : ℤ) (cnt : ℕ) : ℤ :=
  let t : ℕ := (p.natAbs >>> cnt) <<< cnt
  if p < 0 then -t else t

/-- `cnt_s`: the shift counts are capped at 31, which makes no difference for a product that fits
in 31 bits. -/
theorem truncProduct_cap {p : ℤ} (hp : p.natAbs < 2147483648) (q : ℕ) :
    truncProduct p (min q 31) = truncProduct p q := by
  rcases le_total q 31 with hq | hq
  · rw [min_eq_left hq]
  · have h31 : p.natAbs >>> 31 = 0 := by
      rw [Nat.shiftRight_eq_div_pow]
      exact Nat.div_eq_of_lt hp
    have hqz : p.natAbs >>> q = 0 := by
      rw [Nat.shiftRight_eq_div_pow]
      exact Nat.div_eq_of_lt (hp.trans_le (Nat.pow_le_pow_right Nat.two_pos hq))
    simp only [truncProduct, min_eq_right hq, h31, hqz, Nat.zero_shiftLeft]

end CpuMoe

end VllmMoet
