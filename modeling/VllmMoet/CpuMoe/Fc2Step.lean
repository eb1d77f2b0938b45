import VllmMoet.CpuMoe.Fc1Rows
import VllmMoet.CpuMoe.Fc2Align
import VllmMoet.Lib.Binary64

/-!
# A block step of FC2

`fc2_step4` of `cpu_moe_b12x.cpp`: the products of a block are added to the accumulators of four
rows. Every product and the accumulator is truncated toward zero at the 26th bit below the largest
exponent among them, the sum is exact, and it is truncated to fp32.

* `prepareY`: what `act_group` prepares for FC2;
* `topRef`, `fc2Sum`: the largest exponent, and the exact sum of the truncated addends;
* `fc2Step4`: the vector code, with its two paths for the products and the sum in doubles;
* `fc2Step4_acc`: whatever the other lanes hold, a lane is the truncated sum.
-/

namespace VllmMoet

namespace CpuMoe

open Lanes Binary32

/-! ### The operands -/

/-- A running maximum, over the members of a list that count. -/
def maxOver (p : ℕ → Bool) (f : ℕ → ℤ) (l : List ℕ) (m : ℤ) : ℤ :=
  l.foldl (fun m k => if p k then max m (f k) else m) m

theorem maxOver_cons (p : ℕ → Bool) (f : ℕ → ℤ) (k : ℕ) (l : List ℕ) (m : ℤ) :
    maxOver p f (k :: l) m = maxOver p f l (if p k then max m (f k) else m) := rfl

theorem le_maxOver (p : ℕ → Bool) (f : ℕ → ℤ) : ∀ (l : List ℕ) (m : ℤ),
    m ≤ maxOver p f l m ∧ ∀ k ∈ l, p k = true → f k ≤ maxOver p f l m
  | [], m => ⟨le_rfl, by simp⟩
  | k :: l, m => by
    obtain ⟨hm, hl⟩ := le_maxOver p f l (if p k then max m (f k) else m)
    rw [maxOver_cons]
    refine ⟨le_trans ?_ hm, fun j hj hpj => ?_⟩
    · split_ifs
      · exact le_max_left _ _
      · exact le_rfl
    · rcases List.mem_cons.mp hj with rfl | hj
      · rw [if_pos hpj] at hm ⊢
        exact (le_max_right _ _).trans hm
      · exact hl j hj hpj

theorem maxOver_cases (p : ℕ → Bool) (f : ℕ → ℤ) : ∀ (l : List ℕ) (m : ℤ),
    maxOver p f l m = m ∨ ∃ k ∈ l, p k = true ∧ maxOver p f l m = f k
  | [], m => .inl rfl
  | k :: l, m => by
    rw [maxOver_cons]
    rcases maxOver_cases p f l (if p k then max m (f k) else m) with h | ⟨j, hj, hpj, h⟩
    · rw [h]
      split_ifs with hk
      · rcases max_choice m (f k) with hmax | hmax
        · exact .inl hmax
        · exact .inr ⟨k, List.mem_cons_self, hk, hmax⟩
      · exact .inl rfl
    · exact .inr ⟨j, List.mem_cons_of_mem k hj, hpj, h⟩

/-- `YPrep` with the operands of the products: each activation in units, as an integer and in
halves. -/
structure YOperand extends YPrep where
  x32 : ℕ → BitVec 32
  hi : ℕ → BitVec 16
  lo : ℕ → BitVec 16

/-- What `act_group` prepares of the codes `q` and the scale bytes. -/
def prepareY (q sbytes : ℕ → UInt8) : YOperand where
  sa := sbytes
  eaMax b := max (maxOver (fun _ => true) (fun i => e4m3Fexp (q (b * 32 + i))) (List.range 32) (-1000))
    (-100)
  fexp k := e4m3Fexp (q k)
  x32 k := BitVec.ofInt 32 (e4m3Units (q k))
  hi k := (splitUnits (e4m3Units (q k))).1
  lo k := (splitUnits (e4m3Units (q k))).2

/-- The 16 bytes of block `b` of a row's nibbles. -/
def blockBytes (nib : ℕ → UInt8) (b : ℕ) (i : ℕ) : UInt8 := nib (b * 16 + i)

/-- Product `k` of block `b`, in units of `2 ^ (sc - 10)`. -/
def product (nib q : ℕ → UInt8) (b k : ℕ) : ℤ :=
  e4m3Units (q (b * 32 + k)) * e2m1Units (nibCode nib (b * 32 + k))

/-- Its field exponent, without the scales. -/
def productFexp (nib q : ℕ → UInt8) (b k : ℕ) : ℤ :=
  e4m3Fexp (q (b * 32 + k)) + e2m1Fexp (nibCode nib (b * 32 + k))

/-- `top_ref`: the largest exponent among the accumulator and the products that are not zero. -/
def topRef (acc : BitVec 32) (nib q : ℕ → UInt8) (b : ℕ) (sc : ℤ) : ℤ :=
  maxOver (fun k => product nib q b k ≠ 0) (fun k => productFexp nib q b k + sc) (List.range 32)
    (f32Exp acc)

/-- A product truncated toward zero at `2 ^ (topRef - 25)`. -/
def truncated (acc : BitVec 32) (nib q : ℕ → UInt8) (b : ℕ) (sc : ℤ) (k : ℕ) : ℤ :=
  truncProduct (product nib q b k) (topRef acc nib q b sc - 25 - (sc - 10)).toNat

/-- The exact sum of the products and the accumulator, all of them truncated there. -/
def fc2Sum (acc : BitVec 32) (nib q : ℕ → UInt8) (b : ℕ) (sc : ℤ) : ℚ :=
  (∑ k ∈ Finset.range 32, truncated acc nib q b sc k : ℤ) * 2 ^ (sc - 10) +
    val (truncBelow acc (topRef acc nib q b sc - 25))

/-! ### The vector code -/

/-- A product on the truncating path: `cnt` bits of its magnitude are cleared. -/
def truncLane (p : BitVec 32) (cnt : ℕ) : BitVec 32 :=
  let t := (p.abs >>> cnt) <<< cnt
  if p.slt 0#32 then 0#32 - t else t

/-- The lanes of a row on that path, of two products each. -/
def truncLanes (w16 : ℕ → BitVec 16) (x32 : ℕ → BitVec 32) (cnt j : ℕ) : BitVec 32 :=
  truncLane ((w16 j).signExtend 32 * x32 j) cnt +
    truncLane ((w16 (16 + j)).signExtend 32 * x32 (16 + j)) cnt

/-- The sum of a lane in doubles, truncated to fp32. -/
def fc2Total (dot : BitVec 32) (sc : ℤ) (accT : BitVec 32) : BitVec 32 :=
  Binary64.toBinary32 (Binary64.fma (Binary64.ofInt dot.toInt) (Binary64.ofExponentField (sc + 1013))
    (Binary64.ofBinary32 accT))

/-- The accumulators after a step, and the counts of the rare lanes and of the steps in which no
lane truncates a product. -/
structure Step4 where
  acc : Fin 4 → BitVec 32
  general : ℕ
  q0 : ℕ

/-- The lanes of the four rows: the plain dot if no lane truncates a product. -/
def stepLanes (A : Align) (nib16 : Fin 4 → ℕ → UInt8) (Y : YOperand) (b i : ℕ) : ℕ → BitVec 32 :=
  let w16 := decodeBlockUnits (nib16 (lane4 i))
  if ∀ r, A.q4 r = 0 then dotLanes w16 (fun k => Y.hi (b * 32 + k)) fun k => Y.lo (b * 32 + k)
  else truncLanes w16 (fun k => Y.x32 (b * 32 + k)) (min (A.q4 (lane4 i)) 31).toNat

/-- `fc2_step4`. The decoded weights are those of the rows' nibbles (`fc2_decode`). -/
def fc2Step4 (acc4 : Fin 4 → BitVec 32) (nib16 : Fin 4 → ℕ → UInt8) (Y : YOperand) (b : ℕ)
    (sb4 : Fin 4 → UInt8) (general q0 : ℕ) : Step4 :=
  let A := alignStep4 acc4 nib16 Y.toYPrep b sb4 general
  { acc := fun r =>
      fc2Total (reduce4 (stepLanes A nib16 Y b) r) (scaleExp (Y.sa b) (sb4 r)) (A.accT r)
    general := A.general
    q0 := if ∀ r, A.q4 r = 0 then q0 + 1 else q0 }

/-! ### Field exponents -/

section Exponents

variable (nib q : ℕ → UInt8) (b : ℕ)

/-- Nibble `k` of a block is nibble `b * 32 + k` of the row. -/
theorem nibCode_blockBytes (k : ℕ) : nibCode (blockBytes nib b) k = nibCode nib (b * 32 + k) :=
  nibCode_block nib b k

/-- A product is zero exactly if one of its codes is, which its field exponent tells. -/
theorem productFexp_cases (k : ℕ) :
    (product nib q b k = 0 ∧ productFexp nib q b k ≤ -992) ∨
      (product nib q b k ≠ 0 ∧ -6 ≤ productFexp nib q b k ∧
        -6 ≤ e4m3Fexp (q (b * 32 + k)) ∧
        productFexp nib q b k ≤ e4m3Fexp (q (b * 32 + k)) + 2) := by
  have hlt : nibCode nib (b * 32 + k) < 16 := Nat.mod_lt _ (by omega)
  rw [product, productFexp, mul_ne_zero_iff, mul_eq_zero]
  rcases e4m3Fexp_cases (q (b * 32 + k)) with ⟨ha, hfa⟩ | ⟨ha, hfa⟩ <;>
    rcases e2m1Fexp_cases hlt with ⟨hw, hfw⟩ | ⟨hw, hfw⟩
  · exact .inl ⟨.inl ha, by omega⟩
  · exact .inl ⟨.inl ha, by omega⟩
  · exact .inl ⟨.inr hw, by omega⟩
  · exact .inr ⟨⟨ha, hw⟩, by omega⟩

theorem natAbs_product_le (k : ℕ) : (product nib q b k).natAbs ≤ 2949120 := by
  have hlt : nibCode nib (b * 32 + k) < 16 := Nat.mod_lt _ (by omega)
  have ha := abs_e4m3Units_le (q (b * 32 + k))
  have hw := abs_e2m1Units_le hlt
  have h : |product nib q b k| ≤ 245760 * 12 := by
    rw [product, abs_mul]
    exact mul_le_mul ha hw (abs_nonneg _) (by omega)
  rw [abs_le] at h
  omega

/-- The largest field exponent of the activations bounds theirs, and is at most 8. -/
theorem e4m3Fexp_le_eaMax (sbytes : ℕ → UInt8) {k : ℕ} (hk : k < 32) :
    e4m3Fexp (q (b * 32 + k)) ≤ (prepareY q sbytes).eaMax b :=
  ((le_maxOver (fun _ => true) (fun i => e4m3Fexp (q (b * 32 + i))) (List.range 32) (-1000)).2 k
    (List.mem_range.mpr hk) rfl).trans (le_max_left _ _)

theorem eaMax_le (sbytes : ℕ → UInt8) : (prepareY q sbytes).eaMax b ≤ 8 := by
  refine max_le ?_ (by omega)
  rcases maxOver_cases (fun _ => true) (fun i => e4m3Fexp (q (b * 32 + i))) (List.range 32) (-1000)
    with h | ⟨k, -, -, h⟩
  · omega
  · rw [h]
    rcases e4m3Fexp_cases (q (b * 32 + k)) with h' | h' <;> omega

/-- `top_ref` is one of the exponents, and bounds them all. -/
theorem f32Exp_le_topRef (acc : BitVec 32) (sc : ℤ) : f32Exp acc ≤ topRef acc nib q b sc :=
  (le_maxOver _ _ _ _).1

theorem productFexp_le_topRef (acc : BitVec 32) (sc : ℤ) {k : ℕ} (hk : k < 32)
    (h : product nib q b k ≠ 0) : productFexp nib q b k + sc ≤ topRef acc nib q b sc :=
  (le_maxOver (fun k => product nib q b k ≠ 0) (fun k => productFexp nib q b k + sc) _ _).2 k
    (List.mem_range.mpr hk) (by simpa using h)

theorem topRef_cases (acc : BitVec 32) (sc : ℤ) : topRef acc nib q b sc = f32Exp acc ∨
    ∃ k < 32, product nib q b k ≠ 0 ∧
      topRef acc nib q b sc = productFexp nib q b k + sc := by
  rcases maxOver_cases (fun k => product nib q b k ≠ 0) (fun k => productFexp nib q b k + sc)
    (List.range 32) (f32Exp acc) with h | ⟨k, hk, hp, h⟩
  · exact .inl h
  · exact .inr ⟨k, List.mem_range.mp hk, by simpa using hp, h⟩

/-- Folding by a lane's distance keeps the lanes' values below it. -/
theorem le_maxWith (d : ℕ) (v : ℕ → ℤ) (k : ℕ) (c : Bool) :
    v k ≤ maxWith d v (if c then k ^^^ d else k) := by
  cases c
  · exact le_max_left _ _
  · rw [if_pos rfl, maxWith, Nat.xor_assoc, Nat.xor_self, Nat.xor_zero]
    exact le_max_right _ _

theorem maxWith_cases (d : ℕ) (v : ℕ → ℤ) (k : ℕ) :
    maxWith d v k = v k ∨ maxWith d v k = v (k ^^^ d) := max_choice _ _

/-- Lane 0 of the folded lanes is the largest of the 32. -/
theorem fold_isGreatest (v : ℕ → ℤ) :
    (∀ k < 32, v k ≤ maxWith 1 (maxWith 2 (maxWith 4 (maxWith 8 (maxWith 16 v)))) 0) ∧
      ∃ k < 32, maxWith 1 (maxWith 2 (maxWith 4 (maxWith 8 (maxWith 16 v)))) 0 = v k := by
  constructor
  · intro k hk
    -- each fold clears a bit of the lane's number
    have h16 := le_maxWith 16 v k (k.testBit 4)
    have h8 := le_maxWith 8 (maxWith 16 v) (if k.testBit 4 then k ^^^ 16 else k) (k.testBit 3)
    have h4 := le_maxWith 4 (maxWith 8 (maxWith 16 v)) (k % 8) (k.testBit 2)
    have h2 := le_maxWith 2 (maxWith 4 (maxWith 8 (maxWith 16 v))) (k % 4) (k.testBit 1)
    have h1 := le_maxWith 1 (maxWith 2 (maxWith 4 (maxWith 8 (maxWith 16 v)))) (k % 2) (k.testBit 0)
    interval_cases k <;> exact h16.trans (h8.trans (h4.trans (h2.trans h1)))
  · have hstep (d : ℕ) (w : ℕ → ℤ) (k : ℕ) (hk : k < 32) (hd : d < 32) :
        ∃ j < 32, maxWith d w k = w j := by
      rcases maxWith_cases d w k with h | h
      · exact ⟨k, hk, h⟩
      · exact ⟨k ^^^ d, Nat.xor_lt_two_pow (n := 5) hk hd, h⟩
    obtain ⟨j₁, hj₁, h₁⟩ := hstep 1 (maxWith 2 (maxWith 4 (maxWith 8 (maxWith 16 v)))) 0
      (by omega) (by omega)
    obtain ⟨j₂, hj₂, h₂⟩ := hstep 2 (maxWith 4 (maxWith 8 (maxWith 16 v))) j₁ hj₁ (by omega)
    obtain ⟨j₃, hj₃, h₃⟩ := hstep 4 (maxWith 8 (maxWith 16 v)) j₂ hj₂ (by omega)
    obtain ⟨j₄, hj₄, h₄⟩ := hstep 8 (maxWith 16 v) j₃ hj₃ (by omega)
    obtain ⟨j₅, hj₅, h₅⟩ := hstep 16 v j₄ hj₄ (by omega)
    exact ⟨j₅, hj₅, by rw [h₁, h₂, h₃, h₄, h₅]⟩

/-- `fc2_block_max_fexp` is the largest exponent of the products that are not zero, if any. -/
theorem fc2BlockMaxFexp_cases (sbytes : ℕ → UInt8) (sc : ℤ) :
    ((∀ k < 32, product nib q b k = 0) ∧
      fc2BlockMaxFexp (blockBytes nib b) (prepareY q sbytes).toYPrep b sc = intMin) ∨
    (∃ k < 32, product nib q b k ≠ 0 ∧
      fc2BlockMaxFexp (blockBytes nib b) (prepareY q sbytes).toYPrep b sc = productFexp nib q b k + sc ∧
      ∀ j < 32, product nib q b j ≠ 0 →
        productFexp nib q b j + sc ≤
          fc2BlockMaxFexp (blockBytes nib b) (prepareY q sbytes).toYPrep b sc) := by
  set v : ℕ → ℤ := fun k => (permutexvar16 (decodeBlockCodes (blockBytes nib b)) lutFexp k).toInt +
    (prepareY q sbytes).fexp (b * 32 + k) with hv
  have hval (k : ℕ) (hk : k < 32) : v k = productFexp nib q b k := by
    simp only [hv]
    rw [lutFexp_toInt (blockBytes nib b) hk, nibCode_blockBytes, productFexp, add_comm]
    rfl
  obtain ⟨hle, k, hk, hmax⟩ := fold_isGreatest v
  set M := maxWith 1 (maxWith 2 (maxWith 4 (maxWith 8 (maxWith 16 v)))) 0 with hM
  have hdef : fc2BlockMaxFexp (blockBytes nib b) (prepareY q sbytes).toYPrep b sc =
      if M < -500 then intMin else M + sc := rfl
  rw [hdef]
  rcases productFexp_cases nib q b k with ⟨-, h⟩ | ⟨h0, h, -⟩
  · rw [← hval k hk, ← hmax] at h
    refine .inl ⟨fun j hj => ?_, if_pos (by omega)⟩
    rcases productFexp_cases nib q b j with ⟨h0, -⟩ | ⟨-, h', -⟩
    · exact h0
    · have := hle j hj
      rw [hval j hj] at this
      omega
  · rw [← hval k hk, ← hmax] at h
    rw [if_neg (by omega)]
    refine .inr ⟨k, hk, h0, by rw [hmax, hval k hk], fun j hj _ => ?_⟩
    have := hle j hj
    rw [hval j hj] at this
    omega

end Exponents

/-! ### Truncation -/

theorem f32Exp_of_zero {a : BitVec 32} (h : magnitude a = 0) : f32Exp a = intMin := by
  simp [f32Exp, h]

theorem f32Exp_of_normal {a : BitVec 32} (h : exponent a ≠ 0) :
    f32Exp a = (exponent a : ℤ) - 127 := by
  have hm : magnitude a ≠ 0 := by
    intro hm
    exact h (by simp [exponent, hm])
  rw [f32Exp_eq_log hm, log_absVal_of_normal h]

/-- Truncating a normal number clears the low bits of its significand. -/
theorem truncBelow_normal {a : BitVec 32} (h : exponent a ≠ 0) {cut : ℤ} {s : ℕ}
    (hs : cut = f32Exp a - 23 + s) (hpos : 0 < s) (hlt : s < 24) :
    truncBelow a cut = ofMagnitude (negative a)
        ((exponent a - 1) * 8388608 + significand a / 2 ^ s * 2 ^ s) ∧
      8388608 ≤ significand a / 2 ^ s * 2 ^ s ∧ significand a / 2 ^ s * 2 ^ s < 16777216 := by
  obtain ⟨ha, hlow, hhigh⟩ := eq_normal h
  have hexp : exponent a < 256 := by
    rw [exponent_eq, magnitude_eq]
    omega
  have hm : magnitude a ≠ 0 := by
    intro hm
    exact h (by simp [exponent, hm])
  have hshift : cut - (f32Exp a - 23) = s := by omega
  obtain ⟨c, hc⟩ : 2 ^ s ∣ 8388608 := pow_dvd_pow 2 (show s ≤ 23 by omega)
  have hp : 0 < 2 ^ s := Nat.two_pow_pos s
  have hfloor : 8388608 ≤ significand a / 2 ^ s * 2 ^ s := by
    have hmul : 2 ^ s * c / 2 ^ s * 2 ^ s = 8388608 := by
      rw [Nat.mul_div_cancel_left _ hp, Nat.mul_comm, hc]
    calc 8388608 = 2 ^ s * c / 2 ^ s * 2 ^ s := hmul.symm
      _ ≤ significand a / 2 ^ s * 2 ^ s :=
        Nat.mul_le_mul_right _ (Nat.div_le_div_right (by omega))
  have hle : significand a / 2 ^ s * 2 ^ s ≤ significand a := Nat.div_mul_le_self _ _
  refine ⟨?_, hfloor, by omega⟩
  rw [truncBelow, if_neg hm]
  simp only [hshift]
  rw [if_neg (by omega), if_neg (by omega), Int.toNat_natCast]
  refine BitVec.eq_of_toNat_eq ?_
  -- the bits above the significand are multiples of `2 ^ s`
  have hsplit : a.toNat = 2 ^ s * (((if negative a then 256 else 0) + (exponent a - 1)) * c) +
      significand a := by
    have hlt : (exponent a - 1) * 8388608 + significand a < 2147483648 := by omega
    have ha' := congrArg BitVec.toNat ha
    rw [toNat_ofMagnitude hlt] at ha'
    rw [ha', ← Nat.mul_assoc, Nat.mul_comm (2 ^ s), Nat.mul_assoc, ← hc]
    split_ifs <;> omega
  have hdiv : a.toNat / 2 ^ s * 2 ^ s =
      2 ^ s * (((if negative a then 256 else 0) + (exponent a - 1)) * c) +
        significand a / 2 ^ s * 2 ^ s := by
    rw [hsplit, Nat.mul_add_div hp, Nat.add_mul]
    ring
  have hword : a.toNat / 2 ^ s * 2 ^ s < 4294967296 :=
    (Nat.div_mul_le_self _ _).trans_lt a.isLt
  rw [BitVec.toNat_shiftLeft, BitVec.toNat_ushiftRight, Nat.shiftLeft_eq,
    Nat.shiftRight_eq_div_pow, Nat.mod_eq_of_lt hword, hdiv, toNat_ofMagnitude (by omega),
    ← Nat.mul_assoc, Nat.mul_comm (2 ^ s), Nat.mul_assoc, ← hc]
  split_ifs <;> omega

/-- If nothing lies below the cut, nothing is lost. -/
theorem truncBelow_of_le {a : BitVec 32} {cut : ℤ} (h : cut ≤ f32Exp a - 23) :
    truncBelow a cut = a := by
  rw [truncBelow]
  dsimp only
  rw [if_pos (show cut - (f32Exp a - 23) ≤ 0 by omega), ite_self]

theorem val_of_zero {a : BitVec 32} (h : magnitude a = 0) : val a = 0 := by
  simp [val, absVal_eq_zero.mpr h]

/-- What is left is a multiple of the cut. -/
theorem val_truncBelow {a : BitVec 32} (ha : ZeroOrNormal a) (cut : ℤ)
    (hcut : f32Exp a ≤ cut + 25) :
    ∃ n : ℤ, val (truncBelow a cut) = n * 2 ^ cut ∧ |n| < 67108864 := by
  rcases ha with h0 | ⟨h, h255⟩
  · exact ⟨0, by rw [truncBelow, if_pos h0, val_of_zero h0]; simp, by simp⟩
  · obtain ⟨ha, hlow, hhigh⟩ := eq_normal h
    have hm : magnitude a ≠ 0 := by
      intro hm
      exact h (by simp [exponent, hm])
    have hexp := f32Exp_of_normal h
    have hfield : exponent a < 255 := by
      have : exponent a < 256 := by
        rw [exponent_eq, magnitude_eq]
        omega
      omega
    have hk : ((exponent a - 1 : ℕ) : ℤ) - 149 = f32Exp a - 23 := by omega
    rcases le_or_gt cut (f32Exp a - 23) with hle | hgt
    · -- everything lies above the cut
      obtain ⟨j, hj⟩ : ∃ j : ℕ, f32Exp a - 23 = cut + j := ⟨(f32Exp a - 23 - cut).toNat, by omega⟩
      have hj2 : j ≤ 2 := by omega
      have hpow : 2 ^ j ≤ 4 := Nat.pow_le_pow_right Nat.two_pos hj2
      have hbound : significand a * 2 ^ j < 67108864 :=
        (Nat.mul_le_mul_left _ hpow).trans_lt (by omega)
      refine ⟨(if negative a then -1 else 1) * (significand a * 2 ^ j : ℕ), ?_, ?_⟩
      · rw [truncBelow_of_le hle]
        nth_rewrite 1 [ha]
        rw [val_normal (by omega) hlow hhigh, hk, hj, zpow_add₀ two_ne_zero, zpow_natCast]
        push_cast
        ring
      · rw [abs_lt]
        split_ifs <;> omega
    · rcases Nat.lt_or_ge (cut - (f32Exp a - 23)).toNat 24 with hlt | hge
      · set s := (cut - (f32Exp a - 23)).toNat with hs
        have hcs : cut = f32Exp a - 23 + s := by omega
        obtain ⟨heq, hlow', hhigh'⟩ := truncBelow_normal h hcs (by omega) hlt
        have hdiv : significand a / 2 ^ s ≤ significand a := Nat.div_le_self _ _
        generalize significand a / 2 ^ s = d at heq hlow' hhigh' hdiv
        refine ⟨(if negative a then -1 else 1) * (d : ℕ), ?_, ?_⟩
        · rw [heq, val_normal (by omega) hlow' hhigh', hk, hcs, zpow_add₀ two_ne_zero, zpow_natCast]
          push_cast
          ring
        · rw [abs_lt]
          split_ifs <;> omega
      · refine ⟨0, ?_, by simp⟩
        rw [truncBelow, if_neg hm]
        dsimp only
        rw [if_neg (by omega), if_pos (by omega), val_of_zero rfl]
        simp

/-- A truncated product is a multiple of the bits that are left, and no larger than the product. -/
theorem truncProduct_eq (p : ℤ) (cnt : ℕ) :
    ∃ n : ℤ, truncProduct p cnt = n * 2 ^ cnt ∧ |truncProduct p cnt| ≤ p.natAbs := by
  have hle : (p.natAbs >>> cnt) <<< cnt ≤ p.natAbs := by
    rw [Nat.shiftLeft_eq, Nat.shiftRight_eq_div_pow]
    exact Nat.div_mul_le_self _ _
  rw [truncProduct]
  rcases lt_or_ge p 0 with hp | hp
  · refine ⟨-(p.natAbs >>> cnt : ℕ), ?_, ?_⟩
    · rw [if_pos hp, Nat.shiftLeft_eq]
      push_cast
      ring
    · rw [if_pos hp, abs_neg, Nat.abs_cast]
      exact_mod_cast hle
  · refine ⟨(p.natAbs >>> cnt : ℕ), ?_, ?_⟩
    · rw [if_neg hp.not_gt, Nat.shiftLeft_eq]
      push_cast
      rfl
    · rw [if_neg hp.not_gt, Nat.abs_cast]
      exact_mod_cast hle

@[simp] theorem truncProduct_zero (cnt : ℕ) : truncProduct 0 cnt = 0 := by
  simp [truncProduct]

/-- With no bits to drop it is the product. -/
@[simp] theorem truncProduct_of_none (p : ℤ) : truncProduct p 0 = p := by
  simp only [truncProduct, Nat.shiftRight_zero, Nat.shiftLeft_zero]
  split_ifs <;> omega

/-! ### The alignment -/

section Align

variable (acc4 : Fin 4 → BitVec 32) (nib : Fin 4 → ℕ → UInt8) (q sbytes : ℕ → UInt8) (b : ℕ)
  (sb4 : Fin 4 → UInt8) (general : ℕ) (r : Fin 4)

theorem not_subnormal {a : BitVec 32} (ha : ZeroOrNormal a) : ¬ Subnormal a :=
  fun h => ha.elim h.2 fun h' => h'.1 h.1

/-- The bound of the vector code is one: no product has a larger exponent. -/
theorem topRef_le (a : BitVec 32) (sc : ℤ) : topRef a (nib r) q b sc ≤
    max (f32Exp a) ((prepareY q sbytes).eaMax b + 2 + sc) := by
  rcases topRef_cases (nib r) q b a sc with h | ⟨k, hk, h0, h⟩
  · rw [h]
    exact le_max_left _ _
  · rcases productFexp_cases (nib r) q b k with ⟨hz, -⟩ | ⟨-, -, -, hle⟩
    · exact absurd hz h0
    · have hea := e4m3Fexp_le_eaMax q b sbytes hk
      rw [h]
      exact le_max_of_le_right (by omega)

/-- A lane drops the bits of its products that lie below the cut. -/
theorem align_q4 (ha : ZeroOrNormal (acc4 r)) {k : ℕ} (hk : k < 32)
    (h0 : product (nib r) q b k ≠ 0) :
    ((alignStep4 acc4 (fun i => blockBytes (nib i) b) (prepareY q sbytes).toYPrep b sb4
      general).q4 r).toNat =
      (topRef (acc4 r) (nib r) q b (scaleExp (sbytes b) (sb4 r)) - 25 -
        (scaleExp (sbytes b) (sb4 r) - 10)).toNat := by
  have hea := eaMax_le q b sbytes
  have hle := topRef_le nib q sbytes b r (acc4 r) (scaleExp (sbytes b) (sb4 r))
  have hge := f32Exp_le_topRef (nib r) q b (acc4 r) (scaleExp (sbytes b) (sb4 r))
  rw [alignStep4_q4, lane_of_normal (not_subnormal ha), qRule_eq]
  change (if _ ∧ (prepareY q sbytes).eaMax b + 2 + scaleExp (sbytes b) (sb4 r) ≤ _ then
    max (f32Exp (acc4 r) - scaleExp (sbytes b) (sb4 r) - 15) 0 else 0).toNat = _
  rcases eq_or_ne (magnitude (acc4 r)) 0 with hz | hz
  · have hmin := f32Exp_of_zero hz
    have hk' := productFexp_le_topRef (nib r) q b (acc4 r) (scaleExp (sbytes b) (sb4 r)) hk h0
    have hsc : -254 ≤ scaleExp (sbytes b) (sb4 r) := by
      rw [scaleExp]
      omega
    have hfe : -6 ≤ productFexp (nib r) q b k := by
      rcases productFexp_cases (nib r) q b k with ⟨h, -⟩ | ⟨-, h, -⟩
      · exact absurd h h0
      · exact h
    rw [hmin, intMin] at hle
    simp only [hz, ne_eq, not_true_eq_false, false_and, if_false]
    omega
  · simp only [hz, ne_eq, not_false_eq_true, true_and]
    split_ifs <;> omega

/-- And its accumulator loses those below the cut. -/
theorem align_accT (ha : ZeroOrNormal (acc4 r)) :
    (alignStep4 acc4 (fun i => blockBytes (nib i) b) (prepareY q sbytes).toYPrep b sb4
      general).accT r =
      truncBelow (acc4 r) (topRef (acc4 r) (nib r) q b (scaleExp (sbytes b) (sb4 r)) - 25) := by
  have hsa : (prepareY q sbytes).sa b = sbytes b := rfl
  rw [alignStep4_accT, hsa]
  set a := acc4 r
  set sc := scaleExp (sbytes b) (sb4 r)
  rcases eq_or_ne (magnitude a) 0 with hz | hz
  · have hT : truncBelow a (topRef a (nib r) q b sc - 25) = a := by
      rw [truncBelow, if_pos hz]
    rw [hT, scalarAcc]
    simp [hz]
  · have hle := topRef_le nib q sbytes b r a sc
    have hge := f32Exp_le_topRef (nib r) q b a sc
    have hv := vecExp_eq hz (not_subnormal ha)
    have hexp : exponent a ≠ 0 := fun h => not_subnormal ha ⟨h, hz⟩
    have lane4_valite : ¬ f32Exp a + 2 < intMin := by
      rw [f32Exp_of_normal hexp, intMin]
      omega
    have hslow : slow a sc ((prepareY q sbytes).eaMax b) = true ↔
        f32Exp a + 2 < (prepareY q sbytes).eaMax b + 2 + sc := by
      have he : ¬ (magnitude a >>> 23 : ℕ) = 0 := hexp
      simp [slow, rare, denorm, fast, hv, hz, he]
      omega
    set M := fc2BlockMaxFexp (blockBytes (nib r) b) (prepareY q sbytes).toYPrep b sc with hM
    -- the block's own maximum counts only where it lies above the accumulator
    have hlow : M ≤ f32Exp a + 2 → topRef a (nib r) q b sc ≤ f32Exp a + 2 := by
      intro h
      rcases topRef_cases (nib r) q b a sc with hT | ⟨k, hk, h0, hT⟩
      · omega
      · rcases fc2BlockMaxFexp_cases (nib r) q b sbytes sc with ⟨hall, -⟩ | ⟨j, -, -, -, hmax⟩
        · exact absurd (hall k hk) h0
        · exact hT ▸ (hmax k hk h0).trans h
    have hhigh : f32Exp a + 2 < M → topRef a (nib r) q b sc = M := by
      intro h
      rcases fc2BlockMaxFexp_cases (nib r) q b sbytes sc with ⟨-, hmin⟩ | ⟨j, hj, hj0, hjM, hmax⟩
      · exact absurd (hmin ▸ h) lane4_valite
      · have hj' := productFexp_le_topRef (nib r) q b a sc hj hj0
        rcases topRef_cases (nib r) q b a sc with hT | ⟨k, hk, h0, hT⟩
        · omega
        · have := hmax k hk h0
          omega
    have hMle : f32Exp a + 2 < M → M ≤ (prepareY q sbytes).eaMax b + 2 + sc := by
      intro h
      have hT := hhigh h
      omega
    rw [scalarAcc]
    by_cases h : f32Exp a + 2 < M
    · have := hMle h
      rw [if_pos (hslow.mpr (by omega)), if_pos ⟨hz, by omega, by omega, h⟩, hhigh h]
    · have hT := hlow (not_lt.mp h)
      rw [truncBelow_of_le (show topRef a (nib r) q b sc - 25 ≤ f32Exp a - 23 by omega), ite_eq_right_iff]
      intro _
      exact if_neg fun hc => h hc.2.2.2

end Align

/-! ### The dots -/

/-- The lane of a product that fits in 31 bits. -/
theorem truncLane_toInt {p : BitVec 32} {z : ℤ} (hp : p.toInt = z) (hz : z.natAbs < 2147483648)
    (cnt : ℕ) : (truncLane p cnt).toInt = truncProduct z cnt := by
  have hne : p ≠ BitVec.intMin 32 := by
    rintro rfl
    have hmin : (BitVec.intMin 32).toInt = -2147483648 := rfl
    omega
  have habs : p.abs.toNat = z.natAbs := by
    have h := BitVec.toInt_abs_eq_natAbs_of_ne_intMin hne
    rw [hp, BitVec.toInt_eq_toNat_cond] at h
    split_ifs at h <;> omega
  have hle : (z.natAbs >>> cnt) <<< cnt ≤ z.natAbs := by
    rw [Nat.shiftLeft_eq, Nat.shiftRight_eq_div_pow]
    exact Nat.div_mul_le_self _ _
  set t := (p.abs >>> cnt) <<< cnt with ht
  have hnat : t.toNat = (z.natAbs >>> cnt) <<< cnt := by
    rw [ht, BitVec.toNat_shiftLeft, BitVec.toNat_ushiftRight, habs]
    exact Nat.mod_eq_of_lt (by omega)
  have htrunc : truncProduct z cnt =
      if z < 0 then -(((z.natAbs >>> cnt) <<< cnt : ℕ) : ℤ)
      else (((z.natAbs >>> cnt) <<< cnt : ℕ) : ℤ) := rfl
  rw [htrunc]
  generalize (z.natAbs >>> cnt) <<< cnt = n at hle hnat
  have hint : t.toInt = n := by
    rw [BitVec.toInt_eq_toNat_of_lt (by omega), hnat]
  have hneg : p.slt 0#32 = decide (z < 0) := by
    rw [BitVec.slt_eq_decide, hp]
    rfl
  rw [truncLane, ← ht, hneg]
  rcases lt_or_ge z 0 with h | h
  · simp only [h, decide_true, if_true]
    rw [BitVec.toInt_sub, hint]
    refine (Int.bmod_eq_of_le ?_ ?_).trans (by simp) <;> simp <;> omega
  · simp only [h.not_gt, decide_false, Bool.false_eq_true, if_false]
    exact hint

theorem abs_truncProduct_le (nib q : ℕ → UInt8) (b k cnt : ℕ) :
    |truncProduct (product nib q b k) cnt| ≤ 2949120 := by
  obtain ⟨-, -, h⟩ := truncProduct_eq (product nib q b k) cnt
  exact h.trans (by exact_mod_cast natAbs_product_le nib q b k)

section Dots

variable (nib q sbytes : ℕ → UInt8) (b : ℕ)

/-- The lane of a product, before truncation. -/
theorem productLane_toInt {k : ℕ} (hk : k < 32) :
    ((decodeBlockUnits (blockBytes nib b) k).signExtend 32 *
      (prepareY q sbytes).x32 (b * 32 + k)).toInt = product nib q b k := by
  have hle := natAbs_product_le nib q b k
  have hext : (decodeBlockUnits (blockBytes nib b) k).signExtend 32 =
      BitVec.ofInt 32 (decodeBlockUnits (blockBytes nib b) k).toInt := rfl
  have hx : (prepareY q sbytes).x32 (b * 32 + k) =
      BitVec.ofInt 32 (e4m3Units (q (b * 32 + k))) := rfl
  have hprod : e2m1Units (nibCode nib (b * 32 + k)) * e4m3Units (q (b * 32 + k)) =
      product nib q b k := mul_comm _ _
  rw [hext, hx, ← BitVec.ofInt_mul, decodeBlockUnits_toInt _ hk, nibCode_blockBytes, hprod]
  exact toInt_ofInt_of_abs (B := 2949120) (abs_le.mpr (by omega)) (by omega)

/-- The lanes of the truncating path make up the sum of the truncated products. -/
theorem sum_truncLanes (cnt : ℕ) :
    ∑ j ∈ Finset.range 16, (truncLanes (decodeBlockUnits (blockBytes nib b))
      (fun k => (prepareY q sbytes).x32 (b * 32 + k)) cnt j).toInt =
      ∑ k ∈ Finset.range 32, truncProduct (product nib q b k) cnt := by
  have hlane (k : ℕ) (hk : k < 32) := truncLane_toInt (productLane_toInt nib q sbytes b hk)
    ((natAbs_product_le nib q b k).trans_lt (by omega)) cnt
  refine Eq.trans ?_
    (Finset.sum_range_add (fun k => truncProduct (product nib q b k) cnt) 16 16).symm
  rw [← Finset.sum_add_distrib]
  refine Finset.sum_congr rfl fun j hj => ?_
  have hj := Finset.mem_range.mp hj
  have h1 := abs_le.mp (abs_truncProduct_le nib q b j cnt)
  have h2 := abs_le.mp (abs_truncProduct_le nib q b (16 + j) cnt)
  rw [truncLanes, BitVec.toInt_add, hlane j (by omega), hlane (16 + j) (by omega)]
  exact Int.bmod_eq_of_le (by omega) (by omega)

/-- Those of the plain dot make up the sum of the products. -/
theorem sum_exactLanes :
    ∑ j ∈ Finset.range 16, exactLanes (ints (decodeBlockUnits (blockBytes nib b)))
      (ints fun k => (prepareY q sbytes).hi (b * 32 + k))
      (ints fun k => (prepareY q sbytes).lo (b * 32 + k)) j =
      ∑ k ∈ Finset.range 32, product nib q b k := by
  simp only [exactLanes, Finset.sum_add_distrib, ← Finset.sum_mul, sum_pairDot]
  rw [Finset.sum_mul, ← Finset.sum_add_distrib]
  refine Finset.sum_congr rfl fun k hk => ?_
  have hunits : ((prepareY q sbytes).hi (b * 32 + k)).toInt * 512 +
      ((prepareY q sbytes).lo (b * 32 + k)).toInt = e4m3Units (q (b * 32 + k)) :=
    (prepareX_toInt q sbytes (b * 32 + k)).2.2
  rw [product, ← hunits, ints, decodeBlockUnits_toInt _ (Finset.mem_range.mp hk),
    nibCode_blockBytes, ints, ints]
  ring

end Dots

/-! ### The step -/

theorem abs_sum_truncProduct_le (nib q : ℕ → UInt8) (b cnt : ℕ) :
    |∑ k ∈ Finset.range 32, truncProduct (product nib q b k) cnt| ≤ 94371840 := by
  refine (Finset.abs_sum_le_sum_abs _ _).trans ((Finset.sum_le_card_nsmul _ _ 2949120
    fun k _ => abs_truncProduct_le nib q b k cnt).trans ?_)
  rw [Finset.card_range]
  decide

theorem abs_truncated_le (a : BitVec 32) (nib q : ℕ → UInt8) (b : ℕ) (sc : ℤ) (k : ℕ) :
    |truncated a nib q b sc k| ≤ 2949120 := abs_truncProduct_le nib q b k _

theorem abs_sum_truncated_le (a : BitVec 32) (nib q : ℕ → UInt8) (b : ℕ) (sc : ℤ) :
    |∑ k ∈ Finset.range 32, truncated a nib q b sc k| ≤ 94371840 := abs_sum_truncProduct_le nib q b _

section Step

variable (acc4 : Fin 4 → BitVec 32) (nib : Fin 4 → ℕ → UInt8) (q sbytes : ℕ → UInt8) (b : ℕ)
  (sb4 : Fin 4 → UInt8) (general q0 : ℕ) (r : Fin 4)

/-- On either path a lane's dot is the sum of its products, truncated by its own count: the plain
dot is taken only if all counts are zero. -/
theorem reduce4_stepLanes (A : Align) :
    (reduce4 (stepLanes A (fun i => blockBytes (nib i) b) (prepareY q sbytes) b) r).toInt =
      ∑ k ∈ Finset.range 32, truncProduct (product (nib r) q b k) (A.q4 r).toNat := by
  have hbound : |∑ k ∈ Finset.range 32, truncProduct (product (nib r) q b k) (A.q4 r).toNat| ≤
      94371840 :=
    abs_sum_truncProduct_le (nib r) q b _
  -- up to wrapping the lanes are integers, and these make up the sum
  obtain ⟨z, hz, hsum⟩ : ∃ z : ℕ → ℕ → ℤ,
      stepLanes A (fun i => blockBytes (nib i) b) (prepareY q sbytes) b =
        (fun i l => BitVec.ofInt 32 (z i l)) ∧
      ∑ l ∈ Finset.range 16, z r l =
        ∑ k ∈ Finset.range 32, truncProduct (product (nib r) q b k) (A.q4 r).toNat := by
    by_cases hall : ∀ i, A.q4 i = 0
    · refine ⟨fun i => exactLanes (ints (decodeBlockUnits (blockBytes (nib (lane4 i)) b)))
        (ints fun k => (prepareY q sbytes).hi (b * 32 + k))
        (ints fun k => (prepareY q sbytes).lo (b * 32 + k)), ?_, ?_⟩
      · funext i l
        rw [stepLanes]
        dsimp only
        rw [if_pos hall]
        exact dotLanes_eq _ _ _ l
      · dsimp only
        rw [lane4_val, sum_exactLanes, hall r]
        refine Finset.sum_congr rfl fun k _ => ?_
        rw [Int.toNat_zero, truncProduct_of_none]
    · refine ⟨fun i l => (stepLanes A (fun i => blockBytes (nib i) b) (prepareY q sbytes) b i
        l).toInt, by simp, ?_⟩
      have hcap : (min (A.q4 r) 31).toNat = min (A.q4 r).toNat 31 := by omega
      simp only [stepLanes, if_neg hall, lane4_val, hcap]
      rw [sum_truncLanes]
      refine Finset.sum_congr rfl fun k _ => ?_
      have hle := natAbs_product_le (nib r) q b k
      exact truncProduct_cap (by omega) _
  rw [hz, map_reduce4 BitVec.ofInt_add, reduce4_eq_sum _ r.isLt, hsum]
  exact toInt_ofInt_of_abs hbound (by omega)

/-- For a zero or normal accumulator that is the truncation at the cut. -/
theorem reduce4_toInt (ha : ZeroOrNormal (acc4 r)) :
    (reduce4 (stepLanes (alignStep4 acc4 (fun i => blockBytes (nib i) b)
      (prepareY q sbytes).toYPrep b sb4 general) (fun i => blockBytes (nib i) b)
      (prepareY q sbytes) b) r).toInt =
      ∑ k ∈ Finset.range 32, truncated (acc4 r) (nib r) q b (scaleExp (sbytes b) (sb4 r)) k := by
  rw [reduce4_stepLanes]
  refine Finset.sum_congr rfl fun k hk => ?_
  rcases eq_or_ne (product (nib r) q b k) 0 with h0 | h0
  · rw [truncated, h0, truncProduct_zero, truncProduct_zero]
  · rw [truncated, align_q4 acc4 nib q sbytes b sb4 general r ha (Finset.mem_range.mp hk) h0]

/-- The exact sum is an integer of 49 bits at the cut. -/
theorem fc2Sum_eq {a : BitVec 32} (ha : ZeroOrNormal a) {nib q : ℕ → UInt8} {b k : ℕ} (sc : ℤ)
    (hk : k < 32) (h0 : product nib q b k ≠ 0) :
    ∃ n : ℤ, fc2Sum a nib q b sc = n * 2 ^ (topRef a nib q b sc - 25) ∧ |n| < 2 ^ 49 := by
  have hge := f32Exp_le_topRef nib q b a sc
  have hfe := productFexp_le_topRef nib q b a sc hk h0
  have hlow : -6 ≤ productFexp nib q b k := by
    rcases productFexp_cases nib q b k with ⟨h, -⟩ | ⟨-, h, -⟩
    · exact absurd h h0
    · exact h
  have hsum := abs_le.mp (abs_sum_truncated_le a nib q b sc)
  obtain ⟨n, hn, hnlt⟩ := val_truncBelow ha (topRef a nib q b sc - 25) (by omega)
  have hnlt := abs_lt.mp hnlt
  rw [fc2Sum, hn]
  rcases le_total 0 (topRef a nib q b sc - 25 - (sc - 10)) with hD | hD
  · -- the products are multiples of the cut
    set s := (topRef a nib q b sc - 25 - (sc - 10)).toNat with hs
    obtain ⟨m, hm⟩ : ∃ m : ℤ, ∑ j ∈ Finset.range 32, truncated a nib q b sc j = m * 2 ^ s := by
      choose f hf using fun j => truncProduct_eq (product nib q b j) s
      refine ⟨∑ j ∈ Finset.range 32, f j, ?_⟩
      rw [Finset.sum_mul]
      exact Finset.sum_congr rfl fun j _ => (hf j).1
    have hcut : topRef a nib q b sc - 25 = s + (sc - 10) := by omega
    have hpos : (0 : ℤ) < 2 ^ s := by positivity
    have hmabs : |m| ≤ 94371840 := by
      have : |m| ≤ |m * 2 ^ s| := by
        rw [abs_mul, abs_of_pos hpos]
        exact le_mul_of_one_le_right (abs_nonneg m) hpos
      rw [← hm] at this
      exact this.trans (abs_sum_truncated_le a nib q b sc)
    have hmabs := abs_le.mp hmabs
    refine ⟨m + n, ?_, ?_⟩
    · rw [hm, hcut, zpow_add₀ two_ne_zero, zpow_natCast]
      push_cast
      ring
    · rw [abs_lt]
      omega
  · -- the cut lies at most 21 bits below them
    obtain ⟨j, hj⟩ : ∃ j : ℕ, sc - 10 = topRef a nib q b sc - 25 + j :=
      ⟨(sc - 10 - (topRef a nib q b sc - 25)).toNat, by omega⟩
    have hpow : (2 : ℤ) ^ j ≤ 2 ^ 21 := pow_le_pow_right₀ (by omega) (by omega)
    have hpos : (0 : ℤ) < 2 ^ j := by positivity
    refine ⟨(∑ i ∈ Finset.range 32, truncated a nib q b sc i) * 2 ^ j + n, ?_, ?_⟩
    · rw [hj, zpow_add₀ two_ne_zero, zpow_natCast]
      push_cast
      ring
    · have hmul : |(∑ i ∈ Finset.range 32, truncated a nib q b sc i) * 2 ^ j| ≤
          94371840 * 2 ^ 21 := by
        rw [abs_mul, abs_of_pos hpos]
        exact mul_le_mul (abs_sum_truncated_le a nib q b sc) hpow hpos.le (by omega)
      have hmul := abs_le.mp hmul
      rw [abs_lt]
      omega

/-- With no product there is only the accumulator. -/
theorem fc2Sum_of_zero {nib q : ℕ → UInt8} {b : ℕ} (h : ∀ k < 32, product nib q b k = 0)
    (a : BitVec 32) (sc : ℤ) : fc2Sum a nib q b sc = val a ∧ topRef a nib q b sc = f32Exp a := by
  have hT : topRef a nib q b sc = f32Exp a := by
    rcases topRef_cases nib q b a sc with hT | ⟨k, hk, h0, -⟩
    · exact hT
    · exact absurd (h k hk) h0
  refine ⟨?_, hT⟩
  have hsum : ∑ k ∈ Finset.range 32, truncated a nib q b sc k = 0 := by
    refine Finset.sum_eq_zero fun k hk => ?_
    rw [truncated, h k (Finset.mem_range.mp hk), truncProduct_zero]
  rw [fc2Sum, hsum, hT, truncBelow_of_le (by omega)]
  simp

/-- So it fits in 53 bits. -/
theorem fc2Sum_fits {a : BitVec 32} (ha : ZeroOrNormal a) (nib q : ℕ → UInt8) (b : ℕ) {sc : ℤ}
    (hsc : -254 ≤ sc) :
    ∃ (N : ℕ) (E : ℤ), N < 2 ^ 53 ∧ -1074 ≤ E ∧ |fc2Sum a nib q b sc| = N * 2 ^ E := by
  by_cases h : ∃ k < 32, product nib q b k ≠ 0
  · obtain ⟨k, hk, h0⟩ := h
    obtain ⟨n, hn, hlt⟩ := fc2Sum_eq ha sc hk h0
    have hfe := productFexp_le_topRef nib q b a sc hk h0
    have hlow : -6 ≤ productFexp nib q b k := by
      rcases productFexp_cases nib q b k with ⟨h, -⟩ | ⟨-, h, -⟩
      · exact absurd h h0
      · exact h
    refine ⟨n.natAbs, topRef a nib q b sc - 25, ?_, by omega, ?_⟩
    · have := abs_lt.mp hlt
      omega
    · rw [hn, abs_mul, abs_of_pos (zpow_pos (two_pos (α := ℚ)) _), Nat.cast_natAbs, Int.cast_abs]
  · have h (k : ℕ) (hk : k < 32) : product nib q b k = 0 := by
      by_contra h0
      exact h ⟨k, hk, h0⟩
    obtain ⟨hS, -⟩ := fc2Sum_of_zero h a sc
    have hval : |val a| = significand a * 2 ^ scale a := by
      rw [val, absVal]
      split_ifs <;> simp [abs_of_pos (zpow_pos (two_pos (α := ℚ)) (scale a))]
    refine ⟨significand a, scale a, ?_, ?_, by rw [hS, hval]⟩
    · have := fraction_lt a
      rw [significand]
      split_ifs <;> omega
    · rw [scale]
      split_ifs <;> omega

/-- The sum in doubles is exact, and truncated to fp32; a sum of zero is a positive zero. -/
theorem fc2Total_eq {dot accT : BitVec 32} {sc : ℤ} {S : ℚ}
    (hS : (dot.toInt : ℚ) * 2 ^ (sc - 10) + val accT = S) (hrange : NormalRange S)
    (hfits : ∃ (N : ℕ) (E : ℤ), N < 2 ^ 53 ∧ -1074 ≤ E ∧ |S| = N * 2 ^ E) :
    fc2Total dot sc accT = if S = 0 then 0#32 else towardZero S := by
  obtain ⟨N, E, hN, hE, habs⟩ := hfits
  have hval : (Binary64.ofInt dot.toInt).value * (Binary64.ofExponentField (sc + 1013)).value +
      (Binary64.ofBinary32 accT).value = S := by
    have hexp : sc + 1013 - 1023 = sc - 10 := by ring
    rw [Binary64.value_ofInt, Binary64.value_ofExponentField, Binary64.value_ofBinary32, hexp, hS]
  rw [fc2Total]
  split_ifs with h0
  · rw [h0] at hval hS
    rw [Binary64.toBinary32_fma_of_zero hval]
    -- two negative addends have no sum of zero
    have hsign : (((Binary64.ofInt dot.toInt).neg ^^ (Binary64.ofExponentField (sc + 1013)).neg) &&
        (Binary64.ofBinary32 accT).neg) = false := by
      by_contra h
      have h : dot.toInt < 0 ∧ negative accT = true := by
        simpa [Binary64.ofInt, Binary64.ofExponentField, Binary64.ofBinary32] using h
      have hdot : (dot.toInt : ℚ) * 2 ^ (sc - 10) < 0 :=
        mul_neg_of_neg_of_pos (Int.cast_lt_zero.mpr h.1) (zpow_pos two_pos _)
      have hacc : val accT ≤ 0 := by
        rw [val, if_pos h.2, absVal]
        exact neg_nonpos.mpr (mul_nonneg (Nat.cast_nonneg _) (zpow_pos two_pos _).le)
      linarith
    rw [hsign]
    rfl
  · have hfma := Binary64.value_fma hN hE (hval ▸ habs)
    rw [hval] at hfma
    obtain ⟨hlow, hhigh⟩ := hrange.log h0
    rw [Binary64.toBinary32_eq (by rwa [hfma]) (by rwa [hfma]) (by rwa [hfma]), hfma]

/-- **A block step of FC2.** Whatever the other lanes hold, a lane whose accumulator is zero or
normal becomes the exact sum of the truncated addends, truncated to fp32. -/
theorem fc2Step4_acc (ha : ZeroOrNormal (acc4 r))
    (hS : NormalRange (fc2Sum (acc4 r) (nib r) q b (scaleExp (sbytes b) (sb4 r)))) :
    (fc2Step4 acc4 (fun i => blockBytes (nib i) b) (prepareY q sbytes) b sb4 general q0).acc r =
      if fc2Sum (acc4 r) (nib r) q b (scaleExp (sbytes b) (sb4 r)) = 0 then 0#32
      else towardZero (fc2Sum (acc4 r) (nib r) q b (scaleExp (sbytes b) (sb4 r))) := by
  have hsc : -254 ≤ scaleExp (sbytes b) (sb4 r) := by
    rw [scaleExp]
    omega
  refine fc2Total_eq ?_ hS (fc2Sum_fits ha (nib r) q b hsc)
  rw [fc2Sum, reduce4_toInt acc4 nib q sbytes b sb4 general r ha]
  exact congrArg (fun x => _ + val x) (align_accT acc4 nib q sbytes b sb4 general r ha)

end Step

end CpuMoe

end VllmMoet
