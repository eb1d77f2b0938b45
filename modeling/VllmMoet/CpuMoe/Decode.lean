import VllmMoet.Lib.Lanes

/-!
# The codes of the CPU kernel

The tables of `cpu_moe_b12x.cpp` for the e4m3 and e2m1 codes, and the vector code that decodes a
block: 16 bytes of nibbles to 32 lanes.

* `e4m3Units`, `e4m3Fexp`, `e2m1Units`, `e2m1Fexp`: the tables, as integers;
* `nibCode`: the code of a nibble, as the scalar reference reads it;
* `decodeBlockCodes_toNat`, `decodeBlockUnits_toInt`: lane `k` is nibble `k`, in code and in units.
-/

namespace VllmMoet

namespace CpuMoe

open Lanes

/-! ### The tables -/

/-- `g_e4m3_units`: the value in units of `2^-9`. -/
def e4m3Units (c : UInt8) : ℤ :=
  let E := c.toNat >>> 3 % 16
  let M := c.toNat % 8
  let units : ℕ := if E = 0 then M else (8 + M) <<< (E - 1)
  if c.toNat >>> 7 = 1 then -units else units

/-- `e2m1_units`: the value in units of `2^-1`. -/
def e2m1Units (c : ℕ) : ℤ :=
  let E := c >>> 1 % 4
  let M := c % 2
  let u : ℕ := if E = 0 then M else (2 + M) <<< (E - 1)
  if c >>> 3 = 0 then u else -u

/-- `g_e2m1_fexp`: the field exponent. -/
def e2m1Fexp (c : ℕ) : ℤ :=
  let E := c >>> 1 % 4
  if E = 0 ∧ c % 2 = 0 then -1000 else (if E = 0 then 1 else (E : ℤ)) - 1

/-- `g_e4m3_fexp`: the field exponent. -/
def e4m3Fexp (c : UInt8) : ℤ :=
  let E := c.toNat >>> 3 % 16
  if E = 0 ∧ c.toNat % 8 = 0 then -1000 else (if E = 0 then 1 else (E : ℤ)) - 7

/-- The units of a code have 18 bits and a sign. -/
theorem abs_e4m3Units_le (c : UInt8) : |e4m3Units c| ≤ 245760 := by
  have hc : c.toNat < 256 := c.toNat_lt
  have hE : c.toNat >>> 3 % 16 - 1 ≤ 14 := by omega
  have hpow : 2 ^ (c.toNat >>> 3 % 16 - 1) ≤ 2 ^ 14 := Nat.pow_le_pow_right Nat.two_pos hE
  have hunits : (if c.toNat >>> 3 % 16 = 0 then c.toNat % 8
      else (8 + c.toNat % 8) <<< (c.toNat >>> 3 % 16 - 1)) ≤ 245760 := by
    rw [Nat.shiftLeft_eq]
    split_ifs
    · omega
    · calc (8 + c.toNat % 8) * 2 ^ (c.toNat >>> 3 % 16 - 1)
          ≤ 15 * 2 ^ 14 := Nat.mul_le_mul (by omega) hpow
        _ = 245760 := rfl
  rw [abs_le]
  simp only [e4m3Units]
  generalize (if c.toNat >>> 3 % 16 = 0 then c.toNat % 8
    else (8 + c.toNat % 8) <<< (c.toNat >>> 3 % 16 - 1)) = units at hunits
  split_ifs <;> omega

/-- Those of a weight have four. -/
theorem abs_e2m1Units_le {c : ℕ} (hc : c < 16) : |e2m1Units c| ≤ 12 := by
  interval_cases c <;> decide

/-- The field exponent of an activation tells the zero codes from the others. -/
theorem e4m3Fexp_cases (c : UInt8) : (e4m3Units c = 0 ∧ e4m3Fexp c = -1000) ∨
    (e4m3Units c ≠ 0 ∧ -6 ≤ e4m3Fexp c ∧ e4m3Fexp c ≤ 8) := by
  have hlt : c.toNat >>> 3 % 16 < 16 := Nat.mod_lt _ (by omega)
  rcases Nat.eq_zero_or_pos (c.toNat >>> 3 % 16) with hE | hE
  · rcases Nat.eq_zero_or_pos (c.toNat % 8) with hM | hM
    · exact .inl (by simp [e4m3Units, e4m3Fexp, hE, hM])
    · exact .inr (by simp [e4m3Units, e4m3Fexp, hE]; omega)
  · have hunits : 0 < (8 + c.toNat % 8) <<< (c.toNat >>> 3 % 16 - 1) := by
      rw [Nat.shiftLeft_eq]
      exact Nat.mul_pos (by omega) (Nat.two_pow_pos _)
    refine .inr ⟨?_, ?_⟩
    · simp only [e4m3Units, if_neg hE.ne']
      split_ifs <;> omega
    · simp only [e4m3Fexp, hE.ne', false_and, if_false]
      omega

/-- That of a weight as well. -/
theorem e2m1Fexp_cases {c : ℕ} (hc : c < 16) : (e2m1Units c = 0 ∧ e2m1Fexp c = -1000) ∨
    (e2m1Units c ≠ 0 ∧ 0 ≤ e2m1Fexp c ∧ e2m1Fexp c ≤ 2) := by
  interval_cases c <;> decide

/-! ### Decoding a block -/

/-- `nib_code`: the low nibble is the even one. -/
def nibCode (nib : ℕ → UInt8) (k : ℕ) : ℕ := (nib (k >>> 1)).toNat >>> (k % 2 * 4) % 16

/-- `dup_idx`: word `i` goes to the lanes `2 * i` and `2 * i + 1`. -/
def dupIdx (i : ℕ) : BitVec 16 := BitVec.ofNat 16 (i >>> 1)

/-- `lut_units`: the 16 codes, twice. -/
def lutUnits (i : ℕ) : BitVec 16 := BitVec.ofInt 16 (e2m1Units (i % 16))

/-- `lut_fexp`. -/
def lutFexp (i : ℕ) : BitVec 16 := BitVec.ofInt 16 (e2m1Fexp (i % 16))

/-- `decode_block_codes`. -/
def decodeBlockCodes (p : ℕ → UInt8) : ℕ → BitVec 16 :=
  let d := permutexvar16 dupIdx (cvtepu8 p)
  fun j => maskSrli16 0xAAAAAAAA d 4 j &&& 0x000F#16

/-- `decode_block_units`. -/
def decodeBlockUnits (p : ℕ → UInt8) : ℕ → BitVec 16 :=
  permutexvar16 (decodeBlockCodes p) lutUnits

/-- The mask has the odd lanes. -/
theorem testBit_mask {j : ℕ} (hj : j < 32) : Nat.testBit 0xAAAAAAAA j = decide (j % 2 = 1) := by
  interval_cases j <;> rfl

/-- Lane `k` is the code of nibble `k`. -/
theorem decodeBlockCodes_toNat (p : ℕ → UInt8) {k : ℕ} (hk : k < 32) :
    (decodeBlockCodes p k).toNat = nibCode p k := by
  have hidx : (dupIdx k).toNat % 32 = k >>> 1 := by
    rw [dupIdx, BitVec.toNat_ofNat]
    omega
  have hbyte : (permutexvar16 dupIdx (cvtepu8 p) k).toNat = (p (k >>> 1)).toNat := by
    rw [permutexvar16, hidx, cvtepu8, BitVec.toNat_setWidth]
    exact Nat.mod_eq_of_lt ((p (k >>> 1)).toNat_lt.trans (by omega))
  have hand (x : BitVec 16) : (x &&& 0x000F#16).toNat = x.toNat % 16 := by
    rw [BitVec.toNat_and]
    exact Nat.and_two_pow_sub_one_eq_mod x.toNat 4
  rw [decodeBlockCodes]
  dsimp only
  rw [hand, maskSrli16, testBit_mask hk, nibCode]
  rcases Nat.mod_two_eq_zero_or_one k with h | h
  · simp [h, hbyte]
  · simp [h, hbyte]

/-- The look-up finds the units of a code. -/
theorem lutUnits_toInt (c : ℕ) : (lutUnits c).toInt = e2m1Units (c % 16) := by
  have h := abs_le.mp (abs_e2m1Units_le (Nat.mod_lt c (by omega : 0 < 16)))
  refine BitVec.toInt_ofInt_eq_self (by omega) ?_ ?_ <;> simp <;> omega

/-- Lane `k` is nibble `k` in units. -/
theorem decodeBlockUnits_toInt (p : ℕ → UInt8) {k : ℕ} (hk : k < 32) :
    (decodeBlockUnits p k).toInt = e2m1Units (nibCode p k) := by
  have hlt : nibCode p k < 16 := Nat.mod_lt _ (by omega)
  rw [decodeBlockUnits, permutexvar16, lutUnits_toInt, decodeBlockCodes_toNat p hk,
    Nat.mod_mod_of_dvd _ (by omega), Nat.mod_eq_of_lt hlt]

/-- The look-up of the field exponent of nibble `k`. -/
theorem lutFexp_toInt (p : ℕ → UInt8) {k : ℕ} (hk : k < 32) :
    (permutexvar16 (decodeBlockCodes p) lutFexp k).toInt = e2m1Fexp (nibCode p k) := by
  have hlt : nibCode p k < 16 := Nat.mod_lt _ (by omega)
  have h := e2m1Fexp_cases hlt
  rw [permutexvar16, decodeBlockCodes_toNat p hk, lutFexp, Nat.mod_mod_of_dvd _ (by omega),
    Nat.mod_eq_of_lt hlt]
  refine BitVec.toInt_ofInt_eq_self (by omega) ?_ ?_ <;> simp <;> omega

/-- No lane is larger than the largest code. -/
theorem abs_decodeBlockUnits_le (p : ℕ → UInt8) (k : ℕ) :
    |(decodeBlockUnits p k).toInt| ≤ 12 := by
  rw [decodeBlockUnits, permutexvar16, lutUnits_toInt]
  exact abs_e2m1Units_le (Nat.mod_lt _ (by omega))

end CpuMoe

end VllmMoet
