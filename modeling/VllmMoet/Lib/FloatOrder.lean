import Mathlib.Data.Int.Order.Basic
import Mathlib.Order.Monotone.Basic
import Mathlib.Tactic.Linarith
import VllmMoet.Lib.Binary32

/-!
# The order of the binary32 numbers

A number that is not a NaN is a rational, or infinite (`extVal`). The patterns without their sign
are ordered as the magnitudes they stand for (`magVal_strictMono`), so that a comparison of numbers
is one of integers (`ordKey`, `extVal_lt_iff`).
-/

namespace VllmMoet

namespace Binary32

/-- Not a number. -/
def isNan (a : BitVec 32) : Bool := 0x7F800000 < magnitude a

/-- The bits as a number in the order of the floats. -/
def ordKey (a : BitVec 32) : ℤ := if negative a then -(magnitude a : ℤ) else magnitude a

/-- A magnitude in units of the smallest number. -/
def magUnits (m : ℕ) : ℕ :=
  if m / 8388608 = 0 then m % 8388608 else (8388608 + m % 8388608) * 2 ^ (m / 8388608 - 1)

theorem magUnits_strictMono : StrictMono magUnits := by
  refine strictMono_nat_of_lt_succ fun m => ?_
  have hm := Nat.div_add_mod m 8388608
  have hf : m % 8388608 < 8388608 := Nat.mod_lt m (by omega)
  have hpos : 0 < 2 ^ (m / 8388608 - 1) := Nat.two_pow_pos _
  rw [magUnits, magUnits]
  by_cases hlast : m % 8388608 = 8388607
  · -- the next pattern has the next exponent
    have hdiv : (m + 1) / 8388608 = m / 8388608 + 1 := by omega
    have hmod : (m + 1) % 8388608 = 0 := by omega
    rw [hdiv, hmod, hlast, if_neg (Nat.succ_ne_zero _), Nat.add_sub_cancel]
    split_ifs with h
    · rw [h, pow_zero]
      omega
    · obtain ⟨e, he⟩ := Nat.exists_eq_succ_of_ne_zero h
      rw [he, Nat.succ_sub_one] at hpos ⊢
      rw [pow_succ]
      omega
  · have hdiv : (m + 1) / 8388608 = m / 8388608 := by omega
    have hmod : (m + 1) % 8388608 = m % 8388608 + 1 := by omega
    rw [hdiv, hmod]
    split_ifs with h
    · exact Nat.lt_succ_self _
    · exact Nat.mul_lt_mul_of_pos_right (by omega) hpos

theorem absVal_eq (a : BitVec 32) : absVal a = magUnits (magnitude a) * 2 ^ (-149 : ℤ) := by
  rw [absVal, significand, scale, magUnits, ← exponent_eq, ← fraction]
  split_ifs with h
  · rfl
  · obtain ⟨e, he⟩ := Nat.exists_eq_succ_of_ne_zero h
    have hscale : ((e + 1 : ℕ) : ℤ) - 150 = e + -149 := by
      push_cast
      ring
    rw [he, Nat.succ_eq_add_one, Nat.add_sub_cancel, hscale, zpow_add₀ two_ne_zero, zpow_natCast,
      ← mul_assoc]
    push_cast
    rfl

theorem absVal_nonneg (a : BitVec 32) : 0 ≤ absVal a := by
  rw [absVal_eq]
  exact mul_nonneg (Nat.cast_nonneg _) (zpow_nonneg zero_le_two _)

/-- Magnitudes are ordered as their bits. -/
theorem absVal_lt_iff {a b : BitVec 32} : absVal a < absVal b ↔ magnitude a < magnitude b := by
  have hunit : (0 : ℚ) < 2 ^ (-149 : ℤ) := by positivity
  rw [absVal_eq, absVal_eq, mul_lt_mul_iff_left₀ hunit, Nat.cast_lt]
  exact magUnits_strictMono.lt_iff_lt

/-- **The order of the finite numbers is that of their bits.** -/
theorem val_lt_iff {a b : BitVec 32} : val a < val b ↔ ordKey a < ordKey b := by
  have hzero {c : BitVec 32} : absVal c = 0 ↔ magnitude c = 0 := absVal_eq_zero
  have ha := absVal_nonneg a
  have hb := absVal_nonneg b
  have hlt : absVal a < absVal b ↔ magnitude a < magnitude b := absVal_lt_iff
  have hgt : absVal b < absVal a ↔ magnitude b < magnitude a := absVal_lt_iff
  rw [val, val, ordKey, ordKey]
  split_ifs with hna hnb hnb
  · rw [neg_lt_neg_iff, hgt]
    omega
  · constructor
    · intro h
      by_contra hle
      have hma : magnitude a = 0 := by omega
      have hmb : magnitude b = 0 := by omega
      rw [hzero.mpr hma, hzero.mpr hmb] at h
      simp at h
    · intro h
      rcases ha.eq_or_lt with hz | hpos
      · rw [← hz, neg_zero]
        refine hb.lt_of_ne fun hzb => ?_
        have := hzero.mp hz.symm
        have := hzero.mp hzb.symm
        omega
      · linarith
  · refine iff_of_false (fun h => ?_) (by omega)
    linarith
  · rw [hlt, Nat.cast_lt]

/-! ### With the infinities -/

/-- The value of a number, which may be infinite. -/
def extVal (a : BitVec 32) : WithBot (WithTop ℚ) :=
  if magnitude a < 0x7F800000 then ((val a : WithTop ℚ) : WithBot (WithTop ℚ))
  else if negative a then ⊥ else ((⊤ : WithTop ℚ) : WithBot (WithTop ℚ))

/-- **The order of the numbers is that of their bits.** -/
theorem extVal_lt_iff {a b : BitVec 32} (ha : isNan a = false) (hb : isNan b = false) :
    extVal a < extVal b ↔ ordKey a < ordKey b := by
  rw [isNan, decide_eq_false_iff_not] at ha hb
  have htop (q : ℚ) : ((q : WithTop ℚ) : WithBot (WithTop ℚ)) < ((⊤ : WithTop ℚ) : _) :=
    WithBot.coe_lt_coe.mpr (WithTop.coe_lt_top q)
  have hbot (x : WithTop ℚ) : (⊥ : WithBot (WithTop ℚ)) < x := WithBot.bot_lt_coe x
  rw [extVal, extVal]
  by_cases hfa : magnitude a < 0x7F800000 <;> by_cases hfb : magnitude b < 0x7F800000
  · rw [if_pos hfa, if_pos hfb, WithBot.coe_lt_coe, WithTop.coe_lt_coe]
    exact val_lt_iff
  · rw [if_pos hfa, if_neg hfb, ordKey, ordKey]
    split_ifs with hnb
    · exact iff_of_false (hbot _).not_gt (by omega)
    · exact iff_of_false (hbot _).not_gt (by omega)
    · exact iff_of_true (htop _) (by omega)
    · exact iff_of_true (htop _) (by omega)
  · rw [if_neg hfa, if_pos hfb, ordKey, ordKey]
    split_ifs
    · exact iff_of_true (hbot _) (by omega)
    · exact iff_of_true (hbot _) (by omega)
    · exact iff_of_false (htop _).not_gt (by omega)
    · exact iff_of_false (htop _).not_gt (by omega)
  · rw [if_neg hfa, if_neg hfb, ordKey, ordKey]
    split_ifs
    · exact iff_of_false (lt_irrefl _) (by omega)
    · exact iff_of_true (hbot _) (by omega)
    · exact iff_of_false (hbot _).not_gt (by omega)
    · exact iff_of_false (lt_irrefl _) (by omega)

end Binary32

end VllmMoet
