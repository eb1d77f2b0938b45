import Mathlib.Algebra.BigOperators.Ring.Finset
import VllmMoet.CpuMoe.Decode

/-!
# The block dots of FC1

A group of 16 blocks of `cpu_moe_b12x.cpp`: the activations in units are split into a signed and an
unsigned half of 9 bits, each half is multiplied with the weights, the halves are put together by
a shift, and the network sums the lanes of the 16 blocks.

* `splitUnits`, `prepareX`, `dotLanes`, `groupDots`: the source's functions;
* `NoOverflow`: at each step each lane holds the exact integer; `noOverflow` proves it;
* `groupDots_toInt`: lane `b` is the exact dot product of block `b`.
-/

namespace VllmMoet

namespace CpuMoe

open Lanes

/-! ### The halves -/

/-- `split_units`. -/
def splitUnits (u : ℤ) : BitVec 16 × BitVec 16 :=
  let h := u >>> (9 : ℕ)
  (BitVec.ofInt 16 h, BitVec.ofInt 16 (u - h * 512))

/-- `XPrep`: a token's activations in halves, and its scale bytes. -/
structure XPrep where
  hi : ℕ → BitVec 16
  lo : ℕ → BitVec 16
  sa : ℕ → UInt8

/-- `prepare_x`. -/
def prepareX (aq as : ℕ → UInt8) : XPrep where
  hi k := (splitUnits (e4m3Units (aq k))).1
  lo k := (splitUnits (e4m3Units (aq k))).2
  sa := as

/-- The halves as integers. -/
theorem splitUnits_toInt {u : ℤ} (hu : |u| ≤ 245760) :
    (splitUnits u).1.toInt = u / 512 ∧ (splitUnits u).2.toInt = u % 512 := by
  have h := abs_le.mp hu
  have hshift : u >>> (9 : ℕ) = u / 512 := Int.shiftRight_eq_div_pow u 9
  constructor
  · rw [splitUnits, hshift]
    refine BitVec.toInt_ofInt_eq_self (by omega) ?_ ?_ <;> simp <;> omega
  · have hmod : u - u / 512 * 512 = u % 512 := by omega
    rw [splitUnits, hshift, hmod]
    refine BitVec.toInt_ofInt_eq_self (by omega) ?_ ?_ <;> simp <;> omega

/-- The halves of a prepared activation, and what they make. -/
theorem prepareX_toInt (aq as : ℕ → UInt8) (k : ℕ) :
    |((prepareX aq as).hi k).toInt| ≤ 480 ∧ |((prepareX aq as).lo k).toInt| ≤ 511 ∧
      ((prepareX aq as).hi k).toInt * 512 + ((prepareX aq as).lo k).toInt = e4m3Units (aq k) := by
  have hu := abs_e4m3Units_le (aq k)
  obtain ⟨hhi, hlo⟩ := splitUnits_toInt hu
  have h := abs_le.mp hu
  simp only [prepareX, hhi, hlo, abs_le]
  omega

/-! ### The dots -/

/-- `dot_lanes`. -/
def dotLanes (w16 xhi xlo : ℕ → BitVec 16) (j : ℕ) : BitVec 32 :=
  (dpwssd (fun _ => 0#32) w16 xhi j <<< 9) + dpwssd (fun _ => 0#32) w16 xlo j

/-- The lanes of a register, read as signed. -/
def ints {w : ℕ} (v : ℕ → BitVec w) (j : ℕ) : ℤ := (v j).toInt

/-- `dot_lanes` on integers that do not wrap. -/
def exactLanes (w xhi xlo : ℕ → ℤ) (j : ℕ) : ℤ := pairDot w xhi j * 512 + pairDot w xlo j

/-- Up to wrapping, `dot_lanes` computes that. -/
theorem dotLanes_eq (w16 xhi xlo : ℕ → BitVec 16) (j : ℕ) : dotLanes w16 xhi xlo j =
    BitVec.ofInt 32 (exactLanes (ints w16) (ints xhi) (ints xlo) j) := by
  rw [dotLanes, dpwssd_eq, dpwssd_eq, BitVec.shiftLeft_eq_mul_twoPow, exactLanes, BitVec.ofInt_add,
    BitVec.ofInt_mul]
  rfl

/-- The registers of a group: for each of its blocks the weights and the two halves. -/
structure Group where
  w16 : ℕ → ℕ → BitVec 16
  xhi : ℕ → ℕ → BitVec 16
  xlo : ℕ → ℕ → BitVec 16

variable (G : Group)

/-- The lanes of each block, `s` in the source. -/
def Group.lanes (b : ℕ) : ℕ → BitVec 32 := dotLanes (G.w16 b) (G.xhi b) (G.xlo b)

/-- The same without wrapping. -/
def Group.exact (b : ℕ) : ℕ → ℤ := exactLanes (ints (G.w16 b)) (ints (G.xhi b)) (ints (G.xlo b))

/-- `transpose_sum16` of the lanes. -/
def Group.dots : ℕ → BitVec 32 := transposeSum G.lanes

/-- The registers hold codes. -/
structure Group.Codes : Prop where
  w16 : ∀ b j, |ints (G.w16 b) j| ≤ 12
  xhi : ∀ b j, |ints (G.xhi b) j| ≤ 480
  xlo : ∀ b j, |ints (G.xlo b) j| ≤ 511

/-- **No overflow**: every lane of every register on the way holds the exact integer. -/
structure Group.NoOverflow : Prop where
  hi : ∀ b j, (dpwssd (fun _ => 0#32) (G.w16 b) (G.xhi b) j).toInt =
    pairDot (ints (G.w16 b)) (ints (G.xhi b)) j
  shifted : ∀ b j, (dpwssd (fun _ => 0#32) (G.w16 b) (G.xhi b) j <<< 9).toInt =
    pairDot (ints (G.w16 b)) (ints (G.xhi b)) j * 512
  lo : ∀ b j, (dpwssd (fun _ => 0#32) (G.w16 b) (G.xlo b) j).toInt =
    pairDot (ints (G.w16 b)) (ints (G.xlo b)) j
  lanes : ∀ b j, (G.lanes b j).toInt = G.exact b j
  pairs : ∀ i j, (pairSums G.lanes i j).toInt = pairSums G.exact i j
  quads : ∀ i j, (quadSums G.lanes i j).toInt = quadSums G.exact i j
  halves : ∀ i j, (halfSums G.lanes i j).toInt = halfSums G.exact i j
  dots : ∀ j, (G.dots j).toInt = transposeSum G.exact j

variable {G}

/-- The lanes are small. -/
theorem Group.Codes.abs_exact_le (h : G.Codes) (b j : ℕ) : |G.exact b j| ≤ 5910504 := by
  have hhi := abs_le.mp (abs_pairDot_le (h.w16 b) (h.xhi b) j)
  have hlo := abs_le.mp (abs_pairDot_le (h.w16 b) (h.xlo b) j)
  rw [Group.exact, exactLanes, abs_le]
  omega

/-- Codes never overflow. -/
theorem Group.Codes.noOverflow (h : G.Codes) : G.NoOverflow := by
  have hlanes : G.lanes = fun b j => BitVec.ofInt 32 (G.exact b j) :=
    funext fun b => funext fun j => dotLanes_eq _ _ _ j
  have hexact := h.abs_exact_le
  have hadd := BitVec.ofInt_add (n := 32)
  refine ⟨fun b j => ?_, fun b j => ?_, fun b j => ?_, fun b j => ?_, fun i j => ?_, fun i j => ?_,
    fun i j => ?_, fun j => ?_⟩
  · rw [dpwssd_eq]
    exact toInt_ofInt_of_abs (abs_pairDot_le (h.w16 b) (h.xhi b) j) (by omega)
  · have hhi := abs_le.mp (abs_pairDot_le (h.w16 b) (h.xhi b) j)
    have hshift : (dpwssd (fun _ => 0#32) (G.w16 b) (G.xhi b) j <<< 9) =
        BitVec.ofInt 32 (pairDot (ints (G.w16 b)) (ints (G.xhi b)) j * 512) := by
      rw [dpwssd_eq, BitVec.shiftLeft_eq_mul_twoPow, BitVec.ofInt_mul]
      rfl
    rw [hshift]
    refine toInt_ofInt_of_abs (B := 5898240) (abs_le.mpr ?_) (by omega)
    omega
  · rw [dpwssd_eq]
    exact toInt_ofInt_of_abs (abs_pairDot_le (h.w16 b) (h.xlo b) j) (by omega)
  · rw [hlanes]
    exact toInt_ofInt_of_abs (hexact b j) (by omega)
  · rw [hlanes, map_pairSums hadd]
    exact toInt_ofInt_of_abs (abs_pairSums_le hexact i j) (by omega)
  · rw [hlanes, map_quadSums hadd]
    exact toInt_ofInt_of_abs (abs_quadSums_le hexact i j) (by omega)
  · rw [hlanes, map_halfSums hadd]
    exact toInt_ofInt_of_abs (abs_halfSums_le hexact i j) (by omega)
  · rw [Group.dots, hlanes, map_transposeSum hadd]
    exact toInt_ofInt_of_abs (abs_transposeSum_le hexact j) (by omega)

/-- Lane `b` of the network is the exact dot product of block `b`. -/
theorem Group.Codes.dots_toInt (h : G.Codes) {b : ℕ} (hb : b < 16) :
    (G.dots b).toInt = ∑ k ∈ Finset.range 32,
      ints (G.w16 b) k * (ints (G.xhi b) k * 512 + ints (G.xlo b) k) := by
  rw [h.noOverflow.dots, transposeSum_eq_sum _ hb]
  simp only [Group.exact, exactLanes, Finset.sum_add_distrib, ← Finset.sum_mul, sum_pairDot]
  rw [Finset.sum_mul, ← Finset.sum_add_distrib]
  exact Finset.sum_congr rfl fun k _ => by ring

end CpuMoe

end VllmMoet
