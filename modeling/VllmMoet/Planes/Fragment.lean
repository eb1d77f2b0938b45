import Mathlib.Data.Finset.Card
import Mathlib.Data.Finset.Prod
import Mathlib.Data.Set.Function
import Mathlib.Tactic.NormNum
import Mathlib.Tactic.Ring
import VllmMoet.Lib.Layout

/-!
# Fragment-major planes

The packers of expert weights reorder an `[N, K]` matrix so that the elements of one lane of a
matrix instruction are adjacent, and pack two nibbles or four codes into a byte. All of them
share one order of the elements, `planeIndex`.

* `packFp4FragmentMajor`, `unpackFp4FragmentMajor`: the FP4 plane, two nibbles a byte.
* `packFragmentMajor`: the 2-bit plane, four codes a byte.
* `packScales`, `unpackScales`: the plane of the block scales.
-/

namespace VllmMoet

namespace Planes

/-- The dimensions of a weight matrix that the packers accept. -/
structure PlaneDims where
  N : ℕ
  K : ℕ
  hN : N % 16 = 0
  hK : K % 64 = 0

/-- A matrix with rows of `K` elements, as a contiguous tensor. -/
def flatten (K : ℕ) (c : ℕ → ℕ → ℕ) (p : ℕ) : ℕ :=
  c (p / K) (p % K)

/-- A contiguous tensor as a matrix with rows of `K` elements. -/
def unflatten (K : ℕ) (x : ℕ → ℕ) (row col : ℕ) : ℕ :=
  x (row * K + col)

/-- The matrix as `[nb, tile, g, kb, k32, half, t, j]`. -/
def fragDims (m : PlaneDims) : List ℕ :=
  [m.N / 16, 2, 8, m.K / 64, 2, 2, 4, 4]

/-- `permute(0, 3, 2, 6, 1, 4, 5, 7)`, to `[nb, kb, g, t, tile, k32, half, j]`. -/
def fragPerm : List ℕ :=
  [0, 3, 2, 6, 1, 4, 5, 7]

/-- `permute(0, 4, 2, 1, 5, 6, 3, 7)`, back. -/
def fragInv : List ℕ :=
  [0, 4, 2, 1, 5, 6, 3, 7]

/-- The elements in the order of the planes. -/
def fragmentMajor (m : PlaneDims) (c : ℕ → ℕ → ℕ) : ℕ → ℕ :=
  permute (fragDims m) fragPerm (flatten m.K c)

/-- `pack_fragment_major`: four codes a byte, little-endian. -/
def packFragmentMajor (m : PlaneDims) (codes : ℕ → ℕ → ℕ) (i : ℕ) : ℕ :=
  let c := fragmentMajor m codes
  (c (4 * i) ||| c (4 * i + 1) <<< 2 ||| c (4 * i + 2) <<< 4 ||| c (4 * i + 3) <<< 6) % 256

/-- `pack_fp4_fragment_major`: two nibbles a byte, little-endian. -/
def packFp4FragmentMajor (m : PlaneDims) (codes : ℕ → ℕ → ℕ) (i : ℕ) : ℕ :=
  let c := fragmentMajor m codes
  (c (2 * i) ||| c (2 * i + 1) <<< 4) % 256

/-- The nibbles of a plane, two from a byte. -/
def nibbles (b : ℕ → ℕ) (p : ℕ) : ℕ :=
  if p % 2 = 0 then b (p / 2) &&& 0xF else b (p / 2) >>> 4

/-- `unpack_fp4_fragment_major`. -/
def unpackFp4FragmentMajor (m : PlaneDims) (plane : ℕ → ℕ) (row col : ℕ) : ℕ :=
  unflatten m.K
    (permute [m.N / 16, m.K / 64, 8, 4, 2, 2, 2, 4] fragInv (nibbles plane)) row col % 256

/-- `pack_scales`, of an `[N, K / 32]` matrix of scale bytes. -/
def packScales (m : PlaneDims) (s : ℕ → ℕ → ℕ) : ℕ → ℕ :=
  permute [m.N / 16, 16, m.K / 32] [0, 2, 1] (flatten (m.K / 32) s)

/-- `unpack_scales`. -/
def unpackScales (m : PlaneDims) (sc : ℕ → ℕ) (row col : ℕ) : ℕ :=
  unflatten (m.K / 32) (permute [m.N / 16, m.K / 32, 16] [0, 2, 1] sc) row col % 256

/-- The code at a place of a 2-bit plane. -/
def codeAt (plane : ℕ → ℕ) (p : ℕ) : ℕ :=
  plane (p / 4) >>> (2 * (p % 4)) &&& 3

/-- The place of an element in the order of the planes: its block of `16` rows and `64` columns,
its lane `(g, t)` in it, and its place in the lane's `32` elements. -/
def planeIndex (m : PlaneDims) (row col : ℕ) : ℕ :=
  ((row / 16 * (m.K / 64) + col / 64) * 32 + (row % 8 * 4 + col % 16 / 4)) * 32 +
    ((row / 8 % 2 * 2 + col / 32 % 2) * 8 + col / 16 % 2 * 4 + col % 4)

/-! ### The order of the elements -/

theorem fragPerm_inverse : Inverse 8 fragPerm fragInv := by
  constructor <;> decide

theorem transpose_inverse : Inverse 3 [0, 2, 1] [0, 2, 1] := by
  constructor <;> decide

variable (m : PlaneDims)

theorem numel_fragDims : numel (fragDims m) = m.N * m.K := by
  have hN : m.N = 16 * (m.N / 16) := by have := m.hN; omega
  have hK : m.K = 64 * (m.K / 64) := by have := m.hK; omega
  calc numel (fragDims m) = 16 * (m.N / 16) * (64 * (m.K / 64)) := by
        simp only [fragDims, numel]
        ring
    _ = m.N * m.K := by rw [← hN, ← hK]

theorem numel_gather_fragDims : numel (gather (fragDims m) fragPerm) = m.N * m.K := by
  rw [← numel_fragDims]
  simp only [gather, fragPerm, fragDims, List.map_cons, List.map_nil, List.getD_cons_zero,
    List.getD_cons_succ, numel]
  ring

theorem flatten_row {K row col : ℕ} (c : ℕ → ℕ → ℕ) (h : col < K) :
    flatten K c (row * K + col) = c row col := by
  rw [flatten, Nat.mul_comm, Nat.mul_add_div (by omega), Nat.div_eq_of_lt h, Nat.mul_add_mod,
    Nat.mod_eq_of_lt h, Nat.add_zero]

/-- The place of an element in the order of the planes. -/
theorem fragmentMajor_planeIndex (c : ℕ → ℕ → ℕ) {row col : ℕ} (hr : row < m.N)
    (hc : col < m.K) : fragmentMajor m c (planeIndex m row col) = c row col := by
  have hN := m.hN
  have hK : m.K = 64 * (m.K / 64) := by have := m.hK; omega
  have hin : InDims (fragDims m) [row / 16, row / 8 % 2, row % 8, col / 64, col / 32 % 2,
      col / 16 % 2, col % 16 / 4, col % 4] := by
    refine .cons ?_ (.cons ?_ (.cons ?_ (.cons ?_ (.cons ?_ (.cons ?_ (.cons ?_ (.cons ?_
      .nil))))))) <;> omega
  have hfrom : ravel (fragDims m) [row / 16, row / 8 % 2, row % 8, col / 64, col / 32 % 2,
      col / 16 % 2, col % 16 / 4, col % 4] = row * m.K + col := by
    have hrow : row = row / 16 * 16 + row / 8 % 2 * 8 + row % 8 := by omega
    have hcol : col = col / 64 * 64 + col / 32 % 2 * 32 + col / 16 % 2 * 16 +
        col % 16 / 4 * 4 + col % 4 := by omega
    calc ravel (fragDims m) [row / 16, row / 8 % 2, row % 8, col / 64, col / 32 % 2,
          col / 16 % 2, col % 16 / 4, col % 4]
        = (row / 16 * 16 + row / 8 % 2 * 8 + row % 8) * (64 * (m.K / 64)) +
          (col / 64 * 64 + col / 32 % 2 * 32 + col / 16 % 2 * 16 + col % 16 / 4 * 4 +
            col % 4) := by
          simp only [fragDims, ravel, numel]
          ring
      _ = row * m.K + col := by rw [← hrow, ← hcol, ← hK]
  have hto : ravel (gather (fragDims m) fragPerm) (gather [row / 16, row / 8 % 2, row % 8,
      col / 64, col / 32 % 2, col / 16 % 2, col % 16 / 4, col % 4] fragPerm) =
      planeIndex m row col := by
    simp only [gather, fragPerm, fragDims, List.map_cons, List.map_nil, List.getD_cons_zero,
      List.getD_cons_succ, ravel, numel, planeIndex]
    ring
  rw [fragmentMajor, ← hto, permute_ravel fragPerm_inverse rfl hin, hfrom, flatten_row c hc]

theorem planeIndex_lt {row col : ℕ} (hr : row < m.N) (hc : col < m.K) :
    planeIndex m row col < m.N * m.K := by
  have hN : m.N = 16 * (m.N / 16) := by have := m.hN; omega
  have hK : m.K = 64 * (m.K / 64) := by have := m.hK; omega
  have hblock : row / 16 * (m.K / 64) + col / 64 < m.N / 16 * (m.K / 64) := by
    have h₁ : row / 16 + 1 ≤ m.N / 16 := by omega
    have h₂ := Nat.mul_le_mul_right (m.K / 64) h₁
    rw [Nat.add_mul, Nat.one_mul] at h₂
    omega
  have hsize : m.N * m.K = m.N / 16 * (m.K / 64) * 1024 :=
    calc m.N * m.K = 16 * (m.N / 16) * (64 * (m.K / 64)) := by rw [← hN, ← hK]
      _ = m.N / 16 * (m.K / 64) * 1024 := by ring
  rw [hsize, planeIndex]
  omega

/-- A map of the elements to as many places is a bijection, if some tensor has every element of
every matrix at its place. -/
theorem bijOn_of_reads {N K : ℕ} {spot : ℕ → ℕ → ℕ} {tensor : (ℕ → ℕ → ℕ) → ℕ → ℕ}
    (hlt : ∀ row < N, ∀ col < K, spot row col < N * K)
    (hread : ∀ c, ∀ row < N, ∀ col < K, tensor c (spot row col) = c row col) :
    Set.BijOn (fun e : ℕ × ℕ => spot e.1 e.2) {e | e.1 < N ∧ e.2 < K} {i | i < N * K} := by
  have hmaps : Set.MapsTo (fun e : ℕ × ℕ => spot e.1 e.2) {e | e.1 < N ∧ e.2 < K}
      {i | i < N * K} := fun e he => hlt e.1 he.1 e.2 he.2
  -- what stands at a place says which element it is
  have hinj : Set.InjOn (fun e : ℕ × ℕ => spot e.1 e.2) {e | e.1 < N ∧ e.2 < K} := by
    intro p hp q hq he
    have h : ∀ c : ℕ → ℕ → ℕ, c p.1 p.2 = c q.1 q.2 := by
      intro c
      rw [← hread c p.1 hp.1 p.2 hp.2, ← hread c q.1 hq.1 q.2 hq.2]
      exact congrArg _ he
    exact Prod.ext (h fun r _ => r) (h fun _ k => k)
  have hfrom : {e : ℕ × ℕ | e.1 < N ∧ e.2 < K} =
      (Finset.range N ×ˢ Finset.range K : Finset (ℕ × ℕ)) := by
    ext e
    simp
  have hto : {i : ℕ | i < N * K} = (Finset.range (N * K) : Finset ℕ) := by
    ext i
    simp
  refine ⟨hmaps, hinj, ?_⟩
  rw [hfrom, hto] at hmaps ⊢
  rw [hfrom] at hinj
  exact Finset.surjOn_of_injOn_of_card_le _ hmaps hinj (by simp)

/-- **The order of the planes** is a bijection of the elements with the places. -/
theorem planeIndex_bijOn :
    Set.BijOn (fun p : ℕ × ℕ => planeIndex m p.1 p.2) {p | p.1 < m.N ∧ p.2 < m.K}
      {i | i < m.N * m.K} :=
  bijOn_of_reads (fun _ hr _ hc => planeIndex_lt m hr hc)
    fun c _ hr _ hc => fragmentMajor_planeIndex m c hr hc

/-- The place of row `16 nb + 8 tile + g` and column `64 kb + 32 k32 + 16 half + 4 t + j`. -/
theorem planeIndex_lane {nb tile g kb k32 half t j : ℕ} (htile : tile < 2) (hg : g < 8)
    (hk32 : k32 < 2) (hhalf : half < 2) (ht : t < 4) (hj : j < 4) :
    planeIndex m (nb * 16 + tile * 8 + g) (kb * 64 + k32 * 32 + half * 16 + t * 4 + j) =
      ((nb * (m.K / 64) + kb) * 32 + (g * 4 + t)) * 32 + ((tile * 2 + k32) * 8 + half * 4 + j) := by
  have h₁ : (nb * 16 + tile * 8 + g) / 16 = nb := by omega
  have h₂ : (nb * 16 + tile * 8 + g) / 8 % 2 = tile := by omega
  have h₃ : (nb * 16 + tile * 8 + g) % 8 = g := by omega
  have h₄ : (kb * 64 + k32 * 32 + half * 16 + t * 4 + j) / 64 = kb := by omega
  have h₅ : (kb * 64 + k32 * 32 + half * 16 + t * 4 + j) / 32 % 2 = k32 := by omega
  have h₆ : (kb * 64 + k32 * 32 + half * 16 + t * 4 + j) / 16 % 2 = half := by omega
  have h₇ : (kb * 64 + k32 * 32 + half * 16 + t * 4 + j) % 16 / 4 = t := by omega
  have h₈ : (kb * 64 + k32 * 32 + half * 16 + t * 4 + j) % 4 = j := by omega
  rw [planeIndex, h₁, h₂, h₃, h₄, h₅, h₆, h₇, h₈]

/-- The elements of a plane are elements of the matrix. -/
theorem exists_fragmentMajor {p : ℕ} (hp : p < m.N * m.K) :
    ∃ row < m.N, ∃ col < m.K, ∀ c, fragmentMajor m c p = c row col := by
  obtain ⟨⟨row, col⟩, ⟨hr, hc⟩, he⟩ := (planeIndex_bijOn m).surjOn hp
  exact ⟨row, hr, col, hc, fun c => he ▸ fragmentMajor_planeIndex m c hr hc⟩

/-! ### The FP4 plane -/

variable {m}

/-- The nibbles of a packed plane are the elements. -/
theorem nibbles_packFp4 {c : ℕ → ℕ → ℕ} (hc : ∀ row < m.N, ∀ col < m.K, c row col < 16) {p : ℕ}
    (hp : p < m.N * m.K) : nibbles (packFp4FragmentMajor m c) p = fragmentMajor m c p := by
  have heven : m.N * m.K % 2 = 0 := by
    rw [Nat.mul_mod, show m.N % 2 = 0 from by have := m.hN; omega, Nat.zero_mul, Nat.zero_mod]
  have hlt : ∀ q < m.N * m.K, fragmentMajor m c q < 16 := by
    intro q hq
    obtain ⟨row, hr, col, hk, he⟩ := exists_fragmentMajor m hq
    exact he c ▸ hc row hr col hk
  have h₀ := hlt (2 * (p / 2)) (by omega)
  have h₁ := hlt (2 * (p / 2) + 1) (by omega)
  have hbyte : packFp4FragmentMajor m c (p / 2) =
      fragmentMajor m c (2 * (p / 2)) + fragmentMajor m c (2 * (p / 2) + 1) * 16 := by
    rw [packFp4FragmentMajor, or_shift (h₀ : _ < 2 ^ 4)]
    exact Nat.mod_eq_of_lt (by omega)
  have hmask : ∀ a : ℕ, a &&& 0xF = a % 16 := fun a => Nat.and_two_pow_sub_one_eq_mod a 4
  have hshift : ∀ a : ℕ, a >>> 4 = a / 16 := fun a => Nat.shiftRight_eq_div_pow a 4
  rw [nibbles, hbyte, hmask, hshift]
  rcases Nat.mod_two_eq_zero_or_one p with h | h
  · have hp2 : 2 * (p / 2) = p := by omega
    rw [if_pos h, hp2]
    rw [hp2] at h₀
    omega
  · have hp2 : 2 * (p / 2) + 1 = p := by omega
    rw [if_neg (by omega), hp2]
    omega

theorem gather_fragDims : gather (fragDims m) fragPerm =
    [m.N / 16, m.K / 64, 8, 4, 2, 2, 2, 4] :=
  rfl

theorem row_mul_add_lt {row col N K : ℕ} (hr : row < N) (hc : col < K) :
    row * K + col < N * K := by
  have h := Nat.mul_le_mul_right K hr
  rw [Nat.succ_mul] at h
  omega

/-- Unpacking a packed matrix of nibbles gives it back. -/
theorem unpackFp4_packFp4 {c : ℕ → ℕ → ℕ} (hc : ∀ row < m.N, ∀ col < m.K, c row col < 16)
    {row col : ℕ} (hr : row < m.N) (hk : col < m.K) :
    unpackFp4FragmentMajor m (packFp4FragmentMajor m c) row col = c row col := by
  have hpos := row_mul_add_lt hr hk
  have hcongr : permute (gather (fragDims m) fragPerm) fragInv
      (nibbles (packFp4FragmentMajor m c)) (row * m.K + col) =
      permute (gather (fragDims m) fragPerm) fragInv (fragmentMajor m c) (row * m.K + col) := by
    refine permute_congr fragPerm_inverse.symm rfl (fun q hq => ?_) ?_
    · exact nibbles_packFp4 hc (numel_gather_fragDims m ▸ hq)
    · rw [fragPerm_inverse.gather_gather rfl, numel_fragDims]
      exact hpos
  rw [unpackFp4FragmentMajor, unflatten, ← gather_fragDims, hcongr, fragmentMajor,
    permute_inverse fragPerm_inverse rfl _ ((numel_fragDims m).symm ▸ hpos), flatten_row c hk]
  exact Nat.mod_eq_of_lt ((hc row hr col hk).trans (by decide))

theorem nibbles_lt {b : ℕ → ℕ} (hb : ∀ i < m.N * m.K / 2, b i < 256) {p : ℕ}
    (hp : p < m.N * m.K) : nibbles b p < 16 := by
  have heven : m.N * m.K % 2 = 0 := by
    rw [Nat.mul_mod, show m.N % 2 = 0 from by have := m.hN; omega, Nat.zero_mul, Nat.zero_mod]
  have hlt := hb (p / 2) (by omega)
  have hmask : b (p / 2) &&& 0xF = b (p / 2) % 16 := Nat.and_two_pow_sub_one_eq_mod _ 4
  have hshift : b (p / 2) >>> 4 = b (p / 2) / 16 := Nat.shiftRight_eq_div_pow _ 4
  rw [nibbles, hmask, hshift]
  split <;> omega

/-- An unpacked plane is a matrix of nibbles, and it is the plane's nibbles in order. -/
theorem unpackFp4_spec {b : ℕ → ℕ} (hb : ∀ i < m.N * m.K / 2, b i < 256) {q : ℕ}
    (hq : q < m.N * m.K) :
    flatten m.K (unpackFp4FragmentMajor m b) q =
        permute (gather (fragDims m) fragPerm) fragInv (nibbles b) q ∧
      flatten m.K (unpackFp4FragmentMajor m b) q < 16 := by
  obtain ⟨p, hp, he⟩ := exists_permute_eq fragPerm_inverse.symm rfl
    (show q < numel (gather (gather (fragDims m) fragPerm) fragInv) by
      rw [fragPerm_inverse.gather_gather rfl, numel_fragDims]
      exact hq)
  have hlt : nibbles b p < 16 := nibbles_lt hb (numel_gather_fragDims m ▸ hp)
  have hval : flatten m.K (unpackFp4FragmentMajor m b) q = nibbles b p % 256 := by
    rw [flatten, unpackFp4FragmentMajor, unflatten, Nat.div_add_mod', ← gather_fragDims, he]
  rw [hval, he, Nat.mod_eq_of_lt (by omega)]
  exact ⟨rfl, hlt⟩

/-- Packing an unpacked plane gives it back. -/
theorem packFp4_unpackFp4 {b : ℕ → ℕ} (hb : ∀ i < m.N * m.K / 2, b i < 256) {i : ℕ}
    (hi : i < m.N * m.K / 2) :
    packFp4FragmentMajor m (unpackFp4FragmentMajor m b) i = b i := by
  have hfrag : ∀ p < m.N * m.K, fragmentMajor m (unpackFp4FragmentMajor m b) p = nibbles b p := by
    intro p hp
    have hp' : p < numel (gather (fragDims m) fragPerm) := (numel_gather_fragDims m).symm ▸ hp
    have hlen : (gather (fragDims m) fragPerm).length = 8 := rfl
    have hback := permute_inverse fragPerm_inverse.symm hlen (nibbles b) hp'
    rw [fragPerm_inverse.gather_gather rfl] at hback
    rw [fragmentMajor, permute_congr fragPerm_inverse rfl (fun q hq =>
      (unpackFp4_spec hb (numel_fragDims m ▸ hq)).1) hp', hback]
  have hbi := hb i hi
  have h₀ : nibbles b (2 * i) = b i % 16 := by
    rw [nibbles, if_pos (by omega), Nat.mul_div_cancel_left i (by decide)]
    exact Nat.and_two_pow_sub_one_eq_mod _ 4
  have h₁ : nibbles b (2 * i + 1) = b i / 16 := by
    rw [nibbles, if_neg (by omega), show (2 * i + 1) / 2 = i by omega]
    exact Nat.shiftRight_eq_div_pow _ 4
  rw [packFp4FragmentMajor, hfrag _ (by omega), hfrag _ (by omega), h₀, h₁,
    or_shift (Nat.mod_lt _ (by decide) : b i % 16 < 2 ^ 4)]
  omega

/-! ### The 2-bit plane -/

/-- The code at the place of an element is the element's. -/
theorem codeAt_packFragmentMajor {c : ℕ → ℕ → ℕ} (hc : ∀ row < m.N, ∀ col < m.K, c row col < 4)
    {p : ℕ} (hp : p < m.N * m.K) : codeAt (packFragmentMajor m c) p = fragmentMajor m c p := by
  have hfour : m.N * m.K % 4 = 0 := by
    rw [Nat.mul_mod, show m.N % 4 = 0 from by have := m.hN; omega, Nat.zero_mul, Nat.zero_mod]
  have hlt : ∀ q < m.N * m.K, fragmentMajor m c q < 4 := by
    intro q hq
    obtain ⟨row, hr, col, hk, he⟩ := exists_fragmentMajor m hq
    exact he c ▸ hc row hr col hk
  have h₀ := hlt (4 * (p / 4)) (by omega)
  have h₁ := hlt (4 * (p / 4) + 1) (by omega)
  have h₂ := hlt (4 * (p / 4) + 2) (by omega)
  have h₃ := hlt (4 * (p / 4) + 3) (by omega)
  have hbyte : packFragmentMajor m c (p / 4) =
      fragmentMajor m c (4 * (p / 4)) + fragmentMajor m c (4 * (p / 4) + 1) * 4 +
        fragmentMajor m c (4 * (p / 4) + 2) * 16 + fragmentMajor m c (4 * (p / 4) + 3) * 64 := by
    have e₁ := or_shift (b := fragmentMajor m c (4 * (p / 4) + 1))
      (show fragmentMajor m c (4 * (p / 4)) < 2 ^ 2 from h₀)
    have e₂ := or_shift (b := fragmentMajor m c (4 * (p / 4) + 2))
      (by omega : fragmentMajor m c (4 * (p / 4)) +
        fragmentMajor m c (4 * (p / 4) + 1) * 2 ^ 2 < 2 ^ 4)
    rw [packFragmentMajor, e₁, e₂, or_shift (by omega : _ < 2 ^ 6)]
    omega
  have hmask : ∀ a : ℕ, a &&& 3 = a % 4 := fun a => Nat.and_two_pow_sub_one_eq_mod a 2
  have hsum : p = 4 * (p / 4) + p % 4 := (Nat.div_add_mod p 4).symm
  have hj : p % 4 = 0 ∨ p % 4 = 1 ∨ p % 4 = 2 ∨ p % 4 = 3 := by omega
  rw [codeAt, hbyte, hmask, Nat.shiftRight_eq_div_pow]
  rcases hj with hj | hj | hj | hj
  all_goals
    rw [hj] at hsum ⊢
    conv_rhs => rw [hsum]
    norm_num
    omega

/-! ### The plane of the scales -/

variable (m)

theorem numel_scales : numel [m.N / 16, 16, m.K / 32] = m.N * (m.K / 32) := by
  have hN : m.N = 16 * (m.N / 16) := by have := m.hN; omega
  calc numel [m.N / 16, 16, m.K / 32] = 16 * (m.N / 16) * (m.K / 32) := by
        simp only [numel]
        ring
    _ = m.N * (m.K / 32) := by rw [← hN]

theorem numel_scales' : numel [m.N / 16, m.K / 32, 16] = m.N * (m.K / 32) := by
  rw [← numel_scales]
  simp only [numel]
  ring

variable {m}

theorem unpackScales_packScales {s : ℕ → ℕ → ℕ} {row ks : ℕ} (hr : row < m.N)
    (hk : ks < m.K / 32) (hs : s row ks < 256) :
    unpackScales m (packScales m s) row ks = s row ks := by
  have hpos : row * (m.K / 32) + ks < numel [m.N / 16, 16, m.K / 32] :=
    (numel_scales m).symm ▸ row_mul_add_lt hr hk
  have hback := permute_inverse transpose_inverse rfl (flatten (m.K / 32) s) hpos
  rw [unpackScales, unflatten, packScales]
  rw [flatten_row s hk] at hback
  exact (congrArg (· % 256) hback).trans (Nat.mod_eq_of_lt hs)

theorem packScales_unpackScales {sc : ℕ → ℕ} (hsc : ∀ i < m.N * (m.K / 32), sc i < 256) {i : ℕ}
    (hi : i < m.N * (m.K / 32)) : packScales m (unpackScales m sc) i = sc i := by
  have hpos : i < numel [m.N / 16, m.K / 32, 16] := (numel_scales' m).symm ▸ hi
  have hback := permute_inverse transpose_inverse rfl sc hpos
  have hbyte : ∀ q < numel [m.N / 16, 16, m.K / 32],
      flatten (m.K / 32) (unpackScales m sc) q = permute [m.N / 16, m.K / 32, 16] [0, 2, 1] sc q := by
    intro q hq
    have hq' : q < numel (gather [m.N / 16, m.K / 32, 16] [0, 2, 1]) := hq
    obtain ⟨p, hp, he⟩ := exists_permute_eq transpose_inverse rfl hq'
    rw [flatten, unpackScales, unflatten, Nat.div_add_mod', he]
    exact Nat.mod_eq_of_lt (hsc p (numel_scales' m ▸ hp))
  rw [packScales, permute_congr transpose_inverse rfl hbyte (show i < numel _ from hpos)]
  exact hback

/-! ### Round trips -/

/-- **The planes round-trip**, and both weight planes have their elements in one order. -/
theorem planes_roundtrip (m : PlaneDims) :
    (∀ c : ℕ → ℕ → ℕ, (∀ row < m.N, ∀ col < m.K, c row col < 16) → ∀ row < m.N, ∀ col < m.K,
      unpackFp4FragmentMajor m (packFp4FragmentMajor m c) row col = c row col ∧
      nibbles (packFp4FragmentMajor m c) (planeIndex m row col) = c row col) ∧
    (∀ b : ℕ → ℕ, (∀ i < m.N * m.K / 2, b i < 256) →
      (∀ row < m.N, ∀ col < m.K, unpackFp4FragmentMajor m b row col < 16) ∧
      ∀ i < m.N * m.K / 2, packFp4FragmentMajor m (unpackFp4FragmentMajor m b) i = b i) ∧
    (∀ c : ℕ → ℕ → ℕ, (∀ row < m.N, ∀ col < m.K, c row col < 4) → ∀ row < m.N, ∀ col < m.K,
      codeAt (packFragmentMajor m c) (planeIndex m row col) = c row col) ∧
    (∀ s : ℕ → ℕ → ℕ, (∀ row < m.N, ∀ ks < m.K / 32, s row ks < 256) →
      ∀ row < m.N, ∀ ks < m.K / 32, unpackScales m (packScales m s) row ks = s row ks) ∧
    (∀ sc : ℕ → ℕ, (∀ i < m.N * (m.K / 32), sc i < 256) →
      ∀ i < m.N * (m.K / 32), packScales m (unpackScales m sc) i = sc i) ∧
    Set.BijOn (fun p : ℕ × ℕ => planeIndex m p.1 p.2) {p | p.1 < m.N ∧ p.2 < m.K}
      {i | i < m.N * m.K} ∧
    ∀ nb tile g kb k32 half t j, tile < 2 → g < 8 → k32 < 2 → half < 2 → t < 4 → j < 4 →
      planeIndex m (nb * 16 + tile * 8 + g) (kb * 64 + k32 * 32 + half * 16 + t * 4 + j) =
        ((nb * (m.K / 64) + kb) * 32 + (g * 4 + t)) * 32 +
          ((tile * 2 + k32) * 8 + half * 4 + j) := by
  refine ⟨fun c hc row hr col hk => ⟨unpackFp4_packFp4 hc hr hk, ?_⟩, fun b hb => ⟨?_, ?_⟩,
    fun c hc row hr col hk => ?_, fun s hs row hr ks hk => ?_, fun sc hsc i hi => ?_,
    planeIndex_bijOn m, fun nb tile g kb k32 half t j h₁ h₂ h₃ h₄ h₅ h₆ => ?_⟩
  · rw [nibbles_packFp4 hc (planeIndex_lt m hr hk), fragmentMajor_planeIndex m c hr hk]
  · intro row hr col hk
    have h := (unpackFp4_spec hb (row_mul_add_lt hr hk)).2
    rwa [flatten_row _ hk] at h
  · exact fun i hi => packFp4_unpackFp4 hb hi
  · rw [codeAt_packFragmentMajor hc (planeIndex_lt m hr hk), fragmentMajor_planeIndex m c hr hk]
  · exact unpackScales_packScales hr hk (hs row hr ks hk)
  · exact packScales_unpackScales hsc hi
  · exact planeIndex_lane m h₁ h₂ h₃ h₄ h₅ h₆

/-- One block of `16` rows and `64` columns. -/
def oneBlock : PlaneDims :=
  ⟨16, 64, rfl, rfl⟩

theorem planes_roundtrip_oneBlock :
    unpackFp4FragmentMajor oneBlock
      (packFp4FragmentMajor oneBlock fun row col => (row + col) % 16) 3 7 = 10 :=
  ((planes_roundtrip oneBlock).1 (fun row col => (row + col) % 16)
    (fun _ _ _ _ => Nat.mod_lt _ (by decide)) 3 (by decide) 7 (by decide)).1

end Planes

end VllmMoet
