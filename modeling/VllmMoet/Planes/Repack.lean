import VllmMoet.Lib.Int32
import VllmMoet.Lib.WarpReduce
import VllmMoet.Planes.Fragment

/-!
# The single-pass activation repack

The prefill kernels read their activations fragment-major, in tiles of 16 rows. The reference
permutes a seven-dimensional view of the rows; the repack kernel moves words of four bytes, one
program for each tile and each 64 columns, with the fields of a word's index cut out of it.

* `toFragmentMajor`: the reference.
* `afragRepackMoves`: the bytes that the kernel moves, from where to where. Offsets are computed
  with 32-bit integers (`int32`).
* `place`: where the byte of a row and a column goes.
* `afragRepack_ok_iff`: the kernel computes the reference, and does nothing else, as long as the
  destination has at most `2 ^ 33` bytes.
-/

namespace VllmMoet

namespace Planes

/-! ### The reference and the kernel -/

/-- The rows as `[pairs, g2, g, j, quad, t, b]`. -/
def tileDims (pairs K : ℕ) : List ℕ :=
  [pairs, 2, 8, K / 64, 4, 4, 4]

/-- `permute(0, 3, 2, 5, 4, 1, 6)`, to `[pair, j, g, t, quad, g2, b]`. -/
def tilePerm : List ℕ :=
  [0, 3, 2, 5, 4, 1, 6]

/-- `permute(0, 5, 2, 1, 4, 3, 6)`, back. -/
def tileInv : List ℕ :=
  [0, 5, 2, 1, 4, 3, 6]

/-- `_to_fragment_major`, of `pairs * 16` rows of `K` bytes. -/
def toFragmentMajor {α : Type*} (pairs K : ℕ) (a : ℕ → α) : ℕ → α :=
  permute (tileDims pairs K) tilePerm a

/-- An offset as 32-bit integers compute it: their sums and products wrap. -/
def int32 (x : ℕ) : ℤ :=
  wrap32 x

/-- The word of the source that program `(p, j)` loads for its word `w`. -/
def srcOff (K p j w : ℕ) : ℤ :=
  let g2 := w &&& 1
  let quad := w >>> 1 &&& 3
  let t := w >>> 3 &&& 3
  let g := w >>> 5 &&& 7
  int32 ((p * 16 + g2 * 8 + g) * (K / 4) + j * 16 + quad * 4 + t)

/-- The word of the destination that it stores it to. -/
def dstOff (K p j w : ℕ) : ℤ :=
  int32 (p * 16 * (K / 4) + j * 256 + w)

/-- The bytes that program `(p, j)` moves: to where, and from where. -/
def programMoves (K p j : ℕ) : List (ℤ × ℤ) :=
  (List.range 256).flatMap fun w => (List.range 4).map fun b : ℕ =>
    (4 * dstOff K p j w + b, 4 * srcOff K p j w + b)

/-- The bytes that a launch of `_afrag_repack_kernel` moves. -/
def afragRepackMoves (pairs K : ℕ) : List (ℤ × ℤ) :=
  (List.range pairs).flatMap fun p => (List.range (K / 64)).flatMap fun j => programMoves K p j

/-- The destination when the moves are made in some order. -/
def afragRepack (moves : List (ℤ × ℤ)) (src dst : ℤ → BitVec 8) : ℤ → BitVec 8 :=
  stores (moves.map fun m => (m.1, src m.2)) dst

/-- Where the byte of a row and a column goes: its tile, its 64 columns, and its place in them. -/
def place (K row col : ℕ) : ℕ :=
  row / 16 * (16 * K) + col / 64 * 1024 + row % 8 * 128 + col / 4 % 4 * 32 + col / 16 % 4 * 8 +
    row / 8 % 2 * 4 + col % 4

/-- What the repack should do. -/
structure RepackOk (pairs K : ℕ) : Prop where
  /-- it moves the bytes of the first `pairs * 16` rows, each to its place -/
  moves : ∀ m, m ∈ afragRepackMoves pairs K ↔
    ∃ row < pairs * 16, ∃ col < K, m = ((place K row col : ℤ), ((row * K + col : ℕ) : ℤ))
  /-- no byte is written twice -/
  once : ((afragRepackMoves pairs K).map Prod.fst).Nodup
  /-- the first `pairs * 16 * K` bytes are written, and no others -/
  written : ∀ a, a ∈ (afragRepackMoves pairs K).map Prod.fst ↔
    0 ≤ a ∧ a < ((pairs * 16 * K : ℕ) : ℤ)
  /-- in whatever order the moves are made, the result is the reference -/
  result : ∀ (src dst : ℤ → BitVec 8) (l : List (ℤ × ℤ)), l.Perm (afragRepackMoves pairs K) →
    (∀ i < pairs * 16 * K, afragRepack l src dst i = toFragmentMajor pairs K (fun q => src q) i) ∧
    ∀ a, ¬ (0 ≤ a ∧ a < ((pairs * 16 * K : ℕ) : ℤ)) → afragRepack l src dst a = dst a
  bijective : Set.BijOn (fun e : ℕ × ℕ => place K e.1 e.2) {e | e.1 < pairs * 16 ∧ e.2 < K}
    {i | i < pairs * 16 * K}
  /-- every tile keeps its own range -/
  tiles : ∀ row < pairs * 16, ∀ col < K,
    row / 16 * (16 * K) ≤ place K row col ∧ place K row col < (row / 16 + 1) * (16 * K)

/-! ### Places -/

theorem tilePerm_inverse : Inverse 7 tilePerm tileInv := by
  constructor <;> decide

variable {pairs K row col : ℕ}

/-- What the reference has at a place. -/
theorem toFragmentMajor_place {α : Type*} (hK : K % 64 = 0) (a : ℕ → α)
    (hr : row < pairs * 16) (hc : col < K) :
    toFragmentMajor pairs K a (place K row col) = a (row * K + col) := by
  have hin : InDims (tileDims pairs K)
      [row / 16, row / 8 % 2, row % 8, col / 64, col / 16 % 4, col / 4 % 4, col % 4] := by
    refine .cons ?_ (.cons ?_ (.cons ?_ (.cons ?_ (.cons ?_ (.cons ?_ (.cons ?_ .nil)))))) <;>
      omega
  have hK64 : K = 64 * (K / 64) := by omega
  have hfrom : ravel (tileDims pairs K)
      [row / 16, row / 8 % 2, row % 8, col / 64, col / 16 % 4, col / 4 % 4, col % 4] =
      row * K + col := by
    have hrow : row = row / 16 * 16 + row / 8 % 2 * 8 + row % 8 := by omega
    have hcol : col = col / 64 * 64 + col / 16 % 4 * 16 + col / 4 % 4 * 4 + col % 4 := by omega
    calc ravel (tileDims pairs K)
          [row / 16, row / 8 % 2, row % 8, col / 64, col / 16 % 4, col / 4 % 4, col % 4]
        = (row / 16 * 16 + row / 8 % 2 * 8 + row % 8) * (64 * (K / 64)) +
          (col / 64 * 64 + col / 16 % 4 * 16 + col / 4 % 4 * 4 + col % 4) := by
          simp only [tileDims, ravel, numel]
          ring
      _ = row * K + col := by rw [← hrow, ← hcol, ← hK64]
  have hto : ravel (gather (tileDims pairs K) tilePerm)
      (gather [row / 16, row / 8 % 2, row % 8, col / 64, col / 16 % 4, col / 4 % 4, col % 4]
        tilePerm) = place K row col := by
    have hsize : 16 * K = K / 64 * 1024 := by omega
    rw [place, hsize]
    simp only [gather, tilePerm, tileDims, List.map_cons, List.map_nil, List.getD_cons_zero,
      List.getD_cons_succ, ravel, numel]
    ring
  rw [toFragmentMajor, ← hto, permute_ravel tilePerm_inverse rfl hin, hfrom]

/-- A tile's bytes stay in its range. -/
theorem place_tile (hK : K % 64 = 0) (hc : col < K) :
    row / 16 * (16 * K) ≤ place K row col ∧ place K row col < (row / 16 + 1) * (16 * K) := by
  have hblock : col / 64 * 1024 + 1024 ≤ 16 * K := by omega
  rw [Nat.add_mul, Nat.one_mul, place]
  generalize row / 16 * (16 * K) = base
  omega

theorem place_lt (hK : K % 64 = 0) (hr : row < pairs * 16) (hc : col < K) :
    place K row col < pairs * 16 * K := by
  have hpair : row / 16 + 1 ≤ pairs := by omega
  calc place K row col < (row / 16 + 1) * (16 * K) := (place_tile hK hc).2
    _ ≤ pairs * (16 * K) := Nat.mul_le_mul_right _ hpair
    _ = pairs * 16 * K := (Nat.mul_assoc _ _ _).symm

theorem place_bijOn (hK : K % 64 = 0) :
    Set.BijOn (fun e : ℕ × ℕ => place K e.1 e.2) {e | e.1 < pairs * 16 ∧ e.2 < K}
      {i | i < pairs * 16 * K} := by
  have hreads : ∀ c : ℕ → ℕ → ℕ, ∀ row < pairs * 16, ∀ col < K,
      toFragmentMajor pairs K (flatten K c) (place K row col) = c row col := by
    intro c row hr col hc
    rw [toFragmentMajor_place hK _ hr hc, flatten_row c hc]
  exact bijOn_of_reads (fun _ hr _ hc => place_lt hK hr hc) hreads

/-! ### The kernel's moves -/

theorem int32_of_lt {x : ℕ} (h : x < 2147483648) : int32 x = x :=
  wrap32_of_lt (by omega)

/-- The fields of a word's index. -/
theorem fields (w : ℕ) : w &&& 1 = w % 2 ∧ w >>> 1 &&& 3 = w / 2 % 4 ∧
    w >>> 3 &&& 3 = w / 8 % 4 ∧ w >>> 5 &&& 7 = w / 32 % 8 := by
  refine ⟨Nat.and_one_is_mod w, ?_, ?_, ?_⟩
  · rw [Nat.shiftRight_eq_div_pow]
    exact Nat.and_two_pow_sub_one_eq_mod _ 2
  · rw [Nat.shiftRight_eq_div_pow]
    exact Nat.and_two_pow_sub_one_eq_mod _ 2
  · rw [Nat.shiftRight_eq_div_pow]
    exact Nat.and_two_pow_sub_one_eq_mod _ 3

theorem srcOff_eq (K p j w : ℕ) : srcOff K p j w =
    int32 ((p * 16 + w % 2 * 8 + w / 32 % 8) * (K / 4) + j * 16 + w / 2 % 4 * 4 + w / 8 % 4) := by
  obtain ⟨h₁, h₂, h₃, h₄⟩ := fields w
  simp only [srcOff, h₁, h₂, h₃, h₄]

/-- Nested ranges run through one range. -/
theorem flatMap_range {β : Type*} (n m : ℕ) (f : ℕ → β) :
    ((List.range n).flatMap fun i => (List.range m).map fun j => f (i * m + j)) =
      (List.range (n * m)).map f := by
  induction n with
  | zero => simp
  | succ n ih =>
    rw [List.range_succ, List.flatMap_append, ih, Nat.succ_mul, List.range_add, List.map_append]
    simp

/-- The destinations in the order of the launch. -/
theorem map_fst_afragRepackMoves (hK : K % 64 = 0) :
    (afragRepackMoves pairs K).map Prod.fst =
      (List.range (pairs * 16 * K)).map fun i => 4 * int32 (i / 4) + (i % 4 : ℕ) := by
  have hwords : ∀ base : ℕ, (List.range 256).flatMap (fun w => (List.range 4).map fun b : ℕ =>
      4 * int32 (base + w) + ((b : ℕ) : ℤ)) = (List.range 1024).map fun c =>
        4 * int32 ((base * 4 + c) / 4) + (((base * 4 + c) % 4 : ℕ) : ℤ) := by
    intro base
    rw [← flatMap_range 256 4]
    refine List.flatMap_congr fun w _ => List.map_congr_left fun b hb => ?_
    have hb4 : b < 4 := List.mem_range.mp hb
    have hdiv : (base * 4 + (w * 4 + b)) / 4 = base + w := by omega
    have hmod : (base * 4 + (w * 4 + b)) % 4 = b := by omega
    rw [hdiv, hmod]
  have hquarter : 16 * (K / 4) * 4 = 16 * K := by omega
  have hsize : K / 64 * 1024 = 16 * K := by omega
  calc (afragRepackMoves pairs K).map Prod.fst
      = (List.range pairs).flatMap fun p => (List.range (K / 64)).flatMap fun j =>
          (List.range 256).flatMap fun w => (List.range 4).map fun b : ℕ =>
            4 * int32 (p * 16 * (K / 4) + j * 256 + w) + ((b : ℕ) : ℤ) := by
        simp only [afragRepackMoves, programMoves, dstOff, List.map_flatMap, List.map_map,
          Function.comp_def]
    _ = (List.range pairs).flatMap fun p => (List.range (K / 64)).flatMap fun j =>
          (List.range 1024).map fun c => 4 * int32 ((p * (16 * K) + (j * 1024 + c)) / 4) +
            (((p * (16 * K) + (j * 1024 + c)) % 4 : ℕ) : ℤ) := by
        refine List.flatMap_congr fun p _ => List.flatMap_congr fun j _ => ?_
        rw [hwords]
        refine List.map_congr_left fun c _ => ?_
        have hpos : (p * 16 * (K / 4) + j * 256) * 4 + c = p * (16 * K) + (j * 1024 + c) := by
          rw [← hquarter]
          ring
        rw [hpos]
    _ = (List.range pairs).flatMap fun p => (List.range (16 * K)).map fun c =>
          4 * int32 ((p * (16 * K) + c) / 4) + (((p * (16 * K) + c) % 4 : ℕ) : ℤ) := by
        refine List.flatMap_congr fun p _ => ?_
        rw [← hsize]
        exact flatMap_range (K / 64) 1024 fun c =>
          4 * int32 ((p * (K / 64 * 1024) + c) / 4) + (((p * (K / 64 * 1024) + c) % 4 : ℕ) : ℤ)
    _ = _ := by
        rw [Nat.mul_assoc]
        exact flatMap_range pairs (16 * K) fun i => 4 * int32 (i / 4) + ((i % 4 : ℕ) : ℤ)

theorem mem_afragRepackMoves {m : ℤ × ℤ} : m ∈ afragRepackMoves pairs K ↔
    ∃ p < pairs, ∃ j < K / 64, ∃ w < 256, ∃ b < 4,
      (4 * dstOff K p j w + (b : ℕ), 4 * srcOff K p j w + (b : ℕ)) = m := by
  simp only [afragRepackMoves, programMoves, List.mem_flatMap, List.mem_map, List.mem_range]

/-- A word's index is made up of its fields. -/
theorem fields_sum {w : ℕ} (hw : w < 256) :
    w / 32 % 8 * 32 + w / 8 % 4 * 8 + w / 2 % 4 * 2 + w % 2 = w := by
  omega

/-- The fields of an index that is made up of them. -/
theorem fields_of_sum {g t quad g2 : ℕ} (hg : g < 8) (ht : t < 4) (hquad : quad < 4)
    (hg2 : g2 < 2) : (g * 32 + t * 8 + quad * 2 + g2) / 32 % 8 = g ∧
      (g * 32 + t * 8 + quad * 2 + g2) / 8 % 4 = t ∧
      (g * 32 + t * 8 + quad * 2 + g2) / 2 % 4 = quad ∧
      (g * 32 + t * 8 + quad * 2 + g2) % 2 = g2 := by
  omega

/-- The place of row `16 p + 8 g2 + g` and column `64 j + 16 quad + 4 t + b`. -/
theorem place_fields (K p j : ℕ) {g2 g quad t b : ℕ} (hg2 : g2 < 2) (hg : g < 8)
    (hquad : quad < 4) (ht : t < 4) (hb : b < 4) :
    place K (p * 16 + g2 * 8 + g) (j * 64 + quad * 16 + t * 4 + b) =
      p * (16 * K) + j * 1024 + g * 128 + t * 32 + quad * 8 + g2 * 4 + b := by
  have h₁ : (p * 16 + g2 * 8 + g) / 16 = p := by omega
  have h₂ : (p * 16 + g2 * 8 + g) % 8 = g := by omega
  have h₃ : (p * 16 + g2 * 8 + g) / 8 % 2 = g2 := by omega
  have h₄ : (j * 64 + quad * 16 + t * 4 + b) / 64 = j := by omega
  have h₅ : (j * 64 + quad * 16 + t * 4 + b) / 4 % 4 = t := by omega
  have h₆ : (j * 64 + quad * 16 + t * 4 + b) / 16 % 4 = quad := by omega
  have h₇ : (j * 64 + quad * 16 + t * 4 + b) % 4 = b := by omega
  rw [place, h₁, h₂, h₃, h₄, h₅, h₆, h₇]

/-- Byte `b` of word `w` of program `(p, j)`: its place, and where it stands in the source. -/
theorem cell (hK : K % 64 = 0) (p j : ℕ) {w b : ℕ} (hw : w < 256) (hb : b < 4) :
    place K (p * 16 + w % 2 * 8 + w / 32 % 8) (j * 64 + w / 2 % 4 * 16 + w / 8 % 4 * 4 + b) =
        4 * (p * 16 * (K / 4) + j * 256 + w) + b ∧
      (p * 16 + w % 2 * 8 + w / 32 % 8) * K + (j * 64 + w / 2 % 4 * 16 + w / 8 % 4 * 4 + b) =
        4 * ((p * 16 + w % 2 * 8 + w / 32 % 8) * (K / 4) + j * 16 + w / 2 % 4 * 4 + w / 8 % 4) +
          b := by
  have hquarter : K = 4 * (K / 4) := by omega
  constructor
  · have htile : p * (16 * K) = 4 * (p * 16 * (K / 4)) := by
      calc p * (16 * K) = p * (16 * (4 * (K / 4))) := by rw [← hquarter]
        _ = 4 * (p * 16 * (K / 4)) := by ring
    rw [place_fields K p j (by omega) (by omega) (by omega) (by omega) hb, htile]
    have hsum := fields_sum hw
    generalize p * 16 * (K / 4) = base
    omega
  · generalize p * 16 + w % 2 * 8 + w / 32 % 8 = row
    have hrow : row * K = 4 * (row * (K / 4)) := by
      calc row * K = row * (4 * (K / 4)) := by rw [← hquarter]
        _ = 4 * (row * (K / 4)) := by ring
    rw [hrow]
    omega

/-- Within the bound no offset wraps. -/
theorem offsets_eq (hK : K % 64 = 0) (hmax : pairs * 16 * K ≤ 8589934592) {p j w b : ℕ}
    (hp : p < pairs) (hj : j < K / 64) (hw : w < 256) (hb : b < 4) :
    4 * dstOff K p j w + (b : ℤ) = (place K (p * 16 + w % 2 * 8 + w / 32 % 8)
        (j * 64 + w / 2 % 4 * 16 + w / 8 % 4 * 4 + b) : ℕ) ∧
      4 * srcOff K p j w + (b : ℤ) = ((p * 16 + w % 2 * 8 + w / 32 % 8) * K +
        (j * 64 + w / 2 % 4 * 16 + w / 8 % 4 * 4 + b) : ℕ) := by
  have hr : p * 16 + w % 2 * 8 + w / 32 % 8 < pairs * 16 := by omega
  have hc : j * 64 + w / 2 % 4 * 16 + w / 8 % 4 * 4 + b < K := by omega
  have hto := place_lt hK hr hc
  have hfrom := row_mul_add_lt hr hc
  obtain ⟨hdst, hsrc⟩ := cell hK p j hw hb
  rw [hdst] at hto ⊢
  rw [hsrc] at hfrom ⊢
  rw [dstOff, srcOff_eq, int32_of_lt (by omega), int32_of_lt (by omega)]
  constructor <;> push_cast <;> ring

/-- Within the bound the kernel moves the bytes of the rows to their places. -/
theorem mem_moves_iff (hK : K % 64 = 0) (hmax : pairs * 16 * K ≤ 8589934592) (m : ℤ × ℤ) :
    m ∈ afragRepackMoves pairs K ↔
      ∃ row < pairs * 16, ∃ col < K,
        m = ((place K row col : ℤ), ((row * K + col : ℕ) : ℤ)) := by
  rw [mem_afragRepackMoves]
  constructor
  · rintro ⟨p, hp, j, hj, w, hw, b, hb, rfl⟩
    obtain ⟨hdst, hsrc⟩ := offsets_eq hK hmax hp hj hw hb
    exact ⟨_, by omega, _, by omega, Prod.ext hdst hsrc⟩
  · rintro ⟨row, hr, col, hc, rfl⟩
    have hrow : row / 16 * 16 + row / 8 % 2 * 8 + row % 8 = row := by omega
    have hcol : col / 64 * 64 + col / 16 % 4 * 16 + col / 4 % 4 * 4 + col % 4 = col := by omega
    have hw : row % 8 * 32 + col / 4 % 4 * 8 + col / 16 % 4 * 2 + row / 8 % 2 < 256 := by
      have h₁ : row % 8 < 8 := Nat.mod_lt _ (by decide)
      have h₂ : col / 4 % 4 < 4 := Nat.mod_lt _ (by decide)
      have h₃ : col / 16 % 4 < 4 := Nat.mod_lt _ (by decide)
      have h₄ : row / 8 % 2 < 2 := Nat.mod_lt _ (by decide)
      omega
    have hb : col % 4 < 4 := Nat.mod_lt _ (by decide)
    have hp : row / 16 < pairs := by omega
    have hj : col / 64 < K / 64 := by omega
    refine ⟨row / 16, hp, col / 64, hj, _, hw, col % 4, hb, ?_⟩
    obtain ⟨hdst, hsrc⟩ := offsets_eq hK hmax hp hj hw hb
    rw [hdst, hsrc]
    obtain ⟨h₁, h₂, h₃, h₄⟩ := @fields_of_sum (row % 8) (col / 4 % 4) (col / 16 % 4) (row / 8 % 2)
      (by omega) (by omega) (by omega) (by omega)
    rw [h₁, h₂, h₃, h₄, hrow, hcol]

/-- Within the bound the destinations are the first bytes, in order. -/
theorem destinations_eq (hK : K % 64 = 0) (hmax : pairs * 16 * K ≤ 8589934592) :
    (afragRepackMoves pairs K).map Prod.fst =
      (List.range (pairs * 16 * K)).map fun i => ((i : ℕ) : ℤ) := by
  rw [map_fst_afragRepackMoves hK]
  refine List.map_congr_left fun i hi => ?_
  have hi' := List.mem_range.mp hi
  rw [int32_of_lt (by omega)]
  omega

/-- Within the bound the repack is the reference. -/
theorem repackOk (hK : K % 64 = 0) (hmax : pairs * 16 * K ≤ 8589934592) :
    RepackOk pairs K := by
  have hwritten : ∀ a : ℤ, a ∈ (afragRepackMoves pairs K).map Prod.fst ↔
      0 ≤ a ∧ a < ((pairs * 16 * K : ℕ) : ℤ) := by
    intro a
    rw [destinations_eq hK hmax, List.mem_map]
    constructor
    · rintro ⟨i, hi, rfl⟩
      have := List.mem_range.mp hi
      omega
    · rintro ⟨h₀, h₁⟩
      exact ⟨a.toNat, List.mem_range.mpr (by omega), by omega⟩
  constructor
  case moves => exact mem_moves_iff hK hmax
  case once =>
    rw [destinations_eq hK hmax]
    exact List.nodup_range.map fun i j h => Int.ofNat.inj h
  case written => exact hwritten
  case bijective => exact place_bijOn hK
  case tiles => exact fun row _ col hc => place_tile hK hc
  case result =>
    intro src dst l hl
    refine ⟨fun i hi => ?_, fun a ha => ?_⟩
    · obtain ⟨⟨row, col⟩, ⟨hr, hc⟩, hplace⟩ := (place_bijOn hK).surjOn hi
      replace hplace : place K row col = i := hplace
      subst hplace
      rw [toFragmentMajor_place hK _ hr hc]
      refine stores_of_mem ?_ ?_
      · exact List.mem_map.mpr ⟨_, hl.mem_iff.mpr ((mem_moves_iff hK hmax _).mpr
          ⟨row, hr, col, hc, rfl⟩), rfl⟩
      · -- another move to this place would be of the same byte
        intro x hx hfst
        obtain ⟨m, hm, rfl⟩ := List.mem_map.mp hx
        obtain ⟨row', hr', col', hc', rfl⟩ := (mem_moves_iff hK hmax m).mp (hl.mem_iff.mp hm)
        have heq : place K row' col' = place K row col := Int.ofNat.inj hfst
        have hsame : (row', col') = (row, col) :=
          (place_bijOn hK).injOn (show row' < pairs * 16 ∧ col' < K from ⟨hr', hc'⟩)
            (show row < pairs * 16 ∧ col < K from ⟨hr, hc⟩) heq
        obtain ⟨rfl, rfl⟩ := Prod.mk.inj hsame
        rfl
    · refine stores_of_notMem fun x hx hfst => ha ?_
      obtain ⟨m, hm, rfl⟩ := List.mem_map.mp hx
      exact hfst ▸ (hwritten m.1).mp (List.mem_map_of_mem (hl.mem_iff.mp hm))

/-- Beyond the bound the offset of some word wraps to before the destination. -/
theorem not_repackOk (hK : K % 64 = 0) (hmax : 8589934592 < pairs * 16 * K) :
    ¬ RepackOk pairs K := by
  intro h
  have hmem : (4 * int32 (8589934592 / 4) + (8589934592 % 4 : ℕ) : ℤ) ∈
      (afragRepackMoves pairs K).map Prod.fst := by
    rw [map_fst_afragRepackMoves hK]
    exact List.mem_map.mpr ⟨8589934592, List.mem_range.mpr hmax, rfl⟩
  have hneg := ((h.written _).mp hmem).1
  exact absurd hneg (by decide)

/-- **The single-pass repack is the reference permutation** as long as the destination has at most
`2 ^ 33` bytes: for every number of pairs and every `K` that is a multiple of 64, it moves
exactly the bytes of the first rows, each once and to its place, the result is the reference
whatever the order of the moves, and every tile keeps its own range. -/
theorem afragRepack_ok_iff (pairs K : ℕ) (hK : K % 64 = 0) :
    RepackOk pairs K ↔ pairs * 16 * K ≤ 8589934592 :=
  ⟨fun h => Nat.le_of_not_lt fun hlt => not_repackOk hK hlt h, repackOk hK⟩

theorem afragRepack_ok_two : RepackOk 2 128 :=
  (afragRepack_ok_iff 2 128 (by decide)).mpr (by decide)

/-- With `2 ^ 23 + 1` pairs of 64 columns the last tile goes to before the destination. -/
theorem afragRepack_wraps : ¬ RepackOk 8388609 64 :=
  not_repackOk (by decide) (by decide)

end Planes

end VllmMoet
