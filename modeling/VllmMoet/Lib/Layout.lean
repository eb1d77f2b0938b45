import Mathlib.Data.List.Forall2
import Mathlib.Data.Nat.Bitwise
import Mathlib.Data.Nat.Notation

/-!
# Views and permutations of a contiguous tensor

A contiguous tensor is a function on flat positions; a view of it with dimensions `dims` reads
the position `ravel dims idx` at the index `idx`. Permuting the dimensions and making the result
contiguous again moves the entry at `idx` to the position of the permuted index
(`permute_ravel`), so permuting by the inverse undoes it (`permute_inverse`).

`or_shift` reads a bitwise or of fields that do not overlap as a sum.
-/

namespace VllmMoet

universe u

/-! ### Flat positions and indices -/

/-- The number of elements of a tensor with these dimensions. -/
def numel : List ℕ → ℕ
  | [] => 1
  | d :: ds => d * numel ds

/-- The flat position of an index, the last dimension running fastest. -/
def ravel : List ℕ → List ℕ → ℕ
  | _ :: ds, i :: is => i * numel ds + ravel ds is
  | _, _ => 0

/-- The index of a flat position. -/
def unravel : List ℕ → ℕ → List ℕ
  | [], _ => []
  | _ :: ds, p => p / numel ds :: unravel ds (p % numel ds)

/-- An index within the dimensions. -/
def InDims (dims idx : List ℕ) : Prop :=
  List.Forall₂ (· < ·) idx dims

theorem ravel_lt {dims idx : List ℕ} (h : InDims dims idx) : ravel dims idx < numel dims := by
  induction h with
  | nil => exact Nat.one_pos
  | @cons i d is ds hi _ ih =>
    calc i * numel ds + ravel ds is < i * numel ds + numel ds := by omega
      _ = (i + 1) * numel ds := by rw [Nat.add_mul, Nat.one_mul]
      _ ≤ d * numel ds := Nat.mul_le_mul_right _ hi

theorem unravel_ravel {dims idx : List ℕ} (h : InDims dims idx) :
    unravel dims (ravel dims idx) = idx := by
  induction h with
  | nil => rfl
  | @cons i d is ds hi hs ih =>
    have hlt := ravel_lt hs
    have hdiv : (i * numel ds + ravel ds is) / numel ds = i := by
      rw [Nat.mul_comm, Nat.mul_add_div (by omega), Nat.div_eq_of_lt hlt, Nat.add_zero]
    have hmod : (i * numel ds + ravel ds is) % numel ds = ravel ds is := by
      rw [Nat.mul_comm, Nat.mul_add_mod, Nat.mod_eq_of_lt hlt]
    rw [ravel, unravel, hdiv, hmod, ih]

theorem inDims_unravel {dims : List ℕ} {p : ℕ} (h : p < numel dims) :
    InDims dims (unravel dims p) := by
  induction dims generalizing p with
  | nil => exact .nil
  | cons d ds ih =>
    have hpos : 0 < numel ds := Nat.pos_of_ne_zero fun h0 => by simp [numel, h0] at h
    refine .cons ?_ (ih (Nat.mod_lt _ hpos))
    exact (Nat.div_lt_iff_lt_mul hpos).mpr h

theorem ravel_unravel {dims : List ℕ} {p : ℕ} (h : p < numel dims) :
    ravel dims (unravel dims p) = p := by
  induction dims generalizing p with
  | nil =>
    have h : p < 1 := h
    simp only [ravel]
    omega
  | cons d ds ih =>
    have hpos : 0 < numel ds := Nat.pos_of_ne_zero fun h0 => by simp [numel, h0] at h
    rw [unravel, ravel, ih (Nat.mod_lt _ hpos), Nat.div_add_mod']

/-! ### Permuted dimensions -/

/-- The entries of a list at the given places. -/
def gather (l perm : List ℕ) : List ℕ :=
  perm.map fun k => l.getD k 0

/-- The places at which a permutation has `0`, `1`, … -/
def inversePerm (perm : List ℕ) : List ℕ :=
  (List.range perm.length).map fun k => perm.idxOf k

/-- Two permutations of as many places that undo each other. -/
structure Inverse (d : ℕ) (perm inv : List ℕ) : Prop where
  left : gather perm inv = List.range d
  right : gather inv perm = List.range d
  bound : ∀ k ∈ perm, k < d
  bound' : ∀ k ∈ inv, k < d
  inversePerm_eq : inversePerm perm = inv
  inversePerm_eq' : inversePerm inv = perm

theorem Inverse.symm {d : ℕ} {perm inv : List ℕ} (h : Inverse d perm inv) : Inverse d inv perm :=
  ⟨h.right, h.left, h.bound', h.bound, h.inversePerm_eq', h.inversePerm_eq⟩

@[simp] theorem length_gather (l perm : List ℕ) : (gather l perm).length = perm.length := by
  simp [gather]

theorem Inverse.length_eq {d : ℕ} {perm inv : List ℕ} (h : Inverse d perm inv) :
    perm.length = d := by
  have := congrArg List.length h.right
  simpa using this

theorem getD_gather {l perm : List ℕ} {i : ℕ} (hi : i < perm.length) :
    (gather l perm).getD i 0 = l.getD (perm.getD i 0) 0 := by
  simp [gather, List.getD_eq_getElem?_getD, hi]

theorem gather_range {l : List ℕ} {d : ℕ} (h : l.length = d) : gather l (List.range d) = l := by
  refine List.ext_getElem (by simp [h]) fun i hi _ => ?_
  simp only [length_gather, List.length_range] at hi
  simp [gather, List.getD_eq_getElem?_getD, h ▸ hi]

theorem gather_gather {l perm inv : List ℕ} (h : ∀ k ∈ inv, k < perm.length) :
    gather (gather l perm) inv = gather l (gather perm inv) := by
  simp only [gather, List.map_map]
  refine List.map_congr_left fun k hk => ?_
  exact getD_gather (h k hk)

theorem Inverse.gather_gather {d : ℕ} {perm inv l : List ℕ} (h : Inverse d perm inv)
    (hl : l.length = d) : gather (gather l perm) inv = l := by
  rw [VllmMoet.gather_gather (h.length_eq ▸ h.bound'), h.left, gather_range hl]

theorem InDims.length_eq {dims idx : List ℕ} (h : InDims dims idx) : idx.length = dims.length :=
  List.Forall₂.length_eq h

/-- The entries at the same places of an index and of its dimensions. -/
theorem InDims.gather {dims idx perm : List ℕ} (h : InDims dims idx)
    (hp : ∀ k ∈ perm, k < dims.length) : InDims (gather dims perm) (gather idx perm) := by
  refine List.forall₂_map_left_iff.mpr (List.forall₂_map_right_iff.mpr ?_)
  refine List.forall₂_same.mpr fun k hk => ?_
  have hk' := hp k hk
  rw [List.getD_eq_getElem?_getD, List.getD_eq_getElem?_getD, List.getElem?_eq_getElem hk',
    List.getElem?_eq_getElem (h.length_eq ▸ hk'), Option.getD_some, Option.getD_some]
  exact List.Forall₂.get h (h.length_eq ▸ hk') hk'

variable {α : Type u}

/-- `x.view(dims).permute(perm).contiguous()`. -/
def permute (dims perm : List ℕ) (x : ℕ → α) (p : ℕ) : α :=
  x (ravel dims (gather (unravel (gather dims perm) p) (inversePerm perm)))

/-- The entry at an index moves to the position of the permuted index. -/
theorem permute_ravel {d : ℕ} {dims perm inv idx : List ℕ} (hp : Inverse d perm inv)
    (hd : dims.length = d) (h : InDims dims idx) (x : ℕ → α) :
    permute dims perm x (ravel (gather dims perm) (gather idx perm)) = x (ravel dims idx) := by
  have hin : InDims (gather dims perm) (gather idx perm) := h.gather (hd ▸ hp.bound)
  rw [permute, unravel_ravel hin, hp.inversePerm_eq, hp.gather_gather (h.length_eq.trans hd)]

/-- A permutation moves every entry from some position within the tensor. -/
theorem exists_permute_eq {d : ℕ} {dims perm inv : List ℕ} (hp : Inverse d perm inv)
    (hd : dims.length = d) {p : ℕ} (h : p < numel (gather dims perm)) :
    ∃ q < numel dims, ∀ x : ℕ → α, permute dims perm x p = x q := by
  have hlen : (gather dims perm).length = d := (length_gather _ _).trans hp.length_eq
  have hin := InDims.gather (inDims_unravel h) (hlen ▸ hp.bound')
  rw [hp.gather_gather hd] at hin
  exact ⟨_, ravel_lt hin, fun x => by rw [permute, hp.inversePerm_eq]⟩

/-- A permutation depends on the entries of the tensor only. -/
theorem permute_congr {d : ℕ} {dims perm inv : List ℕ} (hp : Inverse d perm inv)
    (hd : dims.length = d) {x y : ℕ → α} (hxy : ∀ q < numel dims, x q = y q) {p : ℕ}
    (h : p < numel (gather dims perm)) : permute dims perm x p = permute dims perm y p := by
  obtain ⟨q, hq, he⟩ := exists_permute_eq hp hd h
  rw [he, he, hxy q hq]

/-- Permuting by the inverse undoes a permutation. -/
theorem permute_inverse {d : ℕ} {dims perm inv : List ℕ} (hp : Inverse d perm inv)
    (hd : dims.length = d) (x : ℕ → α) {p : ℕ} (h : p < numel dims) :
    permute (gather dims perm) inv (permute dims perm x) p = x p := by
  have hin := inDims_unravel h
  have hlen : (unravel dims p).length = d := hin.length_eq.trans hd
  rw [permute, hp.gather_gather hd, hp.inversePerm_eq', permute_ravel hp hd hin, ravel_unravel h]

/-! ### Fields of bits -/

/-- Fields that do not overlap: their bitwise or is their sum. -/
theorem or_shift {a b k : ℕ} (h : a < 2 ^ k) : a ||| b <<< k = a + b * 2 ^ k := by
  rw [Nat.lor_comm, ← Nat.shiftLeft_add_eq_or_of_lt h, Nat.shiftLeft_eq, Nat.add_comm]

end VllmMoet
