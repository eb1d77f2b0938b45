import VllmMoet.Lib.Layout
import VllmMoet.Lib.Scatter

/-!
# The BF16 12-bit container

A weight of 16 bits is stored as its low byte and a 4-bit code of its high byte: the sign, and
the place of the other seven bits among the seven most frequent classes, or `7` for an escape.
The decoder looks the codes up in a table of 16 high bytes and then overwrites the escapes from
a list of byte positions.

`decodeInto_encodeBf12` says that the decoder gives back every byte, over whatever the buffer
held: a code that is not an escape is looked up to the high byte it was made from
(`lut16_codes`), and every escape is in the list.
-/

namespace VllmMoet

namespace Bf12

/-! ### The encoder -/

/-- A result of `argsort(descending=True)` of `n` counts, with ties in any order. -/
structure DescArgsort (count : ℕ → ℕ) (n : ℕ) where
  order : List ℕ
  perm : order.Perm (List.range n)
  sorted : order.Pairwise fun i j => count j ≤ count i

section Encode

variable (n : ℕ) (w : ℕ → ℕ)

/-- `view(torch.uint8)` of 16-bit words: little-endian byte pairs. -/
def wordBytes (p : ℕ) : ℕ :=
  if p % 2 = 0 then w (p / 2) % 256 else w (p / 2) / 256 % 256

/-- `w_u8[1::2]`. -/
def hi (i : ℕ) : ℕ :=
  wordBytes w (1 + 2 * i)

/-- `w_u8[0::2]`. -/
def lo (i : ℕ) : ℕ :=
  wordBytes w (2 * i)

/-- `ecls`: the high byte without the sign. -/
def ecls (i : ℕ) : ℕ :=
  hi w i &&& 0x7F

/-- `torch.bincount(ecls)`. -/
def bincount (c : ℕ) : ℕ :=
  (List.range n).countP fun i => ecls w i == c

variable {n w} (o : DescArgsort (bincount n w) 128)

/-- `top7`. -/
def top7 : List ℕ :=
  o.order.take 7

/-- `inv`: the place of a class among the seven, `7` where it is not one of them. -/
def inv (c : ℕ) : ℕ :=
  writes (fun i => (top7 o).getD i 0) (fun i => i) (fun _ => 7) (List.range 7) c

/-- `cls`. -/
def cls (i : ℕ) : ℕ :=
  inv o (ecls w i)

/-- `codes`: the sign bit and the class. -/
def codes (i : ℕ) : ℕ :=
  (hi w i >>> 7) <<< 3 ||| cls o i

/-- `nib`: two codes a byte. -/
def nib (k : ℕ) : ℕ :=
  (codes o (2 * k) ||| codes o (1 + 2 * k) <<< 4) % 256

/-- `esc_idx`. -/
def escIdx : List ℕ :=
  (List.range n).filter fun i => cls o i == 7

/-- `lut16`: zeros, then the seven classes, then the seven classes with the sign. -/
def lut16 : ℕ → ℕ :=
  let zeros : ℕ → ℕ := fun _ => 0
  let positive := writes (fun i => i) (fun i => (top7 o).getD i 0) zeros (List.range 7)
  writes (fun i => 8 + i) (fun i => (top7 o).getD i 0 ||| 0x80) positive (List.range 7)

/-- The planes of a converted layer. -/
structure Planes where
  nib : ℕ → ℕ
  lo : ℕ → ℕ
  escBytepos : List ℕ
  escHi : List ℕ
  lut16 : ℕ → ℕ

/-- `encode_bf12`. -/
def encodeBf12 : Planes where
  nib := nib o
  lo := lo w
  escBytepos := (escIdx o).map fun i => i * 2 + 1
  escHi := (escIdx o).map (hi w)
  lut16 := lut16 o

end Encode

/-! ### The decoder -/

/-- `out[start::step] = src`, for a slice of `count` elements. -/
def assignSlice (start step count : ℕ) (src out : ℕ → ℕ) : ℕ → ℕ :=
  writes (fun i => start + step * i) src out (List.range count)

/-- `_decode_into`, for a buffer of `2 n` bytes; the escapes are written in some order. -/
def decodeInto (esc : WriteOrder) (n : ℕ) (e : Planes) (out : ℕ → ℕ) : ℕ → ℕ :=
  let out := assignSlice 0 2 n e.lo out
  let out := assignSlice 1 4 (n / 2) (fun k => e.lut16 (e.nib k &&& 0xF)) out
  let out := assignSlice 3 4 (n / 2) (fun k => e.lut16 (e.nib k >>> 4)) out
  writes (fun i => e.escBytepos.getD i 0) (fun i => e.escHi.getD i 0) out
    (esc.order e.escBytepos.length)

/-! ### The table -/

section Table

variable {n : ℕ} {w : ℕ → ℕ} (o : DescArgsort (bincount n w) 128)

theorem length_top7 : (top7 o).length = 7 := by
  have := o.perm.length_eq
  simp only [List.length_range] at this
  simp [top7, this]

/-- The seven classes are different exponents. -/
theorem top7_nodup : (top7 o).Nodup :=
  List.Nodup.sublist (List.take_sublist _ _) (o.perm.nodup_iff.mpr List.nodup_range)

/-- The class of an index below seven is in the table. -/
theorem getElem?_top7 {i : ℕ} (hi : i < 7) : (top7 o)[i]? = some ((top7 o).getD i 0) := by
  rw [List.getD_eq_getElem?_getD, List.getElem?_eq_getElem (length_top7 o ▸ hi),
    Option.getD_some]

/-- What `inv` says of a class: its place among the seven, or that it has none. -/
theorem inv_spec (c : ℕ) : (inv o c < 7 ∧ (top7 o).getD (inv o c) 0 = c) ∨ inv o c = 7 := by
  by_cases h : ∃ i ∈ List.range 7, (top7 o).getD i 0 = c
  · obtain ⟨i, hi, he⟩ := h
    have hinv : inv o c = i := by
      refine writes_of_mem ⟨i, hi, he⟩ fun j hj hje => ?_
      have hi' := getElem?_top7 o (List.mem_range.mp hi)
      have hj' := getElem?_top7 o (List.mem_range.mp hj)
      rw [he] at hi'
      rw [hje] at hj'
      exact (List.getElem?_inj (length_top7 o ▸ List.mem_range.mp hj) (top7_nodup o)).mp
        (hj'.trans hi'.symm)
    rw [hinv]
    exact .inl ⟨List.mem_range.mp hi, he⟩
  · exact .inr (writes_of_notMem fun i hi he => h ⟨i, hi, he⟩)

/-- The eighth class is that of the rare exponents. -/
theorem cls_le (i : ℕ) : cls o i ≤ 7 := by
  rcases inv_spec o (ecls w i) with ⟨h, _⟩ | h
  · exact h.le
  · exact h.le

theorem hi_lt (i : ℕ) : hi w i < 256 := by
  rw [hi, wordBytes]
  split <;> exact Nat.mod_lt _ (by decide)

/-- The sign is dropped. -/
theorem ecls_eq (i : ℕ) : ecls w i = hi w i % 128 :=
  Nat.and_two_pow_sub_one_eq_mod _ 7

/-- A code is the sign and the class. -/
theorem codes_eq (i : ℕ) : codes o i = hi w i / 128 * 8 + cls o i := by
  have hc : cls o i < 2 ^ 3 := Nat.lt_succ_of_le (cls_le o i)
  have hs : hi w i >>> 7 = hi w i / 128 := Nat.shiftRight_eq_div_pow _ 7
  rw [codes, Nat.lor_comm, hs, or_shift hc]
  omega

/-- A code is a nibble. -/
theorem codes_lt (i : ℕ) : codes o i < 16 := by
  have h₁ := hi_lt (w := w) i
  have h₂ := cls_le o i
  rw [codes_eq]
  omega

/-- The table gives a code that is no escape the high byte it was made from. -/
theorem lut16_codes {i : ℕ} (h : cls o i ≠ 7) : lut16 o (codes o i) = hi w i := by
  obtain ⟨hlt, htop⟩ := (inv_spec o (ecls w i)).resolve_right h
  have hcls : (top7 o).getD (cls o i) 0 = hi w i % 128 := htop.trans (ecls_eq i)
  have hlt : cls o i < 7 := hlt
  have hhi := hi_lt (w := w) i
  rw [codes_eq]
  rcases Nat.lt_or_ge (hi w i) 128 with hpos | hneg
  · have hzero : hi w i / 128 = 0 := by omega
    rw [hzero, Nat.zero_mul, Nat.zero_add]
    have hskip : lut16 o (cls o i) =
        writes (fun i => i) (fun i => (top7 o).getD i 0) (fun _ => 0) (List.range 7) (cls o i) :=
      writes_of_notMem fun j _ hj => by omega
    rw [hskip]
    refine writes_of_mem ⟨cls o i, List.mem_range.mpr hlt, rfl⟩ fun j _ hj => ?_
    rw [hj, hcls]
    omega
  · have hone : hi w i / 128 = 1 := by omega
    rw [hone]
    refine writes_of_mem ⟨cls o i, List.mem_range.mpr hlt, by omega⟩ fun j _ hj => ?_
    have hj' : j = cls o i := by omega
    have hlt7 : hi w i % 128 < 2 ^ 7 := Nat.mod_lt _ (by decide)
    have hsum : hi w i % 128 ||| 1 <<< 7 = hi w i % 128 + 1 * 2 ^ 7 := or_shift hlt7
    have hbit : (1 <<< 7 : ℕ) = 0x80 := by decide
    rw [hbit] at hsum
    rw [hj', hcls, hsum]
    omega

/-- The two codes of a byte. -/
theorem nib_spec (k : ℕ) :
    nib o k &&& 0xF = codes o (2 * k) ∧ nib o k >>> 4 = codes o (1 + 2 * k) := by
  have h₀ := codes_lt o (2 * k)
  have h₁ := codes_lt o (1 + 2 * k)
  have hbyte : nib o k = codes o (2 * k) + codes o (1 + 2 * k) * 16 := by
    rw [nib, or_shift (h₀ : _ < 2 ^ 4)]
    exact Nat.mod_eq_of_lt (by omega)
  have hmask : nib o k &&& 0xF = nib o k % 16 := Nat.and_two_pow_sub_one_eq_mod _ 4
  have hshift : nib o k >>> 4 = nib o k / 16 := Nat.shiftRight_eq_div_pow _ 4
  omega

end Table

/-! ### The round trip -/

section RoundTrip

variable {n : ℕ} {w : ℕ → ℕ} (o : DescArgsort (bincount n w) 128)

/-- A strided assignment at a place that it writes. -/
theorem assignSlice_of_mem {start step count : ℕ} {src out : ℕ → ℕ} {k p : ℕ} (hk : k < count)
    (hp : start + step * k = p) (hstep : 0 < step) : assignSlice start step count src out p = src k := by
  refine writes_of_mem ⟨k, List.mem_range.mpr hk, hp⟩ fun j _ hj => ?_
  have : j = k := Nat.eq_of_mul_eq_mul_left hstep (by omega)
  rw [this]

/-- A strided assignment at a place that it leaves alone. -/
theorem assignSlice_of_notMem {start step count : ℕ} {src out : ℕ → ℕ} {p : ℕ}
    (hp : ∀ k < count, start + step * k ≠ p) : assignSlice start step count src out p = out p :=
  writes_of_notMem fun k hk => hp k (List.mem_range.mp hk)

/-- What the buffer holds before the escapes are written. -/
theorem slices_spec (hn : n % 2 = 0) (out : ℕ → ℕ) {i : ℕ} (hi' : i < n) :
    let out₁ := assignSlice 0 2 n (lo w) out
    let out₂ := assignSlice 1 4 (n / 2) (fun k => lut16 o (nib o k &&& 0xF)) out₁
    let out₃ := assignSlice 3 4 (n / 2) (fun k => lut16 o (nib o k >>> 4)) out₂
    out₃ (2 * i) = lo w i ∧ out₃ (1 + 2 * i) = lut16 o (codes o i) := by
  intro out₁ out₂ out₃
  constructor
  · have h₃ : out₃ (2 * i) = out₂ (2 * i) := assignSlice_of_notMem fun k _ => by omega
    have h₂ : out₂ (2 * i) = out₁ (2 * i) := assignSlice_of_notMem fun k _ => by omega
    rw [h₃, h₂]
    exact assignSlice_of_mem hi' (by omega) (by decide)
  · rcases Nat.mod_two_eq_zero_or_one i with h | h
    · have h₃ : out₃ (1 + 2 * i) = out₂ (1 + 2 * i) := assignSlice_of_notMem fun k _ => by omega
      have h₂ : out₂ (1 + 2 * i) = lut16 o (nib o (i / 2) &&& 0xF) :=
        assignSlice_of_mem (by omega) (by omega) (by decide)
      rw [h₃, h₂, (nib_spec o (i / 2)).1, show 2 * (i / 2) = i by omega]
    · have h₃ : out₃ (1 + 2 * i) = lut16 o (nib o (i / 2) >>> 4) :=
        assignSlice_of_mem (by omega) (by omega) (by decide)
      rw [h₃, (nib_spec o (i / 2)).2, show 1 + 2 * (i / 2) = i by omega]

/-- Only the high bytes of escapes are overwritten, each with its own. -/
theorem escapes_spec (esc : WriteOrder) (out : ℕ → ℕ) :
    let pos := (escIdx o).map fun i => i * 2 + 1
    let result := writes (fun i => pos.getD i 0) (fun i => ((escIdx o).map (hi w)).getD i 0) out
      (esc.order pos.length)
    (∀ i, result (2 * i) = out (2 * i)) ∧
      ∀ i < n, result (1 + 2 * i) = if cls o i = 7 then hi w i else out (1 + 2 * i) := by
  intro pos result
  have hlen : pos.length = (escIdx o).length := List.length_map _
  -- what is written at a place of the list
  have hat : ∀ j ∈ esc.order pos.length, ∃ i, (escIdx o)[j]? = some i ∧
      pos.getD j 0 = i * 2 + 1 ∧ ((escIdx o).map (hi w)).getD j 0 = hi w i := by
    intro j hj
    have hj' := esc.mem_order.mp hj
    have hget := List.getElem?_eq_getElem (hlen ▸ hj')
    refine ⟨_, hget, ?_, ?_⟩
    · simp only [pos, List.getD_eq_getElem?_getD, List.getElem?_map, hget, Option.map_some,
        Option.getD_some]
    · simp only [List.getD_eq_getElem?_getD, List.getElem?_map, hget, Option.map_some,
        Option.getD_some]
  refine ⟨fun i => ?_, fun i hi' => ?_⟩
  · refine writes_of_notMem fun j hj he => ?_
    obtain ⟨i', _, hpos, _⟩ := hat j hj
    omega
  · by_cases h : cls o i = 7
    · rw [if_pos h]
      have hmem : i ∈ escIdx o :=
        List.mem_filter.mpr ⟨List.mem_range.mpr hi', beq_iff_eq.mpr h⟩
      obtain ⟨j, hj⟩ := List.mem_iff_getElem?.mp hmem
      obtain ⟨hjlt, _⟩ := List.getElem?_eq_some_iff.mp hj
      have hjo : j ∈ esc.order pos.length := esc.mem_order.mpr (hlen ▸ hjlt)
      refine writes_of_mem ⟨j, hjo, ?_⟩ fun j' hj' he => ?_
      · obtain ⟨i', hi'', hpos, _⟩ := hat j hjo
        rw [hj, Option.some_inj] at hi''
        omega
      · obtain ⟨i', _, hpos, hhi⟩ := hat j' hj'
        rw [hhi, show i' = i by omega]
    · rw [if_neg h]
      refine writes_of_notMem fun j hj he => h ?_
      obtain ⟨i', hi'', hpos, _⟩ := hat j hj
      have hmem := List.mem_filter.mp (List.mem_of_getElem? hi'')
      rw [show i' = i by omega] at hmem
      exact beq_iff_eq.mp hmem.2

/-- Whatever the buffer held, decoding the planes of an even number of words gives their bytes. -/
theorem decodeInto_apply (esc : WriteOrder) (hn : n % 2 = 0) (out : ℕ → ℕ) {p : ℕ}
    (hp : p < 2 * n) : decodeInto esc n (encodeBf12 o) out p = wordBytes w p := by
  have hi' : p / 2 < n := by omega
  obtain ⟨hlo, hhi⟩ := slices_spec o hn out hi'
  obtain ⟨heven, hodd⟩ := escapes_spec o esc
    (assignSlice 3 4 (n / 2) (fun k => lut16 o (nib o k >>> 4))
      (assignSlice 1 4 (n / 2) (fun k => lut16 o (nib o k &&& 0xF))
        (assignSlice 0 2 n (lo w) out)))
  rcases Nat.mod_two_eq_zero_or_one p with h | h
  · have hpe : p = 2 * (p / 2) := by omega
    rw [hpe]
    exact (heven (p / 2)).trans hlo
  · have hpo : p = 1 + 2 * (p / 2) := by omega
    rw [hpo]
    refine (hodd (p / 2) hi').trans ?_
    by_cases hc : cls o (p / 2) = 7
    · rw [if_pos hc, hi]
    · rw [if_neg hc, ← hi, ← lut16_codes o hc]
      exact hhi

/-- **The container is lossless**: every byte of the buffer is written, and the words are those
that were encoded. -/
theorem decodeInto_encodeBf12 (esc : WriteOrder) (hn : n % 2 = 0) (hw : ∀ i < n, w i < 65536)
    (out : ℕ → ℕ) :
    (∀ p < 2 * n, decodeInto esc n (encodeBf12 o) out p = wordBytes w p) ∧
      ∀ i < n, decodeInto esc n (encodeBf12 o) out (2 * i) +
        256 * decodeInto esc n (encodeBf12 o) out (2 * i + 1) = w i := by
  refine ⟨fun p hp => decodeInto_apply o esc hn out hp, fun i hi' => ?_⟩
  have hlt := hw i hi'
  rw [decodeInto_apply o esc hn out (by omega), decodeInto_apply o esc hn out (by omega),
    wordBytes, wordBytes, if_pos (by omega), if_neg (by omega), show 2 * i / 2 = i by omega,
    show (2 * i + 1) / 2 = i by omega]
  omega

/-- Two words, of one class up to the sign. -/
def twoWords (i : ℕ) : ℕ :=
  if i = 0 then 0x3F80 else 0xBF01

/-- The classes of the two words: their own first, the others after it. -/
def twoWordsArgsort : DescArgsort (bincount 2 twoWords) 128 where
  order := 63 :: (List.range 128).erase 63
  perm := by decide +kernel
  sorted := by decide +kernel

theorem decodeInto_encodeBf12_twoWords :
    decodeInto .ascending 2 (encodeBf12 twoWordsArgsort) (fun _ => 0xAA) 3 = 0xBF :=
  ((decodeInto_encodeBf12 twoWordsArgsort .ascending rfl (by decide) fun _ => 0xAA).1 3
    (by decide)).trans rfl

end RoundTrip

end Bf12

end VllmMoet
