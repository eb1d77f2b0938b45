import Mathlib.Tactic.IntervalCases
import VllmMoet.Planes.Fragment

/-!
# The quintal plane

A quintal plane holds, for every nibble, its magnitude index within the class of its 2-bit code:
a base-5 digit. Four digits make a 10-bit word, and the eight words of a lane an 80-bit record
of five shorts, whose bytes are split over two sections of the block. With the 2-bit plane the
record gives back every nibble (`quintal_plane_spec`).
-/

namespace VllmMoet

namespace Planes

/-- `_NIBBLE_TO_CODE`. -/
def nibbleToCode (n : ℕ) : ℕ :=
  [2, 2, 2, 2, 2, 3, 3, 3, 1, 1, 1, 1, 1, 0, 0, 0].getD n 0

/-- A code of the big class. -/
def isBig (code : ℕ) : Bool :=
  code == 0 || code == 3

/-- `nibbles_to_quintal_digits`. -/
def quintalDigit (n : ℕ) : ℕ :=
  let mag := n &&& 7
  if isBig (nibbleToCode n) then mag - 5 else mag

variable (m : PlaneDims) (nib : ℕ → ℕ → ℕ)

/-- `words[lane, w]`: the four digits of a word. -/
def quintalWord (lane w : ℕ) : ℕ :=
  let d := fragmentMajor m fun row col => quintalDigit (nib row col)
  let p := (lane * 8 + w) * 4
  d p + 5 * d (p + 1) + 25 * d (p + 2) + 125 * d (p + 3)

/-- The body of the loop over the words: a word goes to bits `10 w` of the shorts. -/
def addWord (words : ℕ → ℕ) (shorts : ℕ → ℕ) (w : ℕ) : ℕ → ℕ :=
  let b := 10 * w
  let s := b / 16
  let off := b % 16
  let shorts := Function.update shorts s (shorts s ||| words w <<< off)
  if off > 6 then
    Function.update shorts (s + 1) (shorts (s + 1) ||| words w >>> (16 - off))
  else
    shorts

/-- The five shorts of a lane. -/
def laneShorts (words : ℕ → ℕ) (s : ℕ) : ℕ :=
  (List.range 8).foldl (addWord words) (fun _ => 0) s &&& 0xFFFF

/-- The ten bytes of a lane. -/
def laneByte (words : ℕ → ℕ) (i : ℕ) : ℕ :=
  (if i % 2 = 0 then laneShorts words (i / 2) &&& 0xFF else laneShorts words (i / 2) >>> 8) % 256

/-- `pack_quintal_fragment_major`: the blocks one after the other, and in each the first eight
bytes of every lane before the last two. -/
def packQuintalFragmentMajor (i : ℕ) : ℕ :=
  let blk := i / 320
  let o := i % 320
  if o < 256 then laneByte (quintalWord m nib (blk * 32 + o / 8)) (o % 8)
  else laneByte (quintalWord m nib (blk * 32 + (o - 256) / 2)) (8 + (o - 256) % 2)

/-- `quintal_fp4_plane_bytes`. -/
def quintalFp4PlaneBytes (n k : ℕ) : ℕ :=
  n * k * 5 / 16

/-! ### The decode -/

/-- The bytes of a lane of a block, of both sections. -/
def recordByte (plane : ℕ → ℕ) (blk lane i : ℕ) : ℕ :=
  if i < 8 then plane (blk * 320 + lane * 8 + i)
  else plane (blk * 320 + 256 + lane * 2 + (i - 8))

/-- The little-endian record of a lane, from its first `n` bytes. -/
def laneRecord (plane : ℕ → ℕ) (blk lane : ℕ) : ℕ → ℕ
  | 0 => 0
  | n + 1 => laneRecord plane blk lane n + recordByte plane blk lane n * 256 ^ n

/-- Word `w` of a record: bits `10 w` to `10 w + 9`. -/
def recordWord (record w : ℕ) : ℕ :=
  record >>> (10 * w) % 1024

/-- The magnitude index from a digit of a word and the base code. -/
def decodeMag (word j code : ℕ) : ℕ :=
  word / 5 ^ j % 5 + if isBig code then 5 else 0

/-- The nibble a word and the base code say. -/
def decodeNibble (word j code : ℕ) : ℕ :=
  decodeMag word j code + if code ≤ 1 then 8 else 0

/-! ### The record of a lane -/

theorem quintalDigit_lt {n : ℕ} (hn : n < 16) : quintalDigit n < 5 := by
  interval_cases n <;> decide

/-- Eight words of ten bits, one after the other. -/
def wordSum (words : ℕ → ℕ) : ℕ :=
  words 0 + 2 ^ 10 * words 1 + 2 ^ 20 * words 2 + 2 ^ 30 * words 3 + 2 ^ 40 * words 4 +
    2 ^ 50 * words 5 + 2 ^ 60 * words 6 + 2 ^ 70 * words 7

/-- Which words go into which short. -/
theorem laneShorts_or (words : ℕ → ℕ) :
    laneShorts words 0 = (words 0 ||| words 1 <<< 10) % 65536 ∧
    laneShorts words 1 = (words 1 >>> 6 ||| words 2 <<< 4 ||| words 3 <<< 14) % 65536 ∧
    laneShorts words 2 = (words 3 >>> 2 ||| words 4 <<< 8) % 65536 ∧
    laneShorts words 3 = (words 4 >>> 8 ||| words 5 <<< 2 ||| words 6 <<< 12) % 65536 ∧
    laneShorts words 4 = (words 6 >>> 4 ||| words 7 <<< 6) % 65536 := by
  have hmask : ∀ a : ℕ, a &&& 0xFFFF = a % 65536 := fun a => Nat.and_two_pow_sub_one_eq_mod a 16
  have hr : List.range 8 = [0, 1, 2, 3, 4, 5, 6, 7] := by decide
  simp only [laneShorts, hmask, hr, List.foldl_cons, List.foldl_nil, addWord]
  norm_num [Function.update_apply]

theorem laneShorts_eq (words : ℕ → ℕ) (hw : ∀ w < 8, words w < 1024) :
    laneShorts words 0 = (words 0 + words 1 * 2 ^ 10) % 65536 ∧
    laneShorts words 1 = (words 1 / 2 ^ 6 + words 2 * 2 ^ 4 + words 3 * 2 ^ 14) % 65536 ∧
    laneShorts words 2 = (words 3 / 2 ^ 2 + words 4 * 2 ^ 8) % 65536 ∧
    laneShorts words 3 = (words 4 / 2 ^ 8 + words 5 * 2 ^ 2 + words 6 * 2 ^ 12) % 65536 ∧
    laneShorts words 4 = (words 6 / 2 ^ 4 + words 7 * 2 ^ 6) % 65536 := by
  have h₀ := hw 0 (by decide)
  have h₁ := hw 1 (by decide)
  have h₂ := hw 2 (by decide)
  have h₃ := hw 3 (by decide)
  have h₄ := hw 4 (by decide)
  have h₅ := hw 5 (by decide)
  have h₆ := hw 6 (by decide)
  obtain ⟨e₀, e₁, e₂, e₃, e₄⟩ := laneShorts_or words
  simp only [Nat.shiftRight_eq_div_pow] at e₁ e₂ e₃ e₄
  -- the fields of a short do not overlap
  have f₀ : words 0 < 2 ^ 10 := h₀
  have f₁ : words 1 / 2 ^ 6 < 2 ^ 4 := by omega
  have f₁' : words 1 / 2 ^ 6 + words 2 * 2 ^ 4 < 2 ^ 14 := by omega
  have f₂ : words 3 / 2 ^ 2 < 2 ^ 8 := by omega
  have f₃ : words 4 / 2 ^ 8 < 2 ^ 2 := by omega
  have f₃' : words 4 / 2 ^ 8 + words 5 * 2 ^ 2 < 2 ^ 12 := by omega
  have f₄ : words 6 / 2 ^ 4 < 2 ^ 6 := by omega
  rw [or_shift f₀] at e₀
  rw [or_shift f₁, or_shift f₁'] at e₁
  rw [or_shift f₂] at e₂
  rw [or_shift f₃, or_shift f₃'] at e₃
  rw [or_shift f₄] at e₄
  exact ⟨e₀, e₁, e₂, e₃, e₄⟩

/-- The bytes of a lane, one after the other, are its words one after the other. -/
theorem laneByte_sum (words : ℕ → ℕ) (hw : ∀ w < 8, words w < 1024) :
    laneByte words 0 + laneByte words 1 * 256 ^ 1 + laneByte words 2 * 256 ^ 2 +
      laneByte words 3 * 256 ^ 3 + laneByte words 4 * 256 ^ 4 + laneByte words 5 * 256 ^ 5 +
      laneByte words 6 * 256 ^ 6 + laneByte words 7 * 256 ^ 7 + laneByte words 8 * 256 ^ 8 +
      laneByte words 9 * 256 ^ 9 = wordSum words := by
  have hlo : ∀ i, laneByte words (2 * i) = laneShorts words i % 256 := by
    intro i
    rw [laneByte, if_pos (by omega), Nat.mul_div_cancel_left i (by decide),
      Nat.and_two_pow_sub_one_eq_mod _ 8]
    omega
  have hhi : ∀ i, laneByte words (2 * i + 1) = laneShorts words i / 256 % 256 := by
    intro i
    rw [laneByte, if_neg (by omega), show (2 * i + 1) / 2 = i by omega,
      Nat.shiftRight_eq_div_pow]
  have h₀ := hw 0 (by decide)
  have h₁ := hw 1 (by decide)
  have h₂ := hw 2 (by decide)
  have h₃ := hw 3 (by decide)
  have h₄ := hw 4 (by decide)
  have h₅ := hw 5 (by decide)
  have h₆ := hw 6 (by decide)
  have h₇ := hw 7 (by decide)
  obtain ⟨e₀, e₁, e₂, e₃, e₄⟩ := laneShorts_eq words hw
  -- the two bytes of a short
  have short : ∀ i a, laneShorts words i = a % 65536 →
      laneByte words (2 * i) + laneByte words (2 * i + 1) * 256 = a % 65536 := by
    intro i a h
    rw [hlo, hhi]
    omega
  have s₀ := short 0 _ e₀
  have s₁ := short 1 _ e₁
  have s₂ := short 2 _ e₂
  have s₃ := short 3 _ e₃
  have s₄ := short 4 _ e₄
  simp only [Nat.mul_zero, Nat.zero_add, Nat.reduceMul, Nat.reduceAdd] at s₀ s₁ s₂ s₃ s₄
  rw [wordSum]
  omega

/-! ### The plane -/

theorem recordWord_wordSum (words : ℕ → ℕ) (hw : ∀ w < 8, words w < 1024) {w : ℕ} (h : w < 8) :
    recordWord (wordSum words) w = words w := by
  have h₀ := hw 0 (by decide)
  have h₁ := hw 1 (by decide)
  have h₂ := hw 2 (by decide)
  have h₃ := hw 3 (by decide)
  have h₄ := hw 4 (by decide)
  have h₅ := hw 5 (by decide)
  have h₆ := hw 6 (by decide)
  have h₇ := hw 7 (by decide)
  rw [recordWord, Nat.shiftRight_eq_div_pow, wordSum]
  interval_cases w <;> norm_num <;> omega

variable {m nib}

/-- The bytes of a lane are found in the two sections of its block. -/
theorem recordByte_pack {blk lane i : ℕ} (hl : lane < 32) (hi : i < 10) :
    recordByte (packQuintalFragmentMajor m nib) blk lane i =
      laneByte (quintalWord m nib (blk * 32 + lane)) i := by
  by_cases h : i < 8
  · have h₁ : (blk * 320 + lane * 8 + i) / 320 = blk := by omega
    have h₂ : (blk * 320 + lane * 8 + i) % 320 = lane * 8 + i := by omega
    have h₃ : (lane * 8 + i) / 8 = lane := by omega
    have h₄ : (lane * 8 + i) % 8 = i := by omega
    rw [recordByte, if_pos h, packQuintalFragmentMajor]
    simp only [h₁, h₂, h₃, h₄]
    exact if_pos (by omega)
  · have h₁ : (blk * 320 + 256 + lane * 2 + (i - 8)) / 320 = blk := by omega
    have h₂ : (blk * 320 + 256 + lane * 2 + (i - 8)) % 320 = 256 + lane * 2 + (i - 8) := by omega
    have h₃ : (256 + lane * 2 + (i - 8) - 256) / 2 = lane := by omega
    have h₄ : 8 + (256 + lane * 2 + (i - 8) - 256) % 2 = i := by omega
    rw [recordByte, if_neg h, packQuintalFragmentMajor]
    simp only [h₁, h₂, h₃, h₄]
    exact if_neg (by omega)

theorem laneRecord_pack {blk lane : ℕ} (hl : lane < 32)
    (hw : ∀ w < 8, quintalWord m nib (blk * 32 + lane) w < 1024) :
    laneRecord (packQuintalFragmentMajor m nib) blk lane 10 =
      wordSum (quintalWord m nib (blk * 32 + lane)) := by
  rw [← laneByte_sum _ hw]
  simp only [laneRecord, recordByte_pack hl (by decide : 0 < 10),
    recordByte_pack hl (by decide : 1 < 10), recordByte_pack hl (by decide : 2 < 10),
    recordByte_pack hl (by decide : 3 < 10), recordByte_pack hl (by decide : 4 < 10),
    recordByte_pack hl (by decide : 5 < 10), recordByte_pack hl (by decide : 6 < 10),
    recordByte_pack hl (by decide : 7 < 10), recordByte_pack hl (by decide : 8 < 10),
    recordByte_pack hl (by decide : 9 < 10)]
  omega

/-- The digits of a word are those of the four elements at its place. -/
theorem quintalWord_spec (h : ∀ row < m.N, ∀ col < m.K, nib row col < 16) {lane w : ℕ}
    (hp : (lane * 8 + w) * 4 + 3 < m.N * m.K) :
    quintalWord m nib lane w < 1024 ∧ ∀ j < 4, quintalWord m nib lane w / 5 ^ j % 5 =
      quintalDigit (fragmentMajor m nib ((lane * 8 + w) * 4 + j)) := by
  have hd : ∀ j < 4, quintalDigit (fragmentMajor m nib ((lane * 8 + w) * 4 + j)) < 5 := by
    intro j hj
    obtain ⟨row, hr, col, hk, he⟩ :=
      exists_fragmentMajor m (by omega : (lane * 8 + w) * 4 + j < m.N * m.K)
    exact he nib ▸ quintalDigit_lt (h row hr col hk)
  have hword : quintalWord m nib lane w =
      quintalDigit (fragmentMajor m nib ((lane * 8 + w) * 4)) +
        5 * quintalDigit (fragmentMajor m nib ((lane * 8 + w) * 4 + 1)) +
        25 * quintalDigit (fragmentMajor m nib ((lane * 8 + w) * 4 + 2)) +
        125 * quintalDigit (fragmentMajor m nib ((lane * 8 + w) * 4 + 3)) :=
    rfl
  have d₀ : quintalDigit (fragmentMajor m nib ((lane * 8 + w) * 4)) < 5 := hd 0 (by decide)
  have d₁ := hd 1 (by decide)
  have d₂ := hd 2 (by decide)
  have d₃ := hd 3 (by decide)
  rw [hword]
  refine ⟨by omega, fun j hj => ?_⟩
  interval_cases j <;> norm_num <;> omega

/-- A digit and the base code say the magnitude index and the sign. -/
theorem decode_digit {n word j : ℕ} (hn : n < 16) (hd : word / 5 ^ j % 5 = quintalDigit n) :
    decodeMag word j (nibbleToCode n) = n &&& 7 ∧ (nibbleToCode n ≤ 1 ↔ 8 ≤ n) ∧
      decodeNibble word j (nibbleToCode n) = n := by
  rw [decodeNibble, decodeMag, hd]
  interval_cases n <;> decide

/-- **The quintal plane with the 2-bit plane determines every nibble.** -/
theorem quintal_plane_spec (m : PlaneDims) (nib : ℕ → ℕ → ℕ)
    (h : ∀ row < m.N, ∀ col < m.K, nib row col < 16) :
    quintalFp4PlaneBytes m.N m.K = m.N / 16 * (m.K / 64) * 320 ∧
    (∀ i, packQuintalFragmentMajor m nib i < 256) ∧
    (∀ row < m.N, ∀ col < m.K,
      let p := planeIndex m row col
      let word := recordWord (laneRecord (packQuintalFragmentMajor m nib) (p / 1024)
        (p / 32 % 32) 10) (p % 32 / 4)
      let code := codeAt (packFragmentMajor m fun row col => nibbleToCode (nib row col)) p
      decodeMag word (p % 4) code = nib row col &&& 7 ∧ (code ≤ 1 ↔ 8 ≤ nib row col) ∧
        decodeNibble word (p % 4) code = nib row col) ∧
    ∀ blk < m.N / 16 * (m.K / 64), ∀ lane < 32,
      laneRecord (packQuintalFragmentMajor m nib) blk lane 10 =
        wordSum (quintalWord m nib (blk * 32 + lane)) ∧
      ∀ w < 8, quintalWord m nib (blk * 32 + lane) w < 1024 ∧ ∀ j < 4,
        recordWord (laneRecord (packQuintalFragmentMajor m nib) blk lane 10) w / 5 ^ j % 5 =
          quintalDigit (fragmentMajor m nib (((blk * 32 + lane) * 8 + w) * 4 + j)) ∧
        packFragmentMajor m (fun row col => nibbleToCode (nib row col))
            ((blk * 32 + lane) * 8 + w) >>> (2 * j) &&& 3 =
          nibbleToCode (fragmentMajor m nib (((blk * 32 + lane) * 8 + w) * 4 + j)) := by
  have hN : m.N = 16 * (m.N / 16) := by have := m.hN; omega
  have hK : m.K = 64 * (m.K / 64) := by have := m.hK; omega
  have hsize : m.N * m.K = m.N / 16 * (m.K / 64) * 1024 :=
    calc m.N * m.K = 16 * (m.N / 16) * (64 * (m.K / 64)) := by rw [← hN, ← hK]
      _ = m.N / 16 * (m.K / 64) * 1024 := by ring
  -- the 2-bit plane: the code of a nibble, at the place of its column
  have hcode : ∀ p < m.N * m.K,
      codeAt (packFragmentMajor m fun row col => nibbleToCode (nib row col)) p =
        nibbleToCode (fragmentMajor m nib p) := by
    intro p hp
    refine codeAt_packFragmentMajor (fun row hr col hk => ?_) hp
    have hlt := h row hr col hk
    generalize nib row col = n at hlt
    interval_cases n <;> decide
  have hlane : ∀ blk < m.N / 16 * (m.K / 64), ∀ lane < 32, ∀ w < 8,
      ((blk * 32 + lane) * 8 + w) * 4 + 3 < m.N * m.K := by
    intro blk hb lane hl w hw
    omega
  -- the quintal plane: eight words of ten bits in the ten bytes of a lane
  have hrecord : ∀ blk < m.N / 16 * (m.K / 64), ∀ lane < 32,
      laneRecord (packQuintalFragmentMajor m nib) blk lane 10 =
        wordSum (quintalWord m nib (blk * 32 + lane)) := fun blk hb lane hl =>
    laneRecord_pack hl fun w hw => (quintalWord_spec h (hlane blk hb lane hl w hw)).1
  have hword : ∀ blk < m.N / 16 * (m.K / 64), ∀ lane < 32, ∀ w < 8,
      recordWord (laneRecord (packQuintalFragmentMajor m nib) blk lane 10) w =
        quintalWord m nib (blk * 32 + lane) w := by
    intro blk hb lane hl w hw
    rw [hrecord blk hb lane hl]
    exact recordWord_wordSum _
      (fun w hw => (quintalWord_spec h (hlane blk hb lane hl w hw)).1) hw
  refine ⟨?_, fun i => ?_, fun row hr col hk => ?_, fun blk hb lane hl =>
    ⟨hrecord blk hb lane hl, fun w hw => ⟨?_, fun j hj => ⟨?_, ?_⟩⟩⟩⟩
  · rw [quintalFp4PlaneBytes, hsize]
    omega
  · rw [packQuintalFragmentMajor]
    have hbyte : ∀ words i, laneByte words i < 256 := fun words i => Nat.mod_lt _ (by decide)
    split <;> exact hbyte _ _
  · -- a column is digit `p % 4` of word `p % 32 / 4` of lane `p / 32 % 32` of block `p / 1024`
    have hp := planeIndex_lt m hr hk
    have hblk : planeIndex m row col / 1024 < m.N / 16 * (m.K / 64) := by omega
    have hl : planeIndex m row col / 32 % 32 < 32 := Nat.mod_lt _ (by decide)
    have hw : planeIndex m row col % 32 / 4 < 8 := by omega
    have hj : planeIndex m row col % 4 < 4 := Nat.mod_lt _ (by decide)
    have hplace : ((planeIndex m row col / 1024 * 32 + planeIndex m row col / 32 % 32) * 8 +
        planeIndex m row col % 32 / 4) * 4 + planeIndex m row col % 4 = planeIndex m row col := by
      omega
    have hdigit := (quintalWord_spec h (hlane _ hblk _ hl _ hw)).2 _ hj
    rw [hplace, fragmentMajor_planeIndex m nib hr hk] at hdigit
    dsimp only
    rw [hword _ hblk _ hl _ hw, hcode _ hp, fragmentMajor_planeIndex m nib hr hk]
    exact decode_digit (h row hr col hk) hdigit
  · exact (quintalWord_spec h (hlane blk hb lane hl w hw)).1
  · rw [hword blk hb lane hl w hw]
    exact (quintalWord_spec h (hlane blk hb lane hl w hw)).2 j hj
  · have h₁ : (((blk * 32 + lane) * 8 + w) * 4 + j) / 4 = (blk * 32 + lane) * 8 + w := by omega
    have h₂ : (((blk * 32 + lane) * 8 + w) * 4 + j) % 4 = j := by omega
    have hc := hcode (((blk * 32 + lane) * 8 + w) * 4 + j)
      (by have := hlane blk hb lane hl w hw; omega)
    rwa [codeAt, h₁, h₂] at hc

theorem quintal_plane_spec_oneBlock :
    laneRecord (packQuintalFragmentMajor oneBlock fun row col => (row + col) % 16) 0 5 10 =
      wordSum (quintalWord oneBlock (fun row col => (row + col) % 16) 5) :=
  ((quintal_plane_spec oneBlock (fun row col => (row + col) % 16)
    (fun _ _ _ _ => Nat.mod_lt _ (by decide))).2.2.2 0 (by decide) 5 (by decide)).1

end Planes

end VllmMoet
