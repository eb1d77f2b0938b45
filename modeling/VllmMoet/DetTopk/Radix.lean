import VllmMoet.DetTopk.SelectDigit

/-!
# Buckets of keys

What all paths of `det_topk_sm120.cu` share: the `k`-th key is narrowed down digit by digit
(`Refined`), and the columns that the threshold takes are stored at their places.

* `selectDigit_refined`: a histogram of the bucket and `select_digit` refine the bucket;
* `histogram_countsDigits`, `histogram_flagsLow`: what the histograms of a bucket tell;
* `eq_of_agreesBelow`: where the flags say so, the keys of a bucket agree;
* `stores_eq_selection`: the stores leave the `k` columns that come first, in ascending order.
-/

namespace VllmMoet

namespace DetTopk

/-! ### The selection -/

/-- The keys as numbers. -/
def Row.keyNat (row : Row) (c : ℕ) : ℕ := (row.key c).toNat

/-- The output of a row: the first `k` columns in ascending order, and -1. -/
def selection (key : ℕ → ℕ) (n k : ℕ) (colBase : ℤ) (orow : ℕ → ℤ) (i : ℕ) : ℤ :=
  if i < k then
    match (firstColumns key n k)[i]? with
    | some c => colBase + c
    | none => -1
  else orow i

section Selection

variable {key : ℕ → ℕ} {n k : ℕ} {hi : ℕ → ℕ} {p r : ℕ} {l : List (ℕ × ℤ)} {colBase : ℤ}

/-- The stores at the places that a threshold gives leave the selection, in any order. -/
theorem stores_eq_selection (h : Threshold key n k hi p r)
    (hl : ∀ x, x ∈ l ↔ ∃ c < n, (p < hi (key c) ∨ hi (key c) = p ∧
      Nat.count (fun j => hi (key j) = p) c < r) ∧
      x = (Nat.count (fun j => p < hi (key j)) c +
        min (Nat.count (fun j => hi (key j) = p) c) r, colBase + c))
    (orow : ℕ → ℤ) : stores l orow = selection key n k colBase orow := by
  have hlen := h.length_firstColumns
  -- a store puts a column at its index in the selection
  have hplace : ∀ x ∈ l, ∃ c, (firstColumns key n k)[x.1]? = some c ∧ x.2 = colBase + c := by
    intro x hx
    obtain ⟨c, hc, htake, rfl⟩ := (hl x).mp hx
    exact ⟨c, h.place_eq hc ((h.rank_lt_iff hc).mpr htake), rfl⟩
  funext i
  rw [selection]
  split_ifs with hi'
  · obtain ⟨c, hc⟩ : ∃ c, (firstColumns key n k)[i]? = some c :=
      ⟨_, List.getElem?_eq_getElem (hlen.symm ▸ hi')⟩
    have hmem := List.mem_of_getElem? hc
    rw [firstColumns, List.mem_filter, List.mem_range] at hmem
    have hrank := of_decide_eq_true hmem.2
    have hat := h.place_eq hmem.1 hrank
    -- the place of the column is where it stands
    have hnodup : (firstColumns key n k).Nodup := List.nodup_range.filter _
    have hidx := (List.getElem?_inj (hlen.symm ▸ hi') hnodup).mp (hc.trans hat.symm)
    rw [hc]
    refine stores_of_mem ((hl _).mpr ⟨c, hmem.1, (h.rank_lt_iff hmem.1).mp hrank, ?_⟩) ?_
    · rw [← hidx]
    · intro x hx hxi
      obtain ⟨c', hc', hval⟩ := hplace x hx
      rw [hxi, hc] at hc'
      rw [hval, Option.some.inj hc']
  · refine stores_of_notMem fun x hx hxi => ?_
    obtain ⟨c, hc, -⟩ := hplace x hx
    have := (List.getElem?_eq_some_iff.mp hc).1
    omega

end Selection

/-! ### Digits -/

/-- The digit of a key. -/
theorem toNat_digit {w s : ℕ} (hw : w < 32) (key : BitVec 32) :
    ((key >>> s) &&& ((1#32 <<< w) - 1#32)).toNat = (key.toNat >>> s) % 2 ^ w := by
  have hlt : 2 ^ w < 2 ^ 32 := Nat.pow_lt_pow_right (by omega) hw
  have hone : (1#32 <<< w).toNat = 2 ^ w := by
    rw [BitVec.toNat_shiftLeft, Nat.shiftLeft_eq, BitVec.toNat_ofNat]
    rw [Nat.mod_eq_of_lt (by omega : 1 < 2 ^ 32), Nat.one_mul, Nat.mod_eq_of_lt hlt]
  have hpos : 0 < 2 ^ w := Nat.two_pow_pos w
  have hmask : ((1#32 <<< w) - 1#32).toNat = 2 ^ w - 1 := by
    rw [BitVec.toNat_sub_of_le (by rw [BitVec.le_def, hone]; exact hpos), hone]
    rfl
  rw [BitVec.toNat_and, hmask, Nat.and_two_pow_sub_one_eq_mod, BitVec.toNat_ushiftRight]

/-- A number is its leading part and its next digit. -/
theorem shiftRight_eq_digits (x s w : ℕ) :
    x >>> s = x >>> (s + w) * 2 ^ w + (x >>> s) % 2 ^ w := by
  rw [Nat.shiftRight_add, Nat.shiftRight_eq_div_pow (x >>> s), Nat.div_add_mod']

theorem shiftRight_mono (s : ℕ) : Monotone fun x : ℕ => x >>> s := fun x y h => by
  simp only [Nat.shiftRight_eq_div_pow]
  exact Nat.div_le_div_right h

/-- A decision that refines the bucket of the prefix `P` by the digit of `w` bits from bit `s`
on. -/
structure Refined (key : ℕ → ℕ) (n k s w P : ℕ) (lowor : Option (ℕ → BitVec 32)) (D : Decision) :
    Prop where
  lt : D.digit < 2 ^ w
  bucket : Bucket key n k (fun x => x >>> s) (P * 2 ^ w + D.digit) D.kRem
  whole : D.done = true →
    D.kRem = Nat.count (fun j => key j >>> s = P * 2 ^ w + D.digit) n ∨
      agreesBelow lowor D.digit = true

section Refine

variable {key : ℕ → ℕ} {n k s w P r : ℕ} {hist : ℕ → ℕ}

/-- The bins count the keys of the bucket. -/
def CountsDigits (key : ℕ → ℕ) (n s w P : ℕ) (hist : ℕ → ℕ) : Prop :=
  ∀ d < 2 ^ w, hist d = digitCount key n (fun x => x >>> (s + w)) (fun x => (x >>> s) % 2 ^ w) P d

/-- The bin of the `k`-th key refines the bucket. -/
theorem exists_refined (hb : Bucket key n k (fun x => x >>> (s + w)) P r)
    (hist_eq : CountsDigits key n s w P hist) (lowor : Option (ℕ → BitVec 32)) :
    ∃ d, IsDigit hist (2 ^ w) r d ∧
      Refined key n k s w P lowor (decisionAt hist (2 ^ w) r lowor d) := by
  let dig (x : ℕ) : ℕ := (x >>> s) % 2 ^ w
  have hdig (x : ℕ) : dig x < 2 ^ w := Nat.mod_lt _ (Nat.two_pow_pos w)
  have hnext (x : ℕ) : x >>> s = x >>> (s + w) * 2 ^ w + dig x := shiftRight_eq_digits x s w
  obtain ⟨d, hd⟩ := hb.exists_isDigit hdig
  have habove : ∑ x ∈ Finset.Ico (d + 1) (2 ^ w), hist x = ∑ x ∈ Finset.Ico (d + 1) (2 ^ w),
      digitCount key n (fun x => x >>> (s + w)) dig P x :=
    Finset.sum_congr rfl fun x hx => hist_eq x (Finset.mem_Ico.mp hx).2
  have hcount : Nat.count (fun j => key j >>> s = P * 2 ^ w + d) n = hist d :=
    (count_refined hnext hdig hd.lt).trans (hist_eq d hd.lt).symm
  refine ⟨d, ⟨hd.lt, habove ▸ hd.above, by rw [habove, hist_eq d hd.lt]; exact hd.le⟩, hd.lt, ?_,
    fun hdone => ?_⟩
  · rw [decisionAt, habove]
    exact hb.refine (shiftRight_mono s) hnext hdig hd
  · rw [decisionAt, Bool.or_eq_true, decide_eq_true_iff] at hdone
    exact hdone.imp (fun h => by rw [decisionAt, hcount]; exact h.symm) id

/-- **A histogram of the bucket and `select_digit` refine it.** -/
theorem selectDigit_refined {W : ℕ} (hW : W ∣ 32) (hw : w = 10 ∨ w = 11)
    (hb : Bucket key n k (fun x => x >>> (s + w)) P r) (hist_eq : CountsDigits key n s w P hist)
    (lowor : Option (ℕ → BitVec 32)) (vals : Decision) :
    Refined key n k s w P lowor (selectDigit W hist (2 ^ w) r lowor vals) := by
  obtain ⟨d, hd, href⟩ := exists_refined hb hist_eq lowor
  have hbins : 2 ^ w = 1024 ∨ 2 ^ w = 2048 := by
    rcases hw with rfl | rfl
    · exact .inl rfl
    · exact .inr rfl
  rw [selectDigit_eq (Fits.of_dvd hW hbins) hd]
  exact href

/-- The flags of the second histogram: a bin without one has no key with a low bit. -/
def FlagsLow (key : ℕ → ℕ) (n P : ℕ) (lowor : ℕ → BitVec 32) : Prop :=
  ∀ d < 2048, flag lowor d = false → ∀ c < n, key c >>> 10 = P * 2048 + d → key c % 1024 = 0

theorem eq_of_agreesBelow {lowor : ℕ → BitVec 32} (h : FlagsLow key n P lowor) {d : ℕ}
    (hd : d < 2048) (hagree : agreesBelow (some lowor) d = true) :
    ∀ i < n, ∀ j < n, key i >>> 10 = P * 2048 + d → key j >>> 10 = P * 2048 + d →
      key i = key j := by
  intro i hi j hj hpi hpj
  rw [agreesBelow_some, Bool.not_eq_true'] at hagree
  have hi0 := h d hd hagree i hi hpi
  have hj0 := h d hd hagree j hj hpj
  rw [Nat.shiftRight_eq_div_pow] at hpi hpj
  omega

/-- A decision that says so ends the search. -/
theorem Refined.threshold {lowor : Option (ℕ → BitVec 32)} {D : Decision}
    (h : Refined key n k s w P lowor D) (hdone : D.done = true)
    (hagree : agreesBelow lowor D.digit = true → ∀ i < n, ∀ j < n,
      key i >>> s = P * 2 ^ w + D.digit → key j >>> s = P * 2 ^ w + D.digit → key i = key j) :
    Threshold key n k (fun x => x >>> s) (P * 2 ^ w + D.digit) D.kRem :=
  ⟨h.bucket, (h.whole hdone).imp id hagree⟩

/-- With all digits the keys of a bucket agree. -/
theorem Refined.threshold_zero {lowor : Option (ℕ → BitVec 32)} {D : Decision}
    (h : Refined key n k 0 w P lowor D) :
    Threshold key n k (fun x => x >>> 0) (P * 2 ^ w + D.digit) D.kRem :=
  ⟨h.bucket, .inr fun _ _ _ _ hi hj => hi.trans hj.symm⟩

end Refine

/-! ### The histogram of a bucket -/

/-- A key matches the prefix if it has its bits. -/
theorem and_mask_eq {s : ℕ} {key pfx : BitVec 32} {P : ℕ} (hpfx : pfx.toNat = P <<< s) :
    key &&& (BitVec.allOnes 32 <<< s) = pfx ↔ key.toNat >>> s = P := by
  have hpos : 0 < 2 ^ s := Nat.two_pow_pos s
  have hle := Nat.div_mul_le_self key.toNat (2 ^ s)
  have hlt := key.isLt
  rw [← BitVec.toNat_inj, ← BitVec.shiftLeft_ushiftRight, BitVec.toNat_shiftLeft,
    BitVec.toNat_ushiftRight, hpfx, Nat.shiftRight_eq_div_pow, Nat.shiftLeft_eq, Nat.shiftLeft_eq,
    Nat.mod_eq_of_lt (by omega)]
  exact Nat.mul_left_inj hpos.ne'

/-- A histogram looks for the keys with the prefix `P`, and counts their next `w` bits. -/
structure HistArgs.Matches (a : HistArgs) (s w P : ℕ) : Prop where
  pmask : a.pmask = BitVec.allOnes 32 <<< (s + w)
  pfx : a.pfx.toNat = P <<< (s + w)
  shift : a.shift = s
  dmask : a.dmask = (1#32 <<< w) - 1#32

section Histogram

variable {a : HistArgs} {s w P T U n : ℕ} {row : Row} {sm : Smem} {key : ℕ → ℕ}
  {il : Interleaving SmemOp}

/-- It counts the keys of the bucket. -/
theorem histogram_countsDigits (ha : a.Matches s w P) (hw : w < 32) (hT : 0 < T) (hU : 0 < U)
    (hkey : ∀ c < n, (keyAt row sm.skeys a.fromSmem c).toNat = key c)
    (hzero : ∀ d < 2 ^ w, sm.hist d = 0) :
    CountsDigits key n s w P (histogram a il T U row n sm).hist := by
  intro d hd
  rw [histogram_hist hT hU, hzero d hd, Nat.zero_add, digitCount]
  refine count_congr fun c hc => ?_
  rw [ha.pmask, HistArgs.digit, ha.shift, ha.dmask, toNat_digit hw, hkey c hc]
  refine and_congr ((and_mask_eq ha.pfx).trans ?_) Iff.rfl
  rw [hkey c hc]

/-- Its flags tell which bins have a key with a low bit. -/
theorem histogram_flagsLow (ha : a.Matches 10 11 P) (hflags : a.flags = true)
    (hlow : a.lowmask = 0x3FF#32) (hT : 0 < T) (hU : 0 < U)
    (hkey : ∀ c < n, (keyAt row sm.skeys a.fromSmem c).toNat = key c)
    (hclear : ∀ d < 2048, flag sm.lowor d = false) :
    FlagsLow key n P (histogram a il T U row n sm).lowor := by
  intro d hd hflag c hc hpc
  by_contra hne
  -- the key would have set the flag
  rw [← Bool.not_eq_true, histogram_lowor hT hU hflags (hclear d hd)] at hflag
  rw [Nat.shiftRight_eq_div_pow] at hpc
  refine hflag ⟨c, hc, ?_, ?_, ?_⟩
  · rw [ha.pmask, and_mask_eq ha.pfx, hkey c hc, Nat.shiftRight_eq_div_pow]
    omega
  · rw [HistArgs.digit, ha.shift, ha.dmask, toNat_digit (by omega), hkey c hc,
      Nat.shiftRight_eq_div_pow]
    omega
  · intro hand
    have hzero := congrArg BitVec.toNat hand
    rw [hlow, BitVec.toNat_and, hkey c hc] at hzero
    exact hne ((Nat.and_two_pow_sub_one_eq_mod (key c) 10).symm.trans hzero)

end Histogram

end DetTopk

end VllmMoet
