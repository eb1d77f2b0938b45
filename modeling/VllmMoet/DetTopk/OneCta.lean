import Mathlib.Tactic.IntervalCases
import VllmMoet.DetTopk.Compact
import VllmMoet.DetTopk.Radix

/-!
# A row in one block

`topk_one_cta` of `det_topk_sm120.cu`: up to three passes over the digits of the keys, from the
top, find the threshold, and the compaction stores the columns.

* `PassState.Ok`: between the passes the `k`-th key is in the bucket of the prefix, and once the
  passes are done its columns are told apart by their order;
* `topkOneCta_selection`: the row of the output is the `k` columns that come first, for every block
  size, with or without the keys in shared memory, and in whatever order the atomics and the stores
  of the threads take effect.
-/

namespace VllmMoet

namespace DetTopk

/-! ### The passes -/

/-- The order in which the operations of the threads take effect, phase by phase. -/
structure Orders where
  hist : ℕ → Interleaving SmemOp
  out : Interleaving (ℕ × ℤ)

/-- The variables of the passes. -/
structure PassState where
  pfx : BitVec 32
  pmask : BitVec 32
  kRem : ℕ
  done : Bool
  shift : ℕ
  smem : Smem
  vals : Decision

/-- `widths`. -/
def widths : ℕ → ℕ
  | 2 => 10
  | _ => 11

/-- `for (i = threadIdx.x; i < m; i += THREADS) x[i] = 0`. -/
def clear {α : Type} (zero : α) (m : ℕ) (x : ℕ → α) (i : ℕ) : α := if i < m then zero else x i

/-- `kGroups`. -/
def kGroups : ℕ := kBins / 32

section Passes

variable (W U : ℕ) (o : Orders) (row : Row) (n : ℕ) (cache : Bool)

/-- The arguments of `histogram` in pass `p`. -/
def passArgs (p : ℕ) (pfx pmask : BitVec 32) (shift : ℕ) : HistArgs where
  pfx := pfx
  pmask := pmask
  shift := shift - widths p
  dmask := (1#32 <<< widths p) - 1#32
  storeKeys := cache && decide (p = 0)
  fromSmem := cache && decide (0 < p)
  flags := decide (p = 1)
  lowmask := (1#32 <<< (shift - widths p)) - 1#32

/-- Shared memory, cleared for pass `p`. -/
def clearFor (p : ℕ) (sm : Smem) : Smem :=
  { sm with
    hist := clear 0 (1 <<< widths p) sm.hist
    lowor := if p = 1 then clear 0#32 kGroups sm.lowor else sm.lowor }

/-- Pass `p`. -/
def pass (p : ℕ) (st : PassState) : PassState :=
  let shift := st.shift - widths p
  let sm := histogram (passArgs cache p st.pfx st.pmask st.shift) (o.hist p) (32 * W) U row n
    (clearFor p st.smem)
  let vals := selectDigit W sm.hist (1 <<< widths p) st.kRem
    (if p = 1 then some sm.lowor else none) st.vals
  { pfx := st.pfx ||| (BitVec.ofNat 32 vals.digit <<< shift)
    pmask := st.pmask ||| (((1#32 <<< widths p) - 1#32) <<< shift)
    kRem := vals.kRem
    done := vals.done
    shift := shift
    smem := sm
    vals := vals }

/-- `for (p = ...; p < 3 && !done; ++p)`, with `m` passes left. -/
def passes : ℕ → ℕ → PassState → PassState
  | 0, _, st => st
  | m + 1, p, st => if st.done then st else passes m (p + 1) (pass W U o row n cache p st)

end Passes

/-- The first pass is done: its digit, what is left to take from it, and whether that is all. -/
structure FromD0 where
  d0 : ℕ
  k0 : ℕ
  done0 : Bool

/-- The start of the passes. -/
def startState (k : ℕ) (from0 : Option FromD0) (sm : Smem) (vals : Decision) : PassState :=
  match from0 with
  | none =>
    { pfx := 0#32, pmask := 0#32, kRem := k, done := false, shift := 32, smem := sm, vals := vals }
  | some f =>
    { pfx := BitVec.ofNat 32 f.d0 <<< 21, pmask := 0x7FF#32 <<< 21, kRem := f.k0, done := f.done0,
      shift := 21, smem := sm, vals := vals }

/-- The compaction after the passes. -/
def PassState.compactArgs (row : Row) (n : ℕ) (cache : Bool) (k : ℕ) (colBase : ℤ)
    (st : PassState) : CompactArgs where
  row := row
  skeys := st.smem.skeys
  fromSmem := cache
  n := n
  shift := st.shift
  pHi := st.pfx >>> st.shift
  kRem := st.kRem
  k := k
  gtOff := 0
  eqOff := 0
  colBase := colBase

/-- `topk_one_cta`: the output of a row. `cap`: the keys that shared memory has room for, if it
is given. -/
def topkOneCta (W U : ℕ) (o : Orders) (row : Row) (n : ℕ) (colBase : ℤ) (k : ℕ)
    (cap : Option ℕ) (from0 : Option FromD0) (sm : Smem) (vals : Decision) (orow : ℕ → ℤ) :
    ℕ → ℤ :=
  let cache : Bool := from0.isNone && cap.any (n ≤ ·)
  let p := if from0.isSome then 1 else 0
  let st := passes W U o row n cache (3 - p) p (startState k from0 sm vals)
  compact W (st.compactArgs row n cache k colBase) o.out orow

/-! ### The bucket of the prefix -/

/-- `shift` before pass `p`. -/
def shiftAt : ℕ → ℕ
  | 0 => 32
  | 1 => 21
  | 2 => 10
  | _ => 0

/-- A pass takes the next digit. -/
theorem shiftAt_eq {p : ℕ} (hp : p < 3) : shiftAt p = shiftAt (p + 1) + widths p := by
  interval_cases p <;> rfl

theorem shiftAt_le (p : ℕ) : shiftAt p ≤ 32 := by
  match p with
  | 0 | 1 | 2 => decide
  | _ + 3 => exact Nat.zero_le 32

/-- The mask with one more digit. -/
theorem allOnes_or {p : ℕ} (hp : p < 3) :
    BitVec.allOnes 32 <<< shiftAt p ||| ((1#32 <<< widths p) - 1#32) <<< shiftAt (p + 1) =
      BitVec.allOnes 32 <<< shiftAt (p + 1) := by
  interval_cases p <;> decide

/-- The prefix with one more digit. -/
theorem toNat_pfx_or {s w P d : ℕ} {pfx : BitVec 32} (hs : s + w ≤ 32)
    (hpfx : pfx.toNat = P <<< (s + w)) (hd : d < 2 ^ w) :
    (pfx ||| (BitVec.ofNat 32 d <<< s)).toNat = (P * 2 ^ w + d) <<< s := by
  have hw : 2 ^ w ≤ 2 ^ 32 := Nat.pow_le_pow_right (by omega) (by omega)
  have hlt : d * 2 ^ s < 2 ^ (s + w) := by
    rw [pow_add, Nat.mul_comm]
    exact Nat.mul_lt_mul_of_pos_left hd (Nat.two_pow_pos s)
  have hle : 2 ^ (s + w) ≤ 2 ^ 32 := Nat.pow_le_pow_right (by omega) hs
  rw [BitVec.toNat_or, hpfx, BitVec.toNat_shiftLeft, BitVec.toNat_ofNat,
    Nat.mod_eq_of_lt (hd.trans_le hw), Nat.shiftLeft_eq, Nat.shiftLeft_eq,
    Nat.mod_eq_of_lt (hlt.trans_le hle), Nat.mul_comm P,
    ← Nat.two_pow_add_eq_or_of_lt hlt, Nat.shiftLeft_eq, pow_add]
  ring

/-- What holds between the passes. -/
structure PassState.Ok (row : Row) (n k : ℕ) (cache : Bool) (p P : ℕ) (st : PassState) : Prop where
  shift : st.shift = shiftAt p
  pmask : st.pmask = BitVec.allOnes 32 <<< shiftAt p
  pfx : st.pfx.toNat = P <<< shiftAt p
  bucket : Bucket row.keyNat n k (fun x => x >>> shiftAt p) P st.kRem
  settled : st.done = true → Threshold row.keyNat n k (fun x => x >>> shiftAt p) P st.kRem
  kept : cache = true → 0 < p → ∀ c < n, st.smem.skeys c = row.key c

section Passes

variable {W U : ℕ} {o : Orders} {row : Row} {n k : ℕ} {cache : Bool} {p P : ℕ} {st : PassState}

/-- The keys are the same, from the row or from shared memory. -/
theorem PassState.Ok.keyAt_eq (h : st.Ok row n k cache p P) {c : ℕ} (hc : c < n) :
    keyAt row (clearFor p st.smem).skeys (passArgs cache p st.pfx st.pmask st.shift).fromSmem c =
      row.key c := by
  rw [keyAt]
  split_ifs with hs
  · have hs : cache = true ∧ decide (0 < p) = true := by simpa [passArgs] using hs
    exact h.kept hs.1 (of_decide_eq_true hs.2) c hc
  · rfl

theorem one_shiftLeft_widths (p : ℕ) : 1 <<< widths p = 2 ^ widths p := Nat.one_shiftLeft _

/-- A pass looks for the keys of the bucket. -/
theorem PassState.Ok.matches (h : st.Ok row n k cache p P) (hp : p < 3) :
    (passArgs cache p st.pfx st.pmask st.shift).Matches (shiftAt (p + 1)) (widths p) P where
  pmask := h.pmask.trans (by rw [shiftAt_eq hp])
  pfx := h.pfx.trans (by rw [shiftAt_eq hp])
  shift := by
    change st.shift - widths p = _
    rw [h.shift, shiftAt_eq hp, Nat.add_sub_cancel]
  dmask := rfl

/-- The bins of a pass count them. -/
theorem PassState.Ok.countsDigits (h : st.Ok row n k cache p P) (hp : p < 3) (hW : 0 < W)
    (hU : 0 < U) :
    CountsDigits row.keyNat n (shiftAt (p + 1)) (widths p) P
      (histogram (passArgs cache p st.pfx st.pmask st.shift) (o.hist p) (32 * W) U row n
        (clearFor p st.smem)).hist := by
  have hw : widths p < 32 := by interval_cases p <;> decide
  refine histogram_countsDigits (h.matches hp) hw (Nat.mul_pos (by omega) hW) hU
    (fun c hc => congrArg BitVec.toNat (h.keyAt_eq hc)) fun d hd => if_pos ?_
  rwa [one_shiftLeft_widths]

/-- The flags of the second pass. -/
theorem PassState.Ok.flagsLow (h : st.Ok row n k cache 1 P) (hW : 0 < W) (hU : 0 < U) :
    FlagsLow row.keyNat n P
      (histogram (passArgs cache 1 st.pfx st.pmask st.shift) (o.hist 1) (32 * W) U row n
        (clearFor 1 st.smem)).lowor := by
  have hshift : st.shift - widths 1 = 10 := by rw [h.shift]; rfl
  refine histogram_flagsLow (h.matches (by omega)) rfl ?_ (Nat.mul_pos (by omega) hW) hU
    (fun c hc => congrArg BitVec.toNat (h.keyAt_eq hc)) fun d hd => ?_
  · change (1#32 <<< (st.shift - widths 1)) - 1#32 = _
    rw [hshift]
    decide
  · have hzero : (clearFor 1 st.smem).lowor (d / 32) = 0#32 := by
      rw [clearFor]
      simp only [if_true]
      refine if_pos ?_
      rw [kGroups, kBins]
      omega
    rw [flag, hzero, BitVec.getLsbD_zero]

/-- **A pass keeps it**, with the next digit. -/
theorem PassState.Ok.pass (h : st.Ok row n k cache p P) (hp : p < 3) (hW : W ∣ 32) (hU : 0 < U) :
    (pass W U o row n cache p st).Ok row n k cache (p + 1)
      (P * 2 ^ widths p + (pass W U o row n cache p st).vals.digit) := by
  have hWpos : 0 < W := Nat.pos_of_dvd_of_pos hW (by omega)
  have hT : 0 < 32 * W := Nat.mul_pos (by omega) hWpos
  have hs := shiftAt_eq hp
  have hshift : st.shift - widths p = shiftAt (p + 1) := by rw [h.shift, hs, Nat.add_sub_cancel]
  have hw : widths p = 10 ∨ widths p = 11 := by
    interval_cases p
    · exact .inr rfl
    · exact .inr rfl
    · exact .inl rfl
  let sm := histogram (passArgs cache p st.pfx st.pmask st.shift) (o.hist p) (32 * W) U row n
    (clearFor p st.smem)
  have href : Refined row.keyNat n k (shiftAt (p + 1)) (widths p) P
      (if p = 1 then some sm.lowor else none)
      (VllmMoet.DetTopk.pass W U o row n cache p st).vals := by
    rw [VllmMoet.DetTopk.pass, one_shiftLeft_widths]
    exact selectDigit_refined hW hw (hs ▸ h.bucket) (h.countsDigits hp hWpos hU) _ _
  refine ⟨hshift, ?_, ?_, href.bucket, fun hdone => href.threshold hdone fun hagree => ?_, ?_⟩
  · refine (congrArg₂ (· ||| _ <<< ·) h.pmask hshift).trans (allOnes_or hp)
  · refine (congrArg (fun s => (st.pfx ||| _ <<< s).toNat) hshift).trans
      (toNat_pfx_or ?_ (hs ▸ h.pfx) href.lt)
    rw [← hs]
    exact shiftAt_le p
  · -- only the second pass has flags
    obtain rfl : p = 1 := by
      by_contra hne
      rw [if_neg hne] at hagree
      exact Bool.false_ne_true hagree
    exact eq_of_agreesBelow (h.flagsLow hWpos hU) href.lt hagree
  · intro hc _ c hcn
    have hkey := h.keyAt_eq hcn
    rcases Nat.eq_zero_or_pos p with rfl | hpos
    · have hstore : (passArgs cache 0 st.pfx st.pmask st.shift).storeKeys = true := by
        simp [passArgs, hc]
      exact (histogram_skeys hT hU hstore hcn).trans hkey
    · have hstore : (passArgs cache p st.pfx st.pmask st.shift).storeKeys = false := by
        simp [passArgs, hpos.ne']
      exact (congrFun (histogram_skeys_eq hT hU hstore) c).trans (h.kept hc hpos c hcn)

/-- The passes end with a threshold. -/
theorem PassState.Ok.passes (hW : W ∣ 32) (hU : 0 < U) (m : ℕ) (h : st.Ok row n k cache p P)
    (hp : p + m = 3) :
    ∃ p' P', (passes W U o row n cache m p st).Ok row n k cache p' P' ∧ p ≤ p' ∧
      (0 < m → st.done = false → p < p') ∧ Threshold row.keyNat n k (fun x => x >>> shiftAt p') P'
        (passes W U o row n cache m p st).kRem := by
  induction m generalizing p P st with
  | zero =>
    -- no bits are left
    obtain rfl : p = 3 := hp
    exact ⟨3, P, h, le_rfl, fun h => absurd h (Nat.lt_irrefl 0), h.bucket,
      .inr fun i _ j _ hi hj => hi.trans hj.symm⟩
  | succ m ih =>
    rw [VllmMoet.DetTopk.passes]
    split_ifs with hdone
    · exact ⟨p, P, h, le_rfl, fun _ hnot => absurd (hnot.symm.trans hdone) Bool.false_ne_true,
        h.settled hdone⟩
    · have h' := h.pass (o := o) (by omega) hW hU
      obtain ⟨p', P'', h'', hle, -, hth⟩ := ih h' (by omega)
      exact ⟨p', P'', h'', by omega, fun _ _ => by omega, hth⟩

end Passes

/-- What a first pass done elsewhere has to give. -/
structure FromD0.Ok (row : Row) (n k : ℕ) (f : FromD0) : Prop where
  lt : f.d0 < 2048
  bucket : Bucket row.keyNat n k (fun x => x >>> 21) f.d0 f.k0
  settled : f.done0 = true → Threshold row.keyNat n k (fun x => x >>> 21) f.d0 f.k0

section OneCta

variable {W U : ℕ} {row : Row} {n k : ℕ} {from0 : Option FromD0}

/-- At the start all keys are in one bucket. -/
theorem bucket_start (hk : 0 < k) (hn : k < n) :
    Bucket row.keyNat n k (fun x => x >>> 32) 0 k := by
  have hzero (c : ℕ) : row.keyNat c >>> 32 = 0 := by
    rw [Nat.shiftRight_eq_div_pow]
    exact Nat.div_eq_of_lt (row.key c).isLt
  have hnone : Nat.count (fun j => 0 < row.keyNat j >>> 32) n = 0 :=
    Nat.count_iff_forall_not.mpr fun j _ hj => by simp [hzero] at hj
  have hall : Nat.count (fun j => row.keyNat j >>> 32 = 0) n = n :=
    Nat.count_iff_forall.mpr fun j _ => hzero j
  refine ⟨shiftRight_mono 32, hk, ?_, ?_⟩
  · rw [hnone, Nat.zero_add]
  · rw [hall]
    exact hn.le

/-- The start of the passes. -/
theorem startState_ok (hk : 0 < k) (hn : k < n) {cache : Bool}
    (hcache : cache = true → from0 = none) (h0 : ∀ f, from0 = some f → f.Ok row n k) (sm : Smem)
    (vals : Decision) :
    ∃ P, (startState k from0 sm vals).Ok row n k cache (if from0.isSome then 1 else 0) P := by
  cases from0 with
  | none =>
    have hmask : 0#32 = BitVec.allOnes 32 <<< 32 := by decide
    refine ⟨0, rfl, hmask, rfl, bucket_start hk hn, fun h => ?_, fun _ h => ?_⟩
    · exact absurd h Bool.false_ne_true
    · exact absurd h (Nat.lt_irrefl 0)
  | some f =>
    have hf := h0 f rfl
    have hmask : 0x7FF#32 <<< 21 = BitVec.allOnes 32 <<< 21 := by decide
    refine ⟨f.d0, rfl, hmask, ?_, hf.bucket, hf.settled, fun hc => absurd (hcache hc) (by simp)⟩
    have hlt := hf.lt
    change (BitVec.ofNat 32 f.d0 <<< 21).toNat = f.d0 <<< 21
    have hsmall : f.d0 < 2 ^ 32 := by omega
    have hfit : f.d0 * 2 ^ 21 < 2 ^ 32 := by omega
    rw [BitVec.toNat_shiftLeft, BitVec.toNat_ofNat, Nat.mod_eq_of_lt hsmall, Nat.shiftLeft_eq,
      Nat.mod_eq_of_lt hfit]

/-- The compaction of a slice from column `lo` on stores the columns that the threshold of the row
takes, given the counts before it. -/
theorem mem_compactWrites_of_threshold {a : CompactArgs} {key : ℕ → ℕ} {P lo N : ℕ} (hW : 0 < W)
    (hW' : W ≤ 32) (hkey : ∀ c < a.n, (keyAt a.row a.skeys a.fromSmem c).toNat = key (lo + c))
    (hN : lo + a.n ≤ N) (hpHi : a.pHi.toNat = P)
    (hth : Threshold key N a.k (fun x => x >>> a.shift) P a.kRem)
    (hgt : a.gtOff = Nat.count (fun j => P < key j >>> a.shift) lo)
    (heq : a.eqOff = Nat.count (fun j => key j >>> a.shift = P) lo) (x : ℕ × ℤ) :
    x ∈ a.compactWrites W ↔ ∃ c < a.n, (P < key (lo + c) >>> a.shift ∨
      key (lo + c) >>> a.shift = P ∧
        Nat.count (fun j => key j >>> a.shift = P) (lo + c) < a.kRem) ∧
      x = (Nat.count (fun j => P < key j >>> a.shift) (lo + c) +
        min (Nat.count (fun j => key j >>> a.shift = P) (lo + c)) a.kRem, a.colBase + c) := by
  have hhi {c : ℕ} (hc : c < a.n) : (a.hi c).toNat = key (lo + c) >>> a.shift := by
    rw [CompactArgs.hi, BitVec.toNat_ushiftRight, hkey c hc]
  have habove {c : ℕ} (hc : c < a.n) : a.Above c ↔ P < key (lo + c) >>> a.shift := by
    rw [CompactArgs.Above, BitVec.lt_def, hhi hc, hpHi]
  have hon {c : ℕ} (hc : c < a.n) : a.On c ↔ key (lo + c) >>> a.shift = P := by
    rw [CompactArgs.On, ← BitVec.toNat_inj, hhi hc, hpHi]
  have hgtBefore {c : ℕ} (hc : c ≤ a.n) :
      a.gtBefore c = Nat.count (fun j => P < key j >>> a.shift) (lo + c) := by
    rw [CompactArgs.gtBefore, hgt, Nat.count_add]
    exact congrArg _ (count_congr fun j hj => habove (hj.trans_le hc))
  have heqBefore {c : ℕ} (hc : c ≤ a.n) :
      a.eqBefore c = Nat.count (fun j => key j >>> a.shift = P) (lo + c) := by
    rw [CompactArgs.eqBefore, heq, Nat.count_add]
    exact congrArg _ (count_congr fun j hj => hon (hj.trans_le hc))
  have htotal : a.placeOf a.n ≤ a.k := by
    have hmono := Nat.count_monotone (fun j => P < key j >>> a.shift) hN
    have := hth.count
    rw [CompactArgs.placeOf, hgtBefore le_rfl]
    omega
  rw [CompactArgs.mem_compactWrites hW hW' htotal]
  refine exists_congr fun c => and_congr_right fun hc => ?_
  rw [CompactArgs.Taken, CompactArgs.placeOf, habove hc, hon hc, hgtBefore hc.le, heqBefore hc.le]

/-- **The row in one block.** The output is the `k` columns that come first, in ascending order. -/
theorem topkOneCta_selection (hW : W ∣ 32) (hU : 0 < U) (hk : 0 < k) (hn : k < n)
    (h0 : ∀ f, from0 = some f → f.Ok row n k) (o : Orders) (colBase : ℤ) (cap : Option ℕ)
    (sm : Smem) (vals : Decision) (orow : ℕ → ℤ) :
    topkOneCta W U o row n colBase k cap from0 sm vals orow =
      selection row.keyNat n k colBase orow := by
  have hWpos : 0 < W := Nat.pos_of_dvd_of_pos hW (by omega)
  have hWle : W ≤ 32 := Nat.le_of_dvd (by omega) hW
  let cache : Bool := from0.isNone && cap.any (n ≤ ·)
  have hcache (hc : cache = true) : from0 = none :=
    Option.isNone_iff_eq_none.mp (Bool.and_eq_true_iff.mp hc).1
  let p : ℕ := if from0.isSome then 1 else 0
  have hp : p + (3 - p) = 3 := by
    have : p ≤ 1 := by
      change (if from0.isSome then 1 else 0) ≤ 1
      split_ifs <;> omega
    omega
  obtain ⟨P, hstart⟩ := startState_ok hk hn hcache h0 sm vals
  obtain ⟨p', P', hst, -, hpos, hth⟩ := hstart.passes (o := o) hW hU (3 - p) hp
  rw [topkOneCta, compact]
  change stores (o.out.run (CompactArgs.compactWrites W ((passes W U o row n cache (3 - p) p
    (startState k from0 sm vals)).compactArgs row n cache k colBase))) orow = _
  generalize passes W U o row n cache (3 - p) p (startState k from0 sm vals) = st at hst hth ⊢
  have hP : (st.pfx >>> st.shift).toNat = P' := by
    rw [BitVec.toNat_ushiftRight, hst.pfx, hst.shift, Nat.shiftLeft_shiftRight]
  have hkey : ∀ c < n, (keyAt row st.smem.skeys cache c).toNat = row.keyNat (0 + c) := by
    intro c hc
    rw [Nat.zero_add, keyAt]
    split_ifs with hca
    · -- then there has been a first pass
      obtain rfl := hcache hca
      have hlt : 0 < p' := hpos (by decide) rfl
      exact congrArg BitVec.toNat (hst.kept hca hlt c hc)
    · rfl
  rw [← hst.shift] at hth
  refine stores_eq_selection hth (fun x => ?_) orow
  have hcompact := mem_compactWrites_of_threshold (a := st.compactArgs row n cache k colBase)
    hWpos hWle hkey (Nat.zero_add n).le hP hth (Nat.count_zero _).symm (Nat.count_zero _).symm x
  simp only [Nat.zero_add] at hcompact
  exact o.out.mem_run.trans hcompact

end OneCta

end DetTopk

end VllmMoet
