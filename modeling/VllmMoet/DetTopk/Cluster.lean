import VllmMoet.DetTopk.ClusterPass

/-!
# A row over a cluster

`det_topk_cluster_kernel` of `det_topk_sm120.cu`: the blocks of a cluster select together from one
row, each on its slice.

* `ClusterOk.epoch`: from barrier to barrier all blocks narrow the bucket down by the same digit, in
  whatever order their moves come;
* `clusterTopk_selection`: the stores of all blocks are the `k` columns that come first.
-/

namespace VllmMoet

namespace DetTopk

/-! ### The slices -/

section Slices

variable (C n : ℕ)

theorem sliceStart_zero : sliceStart C n 0 = 0 := by
  rw [sliceStart, Nat.zero_mul, Nat.min_zero]

/-- The slices follow each other. -/
theorem sliceStart_succ (r : ℕ) :
    sliceStart C n (r + 1) = sliceStart C n r + sliceLen C n r := by
  rw [sliceLen, sliceStart, sliceStart, Nat.succ_mul]
  omega

/-- They cover the row. -/
theorem sliceStart_self {C n : ℕ} (hC : 0 < C) : sliceStart C n C = n := by
  have hmul : C * ((n + C - 1) / C) + C > n + C - 1 := by
    have := Nat.lt_mul_div_succ (n + C - 1) hC
    rwa [Nat.mul_add, Nat.mul_one] at this
  have hslice : (n + C - 1) / C ≤ slice C n := by
    rw [slice]
    omega
  have hle := Nat.mul_le_mul_left C hslice
  rw [sliceStart]
  omega

theorem sliceStart_le (r : ℕ) : sliceStart C n r ≤ n := Nat.min_le_left _ _

/-- What is counted in the slices. -/
theorem sum_count_slices (P : ℕ → Prop) [DecidablePred P] (r : ℕ) :
    ∑ q ∈ Finset.range r, Nat.count (fun j => P (sliceStart C n q + j)) (sliceLen C n q) =
      Nat.count P (sliceStart C n r) := by
  induction r with
  | zero => simp [sliceStart_zero]
  | succ r ih => rw [Finset.sum_range_succ, ih, sliceStart_succ, Nat.count_add]

/-- A column is in a slice. -/
theorem exists_slice {r c : ℕ} (hc : c < sliceStart C n r) :
    ∃ q < r, ∃ j < sliceLen C n q, c = sliceStart C n q + j := by
  induction r with
  | zero => simp [sliceStart_zero] at hc
  | succ r ih =>
    by_cases hlt : c < sliceStart C n r
    · obtain ⟨q, hq, h⟩ := ih hlt
      exact ⟨q, by omega, h⟩
    · rw [sliceStart_succ] at hc
      exact ⟨r, by omega, c - sliceStart C n r, by omega, by omega⟩

theorem Row.key_from (row : Row) (lo c : ℕ) : (row.from lo).key c = row.key (lo + c) := by
  rw [Row.key, Row.key, Nat.add_mul]
  rfl

theorem Row.keyNat_from (row : Row) (lo c : ℕ) : (row.from lo).keyNat c = row.keyNat (lo + c) :=
  congrArg BitVec.toNat (row.key_from lo c)

end Slices

namespace ClusterArgs

variable (a : ClusterArgs)

/-- The keys of a slice. -/
def sliceKey (r c : ℕ) : ℕ := (a.row.from (a.lo r)).keyNat c

variable {a}

theorem sliceKey_eq (r c : ℕ) : a.sliceKey r c = a.row.keyNat (a.lo r + c) := Row.keyNat_from _ _ _

/-- The counts of the slices add up. -/
theorem sum_count_sliceKey (hC : 0 < a.C) (P : ℕ → Prop) [DecidablePred P] :
    ∑ q ∈ Finset.range a.C, Nat.count (fun j => P (a.sliceKey q j)) (a.sn q) =
      Nat.count (fun j => P (a.row.keyNat j)) a.n := by
  have h := sum_count_slices a.C a.n (fun j => P (a.row.keyNat j)) a.C
  rw [sliceStart_self hC] at h
  rw [← h]
  refine Finset.sum_congr rfl fun q _ => count_congr fun j _ => ?_
  rw [sliceKey_eq]
  exact Iff.rfl

/-! ### Between two barriers -/

/-- The sums of the passes from `p` on are still zero. -/
def Clean (p : ℕ) (m : CtaState) : Prop :=
  ∀ q, p ≤ q → (∀ g, m.csum q g = 0) ∧ (∀ lane, m.bsum q lane = 0) ∧ m.bor q = 0#32

/-- The prefix has been found up to the digit before pass `p`. -/
structure Found (a : ClusterArgs) (p P K r : ℕ) (m : CtaState) : Prop where
  shift : m.shift = shiftAt p
  pmask : m.pmask = BitVec.allOnes 32 <<< shiftAt p
  pfx : m.pfx.toNat = P <<< shiftAt p
  kRem : m.kRem = K
  clean : Clean p m
  zeroHist : ∀ d < kBins, m.hist (p % 2) d = 0
  zeroLow : ∀ w < kGroups, m.lowor (p % 2) w = 0#32
  above : m.localGt = Nat.count (fun j => P < a.sliceKey r j >>> shiftAt p) (a.sn r)
  kept : a.cache r = true → 0 < p → ∀ c < a.sn r, m.skeys c = (a.row.from (a.lo r)).key c

/-- The digits of pass `p` have been counted. -/
structure Counted (a : ClusterArgs) (p P K r : ℕ) (m : CtaState) : Prop where
  done : m.done = false
  shift : m.shift = shiftAt (p + 1)
  pmask : m.pmask = BitVec.allOnes 32 <<< shiftAt p
  pfx : m.pfx.toNat = P <<< shiftAt p
  kRem : m.kRem = K
  clean : Clean p m
  hist : CountsDigits (a.sliceKey r) (a.sn r) (shiftAt (p + 1)) (widths p) P (m.hist (p % 2))
  flags : p = 1 → FlagsLow (a.sliceKey r) (a.sn r) P (m.lowor (p % 2))
  coarse : ∀ g < ngroups p,
    m.coarse (p % 2) g = ∑ i ∈ Finset.range 32, m.hist (p % 2) (g * 32 + i)
  above : m.localGt = Nat.count (fun j => P < a.sliceKey r j >>> shiftAt p) (a.sn r)
  kept : a.cache r = true → ∀ c < a.sn r, m.skeys c = (a.row.from (a.lo r)).key c

section Count

variable {p P K r : ℕ} {m : CtaState}

theorem nbins_eq (p : ℕ) : nbins p = 2 ^ widths p := Nat.one_shiftLeft _

theorem nbins_le (hp : p < 3) : nbins p ≤ kBins := by
  interval_cases p <;> decide

/-- **A block counts its slice.** -/
theorem Found.count (h : Found a p P K r m) (hdone : m.done = false) (hp : p < 3) (hU : 0 < a.U) :
    Counted a p P K r (a.count p r m) := by
  have hs := shiftAt_eq hp
  have hshift : m.shift - widths p = shiftAt (p + 1) := by rw [h.shift, hs, Nat.add_sub_cancel]
  -- the block looks at the bits that the passes before have left
  have hmatches : (passArgs (a.cache r) p m.pfx m.pmask m.shift).Matches (shiftAt (p + 1))
      (widths p) P :=
    ⟨h.pmask.trans (by rw [hs]), h.pfx.trans (by rw [hs]), hshift, rfl⟩
  have hw : widths p < 32 := by interval_cases p <;> decide
  have hkey : ∀ c < a.sn r, keyAt (a.row.from (a.lo r)) m.skeys
      (passArgs (a.cache r) p m.pfx m.pmask m.shift).fromSmem c =
        (a.row.from (a.lo r)).key c := by
    intro c hc
    rw [keyAt]
    split_ifs with hf
    · have hf : a.cache r = true ∧ decide (0 < p) = true := by simpa [passArgs] using hf
      exact h.kept hf.1 (of_decide_eq_true hf.2) c hc
    · rfl
  have hnat : ∀ c < a.sn r, (keyAt (a.row.from (a.lo r)) m.skeys
      (passArgs (a.cache r) p m.pfx m.pmask m.shift).fromSmem c).toNat = a.sliceKey r c :=
    fun c hc => congrArg BitVec.toNat (hkey c hc)
  refine ⟨hdone, hshift, h.pmask, h.pfx, h.kRem, h.clean, ?_, fun hp1 => ?_, fun g hg => ?_,
    h.above, fun hc c hcn => ?_⟩
  · simp only [ClusterArgs.count, Function.update_self]
    refine histogram_countsDigits hmatches hw (by omega) hU hnat fun d hd => h.zeroHist d ?_
    exact hd.trans_le (nbins_eq p ▸ nbins_le hp)
  · subst hp1
    have hlow : m.shift - widths 1 = 10 := hshift
    simp only [ClusterArgs.count, Function.update_self]
    refine histogram_flagsLow hmatches rfl ?_ (by omega) hU hnat fun d hd => ?_
    · change (1#32 <<< (m.shift - widths 1)) - 1#32 = _
      rw [hlow]
      decide
    · have hzero : m.lowor (1 % 2) (d / 32) = 0#32 := h.zeroLow _ (by rw [kGroups, kBins]; omega)
      change (m.lowor (1 % 2) (d / 32)).getLsbD (d % 32) = false
      rw [hzero, BitVec.getLsbD_zero]
  · simp only [ClusterArgs.count, Function.update_self]
    rw [if_pos hg]
  · rcases Nat.eq_zero_or_pos p with rfl | hpos
    · have hstore : (passArgs (a.cache r) 0 m.pfx m.pmask m.shift).storeKeys = true := by
        simp [passArgs, hc]
      exact (histogram_skeys (by omega) hU hstore hcn).trans (hkey c hcn)
    · have hstore : (passArgs (a.cache r) p m.pfx m.pmask m.shift).storeKeys = false := by
        simp [passArgs, hpos.ne']
      exact (congrFun (histogram_skeys_eq (by omega) hU hstore) c).trans (h.kept hc hpos c hcn)

/-- At the start. -/
theorem start_found (m : CtaState) : Found a 0 0 a.k r (a.start m) where
  shift := rfl
  pmask := by
    change 0#32 = _
    decide
  pfx := rfl
  kRem := rfl
  clean := fun _ _ => ⟨fun _ => rfl, fun _ => rfl, rfl⟩
  zeroHist := fun _ _ => rfl
  zeroLow := fun _ _ => rfl
  above := by
    refine (Nat.count_iff_forall_not.mpr fun j _ hj => ?_).symm
    have hzero : a.sliceKey r j >>> shiftAt 0 = 0 := by
      rw [Nat.shiftRight_eq_div_pow]
      exact Nat.div_eq_of_lt (BitVec.isLt _)
    omega
  kept := fun _ h => absurd h (Nat.lt_irrefl 0)

end Count

/-! ### A pass of all blocks -/

section Epoch

variable {p P K : ℕ} {mem : ℕ → CtaState}

variable (a) in
/-- The bins of all blocks. -/
def allHist (p : ℕ) (mem : ℕ → CtaState) (d : ℕ) : ℕ :=
  ∑ c ∈ Finset.range a.C, (mem c).hist (p % 2) d

variable (a) in
/-- The flags of all blocks. -/
def allLow (p : ℕ) (mem : ℕ → CtaState) (g : ℕ) : BitVec 32 :=
  (List.range a.C).foldl (fun w c => w ||| (mem c).lowor (p % 2) g) 0#32

/-- Together they count the row. -/
theorem allHist_countsDigits (hC : 0 < a.C) (h : ∀ r < a.C, Counted a p P K r (mem r)) :
    CountsDigits a.row.keyNat a.n (shiftAt (p + 1)) (widths p) P (a.allHist p mem) := by
  intro d hd
  rw [digitCount, ← sum_count_sliceKey hC fun x => x >>> (shiftAt (p + 1) + widths p) = P ∧
    (x >>> shiftAt (p + 1)) % 2 ^ widths p = d]
  exact Finset.sum_congr rfl fun c hc => (h c (Finset.mem_range.mp hc)).hist d hd

/-- A flag is set if some block has set it. -/
theorem flag_allLow (d : ℕ) :
    flag (a.allLow p mem) d = (List.range a.C).any fun c => flag ((mem c).lowor (p % 2)) d := by
  have hfold (l : List ℕ) (w : BitVec 32) :
      (l.foldl (fun w c => w ||| (mem c).lowor (p % 2) (d / 32)) w).getLsbD (d % 32) =
        (w.getLsbD (d % 32) || l.any fun c => flag ((mem c).lowor (p % 2)) d) := by
    induction l generalizing w with
    | nil => simp
    | cons c l ih => rw [List.foldl_cons, ih, BitVec.getLsbD_or, List.any_cons, Bool.or_assoc, flag]
  rw [flag, allLow, hfold, BitVec.getLsbD_zero, Bool.false_or]

theorem allLow_flagsLow (hC : 0 < a.C) (h : ∀ r < a.C, Counted a 1 P K r (mem r)) :
    FlagsLow a.row.keyNat a.n P (a.allLow 1 mem) := by
  intro d hd hflag c hc hpc
  have hc' : c < sliceStart a.C a.n a.C := by rwa [sliceStart_self hC]
  obtain ⟨q, hq, j, hj, rfl⟩ := exists_slice a.C a.n hc'
  have hnone : flag ((mem q).lowor (1 % 2)) d = false := by
    rw [flag_allLow, List.any_eq_false] at hflag
    exact Bool.not_eq_true _ ▸ hflag q (List.mem_range.mpr hq)
  have hslice := (h q hq).flags rfl d hd hnone j hj
  rw [sliceKey_eq] at hslice
  exact hslice hpc

variable {d r : ℕ}

/-- What a block has when it decides. -/
theorem Counted.chosen (hp : p < 3) (h : ∀ r < a.C, Counted a p P K r (mem r))
    (hd : IsDigit (a.allHist p mem) (nbins p) K d) (hr : r < a.C) :
    Chosen p (a.allHist p mem) (a.allLow p mem) d
      (a.sumBins p mem (a.sumGroups p mem (mem r))) := by
  have hmr := h r hr
  have hN := nbins_eq_groups hp
  have hlt := hd.lt
  have hclean := hmr.clean p le_rfl
  -- the sums over the cluster of each group of 32 bins
  have hcsum : ∀ g < ngroups p, (a.sumGroups p mem (mem r)).csum p g =
      ∑ i ∈ Finset.range 32, a.allHist p mem (g * 32 + i) := by
    intro g hg
    simp only [sumGroups, Function.update_self, allHist]
    rw [if_pos hg, hclean.1, Nat.zero_add, Finset.sum_comm]
    exact Finset.sum_congr rfl fun c hc => (h c (Finset.mem_range.mp hc)).coarse g hg
  have hhist : (a.sumGroups p mem (mem r)).hist (p % 2) = (mem r).hist (p % 2) :=
    sumGroups_hist_self mem (mem r)
  have hkRem : (a.sumGroups p mem (mem r)).kRem = K := hmr.kRem
  -- the digit is looked for in its group first
  have hgroup : IsDigit ((a.sumGroups p mem (mem r)).csum p) (ngroups p)
      (a.sumGroups p mem (mem r)).kRem (d / 32) := by
    rw [hkRem]
    exact isDigit_group hd hN hcsum
  have hbins (f S : ℕ → ℕ) (hS : ∀ g < ngroups p, S g = ∑ i ∈ Finset.range 32, f (g * 32 + i)) :
      ∑ g ∈ Finset.Ico (d / 32 + 1) (ngroups p), S g =
        ∑ x ∈ Finset.Ico (d / 32 * 32 + 32) (nbins p), f x := by
    rw [hN, ← Nat.succ_mul, ← sum_groups f (Nat.succ_le_of_lt hgroup.lt)]
    exact Finset.sum_congr rfl fun g hg => hS g (Finset.mem_Ico.mp hg).2
  have hchoice : groupChoice p (a.sumGroups p mem (mem r)) =
      ⟨d / 32, ∑ x ∈ Finset.Ico (d / 32 * 32 + 32) (nbins p), a.allHist p mem x,
        ∑ x ∈ Finset.Ico (d / 32 * 32 + 32) (nbins p), (mem r).hist (p % 2) x⟩ := by
    rw [groupChoice_eq hp hgroup, hbins _ _ hcsum]
    congr 1
    exact hbins _ _ hmr.coarse
  refine ⟨?_, fun lane _ => ?_, fun hp1 => ?_⟩
  · change groupChoice p (a.sumGroups p mem (mem r)) = ⟨_, _, ∑ x ∈ _,
      (a.sumGroups p mem (mem r)).hist (p % 2) x⟩
    rw [hchoice, hhist]
  · simp only [sumBins, Function.update_self, hchoice]
    change (mem r).bsum p lane + _ = _
    rw [hclean.2.1, Nat.zero_add]
    rfl
  · simp only [sumBins, hchoice]
    rw [if_pos hp1, Function.update_self]
    change (List.range a.C).foldl _ ((mem r).bor p) = _
    rw [hclean.2.2]
    rfl

/-- The sums of a pass leave those of the later ones. -/
theorem Clean.sums {m : CtaState} (h : Clean p m) (view : ℕ → CtaState) :
    Clean (p + 1) (a.sumBins p view (a.sumGroups p view m)) := by
  intro q hq
  have hq' : q ≠ p := by omega
  have hclean := h q (by omega)
  refine ⟨fun g => ?_, fun lane => ?_, ?_⟩
  · change Function.update m.csum p _ q g = 0
    rw [Function.update_of_ne hq', hclean.1]
  · change Function.update m.bsum p _ q lane = 0
    rw [Function.update_of_ne hq', hclean.2.1]
  · change (if p = 1 then Function.update m.bor p _ else m.bor) q = 0#32
    split_ifs
    · rw [Function.update_of_ne hq', hclean.2.2]
    · exact hclean.2.2

/-- A block that knows the threshold, and how many of its columns are above it and on it. -/
structure Settled (a : ClusterArgs) (p P K r : ℕ) (m : CtaState) : Prop
    extends Found a p P K r m where
  on : m.localEq = Nat.count (fun j => a.sliceKey r j >>> shiftAt p = P) (a.sn r)

/-- **A block takes the decision**, and notes what its slice has. -/
theorem Counted.settled (hC' : a.C < 32) (hp : p < 3) (h : ∀ r < a.C, Counted a p P K r (mem r))
    (hd : IsDigit (a.allHist p mem) (nbins p) K d) (hr : r < a.C) {D : Decision}
    (hD : D = decisionAt (a.allHist p mem) (nbins p) K
      (if p = 1 then some (a.allLow p mem) else none) d) :
    Settled a (p + 1) (P * 2 ^ widths p + d) D.kRem r
        (decidePass p (a.sumBins p mem (a.sumGroups p mem (mem r)))) ∧
      (decidePass p (a.sumBins p mem (a.sumGroups p mem (mem r)))).done = D.done := by
  have hmr := h r hr
  have hs := shiftAt_eq hp
  have hdlt : d < 2 ^ widths p := nbins_eq p ▸ hd.lt
  have hkRem : (a.sumBins p mem (a.sumGroups p mem (mem r))).kRem = K := hmr.kRem
  have hhist : (a.sumBins p mem (a.sumGroups p mem (mem r))).hist (p % 2) =
      (mem r).hist (p % 2) := sumGroups_hist_self mem (mem r)
  have hdig (x : ℕ) : (x >>> shiftAt (p + 1)) % 2 ^ widths p < 2 ^ widths p :=
    Nat.mod_lt _ (Nat.two_pow_pos _)
  have hnext (x : ℕ) := shiftRight_eq_digits x (shiftAt (p + 1)) (widths p)
  have hd' : IsDigit (a.allHist p mem) (nbins p)
      (a.sumBins p mem (a.sumGroups p mem (mem r))).kRem d := hkRem.symm ▸ hd
  rw [decidePass_eq (Counted.chosen hp h hd hr) (nbins_eq_groups hp) hd', hhist, hkRem]
  refine ⟨⟨⟨hmr.shift, ?_, ?_, ?_, fun q hq => ?_, fun x hx => ?_, fun w hw => ?_, ?_,
    fun hc _ c hcn => hmr.kept hc c hcn⟩, ?_⟩, ?_⟩
  · refine (congrArg₂ (· ||| _ <<< ·) hmr.pmask hmr.shift).trans (allOnes_or hp)
  · refine (congrArg (fun s => ((mem r).pfx ||| _ <<< s).toNat) hmr.shift).trans
      (toNat_pfx_or ?_ (hs ▸ hmr.pfx) hdlt)
    rw [← hs]
    exact shiftAt_le p
  · rw [hD]
    rfl
  · exact hmr.clean.sums mem q hq
  · exact sumGroups_hist_other mem (mem r) hC' hx
  · exact sumGroups_lowor_other mem (mem r) hC' hw
  · change (mem r).localGt + ∑ x ∈ Finset.Ico (d + 1) (nbins p), (mem r).hist (p % 2) x = _
    rw [hmr.above, count_above_refined hnext hdig hdlt, nbins_eq]
    refine congrArg₂ (· + ·) ?_ (Finset.sum_congr rfl fun x hx =>
      hmr.hist x (Finset.mem_Ico.mp hx).2)
    simp only [hs]
  · change (mem r).hist (p % 2) d = _
    rw [hmr.hist d hdlt, count_refined hnext hdig hdlt]
  · rw [hD]
    rfl

/-- What holds at the barrier of pass `p`: the bucket has been counted, or the threshold is
known. -/
def ClusterOk (a : ClusterArgs) (p : ℕ) (mem : ℕ → CtaState) : Prop :=
  (p < 3 ∧ ∃ P K, Bucket a.row.keyNat a.n a.k (fun x => x >>> shiftAt p) P K ∧
    ∀ r < a.C, Counted a p P K r (mem r)) ∨
  ∃ q P K, 0 < q ∧ Threshold a.row.keyNat a.n a.k (fun x => x >>> shiftAt q) P K ∧
    ∀ r < a.C, Settled a q P K r (mem r) ∧ (p < 3 → (mem r).done = true)

theorem alone_of_done {view : ℕ → CtaState} {m : CtaState} (h : m.done = true) :
    alone (a.act p) r view 4 m = m := by
  simp only [alone, act_of_done h]

/-- The moves of a block up to the next barrier. -/
theorem alone_of_not_done {view : ℕ → CtaState} {m : CtaState} (h : m.done = false) :
    alone (a.act p) r view 4 m =
      a.act p 3 r view (decidePass p (a.sumBins p view (a.sumGroups p view m))) := by
  have h1 : (a.sumGroups p view m).done = false := h
  have h2 : (a.sumBins p view (a.sumGroups p view m)).done = false := h
  simp only [alone]
  rw [act_zero h, act_one h1, act_two h2]

/-- **From barrier to barrier.** -/
theorem ClusterOk.epoch (hC : 0 < a.C) (hC' : a.C < 32) (hU : 0 < a.U) (hp : p < 3)
    {l : List ℕ} (hl : ∀ r < a.C, l.count r = 4) (h : ClusterOk a p mem) :
    ClusterOk a (p + 1) (moves (a.act p) l mem fun _ => 0).1 := by
  have hmoves {r : ℕ} (hr : r < a.C) :
      (moves (a.act p) l mem fun _ => 0).1 r = alone (a.act p) r mem 4 (mem r) :=
    moves_epoch (hl r hr)
  rcases h with ⟨-, P, K, hb, hcnt⟩ | ⟨q, P, K, hq, hth, hset⟩
  · have hs := shiftAt_eq hp
    -- the digit that refines the bucket, or settles on a threshold
    obtain ⟨d, hd, href⟩ := exists_refined (hs ▸ hb) (allHist_countsDigits hC hcnt)
      (if p = 1 then some (a.allLow p mem) else none)
    rw [← nbins_eq p] at hd
    rw [← nbins_eq p] at href
    generalize hD : decisionAt (a.allHist p mem) (nbins p) K
      (if p = 1 then some (a.allLow p mem) else none) d = D at href
    have hdec {r : ℕ} (hr : r < a.C) := Counted.settled hC' hp hcnt hd hr hD.symm
    have hdigit : D.digit = d := by rw [← hD, decisionAt]
    have hstate {r : ℕ} (hr : r < a.C) := (hmoves hr).trans (alone_of_not_done (hcnt r hr).done)
    rw [← hdigit] at hdec
    cases hdone : D.done with
    | true =>
      refine .inr ⟨p + 1, _, _, Nat.succ_pos p, href.threshold hdone fun hagree => ?_,
        fun r hr => ?_⟩
      · -- only the second pass has flags
        obtain rfl : p = 1 := by
          by_contra hne
          rw [if_neg hne] at hagree
          exact Bool.false_ne_true hagree
        exact eq_of_agreesBelow (allLow_flagsLow hC hcnt) href.lt hagree
      · obtain ⟨hm, hmd⟩ := hdec hr
        rw [hstate hr, act_of_done (hmd.trans hdone)]
        exact ⟨hm, fun _ => hmd.trans hdone⟩
    | false =>
      by_cases hlast : p + 1 < 3
      · refine .inl ⟨hlast, _, _, href.bucket, fun r hr => ?_⟩
        obtain ⟨hm, hmd⟩ := hdec hr
        rw [hstate hr, act_three (hmd.trans hdone), if_pos hlast]
        exact hm.toFound.count (hmd.trans hdone) hlast hU
      · -- no bits are left
        obtain rfl : p = 2 := by omega
        refine .inr ⟨3, _, _, by omega, href.threshold_zero, fun r hr => ?_⟩
        obtain ⟨hm, hmd⟩ := hdec hr
        rw [hstate hr, act_three (hmd.trans hdone), if_neg hlast]
        exact ⟨hm, fun h => absurd h hlast⟩
  · -- a block that is done only waits at the barriers
    exact .inr ⟨q, P, K, hq, hth, fun r hr => ⟨by
      rw [hmoves hr, alone_of_done ((hset r hr).2 hp)]
      exact (hset r hr).1, fun _ => by
      rw [hmoves hr, alone_of_done ((hset r hr).2 hp)]
      exact (hset r hr).2 hp⟩⟩

end Epoch

/-! ### The run -/

section Run

variable (a)

/-- The blocks after the moves of the first passes. `l p`: the order of the moves between the
barriers of pass `p`. -/
def epochs (l : ℕ → List ℕ) : ℕ → (ℕ → CtaState) → ℕ → CtaState
  | 0, mem => mem
  | p + 1, mem => (moves (a.act p) (l p) (epochs l p mem) fun _ => 0).1

/-- What the blocks add to `s_before` of the later ones: `false` for the columns above the
threshold, `true` for those on it. -/
def beforeOps (gt eq : ℕ → ℕ) : List ((ℕ × Bool) × ℕ) :=
  (List.range a.C).flatMap fun r => (List.range a.C).flatMap fun t =>
    if r < t then
      (if gt r ≠ 0 then [((t, false), gt r)] else []) ++
        if eq r ≠ 0 then [((t, true), eq r)] else []
    else []

/-- `s_before`, the additions taking effect in some order. -/
def before (il : Interleaving ((ℕ × Bool) × ℕ)) (gt eq : ℕ → ℕ) : ℕ × Bool → ℕ :=
  (il.run (a.beforeOps gt eq)).foldl addTo fun _ => 0

/-- The arguments of `compact`. -/
def compactArgs (colBase : ℤ) (s : ℕ × Bool → ℕ) (r : ℕ) (m : CtaState) : CompactArgs where
  row := a.row.from (a.lo r)
  skeys := m.skeys
  fromSmem := a.cache r
  n := a.sn r
  shift := m.shift
  pHi := m.pfx >>> m.shift
  kRem := m.kRem
  k := a.k
  gtOff := s (r, false)
  eqOff := s (r, true)
  colBase := colBase + a.lo r

/-- The order in which the operations of the blocks take effect. -/
structure Order where
  moves : ℕ → List ℕ
  adds : Interleaving ((ℕ × Bool) × ℕ)
  out : Interleaving (ℕ × ℤ)

/-- Between two barriers each block makes its four moves. -/
def Order.Fair (o : Order) (C : ℕ) : Prop := ∀ p, ∀ r < C, (o.moves p).count r = 4

/-- The output of a row that a cluster shares. -/
def clusterTopk (o : Order) (m0 : ℕ → CtaState) (colBase : ℤ) (orow : ℕ → ℤ) : ℕ → ℤ :=
  let mem := a.epochs o.moves 3 fun r => a.count 0 r (a.start (m0 r))
  let s := a.before o.adds (fun r => (mem r).localGt) fun r => (mem r).localEq
  stores (o.out.run ((List.range a.C).flatMap fun r =>
    (a.compactArgs colBase s r (mem r)).compactWrites 32)) orow

variable {a}

/-- What one block adds for another. -/
theorem total_blockOps (gt eq : ℕ → ℕ) (b : Bool) (t r t' : ℕ) :
    total (t, b) (if r < t' then
      (if gt r ≠ 0 then [((t', false), gt r)] else []) ++
        if eq r ≠ 0 then [((t', true), eq r)] else []
      else []) = if t' = t then (if r < t then (if b then eq r else gt r) else 0) else 0 := by
  by_cases hlt : r < t'
  · rw [if_pos hlt, total_append]
    by_cases heq : t' = t
    · subst heq
      rw [if_pos rfl, if_pos hlt]
      cases b
      · by_cases h1 : gt r = 0 <;> by_cases h2 : eq r = 0 <;> simp [total, h1, h2]
      · by_cases h1 : gt r = 0 <;> by_cases h2 : eq r = 0 <;> simp [total, h1, h2]
    · rw [if_neg heq]
      by_cases h1 : gt r = 0 <;> by_cases h2 : eq r = 0 <;> simp [total, h1, h2, heq]
  · rw [if_neg hlt, total]
    by_cases heq : t' = t
    · subst heq
      rw [if_pos rfl, if_neg hlt]
    · rw [if_neg heq]

/-- What the earlier blocks have. -/
theorem before_eq (il : Interleaving ((ℕ × Bool) × ℕ)) (gt eq : ℕ → ℕ) {t : ℕ} (ht : t < a.C)
    (b : Bool) :
    a.before il gt eq (t, b) = ∑ r ∈ Finset.range t, if b then eq r else gt r := by
  have hblock (r : ℕ) : ∑ t' ∈ Finset.range a.C,
      (if t' = t then (if r < t then (if b then eq r else gt r) else 0) else 0) =
        if r < t then (if b then eq r else gt r) else 0 := by
    rw [Finset.sum_ite_eq', if_pos (Finset.mem_range.mpr ht)]
  have hset : (Finset.range a.C).filter (· < t) = Finset.range t := by
    ext r
    simp only [Finset.mem_filter, Finset.mem_range]
    omega
  rw [before, foldl_addTo, total_perm (il.perm _), beforeOps, total_flatMap_range, Nat.zero_add]
  simp only [total_flatMap_range, total_blockOps, hblock]
  rw [← Finset.sum_filter, hset]

/-- At every barrier. -/
theorem epochs_ok (hC : 0 < a.C) (hC' : a.C < 32) (hU : 0 < a.U) (hk : 0 < a.k)
    (hn : a.k < a.n) {o : Order} (ho : o.Fair a.C) (m0 : ℕ → CtaState) {p : ℕ} (hp : p ≤ 3) :
    ClusterOk a p (a.epochs o.moves p fun r => a.count 0 r (a.start (m0 r))) := by
  induction p with
  | zero =>
    exact .inl ⟨by omega, 0, a.k, bucket_start hk hn, fun r _ =>
      (start_found (m0 r)).count rfl (by omega) hU⟩
  | succ p ih => exact (ih (by omega)).epoch hC hC' hU (by omega) (ho p)

/-- What the earlier slices have is what the row has before the slice. -/
theorem sum_count_before {r : ℕ} (hr : r < a.C) (Q : ℕ → Prop) [DecidablePred Q] {f : ℕ → ℕ}
    (hf : ∀ c < a.C, f c = Nat.count (fun j => Q (a.sliceKey c j)) (a.sn c)) :
    ∑ c ∈ Finset.range r, f c = Nat.count (fun j => Q (a.row.keyNat j)) (a.lo r) := by
  rw [lo, ← sum_count_slices a.C a.n fun j => Q (a.row.keyNat j)]
  refine Finset.sum_congr rfl fun c hc => ?_
  rw [hf c ((Finset.mem_range.mp hc).trans hr)]
  exact count_congr fun j _ => by rw [sliceKey_eq]; exact Iff.rfl

theorem slice_end_le (r : ℕ) : a.lo r + a.sn r ≤ a.n := by
  rw [lo, sn, ← sliceStart_succ]
  exact sliceStart_le _ _ _

variable {q P K : ℕ} {mem : ℕ → CtaState}

/-- What a block stores: what the threshold takes of its slice. -/
theorem Settled.mem_compactWrites (h : ∀ c < a.C, Settled a q P K c (mem c)) (hq : 0 < q)
    (hth : Threshold a.row.keyNat a.n a.k (fun y => y >>> shiftAt q) P K)
    (il : Interleaving ((ℕ × Bool) × ℕ)) (colBase : ℤ) {r : ℕ} (hr : r < a.C) (x : ℕ × ℤ) :
    x ∈ (a.compactArgs colBase (a.before il (fun c => (mem c).localGt) fun c => (mem c).localEq) r
        (mem r)).compactWrites 32 ↔
      ∃ c < a.sn r, (P < a.row.keyNat (a.lo r + c) >>> shiftAt q ∨
        a.row.keyNat (a.lo r + c) >>> shiftAt q = P ∧
          Nat.count (fun j => a.row.keyNat j >>> shiftAt q = P) (a.lo r + c) < K) ∧
        x = (Nat.count (fun j => P < a.row.keyNat j >>> shiftAt q) (a.lo r + c) +
          min (Nat.count (fun j => a.row.keyNat j >>> shiftAt q = P) (a.lo r + c)) K,
            colBase + a.lo r + c) := by
  have hmr := h r hr
  let s := a.before il (fun c => (mem c).localGt) fun c => (mem c).localEq
  have hkey : ∀ c < a.sn r, (keyAt (a.row.from (a.lo r)) (mem r).skeys (a.cache r) c).toNat =
      a.row.keyNat (a.lo r + c) := by
    intro c hc
    rw [← Row.keyNat_from, keyAt]
    split_ifs with hcache
    · exact congrArg BitVec.toNat (hmr.kept hcache hq c hc)
    · rfl
  have hpHi : ((mem r).pfx >>> (mem r).shift).toNat = P := by
    rw [BitVec.toNat_ushiftRight, hmr.pfx, hmr.shift, Nat.shiftLeft_shiftRight]
  have hgt : s (r, false) =
      Nat.count (fun j => P < a.row.keyNat j >>> (mem r).shift) (a.lo r) := by
    rw [hmr.shift]
    exact (before_eq _ _ _ hr false).trans
      (sum_count_before hr (fun y => P < y >>> shiftAt q) fun c hc => (h c hc).above)
  have heq : s (r, true) =
      Nat.count (fun j => a.row.keyNat j >>> (mem r).shift = P) (a.lo r) := by
    rw [hmr.shift]
    exact (before_eq _ _ _ hr true).trans
      (sum_count_before hr (fun y => y >>> shiftAt q = P) fun c hc => (h c hc).on)
  have hthr : Threshold a.row.keyNat a.n a.k (fun y => y >>> (mem r).shift) P (mem r).kRem := by
    rw [hmr.shift, hmr.kRem]
    exact hth
  rw [← hmr.shift, ← hmr.kRem]
  exact mem_compactWrites_of_threshold (by omega) le_rfl hkey (slice_end_le r) hpHi hthr hgt heq x

/-- **The cluster selects.** The output is the `k` columns that come first, for every number of
blocks and every order of their moves, additions and stores. -/
theorem clusterTopk_selection (hC : 0 < a.C) (hC' : a.C < 32) (hU : 0 < a.U) (hk : 0 < a.k)
    (hn : a.k < a.n) {o : Order} (ho : o.Fair a.C) (m0 : ℕ → CtaState) (colBase : ℤ)
    (orow : ℕ → ℤ) :
    a.clusterTopk o m0 colBase orow = selection a.row.keyNat a.n a.k colBase orow := by
  have hok := epochs_ok hC hC' hU hk hn ho m0 le_rfl
  rw [clusterTopk]
  generalize a.epochs o.moves 3 (fun r => a.count 0 r (a.start (m0 r))) = mem at hok ⊢
  rcases hok with ⟨hlt, -⟩ | ⟨q, P, K, hq, hth, hset⟩
  · omega
  have hblock {r : ℕ} (hr : r < a.C) :=
    Settled.mem_compactWrites (fun c hc => (hset c hc).1) hq hth o.adds colBase hr
  refine stores_eq_selection hth (fun x => ?_) orow
  rw [o.out.mem_run, List.mem_flatMap]
  constructor
  · rintro ⟨r, hr, hx⟩
    have hr := List.mem_range.mp hr
    obtain ⟨c, hc, htake, rfl⟩ := (hblock hr x).mp hx
    have := slice_end_le (a := a) r
    refine ⟨a.lo r + c, by omega, htake, ?_⟩
    rw [Nat.cast_add, add_assoc]
  · rintro ⟨c, hc, htake, rfl⟩
    have hc' : c < sliceStart a.C a.n a.C := by rwa [sliceStart_self hC]
    obtain ⟨r, hr, j, hj, rfl⟩ := exists_slice a.C a.n hc'
    refine ⟨r, List.mem_range.mpr hr, (hblock hr _).mpr ⟨j, hj, htake, ?_⟩⟩
    rw [Nat.cast_add, add_assoc]
    rfl

end Run

end ClusterArgs

end DetTopk

end VllmMoet
