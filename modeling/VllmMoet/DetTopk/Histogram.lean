import VllmMoet.DetTopk.Keys
import VllmMoet.Lib.Interleaving

/-!
# The histograms

`histogram` of `det_topk_sm120.cu`: the threads of a block read the row in stripes and count the
digits of the keys that match a prefix, with atomics on shared memory whose order is free.

* `histogram_hist`: a bin has the number of the columns whose key matches and has its digit;
* `histogram_lowor`: its flag is set if one of these keys has a bit under `lowmask`;
* `histogram_skeys`: the first pass leaves the keys in shared memory.

The counters are natural numbers: a row has fewer than `2 ^ 32` columns.
-/

namespace VllmMoet

namespace DetTopk

/-- Shared memory: `hist`, `lowor` and `skeys`. -/
structure Smem where
  hist : ℕ → ℕ
  lowor : ℕ → BitVec 32
  skeys : ℕ → BitVec 32

/-- What a thread does to shared memory. -/
inductive SmemOp
  | keep (c : ℕ) (key : BitVec 32)
  | atomicAdd (d : ℕ)
  | atomicOr (w : ℕ) (m : BitVec 32)
  deriving DecidableEq

/-- `atomicOr(&lowor[d >> 5], 1u << (d & 31))`. -/
def setFlag (d : BitVec 32) : SmemOp :=
  .atomicOr (d >>> 5).toNat (1#32 <<< (d &&& 31#32).toNat)

/-- The flag of a bin. -/
def flag (lowor : ℕ → BitVec 32) (d : ℕ) : Bool := (lowor (d / 32)).getLsbD (d % 32)

namespace SmemOp

def exec (sm : Smem) : SmemOp → Smem
  | keep c key => { sm with skeys := Function.update sm.skeys c key }
  | atomicAdd d => { sm with hist := Function.update sm.hist d (sm.hist d + 1) }
  | atomicOr w m => { sm with lowor := Function.update sm.lowor w (sm.lowor w ||| m) }

/-- It sets the flag of a bin. -/
def sets (d : ℕ) : SmemOp → Bool
  | atomicOr w m => w = d / 32 && m.getLsbD (d % 32)
  | _ => false

@[simp]
theorem sets_keep (d c : ℕ) (key : BitVec 32) : sets d (keep c key) = false := rfl

@[simp]
theorem sets_atomicAdd (d d' : ℕ) : sets d (atomicAdd d') = false := rfl

@[simp]
theorem setFlag_ne_atomicAdd (g : BitVec 32) (d : ℕ) : setFlag g ≠ atomicAdd d := by simp [setFlag]

@[simp]
theorem setFlag_ne_keep (g : BitVec 32) (c : ℕ) (key : BitVec 32) : setFlag g ≠ keep c key := by
  simp [setFlag]

@[simp]
theorem sets_setFlag (d : ℕ) (g : BitVec 32) : sets d (setFlag g) = decide (g.toNat = d) := by
  have hword : (g >>> 5).toNat = g.toNat / 32 := by
    rw [BitVec.toNat_ushiftRight, Nat.shiftRight_eq_div_pow]
  have hbit : (g &&& 31#32).toNat = g.toNat % 32 := by
    rw [BitVec.toNat_and]
    exact Nat.and_two_pow_sub_one_eq_mod g.toNat 5
  have hlt : g.toNat % 32 < 32 := Nat.mod_lt _ (by omega)
  have hone : (1#32 <<< (g.toNat % 32)).getLsbD (d % 32) = decide (d % 32 = g.toNat % 32) := by
    rw [BitVec.getLsbD_shiftLeft]
    have := Nat.mod_lt d (y := 32) (by omega)
    by_cases h : d % 32 = g.toNat % 32
    · simp [h, hlt]
    · rcases Nat.lt_or_gt_of_ne h with h' | h'
      · simp [h, h']
      · have hsub : d % 32 - g.toNat % 32 ≠ 0 := by omega
        simp [h, BitVec.getLsbD_one, hsub]
  rw [setFlag, sets, hword, hbit, hone, ← Bool.decide_and]
  congr 1
  rw [eq_iff_iff]
  omega

section

variable (ops : List SmemOp) (sm : Smem)

/-- A bin counts the additions to it. -/
theorem foldl_hist (d : ℕ) :
    (ops.foldl exec sm).hist d = sm.hist d + ops.countP (· = atomicAdd d) := by
  induction ops generalizing sm with
  | nil => rfl
  | cons op ops ih =>
    rw [List.foldl_cons, ih, List.countP_cons]
    cases op with
    | keep c key => simp [exec]
    | atomicOr w m => simp [exec]
    | atomicAdd d' =>
      by_cases h : d' = d
      · subst h
        simp only [exec, Function.update_self, decide_true, if_true]
        omega
      · simp [exec, h, Function.update_of_ne (Ne.symm h)]

/-- A flag is set by an operation that sets it. -/
theorem foldl_lowor (d : ℕ) :
    flag (ops.foldl exec sm).lowor d = (flag sm.lowor d || ops.any (sets d)) := by
  induction ops generalizing sm with
  | nil => simp
  | cons op ops ih =>
    rw [List.foldl_cons, ih, List.any_cons, ← Bool.or_assoc]
    congr 1
    cases op with
    | keep c key => simp [exec, sets]
    | atomicAdd d' => simp [exec, sets]
    | atomicOr w m =>
      by_cases h : w = d / 32
      · subst h
        simp [exec, sets, flag]
      · simp [exec, sets, flag, h, Function.update_of_ne (Ne.symm h)]

/-- A column whose key is kept. -/
theorem foldl_skeys {c : ℕ} {key : BitVec 32} (hmem : keep c key ∈ ops)
    (hkey : ∀ key', keep c key' ∈ ops → key' = key) : (ops.foldl exec sm).skeys c = key := by
  induction ops using List.reverseRecOn with
  | nil => simp at hmem
  | append_singleton ops op ih =>
    rw [List.foldl_append, List.foldl_cons, List.foldl_nil]
    have hlast (h : op ≠ keep c key) : keep c key ∈ ops :=
      (List.mem_append.mp hmem).resolve_right fun h' => h (List.mem_singleton.mp h').symm
    have hkey' : ∀ key', keep c key' ∈ ops → key' = key := fun key' h => hkey key' (by simp [h])
    cases op with
    | keep c' key' =>
      by_cases h : c' = c
      · subst h
        simp [exec, hkey key' (by simp)]
      · simp only [exec, Function.update_of_ne (Ne.symm h)]
        exact ih (hlast (by simp [h])) hkey'
    | atomicAdd d => exact ih (hlast (by simp)) hkey'
    | atomicOr w m => exact ih (hlast (by simp)) hkey'

/-- No key is kept. -/
theorem foldl_skeys_of_notMem (h : ∀ c key, keep c key ∉ ops) :
    (ops.foldl exec sm).skeys = sm.skeys := by
  induction ops generalizing sm with
  | nil => rfl
  | cons op ops ih =>
    rw [List.foldl_cons, ih _ fun c key hmem => h c key (by simp [hmem])]
    cases op with
    | keep c key => exact absurd (by simp) (h c key)
    | atomicAdd d => rfl
    | atomicOr w m => rfl

end

end SmemOp

/-! ### The stripes of the threads -/

/-- `for (q0 = 0; q0 < n; q0 += 4 * THREADS * UNROLL)`: where the thread's quadruples begin. -/
def bases (T U n t : ℕ) : List ℕ :=
  (List.range ((n + 4 * T * U - 1) / (4 * T * U))).flatMap fun i =>
    (List.range U).map fun u => 4 * T * U * i + 4 * (u * T + t)

/-- The columns that the threads of the block look at. -/
def visits (T U n : ℕ) : List ℕ :=
  (List.range T).flatMap fun t => (bases T U n t).flatMap fun base =>
    (List.range 4).map fun v => base + v

section Visits

variable {T U n : ℕ}

theorem mem_bases {t b : ℕ} :
    b ∈ bases T U n t ↔ ∃ i < (n + 4 * T * U - 1) / (4 * T * U), ∃ u < U,
      b = 4 * (T * (U * i + u) + t) := by
  rw [bases]
  simp only [List.mem_flatMap, List.mem_map, List.mem_range]
  have harith (i u : ℕ) : 4 * T * U * i + 4 * (u * T + t) = 4 * (T * (U * i + u) + t) := by ring
  simp only [harith, eq_comm]

theorem bases_nodup (hT : 0 < T) {t : ℕ} : (bases T U n t).Nodup := by
  have harith (i u : ℕ) : 4 * T * U * i + 4 * (u * T + t) = 4 * (T * (U * i + u) + t) := by ring
  have hdiv {i u : ℕ} : (4 * (T * (U * i + u) + t) / 4 - t) / T = U * i + u := by
    rw [Nat.mul_div_cancel_left _ (by omega), Nat.add_sub_cancel, Nat.mul_div_cancel_left _ hT]
  simp only [bases, harith]
  refine nodup_flatMap_of_tag (fun b => (b / 4 - t) / T / U) List.nodup_range ?_ ?_
  · intro i _
    refine List.nodup_range.map_on fun u _ u' _ heq => ?_
    have := congrArg (fun b => (b / 4 - t) / T) heq
    simp only [hdiv] at this
    omega
  · intro i _ b hb
    obtain ⟨u, hu, rfl⟩ := List.mem_map.mp hb
    have hu := List.mem_range.mp hu
    rw [hdiv, Nat.mul_add_div (by omega), Nat.div_eq_of_lt hu, Nat.add_zero]

theorem mem_bases_mod {t b : ℕ} (hb : b ∈ bases T U n t) : b % 4 = 0 := by
  obtain ⟨i, -, u, -, rfl⟩ := mem_bases.mp hb
  exact Nat.mul_mod_right 4 _

theorem visits_nodup (hT : 0 < T) : (visits T U n).Nodup := by
  refine nodup_flatMap_of_tag (fun c => c / 4 % T) List.nodup_range ?_ ?_
  · intro t _
    refine nodup_flatMap_of_tag (fun c => 4 * (c / 4)) (bases_nodup hT) ?_ ?_
    · intro base _
      exact List.nodup_range.map_on fun v _ v' _ heq => by omega
    · intro base hb c hc
      obtain ⟨v, hv, rfl⟩ := List.mem_map.mp hc
      have := List.mem_range.mp hv
      have := mem_bases_mod hb
      omega
  · intro t ht c hc
    obtain ⟨base, hb, hc⟩ := List.mem_flatMap.mp hc
    obtain ⟨v, hv, rfl⟩ := List.mem_map.mp hc
    obtain ⟨i, -, u, -, rfl⟩ := mem_bases.mp hb
    have := List.mem_range.mp hv
    rw [Nat.mul_add_div (by omega), Nat.div_eq_of_lt this, Nat.add_zero, Nat.mul_add_mod,
      Nat.mod_eq_of_lt (List.mem_range.mp ht)]

/-- Every column is looked at. -/
theorem mem_visits (hT : 0 < T) (hU : 0 < U) {c : ℕ} (hc : c < n) : c ∈ visits T U n := by
  have hTU : 0 < 4 * T * U := Nat.mul_pos (Nat.mul_pos (by omega) hT) hU
  refine List.mem_flatMap.mpr ⟨c / 4 % T, List.mem_range.mpr (Nat.mod_lt _ hT), ?_⟩
  refine List.mem_flatMap.mpr ⟨4 * (c / 4), mem_bases.mpr ⟨c / 4 / T / U, ?_, c / 4 / T % U,
    Nat.mod_lt _ hU, ?_⟩, List.mem_map.mpr ⟨c % 4, List.mem_range.mpr (by omega), by omega⟩⟩
  · rw [Nat.div_div_eq_div_mul, Nat.div_div_eq_div_mul, ← Nat.mul_assoc]
    refine lt_of_lt_of_le (Nat.lt_succ_self _) ((Nat.le_div_iff_mul_le hTU).mpr ?_)
    have := Nat.div_mul_le_self c (4 * T * U)
    rw [Nat.succ_mul]
    omega
  · rw [Nat.div_add_mod, Nat.div_add_mod]

end Visits

/-! ### A pass -/

/-- The arguments of a pass. -/
structure HistArgs where
  pfx : BitVec 32
  pmask : BitVec 32
  shift : ℕ
  dmask : BitVec 32
  storeKeys : Bool
  fromSmem : Bool
  /-- `lowor` is given. -/
  flags : Bool
  lowmask : BitVec 32

variable (a : HistArgs)

/-- The digit of a key. -/
def HistArgs.digit (key : BitVec 32) : BitVec 32 := (key >>> a.shift) &&& a.dmask

/-- What is done for a column: nothing where it is not valid. -/
def columnOps (c : ℕ) : Option (BitVec 32) → List SmemOp
  | none => []
  | some key =>
    (if a.storeKeys then [.keep c key] else []) ++
      if key &&& a.pmask = a.pfx then
        .atomicAdd (a.digit key).toNat ::
          if a.flags ∧ key &&& a.lowmask ≠ 0#32 then [setFlag (a.digit key)] else []
      else []

/-- `smem_keys4` or `load_keys4`. -/
def keys4 (row : Row) (skeys : ℕ → BitVec 32) (fromSmem : Bool) (n base v : ℕ) :
    Option (BitVec 32) :=
  if fromSmem then smemKeys4 skeys n base v else loadKeys4 row n base v

/-- What the threads of the block do. -/
def histogramOps (T U : ℕ) (row : Row) (n : ℕ) (skeys : ℕ → BitVec 32) : List SmemOp :=
  (List.range T).flatMap fun t => (bases T U n t).flatMap fun base =>
    (List.range 4).flatMap fun v => columnOps a (base + v) (keys4 row skeys a.fromSmem n base v)

/-- `histogram`, the operations of the threads taking effect in some order. -/
def histogram (il : Interleaving SmemOp) (T U : ℕ) (row : Row) (n : ℕ) (sm : Smem) : Smem :=
  (il.run (histogramOps a T U row n sm.skeys)).foldl SmemOp.exec sm

/-- The key that a column is read with. -/
def keyAt (row : Row) (skeys : ℕ → BitVec 32) (fromSmem : Bool) (c : ℕ) : BitVec 32 :=
  if fromSmem then skeys c else row.key c

section Spec

variable {a} {row : Row} {n : ℕ} {T U : ℕ} {skeys : ℕ → BitVec 32}

theorem keys4_eq {fromSmem : Bool} {base v : ℕ} (hv : v < 4) :
    keys4 row skeys fromSmem n base v =
      if base + v < n then some (keyAt row skeys fromSmem (base + v)) else none := by
  rw [keys4, keyAt]
  split_ifs with h h'
  · rw [smemKeys4_eq skeys hv, if_pos h']
  · rw [smemKeys4_eq skeys hv, if_neg h']
  · rw [loadKeys4_eq row hv, if_pos ‹_›]
  · rw [loadKeys4_eq row hv, if_neg ‹_›]

/-- The operations for the columns that are looked at. -/
theorem histogramOps_eq :
    histogramOps a T U row n skeys = (visits T U n).flatMap fun c =>
      columnOps a c (if c < n then some (keyAt row skeys a.fromSmem c) else none) := by
  rw [histogramOps, visits]
  simp only [List.flatMap_assoc, List.flatMap_map]
  refine List.flatMap_congr fun t _ => List.flatMap_congr fun base _ =>
    List.flatMap_congr fun v hv => ?_
  rw [keys4_eq (List.mem_range.mp hv)]

theorem mem_histogramOps (hT : 0 < T) (hU : 0 < U) {op : SmemOp} :
    op ∈ histogramOps a T U row n skeys ↔
      ∃ c < n, op ∈ columnOps a c (some (keyAt row skeys a.fromSmem c)) := by
  rw [histogramOps_eq, List.mem_flatMap]
  constructor
  · rintro ⟨c, -, hop⟩
    split_ifs at hop with hc
    · exact ⟨c, hc, hop⟩
    · simp [columnOps] at hop
  · rintro ⟨c, hc, hop⟩
    exact ⟨c, mem_visits hT hU hc, by rwa [if_pos hc]⟩

theorem countP_columnOps (c d : ℕ) (key : BitVec 32) :
    (columnOps a c (some key)).countP (· = .atomicAdd d) =
      if key &&& a.pmask = a.pfx ∧ (a.digit key).toNat = d then 1 else 0 := by
  rw [columnOps, List.countP_append]
  have hkeep : (if a.storeKeys then [SmemOp.keep c key] else []).countP (· = .atomicAdd d) = 0 := by
    split_ifs <;> simp
  rw [hkeep, Nat.zero_add]
  by_cases hm : key &&& a.pmask = a.pfx
  · rw [if_pos hm, List.countP_cons]
    have hflag : (if a.flags ∧ key &&& a.lowmask ≠ 0#32 then [setFlag (a.digit key)] else
        []).countP (· = .atomicAdd d) = 0 := by
      split_ifs <;> simp
    rw [hflag]
    simp [hm]
  · rw [if_neg hm, if_neg fun h => hm h.1]
    rfl

theorem any_sets_columnOps (c d : ℕ) (key : BitVec 32) :
    (columnOps a c (some key)).any (SmemOp.sets d) = true ↔
      key &&& a.pmask = a.pfx ∧ (a.digit key).toNat = d ∧ a.flags = true ∧
        key &&& a.lowmask ≠ 0#32 := by
  rw [columnOps, List.any_append]
  have hkeep : (if a.storeKeys then [SmemOp.keep c key] else []).any (SmemOp.sets d) = false := by
    split_ifs <;> simp
  rw [hkeep, Bool.false_or]
  by_cases hm : key &&& a.pmask = a.pfx
  · rw [if_pos hm, and_iff_right hm]
    by_cases hlow : a.flags = true ∧ key &&& a.lowmask ≠ 0#32
    · simp [hlow]
    · rw [if_neg hlow]
      simp [hlow]
  · simp [hm]

theorem mem_columnOps_keep {c c' : ℕ} {key key' : BitVec 32} :
    SmemOp.keep c' key' ∈ columnOps a c (some key) ↔
      a.storeKeys = true ∧ c' = c ∧ key' = key := by
  have hflag : SmemOp.keep c' key' ≠ setFlag (a.digit key) := (SmemOp.setFlag_ne_keep _ _ _).symm
  rw [columnOps, List.mem_append]
  split_ifs <;> simp_all

variable {il : Interleaving SmemOp} {sm : Smem}

/-- A bin has the number of the columns that match and have its digit. -/
theorem histogram_hist (hT : 0 < T) (hU : 0 < U) (d : ℕ) :
    (histogram a il T U row n sm).hist d = sm.hist d +
      Nat.count (fun c => keyAt row sm.skeys a.fromSmem c &&& a.pmask = a.pfx ∧
        (a.digit (keyAt row sm.skeys a.fromSmem c)).toNat = d) n := by
  let Q (c : ℕ) : Bool := c < n ∧ keyAt row sm.skeys a.fromSmem c &&& a.pmask = a.pfx ∧
    (a.digit (keyAt row sm.skeys a.fromSmem c)).toNat = d
  have hops : (histogramOps a T U row n sm.skeys).countP (· = .atomicAdd d) =
      (visits T U n).countP Q := by
    rw [histogramOps_eq]
    refine countP_flatMap_eq fun c _ => ?_
    by_cases hc : c < n
    · rw [if_pos hc, countP_columnOps]
      simp [Q, hc]
    · simp [Q, hc, columnOps]
  rw [histogram, SmemOp.foldl_hist, (il.perm _).countP_eq, hops,
    countP_eq_count (visits_nodup hT) (fun c hc => mem_visits hT hU hc)
      fun c _ hq => (of_decide_eq_true hq).1]
  congr 1
  have hcongr : ∀ c < n, (Q c = true ↔ keyAt row sm.skeys a.fromSmem c &&& a.pmask = a.pfx ∧
      (a.digit (keyAt row sm.skeys a.fromSmem c)).toNat = d) := fun c hc => by simp [Q, hc]
  exact le_antisymm (Nat.count_mono_left fun c hc => (hcongr c hc).mp)
    (Nat.count_mono_left fun c hc => (hcongr c hc).mpr)

/-- A flag is set if a matching key has a low bit. -/
theorem histogram_lowor (hT : 0 < T) (hU : 0 < U) (hflags : a.flags = true) {d : ℕ}
    (hd : flag sm.lowor d = false) :
    flag (histogram a il T U row n sm).lowor d = true ↔
      ∃ c < n, keyAt row sm.skeys a.fromSmem c &&& a.pmask = a.pfx ∧
        (a.digit (keyAt row sm.skeys a.fromSmem c)).toNat = d ∧
        keyAt row sm.skeys a.fromSmem c &&& a.lowmask ≠ 0#32 := by
  rw [histogram, SmemOp.foldl_lowor, hd, Bool.false_or, List.any_eq_true]
  simp only [il.mem_run, mem_histogramOps hT hU]
  have hany (c : ℕ) := any_sets_columnOps (a := a) c d (keyAt row sm.skeys a.fromSmem c)
  simp only [List.any_eq_true] at hany
  constructor
  · rintro ⟨op, ⟨c, hc, hop⟩, hsets⟩
    obtain ⟨hm, hdig, -, hlow⟩ := (hany c).mp ⟨op, hop, hsets⟩
    exact ⟨c, hc, hm, hdig, hlow⟩
  · rintro ⟨c, hc, hm, hdig, hlow⟩
    obtain ⟨op, hop, hsets⟩ := (hany c).mpr ⟨hm, hdig, hflags, hlow⟩
    exact ⟨op, ⟨c, hc, hop⟩, hsets⟩

/-- The first pass leaves the keys. -/
theorem histogram_skeys (hT : 0 < T) (hU : 0 < U) (hstore : a.storeKeys = true) {c : ℕ}
    (hc : c < n) :
    (histogram a il T U row n sm).skeys c = keyAt row sm.skeys a.fromSmem c := by
  refine SmemOp.foldl_skeys _ _ ?_ fun key' h => ?_
  · rw [il.mem_run, mem_histogramOps hT hU]
    exact ⟨c, hc, mem_columnOps_keep.mpr ⟨hstore, rfl, rfl⟩⟩
  · rw [il.mem_run, mem_histogramOps hT hU] at h
    obtain ⟨c', -, h⟩ := h
    obtain ⟨-, rfl, rfl⟩ := mem_columnOps_keep.mp h
    rfl

/-- The later ones keep them. -/
theorem histogram_skeys_eq (hT : 0 < T) (hU : 0 < U) (hstore : a.storeKeys = false) :
    (histogram a il T U row n sm).skeys = sm.skeys := by
  refine SmemOp.foldl_skeys_of_notMem _ _ fun c key h => ?_
  rw [il.mem_run, mem_histogramOps hT hU] at h
  obtain ⟨c', -, h⟩ := h
  simp [mem_columnOps_keep, hstore] at h

end Spec

end DetTopk

end VllmMoet
