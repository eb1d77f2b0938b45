import Mathlib.Data.List.Basic
import Mathlib.Data.Nat.Notation
import VllmMoet.Descriptors.Builders
import VllmMoet.Lib.Layout

/-!
# Every live pair is served by one tier or counted as a miss

The five builders are one table of choices: which tiers there are (`Builder.tiers`), in how many
parts a tier takes a pair (`Builder.share`), and which tier takes it (`Builder.takes`). A lane
stores the entries of its pair in all tiers (`lane_eq`), no two entries share a word
(`place_inj`), so a GEMM reads what the lane of the pair stored, whatever the order of the stores
(`readEntry_eq`). A pair of a servable expert is taken by one tier (`exists_takes`).
-/

namespace VllmMoet

namespace Descriptors

/-! ### The entries of the tables -/

section Tables

/-- The buffer of a tier. -/
def Tier.buf : Tier → Buf
  | .w2 => .desc
  | .w4 => .desc
  | .w4q => .desc4s

/-- The words of an entry. -/
def Tier.width : Tier → ℕ
  | .w2 => 6
  | .w4 => 6
  | .w4q => 8

/-- The first of the two tables of a tier. -/
def Tier.first : Tier → ℕ
  | .w2 => 0
  | .w4 => 2
  | .w4q => 0

/-- The entries there is place for in a table. -/
def Args.capOf (A : Args) : Tier → ℕ
  | .w2 => A.cap
  | .w4 => A.cap
  | .w4q => A.cap4s

variable (A : Args)

/-- Word `f` of entry `j` in table `gi` of a tier. -/
def Args.place (t : Tier) (gi j f : ℕ) : Place :=
  (t.buf, (t.first + gi) * (A.capOf t * t.width) + j * t.width + f)

/-- What a GEMM makes of an entry. -/
structure Entry where
  row : RowPtrs
  planes : List ℕ
  m : ℕ
  deriving DecidableEq

/-- The entry as a GEMM reads it. -/
def Args.readEntry (mem : Place → ℕ) (t : Tier) (gi j : ℕ) : Entry :=
  match t with
  | .w4q => ⟨⟨mem (A.place t gi j 0), mem (A.place t gi j 1), mem (A.place t gi j 5)⟩,
      [mem (A.place t gi j 2), mem (A.place t gi j 3), mem (A.place t gi j 4)],
      mem (A.place t gi j 6)⟩
  | _ => ⟨⟨mem (A.place t gi j 0), mem (A.place t gi j 1), mem (A.place t gi j 4)⟩,
      [mem (A.place t gi j 2), mem (A.place t gi j 3)], mem (A.place t gi j 5)⟩

/-- The planes and scales in base slot `n` and FP4 slot `n'`. -/
def Args.sections (t : Tier) (gi n n' : ℕ) : List ℕ :=
  match t with
  | .w2 =>
    if gi = 0 then [A.bpoolb + n * A.bslotBytes, A.bpoolb + n * A.bslotBytes + A.offS13]
    else [A.bpoolb + n * A.bslotBytes + A.offC2, A.bpoolb + n * A.bslotBytes + A.offS2]
  | .w4 =>
    if gi = 0 then [A.fpoolb + n' * A.fslotBytes, A.fpoolb + n' * A.fslotBytes + A.off4S13]
    else [A.fpoolb + n' * A.fslotBytes + A.off4C2, A.fpoolb + n' * A.fslotBytes + A.off4S2]
  | .w4q =>
    if gi = 0 then [A.bpoolb + n * A.bslotBytes, A.fpoolb + n' * A.fslotBytes,
      A.bpoolb + n * A.bslotBytes + A.offS13]
    else [A.bpoolb + n * A.bslotBytes + A.offC2, A.fpoolb + n' * A.fslotBytes + A.w13rBytes,
      A.bpoolb + n * A.bslotBytes + A.offS2]

/-- The sections are those of slots in which the expert of the pair is mapped. -/
def Args.InSlots (t : Tier) (gi p : ℕ) (planes : List ℕ) : Prop :=
  ∃ n n' : ℕ, (t ≠ .w4 → A.bslot (A.expert p) = n) ∧ (t ≠ .w2 → A.fslot (A.expert p) = n') ∧
    planes = A.sections t gi n n'

end Tables

/-! ### The choices of the builders -/

section Choices

variable (b : Builder) (A : Args)

/-- The tiers whose tables a builder writes. -/
def Builder.tiers : Builder → List Tier
  | .basecache => [.w2]
  | .baseDelta | .baseDeltaPrefill4 => [.w2, .w4]
  | .baseDeltaSplit | .baseDeltaSplitPrefill4 => [.w2, .w4q]

/-- The prefill forms. -/
def Builder.prefill4 : Builder → Bool
  | .baseDeltaPrefill4 | .baseDeltaSplitPrefill4 => true
  | _ => false

/-- Whether the experts of the FP4 pool need their base slot too. -/
def Builder.split : Builder → Bool
  | .baseDeltaSplit | .baseDeltaSplitPrefill4 => true
  | _ => false

/-- Whether a tier takes a pair in four parts. -/
def Builder.parted (t : Tier) : Bool :=
  b.prefill4 && decide (t ≠ .w2)

/-- The entries of a pair in a table. -/
def Builder.share (t : Tier) : ℕ :=
  if b.parted t then 4 else 1

/-- The rows of an entry. -/
def Builder.rowsOf (t : Tier) : ℕ :=
  if b.parted t then 4 else A.mblock

/-- Whether a builder can serve the expert of a pair. -/
def Builder.servable (p : ℕ) : Bool :=
  match b with
  | .baseDelta | .baseDeltaPrefill4 => A.bhit p || A.fhit p
  | _ => A.bhit p

/-- Whether a tier takes a pair. -/
def Builder.takes (t : Tier) (p : ℕ) : Bool :=
  match b, t with
  | .basecache, _ => A.bhit p
  | .baseDelta, .w2 | .baseDeltaPrefill4, .w2 => A.bhit p && !A.fhit p
  | .baseDelta, _ | .baseDeltaPrefill4, _ => A.fhit p
  | _, .w2 => A.bhit p && !(A.fhit p && A.bhit p)
  | _, _ => A.fhit p && A.bhit p

/-- The row pointers of an entry that begins at `row`. -/
def Builder.rowPtrs (t : Tier) (gi row : ℕ) : RowPtrs :=
  if gi = 0 then A.rows13 (if b.parted t then A.a1bRm else A.a1b) row
  else A.rows2 (if b.parted t then A.a2bRm else A.a2b) row

/-- The rows that a lane writes in an entry. -/
def Builder.count (t : Tier) (p : ℕ) : ℕ :=
  if A.live p && b.takes A t p then b.rowsOf A t else 0

/-- The GEMMs of one side. -/
def Builder.gemms (gemm pairs : ℕ) : List GemmLaunch :=
  b.tiers.map fun t => ⟨t, gemm, pairs * b.share t⟩

/-- The grids of the GEMMs after a builder. -/
def Builder.launches (pairs : ℕ) : List GemmLaunch :=
  b.gemms 0 pairs ++ b.gemms 1 pairs

/-- The arguments of a launch: the tables have place for the entries of all pairs. -/
structure Builder.Fits : Prop where
  mblock : 0 < A.mblock
  prefill : b.prefill4 = true → A.mblock = 16
  experts : 0 < A.nExperts
  cap : ∀ t ∈ b.tiers, A.pairs * b.share t ≤ A.capOf t

/-- A tier has all rows of a pair, each in one entry. -/
def Builder.Serves (mem : Place → ℕ) (t : Tier) (p : ℕ) : Prop :=
  (∀ gi < 2, ∀ i < b.share t,
    (A.readEntry mem t gi (p * b.share t + i)).m = b.rowsOf A t ∧
    (A.readEntry mem t gi (p * b.share t + i)).row =
      b.rowPtrs A t gi (p * A.mblock + i * b.rowsOf A t)) ∧
  ∀ r < A.mblock, ∃! i, i < b.share t ∧ i * b.rowsOf A t ≤ r ∧
    r < i * b.rowsOf A t + b.rowsOf A t

/-- A tier has no rows of a pair. -/
def Builder.Idle (mem : Place → ℕ) (t : Tier) (p : ℕ) : Prop :=
  ∀ gi < 2, ∀ i < b.share t, (A.readEntry mem t gi (p * b.share t + i)).m = 0

end Choices

/-! ### What a lane stores -/

section Lane

variable (b : Builder) (A : Args)

/-- The words of an entry. -/
def Entry.words (x : Entry) (t : Tier) : List ℕ :=
  match t with
  | .w4q => [x.row.a, x.row.as] ++ x.planes ++ [x.row.c, x.m, 0]
  | _ => [x.row.a, x.row.as] ++ x.planes ++ [x.row.c, x.m]

/-- The stores of an entry. -/
def Args.storeEntry (t : Tier) (gi j : ℕ) (x : Entry) : List (Place × ℕ) :=
  (List.range t.width).map fun f => (A.place t gi j f, (x.words t).getD f 0)

/-- Entry `i` of a pair. -/
def Builder.entry (t : Tier) (gi i p : ℕ) : Entry where
  row := b.rowPtrs A t gi (p * A.mblock + i * b.rowsOf A t)
  planes := A.sections t gi (max (A.bslot (A.expert p)) 0).toNat
    (max (A.fslot (A.expert p)) 0).toNat
  m := b.count A t p

theorem storeEntry_w2 (gi j : ℕ) (r : RowPtrs) (x y m : ℕ) :
    A.storeEntry .w2 gi j ⟨r, [x, y], m⟩ = store6 (gi * A.cap6 + j * 6) r x y m :=
  show store6 ((0 + gi) * A.cap6 + j * 6) r x y m = _ by rw [Nat.zero_add]

theorem storeEntry_w4 (gi j : ℕ) (r : RowPtrs) (x y m : ℕ) :
    A.storeEntry .w4 gi j ⟨r, [x, y], m⟩ = store6 ((2 + gi) * A.cap6 + j * 6) r x y m :=
  rfl

theorem storeEntry_w4q (gi j : ℕ) (r : RowPtrs) (x y z m : ℕ) :
    A.storeEntry .w4q gi j ⟨r, [x, y, z], m⟩ = store8 (gi * A.cap8 + j * 8) r x y z m :=
  show store8 ((0 + gi) * A.cap8 + j * 8) r x y z m = _ by rw [Nat.zero_add]

/-- A lane stores the entries of its pair, those of every tier. -/
theorem lane_eq (p : ℕ) :
    b.lane A p = b.tiers.flatMap fun t => (List.range (b.share t)).flatMap fun i =>
      (List.range 2).flatMap fun gi =>
        A.storeEntry t gi (p * b.share t + i) (b.entry A t gi i p) := by
  have h2 : List.range 2 = [0, 1] := rfl
  have h4 : List.range 4 = [0, 1, 2, 3] := rfl
  cases b <;>
    simp [Builder.lane, descBuildKernelBasecache, descBuildKernelBaseDelta,
      descBuildKernelBaseDeltaSplit, descBuildKernelBaseDeltaPrefill4,
      descBuildKernelBaseDeltaSplitPrefill4, Builder.tiers, Builder.share, Builder.parted,
      Builder.prefill4, Builder.entry, Builder.rowPtrs, Builder.rowsOf, Builder.count,
      Builder.takes, Args.sections, Args.bs, Args.fs, h2, h4, storeEntry_w2, storeEntry_w4,
      storeEntry_w4q, and_assoc]

end Lane

/-! ### The words of a launch -/

section Words

variable {b : Builder} {A : Args}

/-- No two entries share a word. -/
theorem place_inj {t t' : Tier} {gi gi' j j' f f' : ℕ} (hg : gi < 2) (hg' : gi' < 2)
    (hj : j < A.capOf t) (hj' : j' < A.capOf t') (hf : f < t.width) (hf' : f' < t'.width)
    (h : A.place t gi j f = A.place t' gi' j' f') : t = t' ∧ gi = gi' ∧ j = j' ∧ f = f' := by
  obtain ⟨hbuf, hword⟩ := Prod.mk.inj h
  have hsame : A.capOf t' = A.capOf t ∧ t'.width = t.width := by
    cases t <;> cases t' <;> first | exact ⟨rfl, rfl⟩ | exact absurd hbuf (by decide)
  have hfirst : ∀ t : Tier, t.first ≤ 2 := by
    intro t
    cases t <;> decide
  -- Both words have the same index in the buffer seen as tables of entries of words.
  rw [hsame.1] at hj'
  rw [hsame.2] at hf'
  have hin : InDims [4, A.capOf t, t.width] [t.first + gi, j, f] :=
    .cons (by have := hfirst t; omega) (.cons hj (.cons hf .nil))
  have hin' : InDims [4, A.capOf t, t.width] [t'.first + gi', j', f'] :=
    .cons (by have := hfirst t'; omega) (.cons hj' (.cons hf' .nil))
  have hravel : ravel [4, A.capOf t, t.width] [t.first + gi, j, f] =
      ravel [4, A.capOf t, t.width] [t'.first + gi', j', f'] := by
    rw [hsame.1, hsame.2] at hword
    simpa only [ravel, numel, Nat.mul_one, Nat.add_zero, ← Nat.add_assoc] using hword
  have hidx := congrArg (unravel [4, A.capOf t, t.width]) hravel
  rw [unravel_ravel hin, unravel_ravel hin'] at hidx
  simp only [List.cons.injEq, and_true] at hidx
  obtain ⟨htab, rfl, rfl⟩ := hidx
  have ht : t = t' := by
    cases t <;> cases t' <;> simp only [Tier.first, Tier.buf, reduceCtorEq] at htab hbuf ⊢ <;> omega
  subst ht
  exact ⟨rfl, Nat.add_left_cancel htab, rfl, rfl⟩

theorem mem_lane {p : ℕ} {x : Place × ℕ} : x ∈ b.lane A p ↔
    ∃ t ∈ b.tiers, ∃ i < b.share t, ∃ gi < 2, ∃ f < t.width,
      (A.place t gi (p * b.share t + i) f, ((b.entry A t gi i p).words t).getD f 0) = x := by
  simp only [lane_eq, Args.storeEntry, List.mem_flatMap, List.mem_map, List.mem_range]

theorem word_mem_lane {t : Tier} (ht : t ∈ b.tiers) {p i gi f : ℕ} (hi : i < b.share t)
    (hg : gi < 2) (hf : f < t.width) :
    (A.place t gi (p * b.share t + i) f, ((b.entry A t gi i p).words t).getD f 0) ∈ b.lane A p :=
  mem_lane.mpr ⟨t, ht, i, hi, gi, hg, f, hf, rfl⟩

/-- The lanes of a launch are the pairs. -/
theorem mem_launchStores {x : Place × ℕ} :
    x ∈ b.launchStores A ↔ ∃ p < A.pairs, x ∈ b.lane A p := by
  simp only [Builder.launchStores, List.mem_flatMap, List.mem_range, Args.programs]
  constructor
  · rintro ⟨pid, _, i, _, hx⟩
    by_cases hp : pid * 256 + i < A.pairs
    · rw [if_pos hp] at hx
      exact ⟨_, hp, hx⟩
    · rw [if_neg hp] at hx
      exact absurd hx List.not_mem_nil
  · rintro ⟨p, hp, hx⟩
    refine ⟨p / 256, by omega, p % 256, by omega, ?_⟩
    rw [Nat.div_add_mod', if_pos hp]
    exact hx

/-- The entries of a pair lie in the tables. -/
theorem Builder.Fits.entry_lt (hA : b.Fits A) {t : Tier} (ht : t ∈ b.tiers) {p i : ℕ}
    (hp : p < A.pairs) (hi : i < b.share t) : p * b.share t + i < A.capOf t :=
  calc p * b.share t + i < (p + 1) * b.share t := by rw [Nat.succ_mul]; omega
    _ ≤ A.pairs * b.share t := Nat.mul_le_mul_right _ hp
    _ ≤ A.capOf t := hA.cap t ht

/-- A word of one entry is in the lane of its pair only. -/
theorem Builder.Fits.lane_inj (hA : b.Fits A) {p p' : ℕ} (hp : p < A.pairs) (hp' : p' < A.pairs)
    {x x' : Place × ℕ} (hx : x ∈ b.lane A p) (hx' : x' ∈ b.lane A p') (h : x.1 = x'.1) :
    p = p' ∧ x.2 = x'.2 := by
  obtain ⟨t, ht, i, hi, gi, hg, f, hf, rfl⟩ := mem_lane.mp hx
  obtain ⟨t', ht', i', hi', gi', hg', f', hf', rfl⟩ := mem_lane.mp hx'
  obtain ⟨rfl, rfl, hj, rfl⟩ := place_inj hg hg' (hA.entry_lt ht hp hi) (hA.entry_lt ht' hp' hi')
    hf hf' h
  have hpos : 0 < b.share t := Nat.lt_of_le_of_lt (Nat.zero_le i) hi
  have hpair : p = p' := by
    have hdiv := congrArg (· / b.share t) hj
    simpa only [Nat.mul_comm _ (b.share t), Nat.mul_add_div hpos, Nat.div_eq_of_lt hi,
      Nat.div_eq_of_lt hi', Nat.add_zero] using hdiv
  subst hpair
  have hpart : i = i' := Nat.add_left_cancel hj
  subst hpart
  exact ⟨rfl, rfl⟩

/-- What is read of an entry after a launch, whatever the order of its stores. -/
theorem Builder.Fits.readEntry_eq (hA : b.Fits A) {l : List (Place × ℕ)}
    (hl : l.Perm (b.launchStores A)) (mem : Place → ℕ) {t : Tier} (ht : t ∈ b.tiers) {p i gi : ℕ}
    (hp : p < A.pairs) (hi : i < b.share t) (hg : gi < 2) :
    A.readEntry (stores l mem) t gi (p * b.share t + i) = b.entry A t gi i p := by
  have hword : ∀ f < t.width, stores l mem (A.place t gi (p * b.share t + i) f) =
      ((b.entry A t gi i p).words t).getD f 0 := by
    intro f hf
    have hmem := word_mem_lane (A := A) (p := p) ht hi hg hf
    refine stores_of_mem (hl.mem_iff.mpr (mem_launchStores.mpr ⟨p, hp, hmem⟩)) fun y hy hyx => ?_
    obtain ⟨p', hp', hy'⟩ := mem_launchStores.mp (hl.mem_iff.mp hy)
    exact (hA.lane_inj hp' hp hy' hmem hyx).2
  obtain rfl | rfl : gi = 0 ∨ gi = 1 := by omega
  · cases t <;> (simp (disch := decide) only [Args.readEntry, hword]; rfl)
  · cases t <;> (simp (disch := decide) only [Args.readEntry, hword]; rfl)

theorem exists_of_mem_launches {g : GemmLaunch} (hg : g ∈ b.launches A.pairs) :
    ∃ t ∈ b.tiers, ∃ gi < 2, (⟨t, gi, A.pairs * b.share t⟩ : GemmLaunch) = g := by
  rcases List.mem_append.mp hg with hg | hg
  · obtain ⟨t, ht, rfl⟩ := List.mem_map.mp hg
    exact ⟨t, ht, 0, by decide, rfl⟩
  · obtain ⟨t, ht, rfl⟩ := List.mem_map.mp hg
    exact ⟨t, ht, 1, by decide, rfl⟩

/-- An entry of a grid is one of some pair. -/
theorem exists_part {t : Tier} {j : ℕ} (hj : j < A.pairs * b.share t) :
    ∃ p < A.pairs, ∃ i < b.share t, p * b.share t + i = j := by
  have hpos : 0 < b.share t := by
    rw [Builder.share]
    split <;> decide
  exact ⟨j / b.share t, (Nat.div_lt_iff_lt_mul hpos).mpr hj, j % b.share t, Nat.mod_lt j hpos,
    Nat.div_add_mod' _ _⟩

/-- Every word of the grids of the GEMMs is stored by the lane of some pair. -/
theorem exists_lane {g : GemmLaunch} (hg : g ∈ b.launches A.pairs) {j f : ℕ}
    (hj : j < g.entries) (hf : f < g.tier.width) :
    ∃ p < A.pairs, ∃ v, (A.place g.tier g.gemm j f, v) ∈ b.lane A p := by
  obtain ⟨t, ht, gi, hgi, rfl⟩ := exists_of_mem_launches hg
  obtain ⟨p, hp, i, hi, rfl⟩ := exists_part hj
  exact ⟨p, hp, _, word_mem_lane ht hi hgi hf⟩

end Words

/-! ### One tier or a miss -/

section Choice

variable {b : Builder} {A : Args} {p : ℕ}

/-- One tier takes a pair that can be served. -/
theorem exists_takes (h : b.servable A p = true) :
    ∃ t ∈ b.tiers, b.takes A t p = true ∧ ∀ t' ∈ b.tiers, t' ≠ t → b.takes A t' p = false := by
  cases b <;> cases hb : A.bhit p <;> cases hf : A.fhit p <;>
    simp_all [Builder.servable, Builder.takes, Builder.tiers]

/-- No tier takes a pair that cannot be served. -/
theorem takes_eq_false (h : b.servable A p = false) {t : Tier} (ht : t ∈ b.tiers) :
    b.takes A t p = false := by
  cases b <;> cases t <;> simp_all [Builder.servable, Builder.takes, Builder.tiers]

/-- The misses are the live pairs that cannot be served. -/
theorem miss_eq : b.miss A p = (A.live p && !b.servable A p) := by
  cases b <;> simp [Builder.miss, Builder.servable, Bool.and_assoc]

/-- A tier takes only what is mapped in its pools. -/
theorem mapped_of_takes {t : Tier} (ht : t ∈ b.tiers) (h : b.takes A t p = true) :
    (t ≠ .w4 → A.bhit p = true) ∧ (t ≠ .w2 → A.fhit p = true) := by
  cases b <;> cases t <;> simp_all [Builder.takes, Builder.tiers]

/-- The entries of a pair have its rows, each once. -/
theorem Builder.Fits.cover (hA : b.Fits A) {t : Tier} {r : ℕ} (hr : r < A.mblock) :
    ∃! i, i < b.share t ∧ i * b.rowsOf A t ≤ r ∧ r < i * b.rowsOf A t + b.rowsOf A t := by
  cases hpart : b.parted t with
  | false =>
    simp only [Builder.share, Builder.rowsOf, hpart, Bool.false_eq_true, if_false]
    refine ⟨0, ⟨Nat.one_pos, by omega, by omega⟩, fun i hi => by omega⟩
  | true =>
    have h16 := hA.prefill (Bool.and_eq_true_iff.mp hpart).1
    simp only [Builder.share, Builder.rowsOf, hpart, if_true]
    refine ⟨r / 4, ⟨by omega, by omega, by omega⟩, fun i hi => by omega⟩

end Choice

/-! ### The counter of misses -/

section Misses

variable (b : Builder) (A : Args)

/-- The programs count the misses of their lanes. -/
theorem missCount_range (n count : ℕ) : b.missCount A (List.range n) count = count +
    (List.range (n * 256)).countP fun p => decide (p < A.pairs) && b.miss A p := by
  induction n with
  | zero => simp [Builder.missCount]
  | succ n ih =>
    have hstep : b.missCount A (List.range (n + 1)) count =
        b.missCount A (List.range n) count + b.nMiss A n := by
      rw [Builder.missCount, List.range_succ, List.foldl_append]
      rfl
    rw [hstep, ih, Nat.succ_mul, List.range_add, List.countP_append, List.countP_map, Nat.add_assoc]
    rfl

/-- The counter after a launch, whatever the order of its programs. -/
theorem missCount_eq {pids : List ℕ} (h : pids.Perm (List.range A.programs)) (count : ℕ) :
    b.missCount A pids count = count + (List.range A.pairs).countP (b.miss A) := by
  have hperm : b.missCount A pids count = b.missCount A (List.range A.programs) count :=
    h.foldl_eq' (fun pid _ pid' _ n => Nat.add_right_comm n (b.nMiss A pid) (b.nMiss A pid')) count
  have hall : A.programs * 256 = A.pairs + (A.programs * 256 - A.pairs) := by
    rw [Args.programs]
    omega
  rw [hperm, missCount_range, hall, List.range_add, List.countP_append, List.countP_map]
  have hbehind : (List.range (A.programs * 256 - A.pairs)).countP
      ((fun p => decide (p < A.pairs) && b.miss A p) ∘ (A.pairs + ·)) = 0 := by
    refine List.countP_eq_zero.mpr fun i _ => ?_
    simp
  have hpairs : (List.range A.pairs).countP (fun p => decide (p < A.pairs) && b.miss A p) =
      (List.range A.pairs).countP (b.miss A) := by
    refine List.countP_congr fun p hp => ?_
    simp [List.mem_range.mp hp]
  rw [hbehind, hpairs, Nat.add_zero]

end Misses

/-! ### The forward pass -/

section Forward

variable (M : Mode)

/-- The FP4 pool is used at decode, the prefill forms at prefill. -/
theorem Mode.not_both : M.useFp4 = false ∨ M.usePf4 = false := by
  cases h : M.prefill <;> simp [Mode.useFp4, Mode.usePf4, h]

theorem Mode.tierLeft_decode : (M.tierLeft && !M.prefill) = M.useFp4 := by
  cases h : M.prefill <;> cases ht : M.tier <;>
    simp [Mode.tierLeft, Mode.useFp4, Mode.usePf4, h, ht]

/-- The GEMMs of a mode are those of its builder. -/
theorem launches_builder (pairs : ℕ) : M.launches pairs = M.builder.launches pairs := by
  have hside : ∀ gemm, M.gemms gemm pairs = M.builder.gemms gemm pairs := by
    intro gemm
    rw [Mode.gemms, Mode.useW4s, M.tierLeft_decode]
    rcases M.not_both with h | h <;> cases h' : M.useFp4 <;> cases h'' : M.usePf4 <;>
      cases hs : M.split <;>
      simp_all [Mode.builder, Mode.useW4sBase, Builder.gemms, Builder.tiers, Builder.share,
        Builder.parted, Builder.prefill4]
  rw [Mode.launches, hside, hside, Builder.launches]

/-- The mask keeps the rows of the pairs that the builder can serve. -/
theorem resident_builder (A : Args) (p : ℕ) : M.resident A p = M.builder.servable A p := by
  have hres : M.resident A p =
      if (M.useFp4 || M.usePf4) && !M.split then A.bhit p || A.fhit p else A.bhit p := rfl
  rw [hres]
  rcases M.not_both with h | h <;> cases h' : M.useFp4 <;> cases h'' : M.usePf4 <;>
    cases hs : M.split <;> simp_all [Mode.builder, Mode.useW4sBase, Builder.servable]

theorem Mode.prefill_of_prefill4 (h : M.builder.prefill4 = true) : M.prefill = true := by
  cases h'' : M.usePf4 with
  | true =>
    simp only [Mode.usePf4, Bool.and_eq_true] at h''
    exact h''.1.2
  | false =>
    cases h' : M.useFp4 <;> cases hs : M.split <;>
      simp [Mode.builder, Mode.useW4sBase, Builder.prefill4, h', h'', hs] at h

/-- The workspace of a forward pass fits its builder. -/
theorem fits_workspace {A : Args} {slots wsSlots : ℕ} (hslots : slots ≤ wsSlots)
    (hexperts : 0 < A.nExperts) (hmblock : A.mblock = M.mblock)
    (hpairs : A.pairs = slots / M.mblock) (hcap : A.cap = wsSlots / block)
    (hcap4s : A.cap4s = wsSlots / block) : M.builder.Fits A := by
  have hblock : block ≤ M.mblock := by
    rw [Mode.mblock]
    split <;> decide
  refine ⟨?_, fun h => ?_, hexperts, fun t _ => ?_⟩
  · rw [hmblock]
    exact Nat.lt_of_lt_of_le (by decide) hblock
  · rw [hmblock, Mode.mblock, M.prefill_of_prefill4 h, if_pos rfl]
  · -- In parts a pair has four entries of sixteen rows, else one of at least four.
    have hentries : A.pairs * M.builder.share t ≤ wsSlots / block := by
      rw [hpairs, Builder.share]
      split
      next h =>
        have h16 := M.prefill_of_prefill4 (Bool.and_eq_true_iff.mp h).1
        rw [Mode.mblock, h16, if_pos rfl, block]
        omega
      next =>
        rw [Nat.mul_one]
        exact Nat.le_trans (Nat.div_le_div_left hblock (by decide)) (Nat.div_le_div_right hslots)
    cases t with
    | w2 => exact Nat.le_trans hentries (Nat.le_of_eq hcap.symm)
    | w4 => exact Nat.le_trans hentries (Nat.le_of_eq hcap.symm)
    | w4q => exact Nat.le_trans hentries (Nat.le_of_eq hcap4s.symm)

end Forward

/-! ### The service of the pairs -/

section Service

variable {b : Builder} {A : Args} {l : List (Place × ℕ)} {mem : Place → ℕ} {p : ℕ} {t : Tier}

/-- A tier that takes a live pair has its rows. -/
theorem Builder.Fits.serves (hA : b.Fits A) (hl : l.Perm (b.launchStores A)) (ht : t ∈ b.tiers)
    (hp : p < A.pairs) (hlive : A.live p = true) (htakes : b.takes A t p = true) :
    b.Serves A (stores l mem) t p := by
  refine ⟨fun gi hgi i hi => ?_, fun r hr => hA.cover hr⟩
  rw [hA.readEntry_eq hl mem ht hp hi hgi]
  refine ⟨?_, rfl⟩
  rw [Builder.entry, Builder.count, hlive, htakes]
  rfl

/-- A tier that does not take a pair, or one that is not live, has no rows of it. -/
theorem Builder.Fits.idle (hA : b.Fits A) (hl : l.Perm (b.launchStores A)) (ht : t ∈ b.tiers)
    (hp : p < A.pairs) (h : (A.live p && b.takes A t p) = false) :
    b.Idle A (stores l mem) t p := by
  intro gi hgi i hi
  rw [hA.readEntry_eq hl mem ht hp hi hgi, Builder.entry, Builder.count, h]
  rfl

/-- An entry with rows reads the slots of its expert. -/
theorem Builder.Fits.inSlots (hA : b.Fits A) (hl : l.Perm (b.launchStores A)) (ht : t ∈ b.tiers)
    (hp : p < A.pairs) {gi i : ℕ} (hgi : gi < 2) (hi : i < b.share t)
    (h : (A.readEntry (stores l mem) t gi (p * b.share t + i)).m ≠ 0) :
    A.InSlots t gi p (A.readEntry (stores l mem) t gi (p * b.share t + i)).planes := by
  rw [hA.readEntry_eq hl mem ht hp hi hgi] at h ⊢
  have htakes : b.takes A t p = true := by
    by_contra hnot
    rw [Builder.entry, Builder.count, Bool.eq_false_iff.mpr hnot, Bool.and_false] at h
    exact h rfl
  obtain ⟨hbase, hfp4⟩ := mapped_of_takes ht htakes
  refine ⟨_, _, fun ht' => ?_, fun ht' => ?_, rfl⟩
  · have hpos : 0 ≤ A.bslot (A.expert p) := of_decide_eq_true (hbase ht')
    omega
  · have hpos : 0 ≤ A.fslot (A.expert p) := of_decide_eq_true (hfp4 ht')
    omega

/-- **Every live pair is served by one tier or counted as one miss**, by each of the builders and
whatever the order of its programs and stores. -/
theorem served_or_missed (b : Builder) (A : Args) (hA : b.Fits A) (l : List (Place × ℕ))
    (hl : l.Perm (b.launchStores A)) (pids : List ℕ) (hpids : pids.Perm (List.range A.programs))
    (mem : Place → ℕ) (count : ℕ) :
    (∀ p < A.pairs, A.live p = true → b.servable A p = true →
      ∃ t ∈ b.tiers, b.Serves A (stores l mem) t p ∧
        ∀ t' ∈ b.tiers, t' ≠ t → b.Idle A (stores l mem) t' p) ∧
    (∀ p < A.pairs, ¬ (A.live p = true ∧ b.servable A p = true) →
      ∀ t ∈ b.tiers, b.Idle A (stores l mem) t p) ∧
    b.missCount A pids count =
      count + (List.range A.pairs).countP (fun p => A.live p && !b.servable A p) ∧
    (∀ g ∈ b.launches A.pairs, ∀ j < g.entries,
      (∀ f < g.tier.width, ∃ p < A.pairs, ∃ v, (A.place g.tier g.gemm j f, v) ∈ b.lane A p) ∧
      ∀ mem', A.readEntry (stores l mem') g.tier g.gemm j =
        A.readEntry (stores l mem) g.tier g.gemm j) ∧
    (∀ p < A.pairs, ∀ p' < A.pairs, ∀ x ∈ b.lane A p, ∀ x' ∈ b.lane A p', x.1 = x'.1 → p = p') ∧
    (∀ p < A.pairs, ∀ t ∈ b.tiers, ∀ gi < 2, ∀ i < b.share t,
      (A.readEntry (stores l mem) t gi (p * b.share t + i)).m ≠ 0 →
      A.InSlots t gi p (A.readEntry (stores l mem) t gi (p * b.share t + i)).planes) ∧
    ∀ M : Mode, M.builder = b → M.launches A.pairs = b.launches A.pairs ∧
      ∀ row, M.missRows A row = b.servable A (row / A.mblock) := by
  refine ⟨fun p hp hlive hserv => ?_, fun p hp hnot t ht => ?_, ?_, fun g hg j hj =>
    ⟨fun f hf => exists_lane hg hj hf, fun mem' => ?_⟩, fun p hp p' hp' x hx x' hx' h =>
    (hA.lane_inj hp hp' hx hx' h).1, fun p hp t ht gi hgi i hi h => hA.inSlots hl ht hp hgi hi h,
    fun M hM => ?_⟩
  · obtain ⟨t, ht, htakes, hrest⟩ := exists_takes hserv
    refine ⟨t, ht, hA.serves hl ht hp hlive htakes, fun t' ht' hne => hA.idle hl ht' hp ?_⟩
    rw [hrest t' ht' hne, Bool.and_false]
  · refine hA.idle hl ht hp ?_
    cases hlive : A.live p with
    | false => rfl
    | true =>
      have hserv : b.servable A p = false := Bool.eq_false_iff.mpr fun h => hnot ⟨hlive, h⟩
      rw [takes_eq_false hserv ht, Bool.and_false]
  · have hmiss : b.miss A = fun p => A.live p && !b.servable A p := by
      funext p
      exact miss_eq
    rw [missCount_eq b A hpids, hmiss]
  · obtain ⟨t, ht, gi, hgi, rfl⟩ := exists_of_mem_launches hg
    obtain ⟨p, hp, i, hi, rfl⟩ := exists_part hj
    rw [hA.readEntry_eq hl mem ht hp hi hgi, hA.readEntry_eq hl mem' ht hp hi hgi]
  · subst hM
    exact ⟨launches_builder M A.pairs, fun row => resident_builder M A _⟩

/-- Three blocks of experts 0, 1 and 2, the last one padding; expert 0 has both slots, expert 1 the
FP4 slot only. -/
def threeBlocks : Args where
  eids p := p
  npost := 32
  bslot e := if e = 0 then 5 else -1
  fslot _ := 2
  a1b := 1000
  as1b := 2000
  c13b := 3000
  a2b := 4000
  as2b := 5000
  c2b := 6000
  a1bRm := 7000
  a2bRm := 8000
  bpoolb := 10000
  bslotBytes := 40
  offS13 := 10
  offC2 := 20
  offS2 := 30
  fpoolb := 20000
  fslotBytes := 16
  off4S13 := 4
  off4C2 := 8
  off4S2 := 12
  w13rBytes := 8
  a1Rb := 3
  as1Rb := 4
  c13Rb := 5
  a2Rb := 6
  as2Rb := 7
  c2Rb := 8
  nExperts := 3
  pairs := 3
  cap := 12
  cap4s := 12
  mblock := 16

theorem served_or_missed_threeBlocks :
    (∃ t ∈ Builder.baseDeltaSplitPrefill4.tiers, Builder.baseDeltaSplitPrefill4.Serves threeBlocks
      (stores (Builder.baseDeltaSplitPrefill4.launchStores threeBlocks) fun _ => 7) t 0) ∧
    Builder.baseDeltaSplitPrefill4.missCount threeBlocks (List.range 1) 4 = 5 := by
  -- a workspace of 48 slots, in a prefill with the FP4 tier
  have hfits : Builder.baseDeltaSplitPrefill4.Fits threeBlocks :=
    fits_workspace ⟨true, true, some 2, true⟩ (show 48 ≤ 48 from le_rfl) (by decide) rfl rfl rfl rfl
  have h := served_or_missed _ threeBlocks hfits _ (List.Perm.refl _) (List.range 1)
    (List.Perm.refl _) (fun _ => 7) 4
  obtain ⟨t, ht, hserves, _⟩ := h.1 0 (by decide) (by decide) (by decide)
  exact ⟨⟨t, ht, hserves⟩, h.2.2.1.trans (by decide)⟩

end Service

end Descriptors

end VllmMoet
