import VllmMoet.AllReduce.Kernels

/-!
# Rounds

On each set of buffers the kernels of a rank come in rounds: a push kernel and the waiting
kernel after it. Round `ρ` (counted from 0 over the whole run) announces itself by the flag
value `ρ + 1` in the slot `slotAt σ ρ`. A one-shot call is one round of the first set, a
two-shot call two rounds of the second.

* `rounds`: how many rounds of a set precede a position of the stream;
* `flagAt`: the flag of a slot when `ρ` rounds have been announced. A waiting kernel of round
  `ρ` is not released before round `ρ` is (`not_released`): the flag it finds is behind by one
  to eight, whatever the 32-bit counters wrapped to;
* `region`, `payload`: the chunks a round sends and their values; two rounds in a row never
  write the same chunk of the receive buffer (`disjoint_succ`).
-/

namespace VllmMoet

namespace AllReduce

variable {V : Type*} {G : Setup V} {κ κ' : Kind} {σ : Bufs} {k k' o i ρ t : ℕ} {r s d : Rank}

/-- A kernel of this kind belongs to call `k`. -/
def Valid (G : Setup V) (k : ℕ) (κ : Kind) : Prop := κ.bufs = (G.call k).bufs

/-- The calls before call `k` that use the buffers `σ`. -/
def nCalls (G : Setup V) (σ : Bufs) : ℕ → ℕ
  | 0 => 0
  | k + 1 => nCalls G σ k + if (G.call k).bufs = σ then 1 else 0

/-- The rounds of the buffers `σ` that precede the kernels of kind `κ` of call `k`. -/
def rounds (G : Setup V) (k : ℕ) (κ : Kind) : Bufs → ℕ
  | .first => nCalls G .first k
  | .second => 2 * nCalls G .second k + if κ = .allGather then 1 else 0

/-- The round of the kernels of kind `κ` of call `k`. -/
def round (G : Setup V) (k : ℕ) (κ : Kind) : ℕ := rounds G k κ κ.bufs

/-- The slot of round `ρ`. -/
def slotAt : Bufs → ℕ → ℕ
  | .first, ρ => (ρ + 1) % 4
  | .second, ρ => ρ / 2 % 4

/-- The flag in slot `t` when the first `ρ` rounds have been announced: that of the last of
them in the slot. -/
def flagAt : Bufs → ℕ → ℕ → ℕ
  | .first, ρ, t => if ρ < t then 0 else ρ - (ρ - t) % 4
  | .second, ρ, t =>
    if ρ % 2 = 1 ∧ t = ρ / 2 % 4 then ρ
    else if ρ / 2 ≤ t then 0 else 2 * (ρ / 2 - (ρ / 2 - 1 - t) % 4)

theorem slotAt_lt (σ : Bufs) (ρ : ℕ) : slotAt σ ρ < 4 := by
  cases σ <;> exact Nat.mod_lt _ (by decide)

/-! ### Counting rounds -/

theorem nCalls_succ_of_bufs (h : (G.call k).bufs = σ) :
    nCalls G σ (k + 1) = nCalls G σ k + 1 := by
  rw [nCalls, if_pos h]

theorem nCalls_mono (h : k ≤ k') : nCalls G σ k ≤ nCalls G σ k' := by
  induction h with
  | refl => exact le_rfl
  | step _ ih => exact ih.trans (Nat.le_add_right _ _)

theorem nCalls_lt (h : k < k') (hb : (G.call k).bufs = σ) : nCalls G σ k < nCalls G σ k' := by
  have hle : nCalls G σ (k + 1) ≤ nCalls G σ k' := nCalls_mono h
  rw [nCalls_succ_of_bufs hb] at hle
  exact hle

/-- Two calls on the same buffers are told apart by the number of calls before them. -/
theorem nCalls_inj (hb : (G.call k).bufs = σ) (hb' : (G.call k').bufs = σ)
    (h : nCalls G σ k = nCalls G σ k') : k = k' := by
  rcases lt_trichotomy k k' with hlt | heq | hgt
  · exact absurd (nCalls_lt hlt hb) (by omega)
  · exact heq
  · exact absurd (nCalls_lt hgt hb') (by omega)

/-- The round of a kernel, from the calls before it. -/
theorem round_eq (G : Setup V) (k : ℕ) (κ : Kind) :
    round G k κ = match κ with
      | .oneShot => nCalls G κ.bufs k
      | .reduceScatter => 2 * nCalls G κ.bufs k
      | .allGather => 2 * nCalls G κ.bufs k + 1 := by
  cases κ <;> rfl

/-- A kernel is determined by its buffers and its round. -/
theorem round_inj (hv : Valid G k κ) (hv' : Valid G k' κ') (hb : κ.bufs = κ'.bufs)
    (h : round G k κ = round G k' κ') : k = k' ∧ κ = κ' := by
  have hk : nCalls G κ.bufs k = nCalls G κ.bufs k' → k = k' :=
    nCalls_inj hv.symm (hv'.symm.trans hb.symm)
  rw [round_eq, round_eq, ← hb] at h
  cases κ <;> cases κ' <;> simp only [Kind.bufs, reduceCtorEq] at hb h hk ⊢
  · exact ⟨hk h, trivial⟩
  · exact ⟨hk (by omega), trivial⟩
  · omega
  · omega
  · exact ⟨hk (by omega), trivial⟩

/-- Every call of the second set begins with its reduce-scatter. -/
theorem valid_first (G : Setup V) (k : ℕ) : Valid G k (G.call k).bufs.firstKind := by
  rw [Valid]
  cases (G.call k).bufs <;> rfl

theorem firstKind_ne_allGather (σ : Bufs) : σ.firstKind ≠ .allGather := by
  cases σ <;> decide

/-- The rounds before the call after call `k`. -/
theorem rounds_next_call (hv : Valid G k κ) (hκ : κ ≠ .reduceScatter) (σ : Bufs) :
    rounds G (k + 1) (G.call (k + 1)).bufs.firstKind σ =
      rounds G k κ σ + if κ.bufs = σ then 1 else 0 := by
  have hf := firstKind_ne_allGather (G.call (k + 1)).bufs
  rw [Valid] at hv
  cases σ <;> cases κ <;> simp_all [rounds, nCalls, Kind.bufs, ← hv]; omega

/-- The rounds before the all-gather of a call. -/
theorem rounds_next_half (G : Setup V) (k : ℕ) (σ : Bufs) :
    rounds G k .allGather σ =
      rounds G k .reduceScatter σ + if Kind.reduceScatter.bufs = σ then 1 else 0 := by
  cases σ <;> simp [rounds, Kind.bufs]

/-! ### Flags and slots -/

/-- The counter's low 32 bits determine the flag value of the round. -/
theorem seqOf_eq (G : Setup V) (k : ℕ) (κ : Kind) :
    seqOf κ (nCalls G κ.bufs k % 2 ^ 32) = (round G k κ + 1) % 2 ^ 32 := by
  rw [round_eq]
  cases κ <;> simp only [seqOf] <;> omega

/-- The counter's low 32 bits determine the slot of the round. -/
theorem slotOf_eq (G : Setup V) (k : ℕ) (κ : Kind) :
    slotOf κ (nCalls G κ.bufs k % 2 ^ 32) = slotAt κ.bufs (round G k κ) := by
  rw [round_eq]
  cases κ <;> simp only [slotOf, slotAt, Kind.bufs] <;> omega

theorem flagAt_zero (σ : Bufs) (t : ℕ) : flagAt σ 0 t = 0 := by
  cases σ <;> simp [flagAt]

/-- Announcing round `ρ` stores `ρ + 1` in its slot. -/
theorem flagAt_succ_self (σ : Bufs) (ρ : ℕ) : flagAt σ (ρ + 1) (slotAt σ ρ) = ρ + 1 := by
  generalize ht : slotAt σ ρ = t
  cases σ with
  | first =>
    simp only [slotAt] at ht
    simp only [flagAt]
    split_ifs <;> omega
  | second =>
    simp only [slotAt] at ht
    simp only [flagAt]
    split_ifs <;> omega

/-- Announcing round `ρ` leaves the flags of the other slots. -/
theorem flagAt_succ_of_ne (σ : Bufs) (ht : t < 4) (h : t ≠ slotAt σ ρ) :
    flagAt σ (ρ + 1) t = flagAt σ ρ t := by
  cases σ with
  | first =>
    simp only [flagAt, slotAt] at h ⊢
    split_ifs <;> omega
  | second =>
    simp only [flagAt, slotAt] at h ⊢
    split_ifs <;> omega

/-- Before round `ρ` is announced, the flag in its slot is one to eight behind. -/
theorem flagAt_slotAt (σ : Bufs) (ρ : ℕ) :
    flagAt σ ρ (slotAt σ ρ) ≤ ρ ∧ ρ ≤ flagAt σ ρ (slotAt σ ρ) + 7 := by
  generalize ht : slotAt σ ρ = t
  cases σ with
  | first =>
    simp only [slotAt] at ht
    simp only [flagAt]
    split_ifs <;> omega
  | second =>
    simp only [slotAt] at ht
    simp only [flagAt]
    split_ifs <;> omega

/-- A kernel that waits for round `ρ` is not released before the round is announced. -/
theorem not_released (σ : Bufs) (ρ : ℕ) :
    ¬ released (flagAt σ ρ (slotAt σ ρ) % 2 ^ 32) ((ρ + 1) % 2 ^ 32) := by
  obtain ⟨hle, hge⟩ := flagAt_slotAt σ ρ
  rw [released]
  omega

theorem flagIdx_inj {t' : ℕ} (h : flagIdx t s = flagIdx t' d) : t = t' ∧ s = d := by
  simp only [flagIdx] at h
  have hs := s.isLt
  have hd := d.isLt
  exact ⟨by omega, Fin.ext (by omega)⟩

/-! ### Destinations -/

theorem dest_ne (κ : Kind) (r : Rank) {p : ℕ} (hp : p < 3) : dest κ r p ≠ r := by
  interval_cases p <;> revert r <;> cases κ <;> decide

/-- Every peer is the destination of one phase. -/
theorem exists_dest (κ : Kind) (h : d ≠ r) : ∃ p < 3, dest κ r p = d := by
  revert r d
  cases κ <;> decide

theorem dest_inj (κ : Kind) (r : Rank) {p q : ℕ} (hp : p < 3) (hq : q < 3)
    (h : dest κ r p = dest κ r q) : p = q := by
  interval_cases p <;> interval_cases q <;> revert r <;> cases κ <;> decide

/-- A reduce-scatter sends every peer the peer's own slice. -/
theorem pushSlice_reduceScatter (r : Rank) {p : ℕ} (hp : p < 3) :
    pushSlice .reduceScatter r p = dest .reduceScatter r p := by
  interval_cases p <;> revert r <;> decide

/-! ### Chunks -/

/-- The chunks rank `s` sends to rank `d`. -/
def Setup.region (G : Setup V) (k : ℕ) (κ : Kind) (s d : Rank) (o : ℕ) : Prop :=
  o < (G.call k).rows * G.rowCh ∧
    match κ with
    | .oneShot => True
    | .reduceScatter => G.slice o = d
    | .allGather => G.slice o = s

/-- The sum of the ranks' chunks `o` in call `k`, in the order of the chunk's order byte. -/
def Setup.total (G : Setup V) (k o : ℕ) : V :=
  let x p := G.x (orderAt (G.order (G.call k).rows o) p) k o
  G.hadd2 (G.hadd2 (G.hadd2 (x 0) (x 1)) (x 2)) (x 3)

/-- The value of chunk `o` that rank `s` sends: its input, or the sum it has reduced. -/
def Setup.payload (G : Setup V) (k : ℕ) (κ : Kind) (s : Rank) (o : ℕ) : V :=
  match κ with
  | .oneShot | .reduceScatter => G.x s k o
  | .allGather => G.total k o

theorem rowCh_pos (G : Setup V) : 0 < G.rowCh := Nat.mul_pos (by decide) G.sliceCh_pos

theorem slice_lt (G : Setup V) (o : ℕ) : G.slice o < 4 := by
  rw [Setup.slice, Nat.div_lt_iff_lt_mul G.sliceCh_pos]
  exact Nat.mod_lt _ (rowCh_pos G)

/-- The row, the slice and the place within it of a chunk of a two-shot push. -/
theorem offset_two (G : Setup V) (sl : Rank) (i : ℕ) :
    (i / G.sliceCh * G.rowCh + sl * G.sliceCh + i % G.sliceCh) / G.rowCh = i / G.sliceCh ∧
      G.slice (i / G.sliceCh * G.rowCh + sl * G.sliceCh + i % G.sliceCh) = sl := by
  have hb : i % G.sliceCh < G.sliceCh := Nat.mod_lt _ G.sliceCh_pos
  have hlt : (sl : ℕ) * G.sliceCh + i % G.sliceCh < G.rowCh := by
    have hsl : (sl : ℕ) * G.sliceCh ≤ 3 * G.sliceCh :=
      Nat.mul_le_mul_right _ (Nat.le_of_lt_succ sl.isLt)
    rw [Setup.rowCh]
    omega
  rw [Nat.add_assoc, Nat.mul_comm _ G.rowCh]
  refine ⟨?_, ?_⟩
  · rw [Nat.mul_add_div (rowCh_pos G), Nat.div_eq_of_lt hlt, Nat.add_zero]
  · rw [Setup.slice, Nat.mul_add_mod, Nat.mod_eq_of_lt hlt, Nat.mul_comm,
      Nat.mul_add_div G.sliceCh_pos, Nat.div_eq_of_lt hb, Nat.add_zero]

/-- A push copies chunks of its region. -/
theorem region_offset (hi : i < G.chunks κ (G.call k).rows) {p : ℕ} (hp : p < 3) :
    G.region k κ r (dest κ r p) (G.offset κ (pushSlice κ r p) i) := by
  have two : ∀ sl : Rank, i < (G.call k).rows * G.sliceCh →
      i / G.sliceCh * G.rowCh + sl * G.sliceCh + i % G.sliceCh < (G.call k).rows * G.rowCh := by
    intro sl hi
    rw [← Nat.div_lt_iff_lt_mul (rowCh_pos G), (offset_two G sl i).1]
    exact (Nat.div_lt_iff_lt_mul G.sliceCh_pos).mpr hi
  cases κ with
  | oneShot => exact ⟨hi, trivial⟩
  | reduceScatter =>
    refine ⟨two _ hi, ?_⟩
    rw [← pushSlice_reduceScatter r hp]
    exact (offset_two G _ i).2
  | allGather => exact ⟨two r hi, (offset_two G r i).2⟩

/-- A push copies every chunk of its region. -/
theorem exists_offset {p : ℕ} (hp : p < 3) (h : G.region k κ r (dest κ r p) o) :
    ∃ i < G.chunks κ (G.call k).rows, G.offset κ (pushSlice κ r p) i = o := by
  have two : ∀ sl : Rank, o < (G.call k).rows * G.rowCh → G.slice o = sl →
      ∃ i < (G.call k).rows * G.sliceCh,
        i / G.sliceCh * G.rowCh + sl * G.sliceCh + i % G.sliceCh = o := by
    intro sl ho hsl
    have hb : o % G.rowCh % G.sliceCh < G.sliceCh := Nat.mod_lt _ G.sliceCh_pos
    have hdiv : (o / G.rowCh * G.sliceCh + o % G.rowCh % G.sliceCh) / G.sliceCh = o / G.rowCh := by
      rw [Nat.mul_comm, Nat.mul_add_div G.sliceCh_pos, Nat.div_eq_of_lt hb, Nat.add_zero]
    have hmod : (o / G.rowCh * G.sliceCh + o % G.rowCh % G.sliceCh) % G.sliceCh =
        o % G.rowCh % G.sliceCh := by
      rw [Nat.mul_comm, Nat.mul_add_mod, Nat.mod_eq_of_lt hb]
    refine ⟨o / G.rowCh * G.sliceCh + o % G.rowCh % G.sliceCh, ?_, ?_⟩
    · rw [← Nat.div_lt_iff_lt_mul G.sliceCh_pos, hdiv]
      exact (Nat.div_lt_iff_lt_mul (rowCh_pos G)).mpr ho
    · have hrow : (sl : ℕ) * G.sliceCh + o % G.rowCh % G.sliceCh = o % G.rowCh := by
        rw [← hsl, Setup.slice, Nat.div_add_mod']
      rw [hdiv, hmod, Nat.add_assoc, hrow, Nat.div_add_mod']
  obtain ⟨ho, hsl⟩ := h
  cases κ with
  | oneShot => exact ⟨o, ho, rfl⟩
  | reduceScatter =>
    rw [← pushSlice_reduceScatter r hp] at hsl
    exact two _ ho hsl
  | allGather => exact two _ ho hsl

/-- Chunks of different slots or sources have different places in a receive buffer. -/
theorem base_inj {t' o' : ℕ} (ho : o < G.mMax * G.rowCh) (ho' : o' < G.mMax * G.rowCh)
    (h : G.base t s + o = G.base t' d + o') : t = t' ∧ s = d ∧ o = o' := by
  have hpos : 0 < G.mMax * G.rowCh := (Nat.zero_le o).trans_lt ho
  have hdiv : ∀ a c, c < G.mMax * G.rowCh →
      (a * (G.mMax * G.rowCh) + c) / (G.mMax * G.rowCh) = a := by
    intro a c hc
    rw [Nat.mul_comm, Nat.mul_add_div hpos, Nat.div_eq_of_lt hc, Nat.add_zero]
  have hidx : t * 4 + (s : ℕ) = t' * 4 + d := by
    have := congrArg (· / (G.mMax * G.rowCh)) h
    simpa only [Setup.base, hdiv _ _ ho, hdiv _ _ ho'] using this
  have hs := s.isLt
  have hd := d.isLt
  refine ⟨by omega, Fin.ext (by omega), ?_⟩
  simp only [Setup.base, hidx] at h
  omega

theorem region_lt (h : G.region k κ s d o) : o < G.mMax * G.rowCh :=
  h.1.trans_le (Nat.mul_le_mul_right _ (G.rows_le k))

/-- Reduce-scatter and all-gather chunks of one source are in different slices. -/
theorem region_disjoint (hsd : s ≠ d) (h : G.region k .reduceScatter s d o)
    (h' : G.region k' .allGather s d o) : False := by
  have heq : (d : ℕ) = s := h.2.symm.trans h'.2
  exact hsd (Fin.ext heq.symm)

/-- Two rounds in a row on the same buffers never write the same chunk of a receive buffer:
their slots differ, or they are the halves of one call. -/
theorem disjoint_succ (hv : Valid G k κ) (hv' : Valid G k' κ') (hb : κ.bufs = κ'.bufs)
    (h : round G k' κ' = round G k κ + 1) (hsd : s ≠ d) {o' : ℕ}
    (ho : G.region k κ s d o) (ho' : G.region k' κ' s d o') :
    G.base (slotAt κ.bufs (round G k κ)) s + o ≠
      G.base (slotAt κ'.bufs (round G k' κ')) s + o' := by
  intro haddr
  obtain ⟨hslot, -, rfl⟩ := base_inj (region_lt ho) (region_lt ho') haddr
  rw [round_eq, round_eq, ← hb] at h
  rw [round_eq, round_eq, ← hb] at hslot
  cases κ <;> cases κ' <;> simp only [Kind.bufs, reduceCtorEq, slotAt] at hb h hslot
  · omega
  · omega
  · exact region_disjoint hsd ho ho'
  · omega
  · omega

end AllReduce

end VllmMoet
