import VllmMoet.AllReduce.Exchange

/-!
# The all-reduce is safe under any interleaving

The steps that reach a peer or look at what a peer sent, and the theorem: a wait is released
only by its own round's flag, no push overwrites what its destination still reads, the
counters are reset after every CTA has passed them, and every rank holds the sum after every
call, whatever the order of the steps and however often the 32-bit counters wrap.
-/

namespace VllmMoet

namespace AllReduce

variable {V : Type*} {G : Setup V} {S S' : State V} {R R' : RankState V} {r s d : Rank}
  {p b i m o q : ℕ} {σ : Bufs}

/-! ### Slots, flags and messages of the kernels -/

theorem PushOk.slot_eq (h : PushOk G R) (hpc : (R.push p b).pc ≠ .start) :
    slotOf R.kind (R.push p b).n = slotAt R.bufs (R.round G) := by
  rw [h.n p b hpc]
  exact slotOf_eq G R.call R.kind

theorem PushOk.seq_eq (h : PushOk G R) (hpc : (R.push p b).pc ≠ .start) :
    seqOf R.kind (R.push p b).n = (R.round G + 1) % 2 ^ 32 := by
  rw [h.n p b hpc]
  exact seqOf_eq G R.call R.kind

theorem WaitOk.slot_eq (h : WaitOk G r R) (hpc : (R.wait m).pc ≠ .start) :
    slotOf R.kind (R.wait m).n = slotAt R.bufs (R.round G) := by
  rw [h.n m hpc]
  exact slotOf_eq G R.call R.kind

theorem WaitOk.seq_eq (h : WaitOk G r R) (hpc : (R.wait m).pc ≠ .start) :
    seqOf R.kind (R.wait m).n = (R.round G + 1) % 2 ^ 32 := by
  rw [h.n m hpc]
  exact seqOf_eq G R.call R.kind

/-- What a push kernel copies is the payload of its round. -/
theorem OutOk.message_eq (h : OutOk G r R) (ho : G.region R.call R.kind r d o) :
    R.message G r o = G.payload R.call R.kind r o := by
  cases hk : R.kind with
  | oneShot =>
    simp only [RankState.message, hk]
    rfl
  | reduceScatter =>
    simp only [RankState.message, hk]
    rfl
  | allGather =>
    simp only [RankState.message, hk]
    rw [hk] at ho
    exact h.reduced hk o ho.1 ho.2

/-- What a waiting kernel makes of the payloads is the sum. -/
theorem combine_payload (G : Setup V) (k : ℕ) (κ : Kind) (o : ℕ) :
    G.combine κ (fun p => G.payload k κ (G.source κ (G.call k).rows o p) o) = G.total k o := by
  cases κ <;> rfl

/-- A phase in which a CTA is still on its way has not been announced. -/
theorem not_announced (hw : R.waiting = false) (hp : p < 3) (hb : b < R.pushCtas G)
    (hpc : (R.push p b).pc.sent = false) : ¬ R.Announced G s (dest R.kind s p) := by
  rintro (h | ⟨q, hq, hd, hall⟩)
  · simp [hw] at h
  · obtain rfl := dest_inj R.kind s hq hp hd
    simp [hall b hb] at hpc

theorem data_receive (R : RankState V) (σ τ : Bufs) (a a' : ℕ) (v : V) :
    (R.receive σ a v).data τ a' = if τ = σ ∧ a' = a then v else R.data τ a' := by
  rcases eq_or_ne τ σ with rfl | hσ
  · rcases eq_or_ne a' a with rfl | ha
    · simp [RankState.receive]
    · simp [RankState.receive, ha]
  · simp [RankState.receive, hσ]

theorem flags_receiveFlag (R : RankState V) (σ τ : Bufs) (a a' v : ℕ) :
    (R.receiveFlag σ a v).flags τ a' = if τ = σ ∧ a' = a then v else R.flags τ a' := by
  rcases eq_or_ne τ σ with rfl | hσ
  · rcases eq_or_ne a' a with rfl | ha
    · simp [RankState.receiveFlag]
    · simp [RankState.receiveFlag, ha]
  · simp [RankState.receiveFlag, hσ]

/-! ### A copy -/

/-- A rank is at most one round ahead of what it still has to read: when rank `r` is in round
`ρ`, its destination has completed all rounds before `ρ - 1`. -/
theorem SyncOk.round_le (h : SyncOk G S) (hne : r ≠ d) :
    (S r).round G ≤ (S d).rounds G (S r).bufs + 1 :=
  (h.sync r d hne (S r).bufs).trans (sentTo_le G (S d) d r (S r).bufs)

/-- A copy writes no chunk of an announced round that its destination has not completed. -/
theorem copy_disjoint (hsync : SyncOk G S) (hok : ∀ x, RankOk G x (S x))
    (hw : (S r).waiting = false) (hp : p < 3) (hb : b < (S r).pushCtas G)
    (hpc : ((S r).push p b).pc = .copy) (hi : i < G.chunks (S r).kind ((S r).rows G)) {k : ℕ}
    {κ : Kind} (hv : Valid G k κ) (hb' : κ.bufs = (S r).bufs)
    (hlo : (S (dest (S r).kind r p)).rounds G κ.bufs ≤ round G k κ)
    (hhi : round G k κ < (S r).sentTo G r (dest (S r).kind r p) κ.bufs)
    (ho : G.region k κ r (dest (S r).kind r p) o) :
    G.base (slotAt κ.bufs (round G k κ)) r + o ≠
      G.base (slotAt (S r).bufs ((S r).round G)) r +
        G.offset (S r).kind (pushSlice (S r).kind r p) i := by
  have hd := dest_ne (S r).kind r hp
  have hna := not_announced (s := r) hw hp hb (show ((S r).push p b).pc.sent = false by
    rw [hpc]; rfl)
  rw [sentTo_of_not_announced hna, hb'] at hhi
  rw [hb'] at hlo
  have hle := hsync.round_le hd.symm
  rw [← round_eq_rounds] at hhi
  exact disjoint_succ hv (hok r).valid hb' (by simp only [RankState.round] at hle hhi ⊢; omega)
    hd.symm ho (region_offset hi hp)

theorem samePlace_copy {C : PushCta} (hb : b < R.pushCtas G) (hpc : C.pc = (R.push p b).pc) :
    SamePlace G R (R.setPush p b C) :=
  ⟨rfl, rfl, rfl, fun _ _ _ => announcedPhase_setPush hb (by rw [hpc])⟩

/-- The places of the ranks in a copy. -/
theorem samePlace_of_copy (hs : step G S r (.copy p b i) = some S') (x : Rank) :
    SamePlace G (S x) (S' x) := by
  obtain ⟨-, -, hb, -, -, hr, hd, ho⟩ := copy_of_step hs
  refine forall_peer (P := SamePlace G) (SamePlace.refl G) ?_ ?_ ho x
  · rw [hr]
    exact samePlace_copy hb rfl
  · rw [hd]
    exact ⟨rfl, rfl, rfl, fun _ _ _ => Iff.rfl⟩

theorem SyncOk.copy (h : SyncOk G S) (hs : step G S r (.copy p b i) = some S') :
    SyncOk G S' := by
  have hplace := samePlace_of_copy hs
  obtain ⟨hw, -, -, -, -, hr, hd, ho⟩ := copy_of_step hs
  refine h.of_same fun x => ⟨hplace x, ?_, ?_⟩
  · refine forall_peer (P := fun R R' => R'.flags = R.flags) (fun _ => rfl) ?_ ?_ ho x
    · rw [hr]
      rfl
    · rw [hd]
      rfl
  · refine forall_peer (P := fun R R' => R.waiting = true →
      ∀ m, (R'.wait m).polled = (R.wait m).polled) (fun _ _ _ => rfl) ?_ ?_ ho x
    · rw [hr]
      exact fun _ _ => rfl
    · rw [hd]
      exact fun _ _ => rfl

theorem OutOk.copy (h : ∀ x, OutOk G x (S x)) (hs : step G S r (.copy p b i) = some S')
    (x : Rank) : OutOk G x (S' x) := by
  obtain ⟨-, -, -, -, -, hr, hd, ho⟩ := copy_of_step hs
  refine (h x).of_same (forall_peer (P := SameOut)
    (fun _ => ⟨rfl, rfl, rfl, rfl, fun _ _ => rfl, fun _ _ => rfl⟩) ?_ ?_ ho x)
  · rw [hr]
    exact ⟨rfl, rfl, rfl, rfl, fun _ _ => rfl, fun _ _ => rfl⟩
  · rw [hd]
    exact ⟨rfl, rfl, rfl, rfl, fun _ _ => rfl, fun _ _ => rfl⟩

/-- A copy keeps what the receive buffers hold. -/
theorem DataOk.copy (h : DataOk G S) (hsync : SyncOk G S) (hok : ∀ x, RankOk G x (S x))
    (hout : OutOk G r (S r)) (hs : step G S r (.copy p b i) = some S') : DataOk G S' := by
  have hplace := samePlace_of_copy hs
  obtain ⟨hw, hp, hb, hpc, hi, hr, hd, ho⟩ := copy_of_step hs
  have hdr := dest_ne (S r).kind r hp
  have hregion := region_offset (r := r) hi hp
  obtain ⟨hpush, -⟩ := (hok r).pushing hw
  rw [hpush.slot_eq (by simp [hpc]), hout.message_eq hregion] at hd
  -- the data of every rank after the copy
  have hdata : ∀ x τ a, (S' x).data τ a =
      if x = dest (S r).kind r p ∧ τ = (S r).bufs ∧
        a = G.base (slotAt (S r).bufs ((S r).round G)) r +
          G.offset (S r).kind (pushSlice (S r).kind r p) i
      then G.payload (S r).call (S r).kind r (G.offset (S r).kind (pushSlice (S r).kind r p) i)
      else (S x).data τ a := by
    intro x τ a
    rcases eq_or_ne x (dest (S r).kind r p) with rfl | hx
    · rw [hd, data_receive]
      simp only [true_and]
    · rw [if_neg fun hxx => hx hxx.1]
      rcases eq_or_ne x r with rfl | hxr
      · rw [hr]
        rfl
      · rw [ho x hxr hx]
  refine ⟨fun x s hne k κ hv hlo hhi o' ho' => ?_, fun s hws p' hp' b' i' hi' hc' => ?_⟩
  · rw [(hplace x).rounds] at hlo
    rw [(hplace s).sentTo] at hhi
    rw [hdata, if_neg ?_]
    · exact h.data x s hne k κ hv hlo hhi o' ho'
    · rintro ⟨rfl, hbufs, ha⟩
      obtain ⟨-, rfl, -⟩ := base_inj (region_lt ho') (region_lt hregion) ha
      exact copy_disjoint hsync hok hw hp hb hpc hi hv hbufs hlo hhi ho' ha
  · rw [(hplace s).waiting] at hws
    rw [(hplace s).kind, (hplace s).rows] at hi'
    rw [(hplace s).kind, (hplace s).call, (hplace s).bufs, (hplace s).round, hdata]
    split
    · next hx =>
      obtain ⟨-, rfl, hoff⟩ := base_inj (region_lt (region_offset (r := s) hi' hp'))
        (region_lt hregion) hx.2.2
      rw [hoff]
    · next hx =>
      refine h.wrote s hws p' hp' b' i' hi' ?_
      rcases eq_or_ne s r with rfl | hsr
      · rw [hr] at hc'
        rcases setPush_cases (S s) p b p' b' { (S s).push p b with
          copied := Function.update ((S s).push p b).copied i true } with ⟨rfl, rfl, heq⟩ | ⟨-, heq⟩
        · rw [heq] at hc'
          rcases eq_or_ne i' i with rfl | hii
          · exact absurd ⟨rfl, rfl, rfl⟩ hx
          · simpa [hii] using hc'
        · rwa [heq] at hc'
      · rcases eq_or_ne s (dest (S r).kind r p) with rfl | hsd
        · rw [hd] at hc'
          exact hc'
        · rwa [ho s hsr hsd] at hc'

/-! ### A flag -/

/-- Storing the flag announces the phase, and nothing else. -/
theorem announcedPhase_flag (h : PushOk G R) (hp : p < 3) (hb : b < R.pushCtas G)
    (hpc : (R.push p b).pc = .flag) :
    (R.setPush p b { R.push p b with
      pc := if p = 2 then .reset 0 else .exit }).announcedPhase G q ↔
      q = p ∨ R.announcedPhase G q := by
  have hexit : ∀ b' < R.pushCtas G, b' ≠ b → (R.push p b').pc = .exit :=
    h.last p hp b hb (by rw [hpc]; rfl)
  have hsent : ({ R.push p b with pc := if p = 2 then .reset 0 else .exit } : PushCta).pc.sent =
      true := by
    simp only
    split <;> rfl
  rcases eq_or_ne q p with rfl | hqp
  · refine iff_of_true (fun b' hb' => ?_) (.inl rfl)
    rcases setPush_cases R q b q b' { R.push q b with
      pc := if q = 2 then .reset 0 else .exit } with ⟨-, -, heq⟩ | ⟨hne, heq⟩
    · rw [heq, hsent]
    · rw [heq, hexit b' hb' fun hbb => hne ⟨rfl, hbb⟩]
      rfl
  · rw [or_iff_right hqp]
    refine forall_congr' fun b' => ?_
    rw [setPush_push_of_ne fun hx => hqp hx.1]
    rfl

/-- What the ranks have announced after a flag: its phase's destination learns of the round. -/
theorem sentTo_of_flag (hok : RankOk G r (S r)) (hs : step G S r (.flag p b) = some S')
    (s x : Rank) (σ : Bufs) :
    (S' s).sentTo G s x σ =
      if s = r ∧ x = dest (S r).kind r p ∧ σ = (S r).bufs then (S r).round G + 1
      else (S s).sentTo G s x σ := by
  obtain ⟨hw, hp, hb, hpc, hr, hd, ho⟩ := flag_of_step hs
  obtain ⟨hpush, -⟩ := hok.pushing hw
  rcases eq_or_ne s r with rfl | hsr
  · have hann : (S' s).Announced G s x ↔ x = dest (S s).kind s p ∨ (S s).Announced G s x := by
      rw [hr]
      constructor
      · rintro (h | ⟨q, hq, hqd, hq'⟩)
        · exact .inr (.inl h)
        · rcases (announcedPhase_flag hpush hp hb hpc).mp hq' with rfl | hq'
          · exact .inl hqd.symm
          · exact .inr (.inr ⟨q, hq, hqd, hq'⟩)
      · rintro (h | h | ⟨q, hq, hqd, hq'⟩)
        · exact .inr ⟨p, hp, h.symm, (announcedPhase_flag hpush hp hb hpc).mpr (.inl rfl)⟩
        · exact .inl h
        · exact .inr ⟨q, hq, hqd, (announcedPhase_flag hpush hp hb hpc).mpr (.inr hq')⟩
    have hrounds : ∀ τ, (S' s).rounds G τ = (S s).rounds G τ := by
      intro τ
      rw [hr]
      rfl
    have hbufs : (S' s).bufs = (S s).bufs := by
      rw [hr]
      rfl
    rcases Classical.em (x = dest (S s).kind s p ∧ σ = (S s).bufs) with ⟨hx, rfl⟩ | hx
    · rw [if_pos ⟨rfl, hx, rfl⟩, RankState.sentTo, hrounds, hbufs,
        if_pos ⟨rfl, hann.mpr (.inl hx)⟩, round_eq_rounds]
    · have hiff : (σ = (S s).bufs ∧ (S' s).Announced G s x) ↔
          (σ = (S s).bufs ∧ (S s).Announced G s x) := by
        refine and_congr_right fun hσ => hann.trans (or_iff_right fun hxd => hx ⟨hxd, hσ⟩)
      rw [if_neg fun h => hx h.2, RankState.sentTo, RankState.sentTo, hrounds, hbufs]
      rcases Classical.em (σ = (S s).bufs ∧ (S s).Announced G s x) with ha | ha
      · rw [if_pos ha, if_pos (hiff.mpr ha)]
      · rw [if_neg ha, if_neg fun h => ha (hiff.mp h)]
  · rw [if_neg fun hxx => hsr hxx.1]
    rcases eq_or_ne s (dest (S r).kind r p) with hsd | hsd
    · have hplace : SamePlace G (S s) (S' s) := by
        rw [hsd, hd]
        exact ⟨rfl, rfl, rfl, fun _ _ _ => Iff.rfl⟩
      exact hplace.sentTo s x σ
    · rw [ho s hsr hsd]

theorem sentTo_le_of_flag (hok : RankOk G r (S r)) (hs : step G S r (.flag p b) = some S')
    (s x : Rank) (σ : Bufs) : (S s).sentTo G s x σ ≤ (S' s).sentTo G s x σ := by
  rw [sentTo_of_flag hok hs]
  split
  · next h =>
    obtain ⟨rfl, -, rfl⟩ := h
    exact sentTo_le G (S s) s x (S s).bufs
  · exact le_rfl

/-- A flag moves no rank. -/
theorem place_of_flag (hs : step G S r (.flag p b) = some S') (x : Rank) :
    (S' x).call = (S x).call ∧ (S' x).kind = (S x).kind ∧ (S' x).waiting = (S x).waiting ∧
      (S' x).data = (S x).data ∧ (S' x).out = (S x).out ∧ (S' x).wait = (S x).wait ∧
      ∀ p' b', ((S' x).push p' b').copied = ((S x).push p' b').copied := by
  obtain ⟨-, -, -, -, hr, hd, ho⟩ := flag_of_step hs
  refine forall_peer (P := fun R R' => R'.call = R.call ∧ R'.kind = R.kind ∧
    R'.waiting = R.waiting ∧ R'.data = R.data ∧ R'.out = R.out ∧ R'.wait = R.wait ∧
    ∀ p' b', (R'.push p' b').copied = (R.push p' b').copied)
    (fun _ => ⟨rfl, rfl, rfl, rfl, rfl, rfl, fun _ _ => rfl⟩) ?_ ?_ ho x
  · rw [hr]
    exact ⟨rfl, rfl, rfl, rfl, rfl, rfl, copied_setPush rfl⟩
  · rw [hd]
    exact ⟨rfl, rfl, rfl, rfl, rfl, rfl, fun _ _ => rfl⟩

/-- A flag tells its destination exactly that the round is announced. -/
theorem SyncOk.flag (h : SyncOk G S) (hok : RankOk G r (S r))
    (hs : step G S r (.flag p b) = some S') : SyncOk G S' := by
  have hplace := place_of_flag hs
  have hsent := sentTo_of_flag hok hs
  obtain ⟨hw, hp, hb, hpc, hr, hd, ho⟩ := flag_of_step hs
  obtain ⟨hpush, -⟩ := hok.pushing hw
  have hstart : ((S r).push p b).pc ≠ .start := by simp [hpc]
  rw [hpush.slot_eq hstart, hpush.seq_eq hstart] at hd
  have hna : ¬ (S r).Announced G r (dest (S r).kind r p) :=
    not_announced hw hp hb (by rw [hpc]; rfl)
  refine ⟨fun x s hne σ => ?_, fun x s hne σ t ht => ?_, fun x hwx m s hne hpol => ?_⟩
  · rw [RankState.rounds, (hplace x).1, (hplace x).2.1]
    exact (h.sync x s hne σ).trans (sentTo_le_of_flag hok hs s x σ)
  · have hflags : (S' x).flags σ (flagIdx t s) =
        if x = dest (S r).kind r p ∧ σ = (S r).bufs ∧
          flagIdx t s = flagIdx (slotAt (S r).bufs ((S r).round G)) r
        then ((S r).round G + 1) % 2 ^ 32 else (S x).flags σ (flagIdx t s) := by
      rcases eq_or_ne x (dest (S r).kind r p) with rfl | hx
      · rw [hd, flags_receiveFlag]
        simp only [true_and]
      · rw [if_neg fun hxx => hx hxx.1]
        rcases eq_or_ne x r with rfl | hxr
        · rw [hr]
          rfl
        · rw [ho x hxr hx]
    rw [hflags, hsent]
    split
    · next hx =>
      obtain ⟨hxd, hσ, hidx⟩ := hx
      obtain ⟨rfl, hsr⟩ := flagIdx_inj hidx
      rw [if_pos ⟨hsr, hxd, hσ⟩, hσ, flagAt_succ_self]
    · next hx =>
      rw [h.flags x s hne σ t ht]
      split
      · next hy =>
        obtain ⟨rfl, hxd, rfl⟩ := hy
        have hts : t ≠ slotAt (S s).bufs ((S s).round G) := fun hts =>
          hx ⟨hxd, rfl, by rw [hts]⟩
        rw [flagAt_succ_of_ne _ ht hts, hxd, sentTo_of_not_announced hna, round_eq_rounds]
      · rfl
  · rw [(hplace x).2.2.1] at hwx
    rw [(hplace x).2.2.2.2.2.1] at hpol
    rw [RankState.round, RankState.bufs, (hplace x).1, (hplace x).2.1]
    exact (h.polled x hwx m s hne hpol).trans_le (sentTo_le_of_flag hok hs s x _)

theorem OutOk.flag (h : ∀ x, OutOk G x (S x)) (hs : step G S r (.flag p b) = some S')
    (x : Rank) : OutOk G x (S' x) := by
  obtain ⟨hcall, hkind, hwait, -, hout, hcta, -⟩ := place_of_flag hs x
  exact (h x).of_same ⟨hcall, hkind, hwait, hout, fun _ m => by rw [hcta], fun _ m => by rw [hcta]⟩

/-- When a phase's flag is stored, everything of the phase has been copied. -/
theorem DataOk.flag (h : DataOk G S) (hok : ∀ x, RankOk G x (S x))
    (hs : step G S r (.flag p b) = some S') : DataOk G S' := by
  have hplace := place_of_flag hs
  have hsent := sentTo_of_flag (hok r) hs
  obtain ⟨hw, hp, hb, hpc, hr, hd, ho⟩ := flag_of_step hs
  obtain ⟨hpush, -⟩ := (hok r).pushing hw
  refine ⟨fun x s hne k κ hv hlo hhi o' ho' => ?_, fun s hws p' hp' b' i' hi' hc' => ?_⟩
  · rw [RankState.rounds, (hplace x).1, (hplace x).2.1] at hlo
    rw [(hplace x).2.2.2.1]
    rw [hsent] at hhi
    split at hhi
    · next hx =>
      obtain ⟨rfl, rfl, hbufs⟩ := hx
      rcases Nat.lt_or_ge (round G k κ) ((S s).round G) with hlt | hge
      · refine h.data _ s hne k κ hv hlo (hlt.trans_le ?_) o' ho'
        rw [hbufs, round_eq_rounds]
        exact rounds_le_sentTo G (S s) s _ _
      · -- the round just announced
        obtain ⟨rfl, rfl⟩ := round_inj hv (hok s).valid hbufs
          (by simp only [RankState.round] at hge hhi; omega)
        obtain ⟨i', hi', hoff⟩ := exists_offset hp ho'
        obtain ⟨b', hb', hown⟩ := exists_owner G (S s) i'
        have harr : ((S s).push p b').pc.arrived = true := by
          rcases eq_or_ne b' b with rfl | hne'
          · rw [hpc]
            rfl
          · rw [hpush.last p hp b hb (by rw [hpc]; rfl) b' hb' hne']
            rfl
        have := h.wrote s hw p hp b' i' hi' (hpush.copied p b' harr i' hi' hown)
        rwa [hoff] at this
    · exact h.data x s hne k κ hv hlo hhi o' ho'
  · obtain ⟨hcall, hkind, hwait, -, -, -, hcop⟩ := hplace s
    have hrows : (S' s).rows G = (S s).rows G := by rw [RankState.rows, hcall, RankState.rows]
    rw [hwait] at hws
    rw [hcop] at hc'
    rw [hkind, hrows] at hi'
    rw [RankState.round, RankState.bufs, hkind, hcall, (hplace _).2.2.2.1]
    exact h.wrote s hws p' hp' b' i' hi' hc'

/-! ### A poll, a load and a store -/

/-- What a poll does: it sees a flag that has reached the round. -/
theorem poll_of_step (hs : step G S r (.poll m s) = some S') :
    (S r).waiting = true ∧ ((S r).wait m).pc = .poll ∧ s ≠ r ∧
      released ((S r).flags (S r).bufs (flagIdx (slotOf (S r).kind ((S r).wait m).n) s))
        (seqOf (S r).kind ((S r).wait m).n) ∧
      S' = Function.update S r ((S r).setWait m { (S r).wait m with
        polled := Function.update ((S r).wait m).polled s true }) := by
  obtain ⟨hw, -, R', hR, rfl⟩ := wait_of_step hs rfl rfl
  simp only [waitStep] at hR
  split at hR
  · next hpc => exact ⟨hw, hpc.1, hpc.2.1, hpc.2.2.2, by rw [← Option.some.inj hR]⟩
  · simp at hR

/-- A wait is released only by its own round's flag. -/
theorem SyncOk.announced_of_released (h : SyncOk G S) (hok : WaitOk G r (S r)) (hne : s ≠ r)
    (hpc : ((S r).wait m).pc ≠ .start)
    (hrel : released ((S r).flags (S r).bufs (flagIdx (slotOf (S r).kind ((S r).wait m).n) s))
      (seqOf (S r).kind ((S r).wait m).n)) :
    (S r).round G < (S s).sentTo G s r (S r).bufs := by
  rw [hok.slot_eq hpc, hok.seq_eq hpc, h.flags r s hne.symm _ _ (slotAt_lt _ _)] at hrel
  refine lt_of_le_of_ne (h.sync r s hne.symm _) fun heq => ?_
  rw [← heq] at hrel
  exact not_released _ _ hrel

theorem polled_setWait {C : WaitCta V} (h : C.polled = (R.wait m).polled) (m' : ℕ) :
    ((R.setWait m C).wait m').polled = (R.wait m').polled := by
  rcases setWait_cases R m m' C with ⟨rfl, heq⟩ | ⟨-, heq⟩
  · rw [heq, h]
  · rw [heq]

theorem got_setWait {C : WaitCta V} (h : C.got = (R.wait m).got) (m' : ℕ) :
    ((R.setWait m C).wait m').got = (R.wait m').got := by
  rcases setWait_cases R m m' C with ⟨rfl, heq⟩ | ⟨-, heq⟩
  · rw [heq, h]
  · rw [heq]

theorem stored_setWait {C : WaitCta V} (h : C.stored = (R.wait m).stored) (m' : ℕ) :
    ((R.setWait m C).wait m').stored = (R.wait m').stored := by
  rcases setWait_cases R m m' C with ⟨rfl, heq⟩ | ⟨-, heq⟩
  · rw [heq, h]
  · rw [heq]

/-- A step of a waiting kernel that changes its view and its results only. -/
theorem samePlace_setWait (hw : R.waiting = true) {C : WaitCta V} {out : ℕ → ℕ → V} :
    SamePlace G R { R.setWait m C with out := out } :=
  ⟨rfl, rfl, rfl, fun h => by simp [hw] at h⟩

theorem SyncOk.poll (h : SyncOk G S) (hok : RankOk G r (S r))
    (hs : step G S r (.poll m s) = some S') : SyncOk G S' := by
  obtain ⟨hw, hpc, hne, hrel, rfl⟩ := poll_of_step hs
  have hsent := h.announced_of_released (hok.waits hw).1 hne (by simp [hpc]) hrel
  set C : WaitCta V := { (S r).wait m with
    polled := Function.update ((S r).wait m).polled s true } with hC
  have hplace : ∀ x, SamePlace G (S x) (Function.update S r ((S r).setWait m C) x) :=
    forall_update (SamePlace.refl G) (samePlace_setWait hw)
  have hflags : ∀ x, (Function.update S r ((S r).setWait m C) x).flags = (S x).flags :=
    forall_update (P := fun R R' => R'.flags = R.flags) (fun _ => rfl) rfl
  refine ⟨fun x y hxy σ => ?_, fun x y hxy σ t ht => ?_, fun x hwx m' y hyx hpol => ?_⟩
  · rw [(hplace x).rounds, (hplace y).sentTo]
    exact h.sync x y hxy σ
  · rw [hflags, (hplace y).sentTo]
    exact h.flags x y hxy σ t ht
  · rw [(hplace x).round, (hplace x).bufs, (hplace y).sentTo]
    rcases eq_or_ne x r with rfl | hxr
    · rw [Function.update_self] at hpol
      rcases setWait_cases (S x) m m' C with ⟨rfl, heq⟩ | ⟨-, heq⟩
      · rw [heq, hC] at hpol
        rcases eq_or_ne y s with rfl | hys
        · exact hsent
        · exact h.polled x hw m' y hyx (by simpa [hys] using hpol)
      · rw [heq] at hpol
        exact h.polled x hw m' y hyx hpol
    · rw [Function.update_of_ne hxr] at hwx hpol
      exact h.polled x hwx m' y hyx hpol

theorem DataOk.poll (h : DataOk G S) (hs : step G S r (.poll m s) = some S') : DataOk G S' := by
  obtain ⟨hw, -, -, -, rfl⟩ := poll_of_step hs
  refine h.of_same (forall_update (P := SameData G)
    (fun R => ⟨SamePlace.refl G R, rfl, fun _ _ _ => rfl⟩) ⟨samePlace_setWait hw, rfl, ?_⟩)
  exact fun hw' => by simp [hw] at hw'

theorem OutOk.poll (h : ∀ x, OutOk G x (S x)) (hs : step G S r (.poll m s) = some S')
    (x : Rank) : OutOk G x (S' x) := by
  obtain ⟨hw, -, -, -, rfl⟩ := poll_of_step hs
  have hsame : SameOut (S r) ((S r).setWait m { (S r).wait m with
      polled := Function.update ((S r).wait m).polled s true }) :=
    ⟨rfl, rfl, rfl, rfl, fun _ => got_setWait rfl, fun _ => stored_setWait rfl⟩
  exact (h x).of_same (forall_update (P := SameOut)
    (fun R => ⟨rfl, rfl, rfl, rfl, fun _ _ => rfl, fun _ _ => rfl⟩) hsame x)

/-- The chunks a waiting kernel loads from a peer are in the region of the peer's round. -/
theorem region_of_writes {k : ℕ} {κ : Kind} (hm : m < (G.call k).rows)
    (ho : G.writes κ r m o) : G.region k κ (G.source κ (G.call k).rows o p) r o := by
  refine ⟨?_, ?_⟩
  · rw [← Nat.div_lt_iff_lt_mul (rowCh_pos G), ho.1]
    exact hm
  · cases κ with
    | oneShot => trivial
    | reduceScatter => exact ho.2
    | allGather => exact (Nat.mod_eq_of_lt (slice_lt G o)).symm

/-- What a waiting CTA loads is the payload of its round. -/
theorem loaded_eq (hsync : SyncOk G S) (hdata : DataOk G S) (hok : RankOk G r (S r))
    (hw : (S r).waiting = true) (hm : m < (S r).rows G) (hpc : ((S r).wait m).pc = .sum)
    (ho : G.writes (S r).kind r m o) :
    (S r).loaded G r m o p = G.payload (S r).call (S r).kind
      (G.source (S r).kind ((S r).rows G) o p) o := by
  obtain ⟨hwait, -⟩ := hok.waits hw
  have hregion := region_of_writes (p := p) hm ho
  rw [RankState.loaded]
  split
  · next hsrc =>
    -- the rank's own chunk; an assembly never reads it
    cases hk : (S r).kind with
    | oneShot =>
      rw [hk] at hsrc
      rw [hsrc]
      rfl
    | reduceScatter =>
      rw [hk] at hsrc
      rw [hsrc]
      rfl
    | allGather =>
      rw [hk] at ho hsrc
      exact absurd ((Nat.mod_eq_of_lt (slice_lt G o)).symm.trans (congrArg Fin.val hsrc)) ho.2
  · next hsrc =>
    have hpol := hwait.polled m (by simp [hpc]) (by simp [hpc]) _ hsrc
    rw [hwait.slot_eq (by simp [hpc])]
    exact hdata.data r _ (Ne.symm hsrc) (S r).call (S r).kind hok.valid le_rfl
      (hsync.polled r hw m _ hsrc hpol) o hregion

/-- What a load does. -/
theorem load_of_step (hs : step G S r (.load m o p) = some S') :
    (S r).waiting = true ∧ m < (S r).rows G ∧ ((S r).wait m).pc = .sum ∧
      G.writes (S r).kind r m o ∧
      S' = Function.update S r ((S r).setWait m { (S r).wait m with
        got := Function.update ((S r).wait m).got o
          (Function.update (((S r).wait m).got o) p (some ((S r).loaded G r m o p))) }) := by
  obtain ⟨hw, hm, R', hR, rfl⟩ := wait_of_step hs rfl rfl
  simp only [waitStep] at hR
  split at hR
  · next hpc => exact ⟨hw, hm, hpc.1, hpc.2.1, by rw [← Option.some.inj hR]⟩
  · simp at hR

/-- What a store does. -/
theorem store_of_step (hs : step G S r (.store m o) = some S') :
    (S r).waiting = true ∧ m < (S r).rows G ∧ G.writes (S r).kind r m o ∧
      (∀ p < (S r).kind.positions, (((S r).wait m).got o p).isSome) ∧
      S' = Function.update S r { (S r).setWait m { (S r).wait m with
          stored := Function.update ((S r).wait m).stored o true } with
        out := Function.update (S r).out (S r).call (Function.update ((S r).out (S r).call) o
          (G.combine (S r).kind fun p => (((S r).wait m).got o p).getD
            (G.x r (S r).call o))) } := by
  obtain ⟨hw, hm, R', hR, rfl⟩ := wait_of_step hs rfl rfl
  simp only [waitStep] at hR
  split at hR
  · next hpc => exact ⟨hw, hm, hpc.2.1, hpc.2.2.2, by rw [← Option.some.inj hR]⟩
  · simp at hR

/-- Loads and stores are the rank's own business. -/
theorem sameFlags_of_local {a : Act} (hs : step G S r a = some S')
    (ha : (∃ m o p, a = .load m o p) ∨ ∃ m o, a = .store m o) (x : Rank) :
    SameFlags G (S x) (S' x) ∧ SameData G (S x) (S' x) := by
  have own : ∀ R', (SameFlags G (S r) R' ∧ SameData G (S r) R') →
      SameFlags G (S x) (Function.update S r R' x) ∧
        SameData G (S x) (Function.update S r R' x) := fun R' h =>
    forall_update (P := fun R R' => SameFlags G R R' ∧ SameData G R R')
      (fun R => ⟨⟨SamePlace.refl G R, rfl, fun _ _ => rfl⟩,
        ⟨SamePlace.refl G R, rfl, fun _ _ _ => rfl⟩⟩) h x
  rcases ha with ⟨m, o, p, rfl⟩ | ⟨m, o, rfl⟩
  · obtain ⟨hw, -, -, -, rfl⟩ := load_of_step hs
    exact own _ ⟨⟨samePlace_setWait hw, rfl, fun _ => polled_setWait rfl⟩,
      ⟨samePlace_setWait hw, rfl, fun h => by simp [hw] at h⟩⟩
  · obtain ⟨hw, -, -, -, rfl⟩ := store_of_step hs
    exact own _ ⟨⟨samePlace_setWait hw, rfl, fun _ => polled_setWait rfl⟩,
      ⟨samePlace_setWait hw, rfl, fun h => by simp [hw] at h⟩⟩

/-- A load keeps the loaded chunks the payloads of the round. -/
theorem OutOk.load (h : ∀ x, OutOk G x (S x)) (hsync : SyncOk G S) (hdata : DataOk G S)
    (hok : RankOk G r (S r)) (hs : step G S r (.load m o p) = some S') (x : Rank) :
    OutOk G x (S' x) := by
  obtain ⟨hw, hm, hpc, ho, rfl⟩ := load_of_step hs
  have hload := loaded_eq (p := p) hsync hdata hok hw hm hpc ho
  set C : WaitCta V := { (S r).wait m with
    got := Function.update ((S r).wait m).got o
      (Function.update (((S r).wait m).got o) p (some ((S r).loaded G r m o p))) } with hC
  rcases eq_or_ne x r with rfl | hxr
  · rw [Function.update_self]
    refine ⟨fun _ m' o' p' v hwr hp' hg => ?_, fun _ m' o' hwr hst => ?_, (h x).reduced,
      (h x).finished⟩
    · rcases setWait_cases (S x) m m' C with ⟨rfl, heq⟩ | ⟨-, heq⟩
      · rw [heq, hC] at hg
        rcases eq_or_ne o' o with rfl | hoo
        · rcases eq_or_ne p' p with rfl | hpp
          · simp only [Function.update_self, Option.some.injEq] at hg
            exact hg.symm.trans hload
          · simp only [Function.update_self, Function.update_of_ne hpp] at hg
            exact (h x).got hw m' o' p' v hwr hp' hg
        · simp only [Function.update_of_ne hoo] at hg
          exact (h x).got hw m' o' p' v hwr hp' hg
      · rw [heq] at hg
        exact (h x).got hw m' o' p' v hwr hp' hg
    · rw [stored_setWait (R := S x) (C := C) rfl] at hst
      exact (h x).stored hw m' o' hwr hst
  · rw [Function.update_of_ne hxr]
    exact h x

/-- A store stores the sum. -/
theorem OutOk.store (h : ∀ x, OutOk G x (S x)) (hs : step G S r (.store m o) = some S')
    (x : Rank) : OutOk G x (S' x) := by
  obtain ⟨hw, hm, ho, hgot, rfl⟩ := store_of_step hs
  rcases eq_or_ne x r with rfl | hxr
  · rw [Function.update_self]
    -- what has been loaded is what the peers have sent, and adds up to the total
    have hval : (G.combine (S x).kind fun p => (((S x).wait m).got o p).getD
        (G.x x (S x).call o)) = G.total (S x).call o := by
      rw [← combine_payload G (S x).call (S x).kind o]
      have hp : ∀ p < (S x).kind.positions, (((S x).wait m).got o p).getD (G.x x (S x).call o) =
          G.payload (S x).call (S x).kind
            (G.source (S x).kind (G.call (S x).call).rows o p) o := by
        intro p hp
        obtain ⟨v, hv⟩ := Option.isSome_iff_exists.mp (hgot p hp)
        rw [hv, Option.getD_some]
        exact (h x).got hw m o p v ho hp hv
      revert hp
      cases (S x).kind with
      | oneShot =>
        intro hp
        simp only [Setup.combine, hp 0 (by decide), hp 1 (by decide), hp 2 (by decide),
          hp 3 (by decide)]
      | reduceScatter =>
        intro hp
        simp only [Setup.combine, hp 0 (by decide), hp 1 (by decide), hp 2 (by decide),
          hp 3 (by decide)]
      | allGather =>
        intro hp
        simp only [Setup.combine, hp 0 (by decide)]
    rw [hval]
    -- the store writes one place of the output of this call
    have hout : ∀ k o', (k = (S x).call ∧ o' = o ∧ Function.update (S x).out (S x).call
          (Function.update ((S x).out (S x).call) o (G.total (S x).call o)) k o' =
            G.total (S x).call o) ∨
        (¬ (k = (S x).call ∧ o' = o) ∧ Function.update (S x).out (S x).call
          (Function.update ((S x).out (S x).call) o (G.total (S x).call o)) k o' =
            (S x).out k o') := by
      intro k o'
      rcases eq_or_ne k (S x).call with rfl | hk
      · rcases eq_or_ne o' o with rfl | hoo
        · exact .inl ⟨rfl, rfl, by simp⟩
        · exact .inr ⟨fun h => hoo h.2, by simp [hoo]⟩
      · exact .inr ⟨fun h => hk h.1, by simp [hk]⟩
    set C : WaitCta V := { (S x).wait m with
      stored := Function.update ((S x).wait m).stored o true } with hC
    refine ⟨fun _ m' o' p' v hwr hp' hg => ?_, fun _ m' o' hwr hst => ?_, fun hk o' ho' hsl => ?_,
      fun k hk o' ho' => ?_⟩
    · change (((S x).setWait m C).wait m').got o' p' = some v at hg
      rw [got_setWait (R := S x) (C := C) rfl] at hg
      exact (h x).got hw m' o' p' v hwr hp' hg
    · change (((S x).setWait m C).wait m').stored o' = true at hst
      rcases hout (S x).call o' with ⟨-, rfl, heq⟩ | ⟨hoo, heq⟩
      · exact heq
      · refine heq.trans ?_
        rcases setWait_cases (S x) m m' C with ⟨rfl, heq'⟩ | ⟨-, heq'⟩
        · rw [heq', hC] at hst
          have hne : o' ≠ o := fun ho' => hoo ⟨rfl, ho'⟩
          exact (h x).stored hw m' o' hwr (by simpa [hne] using hst)
        · rw [heq'] at hst
          exact (h x).stored hw m' o' hwr hst
    · rcases hout (S x).call o' with ⟨-, rfl, heq⟩ | ⟨-, heq⟩
      · exact heq
      · exact heq.trans ((h x).reduced hk o' ho' hsl)
    · rcases hout k o' with ⟨rfl, rfl, heq⟩ | ⟨-, heq⟩
      · exact heq
      · exact heq.trans ((h x).finished k hk o' ho')
  · rw [Function.update_of_ne hxr]
    exact h x

/-! ### The next kernel -/

theorem advance_memory (R : RankState V) : (R.advance G).data = R.data ∧
    (R.advance G).flags = R.flags ∧ (R.advance G).out = R.out := by
  rw [RankState.advance]
  split
  · exact ⟨rfl, rfl, rfl⟩
  · exact ⟨rfl, rfl, rfl⟩

/-- After a push kernel its waiting kernel starts. -/
theorem advance_of_push (hw : R.waiting = false) :
    R.advance G = { R with waiting := true, wait := fun _ => {} } := by
  rw [RankState.advance, if_neg (by simp [hw])]

/-- After a waiting kernel the next push kernel starts. -/
theorem advance_of_wait (hw : R.waiting = true) :
    (R.advance G).waiting = false ∧ (∀ p b, (R.advance G).push p b = {}) ∧
      (R.kind = .reduceScatter → (R.advance G).kind = .allGather ∧
        (R.advance G).call = R.call) ∧
      (R.kind ≠ .reduceScatter → (R.advance G).kind ≠ .allGather ∧
        (R.advance G).call = R.call + 1) := by
  rw [RankState.advance, if_pos hw]
  exact ⟨rfl, fun _ _ => rfl, fun hk => by simp [hk],
    fun hk => by simp [hk, firstKind_ne_allGather]⟩

/-- A waiting kernel completes its round. -/
theorem rounds_advance (hv : Valid G R.call R.kind) (hw : R.waiting = true) (σ : Bufs) :
    (R.advance G).rounds G σ = R.rounds G σ + if R.bufs = σ then 1 else 0 := by
  have hbufs : (if R.bufs = σ then 1 else 0) = if R.kind.bufs = σ then 1 else 0 := rfl
  rw [RankState.advance, if_pos hw, hbufs]
  simp only [RankState.rounds]
  rcases eq_or_ne R.kind .reduceScatter with hk | hk
  · rw [if_pos hk, if_pos hk, hk]
    exact rounds_next_half G R.call σ
  · rw [if_neg hk, if_neg hk]
    exact rounds_next_call hv hk σ

/-- A push kernel that has ended has announced its round to every peer. -/
theorem announced_of_kernelDone (hw : R.waiting = false) (hd : R.kernelDone G) (hne : d ≠ r) :
    R.Announced G r d := by
  rw [RankState.kernelDone, if_neg (by simp [hw])] at hd
  obtain ⟨p, hp, hpd⟩ := exists_dest R.kind hne
  exact .inr ⟨p, hp, hpd, fun b hb => by rw [hd p hp b hb]; rfl⟩

/-- A push kernel that has just started has announced nothing. -/
theorem not_announced_of_fresh (hw : R.waiting = false) (hpush : ∀ p b, R.push p b = {}) :
    ¬ R.Announced G r d := by
  rintro (h | ⟨p, -, -, h⟩)
  · simp [hw] at h
  · have := h 0 (pushCtas_pos G R)
    simp [hpush, PushPc.sent] at this

/-- What a rank has announced stays between two kernels. -/
theorem sentTo_advance (hv : Valid G R.call R.kind) (hd : R.kernelDone G) (hne : d ≠ r)
    (σ : Bufs) : (R.advance G).sentTo G r d σ = R.sentTo G r d σ := by
  cases hw : R.waiting with
  | true =>
    obtain ⟨hw', hpush, -⟩ := advance_of_wait (G := G) hw
    rw [sentTo_of_not_announced (not_announced_of_fresh hw' hpush), rounds_advance hv hw,
      RankState.sentTo]
    have hann : R.Announced G r d := .inl hw
    simp only [hann, and_true, eq_comm]
  | false =>
    have hann := announced_of_kernelDone hw hd hne
    rw [advance_of_push hw, RankState.sentTo, RankState.sentTo]
    have hann' : RankState.Announced G { R with waiting := true, wait := fun _ => {} } r d :=
      .inl rfl
    simp only [hann, hann', and_true]
    rfl

theorem sentTo_of_next (hok : RankOk G r (S r)) (hs : step G S r .next = some S') (hne : d ≠ s)
    (σ : Bufs) : (S' s).sentTo G s d σ = (S s).sentTo G s d σ := by
  obtain ⟨hd, rfl⟩ := next_of_step hs
  rcases eq_or_ne s r with rfl | hsr
  · rw [Function.update_self]
    exact sentTo_advance hok.valid hd hne σ
  · rw [Function.update_of_ne hsr]

theorem memory_of_next (hs : step G S r .next = some S') (x : Rank) :
    (S' x).data = (S x).data ∧ (S' x).flags = (S x).flags ∧ (S' x).out = (S x).out := by
  obtain ⟨-, rfl⟩ := next_of_step hs
  exact forall_update (P := fun R R' => R'.data = R.data ∧ R'.flags = R.flags ∧ R'.out = R.out)
    (fun _ => ⟨rfl, rfl, rfl⟩) (advance_memory (S r)) x

theorem rounds_le_of_next (hok : RankOk G r (S r)) (hs : step G S r .next = some S') (x : Rank)
    (σ : Bufs) : (S x).rounds G σ ≤ (S' x).rounds G σ := by
  obtain ⟨-, rfl⟩ := next_of_step hs
  refine forall_update (P := fun R R' => R.rounds G σ ≤ R'.rounds G σ) (fun _ => le_rfl) ?_ x
  cases hw : (S r).waiting with
  | true =>
    rw [rounds_advance hok.valid hw]
    exact Nat.le_add_right _ _
  | false =>
    rw [advance_of_push hw]
    exact le_rfl

/-- A rank that completes its round has seen it announced by every peer. -/
theorem SyncOk.next (h : SyncOk G S) (hok : RankOk G r (S r))
    (hs : step G S r .next = some S') : SyncOk G S' := by
  have hsent := fun s d hne σ => sentTo_of_next (s := s) (d := d) hok hs hne σ
  have hmem := memory_of_next hs
  obtain ⟨hd, rfl⟩ := next_of_step hs
  refine ⟨fun x s hne σ => ?_, fun x s hne σ t ht => ?_, fun x hwx m s hne hpol => ?_⟩
  · rw [hsent s x hne]
    rcases eq_or_ne x r with rfl | hxr
    · rw [Function.update_self]
      cases hw : (S x).waiting with
      | true =>
        rw [rounds_advance hok.valid hw]
        split
        · next hσ =>
          obtain rfl := hσ
          rw [RankState.kernelDone, if_pos hw] at hd
          have hexit := hd 0 (rows_pos G (S x))
          have hpol := (hok.waits hw).1.polled 0 (by simp [hexit]) (by simp [hexit]) s hne.symm
          exact h.polled x hw 0 s hne.symm hpol
        · exact h.sync x s hne σ
      | false =>
        rw [advance_of_push hw]
        exact h.sync x s hne σ
    · rw [Function.update_of_ne hxr]
      exact h.sync x s hne σ
  · rw [hsent s x hne, (hmem x).2.1]
    exact h.flags x s hne σ t ht
  · rw [hsent s x hne.symm]
    rcases eq_or_ne x r with rfl | hxr
    · rw [Function.update_self] at hwx hpol
      cases hw : (S x).waiting with
      | true => simp [(advance_of_wait (G := G) hw).1] at hwx
      | false =>
        rw [advance_of_push hw] at hpol
        simp at hpol
    · rw [Function.update_of_ne hxr] at hwx hpol ⊢
      exact h.polled x hwx m s hne hpol

theorem DataOk.next (h : DataOk G S) (hok : RankOk G r (S r))
    (hs : step G S r .next = some S') : DataOk G S' := by
  have hsent := fun s d hne σ => sentTo_of_next (s := s) (d := d) hok hs hne σ
  have hmem := memory_of_next hs
  have hrounds := rounds_le_of_next hok hs
  obtain ⟨hd, rfl⟩ := next_of_step hs
  refine ⟨fun x s hne k κ hv hlo hhi o ho => ?_, fun s hws p hp b i hi hc => ?_⟩
  · rw [hsent s x hne] at hhi
    rw [(hmem x).1]
    exact h.data x s hne k κ hv ((hrounds x κ.bufs).trans hlo) hhi o ho
  · rw [(hmem _).1]
    rcases eq_or_ne s r with rfl | hsr
    · rw [Function.update_self] at hws hc
      cases hw : (S s).waiting with
      | true =>
        rw [(advance_of_wait (G := G) hw).2.1] at hc
        simp at hc
      | false =>
        rw [advance_of_push hw] at hws
        simp at hws
    · rw [Function.update_of_ne hsr] at hws hi hc ⊢
      exact h.wrote s hws p hp b i hi hc

/-- A waiting kernel that has ended has stored every chunk it writes. -/
theorem OutOk.stored_of_done (h : OutOk G r R) (hok : WaitOk G r R) (hw : R.waiting = true)
    (hd : R.kernelDone G) (ho : o < R.rows G * G.rowCh)
    (hwr : ∀ m, o / G.rowCh = m → G.writes R.kind r m o) : R.out R.call o = G.total R.call o := by
  rw [RankState.kernelDone, if_pos hw] at hd
  have hexit := hd (o / G.rowCh) ((Nat.div_lt_iff_lt_mul (rowCh_pos G)).mpr ho)
  exact h.stored hw _ o (hwr _ rfl) (hok.stored _ (by rw [hexit]; rfl) o (hwr _ rfl))

/-- A call that ends leaves the sum, a reduce-scatter the rank's slice of it. -/
theorem OutOk.advance (h : OutOk G r R) (hok : RankOk G r R) (hd : R.kernelDone G) :
    OutOk G r (R.advance G) := by
  cases hw : R.waiting with
  | false =>
    rw [advance_of_push hw]
    exact ⟨fun _ m o p v _ _ hg => by simp at hg, fun _ m o _ hst => by simp at hst, h.reduced,
      h.finished⟩
  | true =>
    obtain ⟨hwait, -⟩ := hok.waits hw
    obtain ⟨hw', -, hhalf, hcall⟩ := advance_of_wait (G := G) hw
    refine ⟨fun hx => by simp [hw'] at hx, fun hx => by simp [hw'] at hx, fun hk o ho hsl => ?_,
      fun k hk o ho => ?_⟩
    · rw [(advance_memory R).2.2]
      rcases eq_or_ne R.kind .reduceScatter with hR | hR
      · rw [RankState.rows, (hhalf hR).2] at ho
        rw [(hhalf hR).2]
        exact h.stored_of_done hwait hw hd ho fun m hm => by
          rw [hR]
          exact ⟨hm, hsl⟩
      · exact absurd hk (hcall hR).1
    · rw [(advance_memory R).2.2]
      rcases eq_or_ne R.kind .reduceScatter with hR | hR
      · rw [(hhalf hR).2] at hk
        exact h.finished k hk o ho
      · rw [(hcall hR).2] at hk
        rcases Nat.lt_succ_iff_lt_or_eq.mp hk with hlt | rfl
        · exact h.finished k hlt o ho
        · cases hκ : R.kind with
          | oneShot =>
            exact h.stored_of_done hwait hw hd ho fun m hm => by
              rw [hκ]
              exact ⟨hm, trivial⟩
          | reduceScatter => exact absurd hκ hR
          | allGather =>
            -- the own slice was reduced, the others were assembled
            rcases eq_or_ne (G.slice o) r with hsl | hsl
            · exact h.reduced hκ o ho hsl
            · exact h.stored_of_done hwait hw hd ho fun m hm => by
                rw [hκ]
                exact ⟨hm, hsl⟩

theorem OutOk.next (h : ∀ x, OutOk G x (S x)) (hok : RankOk G r (S r))
    (hs : step G S r .next = some S') (x : Rank) : OutOk G x (S' x) := by
  obtain ⟨hd, rfl⟩ := next_of_step hs
  rcases eq_or_ne x r with rfl | hxr
  · rw [Function.update_self]
    exact (h x).advance hok hd
  · rw [Function.update_of_ne hxr]
    exact h x

/-! ### Every run -/

/-- What holds in every state of a run. -/
structure Ok (G : Setup V) (S : State V) : Prop where
  rank : ∀ x, RankOk G x (S x)
  sync : SyncOk G S
  data : DataOk G S
  out : ∀ x, OutOk G x (S x)

theorem ok_start (h : Start G S) : Ok G S := by
  have hna : ∀ s d, ¬ (S s).Announced G s d := fun s d =>
    not_announced_of_fresh (h.waiting s) (h.push s)
  have hfresh : ∀ x, ¬ (S x).waiting = true := fun x => by simp [h.waiting x]
  have hrounds : ∀ x σ, (S x).rounds G σ = 0 := by
    intro x σ
    rw [RankState.rounds, h.call, h.kind]
    have hf := firstKind_ne_allGather (G.call 0).bufs
    cases σ <;> simp [rounds, nCalls, hf]
  refine ⟨rankOk_start h, ⟨fun x s _ σ => ?_, fun x s _ σ t _ => ?_, fun x hw => absurd hw (hfresh x)⟩,
    ⟨fun x s _ k κ _ _ hhi => ?_, fun s _ p _ b i _ hc => ?_⟩, fun x => ⟨fun hw => absurd hw (hfresh x),
      fun hw => absurd hw (hfresh x), fun hk => ?_, fun k hk => ?_⟩⟩
  · rw [hrounds]
    exact Nat.zero_le _
  · rw [h.flags, sentTo_of_not_announced (hna s x), hrounds, flagAt_zero,
      Nat.zero_mod]
  · rw [sentTo_of_not_announced (hna s x), hrounds] at hhi
    exact absurd hhi (Nat.not_lt_zero _)
  · simp [h.push] at hc
  · rw [h.kind] at hk
    exact absurd hk (firstKind_ne_allGather _)
  · rw [h.call] at hk
    exact absurd hk (Nat.not_lt_zero _)

/-- Every step of every rank keeps it. -/
theorem ok_step {a : Act} (h : Ok G S) (hs : step G S r a = some S') : Ok G S' := by
  suffices hrest : SyncOk G S' ∧ DataOk G S' ∧ ∀ x, OutOk G x (S' x) from
    ⟨rankOk_step h.rank hs, hrest.1, hrest.2.1, hrest.2.2⟩
  cases ha : a.quiet with
  | true =>
    have hsame := sameView_of_quiet (h.rank r) ha hs
    exact ⟨h.sync.of_same fun x => (hsame x).flags, h.data.of_same fun x => (hsame x).data,
      fun x => (h.out x).of_same (hsame x).out⟩
  | false =>
    cases a with
    | copy p b i =>
      exact ⟨h.sync.copy hs, h.data.copy h.sync h.rank (h.out r) hs, OutOk.copy h.out hs⟩
    | flag p b => exact ⟨h.sync.flag (h.rank r) hs, h.data.flag h.rank hs, OutOk.flag h.out hs⟩
    | poll m s => exact ⟨h.sync.poll (h.rank r) hs, h.data.poll hs, OutOk.poll h.out hs⟩
    | load m o p =>
      have hsame := sameFlags_of_local hs (.inl ⟨m, o, p, rfl⟩)
      exact ⟨h.sync.of_same fun x => (hsame x).1, h.data.of_same fun x => (hsame x).2,
        OutOk.load h.out h.sync h.data (h.rank r) hs⟩
    | store m o =>
      have hsame := sameFlags_of_local hs (.inr ⟨m, o, rfl⟩)
      exact ⟨h.sync.of_same fun x => (hsame x).1, h.data.of_same fun x => (hsame x).2,
        OutOk.store h.out hs⟩
    | next => exact ⟨h.sync.next (h.rank r) hs, h.data.next (h.rank r) hs,
        OutOk.next h.out (h.rank r) hs⟩
    | pushStart _ _ | spin _ _ | arrive _ _ | resetPhase _ _ | waitStart _ | enter _ | leave _
    | resetDone _ | bump _ => simp [Act.quiet] at ha

theorem ok_of_reachable (h : (system G).Reachable S) : Ok G S :=
  TransitionSystem.Invariant.holds (M := system G) (P := Ok G)
    ⟨fun _ h0 => ok_start h0, fun _ _ _ _ hok hstep => ok_step hok hstep⟩ h

/-- A push writes nothing of an earlier round that its destination has not completed. -/
theorem Ok.copy_safe (h : Ok G S) (hs : step G S r (.copy p b i) = some S') {k : ℕ} {κ : Kind}
    (hv : Valid G k κ) (hσ : κ.bufs = (S r).bufs) (hlt : round G k κ < (S r).round G)
    (ho : G.region k κ s (dest (S r).kind r p) o)
    (haddr : G.base (slotOf (S r).kind ((S r).push p b).n) r +
        G.offset (S r).kind (pushSlice (S r).kind r p) i =
      G.base (slotAt κ.bufs (round G k κ)) s + o) :
    round G k κ < (S (dest (S r).kind r p)).rounds G κ.bufs := by
  obtain ⟨hw, hp, -, hpc, hi, -⟩ := copy_of_step hs
  have hregion := region_offset (r := r) hi hp
  obtain ⟨hpush, -⟩ := (h.rank r).pushing hw
  rw [hpush.slot_eq (by simp [hpc])] at haddr
  obtain ⟨-, rfl, -⟩ := base_inj (region_lt hregion) (region_lt ho) haddr
  by_contra hnot
  -- the destination is one round behind, where the writes go elsewhere
  have hle := h.sync.round_le (dest_ne (S r).kind r hp).symm
  rw [← hσ] at hle
  refine disjoint_succ hv (h.rank r).valid hσ ?_ (dest_ne (S r).kind r hp).symm ho hregion
    haddr.symm
  change (S r).round G = round G k κ + 1
  omega

/-- The all-reduce is safe in a state of a run. -/
structure Safe (G : Setup V) (S : State V) : Prop where
  /-- a wait that is released finds the payload of its call and phase in the slot it reads,
  and keeps finding it until the kernel ends -/
  released : ∀ r, (S r).waiting = true → ∀ m, ((S r).wait m).pc ≠ .start → ∀ s, s ≠ r →
    ((S r).wait m).polled s = true → ∀ o, G.region (S r).call (S r).kind s r o →
      (S r).data (S r).bufs (G.base (slotOf (S r).kind ((S r).wait m).n) s + o) =
        G.payload (S r).call (S r).kind s o
  /-- a push writes chunks of an earlier call or phase only when its destination is done with
  that -/
  kept : ∀ r p b i S', step G S r (.copy p b i) = some S' → ∀ k κ, Valid G k κ →
    κ.bufs = (S r).bufs → round G k κ < (S r).round G →
      ∀ s o, G.region k κ s (dest (S r).kind r p) o →
        G.base (slotOf (S r).kind ((S r).push p b).n) r +
            G.offset (S r).kind (pushSlice (S r).kind r p) i =
          G.base (slotAt κ.bufs (round G k κ)) s + o →
        round G k κ < (S (dest (S r).kind r p)).rounds G κ.bufs
  /-- the reduce-scatter and all-gather chunks of a call do not overlap -/
  apart : ∀ k t s s' d, s ≠ d → s' ≠ d → ∀ o o', G.region k .reduceScatter s d o →
    G.region k .allGather s' d o' → G.base t s + o ≠ G.base t s' + o'
  /-- the phase counters are reset when every CTA has passed and incremented its own -/
  phaseReset : ∀ r p b S', step G S r (.resetPhase p b) = some S' →
    ∀ p' < 3, ∀ b' < (S r).pushCtas G, ((S r).push p' b').pc.arrived = true
  /-- the done counter is reset and the call counter incremented when every other CTA has
  exited -/
  doneReset : ∀ r m S', step G S r (.resetDone m) = some S' ∨ step G S r (.bump m) = some S' →
    ∀ m' < (S r).rows G, m' ≠ m → ((S r).wait m').pc = .exit
  /-- every rank that has completed a call holds the sum, which is the same on all ranks -/
  sum : ∀ r, ∀ k < (S r).call, ∀ o < (G.call k).rows * G.rowCh, (S r).out k o = G.total k o

/-- **The push-based all-reduce is safe under any interleaving.** -/
theorem allReduce_safe (h : (system G).Reachable S) : Safe G S := by
  have hok := ok_of_reachable h
  refine ⟨fun r hw m hpc s hne hpol o ho => ?_, fun r p b i S' hs k κ hv hσ hlt s o ho haddr =>
    hok.copy_safe hs hv hσ hlt ho haddr, fun k t s s' d hs hs' o o' ho ho' haddr => ?_,
    fun r p b S' hs => ?_, fun r m S' hs => ?_, fun r => (hok.out r).finished⟩
  · rw [((hok.rank r).waits hw).1.slot_eq hpc]
    exact hok.data.data r s hne.symm _ _ (hok.rank r).valid le_rfl
      (hok.sync.polled r hw m s hne hpol) o ho
  · obtain ⟨-, rfl, rfl⟩ := base_inj (region_lt ho) (region_lt ho') haddr
    exact region_disjoint hs ho ho'
  · obtain ⟨hw, hp, hb, hstep⟩ := push_of_step hs rfl
    obtain ⟨hpush, -⟩ := (hok.rank r).pushing hw
    simp only [pushStep] at hstep
    split at hstep
    · next q hpc => exact hpush.arrived_of_reset hp hb hpc
    · simp at hstep
  · rcases hs with hs | hs
    · obtain ⟨hw, hm, R', hR, -⟩ := wait_of_step hs rfl rfl
      simp only [waitStep] at hR
      split at hR
      · next hpc => exact ((hok.rank r).waits hw).1.last m hm (.inl hpc)
      · simp at hR
    · obtain ⟨hw, hm, R', hR, -⟩ := wait_of_step hs rfl rfl
      simp only [waitStep] at hR
      split at hR
      · next hpc => exact ((hok.rank r).waits hw).1.last m hm (.inr hpc)
      · simp at hR

/-- One-shot and two-shot calls in turn, of one row of four chunks. -/
def smallSetup : Setup ℕ where
  sliceCh := 1
  mMax := 1
  maxCtas := 1
  call k := ⟨if k % 2 = 0 then .first else .second, 1⟩
  x r k o := r + 10 * o + 100 * k
  hadd2 a b := a + b
  order _ _ := 228
  sliceCh_pos := Nat.one_pos
  maxCtas_pos := Nat.one_pos
  rows_pos _ := Nat.one_pos
  rows_le _ := le_rfl

/-- The ranks before the first call. -/
def smallState : State ℕ := fun _ =>
  { call := 0, kind := .oneShot, waiting := false, push := fun _ _ => {}, wait := fun _ => {},
    ctrl := fun _ => 0, phase := fun _ _ => 0, done := fun _ => 0, data := fun _ _ => 0,
    flags := fun _ _ => 0, out := fun _ _ => 0 }

theorem smallState_start : Start smallSetup smallState :=
  ⟨fun _ => rfl, fun _ => rfl, fun _ => rfl, fun _ _ _ => rfl, fun _ _ => rfl, fun _ _ _ => rfl,
    fun _ _ => rfl, fun _ _ _ => rfl⟩

/-- The steps of a phase of a push kernel, up to its flag. -/
def smallPhase (r : Rank) (p : ℕ) : List (Rank × Act) :=
  [.pushStart p 0, .spin p 0, .copy p 0 0, .copy p 0 1, .copy p 0 2, .copy p 0 3, .arrive p 0,
    .flag p 0].map fun a => (r, a)

/-- Rank `r` pushes and waits, and sees the flag of rank `s`, whose first phase is for it. -/
def smallRun (r s : Rank) : List (Rank × Act) :=
  smallPhase r 0 ++ smallPhase r 1 ++ smallPhase r 2 ++
    [(r, .resetPhase 2 0), (r, .resetPhase 2 0), (r, .resetPhase 2 0), (r, .next)] ++
    smallPhase s 0 ++ [(r, .waitStart 0), (r, .poll 0 s)]

theorem allReduce_safe_small : ∃ S, ((S 0).wait 0).polled 1 = true ∧ Safe smallSetup S := by
  obtain ⟨S, hS, hpol⟩ := TransitionSystem.exists_reachable_of_run
    (fun (S : State ℕ) (a : Rank × Act) => step smallSetup S a.1 a.2) smallState_start (smallRun 0 1)
    (fun S => ((S 0).wait 0).polled 1) (by decide +kernel)
  exact ⟨S, hpol, allReduce_safe hS⟩

end AllReduce

end VllmMoet
