import VllmMoet.AllReduce.Counters

/-!
# What the ranks know of each other

Rank `s` has announced its first `sentTo` rounds to rank `d`: those it has completed and,
once the last CTA of the phase has stored the flag, the one it is in. This is the flag `d`
holds for `s`. A rank completes a round only after all peers have announced it (`sync`), so
no rank is more than one round ahead of another, on either set of buffers.

* `SyncOk`: the flags, and what a waiting CTA that has seen one knows;
* `DataOk`: the receive buffers hold the payload of every announced round that the receiver
  has not completed, and every chunk copied in the round being pushed;
* `OutOk`: what was loaded and stored is the payload and the sum.
-/

namespace VllmMoet

namespace AllReduce

variable {V : Type*} {G : Setup V} {S S' : State V} {R R' : RankState V} {r s d : Rank}
  {p b i m o q : ℕ} {σ : Bufs}

/-- Every CTA of phase `p` has arrived, and the flag is stored. -/
def RankState.announcedPhase (G : Setup V) (R : RankState V) (p : ℕ) : Prop :=
  ∀ b < R.pushCtas G, (R.push p b).pc.sent = true

/-- Rank `s` in state `R` has announced its round to rank `d`. -/
def RankState.Announced (G : Setup V) (R : RankState V) (s d : Rank) : Prop :=
  R.waiting = true ∨ ∃ p < 3, dest R.kind s p = d ∧ R.announcedPhase G p

/-- The rounds a rank has completed on a set of buffers. -/
def RankState.rounds (G : Setup V) (R : RankState V) (σ : Bufs) : ℕ :=
  AllReduce.rounds G R.call R.kind σ

/-- The round a rank is in. -/
def RankState.round (G : Setup V) (R : RankState V) : ℕ := AllReduce.round G R.call R.kind

open Classical in
/-- The rounds rank `s` in state `R` has announced to rank `d`. -/
noncomputable def RankState.sentTo (G : Setup V) (R : RankState V) (s d : Rank) (σ : Bufs) : ℕ :=
  R.rounds G σ + if σ = R.bufs ∧ R.Announced G s d then 1 else 0

theorem round_eq_rounds (G : Setup V) (R : RankState V) : R.round G = R.rounds G R.bufs := rfl

theorem rounds_le_sentTo (G : Setup V) (R : RankState V) (s d : Rank) (σ : Bufs) :
    R.rounds G σ ≤ R.sentTo G s d σ := Nat.le_add_right _ _

theorem sentTo_le (G : Setup V) (R : RankState V) (s d : Rank) (σ : Bufs) :
    R.sentTo G s d σ ≤ R.rounds G σ + 1 := by
  rw [RankState.sentTo]
  split <;> omega

theorem sentTo_of_not_announced (h : ¬ R.Announced G s d) :
    R.sentTo G s d σ = R.rounds G σ := by
  rw [RankState.sentTo, if_neg fun hx => h hx.2, Nat.add_zero]

/-! ### The invariants -/

/-- What the flags say. -/
structure SyncOk (G : Setup V) (S : State V) : Prop where
  sync : ∀ r s, r ≠ s → ∀ σ, (S r).rounds G σ ≤ (S s).sentTo G s r σ
  flags : ∀ r s, r ≠ s → ∀ σ, ∀ t < 4,
    (S r).flags σ (flagIdx t s) = flagAt σ ((S s).sentTo G s r σ) t % 2 ^ 32
  polled : ∀ r, (S r).waiting = true → ∀ m s, s ≠ r → ((S r).wait m).polled s = true →
    (S r).round G < (S s).sentTo G s r (S r).bufs

/-- What the receive buffers hold. -/
structure DataOk (G : Setup V) (S : State V) : Prop where
  data : ∀ r s, r ≠ s → ∀ k κ, Valid G k κ → (S r).rounds G κ.bufs ≤ round G k κ →
    round G k κ < (S s).sentTo G s r κ.bufs → ∀ o, G.region k κ s r o →
      (S r).data κ.bufs (G.base (slotAt κ.bufs (round G k κ)) s + o) = G.payload k κ s o
  wrote : ∀ s, (S s).waiting = false → ∀ p < 3, ∀ b i,
    i < G.chunks (S s).kind ((S s).rows G) → ((S s).push p b).copied i = true →
      (S (dest (S s).kind s p)).data (S s).bufs
        (G.base (slotAt (S s).bufs ((S s).round G)) s +
          G.offset (S s).kind (pushSlice (S s).kind s p) i) =
      G.payload (S s).call (S s).kind s (G.offset (S s).kind (pushSlice (S s).kind s p) i)

/-- What a rank has loaded and stored. -/
structure OutOk (G : Setup V) (r : Rank) (R : RankState V) : Prop where
  got : R.waiting = true → ∀ m o p v, G.writes R.kind r m o → p < R.kind.positions →
    (R.wait m).got o p = some v →
      v = G.payload R.call R.kind (G.source R.kind (R.rows G) o p) o
  stored : R.waiting = true → ∀ m o, G.writes R.kind r m o → (R.wait m).stored o = true →
    R.out R.call o = G.total R.call o
  reduced : R.kind = .allGather → ∀ o < R.rows G * G.rowCh, G.slice o = r →
    R.out R.call o = G.total R.call o
  finished : ∀ k < R.call, ∀ o < (G.call k).rows * G.rowCh, R.out k o = G.total k o

/-! ### Steps that change nothing of it -/

/-- The ranks' positions and what each has announced stay. -/
structure SamePlace (G : Setup V) (R R' : RankState V) : Prop where
  call : R'.call = R.call
  kind : R'.kind = R.kind
  waiting : R'.waiting = R.waiting
  announced : R.waiting = false → ∀ p < 3, R'.announcedPhase G p ↔ R.announcedPhase G p

theorem SamePlace.refl (G : Setup V) (R : RankState V) : SamePlace G R R :=
  ⟨rfl, rfl, rfl, fun _ _ _ => Iff.rfl⟩

theorem SamePlace.bufs (h : SamePlace G R R') : R'.bufs = R.bufs := by
  rw [RankState.bufs, h.kind, RankState.bufs]

theorem SamePlace.rounds (h : SamePlace G R R') (σ : Bufs) : R'.rounds G σ = R.rounds G σ := by
  rw [RankState.rounds, h.call, h.kind, RankState.rounds]

theorem SamePlace.round (h : SamePlace G R R') : R'.round G = R.round G := by
  rw [RankState.round, h.call, h.kind, RankState.round]

theorem SamePlace.rows (h : SamePlace G R R') : R'.rows G = R.rows G := by
  rw [RankState.rows, h.call, RankState.rows]

theorem SamePlace.sentTo (h : SamePlace G R R') (s d : Rank) (σ : Bufs) :
    R'.sentTo G s d σ = R.sentTo G s d σ := by
  have hann : R'.Announced G s d ↔ R.Announced G s d := by
    rw [RankState.Announced, RankState.Announced, h.waiting, h.kind]
    cases hw : R.waiting with
    | true => simp
    | false =>
      refine or_congr_right (exists_congr fun p => and_congr_right fun hp => ?_)
      exact and_congr_right fun _ => h.announced hw p hp
  rw [RankState.sentTo, RankState.sentTo, h.rounds, h.bufs, propext hann]

/-- The flags and what the CTAs have seen of them stay. -/
structure SameFlags (G : Setup V) (R R' : RankState V) : Prop extends SamePlace G R R' where
  flags : R'.flags = R.flags
  polled : R.waiting = true → ∀ m, (R'.wait m).polled = (R.wait m).polled

/-- The receive buffers and what the CTAs have copied stay. -/
structure SameData (G : Setup V) (R R' : RankState V) : Prop extends SamePlace G R R' where
  data : R'.data = R.data
  copied : R.waiting = false → ∀ p b, (R'.push p b).copied = (R.push p b).copied

/-- What was loaded and stored stays. -/
structure SameOut (R R' : RankState V) : Prop where
  call : R'.call = R.call
  kind : R'.kind = R.kind
  waiting : R'.waiting = R.waiting
  out : R'.out = R.out
  got : R.waiting = true → ∀ m, (R'.wait m).got = (R.wait m).got
  stored : R.waiting = true → ∀ m, (R'.wait m).stored = (R.wait m).stored

theorem SyncOk.of_same (h : SyncOk G S) (hs : ∀ x, SameFlags G (S x) (S' x)) : SyncOk G S' where
  sync r s hne σ := by
    rw [(hs r).rounds, (hs s).sentTo]
    exact h.sync r s hne σ
  flags r s hne σ t ht := by
    rw [(hs r).flags, (hs s).sentTo]
    exact h.flags r s hne σ t ht
  polled r hw m s hne hp := by
    rw [(hs r).waiting] at hw
    rw [(hs r).polled hw] at hp
    rw [(hs r).round, (hs r).bufs, (hs s).sentTo]
    exact h.polled r hw m s hne hp

theorem DataOk.of_same (h : DataOk G S) (hs : ∀ x, SameData G (S x) (S' x)) : DataOk G S' where
  data r s hne k κ hv hlo hhi o ho := by
    rw [(hs r).rounds] at hlo
    rw [(hs s).sentTo] at hhi
    rw [(hs r).data]
    exact h.data r s hne k κ hv hlo hhi o ho
  wrote s hw p hp b i hi hc := by
    rw [(hs s).waiting] at hw
    rw [(hs s).copied hw] at hc
    rw [(hs s).kind, (hs s).toSamePlace.rows] at hi
    rw [(hs s).kind, (hs s).call, (hs s).bufs, (hs s).round, (hs (dest (S s).kind s p)).data]
    exact h.wrote s hw p hp b i hi hc

theorem OutOk.of_same (h : OutOk G r R) (hs : SameOut R R') : OutOk G r R' := by
  have hrows : R'.rows G = R.rows G := by rw [RankState.rows, hs.call, RankState.rows]
  refine ⟨fun hw m o p v => ?_, fun hw m o => ?_, fun hk => ?_, ?_⟩
  · rw [hs.waiting] at hw
    rw [hs.kind, hs.call, hrows, hs.got hw]
    exact h.got hw m o p v
  · rw [hs.waiting] at hw
    rw [hs.kind, hs.call, hs.out, hs.stored hw]
    exact h.stored hw m o
  · rw [hs.kind] at hk
    rw [hrows, hs.call, hs.out]
    exact h.reduced hk
  · rw [hs.call, hs.out]
    exact h.finished

/-- A relation that every rank has to itself holds of all ranks when the stepping rank keeps
it. -/
theorem forall_update {P : RankState V → RankState V → Prop} (hrefl : ∀ R, P R R)
    (h : P (S r) R') (x : Rank) : P (S x) (Function.update S r R' x) := by
  rcases eq_or_ne x r with rfl | hne
  · simpa using h
  · simpa [hne] using hrefl (S x)

/-- The steps that change no flag, no buffer and no result. -/
def Act.quiet : Act → Bool
  | .pushStart _ _ | .spin _ _ | .arrive _ _ | .resetPhase _ _ | .waitStart _ | .enter _
  | .leave _ | .resetDone _ | .bump _ => true
  | _ => false

/-- Replacing a push CTA by one that is as much on its way keeps what was announced. -/
theorem announcedPhase_setPush {C : PushCta} (hb : b < R.pushCtas G)
    (h : C.pc.sent = (R.push p b).pc.sent) :
    (R.setPush p b C).announcedPhase G q ↔ R.announcedPhase G q := by
  refine forall_congr' fun b' => ?_
  rcases setPush_cases R p b q b' C with ⟨rfl, rfl, heq⟩ | ⟨-, heq⟩
  · rw [heq, h]
    rfl
  · rw [heq]
    rfl

/-- Who arrives and is not the last of its phase has not announced it. -/
theorem announcedPhase_arrive (hok : PushOk G R) (hp : p < 3) (hb : b < R.pushCtas G)
    (hpc : (R.push p b).pc = .copy) :
    ((R.setPhase p (R.phase R.bufs p + 1)).setPush p b { R.push p b with
      pc := if R.phase R.bufs p = R.pushCtas G - 1 then .flag else .exit }).announcedPhase G q ↔
      R.announcedPhase G q := by
  set C : PushCta := { R.push p b with
    pc := if R.phase R.bufs p = R.pushCtas G - 1 then .flag else .exit } with hC
  have hcases : ∀ b', (q = p ∧ b' = b ∧
      ((R.setPhase p (R.phase R.bufs p + 1)).setPush p b C).push q b' = C) ∨
      (¬ (q = p ∧ b' = b) ∧
        ((R.setPhase p (R.phase R.bufs p + 1)).setPush p b C).push q b' = R.push q b') :=
    fun b' => setPush_cases (R.setPhase p (R.phase R.bufs p + 1)) p b q b' C
  rcases eq_or_ne q p with rfl | hqp
  · have hold : ¬ R.announcedPhase G q := fun h => by
      have := h b hb
      simp [hpc, PushPc.sent] at this
    refine iff_of_false (fun hnew => ?_) hold
    -- all others have arrived, so this CTA is the last one
    have harr : arrivals (R.pushCtas G) (Function.update (R.arrivedAt q) b true) =
        arrivals (R.pushCtas G) (R.arrivedAt q) + 1 :=
      arrivals_succ hb (by rw [RankState.arrivedAt, hpc]; rfl) (by simp) fun b' _ hne => by
        simp [hne]
    have hfull : arrivals (R.pushCtas G) (Function.update (R.arrivedAt q) b true) =
        R.pushCtas G := by
      refine arrivals_eq_iff.mpr fun b' hb' => ?_
      rcases eq_or_ne b' b with rfl | hne
      · simp
      · rw [Function.update_of_ne hne]
        have hsent := hnew b' hb'
        rcases hcases b' with ⟨-, hbb, -⟩ | ⟨-, heq⟩
        · exact absurd hbb hne
        · rw [heq] at hsent
          exact PushPc.arrived_of_sent hsent
    have hlast : R.phase R.bufs q = R.pushCtas G - 1 := by
      rw [(hok.phase_eq hp hb (by rw [hpc]; rfl)).1]
      omega
    have hself := hnew b hb
    rcases hcases b with ⟨-, -, heq⟩ | ⟨hne, -⟩
    · rw [heq, hC, if_pos hlast] at hself
      simp [PushPc.sent] at hself
    · exact hne ⟨rfl, rfl⟩
  · refine forall_congr' fun b' => ?_
    rcases hcases b' with ⟨hqp', -, -⟩ | ⟨-, heq⟩
    · exact absurd hqp' hqp
    · rw [heq]
      rfl

/-- All of it stays. -/
structure SameView (G : Setup V) (R R' : RankState V) : Prop where
  flags : SameFlags G R R'
  data : SameData G R R'
  out : SameOut R R'

theorem SameView.refl (G : Setup V) (R : RankState V) : SameView G R R :=
  ⟨⟨SamePlace.refl G R, rfl, fun _ _ => rfl⟩, ⟨SamePlace.refl G R, rfl, fun _ _ _ => rfl⟩,
    ⟨rfl, rfl, rfl, rfl, fun _ _ => rfl, fun _ _ => rfl⟩⟩

/-- A step of a push kernel that copies nothing and announces nothing. -/
theorem sameView_of_pushing (hw : R.waiting = false)
    (hsame : R'.call = R.call ∧ R'.kind = R.kind ∧ R'.waiting = R.waiting ∧ R'.flags = R.flags ∧
      R'.data = R.data ∧ R'.out = R.out)
    (hcopied : ∀ p b, (R'.push p b).copied = (R.push p b).copied)
    (hann : ∀ p < 3, R'.announcedPhase G p ↔ R.announcedPhase G p) : SameView G R R' := by
  obtain ⟨hcall, hkind, hwait, hflags, hdata, hout⟩ := hsame
  have hplace : SamePlace G R R' := ⟨hcall, hkind, hwait, fun _ => hann⟩
  exact ⟨⟨hplace, hflags, fun h => by simp [hw] at h⟩, ⟨hplace, hdata, fun _ => hcopied⟩,
    ⟨hcall, hkind, hwait, hout, fun h => by simp [hw] at h, fun h => by simp [hw] at h⟩⟩

/-- A step of a waiting kernel that sees no flag, loads nothing and stores nothing. -/
theorem sameView_of_waiting (hw : R.waiting = true)
    (hsame : R'.call = R.call ∧ R'.kind = R.kind ∧ R'.waiting = R.waiting ∧ R'.flags = R.flags ∧
      R'.data = R.data ∧ R'.out = R.out)
    (hview : ∀ m, (R'.wait m).polled = (R.wait m).polled ∧ (R'.wait m).got = (R.wait m).got ∧
      (R'.wait m).stored = (R.wait m).stored) : SameView G R R' := by
  obtain ⟨hcall, hkind, hwait, hflags, hdata, hout⟩ := hsame
  have hplace : SamePlace G R R' := ⟨hcall, hkind, hwait, fun h => by simp [hw] at h⟩
  exact ⟨⟨hplace, hflags, fun _ m => (hview m).1⟩, ⟨hplace, hdata, fun h => by simp [hw] at h⟩,
    ⟨hcall, hkind, hwait, hout, fun _ m => (hview m).2.1, fun _ m => (hview m).2.2⟩⟩

theorem copied_setPush {C : PushCta} (h : C.copied = (R.push p b).copied) (p' b' : ℕ) :
    ((R.setPush p b C).push p' b').copied = (R.push p' b').copied := by
  rcases setPush_cases R p b p' b' C with ⟨rfl, rfl, heq⟩ | ⟨-, heq⟩
  · rw [heq, h]
  · rw [heq]

theorem copied_setPhase_setPush (R : RankState V) (q v p b : ℕ) (pc : PushPc) (p' b' : ℕ) :
    (((R.setPhase q v).setPush p b { R.push p b with pc := pc }).push p' b').copied =
      (R.push p' b').copied := by
  rcases setPush_cases (R.setPhase q v) p b p' b' { R.push p b with pc := pc } with
    ⟨rfl, rfl, heq⟩ | ⟨-, heq⟩
  · rw [heq]
  · rw [heq]
    rfl

theorem view_setWait {C : WaitCta V} (h : C.polled = (R.wait m).polled ∧
    C.got = (R.wait m).got ∧ C.stored = (R.wait m).stored) (m' : ℕ) :
    ((R.setWait m C).wait m').polled = (R.wait m').polled ∧
      ((R.setWait m C).wait m').got = (R.wait m').got ∧
      ((R.setWait m C).wait m').stored = (R.wait m').stored := by
  rcases setWait_cases R m m' C with ⟨rfl, heq⟩ | ⟨-, heq⟩
  · rw [heq]
    exact h
  · rw [heq]
    exact ⟨rfl, rfl, rfl⟩

/-- A quiet step changes nothing of what the ranks know of each other. -/
theorem sameView_of_quiet (hok : RankOk G r (S r)) {a : Act} (hq : a.quiet = true)
    (hs : step G S r a = some S') (x : Rank) : SameView G (S x) (S' x) := by
  have own : ∀ R', SameView G (S r) R' → SameView G (S x) (Function.update S r R' x) :=
    fun R' h => forall_update (P := SameView G) (SameView.refl G) h x
  cases a with
  | pushStart p b =>
    obtain ⟨hw, hp, hb, hs⟩ := push_of_step hs rfl
    simp only [pushStep] at hs
    split at hs
    · next hpc =>
      obtain rfl := Option.some.inj hs
      exact own _ (sameView_of_pushing hw ⟨rfl, rfl, rfl, rfl, rfl, rfl⟩ (copied_setPush rfl)
        fun q _ => announcedPhase_setPush hb (by rw [hpc]; rfl))
    · simp at hs
  | spin p b =>
    obtain ⟨hw, hp, hb, hs⟩ := push_of_step hs rfl
    simp only [pushStep] at hs
    split at hs
    · next hpc =>
      obtain rfl := Option.some.inj hs
      exact own _ (sameView_of_pushing hw ⟨rfl, rfl, rfl, rfl, rfl, rfl⟩ (copied_setPush rfl)
        fun q _ => announcedPhase_setPush hb (by rw [hpc.1]; rfl))
    · simp at hs
  | arrive p b =>
    obtain ⟨hw, hp, hb, hs⟩ := push_of_step hs rfl
    obtain ⟨hpush, -⟩ := hok.pushing hw
    simp only [pushStep] at hs
    split at hs
    · next hpc =>
      obtain rfl := Option.some.inj hs
      -- the arrival is counted, but the phase is not announced before its last CTA
      refine own _ (sameView_of_pushing hw ⟨rfl, rfl, rfl, rfl, rfl, rfl⟩ (fun p' b' => ?_)
        fun q _ => announcedPhase_arrive hpush hp hb hpc.1)
      exact copied_setPhase_setPush (S r) p ((S r).phase (S r).bufs p + 1) p b _ p' b'
    · simp at hs
  | resetPhase p b =>
    obtain ⟨hw, hp, hb, hs⟩ := push_of_step hs rfl
    simp only [pushStep] at hs
    split at hs
    · next q hpc =>
      obtain rfl := Option.some.inj hs
      refine own _ (sameView_of_pushing hw ⟨rfl, rfl, rfl, rfl, rfl, rfl⟩ (fun p' b' => ?_)
        fun q' _ => ?_)
      · exact copied_setPhase_setPush (S r) q 0 p b _ p' b'
      · -- the counter that is reset belongs to a phase that has been announced
        refine announcedPhase_setPush (R := (S r).setPhase q 0) hb ?_
        change _ = ((S r).push p b).pc.sent
        rw [hpc]
        simp only
        split <;> rfl
    · simp at hs
  | waitStart m =>
    obtain ⟨hw, hm, R', hR, rfl⟩ := wait_of_step hs rfl rfl
    simp only [waitStep] at hR
    split at hR
    · obtain rfl := Option.some.inj hR
      exact own _ (sameView_of_waiting hw ⟨rfl, rfl, rfl, rfl, rfl, rfl⟩
        (view_setWait ⟨rfl, rfl, rfl⟩))
    · simp at hR
  | enter m =>
    obtain ⟨hw, hm, R', hR, rfl⟩ := wait_of_step hs rfl rfl
    simp only [waitStep] at hR
    split at hR
    · obtain rfl := Option.some.inj hR
      exact own _ (sameView_of_waiting hw ⟨rfl, rfl, rfl, rfl, rfl, rfl⟩
        (view_setWait ⟨rfl, rfl, rfl⟩))
    · simp at hR
  | leave m =>
    obtain ⟨hw, hm, R', hR, rfl⟩ := wait_of_step hs rfl rfl
    simp only [waitStep] at hR
    split at hR
    · split at hR
      · obtain rfl := Option.some.inj hR
        exact own _ (sameView_of_waiting hw ⟨rfl, rfl, rfl, rfl, rfl, rfl⟩
          (view_setWait ⟨rfl, rfl, rfl⟩))
      · obtain rfl := Option.some.inj hR
        exact own _ (sameView_of_waiting hw ⟨rfl, rfl, rfl, rfl, rfl, rfl⟩
          (view_setWait ⟨rfl, rfl, rfl⟩))
    · simp at hR
  | resetDone m =>
    obtain ⟨hw, hm, R', hR, rfl⟩ := wait_of_step hs rfl rfl
    simp only [waitStep] at hR
    split at hR
    · obtain rfl := Option.some.inj hR
      exact own _ (sameView_of_waiting hw ⟨rfl, rfl, rfl, rfl, rfl, rfl⟩
        (view_setWait ⟨rfl, rfl, rfl⟩))
    · simp at hR
  | bump m =>
    obtain ⟨hw, hm, R', hR, rfl⟩ := wait_of_step hs rfl rfl
    simp only [waitStep] at hR
    split at hR
    · obtain rfl := Option.some.inj hR
      exact own _ (sameView_of_waiting hw ⟨rfl, rfl, rfl, rfl, rfl, rfl⟩
        (view_setWait ⟨rfl, rfl, rfl⟩))
    · simp at hR
  | copy _ _ _ | flag _ _ | poll _ _ | load _ _ _ | store _ _ | next => simp [Act.quiet] at hq

/-! ### Steps that reach a peer -/

/-- What a copy does: the CTA notes it, and the destination receives the chunk. -/
theorem copy_of_step (hs : step G S r (.copy p b i) = some S') :
    (S r).waiting = false ∧ p < 3 ∧ b < (S r).pushCtas G ∧ ((S r).push p b).pc = .copy ∧
      i < G.chunks (S r).kind ((S r).rows G) ∧
      S' r = (S r).setPush p b { (S r).push p b with
        copied := Function.update ((S r).push p b).copied i true } ∧
      S' (dest (S r).kind r p) = (S (dest (S r).kind r p)).receive (S r).bufs
        (G.base (slotOf (S r).kind ((S r).push p b).n) r +
          G.offset (S r).kind (pushSlice (S r).kind r p) i)
        ((S r).message G r (G.offset (S r).kind (pushSlice (S r).kind r p) i)) ∧
      ∀ x, x ≠ r → x ≠ dest (S r).kind r p → S' x = S x := by
  obtain ⟨hw, hp, hb, hs⟩ := push_of_step hs rfl
  have hd := dest_ne (S r).kind r hp
  simp only [pushStep] at hs
  split at hs
  · next hpc =>
    obtain rfl := Option.some.inj hs
    refine ⟨hw, hp, hb, hpc.1, hpc.2.1, ?_, ?_, fun x hx hx' => ?_⟩
    · rw [Function.update_of_ne hd.symm, Function.update_self]
    · rw [Function.update_self, Function.update_of_ne hd]
    · rw [Function.update_of_ne hx', Function.update_of_ne hx]
  · simp at hs

/-- What storing a flag does: the CTA goes on, and the destination receives the flag. -/
theorem flag_of_step (hs : step G S r (.flag p b) = some S') :
    (S r).waiting = false ∧ p < 3 ∧ b < (S r).pushCtas G ∧ ((S r).push p b).pc = .flag ∧
      S' r = (S r).setPush p b { (S r).push p b with
        pc := if p = 2 then .reset 0 else .exit } ∧
      S' (dest (S r).kind r p) = (S (dest (S r).kind r p)).receiveFlag (S r).bufs
        (flagIdx (slotOf (S r).kind ((S r).push p b).n) r)
        (seqOf (S r).kind ((S r).push p b).n) ∧
      ∀ x, x ≠ r → x ≠ dest (S r).kind r p → S' x = S x := by
  obtain ⟨hw, hp, hb, hs⟩ := push_of_step hs rfl
  have hd := dest_ne (S r).kind r hp
  simp only [pushStep] at hs
  split at hs
  · next hpc =>
    obtain rfl := Option.some.inj hs
    refine ⟨hw, hp, hb, hpc, ?_, ?_, fun x hx hx' => ?_⟩
    · rw [Function.update_of_ne hd.symm, Function.update_self]
    · rw [Function.update_self, Function.update_of_ne hd]
    · rw [Function.update_of_ne hx', Function.update_of_ne hx]
  · simp at hs

/-- A relation that every rank has to itself holds of all ranks when the stepping rank and its
destination keep it. -/
theorem forall_peer {P : RankState V → RankState V → Prop} (hrefl : ∀ R, P R R)
    (hr : P (S r) (S' r)) (hd : P (S d) (S' d)) (ho : ∀ x, x ≠ r → x ≠ d → S' x = S x)
    (x : Rank) : P (S x) (S' x) := by
  rcases eq_or_ne x r with rfl | hx
  · exact hr
  · rcases eq_or_ne x d with rfl | hx'
    · exact hd
    · rw [ho x hx hx']
      exact hrefl _

end AllReduce

end VllmMoet
