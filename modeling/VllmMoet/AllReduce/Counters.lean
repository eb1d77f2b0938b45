import VllmMoet.AllReduce.Rounds
import VllmMoet.Lib.Arrivals

/-!
# The counters of a rank

What holds of one rank's stream whatever the other ranks do: the CTAs of a push kernel and
its three phase counters (`PushOk`), the CTAs of a waiting kernel and its done and call
counters (`WaitOk`). A counter counts the CTAs that have arrived; the CTA that finds all the
others counted is the last one, and it alone stores the flag, resets the counters and
increments the call counter. So every CTA of a kernel reads the same call counter, and every
kernel finds its counters at zero.
-/

namespace VllmMoet

namespace AllReduce

variable {V : Type*} {G : Setup V} {R : RankState V} {r : Rank} {p b q m : ℕ}

/-- The CTA has incremented its phase's counter. -/
def PushPc.arrived : PushPc → Bool
  | .flag | .reset _ | .exit => true
  | .start | .spin | .copy => false

/-- The CTA has found the previous phase complete. -/
def PushPc.passed : PushPc → Bool
  | .copy | .flag | .reset _ | .exit => true
  | .start | .spin => false

/-- The CTA is the last of its phase, and is not done. -/
def PushPc.final : PushPc → Bool
  | .flag | .reset _ => true
  | .start | .spin | .copy | .exit => false

/-- The CTA has arrived and has no flag to store any more. -/
def PushPc.sent : PushPc → Bool
  | .reset _ | .exit => true
  | .start | .spin | .copy | .flag => false

/-- The CTA has stored all its chunks of the result and incremented the done counter. -/
def WaitPc.arrived : WaitPc → Bool
  | .reset | .bump | .exit => true
  | .start | .poll | .sum => false

theorem PushPc.arrived_of_sent {pc : PushPc} (h : pc.sent = true) : pc.arrived = true := by
  cases pc <;> simp_all [PushPc.sent, PushPc.arrived]

theorem PushPc.passed_of_arrived {pc : PushPc} (h : pc.arrived = true) : pc.passed = true := by
  cases pc <;> simp_all [PushPc.arrived, PushPc.passed]

/-- The CTAs of phase `q` that have arrived. -/
def RankState.arrivedAt (R : RankState V) (q b : ℕ) : Bool := (R.push q b).pc.arrived

/-- The phase counters when the first `j` of them have been reset: the others count the
arrivals. Resetting begins when the last phase's flag is stored, and ends before the kernel
does. -/
structure PhasesAt (G : Setup V) (R : RankState V) (j : ℕ) : Prop where
  value : ∀ q < 3, R.phase R.bufs q =
    if q < j then 0 else arrivals (R.pushCtas G) (R.arrivedAt q)
  begun : 0 < j → ∀ b < R.pushCtas G, (R.push 2 b).pc.sent = true
  resetting : ∀ b < R.pushCtas G, ∀ q, (R.push 2 b).pc = .reset q → q = j
  ended : (∀ b < R.pushCtas G, (R.push 2 b).pc = .exit) → j = 3

/-- The CTAs of a push kernel and its phase counters. -/
structure PushOk (G : Setup V) (R : RankState V) : Prop where
  n : ∀ p b, (R.push p b).pc ≠ .start → (R.push p b).n = nCalls G R.bufs R.call % 2 ^ 32
  copied : ∀ p b, (R.push p b).pc.arrived = true → ∀ i < G.chunks R.kind (R.rows G),
    owns (R.pushCtas G) b i → (R.push p b).copied i = true
  passed : ∀ p < 2, ∀ b < R.pushCtas G, (R.push (p + 1) b).pc.passed = true →
    ∀ b' < R.pushCtas G, R.arrivedAt p b' = true
  last : ∀ p < 3, ∀ b < R.pushCtas G, (R.push p b).pc.final = true →
    ∀ b' < R.pushCtas G, b' ≠ b → (R.push p b').pc = .exit
  reset : ∀ p b q, (R.push p b).pc = .reset q → p = 2 ∧ q < 3
  counts : ∃ j ≤ 3, PhasesAt G R j

/-- The CTAs of a waiting kernel, its done counter and the call counter. -/
structure WaitOk (G : Setup V) (r : Rank) (R : RankState V) : Prop where
  n : ∀ m, (R.wait m).pc ≠ .start → (R.wait m).n = nCalls G R.bufs R.call % 2 ^ 32
  polled : ∀ m, (R.wait m).pc ≠ .start → (R.wait m).pc ≠ .poll →
    ∀ s, s ≠ r → (R.wait m).polled s = true
  stored : ∀ m, (R.wait m).pc.arrived = true → ∀ o, G.writes R.kind r m o →
    (R.wait m).stored o = true
  last : ∀ m < R.rows G, (R.wait m).pc = .reset ∨ (R.wait m).pc = .bump →
    ∀ m' < R.rows G, m' ≠ m → (R.wait m').pc = .exit
  half : R.kind = .reduceScatter → ∀ m, (R.wait m).pc ≠ .reset ∧ (R.wait m).pc ≠ .bump
  halfCounters : R.kind = .reduceScatter →
    R.done R.bufs = 0 ∧ R.ctrl R.bufs = nCalls G R.bufs R.call % 2 ^ 32
  counted : R.kind ≠ .reduceScatter →
    (∃ m < R.rows G, (R.wait m).pc.arrived = false ∨ (R.wait m).pc = .reset) →
    R.done R.bufs = arrivals (R.rows G) fun m => (R.wait m).pc.arrived
  cleared : R.kind ≠ .reduceScatter →
    (∀ m < R.rows G, (R.wait m).pc = .bump ∨ (R.wait m).pc = .exit) → R.done R.bufs = 0
  before : R.kind ≠ .reduceScatter → (∃ m < R.rows G, (R.wait m).pc ≠ .exit) →
    R.ctrl R.bufs = nCalls G R.bufs R.call % 2 ^ 32
  after : R.kind ≠ .reduceScatter → (∀ m < R.rows G, (R.wait m).pc = .exit) →
    R.ctrl R.bufs = (nCalls G R.bufs R.call + 1) % 2 ^ 32

/-- One rank: its kernel belongs to its call, the counters of the other set rest, and the
kernel's own are as they should be. -/
structure RankOk (G : Setup V) (r : Rank) (R : RankState V) : Prop where
  valid : Valid G R.call R.kind
  others : ∀ σ, σ ≠ R.bufs → R.ctrl σ = nCalls G σ R.call % 2 ^ 32 ∧ R.done σ = 0 ∧
    ∀ p < 3, R.phase σ p = 0
  pushing : R.waiting = false → PushOk G R ∧
    R.ctrl R.bufs = nCalls G R.bufs R.call % 2 ^ 32 ∧ R.done R.bufs = 0
  waits : R.waiting = true → WaitOk G r R ∧ ∀ p < 3, R.phase R.bufs p = 0

/-- Memory that peers write, and the results, have no part in this. -/
theorem RankOk.setMemory (h : RankOk G r R) (data : Bufs → ℕ → V) (flags : Bufs → ℕ → ℕ)
    (out : ℕ → ℕ → V) : RankOk G r { R with data := data, flags := flags, out := out } where
  valid := h.valid
  others := h.others
  pushing hw := by
    obtain ⟨⟨hn, hcopied, hpassed, hlast, hreset, j, hj, hphase⟩, hctrl⟩ := h.pushing hw
    exact ⟨⟨hn, hcopied, hpassed, hlast, hreset, j, hj, hphase.value, hphase.begun,
      hphase.resetting, hphase.ended⟩, hctrl⟩
  waits hw := by
    obtain ⟨hk, hphase⟩ := h.waits hw
    exact ⟨⟨hk.n, hk.polled, hk.stored, hk.last, hk.half, hk.halfCounters, hk.counted, hk.cleared,
      hk.before, hk.after⟩, hphase⟩

theorem rows_pos (G : Setup V) (R : RankState V) : 0 < R.rows G := G.rows_pos _

theorem pushCtas_pos (G : Setup V) (R : RankState V) : 0 < R.pushCtas G := by
  have hrows := rows_pos G R
  have hchunks : 0 < G.chunks R.kind (R.rows G) := by
    cases R.kind
    · exact Nat.mul_pos hrows (rowCh_pos G)
    · exact Nat.mul_pos hrows G.sliceCh_pos
    · exact Nat.mul_pos hrows G.sliceCh_pos
  rw [RankState.pushCtas, Setup.ctas]
  exact Nat.lt_min.mpr ⟨by omega, G.maxCtas_pos⟩

/-- Every chunk of a push is some CTA's. -/
theorem exists_owner (G : Setup V) (R : RankState V) (i : ℕ) :
    ∃ b < R.pushCtas G, owns (R.pushCtas G) b i :=
  ⟨_, Nat.mod_lt _ (pushCtas_pos G R), rfl⟩

/-! ### The push kernel -/

@[simp] theorem setPush_push_self (R : RankState V) (p b : ℕ) (C : PushCta) :
    (R.setPush p b C).push p b = C := by
  simp [RankState.setPush]

theorem setPush_push_of_ne {p' b' : ℕ} (h : ¬ (p' = p ∧ b' = b)) (C : PushCta) :
    (R.setPush p b C).push p' b' = R.push p' b' := by
  rcases eq_or_ne p' p with rfl | hp
  · simp [RankState.setPush, show b' ≠ b from fun hb => h ⟨rfl, hb⟩]
  · simp [RankState.setPush, hp]

/-- Replacing one CTA changes no other. -/
theorem setPush_cases (R : RankState V) (p b p' b' : ℕ) (C : PushCta) :
    (p' = p ∧ b' = b ∧ (R.setPush p b C).push p' b' = C) ∨
      (¬ (p' = p ∧ b' = b) ∧ (R.setPush p b C).push p' b' = R.push p' b') := by
  rcases Classical.em (p' = p ∧ b' = b) with ⟨rfl, rfl⟩ | hne
  · exact .inl ⟨rfl, rfl, setPush_push_self R p' b' C⟩
  · exact .inr ⟨hne, setPush_push_of_ne hne C⟩

/-- A fresh push kernel that finds its counters at zero. -/
theorem pushOk_fresh (hpush : ∀ p b, R.push p b = {}) (hphase : ∀ p < 3, R.phase R.bufs p = 0) :
    PushOk G R where
  n p b h := by simp [hpush] at h
  copied p b h := by simp [hpush, PushPc.arrived] at h
  passed p _ b _ h := by simp [hpush, PushPc.passed] at h
  last p _ b _ h := by simp [hpush, PushPc.final] at h
  reset p b q h := by simp [hpush] at h
  counts := by
    refine ⟨0, Nat.zero_le _, fun q hq => ?_, fun h => absurd h (lt_irrefl 0), fun b _ q h => ?_,
      fun h => ?_⟩
    · rw [hphase q hq, if_neg (Nat.not_lt_zero q), arrivals_eq_zero fun b _ => ?_]
      simp [RankState.arrivedAt, hpush, PushPc.arrived]
    · simp [hpush] at h
    · have := h 0 (pushCtas_pos G R)
      simp [hpush] at this

/-- All CTAs of the earlier phases have arrived when one of the last phase has. -/
theorem PushOk.arrived_before (h : PushOk G R) (hb : b < R.pushCtas G)
    (hp : (R.push 2 b).pc.passed = true) (hq : q < 2) :
    ∀ b' < R.pushCtas G, R.arrivedAt q b' = true := by
  have h₁ := h.passed 1 (by decide) b hb hp
  rcases (show q = 0 ∨ q = 1 by omega) with rfl | rfl
  · exact h.passed 0 (by decide) b hb (PushPc.passed_of_arrived (h₁ b hb))
  · exact h₁

/-- The counter of a phase in which somebody has not arrived counts the arrivals. -/
theorem PushOk.phase_eq (h : PushOk G R) (hp : p < 3) (hb : b < R.pushCtas G)
    (ha : (R.push p b).pc.arrived = false) :
    R.phase R.bufs p = arrivals (R.pushCtas G) (R.arrivedAt p) ∧ PhasesAt G R 0 := by
  obtain ⟨j, hj, hphase⟩ := h.counts
  obtain rfl : j = 0 := by
    rcases Nat.eq_zero_or_pos j with rfl | hpos
    · rfl
    · -- once resetting has begun, everybody has arrived
      exfalso
      have hsent := hphase.begun hpos
      rcases (show p = 2 ∨ p < 2 by omega) with rfl | hlt
      · simp [PushPc.arrived_of_sent (hsent b hb)] at ha
      · have hall := h.arrived_before hb
          (PushPc.passed_of_arrived (PushPc.arrived_of_sent (hsent b hb))) hlt b hb
        simp [RankState.arrivedAt, ha] at hall
  exact ⟨by rw [hphase.value p hp, if_neg (Nat.not_lt_zero p)], hphase⟩

/-- A CTA moves on without arriving. -/
theorem PushOk.quiet (h : PushOk G R) {C : PushCta} (ho : (R.push p b).pc.arrived = false)
    (hC : C.pc.arrived = false)
    (hn : C.pc ≠ .start → C.n = nCalls G R.bufs R.call % 2 ^ 32)
    (hp : C.pc.passed = true → ∀ p', p' + 1 = p → ∀ b' < R.pushCtas G, R.arrivedAt p' b' = true) :
    PushOk G (R.setPush p b C) := by
  have hpc : ∀ p' b', (¬ (p' = p ∧ b' = b) ∧ (R.setPush p b C).push p' b' = R.push p' b') ∨
      (p' = p ∧ b' = b ∧ (R.setPush p b C).push p' b' = C) := fun p' b' =>
    (setPush_cases R p b p' b' C).symm
  have harr : ∀ q, (R.setPush p b C).arrivedAt q = R.arrivedAt q := by
    intro q
    funext b'
    rcases hpc q b' with ⟨-, heq⟩ | ⟨rfl, rfl, heq⟩
    · rw [RankState.arrivedAt, heq, RankState.arrivedAt]
    · rw [RankState.arrivedAt, heq, RankState.arrivedAt, hC, ho]
  -- a CTA that has arrived is another one, and as it was
  have hfinal : ∀ p' b', ((R.setPush p b C).push p' b').pc.arrived = true →
      (R.setPush p b C).push p' b' = R.push p' b' := by
    intro p' b' hf
    rcases hpc p' b' with ⟨-, heq⟩ | ⟨-, -, heq⟩
    · exact heq
    · rw [heq, hC] at hf
      simp at hf
  have hexit : ∀ p' b', (R.push p' b').pc = .exit → ((R.setPush p b C).push p' b').pc = .exit := by
    intro p' b' he
    rcases hpc p' b' with ⟨-, heq⟩ | ⟨rfl, rfl, -⟩
    · rw [heq, he]
    · simp [he, PushPc.arrived] at ho
  refine ⟨fun p' b' hs => ?_, fun p' b' ha => ?_, fun p' hp' b' hb' ha => ?_,
    fun p' hp' b' hb' hf => ?_, fun p' b' q hq => ?_, ?_⟩
  · rcases hpc p' b' with ⟨-, heq⟩ | ⟨-, -, heq⟩
    · rw [heq] at hs ⊢
      exact h.n p' b' hs
    · rw [heq] at hs ⊢
      exact hn hs
  · have heq := hfinal p' b' ha
    rw [heq] at ha ⊢
    exact h.copied p' b' ha
  · rw [harr]
    rcases hpc (p' + 1) b' with ⟨-, heq⟩ | ⟨hpp, -, heq⟩
    · rw [heq] at ha
      exact h.passed p' hp' b' hb' ha
    · rw [heq] at ha
      exact hp ha p' hpp
  · have ha : ((R.setPush p b C).push p' b').pc.arrived = true := by
      revert hf
      cases ((R.setPush p b C).push p' b').pc <;> simp [PushPc.final, PushPc.arrived]
    rw [hfinal p' b' ha] at hf
    exact fun b'' hb'' hne => hexit p' b'' (h.last p' hp' b' hb' hf b'' hb'' hne)
  · rw [hfinal p' b' (by rw [hq]; rfl)] at hq
    exact h.reset p' b' q hq
  · -- the counters have not moved: the arrivals are the same
    obtain ⟨j, hj, hphase⟩ := h.counts
    refine ⟨j, hj, fun q hq => ?_, fun hpos b' hb' => ?_, fun b' hb' q hq => ?_, fun hall => ?_⟩
    · rw [harr]
      exact hphase.value q hq
    · have hs := hphase.begun hpos b' hb'
      rcases hpc 2 b' with ⟨-, heq⟩ | ⟨rfl, rfl, -⟩
      · rwa [heq]
      · simp [PushPc.arrived_of_sent hs] at ho
    · rw [hfinal 2 b' (by rw [hq]; rfl)] at hq
      exact hphase.resetting b' hb' q hq
    · refine hphase.ended fun b' hb' => ?_
      have he := hall b' hb'
      rwa [hfinal 2 b' (by rw [he]; rfl)] at he

/-- A CTA that has started and moves on keeps its call counter and what it has copied. -/
theorem PushOk.keeps (h : PushOk G R) {c : PushPc} (hs : (R.push p b).pc ≠ .start)
    (hc : ∀ i < G.chunks R.kind (R.rows G), owns (R.pushCtas G) b i →
      (R.push p b).copied i = true) (p' b' : ℕ) :
    (((R.setPush p b { R.push p b with pc := c }).push p' b').pc ≠ .start →
      ((R.setPush p b { R.push p b with pc := c }).push p' b').n =
        nCalls G R.bufs R.call % 2 ^ 32) ∧
    (((R.setPush p b { R.push p b with pc := c }).push p' b').pc.arrived = true →
      ∀ i < G.chunks R.kind (R.rows G), owns (R.pushCtas G) b' i →
        ((R.setPush p b { R.push p b with pc := c }).push p' b').copied i = true) := by
  rcases setPush_cases R p b p' b' { R.push p b with pc := c } with ⟨-, rfl, heq⟩ | ⟨-, heq⟩
  · rw [heq]
    exact ⟨fun _ => h.n p b' hs, fun _ => hc⟩
  · rw [heq]
    exact ⟨h.n p' b', h.copied p' b'⟩

/-- The arrivals are as they were when a CTA that has arrived moves on. -/
theorem arrivedAt_setPush {C : PushCta} (ho : (R.push p b).pc.arrived = true)
    (hC : C.pc.arrived = true) (q : ℕ) : (R.setPush p b C).arrivedAt q = R.arrivedAt q := by
  funext b'
  rcases setPush_cases R p b q b' C with ⟨rfl, rfl, heq⟩ | ⟨-, heq⟩
  · rw [RankState.arrivedAt, heq, RankState.arrivedAt, ho, hC]
  · rw [RankState.arrivedAt, heq, RankState.arrivedAt]

theorem PushPc.arrived_of_final {pc : PushPc} (h : pc.final = true) : pc.arrived = true := by
  cases pc <;> simp_all [PushPc.final, PushPc.arrived]

/-- The last CTA of a phase moves on: only the phase counters need an argument, since all others
of the phase have exited. -/
theorem PushOk.moveLast (h : PushOk G R) (hp : p < 3) (hb : b < R.pushCtas G)
    (hf : (R.push p b).pc.final = true) {c : PushPc} (hc : c.sent = true) {φ : Bufs → ℕ → ℕ}
    (hreset : ∀ q, c = .reset q → p = 2 ∧ q < 3)
    (hcounts : ∃ j ≤ 3,
      PhasesAt G { R.setPush p b { R.push p b with pc := c } with phase := φ } j) :
    PushOk G { R.setPush p b { R.push p b with pc := c } with phase := φ } := by
  have hpa := PushPc.arrived_of_final hf
  have hkeeps := h.keeps (c := c) (fun hs => by simp [hs, PushPc.final] at hf) (h.copied p b hpa)
  have harr := arrivedAt_setPush (C := { R.push p b with pc := c }) hpa (PushPc.arrived_of_sent hc)
  have hcases := fun p' b' => setPush_cases R p b p' b' { R.push p b with pc := c }
  have hexit : ∀ b' < R.pushCtas G, b' ≠ b → (R.push p b').pc = .exit := h.last p hp b hb hf
  refine ⟨fun p' b' => (hkeeps p' b').1, fun p' b' => (hkeeps p' b').2,
    fun p' hp' b' hb' ha b'' hb'' => ?_, fun p' hp' b' hb' hf' b'' hb'' hne => ?_,
    fun p' b' q hq => ?_, hcounts⟩
  · refine (congrFun (harr p') b'').trans (h.passed p' hp' b' hb' ?_ b'' hb'')
    rcases hcases (p' + 1) b' with ⟨hpp, rfl, -⟩ | ⟨-, heq⟩
    · rw [hpp]
      exact PushPc.passed_of_arrived hpa
    · rwa [← heq]
  · change ((R.setPush p b _).push p' b'').pc = .exit
    change ((R.setPush p b _).push p' b').pc.final = true at hf'
    rcases hcases p' b'' with ⟨rfl, rfl, -⟩ | ⟨-, heq''⟩
    · rcases hcases p' b' with ⟨-, hbb, -⟩ | ⟨-, heq⟩
      · exact absurd hbb.symm hne
      · -- another last CTA of the phase would have seen this one exit
        rw [heq, hexit b' hb' hne.symm] at hf'
        simp [PushPc.final] at hf'
    · rw [heq'']
      rcases hcases p' b' with ⟨rfl, rfl, -⟩ | ⟨-, heq⟩
      · exact hexit b'' hb'' hne
      · rw [heq] at hf'
        exact h.last p' hp' b' hb' hf' b'' hb'' hne
  · change ((R.setPush p b _).push p' b').pc = .reset q at hq
    rcases hcases p' b' with ⟨rfl, -, heq⟩ | ⟨-, heq⟩
    · rw [heq] at hq
      exact hreset q hq
    · rw [heq] at hq
      exact h.reset p' b' q hq

/-- A CTA that has arrived and is not its phase's last has exited. -/
theorem PushPc.exit_of_arrived {pc : PushPc} (ha : pc.arrived = true) (hf : pc.final = false) :
    pc = .exit := by
  cases pc <;> simp_all [PushPc.arrived, PushPc.final]

/-- A CTA arrives: the one that finds all others counted stores the flag, the others exit. -/
theorem PushOk.arrive (h : PushOk G R) (hp : p < 3) (hb : b < R.pushCtas G)
    (hpc : (R.push p b).pc = .copy)
    (hc : ∀ i < G.chunks R.kind (R.rows G), owns (R.pushCtas G) b i →
      (R.push p b).copied i = true) :
    PushOk G ((R.setPhase p (R.phase R.bufs p + 1)).setPush p b { R.push p b with
      pc := if R.phase R.bufs p = R.pushCtas G - 1 then .flag else .exit }) := by
  obtain ⟨hphase, hzero⟩ := h.phase_eq hp hb (by rw [hpc]; rfl)
  set C : PushCta := { R.push p b with
    pc := if R.phase R.bufs p = R.pushCtas G - 1 then .flag else .exit } with hC
  set R' := (R.setPhase p (R.phase R.bufs p + 1)).setPush p b C with hR'
  have hCarr : C.pc.arrived = true := by
    rw [hC]
    split <;> rfl
  have hcases : ∀ p' b', (p' = p ∧ b' = b ∧ R'.push p' b' = C) ∨
      (¬ (p' = p ∧ b' = b) ∧ R'.push p' b' = R.push p' b') :=
    fun p' b' => setPush_cases (R.setPhase p (R.phase R.bufs p + 1)) p b p' b' C
  have hmono : ∀ p' b', R.arrivedAt p' b' = true → R'.arrivedAt p' b' = true := by
    intro p' b' ha
    rcases hcases p' b' with ⟨-, -, heq⟩ | ⟨-, heq⟩
    · rw [RankState.arrivedAt, heq, hCarr]
    · rwa [RankState.arrivedAt, heq]
  have hself : R'.arrivedAt p b = true := by
    rw [RankState.arrivedAt, hR', setPush_push_self, hCarr]
  have hother : ∀ b', b' ≠ b → R'.arrivedAt p b' = R.arrivedAt p b' := by
    intro b' hne
    rw [RankState.arrivedAt, hR', setPush_push_of_ne fun hx => hne hx.2]
    rfl
  have hsucc : arrivals (R.pushCtas G) (R'.arrivedAt p) =
      arrivals (R.pushCtas G) (R.arrivedAt p) + 1 :=
    arrivals_succ hb (by rw [RankState.arrivedAt, hpc]; rfl) hself fun b' _ hne => hother b' hne
  have hkeeps := h.keeps (c := C.pc) (by simp [hpc]) hc
  refine ⟨fun p' b' => (hkeeps p' b').1, fun p' b' => (hkeeps p' b').2,
    fun p' hp' b' hb' ha b'' hb'' => ?_, fun p' hp' b' hb' hf b'' hb'' hne => ?_,
    fun p' b' q hq => ?_, 0, Nat.zero_le _, fun q hq => ?_,
    fun hpos => absurd hpos (lt_irrefl 0), fun b' hb' q hq => ?_, fun hall => ?_⟩
  · refine hmono p' b'' (h.passed p' hp' b' hb' ?_ b'' hb'')
    rcases hcases (p' + 1) b' with ⟨hpp, rfl, -⟩ | ⟨-, heq⟩
    · rw [hpp, hpc]
      rfl
    · rwa [heq] at ha
  · have hnot : ∀ x < R.pushCtas G, (R.push p x).pc.final = true → False := by
      -- a last CTA would have seen this one counted
      intro x hx hfin
      rcases eq_or_ne x b with rfl | hxb
      · simp [hpc, PushPc.final] at hfin
      · have := h.last p hp x hx hfin b hb hxb.symm
        simp [hpc] at this
    rcases hcases p' b' with ⟨rfl, rfl, heq⟩ | ⟨hne', heq⟩
    · have hlast : R.phase R.bufs p' = R.pushCtas G - 1 := by
        by_contra hnl
        simp [heq, hC, hnl, PushPc.final] at hf
      have hall := arrived_of_last hb (by rw [RankState.arrivedAt, hpc]; rfl)
        (hphase.symm.trans hlast) b'' hb'' hne
      rcases hcases p' b'' with ⟨-, hbb, -⟩ | ⟨-, heq'⟩
      · exact absurd hbb hne
      · rw [heq']
        refine PushPc.exit_of_arrived hall ?_
        exact Bool.eq_false_iff.mpr fun hfin => hnot b'' hb'' hfin
    · rw [heq] at hf
      have hpp : p' ≠ p := by
        rintro rfl
        exact hnot b' hb' hf
      rcases hcases p' b'' with ⟨hpp', -, -⟩ | ⟨-, heq'⟩
      · exact absurd hpp' hpp
      · rw [heq']
        exact h.last p' hp' b' hb' hf b'' hb'' hne
  · rcases hcases p' b' with ⟨-, -, heq⟩ | ⟨-, heq⟩
    · rw [heq, hC] at hq
      simp only at hq
      split at hq <;> simp at hq
    · rw [heq] at hq
      exact h.reset p' b' q hq
  · rw [if_neg (Nat.not_lt_zero q)]
    change (R.setPhase p (R.phase R.bufs p + 1)).phase R.bufs q = arrivals (R.pushCtas G) _
    rcases eq_or_ne q p with rfl | hqp
    · rw [hsucc, ← hphase]
      simp [RankState.setPhase]
    · have harr : R'.arrivedAt q = R.arrivedAt q := by
        funext b'
        rw [RankState.arrivedAt, hR', setPush_push_of_ne fun hx => hqp hx.1]
        rfl
      have hval := hzero.value q hq
      rw [if_neg (Nat.not_lt_zero q)] at hval
      rw [harr, ← hval]
      simp [RankState.setPhase, hqp]
  · rcases hcases 2 b' with ⟨-, -, heq⟩ | ⟨-, heq⟩
    · rw [heq, hC] at hq
      simp only at hq
      split at hq <;> simp at hq
    · rw [heq] at hq
      exact hzero.resetting b' hb' q hq
  · exfalso
    rcases eq_or_ne p 2 with rfl | hp2
    · have hfull : arrivals (R.pushCtas G) (R'.arrivedAt 2) = R.pushCtas G :=
        arrivals_eq_iff.mpr fun b' hb' => by rw [RankState.arrivedAt, hall b' hb']; rfl
      have hlast : R.phase R.bufs 2 = R.pushCtas G - 1 := by
        rw [hphase]
        omega
      have := hall b hb
      rw [hR', setPush_push_self, hC] at this
      simp [hlast] at this
    · have := hzero.ended fun b' hb' => by
        have hb'' := hall b' hb'
        rwa [hR', setPush_push_of_ne fun hx => hp2 hx.1.symm] at hb''
      simp at this

/-- The last CTA of a phase stores the flag: all others of the phase have exited. -/
theorem PushOk.flag (h : PushOk G R) (hp : p < 3) (hb : b < R.pushCtas G)
    (hpc : (R.push p b).pc = .flag) :
    PushOk G (R.setPush p b { R.push p b with pc := if p = 2 then .reset 0 else .exit }) := by
  set c : PushPc := if p = 2 then .reset 0 else .exit with hc
  have hsent : c.sent = true := by
    rw [hc]
    split <;> rfl
  have hcases := fun b' => setPush_cases R p b 2 b' { R.push p b with pc := c }
  have harr := arrivedAt_setPush (C := { R.push p b with pc := c }) (by rw [hpc]; rfl)
    (PushPc.arrived_of_sent hsent)
  obtain ⟨j, hj, hphase⟩ := h.counts
  have hj0 : p = 2 → j = 0 := by
    rintro rfl
    by_contra hne
    have := hphase.begun (Nat.pos_of_ne_zero hne) b hb
    simp [hpc, PushPc.sent] at this
  refine h.moveLast hp hb (by rw [hpc]; rfl) hsent (φ := R.phase) (fun q hq => ?_)
    ⟨j, hj, fun q hq => ?_, fun hpos b' hb' => ?_, fun b' hb' q hq => ?_, fun hall => ?_⟩
  · rw [hc] at hq
    split at hq
    · next hp2 =>
      obtain rfl := PushPc.reset.inj hq
      exact ⟨hp2, by decide⟩
    · simp at hq
  · exact (hphase.value q hq).trans (by rw [← harr q]; rfl)
  · rcases hcases b' with ⟨hp2, -, -⟩ | ⟨-, heq⟩
    · exact absurd hpos (by rw [hj0 hp2.symm]; exact lt_irrefl 0)
    · exact (congrArg (fun C => C.pc.sent) heq).trans (hphase.begun hpos b' hb')
  · change ((R.setPush p b _).push 2 b').pc = .reset q at hq
    rcases hcases b' with ⟨hp2, -, heq⟩ | ⟨-, heq⟩
    · rw [heq, hc, if_pos hp2.symm] at hq
      rw [hj0 hp2.symm]
      exact (PushPc.reset.inj hq).symm
    · rw [heq] at hq
      exact hphase.resetting b' hb' q hq
  · refine hphase.ended fun b' hb' => ?_
    have he : ((R.setPush p b _).push 2 b').pc = .exit := hall b' hb'
    rcases hcases b' with ⟨hp2, -, heq⟩ | ⟨-, heq⟩
    · rw [heq, hc, if_pos hp2.symm] at he
      simp at he
    · rwa [heq] at he

/-- The last CTA of the last phase resets a counter. -/
theorem PushOk.resetPhase (h : PushOk G R) (hp : p < 3) (hb : b < R.pushCtas G)
    (hpc : (R.push p b).pc = .reset q) :
    PushOk G ((R.setPhase q 0).setPush p b { R.push p b with
      pc := if q = 2 then .exit else .reset (q + 1) }) := by
  obtain ⟨rfl, hq3⟩ := h.reset p b q hpc
  set c : PushPc := if q = 2 then .exit else .reset (q + 1) with hc
  have hsent : c.sent = true := by
    rw [hc]
    split <;> rfl
  have hcases := fun b' => setPush_cases R 2 b 2 b' { R.push 2 b with pc := c }
  have harr := arrivedAt_setPush (C := { R.push 2 b with pc := c }) (by rw [hpc]; rfl)
    (PushPc.arrived_of_sent hsent)
  have hexit : ∀ b' < R.pushCtas G, b' ≠ b → (R.push 2 b').pc = .exit :=
    h.last 2 hp b hb (by rw [hpc]; rfl)
  obtain ⟨j, hj, hphase⟩ := h.counts
  obtain rfl := hphase.resetting b hb q hpc
  refine h.moveLast hp hb (by rw [hpc]; rfl) hsent (φ := (R.setPhase q 0).phase) (fun q' hq' => ?_)
    ⟨q + 1, hq3, fun q' hq' => ?_, fun _ b' hb' => ?_, fun b' hb' q' hq' => ?_, fun hall => ?_⟩
  · rw [hc] at hq'
    split at hq'
    · simp at hq'
    · obtain rfl := PushPc.reset.inj hq'
      exact ⟨rfl, by omega⟩
  · have hval := hphase.value q' hq'
    rw [← harr q'] at hval
    change (R.setPhase q 0).phase R.bufs q' = _
    rcases eq_or_ne q' q with rfl | hne
    · simp [RankState.setPhase]
    · rw [show (R.setPhase q 0).phase R.bufs q' = R.phase R.bufs q' by
        simp [RankState.setPhase, hne], hval]
      rcases Nat.lt_or_ge q' q with hlt | hge
      · rw [if_pos hlt, if_pos (by omega)]
      · rw [if_neg (by omega), if_neg (by omega)]
        rfl
  · change ((R.setPush 2 b _).push 2 b').pc.sent = true
    rcases hcases b' with ⟨-, -, heq⟩ | ⟨hne, heq⟩
    · rw [heq, hsent]
    · rw [heq, hexit b' hb' fun hbb => hne ⟨rfl, hbb⟩]
      rfl
  · change ((R.setPush 2 b _).push 2 b').pc = .reset q' at hq'
    rcases hcases b' with ⟨-, -, heq⟩ | ⟨hne, heq⟩
    · rw [heq, hc] at hq'
      simp only at hq'
      split at hq'
      · simp at hq'
      · exact (PushPc.reset.inj hq').symm
    · rw [heq, hexit b' hb' fun hbb => hne ⟨rfl, hbb⟩] at hq'
      simp at hq'
  · have he : ((R.setPush 2 b _).push 2 b).pc = .exit := hall b hb
    rw [setPush_push_self, hc] at he
    simp only at he
    split at he
    · next hq2 => rw [hq2]
    · simp at he

/-- When all CTAs of a push kernel have exited, its counters are reset. -/
theorem PushOk.phase_eq_zero (h : PushOk G R)
    (hall : ∀ p < 3, ∀ b < R.pushCtas G, (R.push p b).pc = .exit) :
    ∀ p < 3, R.phase R.bufs p = 0 := by
  obtain ⟨j, -, hphase⟩ := h.counts
  obtain rfl := hphase.ended (hall 2 (by decide))
  exact fun p hp => by rw [hphase.value p hp, if_pos hp]

/-- When a counter is reset, every CTA of every phase has arrived. -/
theorem PushOk.arrived_of_reset (h : PushOk G R) (hp : p < 3) (hb : b < R.pushCtas G)
    (hpc : (R.push p b).pc = .reset q) :
    ∀ p' < 3, ∀ b' < R.pushCtas G, R.arrivedAt p' b' = true := by
  obtain ⟨rfl, -⟩ := h.reset p b q hpc
  intro p' hp' b' hb'
  rcases (show p' = 2 ∨ p' < 2 by omega) with rfl | hlt
  · rcases eq_or_ne b' b with rfl | hne
    · rw [RankState.arrivedAt, hpc]
      rfl
    · rw [RankState.arrivedAt, h.last 2 hp b hb (by rw [hpc]; rfl) b' hb' hne]
      rfl
  · exact h.arrived_before hb (by rw [hpc]; rfl) hlt b' hb'

/-! ### The waiting kernel -/

/-- Replacing one waiting CTA changes no other. -/
theorem setWait_cases (R : RankState V) (m m' : ℕ) (C : WaitCta V) :
    (m' = m ∧ (R.setWait m C).wait m' = C) ∨
      (m' ≠ m ∧ (R.setWait m C).wait m' = R.wait m') := by
  rcases eq_or_ne m' m with rfl | hne
  · exact .inl ⟨rfl, by simp [RankState.setWait]⟩
  · exact .inr ⟨hne, by simp [RankState.setWait, hne]⟩

/-- A fresh waiting kernel that finds its counters as a push kernel leaves them. -/
theorem waitOk_fresh (hwait : ∀ m, R.wait m = {}) (hdone : R.done R.bufs = 0)
    (hctrl : R.ctrl R.bufs = nCalls G R.bufs R.call % 2 ^ 32) : WaitOk G r R where
  n m h := by simp [hwait] at h
  polled m h := by simp [hwait] at h
  stored m h := by simp [hwait, WaitPc.arrived] at h
  last m _ h := by simp [hwait] at h
  half _ m := by simp [hwait]
  halfCounters _ := ⟨hdone, hctrl⟩
  counted _ _ := by
    rw [hdone, arrivals_eq_zero fun m _ => ?_]
    simp [hwait, WaitPc.arrived]
  cleared _ _ := hdone
  before _ _ := hctrl
  after _ h := by
    have := h 0 (rows_pos G R)
    simp [hwait] at this

/-- A CTA moves on without arriving. -/
theorem WaitOk.quiet (h : WaitOk G r R) {C : WaitCta V} (hm : m < R.rows G)
    (ho : (R.wait m).pc.arrived = false) (hC : C.pc.arrived = false)
    (hn : C.pc ≠ .start → C.n = nCalls G R.bufs R.call % 2 ^ 32)
    (hp : C.pc ≠ .start → C.pc ≠ .poll → ∀ s, s ≠ r → C.polled s = true) :
    WaitOk G r (R.setWait m C) := by
  have hcases := fun m' => setWait_cases R m m' C
  have hexit : (R.wait m).pc ≠ .exit := by
    intro he
    simp [he, WaitPc.arrived] at ho
  have harr : (fun m' => ((R.setWait m C).wait m').pc.arrived) =
      fun m' => (R.wait m').pc.arrived := by
    funext m'
    rcases hcases m' with ⟨rfl, heq⟩ | ⟨-, heq⟩
    · rw [heq, hC, ho]
    · rw [heq]
  -- a CTA that has arrived is another one, and as it was
  have hfinal : ∀ m', ((R.setWait m C).wait m').pc.arrived = true →
      (R.setWait m C).wait m' = R.wait m' := by
    intro m' hf
    rcases hcases m' with ⟨-, heq⟩ | ⟨-, heq⟩
    · rw [heq, hC] at hf
      simp at hf
    · exact heq
  refine ⟨fun m' hs => ?_, fun m' hs hs' => ?_, fun m' ha => ?_, fun m' hm' hl m'' hm'' hne => ?_,
    fun hk m' => ?_, h.halfCounters, fun hk _ => ?_, fun _ hall => ?_, fun hk _ => ?_,
    fun _ hall => ?_⟩
  · rcases hcases m' with ⟨-, heq⟩ | ⟨-, heq⟩
    · rw [heq] at hs ⊢
      exact hn hs
    · rw [heq] at hs ⊢
      exact h.n m' hs
  · rcases hcases m' with ⟨-, heq⟩ | ⟨-, heq⟩
    · rw [heq] at hs hs' ⊢
      exact hp hs hs'
    · rw [heq] at hs hs' ⊢
      exact h.polled m' hs hs'
  · have heq := hfinal m' ha
    rw [heq] at ha ⊢
    exact h.stored m' ha
  · have heq := hfinal m' (by rcases hl with hl | hl <;> rw [hl] <;> rfl)
    rw [heq] at hl
    have he := h.last m' hm' hl m'' hm'' hne
    rcases hcases m'' with ⟨rfl, -⟩ | ⟨-, heq'⟩
    · exact absurd he hexit
    · rw [heq', he]
  · rcases hcases m' with ⟨-, heq⟩ | ⟨-, heq⟩
    · rw [heq]
      constructor
      · rintro hr
        simp [hr, WaitPc.arrived] at hC
      · rintro hb
        simp [hb, WaitPc.arrived] at hC
    · rw [heq]
      exact h.half hk m'
  · rw [harr]
    exact h.counted hk ⟨m, hm, .inl ho⟩
  · have hC' := hall m hm
    rcases hcases m with ⟨-, heq⟩ | ⟨hne, -⟩
    · rw [heq] at hC'
      rcases hC' with hC' | hC' <;> simp [hC', WaitPc.arrived] at hC
    · exact absurd rfl hne
  · exact h.before hk ⟨m, hm, hexit⟩
  · have hC' := hall m hm
    rcases hcases m with ⟨-, heq⟩ | ⟨hne, -⟩
    · rw [heq] at hC'
      simp [hC', WaitPc.arrived] at hC
    · exact absurd rfl hne

/-- A CTA that is past its polls and moves on keeps its call counter, what it has polled and what
it has stored. -/
theorem WaitOk.keeps (h : WaitOk G r R) {c : WaitPc} (hs : (R.wait m).pc ≠ .start)
    (hp : (R.wait m).pc ≠ .poll) (hst : ∀ o, G.writes R.kind r m o → (R.wait m).stored o = true)
    (m' : ℕ) :
    (((R.setWait m { R.wait m with pc := c }).wait m').pc ≠ .start →
      ((R.setWait m { R.wait m with pc := c }).wait m').n = nCalls G R.bufs R.call % 2 ^ 32) ∧
    (((R.setWait m { R.wait m with pc := c }).wait m').pc ≠ .start →
      ((R.setWait m { R.wait m with pc := c }).wait m').pc ≠ .poll →
      ∀ s, s ≠ r → ((R.setWait m { R.wait m with pc := c }).wait m').polled s = true) ∧
    (((R.setWait m { R.wait m with pc := c }).wait m').pc.arrived = true →
      ∀ o, G.writes R.kind r m' o →
        ((R.setWait m { R.wait m with pc := c }).wait m').stored o = true) := by
  rcases setWait_cases R m m' { R.wait m with pc := c } with ⟨rfl, heq⟩ | ⟨-, heq⟩
  · rw [heq]
    exact ⟨fun _ => h.n m' hs, fun _ _ => h.polled m' hs hp, fun _ => hst⟩
  · rw [heq]
    exact ⟨h.n m', h.polled m', h.stored m'⟩

/-- A CTA of a reduce-scatter's waiting kernel exits. -/
theorem WaitOk.leave_half (h : WaitOk G r R) (hk : R.kind = .reduceScatter)
    (hpc : (R.wait m).pc = .sum) (hst : ∀ o, G.writes R.kind r m o → (R.wait m).stored o = true) :
    WaitOk G r (R.setWait m { R.wait m with pc := .exit }) := by
  have hcases := fun m' => setWait_cases R m m' { R.wait m with pc := .exit }
  have hkeeps := h.keeps (c := .exit) (by simp [hpc]) (by simp [hpc]) hst
  refine ⟨fun m' => (hkeeps m').1, fun m' => (hkeeps m').2.1, fun m' => (hkeeps m').2.2,
    fun m' hm' hl => ?_, fun hk m' => ?_, h.halfCounters, fun hk' => absurd hk hk',
    fun hk' => absurd hk hk', fun hk' => absurd hk hk', fun hk' => absurd hk hk'⟩
  · rcases hcases m' with ⟨-, heq⟩ | ⟨-, heq⟩
    · rw [heq] at hl
      simp at hl
    · rw [heq] at hl
      rcases hl with hl | hl
      · exact absurd hl (h.half hk m').1
      · exact absurd hl (h.half hk m').2
  · rcases hcases m' with ⟨-, heq⟩ | ⟨-, heq⟩
    · rw [heq]
      simp
    · rw [heq]
      exact h.half hk m'

/-- A CTA that has arrived and is not the last one has exited. -/
theorem WaitPc.exit_of_arrived {pc : WaitPc} (ha : pc.arrived = true) (hr : pc ≠ .reset)
    (hb : pc ≠ .bump) : pc = .exit := by
  cases pc <;> simp_all [WaitPc.arrived]

/-- A CTA of a waiting kernel arrives: the one that finds all others counted goes on to reset
the counter, the others exit. -/
theorem WaitOk.leave (h : WaitOk G r R) (hk : R.kind ≠ .reduceScatter) (hm : m < R.rows G)
    (hpc : (R.wait m).pc = .sum) (hst : ∀ o, G.writes R.kind r m o → (R.wait m).stored o = true) :
    WaitOk G r { R.setWait m { R.wait m with
      pc := if R.done R.bufs = R.rows G - 1 then .reset else .exit } with
        done := Function.update R.done R.bufs (R.done R.bufs + 1) } := by
  set C : WaitCta V := { R.wait m with
    pc := if R.done R.bufs = R.rows G - 1 then .reset else .exit } with hC
  set R' : RankState V := { R.setWait m C with
    done := Function.update R.done R.bufs (R.done R.bufs + 1) } with hR'
  have hcases : ∀ m', (m' = m ∧ R'.wait m' = C) ∨ (m' ≠ m ∧ R'.wait m' = R.wait m') :=
    fun m' => setWait_cases R m m' C
  have hCarr : C.pc.arrived = true := by
    rw [hC]
    simp only
    split <;> rfl
  have hCbump : C.pc ≠ .bump := by
    rw [hC]
    simp only
    split <;> simp
  have hdone : R.done R.bufs = arrivals (R.rows G) fun m => (R.wait m).pc.arrived :=
    h.counted hk ⟨m, hm, .inl (by rw [hpc]; rfl)⟩
  have hsucc : arrivals (R.rows G) (fun m' => (R'.wait m').pc.arrived) =
      arrivals (R.rows G) (fun m' => (R.wait m').pc.arrived) + 1 := by
    refine arrivals_succ hm (by rw [hpc]; rfl) ?_ fun m' _ hne => ?_
    · rcases hcases m with ⟨-, heq⟩ | ⟨hne, -⟩
      · rw [heq, hCarr]
      · exact absurd rfl hne
    · rcases hcases m' with ⟨hmm, -⟩ | ⟨-, heq⟩
      · exact absurd hmm hne
      · rw [heq]
  -- with everybody arrived this CTA was the last one
  have hlast : (∀ m' < R.rows G, (R'.wait m').pc.arrived = true) → C.pc = .reset := by
    intro hall
    have hfull := arrivals_eq_iff.mpr hall
    have : R.done R.bufs = R.rows G - 1 := by omega
    rw [hC]
    simp [this]
  have hnot : ∀ m' < R.rows G, (R.wait m').pc = .reset ∨ (R.wait m').pc = .bump → False := by
    intro m' hm' hl
    rcases eq_or_ne m' m with rfl | hne
    · simp [hpc] at hl
    · have := h.last m' hm' hl m hm hne.symm
      simp [hpc] at this
  have hkeeps := h.keeps (c := C.pc) (by simp [hpc]) (by simp [hpc]) hst
  refine ⟨fun m' => (hkeeps m').1, fun m' => (hkeeps m').2.1, fun m' => (hkeeps m').2.2,
    fun m' hm' hl m'' hm'' hne => ?_, fun hk' => absurd hk' hk, fun hk' => absurd hk' hk,
    fun _ _ => ?_, fun _ hall => ?_,
    fun _ _ => h.before hk ⟨m, hm, by simp [hpc]⟩, fun _ hall => ?_⟩
  · rcases hcases m' with ⟨rfl, heq⟩ | ⟨-, heq⟩
    · have hreset : R.done R.bufs = R.rows G - 1 := by
        by_contra hnl
        rw [heq, hC] at hl
        simp [hnl] at hl
      have hall : (R.wait m'').pc.arrived = true := by
        refine arrived_of_last hm ?_ (hdone.symm.trans hreset) m'' hm'' hne
        rw [hpc]
        rfl
      rcases hcases m'' with ⟨hmm, -⟩ | ⟨-, heq'⟩
      · exact absurd hmm hne
      · rw [heq']
        exact WaitPc.exit_of_arrived hall (fun hr => hnot m'' hm'' (.inl hr))
          fun hb => hnot m'' hm'' (.inr hb)
    · rw [heq] at hl
      exact (hnot m' hm' hl).elim
  · rw [show R'.done R'.bufs = R.done R.bufs + 1 from Function.update_self _ _ _, hdone]
    exact hsucc.symm
  · have hCr : C.pc = .reset := by
      refine hlast fun m' hm' => ?_
      rcases hall m' hm' with he | he <;> rw [he] <;> rfl
    rcases hcases m with ⟨-, heq⟩ | ⟨hne, -⟩
    · have := hall m hm
      rw [heq, hCr] at this
      simp at this
    · exact absurd rfl hne
  · have hCr : C.pc = .reset := by
      refine hlast fun m' hm' => ?_
      rw [hall m' hm']
      rfl
    rcases hcases m with ⟨-, heq⟩ | ⟨hne, -⟩
    · have := hall m hm
      rw [heq, hCr] at this
      simp at this
    · exact absurd rfl hne

/-- The last CTA resets the done counter. -/
theorem WaitOk.resetDone (h : WaitOk G r R) (hm : m < R.rows G)
    (hpc : (R.wait m).pc = .reset) :
    WaitOk G r { R.setWait m { R.wait m with pc := .bump } with
      done := Function.update R.done R.bufs 0 } := by
  have hk : R.kind ≠ .reduceScatter := fun hk => (h.half hk m).1 hpc
  set R' : RankState V := { R.setWait m { R.wait m with pc := .bump } with
    done := Function.update R.done R.bufs 0 } with hR'
  have hcases : ∀ m', (m' = m ∧ R'.wait m' = { R.wait m with pc := .bump }) ∨
      (m' ≠ m ∧ R'.wait m' = R.wait m') := fun m' => setWait_cases R m m' _
  have hexit := h.last m hm (.inl hpc)
  have hkeeps := h.keeps (c := .bump) (by simp [hpc]) (by simp [hpc])
    (h.stored m (by rw [hpc]; rfl))
  refine ⟨fun m' => (hkeeps m').1, fun m' => (hkeeps m').2.1, fun m' => (hkeeps m').2.2,
    fun m' hm' hl m'' hm'' hne => ?_,
    fun hk' => absurd hk' hk, fun hk' => absurd hk' hk, fun _ hex => ?_,
    fun _ _ => Function.update_self _ _ _, fun _ _ => h.before hk ⟨m, hm, by simp [hpc]⟩,
    fun _ hall => ?_⟩
  · rcases hcases m' with ⟨rfl, -⟩ | ⟨hne', heq⟩
    · rcases hcases m'' with ⟨hmm, -⟩ | ⟨-, heq'⟩
      · exact absurd hmm hne
      · rw [heq', hexit m'' hm'' hne]
    · rw [heq, hexit m' hm' hne'] at hl
      simp at hl
  · obtain ⟨m', hm', hx⟩ := hex
    rcases hcases m' with ⟨-, heq⟩ | ⟨hne, heq⟩
    · rw [heq] at hx
      simp [WaitPc.arrived] at hx
    · rw [heq, hexit m' hm' hne] at hx
      simp [WaitPc.arrived] at hx
  · rcases hcases m with ⟨-, heq⟩ | ⟨hne, -⟩
    · have := hall m hm
      rw [heq] at this
      simp at this
    · exact absurd rfl hne

/-- The last CTA increments the call counter, which every CTA has read by then. -/
theorem WaitOk.bump (h : WaitOk G r R) (hm : m < R.rows G) (hpc : (R.wait m).pc = .bump) :
    WaitOk G r { R.setWait m { R.wait m with pc := .exit } with
      ctrl := Function.update R.ctrl R.bufs ((R.ctrl R.bufs + 1) % 2 ^ 32) } := by
  have hk : R.kind ≠ .reduceScatter := fun hk => (h.half hk m).2 hpc
  set R' : RankState V := { R.setWait m { R.wait m with pc := .exit } with
    ctrl := Function.update R.ctrl R.bufs ((R.ctrl R.bufs + 1) % 2 ^ 32) } with hR'
  have hcases : ∀ m', (m' = m ∧ R'.wait m' = { R.wait m with pc := .exit }) ∨
      (m' ≠ m ∧ R'.wait m' = R.wait m') := fun m' => setWait_cases R m m' _
  have hexit := h.last m hm (.inr hpc)
  have hall : ∀ m' < R.rows G, (R'.wait m').pc = .exit := by
    intro m' hm'
    rcases hcases m' with ⟨-, heq⟩ | ⟨hne, heq⟩
    · rw [heq]
    · rw [heq, hexit m' hm' hne]
  have hkeeps := h.keeps (c := .exit) (by simp [hpc]) (by simp [hpc])
    (h.stored m (by rw [hpc]; rfl))
  refine ⟨fun m' => (hkeeps m').1, fun m' => (hkeeps m').2.1, fun m' => (hkeeps m').2.2,
    fun m' hm' hl => ?_, fun hk' => absurd hk' hk, fun hk' => absurd hk' hk, fun _ hex => ?_,
    fun _ _ => ?_, fun _ hex => ?_, fun _ _ => ?_⟩
  · simp [hall m' hm'] at hl
  · obtain ⟨m', hm', hx⟩ := hex
    simp [hall m' hm', WaitPc.arrived] at hx
  · refine h.cleared hk fun m' hm' => ?_
    rcases eq_or_ne m' m with rfl | hne
    · exact .inl hpc
    · exact .inr (hexit m' hm' hne)
  · obtain ⟨m', hm', hx⟩ := hex
    exact absurd (hall m' hm') hx
  · rw [show R'.ctrl R'.bufs = (R.ctrl R.bufs + 1) % 2 ^ 32 from Function.update_self _ _ _,
      h.before hk ⟨m, hm, by simp [hpc]⟩]
    exact Nat.mod_add_mod _ _ _

/-! ### One step of a rank -/

variable {S S' : State V} {a : Act}

/-- A step of a push CTA. -/
theorem push_of_step (hs : step G S r a = some S') (ha : a.pushCta = some (p, b)) :
    (S r).waiting = false ∧ p < 3 ∧ b < (S r).pushCtas G ∧
      pushStep G S r p b a = some S' := by
  rw [step, ha] at hs
  simp only at hs
  split at hs
  · next h => exact ⟨h.1, h.2.1, h.2.2, hs⟩
  · simp at hs

/-- A step of a waiting CTA. -/
theorem wait_of_step (hs : step G S r a = some S') (ha : a.waitCta = some m)
    (hn : a.pushCta = none) :
    (S r).waiting = true ∧ m < (S r).rows G ∧
      ∃ R', waitStep G S r m a = some R' ∧ S' = Function.update S r R' := by
  rw [step, ha, hn] at hs
  simp only at hs
  split at hs
  · next h =>
    obtain ⟨R', hR', rfl⟩ := Option.map_eq_some_iff.mp hs
    exact ⟨h.1, h.2, R', hR', rfl⟩
  · simp at hs

/-- A step to the next kernel. -/
theorem next_of_step (hs : step G S r .next = some S') :
    (S r).kernelDone G ∧ S' = Function.update S r ((S r).advance G) := by
  simp only [step, Act.pushCta, Act.waitCta] at hs
  split at hs
  · next h => exact ⟨h, (Option.some.inj hs).symm⟩
  · simp at hs

/-- The counters of every set rest between two kernels. -/
theorem rankOk_fresh (hv : Valid G R.call R.kind) (hw : R.waiting = false)
    (hpush : ∀ p b, R.push p b = {})
    (hrest : ∀ σ, R.ctrl σ = nCalls G σ R.call % 2 ^ 32 ∧ R.done σ = 0 ∧
      ∀ p < 3, R.phase σ p = 0) : RankOk G r R where
  valid := hv
  others σ _ := hrest σ
  pushing _ := ⟨pushOk_fresh hpush (hrest _).2.2, (hrest _).1, (hrest _).2.1⟩
  waits h := by simp [hw] at h

/-- A step of a push kernel that changes its CTAs and phase counters only. -/
theorem RankOk.setPushOk (h : RankOk G r R) {R' : RankState V} (hw : R.waiting = false)
    (hsame : R'.call = R.call ∧ R'.kind = R.kind ∧ R'.waiting = R.waiting ∧ R'.ctrl = R.ctrl ∧
      R'.done = R.done ∧ ∀ σ, σ ≠ R.bufs → R'.phase σ = R.phase σ)
    (hp : PushOk G R') : RankOk G r R' := by
  obtain ⟨hcall, hkind, hwait, hctrl, hdone, hphase⟩ := hsame
  have hbufs : R'.bufs = R.bufs := by rw [RankState.bufs, hkind, RankState.bufs]
  refine ⟨?_, fun σ hσ => ?_, fun _ => ⟨hp, ?_⟩, fun hw' => ?_⟩
  · rw [hcall, hkind]
    exact h.valid
  · rw [hbufs] at hσ
    rw [hcall, hctrl, hdone, hphase σ hσ]
    exact h.others σ hσ
  · rw [hbufs, hcall, hctrl, hdone]
    exact (h.pushing hw).2
  · simp [hwait, hw] at hw'

/-- A step of a waiting kernel that changes its CTAs, its counters and the results only. -/
theorem RankOk.setWaitOk (h : RankOk G r R) {R' : RankState V} (hw : R.waiting = true)
    (hsame : R'.call = R.call ∧ R'.kind = R.kind ∧ R'.waiting = R.waiting ∧ R'.phase = R.phase ∧
      ∀ σ, σ ≠ R.bufs → R'.ctrl σ = R.ctrl σ ∧ R'.done σ = R.done σ)
    (hp : WaitOk G r R') : RankOk G r R' := by
  obtain ⟨hcall, hkind, hwait, hphase, hrest⟩ := hsame
  have hbufs : R'.bufs = R.bufs := by rw [RankState.bufs, hkind, RankState.bufs]
  refine ⟨?_, fun σ hσ => ?_, fun hw' => ?_, fun _ => ⟨hp, ?_⟩⟩
  · rw [hcall, hkind]
    exact h.valid
  · rw [hbufs] at hσ
    rw [hcall, (hrest σ hσ).1, (hrest σ hσ).2, hphase]
    exact h.others σ hσ
  · simp [hwait, hw] at hw'
  · rw [hbufs, hphase]
    exact (h.waits hw).2

/-- The stream goes on to its next kernel. -/
theorem RankOk.advance (h : RankOk G r R) (hd : R.kernelDone G) : RankOk G r (R.advance G) := by
  rw [RankState.kernelDone] at hd
  rw [RankState.advance]
  split at hd
  · next hw =>
    obtain ⟨hwait, hphase⟩ := h.waits hw
    rw [if_pos hw]
    rcases eq_or_ne R.kind .reduceScatter with hk | hk
    · -- the reduce-scatter leaves the counters as it found them
      refine rankOk_fresh ?_ rfl (fun _ _ => rfl) fun σ => ?_
      · simp only [if_pos hk]
        exact (show Kind.allGather.bufs = R.kind.bufs by rw [hk]; rfl).trans h.valid
      · simp only [if_pos hk]
        rcases eq_or_ne σ R.bufs with rfl | hσ
        · exact ⟨(hwait.halfCounters hk).2, (hwait.halfCounters hk).1, hphase⟩
        · exact h.others σ hσ
    · refine rankOk_fresh ?_ rfl (fun _ _ => rfl) fun σ => ?_
      · simp only [if_neg hk]
        exact valid_first G _
      · simp only [if_neg hk]
        have hbufs : (G.call R.call).bufs = R.bufs := h.valid.symm
        rcases eq_or_ne σ R.bufs with rfl | hσ
        · rw [nCalls_succ_of_bufs hbufs]
          exact ⟨hwait.after hk hd, hwait.cleared hk fun m hm => .inr (hd m hm), hphase⟩
        · have hn : nCalls G σ (R.call + 1) = nCalls G σ R.call := by
            rw [nCalls, hbufs, if_neg hσ.symm]
            rfl
          rw [hn]
          exact h.others σ hσ
  · next hw =>
    have hw : R.waiting = false := by simpa using hw
    obtain ⟨hpush, hctrl, hdone⟩ := h.pushing hw
    rw [if_neg (by simp [hw])]
    exact ⟨h.valid, h.others, fun hw' => by simp at hw', fun _ =>
      ⟨waitOk_fresh (fun _ => rfl) hdone hctrl, hpush.phase_eq_zero hd⟩⟩

section Actions

variable (h : ∀ x, RankOk G x (S x)) (x : Rank)
include h

/-- The rank alone changes. -/
theorem rankOk_own {R' : RankState V} (hR' : RankOk G r R') :
    RankOk G x (Function.update S r R' x) := by
  rcases eq_or_ne x r with rfl | hne
  · simpa using hR'
  · simpa [hne] using h x

/-- The rank changes, and a peer receives something. -/
theorem rankOk_peer {R' : RankState V} (d : Rank) (f : RankState V → RankState V)
    (hR' : RankOk G r R') (hf : ∀ y T, RankOk G y T → RankOk G y (f T)) :
    RankOk G x (Function.update (Function.update S r R') d (f (Function.update S r R' d)) x) := by
  rcases eq_or_ne x d with rfl | hne
  · rw [Function.update_self]
    exact hf x _ (rankOk_own h x hR')
  · rw [Function.update_of_ne hne]
    exact rankOk_own h x hR'

/-- A push CTA reads the call counter. -/
theorem rankOk_pushStart (hs : step G S r (.pushStart p b) = some S') :
    RankOk G x (S' x) := by
  obtain ⟨hw, hp, hb, hs⟩ := push_of_step hs rfl
  obtain ⟨hpush, hctrl, -⟩ := (h r).pushing hw
  simp only [pushStep] at hs
  split at hs
  · next hpc =>
    obtain rfl := Option.some.inj hs
    exact rankOk_own h x ((h r).setPushOk hw ⟨rfl, rfl, rfl, rfl, rfl, fun _ _ => rfl⟩
      (hpush.quiet (by rw [hpc]; rfl) rfl (fun _ => hctrl) (by simp [PushPc.passed])))
  · simp at hs

/-- A push CTA that goes on has found the CTAs of the phase before counted. -/
theorem rankOk_spin (hs : step G S r (.spin p b) = some S') :
    RankOk G x (S' x) := by
  obtain ⟨hw, hp, hb, hs⟩ := push_of_step hs rfl
  obtain ⟨hpush, -⟩ := (h r).pushing hw
  simp only [pushStep] at hs
  split at hs
  · next hpc =>
    obtain rfl := Option.some.inj hs
    refine rankOk_own h x ((h r).setPushOk hw ⟨rfl, rfl, rfl, rfl, rfl, fun _ _ => rfl⟩
      (hpush.quiet (by rw [hpc.1]; rfl) rfl (fun _ => hpush.n p b (by simp [hpc.1])) ?_))
    rintro - p' rfl
    have hge : (S r).pushCtas G ≤ (S r).phase (S r).bufs p' := by simpa using hpc.2
    obtain ⟨j, -, hphase⟩ := hpush.counts
    have hval := hphase.value p' (by omega)
    split at hval
    · have := pushCtas_pos G (S r)
      omega
    · rw [hval] at hge
      exact arrivals_eq_iff.mp (le_antisymm (arrivals_le _ _) hge)
  · simp at hs

/-- A push CTA copies a chunk, and a peer receives it. -/
theorem rankOk_copy {i : ℕ} (hs : step G S r (.copy p b i) = some S') :
    RankOk G x (S' x) := by
  obtain ⟨hw, hp, hb, hs⟩ := push_of_step hs rfl
  obtain ⟨hpush, -⟩ := (h r).pushing hw
  simp only [pushStep] at hs
  split at hs
  · next hpc =>
    obtain rfl := Option.some.inj hs
    refine rankOk_peer h x _ (fun T => T.receive _ _ _) ?_ fun y T hT => hT.setMemory _ _ _
    refine (h r).setPushOk hw ⟨rfl, rfl, rfl, rfl, rfl, fun _ _ => rfl⟩
      (hpush.quiet (by rw [hpc.1]; rfl) (by simp only [hpc.1]; rfl)
        (fun _ => hpush.n p b (by simp [hpc.1])) fun _ p' hp' => ?_)
    subst hp'
    exact hpush.passed p' (by omega) b hb (by rw [hpc.1]; rfl)
  · simp at hs

/-- A push CTA is counted; the last one of the phase has the flag to store. -/
theorem rankOk_arrive (hs : step G S r (.arrive p b) = some S') :
    RankOk G x (S' x) := by
  obtain ⟨hw, hp, hb, hs⟩ := push_of_step hs rfl
  obtain ⟨hpush, -⟩ := (h r).pushing hw
  simp only [pushStep] at hs
  split at hs
  · next hpc =>
    obtain rfl := Option.some.inj hs
    exact rankOk_own h x ((h r).setPushOk hw
      ⟨rfl, rfl, rfl, rfl, rfl, fun σ hσ => Function.update_of_ne hσ _ _⟩
      (hpush.arrive hp hb hpc.1 hpc.2))
  · simp at hs

/-- The last push CTA of a phase stores the flag, and a peer receives it. -/
theorem rankOk_flag (hs : step G S r (.flag p b) = some S') :
    RankOk G x (S' x) := by
  obtain ⟨hw, hp, hb, hs⟩ := push_of_step hs rfl
  obtain ⟨hpush, -⟩ := (h r).pushing hw
  simp only [pushStep] at hs
  split at hs
  · next hpc =>
    obtain rfl := Option.some.inj hs
    exact rankOk_peer h x _ (fun T => T.receiveFlag _ _ _)
      ((h r).setPushOk hw ⟨rfl, rfl, rfl, rfl, rfl, fun _ _ => rfl⟩ (hpush.flag hp hb hpc))
      fun y T hT => hT.setMemory _ _ _
  · simp at hs

/-- The last push CTA resets a phase counter. -/
theorem rankOk_resetPhase (hs : step G S r (.resetPhase p b) = some S') :
    RankOk G x (S' x) := by
  obtain ⟨hw, hp, hb, hs⟩ := push_of_step hs rfl
  obtain ⟨hpush, -⟩ := (h r).pushing hw
  simp only [pushStep] at hs
  split at hs
  · next q hpc =>
    obtain rfl := Option.some.inj hs
    exact rankOk_own h x ((h r).setPushOk hw
      ⟨rfl, rfl, rfl, rfl, rfl, fun σ hσ => Function.update_of_ne hσ _ _⟩
      (hpush.resetPhase hp hb hpc))
  · simp at hs

/-- A waiting CTA reads the call counter. -/
theorem rankOk_waitStart (hs : step G S r (.waitStart m) = some S') :
    RankOk G x (S' x) := by
  obtain ⟨hw, hm, R', hR, rfl⟩ := wait_of_step hs rfl rfl
  obtain ⟨hwait, -⟩ := (h r).waits hw
  simp only [waitStep] at hR
  split at hR
  · next hpc =>
    obtain rfl := Option.some.inj hR
    refine rankOk_own h x ((h r).setWaitOk hw ⟨rfl, rfl, rfl, rfl, fun _ _ => ⟨rfl, rfl⟩⟩
      (hwait.quiet hm (by rw [hpc]; rfl) rfl (fun _ => ?_) (by simp)))
    rcases eq_or_ne (S r).kind .reduceScatter with hk | hk
    · exact (hwait.halfCounters hk).2
    · exact hwait.before hk ⟨m, hm, by simp [hpc]⟩
  · simp at hR

/-- A waiting CTA sees a flag. -/
theorem rankOk_poll {s : Rank} (hs : step G S r (.poll m s) = some S') :
    RankOk G x (S' x) := by
  obtain ⟨hw, hm, R', hR, rfl⟩ := wait_of_step hs rfl rfl
  obtain ⟨hwait, -⟩ := (h r).waits hw
  simp only [waitStep] at hR
  split at hR
  · next hpc =>
    obtain rfl := Option.some.inj hR
    exact rankOk_own h x ((h r).setWaitOk hw ⟨rfl, rfl, rfl, rfl, fun _ _ => ⟨rfl, rfl⟩⟩
      (hwait.quiet hm (by rw [hpc.1]; rfl) (by simp only [hpc.1]; rfl)
        (fun _ => hwait.n m (by simp [hpc.1])) (by simp [hpc.1])))
  · simp at hR

/-- A waiting CTA has seen all flags. -/
theorem rankOk_enter (hs : step G S r (.enter m) = some S') :
    RankOk G x (S' x) := by
  obtain ⟨hw, hm, R', hR, rfl⟩ := wait_of_step hs rfl rfl
  obtain ⟨hwait, -⟩ := (h r).waits hw
  simp only [waitStep] at hR
  split at hR
  · next hpc =>
    obtain rfl := Option.some.inj hR
    exact rankOk_own h x ((h r).setWaitOk hw ⟨rfl, rfl, rfl, rfl, fun _ _ => ⟨rfl, rfl⟩⟩
      (hwait.quiet hm (by rw [hpc.1]; rfl) rfl (fun _ => hwait.n m (by simp [hpc.1]))
        fun _ _ => hpc.2))
  · simp at hR

/-- A waiting CTA loads a chunk. -/
theorem rankOk_load {o : ℕ} (hs : step G S r (.load m o p) = some S') :
    RankOk G x (S' x) := by
  obtain ⟨hw, hm, R', hR, rfl⟩ := wait_of_step hs rfl rfl
  obtain ⟨hwait, -⟩ := (h r).waits hw
  simp only [waitStep] at hR
  split at hR
  · next hpc =>
    obtain rfl := Option.some.inj hR
    exact rankOk_own h x ((h r).setWaitOk hw ⟨rfl, rfl, rfl, rfl, fun _ _ => ⟨rfl, rfl⟩⟩
      (hwait.quiet hm (by rw [hpc.1]; rfl) (by simp only [hpc.1]; rfl)
        (fun _ => hwait.n m (by simp [hpc.1]))
        fun _ _ => hwait.polled m (by simp [hpc.1]) (by simp [hpc.1])))
  · simp at hR

/-- A waiting CTA stores a chunk of the result. -/
theorem rankOk_store {o : ℕ} (hs : step G S r (.store m o) = some S') :
    RankOk G x (S' x) := by
  obtain ⟨hw, hm, R', hR, rfl⟩ := wait_of_step hs rfl rfl
  obtain ⟨hwait, -⟩ := (h r).waits hw
  simp only [waitStep] at hR
  split at hR
  · next hpc =>
    obtain rfl := Option.some.inj hR
    have hset : RankOk G r ((S r).setWait m { (S r).wait m with
        stored := Function.update ((S r).wait m).stored o true }) :=
      (h r).setWaitOk hw ⟨rfl, rfl, rfl, rfl, fun _ _ => ⟨rfl, rfl⟩⟩
        (hwait.quiet hm (by rw [hpc.1]; rfl) (by simp only [hpc.1]; rfl)
          (fun _ => hwait.n m (by simp [hpc.1]))
          fun _ _ => hwait.polled m (by simp [hpc.1]) (by simp [hpc.1]))
    exact rankOk_own h x (hset.setMemory _ _ _)
  · simp at hR

/-- A waiting CTA is counted; a reduce-scatter does not count. -/
theorem rankOk_leave (hs : step G S r (.leave m) = some S') :
    RankOk G x (S' x) := by
  obtain ⟨hw, hm, R', hR, rfl⟩ := wait_of_step hs rfl rfl
  obtain ⟨hwait, -⟩ := (h r).waits hw
  simp only [waitStep] at hR
  split at hR
  · next hpc =>
    have hst : ∀ o, G.writes (S r).kind r m o → ((S r).wait m).stored o = true := by
      refine fun o ho => hpc.2 o ?_ ho
      rw [← Nat.div_lt_iff_lt_mul (rowCh_pos G), ho.1]
      exact Nat.lt_succ_self m
    split at hR
    · next hk =>
      obtain rfl := Option.some.inj hR
      exact rankOk_own h x ((h r).setWaitOk hw ⟨rfl, rfl, rfl, rfl, fun _ _ => ⟨rfl, rfl⟩⟩
        (hwait.leave_half hk hpc.1 hst))
    · next hk =>
      obtain rfl := Option.some.inj hR
      exact rankOk_own h x ((h r).setWaitOk hw
        ⟨rfl, rfl, rfl, rfl, fun σ hσ => ⟨rfl, Function.update_of_ne hσ _ _⟩⟩
        (hwait.leave hk hm hpc.1 hst))
  · simp at hR

/-- The last waiting CTA resets the done counter. -/
theorem rankOk_resetDone (hs : step G S r (.resetDone m) = some S') :
    RankOk G x (S' x) := by
  obtain ⟨hw, hm, R', hR, rfl⟩ := wait_of_step hs rfl rfl
  obtain ⟨hwait, -⟩ := (h r).waits hw
  simp only [waitStep] at hR
  split at hR
  · next hpc =>
    obtain rfl := Option.some.inj hR
    exact rankOk_own h x ((h r).setWaitOk hw
      ⟨rfl, rfl, rfl, rfl, fun σ hσ => ⟨rfl, Function.update_of_ne hσ _ _⟩⟩
      (hwait.resetDone hm hpc))
  · simp at hR

/-- The last waiting CTA increments the call counter. -/
theorem rankOk_bump (hs : step G S r (.bump m) = some S') :
    RankOk G x (S' x) := by
  obtain ⟨hw, hm, R', hR, rfl⟩ := wait_of_step hs rfl rfl
  obtain ⟨hwait, -⟩ := (h r).waits hw
  simp only [waitStep] at hR
  split at hR
  · next hpc =>
    obtain rfl := Option.some.inj hR
    exact rankOk_own h x ((h r).setWaitOk hw
      ⟨rfl, rfl, rfl, rfl, fun σ hσ => ⟨Function.update_of_ne hσ _ _, rfl⟩⟩
      (hwait.bump hm hpc))
  · simp at hR

/-- The stream goes on. -/
theorem rankOk_next (hs : step G S r .next = some S') :
    RankOk G x (S' x) := by
  obtain ⟨hd, rfl⟩ := next_of_step hs
  exact rankOk_own h x ((h r).advance hd)

end Actions

/-- A rank's own part of a step, and what its peers receive. -/
theorem rankOk_step (h : ∀ x, RankOk G x (S x)) (hs : step G S r a = some S') (x : Rank) :
    RankOk G x (S' x) := by
  cases a with
  | pushStart p b => exact rankOk_pushStart h x hs
  | spin p b => exact rankOk_spin h x hs
  | copy p b i => exact rankOk_copy h x hs
  | arrive p b => exact rankOk_arrive h x hs
  | flag p b => exact rankOk_flag h x hs
  | resetPhase p b => exact rankOk_resetPhase h x hs
  | waitStart m => exact rankOk_waitStart h x hs
  | poll m s => exact rankOk_poll h x hs
  | enter m => exact rankOk_enter h x hs
  | load m o p => exact rankOk_load h x hs
  | store m o => exact rankOk_store h x hs
  | leave m => exact rankOk_leave h x hs
  | resetDone m => exact rankOk_resetDone h x hs
  | bump m => exact rankOk_bump h x hs
  | next => exact rankOk_next h x hs

theorem rankOk_start (h : Start G S) (r : Rank) : RankOk G r (S r) := by
  refine rankOk_fresh ?_ (h.waiting r) (h.push r) fun σ =>
    ⟨?_, h.done r σ, fun p _ => h.phase r σ p⟩
  · rw [h.call, h.kind]
    exact valid_first G 0
  · rw [h.ctrl, h.call]
    rfl

end AllReduce

end VllmMoet
