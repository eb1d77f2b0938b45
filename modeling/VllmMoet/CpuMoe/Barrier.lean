import Mathlib.Data.DFinsupp.WellFounded
import VllmMoet.Lib.Phases
import VllmMoet.Lib.Tally

/-!
# The workers' barrier

`barrier` of `cpu_moe_b12x.cpp`, between the statements of programs that share a memory: a worker
reads `bar_gen`, counts itself in `bar_count`, and spins until `bar_gen` changes; the last one sets
the count back and increments `bar_gen`.

* `Bar.step`: the programs' statements and the barrier's, one atomic access at a time, in any
  interleaving;
* `Barrier`: what holds of the two words;
* `bars_refine`: each run is one of the team with a plain barrier (`team`);
* `Barrier.exists_progress`: no run gets stuck in a barrier if that team does not;
* `exists_finished`: a run that never gets stuck can be brought to its end, as every access but a
  poll in vain brings a worker forward (`Bar.After`).
-/

namespace VllmMoet

namespace CpuMoe

universe u v w

variable {L : Type u} {V : L → Type v} {α : Type w} {n : ℕ}

/-- Where a worker is: in its program, or in `barrier` with `g`, the generation it has read. -/
inductive Bar (L : Type u) (V : L → Type v) (α : Type w)
  | run (p : Prog L V α)
  /-- `P.bar_count.fetch_add(1) + 1 == P.nthreads`. -/
  | arrive (g : BitVec 32) (k : Prog L V α)
  /-- `P.bar_count.store(0)`. -/
  | reset (g : BitVec 32) (k : Prog L V α)
  /-- `P.bar_gen.store(g + 1)`. -/
  | release (g : BitVec 32) (k : Prog L V α)
  /-- `while (P.bar_gen.load(..) == g)`. -/
  | spin (g : BitVec 32) (k : Prog L V α)

/-- The memory, the barrier's words and the workers. -/
structure Bars (n : ℕ) (L : Type u) (V : L → Type v) (α : Type w) where
  mem : ∀ l, V l
  barCount : ℕ
  barGen : BitVec 32
  workers : Fin n → Bar L V α

/-- One access of worker `i`. -/
def Bars.step [DecidableEq L] (s : Bars n L V α) (i : Fin n) : Option (Bars n L V α) :=
  let goto (w : Bar L V α) := Function.update s.workers i w
  match s.workers i with
  | .run (.pure _) => none
  | .run (.load l k) => some { s with workers := goto (.run (k (s.mem l))) }
  | .run (.store l v k) =>
    some { s with mem := Function.update s.mem l v, workers := goto (.run k) }
  | .run (.barrier k) => some { s with workers := goto (.arrive s.barGen k) }
  | .arrive g k =>
    some { s with
      barCount := s.barCount + 1
      workers := goto (if s.barCount + 1 = n then .reset g k else .spin g k) }
  | .reset g k => some { s with barCount := 0, workers := goto (.release g k) }
  | .release g k => some { s with barGen := g + 1, workers := goto (.run k) }
  | .spin g k => some { s with workers := goto (if s.barGen = g then .spin g k else .run k) }

/-- The workers that begin with the programs `P`, at a barrier of generation `g`. -/
def bars [DecidableEq L] (P : Fin n → Prog L V α) (m : ∀ l, V l) (g : BitVec 32) :
    TransitionSystem (Bars n L V α) (Fin n) :=
  .ofStep (· = ⟨m, 0, g, fun i => .run (P i)⟩) Bars.step

/-! ### The barrier's words -/

/-- Counted in the generation `gen`. -/
def Bar.arrived (gen : BitVec 32) : Bar L V α → Bool
  | .run _ | .arrive _ _ => false
  | .reset _ _ | .release _ _ => true
  | .spin g _ => g = gen

/-- The last one to arrive, before it has opened the barrier. -/
def Bar.closing : Bar L V α → Bool
  | .reset _ _ | .release _ _ => true
  | _ => false

/-- It has set the count back. -/
def Bar.released : Bar L V α → Bool
  | .release _ _ => true
  | _ => false

/-- The generation that a worker has read is the current one; a worker that spins may have missed
that its barrier has opened, but no later one. -/
def Bar.InGen (gen : BitVec 32) : Bar L V α → Prop
  | .run _ => True
  | .arrive g _ | .reset g _ | .release g _ => g = gen
  | .spin g _ => g = gen ∨ g + 1 = gen

/-- Somebody is still to come: the count is that of the workers that have arrived. -/
structure Bars.Gathering (s : Bars n L V α) : Prop where
  quiet : ∀ i, (s.workers i).closing = false
  count : s.barCount = tally (Bar.arrived s.barGen) s.workers
  short : ∃ i, (s.workers i).arrived s.barGen = false

/-- Worker `i` came last: all the others spin. -/
structure Bars.Closing (s : Bars n L V α) (i : Fin n) : Prop where
  closing : (s.workers i).closing = true
  others : ∀ j ≠ i, ∃ k, s.workers j = .spin s.barGen k
  count : (s.workers i).released = true → s.barCount = 0

/-- **The barrier's words.** -/
structure Barrier (s : Bars n L V α) : Prop where
  inGen : ∀ i, (s.workers i).InGen s.barGen
  phase : s.Gathering ∨ ∃ i, s.Closing i

variable {s t : Bars n L V α} {i : Fin n}

/-- A worker that has arrived and does not close the barrier spins. -/
theorem Bar.spin_of_arrived {gen : BitVec 32} {b : Bar L V α} (ha : b.arrived gen = true)
    (hc : b.closing = false) : ∃ k, b = .spin gen k := by
  cases b with
  | run p => simp [Bar.arrived] at ha
  | arrive g k => simp [Bar.arrived] at ha
  | reset g k => simp [Bar.closing] at hc
  | release g k => simp [Bar.closing] at hc
  | spin g k => exact ⟨k, by simpa [Bar.arrived] using ha⟩

/-- Whoever does not spin at a closing barrier is the one who closes it. -/
theorem Bars.Closing.eq {j : Fin n} (h : s.Closing j) (hi : ∀ k, s.workers i ≠ .spin s.barGen k) :
    j = i := by
  by_contra hne
  obtain ⟨k, hk⟩ := h.others i (Ne.symm hne)
  exact hi k hk

/-- Steps between the barriers. -/
theorem Bars.Gathering.update (h : s.Gathering) {b : Bar L V α} {m : ∀ l, V l}
    (hc : b.closing = false)
    (ha : b.arrived s.barGen = (s.workers i).arrived s.barGen) :
    Bars.Gathering { s with mem := m, workers := Function.update s.workers i b } where
  quiet j := by
    rcases eq_or_ne j i with rfl | hne
    · simpa using hc
    · simpa [hne] using h.quiet j
  count := by
    have htally := tally_update (Bar.arrived s.barGen) s.workers i b
    rw [ha] at htally
    have hcount := h.count
    dsimp only
    omega
  short := by
    obtain ⟨j, hj⟩ := h.short
    refine ⟨j, ?_⟩
    rcases eq_or_ne j i with rfl | hne
    · simpa [ha] using hj
    · simpa [hne] using hj

/-- An arrival. -/
theorem Bars.Gathering.arrive (h : s.Gathering) {g : BitVec 32} {k : Prog L V α}
    (hi : s.workers i = .arrive g k) (hg : g = s.barGen) {b : Bar L V α}
    (hb : b = if s.barCount + 1 = n then .reset g k else .spin g k) {t : Bars n L V α}
    (ht : t = { s with barCount := s.barCount + 1, workers := Function.update s.workers i b }) :
    t.Gathering ∨ t.Closing i := by
  subst ht
  have harrived : b.arrived s.barGen = true := by
    rw [hb]
    split_ifs
    · rfl
    · simp [Bar.arrived, hg]
  have htally := tally_update (Bar.arrived s.barGen) s.workers i b
  have hcount := h.count
  rw [harrived, hi] at htally
  change _ + 0 = _ + 1 at htally
  by_cases hlast : s.barCount + 1 = n
  · -- everybody has arrived
    rw [if_pos hlast] at hb
    have hall := tally_eq_card_iff.mp (show tally (Bar.arrived s.barGen)
      (Function.update s.workers i b) = Fintype.card (Fin n) by rw [Fintype.card_fin]; omega)
    refine .inr ⟨by simp [hb, Bar.closing], fun j hj => ?_, by simp [hb, Bar.released]⟩
    have hj' := hall j
    change ∃ k', Function.update s.workers i b j = .spin s.barGen k'
    rw [Function.update_of_ne hj] at hj' ⊢
    exact Bar.spin_of_arrived hj' (h.quiet j)
  · rw [if_neg hlast] at hb
    refine .inl ⟨fun j => ?_, ?_, ?_⟩
    · rcases eq_or_ne j i with rfl | hne
      · simp [hb, Bar.closing]
      · simpa [hne] using h.quiet j
    · dsimp only
      omega
    · by_contra hall
      have hcard : tally (Bar.arrived s.barGen) (Function.update s.workers i b) = _ :=
        tally_eq_card fun j => by
          by_contra hj
          exact hall ⟨j, by simpa using hj⟩
      rw [Fintype.card_fin] at hcard
      omega

/-- The barrier opens. -/
theorem Bars.Closing.release (h : s.Closing i) {g : BitVec 32} {k : Prog L V α}
    (hi : s.workers i = .release g k) :
    Bars.Gathering { s with barGen := s.barGen + 1, workers := Function.update s.workers i (.run k) } := by
  have hnone (j : Fin n) : (Function.update s.workers i (.run k) j).arrived (s.barGen + 1) = false ∧
      (Function.update s.workers i (.run k) j).closing = false := by
    rcases eq_or_ne j i with rfl | hne
    · rw [Function.update_self]
      exact ⟨rfl, rfl⟩
    · obtain ⟨k', hk'⟩ := h.others j hne
      rw [Function.update_of_ne hne, hk']
      exact ⟨by simp [Bar.arrived], rfl⟩
  refine ⟨fun j => (hnone j).2, ?_, i, (hnone i).1⟩
  dsimp only
  rw [tally_eq_zero.mpr fun j => (hnone j).1]
  exact h.count (by rw [hi]; rfl)

/-! ### The team -/

/-- A worker as a thread of the team: one that spins waits until the generation changes. -/
def Bar.thread (gen : BitVec 32) : Bar L V α → Thread L V α
  | .run p => .run p
  | .arrive _ k => .run (.barrier k)
  | .reset _ k | .release _ k => .wait k
  | .spin g k => if g = gen then .wait k else .run k

/-- The workers as a team. -/
def Bars.team (s : Bars n L V α) : Team (Fin n) L V α :=
  ⟨s.mem, fun i => (s.workers i).thread s.barGen⟩

/-- What a step of one worker makes of the team. -/
theorem Bars.team_update (s : Bars n L V α) (m : ∀ l, V l) (c : ℕ) (i : Fin n) (b : Bar L V α) :
    Bars.team ⟨m, c, s.barGen, Function.update s.workers i b⟩ =
      ⟨m, Function.update s.team.threads i (b.thread s.barGen)⟩ := by
  refine congrArg (Team.mk m) (funext fun j => ?_)
  change (Function.update s.workers i b j).thread s.barGen = _
  rcases eq_or_ne j i with rfl | hne
  · rw [Function.update_self, Function.update_self]
  · rw [Function.update_of_ne hne, Function.update_of_ne hne]
    rfl

/-- A step of the team by one worker. -/
theorem Bars.team_step [DecidableEq L] {m : ∀ l, V l} {c : ℕ} {b : Bar L V α}
    (h : ((s.workers i).thread s.barGen).step s.mem = some (m, b.thread s.barGen)) :
    s.team.step (.move i) =
      some (Bars.team ⟨m, c, s.barGen, Function.update s.workers i b⟩) := by
  rw [s.team_update, Team.step]
  change Option.map _ (((s.workers i).thread s.barGen).step s.mem) = _
  rw [h]
  rfl

/-- A step that the team does not see. -/
theorem Bars.team_same {c : ℕ} {b : Bar L V α}
    (h : b.thread s.barGen = (s.workers i).thread s.barGen) :
    Bars.team ⟨s.mem, c, s.barGen, Function.update s.workers i b⟩ = s.team := by
  rw [s.team_update, h]
  exact congrArg (Team.mk s.mem) (Function.update_eq_self i s.team.threads)

/-- Between two barriers, a step that reads the generation at most. -/
theorem Barrier.update (h : Barrier s) {b : Bar L V α} (m : ∀ l, V l) (hnone : ∀ j, ¬ s.Closing j)
    (hin : b.InGen s.barGen) (hc : b.closing = false)
    (ha : b.arrived s.barGen = (s.workers i).arrived s.barGen) :
    Barrier { s with mem := m, workers := Function.update s.workers i b } where
  inGen j := by
    rcases eq_or_ne j i with rfl | hj
    · simpa using hin
    · simpa [hj] using h.inGen j
  phase := .inl ((h.phase.resolve_right fun ⟨j, hj⟩ => hnone j hj).update hc ha)

/-- A step keeps the barrier's words, and the team sees nothing of it or makes a step too. -/
theorem Barrier.step [DecidableEq L] (h : Barrier s) (ht : s.step i = some t) :
    Barrier t ∧ (t.team = s.team ∨ ∃ a, s.team.step a = some t.team) := by
  have hgen := h.inGen i
  -- nobody closes a barrier at which a worker is missing
  have hnone (hi : ∀ k, s.workers i ≠ .spin s.barGen k) (hc : (s.workers i).closing = false)
      (j : Fin n) : ¬ s.Closing j := fun hj => by
    obtain rfl := hj.eq hi
    exact absurd hj.closing (by simp [hc])
  -- whoever closes it is alone
  have hclosing (hi : (s.workers i).closing = true) : s.Closing i := by
    rcases h.phase with hg | ⟨j, hj⟩
    · exact absurd hi (by simp [hg.quiet i])
    · obtain rfl : j = i := hj.eq fun k hk => by simp [hk, Bar.closing] at hi
      exact hj
  rw [Bars.step] at ht
  cases hi : s.workers i with
  | run p =>
    rw [hi] at hnone
    have hno := hnone (fun k => by simp) rfl
    cases p with
    | pure a => simp [hi] at ht
    | load l k =>
      simp only [hi] at ht
      obtain rfl := Option.some.inj ht
      refine ⟨h.update s.mem hno trivial rfl (by rw [hi]; rfl), .inr ⟨.move i, ?_⟩⟩
      exact Bars.team_step (by rw [hi]; rfl)
    | store l x k =>
      simp only [hi] at ht
      obtain rfl := Option.some.inj ht
      refine ⟨h.update _ hno trivial rfl (by rw [hi]; rfl), .inr ⟨.move i, ?_⟩⟩
      exact Bars.team_step (by rw [hi]; rfl)
    | barrier k =>
      simp only [hi] at ht
      obtain rfl := Option.some.inj ht
      refine ⟨h.update s.mem hno rfl rfl (by rw [hi]; rfl), .inl ?_⟩
      exact Bars.team_same (by rw [hi]; rfl)
  | arrive g k =>
    rw [hi] at hnone hgen
    have hno := hnone (fun k => by simp) rfl
    obtain rfl : g = s.barGen := hgen
    simp only [hi] at ht
    obtain rfl := Option.some.inj ht
    have hg := h.phase.resolve_right fun ⟨j, hj⟩ => hno j hj
    refine ⟨⟨fun j => ?_, ?_⟩, .inr ⟨.move i, ?_⟩⟩
    · rcases eq_or_ne j i with rfl | hj
      · change (Function.update s.workers j _ j).InGen s.barGen
        rw [Function.update_self]
        split_ifs
        · rfl
        · exact .inl rfl
      · simpa [hj] using h.inGen j
    · exact (hg.arrive hi rfl rfl rfl).imp_right fun hc => ⟨i, hc⟩
    · refine Bars.team_step ?_
      rw [hi]
      split_ifs
      · rfl
      · simp [Bar.thread, Thread.step]
  | reset g k =>
    rw [hi] at hclosing hgen
    have hc := hclosing rfl
    obtain rfl : g = s.barGen := hgen
    simp only [hi] at ht
    obtain rfl := Option.some.inj ht
    refine ⟨⟨fun j => ?_, .inr ⟨i, ?_, fun j hj => ?_, fun _ => rfl⟩⟩, .inl ?_⟩
    · rcases eq_or_ne j i with rfl | hj
      · change (Function.update s.workers j _ j).InGen s.barGen
        rw [Function.update_self]
        rfl
      · simpa [hj] using h.inGen j
    · simp [Bar.closing]
    · simpa [hj] using hc.others j hj
    · exact Bars.team_same (by rw [hi]; rfl)
  | release g k =>
    rw [hi] at hclosing hgen
    have hc := hclosing rfl
    obtain rfl : g = s.barGen := hgen
    simp only [hi] at ht
    obtain rfl := Option.some.inj ht
    refine ⟨⟨fun j => ?_, .inl (hc.release hi)⟩, .inr ⟨.openBarrier, ?_⟩⟩
    · change (Function.update s.workers i (.run k) j).InGen (s.barGen + 1)
      rcases eq_or_ne j i with rfl | hj
      · rw [Function.update_self]
        trivial
      · obtain ⟨k', hk'⟩ := hc.others j hj
        rw [Function.update_of_ne hj, hk']
        exact .inr rfl
    · have hwaits (j : Fin n) : (s.team.threads j).waits = true := by
        change ((s.workers j).thread s.barGen).waits = true
        rcases eq_or_ne j i with rfl | hj
        · rw [hi]
          rfl
        · obtain ⟨k', hk'⟩ := hc.others j hj
          simp [hk', Bar.thread, Thread.waits]
      rw [Team.step, if_pos hwaits]
      refine congrArg some (congrArg (Team.mk s.mem) (funext fun j => ?_))
      change ((s.workers j).thread s.barGen).opened =
        (Function.update s.workers i (.run k) j).thread (s.barGen + 1)
      rcases eq_or_ne j i with rfl | hj
      · rw [Function.update_self, hi]
        rfl
      · obtain ⟨k', hk'⟩ := hc.others j hj
        simp [hj, hk', Bar.thread, Thread.opened]
  | spin g k =>
    simp only [hi] at ht
    obtain rfl := Option.some.inj ht
    by_cases hg : s.barGen = g
    · -- it looks again
      have hsame : { s with workers := Function.update s.workers i (.spin g k) } = s := by
        rw [← hi, Function.update_eq_self]
      rw [if_pos hg, hsame]
      exact ⟨h, .inl rfl⟩
    · rw [if_neg hg]
      rw [hi] at hnone
      have hno := hnone (fun k' hk' => hg (Bar.spin.inj hk').1.symm) rfl
      refine ⟨h.update s.mem hno trivial rfl ?_, .inl ?_⟩
      · rw [hi]
        simp [Bar.arrived, Ne.symm hg]
      · refine Bars.team_same ?_
        rw [hi]
        simp [Bar.thread, Ne.symm hg]

/-! ### The accesses of a worker -/

/-- Where a worker is after an access other than a poll in vain. -/
inductive Bar.After : Bar L V α → Bar L V α → Prop
  | load {l : L} {k : V l → Prog L V α} (v : V l) : After (.run (k v)) (.run (.load l k))
  | store {l : L} {v : V l} {k : Prog L V α} : After (.run k) (.run (.store l v k))
  | enter {k : Prog L V α} (g : BitVec 32) : After (.arrive g k) (.run (.barrier k))
  | last {g : BitVec 32} {k : Prog L V α} : After (.reset g k) (.arrive g k)
  | wait {g : BitVec 32} {k : Prog L V α} : After (.spin g k) (.arrive g k)
  | reset {g : BitVec 32} {k : Prog L V α} : After (.release g k) (.reset g k)
  | release {g : BitVec 32} {k : Prog L V α} : After (.run k) (.release g k)
  | leave {g : BitVec 32} {k : Prog L V α} : After (.run k) (.spin g k)

/-- A barrier takes finitely many accesses, and then the program behind it goes on. -/
theorem Bar.acc_arrive {k : Prog L V α} (hk : Acc Bar.After (.run k)) (g : BitVec 32) :
    Acc Bar.After (.spin g k) ∧ Acc Bar.After (.release g k) ∧ Acc Bar.After (.reset g k) ∧
      Acc Bar.After (.arrive g k) := by
  have hspin : Acc Bar.After (.spin g k) := Acc.intro _ fun b hb => by
    cases hb
    exact hk
  have hrelease : Acc Bar.After (.release g k) := Acc.intro _ fun b hb => by
    cases hb
    exact hk
  have hreset : Acc Bar.After (.reset g k) := Acc.intro _ fun b hb => by
    cases hb
    exact hrelease
  refine ⟨hspin, hrelease, hreset, Acc.intro _ fun b hb => ?_⟩
  cases hb with
  | last => exact hreset
  | wait => exact hspin

theorem Bar.acc_run (p : Prog L V α) : Acc Bar.After (.run p) := by
  induction p with
  | pure a => exact Acc.intro _ fun b hb => by cases hb
  | load l k ih =>
    refine Acc.intro _ fun b hb => ?_
    cases hb
    exact ih _
  | store l v k ih =>
    refine Acc.intro _ fun b hb => ?_
    cases hb
    exact ih
  | barrier k ih =>
    refine Acc.intro _ fun b hb => ?_
    cases hb with
    | enter g => exact (Bar.acc_arrive ih g).2.2.2

/-- A worker comes to an end: its program is finite, and polls in vain are not counted. -/
theorem Bar.after_wellFounded : WellFounded (Bar.After : Bar L V α → Bar L V α → Prop) := by
  refine ⟨fun b => ?_⟩
  cases b with
  | run p => exact Bar.acc_run p
  | arrive g k => exact (Bar.acc_arrive (Bar.acc_run k) g).2.2.2
  | reset g k => exact (Bar.acc_arrive (Bar.acc_run k) g).2.2.1
  | release g k => exact (Bar.acc_arrive (Bar.acc_run k) g).2.1
  | spin g k => exact (Bar.acc_arrive (Bar.acc_run k) g).1

/-! ### Runs -/

variable [DecidableEq L] {P : Fin n → Prog L V α} {m : ∀ l, V l} {g : BitVec 32}

/-- The words are kept in every run of at least one worker. -/
theorem barrier_invariant (hn : 0 < n) : (bars P m g).Invariant Barrier where
  start s hs := by
    obtain rfl : s = ⟨m, 0, g, fun i => .run (P i)⟩ := hs
    exact ⟨fun _ => trivial, .inl ⟨fun _ => rfl, (tally_eq_zero.mpr fun _ => rfl).symm, ⟨0, hn⟩, rfl⟩⟩
  step s i t _ hs ht := (hs.step ht).1

/-- **The barrier refines the plain one**: each run of the workers is a run of the team. -/
theorem bars_refine (hn : 0 < n) (hs : (bars P m g).Reachable s) :
    (team P m).Reachable s.team := by
  induction hs with
  | start h =>
    obtain rfl : _ = (⟨m, 0, g, fun i => .run (P i)⟩ : Bars n L V α) := h
    exact .start rfl
  | step hr ht ih =>
    rcases (((barrier_invariant hn).holds hr).step ht).2 with hsame | ⟨a, ha⟩
    · rwa [hsame]
    · exact .step ih ha

/-- A worker has finished. -/
def Bar.Done (b : Bar L V α) : Prop := ∃ a, b = .run (.pure a)

/-- A poll that finds nothing new. -/
def Bars.Futile (s : Bars n L V α) (i : Fin n) : Prop := ∃ k, s.workers i = .spin s.barGen k

/-- If the team can make a step, some worker can, and not only to look again. -/
theorem Barrier.exists_progress (h : Barrier s) {a : Team.Act (Fin n)} {r : Team (Fin n) L V α}
    (ha : s.team.step a = some r) : ∃ i t, s.step i = some t ∧ ¬ s.Futile i := by
  -- whoever closes the barrier can go on
  have hclosing (i : Fin n) (hi : (s.workers i).closing = true) :
      ∃ i t, s.step i = some t ∧ ¬ s.Futile i := by
    refine ⟨i, ?_⟩
    rw [Bars.step, Bars.Futile]
    cases hw : s.workers i <;> simp [hw, Bar.closing] at hi ⊢
  cases a with
  | openBarrier =>
    rw [Team.step] at ha
    split_ifs at ha with hall
    rcases h.phase with hg | ⟨i, hi⟩
    · -- somebody is still to come, and does not wait
      obtain ⟨i, hi⟩ := hg.short
      have hwait := hall i
      have hquiet := hg.quiet i
      change ((s.workers i).thread s.barGen).waits = true at hwait
      cases hw : s.workers i with
      | spin g' k =>
        rw [hw] at hi hwait
        have hg' : g' ≠ s.barGen := by simpa [Bar.arrived] using hi
        simp [Bar.thread, hg', Thread.waits] at hwait
      | run p => simp [hw, Bar.thread, Thread.waits] at hwait
      | arrive g' k => simp [hw, Bar.thread, Thread.waits] at hwait
      | reset g' k => simp [hw, Bar.closing] at hquiet
      | release g' k => simp [hw, Bar.closing] at hquiet
    · exact hclosing i hi.closing
  | move i =>
    obtain ⟨x, hx, -⟩ := Option.map_eq_some_iff.mp ha
    change ((s.workers i).thread s.barGen).step s.mem = some x at hx
    refine ⟨i, ?_⟩
    rw [Bars.step, Bars.Futile]
    cases hw : s.workers i with
    | run p =>
      rw [hw] at hx
      cases p <;> simp [Bar.thread, Thread.step] at hx ⊢
    | spin g' k =>
      rw [hw] at hx
      by_cases hg : g' = s.barGen
      · simp [Bar.thread, hg, Thread.step] at hx
      · refine ⟨_, rfl, ?_⟩
        rintro ⟨k', hk'⟩
        exact hg (Bar.spin.inj hk').1
    | arrive g' k => simp
    | reset g' k => simp
    | release g' k => simp

/-! ### Runs that end -/

/-- A step that is no poll in vain brings one worker forward. -/
theorem Bars.step_after {s t : Bars n L V α} {i : Fin n} (ht : s.step i = some t)
    (hi : ¬ s.Futile i) :
    ∃ b, Bar.After b (s.workers i) ∧ t.workers = Function.update s.workers i b := by
  rw [Bars.step] at ht
  cases hw : s.workers i with
  | run p =>
    cases p with
    | pure a => simp [hw] at ht
    | load l k =>
      simp only [hw] at ht
      obtain rfl := Option.some.inj ht
      exact ⟨_, .load _, rfl⟩
    | store l v k =>
      simp only [hw] at ht
      obtain rfl := Option.some.inj ht
      exact ⟨_, .store, rfl⟩
    | barrier k =>
      simp only [hw] at ht
      obtain rfl := Option.some.inj ht
      exact ⟨_, .enter _, rfl⟩
  | arrive g k =>
    simp only [hw] at ht
    obtain rfl := Option.some.inj ht
    refine ⟨_, ?_, rfl⟩
    split_ifs
    · exact .last
    · exact .wait
  | reset g k =>
    simp only [hw] at ht
    obtain rfl := Option.some.inj ht
    exact ⟨_, .reset, rfl⟩
  | release g k =>
    simp only [hw] at ht
    obtain rfl := Option.some.inj ht
    exact ⟨_, .release, rfl⟩
  | spin g k =>
    simp only [hw] at ht
    obtain rfl := Option.some.inj ht
    have hg : s.barGen ≠ g := by
      rintro rfl
      exact hi ⟨k, hw⟩
    rw [if_neg hg]
    exact ⟨_, .leave, rfl⟩

/-- If in every run somebody who is not done can go on, there is a run in which all finish. -/
theorem exists_finished (hgo : ∀ s, (bars P m g).Reachable s → (∃ i, ¬ (s.workers i).Done) →
    ∃ i t, s.step i = some t ∧ ¬ s.Futile i) :
    ∃ s, (bars P m g).Reachable s ∧ ∀ i, (s.workers i).Done := by
  have hwf : WellFounded (Pi.Lex (· < ·) fun {_ : Fin n} =>
      (Bar.After : Bar L V α → Bar L V α → Prop)) :=
    Pi.Lex.wellFounded _ fun _ => Bar.after_wellFounded
  -- the workers of a step that brings one forward come before those of the state it starts in
  have hfrom (w : Fin n → Bar L V α) : ∀ s, (bars P m g).Reachable s → s.workers = w →
      ∃ s, (bars P m g).Reachable s ∧ ∀ i, (s.workers i).Done := by
    induction w using hwf.induction with
    | _ w ih =>
      rintro s hs rfl
      by_cases hdone : ∀ i, (s.workers i).Done
      · exact ⟨s, hs, hdone⟩
      · obtain ⟨i, t, ht, hi⟩ := hgo s hs (not_forall.mp hdone)
        obtain ⟨b, hb, hw⟩ := Bars.step_after ht hi
        refine ih t.workers ⟨i, fun j hj => ?_, ?_⟩ t (.step hs ht) rfl
        · rw [hw, Function.update_of_ne hj.ne]
        · rw [hw, Function.update_self]
          exact hb
  exact hfrom _ _ (.start rfl) rfl

end CpuMoe

end VllmMoet
