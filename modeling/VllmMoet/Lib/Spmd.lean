import Mathlib.Logic.Nonempty
import Mathlib.Tactic.Common

/-!
# Programs that meet in collectives

The ranks of a group run one program each. A rank decides by itself (`choose`), meets the others
in a collective (`coll`), where all of them get the combined value, or is done. A collective
completes only when every rank has come to it: a group whose ranks have come to different ones,
or of which one is done while another waits, is stuck for good.

* `Runs`: a group runs to its end through these collectives.
* `Lockstep`: it does so, and the ranks fail all together or not at all.
* `Agrees`: wherever the group comes to decide, all ranks decide alike. `agrees_loop`
  says of a loop at which verdicts that is.
* `Sound`: a group is in lockstep exactly if it agrees. It is built up from the end of a program:
  `sound_choose` asks that the two ways of a decision can be told apart by what comes next.
-/

namespace VllmMoet

variable {ι Op V O : Type*}

/-- What a rank does. -/
inductive Spmd (Op V O : Type*)
  | done (o : O)
  | choose (b : Bool) (k : Bool → Spmd Op V O)
  | coll (op : Op) (x : V) (k : V → Spmd Op V O)

namespace Spmd

/-- What a rank comes to after its own decisions. -/
def resolve : Spmd Op V O → Spmd Op V O
  | done o => done o
  | choose b k => (k b).resolve
  | coll op x k => coll op x k

@[simp]
theorem resolve_done (o : O) : (done o : Spmd Op V O).resolve = done o := rfl

@[simp]
theorem resolve_choose (b : Bool) (k : Bool → Spmd Op V O) :
    (choose b k).resolve = (k b).resolve := rfl

@[simp]
theorem resolve_coll (op : Op) (x : V) (k : V → Spmd Op V O) :
    (coll op x k).resolve = coll op x k := rfl

/-- What the others see of that: a collective, or whether the rank has failed. -/
def head (fails : O → Bool) : Spmd Op V O → Op ⊕ Bool
  | done o => .inr (fails o)
  | choose b k => (k b).head fails
  | coll op _ _ => .inl op

@[simp]
theorem head_done (fails : O → Bool) (o : O) :
    (done o : Spmd Op V O).head fails = .inr (fails o) := rfl

@[simp]
theorem head_choose (fails : O → Bool) (b : Bool) (k : Bool → Spmd Op V O) :
    (choose b k).head fails = (k b).head fails := rfl

@[simp]
theorem head_coll (fails : O → Bool) (op : Op) (x : V) (k : V → Spmd Op V O) :
    (coll op x k).head fails = .inl op := rfl

/-- Verdicts are taken before anything is shown. -/
theorem head_resolve (fails : O → Bool) (p : Spmd Op V O) :
    p.resolve.head fails = p.head fails := by
  induction p with
  | done o => rfl
  | choose b k ih => exact ih b
  | coll op x k _ => rfl

/-! ### Runs of a group -/

variable (comb : Op → (ι → V) → V)

/-- The group runs to its end through the collectives `ops`, and its ranks end with `o`. -/
inductive Runs : (ι → Spmd Op V O) → List Op → (ι → O) → Prop
  | done {p : ι → Spmd Op V O} {o : ι → O} (h : ∀ i, (p i).resolve = .done (o i)) : Runs p [] o
  | coll {p : ι → Spmd Op V O} {op : Op} {x : ι → V} {k : ι → V → Spmd Op V O} {ops : List Op}
      {o : ι → O} (h : ∀ i, (p i).resolve = .coll op (x i) (k i))
      (rest : Runs (fun i => k i (comb op x)) ops o) : Runs p (op :: ops) o

/-- The group runs to its end, and its ranks fail together or not at all. -/
def Lockstep (fails : O → Bool) (p : ι → Spmd Op V O) : Prop :=
  ∃ ops o, Runs comb p ops o ∧ ∀ i j, fails (o i) = fails (o j)

/-- Wherever the group comes to decide, its ranks decide alike. -/
inductive Agrees : (ι → Spmd Op V O) → Prop
  | done {p : ι → Spmd Op V O} (o : ι → O) (h : ∀ i, p i = .done (o i)) : Agrees p
  | choose {p : ι → Spmd Op V O} (b : Bool) (k : ι → Bool → Spmd Op V O)
      (h : ∀ i, p i = .choose b (k i)) (rest : Agrees fun i => k i b) : Agrees p
  | coll {p : ι → Spmd Op V O} (op : Op) (x : ι → V) (k : ι → V → Spmd Op V O)
      (h : ∀ i, p i = .coll op (x i) (k i)) (rest : Agrees fun i => k i (comb op x)) : Agrees p

variable {comb} {p q : ι → Spmd Op V O} {ops ops' : List Op} {o o' : ι → O} {fails : O → Bool}

/-- A run is one of what the ranks come to. -/
theorem Runs.congr (h : ∀ i, (p i).resolve = (q i).resolve) (hr : Runs comb p ops o) :
    Runs comb q ops o := by
  cases hr with
  | done hd => exact .done fun i => (h i).symm.trans (hd i)
  | coll hc rest => exact .coll (fun i => (h i).symm.trans (hc i)) rest

/-- Every rank follows its own verdict. -/
theorem runs_choose {b : ι → Bool} {k : ι → Bool → Spmd Op V O} :
    Runs comb (fun i => choose (b i) (k i)) ops o ↔ Runs comb (fun i => k i (b i)) ops o :=
  ⟨.congr fun _ => rfl, .congr fun _ => rfl⟩

/-- All ranks go on with the combined value. -/
theorem runs_coll [Nonempty ι] {op : Op} {x : ι → V} {k : ι → V → Spmd Op V O} :
    Runs comb (fun i => coll op (x i) (k i)) ops o ↔
      ∃ rest, ops = op :: rest ∧ Runs comb (fun i => k i (comb op x)) rest o := by
  constructor
  · intro h
    obtain ⟨i₀⟩ := ‹Nonempty ι›
    cases h with
    | done hd => exact absurd (hd i₀) (by simp)
    | @coll _ op' x' k' rest _ hc hrest =>
      have hop : op = op' := (coll.inj (hc i₀)).1
      have hx : x = x' := funext fun i => (coll.inj (hc i)).2.1
      have hk : k = k' := funext fun i => (coll.inj (hc i)).2.2
      subst hop hx hk
      exact ⟨rest, rfl, hrest⟩
  · rintro ⟨rest, rfl, hrest⟩
    exact .coll (fun _ => rfl) hrest

/-- A group has one run. -/
theorem Runs.unique [Nonempty ι] (h : Runs comb p ops o) (h' : Runs comb p ops' o') :
    ops = ops' ∧ o = o' := by
  obtain ⟨i₀⟩ := ‹Nonempty ι›
  induction h generalizing ops' o' with
  | done hd =>
    cases h' with
    | done hd' => exact ⟨rfl, funext fun i => done.inj ((hd i).symm.trans (hd' i))⟩
    | coll hc' _ => exact absurd ((hd i₀).symm.trans (hc' i₀)) (by simp)
  | @coll p op x k ops o hc rest ih =>
    cases h' with
    | done hd' => exact absurd ((hc i₀).symm.trans (hd' i₀)) (by simp)
    | @coll _ op' x' k' ops' _ hc' rest' =>
      have heq := fun i => coll.inj ((hc i).symm.trans (hc' i))
      have hop : op = op' := (heq i₀).1
      have hx : x = x' := funext fun i => (heq i).2.1
      have hk : k = k' := funext fun i => (heq i).2.2
      subst hop hx hk
      obtain ⟨hops, ho⟩ := ih rest'
      exact ⟨congrArg _ hops, ho⟩

/-- The ranks of a group that runs to its end in lockstep show each other the same. -/
theorem Lockstep.head_eq (h : Lockstep comb fails p) (i j : ι) :
    (p i).head fails = (p j).head fails := by
  obtain ⟨ops, o, hr, hf⟩ := h
  rw [← head_resolve, ← head_resolve fails (p j)]
  cases hr with
  | done hd => rw [hd, hd, head_done, head_done, hf i j]
  | coll hc _ => rw [hc, hc, head_coll, head_coll]

/-- A verdict keeps the ranks in lockstep if what follows it does. -/
theorem lockstep_choose {b : ι → Bool} {k : ι → Bool → Spmd Op V O} :
    Lockstep comb fails (fun i => choose (b i) (k i)) ↔
      Lockstep comb fails fun i => k i (b i) := by
  simp only [Lockstep, runs_choose]

/-- A collective keeps the ranks in lockstep if what follows its result does. -/
theorem lockstep_coll [Nonempty ι] {op : Op} {x : ι → V} {k : ι → V → Spmd Op V O} :
    Lockstep comb fails (fun i => coll op (x i) (k i)) ↔
      Lockstep comb fails fun i => k i (comb op x) := by
  constructor
  · rintro ⟨ops, o, hr, hf⟩
    obtain ⟨rest, -, hrest⟩ := runs_coll.mp hr
    exact ⟨rest, o, hrest, hf⟩
  · rintro ⟨ops, o, hr, hf⟩
    exact ⟨op :: ops, o, runs_coll.mpr ⟨ops, rfl, hr⟩, hf⟩

/-- Agreement asks one verdict of all ranks. -/
theorem agrees_choose [Nonempty ι] {b : ι → Bool} {k : ι → Bool → Spmd Op V O} :
    Agrees comb (fun i => choose (b i) (k i)) ↔
      ∃ b₀, (∀ i, b i = b₀) ∧ Agrees comb fun i => k i b₀ := by
  constructor
  · intro h
    obtain ⟨i₀⟩ := ‹Nonempty ι›
    cases h with
    | done o hd => exact absurd (hd i₀) (by simp)
    | choose b' k' hc rest =>
      have hk : k = k' := funext fun i => (choose.inj (hc i)).2
      subst hk
      exact ⟨b', fun i => (choose.inj (hc i)).1, rest⟩
    | coll op x k' hc _ => exact absurd (hc i₀) (by simp)
  · rintro ⟨b₀, hb, h⟩
    exact .choose b₀ k (fun i => by rw [hb i]) h

/-- Agreement goes on behind a collective. -/
theorem agrees_coll [Nonempty ι] {op : Op} {x : ι → V} {k : ι → V → Spmd Op V O} :
    Agrees comb (fun i => coll op (x i) (k i)) ↔ Agrees comb fun i => k i (comb op x) := by
  constructor
  · intro h
    obtain ⟨i₀⟩ := ‹Nonempty ι›
    cases h with
    | done o hd => exact absurd (hd i₀) (by simp)
    | choose b' k' hc _ => exact absurd (hc i₀) (by simp)
    | coll op' x' k' hc rest =>
      have hop : op = op' := (coll.inj (hc i₀)).1
      have hx : x = x' := funext fun i => (coll.inj (hc i)).2.1
      have hk : k = k' := funext fun i => (coll.inj (hc i)).2.2
      subst hop hx hk
      exact rest
  · exact .coll op x k fun _ => rfl

/-! ### Loops -/

/-- The group comes to verdict `n` of a loop: at every verdict before, all ranks decide to go on and
what follows is `ok`. -/
def Comes (go : ι → ℕ → Bool) (ok : ℕ → Prop) (n : ℕ) : Prop :=
  ∀ m < n, (∀ i, go i m = true) ∧ ok m

section Loop

variable {go : ι → ℕ → Bool} {ok : ℕ → Prop} {n m : ℕ}

theorem comes_zero (go : ι → ℕ → Bool) (ok : ℕ → Prop) : Comes go ok 0 :=
  fun _ hm => absurd hm (Nat.not_lt_zero _)

/-- One more turn of a loop. -/
theorem comes_succ : Comes go ok (n + 1) ↔ Comes go ok n ∧ (∀ i, go i n = true) ∧ ok n :=
  Nat.forall_lt_succ_right

/-- Past a verdict to stop there is none. -/
theorem Comes.eq_of_stop (h : Comes go ok m) (hle : n ≤ m) {i : ι} (hi : go i n = false) :
    m = n := by
  rcases Nat.eq_or_lt_of_le hle with heq | hlt
  · exact heq.symm
  · simpa [hi] using (h n hlt).1 i

/-- A loop with at most `N` rounds agrees exactly if the ranks agree at every verdict that they
come to and, where they stop, in what comes after the loop. `loop fuel n` is the loop at its
verdict `n` with `fuel` more to come. -/
theorem agrees_loop [Nonempty ι] {N : ℕ} (go : ι → ℕ → Bool) (ok : ℕ → Prop)
    (loop : ℕ → ℕ → ι → Spmd Op V O) (exit : ℕ → ι → Spmd Op V O)
    (hbound : ∀ i, go i N = false) (hzero : loop 0 N = exit N)
    (hsucc : ∀ fuel n, Agrees comb (loop (fuel + 1) n) ↔ ∃ b, (∀ i, go i n = b) ∧
      if b then ok n → Agrees comb (loop fuel (n + 1)) else Agrees comb (exit n))
    (fuel n : ℕ) (hn : n + fuel = N) (h : Comes go ok n) :
    Agrees comb (loop fuel n) ↔
      (∀ m, n ≤ m → Comes go ok m → ∀ i j, go i m = go j m) ∧
        ∀ m, n ≤ m → Comes go ok m → (∀ i, go i m = false) → Agrees comb (exit m) := by
  obtain ⟨i₀⟩ := ‹Nonempty ι›
  induction fuel generalizing n with
  | zero =>
    obtain rfl : n = N := hn
    rw [hzero]
    refine ⟨fun ha => ⟨fun m hm hc i j => ?_, fun m hm hc _ => ?_⟩,
      fun hall => hall.2 n (Nat.le_refl n) h hbound⟩
    · rw [hc.eq_of_stop hm (hbound i₀), hbound, hbound]
    · rwa [hc.eq_of_stop hm (hbound i₀)]
  | succ fuel ih =>
    rw [hsucc]
    constructor
    · rintro ⟨b, hb, hrest⟩
      cases b with
      | false =>
        refine ⟨fun m hm hc i j => ?_, fun m hm hc _ => ?_⟩
        · rw [hc.eq_of_stop hm (hb i₀), hb, hb]
        · rwa [hc.eq_of_stop hm (hb i₀)]
      | true =>
        -- either the next verdict is come to, or this is the last one
        have hlater : ∀ m, n ≤ m → Comes go ok m → m ≠ n → ok n ∧ n + 1 ≤ m := by
          intro m hm hc hne
          exact ⟨(hc n (by omega)).2, by omega⟩
        refine ⟨fun m hm hc i j => ?_, fun m hm hc hstop => ?_⟩
        · by_cases hne : m = n
          · rw [hne, hb, hb]
          · obtain ⟨hok, hle⟩ := hlater m hm hc hne
            exact ((ih (n + 1) (by omega) (comes_succ.mpr ⟨h, hb, hok⟩)).mp (hrest hok)).1
              m hle hc i j
        · have hne : m ≠ n := by
            rintro rfl
            simpa [hb i₀] using hstop i₀
          obtain ⟨hok, hle⟩ := hlater m hm hc hne
          exact ((ih (n + 1) (by omega) (comes_succ.mpr ⟨h, hb, hok⟩)).mp (hrest hok)).2
            m hle hc hstop
    · rintro ⟨hsame, hexit⟩
      have hb : ∀ i, go i n = go i₀ n := fun i => hsame n (Nat.le_refl n) h i i₀
      refine ⟨go i₀ n, hb, ?_⟩
      split_ifs with hgo
      · intro hok
        have hb' : ∀ i, go i n = true := fun i => (hb i).trans hgo
        exact (ih (n + 1) (by omega) (comes_succ.mpr ⟨h, hb', hok⟩)).mpr
          ⟨fun m hm => hsame m (by omega), fun m hm => hexit m (by omega)⟩
      · exact hexit n (Nat.le_refl n) h fun i => (hb i).trans (Bool.eq_false_iff.mpr hgo)

end Loop

/-! ### Lockstep is agreement -/

variable (comb fails) in
/-- The group is in lockstep exactly if it agrees. -/
def Sound (p : ι → Spmd Op V O) : Prop :=
  Lockstep comb fails p ↔ Agrees comb p

theorem sound_done (h : ∀ i j, fails (o i) = fails (o j)) :
    Sound comb fails fun i => (done (o i) : Spmd Op V O) :=
  iff_of_true ⟨[], o, .done fun _ => rfl, h⟩ (.done o fun _ => rfl)

theorem sound_coll [Nonempty ι] {op : Op} {x : ι → V} {k : ι → V → Spmd Op V O}
    (h : Sound comb fails fun i => k i (comb op x)) :
    Sound comb fails fun i => coll op (x i) (k i) :=
  lockstep_coll.trans (h.trans agrees_coll.symm)

/-- Two ranks that decide differently come to what the others can tell apart. -/
theorem sound_choose [Nonempty ι] {b : ι → Bool} {k : ι → Bool → Spmd Op V O}
    (hhead : ∀ i j, i ≠ j → (k i true).head fails ≠ (k j false).head fails)
    (h : ∀ b₀, (∀ i, b i = b₀) → Sound comb fails fun i => k i b₀) :
    Sound comb fails fun i => choose (b i) (k i) := by
  by_cases hb : ∃ b₀, ∀ i, b i = b₀
  · obtain ⟨b₀, hb⟩ := hb
    have hsame : (fun i => k i (b i)) = fun i => k i b₀ := funext fun i => by rw [hb i]
    rw [Sound, lockstep_choose, hsame]
    refine (h b₀ hb).trans ⟨fun ha => agrees_choose.mpr ⟨b₀, hb, ha⟩, fun ha => ?_⟩
    obtain ⟨b₁, hb₁, ha⟩ := agrees_choose.mp ha
    obtain ⟨i₀⟩ := ‹Nonempty ι›
    rwa [← hb i₀, hb₁ i₀]
  · -- one rank goes on and another does not
    have hsplit : ∃ i j, b i = true ∧ b j = false := by
      by_contra hno
      refine hb (Classical.byCases (fun hi : ∃ i, b i = true => ⟨true, fun j => ?_⟩)
        fun hi => ⟨false, fun j => by simpa using fun hj => hi ⟨j, hj⟩⟩)
      obtain ⟨i, hi⟩ := hi
      simpa using fun hj => hno ⟨i, j, hi, hj⟩
    obtain ⟨i, j, hi, hj⟩ := hsplit
    refine iff_of_false (fun hl => ?_) fun ha => ?_
    · have heq := hl.head_eq i j
      simp only [head_choose, hi, hj] at heq
      exact hhead i j (by rintro rfl; simp [hi] at hj) heq
    · obtain ⟨b₀, hb₀, -⟩ := agrees_choose.mp ha
      exact hb ⟨b₀, hb₀⟩

end Spmd

end VllmMoet
