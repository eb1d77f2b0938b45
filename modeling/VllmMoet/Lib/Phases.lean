import Mathlib.Data.Fintype.Defs
import Mathlib.Data.List.Nodup
import Mathlib.Logic.Nonempty
import Mathlib.Logic.Function.Basic
import Mathlib.Tactic.Common
import VllmMoet.Lib.Transition

/-!
# Threads that share their work between barriers

A thread is a program of loads, stores and barriers. The threads of a team run interleaved on one
memory; a barrier opens when all of them have come to it. Between two barriers is a phase.

* `Prog`: programs, a monad; `Prog.exec` runs one by itself and takes no notice of barriers;
* `Prog.writes`, `Prog.ending`: what a program stores until its next barrier, and what is left of
  it, where its loads are answered by the memory at the beginning of the phase;
* `OneOwner`: each place is stored to by one thread of the team at most, and then as often and as
  one program does that has all the work to do;
* `Shares`: phase by phase, a team shares out the work of one program, and loads nothing that is
  stored in the same phase;
* `SharedWork`: the same for a work between two barriers; how such works are put together;
* `Shares.mem_eq`, `Shares.exists_step`: then every interleaving ends in the memory of that program,
  and none gets stuck.
-/

namespace VllmMoet

universe u v w

/-! ### Lists put together from parts -/

section Lists

variable {α : Type u} {β : Type v}

/-- Only one member of the list has a part. -/
theorem flatMap_eq_single {l : List α} (hl : l.Nodup) {f : α → List β} {x : α} (hx : x ∈ l)
    (h : ∀ y ∈ l, y ≠ x → f y = []) : l.flatMap f = f x := by
  induction l with
  | nil => simp at hx
  | cons y l ih =>
    obtain ⟨hy, hl⟩ := List.nodup_cons.mp hl
    rw [List.flatMap_cons]
    rcases eq_or_ne y x with rfl | hne
    · have hrest : l.flatMap f = [] := List.flatMap_eq_nil_iff.mpr fun z hz =>
        h z (List.mem_cons_of_mem y hz) fun hzy => hy (hzy ▸ hz)
      rw [hrest, List.append_nil]
    · rw [h y List.mem_cons_self hne, List.nil_append]
      exact ih hl ((List.mem_cons.mp hx).resolve_left hne.symm) fun z hz =>
        h z (List.mem_cons_of_mem y hz)

/-- A filtered list of images, member by member. -/
theorem filter_map_eq_flatMap (p : β → Bool) (f : α → β) (l : List α) :
    (l.map f).filter p = l.flatMap fun x => if p (f x) then [f x] else [] := by
  induction l with
  | nil => rfl
  | cons x l ih =>
    rw [List.map_cons, List.filter_cons, List.flatMap_cons, ih]
    split_ifs <;> rfl

end Lists

variable {L : Type u} {V : L → Type v} {α β : Type w}

/-! ### Programs -/

/-- A program with a result. -/
inductive Prog (L : Type u) (V : L → Type v) (α : Type w)
  | pure (a : α)
  | load (l : L) (k : V l → Prog L V α)
  | store (l : L) (v : V l) (k : Prog L V α)
  | barrier (k : Prog L V α)

namespace Prog

/-- One program after the other. -/
def bind : Prog L V α → (α → Prog L V β) → Prog L V β
  | pure a, f => f a
  | load l k, f => load l fun v => (k v).bind f
  | store l v k, f => store l v (k.bind f)
  | barrier k, f => barrier (k.bind f)

instance : Monad (Prog L V) where
  pure := pure
  bind := bind

/-- A load, a store and a barrier as programs. -/
def read (l : L) : Prog L V (V l) := load l pure

def write (l : L) (v : V l) : Prog L V PUnit := store l v (pure ⟨⟩)

def meet : Prog L V PUnit := barrier (pure ⟨⟩)

/-- A loop over a list. -/
def forEach {κ : Type*} : List κ → (κ → Prog L V PUnit.{w + 1}) → Prog L V PUnit.{w + 1}
  | [], _ => Pure.pure ⟨⟩
  | x :: l, g => do
    let _ ← g x
    forEach l g

/-- The values of the first `n` places of a family. -/
def readAll [∀ l, Inhabited (V l)] (l : ℕ → L) : ℕ → Prog L V (∀ i, V (l i))
  | 0 => Pure.pure fun _ => default
  | n + 1 => do
    let f ← readAll l n
    let x ← read (l n)
    Pure.pure (Function.update f n x)

variable [DecidableEq L]

/-- A program run by itself: its memory in the end. -/
def exec : Prog L V α → (∀ l, V l) → ∀ l, V l
  | pure _, m => m
  | load l k, m => (k (m l)).exec m
  | store l v k, m => k.exec (Function.update m l v)
  | barrier k, m => k.exec m

/-- What a program stores until its next barrier. -/
def writes (m : ∀ l, V l) : Prog L V α → List (Σ l, V l)
  | pure _ => []
  | load l k => (k (m l)).writes m
  | store l v k => ⟨l, v⟩ :: k.writes m
  | barrier _ => []

/-- Its result if it ends without one, or else what is left of it. -/
def ending (m : ∀ l, V l) : Prog L V α → α ⊕ Prog L V α
  | pure a => .inl a
  | load l k => (k (m l)).ending m
  | store _ _ k => k.ending m
  | barrier k => .inr k

/-- Until its next barrier it loads only from `R` and stores only to `W`. -/
def Uses (R W : L → Prop) : Prog L V α → Prop
  | pure _ => True
  | load l k => R l ∧ ∀ v, (k v).Uses R W
  | store l _ k => W l ∧ k.Uses R W
  | barrier _ => True

/-! ### Programs put together -/

omit [DecidableEq L] in
theorem bind_pure' (p : Prog L V α) : p.bind pure = p := by
  induction p with
  | pure a => rfl
  | load l k ih => exact congrArg (load l) (funext ih)
  | store l v k ih => exact congrArg (store l v) ih
  | barrier k ih => exact congrArg barrier ih

omit [DecidableEq L] in
theorem bind_assoc' {γ : Type w} (p : Prog L V α) (f : α → Prog L V β) (g : β → Prog L V γ) :
    (p.bind f).bind g = p.bind fun a => (f a).bind g := by
  induction p with
  | pure a => rfl
  | load l k ih => exact congrArg (load l) (funext ih)
  | store l v k ih => exact congrArg (store l v) ih
  | barrier k ih => exact congrArg barrier ih

instance : LawfulMonad (Prog L V) := .mk' _ bind_pure' (fun _ _ => rfl) bind_assoc'

variable {m : ∀ l, V l} {p : Prog L V α} {f : α → Prog L V β} {R W R' W' : L → Prop}

omit [DecidableEq L]

@[simp]
theorem writes_pure (a : α) : (Pure.pure a : Prog L V α).writes m = [] := rfl

@[simp]
theorem ending_pure (a : α) : (Pure.pure a : Prog L V α).ending m = .inl a := rfl

@[simp]
theorem writes_read (l : L) : (read l : Prog L V (V l)).writes m = [] := rfl

@[simp]
theorem ending_read (l : L) : (read l : Prog L V (V l)).ending m = .inl (m l) := rfl

@[simp]
theorem writes_write (l : L) (x : V l) : (write l x : Prog L V PUnit).writes m = [⟨l, x⟩] := rfl

@[simp]
theorem ending_write (l : L) (x : V l) : (write l x : Prog L V PUnit).ending m = .inl ⟨⟩ := rfl

@[simp]
theorem writes_meet : (meet : Prog L V PUnit).writes m = [] := rfl

@[simp]
theorem ending_meet : (meet : Prog L V PUnit).ending m = .inr (Pure.pure ⟨⟩) := rfl

/-- The stores of the first program, and those of the second if it is come to. -/
theorem writes_bind : (p >>= f).writes m =
    p.writes m ++ (match p.ending m with
      | .inl a => (f a).writes m
      | .inr _ => []) := by
  induction p with
  | pure a => rfl
  | load l k ih => exact ih (m l)
  | store l v k ih => exact congrArg (_ :: ·) ih
  | barrier k _ => rfl

theorem ending_bind : (p >>= f).ending m = match p.ending m with
    | .inl a => (f a).ending m
    | .inr k => .inr (k >>= f) := by
  induction p with
  | pure a => rfl
  | load l k ih => exact ih (m l)
  | store l v k ih => exact ih
  | barrier k _ => rfl

theorem Uses.pure (a : α) : (Pure.pure a : Prog L V α).Uses R W := trivial

theorem Uses.read {l : L} (h : R l) : (read l : Prog L V (V l)).Uses R W := ⟨h, fun _ => trivial⟩

theorem Uses.write {l : L} {x : V l} (h : W l) : (write l x : Prog L V PUnit).Uses R W :=
  ⟨h, trivial⟩

theorem Uses.bind (h : p.Uses R W) (hf : ∀ a, (f a).Uses R W) : (p >>= f).Uses R W := by
  induction p with
  | pure a => exact hf a
  | load l k ih => exact ⟨h.1, fun v => ih v (h.2 v)⟩
  | store l v k ih => exact ⟨h.1, ih h.2⟩
  | barrier k _ => trivial

theorem Uses.mono (h : p.Uses R W) (hR : ∀ l, R l → R' l) (hW : ∀ l, W l → W' l) :
    p.Uses R' W' := by
  induction p with
  | pure a => trivial
  | load l k ih => exact ⟨hR l h.1, fun v => ih v (h.2 v)⟩
  | store l v k ih => exact ⟨hW l h.1, ih h.2⟩
  | barrier k _ => trivial

section Loop

variable {κ : Type*} {g : κ → Prog L V PUnit.{w + 1}} {l : List κ}

/-- A loop whose rounds come to no barrier. -/
theorem ending_forEach (h : ∀ x ∈ l, (g x).ending m = .inl ⟨⟩) :
    (forEach l g).ending m = .inl ⟨⟩ := by
  induction l with
  | nil => rfl
  | cons x l ih =>
    rw [forEach, ending_bind, h x List.mem_cons_self]
    exact ih fun y hy => h y (List.mem_cons_of_mem x hy)

theorem writes_forEach (h : ∀ x ∈ l, (g x).ending m = .inl ⟨⟩) :
    (forEach l g).writes m = l.flatMap fun x => (g x).writes m := by
  induction l with
  | nil => rfl
  | cons x l ih =>
    rw [forEach, writes_bind, h x List.mem_cons_self, List.flatMap_cons]
    exact congrArg _ (ih fun y hy => h y (List.mem_cons_of_mem x hy))

theorem Uses.forEach (h : ∀ x ∈ l, (g x).Uses R W) : (forEach l g).Uses R W := by
  induction l with
  | nil => trivial
  | cons x l ih =>
    exact (h x List.mem_cons_self).bind fun _ => ih fun y hy => h y (List.mem_cons_of_mem x hy)

end Loop

section ReadAll

variable [∀ l, Inhabited (V l)] {l : ℕ → L}

theorem ending_readAll (n : ℕ) : (readAll l n : Prog L V _).ending m =
    .inl fun i => if i < n then m (l i) else default := by
  induction n with
  | zero => rfl
  | succ n ih =>
    rw [readAll, ending_bind, ih]
    refine congrArg Sum.inl (funext fun i => ?_)
    rcases eq_or_ne i n with rfl | hne
    · rw [Function.update_self, if_pos (Nat.lt_succ_self i)]
    · have hiff : i < n + 1 ↔ i < n := by omega
      rw [Function.update_of_ne hne]
      simp only [hiff]

theorem writes_readAll (n : ℕ) : (readAll l n : Prog L V _).writes m = [] := by
  induction n with
  | zero => rfl
  | succ n ih =>
    rw [readAll, writes_bind, ih, ending_readAll]
    rfl

theorem Uses.readAll (h : ∀ i, R (l i)) (n : ℕ) : (readAll l n : Prog L V _).Uses R W := by
  induction n with
  | zero => trivial
  | succ n ih => exact ih.bind fun _ => ⟨h n, fun _ => trivial⟩

end ReadAll

-- the lemmas above say all of it; it must not be unfolded for a literal number of places
attribute [irreducible] readAll

end Prog

/-! ### Stores -/

section Stores

variable [DecidableEq L]

/-- Stores one after the other. -/
def storeAll (S : List (Σ l, V l)) (m : ∀ l, V l) : ∀ l, V l :=
  S.foldl (fun m x => Function.update m x.1 x.2) m

/-- Those to one place. -/
def storesTo (l : L) (S : List (Σ l, V l)) : List (Σ l, V l) := S.filter fun x => x.1 = l

variable {S T : List (Σ l, V l)} {m m' : ∀ l, V l} {l : L}

@[simp]
theorem storeAll_nil (m : ∀ l, V l) : storeAll [] m = m := rfl

theorem storeAll_cons (x : Σ l, V l) (S : List (Σ l, V l)) (m : ∀ l, V l) :
    storeAll (x :: S) m = storeAll S (Function.update m x.1 x.2) := rfl

theorem storeAll_append (S T : List (Σ l, V l)) (m : ∀ l, V l) :
    storeAll (S ++ T) m = storeAll T (storeAll S m) := List.foldl_append

@[simp]
theorem storesTo_nil (l : L) : storesTo l ([] : List (Σ l, V l)) = [] := rfl

theorem storesTo_append (l : L) (S T : List (Σ l, V l)) :
    storesTo l (S ++ T) = storesTo l S ++ storesTo l T := List.filter_append ..

theorem storesTo_eq_nil : storesTo l S = [] ↔ ∀ x ∈ S, x.1 ≠ l := by
  simp [storesTo]

/-- A place has what it had, or what was last stored there. -/
theorem storeAll_congr (hS : storesTo l S = storesTo l T) (hm : m l = m' l) :
    storeAll S m l = storeAll T m' l := by
  -- only the stores to the place count
  have honly (S : List (Σ l, V l)) (m m' : ∀ l, V l) (hm : m l = m' l) :
      storeAll S m l = storeAll (storesTo l S) m' l := by
    induction S generalizing m m' with
    | nil => exact hm
    | cons x S ih =>
      rw [storeAll_cons, storesTo, List.filter_cons]
      rcases eq_or_ne x.1 l with rfl | hne
      · rw [if_pos (decide_eq_true rfl), storeAll_cons]
        exact ih _ _ (by rw [Function.update_self, Function.update_self])
      · rw [if_neg (by simpa using hne)]
        exact ih _ _ (by rw [Function.update_of_ne hne.symm, hm])
  rw [honly S m m' hm, hS, ← honly T m' m' rfl]

theorem storesTo_map_eq_nil {κ : Type*} {xs : List κ} {f : κ → Σ l, V l}
    (h : ∀ x ∈ xs, (f x).1 ≠ l) : storesTo l (xs.map f) = [] := by
  refine storesTo_eq_nil.mpr fun x hx => ?_
  obtain ⟨k, hk, rfl⟩ := List.mem_map.mp hx
  exact h k hk

/-- One of the members of a list stores to a place. -/
theorem storesTo_map {κ : Type*} {xs : List κ} (hxs : xs.Nodup) {f : κ → Σ l, V l} {x : κ}
    (hx : x ∈ xs) (h : ∀ y ∈ xs, (f y).1 = (f x).1 → y = x) :
    storesTo (f x).1 (xs.map f) = [f x] := by
  rw [storesTo, filter_map_eq_flatMap, flatMap_eq_single hxs hx fun y hy hyx => ?_]
  · simp
  · simpa using fun hk => hyx (h y hy hk)

/-- A place to which one value is stored has it. -/
theorem storeAll_of_single {x : V l} (hS : storesTo l S = [⟨l, x⟩]) : storeAll S m l = x := by
  have hone : storeAll S m l = storeAll [⟨l, x⟩] m l :=
    storeAll_congr (by rw [hS]; simp [storesTo]) rfl
  rw [hone, storeAll_cons, storeAll_nil, Function.update_self]

/-- A place to which nothing is stored keeps what it had. -/
theorem storeAll_of_nil (hS : storesTo l S = []) : storeAll S m l = m l :=
  storeAll_congr (T := []) hS rfl

end Stores

/-! ### Shared work -/

section Team

variable {ι : Type*} [DecidableEq L]

/-- Each place has an owner, which stores there what the whole work `T` does; nobody else stores
there. -/
def OneOwner (S : ι → List (Σ l, V l)) (T : List (Σ l, V l)) : Prop :=
  ∀ l, ∃ i, storesTo l (S i) = storesTo l T ∧ ∀ j ≠ i, storesTo l (S j) = []

section Owners

variable {S S' : ι → List (Σ l, V l)} {T T' : List (Σ l, V l)}

/-- One thread does all the work. -/
theorem OneOwner.single [DecidableEq ι] (i₀ : ι) (T : List (Σ l, V l)) :
    OneOwner (fun i => if i = i₀ then T else []) T := fun l =>
  ⟨i₀, congrArg (storesTo l) (if_pos rfl), fun _ hj => congrArg (storesTo l) (if_neg hj)⟩

/-- Two works on different places, one after the other. -/
theorem OneOwner.append (hS : OneOwner S T) (hS' : OneOwner S' T')
    (h : ∀ l, (storesTo l T = [] ∧ ∀ i, storesTo l (S i) = []) ∨
      storesTo l T' = [] ∧ ∀ i, storesTo l (S' i) = []) :
    OneOwner (fun i => S i ++ S' i) (T ++ T') := by
  intro l
  simp only [storesTo_append]
  rcases h l with ⟨hT, hnil⟩ | ⟨hT, hnil⟩
  · obtain ⟨i, hi, hother⟩ := hS' l
    exact ⟨i, by rw [hT, hnil, hi], fun j hj => by rw [hnil, hother j hj, List.append_nil]⟩
  · obtain ⟨i, hi, hother⟩ := hS l
    exact ⟨i, by rw [hT, hnil, hi], fun j hj => by rw [hnil, hother j hj, List.append_nil]⟩

/-- A work made of items, each done by one thread, which store to different places. -/
theorem OneOwner.flatMap {κ : Type*} [Nonempty ι] {items : ι → List κ} {all : List κ}
    {f : κ → List (Σ l, V l)} (hi : ∀ i, (items i).Nodup) (hall : all.Nodup)
    (hsub : ∀ i, ∀ x ∈ items i, x ∈ all)
    (hown : ∀ x ∈ all, ∃ i, x ∈ items i ∧ ∀ j ≠ i, x ∉ items j)
    (hkey : ∀ l, ∀ x ∈ all, ∀ y ∈ all, storesTo l (f x) ≠ [] → storesTo l (f y) ≠ [] → x = y) :
    OneOwner (fun i => (items i).flatMap f) (all.flatMap f) := by
  intro l
  have hto (xs : List κ) : storesTo l (xs.flatMap f) = xs.flatMap fun x => storesTo l (f x) :=
    List.filter_flatMap ..
  simp only [hto]
  by_cases hx : ∃ x ∈ all, storesTo l (f x) ≠ []
  · obtain ⟨x, hxa, hne⟩ := hx
    have honly (y : κ) (hy : y ∈ all) (hyx : y ≠ x) : storesTo l (f y) = [] := by
      by_contra h
      exact hyx (hkey l y hy x hxa h hne)
    obtain ⟨i, hxi, hother⟩ := hown x hxa
    refine ⟨i, ?_, fun j hj => List.flatMap_eq_nil_iff.mpr fun y hy => ?_⟩
    · rw [flatMap_eq_single (hi i) hxi fun y hy hyx => honly y (hsub i y hy) hyx,
        flatMap_eq_single hall hxa honly]
    · exact honly y (hsub j y hy) fun hyx => hother j hj (hyx ▸ hy)
  · have hnil (y : κ) (hy : y ∈ all) : storesTo l (f y) = [] := by
      by_contra h
      exact hx ⟨y, hy, h⟩
    obtain ⟨i⟩ := ‹Nonempty ι›
    refine ⟨i, ?_, fun j _ => List.flatMap_eq_nil_iff.mpr fun y hy => hnil y (hsub j y hy)⟩
    rw [List.flatMap_eq_nil_iff.mpr fun y hy => hnil y (hsub i y hy),
      List.flatMap_eq_nil_iff.mpr hnil]

end Owners

/-- A phase of a team: the threads share out the stores of `p`, and load from other places than
those they store to. -/
structure Phase (m : ∀ l, V l) (P : ι → Prog L V α) (p : Prog L V α) (R W : L → Prop) : Prop where
  owner : OneOwner (fun i => (P i).writes m) (p.writes m)
  apart : ∀ l, R l → ¬ W l
  uses : ∀ i, (P i).Uses R W
  uses_whole : p.Uses R W

/-- The threads `P` share out the work of the program `p`: phase after phase, and all come to the
same barriers. -/
inductive Shares : (∀ l, V l) → (ι → Prog L V α) → Prog L V α → Prop
  | last {m : ∀ l, V l} {P : ι → Prog L V α} {p : Prog L V α} {R W : L → Prop}
      (h : Phase m P p R W) (hP : ∀ i, ∃ a, (P i).ending m = .inl a)
      (hp : ∃ a, p.ending m = .inl a) : Shares m P p
  | next {m : ∀ l, V l} {P : ι → Prog L V α} {p : Prog L V α} {R W : L → Prop}
      {K : ι → Prog L V α} {k : Prog L V α} (h : Phase m P p R W)
      (hP : ∀ i, (P i).ending m = .inr (K i)) (hp : p.ending m = .inr k)
      (rest : Shares (storeAll (p.writes m) m) K k) : Shares m P p

variable {m m' : ∀ l, V l} {P : ι → Prog L V α} {p : Prog L V α} {R W : L → Prop} {l : L}

/-- A program stores to the places it uses. -/
theorem Prog.Uses.storesTo_eq_nil (h : p.Uses R W) (hl : ¬ W l) : storesTo l (p.writes m) = [] := by
  induction p with
  | pure a => rfl
  | load l' k ih => exact ih (m l') (h.2 (m l'))
  | store l' v k ih =>
    rw [Prog.writes, storesTo, List.filter_cons, if_neg]
    · exact ih h.2
    · simpa using fun heq : l' = l => hl (heq ▸ h.1)
  | barrier k _ => rfl

/-- By itself, a program that loads nothing it stores does what its phase says, and goes on with
what is left. -/
theorem Prog.exec_eq (hR : ∀ l, R l → ¬ W l) (h : p.Uses R W) (hm : ∀ l, R l → m' l = m l) :
    p.exec m' = match p.ending m with
      | .inl _ => storeAll (p.writes m) m'
      | .inr k => k.exec (storeAll (p.writes m) m') := by
  induction p generalizing m' with
  | pure a => rfl
  | load l k ih =>
    have heq := ih (m' l) (h.2 _) hm
    rw [hm l h.1] at heq
    rw [Prog.exec, hm l h.1]
    exact heq
  | store l v k ih =>
    exact ih h.2 fun l' hl' => by
      rw [Function.update_of_ne (fun heq : l' = l => hR l' hl' (heq ▸ h.1)), hm l' hl']
  | barrier k _ => rfl

/-- The same for what comes first in a program. -/
theorem Prog.exec_bind_eq {β : Type w} {f : α → Prog L V β} (hR : ∀ l, R l → ¬ W l)
    (h : p.Uses R W) {a : α} (hend : p.ending m = .inl a) :
    (p >>= f).exec m = (f a).exec (storeAll (p.writes m) m) := by
  have hrun (m' : ∀ l, V l) (hm : ∀ l, R l → m' l = m l) :
      (p >>= f).exec m' = (f a).exec (storeAll (p.writes m) m') := by
    induction p generalizing m' with
    | pure b => rw [Sum.inl.inj (hend : Sum.inl b = Sum.inl a)]; rfl
    | load l k ih =>
      change (k (m' l) >>= f).exec m' = (f a).exec (storeAll ((k (m l)).writes m) m')
      rw [hm l h.1]
      exact ih (m l) (h.2 _) hend m' hm
    | store l v k ih =>
      exact ih h.2 hend _ fun l' hl' => by
        rw [Function.update_of_ne (fun heq : l' = l => hR l' hl' (heq ▸ h.1)), hm l' hl']
    | barrier k _ => exact absurd hend Sum.inr_ne_inl
  exact hrun m fun _ _ => rfl

/-- The threads share out a work that comes to no barrier. -/
structure SharedWork (m : ∀ l, V l) (A : ι → Prog L V PUnit.{w + 1}) (a : Prog L V PUnit.{w + 1})
    (R W : L → Prop) : Prop where
  ends : ∀ i, (A i).ending m = .inl ⟨⟩
  ends_whole : a.ending m = .inl ⟨⟩
  owner : OneOwner (fun i => (A i).writes m) (a.writes m)
  uses : ∀ i, (A i).Uses R W
  uses_whole : a.Uses R W

section Work

variable {A B : ι → Prog L V PUnit.{w + 1}} {a b : Prog L V PUnit.{w + 1}} {R' W' : L → Prop}

/-- Two such works on different places, one after the other: the second loads nothing that the
first stores. -/
theorem SharedWork.seq (hA : SharedWork m A a R W) (hB : SharedWork m B b R' W')
    (hW : ∀ l, W l → ¬ W' l) :
    SharedWork m (fun i => A i >>= fun _ => B i) (a >>= fun _ => b) (fun l => R l ∨ R' l)
      fun l => W l ∨ W' l where
  ends i := by rw [Prog.ending_bind, hA.ends i]; exact hB.ends i
  ends_whole := by rw [Prog.ending_bind, hA.ends_whole]; exact hB.ends_whole
  owner := by
    simp only [Prog.writes_bind, hA.ends, hA.ends_whole]
    refine hA.owner.append hB.owner fun l => ?_
    by_cases hl : W l
    · exact .inr ⟨hB.uses_whole.storesTo_eq_nil (hW l hl),
        fun i => (hB.uses i).storesTo_eq_nil (hW l hl)⟩
    · exact .inl ⟨hA.uses_whole.storesTo_eq_nil hl, fun i => (hA.uses i).storesTo_eq_nil hl⟩
  uses i := ((hA.uses i).mono (fun _ => .inl) fun _ => .inl).bind fun _ =>
    (hB.uses i).mono (fun _ => .inr) fun _ => .inr
  uses_whole := (hA.uses_whole.mono (fun _ => .inl) fun _ => .inl).bind fun _ =>
    hB.uses_whole.mono (fun _ => .inr) fun _ => .inr

/-- A work made of items, each of which stores to places of its own. -/
structure Items {κ : Type*} (m : ∀ l, V l) (all : List κ) (g : κ → Prog L V PUnit.{w + 1})
    (R : L → Prop) (Wx : κ → L → Prop) : Prop where
  nodup : all.Nodup
  ends : ∀ x, (g x).ending m = .inl ⟨⟩
  uses : ∀ x ∈ all, (g x).Uses R (Wx x)
  apart : ∀ l, ∀ x ∈ all, ∀ y ∈ all, Wx x l → Wx y l → x = y

section Items

variable {κ : Type*} {all : List κ} {g : κ → Prog L V PUnit.{w + 1}} {Wx : κ → L → Prop}

/-- The stores to a place are those of its item. -/
theorem Items.storesTo_eq (h : Items m all g R Wx) {x : κ} (hx : x ∈ all) (hl : Wx x l) :
    storesTo l ((Prog.forEach all g).writes m) = storesTo l ((g x).writes m) := by
  rw [Prog.writes_forEach fun x _ => h.ends x, storesTo, List.filter_flatMap]
  refine flatMap_eq_single h.nodup hx fun y hy hyx => (h.uses y hy).storesTo_eq_nil fun hyl => ?_
  exact hyx (h.apart l y hy x hx hyl hl)

/-- The threads share out the items. -/
theorem Items.shared [Nonempty ι] (h : Items m all g R Wx) (hle : ∀ x ∈ all, ∀ l, Wx x l → W l)
    {items : ι → List κ} (hi : ∀ i, (items i).Nodup) (hsub : ∀ i, ∀ x ∈ items i, x ∈ all)
    (hown : ∀ x ∈ all, ∃ i, x ∈ items i ∧ ∀ j ≠ i, x ∉ items j) :
    SharedWork m (fun i => Prog.forEach (items i) g) (Prog.forEach all g) R W where
  ends i := Prog.ending_forEach fun x _ => h.ends x
  ends_whole := Prog.ending_forEach fun x _ => h.ends x
  owner := by
    simp only [Prog.writes_forEach fun x _ => h.ends x]
    refine OneOwner.flatMap hi h.nodup hsub hown fun l x hx y hy hxl hyl =>
      h.apart l x hx y hy ?_ ?_
    · by_contra hl
      exact hxl ((h.uses x hx).storesTo_eq_nil hl)
    · by_contra hl
      exact hyl ((h.uses y hy).storesTo_eq_nil hl)
  uses i := Prog.Uses.forEach fun x hx =>
    (h.uses x (hsub i x hx)).mono (fun _ => id) (hle x (hsub i x hx))
  uses_whole := Prog.Uses.forEach fun x hx => (h.uses x hx).mono (fun _ => id) (hle x hx)

end Items

/-- A work that one thread does alone. -/
theorem SharedWork.alone [DecidableEq ι] (i₀ : ι) (hends : a.ending m = .inl ⟨⟩)
    (huses : a.Uses R W) :
    SharedWork m (fun i => if i = i₀ then a else Pure.pure ⟨⟩) a R W where
  ends i := by
    split_ifs
    · exact hends
    · rfl
  ends_whole := hends
  owner := by
    have hwrites : (fun i => (if i = i₀ then a else Pure.pure ⟨⟩ : Prog L V PUnit).writes m) =
        fun i => if i = i₀ then a.writes m else [] := by
      funext i
      split_ifs <;> rfl
    rw [hwrites]
    exact .single i₀ _
  uses i := by
    split_ifs
    · exact huses
    · trivial
  uses_whole := huses

/-- Nothing to do. -/
theorem SharedWork.nothing [Nonempty ι] (m : ∀ l, V l) :
    SharedWork m (fun _ : ι => Pure.pure ⟨⟩) (Pure.pure ⟨⟩) (fun _ => False) fun _ => False where
  ends _ := rfl
  ends_whole := rfl
  owner _ := ⟨Classical.arbitrary ι, rfl, fun _ _ => rfl⟩
  uses _ := trivial
  uses_whole := trivial

/-- The last phase. -/
theorem SharedWork.shares (hA : SharedWork m A a R W) (hR : ∀ l, R l → ¬ W l) : Shares m A a :=
  .last ⟨hA.owner, hR, hA.uses, hA.uses_whole⟩ (fun i => ⟨_, hA.ends i⟩) ⟨_, hA.ends_whole⟩

/-- A phase, a barrier and the rest. -/
theorem SharedWork.then (hA : SharedWork m A a R W) (hR : ∀ l, R l → ¬ W l)
    (hB : Shares (storeAll (a.writes m) m) B b) :
    Shares m (fun i => A i >>= fun _ => Prog.meet >>= fun _ => B i)
      (a >>= fun _ => Prog.meet >>= fun _ => b) := by
  have hwrites (p q : Prog L V PUnit) (hp : p.ending m = .inl ⟨⟩) :
      (p >>= fun _ => Prog.meet >>= fun _ => q).writes m = p.writes m := by
    rw [Prog.writes_bind, hp]
    exact List.append_nil _
  have hend (p q : Prog L V PUnit) (hp : p.ending m = .inl ⟨⟩) :
      (p >>= fun _ => Prog.meet >>= fun _ => q).ending m = .inr q := by
    rw [Prog.ending_bind, hp]
    rfl
  refine .next (R := R) (W := W) (K := B) (k := b) ⟨?_, hR, fun i => ?_, ?_⟩
    (fun i => hend _ _ (hA.ends i)) (hend _ _ hA.ends_whole) ?_
  · have hteam : (fun i => (A i >>= fun _ => Prog.meet >>= fun _ => B i).writes m) =
        fun i => (A i).writes m := funext fun i => hwrites _ _ (hA.ends i)
    rw [hteam, hwrites _ _ hA.ends_whole]
    exact hA.owner
  · exact (hA.uses i).bind fun _ => trivial
  · exact hA.uses_whole.bind fun _ => trivial
  · rwa [hwrites _ _ hA.ends_whole]

end Work

/-! ### The team -/

/-- A thread: running, or waiting at a barrier. -/
inductive Thread (L : Type u) (V : L → Type v) (α : Type w)
  | run (p : Prog L V α)
  | wait (k : Prog L V α)

/-- The next step of a thread. -/
def Thread.step (mem : ∀ l, V l) : Thread L V α → Option ((∀ l, V l) × Thread L V α)
  | .run (.pure _) => none
  | .run (.load l k) => some (mem, .run (k (mem l)))
  | .run (.store l v k) => some (Function.update mem l v, .run k)
  | .run (.barrier k) => some (mem, .wait k)
  | .wait _ => none

/-- Waiting at a barrier. -/
def Thread.waits : Thread L V α → Bool
  | .run _ => false
  | .wait _ => true

/-- What an open barrier makes of a thread. -/
def Thread.opened : Thread L V α → Thread L V α
  | .run p => .run p
  | .wait k => .run k

/-- Finished. -/
def Thread.Done (t : Thread L V α) : Prop := ∃ a, t = .run (.pure a)

/-- A team: the memory and the threads. -/
structure Team (ι : Type*) (L : Type u) (V : L → Type v) (α : Type w) where
  mem : ∀ l, V l
  threads : ι → Thread L V α

/-- Who moves: a thread, or the barrier opens. -/
inductive Team.Act (ι : Type*)
  | move (i : ι)
  | openBarrier

/-- One step of a team. -/
def Team.step [DecidableEq ι] [Fintype ι] (s : Team ι L V α) : Team.Act ι → Option (Team ι L V α)
  | .move i => ((s.threads i).step s.mem).map fun r =>
      { mem := r.1, threads := Function.update s.threads i r.2 }
  | .openBarrier =>
    if ∀ i, (s.threads i).waits = true then
      some { s with threads := fun i => (s.threads i).opened }
    else none

/-- The team that begins with the programs `P`. -/
def team [DecidableEq ι] [Fintype ι] (P : ι → Prog L V α) (m : ∀ l, V l) :
    TransitionSystem (Team ι L V α) (Team.Act ι) :=
  .ofStep (· = ⟨m, fun i => .run (P i)⟩) Team.step

/-! ### Any interleaving -/

/-- Where a thread is in its phase, and what it has stored so far. -/
def Thread.At (m : ∀ l, V l) (P : Prog L V α) (R W : L → Prop) (D : List (Σ l, V l)) :
    Thread L V α → Prop
  | .run p => P.writes m = D ++ p.writes m ∧ p.ending m = P.ending m ∧ p.Uses R W
  | .wait k => P.writes m = D ∧ P.ending m = .inr k

/-- A team in a phase that began with the memory `m` and the programs `P`: each place has what its
owner has stored there so far. -/
structure Team.In (m : ∀ l, V l) (P : ι → Prog L V α) (p : Prog L V α) (R W : L → Prop)
    (D : ι → List (Σ l, V l)) (s : Team ι L V α) : Prop where
  phase : Phase m P p R W
  threads : ∀ i, (s.threads i).At m (P i) R W (D i)
  mem : ∀ l i, (∀ j ≠ i, storesTo l ((P j).writes m) = []) → s.mem l = storeAll (D i) m l

variable {D : ι → List (Σ l, V l)} {s t : Team ι L V α}

omit [DecidableEq L] in
/-- What a thread has stored is part of what it stores. -/
theorem Thread.At.stored {P : Prog L V α} {D : List (Σ l, V l)} {t : Thread L V α}
    (h : t.At m P R W D) : ∃ rest, P.writes m = D ++ rest := by
  cases t with
  | run p => exact ⟨_, h.1⟩
  | wait k => exact ⟨[], by rw [List.append_nil, h.1]⟩

/-- A place that the threads load from is as it was. -/
theorem Team.In.mem_eq (h : s.In m P p R W D) (hl : R l) : s.mem l = m l := by
  obtain ⟨i, -, hi⟩ := h.phase.owner l
  obtain ⟨rest, hrest⟩ := (h.threads i).stored
  have hnil := (h.phase.uses i).storesTo_eq_nil (m := m) (h.phase.apart l hl)
  rw [hrest, storesTo_append] at hnil
  rw [h.mem l i hi, storeAll_of_nil (List.append_eq_nil_iff.mp hnil).1]

/-- A step of a thread keeps it in its phase. -/
theorem Team.In.move [DecidableEq ι] [Fintype ι] (h : s.In m P p R W D) {i : ι}
    (hs : s.step (.move i) = some t) : ∃ D', t.In m P p R W D' := by
  obtain ⟨r, hr, rfl⟩ := Option.map_eq_some_iff.mp hs
  have hi := h.threads i
  have hother {w : Thread L V α} {E : List (Σ l, V l)} (hw : w.At m (P i) R W E) (j : ι) :
      (Function.update s.threads i w j).At m (P j) R W (Function.update D i E j) := by
    rcases eq_or_ne j i with rfl | hne
    · rwa [Function.update_self, Function.update_self]
    · rw [Function.update_of_ne hne, Function.update_of_ne hne]
      exact h.threads j
  have hsame : Function.update D i (D i) = D := Function.update_eq_self i D
  generalize s.threads i = w at hr hi
  cases w with
  | wait k => simp [Thread.step] at hr
  | run q =>
    obtain ⟨hwrites, hend, huses⟩ := hi
    cases q with
    | pure a => simp [Thread.step] at hr
    | load l k =>
      obtain rfl := Option.some.inj hr
      refine ⟨D, h.phase, fun j => ?_, h.mem⟩
      rw [← hsame]
      -- the place is as it was at the beginning of the phase
      exact hother (E := D i) (by rw [h.mem_eq huses.1]; exact ⟨hwrites, hend, huses.2 _⟩) j
    | store l v k =>
      obtain rfl := Option.some.inj hr
      refine ⟨Function.update D i (D i ++ [⟨l, v⟩]), h.phase, ?_, fun l' j hj => ?_⟩
      · exact hother ⟨by rw [List.append_assoc]; exact hwrites, hend, huses.2⟩
      · change Function.update s.mem l v l' = _
        rcases eq_or_ne j i with rfl | hne
        · rw [Function.update_self, storeAll_append, storeAll_cons, storeAll_nil]
          rcases eq_or_ne l' l with rfl | hl
          · rw [Function.update_self, Function.update_self]
          · rw [Function.update_of_ne hl, Function.update_of_ne hl]
            exact h.mem l' j hj
        · -- it is not the place that is stored to
          have hl : l' ≠ l := by
            rintro rfl
            have hnil := storesTo_eq_nil.mp (hj i hne.symm) ⟨l', v⟩
            exact hnil (by rw [hwrites]; exact List.mem_append_right _ List.mem_cons_self) rfl
          rw [Function.update_of_ne hne, Function.update_of_ne hl]
          exact h.mem l' j hj
    | barrier k =>
      obtain rfl := Option.some.inj hr
      refine ⟨D, h.phase, fun j => ?_, h.mem⟩
      rw [← hsame]
      exact hother (w := .wait k) (E := D i)
        ⟨by rw [hwrites]; exact List.append_nil _, hend.symm⟩ j

/-- When every thread has done its part of a phase, the memory is that of the whole work. -/
theorem Team.In.mem_of_all (h : s.In m P p R W D) (hD : ∀ i, (P i).writes m = D i) :
    s.mem = storeAll (p.writes m) m := by
  funext l
  obtain ⟨i, hown, hi⟩ := h.phase.owner l
  rw [h.mem l i hi, ← hD i]
  exact storeAll_congr hown rfl

/-- A new phase. -/
theorem Team.In.begin {m : ∀ l, V l} (h : Phase m P p R W) :
    (⟨m, fun i => .run (P i)⟩ : Team ι L V α).In m P p R W fun _ => [] :=
  ⟨h, fun i => ⟨rfl, rfl, h.uses i⟩, fun _ _ _ => rfl⟩

theorem Shares.exists_phase (h : Shares m P p) : ∃ R W, Phase m P p R W := by
  cases h with
  | last h _ _ => exact ⟨_, _, h⟩
  | next h _ _ _ => exact ⟨_, _, h⟩

/-- The memory in the end, if this is the last phase; else what the next one begins with. -/
theorem Phase.exec_eq (h : Phase m P p R W) : p.exec m = match p.ending m with
    | .inl _ => storeAll (p.writes m) m
    | .inr k => k.exec (storeAll (p.writes m) m) :=
  Prog.exec_eq h.apart h.uses_whole fun _ _ => rfl

/-- A team on the way to the memory `final`. -/
def Team.Toward (final : ∀ l, V l) (s : Team ι L V α) : Prop :=
  ∃ m P p R W D, Shares m P p ∧ p.exec m = final ∧ s.In m P p R W D

theorem Shares.toward (h : Shares m P p) :
    (⟨m, fun i => .run (P i)⟩ : Team ι L V α).Toward (p.exec m) := by
  obtain ⟨R, W, hphase⟩ := h.exists_phase
  exact ⟨m, P, p, R, W, _, h, rfl, .begin hphase⟩

/-- An open barrier begins the next phase. -/
theorem Team.Toward.opened {final : ∀ l, V l} [Nonempty ι] (h : s.Toward final)
    (hw : ∀ i, (s.threads i).waits = true) :
    Team.Toward final { s with threads := fun i => (s.threads i).opened } := by
  obtain ⟨m, P, p, R, W, D, hS, rfl, hin⟩ := h
  have hall (i : ι) : ∃ k, s.threads i = .wait k ∧ (P i).writes m = D i ∧
      (P i).ending m = .inr k := by
    have hi := hin.threads i
    have hwi := hw i
    cases hthread : s.threads i with
    | run q => simp [hthread, Thread.waits] at hwi
    | wait k =>
      rw [hthread] at hi
      exact ⟨k, rfl, hi⟩
  choose k hk hD hend using hall
  have hmem := hin.mem_of_all hD
  cases hS with
  | last _ hP _ =>
    obtain ⟨i⟩ := ‹Nonempty ι›
    obtain ⟨a, ha⟩ := hP i
    rw [hend i] at ha
    exact absurd ha Sum.inr_ne_inl
  | @next _ _ _ _ _ K k' hph hP hp rest =>
    obtain rfl : k = K := funext fun i => Sum.inr.inj ((hend i).symm.trans (hP i))
    have hthreads : (fun i => (s.threads i).opened) = fun i => .run (k i) := by
      funext i
      rw [hk i]
      rfl
    have hexec := hph.exec_eq
    rw [hp] at hexec
    rw [hthreads, hmem, hexec]
    exact rest.toward

variable [DecidableEq ι] [Fintype ι] [Nonempty ι]

/-- Whatever the interleaving, the team stays on the way to the memory of the whole work. -/
theorem Shares.invariant (h : Shares m P p) :
    (team P m).Invariant (Team.Toward (p.exec m)) where
  start s hs := hs ▸ h.toward
  step s a t _ hs hstep := by
    change s.step a = some t at hstep
    cases a with
    | move i =>
      obtain ⟨m', P', p', R', W', D, hS, hfin, hin⟩ := hs
      obtain ⟨D', hin'⟩ := hin.move hstep
      exact ⟨m', P', p', R', W', D', hS, hfin, hin'⟩
    | openBarrier =>
      rw [Team.step] at hstep
      split_ifs at hstep with hw
      obtain rfl := Option.some.inj hstep
      exact hs.opened hw

/-- **The team computes what the program does.** Whatever the interleaving, when all threads have
finished the memory is that of the one program run by itself. -/
theorem Shares.mem_eq (h : Shares m P p) (hs : (team P m).Reachable s)
    (hdone : ∀ i, (s.threads i).Done) : s.mem = p.exec m := by
  obtain ⟨m', P', p', R', W', D, hS, hfin, hin⟩ := h.invariant.holds hs
  have hall (i : ι) : (P' i).writes m' = D i ∧ ∃ a, (P' i).ending m' = .inl a := by
    obtain ⟨a, ha⟩ := hdone i
    have hi := hin.threads i
    rw [ha] at hi
    obtain ⟨hwrites, hend, -⟩ := hi
    exact ⟨by rw [hwrites]; exact List.append_nil _, a, hend.symm⟩
  rw [hin.mem_of_all fun i => (hall i).1, ← hfin]
  cases hS with
  | last hph _ hp =>
    obtain ⟨a, ha⟩ := hp
    rw [hph.exec_eq, ha]
  | next _ hP _ _ =>
    obtain ⟨i⟩ := ‹Nonempty ι›
    obtain ⟨a, ha⟩ := (hall i).2
    rw [hP i] at ha
    exact absurd ha Sum.inr_ne_inl

/-- **No team gets stuck**: as long as a thread has not finished, a step is possible. -/
theorem Shares.exists_step (h : Shares m P p) (hs : (team P m).Reachable s) {i : ι}
    (hi : ¬ (s.threads i).Done) : ∃ a t, s.step a = some t := by
  by_cases hrun : ∃ j q, s.threads j = .run q ∧ ¬ (s.threads j).Done
  · obtain ⟨j, q, hq, hj⟩ := hrun
    refine ⟨.move j, ?_⟩
    rw [Team.step, hq]
    cases q with
    | pure a => exact absurd ⟨a, hq⟩ hj
    | load l k => exact ⟨_, rfl⟩
    | store l v k => exact ⟨_, rfl⟩
    | barrier k => exact ⟨_, rfl⟩
  · -- whoever has not finished waits; so the phase ends in a barrier and all wait
    have hwait (j : ι) (hj : ¬ (s.threads j).Done) : ∃ k, s.threads j = .wait k := by
      cases hq : s.threads j with
      | run q => exact absurd ⟨j, q, hq, hj⟩ hrun
      | wait k => exact ⟨k, rfl⟩
    obtain ⟨m', P', p', R', W', D, hS, -, hin⟩ := h.invariant.holds hs
    obtain ⟨k, hk⟩ := hwait i hi
    have hki := hin.threads i
    rw [hk] at hki
    have hall (j : ι) : (s.threads j).waits = true := by
      by_cases hj : (s.threads j).Done
      · obtain ⟨a, ha⟩ := hj
        have hja := hin.threads j
        rw [ha] at hja
        cases hS with
        | last _ hP _ =>
          obtain ⟨b, hb⟩ := hP i
          exact absurd (hb.symm.trans hki.2) Sum.inl_ne_inr
        | next _ hP _ _ => exact absurd (hja.2.1.trans (hP j)) Sum.inl_ne_inr
      · obtain ⟨k', hk'⟩ := hwait j hj
        rw [hk']
        rfl
    exact ⟨.openBarrier, _, if_pos hall⟩

end Team

end VllmMoet
