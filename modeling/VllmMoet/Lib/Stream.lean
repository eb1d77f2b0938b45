import Mathlib.Data.List.Nodup
import Mathlib.Data.List.Flatten

/-!
# In-order command queues with events

A device executes the commands of a stream in the order they were enqueued: kernels (whose
threads run in any order), records of an event, and waits for an event. Streams run
concurrently; only waits order one behind another.

`Cmd.step` is the step of one stream. Two kinds of rule reason about it:

* `Goes G Q d q`: whatever order the threads of each kernel run in, every action of `q` run
  from `d` meets its guard `G` when it runs, and the queue ends in `Q`. It composes
  (`Goes.append`), so the commands enqueued later are verified from what the earlier ones
  end in, not from the state they are enqueued in.
* `Along K W q`: each kernel of `q` is related by `K` to the events that are complete when it
  runs (`W` and those waited for before it) and to the commands behind it.
-/

namespace VllmMoet

universe u v w

/-- A command of a stream, over thread actions `ω` and events `ε`. -/
inductive Cmd (ω : Type u) (ε : Type v)
  /-- run the actions, in any order -/
  | kernel (as : List ω)
  /-- complete the event -/
  | record (e : ε)
  /-- block until the event is complete -/
  | wait (e : ε)

namespace Cmd

variable {ω : Type u} {ε : Type v} {σ : Type w}

/-- The action the `i`-th remaining thread of the kernel at the head runs next. -/
def next? : List (Cmd ω ε) → ℕ → Option ω
  | kernel as :: _, i => as[i]?
  | _, _ => none

/-- The events a queue records, in order. -/
def records : List (Cmd ω ε) → List ε
  | [] => []
  | record e :: q => e :: records q
  | kernel _ :: q => records q
  | wait _ :: q => records q

/-- The step of a stream: thread `i` of the kernel at the head, or the event command there.
`done` are the events completed so far. -/
def step [DecidableEq ε] (run : ω → σ → σ) (done : List ε) (d : σ) :
    List (Cmd ω ε) → ℕ → Option (σ × List ε × List (Cmd ω ε))
  | [], _ => none
  | record e :: q, _ => some (d, e :: done, q)
  | wait e :: q, _ => if e ∈ done then some (d, done, q) else none
  | kernel [] :: q, _ => some (d, done, q)
  | kernel (a :: as) :: q, i =>
    (a :: as)[i]?.map fun b => (run b d, done, kernel ((a :: as).eraseIdx i) :: q)

section Step

variable [DecidableEq ε] {run : ω → σ → σ} {done done' : List ε} {d d' : σ}
  {q q' : List (Cmd ω ε)} {i : ℕ}

/-- What a step of a stream can do. -/
theorem step_cases (h : step run done d q i = some (d', done', q')) :
    (∃ e, q = record e :: q' ∧ d' = d ∧ done' = e :: done) ∨
    (∃ e, q = wait e :: q' ∧ d' = d ∧ done' = done ∧ e ∈ done) ∨
    (q = kernel [] :: q' ∧ d' = d ∧ done' = done) ∨
    (∃ as a r, q = kernel as :: r ∧ as[i]? = some a ∧ d' = run a d ∧ done' = done ∧
      q' = kernel (as.eraseIdx i) :: r) := by
  match q, h with
  | record e :: q, h =>
    simp only [step, Option.some.injEq, Prod.mk.injEq] at h
    obtain ⟨rfl, rfl, rfl⟩ := h
    exact .inl ⟨e, rfl, rfl, rfl⟩
  | wait e :: q, h =>
    simp only [step] at h
    split at h
    · simp only [Option.some.injEq, Prod.mk.injEq] at h
      obtain ⟨rfl, rfl, rfl⟩ := h
      exact .inr (.inl ⟨e, rfl, rfl, rfl, ‹_›⟩)
    · simp at h
  | kernel [] :: q, h =>
    simp only [step, Option.some.injEq, Prod.mk.injEq] at h
    obtain ⟨rfl, rfl, rfl⟩ := h
    exact .inr (.inr (.inl ⟨rfl, rfl, rfl⟩))
  | kernel (a :: as) :: q, h =>
    simp only [step, Option.map_eq_some_iff, Prod.mk.injEq] at h
    obtain ⟨b, hb, rfl, rfl, rfl⟩ := h
    exact .inr (.inr (.inr ⟨a :: as, b, q, rfl, hb, rfl, rfl, rfl⟩))

/-- Events stay complete. -/
theorem done_subset_of_step (h : step run done d q i = some (d', done', q')) :
    done ⊆ done' := by
  obtain ⟨e, -, -, rfl⟩ | ⟨e, -, -, rfl, -⟩ | ⟨-, -, rfl⟩ | ⟨as, a, r, -, -, -, rfl, -⟩ :=
    step_cases h
  · exact List.subset_cons_self _ _
  all_goals exact List.Subset.refl _

/-- A step either completes the first event the queue records, or leaves the recorded and
the completed events as they are. -/
theorem records_of_step (h : step run done d q i = some (d', done', q')) :
    (∃ e, records q = e :: records q' ∧ done' = e :: done) ∨
      (records q = records q' ∧ done' = done) := by
  obtain ⟨e, rfl, -, rfl⟩ | ⟨e, rfl, -, rfl, -⟩ | ⟨rfl, -, rfl⟩ | ⟨as, a, r, rfl, -, -, rfl, rfl⟩ :=
    step_cases h
  · exact .inl ⟨e, rfl, rfl⟩
  all_goals exact .inr ⟨rfl, rfl⟩

end Step

@[simp] theorem records_append (q r : List (Cmd ω ε)) :
    records (q ++ r) = records q ++ records r := by
  induction q with
  | nil => rfl
  | cons c q ih => cases c <;> simp [records, ih]

theorem mem_records {q : List (Cmd ω ε)} {e : ε} : e ∈ records q ↔ record e ∈ q := by
  induction q with
  | nil => simp [records]
  | cons c q ih => cases c <;> simp [records, ih]

/-- A queue of kernels records nothing. -/
theorem records_kernels {q : List (Cmd ω ε)} (h : ∀ c ∈ q, ∃ as, c = kernel as) :
    records q = [] := by
  rw [List.eq_nil_iff_forall_not_mem]
  intro e he
  obtain ⟨as, h⟩ := h _ (mem_records.mp he)
  simp at h

/-- The events still to be recorded: each once, none of them complete. -/
structure Pending (done : List ε) (es : List ε) : Prop where
  nodup : es.Nodup
  notMem : ∀ e ∈ es, e ∉ done

theorem Pending.perm {done es es' : List ε} (h : Pending done es) (hp : es.Perm es') :
    Pending done es' :=
  ⟨hp.nodup_iff.mp h.nodup, fun e he => h.notMem e (hp.mem_iff.mpr he)⟩

theorem Pending.cons {done es : List ε} (h : Pending done es) {e : ε} (hd : e ∉ done)
    (he : e ∉ es) : Pending done (e :: es) where
  nodup := List.nodup_cons.mpr ⟨he, h.nodup⟩
  notMem e' he' := by
    obtain rfl | he' := List.mem_cons.mp he'
    · exact hd
    · exact h.notMem e' he'

/-- A step of one stream, beside other events to be recorded. -/
theorem Pending.step [DecidableEq ε] {run : ω → σ → σ} {done done' : List ε} {d d' : σ}
    {q q' : List (Cmd ω ε)} {i : ℕ} {es : List ε} (h : Pending done (records q ++ es))
    (hs : Cmd.step run done d q i = some (d', done', q')) : Pending done' (records q' ++ es) := by
  obtain ⟨e, hq, rfl⟩ | ⟨hq, rfl⟩ := records_of_step hs
  · rw [hq, List.cons_append] at h
    obtain ⟨hnot, hnodup⟩ := List.nodup_cons.mp h.nodup
    refine ⟨hnodup, fun e' he' hmem => ?_⟩
    obtain rfl | hmem := List.mem_cons.mp hmem
    · exact hnot he'
    · exact h.notMem e' (List.mem_cons_of_mem e he') hmem
  · rwa [hq] at h

/-- A step of one stream leaves the events of the others to be recorded. -/
theorem records_subset_of_step [DecidableEq ε] {run : ω → σ → σ} {done done' : List ε} {d d' : σ}
    {q q' : List (Cmd ω ε)} {i : ℕ} (hs : Cmd.step run done d q i = some (d', done', q')) :
    records q' ⊆ records q ∧ ∀ e ∈ done', e ∈ done ∨ e ∈ records q := by
  obtain ⟨e, hq, rfl⟩ | ⟨hq, rfl⟩ := records_of_step hs
  · rw [hq]
    refine ⟨List.subset_cons_self _ _, fun e' he' => ?_⟩
    obtain rfl | he' := List.mem_cons.mp he'
    · exact .inr (List.mem_cons_self ..)
    · exact .inl he'
  · rw [hq]
    exact ⟨List.Subset.refl _, fun e he => .inl he⟩

/-! ### What a queue does, whatever order its threads run in -/

/-- Every action of the queue meets the guard `G` when it runs, and the queue ends in `Q`. -/
inductive Goes (run : ω → σ → σ) (G : σ → ω → Prop) (Q : σ → Prop) : σ → List (Cmd ω ε) → Prop
  | nil {d : σ} : Q d → Goes run G Q d []
  | record {d : σ} {e : ε} {q : List (Cmd ω ε)} : Goes run G Q d q → Goes run G Q d (.record e :: q)
  | wait {d : σ} {e : ε} {q : List (Cmd ω ε)} : Goes run G Q d q → Goes run G Q d (.wait e :: q)
  | kernel {d : σ} {as : List ω} {q : List (Cmd ω ε)} :
      (as = [] → Goes run G Q d q) →
      (∀ (i : ℕ) a, as[i]? = some a → G d a) →
      (∀ (i : ℕ) a, as[i]? = some a → Goes run G Q (run a d) (.kernel (as.eraseIdx i) :: q)) →
      Goes run G Q d (.kernel as :: q)

namespace Goes

variable {run : ω → σ → σ} {G : σ → ω → Prop} {P Q R : σ → Prop} {d d' : σ}
  {q r : List (Cmd ω ε)}

/-- The empty queue is where it ends. -/
theorem of_nil (h : Goes run G Q d ([] : List (Cmd ω ε))) : Q d := by
  cases h; assumption

/-- The action at the head meets its guard. -/
theorem next (h : Goes run G Q d q) {i : ℕ} {a : ω} (ha : next? q i = some a) : G d a := by
  cases h with
  | nil | record | wait => simp [next?] at ha
  | kernel _ hG _ => exact hG i a ha

/-- A step of the stream goes on. -/
theorem step [DecidableEq ε] {done done' : List ε} {q' : List (Cmd ω ε)} {i : ℕ}
    (h : Goes run G Q d q) (hs : Cmd.step run done d q i = some (d', done', q')) :
    Goes run G Q d' q' := by
  obtain ⟨e, rfl, rfl, -⟩ | ⟨e, rfl, rfl, -, -⟩ | ⟨rfl, rfl, -⟩ | ⟨as, a, r, rfl, ha, rfl, -, rfl⟩ :=
    step_cases hs
  · cases h; assumption
  · cases h; assumption
  · cases h with | kernel h0 _ _ => exact h0 rfl
  · cases h with | kernel _ _ h => exact h i a ha

/-- A weaker end. -/
theorem imp (hQR : ∀ d, Q d → R d) (h : Goes run G Q d q) : Goes run G R d q := by
  induction h with
  | nil hQ => exact .nil (hQR _ hQ)
  | record _ ih => exact .record ih
  | wait _ ih => exact .wait ih
  | kernel _ hG _ ih0 ih => exact .kernel ih0 hG ih

/-- The sequence rule. -/
theorem append (h : Goes run G Q d q) (hr : ∀ d, Q d → Goes run G R d r) :
    Goes run G R d (q ++ r) := by
  induction h with
  | nil hQ => exact hr _ hQ
  | record _ ih => exact .record ih
  | wait _ ih => exact .wait ih
  | kernel _ hG _ ih0 ih => exact .kernel ih0 hG ih

/-- Several threads: `J` says what holds while the threads `as` are still to run. -/
theorem threads {as : List ω} (J : List ω → σ → Prop) (hJ : J as d)
    (hG : ∀ as (i : ℕ) a d, J as d → as[i]? = some a → G d a ∧ J (as.eraseIdx i) (run a d))
    (h : ∀ d, J [] d → Goes run G Q d q) : Goes run G Q d (.kernel as :: q) := by
  induction hn : as.length generalizing as d with
  | zero =>
    obtain rfl : as = [] := List.eq_nil_of_length_eq_zero hn
    exact .kernel (fun _ => h _ hJ) (by simp) (by simp)
  | succ n ih =>
    refine .kernel (by rintro rfl; simp at hn) (fun i a ha => (hG as i a d hJ ha).1)
      fun i a ha => ih (hG as i a d hJ ha).2 ?_
    obtain ⟨hi, -⟩ := List.getElem?_eq_some_iff.mp ha
    rw [List.length_eraseIdx_of_lt hi, hn, Nat.add_sub_cancel]

/-- One thread. -/
theorem single {a : ω} (hG : G d a) (h : Goes run G Q (run a d) q) :
    Goes run G Q d (.kernel [a] :: q) := by
  have h0 : ∀ (i : ℕ) b, [a][i]? = some b → i = 0 ∧ b = a := by
    intro i b hb
    obtain ⟨hi, rfl⟩ := List.getElem?_eq_some_iff.mp hb
    obtain rfl : i = 0 := by simpa using hi
    exact ⟨rfl, rfl⟩
  refine .kernel (by simp) (fun i b hb => ?_) (fun i b hb => ?_)
  · obtain ⟨rfl, rfl⟩ := h0 i b hb
    exact hG
  · obtain ⟨rfl, rfl⟩ := h0 i b hb
    exact .kernel (fun _ => h) (by simp) (by simp)

/-- A list of pieces, verified one after the other: `P k` holds when `k` of them are done. -/
theorem flatMap {β : Type*} {bs : List β} (f : β → List (Cmd ω ε)) (P : List β → σ → Prop)
    (h : ∀ as b cs d, bs = as ++ b :: cs → P as d → Goes run G (P (as ++ [b])) d (f b))
    (hd : P [] d) : Goes run G (P bs) d (bs.flatMap f) := by
  suffices H : ∀ as cs d, bs = as ++ cs → P as d → Goes run G (P bs) d (cs.flatMap f) from
    H [] bs d rfl hd
  intro as cs
  induction cs generalizing as with
  | nil =>
    rintro d rfl hP
    simpa using Goes.nil hP
  | cons b cs ih =>
    intro d hbs hP
    rw [List.flatMap_cons]
    exact (h as b cs d hbs hP).append fun d' hP' => ih (as ++ [b]) d' (by simp [hbs]) hP'

end Goes

/-! ### Kernels, the events before them and the commands behind them -/

/-- Each kernel's threads, with the events complete when it runs and the commands behind
it, are related by `K`. -/
def Along (K : List ε → List ω → List (Cmd ω ε) → Prop) : List ε → List (Cmd ω ε) → Prop
  | _, [] => True
  | W, record e :: q => Along K (e :: W) q
  | W, wait e :: q => Along K (e :: W) q
  | W, kernel as :: q => K W as q ∧ Along K W q

namespace Along

variable {K L : List ε → List ω → List (Cmd ω ε) → Prop} {W W' : List ε} {q r : List (Cmd ω ε)}

/-- With more events complete. -/
theorem mono (hK : ∀ W W' as q, W ⊆ W' → K W as q → K W' as q) (hW : W ⊆ W')
    (h : Along K W q) : Along K W' q := by
  induction q generalizing W W' with
  | nil => trivial
  | cons c q ih =>
    cases c with
    | record e => exact ih (List.cons_subset_cons e hW) h
    | wait e => exact ih (List.cons_subset_cons e hW) h
    | kernel as => exact ⟨hK _ _ _ _ hW h.1, ih hW h.2⟩

/-- Enqueueing `r`, which runs once the events waited for in `q` are complete. -/
theorem append (hKL : ∀ W as q, K W as q → L W as (q ++ r)) (h : Along K W q)
    (hr : ∀ W', W ⊆ W' → (∀ e, .wait e ∈ q → e ∈ W') → Along L W' r) : Along L W (q ++ r) := by
  induction q generalizing W with
  | nil => exact hr W (List.Subset.refl _) (by simp)
  | cons c q ih =>
    cases c with
    | record e =>
      exact ih h fun W' hW hw => hr W' (List.Subset.trans (List.subset_cons_self _ _) hW) (by simpa using hw)
    | wait e =>
      refine ih h fun W' hW hw => hr W' (List.Subset.trans (List.subset_cons_self _ _) hW) fun e' he' => ?_
      obtain he' | he' := List.mem_cons.mp he'
      · obtain rfl : e' = e := by simpa using he'
        exact hW (List.mem_cons_self ..)
      · exact hw e' he'
    | kernel as => exact ⟨hKL _ _ _ h.1, ih h.2 fun W' hW hw => hr W' hW (by simpa using hw)⟩

/-- Each kernel on its own. -/
theorem of_forall (h : ∀ as, .kernel as ∈ q → ∀ W' r, W ⊆ W' → K W' as r) : Along K W q := by
  induction q generalizing W with
  | nil => trivial
  | cons c q ih =>
    have hq : ∀ {W'}, W ⊆ W' → ∀ as, .kernel as ∈ q → ∀ W'' r, W' ⊆ W'' → K W'' as r :=
      fun hW as has W'' r hW' => h as (List.mem_cons_of_mem _ has) W'' r (List.Subset.trans hW hW')
    cases c with
    | record e => exact ih (hq (List.subset_cons_self _ _))
    | wait e => exact ih (hq (List.subset_cons_self _ _))
    | kernel as =>
      exact ⟨h as (List.mem_cons_self ..) W q (List.Subset.refl _), ih (hq (List.Subset.refl _))⟩

/-- A step of the stream. -/
theorem step [DecidableEq ε] {run : ω → σ → σ} {done done' : List ε} {d d' : σ}
    {q' : List (Cmd ω ε)} {i : ℕ} (hK : ∀ W W' as q, W ⊆ W' → K W as q → K W' as q)
    (herase : ∀ W as i q, K W as q → K W (as.eraseIdx i) q) (h : Along K done q)
    (hs : Cmd.step run done d q i = some (d', done', q')) : Along K done' q' := by
  obtain ⟨e, rfl, -, rfl⟩ | ⟨e, rfl, -, rfl, he⟩ | ⟨rfl, -, rfl⟩ | ⟨as, a, r, rfl, -, -, rfl, rfl⟩ :=
    step_cases hs
  · exact h
  · exact mono hK (List.cons_subset.mpr ⟨he, List.Subset.refl _⟩) h
  · exact h.2
  · exact ⟨herase _ _ _ _ h.1, h.2⟩

end Along

end Cmd

end VllmMoet
