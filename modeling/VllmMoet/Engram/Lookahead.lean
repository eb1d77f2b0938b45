import Mathlib.Data.List.Dedup
import Mathlib.Data.List.Sort
import Mathlib.Logic.Function.Basic
import VllmMoet.Engram.Fetcher

/-!
# The lookahead of a long prompt

`Lookahead` of `engram_v2.py`, with the queue of the fetcher it hands rows to. For a prompt
longer than a chunk the scheduler hook marks how far rows have been queued (`queued_to`) and
gives the positions up to the new mark to a helper thread, which hashes them and hands the rows
to `engram_v2_prefetch`. The queue is one for all requests, and is cleared as a whole when a
request ends.

* `HostHash`, `Table`: the row ids of a position;
* `State`, `Event`: the requests, the jobs of the helper thread, the queue, and what is left of
  the call of `on_schedule` that is running;
* `lookaheadSystem`: the hook, the helper thread and the fetcher, in any order;
* `lookahead_secured`: as long as no clear drops the rows of another request, every row of a
  position before a mark is on its way or has been taken.
-/

namespace VllmMoet

namespace Lookahead

open Engram (Prefetch)
open Engram.Fetcher (takeBatch)

/-! ### The row ids of a position -/

section Hash

variable {τ : Type*}

/-- `HostHash`: the compressed token map, the multipliers, the prime bucket ranges and offsets. -/
structure HostHash (τ : Type*) where
  tokenMap : τ → BitVec 64
  padId : BitVec 64
  mult : ℕ → ℕ → BitVec 64
  primes : ℕ → ℕ → ℤ
  offsets : ℕ → ℕ → ℤ
  nHeads : ℕ
  maxNgram : ℕ

/-- A layer's table: its layer of the hash, its index in the fetcher, and the rank's columns. -/
structure Table where
  idx : ℕ
  engIndex : ℕ
  headStart : ℕ
  partNHashCols : ℕ

namespace HostHash

variable (H : HostHash τ)

/-- The token `shift` positions back; before the stream it is the pad id. -/
def value (prompt : List τ) (pos shift : ℕ) : BitVec 64 :=
  if shift ≤ pos then prompt[pos - shift]?.elim H.padId H.tokenMap else H.padId

/-- `rolling` after a number of shifts. -/
def rolling (prompt : List τ) (layer pos : ℕ) : ℕ → BitVec 64
  | 0 => 0
  | shift + 1 =>
    rolling prompt layer pos shift ^^^ H.value prompt pos shift * H.mult layer shift

/-- The row id of a column, as a 32-bit integer. -/
def column (prompt : List τ) (layer pos col : ℕ) : ℤ :=
  (BitVec.ofInt 32 (Int.fmod (H.rolling prompt layer pos (col / H.nHeads + 2)).toInt
    (H.primes layer col) + H.offsets layer col)).toInt

/-- The rank's row ids of a position. -/
def hashPosition (prompt : List τ) (T : Table) (pos : ℕ) : List ℤ :=
  (((List.range ((H.maxNgram - 1) * H.nHeads)).map (H.column prompt T.idx pos)).drop
    T.headStart).take T.partNHashCols

/-- `hash_positions` -/
def hashPositions (prompt : List τ) (start stop : ℕ) (T : Table) : List (List ℤ) :=
  (List.range (stop - start)).map fun k => H.hashPosition prompt T (start + k)

/-- The rows that are handed over: `np.unique(ids.reshape(-1))`. -/
def uniqueRows (prompt : List τ) (start stop : ℕ) (T : Table) : List ℤ :=
  ((H.hashPositions prompt start stop T).flatten.insertionSort (· ≤ ·)).dedup

theorem mem_uniqueRows {H : HostHash τ} {prompt : List τ} {start stop pos : ℕ} {T : Table} {id : ℤ}
    (hstart : start ≤ pos) (hstop : pos < stop) (hid : id ∈ H.hashPosition prompt T pos) :
    id ∈ H.uniqueRows prompt start stop T := by
  rw [uniqueRows, List.mem_dedup, List.mem_insertionSort, List.mem_flatten]
  refine ⟨_, List.mem_map.mpr ⟨pos - start, ?_, rfl⟩, ?_⟩
  · exact List.mem_range.mpr (by omega)
  · rw [Nat.add_sub_cancel' hstart]
    exact hid

end HostHash

end Hash

/-! ### The hook, the helper thread and the queue -/

/-- The configuration: the hash, the tables, `chunk_tokens` and `chunks`. -/
structure Cfg (τ : Type*) where
  hash : HostHash τ
  tables : List Table
  chunk : ℕ
  ahead : ℕ

/-- What `on_schedule` reads of a new request. -/
structure NewReq (R τ : Type*) where
  reqId : R
  promptTokenIds : Option (List τ)
  numComputedTokens : ℕ

/-- What `on_schedule` reads of a scheduler output. -/
structure SchedulerOutput (R τ : Type*) where
  scheduledNewReqs : List (NewReq R τ)
  scheduledCachedReqs : List (R × ℕ)
  numScheduledTokens : List (R × ℕ)
  finishedReqIds : List R

/-- An iteration of one of the loops of `on_schedule`. -/
inductive Event (R τ : Type*)
  | new (r : NewReq R τ)
  | scheduled (rid : R) (computed n : ℕ)
  | finished (rid : R)

section Output

variable {R τ : Type*} [DecidableEq R] (so : SchedulerOutput R τ)

/-- `computed.get(rid, 0)`; a later entry replaces an earlier one. -/
def SchedulerOutput.computed : R → ℕ :=
  (so.scheduledNewReqs.map (fun r => (r.reqId, r.numComputedTokens)) ++
    so.scheduledCachedReqs).foldl (fun f p => Function.update f p.1 p.2) fun _ => 0

/-- The iterations of a call of `on_schedule`. -/
def SchedulerOutput.events : List (Event R τ) :=
  so.scheduledNewReqs.map .new ++
    so.numScheduledTokens.map (fun p => .scheduled p.1 (so.computed p.1) p.2) ++
    so.finishedReqIds.map .finished

end Output

/-- A request's entry in `reqs`. -/
structure Info (τ : Type*) where
  prompt : List τ
  queuedTo : ℕ

/-- A job of the helper thread. -/
structure Job (τ : Type*) where
  prompt : List τ
  start : ℕ
  stop : ℕ

/-- What the scheduler has brought of a prompt: the first position after its first chunk, and
after its last one. -/
structure Seen where
  first : ℕ
  pos : ℕ

/-- The state. `work` is the job in the helper thread's hands, with the tables to come; `seen` and
`taken`, the rows the fetcher has taken from the queue, are not kept by the source. -/
structure State (R τ : Type*) where
  reqs : R → Option (Info τ)
  seen : R → Option Seen
  jobs : List (Job τ)
  work : Option (Job τ × List Table)
  queue : List Prefetch
  taken : List (ℕ × ℤ)
  todo : List (Event R τ)

namespace State

variable {R τ : Type*} [DecidableEq R] (C : Cfg τ) (s : State R τ)

/-- A request is new. -/
def onNew (r : NewReq R τ) : State R τ :=
  match r.promptTokenIds with
  | none => s
  | some ids =>
    if ids.length ≤ C.chunk then s
    else { s with
      reqs := Function.update s.reqs r.reqId (some ⟨ids, 0⟩)
      seen := Function.update s.seen r.reqId none }

/-- The prompt is through or the request has ended: it is forgotten, and the queue is cleared. -/
def forget (rid : R) : State R τ :=
  { s with
    reqs := Function.update s.reqs rid none
    queue := [] }

/-- A chunk of a prompt ends before `pos`. -/
def saw (rid : R) (pos : ℕ) : State R τ :=
  { s with seen := Function.update s.seen rid (some ⟨(s.seen rid).elim pos Seen.first, pos⟩) }

/-- A request is scheduled. -/
def onScheduled (rid : R) (pos : ℕ) : State R τ :=
  match s.reqs rid with
  | none => s
  | some info =>
    if info.prompt.length ≤ pos then s.forget rid
    else
      let stop := min info.prompt.length (pos + C.ahead * C.chunk)
      let start := max pos info.queuedTo
      if start < stop then
        { s.saw rid pos with
          reqs := Function.update s.reqs rid (some { info with queuedTo := stop })
          jobs := s.jobs ++ [⟨info.prompt, start, stop⟩] }
      else s.saw rid pos

/-- A request has finished. -/
def onFinished (rid : R) : State R τ :=
  if (s.reqs rid).isSome then s.forget rid else s

/-- An iteration of `on_schedule`. -/
def onEvent : Event R τ → State R τ
  | .new r => s.onNew C r
  | .scheduled rid computed n => s.onScheduled C rid (computed + n)
  | .finished rid => s.onFinished rid

/-- `prefetch`: the rows go to the end of the queue, if there are any. -/
def prefetch (T : Table) (ids : List ℤ) : State R τ :=
  if ids = [] then s else { s with queue := s.queue ++ [⟨T.engIndex, ids⟩] }

end State

/-- The steps: the runner calls `on_schedule`, the call goes on, the helper thread takes a job or
hands over the rows of its next table, and the fetcher takes a batch. -/
inductive Act (R τ : Type*)
  | call (so : SchedulerOutput R τ)
  | hook
  | pop
  | hand
  | take (room : ℕ)

section System

variable {R τ : Type*} [DecidableEq R] (C : Cfg τ)

/-- One step. -/
def step (s : State R τ) : Act R τ → Option (State R τ)
  | .call so => if s.todo.isEmpty then some { s with todo := so.events } else none
  | .hook =>
    match s.todo with
    | [] => none
    | e :: rest => some ({ s with todo := rest }.onEvent C e)
  | .pop =>
    match s.work, s.jobs with
    | none, j :: js => some { s with jobs := js, work := some (j, C.tables) }
    | _, _ => none
  | .hand =>
    match s.work with
    | none => none
    | some (_, []) => some { s with work := none }
    | some (j, T :: Ts) =>
      some ({ s with work := some (j, Ts) }.prefetch T
        (C.hash.uniqueRows j.prompt j.start j.stop T))
  | .take room => some { s with
      queue := (takeBatch room s.queue).2
      taken := s.taken ++ (takeBatch room s.queue).1 }

/-- Nothing is scheduled yet. -/
def start : State R τ :=
  ⟨fun _ => none, fun _ => none, [], none, [], [], []⟩

/-- Every interleaving of the hook, the helper thread and the fetcher. -/
def lookaheadSystem : TransitionSystem (State R τ) (Act R τ) :=
  .ofStep (fun s => s = start) (step C)

end System

/-! ### What has become of a row -/

section Rows

variable {R τ : Type*} (C : Cfg τ)

/-- The rows of a queue. -/
def rows (queue : List Prefetch) : List (ℕ × ℤ) :=
  queue.flatMap fun P => P.ids.map fun id => (P.layer, id)

/-- The position is one of the job's. -/
structure Job.Covers (j : Job τ) (prompt : List τ) (p : ℕ) : Prop where
  prompt : j.prompt = prompt
  start : j.start ≤ p
  stop : p < j.stop

/-- A row of a position of a prompt: the position's job waits, or is in the helper thread's hands
with the row's table still to come, or the row is in the queue, or the fetcher has taken it. -/
inductive Secured (s : State R τ) (prompt : List τ) (p : ℕ) (T : Table) (id : ℤ) : Prop
  | waiting (j : Job τ) : j ∈ s.jobs → j.Covers prompt p → Secured s prompt p T id
  | working (j : Job τ) (Ts : List Table) : s.work = some (j, Ts) → T ∈ Ts → j.Covers prompt p →
      Secured s prompt p T id
  | queued : (T.engIndex, id) ∈ rows s.queue → Secured s prompt p T id
  | taken : (T.engIndex, id) ∈ s.taken → Secured s prompt p T id

/-- The queue has no row of a position before the mark of a request other than `rid`. -/
def QueuedForNoOther (s : State R τ) (rid : R) : Prop :=
  ∀ rid', rid' ≠ rid → ∀ info, s.reqs rid' = some info → ∀ k, s.seen rid' = some k →
    ∀ p, k.first ≤ p → p < info.queuedTo → ∀ T ∈ C.tables,
      ∀ id ∈ C.hash.hashPosition info.prompt T p, (T.engIndex, id) ∉ rows s.queue

/-- The scheduler continues a prompt where it has left it, or before, by at most a chunk; and when
a request that is known ends, the queue has no row of another one. -/
def Fits (s : State R τ) : Event R τ → Prop
  | .new _ => True
  | .scheduled rid computed n => ∀ info, s.reqs rid = some info →
      (∀ k, s.seen rid = some k → computed ≤ k.pos ∧ n ≤ C.chunk) ∧
      (info.prompt.length ≤ computed + n → QueuedForNoOther C s rid)
  | .finished rid => (s.reqs rid).isSome → QueuedForNoOther C s rid

/-- The condition on a step: an iteration of `on_schedule` fits. -/
def Calm (s : State R τ) : Act R τ → Prop
  | .hook => ∀ e ∈ s.todo.head?, Fits C s e
  | _ => True

theorem takeBatch_rows (room : ℕ) (queue : List Prefetch) :
    (takeBatch room queue).1 ++ rows (takeBatch room queue).2 = rows queue := by
  induction queue generalizing room with
  | nil => rw [takeBatch, rows, List.flatMap_nil, List.append_nil]
  | cons P Ps ih =>
    rw [takeBatch]
    split
    · rw [List.nil_append]
    · have hsplit : P.ids = P.ids.take room ++ P.ids.drop room := (List.take_append_drop ..).symm
      rcases hdrop : P.ids.drop room with _ | ⟨d, ds⟩
      · rw [hdrop, List.append_nil] at hsplit
        rw [List.append_assoc, ih, rows, rows, List.flatMap_cons, ← hsplit]
      · rw [rows, List.flatMap_cons, ← List.append_assoc, ← List.map_append, ← hdrop, ← hsplit]
        rfl

section Steps

variable {C} {s s' : State R τ} {prompt : List τ} {p : ℕ} {T : Table} {id : ℤ} {rid : R}

/-- A step that only adds keeps what is secured. -/
theorem Secured.mono (h : Secured s prompt p T id) (hjobs : ∀ j ∈ s.jobs, j ∈ s'.jobs)
    (hwork : s'.work = s.work) (hqueue : s'.queue = s.queue) (htaken : s'.taken = s.taken) :
    Secured s' prompt p T id := by
  cases h with
  | waiting j hj hc => exact .waiting j (hjobs j hj) hc
  | working j Ts hw hT hc => exact .working j Ts (hwork.trans hw) hT hc
  | queued hq => exact .queued (hqueue ▸ hq)
  | taken ht => exact .taken (htaken ▸ ht)

/-- Clearing the queue keeps what is secured, but for what is in the queue. -/
theorem Secured.forget [DecidableEq R] (h : Secured s prompt p T id)
    (hq : (T.engIndex, id) ∉ rows s.queue) : Secured (s.forget rid) prompt p T id := by
  cases h with
  | waiting j hj hc => exact .waiting j hj hc
  | working j Ts hw hT hc => exact .working j Ts hw hT hc
  | queued h => exact absurd h hq
  | taken ht => exact .taken ht

/-- The helper thread takes a job with all the tables. -/
theorem Secured.pop {j : Job τ} {js : List (Job τ)} (h : Secured s prompt p T id)
    (hwork : s.work = none) (hjobs : s.jobs = j :: js) (hT : T ∈ C.tables) :
    Secured { s with jobs := js, work := some (j, C.tables) } prompt p T id := by
  cases h with
  | waiting j' hj hc =>
    rw [hjobs] at hj
    rcases List.mem_cons.mp hj with rfl | hj
    · exact .working j' C.tables rfl hT hc
    · exact .waiting j' hj hc
  | working j' Ts hw hT hc =>
    rw [hwork] at hw
    cases hw
  | queued hq => exact .queued hq
  | taken ht => exact .taken ht

theorem prefetch_jobs (s : State R τ) (T : Table) (ids : List ℤ) :
    (s.prefetch T ids).jobs = s.jobs := by
  rw [State.prefetch]
  split_ifs <;> rfl

/-- The helper thread has no table left. -/
theorem Secured.idle {j : Job τ} (h : Secured s prompt p T id) (hwork : s.work = some (j, [])) :
    Secured { s with work := none } prompt p T id := by
  cases h with
  | waiting j hj hc => exact .waiting j hj hc
  | working j' Ts hw hT hc =>
    rw [hwork] at hw
    obtain ⟨rfl, rfl⟩ := Prod.mk.inj (Option.some.inj hw)
    cases hT
  | queued hq => exact .queued hq
  | taken ht => exact .taken ht

theorem prefetch_reqs (s : State R τ) (T : Table) (ids : List ℤ) :
    (s.prefetch T ids).reqs = s.reqs := by
  rw [State.prefetch]
  split_ifs <;> rfl

theorem prefetch_seen (s : State R τ) (T : Table) (ids : List ℤ) :
    (s.prefetch T ids).seen = s.seen := by
  rw [State.prefetch]
  split_ifs <;> rfl

theorem prefetch_work (s : State R τ) (T : Table) (ids : List ℤ) :
    (s.prefetch T ids).work = s.work := by
  rw [State.prefetch]
  split_ifs <;> rfl

theorem prefetch_taken (s : State R τ) (T : Table) (ids : List ℤ) :
    (s.prefetch T ids).taken = s.taken := by
  rw [State.prefetch]
  split_ifs <;> rfl

theorem rows_prefetch (s : State R τ) (T : Table) (ids : List ℤ) :
    rows (s.prefetch T ids).queue = rows s.queue ++ ids.map fun id => (T.engIndex, id) := by
  rw [State.prefetch]
  split_ifs with hids
  · rw [hids, List.map_nil, List.append_nil]
  · simp only [rows, List.flatMap_append, List.flatMap_cons, List.flatMap_nil, List.append_nil]

/-- The helper thread hands over the rows of its next table. -/
theorem Secured.hand {j : Job τ} {T' : Table} {Ts : List Table} (h : Secured s prompt p T id)
    (hwork : s.work = some (j, T' :: Ts)) (hid : id ∈ C.hash.hashPosition prompt T p) :
    Secured (({ s with work := some (j, Ts) } : State R τ).prefetch T'
      (C.hash.uniqueRows j.prompt j.start j.stop T')) prompt p T id := by
  cases h with
  | waiting j' hj hc => exact .waiting j' (by rwa [prefetch_jobs]) hc
  | working j' Ts' hw hT hc =>
    rw [hwork] at hw
    obtain ⟨rfl, rfl⟩ := Prod.mk.inj (Option.some.inj hw)
    rcases List.mem_cons.mp hT with rfl | hT
    · refine .queued ?_
      rw [rows_prefetch, List.mem_append]
      refine .inr (List.mem_map_of_mem ?_)
      obtain ⟨rfl, hstart, hstop⟩ := hc
      exact HostHash.mem_uniqueRows hstart hstop hid
    · exact .working j Ts (by rw [prefetch_work]) hT hc
  | queued hq =>
    refine .queued ?_
    rw [rows_prefetch]
    exact List.mem_append_left _ hq
  | taken ht => exact .taken (by rwa [prefetch_taken])

/-- The fetcher takes a batch. -/
theorem Secured.take (h : Secured s prompt p T id) (room : ℕ) :
    Secured { s with
      queue := (takeBatch room s.queue).2
      taken := s.taken ++ (takeBatch room s.queue).1 } prompt p T id := by
  cases h with
  | waiting j hj hc => exact .waiting j hj hc
  | working j Ts hw hT hc => exact .working j Ts hw hT hc
  | queued hq =>
    rw [← takeBatch_rows room, List.mem_append] at hq
    rcases hq with hq | hq
    · exact .taken (List.mem_append_right _ hq)
    · exact .queued hq
  | taken ht => exact .taken (List.mem_append_left _ ht)

end Steps

end Rows

/-! ### Every run -/

section Runs

variable {R τ : Type*} {C : Cfg τ} {s : State R τ} {rid : R} {info : Info τ}

/-- A request's mark is past its last chunk by the lookahead, and every row of a position before
the mark and after its first chunk is secured. -/
structure RequestOk (C : Cfg τ) (s : State R τ) (rid : R) (info : Info τ) : Prop where
  fresh : s.seen rid = none → info.queuedTo = 0
  marked : ∀ k, s.seen rid = some k →
    min info.prompt.length (k.pos + C.ahead * C.chunk) ≤ info.queuedTo
  secured : ∀ k, s.seen rid = some k → ∀ p, k.first ≤ p → p < info.queuedTo →
    ∀ T ∈ C.tables, ∀ id ∈ C.hash.hashPosition info.prompt T p, Secured s info.prompt p T id

/-- **The invariant**: every request that is known is in order. -/
def MarksOk (C : Cfg τ) (s : State R τ) : Prop :=
  ∀ rid info, s.reqs rid = some info → RequestOk C s rid info

/-- A step that leaves the requests alone keeps the invariant if it keeps what is secured. -/
theorem MarksOk.keep {s' : State R τ} (h : MarksOk C s) (hreqs : s'.reqs = s.reqs)
    (hseen : s'.seen = s.seen)
    (hkeep : ∀ prompt p, ∀ T ∈ C.tables, ∀ id ∈ C.hash.hashPosition prompt T p,
      Secured s prompt p T id → Secured s' prompt p T id) : MarksOk C s' := by
  intro rid info hinfo
  rw [hreqs] at hinfo
  obtain ⟨hfresh, hmarked, hsecured⟩ := h rid info hinfo
  rw [← hseen] at hfresh hmarked hsecured
  exact ⟨hfresh, hmarked, fun k hk p hp hlt T hT id hid =>
    hkeep _ p T hT id hid (hsecured k hk p hp hlt T hT id hid)⟩

/-- The next chunk of a prompt ends before the mark. -/
theorem RequestOk.chunk_le {k : Seen} (h : RequestOk C s rid info) (hahead : 0 < C.ahead)
    (hk : s.seen rid = some k) {computed n : ℕ} (hcomputed : computed ≤ k.pos) (hn : n ≤ C.chunk) :
    min info.prompt.length (computed + n) ≤ info.queuedTo := by
  have hchunk : C.chunk ≤ C.ahead * C.chunk := Nat.le_mul_of_pos_left _ hahead
  have hmarked := h.marked k hk
  omega

variable [DecidableEq R]

/-- A step that changes one request, and only adds to the jobs, keeps the others in order. -/
theorem MarksOk.update {s' : State R τ} (h : MarksOk C s)
    (hreqs : ∀ rid', rid' ≠ rid → s'.reqs rid' = s.reqs rid')
    (hseen : ∀ rid', rid' ≠ rid → s'.seen rid' = s.seen rid')
    (hjobs : ∀ j ∈ s.jobs, j ∈ s'.jobs) (hwork : s'.work = s.work) (hqueue : s'.queue = s.queue)
    (htaken : s'.taken = s.taken)
    (hrid : ∀ info, s'.reqs rid = some info → RequestOk C s' rid info) : MarksOk C s' := by
  intro rid' info hinfo
  by_cases hne : rid' = rid
  · subst hne
    exact hrid info hinfo
  · rw [hreqs rid' hne] at hinfo
    obtain ⟨hfresh, hmarked, hsecured⟩ := h rid' info hinfo
    rw [← hseen rid' hne] at hfresh hmarked hsecured
    exact ⟨hfresh, hmarked, fun k hk p hp hlt T hT id hid =>
      (hsecured k hk p hp hlt T hT id hid).mono hjobs hwork hqueue htaken⟩

/-- A new request has no mark yet. -/
theorem MarksOk.onNew (h : MarksOk C s) (r : NewReq R τ) : MarksOk C (s.onNew C r) := by
  rw [State.onNew]
  split
  · exact h
  · next ids _ =>
    split_ifs with hlen
    · exact h
    · refine h.update (fun _ hne => Function.update_of_ne hne ..)
        (fun _ hne => Function.update_of_ne hne ..) (fun _ hj => hj) rfl rfl rfl
        fun info hinfo => ?_
      have hnone : ∀ k : Seen, Function.update s.seen r.reqId none r.reqId ≠ some k := by
        intro k
        rw [Function.update_self]
        exact Option.some_ne_none k |>.symm
      simp only [Function.update_self, Option.some.injEq] at hinfo
      subst hinfo
      exact ⟨fun _ => rfl, fun k hk => absurd hk (hnone k), fun k hk => absurd hk (hnone k)⟩

/-- A clear that drops no row of another request keeps the others in order. -/
theorem MarksOk.forget (h : MarksOk C s) (hqueue : QueuedForNoOther C s rid) :
    MarksOk C (s.forget rid) := by
  intro rid' info hinfo
  by_cases hne : rid' = rid
  · simp only [State.forget, hne, Function.update_self, reduceCtorEq] at hinfo
  · simp only [State.forget, Function.update_of_ne hne] at hinfo
    obtain ⟨hfresh, hmarked, hsecured⟩ := h rid' info hinfo
    refine ⟨hfresh, hmarked, fun k hk p hp hlt T hT id hid => ?_⟩
    exact (hsecured k hk p hp hlt T hT id hid).forget
      (hqueue rid' hne info hinfo k hk p hp hlt T hT id hid)

/-- A chunk of a prompt: the mark moves to the lookahead past it, and the positions up to the new
mark are a job. -/
theorem MarksOk.onScheduled (h : MarksOk C s) (hahead : 0 < C.ahead) (hchunk : 0 < C.chunk)
    {computed n : ℕ} (hfits : Fits C s (.scheduled rid computed n)) :
    MarksOk C (s.onScheduled C rid (computed + n)) := by
  rw [State.onScheduled]
  split
  · exact h
  · next info hinfo =>
    obtain ⟨hcont, hclear⟩ := hfits info hinfo
    have hok := h rid info hinfo
    have hpos : 0 < C.ahead * C.chunk := Nat.mul_pos hahead hchunk
    have hle : ∀ k, s.seen rid = some k → min info.prompt.length (computed + n) ≤ info.queuedTo :=
      fun k hk => hok.chunk_le hahead hk (hcont k hk).1 (hcont k hk).2
    split_ifs with hlen
    · -- the prompt is through: its queue is cleared
      exact h.forget (hclear hlen)
    dsimp only
    split_ifs with hlt
    · refine h.update (fun _ hne => Function.update_of_ne hne ..)
        (fun _ hne => Function.update_of_ne hne ..) (fun _ hj => List.mem_append_left _ hj)
        rfl rfl rfl fun info' hinfo' => ?_
      simp only [Function.update_self, Option.some.injEq] at hinfo'
      subst hinfo'
      refine ⟨fun hk => ?_, fun k hk => ?_, fun k hk p hp hpmark T hT id hid => ?_⟩
      · simp only [State.saw, Function.update_self, reduceCtorEq] at hk
      · simp only [State.saw, Function.update_self, Option.some.injEq] at hk
        subst hk
        exact le_rfl
      · simp only [State.saw, Function.update_self, Option.some.injEq] at hk
        subst hk
        rcases hseen : s.seen rid with _ | k₀
        · -- the first chunk: the job begins behind it
          have hfresh := hok.fresh hseen
          simp only [hseen, Option.elim_none] at hp
          refine .waiting _ (List.mem_append_right _ (List.mem_singleton_self _)) ⟨rfl, ?_, hpmark⟩
          exact max_le hp (by omega)
        · simp only [hseen, Option.elim_some] at hp
          have hmark := hle k₀ hseen
          -- a position before the old mark has been secured already
          by_cases hold : p < info.queuedTo
          · exact (hok.secured k₀ hseen p hp hold T hT id hid).mono
              (fun _ hj => List.mem_append_left _ hj) rfl rfl rfl
          · refine .waiting _ (List.mem_append_right _ (List.mem_singleton_self _))
              ⟨rfl, max_le ?_ ?_, hpmark⟩ <;> omega
    · refine h.update (fun _ _ => rfl) (fun _ hne => Function.update_of_ne hne ..) (fun _ hj => hj)
        rfl rfl rfl fun info' hinfo' => ?_
      obtain rfl := Option.some.inj (hinfo.symm.trans hinfo')
      rcases hseen : s.seen rid with _ | k₀
      · have hfresh := hok.fresh hseen
        omega
      · have hmark := hle k₀ hseen
        refine ⟨fun hk => ?_, fun k hk => ?_, fun k hk p hp hpmark T hT id hid => ?_⟩
        · simp only [State.saw, Function.update_self, reduceCtorEq] at hk
        · simp only [State.saw, Function.update_self, Option.some.injEq] at hk
          subst hk
          dsimp only
          omega
        · simp only [State.saw, Function.update_self, Option.some.injEq] at hk
          subst hk
          simp only [hseen, Option.elim_some] at hp
          exact (hok.secured k₀ hseen p hp hpmark T hT id hid).mono (fun _ hj => hj) rfl rfl rfl

/-- An iteration of `on_schedule` that fits keeps the invariant. -/
theorem MarksOk.onEvent (h : MarksOk C s) (hahead : 0 < C.ahead) (hchunk : 0 < C.chunk)
    {e : Event R τ} (hfits : Fits C s e) : MarksOk C (s.onEvent C e) := by
  cases e with
  | new r => exact h.onNew r
  | scheduled rid computed n => exact h.onScheduled hahead hchunk hfits
  | finished rid =>
    rw [State.onEvent, State.onFinished]
    split_ifs with hsome
    · exact h.forget (hfits hsome)
    · exact h

theorem marksOk_invariant (hahead : 0 < C.ahead) (hchunk : 0 < C.chunk) :
    ((lookaheadSystem C).onlySteps (Calm C)).Invariant (MarksOk (R := R) C) where
  start s hs := by
    rw [show s = _ from hs]
    intro rid info hinfo
    cases hinfo
  step s a s' _ h := by
    rintro ⟨hcalm, hstep⟩
    cases a with
    | call so =>
      obtain ⟨-, hnext⟩ := Option.ite_none_right_eq_some.mp hstep
      obtain rfl := Option.some.inj hnext
      exact h.keep rfl rfl fun _ _ _ _ _ _ hsec => hsec.mono (fun _ hj => hj) rfl rfl rfl
    | hook =>
      rcases htodo : s.todo with _ | ⟨e, rest⟩
      · simp only [lookaheadSystem, TransitionSystem.ofStep, step, htodo, reduceCtorEq] at hstep
      · simp only [lookaheadSystem, TransitionSystem.ofStep, step, htodo,
          Option.some.injEq] at hstep
        subst hstep
        have hfits : Fits C s e := hcalm e (by rw [htodo]; rfl)
        have htail : MarksOk C { s with todo := rest } :=
          h.keep rfl rfl fun _ _ _ _ _ _ hsec => hsec.mono (fun _ hj => hj) rfl rfl rfl
        exact htail.onEvent hahead hchunk (by cases e <;> exact hfits)
    | pop =>
      rcases hwork : s.work with _ | w
      · rcases hjobs : s.jobs with _ | ⟨j, js⟩
        · simp only [lookaheadSystem, TransitionSystem.ofStep, step, hwork, hjobs,
            reduceCtorEq] at hstep
        · simp only [lookaheadSystem, TransitionSystem.ofStep, step, hwork, hjobs,
            Option.some.injEq] at hstep
          subst hstep
          exact h.keep rfl rfl fun _ _ _ hT _ _ hsec => hsec.pop hwork hjobs hT
      · simp only [lookaheadSystem, TransitionSystem.ofStep, step, hwork, reduceCtorEq] at hstep
    | hand =>
      rcases hwork : s.work with _ | ⟨j, _ | ⟨T', Ts⟩⟩
      · simp only [lookaheadSystem, TransitionSystem.ofStep, step, hwork, reduceCtorEq] at hstep
      · simp only [lookaheadSystem, TransitionSystem.ofStep, step, hwork,
          Option.some.injEq] at hstep
        subst hstep
        exact h.keep rfl rfl fun _ _ _ _ _ _ hsec => hsec.idle hwork
      · simp only [lookaheadSystem, TransitionSystem.ofStep, step, hwork,
          Option.some.injEq] at hstep
        subst hstep
        refine h.keep (by rw [prefetch_reqs]) (by rw [prefetch_seen]) ?_
        exact fun _ _ _ _ _ hid hsec => hsec.hand hwork hid
    | take room =>
      obtain rfl := Option.some.inj hstep
      exact h.keep rfl rfl fun _ _ _ _ _ _ hsec => hsec.take room

/-- In every run whose steps are calm: a request's mark is past its last chunk by the lookahead,
so that no chunk to come reaches past it; and every row of a position before the mark and after
the first chunk waits for the helper thread, or is in the queue, or has been taken from it. -/
theorem lookahead_secured (hahead : 0 < C.ahead) (hchunk : 0 < C.chunk) (s : State R τ)
    (hs : ((lookaheadSystem C).onlySteps (Calm C)).Reachable s) (rid : R) (info : Info τ)
    (hinfo : s.reqs rid = some info) (k : Seen) (hk : s.seen rid = some k) :
    min info.prompt.length (k.pos + C.ahead * C.chunk) ≤ info.queuedTo ∧
      (∀ computed n rest, s.todo = .scheduled rid computed n :: rest → Calm C s .hook →
        min info.prompt.length (computed + n) ≤ info.queuedTo) ∧
      ∀ p, k.first ≤ p → p < info.queuedTo → ∀ T ∈ C.tables,
        ∀ id ∈ C.hash.hashPosition info.prompt T p, Secured s info.prompt p T id := by
  have hok := (marksOk_invariant hahead hchunk).holds hs rid info hinfo
  refine ⟨hok.marked k hk, fun computed n rest htodo hcalm => ?_, hok.secured k hk⟩
  have hfits : Fits C s (.scheduled rid computed n) := hcalm _ (by rw [htodo]; rfl)
  obtain ⟨hcomputed, hn⟩ := (hfits info hinfo).1 k hk
  exact hok.chunk_le hahead hk hcomputed hn

end Runs

/-! ### A lookahead of one chunk -/

section Example

/-- One hash column, whose ids tell the tokens apart. -/
def smallHash : HostHash ℕ :=
  ⟨fun t => BitVec.ofNat 64 t, 0, fun _ _ => 1, fun _ _ => 1000, fun _ _ => 0, 1, 2⟩

/-- One table, chunks of two tokens, and a lookahead of one chunk. -/
def smallCfg : Cfg ℕ :=
  ⟨smallHash, [⟨0, 0, 0, 1⟩], 2, 1⟩

/-- A prompt longer than a chunk is scheduled, a token. -/
def oneScheduled : SchedulerOutput ℕ ℕ :=
  ⟨[⟨0, some [1, 2, 4, 8], 0⟩], [], [(0, 1)], []⟩

/-- The state when the prompt is known. -/
def afterNew : State ℕ ℕ :=
  ({ start with todo := oneScheduled.events.drop 1 } : State ℕ ℕ).onNew smallCfg
    ⟨0, some [1, 2, 4, 8], 0⟩

/-- The state after its first chunk. -/
def afterChunk : State ℕ ℕ :=
  ({ afterNew with todo := [] } : State ℕ ℕ).onScheduled smallCfg 0 (0 + 1)

/-- The row of the second token of a prompt of which one token was scheduled. -/
theorem lookahead_secured_second : Secured afterChunk [1, 2, 4, 8] 1 ⟨0, 0, 0, 1⟩ 3 := by
  have hcall : ((lookaheadSystem smallCfg).onlySteps (Calm smallCfg)).Reachable
      ({ start with todo := oneScheduled.events } : State ℕ ℕ) :=
    .step (a := .call oneScheduled) (.start rfl) ⟨trivial, rfl⟩
  have hcalm : Calm smallCfg ({ start with todo := oneScheduled.events } : State ℕ ℕ) .hook := by
    intro e he
    cases he
    trivial
  have hcalm' : Calm smallCfg afterNew .hook := by
    intro e he
    cases he
    intro info hinfo
    cases hinfo
    exact ⟨fun k hk => absurd hk (by simp [afterNew, State.onNew, smallCfg]),
      fun h => absurd h (by decide)⟩
  have hnew := hcall.step (t := afterNew) ⟨hcalm, rfl⟩
  have hchunk := hnew.step (t := afterChunk) ⟨hcalm', rfl⟩
  exact (lookahead_secured (by decide) (by decide) afterChunk hchunk 0 ⟨[1, 2, 4, 8], 3⟩ rfl ⟨1, 1⟩
    rfl).2.2 1 le_rfl (by decide) _ (List.mem_singleton_self _) 3 (by decide)

/-- Two prompts longer than a chunk are scheduled together, a token each. -/
def bothScheduled : SchedulerOutput ℕ ℕ :=
  ⟨[⟨0, some [1, 2, 4, 8], 0⟩, ⟨1, some [16, 32, 64], 0⟩], [], [(0, 1), (1, 1)], []⟩

/-- The second request is aborted. -/
def secondAborted : SchedulerOutput ℕ ℕ :=
  ⟨[], [], [], [1]⟩

/-- The rows of the first prompt are in the queue when the second request ends. -/
def abortedRun : List (Act ℕ ℕ) :=
  [.call bothScheduled, .hook, .hook, .hook, .hook, .pop, .hand, .hand, .call secondAborted, .hook]

/-- The mark of the first prompt is past position 1, for which no job is left, and nothing is in
the queue or was taken. -/
def lostRow (s : State ℕ ℕ) : Bool :=
  (s.reqs 0).any (fun info => info.prompt == [1, 2, 4, 8] && info.queuedTo == 3) &&
    (s.seen 0).any (fun k => k.first == 1) &&
    (s.jobs.all fun j => j.prompt != [1, 2, 4, 8]) && s.work.isNone && s.queue.isEmpty &&
    s.taken.isEmpty

theorem not_secured_of_lostRow {s : State ℕ ℕ} (h : lostRow s = true) (T : Table) (id : ℤ) :
    ¬Secured s [1, 2, 4, 8] 1 T id := by
  simp only [lostRow, Bool.and_eq_true, List.all_eq_true, bne_iff_ne, Option.isNone_iff_eq_none,
    List.isEmpty_iff] at h
  obtain ⟨⟨⟨⟨-, hjobs⟩, hwork⟩, hqueue⟩, htaken⟩ := h
  intro hsec
  cases hsec with
  | waiting j hj hc => exact hjobs j hj hc.prompt
  | working j Ts hw => exact absurd (hwork.symm.trans hw) (by simp)
  | queued hq =>
    rw [hqueue] at hq
    cases hq
  | taken ht =>
    rw [htaken] at ht
    cases ht

/-- The clear for one request drops the rows of another: no job is left for them, and they were
not taken, but the mark is past them. -/
theorem cleared_for_another :
    ∃ s, (lookaheadSystem smallCfg).Reachable s ∧ ∃ info k, s.reqs (0 : ℕ) = some info ∧
      s.seen 0 = some k ∧ k.first ≤ 1 ∧ 1 < info.queuedTo ∧ ∃ T ∈ smallCfg.tables,
        ∃ id ∈ smallCfg.hash.hashPosition info.prompt T 1, ¬Secured s info.prompt 1 T id := by
  have hrun : ∃ s, (lookaheadSystem smallCfg).Reachable s ∧ lostRow s = true :=
    TransitionSystem.exists_reachable_of_run (step smallCfg) (by exact rfl) abortedRun lostRow
      (by decide)
  obtain ⟨s, hs, hlost⟩ := hrun
  have hnot := not_secured_of_lostRow hlost
  simp only [lostRow, Bool.and_eq_true, Option.any_eq_true, beq_iff_eq] at hlost
  obtain ⟨⟨⟨⟨⟨⟨info, hinfo, hprompt, hmark⟩, k, hk, hfirst⟩, -⟩, -⟩, -⟩, -⟩ := hlost
  refine ⟨s, hs, info, k, hinfo, hk, hfirst.le, by omega, _, List.mem_singleton_self _,
    smallHash.column info.prompt 0 1 0, ?_, ?_⟩
  · exact List.mem_singleton_self _
  · rw [hprompt]
    exact hnot _ _

end Example

end Lookahead

end VllmMoet
