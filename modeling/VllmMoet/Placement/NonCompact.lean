import VllmMoet.Placement.Safety
import Mathlib.Data.List.Sort

/-!
# A non-compact MoE call beside the copy stream

A call of more than `compactMaxTokens` tokens does not publish. It reads the slot table
twice, at two different times:

* `on_apply` remaps the ids, and the resident run computes the pairs that got a slot;
* `_missing_experts` looks up which ids are in no slot, and `_run_rounds` streams those
  experts through the scratch pool, `perRound` of them in a round.

Between the two the copy stream goes on: `before_launch` has waited for the unmaps of the
last `after_launch`, not for its maps. `CallState.step` is the call's own steps, in the order
the code enqueues them, interleaved with the copy stream; every pair's two reads and its
computation are steps of their own.

With `PREFILL_OVERLAP` (`overlap`) the missing experts are looked up before the resident run,
and the rounds are staged on a side stream, into two scratch sets in turn.
-/

namespace VllmMoet

namespace Placement

/-- `COMPACT_MAX_TOKENS`. -/
def compactMaxTokens : ℕ := 8

/-- A non-compact call: its layer, the router's ids (a row per token), and the scratch pool's
experts per round. -/
structure Call where
  layer : ℕ
  topkIds : List (List ℤ)
  overlap : Bool
  perRound : ℕ
  perRound_pos : 0 < perRound
  nonCompact : compactMaxTokens < topkIds.length

namespace Call

variable (c : Call) (V : ℕ)

/-- `_expand_routing`: every (token, expert) pair `V` times, once for each slice. -/
def ids : List ℤ := c.topkIds.flatten.flatMap (List.replicate V)

/-- The number of (token, expert, slice) pairs. -/
def nPairs : ℕ := (c.ids V).length

/-- The expert of pair `p`, if the pair is valid. Its slice is `p % V`. -/
def expertAt (p : ℕ) : Option ℕ :=
  (c.ids V)[p]?.bind fun i => if 0 ≤ i then some i.toNat else none

/-- The scratch set of round `r`. -/
def setOf (r : ℕ) : ℕ := if c.overlap then r % 2 else 0

/-- How many rounds are staged before the one that runs is over. -/
def ahead : ℕ := if c.overlap then 1 else 0

/-- The `r`-th round of the missing experts. -/
def round (missing : List ℕ) (r : ℕ) : List ℕ := (missing.drop (r * c.perRound)).take c.perRound

end Call

/-- A call in progress, and the protocol's state beside it. -/
structure CallState where
  sys : Sys
  /-- the pairs `on_apply` has still to remap -/
  toRemap : List ℕ
  /-- the pool row a pair was remapped to -/
  remapped : ℕ → Option ℕ
  /-- the pairs the resident run has still to compute -/
  toRun : List ℕ
  /-- how often the resident run has computed a pair from its expert's record -/
  resident : ℕ → ℕ
  /-- the pairs `_missing_experts` has still to look up -/
  toMiss : List ℕ
  /-- the pair is valid and its expert was found in no slot -/
  mask : ℕ → Bool
  /-- the experts in each scratch set, in slot order -/
  sets : ℕ → List ℕ
  /-- the rounds staged, and the rounds run -/
  staged : ℕ
  rounds : ℕ
  /-- how often a scratch round has computed a pair from its expert's record -/
  streamed : ℕ → ℕ

/-- The steps of a call, and those of the copy stream beside it. -/
inductive CallEvent
  /-- thread `i` of the copy stream -/
  | copy (i : ℕ)
  /-- `on_apply` remaps a pair -/
  | remap (i : ℕ)
  /-- the resident run computes a pair -/
  | run (i : ℕ)
  /-- `_missing_experts` looks up a pair -/
  | miss (i : ℕ)
  /-- a round's experts are staged and repacked into its scratch set -/
  | stage
  /-- a round runs -/
  | round

namespace CallState

variable (cfg : Config) (c : Call) (C : CallState)

/-- A call begins. -/
def init (S : Sys) : CallState where
  sys := S
  toRemap := List.range (c.nPairs cfg.V)
  remapped _ := none
  toRun := List.range (c.nPairs cfg.V)
  resident _ := 0
  toMiss := List.range (c.nPairs cfg.V)
  mask _ := false
  sets _ := []
  staged := 0
  rounds := 0
  streamed _ := 0

/-- The slot of an expert, as the table has it now. -/
def slotNow (e : ℕ) : Option ℕ := C.sys.mem.table c.layer e

/-- The missing experts: `torch.unique` of the ids under the mask, ascending. -/
def missing : List ℕ :=
  ((List.range (c.nPairs cfg.V)).filterMap fun p =>
    if C.mask p then c.expertAt cfg.V p else none).dedup.insertionSort (· ≤ ·)

/-- The resident run computes pair `p` from its row: the row holds the expert's slice. -/
def computes (p : ℕ) : Prop :=
  ∃ row ∈ C.remapped p, C.sys.mem.rows c.layer row =
    (c.expertAt cfg.V p).map fun e => (e, p % cfg.V)

instance (p : ℕ) : Decidable (C.computes cfg c p) :=
  inferInstanceAs (Decidable (∃ row ∈ C.remapped p, _))

/-- Round `r` computes pair `p`: the scratch table has its expert, whose record is in that
place of the round's scratch set. -/
def streams (r p : ℕ) : Prop :=
  ∃ e ∈ c.expertAt cfg.V p, e ∈ c.round (C.missing cfg c) r ∧
    (C.sets (c.setOf r))[(c.round (C.missing cfg c) r).idxOf e]? = some e

instance (r p : ℕ) : Decidable (C.streams cfg c r p) :=
  inferInstanceAs (Decidable (∃ e ∈ c.expertAt cfg.V p, _))

/-- One step of the call or of the copy stream. -/
def step (C : CallState) : CallEvent → Option CallState
  | .copy i => (C.sys.copyStep i).map fun S => { C with sys := S }
  | .remap i => C.toRemap[i]?.map fun p =>
    { C with
      toRemap := C.toRemap.eraseIdx i
      remapped := Function.update C.remapped p
        ((c.expertAt cfg.V p).bind fun e =>
          (C.slotNow c e).map fun s => s * cfg.V + p % cfg.V) }
  | .run i =>
    if C.toRemap = [] ∧ (c.overlap → C.toMiss = []) then
      C.toRun[i]?.map fun p =>
        { C with
          toRun := C.toRun.eraseIdx i
          resident := Function.update C.resident p
            (C.resident p + if C.computes cfg c p then 1 else 0) }
    else none
  | .miss i =>
    if C.toRemap = [] ∧ (c.overlap = false → C.toRun = []) then
      C.toMiss[i]?.map fun p =>
        { C with
          toMiss := C.toMiss.eraseIdx i
          mask := Function.update C.mask p
            ((c.expertAt cfg.V p).any fun e => (C.slotNow c e).isNone) }
    else none
  | .stage =>
    -- a set is staged anew once the round that read it is over
    if C.toMiss = [] ∧ (c.overlap = false → C.toRun = []) ∧
        C.staged * c.perRound < (C.missing cfg c).length ∧
        C.staged ≤ C.rounds + c.ahead then
      some { C with
        sets := Function.update C.sets (c.setOf C.staged) (c.round (C.missing cfg c) C.staged)
        staged := C.staged + 1 }
    else none
  | .round =>
    if C.toMiss = [] ∧ C.toRun = [] ∧ C.rounds < C.staged then
      some { C with
        rounds := C.rounds + 1
        streamed := fun p => C.streamed p + if C.streams cfg c C.rounds p then 1 else 0 }
    else none

/-- The call is over: every pair went through both reads and the resident run, every round
has run. -/
def Done : Prop :=
  C.toRemap = [] ∧ C.toRun = [] ∧ C.toMiss = [] ∧
    (C.missing cfg c).length ≤ C.rounds * c.perRound

instance : Decidable (C.Done cfg c) := inferInstanceAs (Decidable (_ ∧ _ ∧ _ ∧ _))

/-- A valid pair is computed exactly once: by the resident run or by one scratch round. -/
def ComputedOnce (p : ℕ) : Prop :=
  C.resident p = 1 ∧ C.streamed p = 0 ∨ C.resident p = 0 ∧ C.streamed p = 1

/-- The next step maps the expert of pair `p` after the pair's remap and before every lookup
of the expert. -/
def Lands (p : ℕ) (a : CallEvent) : Prop :=
  ∃ i e s, a = .copy i ∧ Cmd.next? C.sys.copy i = some (.map c.layer e s) ∧
    c.expertAt cfg.V p = some e ∧ p ∉ C.toRemap ∧
    ∀ p', c.expertAt cfg.V p' = some e → p' ∈ C.toMiss

end CallState

/-- Some step of a run lands the map of pair `p`'s expert between the two reads. -/
def MapLands (cfg : Config) (c : Call) (C : CallState) (as : List CallEvent) (p : ℕ) : Prop :=
  ∃ as₁ a as₂ C₁, as = as₁ ++ a :: as₂ ∧
    TransitionSystem.replay (CallState.step cfg c) C as₁ = some C₁ ∧ C₁.Lands cfg c p a

/-! ### The copy stream during a call -/

/-- The copy stream has nothing left to unmap. -/
def NoUnmaps (q : List (Cmd CopyOp Event)) : Prop :=
  ∀ as, .kernel as ∈ q → ∀ l e, .unmap l e ∉ as

section

variable {cfg : Config} {S S' : Sys}

/-- Once `before_launch`'s waits are over there is nothing left to unmap. -/
theorem SysOk.noUnmaps (h : SysOk cfg S) (hready : S.ready = true) (hmain : S.main = []) :
    NoUnmaps S.copy := by
  have hcomplete : ∀ k < S.calls, .unmap k ∈ S.done := by
    intro k hk
    obtain hw | hw | hw := h.waited k hk
    · exact hw
    · simp [hmain] at hw
    · simp [h.ready hready] at hw
  have hunmaps := h.unmaps
  have hrec : ∀ e ∈ Cmd.records S.copy, e ∉ S.done ∧ e.call < S.calls := fun e he =>
    ⟨h.pending.notMem e (List.mem_append_right _ he), h.known e (.inr (.inr he))⟩
  generalize S.done = W at hunmaps hrec hcomplete
  generalize S.copy = copy at hunmaps hrec
  -- the kernel's `U` is recorded behind it, so it is not complete
  suffices H : ∀ (q : List (Cmd CopyOp Event)) (W' : List Event),
      Cmd.Along UnmapsFenced W' q → (∀ e ∈ Cmd.records q, e ∉ W ∧ e.call < S.calls) →
      NoUnmaps q from H copy W hunmaps hrec
  intro q
  induction q with
  | nil => exact fun W' _ _ as has => by simp at has
  | cons cmd q ih =>
    intro W' halong hrec as has l e he
    obtain rfl | hmem := List.mem_cons.mp has
    · obtain ⟨k, -, hk⟩ := halong.1 l e he
      obtain ⟨hnot, hlt⟩ := hrec (.unmap k) hk
      exact hnot (hcomplete k hlt)
    · cases cmd with
      | record ev =>
        exact ih _ halong (fun e he => hrec e (List.mem_cons_of_mem _ he)) as hmem l e he
      | wait ev => exact ih _ halong hrec as hmem l e he
      | kernel bs => exact ih _ halong.2 hrec as hmem l e he

/-- A step of the copy stream without unmaps: what is mapped stays mapped, and an entry
changes only by the map that is next. -/
theorem SysOk.copyStep_table (h : SysOk cfg S) (hno : NoUnmaps S.copy) {i : ℕ}
    (hs : S.copyStep i = some S') :
    NoUnmaps S'.copy ∧
    (∀ l e s, S.mem.table l e = some s → S'.mem.table l e = some s) ∧
    (∀ l e s, Cmd.next? S.copy i = some (.map l e s) →
      S.mem.table l e = none ∧ S'.mem.table l e = some s) ∧
    ∀ l e s, S.mem.table l e = none → S'.mem.table l e = some s →
      Cmd.next? S.copy i = some (.map l e s) := by
  obtain ⟨⟨m', done', copy'⟩, hstep, rfl⟩ := Option.map_eq_some_iff.mp hs
  obtain ⟨e, hq, rfl, -⟩ | ⟨e, hq, rfl, -, -⟩ | ⟨hq, rfl, -⟩ | ⟨as, a, q, hq, ha, rfl, -, rfl⟩ :=
    Cmd.step_cases hstep
  · refine ⟨fun as has => hno as (by rw [hq]; exact List.mem_cons_of_mem _ has),
      fun _ _ _ ht => ht, fun l e s hn => ?_, fun l e s hn hsome => ?_⟩
    · simp [hq, Cmd.next?] at hn
    · simp [hn] at hsome
  · refine ⟨fun as has => hno as (by rw [hq]; exact List.mem_cons_of_mem _ has),
      fun _ _ _ ht => ht, fun l e s hn => ?_, fun l e s hn hsome => ?_⟩
    · simp [hq, Cmd.next?] at hn
    · simp [hn] at hsome
  · refine ⟨fun as has => hno as (by rw [hq]; exact List.mem_cons_of_mem _ has),
      fun _ _ _ ht => ht, fun l e s hn => ?_, fun l e s hn hsome => ?_⟩
    · simp [hq, Cmd.next?] at hn
    · simp [hn] at hsome
  · have hnext : Cmd.next? S.copy i = some a := by rw [hq]; exact ha
    have hguard := h.goes.next hnext
    have hne : ∀ l e, a ≠ .unmap l e := fun l e hae =>
      hno as (by rw [hq]; exact List.mem_cons_self ..) l e (hae ▸ List.mem_of_getElem? ha)
    refine ⟨fun bs hbs l e he => ?_, fun l e s ht => table_run hguard hne ht,
      fun l e s hn => ?_, fun l e s hnone hsome => ?_⟩
    · obtain hbs | hbs := List.mem_cons.mp hbs
      · obtain rfl := Cmd.kernel.inj hbs
        exact hno as (by rw [hq]; exact List.mem_cons_self ..) l e (List.mem_of_mem_eraseIdx he)
      · exact hno bs (by rw [hq]; exact List.mem_cons_of_mem _ hbs) l e he
    · obtain rfl : a = .map l e s := Option.some.inj (hnext.symm.trans hn)
      exact ⟨hguard.1, by simp [CopyOp.run, update₂_apply]⟩
    · cases a with
      | unmap l' e' => exact absurd rfl (hne l' e')
      | h2d | repackBegin | repackEnd => simp [CopyOp.run, hnone] at hsome
      | map l' e' s' =>
        simp only [CopyOp.run, update₂_apply, hnone] at hsome
        split at hsome
        next heq =>
          obtain ⟨rfl, rfl⟩ := heq
          rw [hnext, Option.some.inj hsome]
        next => simp at hsome

end

end Placement

end VllmMoet
