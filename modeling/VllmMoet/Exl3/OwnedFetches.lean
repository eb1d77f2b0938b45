import VllmMoet.Delta.Fetched
import VllmMoet.Delta.Windows
import VllmMoet.Exl3.Ownership

/-!
# What a rank of an expert-parallel layer fetches

On a rank with a paged base the forward marks the ids of its calls in `seen`, writes them into
`route_log` and hands them to `ensure_resident`; `force_promote` and the manager fetch what a
snapshot of `seen` shows, and the draft prefetcher what the log has shown for a token. All of
these ids have gone through the ownership transform. `rankSystem` is the runs of one rank.

`route_log` is created with zeros, and the prefetcher folds eight columns of it, more than a call
with fewer experts per token writes: it takes the zeros for expert 0.

* `OwnedOnly`: a rank has marked, logged and fetched only experts of its own.
* `shared_layer`: every layer is served as if it were not shared out, and while no prediction
  rests on an entry that no forward has written, a rank fetches only its own experts.
* `foreign_fetched`: a run in which a rank fetches another one's expert.
-/

namespace VllmMoet.Exl3

universe u v

open Delta Routing

/-- The row of a token in `route_log` or in the affinity table, by layer and column; `none` is
the zero that a log is created with. -/
abbrev LogRow := ℕ → ℕ → Option ℕ

/-- The columns that the affinity table has. -/
def affK : ℕ := 8

/-- The columns that `route_log` has. -/
def logK : ℕ := 16

/-- A rank: its base tier, its ownership entries, the layers whose base is paged, the rows of
`route_log`, and whether the draft prefetcher or the look-ahead wants it. -/
structure RankConfig where
  cfg : Config
  ep : ℕ → Option Ownership
  paged : ℕ → Bool
  tCap : ℕ
  prefetch : Bool
  prefetchCap : ℕ
  wantsRouteLog : Bool

/-- The routing marks and the snapshots of them, the tier, the miss counter, the log, and what
the draft prefetcher keeps: the ids of the last step and its table by token. -/
structure RankState where
  windows : WindowState
  delta : DeltaState
  missCount : ℕ
  routeLog : ℕ → LogRow
  lastIds : List ℕ
  aff : ℕ → Option LogRow

/-- What happens on a rank: the two halves of a layer's forward and the call of
`ensure_resident` between them, the runner's and the manager's other operations, and the side
stream. -/
inductive RankAct (S : Type u) [LE S] (E : ℕ)
  | forward (l : ℕ) (b : Batch S E)
  | ensureScan (l : ℕ) (b : Batch S E)
  | ensureFetch (coupled : Pair → Bool) (fault : Option Fault)
  | serve (l : ℕ) (b : Batch S E)
  | draftPrefetch (ids : List ℕ) (coupled : Pair → Bool) (fault : Option Fault)
  | forcePromote (layers : Option (List ℕ)) (maxPromote : Option ℕ) (pin : Bool)
      (weights : Option (Pair → ℚ)) (coupled : Pair → Bool) (fault : Option Fault)
  | tick (decay : Option ℚ) (coupled : Pair → Bool) (fault : Option Fault)
  | gpu
  | stepBegin
  | stepEnd

/-- The rank's layer, as a call finds it. -/
def RankConfig.shard (c : RankConfig) (l : ℕ) (resident : ℕ → Bool) : Shard :=
  ⟨c.ep l, c.paged l, resident⟩

/-- The rank owns the expert. -/
def RankConfig.Owns (c : RankConfig) (p : Pair) : Prop :=
  owns (c.ep p.1) p.2 = true

namespace RankState

variable (c : RankConfig) (T : TopK) (s : RankState)

/-- What an operation reads: the counts in `_seen_host`, and the coupled tier. -/
def view (coupled : Pair → Bool) : View :=
  ⟨fun p => s.windows.buf.host.countP fun m => m.pair = p, coupled⟩

/-- `mark_seen` for a layer. -/
def mark (l : ℕ) (ids : List ℕ) : RankState :=
  { s with windows := ids.foldl (fun w e => w.mark (l, e)) s.windows }

/-- The decode routing log, written if the call fits into it. -/
def log {S : Type u} (l : ℕ) (x : Routed S) : ℕ → LogRow :=
  if (c.prefetch || c.wantsRouteLog) && decide (x.m ≤ c.tCap) then fun t l' j =>
    if l' = l ∧ t < x.m ∧ j < min x.k logK then some (x.ids t j) else s.routeLog t l' j
  else s.routeLog

/-- The first half of a layer's forward: the marks, the reset of the counter, the log. -/
def forward {S : Type u} (l : ℕ) (x : Routed S) : RankState :=
  if c.paged l then
    { s.mark l x.flatIds with
      missCount := if l = 0 then 0 else s.missCount
      routeLog := s.log c l x }
  else s

/-- The call of `ensure_resident`, up to where it drops the lock. -/
def ensureScan {S : Type u} (l : ℕ) (x : Routed S) : RankState :=
  if s.delta.tier.frozen ∨ ¬ c.cfg.inStore l then s
  else
    let s := s.mark l ((List.range c.cfg.nExperts).filter x.flatIds.contains)
    { s with delta :=
        ⟨(Delta.ensureScan c.cfg s.delta.tier l x.flatIds).1,
          (Delta.ensureScan c.cfg s.delta.tier l x.flatIds).2⟩ }

/-- The rest of it: a snapshot, and the fetch. -/
def ensureFetch (coupled : Pair → Bool) (fault : Option Fault) : RankState :=
  if s.delta.fetching = [] then s
  else
    let s := { s with windows := s.windows.snapshot }
    { s with delta :=
        ⟨(Delta.ensureFetch c.cfg T (s.view coupled) s.delta.tier s.delta.fetching fault).1, []⟩ }

/-- The experts with a slot in a layer. -/
def resident (l e : ℕ) : Bool :=
  (s.delta.tier.slotTable (l, e)).isSome

/-- The second half of the forward counts the pairs that miss their expert. -/
def serve {S : Type u} [MulZeroOneClass S] [DecidableEq S] (l : ℕ) (b : Routed S) : RankState :=
  { s with missCount := s.missCount + ((c.shard l (s.resident l)).missed b).card }

/-- The affinity table with the last step's rows of the log in it. -/
def folded : ℕ → Option LogRow :=
  scatter s.aff (s.lastIds.zipIdx.map fun e => (e.1, some (s.routeLog e.2)))

/-- The prefetcher reads the entry for a token: a zero of the log is expert 0. -/
def predicts (id l e : ℕ) : Bool :=
  (s.folded id).any fun row => (List.range affK).any fun j => (row l j).getD 0 == e

/-- The pairs that `draft_prefetch` fetches for some tokens. -/
def predicted (ids : List ℕ) : List Pair :=
  ((allPairs c.cfg).filter fun p => (ids.any fun id => s.predicts id p.1 p.2) &&
    (s.delta.tier.mirror p).isNone && c.cfg.inStore p.1).take (max 1 c.prefetchCap)

/-- `draft_prefetch`. -/
def draftPrefetch (ids : List ℕ) (coupled : Pair → Bool) (fault : Option Fault) : RankState :=
  if s.delta.tier.frozen ∨ ¬ c.prefetch then s
  else
    let ids := ids.take c.tCap
    { s with
      delta := { s.delta with tier := (prefetchPairs c.cfg T (s.view coupled) s.delta.tier
        (s.predicted c ids) 0 fault).1 }
      lastIds := ids
      aff := s.folded }

/-- `force_promote`: a snapshot of `seen`, which it clears, and the promotion. -/
def forcePromote (layers : Option (List ℕ)) (maxPromote : Option ℕ) (pin : Bool)
    (weights : Option (Pair → ℚ)) (coupled : Pair → Bool) (fault : Option Fault) : RankState :=
  if s.delta.tier.frozen ∨ (List.range c.cfg.nLayers).all (fun l => !c.cfg.inStore l) then s
  else
    let s := { s with windows := s.windows.forcePromote }
    { s with delta := { s.delta with tier := (Delta.forcePromote c.cfg T (s.view coupled)
        s.delta.tier layers maxPromote pin weights fault).1 } }

/-- A manager pass, which consumes a snapshot whose event has fired. -/
def tick (decay : Option ℚ) (coupled : Pair → Bool) (fault : Option Fault) : RankState :=
  let t := { s.delta.tier with tick := s.delta.tier.tick + 1 }
  { s with
    delta := { s.delta with tier :=
      if s.windows.pending && s.windows.fired then
        (tickLocked c.cfg T (s.view coupled) t (s.view coupled).seenHost decay fault).1
      else t }
    windows := s.windows.tick }

end RankState

section System

variable {S : Type u} [Field S] [LinearOrder S] (topp : ToppConfig S) (o : WriteOrder)
  (c : RankConfig) (T : TopK)

/-- The pairs of a call once they have gone through the transform. -/
def RankConfig.pairs (l : ℕ) (b : Batch S c.cfg.nExperts) : Routed S :=
  (b.pruned topp o).owned (c.ep l)

/-- One step of a rank. -/
def rankStep (s : RankState) : RankAct S c.cfg.nExperts → Option RankState
  | .forward l b => some (s.forward c l (c.pairs topp o l b))
  | .ensureScan l b =>
    if c.paged l ∧ 8 < b.m then some (s.ensureScan c l (c.pairs topp o l b)) else none
  | .ensureFetch coupled fault => some (s.ensureFetch c T coupled fault)
  | .serve l b => some (s.serve c l (b.pruned topp o))
  | .draftPrefetch ids coupled fault => some (s.draftPrefetch c T ids coupled fault)
  | .forcePromote layers maxPromote pin weights coupled fault =>
    some (s.forcePromote c T layers maxPromote pin weights coupled fault)
  | .tick decay coupled fault => some (s.tick c T decay coupled fault)
  | .gpu => (windowStep s.windows .gpu).map fun w => { s with windows := w }
  | .stepBegin => some { s with delta := { s.delta with tier := clearPins s.delta.tier } }
  | .stepEnd => some { s with
      windows := s.windows.stepEnd
      delta := { s.delta with tier := clearPins s.delta.tier } }

/-- A rank with a tier: nothing is marked, logged or folded yet. -/
def RankState.init (t : Tier) : RankState where
  windows := .init
  delta := ⟨t, []⟩
  missCount := 0
  routeLog _ _ _ := none
  lastIds := []
  aff _ := none

/-- The runs of a rank from a tier on. -/
def rankSystem (t : Tier) : TransitionSystem RankState (RankAct S c.cfg.nExperts) :=
  .ofStep (fun s => s = .init t) (rankStep topp o c T)

end System

/-- No prediction for a step rests on an entry that no forward has written, unless expert 0 is
the rank's own. -/
def PredictsLogged {S : Type u} [LE S] {E : ℕ} (c : RankConfig) (s : RankState) :
    RankAct S E → Prop
  | .draftPrefetch ids _ _ => ∀ id ∈ ids.take c.tCap, ∀ l ∈ List.range c.cfg.nLayers,
      c.cfg.inStore l = true → ∀ j ∈ List.range affK,
        (s.folded id).all (fun row => (row l j).isSome) = true ∨ owns (c.ep l) 0 = true
  | .forward .. | .ensureScan .. | .ensureFetch .. | .serve .. | .forcePromote .. | .tick .. | .gpu
  | .stepBegin | .stepEnd => True

instance {S : Type u} [LE S] {E : ℕ} (c : RankConfig) (s : RankState) :
    ∀ a : RankAct S E, Decidable (PredictsLogged c s a)
  | .draftPrefetch _ _ _ => inferInstanceAs (Decidable (∀ id ∈ List.take _ _, _))
  | .forward .. | .ensureScan .. | .ensureFetch .. | .serve .. | .forcePromote .. | .tick .. | .gpu
  | .stepBegin | .stepEnd => inferInstanceAs (Decidable True)

/-- All that a rank has marked, logged and fetched is its own: the tier has nothing else, beside
what it had at the start. -/
structure OwnedOnly (c : RankConfig) (t : Tier) (s : RankState) : Prop where
  marked : ∀ p, s.windows.Mentions p → c.Owns p
  logged : ∀ i l j e, s.routeLog i l j = some e → c.Owns (l, e)
  folded : ∀ id row, s.aff id = some row → ∀ l j e, row l j = some e → c.Owns (l, e)
  fetching : ∀ p ∈ s.delta.fetching, c.Owns p
  fetched : ∀ p, s.delta.tier.Mentions p → c.Owns p ∨ t.Mentions p

/-! ### Everything comes out of the transform -/

section Invariant

variable {S : Type u} [Field S] [LinearOrder S] {topp : ToppConfig S} {o : WriteOrder}
  {c : RankConfig} {T : TopK} {t : Tier} {s s' : RankState}

/-- The ids that a call marks, logs and fetches are the rank's own. -/
theorem owns_flatIds {l : ℕ} {b : Batch S c.cfg.nExperts} {e : ℕ}
    (h : e ∈ (c.pairs topp o l b).flatIds) : c.Owns (l, e) :=
  Routed.owns_of_mem_flatIds h

/-- Marking a list of ids. -/
theorem mentions_markAll {l : ℕ} {ids : List ℕ} {p : Pair}
    (h : (s.mark l ids).windows.Mentions p) :
    s.windows.Mentions p ∨ p.1 = l ∧ p.2 ∈ ids := by
  induction ids generalizing s with
  | nil => exact .inl h
  | cons e ids ih =>
    rcases @ih { s with windows := s.windows.mark (l, e) } h with h | ⟨hl, he⟩
    · refine (mentions_mark h).imp_right fun h => ?_
      rw [h]
      exact ⟨rfl, List.mem_cons_self⟩
    · exact .inr ⟨hl, List.mem_cons_of_mem _ he⟩

/-- What an operation counts has been marked. -/
theorem OwnedOnly.of_seenHost (h : OwnedOnly c t s) {coupled : Pair → Bool} {p : Pair}
    (hp : (s.view coupled).seenHost p ≠ 0) : c.Owns p := by
  obtain ⟨m, hm, heq⟩ := List.countP_pos_iff.mp (Nat.pos_of_ne_zero hp)
  exact h.marked p ⟨m, of_decide_eq_true heq, .inr (.inr (.inr hm))⟩

/-- A step of the marks that brings in nothing. -/
theorem OwnedOnly.windows (h : OwnedOnly c t s) {w : WindowState}
    (hw : ∀ p, w.Mentions p → s.windows.Mentions p) : OwnedOnly c t { s with windows := w } :=
  ⟨fun p hp => h.marked p (hw p hp), h.logged, h.folded, h.fetching, h.fetched⟩

/-- An operation on the tier that brings in the rank's own experts only. -/
theorem OwnedOnly.tier (h : OwnedOnly c t s) {u : Tier}
    (hu : ∀ p, u.Mentions p → s.delta.tier.Mentions p ∨ c.Owns p) :
    OwnedOnly c t { s with delta := { s.delta with tier := u } } :=
  ⟨h.marked, h.logged, h.folded, h.fetching,
    fun p hp => (hu p hp).elim (h.fetched p) Or.inl⟩

theorem OwnedOnly.forward (h : OwnedOnly c t s) (l : ℕ) (b : Batch S c.cfg.nExperts) :
    OwnedOnly c t (s.forward c l (c.pairs topp o l b)) := by
  rw [RankState.forward]
  split
  · constructor
    case marked =>
      intro p hp
      rcases mentions_markAll hp with hp | ⟨rfl, he⟩
      · exact h.marked p hp
      · exact owns_flatIds he
    case logged =>
      intro i l' j e he
      change s.log c l (c.pairs topp o l b) i l' j = some e at he
      rw [RankState.log] at he
      split at he
      · dsimp only at he
        split at he
        · next hin =>
          obtain ⟨rfl, -, -⟩ := hin
          rw [← Option.some.inj he]
          exact Routed.owns_owned_ids _ i j
        · exact h.logged i l' j e he
      · exact h.logged i l' j e he
    case folded => exact h.folded
    case fetching => exact h.fetching
    case fetched => exact h.fetched
  · exact h

theorem OwnedOnly.ensureScan (h : OwnedOnly c t s) (l : ℕ) (b : Batch S c.cfg.nExperts) :
    OwnedOnly c t (s.ensureScan c l (c.pairs topp o l b)) := by
  rw [RankState.ensureScan]
  split
  · exact h
  · constructor
    case marked =>
      intro p hp
      rcases mentions_markAll hp with hp | ⟨rfl, he⟩
      · exact h.marked p hp
      · exact owns_flatIds (List.contains_iff_mem.mp (List.mem_filter.mp he).2)
    case logged => exact h.logged
    case folded => exact h.folded
    case fetching =>
      intro p hp
      obtain ⟨rfl, he⟩ := mem_ensureScan hp
      exact owns_flatIds he
    case fetched => exact fun p hp => h.fetched p (mentions_ensureScan hp)

theorem OwnedOnly.ensureFetch (h : OwnedOnly c t s) (coupled : Pair → Bool)
    (fault : Option Fault) : OwnedOnly c t (s.ensureFetch c T coupled fault) := by
  rw [RankState.ensureFetch]
  split
  · exact h
  · constructor
    case marked => exact fun p hp => h.marked p (mentions_snapshot hp)
    case logged => exact h.logged
    case folded => exact h.folded
    case fetching => exact fun p hp => absurd hp List.not_mem_nil
    case fetched =>
      intro p hp
      rcases mentions_ensureFetch hp with hp | hp
      · exact h.fetched p hp
      · exact .inl (h.fetching p hp)

theorem OwnedOnly.forcePromote (h : OwnedOnly c t s) (layers : Option (List ℕ))
    (maxPromote : Option ℕ) (pin : Bool) (weights : Option (Pair → ℚ)) (coupled : Pair → Bool)
    (fault : Option Fault) :
    OwnedOnly c t (s.forcePromote c T layers maxPromote pin weights coupled fault) := by
  rw [RankState.forcePromote]
  split
  · exact h
  · have hsnap := h.windows (w := s.windows.forcePromote) fun p => mentions_windowForce
    exact hsnap.tier fun p hp => (mentions_forcePromote hp).imp_right hsnap.of_seenHost

theorem OwnedOnly.tick (h : OwnedOnly c t s) (decay : Option ℚ) (coupled : Pair → Bool)
    (fault : Option Fault) : OwnedOnly c t (s.tick c T decay coupled fault) := by
  rw [RankState.tick]
  refine (h.windows (w := s.windows.tick) fun p => mentions_windowTick).tier fun p hp => ?_
  split at hp
  · exact (mentions_tickLocked hp).imp_right h.of_seenHost
  · exact .inl hp

/-- The table that a fold leaves is the rank's own, where a forward has written it. -/
theorem OwnedOnly.owns_folded (h : OwnedOnly c t s) {id : ℕ} {row : LogRow}
    (hrow : s.folded id = some row) {l j e : ℕ} (he : row l j = some e) : c.Owns (l, e) := by
  have hscatter : scatter s.aff ((s.lastIds.zipIdx.map fun e => (e.1, s.routeLog e.2)).map
      fun e => (e.1, some e.2)) id = some row := by
    rwa [List.map_map]
  rcases scatter_eq_some hscatter with hold | hnew
  · exact h.folded id row hold l j e he
  · obtain ⟨i, -, hi⟩ := List.mem_map.mp hnew
    have hlog : s.routeLog i.2 = row := congrArg Prod.snd hi
    exact h.logged i.2 l j e (hlog ▸ he)

/-- A prediction that rests on what forwards have written is for the rank's own experts. -/
theorem OwnedOnly.owns_predicted (h : OwnedOnly c t s) {ids : List ℕ}
    (hlog : ∀ id ∈ ids, ∀ l ∈ List.range c.cfg.nLayers, c.cfg.inStore l = true →
      ∀ j ∈ List.range affK, (s.folded id).all (fun row => (row l j).isSome) = true ∨
        owns (c.ep l) 0 = true) {p : Pair} (hp : p ∈ s.predicted c ids) : c.Owns p := by
  obtain ⟨hall, hcond⟩ := List.mem_filter.mp (List.mem_of_mem_take hp)
  simp only [Bool.and_eq_true] at hcond
  obtain ⟨⟨hany, -⟩, hstore⟩ := hcond
  obtain ⟨id, hid, hpred⟩ := List.any_eq_true.mp hany
  obtain ⟨row, hrow, hcol⟩ := (Option.any_eq_true _ _).mp hpred
  obtain ⟨j, hj, he⟩ := List.any_eq_true.mp hcol
  have hl : p.1 ∈ List.range c.cfg.nLayers := (List.mem_product.mp hall).1
  have he := beq_iff_eq.mp he
  cases hentry : row p.1 j with
  | some e =>
    rw [hentry, Option.getD_some] at he
    exact h.owns_folded hrow (he ▸ hentry)
  | none =>
    -- a zero of the log: then expert 0 is the rank's own
    rw [hentry, Option.getD_none] at he
    rcases hlog id hid p.1 hl hstore j hj with hwritten | hzero
    · rw [hrow, Option.all_some, hentry] at hwritten
      exact absurd hwritten Bool.false_ne_true
    · rw [RankConfig.Owns, ← he]
      exact hzero

theorem OwnedOnly.draftPrefetch (h : OwnedOnly c t s) {ids : List ℕ}
    (coupled : Pair → Bool) (fault : Option Fault)
    (hlog : ∀ id ∈ ids.take c.tCap, ∀ l ∈ List.range c.cfg.nLayers, c.cfg.inStore l = true →
      ∀ j ∈ List.range affK, (s.folded id).all (fun row => (row l j).isSome) = true ∨
        owns (c.ep l) 0 = true) :
    OwnedOnly c t (s.draftPrefetch c T ids coupled fault) := by
  rw [RankState.draftPrefetch]
  split
  · exact h
  · constructor
    case marked => exact h.marked
    case logged => exact h.logged
    case folded => exact fun id row hrow l j e he => h.owns_folded hrow he
    case fetching => exact h.fetching
    case fetched =>
      intro p hp
      rcases mentions_prefetchPairs hp with hp | hp
      · exact h.fetched p hp
      · exact .inl (h.owns_predicted hlog hp)

/-- A step keeps everything the rank's own. -/
theorem OwnedOnly.step (h : OwnedOnly c t s) {a : RankAct S c.cfg.nExperts}
    (ha : PredictsLogged c s a) (hstep : rankStep topp o c T s a = some s') :
    OwnedOnly c t s' := by
  cases a with
  | forward l b => exact Option.some.inj hstep ▸ h.forward l b
  | ensureScan l b =>
    obtain ⟨-, hs⟩ := Option.ite_none_right_eq_some.mp hstep
    exact Option.some.inj hs ▸ h.ensureScan l b
  | ensureFetch coupled fault => exact Option.some.inj hstep ▸ h.ensureFetch coupled fault
  | serve l b =>
    rw [← Option.some.inj hstep]
    exact ⟨h.marked, h.logged, h.folded, h.fetching, h.fetched⟩
  | draftPrefetch ids coupled fault =>
    exact Option.some.inj hstep ▸ h.draftPrefetch coupled fault ha
  | forcePromote layers maxPromote pin weights coupled fault =>
    exact Option.some.inj hstep ▸ h.forcePromote layers maxPromote pin weights coupled fault
  | tick decay coupled fault => exact Option.some.inj hstep ▸ h.tick decay coupled fault
  | gpu =>
    obtain ⟨w, hw, rfl⟩ := Option.map_eq_some_iff.mp hstep
    refine h.windows fun p hp => ?_
    rw [windowStep] at hw
    cases hs : s.windows.stream with
    | nil =>
      rw [hs] at hw
      exact absurd hw (Option.some_ne_none w).symm
    | cons op rest =>
      rw [hs] at hw
      exact mentions_exec (Option.some.inj hw ▸ hp)
  | stepBegin =>
    rw [← Option.some.inj hstep]
    exact h.tier fun p hp => .inl hp
  | stepEnd =>
    rw [← Option.some.inj hstep]
    exact (h.windows (w := s.windows.stepEnd) fun p hp => hp).tier fun p hp => .inl hp

/-- Along a run whose predictions all rest on what forwards have written. -/
theorem reachable_ownedOnly
    (h : ((rankSystem topp o c T t).onlySteps (PredictsLogged c)).Reachable s) :
    OwnedOnly c t s := by
  have hinv : ((rankSystem topp o c T t).onlySteps (PredictsLogged c)).Invariant
      (OwnedOnly c t) := by
    constructor
    · rintro s rfl
      constructor
      case marked =>
        rintro p ⟨m, -, h | h | h | h⟩
        all_goals exact absurd h List.not_mem_nil
      case logged => exact fun i l j e he => absurd he (Option.some_ne_none e).symm
      case folded => exact fun id row hrow => absurd hrow (Option.some_ne_none row).symm
      case fetching => exact fun p hp => absurd hp List.not_mem_nil
      case fetched => exact fun p hp => .inr hp
    · rintro s a s' - hs ⟨ha, hstep⟩
      exact hs.step ha hstep
  exact hinv.holds h

end Invariant

/-! ### The layer over all ranks -/

/-- How the ranks serve a call of a layer, for any tables: every pair by its owner alone, and a
rank that has the experts it marks counts nothing. -/
structure CallShared {S : Type u} [Field S] [DecidableEq S] {R : Type v} (rank : R → RankConfig)
    (l : ℕ) (resident : R → ℕ → Bool) (x : Routed S) : Prop where
  pairs : ∀ t < x.m, ∀ j < x.k, ∃ r, (rank r).Owns (l, x.ids t j) ∧
    ServedOnce (fun r => (rank r).shard l (resident r)) x t j r
  marks : ∀ r, ∀ e ∈ (x.owned ((rank r).ep l)).flatIds, (rank r).Owns (l, e)
  replay : ∀ r, (∀ e ∈ (x.owned ((rank r).ep l)).flatIds, resident r e = true) →
    ((rank r).shard l (resident r)).missed x = ∅

/-- **Expert ownership and paging compose.** Where the ranks' masks share out the experts of every
layer, every routed pair of every call is served by its owner or counted there; a step that ends
with every counter at zero has the unsharded output in every layer; and along every run whose
predictions rest on what forwards have written, a rank marks, logs and fetches its own experts
only. -/
theorem shared_layer {S : Type u} [Field S] [LinearOrder S] (topp : ToppConfig S)
    (o : WriteOrder) (T : TopK) {R : Type v} [Fintype R] (E : ℕ) (rank : R → RankConfig)
    (hshare : ∀ l, ∀ e < E, ∃ r, (rank r).Owns (l, e) ∧ ∀ q, (rank q).Owns (l, e) → q = r) :
    (∀ l resident, ∀ b : Batch S E, CallShared rank l resident (b.pruned topp o)) ∧
    (∀ (n : ℕ) (b : ℕ → Batch S E) (resident : R → ℕ → ℕ → Bool) (c : R → ℕ),
      (∀ r, missCount (fun l => (rank r).shard l (resident r l)) (fun l => (b l).pruned topp o)
        (c r) n = 0) →
      ∀ l < n, ∀ {V : Type u} [AddCommMonoid V] [Module S V] (expert : ℕ → ℕ → V)
        (stale : R → ℕ → ℕ → V), ∀ t < (b l).m,
        ∑ r, ((rank r).shard l (resident r l)).output expert (stale r) ((b l).pruned topp o) t =
          ((b l).pruned topp o).output expert t) ∧
    (∀ r t s, ((rankSystem topp o (rank r) T t).onlySteps (PredictsLogged (rank r))).Reachable s →
      OwnedOnly (rank r) t s) := by
  have hone : ∀ l (b : Batch S E), ∀ t < b.m, ∀ j < b.k,
      ∃ r, (rank r).Owns (l, (b.pruned topp o).ids t j) ∧
        ∀ q, (rank q).Owns (l, (b.pruned topp o).ids t j) → q = r :=
    fun l b t ht j hj => hshare l _ (b.pruned_ids_lt topp o t ht j hj)
  refine ⟨fun l resident b => ?_, fun n b resident c hzero l hl V _ _ expert stale t ht => ?_,
    fun r t s hs => reachable_ownedOnly hs⟩
  · constructor
    case pairs =>
      intro t ht j hj
      obtain ⟨r, hr, huniq⟩ := hone l b t ht j hj
      exact ⟨r, hr, servedOnce ht hj hr huniq⟩
    case marks => exact fun r e he => Routed.owns_of_mem_flatIds he
    case replay => exact fun r h => Shard.missed_eq_empty h
  · exact sum_output (b := (b l).pruned topp o) (fun t ht j hj => hone l (b l) t ht j hj)
      (fun r => missed_of_missCount (hzero r) l hl) expert stale ht

/-- Two ranks with half of a layer's eight experts each, and the draft prefetcher on. -/
def half (second : Bool) : RankConfig where
  cfg :=
    { nSlots := 16
      nLayers := 1
      nExperts := 8
      inStore := fun l => decide (l < 1)
      policy := .freq
      base := true
      promotePerTick := 8
      promoHyst := 0 }
  ep _ := some (if second then .ofList 4 [5, 6, 7] else .ofList 0 [1, 2, 3])
  paged _ := true
  tCap := 8
  prefetch := true
  prefetchCap := 32
  wantsRouteLog := false

/-- One token with six experts of equal weight. -/
def sixExperts : Batch ℚ 8 where
  m := 1
  k := 6
  ids _ j := if j < 6 then j else 0
  wts _ _ := 1
  order _ := ⟨List.range 6, .refl _, by simp [List.pairwise_iff_getElem]⟩
  ids_lt := by
    intro t _ j hj
    rw [if_pos hj]
    omega

theorem start_half {S : Type u} [Field S] [LinearOrder S] (topp : ToppConfig S) (o : WriteOrder)
    (second : Bool) :
    (rankSystem topp o (half second) TopK.sorted (Tier.init (half second).cfg)).Start
      (.init (Tier.init (half second).cfg)) :=
  rfl

/-- Every expert is in one half. -/
theorem half_share (l : ℕ) :
    ∀ e < 8, ∃ r, (half r).Owns (l, e) ∧ ∀ q, (half q).Owns (l, e) → q = r := by
  intro e he
  have hcase : (half true).Owns (l, e) ↔ 4 ≤ e := by
    simp only [RankConfig.Owns, owns, half, Ownership.ofList, Option.all_some, if_true,
      List.contains_iff_mem, List.mem_cons, List.not_mem_nil, or_false]
    omega
  have hcase' : (half false).Owns (l, e) ↔ e < 4 := by
    simp only [RankConfig.Owns, owns, half, Ownership.ofList, Option.all_some,
      Bool.false_eq_true, if_false, List.contains_iff_mem, List.mem_cons, List.not_mem_nil,
      or_false]
    omega
  by_cases h : 4 ≤ e
  · refine ⟨true, hcase.mpr h, fun q hq => ?_⟩
    cases q with
    | true => rfl
    | false => exact absurd (hcase'.mp hq) (Nat.not_lt.mpr h)
  · refine ⟨false, hcase'.mpr (Nat.not_le.mp h), fun q hq => ?_⟩
    cases q with
    | true => exact absurd (hcase.mp hq) h
    | false => rfl

/-- One token with all eight experts. -/
def eightExperts : Batch ℚ 8 where
  m := 1
  k := 8
  ids _ j := if j < 8 then j else 0
  wts _ _ := 1
  order _ := ⟨List.range 8, .refl _, by simp [List.pairwise_iff_getElem]⟩
  ids_lt := by
    intro t _ j hj
    rw [if_pos hj]
    omega

/-- Both halves count nothing when they have all their experts; and with eight experts per token the
forward fills the columns that the draft prefetcher folds, which then fetches an expert of its
own. -/
theorem shared_layer_halves :
    CallShared half 0 (fun _ _ => true) (sixExperts.pruned ⟨0, 1, false⟩ .ascending) ∧
    ∃ s, ((rankSystem (⟨0, 1, false⟩ : ToppConfig ℚ) .ascending (half true) TopK.sorted
        (Tier.init (half true).cfg)).onlySteps (PredictsLogged (half true))).Reachable s ∧
      s.aff 5 ≠ none ∧ (s.delta.tier.slotTable (0, 4)).isSome = true ∧
      OwnedOnly (half true) (Tier.init (half true).cfg) s := by
  obtain ⟨hcall, -, hrun⟩ := shared_layer (⟨0, 1, false⟩ : ToppConfig ℚ) .ascending TopK.sorted 8
    half half_share
  obtain ⟨s, hs, hP⟩ := TransitionSystem.exists_reachable_of_replay
    (rankStep (⟨0, 1, false⟩ : ToppConfig ℚ) .ascending (half true) TopK.sorted)
    (PredictsLogged (half true)) (start_half (⟨0, 1, false⟩ : ToppConfig ℚ) .ascending true)
    [.draftPrefetch [5] (fun _ => false) none, .forward 0 eightExperts, .serve 0 eightExperts,
      .draftPrefetch [5] (fun _ => false) none]
    (fun s => (s.aff 5).isSome && (s.delta.tier.slotTable (0, 4)).isSome)
    (by decide +kernel)
  obtain ⟨haff, hslot⟩ := Bool.and_eq_true_iff.mp hP
  exact ⟨hcall 0 _ sixExperts, s, hs, Option.isSome_iff_ne_none.mp haff, hslot, hrun true _ _ hs⟩

/-- The second half folds eight columns of a log of which six are written, takes the zeros of the
others for expert 0, and fetches it: its row is in the other half. -/
theorem foreign_fetched :
    ∃ s, (rankSystem (⟨0, 1, false⟩ : ToppConfig ℚ) .ascending (half true) TopK.sorted
        (Tier.init (half true).cfg)).Reachable s ∧
      (∃ slot, s.delta.tier.slotTable (0, 0) = some slot ∧ s.delta.tier.pool slot = some (0, 0)) ∧
      ¬ (half true).Owns (0, 0) ∧ (half false).Owns (0, 0) := by
  obtain ⟨s, hs, hP⟩ := TransitionSystem.exists_reachable_of_run
    (rankStep (⟨0, 1, false⟩ : ToppConfig ℚ) .ascending (half true) TopK.sorted)
    (start_half (⟨0, 1, false⟩ : ToppConfig ℚ) .ascending true)
    [.draftPrefetch [5] (fun _ => false) none, .forward 0 sixExperts, .serve 0 sixExperts,
      .draftPrefetch [5] (fun _ => false) none]
    (fun s => decide (s.delta.tier.slotTable (0, 0) = some 15 ∧
      s.delta.tier.pool 15 = some (0, 0)))
    (by decide +kernel)
  obtain ⟨htable, hpool⟩ := of_decide_eq_true hP
  refine ⟨s, hs, ⟨15, htable, hpool⟩, ?_, ?_⟩
  · rw [RankConfig.Owns]
    decide
  · rw [RankConfig.Owns]
    decide

end VllmMoet.Exl3
