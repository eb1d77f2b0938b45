import VllmMoet.Delta.Residency
import VllmMoet.Delta.Windows

/-!
# What an operation brings into a tier

A pair is in a tier when it is mapped, owns a slot or has its row in the pool. Whatever an
operation brings in is among what it was asked for, however the operation ends; evictions and
rollbacks bring in nothing.

The same for the marks: a buffer that the side stream writes holds what the forward has marked.

* `Tier.Mentions`, `WindowState.Mentions`: the pairs that are in a tier, and those marked.
* `mentions_tickLocked`, `mentions_prefetchPairs`, `mentions_forcePromote`,
  `mentions_ensureFetch`: what the fetching operations bring in.
-/

namespace VllmMoet.Delta

/-- The pair is mapped, owns a slot, or has its row in the pool. -/
def Tier.Mentions (t : Tier) (p : Pair) : Prop :=
  ∃ s, t.mirror p = some s ∨ t.slotTable p = some s ∨ t.owner s = some p ∨ t.pool s = some p

/-- A place of a scatter holds what it held or what is written there. -/
theorem scatter_eq_some {α β : Type} [DecidableEq α] {f : α → Option β} {kvs : List (α × β)}
    {a : α} {b : β} (h : scatter f (kvs.map fun e => (e.1, some e.2)) a = some b) :
    f a = some b ∨ (a, b) ∈ kvs := by
  induction kvs generalizing f with
  | nil => exact .inl h
  | cons kv kvs ih =>
    rw [List.map_cons, scatter_cons] at h
    rcases ih h with h | h
    · by_cases ha : a = kv.1
      · subst ha
        rw [Function.update_self] at h
        exact .inr (List.mem_cons.mpr (.inl (Prod.ext rfl (Option.some.inj h).symm)))
      · exact .inl (by rwa [Function.update_of_ne ha] at h)
    · exact .inr (List.mem_cons_of_mem _ h)

section Mentions

variable {cfg : Config} {T : TopK} {v : View} {t : Tier} {p : Pair}

/-! ### The parts of an operation -/

/-- A take brings in nothing. -/
theorem mentions_take {k minCold : ℕ} {emergency protectHot : Bool}
    (h : (takeSlotsBatch cfg T v t k emergency minCold none protectHot).2.Mentions p) :
    t.Mentions p := by
  obtain ⟨ev, hev, -⟩ := exists_taken cfg T v t k emergency minCold protectHot
  rw [hev] at h
  have hkept : ∀ {f : Pair → Option ℕ} {s : ℕ},
      (if ev.any fun s => decide (t.owner s = some p) then none else f p) = some s →
      f p = some s := by
    intro f s hs
    split at hs
    · exact absurd hs (Option.some_ne_none s).symm
    · exact hs
  obtain ⟨s, h | h | h | h⟩ := h
  · exact ⟨s, .inl (hkept h)⟩
  · exact ⟨s, .inr (.inl (hkept h))⟩
  · exact ⟨s, .inr (.inr (.inl h))⟩
  · exact ⟨s, .inr (.inr (.inr h))⟩

theorem mentions_reserve {plan : List (Pair × ℕ)} (h : (t.reserve plan).Mentions p) :
    t.Mentions p ∨ p ∈ plan.map Prod.fst := by
  obtain ⟨s, h | h | h | h⟩ := h
  · exact .inl ⟨s, .inl h⟩
  · exact .inl ⟨s, .inr (.inl h)⟩
  · have hs : scatter t.owner ((plan.map Prod.swap).map fun e => (e.1, some e.2)) s = some p := by
      rwa [List.map_map]
    rcases scatter_eq_some hs with hs | hs
    · exact .inl ⟨s, .inr (.inr (.inl hs))⟩
    · obtain ⟨e, he, heq⟩ := List.mem_map.mp hs
      exact .inr (List.mem_map.mpr ⟨e, he, congrArg Prod.snd heq⟩)
  · exact .inl ⟨s, .inr (.inr (.inr h))⟩

theorem mentions_copyRows {plan : List (Pair × ℕ)} (h : (t.copyRows plan).Mentions p) :
    t.Mentions p ∨ p ∈ plan.map Prod.fst := by
  obtain ⟨s, h | h | h | h⟩ := h
  · exact .inl ⟨s, .inl h⟩
  · exact .inl ⟨s, .inr (.inl h)⟩
  · exact .inl ⟨s, .inr (.inr (.inl h))⟩
  · have hs : scatter t.pool ((plan.map Prod.swap).map fun e => (e.1, some e.2)) s = some p := by
      rwa [List.map_map]
    rcases scatter_eq_some hs with hs | hs
    · exact .inl ⟨s, .inr (.inr (.inr hs))⟩
    · obtain ⟨e, he, heq⟩ := List.mem_map.mp hs
      exact .inr (List.mem_map.mpr ⟨e, he, congrArg Prod.snd heq⟩)

theorem mentions_mapTable {plan : List (Pair × ℕ)} (h : (t.mapTable plan).Mentions p) :
    t.Mentions p ∨ p ∈ plan.map Prod.fst := by
  obtain ⟨s, h | h | h | h⟩ := h
  · exact .inl ⟨s, .inl h⟩
  · rcases scatter_eq_some h with hs | hs
    · exact .inl ⟨s, .inr (.inl hs)⟩
    · exact .inr (List.mem_map.mpr ⟨_, hs, rfl⟩)
  · exact .inl ⟨s, .inr (.inr (.inl h))⟩
  · exact .inl ⟨s, .inr (.inr (.inr h))⟩

theorem mentions_mapMirror {plan : List (Pair × ℕ)} (h : (t.mapMirror plan).Mentions p) :
    t.Mentions p ∨ p ∈ plan.map Prod.fst := by
  obtain ⟨s, h | h | h | h⟩ := h
  · rcases scatter_eq_some h with hs | hs
    · exact .inl ⟨s, .inl hs⟩
    · exact .inr (List.mem_map.mpr ⟨_, hs, rfl⟩)
  · exact .inl ⟨s, .inr (.inl h)⟩
  · exact .inl ⟨s, .inr (.inr (.inl h))⟩
  · exact .inl ⟨s, .inr (.inr (.inr h))⟩

theorem mentions_pin {pin : Pin} {slots : List ℕ} :
    (t.pin pin slots).Mentions p ↔ t.Mentions p := by
  cases pin <;> exact Iff.rfl

/-- A fetch brings in the pairs of its plan, however it ends. -/
theorem mentions_fetchPlan {pin : Pin} {plan : List (Pair × ℕ)} {fault : Option Fault}
    (h : (fetchPlan t pin plan fault).1.Mentions p) : t.Mentions p ∨ p ∈ plan.map Prod.fst := by
  have hreserved : ((t.reserve plan).pin pin (plan.map Prod.snd)).Mentions p →
      t.Mentions p ∨ p ∈ plan.map Prod.fst := fun h => mentions_reserve (mentions_pin.mp h)
  cases fault with
  | none =>
    rcases mentions_mapMirror h with h | h
    · rcases mentions_mapTable h with h | h
      · exact (mentions_copyRows h).elim hreserved .inr
      · exact .inr h
    · exact .inr h
  | some fault =>
    cases fault with
    | read => exact .inl h
    | copy done =>
      rcases mentions_copyRows h with h | h
      · exact hreserved h
      · exact .inr ((List.map_subset _ (List.take_subset _ _)) h)

/-- A rollback brings in nothing. -/
theorem mentions_rollBack {plan : List (Pair × ℕ)} (h : (rollBack t plan).Mentions p) :
    t.Mentions p := by
  induction plan generalizing t with
  | nil => exact h
  | cons e plan ih =>
    have hkept : ∀ {α β : Type} [DecidableEq α] {f : α → Option β} {k a : α} {b : β},
        Function.update f k none a = some b → f a = some b := by
      intro α β _ f k a b hb
      by_cases ha : a = k
      · rw [ha, Function.update_self] at hb
        exact absurd hb (Option.some_ne_none b).symm
      · rwa [Function.update_of_ne ha] at hb
    obtain ⟨s, h | h | h | h⟩ := ih h
    · exact ⟨s, .inl (hkept h)⟩
    · exact ⟨s, .inr (.inl (hkept h))⟩
    · exact ⟨s, .inr (.inr (.inl (hkept h)))⟩
    · exact ⟨s, .inr (.inr (.inr h))⟩

/-! ### The fetching operations -/

/-- The pairs of a plan are among its candidates. -/
theorem mem_of_mem_plan {keys : List Pair} {out : List ℕ}
    (h : p ∈ (keys.zip out).map Prod.fst) : p ∈ keys := by
  rw [plan_keys] at h
  exact List.mem_of_mem_take h

theorem mem_nonzero {cnt : Pair → ℕ} (h : p ∈ nonzero cfg cnt) : cnt p ≠ 0 := by
  have hne := (List.mem_filter.mp h).2
  rwa [bne_iff_ne] at hne

/-- The candidates of a manager pass are routed pairs. -/
theorem mem_of_mem_tickCandidates {seen : List Pair} (h : p ∈ tickCandidates cfg T v t seen) :
    p ∈ seen := by
  have hsorted : ∀ l : List Pair, p ∈ (if cfg.policy = .freq then T.argsort t.freq l else l) →
      p ∈ l := by
    intro l h
    split at h
    · exact (T.argsort_perm t.freq l).mem_iff.mp h
    · exact h
  rw [tickCandidates] at h
  have h := List.mem_of_mem_take h
  split at h
  · split at h
    · exact List.mem_of_mem_filter (hsorted _ h)
    · exact List.mem_of_mem_filter (hsorted _ (List.mem_of_mem_filter h))
  · exact List.mem_of_mem_filter (hsorted _ h)

/-- Reordering and capping add no candidate. -/
theorem mem_of_mem_capped {key : Pair → ℚ} {maxPromote : Option ℕ} {cand : List Pair}
    (h : p ∈ (maxPromote.map (T.argsort key cand).take).getD (T.argsort key cand)) :
    p ∈ cand := by
  have hperm := T.argsort_perm key cand
  cases maxPromote with
  | none => exact hperm.mem_iff.mp h
  | some n => exact hperm.mem_iff.mp (List.mem_of_mem_take h)

theorem mentions_promoteBatch {candidates : List Pair} {fault : Option Fault}
    (h : (promoteBatch cfg T v t candidates fault).1.Mentions p) :
    t.Mentions p ∨ p ∈ candidates := by
  rw [promoteBatch] at h
  dsimp only at h
  split at h
  · exact .inl h
  · split at h
    · exact .inl (mentions_take h)
    · cases fault with
      | none =>
        rcases mentions_reserve h with h | h
        · rcases mentions_mapMirror h with h | h
          · rcases mentions_mapTable h with h | h
            · rcases mentions_copyRows h with h | h
              · exact .inl (mentions_take h)
              · exact .inr (mem_of_mem_plan h)
            · exact .inr (mem_of_mem_plan h)
          · exact .inr (mem_of_mem_plan h)
        · exact .inr (mem_of_mem_plan h)
      | some fault =>
        cases fault with
        | read => exact .inl (mentions_take (mentions_rollBack h))
        | copy done =>
          have htake : ∀ {plan : List (Pair × ℕ)}, p ∈ (plan.take done).map Prod.fst →
              p ∈ plan.map Prod.fst := fun h => List.map_subset _ (List.take_subset _ _) h
          rcases mentions_mapTable (mentions_rollBack h) with h | h
          · rcases mentions_copyRows h with h | h
            · exact .inl (mentions_take h)
            · exact .inr (mem_of_mem_plan (htake h))
          · exact .inr (mem_of_mem_plan (htake h))

/-- A manager pass brings in what it has counted. -/
theorem mentions_tickLocked {cnt : Pair → ℕ} {decay : Option ℚ} {fault : Option Fault}
    (h : (tickLocked cfg T v t cnt decay fault).1.Mentions p) : t.Mentions p ∨ cnt p ≠ 0 := by
  have hcand : ∀ {u : Tier}, p ∈ tickCandidates cfg T v u (nonzero cfg cnt) → cnt p ≠ 0 := by
    intro u hp
    exact mem_nonzero (mem_of_mem_tickCandidates hp)
  rw [tickLocked] at h
  dsimp only at h
  split at h
  · exact .inl h
  · generalize hu : noteRouted t (nonzero cfg cnt) cnt = u at h
    have hnoted : ∀ p, u.Mentions p → t.Mentions p := fun p h => by rwa [← hu] at h
    have hr : ∀ r : Tier × Outcome, r = (if cfg.policy ≠ .need ∧ ¬ u.frozen then
        promoteBatch cfg T v u (tickCandidates cfg T v u (nonzero cfg cnt)) fault
        else (u, .returned 0)) → r.1.Mentions p → t.Mentions p ∨ cnt p ≠ 0 := by
      rintro r rfl h
      split at h
      · exact (mentions_promoteBatch h).imp (hnoted p) hcand
      · exact .inl (hnoted p h)
    split at h
    · exact hr _ rfl h
    · exact hr _ rfl h

/-- A prefetch brings in what it was given. -/
theorem mentions_prefetchPairs {pairs : List Pair} {coldTicks : ℕ} {fault : Option Fault}
    (h : (prefetchPairs cfg T v t pairs coldTicks fault).1.Mentions p) :
    t.Mentions p ∨ p ∈ pairs := by
  rw [prefetchPairs] at h
  dsimp only at h
  split at h
  · exact .inl h
  · split at h
    · exact .inl h
    · split at h
      · exact .inl h
      · split at h
        · exact .inl (mentions_take h)
        · rcases mentions_fetchPlan h with h | h
          · exact .inl (mentions_take h)
          · exact .inr (List.mem_of_mem_filter (mem_of_mem_plan h))

/-- A forced promotion brings in what its snapshot shows. -/
theorem mentions_forcePromote {layers : Option (List ℕ)} {maxPromote : Option ℕ} {pin : Bool}
    {weights : Option (Pair → ℚ)} {fault : Option Fault}
    (h : (forcePromote cfg T v t layers maxPromote pin weights fault).1.Mentions p) :
    t.Mentions p ∨ v.seenHost p ≠ 0 := by
  rw [forcePromote] at h
  dsimp only at h
  split at h
  · exact .inl h
  · split at h
    · exact .inl h
    · generalize hu : (if pin = true then _ else _ : Tier).bumpNeed _ = u at h
      have hnoted : u.Mentions p → t.Mentions p := by
        rw [← hu]
        cases pin <;> exact id
      split at h
      · exact .inl (hnoted h)
      · split at h
        · exact .inl (hnoted (mentions_take h))
        · rcases mentions_fetchPlan h with h | h
          · exact .inl (hnoted (mentions_take h))
          · have hcand := mem_of_mem_capped (mem_of_mem_plan h)
            exact .inr (mem_nonzero (List.mem_of_mem_filter hcand))

/-- The first half of `ensure_resident` brings in nothing, and looks for listed experts. -/
theorem mentions_ensureScan {layer : ℕ} {ids : List ℕ}
    (h : (ensureScan cfg t layer ids).1.Mentions p) : t.Mentions p := by
  rw [ensureScan] at h
  split at h
  · exact h
  · exact h

theorem mem_ensureScan {layer : ℕ} {ids : List ℕ} (h : p ∈ (ensureScan cfg t layer ids).2) :
    p.1 = layer ∧ p.2 ∈ ids := by
  rw [ensureScan] at h
  split at h
  · exact absurd h List.not_mem_nil
  · obtain ⟨e, he, rfl⟩ := List.mem_map.mp (List.mem_of_mem_filter h)
    exact ⟨rfl, List.contains_iff_mem.mp (List.mem_filter.mp he).2⟩

/-- The second half brings in its candidates. -/
theorem mentions_ensureFetch {cand : List Pair} {fault : Option Fault}
    (h : (ensureFetch cfg T v t cand fault).1.Mentions p) : t.Mentions p ∨ p ∈ cand := by
  rw [ensureFetch] at h
  dsimp only at h
  split at h
  · exact .inl h
  · split at h
    · exact .inl (mentions_take h)
    · rcases mentions_fetchPlan h with h | h
      · exact .inl (mentions_take h)
      · exact .inr (List.mem_of_mem_filter (mem_of_mem_plan h))

end Mentions

/-! ### Marks -/

/-- The pair is marked somewhere. -/
def WindowState.Mentions (s : WindowState) (p : Pair) : Prop :=
  ∃ m : Mark, m.pair = p ∧
    (m ∈ s.marked ∨ m ∈ s.buf.seen ∨ m ∈ s.buf.accum ∨ m ∈ s.buf.host)

/-- The side stream moves marks about. -/
theorem mem_runAll {m : Mark} {ops : List SideOp} {b : Buffers}
    (h : m ∈ (runAll ops b).seen ∨ m ∈ (runAll ops b).accum ∨ m ∈ (runAll ops b).host) :
    m ∈ b.seen ∨ m ∈ b.accum ∨ m ∈ b.host := by
  induction ops generalizing b with
  | nil => exact h
  | cons op ops ih =>
    have hrun := @ih (op.run b) h
    cases op with
    | resetAccum =>
      exact hrun.imp_right fun h => .inr (h.resolve_left List.not_mem_nil)
    | merge =>
      rcases hrun with h | h | h
      · exact .inl h
      · exact (List.mem_append.mp h).elim (fun h => .inr (.inl h)) .inl
      · exact .inr (.inr h)
    | zeroSeen => exact .inr (hrun.resolve_left List.not_mem_nil)
    | copyHost => exact hrun.imp_right fun h => .inl (h.elim id id)
    | record => exact hrun

section Marks

variable {s : WindowState} {p : Pair}

theorem mentions_mark {q : Pair} (h : (s.mark q).Mentions p) : s.Mentions p ∨ p = q := by
  obtain ⟨m, hp, h⟩ := h
  have hnew : ∀ {l : List Mark}, m ∈ l ++ [⟨s.step, q⟩] → m ∈ l ∨ p = q := by
    intro l h
    refine (List.mem_append.mp h).imp_right fun h => ?_
    rw [← hp, List.mem_singleton.mp h]
  rcases h with h | h | h | h
  · exact (hnew h).imp_left fun h => ⟨m, hp, .inl h⟩
  · exact (hnew h).imp_left fun h => ⟨m, hp, .inr (.inl h)⟩
  · exact .inl ⟨m, hp, .inr (.inr (.inl h))⟩
  · exact .inl ⟨m, hp, .inr (.inr (.inr h))⟩

theorem mentions_exec {op : SideOp} {rest : List SideOp} (h : (s.exec op rest).Mentions p) :
    s.Mentions p := by
  obtain ⟨m, hp, h | h⟩ := h
  · exact ⟨m, hp, .inl h⟩
  · exact ⟨m, hp, .inr (@mem_runAll m [op] s.buf h)⟩

theorem mentions_windowTick (h : s.tick.Mentions p) : s.Mentions p := by
  rw [WindowState.tick] at h
  split at h
  · exact h
  · exact h

theorem mentions_snapshot (h : s.snapshot.Mentions p) : s.Mentions p := by
  obtain ⟨m, hp, h | h | h | h⟩ := h
  · exact ⟨m, hp, .inl h⟩
  · exact ⟨m, hp, .inr (mem_runAll (.inl h))⟩
  · exact ⟨m, hp, .inr (mem_runAll (.inr (.inl h)))⟩
  · exact ⟨m, hp, .inr (mem_runAll (.inl h))⟩

theorem mentions_windowForce (h : s.forcePromote.Mentions p) : s.Mentions p := by
  rw [WindowState.forcePromote] at h
  dsimp only at h
  split at h
  · exact mentions_snapshot h
  · obtain ⟨m, hp, h | h | h⟩ := h
    · exact ⟨m, hp, .inl h⟩
    · exact absurd h List.not_mem_nil
    · exact mentions_snapshot ⟨m, hp, .inr (.inr h)⟩

end Marks

end VllmMoet.Delta
