import VllmMoet.Placement.Protocol

/-!
# The promotion protocol never exposes a half-written slot

Two arguments meet here.

* The copy stream on its own (`Cmd.Goes`): run one after the other, the commands enqueued so
  far repack only rows of unmapped slots, map only complete slots, and end in the host's
  mirrors (`goes_copyCmds`, one call's commands; composed by the sequence rule).
* The order of the streams (`Cmd.Along`): an unmap runs behind its call's `done`, and that
  call's `U` is recorded behind it (`UnmapsFenced`); a publish runs with each call's `U`
  complete or its `done` still to be recorded, behind the end of the step (`ReadsFenced`).
  So no unmap runs while a step holds slots, and what it has read stays mapped.
-/

namespace VllmMoet

namespace Placement

/-! ### The copy stream on its own -/

/-- What makes a command of the copy stream safe: a repack writes no mapped slot, and only
complete slots are mapped, for experts that are nowhere. -/
def Guard (V : ℕ) (m : Memory) : CopyOp → Prop
  | .unmap _ _ => True
  | .h2d _ _ _ => True
  | .repackBegin l row => ∀ e s, m.table l e = some s → ∀ v < V, row ≠ s * V + v
  | .repackEnd l row => ∀ e s, m.table l e = some s → ∀ v < V, row ≠ s * V + v
  | .map l e s => m.table l e = none ∧ ∀ v < V, m.rows l (s * V + v) = some (e, v)

section Copy

variable {V : ℕ} {m : Memory}

/-- A safe command keeps mapped slots complete. -/
theorem Complete.run (h : Complete V m) {a : CopyOp} (ha : Guard V m a) :
    Complete V (a.run m) := by
  intro l e s hmap v hv
  cases a with
  | unmap l' e' =>
    simp only [CopyOp.run, update₂_apply] at hmap ⊢
    split at hmap
    · simp at hmap
    · exact h l e s hmap v hv
  | h2d l' e' v' => exact h l e s hmap v hv
  | repackBegin l' row | repackEnd l' row =>
    simp only [CopyOp.run, update₂_apply] at hmap ⊢
    rw [if_neg, h l e s hmap v hv]
    rintro ⟨rfl, hrow⟩
    exact ha e s hmap v hv hrow.symm
  | map l' e' s' =>
    simp only [CopyOp.run, update₂_apply] at hmap ⊢
    split at hmap
    next heq =>
      obtain ⟨rfl, rfl⟩ := heq
      obtain rfl : s' = s := by simpa using hmap
      exact ha.2 v hv
    next => exact h l e s hmap v hv

/-- A safe command other than an unmap keeps what is mapped. -/
theorem table_run {a : CopyOp} (ha : Guard V m a) (hne : ∀ l e, a ≠ .unmap l e) {l e s : ℕ}
    (h : m.table l e = some s) : (a.run m).table l e = some s := by
  cases a with
  | unmap l' e' => exact absurd rfl (hne l' e')
  | h2d | repackBegin | repackEnd => exact h
  | map l' e' s' =>
    simp only [CopyOp.run, update₂_apply]
    rw [if_neg, h]
    rintro ⟨rfl, rfl⟩
    simp [ha.1] at h

/-- Rows of different slots are different. -/
theorem row_inj {s s' v v' : ℕ} (hv : v < V) (hv' : v' < V) (h : s * V + v = s' * V + v') :
    s = s' ∧ v = v' := by
  have hpos : 0 < V := by omega
  have hdiv : (s * V + v) / V = s := by
    rw [Nat.add_comm, Nat.add_mul_div_right _ _ hpos, Nat.div_eq_of_lt hv, Nat.zero_add]
  have hdiv' : (s' * V + v') / V = s' := by
    rw [Nat.add_comm, Nat.add_mul_div_right _ _ hpos, Nat.div_eq_of_lt hv', Nat.zero_add]
  obtain rfl : s = s' := by rw [← hdiv, h, hdiv']
  exact ⟨rfl, by omega⟩

end Copy

section Commands

variable {cfg : Config} {m : Memory} {l : ℕ} {out : List Promotion}

/-- The table once the victims of `plans` are unmapped. -/
def unmapped (plans : List (ℕ × List Promotion)) (t : ℕ → ℕ → Option ℕ) (l e : ℕ) : Option ℕ :=
  if ∃ p ∈ plans, p.1 = l ∧ e ∈ victims p.2 then none else t l e

/-- Phase 1 for a layer. -/
theorem goes_unmapCmds :
    Cmd.Goes CopyOp.run (Guard cfg.V) (fun m' => m'.table = unmapped [(l, out)] m.table) m
      (unmapCmds cfg l out) := by
  have hun : ∀ l' e, unmapped [(l, out)] m.table l' e =
      if l' = l ∧ e ∈ victims out then none else m.table l' e := by
    intro l' e
    simp only [unmapped, List.mem_singleton, exists_eq_left, eq_comm (a := l)]
  rw [unmapCmds]
  split
  · split
    next hnil =>
      refine .nil ?_
      funext l' e
      rw [hun]
      simp [hnil]
    next =>
      -- the victims whose thread has run are unmapped, the other entries are as before
      refine .threads (fun rem m' => (∀ a ∈ rem, ∃ v ∈ victims out, a = .unmap l v) ∧
        (∀ v ∈ victims out, .unmap l v ∉ rem → m'.table l v = none) ∧
        ∀ l' e, ¬ (l' = l ∧ e ∈ victims out) → m'.table l' e = m.table l' e) ?_ ?_ ?_
      · refine ⟨fun a ha => ?_, fun v hv hnot => absurd (List.mem_map_of_mem hv) hnot,
          fun _ _ _ => rfl⟩
        obtain ⟨v, hv, rfl⟩ := List.mem_map.mp ha
        exact ⟨v, hv, rfl⟩
      · rintro rem i a m' ⟨hrem, hgone, hrest⟩ ha
        obtain ⟨v, hv, rfl⟩ := hrem a (List.mem_of_getElem? ha)
        refine ⟨trivial, fun b hb => hrem b (List.mem_of_mem_eraseIdx hb), fun w hw hnot => ?_,
          fun l' e hne => ?_⟩
        · simp only [CopyOp.run, update₂_apply]
          split
          next => rfl
          next hvw =>
            refine hgone w hw fun hmem => hnot ?_
            obtain ⟨j, hj⟩ := List.mem_iff_getElem?.mp hmem
            refine List.mem_eraseIdx_iff_getElem?.mpr ⟨j, ?_, hj⟩
            rintro rfl
            rw [ha, Option.some.injEq, CopyOp.unmap.injEq] at hj
            exact hvw (by simp [hj])
        · simp only [CopyOp.run, update₂_apply]
          rw [if_neg, hrest l' e hne]
          rintro ⟨rfl, rfl⟩
          exact hne ⟨rfl, hv⟩
      · rintro m' ⟨-, hgone, hrest⟩
        refine .nil ?_
        funext l' e
        rw [hun]
        split
        next h => exact h.1 ▸ hgone e h.2 (List.not_mem_nil)
        next h => exact hrest l' e h
  · rw [List.map_eq_flatMap]
    refine Cmd.Goes.imp (fun m' h => ?_) (Cmd.Goes.flatMap
      (fun v => [.kernel [CopyOp.unmap l v]])
      (fun (as : List ℕ) (m' : Memory) => ∀ l' e, m'.table l' e = if l' = l ∧ e ∈ as then none else m.table l' e)
      ?_ (by simp))
    · funext l' e
      rw [hun, h]
    · intro as v cs m' hvs h
      refine .single trivial (.nil fun l' e => ?_)
      simp only [CopyOp.run, update₂_apply, h, List.mem_append, List.mem_singleton]
      split
      next heq => simp [heq]
      next hne =>
        congr 1
        simp only [eq_iff_iff]
        constructor
        · exact fun ⟨hl, he⟩ => ⟨hl, .inl he⟩
        · rintro ⟨hl, he | he⟩
          · exact ⟨hl, he⟩
          · exact absurd ⟨hl, he⟩ hne

/-- A promotion: the expert's slices are repacked into a slot nothing is mapped to, then it is
mapped there. -/
theorem goes_promoteCmds {p : Promotion} (hslot : ∀ e, m.table l e ≠ some p.slot)
    (hexpert : m.table l p.expert = none) :
    Cmd.Goes CopyOp.run (Guard cfg.V)
      (fun m' => m'.table = update₂ m.table l p.expert (some p.slot)) m (promoteCmds cfg l p) := by
  -- no row of the slot is a mapped one
  have hfree : ∀ m' : Memory, m'.table = m.table → ∀ v < cfg.V, ∀ e s, m'.table l e = some s →
      ∀ w < cfg.V, p.slot * cfg.V + v ≠ s * cfg.V + w := by
    intro m' ht v hv e s hs w hw heq
    obtain ⟨rfl, -⟩ := row_inj hv hw heq
    exact hslot e (ht ▸ hs)
  refine Cmd.Goes.append (Cmd.Goes.flatMap (repackCmds cfg l p.expert p.slot)
    (fun as m' => m'.table = m.table ∧
      ∀ v ∈ as, m'.rows l (p.slot * cfg.V + v) = some (p.expert, v)) ?_ (by simp)) ?_
  · rintro as v cs m' has ⟨ht, hrows⟩
    have hmem : ∀ w ∈ as ++ [v], w < cfg.V := fun w hw => by
      rw [← List.mem_range, has]
      simp only [List.mem_append, List.mem_cons, List.not_mem_nil, or_false] at hw ⊢
      tauto
    have hv : v < cfg.V := hmem v (by simp)
    refine .single trivial (.single (hfree _ ht v hv) (.single (hfree _ ht v hv)
      (.nil ⟨ht, fun w hw => ?_⟩)))
    simp only [CopyOp.run, update₂_apply, true_and, Function.update_self]
    split
    next heq => rw [(row_inj (hmem w hw) hv heq).2]
    next hne =>
      refine hrows w ((List.mem_append.mp hw).resolve_right fun hw => hne ?_)
      rw [List.mem_singleton.mp hw]
  · rintro m' ⟨ht, hrows⟩
    refine .single ⟨by rw [ht, hexpert], fun v hv => hrows v (List.mem_range.mpr hv)⟩ (.nil ?_)
    simp only [CopyOp.run, ht]

/-- The promotions of a layer whose victims are unmapped. -/
theorem goes_layer {t x t' : ℕ → Option ℕ} (h : Planned t x t' out)
    (hx : ∀ e s, t e = some s → x s = some e)
    (hm : ∀ e, m.table l e = if e ∈ victims out then none else t e) :
    Cmd.Goes CopyOp.run (Guard cfg.V)
      (fun m' => ∀ l' e, m'.table l' e = if l' = l then t' e else m.table l' e) m
      (out.flatMap (promoteCmds cfg l)) := by
  refine Cmd.Goes.imp (fun m' h' => ?_) (Cmd.Goes.flatMap (promoteCmds cfg l)
    (fun as m' => (∀ l' e, ¬ (l' = l ∧ e ∈ as.map (·.expert)) → m'.table l' e = m.table l' e) ∧
      ∀ p ∈ as, m'.table l p.expert = some p.slot) ?_ (by simp))
  · obtain ⟨hrest, hpromoted⟩ := h'
    intro l' e
    split
    next hl =>
      subst hl
      by_cases he : e ∈ out.map (·.expert)
      · obtain ⟨p, hp, rfl⟩ := List.mem_map.mp he
        rw [hpromoted p hp, h.promoted p hp]
      · rw [hrest l' e fun hc => he hc.2, hm, h.rest e he]
    next hl => exact hrest l' e fun hc => hl hc.1
  · rintro as p cs m' hout ⟨hrest, hpromoted⟩
    have hp : p ∈ out := by simp [hout]
    have hexperts := h.experts
    have hslots := h.slots
    rw [hout, List.map_append, List.map_cons] at hexperts hslots
    -- each expert is promoted once, and each slot is filled once
    have hpe : p.expert ∉ as.map (·.expert) := fun hc =>
      (List.nodup_append.mp hexperts).2.2 _ hc _ (List.mem_cons_self ..) rfl
    have hps : p.slot ∉ as.map (·.slot) := fun hc =>
      (List.nodup_append.mp hslots).2.2 _ hc _ (List.mem_cons_self ..) rfl
    refine Cmd.Goes.imp (fun m'' ht => ?_) (goes_promoteCmds (p := p) ?_ ?_)
    · constructor
      · intro l' e hne
        rw [ht, update₂_apply, if_neg, hrest l' e]
        · exact fun hc => hne ⟨hc.1, by simp [hc.2]⟩
        · exact fun hc => hne ⟨hc.1, by simp [hc.2]⟩
      · intro p' hp'
        rw [ht, update₂_apply]
        obtain hp' | hp' := List.mem_append.mp hp'
        · rw [if_neg, hpromoted p' hp']
          exact fun hc => hpe (hc.2 ▸ List.mem_map_of_mem hp')
        · rw [List.mem_singleton.mp hp', if_pos ⟨rfl, rfl⟩]
    · -- the slot's previous expert was the victim, and the slots filled before are others
      intro e hslot
      by_cases he : e ∈ as.map (·.expert)
      · obtain ⟨p', hp', rfl⟩ := List.mem_map.mp he
        rw [hpromoted p' hp', Option.some.injEq] at hslot
        exact hps (hslot ▸ List.mem_map_of_mem hp')
      · rw [hrest l e fun hc => he hc.2, hm] at hslot
        split at hslot
        next => simp at hslot
        next hv =>
          have hvictim := h.victim p hp
          rw [hx e p.slot hslot] at hvictim
          exact hv (List.mem_filterMap.mpr ⟨p, hp, hvictim.symm⟩)
    · rw [hrest l p.expert fun hc => hpe hc.2, hm, h.absent p hp, ite_self]

/-- A call's commands take the table from the mirrors before its plan to those after. -/
theorem goes_copyCmds {k : ℕ} {plans : List (ℕ × List Promotion)} {x t' : ℕ → ℕ → Option ℕ}
    (hplanned : ∀ p ∈ plans, Planned (m.table p.1) (x p.1) (t' p.1) p.2)
    (hnodup : (plans.map (·.1)).Nodup) (hrest : ∀ l, l ∉ plans.map (·.1) → t' l = m.table l)
    (hx : ∀ l e s, m.table l e = some s → x l s = some e) :
    Cmd.Goes CopyOp.run (Guard cfg.V) (fun m' => m'.table = t') m (copyCmds cfg k plans) := by
  rw [copyCmds]
  refine .wait (Cmd.Goes.append (Q := fun m' => m'.table = unmapped plans m.table) ?_ ?_)
  · refine Cmd.Goes.flatMap (fun p => unmapCmds cfg p.1 p.2)
      (fun as (m' : Memory) => m'.table = unmapped as m.table) ?_ ?_
    · rintro as p cs m' - ht
      refine Cmd.Goes.imp (fun m'' ht' => ?_) goes_unmapCmds
      rw [ht', ht]
      funext l e
      simp only [unmapped, List.mem_append, List.mem_singleton, exists_eq_left, or_and_right,
        exists_or]
      split
      next h => simp [h]
      next h => simp only [h, or_false]
    · funext l e
      simp [unmapped]
  · intro m₁ hm₁
    -- every layer is planned once, so its own victims are all that it loses
    have hone : ∀ p ∈ plans, ∀ e, unmapped plans m.table p.1 e =
        if e ∈ victims p.2 then none else m.table p.1 e := by
      intro p hp e
      rw [unmapped]
      congr 1
      simp only [eq_iff_iff]
      constructor
      · rintro ⟨p', hp', hl, he⟩
        rwa [List.inj_on_of_nodup_map hnodup hp hp' hl.symm]
      · exact fun he => ⟨p, hp, rfl, he⟩
    -- after the unmaps are recorded, the layers are filled one by one
    refine .record (Cmd.Goes.append (Q := fun m' => m'.table = t') ?_ fun m' ht =>
      .record (.nil ht))
    refine Cmd.Goes.imp (fun m' h => ?_) (Cmd.Goes.flatMap
      (fun p : ℕ × List Promotion => p.2.flatMap (promoteCmds cfg p.1))
      (fun as m' => ∀ l e, m'.table l e =
        if l ∈ as.map (·.1) then t' l e else unmapped plans m.table l e) ?_ (by simp [hm₁]))
    · funext l e
      rw [h]
      split
      next => rfl
      next hl =>
        rw [hrest l hl, unmapped, if_neg]
        rintro ⟨p, hp, rfl, -⟩
        exact hl (List.mem_map_of_mem hp)
    · intro as p cs m' hplans h
      have hp : p ∈ plans := by simp [hplans]
      have hlayers := hnodup
      rw [hplans, List.map_append, List.map_cons] at hlayers
      have hpl : p.1 ∉ as.map (·.1) := fun hc =>
        (List.nodup_append.mp hlayers).2.2 _ hc _ (List.mem_cons_self ..) rfl
      refine Cmd.Goes.imp (fun m'' h' l e => ?_) (goes_layer (hplanned p hp) (hx p.1) fun e => ?_)
      · have hmem : l ∈ (as ++ [p]).map (·.1) ↔ l ∈ as.map (·.1) ∨ l = p.1 := by
          rw [List.map_append, List.mem_append, List.map_singleton, List.mem_singleton]
        rw [h', h]
        by_cases hl : l = p.1
        · rw [if_pos hl, if_pos (hmem.mpr (.inr hl)), hl]
        · simp only [hmem, hl, or_false, if_false]
      · rw [h, if_neg hpl, hone p hp]

end Commands

/-! ### The order of the streams -/

/-- An unmap runs behind its call's `done`, and the call's `U` is recorded behind it. -/
def UnmapsFenced (W : List Event) (as : List CopyOp) (q : List (Cmd CopyOp Event)) : Prop :=
  ∀ l e, .unmap l e ∈ as → ∃ k, .done k ∈ W ∧ .unmap k ∈ Cmd.records q

/-- The end of the step comes before the next event the main stream records. -/
def FinishFirst : List (Cmd MainOp Event) → Prop
  | [] => False
  | .kernel as :: q => .finish ∈ as ∨ FinishFirst q
  | .record _ :: _ => False
  | .wait _ :: q => FinishFirst q

/-- Each call's unmaps are over, or still to come: behind `done`, behind the step. -/
def Settled (calls : ℕ) (W : List Event) (q : List (Cmd MainOp Event)) : Prop :=
  FinishFirst q ∧ ∀ j < calls, .unmap j ∈ W ∨ .done j ∈ Cmd.records q

/-- A publish runs while the calls are settled. -/
def ReadsFenced (calls : ℕ) (W : List Event) (as : List MainOp) (q : List (Cmd MainOp Event)) :
    Prop :=
  ∀ l e, .read l e ∈ as → Settled calls W q

section Order

variable {calls : ℕ} {W W' : List Event}

theorem FinishFirst.append {q : List (Cmd MainOp Event)} (h : FinishFirst q)
    (r : List (Cmd MainOp Event)) : FinishFirst (q ++ r) := by
  induction q with
  | nil => exact h.elim
  | cons c q ih =>
    cases c with
    | kernel as => exact h.imp id ih
    | record e => exact h.elim
    | wait e => exact ih h

theorem Settled.mono {q : List (Cmd MainOp Event)} (h : Settled calls W q) (hW : W ⊆ W') :
    Settled calls W' q :=
  ⟨h.1, fun j hj => (h.2 j hj).imp (hW ·) id⟩

theorem Settled.append {q : List (Cmd MainOp Event)} (h : Settled calls W q)
    (r : List (Cmd MainOp Event)) : Settled calls W (q ++ r) :=
  ⟨h.1.append r, fun j hj => (h.2 j hj).imp id fun h => by
    rw [Cmd.records_append]; exact List.mem_append_left _ h⟩

/-- A call enqueues its `done`. -/
theorem Settled.record_done {q : List (Cmd MainOp Event)} (h : Settled calls W q) :
    Settled (calls + 1) W (q ++ [.record (.done calls)]) := by
  refine ⟨h.1.append _, fun j hj => ?_⟩
  obtain hj | rfl := Nat.lt_succ_iff_lt_or_eq.mp hj
  · exact (h.append _).2 j hj
  · right
    rw [Cmd.records_append]
    exact List.mem_append_right _ (List.mem_singleton_self _)

theorem UnmapsFenced.mono {as : List CopyOp} {q : List (Cmd CopyOp Event)} (hW : W ⊆ W')
    (h : UnmapsFenced W as q) : UnmapsFenced W' as q := fun l e he =>
  let ⟨k, hk, hq⟩ := h l e he
  ⟨k, hW hk, hq⟩

/-- Only phase 1 unmaps. -/
theorem not_unmap_mem_promoteCmds {cfg : Config} {l : ℕ} {p : Promotion} {as : List CopyOp}
    (h : .kernel as ∈ promoteCmds cfg l p) (l' e : ℕ) : .unmap l' e ∉ as := by
  simp only [promoteCmds, repackCmds, List.mem_append, List.mem_flatMap, List.mem_cons,
    List.not_mem_nil, or_false, Cmd.kernel.injEq] at h
  obtain ⟨v, -, rfl | rfl | rfl⟩ | rfl := h <;> simp

/-- A call's commands are fenced. -/
theorem along_copyCmds (cfg : Config) (k : ℕ) (plans : List (ℕ × List Promotion)) :
    Cmd.Along UnmapsFenced W (copyCmds cfg k plans) := by
  change Cmd.Along UnmapsFenced (.done k :: W) _
  refine Cmd.Along.append (K := fun W _ _ => .done k ∈ W) (fun W as q hk l e _ => ?_)
    (Cmd.Along.of_forall fun as _ W' r hW => hW (List.mem_cons_self ..)) fun W' _ _ => ?_
  · exact ⟨k, hk, by simp [Cmd.records]⟩
  · change Cmd.Along UnmapsFenced (.unmap k :: W') _
    refine Cmd.Along.of_forall fun as has W'' r _ l e he => ?_
    simp only [List.mem_append, List.mem_flatMap, List.mem_singleton, reduceCtorEq, or_false]
      at has
    obtain ⟨p, -, q, -, hmem⟩ := has
    exact absurd he (not_unmap_mem_promoteCmds hmem l e)

/-- A step's commands are fenced, once the unmaps of all calls are waited for. -/
theorem along_launch (h : ∀ j < calls, .unmap j ∈ W) (pubs : List (ℕ × List ℤ)) :
    Cmd.Along (ReadsFenced calls) W
      ((pubs.map fun p => publishCmd p.1 p.2) ++ [.kernel [.finish]]) := by
  have hfinish : ∀ pubs : List (ℕ × List ℤ), FinishFirst
      ((pubs.map fun p => publishCmd p.1 p.2) ++ [.kernel [.finish]]) := by
    intro pubs
    induction pubs with
    | nil => exact .inl (List.mem_singleton_self _)
    | cons p pubs ih => exact .inr ih
  induction pubs with
  | nil => exact ⟨fun l e he => by simp at he, trivial⟩
  | cons p pubs ih => exact ⟨fun l e _ => ⟨hfinish pubs, fun j hj => .inl (h j hj)⟩, ih⟩

/-- The events a call records. -/
theorem records_copyCmds (cfg : Config) (k : ℕ) (plans : List (ℕ × List Promotion)) :
    Cmd.records (copyCmds cfg k plans) = [.unmap k, .map k] := by
  have hunmap : Cmd.records (plans.flatMap fun p => unmapCmds cfg p.1 p.2) = [] := by
    refine Cmd.records_kernels fun c hc => ?_
    obtain ⟨p, -, hc⟩ := List.mem_flatMap.mp hc
    rw [unmapCmds] at hc
    split at hc
    · split at hc
      · simp at hc
      · exact ⟨_, List.mem_singleton.mp hc⟩
    · obtain ⟨v, -, rfl⟩ := List.mem_map.mp hc
      exact ⟨_, rfl⟩
  have hpromote : Cmd.records
      (plans.flatMap fun p => p.2.flatMap (promoteCmds cfg p.1)) = [] := by
    refine Cmd.records_kernels fun c hc => ?_
    obtain ⟨p, -, hc⟩ := List.mem_flatMap.mp hc
    obtain ⟨q, -, hc⟩ := List.mem_flatMap.mp hc
    simp only [promoteCmds, repackCmds, List.mem_append, List.mem_flatMap, List.mem_cons,
      List.not_mem_nil, or_false] at hc
    obtain ⟨v, -, rfl | rfl | rfl⟩ | rfl := hc <;> exact ⟨_, rfl⟩
  simp [copyCmds, Cmd.records, hunmap, hpromote]

theorem records_publishCmds (pubs : List (ℕ × List ℤ)) :
    Cmd.records ((pubs.map fun p => publishCmd p.1 p.2) ++ [.kernel [.finish]]) = [] := by
  refine Cmd.records_kernels fun c hc => ?_
  simp only [List.mem_append, List.mem_map, List.mem_singleton] at hc
  obtain ⟨p, -, rfl⟩ | rfl := hc <;> exact ⟨_, rfl⟩

theorem records_waits (es : List Event) :
    Cmd.records (es.map (.wait : Event → Cmd MainOp Event)) = [] := by
  induction es with
  | nil => rfl
  | cons e es ih => exact ih

end Order

end Placement

end VllmMoet
