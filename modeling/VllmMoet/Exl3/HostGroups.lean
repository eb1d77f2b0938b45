import VllmMoet.Exl3.WaveGroups

/-!
# What the host builder computes

The dictionary holds, for every expert, the tokens that name it with the sum of the weights they
give it. So its sorted keys are the union of the step, its sorted items the tokens in order, and
the groups are read off from the union (`buildM8Groups_eq`).
-/

namespace VllmMoet

namespace Exl3

variable {W : Type} (x : TopkStep W)

/-! ### What a step routes -/

/-- Token `t` names expert `e`. -/
def routed (e t : ℕ) : Bool :=
  (List.range x.k).any fun j => x.ids t j == e

theorem routed_iff {e t : ℕ} : routed x e t ↔ ∃ j < x.k, x.ids t j = e := by
  simp [routed]

/-- The experts a step names. -/
def named : Finset ℕ :=
  (Finset.range x.T).biUnion fun t => (Finset.range x.k).image (x.ids t)

theorem mem_named {e : ℕ} : e ∈ named x ↔ ∃ t < x.T, routed x e t := by
  simp [named, routed_iff]

/-- The tokens that name an expert, in order. -/
def tokensOf (e : ℕ) : List ℕ :=
  (List.range x.T).filter (routed x e)

theorem mem_tokensOf {e t : ℕ} : t ∈ tokensOf x e ↔ t < x.T ∧ routed x e t := by
  simp [tokensOf]

theorem tokensOf_pairwise (e : ℕ) : (tokensOf x e).Pairwise (· < ·) :=
  List.pairwise_lt_range.filter _

variable [AddCommMonoid W]

/-- The weight a token gives an expert, summed over its places. -/
def weightOf (e t : ℕ) : W :=
  ∑ j ∈ Finset.range x.k with x.ids t j = e, x.wts t j

/-! ### The dictionary -/

/-- The entry of a pair after the loops have done `ps`. -/
def entryOf (ps : List (ℕ × ℕ)) (e t : ℕ) : Option W :=
  (((ps.foldl (addPair x) ∅).lookup e).getD ∅).lookup t

theorem entryOf_concat (ps : List (ℕ × ℕ)) (p : ℕ × ℕ) (e t : ℕ) :
    entryOf x (ps ++ [p]) e t =
      if x.ids p.1 p.2 = e ∧ p.1 = t then some ((entryOf x ps e t).getD 0 + x.wts p.1 p.2)
      else entryOf x ps e t := by
  simp only [entryOf, List.foldl_append, List.foldl_cons, List.foldl_nil]
  generalize ps.foldl (addPair x) ∅ = d
  unfold addPair
  by_cases he : x.ids p.1 p.2 = e
  · subst he
    by_cases ht : p.1 = t
    · subst ht
      simp
    · simp [ht, AList.lookup_insert_ne (Ne.symm ht)]
  · simp [he, AList.lookup_insert_ne (Ne.symm he)]

/-- The sum of the weights of the pairs done. -/
theorem entryOf_eq {ps : List (ℕ × ℕ)} (hnd : ps.Nodup) (e t : ℕ) :
    entryOf x ps e t =
      if ∃ p ∈ ps, x.ids p.1 p.2 = e ∧ p.1 = t then
        some (∑ p ∈ ps.toFinset with x.ids p.1 p.2 = e ∧ p.1 = t, x.wts p.1 p.2)
      else none := by
  induction ps using List.reverseRecOn with
  | nil => simp [entryOf]
  | append_singleton ps p ih =>
    have hn : ps.Nodup ∧ p ∉ ps := by
      have h := List.nodup_append.mp hnd
      exact ⟨h.1, fun hp => h.2.2 p hp p (by simp) rfl⟩
    have hset : (ps ++ [p]).toFinset = insert p ps.toFinset := by
      ext
      simp
    rw [entryOf_concat, ih hn.1, hset, Finset.filter_insert]
    by_cases hp : x.ids p.1 p.2 = e ∧ p.1 = t
    · have hni : p ∉ ps.toFinset.filter (fun p => x.ids p.1 p.2 = e ∧ p.1 = t) := by simp [hn.2]
      have hex : ∃ q ∈ ps ++ [p], x.ids q.1 q.2 = e ∧ q.1 = t := ⟨p, by simp, hp⟩
      rw [if_pos hp, if_pos hp, if_pos hex, Finset.sum_insert hni, add_comm]
      congr 2
      by_cases h : ∃ q ∈ ps, x.ids q.1 q.2 = e ∧ q.1 = t
      · rw [if_pos h, Option.getD_some]
      · rw [if_neg h, Option.getD_none]
        refine (Finset.sum_eq_zero fun q hq => ?_).symm
        obtain ⟨hq, hqe⟩ := Finset.mem_filter.mp hq
        exact absurd ⟨q, List.mem_toFinset.mp hq, hqe⟩ h
    · rw [if_neg hp, if_neg hp]
      have hiff : (∃ q ∈ ps ++ [p], x.ids q.1 q.2 = e ∧ q.1 = t) ↔
          ∃ q ∈ ps, x.ids q.1 q.2 = e ∧ q.1 = t := by
        constructor
        · rintro ⟨q, hq, hqe⟩
          rcases List.mem_append.mp hq with hq | hq
          · exact ⟨q, hq, hqe⟩
          · rw [List.mem_singleton.mp hq] at hqe
            exact absurd hqe hp
        · rintro ⟨q, hq, hqe⟩
          exact ⟨q, List.mem_append_left _ hq, hqe⟩
      simp only [hiff]

theorem mem_pairs {T k : ℕ} {p : ℕ × ℕ} : p ∈ pairs T k ↔ p.1 < T ∧ p.2 < k := by
  obtain ⟨t, j⟩ := p
  simp [pairs]

theorem pairs_nodup (T k : ℕ) : (pairs T k).Nodup := by
  rw [pairs, List.nodup_flatMap]
  refine ⟨fun t _ => ?_, ?_⟩
  · exact List.nodup_range.map fun j j' h => (Prod.mk.inj h).2
  · refine List.nodup_range.imp fun {t t'} hne => ?_
    simp only [Function.onFun, List.disjoint_left, List.mem_map]
    rintro _ ⟨j, _, rfl⟩ ⟨j', _, h⟩
    exact hne (Prod.mk.inj h).1.symm

/-- After the loops: the tokens that name an expert, with the weights they give it. -/
theorem lookup_per (e t : ℕ) :
    (((per x).lookup e).getD ∅).lookup t =
      if t < x.T ∧ routed x e t then some (weightOf x e t) else none := by
  have h := entryOf_eq x (pairs_nodup x.T x.k) e t
  rw [entryOf, ← per] at h
  rw [h]
  have hiff : (∃ p ∈ pairs x.T x.k, x.ids p.1 p.2 = e ∧ p.1 = t) ↔ t < x.T ∧ routed x e t := by
    rw [routed_iff]
    constructor
    · rintro ⟨p, hp, he, rfl⟩
      exact ⟨(mem_pairs.mp hp).1, p.2, (mem_pairs.mp hp).2, he⟩
    · rintro ⟨ht, j, hj, he⟩
      exact ⟨(t, j), mem_pairs.mpr ⟨ht, hj⟩, he, rfl⟩
  simp only [hiff]
  split
  · rename_i ht
    congr 1
    -- the pairs of the token are its places
    refine Finset.sum_bij' (fun p _ => p.2) (fun j _ => (t, j)) ?_ ?_ ?_ ?_ ?_
    · intro p hp
      obtain ⟨hps, he, hpt⟩ := Finset.mem_filter.mp hp
      have hpk := (mem_pairs.mp (List.mem_toFinset.mp hps)).2
      exact Finset.mem_filter.mpr ⟨Finset.mem_range.mpr hpk, hpt ▸ he⟩
    · intro j hj
      obtain ⟨hj, he⟩ := Finset.mem_filter.mp hj
      refine Finset.mem_filter.mpr ⟨List.mem_toFinset.mpr (mem_pairs.mpr ⟨ht.1, ?_⟩), he, rfl⟩
      exact Finset.mem_range.mp hj
    · intro p hp
      obtain ⟨_, _, rfl⟩ := Finset.mem_filter.mp hp
      rfl
    · intro j _
      rfl
    · intro p hp
      obtain ⟨_, _, rfl⟩ := Finset.mem_filter.mp hp
      rfl
  · rfl

/-! ### The union and the items -/

/-- The keys of the dictionary are the experts that some token names. -/
theorem mem_per {e : ℕ} : e ∈ per x ↔ ∃ t < x.T, routed x e t := by
  have h : ∀ ps : List (ℕ × ℕ), e ∈ ps.foldl (addPair x) ∅ ↔ ∃ p ∈ ps, x.ids p.1 p.2 = e := by
    intro ps
    induction ps using List.reverseRecOn with
    | nil => simp
    | append_singleton ps p ih =>
      rw [List.foldl_append, List.foldl_cons, List.foldl_nil, addPair, AList.mem_insert, ih]
      simp only [List.mem_append, List.mem_singleton, or_and_right, exists_or, exists_eq_left]
      rw [or_comm, eq_comm (a := e)]
  rw [per, h]
  simp only [routed_iff]
  constructor
  · rintro ⟨p, hp, he⟩
    exact ⟨p.1, (mem_pairs.mp hp).1, p.2, (mem_pairs.mp hp).2, he⟩
  · rintro ⟨t, ht, j, hj, he⟩
    exact ⟨(t, j), mem_pairs.mpr ⟨ht, hj⟩, he⟩

theorem mem_union {e : ℕ} : e ∈ union x ↔ ∃ t < x.T, routed x e t := by
  rw [← mem_per, union, (List.perm_insertionSort _ _).mem_iff, AList.mem_keys]

theorem union_pairwise : (union x).Pairwise (· < ·) := by
  have hnd : (union x).Nodup := (List.perm_insertionSort _ _).nodup_iff.mpr (per x).keys_nodup
  have hle : (union x).Pairwise (· ≤ ·) := List.pairwise_insertionSort _ _
  exact (hle.and hnd).imp fun h => lt_of_le_of_ne h.1 h.2

theorem toFinset_union : (union x).toFinset = named x := by
  ext e
  rw [List.mem_toFinset, mem_union, mem_named]

theorem length_union : (union x).length = (named x).card := by
  rw [← toFinset_union, List.toFinset_card_of_nodup ((union_pairwise x).imp ne_of_lt)]

/-- The items of an expert in order: its tokens and the weights they give it. -/
theorem items_eq (e : ℕ) :
    items x e = (tokensOf x e).map fun t => (⟨t, weightOf x e t⟩ : Sigma fun _ : ℕ => W) := by
  have hperm := List.perm_insertionSort (fun a b : Sigma fun _ : ℕ => W => a.1 ≤ b.1)
    (((per x).lookup e).getD ∅).entries
  have hsorted : (items x e).Pairwise fun a b => a.1 < b.1 := by
    have _ : Std.Total fun a b : Sigma fun _ : ℕ => W => a.1 ≤ b.1 :=
      ⟨fun a b => le_total a.1 b.1⟩
    have _ : IsTrans (Sigma fun _ : ℕ => W) fun a b => a.1 ≤ b.1 :=
      ⟨fun _ _ _ h h' => le_trans h h'⟩
    have hle : (items x e).Pairwise fun a b => a.1 ≤ b.1 := List.pairwise_insertionSort _ _
    have hkeys : (items x e).Pairwise fun a b => a.1 ≠ b.1 := by
      have hnd : ((items x e).map Sigma.fst).Nodup :=
        (hperm.map _).nodup_iff.mpr (AList.keys_nodup _)
      exact List.pairwise_map.mp hnd
    exact (hle.and hkeys).imp fun h => lt_of_le_of_ne h.1 h.2
  have hmapped : ((tokensOf x e).map fun t =>
      (⟨t, weightOf x e t⟩ : Sigma fun _ : ℕ => W)).Pairwise fun a b => a.1 < b.1 :=
    List.pairwise_map.mpr (tokensOf_pairwise x e)
  have _ : Std.Irrefl fun a b : Sigma fun _ : ℕ => W => a.1 < b.1 := ⟨fun a => lt_irrefl a.1⟩
  have _ : Std.Antisymm fun a b : Sigma fun _ : ℕ => W => a.1 < b.1 :=
    ⟨fun _ _ h h' => absurd h h'.asymm⟩
  refine hsorted.eq_of_mem_iff hmapped fun a => ?_
  rw [items, hperm.mem_iff, ← AList.mem_lookup_iff, lookup_per, List.mem_map]
  simp only [mem_tokensOf]
  constructor
  · intro h
    by_cases ht : a.1 < x.T ∧ routed x e a.1
    · rw [if_pos ht] at h
      exact ⟨a.1, ht, by rw [Option.mem_some_iff.mp h]⟩
    · rw [if_neg ht] at h
      simp at h
  · rintro ⟨t, ht, rfl⟩
    rw [if_pos ht]
    rfl

/-! ### The groups -/

section Groups

/-- A chunk is begun only where some of the list is left. -/
theorem mul_lt_of_lt_ceilDiv {n g cap : ℕ} (hcap : 0 < cap) (hg : g < n ⌈/⌉ cap) :
    g * cap < n := by
  by_contra hle
  have := (ceilDiv_le_iff_le_mul hcap).mpr (Nat.mul_comm g cap ▸ not_lt.mp hle)
  omega

/-- An enumerating loop writes what stands at a place there, and leaves the rest. -/
theorem enumerateInto_apply {α β : Type} (f : α → β → β) (l : List α) (out : ℕ → β) (i : ℕ) :
    enumerateInto f l out i = (l[i]?).elim (out i) fun a => f a (out i) := by
  induction l using List.reverseRecOn with
  | nil => rfl
  | append_singleton l a ih =>
    have hstep : enumerateInto f (l ++ [a]) out =
        Function.update (enumerateInto f l out) l.length
          (f a (enumerateInto f l out l.length)) := by
      simp [enumerateInto, List.zipIdx_append]
    rw [hstep]
    by_cases hi : i = l.length
    · subst hi
      rw [Function.update_self, ih]
      simp
    · rw [Function.update_of_ne hi, ih]
      rcases Nat.lt_or_ge i l.length with hlt | hge
      · rw [List.getElem?_append_left hlt]
      · have hnone : (l ++ [a])[i]? = none := List.getElem?_eq_none (by simp; omega)
        rw [hnone, List.getElem?_eq_none hge]

/-- The expert at a place of the padded union. -/
def slotExpert (cap u : ℕ) : ℕ :=
  ((union x)[u]?).getD (((union x)[u / cap * cap]?).getD (((union x)[0]?).getD 0))

/-- The token in a row of a place: the tokens of the expert there, then `-1`. -/
def slotToken (u r : ℕ) : ℤ :=
  (((union x)[u]?).bind fun e => (tokensOf x e)[r]?).elim (-1) fun t => (t : ℤ)

variable {F H : Type} [Zero F] [Zero H] (single : ZeroHom W F) (half : ZeroHom F H)

/-- The weight in a row of a place. -/
def slotWeight (u r : ℕ) : F :=
  (((union x)[u]?).bind fun e => ((tokensOf x e)[r]?).map (weightOf x e)).elim 0 single

/-- The group at `g` of the union. -/
def specGroup (cap rows g : ℕ) : M8Group H :=
  groupAt cap rows (slotExpert x cap) (slotToken x) (fun u r => half (slotWeight x single u r)) g

theorem hostGroup_eq {cap rows g : ℕ} (hg : g * cap < (union x).length) :
    hostGroup single half x cap rows (((union x).drop (g * cap)).take cap) =
      specGroup x single half cap rows g := by
  have hchunk : ∀ s < cap, (((union x).drop (g * cap)).take cap)[s]? = (union x)[g * cap + s]? := by
    intro s hs
    rw [List.getElem?_take_of_lt hs, List.getElem?_drop]
  -- the tokens of a slot, in the order of the pairs
  have hmap : ∀ s < cap, ∀ r, enumerateInto
      (fun e => enumerateInto (fun i _ => (i.1 : ℤ)) (items x e))
      (((union x).drop (g * cap)).take cap) (fun _ _ => -1) s r = slotToken x (g * cap + s) r := by
    intro s hs r
    rw [enumerateInto_apply, hchunk s hs, slotToken]
    cases (union x)[g * cap + s]? with
    | none => rfl
    | some e =>
      simp only [Option.elim_some, Option.bind_some, enumerateInto_apply, items_eq,
        List.getElem?_map]
      cases (tokensOf x e)[r]? <;> rfl
  have hwts : ∀ s < cap, ∀ r, enumerateInto
      (fun e => enumerateInto (fun i _ => single i.2) (items x e))
      (((union x).drop (g * cap)).take cap) (fun _ _ => 0) s r =
        slotWeight x single (g * cap + s) r := by
    intro s hs r
    rw [enumerateInto_apply, hchunk s hs, slotWeight]
    cases (union x)[g * cap + s]? with
    | none => rfl
    | some e =>
      simp only [Option.elim_some, Option.bind_some, enumerateInto_apply, items_eq,
        List.getElem?_map]
      cases (tokensOf x e)[r]? <;> rfl
  rw [hostGroup, specGroup, groupAt, M8Group.mk.injEq]
  refine ⟨?_, ?_, ?_⟩
  · refine List.ext_getElem? fun s => ?_
    have hlen : (((union x).drop (g * cap)).take cap).length =
        min cap ((union x).length - g * cap) := by
      simp
    rcases Nat.lt_or_ge s cap with hs | hs
    · have hdiv : (g * cap + s) / cap = g := by
        rw [Nat.mul_comm, Nat.mul_add_div (by omega), Nat.div_eq_of_lt hs, Nat.add_zero]
      have hspec : ((List.range cap).map fun s => slotExpert x cap (g * cap + s))[s]? =
          some (slotExpert x cap (g * cap + s)) := by
        simp [hs]
      rw [hspec, slotExpert, hdiv]
      rcases Nat.lt_or_ge (g * cap + s) (union x).length with hu | hu
      · rw [List.getElem?_append_left (by omega), hchunk s hs, List.getElem?_eq_getElem hu,
          Option.getD_some]
      · -- past the end of the union: the first expert of the group
        have hrep : s - (((union x).drop (g * cap)).take cap).length <
            cap - (((union x).drop (g * cap)).take cap).length := by omega
        rw [List.getElem?_append_right (by omega), List.getElem?_replicate_of_lt hrep,
          List.getElem?_eq_none hu, Option.getD_none, List.headD_eq_head?_getD,
          List.head?_eq_getElem?, hchunk 0 (by omega), Nat.add_zero,
          List.getElem?_eq_getElem hg, Option.getD_some, Option.getD_some]
    · rw [List.getElem?_eq_none (by simp; omega), List.getElem?_eq_none (by simp; omega)]
  · refine List.map_congr_left fun s hs => List.map_congr_left fun r _ => ?_
    exact hmap s (List.mem_range.mp hs) r
  · refine List.map_congr_left fun s hs => List.map_congr_left fun r _ => ?_
    exact congrArg half (hwts s (List.mem_range.mp hs) r)

/-- **What the host builder returns**: the groups of the union, as many as it fills. -/
theorem buildM8Groups_eq {cap rows : ℕ} (hrows : x.T ≤ rows) (hcap : 0 < cap) :
    buildM8Groups single half x cap rows =
      some ((List.range ((union x).length ⌈/⌉ cap)).map (specGroup x single half cap rows)) := by
  rw [buildM8Groups, if_pos ⟨hrows, hcap⟩]
  congr 1
  refine List.map_congr_left fun g hg => hostGroup_eq x single half ?_
  exact mul_lt_of_lt_ceilDiv hcap (List.mem_range.mp hg)

end Groups

end Exl3

end VllmMoet
