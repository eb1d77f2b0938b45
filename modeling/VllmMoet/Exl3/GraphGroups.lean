import VllmMoet.Exl3.HostGroups

/-!
# The graph builder builds the host's groups

After the sort the running sum of the firsts is the rank of an expert in the union, so the
scatters put the experts of the union at their ranks and the weights of a pair at its cell; two
writes that meet write the same value. Packing a row scatters every absent cell to column `0`:
the other columns are written once at most, and column `0` is repaired from the first present
cell (`packRow_eq`).

`buildM8GroupsGraph_eq` states what it returns, and `buildM8GroupsGraph_refines` compares it
with the host builder.
-/

namespace VllmMoet

namespace Exl3

/-! ### Packing a row -/

section Pack

variable {β : Type} (o : WriteOrder) {rows : ℕ} {present : ℕ → Bool}

/-- The running count of a present cell is the number of those before it. -/
theorem target_of_present {r : ℕ} (h : present r) :
    target present r = Nat.count (fun r => present r) r := by
  rw [target, if_pos h, cumsum_mask, Nat.count_succ, if_pos h, Nat.add_sub_cancel]

theorem target_lt {r : ℕ} (hr : r < rows) : target present r < rows := by
  by_cases h : present r
  · rw [target_of_present h]
    exact lt_of_le_of_lt (Nat.count_le _) hr
  · rw [target, if_neg h]
    omega

/-- A row packed to the front: the present cells in order, then the empty ones. -/
theorem packRow_eq (src : ℕ → β) (empty : β) :
    packRow o rows present src empty =
      some fun c => (((List.range rows).filter present)[c]?).elim empty src := by
  have hrange : ∀ r < rows, target present r < rows := fun r hr => target_lt hr
  rw [packRow, scatterInto_eq o hrange, Option.bind_eq_bind, Option.bind_some, Option.some_inj]
  funext c
  by_cases hc : c = 0
  · subst hc
    rw [Function.update_self, firstTok, ← List.head?_eq_getElem?, List.head?_filter]
    cases hfind : (List.range rows).find? present with
    | none =>
      have hnone : (List.range rows).any present = false := by
        rw [List.find?_eq_none] at hfind
        simpa using hfind
      rw [hnone]
      rfl
    | some r =>
      have hany : (List.range rows).any present = true :=
        List.any_eq_true.mpr ⟨r, List.mem_of_find?_eq_some hfind, List.find?_some hfind⟩
      rw [hany]
      rfl
  · rw [Function.update_of_ne hc]
    -- a present cell that writes to this column is the one that stands there
    have hat : ∀ r < rows, target present r = c →
        present r ∧ ((List.range rows).filter present)[c]? = some r := by
      intro r hr htgt
      by_cases hp : present r
      · rw [target_of_present hp] at htgt
        exact ⟨hp, htgt ▸ getElem?_count hr hp⟩
      · rw [target, if_neg hp] at htgt
        exact absurd htgt.symm hc
    cases hget : ((List.range rows).filter present)[c]? with
    | none =>
      refine writes_of_notMem fun r hr htgt => ?_
      have := (hat r (o.mem_order.mp hr) htgt).2
      rw [hget] at this
      exact Option.some_ne_none r this.symm
    | some r =>
      obtain ⟨hr, hp⟩ := List.mem_filter.mp (List.mem_of_getElem? hget)
      have hr' := List.mem_range.mp hr
      refine writes_of_mem ⟨r, o.mem_order.mpr hr', ?_⟩ fun r' hr'' htgt => ?_
      · have hcount := getElem?_count hr' hp
        have hnd : ((List.range rows).filter present).Nodup := List.nodup_range.filter _
        obtain ⟨hlt, _⟩ := List.getElem?_eq_some_iff.mp hcount
        rw [target_of_present hp]
        exact (List.getElem?_inj hlt hnd).mp (hcount.trans hget.symm)
      · obtain ⟨hp', hget'⟩ := hat r' (o.mem_order.mp hr'') htgt
        rw [hget, Option.some_inj] at hget'
        rw [if_pos hp', hget', Option.elim_some]

end Pack

/-! ### The ranks -/

section Ranks

variable {W : Type} (x : TopkStep W)

/-- Every expert of the step stands at some flat position of each token that names it. -/
theorem exists_flat {e t : ℕ} (ht : t < x.T) (h : routed x e t) :
    ∃ i < x.T * x.k, x.flat i = e ∧ i / x.k = t := by
  obtain ⟨j, hj, he⟩ := (routed_iff x).mp h
  have hdiv : (t * x.k + j) / x.k = t := by
    rw [Nat.mul_comm, Nat.mul_add_div (by omega), Nat.div_eq_of_lt hj, Nat.add_zero]
  have hmod : (t * x.k + j) % x.k = j := by
    rw [Nat.mul_comm, Nat.mul_add_mod, Nat.mod_eq_of_lt hj]
  refine ⟨t * x.k + j, ?_, ?_, hdiv⟩
  · calc t * x.k + j < t * x.k + x.k := by omega
      _ = (t + 1) * x.k := by rw [Nat.add_mul, Nat.one_mul]
      _ ≤ x.T * x.k := Nat.mul_le_mul_right _ ht
  · rw [TopkStep.flat, hdiv, hmod, he]

theorem getElem?_sidx {i : ℕ} (hi : i < x.T * x.k) :
    (argsort x.flat (x.T * x.k))[i]? = some (x.sidx i) := by
  rw [TopkStep.sidx, List.getD_eq_getElem?_getD, List.getElem?_eq_getElem (by simpa using hi),
    Option.getD_some]

theorem sidx_lt {i : ℕ} (hi : i < x.T * x.k) : x.sidx i < x.T * x.k :=
  List.mem_range.mp ((argsort_perm _ _).mem_iff.mp (List.mem_of_getElem? (getElem?_sidx x hi)))

/-- Every position stands somewhere in the order of the sort. -/
theorem exists_sidx {p : ℕ} (hp : p < x.T * x.k) : ∃ i < x.T * x.k, x.sidx i = p := by
  have hmem := (argsort_perm x.flat (x.T * x.k)).mem_iff.mpr (List.mem_range.mpr hp)
  obtain ⟨i, hi⟩ := List.mem_iff_getElem?.mp hmem
  have hlt : i < x.T * x.k := by
    have h := (List.getElem?_eq_some_iff.mp hi).1
    rwa [length_argsort] at h
  exact ⟨i, hlt, Option.some_inj.mp ((getElem?_sidx x hlt).symm.trans hi)⟩

theorem svals_mono (i j : ℕ) (hij : i ≤ j) (hj : j < x.T * x.k) : x.svals i ≤ x.svals j := by
  rcases hij.lt_or_eq with hlt | rfl
  · obtain ⟨hi', hie⟩ := List.getElem?_eq_some_iff.mp (getElem?_sidx x (hlt.trans hj))
    obtain ⟨hj', hje⟩ := List.getElem?_eq_some_iff.mp (getElem?_sidx x hj)
    have h := List.pairwise_iff_getElem.mp (argsort_pairwise x.flat (x.T * x.k)) i j hi' hj' hlt
    rwa [hie, hje] at h
  · exact le_refl _

theorem flat_mem {i : ℕ} (hi : i < x.T * x.k) : x.flat i ∈ named x := by
  have hk : 0 < x.k := Nat.pos_of_ne_zero fun h => by simp [h] at hi
  rw [mem_named]
  refine ⟨i / x.k, Nat.div_lt_of_lt_mul (Nat.mul_comm x.T x.k ▸ hi), ?_⟩
  exact (routed_iff x).mpr ⟨i % x.k, Nat.mod_lt _ hk, rfl⟩

theorem svals_mem {i : ℕ} (hi : i < x.T * x.k) : x.svals i ∈ named x :=
  flat_mem x (sidx_lt x hi)

theorem exists_svals {e : ℕ} (he : e ∈ named x) : ∃ i < x.T * x.k, x.svals i = e := by
  obtain ⟨t, ht, h⟩ := (mem_named x).mp he
  obtain ⟨p, hp, hpe, _⟩ := exists_flat x ht h
  obtain ⟨i, hi, his⟩ := exists_sidx x hp
  exact ⟨i, hi, by rw [TopkStep.svals, his, hpe]⟩

/-- The running sum of the firsts is the rank in the union. -/
theorem rankSorted_eq {i : ℕ} (hi : i < x.T * x.k) :
    x.rankSorted i = rankIn (named x) (x.svals i) := by
  have hset : (Finset.range (i + 1)).image x.svals =
      (named x).filter (· ≤ x.svals i) := by
    ext e
    simp only [Finset.mem_image, Finset.mem_range, Finset.mem_filter]
    constructor
    · rintro ⟨j, hj, rfl⟩
      exact ⟨svals_mem x (by omega), svals_mono x j i (by omega) hi⟩
    · rintro ⟨he, hle⟩
      obtain ⟨j, hj, rfl⟩ := exists_svals x he
      by_cases hij : j ≤ i
      · exact ⟨j, by omega, rfl⟩
      · exact ⟨i, by omega, le_antisymm (svals_mono x i j (by omega) hj) hle⟩
  rw [TopkStep.rankSorted, cumsum_first (svals_mono x) hi, hset, card_filter_le (svals_mem x hi),
    Nat.add_sub_cancel]

variable [AddCommMonoid W]

/-- `U` is the number of experts. -/
theorem lastRank_eq (hN : 0 < x.T * x.k) :
    x.rankSorted (x.T * x.k - 1) + 1 = (union x).length := by
  have hlast : x.T * x.k - 1 < x.T * x.k := by omega
  have hall : (named x).filter (· ≤ x.svals (x.T * x.k - 1)) = named x := by
    refine Finset.filter_true_of_mem fun e he => ?_
    obtain ⟨j, hj, rfl⟩ := exists_svals x he
    exact svals_mono x j _ (by omega) hlast
  rw [rankSorted_eq x hlast, ← card_filter_le (svals_mem x hlast), hall, length_union]

/-- What stands at a place of the union has that rank, and nothing else has. -/
theorem rank_eq_iff {e u : ℕ} (he : e ∈ named x) :
    rankIn (named x) e = u ↔ (union x)[u]? = some e := by
  constructor
  · rintro rfl
    rw [← toFinset_union] at he ⊢
    exact getElem?_rankIn (union_pairwise x) (List.mem_toFinset.mp he)
  · intro h
    rw [← toFinset_union]
    exact rankIn_of_getElem? (union_pairwise x) h

end Ranks

/-! ### The tensors -/

section Tensors

variable {W : Type} (x : TopkStep W)

/-- `rank` holds the rank of the expert at every flat position. -/
theorem rank_apply (o : WriteOrder) {p : ℕ} (hp : p < x.T * x.k) :
    writes x.sidx x.rankSorted (fun _ => 0) (o.order (x.T * x.k)) p =
      rankIn (named x) (x.flat p) := by
  obtain ⟨i, hi, his⟩ := exists_sidx x hp
  refine writes_of_mem ⟨i, o.mem_order.mpr hi, his⟩ fun i' hi' his' => ?_
  rw [rankSorted_eq x (o.mem_order.mp hi'), TopkStep.svals, his']

variable [AddCommMonoid W]

/-- `exp_of_rank` holds the union in order; writes that meet agree. -/
theorem expOfRank_apply (o : WriteOrder) (u : ℕ) :
    writes x.rankSorted x.svals (fun _ => 0) (o.order (x.T * x.k)) u =
      ((union x)[u]?).getD 0 := by
  have hat : ∀ i < x.T * x.k, x.rankSorted i = u → (union x)[u]? = some (x.svals i) := by
    intro i hi hu
    rw [rankSorted_eq x hi] at hu
    exact (rank_eq_iff x (svals_mem x hi)).mp hu
  cases hget : (union x)[u]? with
  | none =>
    refine writes_of_notMem fun i hi hu => ?_
    rw [hat i (o.mem_order.mp hi) hu] at hget
    exact Option.some_ne_none _ hget
  | some e =>
    have he : e ∈ named x :=
      (mem_named x).mpr ((mem_union x).mp (List.mem_of_getElem? hget))
    obtain ⟨i, hi, his⟩ := exists_svals x he
    have hu : x.rankSorted i = u := by
      rw [rankSorted_eq x hi, his]
      exact (rank_eq_iff x he).mpr hget
    refine writes_of_mem ⟨i, o.mem_order.mpr hi, hu⟩ fun i' hi' hu' => ?_
    have := hat i' (o.mem_order.mp hi') hu'
    rw [hget, Option.some_inj] at this
    exact this.symm

/-- The padded experts: every slot of a group is filled. -/
theorem paddedExperts_eq {cap S u : ℕ} (hu : u < S) :
    paddedExperts cap S (union x).length (fun u => ((union x)[u]?).getD 0) u =
      slotExpert x cap u := by
  have hle : u / cap * cap ≤ u := Nat.div_mul_le_self u cap
  have hmin : min (u / cap * cap) (S - 1) = u / cap * cap := by omega
  rw [paddedExperts, slotExpert, hmin]
  by_cases h : u < (union x).length
  · rw [if_pos h, List.getElem?_eq_getElem h, Option.getD_some, Option.getD_some]
  · rw [if_neg h, List.getElem?_eq_none (not_lt.mp h), Option.getD_none]
    by_cases hg : u / cap * cap < (union x).length
    · rw [if_pos hg, List.getElem?_eq_getElem hg, Option.getD_some, Option.getD_some]
    · rw [if_neg hg, List.getElem?_eq_none (not_lt.mp hg), Option.getD_none]

variable {rank : ℕ → ℕ} {rows : ℕ}

/-- A flat position writes to the row of its expert, in the column of its token. -/
theorem cellOf_eq_iff (hrank : ∀ p < x.T * x.k, rank p = rankIn (named x) (x.flat p))
    (hrows : x.T ≤ rows) {i s t : ℕ} (hi : i < x.T * x.k) (ht : t < rows) :
    cellOf rows x.k rank i = s * rows + t ↔ (union x)[s]? = some (x.flat i) ∧ i / x.k = t := by
  have hcol : i / x.k < rows := by
    have : i / x.k < x.T := Nat.div_lt_of_lt_mul (Nat.mul_comm x.T x.k ▸ hi)
    omega
  rw [cellOf, hrank i hi, ← rank_eq_iff x (flat_mem x hi)]
  constructor
  · intro h
    have hdiv := congrArg (· / rows) h
    have hmod := congrArg (· % rows) h
    simp only [Nat.mul_comm _ rows, Nat.mul_add_div (show 0 < rows by omega), Nat.mul_add_mod,
      Nat.div_eq_of_lt hcol, Nat.div_eq_of_lt ht, Nat.mod_eq_of_lt hcol, Nat.mod_eq_of_lt ht,
      Nat.add_zero] at hdiv hmod
    exact ⟨hdiv, hmod⟩
  · rintro ⟨rfl, rfl⟩
    rfl

/-- No cell is out of range where the groups have room for the union. -/
theorem cellOf_lt (hrank : ∀ p < x.T * x.k, rank p = rankIn (named x) (x.flat p))
    (hrows : x.T ≤ rows) {S i : ℕ} (hS : (union x).length ≤ S) (hi : i < x.T * x.k) :
    cellOf rows x.k rank i < S * rows := by
  have hcol : i / x.k < x.T := Nat.div_lt_of_lt_mul (Nat.mul_comm x.T x.k ▸ hi)
  have hlt : rankIn (named x) (x.flat i) < S := by
    have := rankIn_lt (flat_mem x hi)
    rw [← length_union] at this
    omega
  rw [cellOf, hrank i hi]
  calc rankIn (named x) (x.flat i) * rows + i / x.k
      < rankIn (named x) (x.flat i) * rows + rows := by omega
    _ = (rankIn (named x) (x.flat i) + 1) * rows := by rw [Nat.add_mul, Nat.one_mul]
    _ ≤ S * rows := Nat.mul_le_mul_right _ hlt

/-- A cell is present where its token names its expert. -/
theorem present_iff (hrank : ∀ p < x.T * x.k, rank p = rankIn (named x) (x.flat p))
    (hrows : x.T ≤ rows) (o : WriteOrder) {s t : ℕ} (ht : t < rows) :
    (writes (cellOf rows x.k rank) (fun _ => 1) (fun _ => 0) (o.order (x.T * x.k))
        (s * rows + t) != (0 : ℕ)) = true ↔
      ∃ e, (union x)[s]? = some e ∧ t < x.T ∧ routed x e t := by
  rw [bne_iff_ne]
  constructor
  · intro hne
    by_contra hno
    refine hne (writes_of_notMem fun i hi hcell => hno ?_)
    have hi := o.mem_order.mp hi
    obtain ⟨hs, hit⟩ := (cellOf_eq_iff x hrank hrows hi ht).mp hcell
    have hk : 0 < x.k := Nat.pos_of_ne_zero fun h => by simp [h] at hi
    have hT : i / x.k < x.T := Nat.div_lt_of_lt_mul (Nat.mul_comm x.T x.k ▸ hi)
    exact ⟨x.flat i, hs, hit ▸ hT, (routed_iff x).mpr ⟨i % x.k, Nat.mod_lt _ hk, hit ▸ rfl⟩⟩
  · rintro ⟨e, hs, htT, hr⟩
    obtain ⟨i, hi, rfl, hit⟩ := exists_flat x htT hr
    have hone : writes (cellOf rows x.k rank) (fun _ => 1) (fun _ => 0)
        (o.order (x.T * x.k)) (s * rows + t) = 1 :=
      writes_of_mem ⟨i, o.mem_order.mpr hi, (cellOf_eq_iff x hrank hrows hi ht).mpr ⟨hs, hit⟩⟩
        fun _ _ _ => rfl
    rw [hone]
    exact Nat.one_ne_zero

/-- The present cells of a row are the tokens of its expert. -/
theorem filter_present (hrank : ∀ p < x.T * x.k, rank p = rankIn (named x) (x.flat p))
    (hrows : x.T ≤ rows) (o : WriteOrder) (s : ℕ) :
    (List.range rows).filter (fun t => writes (cellOf rows x.k rank) (fun _ => 1) (fun _ => 0)
        (o.order (x.T * x.k)) (s * rows + t) != (0 : ℕ)) =
      ((union x)[s]?).elim [] (tokensOf x) := by
  have hp := fun {t : ℕ} ht => present_iff x hrank hrows o (s := s) (t := t) ht
  cases hget : (union x)[s]? with
  | none =>
    refine List.filter_eq_nil_iff.mpr fun t ht h => ?_
    obtain ⟨e, he, _⟩ := (hp (List.mem_range.mp ht)).mp h
    rw [hget] at he
    exact Option.some_ne_none e he.symm
  | some e =>
    refine (List.pairwise_lt_range.filter _).eq_of_mem_iff (tokensOf_pairwise x e) fun t => ?_
    rw [Option.elim_some, List.mem_filter, List.mem_range, mem_tokensOf]
    constructor
    · rintro ⟨ht, h⟩
      obtain ⟨e', he', htT, hr⟩ := (hp ht).mp h
      rw [hget, Option.some_inj] at he'
      exact ⟨htT, he' ▸ hr⟩
    · rintro ⟨htT, hr⟩
      exact ⟨by omega, (hp (by omega)).mpr ⟨e, hget, htT, hr⟩⟩

/-- The dense weight of a present cell is the sum its token gives its expert. -/
theorem wDense_apply (hrank : ∀ p < x.T * x.k, rank p = rankIn (named x) (x.flat p))
    (hrows : x.T ≤ rows) (o : WriteOrder) {s t e : ℕ} (hs : (union x)[s]? = some e)
    (ht : t < x.T) :
    additions (cellOf rows x.k rank) x.flatWts (fun _ => 0) (o.order (x.T * x.k))
      (s * rows + t) = weightOf x e t := by
  have hdm : ∀ j < x.k, (t * x.k + j) / x.k = t ∧ (t * x.k + j) % x.k = j := by
    intro j hj
    rw [Nat.mul_comm, Nat.mul_add_div (by omega), Nat.div_eq_of_lt hj, Nat.mul_add_mod,
      Nat.mod_eq_of_lt hj]
    exact ⟨rfl, rfl⟩
  have hlt : ∀ j < x.k, t * x.k + j < x.T * x.k := fun j hj =>
    calc t * x.k + j < t * x.k + x.k := by omega
      _ = (t + 1) * x.k := by rw [Nat.add_mul, Nat.one_mul]
      _ ≤ x.T * x.k := Nat.mul_le_mul_right _ ht
  have hcell := fun {i : ℕ} hi => cellOf_eq_iff x hrank hrows (i := i) (s := s) hi
    (lt_of_lt_of_le ht hrows)
  rw [additions_order, weightOf]
  -- the flat positions of the token are its places
  refine Finset.sum_bij' (fun i _ => i % x.k) (fun j _ => t * x.k + j) ?_ ?_ ?_ ?_ ?_
  · intro i hi
    obtain ⟨hi, hc⟩ := Finset.mem_filter.mp hi
    obtain ⟨hse, hit⟩ := (hcell (Finset.mem_range.mp hi)).mp hc
    have hk : 0 < x.k := Nat.pos_of_ne_zero fun h => by simp [h] at hi
    rw [hs, Option.some_inj] at hse
    refine Finset.mem_filter.mpr ⟨Finset.mem_range.mpr (Nat.mod_lt _ hk), ?_⟩
    rw [hse, TopkStep.flat, hit]
  · intro j hj
    obtain ⟨hj, he⟩ := Finset.mem_filter.mp hj
    have hj := Finset.mem_range.mp hj
    refine Finset.mem_filter.mpr ⟨Finset.mem_range.mpr (hlt j hj), (hcell (hlt j hj)).mpr ?_⟩
    rw [TopkStep.flat, (hdm j hj).1, (hdm j hj).2, he]
    exact ⟨hs, rfl⟩
  · intro i hi
    obtain ⟨hi, hc⟩ := Finset.mem_filter.mp hi
    obtain ⟨_, hit⟩ := (hcell (Finset.mem_range.mp hi)).mp hc
    rw [← hit]
    exact Nat.div_add_mod' i x.k
  · intro j hj
    exact (hdm j (Finset.mem_range.mp (Finset.mem_filter.mp hj).1)).2
  · intro i hi
    obtain ⟨hi, hc⟩ := Finset.mem_filter.mp hi
    obtain ⟨_, hit⟩ := (hcell (Finset.mem_range.mp hi)).mp hc
    rw [TopkStep.flatWts, hit]

end Tensors

/-! ### The builder -/

section Builder

variable {W F H : Type} [AddCommMonoid W] [Zero F] [Zero H] (x : TopkStep W)
variable (o : Scatters) (single : ZeroHom W F) (half : ZeroHom F H)

theorem mapM_eq_some {α β : Type} {f : α → Option β} {g : α → β} {l : List α}
    (h : ∀ a ∈ l, f a = some (g a)) : l.mapM f = some (l.map g) := by
  induction l with
  | nil => rfl
  | cons a l ih =>
    rw [List.mapM_cons, h a (by simp), ih fun b hb => h b (by simp [hb])]
    rfl

/-- **What the graph builder returns**: a group of the padded union for each of its `G` groups,
with no scatter out of range. -/
theorem buildM8GroupsGraph_eq {cap rows G : ℕ} (hN : 0 < x.T * x.k) (hrows : x.T ≤ rows)
    (hG : (union x).length ≤ G * cap) :
    buildM8GroupsGraph x o single half cap rows G =
      some ((List.range G).map (specGroup x single half cap rows)) := by
  have hU := lastRank_eq x hN
  -- every rank has a place in the `G * cap` slots, so no scatter is out of range
  have hrankLt : ∀ i < x.T * x.k, x.rankSorted i < G * cap := by
    intro i hi
    have := rankIn_lt (svals_mem x hi)
    rw [rankSorted_eq x hi]
    rw [← length_union] at this
    omega
  have hrank := fun p hp => rank_apply x o.rank (p := p) hp
  have hcell : ∀ i < x.T * x.k, cellOf rows x.k
      (writes x.sidx x.rankSorted (fun _ => 0) (o.rank.order (x.T * x.k))) i < G * cap * rows :=
    fun i hi => cellOf_lt x hrank hrows hG hi
  rw [buildM8GroupsGraph]
  simp only [if_neg hN.ne', scatterInto_eq o.rank fun i hi => sidx_lt x hi,
    scatterInto_eq o.expOfRank hrankLt, scatterAdd_eq o.wDense hcell,
    scatterInto_eq o.pDense hcell, hU, Option.bind_eq_bind, Option.bind_some]
  -- the tokens of a slot: its cells that are present, in the order of the rows
  have hmap : ∀ s ∈ List.range (G * cap), packRow (o.rowMap s) rows
      (fun r => writes (cellOf rows x.k (writes x.sidx x.rankSorted (fun _ => 0)
        (o.rank.order (x.T * x.k)))) (fun _ => 1) (fun _ => 0) (o.pDense.order (x.T * x.k))
        (s * rows + r) != 0) (fun t => (t : ℤ)) (-1) = some (slotToken x s) := by
    intro s _
    rw [packRow_eq, filter_present x hrank hrows]
    congr 1
    funext c
    rw [slotToken]
    cases (union x)[s]? <;> rfl
  -- their weights, each the sum over the columns of the token that name the expert
  have hwts : ∀ s ∈ List.range (G * cap), packRow (o.rowW s) rows
      (fun r => writes (cellOf rows x.k (writes x.sidx x.rankSorted (fun _ => 0)
        (o.rank.order (x.T * x.k)))) (fun _ => 1) (fun _ => 0) (o.pDense.order (x.T * x.k))
        (s * rows + r) != 0)
      (fun t => single (additions (cellOf rows x.k (writes x.sidx x.rankSorted (fun _ => 0)
        (o.rank.order (x.T * x.k)))) x.flatWts (fun _ => 0) (o.wDense.order (x.T * x.k))
        (s * rows + t))) 0 = some (slotWeight x single s) := by
    intro s _
    rw [packRow_eq, filter_present x hrank hrows]
    congr 1
    funext c
    rw [slotWeight]
    cases hs : (union x)[s]? with
    | none => rfl
    | some e =>
      rw [Option.elim_some, Option.bind_some]
      cases ht : (tokensOf x e)[c]? with
      | none => rfl
      | some t =>
        have htT := ((mem_tokensOf x).mp (List.mem_of_getElem? ht)).1
        rw [Option.elim_some, Option.map_some, Option.elim_some,
          wDense_apply x hrank hrows o.wDense hs htT]
  rw [mapM_eq_some hmap, Option.bind_some, mapM_eq_some hwts, Option.bind_some]
  congr 1
  refine List.map_congr_left fun g hg => ?_
  -- group `g` is the slots from `g * cap` on
  have hu : ∀ s ∈ List.range cap, g * cap + s < G * cap := by
    intro s hs
    have hs := List.mem_range.mp hs
    calc g * cap + s < (g + 1) * cap := by rw [Nat.add_mul, Nat.one_mul]; omega
      _ ≤ G * cap := Nat.mul_le_mul_right _ (List.mem_range.mp hg)
  have hexp : writes x.rankSorted x.svals (fun _ => 0) (o.expOfRank.order (x.T * x.k)) =
      fun u => ((union x)[u]?).getD 0 :=
    funext fun u => expOfRank_apply x o.expOfRank u
  rw [specGroup, groupAt, groupAt, M8Group.mk.injEq, hexp]
  refine ⟨?_, ?_, ?_⟩
  · exact List.map_congr_left fun s hs => paddedExperts_eq x (hu s hs)
  · refine List.map_congr_left fun s hs => List.map_congr_left fun r _ => ?_
    rw [List.getD_eq_getElem?_getD, List.getElem?_map, List.getElem?_range (hu s hs)]
    rfl
  · refine List.map_congr_left fun s hs => List.map_congr_left fun r _ => ?_
    rw [List.getD_eq_getElem?_getD, List.getElem?_map, List.getElem?_range (hu s hs)]
    rfl

end Builder

end Exl3

end VllmMoet
