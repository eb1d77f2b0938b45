import VllmMoet.MoeScatter.Counts

/-!
# The layout of the MoE scatter

The regions of the experts follow one another, each aligned and large enough for the pairs that
name its expert; a pair's row is the rank-th of its expert's region. What the threads of a launch
store agrees wherever it meets, so in whatever order the stores are made the outputs are those of
the layout (`launch_layout`).
-/

namespace VllmMoet

namespace MoeScatter

variable {L : Launch}

/-! ### Regions -/

theorem le_roundUp {v a : ℕ} (ha : 0 < a) : v ≤ roundUp v a := by
  have h := Nat.div_add_mod (v + a - 1) a
  have hlt := Nat.mod_lt (v + a - 1) ha
  rw [roundUp, Nat.mul_comm]
  omega

theorem dvd_roundUp (v a : ℕ) : a ∣ roundUp v a :=
  Nat.dvd_mul_left a _

theorem roundUp_zero {a : ℕ} (ha : 0 < a) : roundUp 0 a = 0 := by
  rw [roundUp, Nat.zero_add, Nat.div_eq_of_lt (by omega), Nat.zero_mul]

theorem start_succ (e : ℕ) : start L (e + 1) = start L e + aligned L e :=
  Finset.sum_range_succ _ _

theorem start_mono {e e' : ℕ} (h : e ≤ e') : start L e ≤ start L e' := by
  induction h with
  | refl => exact le_refl _
  | step _ ih => exact ih.trans (start_succ (L := L) _ ▸ Nat.le_add_right _ _)

/-- Every region begins at a multiple of the alignment. -/
theorem align_dvd_start (e : ℕ) : L.align ∣ start L e := by
  induction e with
  | zero => exact Nat.dvd_zero _
  | succ e ih => exact start_succ (L := L) e ▸ Nat.dvd_add ih (dvd_roundUp _ _)

/-- Two regions that share a row are one. -/
theorem region_unique {e e' r : ℕ} (h : start L e ≤ r ∧ r < start L (e + 1))
    (h' : start L e' ≤ r ∧ r < start L (e' + 1)) : e = e' := by
  rcases lt_trichotomy e e' with hlt | rfl | hgt
  · have hm : start L (e + 1) ≤ start L e' := start_mono hlt
    omega
  · rfl
  · have hm : start L (e' + 1) ≤ start L e := start_mono hgt
    omega

/-- Every row before the tail lies in a region. -/
theorem exists_region {r : ℕ} (h : r < start L L.E) :
    ∃ e < L.E, start L e ≤ r ∧ r < start L (e + 1) := by
  generalize L.E = n at h
  induction n with
  | zero => simp [start] at h
  | succ n ih =>
    rcases Nat.lt_or_ge r (start L n) with hlt | hge
    · obtain ⟨e, he, hr⟩ := ih hlt
      exact ⟨e, he.trans (Nat.lt_succ_self n), hr⟩
    · exact ⟨n, Nat.lt_succ_self n, hge, h⟩

/-- The pairs of a named expert, as the counts see them. -/
theorem mem_pairs_of_valid {p : ℕ} (hp : p < L.P) (hv : L.Valid (L.ids p)) :
    p ∈ (Finset.range L.P).filter fun i => L.ids i = (L.ids p).toNat :=
  Finset.mem_filter.mpr ⟨Finset.mem_range.mpr hp, (Int.toNat_of_nonneg hv.1).symm⟩

/-- A pair has a place among those of its expert. -/
theorem rankOf_lt {p : ℕ} (hp : p < L.P) (hv : L.Valid (L.ids p)) :
    rankOf L p < countOf L (L.ids p).toNat := by
  refine Finset.card_lt_card ((Finset.ssubset_iff_of_subset fun i hi => ?_).mpr
    ⟨p, mem_pairs_of_valid hp hv, ?_⟩)
  · obtain ⟨hi, he⟩ := Finset.mem_filter.mp hi
    have hi := Finset.mem_range.mp hi
    exact Finset.mem_filter.mpr ⟨Finset.mem_range.mpr (by omega),
      by rw [he, Int.toNat_of_nonneg hv.1]⟩
  · intro h
    exact absurd (Finset.mem_range.mp (Finset.mem_filter.mp h).1) (lt_irrefl p)

/-- Of two pairs of an expert the earlier has the smaller rank. -/
theorem rankOf_lt_rankOf {p q : ℕ} (h : p < q) (he : L.ids p = L.ids q) :
    rankOf L p < rankOf L q := by
  refine Finset.card_lt_card ((Finset.ssubset_iff_of_subset fun i hi => ?_).mpr ⟨p, ?_, ?_⟩)
  · obtain ⟨hi, hie⟩ := Finset.mem_filter.mp hi
    have hi := Finset.mem_range.mp hi
    exact Finset.mem_filter.mpr ⟨Finset.mem_range.mpr (by omega), hie.trans he⟩
  · exact Finset.mem_filter.mpr ⟨Finset.mem_range.mpr h, he⟩
  · intro h'
    exact absurd (Finset.mem_range.mp (Finset.mem_filter.mp h').1) (lt_irrefl p)

/-- An expert that is named has a pair of rank `0`. -/
theorem exists_rank_zero {e : ℕ} (h : 0 < countOf L e) :
    ∃ p < L.P, L.ids p = e ∧ rankOf L p = 0 := by
  obtain ⟨q, hq⟩ := Finset.card_pos.mp h
  obtain ⟨hq, hqe⟩ := Finset.mem_filter.mp hq
  have hex : ∃ p, p < L.P ∧ L.ids p = e := ⟨q, Finset.mem_range.mp hq, hqe⟩
  obtain ⟨hp, he⟩ := Nat.find_spec hex
  refine ⟨Nat.find hex, hp, he, Finset.card_eq_zero.mpr (Finset.filter_eq_empty_iff.mpr ?_)⟩
  intro i hi hie
  exact Nat.find_min hex (Finset.mem_range.mp hi)
    ⟨(Finset.mem_range.mp hi).trans hp, hie.trans he⟩

/-! ### What the host promises -/

/-- What the host checks of a launch, with an output of at least the aligned rows. -/
structure HostChecks (L : Launch) : Prop where
  pairs : 1 ≤ L.P ∧ L.P ≤ 1024
  experts : 1 ≤ L.E ∧ L.E ≤ 1024
  groups : L.K % 128 = 0 ∧ 0 < L.K ∧ L.K ≤ 8192
  align : 1 ≤ L.align
  rows : start L L.E ≤ L.mSum

variable (h : HostChecks L)

include h in
/-- A valid pair's row lies among the real rows of its expert's region. -/
theorem destOf_mem {p : ℕ} (hp : p < L.P) (hv : L.Valid (L.ids p)) :
    start L (L.ids p).toNat ≤ destOf L p ∧
      destOf L p < start L (L.ids p).toNat + countOf L (L.ids p).toNat ∧
      destOf L p < start L ((L.ids p).toNat + 1) ∧ destOf L p < L.mSum := by
  have hr := rankOf_lt hp hv
  have hle : countOf L (L.ids p).toNat ≤ aligned L (L.ids p).toNat := le_roundUp h.align
  have hsucc := start_succ (L := L) (L.ids p).toNat
  have hlt : (L.ids p).toNat + 1 ≤ L.E := by
    have := hv.1
    have := hv.2
    omega
  have hmono := start_mono (L := L) hlt
  have hrows := h.rows
  rw [destOf]
  omega

include h in
/-- Two valid pairs with one row are one. -/
theorem destOf_inj {p q : ℕ} (hp : p < L.P) (hq : q < L.P) (hvp : L.Valid (L.ids p))
    (hvq : L.Valid (L.ids q)) (he : destOf L p = destOf L q) : p = q := by
  obtain ⟨hp₁, _, hp₂, _⟩ := destOf_mem h hp hvp
  obtain ⟨hq₁, _, hq₂, _⟩ := destOf_mem h hq hvq
  have hexp : (L.ids p).toNat = (L.ids q).toNat :=
    region_unique ⟨hp₁, hp₂⟩ ⟨he ▸ hq₁, he ▸ hq₂⟩
  have hids : L.ids p = L.ids q := by
    have := hvp.1
    have := hvq.1
    omega
  have hrank : rankOf L p = rankOf L q := by
    simp only [destOf, hexp] at he
    omega
  rcases lt_trichotomy p q with hlt | heq | hgt
  · have := rankOf_lt_rankOf hlt hids
    omega
  · exact heq
  · have := rankOf_lt_rankOf hgt hids.symm
    omega

/-! ### The stores of a thread -/

/-- What a thread gets of a range in strides. -/
theorem mem_strided {a step stop r : ℕ} (hstep : 0 < step) :
    r ∈ strided a step stop ↔ r < stop ∧ ∃ k, r = a + k * step := by
  have hk : ∀ k, k < (stop - a + step - 1) / step ↔ a + k * step < stop := by
    intro k
    rw [Nat.lt_div_iff_mul_lt hstep]
    omega
  simp only [strided, List.mem_map, List.mem_range]
  constructor
  · rintro ⟨k, hlt, rfl⟩
    exact ⟨(hk k).mp hlt, k, rfl⟩
  · rintro ⟨hlt, k, rfl⟩
    exact ⟨k, (hk k).mpr hlt, rfl⟩

/-- What thread `tid` of CTA `p` stores, in terms of the layout. -/
def layoutStores (L : Launch) (p tid : ℕ) : List (Loc × ℤ) :=
  ((strided (start L L.E + p * 512 + tid) (L.P * 512) L.mSum).map fun r =>
    (Loc.mIndices r, -1)) ++
  if L.Valid (L.ids p) then
    (if tid = 0 then [(.invPerm p, (destOf L p : ℤ))] else []) ++
    (if rankOf L p = 0 then
      (strided tid 512 (aligned L (L.ids p).toNat)).flatMap
        (regionRow L (start L (L.ids p).toNat) (countOf L (L.ids p).toNat) (L.ids p))
    else []) ++
    rowStores L p tid (destOf L p)
  else []

include h in
/-- A thread stores what the layout says, however its CTA counts. -/
theorem threadStores_eq (c : Counting) {p : ℕ} (hp : p < L.P) (tid : ℕ) :
    threadStores L c p tid = layoutStores L p tid := by
  have hlane : tid % 32 < 32 := Nat.mod_lt _ (by decide)
  have hrank := rank_eq h.pairs.2 hlane hp
  rw [threadStores, layoutStores, tailStores, total_eq c h.experts.2 hlane]
  by_cases hv : L.Valid (L.ids p)
  · simp only [if_pos hv, regionStores, hrank, before_eq c h.experts.2 hlane hv,
      cMine_eq c h.experts.2 hlane hv]
    rfl
  · simp only [if_neg hv]

/-! ### What is stored where -/

/-- The value that the layout gives a place, where it gives one. -/
inductive Stored (L : Launch) : Loc → ℤ → Prop
  | tail {r : ℕ} (hr : start L L.E ≤ r) (hlt : r < L.mSum) : Stored L (.mIndices r) (-1)
  | dest {p : ℕ} (hp : p < L.P) (hv : L.Valid (L.ids p)) :
      Stored L (.invPerm p) (destOf L p : ℤ)
  | real {e i : ℕ} (he : e < L.E) (hi : i < countOf L e) :
      Stored L (.mIndices (start L e + i)) (e : ℤ)
  | pad {e i : ℕ} (he : e < L.E) (hi : countOf L e ≤ i) (hlt : i < aligned L e) :
      Stored L (.mIndices (start L e + i)) (-1)
  | padScale {e i pk b : ℕ} (he : e < L.E) (hi : countOf L e ≤ i) (hlt : i < aligned L e)
      (hpk : pk < L.sfKPad / 4) (hb : b < 4) :
      Stored L (.outS ((start L e + i + pk * L.mSum) * 4 + b)) 0
  | scale {p g : ℕ} (hp : p < L.P) (hv : L.Valid (L.ids p)) (hg : g < L.sfKPad) :
      Stored L (.outS ((destOf L p + g / 4 * L.mSum) * 4 + g % 4))
        (if g < L.sfK then L.scale (p / L.topk) g else 0)
  | quant {p k : ℕ} (hp : p < L.P) (hv : L.Valid (L.ids p)) (hk : k < L.K) :
      Stored L (.outQ (destOf L p * L.K + k)) (L.quant (p / L.topk) k)

theorem toNat_lt {e : ℤ} (hv : L.Valid e) : e.toNat < L.E := by
  have := hv.1
  have := hv.2
  omega

/-- A thread stores nothing but what the layout gives. -/
theorem stored_of_mem {p tid : ℕ} (hp : p < L.P) (htid : tid < 512) {x : Loc × ℤ}
    (hx : x ∈ layoutStores L p tid) : Stored L x.1 x.2 := by
  have hP : 0 < L.P * 512 := by omega
  rcases List.mem_append.mp hx with hx | hx
  · -- the rows behind the regions of the experts
    obtain ⟨r, hr, rfl⟩ := List.mem_map.mp hx
    obtain ⟨hlt, k, rfl⟩ := (mem_strided hP).mp hr
    exact .tail (by omega) hlt
  · -- a pair without an expert stores nothing else
    by_cases hv : L.Valid (L.ids p)
    swap
    · rw [if_neg hv] at hx
      simp at hx
    rw [if_pos hv] at hx
    rcases List.mem_append.mp hx with hx | hx
    · rcases List.mem_append.mp hx with hx | hx
      · split at hx
        · rw [List.mem_singleton.mp hx]
          exact .dest hp hv
        · simp at hx
      · split at hx
        swap
        · simp at hx
        obtain ⟨i, hi, hx⟩ := List.mem_flatMap.mp hx
        have hi := ((mem_strided (by decide)).mp hi).1
        have hids : L.ids p = ((L.ids p).toNat : ℤ) := (Int.toNat_of_nonneg hv.1).symm
        -- a row of the region of the expert is real or padding
        rw [regionRow] at hx
        split at hx
        · rename_i hreal
          rw [List.mem_singleton.mp hx]
          have hst : Stored L (.mIndices (start L (L.ids p).toNat + i)) ((L.ids p).toNat : ℤ) :=
            .real (toNat_lt hv) hreal
          rwa [← hids] at hst
        · rename_i hpad
          rcases List.mem_cons.mp hx with rfl | hx
          · exact .pad (toNat_lt hv) (not_lt.mp hpad) hi
          · obtain ⟨pk, hpk, hx⟩ := List.mem_flatMap.mp hx
            obtain ⟨b, hb, rfl⟩ := List.mem_map.mp hx
            exact .padScale (toNat_lt hv) (not_lt.mp hpad) hi (List.mem_range.mp hpk)
              (List.mem_range.mp hb)
    · rw [rowStores] at hx
      rcases List.mem_append.mp hx with hx | hx
      · split at hx
        · rename_i hg
          rw [List.mem_singleton.mp hx]
          exact .scale hp hv hg.1
        · simp at hx
      · split at hx
        · rename_i hg
          obtain ⟨i, hi, rfl⟩ := List.mem_map.mp hx
          have hi := List.mem_range.mp hi
          have hk : (tid / 32 * 4 + tid % 32 / 8) * 128 + tid % 32 % 8 * 16 + i < L.K := by
            have hmul : L.K / 128 * 128 ≤ L.K := Nat.div_mul_le_self _ _
            have hg : tid / 32 * 4 + tid % 32 / 8 < L.K / 128 := hg
            omega
          have hst : Stored L (.outQ (destOf L p * L.K +
              ((tid / 32 * 4 + tid % 32 / 8) * 128 + tid % 32 % 8 * 16 + i))) _ :=
            .quant hp hv hk
          rwa [← Nat.add_assoc, ← Nat.add_assoc] at hst
        · simp at hx

/-- The value of a place of `m_indices`. -/
theorem Stored.mIndices_cases {r : ℕ} {v : ℤ} (hst : Stored L (.mIndices r) v) :
    (start L L.E ≤ r ∧ v = -1) ∨
      (∃ e < L.E, ∃ i < countOf L e, r = start L e + i ∧ v = e) ∨
      ∃ e < L.E, ∃ i < aligned L e, countOf L e ≤ i ∧ r = start L e + i ∧ v = -1 := by
  generalize hl : Loc.mIndices r = l at hst
  cases hst with
  | tail hr _ =>
    injection hl with hl
    exact .inl ⟨hl ▸ hr, rfl⟩
  | real he hi =>
    injection hl with hl
    exact .inr (.inl ⟨_, he, _, hi, hl, rfl⟩)
  | pad he hi hlt =>
    injection hl with hl
    exact .inr (.inr ⟨_, he, _, hlt, hi, hl, rfl⟩)
  | _ => cases hl

/-- The value of a byte of `out_s`. -/
theorem Stored.outS_cases {a : ℕ} {v : ℤ} (hst : Stored L (.outS a) v) :
    (∃ e < L.E, ∃ i < aligned L e, countOf L e ≤ i ∧ ∃ pk, ∃ b < 4,
        a = (start L e + i + pk * L.mSum) * 4 + b ∧ v = 0) ∨
      ∃ p < L.P, L.Valid (L.ids p) ∧ ∃ g,
        a = (destOf L p + g / 4 * L.mSum) * 4 + g % 4 ∧
          v = if g < L.sfK then L.scale (p / L.topk) g else 0 := by
  generalize hl : Loc.outS a = l at hst
  cases hst with
  | padScale he hi hlt _ hb =>
    injection hl with hl
    exact .inl ⟨_, he, _, hlt, hi, _, _, hb, hl, rfl⟩
  | scale hp hv _ =>
    injection hl with hl
    exact .inr ⟨_, hp, hv, _, hl, rfl⟩
  | _ => cases hl

/-- A row, a packed column and a byte of the scales are told apart. -/
theorem outS_inj {n row row' pk pk' b b' : ℕ} (hr : row < n) (hr' : row' < n) (hb : b < 4)
    (hb' : b' < 4) (he : (row + pk * n) * 4 + b = (row' + pk' * n) * 4 + b') :
    row = row' ∧ pk = pk' ∧ b = b' := by
  have h₁ : row + n * pk = row' + n * pk' := by
    rw [Nat.mul_comm n, Nat.mul_comm n]
    omega
  have hdiv := congrArg (· / n) h₁
  have hmod := congrArg (· % n) h₁
  simp only [Nat.add_mul_div_left _ _ (by omega : 0 < n), Nat.div_eq_of_lt hr,
    Nat.div_eq_of_lt hr', Nat.zero_add, Nat.add_mul_mod_self_left, Nat.mod_eq_of_lt hr,
    Nat.mod_eq_of_lt hr'] at hdiv hmod
  exact ⟨hmod, hdiv, by omega⟩

include h in
/-- A row of a region lies in front of the next region. -/
theorem start_add_lt {e i : ℕ} (he : e < L.E) (hi : i < aligned L e) :
    start L e + i < start L (e + 1) ∧ start L e + i < L.mSum := by
  have hsucc := start_succ (L := L) e
  have hm : start L (e + 1) ≤ start L L.E := start_mono he
  have hrows := h.rows
  omega

include h in
/-- The layout gives a place one value. -/
theorem Stored.unique {l : Loc} {v v' : ℤ} (h₁ : Stored L l v) (h₂ : Stored L l v') : v = v' := by
  have hle : ∀ e, countOf L e ≤ aligned L e := fun e => le_roundUp h.align
  -- a row of a region is one of that region only, and none of the tail
  have hregion : ∀ {e e' i i'}, e < L.E → i < aligned L e → e' < L.E → i' < aligned L e' →
      start L e + i = start L e' + i' → e = e' ∧ i = i' := by
    intro e e' i i' he hi he' hi' heq
    have hee : e = e' := region_unique ⟨Nat.le_add_right _ _, (start_add_lt h he hi).1⟩
      ⟨heq ▸ Nat.le_add_right _ _, heq ▸ (start_add_lt h he' hi').1⟩
    subst hee
    exact ⟨rfl, by omega⟩
  have htail : ∀ {e i r}, e < L.E → i < aligned L e → start L L.E ≤ r → r ≠ start L e + i := by
    intro e i r he hi hr heq
    have h₃ := (start_add_lt h he hi).1
    have hm : start L (e + 1) ≤ start L L.E := start_mono he
    omega
  cases l with
  | mIndices r =>
    rcases h₁.mIndices_cases with ⟨hr, rfl⟩ | ⟨e, he, i, hi, hr, rfl⟩ | ⟨e, he, i, hi, hc, hr, rfl⟩
    · rcases h₂.mIndices_cases with
        ⟨_, rfl⟩ | ⟨e', he', i', hi', hr', rfl⟩ | ⟨e', he', i', hi', _, hr', rfl⟩
      · rfl
      · exact absurd hr' (htail he' (hi'.trans_le (hle _)) hr)
      · rfl
    · rcases h₂.mIndices_cases with
        ⟨hr', rfl⟩ | ⟨e', he', i', hi', hr', rfl⟩ | ⟨e', he', i', hi', hc', hr', rfl⟩
      · exact absurd hr (htail he (hi.trans_le (hle _)) hr')
      · rw [(hregion he (hi.trans_le (hle _)) he' (hi'.trans_le (hle _)) (hr.symm.trans hr')).1]
      · obtain ⟨rfl, rfl⟩ := hregion he (hi.trans_le (hle _)) he' hi' (hr.symm.trans hr')
        omega
    · rcases h₂.mIndices_cases with
        ⟨_, rfl⟩ | ⟨e', he', i', hi', hr', rfl⟩ | ⟨e', he', i', hi', _, hr', rfl⟩
      · rfl
      · obtain ⟨rfl, rfl⟩ := hregion he hi he' (hi'.trans_le (hle _)) (hr.symm.trans hr')
        omega
      · rfl
  | invPerm p =>
    cases h₁
    cases h₂
    rfl
  | outS a =>
    have hclash : ∀ {e i p}, e < L.E → i < aligned L e → countOf L e ≤ i → p < L.P →
        L.Valid (L.ids p) → start L e + i ≠ destOf L p := by
      intro e i p he hi hc hp hv heq
      have hr := rankOf_lt hp hv
      obtain ⟨rfl, hi'⟩ := hregion he hi (toNat_lt hv) (hr.trans_le (hle _)) heq
      omega
    rcases h₁.outS_cases with
      ⟨e, he, i, hi, hc, pk, b, hb, ha, rfl⟩ | ⟨p, hp, hv, g, ha, rfl⟩
    · rcases h₂.outS_cases with
        ⟨_, _, _, _, _, _, _, _, _, rfl⟩ | ⟨p', hp', hv', g', ha', rfl⟩
      · rfl
      · exact absurd (outS_inj (start_add_lt h he hi).2 (destOf_mem h hp' hv').2.2.2 hb
          (Nat.mod_lt _ (by decide)) (ha.symm.trans ha')).1 (hclash he hi hc hp' hv')
    · rcases h₂.outS_cases with
        ⟨e', he', i', hi', hc', pk', b', hb', ha', rfl⟩ | ⟨p', hp', hv', g', ha', rfl⟩
      · exact absurd (outS_inj (start_add_lt h he' hi').2 (destOf_mem h hp hv).2.2.2 hb'
          (Nat.mod_lt _ (by decide)) (ha'.symm.trans ha)).1 (hclash he' hi' hc' hp hv)
      · obtain ⟨hd, hpk, hb⟩ := outS_inj (destOf_mem h hp hv).2.2.2 (destOf_mem h hp' hv').2.2.2
          (Nat.mod_lt _ (by decide)) (Nat.mod_lt _ (by decide)) (ha.symm.trans ha')
        have hpp := destOf_inj h hp hp' hv hv' hd
        have hgg : g = g' := by omega
        rw [hpp, hgg]
  | outQ a =>
    generalize hl : Loc.outQ a = l at h₁
    cases h₁ with
    | @quant p k hp hv hk =>
      injection hl with hl
      generalize hl' : Loc.outQ a = l at h₂
      cases h₂ with
      | @quant p' k' hp' hv' hk' =>
        injection hl' with hl'
        have heq : k + L.K * destOf L p = k' + L.K * destOf L p' := by
          rw [Nat.mul_comm L.K, Nat.mul_comm L.K]
          omega
        have hdiv := congrArg (· / L.K) heq
        have hmod := congrArg (· % L.K) heq
        simp only [Nat.add_mul_div_left _ _ (by omega : 0 < L.K), Nat.div_eq_of_lt hk,
          Nat.div_eq_of_lt hk', Nat.zero_add, Nat.add_mul_mod_self_left, Nat.mod_eq_of_lt hk,
          Nat.mod_eq_of_lt hk'] at hdiv hmod
        rw [destOf_inj h hp hp' hv hv' hdiv, hmod]
      | _ => cases hl'
    | _ => cases hl

/-! ### Nothing is left out -/

/-- The stores of a pair's row that follow its tail. -/
theorem mem_layoutStores_of_valid {p tid : ℕ} (hv : L.Valid (L.ids p)) {x : Loc × ℤ}
    (hx : x ∈ (if tid = 0 then [(Loc.invPerm p, (destOf L p : ℤ))] else []) ++
      (if rankOf L p = 0 then
        (strided tid 512 (aligned L (L.ids p).toNat)).flatMap
          (regionRow L (start L (L.ids p).toNat) (countOf L (L.ids p).toNat) (L.ids p))
      else []) ++ rowStores L p tid (destOf L p)) : x ∈ layoutStores L p tid := by
  refine List.mem_append_right _ ?_
  rw [if_pos hv]
  exact hx

/-- The rows of a region are stored by the pair of rank `0` of its expert. -/
theorem mem_of_regionRow {e i : ℕ} (he : e < L.E) (halign : 1 ≤ L.align) (hi : i < aligned L e)
    {x : Loc × ℤ} (hx : x ∈ regionRow L (start L e) (countOf L e) e i) :
    ∃ p < L.P, ∃ tid < 512, x ∈ layoutStores L p tid := by
  have hpos : 0 < countOf L e := by
    by_contra h0
    have hzero : countOf L e = 0 := by omega
    rw [aligned, hzero, roundUp_zero halign] at hi
    omega
  obtain ⟨p, hp, hids, hrank⟩ := exists_rank_zero hpos
  have hv : L.Valid (L.ids p) := hids ▸ ⟨Int.natCast_nonneg e, Int.ofNat_lt.mpr he⟩
  have htoNat : (L.ids p).toNat = e := by omega
  refine ⟨p, hp, i % 512, Nat.mod_lt _ (by decide), mem_layoutStores_of_valid hv ?_⟩
  refine List.mem_append_left _ (List.mem_append_right _ ?_)
  rw [if_pos hrank, htoNat, hids]
  refine List.mem_flatMap.mpr ⟨i, (mem_strided (by decide)).mpr ⟨hi, i / 512, ?_⟩, hx⟩
  omega

include h in
/-- Every value of the layout is stored by some thread. -/
theorem Stored.exists_mem {l : Loc} {v : ℤ} (hst : Stored L l v) :
    ∃ p < L.P, ∃ tid < 512, (l, v) ∈ layoutStores L p tid := by
  have hpos : 0 < L.P := h.pairs.1
  cases hst with
  | @tail r hr hlt =>
    -- row `r` is the turn of block `r / 512 % P` and of thread `r % 512`
    have hmod : (r - start L L.E) / 512 % L.P < L.P := Nat.mod_lt _ hpos
    refine ⟨(r - start L L.E) / 512 % L.P, hmod, (r - start L L.E) % 512,
      Nat.mod_lt _ (by decide), List.mem_append_left _ ?_⟩
    refine List.mem_map.mpr ⟨r, (mem_strided (by omega)).mpr
      ⟨hlt, (r - start L L.E) / 512 / L.P, ?_⟩, rfl⟩
    have h₁ := Nat.div_add_mod (r - start L L.E) 512
    have h₂ := Nat.div_add_mod ((r - start L L.E) / 512) L.P
    have h₃ : (r - start L L.E) / 512 / L.P * (L.P * 512) =
        512 * (L.P * ((r - start L L.E) / 512 / L.P)) := by
      rw [Nat.mul_comm L.P 512, Nat.mul_left_comm, Nat.mul_comm L.P]
    omega
  | @dest p hp hv =>
    refine ⟨p, hp, 0, by decide, mem_layoutStores_of_valid hv ?_⟩
    exact List.mem_append_left _ (List.mem_append_left _ (by simp))
  | @real e i he hi =>
    refine mem_of_regionRow he h.align (hi.trans_le (le_roundUp h.align)) ?_
    rw [regionRow, if_pos hi]
    exact List.mem_singleton_self _
  | @pad e i he hi hlt =>
    refine mem_of_regionRow he h.align hlt ?_
    rw [regionRow, if_neg (not_lt.mpr hi)]
    exact List.mem_cons_self
  | @padScale e i pk b he hi hlt hpk hb =>
    refine mem_of_regionRow he h.align hlt ?_
    rw [regionRow, if_neg (not_lt.mpr hi)]
    exact List.mem_cons_of_mem _ (List.mem_flatMap.mpr ⟨pk, List.mem_range.mpr hpk,
      List.mem_map.mpr ⟨b, List.mem_range.mpr hb, rfl⟩⟩)
  | @scale p g hp hv hg =>
    have hK : L.K / 128 ≤ 64 := by
      have := h.groups.2.2
      omega
    have hpad : L.sfKPad ≤ 64 := by
      have h₁ : L.sfK ≤ 64 := hK
      rw [Launch.sfKPad, roundUp]
      omega
    -- warp `g / 4` has four groups, each of eight lanes; the first lane stores the scale
    have hg₁ : (g / 4 * 32 + g % 4 * 8) / 32 * 4 + (g / 4 * 32 + g % 4 * 8) % 32 / 8 = g := by
      omega
    have hg₂ : (g / 4 * 32 + g % 4 * 8) % 32 % 8 = 0 := by omega
    refine ⟨p, hp, g / 4 * 32 + g % 4 * 8, by omega, mem_layoutStores_of_valid hv ?_⟩
    refine List.mem_append_right _ (List.mem_append_left _ ?_)
    rw [hg₁, hg₂, if_pos ⟨hg, rfl⟩]
    exact List.mem_singleton_self _
  | @quant p k hp hv hk =>
    have hKdvd := h.groups.1
    have hKle := h.groups.2.2
    have hg : k / 128 < L.sfK := by
      rw [Launch.sfK]
      omega
    have hg₁ : (k / 128 / 4 * 32 + (k / 128 % 4 * 8 + k % 128 / 16)) / 32 * 4 +
        (k / 128 / 4 * 32 + (k / 128 % 4 * 8 + k % 128 / 16)) % 32 / 8 = k / 128 := by
      omega
    have hg₂ : (k / 128 / 4 * 32 + (k / 128 % 4 * 8 + k % 128 / 16)) % 32 % 8 = k % 128 / 16 := by
      omega
    -- a lane stores 16 columns of its group
    have hk₁ : k / 128 * 128 + k % 128 / 16 * 16 + k % 16 = k := by omega
    refine ⟨p, hp, k / 128 / 4 * 32 + (k / 128 % 4 * 8 + k % 128 / 16), by omega,
      mem_layoutStores_of_valid hv ?_⟩
    refine List.mem_append_right _ (List.mem_append_right _ ?_)
    rw [hg₁, hg₂, if_pos hg]
    refine List.mem_map.mpr ⟨k % 16, List.mem_range.mpr (Nat.mod_lt _ (by decide)), ?_⟩
    rw [hk₁, show destOf L p * L.K + k / 128 * 128 + k % 128 / 16 * 16 + k % 16 =
      destOf L p * L.K + k by omega]

/-! ### The launch -/

include h in
/-- Whatever order the stores are made in, the outputs have the values of the layout. -/
theorem stores_of_stored (count : ℕ → Counting) {l : List (Loc × ℤ)}
    (hl : l.Perm (launchStores L count)) (mem : Loc → ℤ) {x : Loc} {v : ℤ}
    (hst : Stored L x v) : stores l mem x = v := by
  have hmem : ∀ y : Loc × ℤ, y ∈ l ↔ ∃ p < L.P, ∃ tid < 512, y ∈ layoutStores L p tid := by
    intro y
    rw [hl.mem_iff, launchStores]
    simp only [List.mem_flatMap, List.mem_range]
    constructor
    · rintro ⟨p, hp, tid, htid, hy⟩
      exact ⟨p, hp, tid, htid, threadStores_eq h (count p) hp tid ▸ hy⟩
    · rintro ⟨p, hp, tid, htid, hy⟩
      exact ⟨p, hp, tid, htid, (threadStores_eq h (count p) hp tid).symm ▸ hy⟩
  refine stores_of_mem ((hmem _).mpr (hst.exists_mem h)) fun y hy hyx => ?_
  obtain ⟨p, hp, tid, htid, hy⟩ := (hmem y).mp hy
  have hy' := stored_of_mem hp htid hy
  rw [hyx] at hy'
  exact hy'.unique h hst

/-- **The layout of a launch**, on both counting paths and for every order of the stores. -/
theorem launch_layout (L : Launch) (h : HostChecks L) (count : ℕ → Counting)
    (l : List (Loc × ℤ)) (hl : l.Perm (launchStores L count)) (mem : Loc → ℤ) :
    (∀ c c' p tid, p < L.P → threadStores L c p tid = threadStores L c' p tid) ∧
    (∀ e, L.align ∣ start L e ∧ start L (e + 1) = start L e + aligned L e ∧
      countOf L e ≤ aligned L e) ∧
    (∀ r < start L L.E, ∃ e < L.E, start L e ≤ r ∧ r < start L (e + 1)) ∧
    (∀ p < L.P, L.Valid (L.ids p) →
      stores l mem (.invPerm p) = (destOf L p : ℤ) ∧
      destOf L p = start L (L.ids p).toNat + rankOf L p ∧
      rankOf L p < countOf L (L.ids p).toNat ∧
      (∀ q < L.P, L.Valid (L.ids q) → destOf L p = destOf L q → p = q) ∧
      (∀ g < L.sfKPad, stores l mem (.outS ((destOf L p + g / 4 * L.mSum) * 4 + g % 4)) =
        if g < L.sfK then L.scale (p / L.topk) g else 0) ∧
      ∀ k < L.K, stores l mem (.outQ (destOf L p * L.K + k)) = L.quant (p / L.topk) k) ∧
    (∀ e < L.E, ∀ i < aligned L e,
      (stores l mem (.mIndices (start L e + i)) = if i < countOf L e then (e : ℤ) else -1) ∧
      (countOf L e ≤ i → ∀ pk < L.sfKPad / 4, ∀ b < 4,
        stores l mem (.outS ((start L e + i + pk * L.mSum) * 4 + b)) = 0)) ∧
    ∀ r, start L L.E ≤ r → r < L.mSum → stores l mem (.mIndices r) = -1 := by
  have hst := fun {x v} => stores_of_stored h count hl mem (x := x) (v := v)
  refine ⟨fun c c' p tid hp => ?_, fun e => ⟨align_dvd_start e, start_succ e,
    le_roundUp h.align⟩, fun r hr => exists_region hr, fun p hp hv => ⟨hst (.dest hp hv), rfl,
    rankOf_lt hp hv, fun q hq hvq he => destOf_inj h hp hq hv hvq he,
    fun g hg => hst (.scale hp hv hg), fun k hk => hst (.quant hp hv hk)⟩,
    fun e he i hi => ⟨?_, fun hc pk hpk b hb => hst (.padScale he hc hi hpk hb)⟩,
    fun r hr hlt => hst (.tail hr hlt)⟩
  · rw [threadStores_eq h c hp, threadStores_eq h c' hp]
  · by_cases hc : i < countOf L e
    · rw [if_pos hc]
      exact hst (.real he hc)
    · rw [if_neg hc]
      exact hst (.pad he (not_lt.mp hc) hi)

/-- Three pairs over two experts, one of them of no expert. -/
def smallLaunch : Launch where
  topk := 1
  P := 3
  E := 2
  align := 2
  mSum := 4
  K := 128
  ids p := if p = 1 then -1 else 1
  quant t k := t + k
  scale t g := t + g

theorem launch_layout_small :
    stores (launchStores smallLaunch fun _ => .direct fun _ => 0) (fun _ => 7) (.invPerm 2) = 1 := by
  have hchecks : HostChecks smallLaunch :=
    ⟨by decide, by decide, by decide, by decide, by decide⟩
  have hlaunch := launch_layout smallLaunch hchecks (fun _ => .direct fun _ => 0) _
    (List.Perm.refl _) fun _ => 7
  have hdest : destOf smallLaunch 2 = 1 := by decide
  have hrow := (hlaunch.2.2.2.1 2 (by decide) (by decide)).1
  rwa [hdest] at hrow

end MoeScatter

end VllmMoet
