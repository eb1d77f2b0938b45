import VllmMoet.Exl3.GraphGroups

/-!
# The two builders agree

Both builders return groups of the padded union, so the graph builder's first groups are the
host's and the others are past its end (`buildM8GroupsGraph_refines`). What a row of such a
group holds says which pair it serves: every pair of a token and an expert it names has one row.
-/

namespace VllmMoet

namespace Exl3

variable {W F H : Type} [AddCommMonoid W] [Zero F] [Zero H] (x : TopkStep W)
variable (single : ZeroHom W F) (half : ZeroHom F H) {cap rows : ℕ}

/-! ### Rows of a group -/

theorem token_specGroup {g s r : ℕ} (hs : s < cap) (hr : r < rows) :
    (specGroup x single half cap rows g).token s r = some (slotToken x (g * cap + s) r) := by
  simp [M8Group.token, specGroup, groupAt, hs, hr]

theorem token_specGroup_eq_some {g s r : ℕ} {t : ℤ}
    (h : (specGroup x single half cap rows g).token s r = some t) : s < cap ∧ r < rows := by
  rcases Nat.lt_or_ge s cap with hs | hs
  · rcases Nat.lt_or_ge r rows with hr | hr
    · exact ⟨hs, hr⟩
    · simp [M8Group.token, specGroup, groupAt, hs, hr] at h
  · simp [M8Group.token, specGroup, groupAt, hs] at h

/-- A row that holds a token is a row of an expert that the token names. -/
theorem slotToken_eq_iff {u r t : ℕ} :
    slotToken x u r = (t : ℤ) ↔ ∃ e, (union x)[u]? = some e ∧ (tokensOf x e)[r]? = some t := by
  rw [slotToken]
  cases (union x)[u]? with
  | none =>
    simp only [Option.bind_none, Option.elim_none]
    constructor
    · intro h
      omega
    · rintro ⟨e, he, _⟩
      exact absurd he.symm (Option.some_ne_none e)
  | some e =>
    simp only [Option.bind_some, Option.some_inj, exists_eq_left']
    cases (tokensOf x e)[r]? with
    | none =>
      simp only [Option.elim_none]
      constructor
      · intro h
        omega
      · intro h
        exact absurd h.symm (Option.some_ne_none t)
    | some t' => simp only [Option.elim_some, Nat.cast_inj, Option.some_inj]

theorem slotExpert_of_getElem? {u e : ℕ} (h : (union x)[u]? = some e) :
    slotExpert x cap u = e := by
  rw [slotExpert, h, Option.getD_some]

theorem slotExpert_mem (hN : 0 < x.T * x.k) (u : ℕ) : slotExpert x cap u ∈ named x := by
  have hmem : ∀ {u e : ℕ}, (union x)[u]? = some e → e ∈ named x := fun h =>
    (mem_named x).mpr ((mem_union x).mp (List.mem_of_getElem? h))
  have hpos : 0 < (union x).length := by
    rw [length_union]
    exact Finset.card_pos.mpr ⟨_, flat_mem x hN⟩
  rw [slotExpert]
  cases h₁ : (union x)[u]? with
  | some e => exact hmem h₁
  | none =>
    cases h₂ : (union x)[u / cap * cap]? with
    | some e => exact hmem h₂
    | none =>
      rw [Option.getD_none, Option.getD_none, List.getElem?_eq_getElem hpos]
      exact hmem (List.getElem?_eq_getElem hpos)

/-- A group past the end of the union is empty. -/
theorem specGroup_empty {g : ℕ} (hg : (union x).length ≤ g * cap) :
    (specGroup x single half cap rows g).Empty := by
  have hnone : ∀ s, (union x)[g * cap + s]? = none := fun s =>
    List.getElem?_eq_none (by omega)
  constructor
  · intro row hrow t ht
    obtain ⟨s, _, rfl⟩ := List.mem_map.mp hrow
    obtain ⟨r, _, rfl⟩ := List.mem_map.mp ht
    rw [slotToken, hnone s]
    rfl
  · intro row hrow w hw
    obtain ⟨s, _, rfl⟩ := List.mem_map.mp hrow
    obtain ⟨r, _, rfl⟩ := List.mem_map.mp hw
    have hzero : slotWeight x single (g * cap + s) r = 0 := by
      rw [slotWeight, hnone s]
      rfl
    exact (congrArg half hzero).trans (map_zero half)

/-- A row map is the tokens of an expert in order, or nothing, and then `-1`. -/
theorem rowMap_specGroup (hrows : x.T ≤ rows) {g : ℕ} {row : List ℤ}
    (h : row ∈ (specGroup x single half cap rows g).rowMap) :
    ∃ ts : List ℕ, ts.Pairwise (· < ·) ∧ ts.length ≤ rows ∧
      row = ts.map Int.ofNat ++ List.replicate (rows - ts.length) (-1) := by
  obtain ⟨s, _, rfl⟩ := List.mem_map.mp h
  have key : ∀ ts : List ℕ, ts.length ≤ rows →
      (∀ r, slotToken x (g * cap + s) r = (ts[r]?).elim (-1) fun t => (t : ℤ)) →
      (List.range rows).map (slotToken x (g * cap + s)) =
        ts.map Int.ofNat ++ List.replicate (rows - ts.length) (-1) := by
    intro ts hlen hts
    refine List.ext_getElem (by simp; omega) fun r hr _ => ?_
    rw [List.getElem_map, List.getElem_range, hts]
    rcases Nat.lt_or_ge r ts.length with hlt | hge
    · rw [List.getElem?_eq_getElem hlt, List.getElem_append_left (by simpa using hlt),
        List.getElem_map]
      rfl
    · rw [List.getElem?_eq_none hge, List.getElem_append_right (by simpa using hge),
        List.getElem_replicate]
      rfl
  cases hs : (union x)[g * cap + s]? with
  | none =>
    refine ⟨[], List.Pairwise.nil, Nat.zero_le _, key [] (Nat.zero_le _) fun r => ?_⟩
    rw [slotToken, hs]
    rfl
  | some e =>
    have hlen : (tokensOf x e).length ≤ rows :=
      (List.length_filter_le _ _).trans (by simpa using hrows)
    refine ⟨tokensOf x e, tokensOf_pairwise x e, hlen, key _ hlen fun r => ?_⟩
    rw [slotToken, hs]
    rfl

/-! ### Pairs and rows -/

/-- The groups of the padded union. -/
def specGroups (cap rows G : ℕ) : List (M8Group H) :=
  (List.range G).map (specGroup x single half cap rows)

/-- What serves a pair: the row of the token in the place of the expert. -/
theorem serves_specGroups {G i s r e t : ℕ} :
    Serves (specGroups x single half cap rows G) i s r e t ↔
      i < G ∧ s < cap ∧ r < rows ∧ (union x)[i * cap + s]? = some e ∧
        (tokensOf x e)[r]? = some t := by
  have hget : ∀ g : M8Group H, (specGroups x single half cap rows G)[i]? = some g ↔
      i < G ∧ specGroup x single half cap rows i = g := by
    intro g
    rw [specGroups, List.getElem?_map]
    rcases Nat.lt_or_ge i G with hi | hi
    · simp [hi]
    · simp [not_lt.mpr hi]
  constructor
  · rintro ⟨g, hg, hexp, htok⟩
    obtain ⟨hi, rfl⟩ := (hget g).mp hg
    obtain ⟨hs, hr⟩ := token_specGroup_eq_some x single half htok
    rw [token_specGroup x single half hs hr, Option.some_inj] at htok
    obtain ⟨e', he', ht⟩ := (slotToken_eq_iff x).mp htok
    have hexp' : slotExpert x cap (i * cap + s) = e := by
      simpa [specGroup, groupAt, hs] using hexp
    rw [slotExpert_of_getElem? x he'] at hexp'
    subst hexp'
    exact ⟨hi, hs, hr, he', ht⟩
  · rintro ⟨hi, hs, hr, he, ht⟩
    refine ⟨_, (hget _).mpr ⟨hi, rfl⟩, ?_, ?_⟩
    · have h : slotExpert x cap (i * cap + s) = e := slotExpert_of_getElem? x he
      simp [specGroup, groupAt, hs, h]
    · rw [token_specGroup x single half hs hr, (slotToken_eq_iff x).mpr ⟨e, he, ht⟩]

/-- Every pair of a token and an expert it names has one row. -/
theorem existsUnique_serves {G e t : ℕ} (hrows : x.T ≤ rows) (hcap : 0 < cap)
    (hG : (union x).length ≤ G * cap) (ht : t < x.T) (hr : routed x e t) :
    ∃ p : ℕ × ℕ × ℕ, Serves (specGroups x single half cap rows G) p.1 p.2.1 p.2.2 e t ∧
      ∀ q : ℕ × ℕ × ℕ, Serves (specGroups x single half cap rows G) q.1 q.2.1 q.2.2 e t → q = p := by
  obtain ⟨u, hu⟩ := List.mem_iff_getElem?.mp ((mem_union x).mpr ⟨t, ht, hr⟩)
  obtain ⟨r, hrt⟩ := List.mem_iff_getElem?.mp ((mem_tokensOf x).mpr ⟨ht, hr⟩)
  obtain ⟨hulen, _⟩ := List.getElem?_eq_some_iff.mp hu
  obtain ⟨hrlen, _⟩ := List.getElem?_eq_some_iff.mp hrt
  have hle : (tokensOf x e).length ≤ rows :=
    (List.length_filter_le _ _).trans (by simpa using hrows)
  have hdm : u / cap * cap + u % cap = u := Nat.div_add_mod' u cap
  have hrlt : r < rows := by omega
  refine ⟨(u / cap, u % cap, r), (serves_specGroups x single half).mpr
    ⟨?_, Nat.mod_lt _ hcap, hrlt, by rw [hdm, hu], hrt⟩, ?_⟩
  · exact (Nat.div_lt_iff_lt_mul hcap).mpr (hulen.trans_le hG)
  · rintro ⟨i, s, r'⟩ hq
    obtain ⟨_, hs, _, hu', hrt'⟩ := (serves_specGroups x single half).mp hq
    simp only at hs hu' hrt'
    have hueq : i * cap + s = u :=
      ((List.getElem?_inj hulen ((union_pairwise x).imp ne_of_lt)).mp (hu.trans hu'.symm)).symm
    have hreq : r' = r :=
      ((List.getElem?_inj hrlen ((tokensOf_pairwise x e).imp ne_of_lt)).mp
        (hrt.trans hrt'.symm)).symm
    rw [← hueq, hreq, Nat.mul_comm, Nat.mul_add_div hcap, Nat.div_eq_of_lt hs, Nat.mul_add_mod,
      Nat.mod_eq_of_lt hs, Nat.add_zero]

/-- A row that serves a pair has the weight the token gives the expert, and is a pair of the
step. -/
theorem weight_of_serves {G i s r e t : ℕ}
    (h : Serves (specGroups x single half cap rows G) i s r e t) :
    t < x.T ∧ routed x e t ∧ ∀ g, (specGroups x single half cap rows G)[i]? = some g →
      g.weight s r = some (half (single (weightOf x e t))) := by
  obtain ⟨hi, hs, hr, he, ht⟩ := (serves_specGroups x single half).mp h
  obtain ⟨htT, hrt⟩ := (mem_tokensOf x).mp (List.mem_of_getElem? ht)
  refine ⟨htT, hrt, fun g hg => ?_⟩
  have hg' : specGroup x single half cap rows i = g := by
    simpa [specGroups, hi] using hg
  have hw : slotWeight x single (i * cap + s) r = single (weightOf x e t) := by
    rw [slotWeight, he, Option.bind_some, ht]
    rfl
  rw [← hg']
  simp [M8Group.weight, specGroup, groupAt, hs, hr, hw]

/-! ### The comparison -/

/-- **The graph builder refines the host builder.** On a step with tokens, and with enough groups
for its experts, the groups of the host come first and only empty ones follow; every pair has one
row, with the sum of its weights, and rows are packed in the order of the tokens. -/
theorem buildM8GroupsGraph_refines (o : Scatters) {G : ℕ} (hT : 0 < x.T) (hk : 0 < x.k)
    (hrows : x.T ≤ rows) (hcap : 0 < cap) (hG : (named x).card ⌈/⌉ cap ≤ G) :
    ∃ host surplus : List (M8Group H),
      buildM8Groups single half x cap rows = some host ∧
      buildM8GroupsGraph x o single half cap rows G = some (host ++ surplus) ∧
      host.length = (named x).card ⌈/⌉ cap ∧ (host ++ surplus).length = G ∧
      (∀ g ∈ surplus, g.Empty ∧ ∀ e ∈ g.experts, e ∈ named x) ∧
      (∀ t < x.T, ∀ e, routed x e t → ∃ p : ℕ × ℕ × ℕ,
        Serves (host ++ surplus) p.1 p.2.1 p.2.2 e t ∧
          ∀ q : ℕ × ℕ × ℕ, Serves (host ++ surplus) q.1 q.2.1 q.2.2 e t → q = p) ∧
      (∀ i s r e t, Serves (host ++ surplus) i s r e t → t < x.T ∧ routed x e t ∧
        ∀ g, (host ++ surplus)[i]? = some g →
          g.weight s r = some (half (single (weightOf x e t)))) ∧
      ∀ g ∈ host ++ surplus, ∀ row ∈ g.rowMap, ∃ ts : List ℕ,
        ts.Pairwise (· < ·) ∧ ts.length ≤ rows ∧
          row = ts.map Int.ofNat ++ List.replicate (rows - ts.length) (-1) := by
  have hN : 0 < x.T * x.k := Nat.mul_pos hT hk
  have hlen : (union x).length ≤ G * cap := by
    rw [length_union, Nat.mul_comm]
    exact (ceilDiv_le_iff_le_mul hcap).mp hG
  -- the groups of the host, and the ones after the last expert
  have hsplit : specGroups x single half cap rows G =
      (List.range ((named x).card ⌈/⌉ cap)).map (specGroup x single half cap rows) ++
        (List.range' ((named x).card ⌈/⌉ cap) (G - (named x).card ⌈/⌉ cap)).map
          (specGroup x single half cap rows) := by
    have happ := List.range'_append_1 (s := 0) (m := (named x).card ⌈/⌉ cap)
      (n := G - (named x).card ⌈/⌉ cap)
    rw [Nat.zero_add, Nat.add_sub_cancel' hG] at happ
    rw [specGroups, ← List.map_append, List.range_eq_range', List.range_eq_range', happ]
  refine ⟨(List.range ((named x).card ⌈/⌉ cap)).map (specGroup x single half cap rows),
    (List.range' ((named x).card ⌈/⌉ cap) (G - (named x).card ⌈/⌉ cap)).map
      (specGroup x single half cap rows), ?_, ?_, ?_, ?_, ?_, ?_⟩
  · rw [buildM8Groups_eq x single half hrows hcap, length_union]
  · rw [buildM8GroupsGraph_eq x o single half hN hrows hlen, ← specGroups, hsplit]
  · simp
  · rw [← hsplit]
    simp [specGroups]
  · intro g hg
    obtain ⟨i, hi, rfl⟩ := List.mem_map.mp hg
    have hi := (List.mem_range'_1.mp hi).1
    refine ⟨specGroup_empty x single half ?_, fun e he => ?_⟩
    · rw [length_union, Nat.mul_comm]
      exact (ceilDiv_le_iff_le_mul hcap).mp hi
    · obtain ⟨s, _, rfl⟩ := List.mem_map.mp he
      exact slotExpert_mem x hN _
  · rw [← hsplit]
    refine ⟨fun t ht e hr => existsUnique_serves x single half hrows hcap hlen ht hr,
      fun i s r e t h => weight_of_serves x single half h, fun g hg row hrow => ?_⟩
    obtain ⟨i, _, rfl⟩ := List.mem_map.mp hg
    exact rowMap_specGroup x single half hrows hrow

/-- A step of two tokens that share an expert, one of which names it twice. -/
def smallStep : TopkStep ℤ where
  T := 2
  k := 2
  ids t j := if t = 0 ∧ j = 0 then 5 else 9
  wts t j := 10 * t + j + 1

/-- Every scatter of the graph builder in ascending order. -/
def ascendingScatters : Scatters :=
  ⟨.ascending, .ascending, .ascending, .ascending, fun _ => .ascending, fun _ => .ascending⟩

theorem buildM8GroupsGraph_refines_small :
    ∃ host surplus : List (M8Group ℤ),
      buildM8Groups (.id ℤ) (.id ℤ) smallStep 6 8 = some host ∧
      buildM8GroupsGraph smallStep ascendingScatters (.id ℤ) (.id ℤ) 6 8 2 =
        some (host ++ surplus) ∧ host.length = 1 := by
  obtain ⟨host, surplus, h₁, h₂, h₃, _⟩ := buildM8GroupsGraph_refines smallStep (.id ℤ) (.id ℤ)
    ascendingScatters (by decide) (by decide) (by decide : smallStep.T ≤ 8)
    (by decide : 0 < 6) (by decide : (named smallStep).card ⌈/⌉ 6 ≤ 2)
  exact ⟨host, surplus, h₁, h₂, h₃.trans (by decide)⟩

/-- A step without tokens. -/
def emptyStep : TopkStep ℤ where
  T := 0
  k := 6
  ids _ _ := 0
  wts _ _ := 0

/-- On a step without tokens the host returns no group, and the graph builder, which reads the
last rank, fails. -/
theorem buildM8GroupsGraph_empty_step :
    buildM8Groups (.id ℤ) (.id ℤ) emptyStep 6 8 = some ([] : List (M8Group ℤ)) ∧
      (named emptyStep).card ⌈/⌉ 6 ≤ 1 ∧
      buildM8GroupsGraph emptyStep ascendingScatters (.id ℤ) (.id ℤ) 6 8 1 =
        (none : Option (List (M8Group ℤ))) := by
  decide

end Exl3

end VllmMoet
