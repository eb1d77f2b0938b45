import VllmMoet.CpuTier.Arena

/-!
# The groups of a request

What the grouping section of `serve` leaves in the frame: the positions `0 .. n` of the pairs
in expert order are cut into one range for every group (`off`, `m_per`), every position knows
its pair (`orow`, `tok`, `pw`), and every group is either resident, with its record's address
and its slot pinned, or cold. The arguments `forward_subset` copies out are then the pairs of
the groups it is given, and the one call for all groups is `forward_subset` of all of them.
-/

namespace VllmMoet

namespace CpuTier

variable {T T' : Tier} {F F' : Frame} {L : Layer} {is js : List ℕ} {e i k l s x : ℕ}

/-! ### The pairs of a kernel call -/

/-- One pair handed to the kernel: the record, the token, the weight and the row. -/
structure KernelPair where
  record : Option ℕ
  tok : ℕ
  pw : ℕ
  orow : ℕ

/-- The pairs of a kernel call: `m_per_expert[g]` pairs with record `g`, one group after the
other, with their tokens, weights and rows. -/
def KernelCall.pairs (c : KernelCall) : List KernelPair :=
  (((c.records.zip c.mPer).flatMap fun rm => List.replicate rm.2 rm.1).zip
    (c.tok.zip (c.pw.zip c.orow))).map fun q => ⟨q.1, q.2.1, q.2.2.1, q.2.2.2⟩

/-- The positions of group `x`. -/
def Frame.group (F : Frame) (x : ℕ) : List ℕ := List.range' (F.off x) (F.mPer x)

/-- The pair at position `k`, with the record of group `x`. -/
def Frame.kernelPair (F : Frame) (x k : ℕ) : KernelPair := ⟨F.recs x, F.tok k, F.pw k, F.orow k⟩

theorem zip_replicate_map {α β γ : Type} (a : α) (f : β → γ) (xs : List β) :
    (List.replicate xs.length a).zip (xs.map f) = xs.map fun b => (a, f b) := by
  induction xs with
  | nil => rfl
  | cons x xs ih =>
    rw [List.length_cons, List.replicate_succ, List.map_cons, List.zip_cons_cons, ih, List.map_cons]

/-- Four arrays that are cut at the same places pair up group by group. -/
theorem zip_groups (F : Frame) (idx : List ℕ) :
    ((idx.flatMap fun x => List.replicate (F.group x).length (F.recs x)).zip
      ((idx.flatMap fun x => (F.group x).map F.tok).zip
        ((idx.flatMap fun x => (F.group x).map F.pw).zip
          (idx.flatMap fun x => (F.group x).map F.orow)))).map
      (fun q => (⟨q.1, q.2.1, q.2.2.1, q.2.2.2⟩ : KernelPair)) =
    idx.flatMap fun x => (F.group x).map (F.kernelPair x) := by
  induction idx with
  | nil => rfl
  | cons x idx ih =>
    simp only [List.flatMap_cons]
    rw [List.zip_append (by simp), List.zip_append (by simp), List.zip_append (by simp),
      List.map_append, ih, List.zip_map', List.zip_map', zip_replicate_map, List.map_map]
    rfl

/-- The copied-out arguments of the groups `idx` are the groups' pairs. -/
theorem pairs_subset (F : Frame) (idx : List ℕ) :
    (F.subset idx).pairs = idx.flatMap fun x => (F.group x).map (F.kernelPair x) := by
  have hat : ∀ a : ℕ → ℕ, (idx.flatMap fun x => (List.range (F.mPer x)).map fun j =>
      a (F.off x + j)) = idx.flatMap fun x => (F.group x).map a := by
    intro a
    refine List.flatMap_congr fun x _ => ?_
    rw [Frame.group, List.range'_eq_map_range, List.map_map]
    rfl
  have hrec : (((idx.map F.recs).zip (idx.map F.mPer)).flatMap fun rm =>
      List.replicate rm.2 rm.1) = idx.flatMap fun x =>
        List.replicate (F.group x).length (F.recs x) := by
    rw [List.zip_map', List.flatMap_map]
    exact List.flatMap_congr fun x _ => by rw [Frame.group, List.length_range']
  simp only [KernelCall.pairs, Frame.subset, hat, hrec]
  exact zip_groups F idx

/-- The rows of a call for the groups `idx`. -/
theorem orow_subset (F : Frame) (idx : List ℕ) :
    (F.subset idx).orow = idx.flatMap fun x => (F.group x).map F.orow := by
  refine List.flatMap_congr fun x _ => ?_
  rw [Frame.group, List.range'_eq_map_range, List.map_map]
  rfl

/-! ### The grouping -/

/-- The arrays by position when the pairs `is` have been grouped. -/
structure ArraysOk (F : Frame) (is : List ℕ) : Prop where
  orow : ∀ k (hk : k < is.length), F.orow k = is[k]
  tok : ∀ k < is.length, F.tok k = (F.req.pairs (F.orow k)).token
  pw : ∀ k < is.length, F.pw k = (F.req.pairs (F.orow k)).weight

/-- The frame when the pairs `is` have been grouped. -/
structure GroupsOk (F : Frame) (is : List ℕ) : Prop extends ArraysOk F is where
  cover : (List.range F.nExperts).flatMap F.group = List.range is.length
  expert : ∀ x < F.nExperts, ∀ k ∈ F.group x, (F.req.pairs (F.orow k)).expert = F.eid x
  split : (F.resIdx ++ F.coldIdx).Perm (List.range F.nExperts)
  last : ∀ e, F.lastE = some e → ∃ n, F.nExperts = n + 1 ∧ F.eid n = e ∧
    F.off n + F.mPer n = is.length

/-- The records the grouping looked up in layer `L`: a resident group has its record's address,
and its slot is pinned; the expert of a cold group can be fetched. -/
structure LookedUp (L : Layer) (F : Frame) : Prop where
  resident : ∀ x ∈ F.resIdx, ∃ p, F.recs x = some p ∧ L.records (F.eid x) = some p ∧
    ∀ s, L.slotOf (F.eid x) = some s → s ∈ F.pinned
  cold : ∀ x ∈ F.coldIdx, L.cold (F.eid x) = true

/-- A position of a group. -/
theorem GroupsOk.lt_of_mem (h : GroupsOk F is) (hx : x < F.nExperts) (hk : k ∈ F.group x) :
    k < is.length := by
  have : k ∈ (List.range F.nExperts).flatMap F.group :=
    List.mem_flatMap.mpr ⟨x, List.mem_range.mpr hx, hk⟩
  rw [h.cover] at this
  exact List.mem_range.mp this

/-- The rows of all groups are the pairs, each once. -/
theorem GroupsOk.rows (h : GroupsOk F is) :
    (List.range F.nExperts).flatMap (fun x => (F.group x).map F.orow) = is := by
  rw [← List.map_flatMap, h.cover]
  refine List.ext_getElem (by simp) fun k hk hk' => ?_
  simp only [List.getElem_map, List.getElem_range]
  exact h.orow k hk'

/-- The call for all groups is the call for the groups `0 .. n_experts`. -/
theorem GroupsOk.all_eq (h : GroupsOk F is) (hn : is.length = F.req.nPairs.toNat) :
    F.all = F.subset (List.range F.nExperts) := by
  have hat : ∀ a : ℕ → ℕ, (List.range F.req.nPairs.toNat).map a =
      (List.range F.nExperts).flatMap fun x => (List.range (F.mPer x)).map fun j =>
        a (F.off x + j) := by
    intro a
    rw [← hn, ← h.cover, List.map_flatMap]
    refine List.flatMap_congr fun x _ => ?_
    rw [Frame.group, List.range'_eq_map_range, List.map_map]
    rfl
  simp only [Frame.all, Frame.subset, hat]

/-- The frame without a group. -/
theorem groupsOk_entry {seq : ℕ} {req : Request} (layer : ℕ) :
    GroupsOk (Frame.entry layer seq req) [] where
  orow k hk := absurd hk (Nat.not_lt_zero k)
  tok k hk := absurd hk (Nat.not_lt_zero k)
  pw k hk := absurd hk (Nat.not_lt_zero k)
  cover := rfl
  expert x hx := absurd hx (Nat.not_lt_zero x)
  split := List.Perm.refl _
  last e he := by simp [Frame.entry] at he

theorem lt_length_concat (hk : k < (js ++ [i]).length) : k < js.length ∨ k = js.length := by
  rw [List.length_append, List.length_singleton] at hk
  omega

theorem orow_addPair_of_lt (F : Frame) (hk : k < js.length) :
    (F.addPair js.length i).orow k = F.orow k := by
  simp [Frame.addPair, hk.ne]

theorem orow_addPair_self (F : Frame) : (F.addPair k i).orow k = i := by simp [Frame.addPair]

/-- A pair is noted at its position. -/
theorem ArraysOk.addPair (h : ArraysOk F js) : ArraysOk (F.addPair js.length i) (js ++ [i]) := by
  refine ⟨fun k hk => ?_, fun k hk => ?_, fun k hk => ?_⟩
  · rcases lt_length_concat hk with hlt | rfl
    · rw [orow_addPair_of_lt F hlt, h.orow k hlt, List.getElem_append_left hlt]
    · rw [orow_addPair_self, List.getElem_concat_length]
      rfl
  · rcases lt_length_concat hk with hlt | rfl
    · rw [orow_addPair_of_lt F hlt]
      refine Eq.trans ?_ (h.tok k hlt)
      simp [Frame.addPair, hlt.ne]
    · rw [orow_addPair_self]
      simp [Frame.addPair]
  · rcases lt_length_concat hk with hlt | rfl
    · rw [orow_addPair_of_lt F hlt]
      refine Eq.trans ?_ (h.pw k hlt)
      simp [Frame.addPair, hlt.ne]
    · rw [orow_addPair_self]
      simp [Frame.addPair]

/-- A pair of the last group's expert joins the group. -/
theorem GroupsOk.addPair (h : GroupsOk F js) (he : F.lastE = some (F.req.pairs i).expert) :
    GroupsOk (F.addPair js.length i) (js ++ [i]) := by
  obtain ⟨n, hn, heid, hoff⟩ := h.last _ he
  have hn' : F.nExperts - 1 = n := by omega
  have hgroup : ∀ x, x ≠ n → (F.addPair js.length i).group x = F.group x := by
    intro x hx
    simp [Frame.group, Frame.addPair, hn', hx]
  have hlast : (F.addPair js.length i).group n = F.group n ++ [js.length] := by
    simp only [Frame.group, Frame.addPair, hn', Function.update_self]
    rw [List.range'_concat, Nat.one_mul, hoff]
  refine ⟨h.toArraysOk.addPair, ?_, fun x hx k hk => ?_, h.split, fun e' he' => ⟨n, hn, ?_, ?_⟩⟩
  · have hcover := h.cover
    rw [hn, List.range_succ, List.flatMap_append, List.flatMap_singleton] at hcover
    change (List.range F.nExperts).flatMap _ = _
    rw [hn, List.range_succ, List.flatMap_append, List.flatMap_singleton, hlast,
      List.flatMap_congr (g := F.group) fun x hx => hgroup x (List.mem_range.mp hx).ne,
      ← List.append_assoc, hcover, List.length_append, List.length_singleton, List.range_succ]
  · change x < F.nExperts at hx
    change (F.req.pairs ((F.addPair js.length i).orow k)).expert = F.eid x
    rcases eq_or_ne x n with rfl | hxn
    · rw [hlast, List.mem_append, List.mem_singleton] at hk
      rcases hk with hk | rfl
      · rw [orow_addPair_of_lt F (h.lt_of_mem hx hk)]
        exact h.expert x hx k hk
      · rw [orow_addPair_self]
        exact heid.symm
    · rw [hgroup x hxn] at hk
      rw [orow_addPair_of_lt F (h.lt_of_mem hx hk)]
      exact h.expert x hx k hk
  · exact heid.trans (Option.some.inj (he.symm.trans he'))
  · simp only [Frame.addPair, hn', Function.update_self, List.length_append, List.length_singleton]
    omega

/-- A new expert starts a group: the frame before its first pair is added. -/
def Frame.newGroup (F : Frame) (r : Option ℕ) (e k : ℕ) (res cold pinned : List ℕ) : Frame :=
  { F with lastE := some e, resIdx := res, coldIdx := cold, pinned := pinned }.addExpert r e k

/-- The first pair of an expert starts its group. -/
theorem GroupsOk.addGroup (h : GroupsOk F js) (r : Option ℕ) {res cold pinned : List ℕ}
    (hp : (res ++ cold).Perm (F.nExperts :: (F.resIdx ++ F.coldIdx))) :
    GroupsOk ((F.newGroup r (F.req.pairs i).expert js.length res cold pinned).addPair js.length i)
      (js ++ [i]) := by
  set F₁ := F.newGroup r (F.req.pairs i).expert js.length res cold pinned with hF₁
  have harrays : ArraysOk F₁ js := ⟨h.orow, h.tok, h.pw⟩
  have hgroup : ∀ x, x ≠ F.nExperts → (F₁.addPair js.length i).group x = F.group x := by
    intro x hx
    simp [Frame.group, Frame.addPair, hF₁, Frame.newGroup, Frame.addExpert, hx]
  have hlast : (F₁.addPair js.length i).group F.nExperts = [js.length] := by
    simp [Frame.group, Frame.addPair, hF₁, Frame.newGroup, Frame.addExpert]
  refine ⟨harrays.addPair, ?_, fun x hx k hk => ?_, ?_,
    fun e' he' => ⟨F.nExperts, rfl, ?_, ?_⟩⟩
  · change (List.range (F.nExperts + 1)).flatMap _ = _
    rw [List.range_succ, List.flatMap_append, List.flatMap_singleton, hlast,
      List.flatMap_congr (g := F.group) fun x hx => hgroup x (List.mem_range.mp hx).ne,
      h.cover, List.length_append, List.length_singleton, List.range_succ]
  · change x < F.nExperts + 1 at hx
    rcases eq_or_ne x F.nExperts with rfl | hxn
    · rw [hlast, List.mem_singleton] at hk
      rw [hk, orow_addPair_self]
      simp [Frame.addPair, hF₁, Frame.newGroup, Frame.addExpert]
    · rw [hgroup x hxn] at hk
      have hx' : x < F.nExperts := by omega
      rw [orow_addPair_of_lt F₁ (h.lt_of_mem hx' hk)]
      refine Eq.trans (h.expert x hx' k hk) ?_
      simp [Frame.addPair, hF₁, Frame.newGroup, Frame.addExpert, hxn]
  · change (res ++ cold).Perm (List.range (F.nExperts + 1))
    rw [List.range_succ]
    exact hp.trans ((h.split.cons _).trans (List.perm_append_singleton _ _).symm)
  · have : (F.req.pairs i).expert = e' := Option.some.inj he'
    simp [Frame.addPair, hF₁, Frame.newGroup, Frame.addExpert, this]
  · simp [Frame.addPair, hF₁, Frame.newGroup, Frame.addExpert]

/-! ### The grouping section -/

/-- The indices of every layer, and what no operation changes, agree. -/
structure SameIndex (T T' : Tier) : Prop where
  config : T'.config = T.config
  slotOf : ∀ l, (T'.layers l).slotOf = (T.layers l).slotOf
  records : ∀ l, (T'.layers l).records = (T.layers l).records

theorem SameIndex.refl (T : Tier) : SameIndex T T := ⟨rfl, fun _ => rfl, fun _ => rfl⟩

theorem SameIndex.trans {T₁ T₂ T₃ : Tier} (h : SameIndex T₁ T₂) (h' : SameIndex T₂ T₃) :
    SameIndex T₁ T₃ :=
  ⟨h'.config.trans h.config, fun l => (h'.slotOf l).trans (h.slotOf l),
    fun l => (h'.records l).trans (h.records l)⟩

/-- The experts that can be fetched are part of the configuration. -/
theorem cold_of_config (h : T'.config = T.config) (l : ℕ) :
    (T'.layers l).cold = (T.layers l).cold :=
  congrFun (congrArg Config.cold h) l

theorem LookedUp.of_sameIndex (h : LookedUp (T'.layers l) F) (hs : SameIndex T T') :
    LookedUp (T.layers l) F where
  resident x hx := by
    rw [← hs.records, ← hs.slotOf]
    exact h.resident x hx
  cold x hx := by
    rw [← cold_of_config hs.config]
    exact h.cold x hx

theorem LookedUp.to_sameIndex (h : LookedUp (T.layers l) F) (hs : SameIndex T T') :
    LookedUp (T'.layers l) F where
  resident x hx := by
    rw [hs.records, hs.slotOf]
    exact h.resident x hx
  cold x hx := by
    rw [cold_of_config hs.config]
    exact h.cold x hx

theorem LookedUp.addPair (h : LookedUp L F) : LookedUp L (F.addPair k i) :=
  ⟨h.resident, h.cold⟩

/-- Only the LRU order and the pins of the tier change. -/
theorem sameIndex_touch (T : Tier) (l s : ℕ) :
    SameIndex T (lruPushTail (lruUnlink (T.pinUp s) l s) l s) where
  config := by simp
  slotOf l' := by
    rcases eq_or_ne l' l with rfl | hne
    · simp [lruPushTail, lruUnlink, Tier.pinUp]
    · simp [lruPushTail, lruUnlink, Tier.pinUp, hne]
  records l' := by
    rcases eq_or_ne l' l with rfl | hne
    · simp [lruPushTail, lruUnlink, Tier.pinUp]
    · simp [lruPushTail, lruUnlink, Tier.pinUp, hne]

theorem sameIndex_groupExpert (T : Tier) (F : Frame) (e k : ℕ) :
    SameIndex T (groupExpert T F e k).1 := by
  simp only [groupExpert]
  split
  · split
    · exact SameIndex.refl T
    · exact SameIndex.refl T
  · split
    · exact SameIndex.refl T
    · exact sameIndex_touch T F.layer _

theorem sameIndex_groupPairs (is : List ℕ) (k : ℕ) (T : Tier) (F : Frame) :
    SameIndex T (groupPairs is k T F).1 := by
  induction is generalizing k T F with
  | nil => exact SameIndex.refl T
  | cons i is ih =>
    rw [groupPairs]
    set e := (F.req.pairs i).expert
    set TF := if F.lastE = some e then (T, F) else groupExpert T { F with lastE := some e } e k
      with hTF
    have h₁ : SameIndex T TF.1 := by
      rw [hTF]
      split
      · exact SameIndex.refl T
      · exact sameIndex_groupExpert T _ e k
    split
    · exact h₁
    · exact h₁.trans (ih _ _ _)

/-- A new group keeps what was looked up for the others. -/
theorem LookedUp.newGroup (h : LookedUp L F) (hlt : ∀ x ∈ F.resIdx ++ F.coldIdx, x < F.nExperts)
    (r : Option ℕ) (e k : ℕ) {res cold pinned : List ℕ}
    (hpin : ∀ s ∈ F.pinned, s ∈ pinned)
    (hres : ∀ x ∈ res, x ∈ F.resIdx ∨ (x = F.nExperts ∧ ∃ p, r = some p ∧ L.records e = some p ∧
      ∀ s, L.slotOf e = some s → s ∈ pinned))
    (hcold : ∀ x ∈ cold, x ∈ F.coldIdx ∨ (x = F.nExperts ∧ L.cold e = true)) :
    LookedUp L (F.newGroup r e k res cold pinned) := by
  have hne : ∀ x ∈ F.resIdx ++ F.coldIdx, x ≠ F.nExperts := fun x hx => (hlt x hx).ne
  refine ⟨fun x hx => ?_, fun x hx => ?_⟩
  · rcases hres x hx with hx | ⟨rfl, p, rfl, hp, hs⟩
    · obtain ⟨p, hr, hp, hs⟩ := h.resident x hx
      have hxn := hne x (List.mem_append_left _ hx)
      simp only [Frame.newGroup, Frame.addExpert, Function.update_of_ne hxn]
      exact ⟨p, hr, hp, fun s hslot => hpin s (hs s hslot)⟩
    · simp only [Frame.newGroup, Frame.addExpert, Function.update_self]
      exact ⟨p, rfl, hp, hs⟩
  · rcases hcold x hx with hx | ⟨rfl, hc⟩
    · have hxn := hne x (List.mem_append_right _ hx)
      simp only [Frame.newGroup, Frame.addExpert, Function.update_of_ne hxn]
      exact h.cold x hx
    · simp only [Frame.newGroup, Frame.addExpert, Function.update_self]
      exact hc

/-- Looking up an expert ends the grouping or starts the expert's group. -/
theorem newGroup_of_groupExpert (hon : T.tail.on = true) (h : LookedUp (T.layers F.layer) F)
    (hlt : ∀ x ∈ F.resIdx ++ F.coldIdx, x < F.nExperts) (e k : ℕ)
    (hst : (groupExpert T { F with lastE := some e } e k).2.status = 0) :
    ∃ r res cold pinned, (groupExpert T { F with lastE := some e } e k).2 =
        F.newGroup r e k res cold pinned ∧
      (res ++ cold).Perm (F.nExperts :: (F.resIdx ++ F.coldIdx)) ∧
      LookedUp (T.layers F.layer) (F.newGroup r e k res cold pinned) := by
  simp only [groupExpert] at hst ⊢
  split
  · next hrec =>
    rw [hrec] at hst
    simp only at hst
    split
    · next hcold =>
      refine ⟨none, F.resIdx, F.coldIdx ++ [F.nExperts], F.pinned, rfl, ?_, ?_⟩
      · rw [← List.append_assoc]
        exact List.perm_append_singleton _ _
      · refine h.newGroup hlt _ e k (fun _ => id) (fun x => .inl) fun x hx => ?_
        rcases List.mem_append.mp hx with hx | hx
        · exact .inl hx
        · exact .inr ⟨List.mem_singleton.mp hx, hcold.2.2⟩
    · next hcold =>
      rw [if_neg hcold] at hst
      simp at hst
  · next p hrec =>
    have hp : (T.layers F.layer).records e = some p := by
      split at hrec
      · exact hrec
      · simp at hrec
    have hperm : (F.resIdx ++ [F.nExperts] ++ F.coldIdx).Perm
        (F.nExperts :: (F.resIdx ++ F.coldIdx)) := by
      rw [List.append_assoc, List.singleton_append]
      exact List.perm_middle
    -- a resident expert: its pointer is the record of the layer, and its slot is pinned
    have hres : ∀ (pinned : List ℕ),
        (∀ s, (T.layers F.layer).slotOf e = some s → s ∈ pinned) →
        ∀ x ∈ F.resIdx ++ [F.nExperts], x ∈ F.resIdx ∨ (x = F.nExperts ∧ ∃ p', some p = some p' ∧
          (T.layers F.layer).records e = some p' ∧
          ∀ s, (T.layers F.layer).slotOf e = some s → s ∈ pinned) := by
      intro pinned hs x hx
      rcases List.mem_append.mp hx with hx | hx
      · exact .inl hx
      · exact .inr ⟨List.mem_singleton.mp hx, p, rfl, hp, hs⟩
    rw [if_pos hon]
    split
    · next hslot =>
      refine ⟨some p, F.resIdx ++ [F.nExperts], F.coldIdx, F.pinned, rfl, hperm, ?_⟩
      refine h.newGroup hlt _ e k (fun _ => id) (hres _ fun s hs => ?_) fun x => .inl
      rw [hslot] at hs
      simp at hs
    · next s hslot =>
      refine ⟨some p, F.resIdx ++ [F.nExperts], F.coldIdx, F.pinned ++ [s], rfl, hperm, ?_⟩
      refine h.newGroup hlt _ e k (fun _ => List.mem_append_left _)
        (hres _ fun s' hs' => ?_) fun x => .inl
      rw [hslot] at hs'
      simp [Option.some.inj hs']

/-- The frame after the grouping section. -/
theorem groupsOk_groupPairs (is : List ℕ) {T : Tier} {F : Frame} (hon : T.tail.on = true)
    (hg : GroupsOk F js) (hl : LookedUp (T.layers F.layer) F)
    (hst : (groupPairs is js.length T F).2.status = 0) :
    GroupsOk (groupPairs is js.length T F).2 (js ++ is) ∧
      LookedUp (T.layers F.layer) (groupPairs is js.length T F).2 := by
  induction is generalizing js T F with
  | nil =>
    rw [List.append_nil]
    exact ⟨hg, hl⟩
  | cons i is ih =>
    -- what is left of the pairs, once the group of this one is there
    have hstep : ∀ (T₁ : Tier) (F₁ : Frame), SameIndex T T₁ → F₁.layer = F.layer →
        GroupsOk (F₁.addPair js.length i) (js ++ [i]) → LookedUp (T.layers F.layer) F₁ →
        (groupPairs is (js.length + 1) T₁ (F₁.addPair js.length i)).2.status = 0 →
        GroupsOk (groupPairs is (js.length + 1) T₁ (F₁.addPair js.length i)).2 (js ++ i :: is) ∧
          LookedUp (T.layers F.layer)
            (groupPairs is (js.length + 1) T₁ (F₁.addPair js.length i)).2 := by
      intro T₁ F₁ hs hlay hg₁ hl₁ hst₁
      have hlen : (js ++ [i]).length = js.length + 1 := by simp
      have hlay' : (F₁.addPair js.length i).layer = F.layer := hlay
      have hl₁' : LookedUp (T₁.layers (F₁.addPair js.length i).layer) (F₁.addPair js.length i) := by
        rw [hlay']
        exact (hl₁.to_sameIndex hs).addPair
      have := ih ((on_of_config hs.config).trans hon) hg₁ hl₁' (by rwa [hlen])
      rw [hlen, hlay', List.append_assoc, List.singleton_append] at this
      exact ⟨this.1, this.2.of_sameIndex hs⟩
    rw [groupPairs] at hst ⊢
    rcases Classical.em (F.lastE = some (F.req.pairs i).expert) with he | he
    · rw [if_pos he] at hst ⊢
      simp only at hst ⊢
      split
      · next hF =>
        rw [if_pos hF] at hst
        exact absurd hst hF
      · next hF =>
        rw [if_neg hF] at hst
        exact hstep T F (SameIndex.refl T) rfl (hg.addPair he) hl hst
    · rw [if_neg he] at hst ⊢
      split
      · next hF =>
        rw [if_pos hF] at hst
        exact absurd hst hF
      · next hF =>
        rw [if_neg hF] at hst
        have hF' := Classical.not_not.mp hF
        obtain ⟨r, res, cold, pinned, heq, hperm, hl₁⟩ := newGroup_of_groupExpert hon hl
          (fun x hx => List.mem_range.mp (hg.split.mem_iff.mp hx)) _ js.length hF'
        have hs := sameIndex_groupExpert T { F with lastE := some (F.req.pairs i).expert }
          (F.req.pairs i).expert js.length
        rw [heq] at hst ⊢
        exact hstep _ _ hs rfl (hg.addGroup r hperm) hl₁ hst

/-- The groups of a request that has just begun. -/
theorem groupsOk_of_entry {T : Tier} {F : Frame} (hon : T.tail.on = true)
    (he : F = Frame.entry F.layer F.seq F.req) (hst : (groupPairs F.order 0 T F).2.status = 0) :
    GroupsOk (groupPairs F.order 0 T F).2 F.order ∧
      LookedUp (T.layers F.layer) (groupPairs F.order 0 T F).2 := by
  have hg : GroupsOk F [] := by
    rw [he]
    exact groupsOk_entry _
  have hl : LookedUp (T.layers F.layer) F := by
    rw [he]
    exact ⟨fun x hx => by simp [Frame.entry] at hx, fun x hx => by simp [Frame.entry] at hx⟩
  exact groupsOk_groupPairs F.order hon hg hl hst

end CpuTier

end VllmMoet
