import Mathlib.Data.List.Perm.Subperm
import Mathlib.Data.List.Count
import VllmMoet.CpuTier.Tail

/-!
# The representation invariant of the store tail

`LayerOk X L l ns`: the resident slots of layer `l` are the nodes `ns`, in LRU order. They
form a doubly linked list between the layer's ends, `n_resident` counts them, `slot_of` and
the slots' own fields are inverse to each other, and `records` holds the slots' addresses.

`ArenaOk T ns targets`: every layer is well formed, and the spare slots, the layers' nodes
and the `targets` of unfinished reads are together the slots of the arena, each exactly
once.

Each locked operation of the tail has one lemma saying how it changes `ns` and `targets`;
nothing later looks at the link fields again.
-/

namespace VllmMoet

namespace CpuTier

variable {T : Tier} {X : Tail} {L : Layer} {ns : ℕ → List ℕ} {nl targets : List ℕ} {l e s : ℕ}

/-- The resident slots of a layer, and the indices that lead to them. -/
structure NodesOk (X : Tail) (L : Layer) (l : ℕ) (nl : List ℕ) : Prop where
  list : X.links.IsList L.lru nl
  count : L.nResident = nl.length
  mem : ∀ s, s ∈ nl ↔ ∃ e, L.slotOf e = some s
  node : ∀ e s, L.slotOf e = some s → (X.slots s).expert = some e ∧ (X.slots s).layer = some l
  resident : ∀ e s, L.slotOf e = some s → L.records e = some (X.addr s)

/-- A layer is well formed: moreover, a cold expert that is not resident has no pointer. -/
structure LayerOk (X : Tail) (L : Layer) (l : ℕ) (nl : List ℕ) : Prop
    extends NodesOk X L l nl where
  absent : ∀ e, L.slotOf e = none → L.cold e = true → L.records e = none

/-- Every arena slot has exactly one place, and every layer is well formed. -/
structure ArenaOk (T : Tier) (ns : ℕ → List ℕ) (targets : List ℕ) : Prop where
  layer : ∀ l < T.nLayers, LayerOk T.tail (T.layers l) l (ns l)
  perm : (T.tail.freeSlots ++ (List.range T.nLayers).flatMap ns ++ targets).Perm
    (List.range T.tail.nSlots)

/-! ### Consequences -/

/-- A node belongs to one expert. -/
theorem NodesOk.slotOf_inj (h : NodesOk X L l nl) {e e' : ℕ} (he : L.slotOf e = some s)
    (he' : L.slotOf e' = some s) : e = e' := by
  have h₁ := (h.node e s he).1
  rw [(h.node e' s he').1] at h₁
  exact (Option.some.inj h₁).symm

/-- The layer's list contains a slot iff `slot_of` of the slot's expert is that slot and the
slot's layer is this one. -/
theorem NodesOk.mem_iff (h : NodesOk X L l nl) (s : ℕ) :
    s ∈ nl ↔ ((X.slots s).expert.bind L.slotOf = some s ∧ (X.slots s).layer = some l) := by
  rw [h.mem]
  constructor
  · rintro ⟨e, he⟩
    obtain ⟨hx, hl⟩ := h.node e s he
    exact ⟨by simpa [hx] using he, hl⟩
  · rintro ⟨he, -⟩
    obtain ⟨e, -, he⟩ := Option.bind_eq_some_iff.mp he
    exact ⟨e, he⟩

/-- Nodes of different layers are different. -/
theorem NodesOk.disjoint (h : NodesOk X L l nl) {L' : Layer} {l' : ℕ} {nl' : List ℕ}
    (h' : NodesOk X L' l' nl') (hne : l ≠ l') : nl.Disjoint nl' := by
  intro x hx hx'
  obtain ⟨e, he⟩ := (h.mem x).mp hx
  obtain ⟨e', he'⟩ := (h'.mem x).mp hx'
  have hl := (h.node e x he).2
  rw [(h'.node e' x he').2] at hl
  exact hne (Option.some.inj hl).symm

/-- Layers depend only on the links and the index fields of their own nodes. -/
theorem NodesOk.frame (h : NodesOk X L l nl) {X' : Tail} (ha : X'.arena = X.arena)
    (hl : X'.links.IsList L.lru nl)
    (hs : ∀ s ∈ nl, (X'.slots s).expert = (X.slots s).expert ∧
      (X'.slots s).layer = (X.slots s).layer) : NodesOk X' L l nl where
  list := hl
  count := h.count
  mem := h.mem
  node e s he := by
    obtain ⟨h₁, h₂⟩ := hs s ((h.mem s).mpr ⟨e, he⟩)
    rw [h₁, h₂]
    exact h.node e s he
  resident e s he := by
    rw [h.resident e s he, Tail.addr, Tail.addr, ha]

/-- Layers depend only on the links and the index fields of their own nodes. -/
theorem LayerOk.frame (h : LayerOk X L l nl) {X' : Tail} (ha : X'.arena = X.arena)
    (hl : X'.links.IsList L.lru nl)
    (hs : ∀ s ∈ nl, (X'.slots s).expert = (X.slots s).expert ∧
      (X'.slots s).layer = (X.slots s).layer) : LayerOk X' L l nl :=
  ⟨h.toNodesOk.frame ha hl hs, h.absent⟩

/-- Changing pins changes nothing about the layers. -/
theorem ArenaOk.congr (h : ArenaOk T ns targets) {T' : Tier} (hn : T'.nLayers = T.nLayers)
    (hl : T'.layers = T.layers) (ha : T'.tail.arena = T.tail.arena)
    (hk : T'.tail.nSlots = T.tail.nSlots) (hH : T'.tail.links = T.tail.links)
    (hf : T'.tail.freeSlots = T.tail.freeSlots)
    (hs : ∀ s, (T'.tail.slots s).expert = (T.tail.slots s).expert ∧
      (T'.tail.slots s).layer = (T.tail.slots s).layer) : ArenaOk T' ns targets where
  layer l hlt := by
    rw [hn] at hlt
    rw [hl]
    exact (h.layer l hlt).frame ha (hH ▸ (h.layer l hlt).list) fun s _ => hs s
  perm := by rw [hf, hn, hk]; exact h.perm

/-- The targets of the unfinished reads are an unordered collection. -/
theorem ArenaOk.targets_perm (h : ArenaOk T ns targets) {targets' : List ℕ}
    (ht : targets.Perm targets') : ArenaOk T ns targets' where
  layer := h.layer
  perm := (List.Perm.append_left _ ht.symm).trans h.perm

/-- The layers' nodes are those of layer `l` and those of the others. -/
theorem flatMap_perm_cons {n : ℕ} (ns : ℕ → List ℕ) (hl : l < n) :
    ((List.range n).flatMap ns).Perm (ns l ++ ((List.range n).erase l).flatMap ns) :=
  (List.perm_cons_erase (List.mem_range.mpr hl)).flatMap_right ns

/-- Replacing layer `l`'s nodes leaves those of the others. -/
theorem flatMap_update_perm {n : ℕ} (ns : ℕ → List ℕ) (hl : l < n) (nl : List ℕ) :
    ((List.range n).flatMap (Function.update ns l nl)).Perm
      (nl ++ ((List.range n).erase l).flatMap ns) := by
  refine (flatMap_perm_cons _ hl).trans ?_
  rw [Function.update_self]
  refine List.Perm.append_left _ (List.Perm.of_eq (List.flatMap_congr fun m hm => ?_))
  have hne : m ≠ l := fun h => List.Nodup.not_mem_erase List.nodup_range (h ▸ hm)
  rw [Function.update_of_ne hne]

/-- The places of the arena, with layer `l` singled out. -/
theorem ArenaOk.perm_layer (h : ArenaOk T ns targets) (hl : l < T.nLayers) :
    (T.tail.freeSlots ++ (ns l ++ ((List.range T.nLayers).erase l).flatMap ns) ++ targets).Perm
      (List.range T.tail.nSlots) :=
  (((flatMap_perm_cons ns hl).symm.append_left _).append_right _).trans h.perm

/-- To change layer `l`'s nodes, the spare slots and the targets is to show that the places
are still the same slots. -/
theorem perm_of_update {fs fs' targets' : List ℕ} {n m : ℕ} (hl : l < n)
    (h : (fs ++ (List.range n).flatMap ns ++ targets).Perm (List.range m))
    (hp : (fs' ++ nl ++ targets').Perm (fs ++ ns l ++ targets)) :
    (fs' ++ (List.range n).flatMap (Function.update ns l nl) ++ targets').Perm
      (List.range m) := by
  refine List.Perm.trans ?_ h
  have h₁ := flatMap_update_perm ns hl nl
  have h₂ := flatMap_perm_cons ns hl
  rw [List.perm_iff_count] at *
  intro a
  have hp := hp a
  have h₁ := h₁ a
  have h₂ := h₂ a
  simp only [List.count_append] at *
  omega

/-- No slot has two places. -/
theorem ArenaOk.nodup (h : ArenaOk T ns targets) :
    (T.tail.freeSlots ++ (List.range T.nLayers).flatMap ns ++ targets).Nodup :=
  h.perm.nodup_iff.mpr List.nodup_range

/-- Nodes of different layers are different. -/
theorem ArenaOk.disjoint (h : ArenaOk T ns targets) {l l' : ℕ} (hl : l < T.nLayers)
    (hl' : l' < T.nLayers) (hne : l ≠ l') : (ns l).Disjoint (ns l') :=
  (h.layer l hl).disjoint (h.layer l' hl').toNodesOk hne

/-- A target of an unfinished read is no layer's node. -/
theorem ArenaOk.target_notMem (h : ArenaOk T ns targets) (hl : l < T.nLayers)
    (hs : s ∈ targets) : s ∉ ns l := fun hm =>
  List.disjoint_of_nodup_append h.nodup (a := s)
    (List.mem_append_right _ (List.mem_flatMap.mpr ⟨l, List.mem_range.mpr hl, hm⟩)) hs

/-- A layer's list is no longer than the arena. -/
theorem ArenaOk.length_le (h : ArenaOk T ns targets) (hl : l < T.nLayers) :
    (ns l).length ≤ T.tail.nSlots := by
  have hlen := (h.perm_layer hl).length_eq
  simp only [List.length_append, List.length_range] at hlen
  omega

/-- A node of a layer splits its list. -/
theorem exists_split {v : ℕ} {nl : List ℕ} (hv : v ∈ nl) (hnd : nl.Nodup) :
    ∃ l₁ l₂, nl = l₁ ++ v :: l₂ ∧ nl.erase v = l₁ ++ l₂ := by
  obtain ⟨l₁, l₂, rfl⟩ := List.append_of_mem hv
  have hv₁ : v ∉ l₁ := fun hm => (List.disjoint_of_nodup_append hnd) hm (by simp)
  exact ⟨l₁, l₂, rfl, by rw [List.erase_append_right _ hv₁, List.erase_cons_head]⟩

/-! ### The locked operations -/

/-- A spare slot becomes the target of a read. -/
theorem ArenaOk.popFree (h : ArenaOk T ns targets) {fs : List ℕ}
    (hf : T.tail.freeSlots = s :: fs) : ArenaOk (T.setFree fs) ns (s :: targets) where
  layer l hl := (h.layer l hl).frame rfl (h.layer l hl).list fun _ _ => ⟨rfl, rfl⟩
  perm := by
    refine List.Perm.trans ?_ h.perm
    simp only [setFree_tail, setFree_nLayers, hf]
    rw [List.perm_iff_count]
    intro a
    simp only [List.count_append, List.count_cons]
    omega

/-- The target of a read returns to the spare slots. -/
theorem ArenaOk.pushFree (h : ArenaOk T ns (s :: targets)) :
    ArenaOk (T.pushFree s) ns targets where
  layer l hl := (h.layer l hl).frame rfl (h.layer l hl).list fun _ _ => ⟨rfl, rfl⟩
  perm := by
    refine List.Perm.trans ?_ h.perm
    simp only [Tier.pushFree, setFree_tail, setFree_nLayers]
    rw [List.perm_iff_count]
    intro a
    simp only [List.count_append, List.count_cons]
    omega

/-- Serving a resident slot makes it the layer's most recent one. -/
theorem ArenaOk.touch (h : ArenaOk T ns targets) (hl : l < T.nLayers) (hs : s ∈ ns l) :
    ArenaOk (lruPushTail (lruUnlink T l s) l s)
      (Function.update ns l ((ns l).erase s ++ [s])) targets := by
  obtain ⟨l₁, l₂, hns, herase⟩ := exists_split hs (h.layer l hl).list.nodup
  have hlist := (h.layer l hl).list
  rw [hns] at hlist
  have hnd := hlist.nodup
  have hs' : s ∉ l₁ ++ l₂ := by
    have := (List.nodup_middle.mp hnd)
    exact (List.nodup_cons.mp this).1
  refine ⟨fun l' hl' => ?_, ?_⟩
  · rcases eq_or_ne l' l with rfl | hne
    · have hok := h.layer l' hl'
      simp only [lruPushTail, lruUnlink, setLinks_layers, setLayer_layers, setLinks_tail,
        setLayer_tail, Function.update_self, herase]
      refine ⟨⟨hlist.unlink.pushTail hs', ?_, fun x => ?_, hok.node, hok.resident⟩, hok.absent⟩
      · simp [hok.count, hns]
      · rw [← hok.mem, hns]; simp; tauto
    · have hok := h.layer l' hl'
      have hd : (ns l').Disjoint (l₁ ++ s :: l₂) := hns ▸ h.disjoint hl' hl hne
      simp only [lruPushTail, lruUnlink, setLinks_layers, setLayer_layers, setLinks_tail,
        setLayer_tail, Function.update_self, Function.update_of_ne hne]
      refine hok.frame rfl ?_ fun _ _ => ⟨rfl, rfl⟩
      refine (hok.list.unlink_disjoint hlist hd).pushTail_disjoint hlist.unlink ?_ ?_
      · exact fun hm => hd hm (by simp)
      · exact fun x hx hx' => hd hx (by simp at hx' ⊢; tauto)
  · refine perm_of_update hl h.perm ?_
    refine (List.Perm.append_left _ ?_).append_right _
    exact (List.perm_append_singleton s _).trans (List.perm_cons_erase hs).symm

/-- A layer that forgets expert `e`, whose record was in slot `v`. -/
theorem LayerOk.remove (h : LayerOk X L l nl) {v : ℕ} (he : L.slotOf e = some v) {X' : Tail}
    {L' : Layer} (hlist : X'.links.IsList L'.lru (nl.erase v))
    (hcount : L'.nResident = L.nResident - 1) (hslot : L'.slotOf = Function.update L.slotOf e none)
    (hrec : L'.records = Function.update L.records e none) (hcold : L'.cold = L.cold)
    (ha : X'.arena = X.arena)
    (hs : ∀ x, x ≠ v → (X'.slots x).expert = (X.slots x).expert ∧
      (X'.slots x).layer = (X.slots x).layer) : LayerOk X' L' l (nl.erase v) := by
  have hv : v ∈ nl := (h.mem v).mpr ⟨e, he⟩
  -- the other experts keep their slots, and `v` is none of these
  have key : ∀ e' x, L'.slotOf e' = some x ↔ (e' ≠ e ∧ x ≠ v ∧ L.slotOf e' = some x) := by
    intro e' x
    rw [hslot]
    rcases eq_or_ne e' e with rfl | hee
    · simp
    · rw [Function.update_of_ne hee]
      exact ⟨fun hx => ⟨hee, fun hxv => hee (h.slotOf_inj (hxv ▸ hx) he), hx⟩, fun hx => hx.2.2⟩
  refine ⟨⟨hlist, ?_, fun x => ?_, fun e' x hx => ?_, fun e' x hx => ?_⟩, fun e' hx hc => ?_⟩
  · rw [hcount, h.count, List.length_erase_of_mem hv]
  · rw [h.list.nodup.mem_erase_iff, h.mem]
    constructor
    · rintro ⟨hxv, e', hx⟩
      exact ⟨e', (key e' x).mpr ⟨fun hee => hxv (Option.some.inj (he ▸ hee ▸ hx)).symm, hxv, hx⟩⟩
    · rintro ⟨e', hx⟩
      exact ⟨((key e' x).mp hx).2.1, e', ((key e' x).mp hx).2.2⟩
  · obtain ⟨-, hxv, hx⟩ := (key e' x).mp hx
    rw [(hs x hxv).1, (hs x hxv).2]
    exact h.node e' x hx
  · obtain ⟨hee, -, hx⟩ := (key e' x).mp hx
    rw [hrec, Function.update_of_ne hee, h.resident e' x hx, Tail.addr, Tail.addr, ha]
  · rw [hrec]
    rcases eq_or_ne e' e with rfl | hee
    · simp
    · rw [Function.update_of_ne hee]
      rw [hslot, Function.update_of_ne hee] at hx
      exact h.absent e' hx (hcold ▸ hc)

/-- A layer that gets expert `e`'s record in slot `s`. -/
theorem NodesOk.add (h : NodesOk X L l nl) (he : L.slotOf e = none) (hn : s ∉ nl) {X' : Tail}
    {L' : Layer} (hlist : X'.links.IsList L'.lru (nl ++ [s]))
    (hcount : L'.nResident = L.nResident + 1)
    (hslot : L'.slotOf = Function.update L.slotOf e (some s))
    (hrec : ∀ e', L'.records e' = if e' = e then some (X'.addr s) else L.records e')
    (ha : X'.arena = X.arena)
    (hexp : (X'.slots s).expert = some e ∧ (X'.slots s).layer = some l)
    (hs : ∀ x, x ≠ s → (X'.slots x).expert = (X.slots x).expert ∧
      (X'.slots x).layer = (X.slots x).layer) : NodesOk X' L' l (nl ++ [s]) := by
  refine ⟨hlist, by simp [hcount, h.count], fun x => ?_, fun e' x hx => ?_, fun e' x hx => ?_⟩
  · rw [List.mem_append, List.mem_singleton, h.mem]
    constructor
    · rintro (⟨e', hx⟩ | rfl)
      · refine ⟨e', ?_⟩
        rw [hslot, Function.update_of_ne, hx]
        rintro rfl
        simp [he] at hx
      · exact ⟨e, by simp [hslot]⟩
    · rintro ⟨e', hx⟩
      rw [hslot] at hx
      rcases eq_or_ne e' e with rfl | hee
      · simp at hx; exact .inr hx.symm
      · rw [Function.update_of_ne hee] at hx; exact .inl ⟨e', hx⟩
  · rw [hslot] at hx
    rcases eq_or_ne e' e with rfl | hee
    · simp at hx; exact hx ▸ hexp
    · rw [Function.update_of_ne hee] at hx
      have hxs : x ≠ s := fun hxs => hn (hxs ▸ (h.mem x).mpr ⟨e', hx⟩)
      rw [(hs x hxs).1, (hs x hxs).2]
      exact h.node e' x hx
  · rw [hslot] at hx
    rcases eq_or_ne e' e with rfl | hee
    · simp at hx; simp [hrec, hx]
    · rw [Function.update_of_ne hee] at hx
      rw [hrec, if_neg hee, h.resident e' x hx, Tail.addr, Tail.addr, ha]

/-- An eviction returns a layer's node to the spare slots. -/
theorem ArenaOk.evict (h : ArenaOk T ns targets) (hl : l < T.nLayers) {v : ℕ} (hv : v ∈ ns l) :
    ArenaOk (lruEvict T l v) (Function.update ns l ((ns l).erase v)) targets := by
  obtain ⟨l₁, l₂, hns, herase⟩ := exists_split hv (h.layer l hl).list.nodup
  have hlist := (h.layer l hl).list
  rw [hns] at hlist
  obtain ⟨e, he⟩ := ((h.layer l hl).mem v).mp hv
  have hexp := ((h.layer l hl).node e v he).1
  refine ⟨fun l' hl' => ?_, ?_⟩
  · rcases eq_or_ne l' l with rfl | hne
    · rw [Function.update_self]
      refine (h.layer l' hl).remove he ?_ ?_ ?_ ?_ ?_ rfl fun x hx => ?_
      · rw [herase]
        simpa [lruEvict, lruForget, lruUnlink, Tier.pushFree, hexp] using hlist.unlink
      all_goals simp [lruEvict, lruForget, lruUnlink, Tier.pushFree, *]
    · have hd : (ns l').Disjoint (l₁ ++ v :: l₂) := hns ▸ h.disjoint hl' hl hne
      have hok := h.layer l' hl'
      rw [Function.update_of_ne hne]
      have hL : (lruEvict T l v).layers l' = T.layers l' := by
        simp [lruEvict, lruForget, lruUnlink, Tier.pushFree, hne]
      rw [hL]
      refine hok.frame rfl (hok.list.unlink_disjoint hlist hd) fun x hx => ?_
      have hxv : x ≠ v := fun hxv => hd hx (by simp [hxv])
      simp [lruEvict, lruForget, lruUnlink, Tier.pushFree, hxv]
  · refine perm_of_update hl h.perm ?_
    have hp := List.perm_cons_erase hv
    rw [List.perm_iff_count] at hp ⊢
    intro a
    have hp := hp a
    simp only [lruEvict, lruForget, lruUnlink, Tier.pushFree, setFree_tail, setSlot_tail,
      setLinks_tail, setLayer_tail, List.count_append, List.count_cons] at hp ⊢
    omega

/-! ### Evictions keep what is pinned -/

/-- Every pinned resident record stays where it is. -/
def Keeps (T T' : Tier) : Prop :=
  ∀ l e s, (T.layers l).slotOf e = some s → 0 < (T.tail.slots s).pins →
    (T'.layers l).slotOf e = some s

theorem Keeps.refl (T : Tier) : Keeps T T := fun _ _ _ h _ => h

/-- The pin counts of two tiers agree. -/
def SamePins (T T' : Tier) : Prop := ∀ s, (T'.tail.slots s).pins = (T.tail.slots s).pins

theorem Keeps.trans {T₁ T₂ T₃ : Tier} (h : Keeps T₁ T₂) (hp : SamePins T₁ T₂)
    (h' : Keeps T₂ T₃) : Keeps T₁ T₃ := fun l e s hs hpos =>
  h' l e s (h l e s hs hpos) (by rwa [hp s])

@[simp] theorem config_lruUnlink (T : Tier) (l s : ℕ) : (lruUnlink T l s).config = T.config :=
  (config_setLinks _ _).trans (config_setLayer (by rfl))

@[simp] theorem config_lruPushTail (T : Tier) (l s : ℕ) :
    (lruPushTail T l s).config = T.config :=
  (config_setLinks _ _).trans (config_setLayer (by rfl))

@[simp] theorem config_lruEvict (T : Tier) (l v : ℕ) : (lruEvict T l v).config = T.config := by
  rw [lruEvict, config_pushFree, lruForget, config_setSlot, config_setLayer, config_lruUnlink]
  cases ((lruUnlink T l v).tail.slots v).expert <;> rfl

theorem samePins_lruEvict (T : Tier) (l v : ℕ) : SamePins T (lruEvict T l v) := by
  intro s
  rcases eq_or_ne s v with rfl | hne
  · simp [lruEvict, lruForget, lruUnlink, Tier.pushFree]
  · simp [lruEvict, lruForget, lruUnlink, Tier.pushFree, hne]

/-- The eviction of an unpinned slot keeps the pinned ones. -/
theorem ArenaOk.keeps_evict (h : ArenaOk T ns targets) (hl : l < T.nLayers) {v : ℕ}
    (hv : v ∈ ns l) (hp : (T.tail.slots v).pins = 0) : Keeps T (lruEvict T l v) := by
  intro l' e' s hs hpos
  obtain ⟨e, he⟩ := ((h.layer l hl).mem v).mp hv
  have hexp := ((h.layer l hl).node e v he).1
  rcases eq_or_ne l' l with rfl | hne
  · have hee : e' ≠ e := by
      rintro rfl
      rw [he] at hs
      rw [← Option.some.inj hs] at hpos
      omega
    simpa [lruEvict, lruForget, lruUnlink, Tier.pushFree, hexp, hee] using hs
  · simpa [lruEvict, lruForget, lruUnlink, Tier.pushFree, hne] using hs

/-- `lru_trim`'s victim is the first unpinned node of the layer's list. -/
theorem ArenaOk.victim_eq (h : ArenaOk T ns targets) (hl : l < T.nLayers) :
    lruVictim T l = (ns l).find? fun v => (T.tail.slots v).pins == 0 :=
  (h.layer l hl).list.scan_eq_find _ (Nat.lt_succ_of_le (h.length_le hl))

/-- `lru_trim` keeps the invariant, the pinned records and the pins. -/
theorem ArenaOk.trimLoop (h : ArenaOk T ns targets) (hl : l < T.nLayers) (fuel : ℕ) :
    ∃ ns', ArenaOk (lruTrimLoop fuel T l) ns' targets ∧ Keeps T (lruTrimLoop fuel T l) ∧
      SamePins T (lruTrimLoop fuel T l) ∧ (lruTrimLoop fuel T l).config = T.config := by
  induction fuel generalizing T ns with
  | zero => exact ⟨ns, h, Keeps.refl T, fun _ => rfl, rfl⟩
  | succ fuel ih =>
    rw [lruTrimLoop]
    split
    · cases hv : lruVictim T l with
      | none => exact ⟨ns, h, Keeps.refl T, fun _ => rfl, rfl⟩
      | some v =>
        rw [h.victim_eq hl] at hv
        have hmem := List.mem_of_find?_eq_some hv
        have hp : (T.tail.slots v).pins = 0 := by simpa using List.find?_some hv
        obtain ⟨ns', h', hk, hpins, hc⟩ := ih (h.evict hl hmem) hl
        refine ⟨ns', h', (h.keeps_evict hl hmem hp).trans (samePins_lruEvict T l v) hk,
          fun s => (hpins s).trans (samePins_lruEvict T l v s), hc.trans (config_lruEvict T l v)⟩
    · exact ⟨ns, h, Keeps.refl T, fun _ => rfl, rfl⟩

/-- `lru_trim` keeps the invariant, the pinned records and the pins. -/
theorem ArenaOk.trim (h : ArenaOk T ns targets) (hl : l < T.nLayers) :
    ∃ ns', ArenaOk (lruTrim T l) ns' targets ∧ Keeps T (lruTrim T l) ∧
      SamePins T (lruTrim T l) ∧ (lruTrim T l).config = T.config :=
  h.trimLoop hl _

/-! ### Insertion -/

/-- A slot taken for expert `e` is linked into the layer's list. -/
theorem ArenaOk.assign (h : ArenaOk T ns (s :: targets)) (hl : l < T.nLayers)
    (he : (T.layers l).slotOf e = none) :
    ArenaOk (lruPushTail (lruAssign T l e s) l s) (Function.update ns l (ns l ++ [s]))
      targets := by
  have hs : ∀ l' < T.nLayers, s ∉ ns l' := fun l' hl' => h.target_notMem hl' (by simp)
  refine ⟨fun l' hl' => ?_, ?_⟩
  · rcases eq_or_ne l' l with rfl | hne
    · rw [Function.update_self]
      refine ⟨(h.layer l' hl).toNodesOk.add he (hs l' hl) ?_ ?_ ?_ (fun e' => ?_) rfl ?_
        fun x hx => ?_, fun e' hx hc => ?_⟩
      · simpa [lruPushTail, lruAssign] using (h.layer l' hl).list.pushTail (hs l' hl)
      · simp [lruPushTail, lruAssign]
      · simp [lruPushTail, lruAssign]
      · simp [lruPushTail, lruAssign, Function.update_apply, Tail.addr]
      · simp [lruPushTail, lruAssign]
      · simp [lruPushTail, lruAssign, hx]
      · rcases eq_or_ne e' e with rfl | hee
        · simp [lruPushTail, lruAssign] at hx
        · simp only [lruPushTail, lruAssign, setLinks_layers, setLayer_layers,
            Function.update_self, Function.update_of_ne hee] at hx hc ⊢
          exact (h.layer l' hl).absent e' hx hc
    · have hok := h.layer l' hl'
      have hL : (lruPushTail (lruAssign T l e s) l s).layers l' = T.layers l' := by
        simp [lruPushTail, lruAssign, hne]
      rw [Function.update_of_ne hne, hL]
      refine hok.frame rfl ?_ fun x hx => ?_
      · simpa [lruPushTail, lruAssign] using hok.list.pushTail_disjoint (h.layer l hl).list
          (hs l' hl') (h.disjoint hl' hl hne)
      · have hxs : x ≠ s := fun hxs => hs l' hl' (hxs ▸ hx)
        simp [lruPushTail, lruAssign, hxs]
  · refine perm_of_update hl h.perm ?_
    rw [List.perm_iff_count]
    intro a
    simp only [lruPushTail, lruAssign, setLinks_tail, setLayer_tail, setSlot_tail,
      List.count_append, List.count_cons, List.count_nil]
    omega

/-- `lru_insert`: slot `s` becomes expert `e`'s, or a spare slot when `e` is resident; the
pinned records stay, and `e` is resident afterwards. -/
theorem ArenaOk.insert (h : ArenaOk T ns (s :: targets)) (hl : l < T.nLayers) (e : ℕ) :
    ∃ ns', ArenaOk (lruInsert T l e s) ns' targets ∧ Keeps T (lruInsert T l e s) ∧
      (∀ x, x ≠ s → ((lruInsert T l e s).tail.slots x).pins = (T.tail.slots x).pins) ∧
      ((T.tail.slots s).pins = 0 → ((lruInsert T l e s).tail.slots s).pins = 0) ∧
      (lruInsert T l e s).config = T.config ∧
      ∃ x, ((lruInsert T l e s).layers l).slotOf e = some x := by
  cases he : (T.layers l).slotOf e with
  | some x =>
    simp only [lruInsert, he]
    exact ⟨ns, h.pushFree, Keeps.refl T, fun _ _ => rfl, id, rfl, x, he⟩
  | none =>
    simp only [lruInsert, he]
    have ha := h.assign hl he
    set T₁ := lruPushTail (lruAssign T l e s) l s with hT₁
    obtain ⟨ns', h', hk, hp, hc⟩ := ha.trim (l := l) hl
    have hc₁ : T₁.config = T.config := by
      rw [hT₁, config_lruPushTail, lruAssign, config_setLayer (by rfl), config_setSlot]
    have hp₁ : ∀ x, x ≠ s → (T₁.tail.slots x).pins = (T.tail.slots x).pins := by
      intro x hx
      simp [hT₁, lruPushTail, lruAssign, hx]
    have hs₁ : (T₁.tail.slots s).pins = 1 := by simp [hT₁, lruPushTail, lruAssign]
    have hk₁ : Keeps T T₁ := by
      intro l' e' x hx _
      rcases eq_or_ne l' l with rfl | hne
      · have hee : e' ≠ e := by rintro rfl; simp [he] at hx
        simpa [hT₁, lruPushTail, lruAssign, hee] using hx
      · simpa [hT₁, lruPushTail, lruAssign, hne] using hx
    refine ⟨ns', ?_, fun l' e' x hx hpos => ?_, fun x hx => ?_, fun _ => ?_, ?_, s, ?_⟩
    · refine h'.congr rfl rfl rfl rfl rfl rfl fun x => ?_
      rcases eq_or_ne x s with rfl | hx
      · simp [Tier.setPins]
      · simp [Tier.setPins, hx]
    · have hx₁ := hk₁ l' e' x hx hpos
      refine hk l' e' x hx₁ ?_
      rcases eq_or_ne x s with rfl | hxs
      · omega
      · rwa [hp₁ x hxs]
    · simp only [Tier.setPins, setSlot_tail, Function.update_of_ne hx]
      rw [hp x, hp₁ x hx]
    · simp [Tier.setPins]
    · rw [config_setPins, hc, hc₁]
    · have : (T₁.layers l).slotOf e = some s := by simp [hT₁, lruPushTail, lruAssign]
      exact hk l e s this (by omega)

/-! ### Setting up -/

/-- A tier before `cpu_tier_store_tail_adopt`: nothing is resident yet, and only experts
of the tier are registered. -/
structure Fresh (T : Tier) : Prop where
  slotOf : ∀ l e, (T.layers l).slotOf e = none
  lru : ∀ l, (T.layers l).lru = ⟨none, none⟩
  nResident : ∀ l, (T.layers l).nResident = 0
  pins : ∀ s, (T.tail.slots s).pins = 0
  record_lt : ∀ l e p, (T.layers l).records e = some p → l < T.nLayers ∧ e < T.nExperts
  cold_lt : ∀ l e, (T.layers l).cold e = true → l < T.nLayers ∧ e < T.nExperts

theorem lt_of_checked {i : ℤ} {n k : ℕ} (h : checked i n = some k) : k < n := by
  rw [checked] at h
  split at h
  · obtain rfl := Option.some.inj h
    omega
  · simp at h

theorem fresh_create (nLayers nExperts : ℕ) : Fresh (create nLayers nExperts) :=
  ⟨fun _ _ => rfl, fun _ => rfl, fun _ => rfl, fun _ => rfl, fun _ _ _ h => by simp [create] at h,
    fun _ _ h => by simp [create] at h⟩

theorem Fresh.setRecord (h : Fresh T) (layer expert : ℤ) (r : Option ℕ) :
    Fresh (setRecord T layer expert r) := by
  rw [CpuTier.setRecord]
  split
  · next l e hl he =>
    have hlt := lt_of_checked hl
    have het := lt_of_checked he
    have key : ∀ l', (T.setLayer l { T.layers l with
        records := Function.update (T.layers l).records e r }).layers l' = { T.layers l' with
        records := if l' = l then Function.update (T.layers l).records e r
          else (T.layers l').records } := by
      intro l'
      rcases eq_or_ne l' l with rfl | hne
      · simp
      · simp [hne]
    refine ⟨fun l' e' => ?_, fun l' => ?_, fun l' => ?_, h.pins, fun l' e' p hp => ?_,
      fun l' e' hc => ?_⟩
    · rw [key]; exact h.slotOf l' e'
    · rw [key]; exact h.lru l'
    · rw [key]; exact h.nResident l'
    · rw [key] at hp
      dsimp only at hp
      split at hp
      · next hll =>
        rcases eq_or_ne e' e with rfl | hee
        · exact ⟨hll ▸ hlt, het⟩
        · rw [Function.update_of_ne hee] at hp
          exact hll ▸ h.record_lt l e' p hp
      · exact h.record_lt l' e' p hp
    · rw [key] at hc
      exact h.cold_lt l' e' hc
  · exact h

theorem Fresh.setRecordCold (h : Fresh T) (layer expert : ℤ) :
    Fresh (setRecordCold T layer expert) := by
  rw [CpuTier.setRecordCold]
  split
  · next l e hon hl he =>
    have hlt := lt_of_checked hl
    have het := lt_of_checked he
    have key : ∀ l', (T.setLayer l { T.layers l with
        cold := Function.update (T.layers l).cold e true }).layers l' = { T.layers l' with
        cold := if l' = l then Function.update (T.layers l).cold e true
          else (T.layers l').cold } := by
      intro l'
      rcases eq_or_ne l' l with rfl | hne
      · simp
      · simp [hne]
    refine ⟨fun l' e' => ?_, fun l' => ?_, fun l' => ?_, h.pins, fun l' e' p hp => ?_,
      fun l' e' hc => ?_⟩
    · rw [key]; exact h.slotOf l' e'
    · rw [key]; exact h.lru l'
    · rw [key]; exact h.nResident l'
    · rw [key] at hp
      exact h.record_lt l' e' p hp
    · rw [key] at hc
      dsimp only at hc
      split at hc
      · next hll =>
        rcases eq_or_ne e' e with rfl | hee
        · exact ⟨hll ▸ hlt, het⟩
        · rw [Function.update_of_ne hee] at hc
          exact hll ▸ h.cold_lt l e' hc
      · exact h.cold_lt l' e' hc
  · exact h

@[simp] theorem setRecordCold_on (T : Tier) (layer expert : ℤ) :
    (setRecordCold T layer expert).tail = T.tail := by
  rw [setRecordCold]
  split <;> rfl

theorem fresh_foldl_setRecord (h : Fresh T) (rs : List (ℤ × ℤ × Option ℕ)) :
    Fresh (rs.foldl (fun T r => setRecord T r.1 r.2.1 r.2.2) T) := by
  induction rs generalizing T with
  | nil => exact h
  | cons r rs ih => exact ih (h.setRecord _ _ _)

theorem fresh_foldl_setRecordCold (h : Fresh T) (hon : T.tail.on = true) (cs : List (ℤ × ℤ)) :
    Fresh (cs.foldl (fun T c => setRecordCold T c.1 c.2) T) ∧
      (cs.foldl (fun T c => setRecordCold T c.1 c.2) T).tail.on = true := by
  induction cs generalizing T with
  | nil => exact ⟨h, hon⟩
  | cons c cs ih => exact ih (h.setRecordCold _ _) (by simpa using hon)

/-- A tier set up by `beforeAdopt` is fresh, and its tail is on. -/
theorem fresh_beforeAdopt {nLayers nExperts : ℕ} {records : List (ℤ × ℤ × Option ℕ)} {arena : ℕ}
    {nSlots perLayer qd : ℤ} {prefillArena : Bool} {prefillSets prefillSetSlots : ℕ}
    {cold : List (ℤ × ℤ)}
    (h : beforeAdopt nLayers nExperts records arena nSlots perLayer qd prefillArena prefillSets
      prefillSetSlots cold = some T) : Fresh T ∧ T.tail.on = true := by
  obtain ⟨T₁, hT₁, rfl⟩ := Option.map_eq_some_iff.mp h
  have h₀ := fresh_foldl_setRecord (fresh_create nLayers nExperts) records
  rw [storeTailInit] at hT₁
  split at hT₁
  · simp at hT₁
  · have h₁ : Fresh T₁ := by
      rw [← Option.some.inj hT₁]
      exact ⟨h₀.slotOf, h₀.lru, h₀.nResident, fun _ => rfl, h₀.record_lt, h₀.cold_lt⟩
    exact fresh_foldl_setRecordCold h₁ (by rw [← Option.some.inj hT₁]) cold

/-- What `cpu_tier_store_tail_adopt` has done after the pairs `ps`. -/
structure Adopted (T : Tier) (ps : List (ℕ × ℕ)) (T' : Tier) (ns : ℕ → List ℕ) : Prop where
  config : T'.nLayers = T.nLayers ∧ T'.tail.on = T.tail.on ∧ T'.tail.arena = T.tail.arena ∧
    T'.tail.nSlots = T.tail.nSlots
  nodes : ∀ l < T.nLayers, NodesOk T'.tail (T'.layers l) l (ns l)
  places : ((List.range T.nLayers).flatMap ns).Perm
    (ps.filterMap fun le => T.recordSlot le.1 le.2)
  slotOf : ∀ l e s, (T'.layers l).slotOf e = some s ↔
    ((l, e) ∈ ps ∧ T.recordSlot l e = some s)
  records : ∀ l, (T'.layers l).records = (T.layers l).records
  cold : ∀ l e, (T'.layers l).cold e = true → (T.layers l).cold e = true ∨
    ∃ s, (T'.layers l).slotOf e = some s

/-- An address recognised as an arena slot is that slot's address. -/
theorem addr_of_slotAt {p : ℕ} (h : X.slotAt p = some s) : X.addr s = p ∧ s < X.nSlots := by
  simp only [Tail.slotAt] at h
  split at h
  · simp at h
  · next hn =>
    obtain rfl := Option.some.inj h
    simp only [recordBytes, Tail.addr] at *
    omega

theorem adopted_nil (h : Fresh T) : Adopted T [] T fun _ => [] where
  config := ⟨rfl, rfl, rfl, rfl⟩
  nodes l _ := by
    refine ⟨⟨trivial, ?_, ?_, List.nodup_nil⟩, by simp [h.nResident], fun s => ?_, ?_, ?_⟩
    · simp [h.lru]
    · simp [h.lru]
    · simp [h.slotOf]
    · simp [h.slotOf]
    · simp [h.slotOf]
  places := by simp
  slotOf l e s := by simp [h.slotOf]
  records _ := rfl
  cold _ _ hc := .inl hc

/-- One more pair is visited. -/
theorem Adopted.step (hd : DistinctArena T) {ps : List (ℕ × ℕ)} {T' : Tier}
    (h : Adopted T ps T' ns) (hl : l < T.nLayers) (hnew : (l, e) ∉ ps) :
    ∃ ns', Adopted T (ps ++ [(l, e)]) (adoptOne T' l e) ns' := by
  obtain ⟨hn, hon, ha, hk⟩ := h.config
  have hrec : T'.recordSlot l e = T.recordSlot l e := by
    have hat : T'.tail.slotAt = T.tail.slotAt := by
      funext p
      simp only [Tail.slotAt, ha, hk]
    rw [Tier.recordSlot, Tier.recordSlot, h.records, hat]
  cases hs : T.recordSlot l e with
  | none =>
    refine ⟨ns, ?_⟩
    rw [adoptOne, hrec, hs]
    refine ⟨h.config, h.nodes, by simpa [hs] using h.places, fun l' e' s => ?_, h.records, h.cold⟩
    rw [h.slotOf, List.mem_append, List.mem_singleton]
    constructor
    · exact fun ⟨hm, hr⟩ => ⟨.inl hm, hr⟩
    · rintro ⟨hm | ⟨rfl, rfl⟩, hr⟩
      · exact ⟨hm, hr⟩
      · simp [hs] at hr
  | some s =>
    have hnone : (T'.layers l).slotOf e = none := by
      rw [Option.eq_none_iff_forall_ne_some]
      exact fun s hs => hnew ((h.slotOf l e s).mp hs).1
    -- the slot is not yet any layer's, as no other pair has the same record
    have hfree : ∀ l' < T.nLayers, s ∉ ns l' := by
      intro l' hl' hm
      have hm' : s ∈ ps.filterMap fun le => T.recordSlot le.1 le.2 :=
        h.places.mem_iff.mp (List.mem_flatMap.mpr ⟨l', List.mem_range.mpr hl', hm⟩)
      obtain ⟨⟨l'', e''⟩, hps, hr⟩ := List.mem_filterMap.mp hm'
      obtain ⟨rfl, rfl⟩ := hd.distinct _ _ _ _ _ hr hs
      exact hnew hps
    obtain ⟨p, hp, hat⟩ := Option.bind_eq_some_iff.mp hs
    have haddr : T'.tail.addr s = p := by
      rw [Tail.addr, ha, ← (addr_of_slotAt hat).1, Tail.addr]
    rw [adoptOne, hrec, hs]
    refine ⟨Function.update ns l (ns l ++ [s]), ⟨hn, hon, ha, hk⟩, fun l' hl' => ?_, ?_,
      fun l' e' x => ?_, fun l' => ?_, fun l' e' hc => ?_⟩
    · rcases eq_or_ne l' l with rfl | hne
      · rw [Function.update_self]
        refine (h.nodes l' hl).add hnone (hfree l' hl) ?_ ?_ ?_ (fun e' => ?_) rfl ?_
          fun x hx => ?_
        · simpa [lruPushTail] using (h.nodes l' hl).list.pushTail (hfree l' hl)
        · simp [lruPushTail]
        · simp [lruPushTail]
        · rcases eq_or_ne e' e with rfl | hee
          · simp only [lruPushTail, setLinks_layers, setLayer_layers, Function.update_self,
              h.records, hp, ↓reduceIte]
            exact congrArg some haddr.symm
          · simp [lruPushTail, hee]
        · simp [lruPushTail]
        · simp [lruPushTail, hx]
      · have hL : ∀ L, ((T'.setSlot s { expert := some e, layer := some l, pins := 0 }).setLayer l
            L |> fun T₁ => lruPushTail T₁ l s).layers l' = T'.layers l' := by
          intro L
          simp [lruPushTail, hne]
        rw [Function.update_of_ne hne, hL]
        refine (h.nodes l' hl').frame rfl ?_ fun x hx => ?_
        · simpa [lruPushTail] using (h.nodes l' hl').list.pushTail_disjoint (h.nodes l hl).list
            (hfree l' hl') ((h.nodes l' hl').disjoint (h.nodes l hl) hne)
        · have hxs : x ≠ s := fun hxs => hfree l' hl' (hxs ▸ hx)
          simp [lruPushTail, hxs]
    · rw [List.filterMap_append]
      have h₁ := flatMap_update_perm ns hl (ns l ++ [s])
      have h₂ := flatMap_perm_cons ns hl
      have h₃ := h.places
      rw [List.perm_iff_count] at *
      intro a
      have h₁ := h₁ a
      have h₂ := h₂ a
      have h₃ := h₃ a
      simp only [List.count_append, List.filterMap_cons, hs, List.filterMap_nil] at *
      omega
    · rcases eq_or_ne l' l with rfl | hne
      · rcases eq_or_ne e' e with rfl | hee
        · simp [lruPushTail, hs]
        · simp [lruPushTail, hee, h.slotOf]
      · simp [lruPushTail, hne, h.slotOf]
    · rcases eq_or_ne l' l with rfl | hne
      · simp [lruPushTail, h.records]
      · simp [lruPushTail, hne, h.records]
    · rcases eq_or_ne l' l with rfl | hne
      · rcases eq_or_ne e' e with rfl | hee
        · simp [lruPushTail]
        · simp only [lruPushTail, setLinks_layers, setLayer_layers, Function.update_self,
            Function.update_of_ne hee] at hc ⊢
          exact h.cold l' e' hc
      · simp only [lruPushTail, setLinks_layers, setLayer_layers, setSlot_layers,
          Function.update_of_ne hne] at hc ⊢
        exact h.cold l' e' hc

theorem mem_pairs : (l, e) ∈ T.pairs ↔ l < T.nLayers ∧ e < T.nExperts := by
  simp [Tier.pairs]

theorem nodup_pairs (T : Tier) : T.pairs.Nodup := by
  rw [Tier.pairs, List.nodup_flatMap]
  refine ⟨fun l _ => List.nodup_range.map fun a b h => (Prod.mk.inj h).2, ?_⟩
  refine List.nodup_range.imp fun {l l'} hne => ?_
  simp only [Function.onFun, List.disjoint_left, List.mem_map]
  rintro _ ⟨e, -, rfl⟩ ⟨e', -, h⟩
  exact hne (Prod.mk.inj h).1.symm

/-- The adoption loop over a list of different pairs. -/
theorem adopted_foldl (hf : Fresh T) (hd : DistinctArena T) {ps : List (ℕ × ℕ)}
    (hnd : ps.Nodup) (hlt : ∀ le ∈ ps, le.1 < T.nLayers) :
    ∃ ns, Adopted T ps (ps.foldl (fun T' le => adoptOne T' le.1 le.2) T) ns := by
  induction ps using List.reverseRecOn with
  | nil => exact ⟨_, adopted_nil hf⟩
  | append_singleton ps le ih =>
    obtain ⟨hnd', -, hnew⟩ := List.nodup_append.mp hnd
    obtain ⟨ns, h⟩ := ih hnd' fun le' hm => hlt le' (by simp [hm])
    rw [List.foldl_append]
    exact h.step hd (hlt le (by simp)) fun hm => hnew _ hm _ (by simp) rfl

theorem storeTailAdopt_on (hf : Fresh T) (hon : T.tail.on = true) (hd : DistinctArena T) :
    (storeTailAdopt T).tail.on = true := by
  obtain ⟨ns, h⟩ := adopted_foldl hf hd (nodup_pairs T) fun le hm => (mem_pairs.mp hm).1
  rw [storeTailAdopt, if_pos hon]
  exact h.config.2.1.trans hon

/-- **`cpu_tier_store_tail_adopt` establishes the invariant**: over distinct arena records
every layer is well formed, and the slots that hold no record are spare. -/
theorem arenaOk_storeTailAdopt (hf : Fresh T) (hon : T.tail.on = true) (hd : DistinctArena T) :
    ∃ ns, ArenaOk (storeTailAdopt T) ns [] := by
  obtain ⟨ns, h⟩ := adopted_foldl hf hd (nodup_pairs T) fun le hm => (mem_pairs.mp hm).1
  obtain ⟨hn, -, ha, hk⟩ := h.config
  rw [storeTailAdopt, if_pos hon]
  refine ⟨ns, fun l hl => ?_, ?_⟩
  · rw [setFree_nLayers, hn] at hl
    refine ⟨(h.nodes l hl).frame rfl (h.nodes l hl).list fun _ _ => ⟨rfl, rfl⟩,
      fun e he hc => ?_⟩
    -- a registered record of a cold expert is in the arena, hence was adopted
    rw [setFree_layers] at he hc ⊢
    by_contra hp
    obtain ⟨p, hp⟩ := Option.ne_none_iff_exists'.mp hp
    rw [h.records] at hp
    rcases h.cold l e hc with hc | ⟨s, hs⟩
    · obtain ⟨s, hs⟩ := Option.isSome_iff_exists.mp (hd.arena l e p hc hp)
      have hr : T.recordSlot l e = some s := by simp [Tier.recordSlot, hp, hs]
      rw [(h.slotOf l e s).mpr ⟨mem_pairs.mpr (hf.record_lt l e p hp), hr⟩] at he
      simp at he
    · simp [hs] at he
  · have hused : ∀ s, s ∈ T.used → s < T.tail.nSlots := by
      intro s hs
      obtain ⟨le, -, hr⟩ := List.mem_filterMap.mp hs
      obtain ⟨p, -, hat⟩ := Option.bind_eq_some_iff.mp hr
      exact (addr_of_slotAt hat).2
    have hnd : T.used.Nodup := by
      refine List.Nodup.filterMap (fun a b s hs hs' => ?_) (nodup_pairs T)
      obtain ⟨h₁, h₂⟩ := hd.distinct _ _ _ _ s hs hs'
      exact Prod.ext h₁ h₂
    simp only [setFree_tail, setFree_nLayers, hn, hk, List.append_nil]
    refine (List.Perm.append_left _ h.places).trans ?_
    rw [List.perm_ext_iff_of_nodup _ List.nodup_range]
    · intro s
      have hs := hused s
      simp only [List.mem_append, List.mem_filter, List.mem_range, decide_eq_true_eq]
      change s < T.tail.nSlots ∧ s ∉ T.used ∨ s ∈ T.used ↔ s < T.tail.nSlots
      tauto
    · refine List.Nodup.append (List.nodup_range.filter _) hnd fun s hs hs' => ?_
      simp only [List.mem_filter, decide_eq_true_eq] at hs
      exact hs.2 hs'

theorem pins_adoptOne (h : ∀ s, (T.tail.slots s).pins = 0) (l e s : ℕ) :
    ((adoptOne T l e).tail.slots s).pins = 0 := by
  rw [adoptOne]
  split
  · exact h s
  · next s' _ =>
    rcases eq_or_ne s s' with rfl | hne
    · simp [lruPushTail]
    · simpa [lruPushTail, hne] using h s

/-- Nothing is pinned when the records are adopted. -/
theorem pins_storeTailAdopt (hf : Fresh T) (s : ℕ) :
    ((storeTailAdopt T).tail.slots s).pins = 0 := by
  have key : ∀ ps : List (ℕ × ℕ), ∀ T : Tier, (∀ s, (T.tail.slots s).pins = 0) →
      ((ps.foldl (fun T' le => adoptOne T' le.1 le.2) T).tail.slots s).pins = 0 := by
    intro ps
    induction ps with
    | nil => exact fun T h => h s
    | cons le ps ih => exact fun T h => ih _ (pins_adoptOne h le.1 le.2)
  rw [storeTailAdopt]
  split
  · exact key _ T hf.pins
  · exact hf.pins s

end CpuTier

end VllmMoet
