import Mathlib.Data.List.ReduceOption
import VllmMoet.CpuTier.Arena

/-!
# Pins are held by their takers

Four kinds of holders pin a slot: the dispatcher while its kernel reads the record, a
caller of `record_acquire` until its `record_release`, a prefill round until its
`prefill_release`, and a `prefill_fetch` that failed after it had pinned records (nobody
releases these). The counters do not say who holds what; `Sys.holders` does.

`cpu_tier_prefill_release` drops a pin of every listed expert that is resident when it is
called, also of one that was cold when the round was fetched: such a pin is somebody
else's (`pins_lost`). In every run whose steps all meet `PinsRespected` no pin is lost:
every slot has exactly as many pins as holders, and every holder's record stays in its slot.
-/

namespace VllmMoet

namespace CpuTier

variable {c : Config} {T T' : Tier} {F : Frame} {D D' : Dispatcher} {S S' : Sys}
  {ns : ℕ → List ℕ} {tg : List ℕ} {l e s : ℕ}

/-- The slots that are pinned, with one entry for every pin that was taken and not dropped
by its taker. -/
def Sys.holders (S : Sys) : List ℕ :=
  S.disp.frame.pinned ++ S.acquired.map Held.slot ++
    (S.fetching ++ S.fetched).flatMap Fetch.slots ++ S.leaked

/-- The callers release what they hold: a `record_release` names the pair of a record that
was acquired, a `prefill_release` the layer and the experts of a round that was fetched. -/
def Disciplined (S : Sys) : Act → Prop
  | .release layer expert i =>
    (S.acquired[i]?).any (fun h => layer == h.layer && expert == h.expert) = true
  | .prefillRelease layer experts i =>
    (S.fetched[i]?).any (fun f => layer == f.layer && experts == f.experts) = true
  | _ => True

instance (S : Sys) (a : Act) : Decidable (Disciplined S a) :=
  match a with
  | .release _ _ _ => inferInstanceAs (Decidable (_ = true))
  | .prefillRelease _ _ _ => inferInstanceAs (Decidable (_ = true))
  | .serve _ _ _ | .run | .kernel _ | .submit _ | .complete _ _ | .acquire _ _
  | .acquireRead _ _ | .prefillFetch _ _ _ | .prefillRead _ _ => isTrue trivial

/-- A `prefill_release` drops only pins of its round: no expert of the list that was cold at
the fetch is resident and pinned now. -/
def OwnPins (S : Sys) : Act → Prop
  | .prefillRelease _ _ i => ∀ f, S.fetched[i]? = some f → ∀ x ∈ f.experts.zip f.taken,
      x.2 = none → ∀ e s, checked x.1 S.tier.nExperts = some e →
        (S.tier.layers f.layer).slotOf e = some s → (S.tier.tail.slots s).pins = 0
  | _ => True

instance (S : Sys) (a : Act) : Decidable (OwnPins S a) :=
  match a with
  | .prefillRelease _ _ i =>
    decidable_of_iff (∀ f ∈ S.fetched[i]?.toList, ∀ x ∈ f.experts.zip f.taken, x.2 = none →
        ∀ e ∈ (checked x.1 S.tier.nExperts).toList,
          ∀ s ∈ ((S.tier.layers f.layer).slotOf e).toList, (S.tier.tail.slots s).pins = 0)
      (by
        simp only [OwnPins, Option.mem_toList]
        exact ⟨fun h f hf x hx hn e s he => h f hf x hx hn e he s,
          fun h f hf x hx hn e he s => h f hf x hx hn e s he⟩)
  | .serve _ _ _ | .run | .kernel _ | .submit _ | .complete _ _ | .acquire _ _
  | .acquireRead _ _ | .release _ _ _ | .prefillFetch _ _ _ | .prefillRead _ _ => isTrue trivial

/-- The most pins a step may take on one slot. -/
def Act.takes : Act → ℕ
  | .run => maxPairs.toNat
  | .acquire _ _ => 1
  | .acquireRead _ _ => 1
  | .prefillFetch _ experts _ => experts.length
  | _ => 0

/-- A step that respects the pins: callers release what they hold, a `prefill_release` drops
only its round's pins, no request is begun while a prepared read still waits to be
submitted, and no slot gets 2³² holders. -/
structure PinsRespected (S : Sys) (a : Act) : Prop where
  disciplined : Disciplined S a
  own : OwnPins S a
  clean : CleanStart S a
  bounded : ∀ s, S.holders.count s + a.takes < 2 ^ 32

/-! ### Pin counts of the sections -/

@[simp] theorem pins_pinUp (T : Tier) (s x : ℕ) : ((T.pinUp s).tail.slots x).pins =
    if x = s then ((T.tail.slots x).pins + 1) % 2 ^ 32 else (T.tail.slots x).pins := by
  rcases eq_or_ne x s with rfl | hx
  · simp [Tier.pinUp]
  · simp [Tier.pinUp, hx]

@[simp] theorem pins_pinDown (T : Tier) (s x : ℕ) : ((T.pinDown s).tail.slots x).pins =
    if x = s then (T.tail.slots x).pins - 1 else (T.tail.slots x).pins := by
  rcases eq_or_ne x s with rfl | hx
  · simp [Tier.pinDown]
  · simp [Tier.pinDown, hx]

@[simp] theorem pins_setFree (T : Tier) (fs : List ℕ) (x : ℕ) :
    ((T.setFree fs).tail.slots x).pins = (T.tail.slots x).pins := rfl

@[simp] theorem pins_pushFree (T : Tier) (s x : ℕ) :
    ((T.pushFree s).tail.slots x).pins = (T.tail.slots x).pins := rfl

@[simp] theorem pins_touch (T : Tier) (l s x : ℕ) :
    ((lruPushTail (lruUnlink T l s) l s).tail.slots x).pins = (T.tail.slots x).pins := rfl

/-- No expert changes its slot. -/
def SameSlotOf (T T' : Tier) : Prop := ∀ l, (T'.layers l).slotOf = (T.layers l).slotOf

/-- A slot that moves to the back of its list stays where it is. -/
theorem sameSlotOf_touch (T : Tier) (l s : ℕ) :
    SameSlotOf T (lruPushTail (lruUnlink T l s) l s) := by
  intro l'
  rcases eq_or_ne l' l with rfl | hne
  · simp [lruPushTail, lruUnlink]
  · simp [lruPushTail, lruUnlink, hne]

/-- Pins are no part of the layers. -/
theorem layers_unpinAll (T : Tier) (ss : List ℕ) : (unpinAll T ss).layers = T.layers := by
  induction ss generalizing T with
  | nil => rfl
  | cons s ss ih => exact ih (T.pinDown s)

/-- Unpinning drops one pin per entry. -/
theorem pins_unpinAll (T : Tier) (ss : List ℕ) (x : ℕ) :
    ((unpinAll T ss).tail.slots x).pins = (T.tail.slots x).pins - ss.count x := by
  induction ss generalizing T with
  | nil => simp [unpinAll]
  | cons s ss ih =>
    have := ih (T.pinDown s)
    rw [unpinAll, List.foldl_cons]
    rw [unpinAll] at this
    rw [this, pins_pinDown, List.count_cons]
    rcases eq_or_ne x s with rfl | hx
    · simp; omega
    · simp [hx, hx.symm]

/-- The grouping section pins resident slots of the layer, each as often as it notes it. -/
structure Grouped (T : Tier) (F : Frame) (bound : ℕ) (TF : Tier × Frame) (new : List ℕ) :
    Prop where
  pinned : TF.2.pinned = F.pinned ++ new
  length : new.length ≤ bound
  slotOf : SameSlotOf T TF.1
  resident : ∀ s ∈ new, ∃ e, (T.layers F.layer).slotOf e = some s
  pins : (∀ x, (T.tail.slots x).pins + bound < 2 ^ 32) →
    ∀ x, (TF.1.tail.slots x).pins = (T.tail.slots x).pins + new.count x

theorem grouped_refl (T : Tier) (F : Frame) (bound : ℕ) (F' : Frame)
    (h : F'.pinned = F.pinned) : Grouped T F bound (T, F') [] :=
  ⟨by simp [h], by simp, fun _ => rfl, by simp, fun _ _ => by simp⟩

/-- An expert that is looked up pins its own slot at most. -/
theorem exists_grouped_groupExpert (T : Tier) (F : Frame) (e k : ℕ) :
    ∃ new, Grouped T F 1 (groupExpert T F e k) new := by
  simp only [groupExpert]
  split
  · split
    · exact ⟨[], grouped_refl T F 1 _ rfl⟩
    · exact ⟨[], grouped_refl T F 1 _ rfl⟩
  · split
    · exact ⟨[], grouped_refl T F 1 _ rfl⟩
    · next s hs =>
      split at hs
      · refine ⟨[s], rfl, by simp, sameSlotOf_touch (T.pinUp s) F.layer s, ?_, fun hb x => ?_⟩
        · intro s' hs'
          obtain rfl := List.mem_singleton.mp hs'
          exact ⟨e, hs⟩
        · rw [pins_touch, pins_pinUp]
          have := hb x
          rcases eq_or_ne x s with rfl | hx
          · rw [if_pos rfl, Nat.mod_eq_of_lt this]
            simp
          · simp [hx, hx.symm]
      · simp at hs

/-- The pairs of a request pin one slot each at most. -/
theorem exists_grouped_groupPairs (T : Tier) (F : Frame) (is : List ℕ) (k : ℕ) :
    ∃ new, Grouped T F is.length (groupPairs is k T F) new := by
  induction is generalizing T F k with
  | nil => exact ⟨[], grouped_refl T F 0 F rfl⟩
  | cons i is ih =>
    rw [groupPairs]
    set e := (F.req.pairs i).expert
    set TF := if F.lastE = some e then (T, F)
      else groupExpert T { F with lastE := some e } e k with hTF
    -- a pair of the expert before pins nothing, a pair of another one looks it up
    obtain ⟨new₁, h₁, hlay₁⟩ : ∃ new, Grouped T F 1 TF new ∧ TF.2.layer = F.layer := by
      rw [hTF]
      split
      · exact ⟨[], grouped_refl T F 1 F rfl, rfl⟩
      · obtain ⟨new, hg⟩ := exists_grouped_groupExpert T { F with lastE := some e } e k
        refine ⟨new, ⟨hg.pinned, hg.length, hg.slotOf, hg.resident, hg.pins⟩, ?_⟩
        simp only [groupExpert]
        repeat' split
        all_goals rfl
    have hle₁ := h₁.length
    split
    · refine ⟨new₁, h₁.pinned, by simp; omega, h₁.slotOf, h₁.resident, fun hb => h₁.pins ?_⟩
      intro x
      have := hb x
      simp only [List.length_cons] at this
      omega
    · obtain ⟨new₂, h₂⟩ := ih TF.1 (TF.2.addPair k i) (k + 1)
      have hle₂ := h₂.length
      refine ⟨new₁ ++ new₂, ?_, by simp; omega, fun l => (h₂.slotOf l).trans (h₁.slotOf l), ?_,
        fun hb x => ?_⟩
      · rw [h₂.pinned]
        simp only [Frame.addPair, h₁.pinned, List.append_assoc]
      · intro s hs
        rcases List.mem_append.mp hs with hs | hs
        · exact h₁.resident s hs
        · obtain ⟨e', he'⟩ := h₂.resident s hs
          refine ⟨e', ?_⟩
          rw [h₁.slotOf] at he'
          simpa only [Frame.addPair, hlay₁] using he'
      · have hp₁ : ∀ x, (TF.1.tail.slots x).pins = (T.tail.slots x).pins + new₁.count x := by
          refine h₁.pins fun x => ?_
          have := hb x
          simp only [List.length_cons] at this
          omega
        rw [h₂.pins (fun x => ?_) x, hp₁, List.count_append, Nat.add_assoc]
        have := hb x
        have hc : new₁.count x ≤ new₁.length := List.count_le_length
        rw [hp₁]
        simp only [List.length_cons] at this
        omega

/-- The listed expert `x` and what a round took for it agree with the layer. -/
def TakenOk (nExperts : ℕ) (slotOf : ℕ → Option ℕ) (x : ℤ) (t : Option ℕ) : Prop :=
  ∀ s, t = some s → ∃ e, checked x nExperts = some e ∧ slotOf e = some s

/-- The locked loop of `prefill_fetch` pins the resident experts, each as often as it is
listed. -/
structure Fetched (T : Tier) (l : ℕ) (xs : List ℤ) (r : Bool × Tier × List (Option ℕ)) :
    Prop where
  layers : r.2.1.layers = T.layers
  taken : r.1 = true → List.Forall₂ (TakenOk T.nExperts (T.layers l).slotOf) xs r.2.2
  resident : ∀ s ∈ r.2.2.reduceOption, ∃ e, (T.layers l).slotOf e = some s
  length : r.2.2.reduceOption.length ≤ xs.length
  pins : (∀ x, (T.tail.slots x).pins + xs.length < 2 ^ 32) →
    ∀ x, (r.2.1.tail.slots x).pins = (T.tail.slots x).pins + r.2.2.reduceOption.count x

/-- A fetch pins the slots of the experts that are resident. -/
theorem fetched_pinExperts (T : Tier) (l : ℕ) (xs : List ℤ) :
    Fetched T l xs (Sys.pinExperts T l xs) := by
  induction xs generalizing T with
  | nil => exact ⟨rfl, fun _ => .nil, by simp [Sys.pinExperts], by simp [Sys.pinExperts],
      fun _ x => by simp [Sys.pinExperts]⟩
  | cons x xs ih =>
    have fail : Fetched T l (x :: xs) (false, T, []) :=
      ⟨rfl, (by simp), by simp, by simp, fun _ x => by simp⟩
    rw [Sys.pinExperts]
    split
    · exact fail
    · next e he =>
      split
      · next s hs =>
        have h := ih (T.pinUp s)
        refine ⟨h.layers, fun hr => .cons ?_ (h.taken hr), ?_, ?_, fun hb y => ?_⟩
        · rintro _ ⟨⟩
          exact ⟨e, he, hs⟩
        · intro s' hs'
          rw [List.reduceOption_cons_of_some, List.mem_cons] at hs'
          rcases hs' with rfl | hs'
          · exact ⟨e, hs⟩
          · exact h.resident s' hs'
        · simpa using h.length
        · -- one pin has been used up, and there is room for the rest
          have hb₁ : ∀ y, ((T.pinUp s).tail.slots y).pins + xs.length < 2 ^ 32 := by
            intro y
            have := hb y
            rw [pins_pinUp]
            simp only [List.length_cons] at this
            split
            · rw [Nat.mod_eq_of_lt (by omega)]
              omega
            · omega
          have hby := hb y
          simp only [List.length_cons] at hby
          simp only [List.reduceOption_cons_of_some, List.count_cons, h.pins hb₁ y, pins_pinUp]
          rcases eq_or_ne y s with rfl | hys
          · rw [if_pos rfl, Nat.mod_eq_of_lt (by omega)]
            simp
            omega
          · simp [hys, hys.symm]
      · next hs =>
        split
        · have h := ih T
          refine ⟨h.layers, fun hr => .cons (fun s hs => by simp at hs) (h.taken hr), ?_, ?_, fun hb y => ?_⟩
          · simpa using h.resident
          · have := h.length
            simp only [List.reduceOption_cons_of_none, List.length_cons]
            omega
          · simp only [List.reduceOption_cons_of_none]
            refine h.pins (fun x => ?_) y
            have := hb x
            simp only [List.length_cons] at this
            omega
        · exact fail

/-- The loop of `prefill_release` drops the round's pins, as long as the experts it found
cold are not pinned now. -/
theorem pins_unpinExperts {xs : List ℤ} {taken : List (Option ℕ)} {nExperts : ℕ}
    {slotOf : ℕ → Option ℕ} (h : List.Forall₂ (TakenOk nExperts slotOf) xs taken)
    (hn : T.nExperts = nExperts) (hslot : (T.layers l).slotOf = slotOf)
    (hown : ∀ x ∈ xs.zip taken, x.2 = none → ∀ e s, checked x.1 nExperts = some e →
      slotOf e = some s → (T.tail.slots s).pins = 0) :
    (Sys.unpinExperts T l xs).layers = T.layers ∧
      ∀ x, ((Sys.unpinExperts T l xs).tail.slots x).pins =
        (T.tail.slots x).pins - taken.reduceOption.count x := by
  induction h generalizing T with
  | nil => exact ⟨rfl, fun x => by simp [Sys.unpinExperts]⟩
  | @cons x t xs taken hx hrest ih =>
    have hrec : ∀ y ∈ xs.zip taken, y.2 = none → ∀ e s, checked y.1 nExperts = some e →
        slotOf e = some s → (T.tail.slots s).pins = 0 := fun y hy => hown y (by simp [hy])
    rw [Sys.unpinExperts, hn, hslot]
    cases t with
    | some s =>
      -- one of the round's own pins
      obtain ⟨e, he, hs⟩ := hx s rfl
      simp only [he, hs]
      obtain ⟨hl, hp⟩ := ih (T := T.pinDown s) hn hslot fun y hy hnone e' s' he' hs' => by
        rw [pins_pinDown, hrec y hy hnone e' s' he' hs']
        simp
      refine ⟨hl, fun y => ?_⟩
      rw [hp, pins_pinDown, List.reduceOption_cons_of_some, List.count_cons]
      rcases eq_or_ne y s with rfl | hys
      · simp
        omega
      · simp [hys, hys.symm]
    | none =>
      simp only [List.reduceOption_cons_of_none]
      cases he : checked x nExperts with
      | none => exact ih hn hslot hrec
      | some e =>
        cases hs : slotOf e with
        | none => simpa only [hs] using ih hn hslot hrec
        | some s =>
          -- cold at the fetch and resident now, but not pinned
          have hzero := hown (x, none) (by simp) rfl e s he hs
          simp only [hs]
          obtain ⟨hl, hp⟩ := ih (T := T.pinDown s) hn hslot fun y hy hnone e' s' he' hs' => by
            rw [pins_pinDown, hrec y hy hnone e' s' he' hs']
            simp
          refine ⟨hl, fun y => ?_⟩
          rw [hp, pins_pinDown]
          rcases eq_or_ne y s with rfl | hys
          · simp [hzero]
          · simp [hys]

/-! ### The invariant -/

/-- The record of expert `e` of layer `l` is in slot `s`. -/
def Tier.Resident (T : Tier) (l e s : ℕ) : Prop :=
  l < T.nLayers ∧ (T.layers l).slotOf e = some s

/-- What a round took is in the slots it was given. -/
def Fetch.Ok (T : Tier) (f : Fetch) : Prop :=
  f.layer < T.nLayers ∧
    List.Forall₂ (TakenOk T.nExperts (T.layers f.layer).slotOf) f.experts f.taken

/-- Every holder's record is where the holder got it, and every slot has as many pins as
holders. -/
structure PinsOk (S : Sys) : Prop where
  pinned : ∀ s ∈ S.disp.frame.pinned, ∃ e, S.tier.Resident S.disp.frame.layer e s
  acquired : ∀ h ∈ S.acquired, S.tier.Resident h.layer h.expert h.slot
  rounds : ∀ f ∈ S.fetching ++ S.fetched, f.Ok S.tier
  leaked : ∀ s ∈ S.leaked, ∃ l e, S.tier.Resident l e s
  pins : ∀ s, (S.tier.tail.slots s).pins = S.holders.count s
  unpinned : S.disp.pc = .idle ∨ S.disp.pc = .ack → S.disp.frame.pinned = []
  order : S.disp.pc = .group → S.disp.frame.order.length ≤ maxPairs.toNat

/-- Every slot that was taken was the slot of an expert. -/
theorem exists_of_mem_taken {nExperts : ℕ} {slotOf : ℕ → Option ℕ} {xs : List ℤ}
    {taken : List (Option ℕ)} (h : List.Forall₂ (TakenOk nExperts slotOf) xs taken) :
    ∀ s ∈ taken.reduceOption, ∃ e, slotOf e = some s := by
  induction h with
  | nil => simp
  | @cons x t xs taken hx _ ih =>
    cases t with
    | none => simpa using ih
    | some s =>
      intro s' hs'
      rw [List.reduceOption_cons_of_some, List.mem_cons] at hs'
      rcases hs' with rfl | hs'
      · obtain ⟨e, -, he⟩ := hx s' rfl
        exact ⟨e, he⟩
      · exact ih s' hs'

/-- The slots a round took are resident. -/
theorem Fetch.Ok.resident {f : Fetch} (h : f.Ok T) (hs : s ∈ f.slots) :
    ∃ e, T.Resident f.layer e s := by
  obtain ⟨e, he⟩ := exists_of_mem_taken h.2 s hs
  exact ⟨e, h.1, he⟩

/-- Rounds survive a step that keeps their slots. -/
theorem forall₂_takenOk_of_keeps {nExperts : ℕ} {slotOf slotOf' : ℕ → Option ℕ} {xs : List ℤ}
    {taken : List (Option ℕ)} (h : List.Forall₂ (TakenOk nExperts slotOf) xs taken)
    (hk : ∀ e, ∀ s ∈ taken.reduceOption, slotOf e = some s → slotOf' e = some s) :
    List.Forall₂ (TakenOk nExperts slotOf') xs taken := by
  induction h with
  | nil => exact .nil
  | @cons x t xs taken hx _ ih =>
    refine .cons ?_ (ih fun e s hs => hk e s ?_)
    · rintro s rfl
      obtain ⟨e, he, hs⟩ := hx s rfl
      exact ⟨e, he, hk e s (by simp) hs⟩
    · cases t <;> simp [hs]

/-- The dispatcher holds what it has pinned. -/
theorem mem_holders_of_pinned (hs : s ∈ S.disp.frame.pinned) : s ∈ S.holders := by
  simp [Sys.holders, hs]

/-- An acquire holds the slot of its record. -/
theorem mem_holders_of_acquired {r : Held} (hr : r ∈ S.acquired) : r.slot ∈ S.holders := by
  simp only [Sys.holders, List.mem_append, List.mem_map]
  exact .inl (.inl (.inr ⟨r, hr, rfl⟩))

/-- A fetch holds its slots. -/
theorem mem_holders_of_round {f : Fetch} (hf : f ∈ S.fetching ++ S.fetched)
    (hs : s ∈ f.slots) : s ∈ S.holders := by
  simp only [Sys.holders, List.mem_append, List.mem_flatMap]
  exact .inl (.inr ⟨f, List.mem_append.mp hf, hs⟩)

/-- A slot that nobody will release is held for good. -/
theorem mem_holders_of_leaked (hs : s ∈ S.leaked) : s ∈ S.holders := by
  simp [Sys.holders, hs]

/-- Every holder's slot is some expert's. -/
theorem PinsOk.resident (h : PinsOk S) {s : ℕ} (hs : s ∈ S.holders) :
    ∃ l e, S.tier.Resident l e s := by
  simp only [Sys.holders, List.mem_append, List.mem_map, List.mem_flatMap] at hs
  rcases hs with ((hs | ⟨r, hr, rfl⟩) | ⟨f, hf, hs⟩) | hs
  · exact ⟨_, h.pinned s hs⟩
  · exact ⟨_, _, h.acquired r hr⟩
  · exact ⟨_, (h.rounds f (List.mem_append.mpr hf)).resident hs⟩
  · exact h.leaked s hs

/-- The invariant after a step: the holders before and after keep their slots, new holders
have theirs, and the pins are counted. -/
theorem PinsOk.next (h : PinsOk S) (hc : S'.tier.config = S.tier.config)
    (hk : ∀ l e s, s ∈ S.holders → s ∈ S'.holders → (S.tier.layers l).slotOf e = some s →
      (S'.tier.layers l).slotOf e = some s)
    (hpinned : ∀ s ∈ S'.disp.frame.pinned,
      (s ∈ S.disp.frame.pinned ∧ S'.disp.frame.layer = S.disp.frame.layer) ∨
        ∃ e, S'.tier.Resident S'.disp.frame.layer e s)
    (hacq : ∀ r ∈ S'.acquired, r ∈ S.acquired ∨ S'.tier.Resident r.layer r.expert r.slot)
    (hrounds : ∀ f ∈ S'.fetching ++ S'.fetched, f ∈ S.fetching ++ S.fetched ∨ f.Ok S'.tier)
    (hleak : ∀ s ∈ S'.leaked, s ∈ S.holders ∨ ∃ l e, S'.tier.Resident l e s)
    (hpins : ∀ s, (S'.tier.tail.slots s).pins = S'.holders.count s)
    (hunp : S'.disp.pc = .idle ∨ S'.disp.pc = .ack → S'.disp.frame.pinned = [])
    (horder : S'.disp.pc = .group → S'.disp.frame.order.length ≤ maxPairs.toNat) :
    PinsOk S' := by
  have hl := nLayers_of_config hc
  refine ⟨fun s hs => ?_, fun r hr => ?_, fun f hf => ?_, fun s hs => ?_, hpins, hunp, horder⟩
  · rcases hpinned s hs with ⟨hold, hlay⟩ | hnew
    · obtain ⟨e, hlt, he⟩ := h.pinned s hold
      rw [hlay]
      exact ⟨e, hl ▸ hlt, hk _ e s (mem_holders_of_pinned hold) (mem_holders_of_pinned hs) he⟩
    · exact hnew
  · rcases hacq r hr with hold | hnew
    · obtain ⟨hlt, he⟩ := h.acquired r hold
      exact ⟨hl ▸ hlt,
        hk _ _ _ (mem_holders_of_acquired hold) (mem_holders_of_acquired hr) he⟩
    · exact hnew
  · rcases hrounds f hf with hold | hnew
    · obtain ⟨hlt, hf'⟩ := h.rounds f hold
      refine ⟨hl ▸ hlt, ?_⟩
      rw [show S'.tier.nExperts = S.tier.nExperts from congrArg Config.nExperts hc]
      exact forall₂_takenOk_of_keeps hf' fun e s hs he =>
        hk _ e s (mem_holders_of_round hold hs) (mem_holders_of_round hf hs) he
    · exact hnew
  · rcases hleak s hs with hold | hnew
    · obtain ⟨l, e, hlt, he⟩ := h.resident hold
      exact ⟨l, e, hl ▸ hlt, hk l e s hold (mem_holders_of_leaked hs) he⟩
    · exact hnew

/-- A step that keeps every pinned record keeps the holders' records. -/
theorem PinsOk.keeps (h : PinsOk S) (hk : Keeps S.tier T) {l e s : ℕ} (hs : s ∈ S.holders)
    (he : (S.tier.layers l).slotOf e = some s) : (T.layers l).slotOf e = some s :=
  hk l e s he (by rw [h.pins s]; exact List.count_pos_iff.mpr hs)

/-- The target of an unfinished read has no holder and no pin. -/
theorem PinsOk.pins_target (h : PinsOk S) (ha : ArenaOk S.tier ns (s :: tg)) :
    (S.tier.tail.slots s).pins = 0 := by
  rw [h.pins s, List.count_eq_zero]
  intro hs
  obtain ⟨l, e, hlt, he⟩ := h.resident hs
  exact ha.target_notMem hlt (by simp) (((ha.layer l hlt).mem s).mpr ⟨e, he⟩)

/-! ### The dispatcher's steps -/

/-- A step of the dispatcher: only its own pins change. -/
theorem PinsOk.disp (h : PinsOk S) (hc : D.tier.config = S.tier.config)
    (hk : ∀ l e s, s ∈ S.holders → s ∈ { S with disp := D }.holders →
      (S.tier.layers l).slotOf e = some s → (D.tier.layers l).slotOf e = some s)
    (hpinned : ∀ s ∈ D.frame.pinned,
      (s ∈ S.disp.frame.pinned ∧ D.frame.layer = S.disp.frame.layer) ∨
        ∃ e, D.tier.Resident D.frame.layer e s)
    (hpins : ∀ s, (D.tier.tail.slots s).pins + S.disp.frame.pinned.count s =
      (S.tier.tail.slots s).pins + D.frame.pinned.count s)
    (hunp : D.pc = .idle ∨ D.pc = .ack → D.frame.pinned = [])
    (horder : D.pc = .group → D.frame.order.length ≤ maxPairs.toNat) :
    PinsOk { S with disp := D } := by
  refine h.next hc hk hpinned (fun r hr => .inl hr) (fun f hf => .inl hf)
    (fun s hs => .inl (mem_holders_of_leaked hs)) (fun s => ?_) hunp horder
  have h₁ := h.pins s
  have h₂ := hpins s
  change (D.tier.tail.slots s).pins = _
  simp only [Sys.holders, List.count_append] at h₁ ⊢
  omega

/-- A step of the dispatcher that leaves the pins and the pinned slots alone. -/
theorem PinsOk.disp_same (h : PinsOk S) (hc : D.tier.config = S.tier.config)
    (hk : Keeps S.tier D.tier) (hp : SamePins S.tier D.tier)
    (hpinned : D.frame.pinned = S.disp.frame.pinned)
    (hlayer : D.frame.layer = S.disp.frame.layer)
    (hunp : D.pc = .idle ∨ D.pc = .ack → D.frame.pinned = [])
    (horder : D.pc ≠ .group) : PinsOk { S with disp := D } := by
  refine h.disp hc (fun l e s hs _ he => h.keeps hk hs he) (fun s hs => .inl ⟨hpinned ▸ hs, hlayer⟩)
    (fun s => ?_) hunp fun hg => absurd hg horder
  rw [hp s, hpinned]

theorem samePins_refl (T : Tier) : SamePins T T := fun _ => rfl

/-- A request that is grouped has passed the size check. -/
theorem length_order_of_serve {seq : ℕ} {req : Request} (hs : D.serve l seq req = some D')
    (hg : D'.pc = .group) : D'.frame.order.length ≤ maxPairs.toNat := by
  rw [Dispatcher.serve] at hs
  split at hs
  · obtain rfl := Option.some.inj hs
    simp only at hg
    split at hg
    · next hst =>
      have hn : ¬ (req.nPairs > maxPairs ∨ req.nTokens > maxTokens) := by
        intro hbad
        simp [Frame.entry, hbad] at hst
      simp only [Frame.entry, List.length_insertionSort, List.length_range]
      simp only [maxPairs] at hn ⊢
      omega
    · simp at hg
  · simp at hs

/-- A request that is taken up has pinned nothing. -/
theorem PinsOk.serve (h : PinsOk S) {seq : ℕ} {req : Request}
    (hs : S.disp.serve l seq req = some D) : PinsOk { S with disp := D } := by
  have horder := length_order_of_serve hs
  rw [Dispatcher.serve] at hs
  split at hs
  · next hpc =>
    have hnil := h.unpinned (.inl hpc.1)
    obtain rfl := Option.some.inj hs
    exact h.disp rfl (fun _ _ _ _ _ he => he)
      (fun s hs => by simp [Frame.entry] at hs) (fun s => by simp [hnil, Frame.entry])
      (fun _ => rfl) horder
  · simp at hs

/-- The group pins its hits, as far from the end of the counter as there are pairs. -/
theorem PinsOk.runGroup (h : PinsOk S) (hok : SysOk c S)
    (hb : ∀ s, S.holders.count s + maxPairs.toNat < 2 ^ 32) (hpc : S.disp.pc = .group) :
    PinsOk { S with disp := S.disp.runGroup } := by
  obtain ⟨ns, ha⟩ := hok.disp.arena
  have hl := hok.disp.layer (by rw [hpc]; decide)
  obtain ⟨-, hc, hlay, -⟩ := ha.groupPairs hl S.disp.frame.order 0
  obtain ⟨new, hg⟩ := exists_grouped_groupPairs S.tier S.disp.frame S.disp.frame.order 0
  have hlen := h.order hpc
  refine h.disp hc (fun l e s _ _ he => ?_) (fun s hs => ?_) (fun s => ?_) (fun hq => ?_) fun hq => ?_
  · exact (congrFun (hg.slotOf l) e).trans he
  · simp only [Dispatcher.runGroup, hg.pinned, List.mem_append] at hs
    rcases hs with hs | hs
    · exact .inl ⟨hs, hlay⟩
    · obtain ⟨e, he⟩ := hg.resident s hs
      refine .inr ⟨e, ?_, ?_⟩
      · simp only [Dispatcher.runGroup]
        rw [nLayers_of_config hc, hlay]
        exact hl
      · simp only [Dispatcher.runGroup]
        rw [hlay, hg.slotOf]
        exact he
  · have hp := hg.pins (fun x => by rw [h.pins x]; have := hb x; omega) s
    simp only [Dispatcher.runGroup, hg.pinned, List.count_append, Sys.tier] at hp ⊢
    omega
  · simp only [Dispatcher.runGroup] at hq
    split at hq
    · simp at hq
    · split at hq <;> simp at hq
  · simp only [Dispatcher.runGroup] at hq
    split at hq
    · simp at hq
    · split at hq <;> simp at hq

/-- Issuing reads pins nothing. -/
theorem issueLoop_same (fuel : ℕ) (T : Tier) (R : Ring) (F : Frame) :
    (issueLoop fuel T R F).1.layers = T.layers ∧
      SamePins T (issueLoop fuel T R F).1 ∧
      (issueLoop fuel T R F).1.config = T.config ∧
      (issueLoop fuel T R F).2.2.pinned = F.pinned ∧
      (issueLoop fuel T R F).2.2.layer = F.layer := by
  induction fuel generalizing T R F with
  | zero => exact ⟨rfl, samePins_refl T, rfl, rfl, rfl⟩
  | succ fuel ih =>
    rw [issueLoop]
    split
    · exact ⟨rfl, samePins_refl T, rfl, rfl, rfl⟩
    · split
      · exact ⟨rfl, samePins_refl T, rfl, rfl, rfl⟩
      · exact ih _ _ _

/-- The reads that are issued go to spare slots. -/
theorem PinsOk.runIssue (h : PinsOk S) {next : Pc}
    (hnext : next = .submit ∨ next = .submitIdle ∨ next = .submitNext) :
    PinsOk { S with disp := S.disp.runIssue next } := by
  obtain ⟨hl, hp, hc, hpin, hlay⟩ := issueLoop_same (S.disp.frame.nCold - S.disp.frame.issued)
    S.tier S.disp.ring S.disp.frame
  refine h.disp_same hc (fun l e s hs _ => ?_) hp hpin hlay (fun hq => ?_) ?_
  · exact (congrArg (fun f => (f l).slotOf e) hl).trans hs
  · rcases hnext with rfl | rfl | rfl <;> simp [Dispatcher.runIssue] at hq
  · rcases hnext with rfl | rfl | rfl <;> simp [Dispatcher.runIssue]

/-- What the request has pinned is unpinned. -/
theorem PinsOk.runUnpin (h : PinsOk S) (hok : SysOk c S) (hpc : S.disp.pc ≠ .idle) {next : Pc}
    (hnext : next ≠ .group) : PinsOk { S with disp := S.disp.runUnpin next } := by
  obtain ⟨ns, ha⟩ := hok.disp.arena
  obtain ⟨ha', hc⟩ := ha.unpinAll S.disp.frame.pinned
  obtain ⟨ns', -, hk, hp, hc'⟩ := ha'.trim (l := S.disp.frame.layer)
    (by rw [nLayers_of_config hc]; exact hok.disp.layer hpc)
  have hpins : ∀ s, ((S.disp.runUnpin next).tier.tail.slots s).pins =
      (S.tier.tail.slots s).pins - S.disp.frame.pinned.count s := fun s =>
    (hp s).trans (pins_unpinAll _ _ s)
  refine h.disp (hc'.trans hc) (fun l e s _ hs he => ?_)
    (fun s hs => absurd hs List.not_mem_nil) (fun s => ?_) (fun _ => rfl)
    fun hg => absurd hg hnext
  · refine hk l e s (by rw [layers_unpinAll]; exact he) ?_
    have h₁ := h.pins s
    have h₂ : 0 < { S with disp := S.disp.runUnpin next }.holders.count s :=
      List.count_pos_iff.mpr hs
    rw [pins_unpinAll]
    simp only [Sys.tier, Sys.holders, List.count_append, Dispatcher.runUnpin,
      List.count_nil] at h₁ h₂ ⊢
    omega
  · have h₁ := h.pins s
    rw [hpins]
    simp only [Sys.tier, Sys.holders, List.count_append, Dispatcher.runUnpin,
      List.count_nil] at h₁ ⊢
    omega

/-- What a landing record does to the pins: its slot gets one more, as the frame notes. -/
theorem PinsOk.land (h : PinsOk S) {t : ℕ} (ha : ArenaOk S.tier ns (t :: tg))
    (hl : S.disp.frame.layer < S.tier.nLayers)
    (hb : ∀ s, S.holders.count s + maxPairs.toNat < 2 ^ 32) {k : ℕ}
    (hk : S.disp.frame.slotOfCold[k]? = some t) {R : Ring} (hpc : S.disp.pc = .reap) :
    PinsOk { S with disp := { S.disp with
      tier := (CpuTier.land S.tier S.disp.frame k).1
      ring := R
      frame := (CpuTier.land S.tier S.disp.frame k).2 } } := by
  have hs : S.disp.frame.slotOfCold.getD k 0 = t := by simp [List.getD_eq_getElem?_getD, hk]
  have hzero := h.pins_target ha
  obtain ⟨ns', -, hkeep, hp, hp', hc, x, hx⟩ :=
    ha.insert hl (S.disp.frame.eid (S.disp.frame.coldIdx.getD k 0))
  set T' := lruInsert S.tier S.disp.frame.layer
    (S.disp.frame.eid (S.disp.frame.coldIdx.getD k 0)) t with hT'
  have hpins : SamePins S.tier T' := by
    intro y
    rcases eq_or_ne y t with rfl | hy
    · rw [hp' hzero, hzero]
    · exact hp y hy
  have hland : CpuTier.land S.tier S.disp.frame k = (T'.pinUp x, { S.disp.frame with
      pinned := S.disp.frame.pinned ++ [x]
      recs := Function.update S.disp.frame.recs (S.disp.frame.coldIdx.getD k 0)
        (some (T'.tail.addr x))
      batch := S.disp.frame.batch ++ [S.disp.frame.coldIdx.getD k 0]
      landed := S.disp.frame.landed + 1 }) := by
    simp only [CpuTier.land, hs, ← hT', hx]
  rw [hland]
  refine h.disp hc (fun l e s hs _ he => h.keeps hkeep hs he) (fun s hs => ?_) (fun s => ?_)
    (fun hq => ?_) fun hq => ?_
  · rcases List.mem_append.mp hs with hs | hs
    · exact .inl ⟨hs, rfl⟩
    · obtain rfl := List.mem_singleton.mp hs
      exact .inr ⟨_, (nLayers_of_config hc).symm ▸ hl, hx⟩
  · have hbx := hb s
    have hps := h.pins s
    have hmax : maxPairs.toNat = 96 := rfl
    simp only [pins_pinUp, List.count_append, List.count_cons, List.count_nil]
    rw [hpins s]
    rcases eq_or_ne s x with rfl | hsx
    · rw [if_pos rfl, Nat.mod_eq_of_lt (by omega)]
      simp
      omega
    · simp [hsx, hsx.symm]
  · simp [hpc] at hq
  · simp [hpc] at hq

/-- **A step of the dispatcher**, by its place. -/
theorem PinsOk.run (h : PinsOk S) (hok : SysOk c S)
    (hb : ∀ s, S.holders.count s + maxPairs.toNat < 2 ^ 32) (hs : S.disp.run = some D) :
    PinsOk { S with disp := D } := by
  have stay : ∀ pc : Pc, pc ≠ .group → (pc = .idle ∨ pc = .ack → S.disp.frame.pinned = []) →
      PinsOk { S with disp := { S.disp with pc := pc } } := fun pc hg hu =>
    h.disp_same rfl (Keeps.refl _) (samePins_refl _) rfl rfl hu hg
  rw [Dispatcher.run] at hs
  cases hpc : S.disp.pc <;> simp only [hpc, reduceCtorEq, Option.some.injEq] at hs
  case group => exact hs ▸ h.runGroup hok hb hpc
  case issue => exact hs ▸ h.runIssue (.inl rfl)
  case unpinResident => exact hs ▸ h.runUnpin hok (by simp [hpc]) (by decide)
  case loop =>
    subst hs
    rw [Dispatcher.runLoop]
    split
    · split
      · exact stay .issueIdle (by decide) (by simp)
      · exact stay .wait (by decide) (by simp)
    · split
      · exact stay .drain (by decide) (by simp)
      · exact stay .unpinEnd (by decide) (by simp)
  case issueIdle => exact hs ▸ h.runIssue (.inr (.inl rfl))
  case wait =>
    subst hs
    refine h.disp_same rfl (Keeps.refl _) (samePins_refl _) rfl rfl ?_ ?_
    · split <;> simp
    · split <;> simp
  case reap =>
    subst hs
    rw [Dispatcher.runReap]
    split
    · split
      · exact stay .issueNext (by decide) (by simp)
      · refine stay (Dispatcher.batchPc S.disp.frame) ?_ ?_
        · rw [Dispatcher.batchPc]; split <;> decide
        · rw [Dispatcher.batchPc]; split <;> simp
    · next r res cq hcq =>
      have hp := reads_pop hcq
      have htag := hok.disp.tags r (hp.mem_iff.mpr (by simp))
      simp only
      split
      · exact h.disp_same rfl (Keeps.refl _) (samePins_refl _) rfl rfl (by simp [hpc])
          (by simp [hpc])
      · obtain ⟨ns, ha⟩ := hok.disp.arena
        -- the record lands in a slot that nobody else holds
        exact h.land (ha.targets_perm ((hp.map Read.slot).append_right _))
          (hok.disp.layer (by simp [hpc])) hb htag hpc
  case issueNext => exact hs ▸ h.runIssue (.inr (.inr rfl))
  case unpinBatch =>
    subst hs
    split
    · exact stay .loop (by decide) (by simp)
    · exact h.runUnpin hok (by simp [hpc]) (by decide)
  case drain =>
    rw [Dispatcher.runDrain] at hs
    split at hs
    · exact Option.some.inj hs ▸ stay .unpinEnd (by decide) (by simp)
    · split at hs
      · simp at hs
      · obtain rfl := Option.some.inj hs
        exact h.disp_same rfl (Keeps.refl _) (samePins_refl _) rfl rfl (by simp [hpc])
          (by simp [hpc])
  case unpinEnd =>
    subst hs
    have hon : S.disp.tier.tail.on = true := (congrArg Config.on hok.disp.config).trans hok.disp.on
    split
    · exact h.runUnpin hok (by simp [hpc]) (by decide)
    · -- nothing has been pinned, so the request is left with no pins
      next hno => exact stay .ack (by decide) fun _ => by simpa [hon] using hno
  case ack =>
    subst hs
    exact h.disp_same rfl (Keeps.refl _) (samePins_refl _) rfl rfl
      (fun _ => h.unpinned (.inr hpc)) (by simp [Dispatcher.runAck])

/-- The kernel of the experts moves no pin. -/
theorem PinsOk.kernel (h : PinsOk S) {rc : ℤ} (hs : S.disp.kernel rc = some D) :
    PinsOk { S with disp := D } := by
  rw [Dispatcher.kernel] at hs
  cases hpc : S.disp.pc <;> simp only [hpc, reduceCtorEq, Option.some.injEq] at hs
  all_goals
    subst hs
    exact h.disp_same rfl (Keeps.refl _) (samePins_refl _) rfl rfl (by simp) (by simp)

/-- A submission moves no pin. -/
theorem PinsOk.submit (h : PinsOk S) {a : Submitted} (hs : S.disp.submit a = some D) :
    PinsOk { S with disp := D } := by
  have hF : (S.disp.answered a).pinned = S.disp.frame.pinned ∧
      (S.disp.answered a).layer = S.disp.frame.layer := by
    rw [Dispatcher.answered]
    split <;> exact ⟨rfl, rfl⟩
  rw [Dispatcher.submit] at hs
  split at hs
  · simp at hs
  · cases hpc : S.disp.pc <;> simp only [hpc, reduceCtorEq, Option.some.injEq] at hs
    all_goals
      subst hs
      refine h.disp_same rfl (Keeps.refl _) (samePins_refl _) hF.1 hF.2 ?_ ?_
    · split <;> simp
    · split <;> simp
    · split <;> simp
    · split <;> simp
    · split
      · simp
      · rw [Dispatcher.batchPc]; split <;> simp
    · split
      · simp
      · rw [Dispatcher.batchPc]; split <;> simp

/-! ### The engine's calls -/

/-- A step of an engine call: the dispatcher's own pins and its program counter stay. -/
theorem PinsOk.call (h : PinsOk S) (hc : T.config = S.tier.config)
    {acquiring acquired : List Held} {fetching fetched : List Fetch} {leaked : List ℕ}
    (hk : ∀ l e s, s ∈ S.holders →
      s ∈ Sys.holders ⟨{ S.disp with tier := T }, acquiring, acquired, fetching, fetched,
        leaked⟩ → (S.tier.layers l).slotOf e = some s → (T.layers l).slotOf e = some s)
    (hacq : ∀ r ∈ acquired, r ∈ S.acquired ∨ T.Resident r.layer r.expert r.slot)
    (hrounds : ∀ f ∈ fetching ++ fetched, f ∈ S.fetching ++ S.fetched ∨ f.Ok T)
    (hleak : ∀ s ∈ leaked, s ∈ S.holders ∨ ∃ l e, T.Resident l e s)
    (hpins : ∀ s, (T.tail.slots s).pins +
        (S.acquired.map Held.slot ++ (S.fetching ++ S.fetched).flatMap Fetch.slots ++
          S.leaked).count s =
      (S.tier.tail.slots s).pins + (acquired.map Held.slot ++
        (fetching ++ fetched).flatMap Fetch.slots ++ leaked).count s) :
    PinsOk ⟨{ S.disp with tier := T }, acquiring, acquired, fetching, fetched, leaked⟩ := by
  refine h.next hc hk (fun s hs => .inl ⟨hs, rfl⟩) hacq hrounds hleak (fun s => ?_) h.unpinned
    h.order
  have h₁ := h.pins s
  have h₂ := hpins s
  change (T.tail.slots s).pins = _
  simp only [Sys.holders, List.count_append] at h₁ h₂ ⊢
  omega

/-- An acquire of a resident record pins its slot. -/
theorem PinsOk.acquire (h : PinsOk S) (hb : ∀ s, S.holders.count s + 1 < 2 ^ 32)
    (layer expert : ℤ) : PinsOk (S.acquire layer expert) := by
  rw [Sys.acquire]
  split
  · next l e hl he =>
    split
    · split
      · next s hs =>
        refine h.call (config_pinUp _ s) (fun _ _ _ _ _ hx => hx) (fun r hr => ?_)
          (fun f hf => .inl hf) (fun x hx => .inl (mem_holders_of_leaked hx)) fun x => ?_
        · rcases List.mem_append.mp hr with hr | hr
          · exact .inl hr
          · obtain rfl := List.mem_singleton.mp hr
            exact .inr ⟨lt_of_checked hl, hs⟩
        · have hbx := hb x
          have hpx := h.pins x
          rw [pins_pinUp]
          simp only [Sys.setTier, List.map_append, List.map_cons, List.map_nil,
            List.count_append, List.count_cons, List.count_nil]
          rcases eq_or_ne x s with rfl | hxs
          · rw [if_pos rfl, Nat.mod_eq_of_lt (by omega)]
            simp
            omega
          · simp [hxs, hxs.symm]
      · split
        · next s fs hcold hfree =>
          exact h.call (config_setFree _ fs) (fun _ _ _ _ _ hx => hx) (fun r hr => .inl hr)
            (fun f hf => .inl hf) (fun x hx => .inl (mem_holders_of_leaked hx)) fun x => rfl
        · exact h
    · exact h
  · exact h

/-- An acquire that reads pins the slot in which the record lands. -/
theorem PinsOk.acquireRead (h : PinsOk S) (hok : SysOk c S)
    (hb : ∀ s, S.holders.count s + 1 < 2 ^ 32) {i : ℕ} {ok : Bool}
    (hs : S.acquireRead i ok = some S') : PinsOk S' := by
  obtain ⟨r, hr, rfl⟩ := Option.map_eq_some_iff.mp hs
  obtain ⟨ns, ha, hl⟩ := hok.acquiring_arena hr
  split
  · obtain ⟨ns', -, hkeep, hp, hp', hc, x, hx⟩ := ha.insert hl r.expert
    have hzero := h.pins_target ha
    have hpins : SamePins S.tier (lruInsert S.tier r.layer r.expert r.slot) := by
      intro y
      rcases eq_or_ne y r.slot with rfl | hy
      · rw [hp' hzero, hzero]
      · exact hp y hy
    simp only [hx]
    refine h.call ((config_pinUp _ x).trans hc)
      (fun l e s hs _ he => h.keeps hkeep hs he) (fun r' hr' => ?_)
      (fun f hf => .inl hf) (fun y hy => .inl (mem_holders_of_leaked hy)) fun y => ?_
    · rcases List.mem_append.mp hr' with hr' | hr'
      · exact .inl hr'
      · obtain rfl := List.mem_singleton.mp hr'
        exact .inr ⟨(nLayers_of_config hc).symm ▸ hl, hx⟩
    · have hby := hb y
      have hpy := h.pins y
      rw [pins_pinUp, hpins y]
      simp only [Sys.setTier, List.map_append, List.map_cons, List.map_nil, List.count_append,
        List.count_cons, List.count_nil]
      rcases eq_or_ne y x with rfl | hyx
      · rw [if_pos rfl, Nat.mod_eq_of_lt (by omega)]
        simp
        omega
      · simp [hyx, hyx.symm]
  · exact h.call (config_pushFree _ _) (fun _ _ _ _ _ hx => hx) (fun r hr => .inl hr)
      (fun f hf => .inl hf) (fun x hx => .inl (mem_holders_of_leaked hx)) fun x => rfl

theorem checked_ofNat {k n : ℕ} (h : k < n) : checked (k : ℤ) n = some k := by
  simp [checked, h]

/-- A release call: the pins `dropped` are taken off, the caller's entries go, and the layer
is trimmed. -/
theorem PinsOk.drop (h : PinsOk S) (dropped : List ℕ) (ha : ArenaOk T ns tg) (hl : l < T.nLayers)
    (hc : T.config = S.tier.config) (hlay : T.layers = S.tier.layers) {acquired : List Held}
    {fetched : List Fetch} (hacq : acquired ⊆ S.acquired) (hfet : fetched ⊆ S.fetched)
    (hp : ∀ s, (T.tail.slots s).pins = (S.tier.tail.slots s).pins - dropped.count s)
    (hcount : ∀ s, (S.acquired.map Held.slot ++ S.fetched.flatMap Fetch.slots).count s =
      dropped.count s + (acquired.map Held.slot ++ fetched.flatMap Fetch.slots).count s) :
    PinsOk ⟨{ S.disp with tier := lruTrim T l }, S.acquiring, acquired, S.fetching, fetched,
      S.leaked⟩ := by
  obtain ⟨ns', -, hk, hpins, hc'⟩ := ha.trim hl
  refine h.call (hc'.trans hc) (fun l' e s _ hs he => ?_) (fun r hr => .inl (hacq hr))
    (fun f hf => .inl ?_) (fun s hs => .inl (mem_holders_of_leaked hs)) fun s => ?_
  · -- who still holds the slot still has a pin on it
    refine hk l' e s (hlay ▸ he) ?_
    have h₁ := h.pins s
    have h₂ := hcount s
    have h₃ := List.count_pos_iff.mpr hs
    rw [hp s, h₁]
    simp only [Sys.holders, List.count_append, List.flatMap_append] at h₁ h₂ h₃ ⊢
    omega
  · rcases List.mem_append.mp hf with hf | hf
    · exact List.mem_append_left _ hf
    · exact List.mem_append_right _ (hfet hf)
  · have h₁ := h.pins s
    have h₂ := hcount s
    rw [hpins s, hp s, h₁]
    simp only [Sys.holders, List.count_append, List.flatMap_append] at h₁ h₂ ⊢
    omega

/-- A disciplined `record_release` drops the pin of the record it names. -/
theorem PinsOk.release (h : PinsOk S) (hok : SysOk c S) {layer expert : ℤ} {i : ℕ}
    (hd : Disciplined S (.release layer expert i)) : PinsOk (S.release layer expert i) := by
  obtain ⟨r, hr, hle⟩ := (Option.any_eq_true _ _).mp hd
  simp only [Bool.and_eq_true, beq_iff_eq] at hle
  obtain ⟨rfl, rfl⟩ := hle
  obtain ⟨hlt, hs⟩ := h.acquired r (List.mem_of_getElem? hr)
  obtain ⟨ns, ha⟩ := hok.disp.arena
  rw [Sys.release]
  split
  · next l e hl he =>
    rw [checked_ofNat hlt] at hl
    obtain rfl := Option.some.inj hl
    obtain rfl : e = r.expert := by
      rw [checked] at he
      split at he
      · simpa using he.symm
      · simp at he
    split
    · simp only [hs]
      refine h.drop [r.slot] (ha.pinDown r.slot) hlt (config_pinDown _ _) rfl
        (List.eraseIdx_subset) (List.Subset.refl _) (fun x => ?_) fun x => ?_
      · rw [pins_pinDown]
        rcases eq_or_ne x r.slot with rfl | hx
        · simp
        · simp [hx, hx.symm]
      · have := ((perm_cons_eraseIdx hr).map Held.slot).count_eq x
        simp only [Sys.setTier, List.map_cons, List.count_cons, List.count_append,
          List.count_nil] at this ⊢
        omega
    · exact h
  · exact h

/-- A disciplined `prefill_release` of a round whose cold experts are not pinned drops the
round's pins. -/
theorem PinsOk.prefillRelease (h : PinsOk S) (hok : SysOk c S) {layer : ℤ}
    {experts : List ℤ} {i : ℕ} (hd : Disciplined S (.prefillRelease layer experts i))
    (hown : OwnPins S (.prefillRelease layer experts i)) :
    PinsOk (S.prefillRelease layer experts i) := by
  obtain ⟨f, hf, hle⟩ := (Option.any_eq_true _ _).mp hd
  simp only [Bool.and_eq_true, beq_iff_eq] at hle
  obtain ⟨rfl, rfl⟩ := hle
  obtain ⟨hlt, htaken⟩ := h.rounds f (List.mem_append_right _ (List.mem_of_getElem? hf))
  obtain ⟨ns, ha⟩ := hok.disp.arena
  obtain ⟨ha', hc⟩ := ha.unpinExperts f.layer f.experts
  obtain ⟨hlay, hp⟩ := pins_unpinExperts htaken rfl rfl (hown f hf)
  rw [Sys.prefillRelease]
  split
  · next l hl =>
    rw [checked_ofNat hlt] at hl
    obtain rfl := Option.some.inj hl
    split
    · refine h.drop f.slots ha' ((nLayers_of_config hc).symm ▸ hlt) hc hlay
        (List.Subset.refl _) (List.eraseIdx_subset) hp fun x => ?_
      have := ((perm_cons_eraseIdx hf).flatMap_right Fetch.slots).count_eq x
      simp only [Sys.setTier, List.flatMap_cons, List.count_append] at this ⊢
      omega
    · exact h
  · exact h

/-- A fetch pins the slots of its experts. -/
theorem PinsOk.prefillFetch (h : PinsOk S) {layer : ℤ} {experts : List ℤ} {set : ℤ}
    (hok : SysOk c S) (hb : ∀ s, S.holders.count s + experts.length < 2 ^ 32) :
    PinsOk (S.prefillFetch layer experts set) := by
  obtain ⟨ns, ha⟩ := hok.disp.arena
  rw [Sys.prefillFetch]
  split
  · next l k hl hk =>
    have hlt := lt_of_checked hl
    obtain ⟨-, hc⟩ := ha.pinExperts l experts
    have hf := fetched_pinExperts S.tier l experts
    have hp := hf.pins fun x => by rw [h.pins x]; exact hb x
    have hres : ∀ s ∈ (Sys.pinExperts S.tier l experts).2.2.reduceOption,
        ∃ l' e, (Sys.pinExperts S.tier l experts).2.1.Resident l' e s := by
      intro s hs
      obtain ⟨e, he⟩ := hf.resident s hs
      exact ⟨l, e, (nLayers_of_config hc).symm ▸ hlt, by rw [hf.layers]; exact he⟩
    split
    · simp only
      split
      · next hr =>
        refine h.call hc (fun l' e s _ _ he => by rw [hf.layers]; exact he) (fun r hr => .inl hr)
          (fun f hm => ?_) (fun x hx => .inl (mem_holders_of_leaked hx)) fun x => ?_
        · rw [List.mem_append, List.mem_append, List.mem_singleton] at hm
          rcases hm with (hm | rfl) | hm
          · exact .inl (List.mem_append_left _ hm)
          · refine .inr ⟨(nLayers_of_config hc).symm ▸ hlt, ?_⟩
            rw [show (Sys.pinExperts S.tier l experts).2.1.nExperts = S.tier.nExperts from
              congrArg Config.nExperts hc, hf.layers]
            exact hf.taken hr
          · exact .inl (List.mem_append_right _ hm)
        · rw [hp x]
          simp only [Sys.setTier, List.flatMap_append, List.flatMap_cons, List.flatMap_nil,
            List.append_nil, List.count_append, Fetch.slots]
          omega
      · refine h.call hc (fun l' e s _ _ he => by rw [hf.layers]; exact he) (fun r hr => .inl hr)
          (fun f hm => .inl hm) (fun x hx => ?_) fun x => ?_
        · rcases List.mem_append.mp hx with hx | hx
          · exact .inl (mem_holders_of_leaked hx)
          · exact .inr (hres x hx)
        · rw [hp x]
          simp only [Sys.setTier, List.count_append]
          omega
    · exact h
  · exact h

/-- The read of a fetch goes to the prefill arena. -/
theorem PinsOk.prefillRead (h : PinsOk S) {i : ℕ} {ok : Bool}
    (hs : S.prefillRead i ok = some S') : PinsOk S' := by
  obtain ⟨f, hf, hs⟩ := Option.bind_eq_some_iff.mp hs
  have hmem := List.mem_of_getElem? hf
  have hcount := fun x => ((perm_cons_eraseIdx hf).flatMap_right Fetch.slots).count_eq x
  simp only [List.flatMap_cons, List.count_append] at hcount
  have hsub : ∀ g ∈ S.fetching.eraseIdx i, g ∈ S.fetching := fun g hg =>
    List.eraseIdx_subset hg
  split at hs
  · obtain rfl := Option.some.inj hs
    refine h.call rfl (fun _ _ _ _ _ he => he) (fun r hr => .inl hr) (fun g hg => .inl ?_)
      (fun x hx => .inl (mem_holders_of_leaked hx)) fun x => ?_
    · rw [List.mem_append, List.mem_append, List.mem_singleton] at hg
      rw [List.mem_append]
      rcases hg with hg | hg | rfl
      · exact .inl (hsub g hg)
      · exact .inr hg
      · exact .inl hmem
    · have := hcount x
      simp only [List.flatMap_append, List.flatMap_cons, List.flatMap_nil, List.append_nil,
        List.count_append]
      omega
  · split at hs
    · obtain rfl := Option.some.inj hs
      refine h.call rfl (fun _ _ _ _ _ he => he) (fun r hr => .inl hr) (fun g hg => .inl ?_)
        (fun x hx => .inl ?_) fun x => ?_
      · rcases List.mem_append.mp hg with hg | hg
        · exact List.mem_append_left _ (hsub g hg)
        · exact List.mem_append_right _ hg
      · rcases List.mem_append.mp hx with hx | hx
        · exact mem_holders_of_leaked hx
        · exact mem_holders_of_round (List.mem_append_left _ hmem) hx
      · have := hcount x
        simp only [List.flatMap_append, List.count_append]
        omega
    · simp at hs

/-! ### Whole runs -/

/-- A step that respects the pins keeps the invariant. -/
theorem PinsOk.step (h : PinsOk S) (hok : SysOk c S) {a : Act} (ha : PinsRespected S a)
    (hs : S.step a = some S') : PinsOk S' := by
  obtain ⟨hd, hown, hclean, hb⟩ := ha
  cases a with
  | serve l seq req =>
    obtain ⟨D, hD, rfl⟩ := Option.map_eq_some_iff.mp hs
    exact h.serve hD
  | run =>
    obtain ⟨D, hD, rfl⟩ := Option.map_eq_some_iff.mp hs
    exact h.run hok hb hD
  | kernel rc =>
    obtain ⟨D, hD, rfl⟩ := Option.map_eq_some_iff.mp hs
    exact h.kernel hD
  | submit r =>
    obtain ⟨D, hD, rfl⟩ := Option.map_eq_some_iff.mp hs
    exact h.submit hD
  | complete i res =>
    obtain ⟨R, hR, rfl⟩ := Option.map_eq_some_iff.mp hs
    exact h.disp rfl (fun _ _ _ _ _ he => he) (fun s hs => .inl ⟨hs, rfl⟩) (fun s => rfl)
      h.unpinned h.order
  | acquire layer expert => exact Option.some.inj hs ▸ h.acquire hb layer expert
  | acquireRead i ok => exact h.acquireRead hok hb hs
  | release layer expert i => exact Option.some.inj hs ▸ h.release hok hd
  | prefillFetch layer experts set => exact Option.some.inj hs ▸ h.prefillFetch hok hb
  | prefillRead i ok => exact h.prefillRead hs
  | prefillRelease layer experts i => exact Option.some.inj hs ▸ h.prefillRelease hok hd hown

/-- The tier as it is started has no holders and no pins. -/
theorem pinsOk_start (h : Start S) : PinsOk S := by
  obtain ⟨⟨T, _, _, _, _, _, _, _, _, _, _, _, hT, hd, htier⟩, -, hpc, hpin, -, hacq, hft, hfd,
    hlk⟩ := h
  refine ⟨by simp [hpin], by simp [hacq], by simp [hft, hfd], by simp [hlk], fun s => ?_,
    fun _ => hpin, by simp [hpc]⟩
  have h₀ : (S.tier.tail.slots s).pins = 0 := by
    change (S.disp.tier.tail.slots s).pins = 0
    rw [htier]
    exact pins_storeTailAdopt (fresh_beforeAdopt hT).1 s
  simp [h₀, Sys.holders, hpin, hacq, hft, hfd, hlk]

/-- The runs whose steps all respect the pins. -/
def pinsSystem : TransitionSystem Sys Act := tierSystem.onlySteps PinsRespected

/-- Both invariants along every run whose steps respect the pins. -/
theorem sysOk_pinsOk_of_reachable (h : pinsSystem.Reachable S) : (∃ c, SysOk c S) ∧ PinsOk S := by
  have hinv : pinsSystem.Invariant fun S => (∃ c, SysOk c S) ∧ PinsOk S :=
    ⟨fun S hS => ⟨⟨_, sysOk_start hS⟩, pinsOk_start hS⟩,
      fun _ _ _ _ ⟨⟨c, hc⟩, hp⟩ ⟨ha, hstep⟩ => ⟨⟨c, hc.step ha.clean hstep⟩, hp.step hc ha hstep⟩⟩
  exact hinv.holds h

/-- **Pins are held by their takers.** In every run whose steps respect the pins, every slot
has exactly as many pins as it has holders; a record somebody holds is still in the slot it
was handed out in; and a held slot is neither a spare slot nor the target of an unfinished
read. -/
theorem pins_held (h : pinsSystem.Reachable S) :
    (∀ s, (S.tier.tail.slots s).pins = S.holders.count s) ∧
      (∀ s ∈ S.disp.frame.pinned, ∃ e, S.tier.Resident S.disp.frame.layer e s) ∧
      (∀ r ∈ S.acquired, S.tier.Resident r.layer r.expert r.slot) ∧
      (∀ f ∈ S.fetching ++ S.fetched, f.Ok S.tier) ∧
      ∀ s ∈ S.holders, s ∉ S.tier.tail.freeSlots ∧ s ∉ S.targets := by
  obtain ⟨⟨c, hc⟩, hp⟩ := sysOk_pinsOk_of_reachable h
  obtain ⟨ns, ha⟩ := hc.disp.arena
  refine ⟨hp.pins, hp.pinned, hp.acquired, hp.rounds, fun s hs => ?_⟩
  obtain ⟨l, e, hl, he⟩ := hp.resident hs
  have hmem : s ∈ (List.range S.tier.nLayers).flatMap ns :=
    List.mem_flatMap.mpr ⟨l, List.mem_range.mpr hl, ((ha.layer l hl).mem s).mpr ⟨e, he⟩⟩
  have hnd := ha.nodup
  exact ⟨fun hf => List.disjoint_of_nodup_append hnd.of_append_left hf hmem,
    fun ht => List.disjoint_of_nodup_append hnd (List.mem_append_right _ hmem) ht⟩

/-- The record acquired from `smallSys` has one holder and one pin. -/
theorem pins_held_small : ∃ S, pinsSystem.Reachable S ∧
    (S.tier.tail.slots 0).pins = S.holders.count 0 ∧ S.holders.count 0 = 1 := by
  have h₁ : pinsSystem.Reachable (smallSys.acquire 0 0) := by
    refine .step (a := .acquire 0 0) (.start start_smallSys) ⟨⟨trivial, trivial, trivial, ?_⟩, rfl⟩
    intro s
    simp [Sys.holders, smallSys, Frame.entry, Act.takes]
  exact ⟨_, h₁, (pins_held h₁).1 0, rfl⟩

/-! ### The pin that is lost -/

/-- The runs in which the callers release what they hold. -/
def disciplinedSystem : TransitionSystem Sys Act := tierSystem.onlySteps Disciplined

/-- A run of `smallSys`: a prefill round finds expert 1 cold; `record_acquire` makes it
resident and holds it; the round's release drops that pin; the next record that becomes
resident evicts it. -/
def lostPinRun : List Act :=
  [.prefillFetch 0 [1] 0, .prefillRead 0 true, .acquire 0 1, .acquireRead 0 true,
    .prefillRelease 0 [1] 0, .acquire 0 2, .acquireRead 0 true]

/-- **A pin is lost.** In a run in which every caller releases exactly what it asked for, a
record that was acquired and not released is evicted, and its slot is a spare slot. -/
theorem pins_lost : ∃ S, disciplinedSystem.Reachable S ∧ ∃ r ∈ S.acquired,
    (S.tier.layers r.layer).slotOf r.expert = none ∧ r.slot ∈ S.tier.tail.freeSlots := by
  obtain ⟨S, hS, hP⟩ := TransitionSystem.exists_reachable_of_replay Sys.step Disciplined
    start_smallSys lostPinRun (fun S => S.acquired.any fun r =>
      (S.tier.layers r.layer).slotOf r.expert == none && r.slot ∈ S.tier.tail.freeSlots)
    (by decide)
  obtain ⟨r, hr, hP⟩ := List.any_eq_true.mp hP
  simp only [Bool.and_eq_true, beq_iff_eq, decide_eq_true_eq] at hP
  exact ⟨S, hS, r, hr, hP⟩

end CpuTier

end VllmMoet
