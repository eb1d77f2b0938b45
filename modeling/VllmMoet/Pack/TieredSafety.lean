import Mathlib.Data.List.Dedup
import VllmMoet.Pack.Tiered

/-!
# The arena never serves wrong bytes

Between calls a store is in order (`StoreOk`): its bookkeeping is consistent, and every slot
that is the position of a pair holds the row of that pair. A call of `rowsFor` keeps the order
and keeps its promises (`BatchOk`), whichever of its reads fail.

While a call places its misses the slots it has taken are lent by the bookkeeping
(`PlacingOk`); publishing assigns them, and a failure gives them back.
-/

namespace VllmMoet.Pack

variable {cfg : Config}

/-! ### Reads -/

section Reads

variable {want : ℕ} (bufs : ℕ → Bytes)

/-- A read touches no other buffer. -/
theorem readRow_of_ne {slot off s : ℕ} {r : ReadResult} (h : s ≠ slot) :
    (readRow cfg want bufs slot off r).2 s = bufs s := by
  rcases r with _ | left
  · simp [readRow, h]
  · simp [readRow, h]

/-- A read that does not raise leaves the bytes of the file. -/
theorem readRow_ok {slot off : ℕ} {r : ReadResult}
    (h : (readRow cfg want bufs slot off r).1 = true) :
    ((readRow cfg want bufs slot off r).2 slot).take want = cfg.bytes off want := by
  rcases r with _ | left
  · have hsize : off + want ≤ cfg.size := by simpa [readRow] using h
    have hmin : min want (cfg.size - off) = want := by omega
    have hlen : (cfg.bytes off want).length = want := by simp [Config.bytes]
    simp only [readRow, Function.update_self, hmin, overwrite]
    rw [List.take_append_of_le_length (by omega), List.take_of_length_le (by omega)]
  · simp [readRow] at h

/-- Reads into different buffers: no other buffer is touched, and when none of them raises
every buffer holds the bytes of the file. -/
theorem readSome_spec (stop : Bool) {reads : List ((ℕ × ℕ) × ReadResult)}
    (hnodup : (reads.map fun f => f.1.1).Nodup) :
    (∀ s, s ∉ reads.map (fun f => f.1.1) → (readSome cfg want stop bufs reads).2 s = bufs s) ∧
      ((readSome cfg want stop bufs reads).1 = true → ∀ f ∈ reads,
        ((readSome cfg want stop bufs reads).2 f.1.1).take want = cfg.bytes f.1.2 want) := by
  induction reads generalizing bufs with
  | nil => simp [readSome]
  | cons f reads ih =>
    obtain ⟨⟨slot, off⟩, r⟩ := f
    obtain ⟨hnew, hnd⟩ := List.nodup_cons.mp hnodup
    obtain ⟨hframe, hbytes⟩ := ih (readRow cfg want bufs slot off r).2 hnd
    simp only [readSome]
    split
    · refine ⟨fun s hs => readRow_of_ne bufs fun heq => hs (by simp [heq]), fun h => by simp at h⟩
    · refine ⟨fun s hs => ?_, fun h f hf => ?_⟩
      · simp only [List.map_cons, List.mem_cons, not_or] at hs
        rw [hframe s hs.2, readRow_of_ne bufs hs.1]
      · rw [Bool.and_eq_true] at h
        rcases List.mem_cons.mp hf with rfl | hf
        · -- the later reads go elsewhere
          rw [hframe slot hnew]
          exact readRow_ok bufs h.1
        · exact hbytes h.2 f hf

/-- The same for the reads of a batch. -/
theorem readMany_spec (cfg : Config) (want : ℕ) {fills : List (ℕ × ℕ)} (res : ℕ → ReadResult)
    (hnodup : (fills.map Prod.fst).Nodup) :
    (∀ s, s ∉ fills.map Prod.fst → (readMany cfg want bufs fills res).2 s = bufs s) ∧
      ((readMany cfg want bufs fills res).1 = true → ∀ f ∈ fills,
        ((readMany cfg want bufs fills res).2 f.1).take want = cfg.bytes f.2 want) := by
  have hslots : (fills.zipIdx.map fun e => (e.1, res e.2)).map (fun f => f.1.1) =
      fills.map Prod.fst := by
    rw [List.map_map]
    conv_rhs => rw [← List.zipIdx_map_fst 0 fills, List.map_map]
    rfl
  obtain ⟨hframe, hbytes⟩ := readSome_spec bufs (decide (fills.length ≤ 2))
    (hslots ▸ hnodup)
  rw [hslots] at hframe
  refine ⟨hframe, fun h f hf => ?_⟩
  obtain ⟨i, hi⟩ := List.getElem?_of_mem hf
  exact hbytes h (f, res i) (List.mem_map.mpr ⟨(f, i), List.mem_zipIdx_iff_getElem?.mpr hi, rfl⟩)

end Reads

/-- A row is not longer than its slot. -/
theorem slotBytes_le_want (cfg : Config) : cfg.slotBytes ≤ cfg.want := by
  rw [Config.want]
  split
  · simp only [Config.stride, align]
    omega
  · exact le_rfl

/-- What was read into a slot shows the row. -/
theorem take_slotBytes {buf : Bytes} {p : Pair} {want : ℕ} (hwant : cfg.slotBytes ≤ want)
    (h : buf.take want = cfg.bytes (cfg.offset p) want) : buf.take cfg.slotBytes = cfg.row p := by
  have hmin : min cfg.slotBytes want = cfg.slotBytes := by omega
  have h' := congrArg (List.take cfg.slotBytes) h
  rw [List.take_take, hmin] at h'
  rw [h', Config.row, Config.bytes, Config.bytes, ← List.map_take, List.take_range, hmin]

/-! ### Placing the misses -/

/-- A request is answered: by a slot in use that holds its pair, by a slot taken for its pair,
or not yet, and it overflows. -/
def Placing.Serves (a : Placing) (req : Pair × ℕ) : Prop :=
  (∃ s, a.out req.2 = some s ∧
      (a.store.pos req.1 = some s ∧ s ∈ a.busy ∨ (req.1, s) ∈ a.placed)) ∨
    a.out req.2 = none ∧ req ∈ a.overflow

/-- Where a call stands between two misses, `done` and `rest` being the requests before and
after: what it has taken is lent, only what it has taken has lost its place, and the requests
done are answered. -/
structure PlacingOk (cfg : Config) (st : Store) (scan : Bool) (done rest : List (Pair × ℕ))
    (a : Placing) : Prop where
  lent : a.store.book.Lent cfg.nArena (a.placed.map Prod.snd)
  keys : (a.placed.map Prod.fst).Nodup
  fresh : ∀ e ∈ a.placed, a.store.pos e.1 = none
  kept : ∀ p s, a.store.pos p = some s ↔ st.pos p = some s ∧ s ∉ a.placed.map Prod.snd
  busy : ∀ e ∈ a.placed, e.2 ∈ a.busy
  order : ∀ l, a.evictOrder = some l → ∀ s ∈ l, s < cfg.nArena
  arena : a.store.arena = st.arena
  scans : scan = true → a.store.pos = st.pos
  apart : ((done ++ rest).map Prod.snd).Nodup
  todo : ∀ req ∈ rest, a.out req.2 = none
  overflowed : ∀ req ∈ a.overflow, req ∈ done
  served : ∀ req ∈ done, a.Serves req

section Placing

variable {st : Store} {scan : Bool} {done rest : List (Pair × ℕ)} {a : Placing}
  {req : Pair × ℕ}

/-- The next request has a place in the batch of its own. -/
theorem PlacingOk.next_ne (h : PlacingOk cfg st scan done (req :: rest) a) :
    (∀ d ∈ done, d.2 ≠ req.2) ∧ ∀ d ∈ rest, d.2 ≠ req.2 := by
  have hnd := h.apart
  simp only [List.map_append, List.map_cons, List.nodup_append, List.nodup_cons] at hnd
  refine ⟨fun d hd => hnd.2.2 _ (List.mem_map_of_mem hd) _ (by simp), fun d hd heq => ?_⟩
  exact hnd.2.1.1 (heq ▸ List.mem_map_of_mem hd)

/-- The requests in another order of speaking. -/
theorem PlacingOk.apart_next (h : PlacingOk cfg st scan done (req :: rest) a) :
    (((done ++ [req]) ++ rest).map Prod.snd).Nodup := by
  simpa using h.apart

/-- A request is answered by a slot that holds its pair, or was taken for it. -/
theorem PlacingOk.answer (h : PlacingOk cfg st scan done (req :: rest) a) {s : ℕ}
    (hs : a.store.pos req.1 = some s ∨ (req.1, s) ∈ a.placed) :
    PlacingOk cfg st scan (done ++ [req]) rest (a.answer req s) where
  lent := h.lent
  keys := h.keys
  fresh := h.fresh
  kept := h.kept
  busy e he := List.mem_cons_of_mem _ (h.busy e he)
  order := h.order
  arena := h.arena
  scans := h.scans
  apart := h.apart_next
  todo d hd := by
    simp only [Placing.answer]
    rw [Function.update_of_ne (h.next_ne.2 d hd)]
    exact h.todo d (List.mem_cons_of_mem _ hd)
  overflowed d hd := List.mem_append_left _ (h.overflowed d hd)
  served d hd := by
    rcases List.mem_append.mp hd with hd | hd
    · have hne := h.next_ne.1 d hd
      rcases h.served d hd with ⟨r, hr, hin⟩ | ⟨hnone, hover⟩
      · exact .inl ⟨r, by simp [Placing.answer, hne, hr],
          hin.imp_left fun ⟨hp, hb⟩ => ⟨hp, List.mem_cons_of_mem _ hb⟩⟩
      · exact .inr ⟨by simp [Placing.answer, hne, hnone], hover⟩
    · obtain rfl := List.mem_singleton.mp hd
      exact .inl ⟨s, by simp [Placing.answer], hs.imp_left fun hp => ⟨hp, List.mem_cons_self⟩⟩

/-- A request overflows. -/
theorem PlacingOk.overflow (h : PlacingOk cfg st scan done (req :: rest) a)
    {order : Option (List ℕ)} (horder : ∀ l, order = some l → ∀ s ∈ l, s < cfg.nArena) :
    PlacingOk cfg st scan (done ++ [req]) rest
      { a with evictOrder := order, overflow := a.overflow ++ [req] } where
  lent := h.lent
  keys := h.keys
  fresh := h.fresh
  kept := h.kept
  busy := h.busy
  order := horder
  arena := h.arena
  scans := h.scans
  apart := h.apart_next
  todo d hd := h.todo d (List.mem_cons_of_mem _ hd)
  overflowed d hd := by
    rcases List.mem_append.mp hd with hd | hd
    · exact List.mem_append_left _ (h.overflowed d hd)
    · exact List.mem_append_right _ hd
  served d hd := by
    rcases List.mem_append.mp hd with hd | hd
    · exact (h.served d hd).imp_right fun ⟨hnone, hover⟩ =>
        ⟨hnone, List.mem_append_left _ hover⟩
    · obtain rfl := List.mem_singleton.mp hd
      exact .inr ⟨h.todo d List.mem_cons_self, by simp⟩

/-- A request takes the slot `s`, out of a store `b` from which only `s` has lost its place. -/
theorem PlacingOk.take (h : PlacingOk cfg st scan done (req :: rest) a) {b : Placing} {s : ℕ}
    (hb : b.placed = a.placed ∧ b.busy = a.busy ∧ b.out = a.out ∧ b.overflow = a.overflow ∧
      b.store.arena = a.store.arena)
    (hlent : SlotMap.Lent cfg.nArena ⟨b.store.free, Function.update b.store.owner s none,
      b.store.pos⟩ (s :: a.placed.map Prod.snd))
    (hpos : ∀ p r, b.store.pos p = some r ↔ a.store.pos p = some r ∧ r ≠ s)
    (hscan : scan = true → b.store.pos = a.store.pos)
    (horder : ∀ l, b.evictOrder = some l → ∀ s ∈ l, s < cfg.nArena)
    (hbusy : ∀ p, a.store.pos p = some s → s ∉ a.busy)
    (hnone : a.store.pos req.1 = none) (hnew : req.1 ∉ a.placed.map Prod.fst) :
    PlacingOk cfg st scan (done ++ [req]) rest (b.take req s) := by
  obtain ⟨hplaced, hbusyb, hout, hover, harena⟩ := hb
  -- the place of `s` is the only one that is lost
  have hgone : ∀ p, a.store.pos p = none → b.store.pos p = none := fun p hp => by
    rw [Option.eq_none_iff_forall_ne_some] at hp ⊢
    exact fun r hr => hp r ((hpos p r).mp hr).1
  refine ⟨?_, ?_, ?_, ?_, ?_, horder, ?_, ?_, h.apart_next, ?_, ?_, ?_⟩
  · refine hlent.perm ?_
    simp only [Placing.take, hplaced, List.map_append, List.map_cons, List.map_nil]
    exact List.perm_append_singleton s _ |>.symm
  · simp only [Placing.take, hplaced, List.map_append, List.map_cons, List.map_nil,
      List.nodup_append]
    exact ⟨h.keys, List.nodup_singleton _, fun p hp q hq heq => hnew
      (by rwa [heq, List.mem_singleton.mp hq] at hp)⟩
  · intro e he
    simp only [Placing.take, hplaced, List.mem_append, List.mem_singleton] at he
    rcases he with he | rfl
    · exact hgone _ (h.fresh e he)
    · exact hgone _ hnone
  · intro p r
    simp only [Placing.take, hplaced, List.map_append, List.map_cons, List.map_nil,
      List.mem_append, List.mem_singleton, not_or]
    rw [hpos, h.kept]
    tauto
  · intro e he
    simp only [Placing.take, Placing.answer, hplaced, hbusyb, List.mem_append,
      List.mem_singleton] at he ⊢
    rcases he with he | rfl
    · exact List.mem_cons_of_mem _ (h.busy e he)
    · exact List.mem_cons_self
  · exact harena.trans h.arena
  · exact fun hs => (hscan hs).trans (h.scans hs)
  · intro d hd
    simp only [Placing.take, Placing.answer, hout]
    rw [Function.update_of_ne (h.next_ne.2 d hd)]
    exact h.todo d (List.mem_cons_of_mem _ hd)
  · intro d hd
    simp only [Placing.take, Placing.answer, hover] at hd
    exact List.mem_append_left _ (h.overflowed d hd)
  · intro d hd
    rcases List.mem_append.mp hd with hd | hd
    · have hne := h.next_ne.1 d hd
      rcases h.served d hd with ⟨r, hr, hin⟩ | ⟨hno, hov⟩
      · refine .inl ⟨r, by simp [Placing.take, Placing.answer, hne, hout, hr], ?_⟩
        rcases hin with ⟨hp, hrb⟩ | hin
        · -- a slot that answers the batch is in use, and `s` is not
          refine .inl ⟨(hpos _ _).mpr ⟨hp, fun heq => hbusy d.1 (heq ▸ hp) (heq ▸ hrb)⟩, ?_⟩
          simp [Placing.take, Placing.answer, hbusyb, hrb]
        · exact .inr (by simp [Placing.take, hplaced, hin])
      · exact .inr ⟨by simp [Placing.take, Placing.answer, hne, hout, hno],
          by simp [Placing.take, Placing.answer, hover, hov]⟩
    · obtain rfl := List.mem_singleton.mp hd
      exact .inl ⟨s, by simp [Placing.take, Placing.answer], .inr (by simp [Placing.take])⟩

/-- A request takes an idle slot out of a full arena: its owner is evicted. -/
theorem PlacingOk.evict_take (h : PlacingOk cfg st scan done (req :: rest) a)
    (hfree : a.store.free = []) {s : ℕ} {left : List ℕ} (hs : s < cfg.nArena)
    (hidle : s ∉ a.busy) (hleft : ∀ r ∈ left, r < cfg.nArena) (hscan : ¬ scan = true)
    (hnone : a.store.pos req.1 = none) (hnew : req.1 ∉ a.placed.map Prod.fst) :
    PlacingOk cfg st scan (done ++ [req]) rest
      (({ a with evictOrder := some left }.evict s).take req s) := by
  have hnt : s ∉ a.placed.map Prod.snd := fun hmem => by
    obtain ⟨e, he, rfl⟩ := List.mem_map.mp hmem
    exact hidle (h.busy e he)
  have hown : a.store.owner s ≠ none := fun hn => by
    have hmem := (h.lent.free_iff s hs hnt).mpr hn
    simp [Store.book, hfree] at hmem
  have hlent := h.lent.evict (List.nodup_singleton s) (fun r hr => List.mem_singleton.mp hr ▸ hs)
    (fun r hr => List.mem_singleton.mp hr ▸ hnt) fun r hr => List.mem_singleton.mp hr ▸ hown
  refine h.take ⟨rfl, rfl, rfl, rfl, rfl⟩ ?_ (fun p r => ?_) (fun h => absurd h hscan)
    (fun l hl r hr => hleft r (Option.some.inj hl ▸ hr)) (fun _ _ => hidle) hnone hnew
  · have hout : ∀ r, r ∉ a.placed.map Prod.snd ++ [s] →
        Function.update a.store.owner s none r = a.store.owner r := fun r hr => by
      rw [Function.update_of_ne fun heq => hr (by simp [heq])]
    exact (hlent.of_owner hout).perm (List.perm_append_singleton s _)
  · change (a.store.book.evict [s]).place p = some r ↔ _
    rw [hlent.place_iff, show a.store.pos p = some r ↔ _ from h.lent.place_iff p r]
    simp only [List.mem_append, List.mem_singleton, not_or]
    tauto

/-- A pair that is not pending has taken no slot. -/
theorem Placing.not_mem_of_pending {p : Pair} (h : a.pending p = none) :
    p ∉ a.placed.map Prod.fst := by
  rw [Placing.pending, Option.map_eq_none_iff, List.find?_eq_none] at h
  rintro hmem
  obtain ⟨e, he, rfl⟩ := List.mem_map.mp hmem
  exact h e he (by simp)

/-- A pair that is pending has taken the slot. -/
theorem Placing.mem_of_pending {p : Pair} {s : ℕ} (h : a.pending p = some s) :
    (p, s) ∈ a.placed := by
  rw [Placing.pending, Option.map_eq_some_iff] at h
  obtain ⟨e, he, rfl⟩ := h
  have hkey : e.1 = p := by simpa using List.find?_some he
  exact hkey ▸ List.mem_of_find?_eq_some he

/-- The order of eviction has only slots of the arena. -/
theorem PlacingOk.order_lt (h : PlacingOk cfg st scan done (req :: rest) a) {s : ℕ}
    (hs : s ∈ a.evictOrder.getD (a.store.evictOrder cfg a.busy)) : s < cfg.nArena := by
  rcases hord : a.evictOrder with _ | l
  · rw [hord, Option.getD_none, Store.evictOrder, List.mem_filter, List.mem_insertionSort,
      List.mem_range] at hs
    exact hs.1
  · rw [hord, Option.getD_some] at hs
    exact h.order l hord s hs

/-- One miss is placed. -/
theorem PlacingOk.placeOne (h : PlacingOk cfg st scan done (req :: rest) a) :
    PlacingOk cfg st scan (done ++ [req]) rest (placeOne cfg scan a req) := by
  rw [Pack.placeOne]
  split
  · next s hs => exact h.answer (.inl hs)
  · next hnone =>
    split
    · next s hs => exact h.answer (.inr (Placing.mem_of_pending hs))
    · next hpend =>
      have hnew := Placing.not_mem_of_pending hpend
      split
      · next s free hfree =>
        -- a free slot is nobody's place
        have hnobody : ∀ p, a.store.pos p ≠ some s := fun p hp => by
          obtain ⟨hlt, hnt, hown⟩ := (h.lent.place_iff p s).mp hp
          have hno := (h.lent.free_iff s hlt hnt).mp (by simp [Store.book, hfree])
          simp [hno] at hown
        refine h.take ⟨rfl, rfl, rfl, rfl, rfl⟩ (h.lent.pop hfree none) (fun p r => ?_)
          (fun _ => rfl) h.order (fun p hp => absurd hp (hnobody p)) hnone hnew
        exact ⟨fun hp => ⟨hp, fun heq => hnobody p (heq ▸ hp)⟩, fun hp => hp.1⟩
      · next hfree =>
        split
        · exact h.overflow h.order
        · next hns =>
          generalize hl : (a.evictOrder.getD (a.store.evictOrder cfg a.busy)).dropWhile
            (fun s => a.busy.contains s) = left
          have hlt : ∀ r ∈ left, r < cfg.nArena := fun r hr =>
            h.order_lt ((List.dropWhile_suffix _).subset (hl ▸ hr))
          match left, hl with
          | [], _ => exact h.overflow (by simp)
          | s :: left, hl =>
            have hidle : s ∉ a.busy := by
              have := List.head?_dropWhile_not (fun s => a.busy.contains s)
                (a.evictOrder.getD (a.store.evictOrder cfg a.busy))
              rw [hl] at this
              simpa using this
            exact h.evict_take hfree (hlt s List.mem_cons_self) hidle
              (fun r hr => hlt r (List.mem_cons_of_mem _ hr)) hns hnone hnew

/-- All the misses are placed. -/
theorem PlacingOk.foldl_placeOne (h : PlacingOk cfg st scan done rest a) :
    PlacingOk cfg st scan (done ++ rest) [] (rest.foldl (Pack.placeOne cfg scan) a) := by
  induction rest generalizing done a with
  | nil => simpa using h
  | cons req rest ih => simpa using ih h.placeOne

/-- The hits of a batch. -/
def hits (st : Store) (pairs : List Pair) : List (Pair × ℕ) :=
  pairs.zipIdx.filter fun req => (st.pos req.1).isSome

/-- Every request is a hit or a miss. -/
theorem hits_append_misses_perm (st : Store) (pairs : List Pair) :
    (hits st pairs ++ misses st pairs).Perm pairs.zipIdx := by
  have hmiss : misses st pairs = pairs.zipIdx.filter fun req => !(st.pos req.1).isSome := by
    simp only [misses, Option.not_isSome]
  rw [hmiss]
  exact List.filter_append_perm _ _

/-- The requests of a batch. -/
theorem mem_requests {pairs : List Pair} {p : Pair} {i : ℕ} :
    (p, i) ∈ hits st pairs ++ misses st pairs ↔ pairs[i]? = some p := by
  rw [(hits_append_misses_perm st pairs).mem_iff, List.mem_zipIdx_iff_getElem?]

/-- After the first pass the hits are answered. -/
theorem firstPass_ok (hst : st.book.Consistent cfg.nArena) (scan : Bool) (pairs : List Pair) :
    PlacingOk cfg st scan (hits st pairs) (misses st pairs) (firstPass st pairs) where
  lent := hst
  keys := List.nodup_nil
  fresh _ h := absurd h List.not_mem_nil
  kept p s := by simp [firstPass]
  busy _ h := absurd h List.not_mem_nil
  order l h := by simp [firstPass] at h
  arena := rfl
  scans _ := rfl
  apart := by
    rw [((hits_append_misses_perm st pairs).map Prod.snd).nodup_iff, List.zipIdx_map_snd]
    exact List.nodup_range'
  todo req hreq := by
    obtain ⟨p, i⟩ := req
    have hmem := mem_requests.mp (List.mem_append_right (hits st pairs) hreq)
    have hnone : st.pos p = none := by simpa [misses] using (List.mem_filter.mp hreq).2
    simp [firstPass, hmem, hnone]
  overflowed _ h := absurd h List.not_mem_nil
  served req hreq := by
    obtain ⟨p, i⟩ := req
    have hmem := mem_requests.mp (List.mem_append_left (misses st pairs) hreq)
    obtain ⟨s, hs⟩ := Option.isSome_iff_exists.mp (List.mem_filter.mp hreq).2
    refine .inl ⟨s, by simp [firstPass, hmem, hs], .inl ⟨hs, ?_⟩⟩
    exact List.mem_filterMap.mpr ⟨p, List.mem_of_getElem? hmem, hs⟩

/-- After the first two passes every request of the batch is answered or overflows. -/
theorem placeBatch_ok (st : Store) (hst : st.book.Consistent cfg.nArena) (scan : Bool) (pairs : List Pair) :
    PlacingOk cfg st scan (hits st pairs ++ misses st pairs) [] (placeBatch cfg scan st pairs) :=
  (firstPass_ok hst scan pairs).foldl_placeOne

end Placing

/-! ### The calls -/

/-- A store between calls. -/
structure StoreOk (cfg : Config) (st : Store) : Prop where
  book : st.book.Consistent cfg.nArena
  rows : ∀ p s, st.pos p = some s → st.look cfg (.arena s) = cfg.row p

section Calls

variable {st : Store}

/-- Published pairs are those of the plan and those that were there. -/
theorem pos_publish {placed : List (Pair × ℕ)} (hkeys : (placed.map Prod.fst).Nodup) {p : Pair}
    {s : ℕ} (h : (st.publish placed).pos p = some s) :
    (p, s) ∈ placed ∨ st.pos p = some s ∧ p ∉ placed.map Prod.fst := by
  change scatter st.pos (placed.map fun e => (e.1, some e.2)) p = some s at h
  have hfst : (placed.map fun e => (e.1, some e.2)).map Prod.fst = placed.map Prod.fst := by
    simp
  by_cases hp : p ∈ placed.map Prod.fst
  · obtain ⟨e, he, rfl⟩ := List.mem_map.mp hp
    have hin : (e.1, some e.2) ∈ placed.map fun e => (e.1, some e.2) :=
      List.mem_map.mpr ⟨e, he, rfl⟩
    rw [scatter_of_mem hin (hfst ▸ hkeys), Option.some.injEq] at h
    exact .inl (h ▸ he)
  · rw [scatter_of_not_mem (hfst ▸ hp)] at h
    exact .inr ⟨h, hp⟩

/-- A pair that was there is still there when others are published. -/
theorem pos_publish_of_not_mem {placed : List (Pair × ℕ)} {p : Pair}
    (hp : p ∉ placed.map Prod.fst) : (st.publish placed).pos p = st.pos p :=
  scatter_of_not_mem (by simpa using hp)

/-- Giving slots back touches neither the positions nor the bytes. -/
theorem abandon_frame (st : Store) (placed : List (Pair × ℕ)) :
    (st.abandon placed).pos = st.pos ∧ (st.abandon placed).arena = st.arena := by
  induction placed generalizing st with
  | nil => exact ⟨rfl, rfl⟩
  | cons e placed ih => exact ih _

/-- Slots that are given back are no longer lent. -/
theorem abandon_consistent {placed : List (Pair × ℕ)}
    (h : st.book.Lent cfg.nArena (placed.map Prod.snd)) :
    (st.abandon placed).book.Consistent cfg.nArena := by
  induction placed generalizing st with
  | nil => exact h
  | cons e placed ih => exact ih h.putBack

/-- What a call of `rowsFor` promises about its result `r`, `taken` being the slots that it
took: the views it returns show the rows of the pairs; when it raises, it has published
nothing, and just the pairs in the slots it took are gone; a scan evicts nothing. -/
structure BatchOk (cfg : Config) (st : Store) (pairs : List Pair) (scan : Bool)
    (taken : List ℕ) (r : Option (List View) × Store) : Prop where
  rows : ∀ views, r.1 = some views → views.map (r.2.look cfg) = pairs.map cfg.row
  raised : r.1 = none → ∀ p s, r.2.pos p = some s ↔ st.pos p = some s ∧ s ∉ taken
  scans : scan = true → cfg.scanEnabled = true → ∀ p s, st.pos p = some s → r.2.pos p = some s

/-- The slots that a call takes for the misses of its batch. -/
def takenSlots (cfg : Config) (st : Store) (pairs : List Pair) (scan : Bool) : List ℕ :=
  (placeBatch cfg (scan && cfg.scanEnabled) { st with clock := st.clock + 1 } pairs).placed.map
    Prod.snd

variable {scan : Bool} {reqs : List (Pair × ℕ)} {a : Placing} {arena stage : ℕ → Bytes}

/-- A pair that kept its place while others were placed, and the bytes there. -/
theorem PlacingOk.look_kept (h : PlacingOk cfg st scan reqs [] a)
    (hrows : ∀ p s, st.pos p = some s → st.look cfg (.arena s) = cfg.row p)
    (hframe : ∀ s, s ∉ a.placed.map Prod.snd → arena s = a.store.arena s) {p : Pair} {s : ℕ}
    (hp : a.store.pos p = some s) : (arena s).take cfg.slotBytes = cfg.row p := by
  obtain ⟨hold, hs⟩ := (h.kept p s).mp hp
  rw [hframe s hs, h.arena]
  exact hrows p s hold

/-- After a failure the slots taken are free and the rest of the store is in order. -/
theorem PlacingOk.abandoned (h : PlacingOk cfg st scan reqs [] a)
    (hrows : ∀ p s, st.pos p = some s → st.look cfg (.arena s) = cfg.row p)
    (hframe : ∀ s, s ∉ a.placed.map Prod.snd → arena s = a.store.arena s) :
    StoreOk cfg ({ a.store with arena := arena, stage := stage }.abandon a.placed) where
  book := abandon_consistent h.lent
  rows p s hp := by
    obtain ⟨hpos, harena⟩ := abandon_frame { a.store with arena := arena, stage := stage } a.placed
    rw [hpos] at hp
    rw [Store.look, harena]
    exact h.look_kept hrows hframe hp

/-- When the slots taken hold their rows, the new pairs can be published. -/
theorem PlacingOk.published (h : PlacingOk cfg st scan reqs [] a)
    (hrows : ∀ p s, st.pos p = some s → st.look cfg (.arena s) = cfg.row p)
    (hframe : ∀ s, s ∉ a.placed.map Prod.snd → arena s = a.store.arena s)
    (hread : ∀ e ∈ a.placed, (arena e.2).take cfg.slotBytes = cfg.row e.1) :
    StoreOk cfg ({ a.store with arena := arena, stage := stage }.publish a.placed) where
  book := by
    have hlent : a.store.book.Lent cfg.nArena (a.placed.map Prod.snd ++ []) := by
      simpa using h.lent
    exact hlent.assign h.keys h.fresh
  rows p s hp := by
    rcases pos_publish h.keys hp with hin | ⟨hold, -⟩
    · exact hread (p, s) hin
    · exact h.look_kept hrows hframe hold

/-- The view of each request shows its row. -/
theorem PlacingOk.look_view {pairs : List Pair}
    (h : PlacingOk cfg st scan (hits st pairs ++ misses st pairs) [] a)
    (hrows : ∀ p s, st.pos p = some s → st.look cfg (.arena s) = cfg.row p)
    (hframe : ∀ s, s ∉ a.placed.map Prod.snd → arena s = a.store.arena s)
    (hread : ∀ e ∈ a.placed, (arena e.2).take cfg.slotBytes = cfg.row e.1)
    (hstage : ∀ j req, a.overflow[j]? = some req →
      (stage j).take cfg.slotBytes = cfg.row req.1)
    {t : Store} (hat : t.arena = arena ∧ t.stage = stage) {i : ℕ} {p : Pair}
    (hi : pairs[i]? = some p) : t.look cfg (a.view i) = cfg.row p := by
  rcases h.served (p, i) (mem_requests.mpr hi) with ⟨s, hout, hin⟩ | ⟨hout, hover⟩
  · simp only [Placing.view, hout, Store.look, hat.1]
    rcases hin with ⟨hp, -⟩ | hin
    · exact h.look_kept hrows hframe hp
    · exact hread _ hin
  · simp only [Placing.view, hout, Store.look, hat.2]
    -- the overflowed request with this place in the batch is the one for this pair
    have hmem : i ∈ a.overflow.map Prod.snd := List.mem_map_of_mem hover
    have hlt := List.idxOf_lt_length_of_mem hmem
    have hget := List.getElem_idxOf hlt
    rw [List.length_map] at hlt
    rw [List.getElem_map] at hget
    have hreq := List.getElem?_eq_getElem hlt
    generalize a.overflow[List.idxOf i (a.overflow.map Prod.snd)] = req at hget hreq
    obtain ⟨q, j⟩ := req
    obtain rfl : j = i := hget
    have hq := mem_requests.mp (h.overflowed _ (List.mem_of_getElem? hreq))
    rw [hi, Option.some.injEq] at hq
    rw [hstage _ _ hreq, hq]

/-- A call keeps the store in order and keeps its promises, whichever of its reads fail. -/
theorem rowsFor_ok (hst : StoreOk cfg st) (pairs : List Pair) (scan : Bool)
    (res stageRes : ℕ → ReadResult) :
    StoreOk cfg (rowsFor cfg st pairs scan res stageRes).2 ∧
      BatchOk cfg st pairs scan (takenSlots cfg st pairs scan)
        (rowsFor cfg st pairs scan res stageRes) := by
  have h := placeBatch_ok { st with clock := st.clock + 1 } hst.book
    (scan && cfg.scanEnabled) pairs
  have hrows : ∀ p s, st.pos p = some s → st.look cfg (.arena s) = cfg.row p := hst.rows
  simp only [rowsFor, takenSlots]
  generalize placeBatch cfg (scan && cfg.scanEnabled) { st with clock := st.clock + 1 } pairs = a
    at h ⊢
  have hslots : (a.placed.map fun e => (e.2, cfg.offset e.1)).map Prod.fst =
      a.placed.map Prod.snd := by simp
  have hread := readMany_spec a.store.arena cfg cfg.want res (hslots ▸ h.lent.taken_nodup)
  rw [hslots] at hread
  obtain ⟨hframe, hbytes⟩ := hread
  generalize readMany cfg cfg.want a.store.arena
    (a.placed.map fun e => (e.2, cfg.offset e.1)) res = r at hframe hbytes ⊢
  obtain ⟨ok, arena⟩ := r
  have hidx : (a.overflow.zipIdx.map fun e => (e.2, cfg.offset e.1.1)).map Prod.fst =
      a.overflow.zipIdx.map Prod.snd := List.map_map
  have hrange : ((a.overflow.zipIdx.map fun e => (e.2, cfg.offset e.1.1)).map
      Prod.fst).Nodup := by
    rw [hidx, List.zipIdx_map_snd]
    exact List.nodup_range'
  have hsbytes := (readMany_spec a.store.stage cfg cfg.slotBytes stageRes hrange).2
  generalize hr : (if ok = true then readMany cfg cfg.slotBytes a.store.stage
    (a.overflow.zipIdx.map fun e => (e.2, cfg.offset e.1.1)) stageRes
    else (false, a.store.stage)) = r
  obtain ⟨stageOk, stage⟩ := r
  -- a scan takes free slots only
  have hscans : scan = true → cfg.scanEnabled = true → ∀ p s, st.pos p = some s →
      a.store.pos p = some s := fun h1 h2 p s hp => by
    rw [h.scans (by simp [h1, h2])]
    exact hp
  rcases stageOk with _ | _
  · have hok : StoreOk cfg (Store.abandon { a.store with arena := arena, stage := stage }
        a.placed) := h.abandoned hrows hframe
    have hpos : ∀ p s, (Store.abandon { a.store with arena := arena, stage := stage }
        a.placed).pos p = some s ↔ st.pos p = some s ∧ s ∉ a.placed.map Prod.snd := by
      rw [(abandon_frame _ a.placed).1]
      exact h.kept
    refine ⟨hok, by simp, fun _ => hpos, fun h1 h2 p s hp => ?_⟩
    change (Store.abandon { a.store with arena := arena, stage := stage } a.placed).pos p = some s
    rw [(abandon_frame _ a.placed).1]
    exact hscans h1 h2 p s hp
  · -- both batches of reads have succeeded
    have hgo : ok = true := by
      rcases ok with _ | _
      · simp at hr
      · rfl
    subst hgo
    rw [if_pos rfl] at hr
    rw [hr] at hsbytes
    have hread : ∀ e ∈ a.placed, (arena e.2).take cfg.slotBytes = cfg.row e.1 := fun e he =>
      take_slotBytes (slotBytes_le_want cfg)
        (hbytes rfl (e.2, cfg.offset e.1) (List.mem_map.mpr ⟨e, he, rfl⟩))
    have hstage : ∀ j req, a.overflow[j]? = some req →
        (stage j).take cfg.slotBytes = cfg.row req.1 := fun j req hreq =>
      take_slotBytes le_rfl (hsbytes rfl (j, cfg.offset req.1)
        (List.mem_map.mpr ⟨(req, j), List.mem_zipIdx_iff_getElem?.mpr hreq, rfl⟩))
    refine ⟨h.published hrows hframe hread, fun views hv => ?_, by simp, fun h1 h2 p s hp => ?_⟩
    · obtain rfl := Option.some.inj hv
      refine List.ext_getElem? fun i => ?_
      rw [List.map_map, List.getElem?_map, List.getElem?_map]
      rcases hi : pairs[i]? with _ | p
      · rw [List.getElem?_eq_none (by simpa using hi)]
        simp
      · have hlt := (List.getElem?_eq_some_iff.mp hi).1
        rw [List.getElem?_range hlt]
        exact congrArg some (h.look_view hrows hframe hread hstage ⟨rfl, rfl⟩ hi)
    · have hold := hscans h1 h2 p s hp
      refine (pos_publish_of_not_mem fun hmem => ?_).trans hold
      obtain ⟨e, he, rfl⟩ := List.mem_map.mp hmem
      have hfresh := h.fresh e he
      rw [hold] at hfresh
      simp at hfresh

/-! ### Filling an empty arena -/

/-- A new store. -/
theorem init_ok (arena stage : ℕ → Bytes) : StoreOk cfg (Store.init cfg arena stage) where
  book := by
    refine ⟨List.nodup_nil, by simp, by simp, ?_, ?_, ?_, ?_⟩
    · exact List.nodup_reverse.mpr List.nodup_range
    · simp [Store.book, Store.init]
    · simp [Store.book, Store.init]
    · simp [Store.book, Store.init]
  rows p s hp := by simp [Store.init] at hp

/-- The pairs to preheat are distinct and fit into the arena. -/
theorem heatKeys_spec (cfg : Config) (l : List (ℤ × ℤ)) :
    (heatKeys cfg l).Nodup ∧ (heatKeys cfg l).length ≤ cfg.nArena := by
  refine ⟨List.Nodup.sublist (List.take_sublist _ _) ?_, List.length_take_le _ _⟩
  refine List.Nodup.map_on ?_ ((List.nodup_reverse.mpr (List.nodup_dedup _)).filter _)
  rintro ⟨l₁, e₁⟩ h₁ ⟨l₂, e₂⟩ h₂ heq
  simp only [List.mem_filter, heatValid, Bool.and_eq_true, decide_eq_true_eq] at h₁ h₂
  simp only [Prod.mk.injEq] at heq ⊢
  omega

/-- The arena of a store without a resident pair, with its first slots taken. -/
theorem Store.book_bottom (hst : st.book.Consistent cfg.nArena) (hempty : ∀ p, st.pos p = none)
    {k : ℕ} (hk : k ≤ cfg.nArena) : SlotMap.Lent cfg.nArena
      ⟨(List.range' k (cfg.nArena - k)).reverse, st.owner, st.pos⟩ (List.range k) := by
  have hown : ∀ s, s < cfg.nArena → st.owner s = none := fun s hs => by
    rcases ho : st.owner s with _ | p
    · rfl
    · have hp : st.pos p = some s := (hst.place_iff p s).mpr ⟨hs, by simp, ho⟩
      simp [hempty] at hp
  refine ⟨List.nodup_range, fun s hs => ?_, fun s hs hf => ?_, ?_, fun s hf => ?_,
    fun s hs ht => ?_, fun p s => ?_⟩
  · exact (List.mem_range.mp hs).trans_le hk
  · simp only [List.mem_range, List.mem_reverse, List.mem_range'_1] at hs hf
    omega
  · exact List.nodup_reverse.mpr List.nodup_range'
  · simp only [List.mem_reverse, List.mem_range'_1] at hf
    omega
  · simp only [List.mem_range, List.mem_reverse, List.mem_range'_1] at ht ⊢
    simp only [hown s hs, iff_true]
    omega
  · simp only [hempty, reduceCtorEq, false_iff, not_and]
    intro hs _
    simp [hown s hs]

/-- Preheating a store without a resident pair, however its reads go. -/
theorem preheat_ok (hst : StoreOk cfg st) (hempty : ∀ p, st.pos p = none) (heat : Heat)
    (res : ℕ → ReadResult) : StoreOk cfg (preheat cfg st heat res) := by
  rcases heat with _ | _ | l
  · exact hst
  · exact hst
  · obtain ⟨hnodup, hlen⟩ := heatKeys_spec cfg l
    simp only [preheat]
    generalize heatKeys cfg l = keys at hnodup hlen ⊢
    split
    · exact hst
    · have hslots : (keys.zipIdx.map fun e => (e.2, cfg.offset e.1)).map Prod.fst =
          keys.zipIdx.map Prod.snd := List.map_map
      have hsnd : keys.zipIdx.map Prod.snd = List.range keys.length := by
        rw [List.zipIdx_map_snd, List.range_eq_range']
      have hkeys : (keys.zipIdx.map Prod.fst).Nodup := by
        rwa [List.zipIdx_map_fst]
      have hrange : ((keys.zipIdx.map fun e => (e.2, cfg.offset e.1)).map Prod.fst).Nodup := by
        rw [hslots, hsnd]
        exact List.nodup_range
      have hbytes := (readMany_spec st.arena cfg cfg.want res hrange).2
      generalize readMany cfg cfg.want st.arena
        (keys.zipIdx.map fun e => (e.2, cfg.offset e.1)) res = r at hbytes ⊢
      obtain ⟨ok, arena⟩ := r
      rcases ok with _ | _
      · exact init_ok arena st.stage
      · have hlent := Store.book_bottom hst.book hempty hlen
        refine ⟨?_, fun p s hp => ?_⟩
        · rw [← List.append_nil (List.range keys.length), ← hsnd] at hlent
          exact hlent.assign hkeys fun e _ => hempty e.1
        · rcases pos_publish hkeys hp with hin | ⟨hold, -⟩
          · exact take_slotBytes (slotBytes_le_want cfg)
              (hbytes rfl (s, cfg.offset p) (List.mem_map.mpr ⟨(p, s), hin, rfl⟩))
          · exact absurd hold (by simp [hempty])

end Calls

/-! ### Every sequence of calls -/

/-- The arena is preheated while no pair is resident, as the constructor does. -/
def Booting (st : Store) : Call → Prop
  | .preheat _ _ => ∀ p, st.pos p = none
  | .rowsFor _ _ _ _ => True

/-- Being in order is an invariant. -/
theorem storeOk_invariant (cfg : Config) :
    ((tieredSystem cfg).onlySteps Booting).Invariant (StoreOk cfg) where
  start := by
    rintro _ ⟨arena, stage, rfl⟩
    exact init_ok arena stage
  step st call t _ hst hstep := by
    obtain ⟨hboot, hstep⟩ := hstep
    obtain rfl : st.after cfg call = t := Option.some.inj hstep
    rcases call with ⟨heat, res⟩ | ⟨pairs, scan, res, stageRes⟩
    · exact preheat_ok hst hboot heat res
    · exact (rowsFor_ok hst pairs scan res stageRes).1

/-- After every sequence of calls the store is in order, and the next batch keeps its promises:
the rows it returns are those of the pack, a batch that raises publishes nothing and loses only
what its slots held, and a scan evicts nothing where the scan discipline is on. -/
theorem reachable_batchOk {st : Store} (hst : ((tieredSystem cfg).onlySteps Booting).Reachable st)
    (pairs : List Pair) (scan : Bool) (res stageRes : ℕ → ReadResult) :
    StoreOk cfg st ∧ BatchOk cfg st pairs scan (takenSlots cfg st pairs scan)
      (rowsFor cfg st pairs scan res stageRes) :=
  ⟨(storeOk_invariant cfg).holds hst,
    (rowsFor_ok ((storeOk_invariant cfg).holds hst) pairs scan res stageRes).2⟩

/-- A pack of one layer with seventeen experts over an arena of sixteen slots, without the scan
discipline. -/
def smallPack : Config where
  nLayers := 1
  nExperts := 17
  slotBytes := 1
  ramBytes := 0
  present _ := true
  direct := false
  scanEnabled := false
  file off := off.toUInt8

/-- A new store over it. -/
def smallStore : Store :=
  Store.init smallPack (fun _ => []) fun _ => []

/-- Preheated with one row, a store answers a batch in which a read fails, and the next. -/
theorem reachable_batchOk_small :
    let st := (smallStore.after smallPack (.preheat (.keys [(0, 3)]) fun _ => .ok)).after smallPack
      (.rowsFor [(0, 3), (0, 5)] false (fun _ => .fails [165]) fun _ => .ok)
    StoreOk smallPack st ∧ BatchOk smallPack st [(0, 5)] true
      (takenSlots smallPack st [(0, 5)] true)
      (rowsFor smallPack st [(0, 5)] true (fun _ => .ok) fun _ => .ok) :=
  reachable_batchOk (.step (a := .rowsFor _ _ _ _) (.step (a := .preheat _ _)
    (.start ⟨_, _, rfl⟩) ⟨fun _ => rfl, rfl⟩) ⟨trivial, rfl⟩) _ _ _ _

/-- Two things are not promised. A store that serves cannot be preheated: the arena is filled
from its bottom whatever it holds, and a slot is free and owned at once. And where the scan
discipline is off a scan evicts like any other batch. -/
theorem preheat_serving_and_free_scan :
    (∃ st, (tieredSystem smallPack).Reachable st ∧ ¬ st.book.Consistent smallPack.nArena) ∧
      ∃ st, (tieredSystem smallPack).Reachable st ∧ ∃ p s, st.pos p = some s ∧
        (rowsFor smallPack st [(0, 16)] true (fun _ => .ok) fun _ => .ok).2.pos p ≠ some s := by
  have hstart : NewStore smallPack smallStore := ⟨_, _, rfl⟩
  constructor
  · obtain ⟨st, hst, hboth⟩ := TransitionSystem.exists_reachable_of_run
      (fun st call => some (st.after smallPack call)) hstart
      [.rowsFor [(0, 0)] false (fun _ => .ok) fun _ => .ok, .preheat (.keys [(0, 1)]) fun _ => .ok]
      (fun st => decide (15 ∈ st.free ∧ st.owner 15 = some (0, 0))) (by decide +kernel)
    refine ⟨st, hst, fun hc => ?_⟩
    simp only [decide_eq_true_eq] at hboth
    have hnone := (hc.free_iff 15 (by decide) (by simp)).mp hboth.1
    simp [Store.book, hboth.2] at hnone
  · obtain ⟨st, hst, hgone⟩ := TransitionSystem.exists_reachable_of_run
      (fun st call => some (st.after smallPack call)) hstart
      [.rowsFor ((List.range 16).map fun e => (0, e)) false (fun _ => .ok) fun _ => .ok]
      (fun st => decide (st.pos (0, 15) = some 0 ∧ (rowsFor smallPack st [(0, 16)] true
        (fun _ => .ok) fun _ => .ok).2.pos (0, 15) ≠ some 0)) (by decide +kernel)
    simp only [decide_eq_true_eq] at hgone
    exact ⟨st, hst, _, _, hgone⟩

end VllmMoet.Pack
