import VllmMoet.Engram.Acknowledged
import VllmMoet.Engram.Rows

/-!
# An acknowledged request has its rows

Every step keeps `Rows`, with the rows of the request being begun looked at up to where its
row loop stands (`rowsOk_invariant`). An acknowledgement with status zero therefore stands
beside the table's rows (`acked_table_rows`).
-/

namespace VllmMoet

namespace Engram

variable {B : Type*} {C : Cfg B} {F F' G : Fetcher B} {g d : Option ℕ} {q : List ℕ}
  {e i id l : ℕ} {r : Read} {res : ℤ} {cq : List (Read × ℤ)} {p p' : ℕ → ℕ → Prop}

/-- The rows that have been looked at: in the row loop, those of its layer before its row. -/
def Pc.looked : Pc → ℕ → ℕ → Prop
  | .rows l i, k, j => k = l → j < i
  | _, _, _ => True

/-- The duplicates' entries are the layer's job's, each for its row. -/
def Fetcher.LocOk (F : Fetcher B) (l : ℕ) : Prop :=
  ∀ id e, F.loc id = some e → F.Live e ∧ (F.entries e).job = some l ∧ (F.entries e).id = id

/-! ### An acknowledgement ends a request -/

/-- The layers that are acknowledged have no job. -/
def Finishes (F F' : Fetcher B) : Prop :=
  ∀ l, F'.acks l = F.acks l ∨ (F'.jobs l).active = false

theorem Finishes.same (h : F'.acks = F.acks) : Finishes F F' := fun l => .inl (congrFun h l)

/-- A count that comes to zero finishes the request of the job. -/
theorem finishes_countDown (h : G.acks = F.acks) (k : ℕ) : Finishes F (G.countDown k) := by
  intro l
  rw [Fetcher.countDown]
  split
  · rcases eq_or_ne l k with rfl | hne
    · right
      simp [Fetcher.finishJob, Fetcher.setJob]
    · left
      simp [Fetcher.finishJob, Fetcher.setJob, hne, h]
  · exact .inl (congrFun h l)

/-- A completion may finish the job of its entry. -/
theorem finishes_reapOne (F : Fetcher B) (r : Read) (res : ℤ) (cq : List (Read × ℤ)) :
    Finishes F (F.reapOne r res cq) := by
  obtain ⟨jobs, -, heq⟩ := reapOne_eq F r res cq
  rw [heq]
  dsimp only
  split
  · obtain ⟨cache, ⟨-, heq⟩ | ⟨l, staging, J, -, -, heq⟩⟩ := completeEntry_cases
      { (F.pop r cq).setEntry (F.slots r.ud).entry (Fetcher.landed (F.slots r.ud)
        (F.entries (F.slots r.ud).entry) res) with jobs := jobs } (F.slots r.ud).entry
    · rw [heq]
      exact .same rfl
    · rw [heq]
      exact finishes_countDown rfl l
  · exact .same rfl

/-- A missing row acknowledges nothing. -/
theorem acks_miss (F : Fetcher B) (l i id : ℕ) : (F.miss l i id).acks = F.acks := by
  rw [Fetcher.miss]
  split
  · dsimp only
    split <;> rfl
  · obtain ⟨_, _, _, heq⟩ := allocEntry_frame F
    dsimp only
    rw [heq]
    rfl

/-- A row acknowledges nothing: the guard is still held. -/
theorem acks_row [Zero B] (F : Fetcher B) (C : Cfg B) (l i : ℕ) :
    (F.row C l i).acks = F.acks := by
  simp only [Fetcher.row]
  split
  · rfl
  · split
    · rfl
    · split
      · rfl
      · exact acks_miss _ l i _

/-- A prefetch acknowledges nothing. -/
theorem acks_prefetchMiss (F : Fetcher B) (C : Cfg B) (l id : ℕ) (rest : List (ℕ × ℤ)) :
    (F.prefetchMiss C l id rest).acks = F.acks := by
  obtain ⟨_, _, _, heq⟩ := allocEntry_frame F
  simp only [Fetcher.prefetchMiss]
  rw [heq]
  split
  · rfl
  · next F₂ hs =>
    obtain ⟨_, _, _, _, rfl⟩ := issueEntry_frame hs
    rfl

/-- **One step** acknowledges requests that it finishes. -/
theorem finishes_step [Zero B] {a : Act B} (hs : F.step C a = some F') : Finishes F F' := by
  have hreap : ∀ G : Fetcher B, Finishes F G → Finishes F (F.reapAll G) := by
    intro G hG
    rw [Fetcher.reapAll]
    split
    · exact hG
    · exact finishes_reapOne F _ _ _
  rcases step_cases hs with ⟨-, hs⟩ | ⟨b, -, hs⟩ | ⟨i, res, garbage, -, hs⟩ | ⟨-, _, _, _, rfl⟩
  · rw [Fetcher.tick] at hs
    split at hs
    · next l hpc =>
      obtain rfl := Option.some.inj hs
      obtain ⟨_, _, _, _, _, _, _, heq, -⟩ := scan_frame F C l
      exact .same (by rw [heq])
    · next l i hpc =>
      obtain rfl := Option.some.inj hs
      refine .same ?_
      rw [Fetcher.rowStep]
      split
      · exact acks_row F C l i
      · rfl
    · exact Option.some.inj hs ▸ .same rfl
    · next l hpc =>
      obtain rfl := Option.some.inj hs
      refine .same ?_
      rw [Fetcher.issueStep]
      split
      · rfl
      · split
        · rfl
        · next F' hs =>
          obtain ⟨_, _, _, _, rfl⟩ := issueEntry_frame hs
          rfl
    · split at hs
      · exact Option.some.inj hs ▸ .same rfl
      · simp at hs
    · exact Option.some.inj hs ▸ .same rfl
    · exact Option.some.inj hs ▸ hreap _ (.same rfl)
    · next l hpc => exact Option.some.inj hs ▸ finishes_countDown rfl l
    · obtain rfl := Option.some.inj hs
      refine .same ?_
      rw [Fetcher.check]
      split
      · rfl
      · split <;> rfl
    · exact Option.some.inj hs ▸ hreap _ (.same rfl)
    · obtain rfl := Option.some.inj hs
      refine .same ?_
      rw [Fetcher.prefetch]
      dsimp only
      split
      · rfl
      · split <;> rfl
    · obtain rfl := Option.some.inj hs
      refine .same ?_
      rw [Fetcher.prefetchRow]
      split
      · split <;> rfl
      · split
        · rfl
        · split
          · rfl
          · split
            · rfl
            · exact acks_prefetchMiss F C _ _ _
    · simp at hs
  · obtain ⟨R, -, hs⟩ := Option.bind_eq_some_iff.mp hs
    dsimp only at hs
    split at hs
    · split at hs
      · simp at hs
      · split at hs <;> exact Option.some.inj hs ▸ .same rfl
    · exact Option.some.inj hs ▸ .same rfl
    · simp at hs
  · obtain ⟨r, -, hs⟩ := Option.bind_eq_some_iff.mp hs
    obtain ⟨R, -, rfl⟩ := Option.map_eq_some_iff.mp hs
    exact .same rfl
  · exact .same rfl

/-! ### Where the fetcher stands -/

variable [Zero B]

/-- The fetcher's rows are the table's, where it stands. -/
structure RowsOk (C : Cfg B) (F : Fetcher B) : Prop where
  books : BooksOk C F
  rows : Rows C F F.pc.looked
  loc : ∀ l i, F.pc = .rows l i → F.LocOk l

/-- Outside the row loop every row has been looked at. -/
theorem looked_of_ne {pc : Pc} (h : ∀ l i, pc ≠ .rows l i) (k j : ℕ) : pc.looked k j := by
  rcases pc with _ | ⟨l, i⟩ | _ | _ | _ | _ | _ | _ | _ | _ | _ | _ | _
  case rows => exact absurd rfl (h l i)
  all_goals trivial

/-- Where no row loop is left or entered. -/
theorem RowsOk.ofRows (hb : BooksOk C G) (hR : Rows C G p) (hp : ∀ k j, p k j)
    (hpc : ∀ l i, G.pc ≠ .rows l i) : RowsOk C G :=
  ⟨hb, hR.imp fun k j _ _ => hp k j, fun l i h => absurd h (hpc l i)⟩

/-! ### The rows of a request -/

/-- A row that is missed waits for an entry. -/
theorem Rows.miss (hR : Rows C F p) (hb : Books C F (some l) none q)
    (hrange : (C.layer l).InRange ((F.jobs l).req.ids i))
    (hid : ((F.jobs l).req.ids i).toNat = id) (hloc : F.LocOk l) (hnone : F.loc id = none)
    (hp : ∀ k j, p' k j → p k j ∨ (k = l ∧ j = i)) :
    Rows C (F.miss l i id) p' ∧ (F.miss l i id).LocOk l := by
  have hdst : ∀ k n, some l = some k → n = id →
      (C.layer k).InRange ((F.jobs k).req.ids i) ∧ ((F.jobs k).req.ids i).toNat = n := by
    intro k n hk hn
    obtain rfl := Option.some.inj hk
    exact ⟨hrange, hid.trans hn.symm⟩
  have hle : (C.layer l).vocabStart ≤ id := by
    have := hrange.1
    omega
  rw [Fetcher.miss]
  split
  · next e hpend =>
    obtain ⟨hlive, hlayer, heid⟩ := (hb.pending l id e).mp hpend
    have hE := hR.entry e hlive
    dsimp only
    split
    · next hjob =>
      -- a prefetch's entry is adopted: it has no destinations yet
      have hextra := hE.2.2 hjob
      have hset := hR.setEntry (e := e)
        (E := { F.entries e with job := some l, firstDst := some i }) ⟨rfl, rfl⟩
        ⟨hE.1, hE.2.1, fun h => by simp at h⟩ (fun k hk j hj => by
          have hj : j = i := by simpa [Entry.dsts, hextra] using hj
          rw [hj]
          exact hdst k _ hk heid)
        fun k hk => by
          rw [hjob] at hk
          simp at hk
      have hjobs := hset.setJob (l := l) (J := { F.jobs l with
        remaining := (F.jobs l).remaining + 1 }) rfl ⟨rfl, rfl, rfl⟩ (.inl ⟨rfl, rfl⟩)
      refine ⟨?_, fun x y hxy => ?_⟩
      · refine (hjobs.look (l := l) (i := i) (.inr ⟨e, hlive, ?_⟩) hp).other _ _ _ _ _ _ _ _ _ _ _
        simp [Fetcher.setEntry, Fetcher.setJob, Entry.dsts]
      · change Function.update F.loc id (some e) x = some y at hxy
        change F.Live y ∧ (Function.update F.entries e _ y).job = _ ∧
          (Function.update F.entries e _ y).id = x
        rcases eq_or_ne x id with rfl | hne
        · rw [Function.update_self] at hxy
          obtain rfl := Option.some.inj hxy
          rw [Function.update_self]
          exact ⟨hlive, rfl, heid⟩
        · rw [Function.update_of_ne hne] at hxy
          obtain ⟨hlv, hj, hx⟩ := hloc x y hxy
          have hye : y ≠ e := by
            rintro rfl
            rw [hjob] at hj
            simp at hj
          rw [Function.update_of_ne hye]
          exact ⟨hlv, hj, hx⟩
    · next hjob =>
      -- the entry is the job's already
      obtain ⟨k, hk⟩ := Option.ne_none_iff_exists'.mp hjob
      obtain rfl : k = l := (hb.owner e hlive k hk).1.symm.trans hlayer
      have hset := hR.setEntry (e := e)
        (E := { F.entries e with extra := (F.entries e).extra ++ [i] }) ⟨rfl, rfl⟩
        ⟨hE.1, hE.2.1, fun h => absurd h hjob⟩ (fun m hm j hj => by
          have hj : j ∈ (F.entries e).dsts ∨ j = i := by
            simpa [Entry.dsts, ← or_assoc] using hj
          rcases hj with hj | rfl
          · exact hR.dsts e hlive m hm j hj
          · exact hdst m _ (hk.symm.trans hm) heid)
        fun m hm => ⟨hm, fun j hj => by
          rw [Entry.dsts] at hj ⊢
          rw [← List.append_assoc]
          exact List.mem_append_left _ hj⟩
      refine ⟨hset.look (l := k) (i := i) (.inr ⟨e, hlive, ?_⟩) hp, fun x y hxy => ?_⟩
      · simp [Fetcher.setEntry, Entry.dsts, hk]
      · obtain ⟨hlv, hj, hx⟩ := hloc x y hxy
        refine ⟨hlv, ?_⟩
        change (Function.update F.entries e _ y).job = _ ∧
          (Function.update F.entries e _ y).id = x
        rcases eq_or_ne y e with rfl | hye
        · rw [Function.update_self]
          exact ⟨hj, hx⟩
        · rw [Function.update_of_ne hye]
          exact ⟨hj, hx⟩
  · next hpend =>
    have halloc := hb.alloc
    dsimp only
    generalize F.allocEntry = a at halloc ⊢
    obtain ⟨e, F₁⟩ := a
    obtain ⟨hblank, -, hextra⟩ : (∀ h, (F₁.entries e).done h = false) ∧ _ ∧
      (F₁.entries e).extra = [] := halloc.blank
    have hentries := halloc.entries
    have hlive := halloc.live
    have hnotLive := halloc.notLive
    have hins := hR.insert hb halloc
      (E := { F₁.entries e with layer := l, id := id, job := some l, firstDst := some i })
      ⟨hle, fun _ h hh => by
        change (F₁.entries e).done h = true at hh
        rw [hblank] at hh
        simp at hh, fun h => by simp at h⟩
      (fun k hk j hj => by
        have hj : j = i := by simpa [Entry.dsts, hextra] using hj
        rw [hj]
        exact hdst k _ hk rfl)
    obtain ⟨entries, nEntries, freeEntries, rfl⟩ := halloc.same
    have hjobs := hins.setJob (l := l) (J := { F.jobs l with
      remaining := (F.jobs l).remaining + 1 }) rfl ⟨rfl, rfl, rfl⟩ (.inl ⟨rfl, rfl⟩)
    have hnew := (hlive e).mpr (.inr rfl)
    refine ⟨?_, fun x y hxy => ?_⟩
    · refine (hjobs.look (l := l) (i := i) (.inr ⟨e, hnew, ?_⟩) hp).other _ _ _ _ _ _ _ _ _ _ _
      simp [Fetcher.setEntry, Fetcher.setJob, Entry.dsts]
    · change Function.update F.loc id (some e) x = some y at hxy
      rw [← and_assoc]
      change (_ ∧ (Function.update entries e _ y).job = _) ∧
        (Function.update entries e _ y).id = x
      rcases eq_or_ne x id with rfl | hne
      · rw [Function.update_self] at hxy
        obtain rfl := Option.some.inj hxy
        rw [Function.update_self]
        exact ⟨⟨hnew, rfl⟩, rfl⟩
      · rw [Function.update_of_ne hne] at hxy
        obtain ⟨hlv, hj, hx⟩ := hloc x y hxy
        have hye : y ≠ e := fun heq => hnotLive (heq ▸ hlv)
        rw [Function.update_of_ne hye]
        have hy := hentries y hye
        dsimp only at hy
        rw [hy]
        exact ⟨⟨(hlive y).mpr (.inl hlv), hj⟩, hx⟩

/-- A row of the request is looked at. -/
theorem Rows.row (hR : Rows C F p) (hb : Books C F (some l) none q) (hloc : F.LocOk l)
    (hp : ∀ k j, p' k j → p k j ∨ (k = l ∧ j = i)) :
    Rows C (F.row C l i) p' ∧ (F.row C l i).LocOk l := by
  have hact := hb.guard l rfl
  simp only [Fetcher.row]
  split
  · -- a row out of the vocabulary is staged as zeros
    next hout => exact ⟨hR.stage hact (if_neg hout).symm hp, hloc⟩
  · next hin =>
    rw [not_not] at hin
    have hexp : (C.layer l).expected ((F.jobs l).req.ids i) =
        (C.layer l).row ((F.jobs l).req.ids i).toNat := if_pos hin
    split
    · -- the row is being read for this request: one more destination of its entry
      next e he =>
      obtain ⟨hlive, hjob, heid⟩ := hloc _ e he
      have hE := hR.entry e hlive
      have hset := hR.setEntry (e := e)
        (E := { F.entries e with extra := (F.entries e).extra ++ [i] }) ⟨rfl, rfl⟩
        ⟨hE.1, hE.2.1, fun h => by
          change (F.entries e).job = none at h
          rw [hjob] at h
          simp at h⟩ (fun m hm j hj => by
          have hj : j ∈ (F.entries e).dsts ∨ j = i := by
            simpa [Entry.dsts, ← or_assoc] using hj
          rcases hj with hj | rfl
          · exact hR.dsts e hlive m hm j hj
          · obtain rfl := Option.some.inj (hjob.symm.trans hm)
            exact ⟨hin, heid.symm⟩)
        fun m hm => ⟨hm, fun j hj => by
          rw [Entry.dsts] at hj ⊢
          rw [← List.append_assoc]
          exact List.mem_append_left _ hj⟩
      refine ⟨hset.look (l := l) (i := i) (.inr ⟨e, hlive, ?_⟩) hp, fun x y hxy => ?_⟩
      · simp [Fetcher.setEntry, Entry.dsts, hjob]
      · obtain ⟨hlv, hj, hx⟩ := hloc x y hxy
        refine ⟨hlv, ?_⟩
        change (Function.update F.entries e _ y).job = _ ∧
          (Function.update F.entries e _ y).id = x
        rcases eq_or_ne y e with rfl | hye
        · rw [Function.update_self]
          exact ⟨hj, hx⟩
        · rw [Function.update_of_ne hye]
          exact ⟨hj, hx⟩
    · next hnone =>
      split
      · -- a hit stages the row of the cache, which is the row of the file
        next row K hhit =>
        obtain ⟨hrow, hK⟩ := (hR.cache l).probe hhit
        have hstage := (hR.setCache hK).stage (l := l) (i := i) hact
          (hrow.trans hexp.symm) hp
        exact ⟨hstage.setJob rfl ⟨rfl, rfl, rfl⟩ (.inl ⟨rfl, rfl⟩), hloc⟩
      · have hset := hR.setJob (l := l) (J := { F.jobs l with
          nMisses := (F.jobs l).nMisses + 1 }) rfl ⟨rfl, rfl, rfl⟩ (.inl ⟨rfl, rfl⟩)
        have hb' := hb.setJob (l := l) (J := { F.jobs l with
          nMisses := (F.jobs l).nMisses + 1 }) ⟨rfl, rfl, rfl⟩
        have hreq : ((F.setJob l { F.jobs l with
            nMisses := (F.jobs l).nMisses + 1 }).jobs l).req = (F.jobs l).req := by
          simp [Fetcher.setJob]
        refine hset.miss hb' ?_ ?_ hloc hnone hp
        · rw [hreq]
          exact hin
        · rw [hreq]

/-- The row is staged, or has an entry with its place among the destinations. -/
theorem RowsOk.rowStep (hF : RowsOk C F) (hpc : F.pc = .rows l i) :
    RowsOk C (F.rowStep C l i) := by
  have hb := hF.books.rowStep hpc
  have hbF := hF.books.books
  have hR := hF.rows
  rw [hpc] at hbF hR
  rw [Fetcher.rowStep] at hb ⊢
  by_cases hi : i < (F.jobs l).nRows
  · rw [if_pos hi] at hb ⊢
    have hrow : Rows C (F.row C l i) (Pc.rows l (i + 1)).looked ∧ (F.row C l i).LocOk l :=
      hR.row hbF (hF.loc l i hpc) fun k j hkj => by
        by_cases hk : k = l
        · have := hkj hk
          rcases Nat.lt_succ_iff_lt_or_eq.mp this with hlt | rfl
          · exact .inl fun _ => hlt
          · exact .inr ⟨hk, rfl⟩
        · exact .inl fun h => absurd h hk
    refine ⟨hb, hrow.1.other _ _ _ _ _ _ _ _ _ _ _, fun k j hkj => ?_⟩
    obtain ⟨rfl, -⟩ := Pc.rows.inj hkj
    exact hrow.2
  · rw [if_neg hi] at hb ⊢
    -- the loop is done: every row was looked at
    refine ⟨hb, (hR.imp fun k j hj _ hk => ?_).other _ _ _ _ _ _ _ _ _ _ _,
      fun k j hkj => by simp [Fetcher.goto] at hkj⟩
    subst hk
    omega

/-! ### An entry completes -/

/-- An entry's row goes to its staging rows, the entry is freed, and its job counts it down. -/
theorem Rows.delivered (hR : Rows C F p) (hb : Books C F g none q) (hlive : F.Live e)
    (hread : ∀ r ∈ F.ring.reads, (F.target r).1 ≠ e) (hq : e ∉ q)
    (hjob : (F.entries e).job = some l) {J : Job}
    (hJ : J.remaining = (F.jobs l).remaining ∧ J.active = (F.jobs l).active ∧
      J.seq = (F.jobs l).seq)
    (hreq : J.req = (F.jobs l).req ∧ J.nRows = (F.jobs l).nRows)
    (hok : (J.failed = (F.jobs l).failed ∧ J.status = (F.jobs l).status ∧
      (F.entries e).row = (C.layer l).row (F.entries e).id) ∨ (J.failed = true ∧ J.status ≠ 0))
    (hp : g ≠ some l → ∀ i, p l i) :
    Rows C (Fetcher.countDown { F.free e with
      jobs := Function.update F.jobs l J
      staging := fun k j => if k = (F.entries e).layer ∧ j ∈ (F.entries e).dsts then
        (F.entries e).row else F.staging k j } l) p := by
  obtain ⟨hlay, hact⟩ := hb.owner e hlive l hjob
  simp only [hlay]
  have hdsts := hR.dsts e hlive l hjob
  have hself : Function.update F.jobs l J l = J := Function.update_self ..
  have hset := hR.setJob (l := l) hreq.1 ⟨hJ.2.1, hJ.2.2, hreq.2⟩
    (hok.imp_left fun h => ⟨h.1, h.2.1⟩)
  have hrow : (F.setJob l J |>.jobs l).failed = true ∨ ∀ i ∈ (F.entries e).dsts,
      (F.entries e).row = (C.layer l).expected ((F.setJob l J |>.jobs l).req.ids i) := by
    simp only [Fetcher.setJob, hself]
    rw [hreq.1]
    refine hok.symm.imp (fun h => h.1) fun h i hi => ?_
    obtain ⟨hin, hid⟩ := hdsts i hi
    rw [h.2.2, LayerCfg.expected, if_pos hin, hid]
  have hJact : (F.setJob l J |>.jobs l).active = true := by
    simp only [Fetcher.setJob, hself]
    exact hJ.2.1.trans hact
  have hwrite : Rows C { F.setJob l J with
      staging := fun k j => if k = l ∧ j ∈ (F.entries e).dsts then (F.entries e).row
        else F.staging k j } p := hset.write hJact hrow fun k j hkj => .inl hkj
  have hfreed := hwrite.free (e := e) fun k hk => by
    obtain rfl := Option.some.inj (hjob.symm.trans hk)
    refine hrow.imp_right fun h i hi => ?_
    rw [Fetcher.Staged, ← h i hi]
    exact if_pos ⟨rfl, hi⟩
  have hbooks := (hb.free hlive hread hq).setJob (l := l) (J := J) hJ
  rw [hjob] at hbooks
  exact hfreed.countDown (hbooks.other _ _ _ _ _ _ _ _ _ _ _) hp

/-- A complete entry's row is cached and goes to its staging rows. -/
theorem Rows.completeEntry (hR : Rows C F p) (hb : Books C F g none q) (hlive : F.Live e)
    (hdone : ∀ h, (F.entries e).done h = true)
    (hp : ∀ l, (F.entries e).job = some l → g ≠ some l → ∀ i, p l i) :
    Rows C (F.completeEntry e) p := by
  have hread : ∀ r ∈ F.ring.reads, (F.target r).1 ≠ e := by
    rintro r hr rfl
    have := (hb.reads r hr).2
    rw [hdone] at this
    simp at this
  have hq : e ∉ q := by
    intro he
    have := (hb.queued e he).2.2.1 .values
    rw [hdone] at this
    simp at this
  obtain ⟨-, hrow, -⟩ := hR.entry e hlive
  have hrow' : (F.entries e).failed = false →
      (F.entries e).row = (C.layer (F.entries e).layer).row (F.entries e).id := by
    intro hfail
    funext h
    exact hrow hfail h (hdone h)
  -- only the table's rows are cached
  have hcache : ∃ cache, (∀ l, (cache l).Holds (C.layer l)) ∧
      (if (F.entries e).failed then F.setPending (F.entries e).layer (F.entries e).id none
        else (F.setPending (F.entries e).layer (F.entries e).id none).setCache (F.entries e).layer
          ((F.cache (F.entries e).layer).insert (F.entries e).id (F.entries e).row)) =
      { F.setPending (F.entries e).layer (F.entries e).id none with cache := cache } := by
    split
    · exact ⟨F.cache, hR.cache, rfl⟩
    · next hfail =>
      rw [Bool.not_eq_true] at hfail
      rw [hrow' hfail]
      have hset := hR.setCache ((hR.cache (F.entries e).layer).insert (F.entries e).id)
      exact ⟨_, hset.cache, rfl⟩
  obtain ⟨cache, hholds, hcache⟩ := hcache
  have hRc : Rows C { F with cache := cache } p :=
    ⟨hholds, hR.entry, hR.dsts, hR.aimed, hR.buf, hR.job, hR.rows, hR.acked⟩
  have hbc : Books C { F with cache := cache } g none q := hb.other _ _ _ _ _ _ _ _ _ _ _
  rw [Fetcher.completeEntry]
  simp only [Fetcher.setPending] at hcache ⊢
  rw [hcache]
  split
  · next l hjob =>
    obtain ⟨hlay, -⟩ := hb.owner e hlive l hjob
    rw [Fetcher.deliver]
    dsimp only
    rw [foldl_stage_eq, countDown_free]
    split
    · exact hRc.delivered hbc hlive hread hq hjob
        (J := { F.jobs l with failed := true, status := 1 }) ⟨rfl, rfl, rfl⟩ ⟨rfl, rfl⟩
        (.inr ⟨rfl, by simp⟩) (hp l hjob)
    · next hfail =>
      rw [Bool.not_eq_true] at hfail
      have hdel := hRc.delivered hbc hlive hread hq hjob (J := F.jobs l) ⟨rfl, rfl, rfl⟩ ⟨rfl, rfl⟩
        (.inl ⟨rfl, rfl, hlay ▸ hrow' hfail⟩) (hp l hjob)
      dsimp only at hdel
      rw [Function.update_eq_self] at hdel
      exact hdel
  · next hjob =>
    refine hRc.free (e := e) fun l hl => ?_
    change (F.entries e).job = some l at hl
    rw [hjob] at hl
    simp at hl

/-- Only the number of reads of a job changes. -/
theorem Rows.setReads (hR : Rows C F p) {jobs : ℕ → Job}
    (hsame : ∀ l, ∃ n, jobs l = { F.jobs l with nReads := n }) :
    Rows C { F with jobs := jobs } p := by
  have hjob : ∀ l, (jobs l).req = (F.jobs l).req ∧ (jobs l).active = (F.jobs l).active ∧
      (jobs l).failed = (F.jobs l).failed ∧ (jobs l).nRows = (F.jobs l).nRows ∧
      (jobs l).seq = (F.jobs l).seq ∧ (jobs l).status = (F.jobs l).status := by
    intro l
    obtain ⟨n, hn⟩ := hsame l
    rw [hn]
    exact ⟨rfl, rfl, rfl, rfl, rfl, rfl⟩
  refine ⟨hR.cache, hR.entry, fun e he l hl => ?_, hR.aimed, hR.buf, fun l hl => ?_,
    fun l hl hnot i hi hpi => ?_, fun l hl => hR.acked l ((hjob l).2.1 ▸ hl)⟩
  · dsimp only
    rw [(hjob l).1]
    exact hR.dsts e he l hl
  · obtain ⟨hreq, hact, hfail, hn, hseq, hst⟩ := hjob l
    dsimp only at hl ⊢
    rw [hreq, hseq, hn, hfail, hst]
    exact hR.job l (hact ▸ hl)
  · obtain ⟨hreq, hact, hfail, hn, -, -⟩ := hjob l
    dsimp only at hl hnot hi
    rw [Fetcher.Staged, hreq]
    exact hR.rows l (hact ▸ hl) (hfail ▸ hnot) i (hn ▸ hi) hpi

/-- A completion is reaped. -/
theorem Rows.reapOne (hR : Rows C F p) (hb : Books C F g none q)
    (hcq : F.ring.cq = (r, res) :: cq) (hp : ∀ k i, p k i) :
    Rows C (F.reapOne r res cq) p := by
  obtain ⟨jobs, hjobs, heq⟩ := reapOne_eq F r res cq
  rw [heq]
  have hr : r ∈ F.ring.reads := (mem_reads_pop hcq).mpr (.inl rfl)
  have hlive : F.Live (F.slots r.ud).entry := (hb.reads r hr).1
  have hq : (F.slots r.ud).entry ∉ q := fun he => (hb.queued _ he).2.2.2 r hr rfl
  have hG := (hR.landed hb hcq).setReads hjobs
  have hbE := (hb.pop hcq).mark (landed_same (F.slots r.ud) (F.entries (F.slots r.ud).entry) res)
    (hb.pop_target hcq) hq
  have hbG := hbE.setJobs (same_of_reads hjobs)
  dsimp only
  split
  · next hdone =>
    rw [Bool.and_eq_true] at hdone
    refine hG.completeEntry hbG hlive (fun h => ?_) fun l _ _ i => hp l i
    simp only [Fetcher.setEntry, Function.update_self]
    rcases h with _ | _
    · exact hdone.1
    · exact hdone.2
  · exact hG

/-! ### Every step -/

/-- Going on between two places outside the loop over the rows. -/
theorem RowsOk.goto (hF : RowsOk C F) {pc : Pc} (hb : BooksOk C (F.goto pc))
    (hold : ∀ l i, F.pc ≠ .rows l i) (hpc : ∀ l i, pc ≠ .rows l i) : RowsOk C (F.goto pc) :=
  .ofRows hb (hF.rows.other _ _ _ _ _ _ _ _ _ _ _) (looked_of_ne hold) hpc

/-- Where no row loop is left or entered, and the rows are the table's. -/
theorem RowsOk.ofSame (hb : BooksOk C G) (hR : Rows C G F.pc.looked)
    (hold : ∀ l i, F.pc ≠ .rows l i) (hpc : ∀ l i, G.pc ≠ .rows l i) : RowsOk C G :=
  .ofRows hb hR (looked_of_ne hold) hpc

/-- A request is begun with none of its rows done. -/
theorem RowsOk.scan (hF : RowsOk C F) (hpc : F.pc = .scan l) : RowsOk C (F.scan C l) := by
  have hb := hF.books.scan hpc
  have hR := hF.rows
  have hbF := hF.books.idleBooks (by rw [hpc]; rfl)
  have hold : ∀ k i, F.pc ≠ .rows k i := by simp [hpc]
  rw [Fetcher.scan] at hb ⊢
  by_cases hl : l < C.nLayers
  · rw [if_pos hl] at hb ⊢
    by_cases hactive : (List.range l).any fun k => (F.jobs k).active
    · rw [if_pos hactive] at hb ⊢
      exact hF.goto hb hold (by simp)
    · rw [if_neg hactive] at hb ⊢
      dsimp only at hb ⊢
      by_cases hs : (F.mailbox l).step = F.expected l ∧ (F.jobs l).active = false
      · rw [if_pos hs] at hb ⊢
        have hbegin : ∀ pc : Pc, (pc = .release l ∧ decide (C.maxRows < (F.mailbox l).nRows) = true) ∨
            pc = .rows l 0 → Rows C (F.beginJob C l) pc.looked := by
          intro pc hnext
          have hbig : decide (C.maxRows < (F.mailbox l).nRows) = true →
              (if decide (C.maxRows < (F.mailbox l).nRows) = true then 2 else 0) ≠ 0 := by
            intro h
            rw [if_pos h]
            simp
          have hnew : Rows C _ pc.looked := hR.begin hbF hs.2 (Q := F.mailbox l)
            (J := ⟨F.mailbox l, (F.mailbox l).step, (F.mailbox l).nRows, 0, 0, 0, 1,
              decide (C.maxRows < (F.mailbox l).nRows),
              if decide (C.maxRows < (F.mailbox l).nRows) = true then 2 else 0, true⟩)
            ⟨rfl, rfl, rfl, rfl⟩ hbig (by
              rcases hnext with ⟨-, hbig⟩ | rfl
              · exact .inl hbig
              · exact .inr fun i hi => absurd (hi rfl) (Nat.not_lt_zero i))
            fun k _ i _ => looked_of_ne hold k i
          exact hnew.other _ _ _ _ _ _ _ _ _ _ _
        by_cases hbig : decide (C.maxRows < (F.mailbox l).nRows) = true
        · have hpc' : (F.beginJob C l).pc = .release l := if_pos hbig
          refine ⟨hb, ?_, fun k i hk => ?_⟩
          · rw [hpc']
            exact hbegin _ (.inl ⟨rfl, hbig⟩)
          · rw [hpc'] at hk
            simp at hk
        · have hpc' : (F.beginJob C l).pc = .rows l 0 := if_neg hbig
          refine ⟨hb, ?_, fun k i hk x y hxy => ?_⟩
          · rw [hpc']
            exact hbegin _ (.inr rfl)
          · simp [Fetcher.beginJob] at hxy
      · rw [if_neg hs] at hb ⊢
        split at hb
        · next hresync =>
          rw [if_pos hresync]
          exact .ofSame hb (hR.other _ _ _ _ _ _ _ _ _ _ _) hold (by simp)
        · next hresync =>
          rw [if_neg hresync]
          exact hF.goto hb hold (by simp)
  · rw [if_neg hl] at hb ⊢
    exact hF.goto hb hold (by simp)

/-- A request whose last row has landed is acknowledged with all rows staged. -/
theorem RowsOk.release (hF : RowsOk C F) (hpc : F.pc = .release l) :
    RowsOk C (F.release l) := by
  have hb := hF.books.release hpc
  have hbF := hF.books.books
  have hR := hF.rows
  rw [hpc, hF.books.released l hpc] at hbF
  rw [hpc] at hR
  have hdown := hR.countDown hbF.guardDown fun _ i => trivial
  rw [Fetcher.release] at hb ⊢
  refine .ofRows hb (p := (Pc.release l).looked) ?_ (fun _ _ => trivial) (by simp)
  obtain ⟨jobs, acks, heq⟩ := countDown_eq F l
  rw [heq] at hdown ⊢
  exact hdown.other _ _ _ _ _ _ _ _ _ _ _

/-- Issuing stages nothing. -/
theorem RowsOk.issueStep (hF : RowsOk C F) (hpc : F.pc = .issue l) :
    RowsOk C (F.issueStep C l) := by
  have hb := hF.books.issueStep hpc
  have hbF := hF.books.books
  have hold : ∀ k i, F.pc ≠ .rows k i := by simp [hpc]
  rw [Fetcher.issueStep] at hb ⊢
  rcases hq : F.queued with _ | ⟨e, es⟩
  · simp only [hq] at hb ⊢
    exact hF.goto hb hold (by simp)
  · rcases hs : F.issueEntry C e with _ | F'
    · simp only [hq, hs] at hb ⊢
      exact hF.goto hb hold (by simp)
    · simp only [hq, hs] at hb ⊢
      rw [hq] at hbF
      obtain ⟨hlive, -, hdone, hread⟩ := hbF.queued e (List.mem_cons_self ..)
      have hnot : e ∉ es := (List.nodup_cons.mp hbF.queueNodup).1
      have hR := hF.rows.issueEntry hbF.dequeue ⟨hlive, hdone, hread⟩ hnot hs
      obtain ⟨_, _, _, _, rfl⟩ := issueEntry_frame hs
      exact .ofSame hb (hR.other _ _ _ _ _ _ _ _ _ _ _) hold hold

/-- The entry of a prefetch has no destination. -/
theorem RowsOk.prefetchMiss (hF : RowsOk C F) (hpc : F.pc.guard = none)
    (hold : ∀ k i, F.pc ≠ .rows k i) (hp : F.pending l id = none)
    (hin : (C.layer l).vocabStart ≤ id) {rest : List (ℕ × ℤ)} :
    RowsOk C (F.prefetchMiss C l id rest) := by
  have hbok : BooksOk C (F.prefetchMiss C l id rest) := hF.books.prefetchMiss hpc hp
  have hb := hF.books.idleBooks hpc
  have halloc := hb.alloc
  simp only [Fetcher.prefetchMiss] at hbok ⊢
  generalize F.allocEntry = a at halloc hbok ⊢
  obtain ⟨e, F₁⟩ := a
  obtain ⟨hblank, -, hextra⟩ : (∀ h, (F₁.entries e).done h = false) ∧ _ ∧
    (F₁.entries e).extra = [] := halloc.blank
  have hins := hF.rows.insert hb halloc
    (E := { F₁.entries e with layer := l, id := id, job := none })
    ⟨hin, fun _ h hh => by
      change (F₁.entries e).done h = true at hh
      rw [hblank] at hh
      simp at hh, fun _ => hextra⟩ fun k hk => by simp at hk
  obtain ⟨entries, nEntries, freeEntries, rfl⟩ := halloc.same
  have hbins := halloc.inserted (E := { entries e with layer := l, id := id, job := none })
    (J := F.jobs) (fun k => by simp)
  have hnew := hb.newEntry (p := []) hbins halloc.blank.1 hp (fun k hk => by simp at hk) (.inl rfl)
  have hu : Unissued _ e := ⟨(hbins.live e).mpr (.inr rfl), by
    rw [hbins.entry]
    exact halloc.blank.1, fun r hr => by
    rw [hbins.target]
    exact hb.read_ne hbins.notLive (hbins.io.1 ▸ hr)⟩
  have hpend := hins.other F.expected F.mailbox F.freeSlots
    (Function.update F.pending l (Function.update (F.pending l) id (some e))) F.pfQueue F.pc F.busy
    F.queued F.loc F.batch F.issued
  split
  · next hs =>
    -- no slot is free: the entry is taken back
    rw [hs] at hbok
    have hfree := hpend.free (e := e) fun k hk => by
      simp [Fetcher.setEntry] at hk
    exact .ofSame hbok (hfree.other _ _ _ _ _ _ _ _ _ _ _) hold hold
  · next F₂ hs =>
    rw [hs] at hbok
    have hR₂ := hpend.issueEntry hnew hu (by simp) hs
    obtain ⟨_, _, _, _, rfl⟩ := issueEntry_frame hs
    exact .ofSame hbok (hR₂.other _ _ _ _ _ _ _ _ _ _ _) hold hold

/-- A row of the batch. -/
theorem RowsOk.prefetchRow (hF : RowsOk C F) (hpc : F.pc = .prefetchRow) :
    RowsOk C (F.prefetchRow C) := by
  have hguard : F.pc.guard = none := by rw [hpc]; rfl
  have hb := hF.books.prefetchRow hguard
  have hold : ∀ k i, F.pc ≠ .rows k i := by simp [hpc]
  rw [Fetcher.prefetchRow] at hb ⊢
  rcases hbatch : F.batch with _ | ⟨⟨l, id⟩, rest⟩
  · simp only [hbatch] at hb ⊢
    split at hb
    · next hissued =>
      rw [if_pos hissued]
      exact hF.goto hb hold (by simp)
    · next hissued =>
      rw [if_neg hissued]
      exact .ofSame hb (hF.rows.other _ _ _ _ _ _ _ _ _ _ _) hold (by simp [Fetcher.newPoll])
  · simp only [hbatch] at hb ⊢
    by_cases hin : (C.layer l).InRange id
    · rw [if_neg (not_not.mpr hin)] at hb ⊢
      rcases hprobe : (F.cache l).probe id.toNat with _ | ⟨row, K⟩
      · simp only [hprobe] at hb ⊢
        rcases hp : F.pending l id.toNat with _ | e
        · simp only [hp] at hb ⊢
          have hle := hin.1
          exact hF.prefetchMiss hguard hold hp (by omega)
        · simp only [hp] at hb ⊢
          exact .ofSame hb (hF.rows.other _ _ _ _ _ _ _ _ _ _ _) hold hold
      · simp only [hprobe] at hb ⊢
        have hset := hF.rows.setCache ((hF.rows.cache l).probe hprobe).2
        exact .ofSame hb (hset.other _ _ _ _ _ _ _ _ _ _ _) hold hold
    · rw [if_pos hin] at hb ⊢
      exact .ofSame hb (hF.rows.other _ _ _ _ _ _ _ _ _ _ _) hold hold

/-- A place of the poll that changes nothing the rows rest on. -/
theorem RowsOk.quiet (hF : RowsOk C F) (hb : BooksOk C G) (hold : ∀ k i, F.pc ≠ .rows k i)
    (hG : ∃ pfQueue pc busy batch issued, (∀ k i, pc ≠ .rows k i) ∧ G = { F with
      pfQueue := pfQueue
      pc := pc
      busy := busy
      batch := batch
      issued := issued }) : RowsOk C G := by
  obtain ⟨_, _, _, _, _, hpc, rfl⟩ := hG
  exact .ofSame hb (hF.rows.other _ _ _ _ _ _ _ _ _ _ _) hold hpc

/-- A batch stages nothing. -/
theorem RowsOk.prefetch (hF : RowsOk C F) (hpc : F.pc = .prefetch) : RowsOk C (F.prefetch C) := by
  refine hF.quiet (hF.books.prefetch (by rw [hpc]; rfl)) (by simp [hpc]) ?_
  rw [Fetcher.prefetch]
  dsimp only
  split
  · exact ⟨_, _, _, _, _, by simp, rfl⟩
  · split
    · exact ⟨_, _, _, _, _, by simp [Fetcher.newPoll], rfl⟩
    · exact ⟨_, _, _, _, _, by simp, rfl⟩

/-- At the end of the mailboxes nothing is staged. -/
theorem RowsOk.check (hF : RowsOk C F) (hpc : F.pc = .check) : RowsOk C (F.check C) := by
  refine hF.quiet (hF.books.check (by rw [hpc]; rfl)) (by simp [hpc]) ?_
  rw [Fetcher.check]
  split
  · exact ⟨_, _, _, _, _, by simp, rfl⟩
  · split
    · exact ⟨_, _, _, _, _, by simp, rfl⟩
    · exact ⟨_, _, _, _, _, by simp, rfl⟩

/-- One completion, or the place behind the loop. -/
theorem RowsOk.reapAll (hF : RowsOk C F) (hold : ∀ k i, F.pc ≠ .rows k i) {done : Fetcher B}
    (hdone : RowsOk C done) : RowsOk C (F.reapAll done) := by
  have hb := hF.books.reapAll hdone.books
  rw [Fetcher.reapAll] at hb ⊢
  rcases hcq : F.ring.cq with _ | ⟨⟨r, res⟩, cq⟩
  · simp only [hcq] at hb ⊢
    exact hdone
  · simp only [hcq] at hb ⊢
    have hR := hF.rows.reapOne hF.books.books hcq (looked_of_ne hold)
    refine .ofSame hb hR hold ?_
    rw [(reapOne_frame F r res cq).1]
    exact hold

/-- The submission loop goes on at another place. -/
theorem RowsOk.submitted (hF : RowsOk C F) (hpc : F.pc = .submit l) :
    RowsOk C (F.submitted l) := by
  refine hF.goto (hF.books.submitted hpc) (by simp [hpc]) fun k i => ?_
  split <;> simp

/-- **A step of the fetcher**, by its place. -/
theorem RowsOk.tick (hF : RowsOk C F) (hs : F.tick C = some F') : RowsOk C F' := by
  have hb := hF.books.tick hs
  rw [Fetcher.tick] at hs
  split at hs
  · next l hpc => exact Option.some.inj hs ▸ hF.scan hpc
  · next l i hpc => exact Option.some.inj hs ▸ hF.rowStep hpc
  · next l hpc =>
    obtain rfl := Option.some.inj hs
    refine hF.goto hb (by simp [hpc]) fun k i => ?_
    split <;> simp
  · next l hpc => exact Option.some.inj hs ▸ hF.issueStep hpc
  · next l hpc =>
    split at hs
    · exact Option.some.inj hs ▸ hF.submitted hpc
    · simp at hs
  · next l hpc =>
    obtain rfl := Option.some.inj hs
    exact hF.goto hb (by simp [hpc]) (by simp)
  · next l hpc =>
    obtain rfl := Option.some.inj hs
    refine hF.reapAll (by simp [hpc]) (hF.goto ?_ (by simp [hpc]) (by simp))
    exact hF.books.goto (by rw [hpc]; rfl) fun _ hl => by simp at hl
  · next l hpc => exact Option.some.inj hs ▸ hF.release hpc
  · next hpc => exact Option.some.inj hs ▸ hF.check hpc
  · next hpc =>
    obtain rfl := Option.some.inj hs
    exact hF.reapAll (by simp [hpc]) (hF.quiet (hF.books.newPoll (by rw [hpc]; rfl))
      (by simp [hpc]) ⟨_, _, _, _, _, by simp, rfl⟩)
  · next hpc => exact Option.some.inj hs ▸ hF.prefetch hpc
  · next hpc => exact Option.some.inj hs ▸ hF.prefetchRow hpc
  · simp at hs

/-- A submission stages nothing. -/
theorem RowsOk.answer (hF : RowsOk C F) {a : Answer} (hs : F.answer a = some F') :
    RowsOk C F' := by
  have hb := hF.books.answer hs
  obtain ⟨R, hring, hs⟩ := Option.bind_eq_some_iff.mp hs
  have hR := hF.rows.setRing (Uring.reads_submit hring) (Uring.cq_submit hring)
  dsimp only at hs
  split at hs
  · next l hpc =>
    have hold : ∀ k i, F.pc ≠ .rows k i := by simp [hpc]
    split at hs
    · simp at hs
    · split at hs
      · obtain rfl := Option.some.inj hs
        have hjob := hR.setJob (l := l) (J := { F.jobs l with failed := true, status := 1 }) rfl
          ⟨rfl, rfl, rfl⟩ (.inr ⟨rfl, by simp⟩)
        exact .ofSame hb (hjob.other _ _ _ _ _ _ _ _ _ _ _) hold (by simp)
      · obtain rfl := Option.some.inj hs
        refine .ofSame hb (hR.other _ _ _ _ _ _ _ _ _ _ _) hold fun k i => ?_
        simp only [Fetcher.submitted, Fetcher.goto]
        split <;> simp
  · next hpc =>
    obtain rfl := Option.some.inj hs
    exact .ofSame hb (hR.other _ _ _ _ _ _ _ _ _ _ _) (by simp [hpc]) (by simp [Fetcher.newPoll])
  · simp at hs

/-- A completion writes the buffer of its read only. -/
theorem RowsOk.complete (hF : RowsOk C F) {garbage : ℕ → B}
    (hs : F.complete C i res garbage = some F') : RowsOk C F' := by
  have hb := hF.books.complete hs
  have hR := hF.rows.complete hF.books.books hs
  have hloc := hF.loc
  obtain ⟨r, hr, hs⟩ := Option.bind_eq_some_iff.mp hs
  obtain ⟨R, hring, rfl⟩ := Option.map_eq_some_iff.mp hs
  exact ⟨hb, hR, hloc⟩

/-- A fetcher starts with nothing staged. -/
theorem RowsOk.start (hF : Start C F) : RowsOk C F := by
  have hlive : ∀ e, ¬ F.Live e := by
    intro e he
    have := he.1
    rw [hF.nEntries] at this
    omega
  refine ⟨.start hF, ⟨fun l => ?_, fun e he => absurd he (hlive e), fun e he => absurd he (hlive e),
    fun r hr => ?_, fun x hx => ?_, fun l hl => ?_, fun l hl => ?_, fun l _ a ha => ?_⟩,
    fun l i hpc => ?_⟩
  · obtain ⟨mapped, hK⟩ := hF.cache l
    rw [hK]
    exact holds_init _ _
  · simp [hF.ring, Uring.reads] at hr
  · simp [hF.ring] at hx
  · simp [hF.jobs, Job.none] at hl
  · simp [hF.jobs, Job.none] at hl
  · simp [hF.logs] at ha
  · simp [hF.pc] at hpc

/-- **One step** keeps the rows. -/
theorem RowsOk.step (hF : RowsOk C F) {a : Act B} (hs : F.step C a = some F') : RowsOk C F' := by
  have hb := hF.books.step hs
  rcases step_cases hs with ⟨-, hs⟩ | ⟨b, -, hs⟩ | ⟨i, res, garbage, -, hs⟩ | ⟨-, _, _, _, rfl⟩
  · exact hF.tick hs
  · exact hF.answer hs
  · exact hF.complete hs
  · exact ⟨hb, hF.rows.other _ _ _ _ _ _ _ _ _ _ _, hF.loc⟩

/-- Every reachable state holds the table's rows. -/
theorem rowsOk_invariant (C : Cfg B) : (fetcherSystem C).Invariant (RowsOk C) where
  start _ h := .start h
  step _ _ _ _ hF hs := hF.step hs

/-! ### The acknowledged rows -/

/-- **The fetcher returns the table's bytes.** Whatever was requested, prefetched, cached and
completed before, in whatever order and with whatever results: while the last request of a
layer stands acknowledged with status zero, row `i` of its staging buffer is row `ids i` of
the table if this id is the rank's, and zeros otherwise. And every acknowledgement leaves its
layer without a job, so that the next request of the layer is yet to begin. -/
theorem acked_table_rows (C : Cfg B) :
    (∀ F, (fetcherSystem C).Reachable F → ∀ l a, (F.jobs l).active = false →
      (F.acks l).getLast? = some a → a.status = 0 →
      ∃ Q, (F.begun l).getLast? = some Q ∧ a.step = Q.step ∧ a.nRows = Q.nRows ∧
        ∀ i < Q.nRows, F.staging l i =
          if (C.layer l).InRange (Q.ids i) then
            fun h => (List.range h.size).map fun j =>
              (C.layer l).file ((C.layer l).off (Q.ids i).toNat h + j)
          else fun h => List.replicate h.size 0) ∧
    ∀ F F' x l, (fetcherSystem C).Reachable F → F.step C x = some F' → F'.acks l ≠ F.acks l →
      (F'.jobs l).active = false :=
  ⟨fun _ hF l a hact ha h0 => ((rowsOk_invariant C).holds hF).rows.acked l hact a ha h0,
    fun _ _ _ l _ hs hne => (finishes_step hs l).resolve_left hne⟩

/-- The served run of the small fetcher ends with row 2 of its table staged. -/
theorem acked_table_rows_small : ∃ F, (fetcherSystem smallCfg).Reachable F ∧
    F.staging 0 0 .scales = [4112, 4113, 4114, 4115, 4116, 4117, 4118, 4119] := by
  have hrun := TransitionSystem.exists_reachable_of_run (Fetcher.step smallCfg)
    start_smallFetcher servedRun (fun F : Fetcher ℕ => !(F.jobs 0).active &&
      ((F.acks 0).getLast?.any fun a : Ack => a.status == 0) &&
      (F.begun 0).getLast?.any fun Q : Request => decide (0 < Q.nRows) && Q.ids 0 == 2) (by decide)
  obtain ⟨F, hF, hP⟩ := hrun
  simp only [Bool.and_eq_true, Bool.not_eq_true', Option.any_eq_true, beq_iff_eq,
    decide_eq_true_eq] at hP
  obtain ⟨⟨hact, a, ha, h0⟩, R, hR, hn, hid⟩ := hP
  obtain ⟨Q, hQ, -, -, hrows⟩ := (acked_table_rows smallCfg).1 F hF 0 a hact ha h0
  obtain rfl : Q = R := Option.some.inj (hQ.symm.trans hR)
  refine ⟨F, hF, ?_⟩
  rw [hrows 0 hn, hid]
  decide

end Engram

end VllmMoet
