import VllmMoet.CpuMoe.Forward

/-!
# What the phases of the forward store

Each phase between two barriers, place by place.

* `Loc.IsX`, ...: the kinds of places;
* `prepare_items`, `fc1_items`, `act_items`: the items of a phase store to places of their own;
* `fc1_stored`, `act_stored`, `interQ_stored`, `copy_stored`: what a phase leaves where;
* `storesTo_fc2Phase`: what of FC2 goes to a place of the output. A row does not depend on the other
  rows of its group, nor on the share it belongs to.
-/

namespace VllmMoet

namespace CpuMoe

open Binary32
open Prog (forEach meet read readAll write)

/-! ### Places -/

def Loc.IsX : Loc → Prop
  | .x _ => True
  | _ => False

def Loc.IsProj (buf : ℕ) : Loc → Prop
  | .proj b _ => b = buf
  | _ => False

def Loc.IsY (buf : ℕ) : Loc → Prop
  | .y b _ _ => b = buf
  | _ => False

def Loc.IsInterQ : Loc → Prop
  | .interQ _ => True
  | _ => False

def Loc.IsOut : Loc → Prop
  | .out _ => True
  | _ => False

def Loc.IsCopy : Loc → Prop
  | .projOut _ | .interS _ => True
  | _ => False

/-- The two buffers of an expert. -/
def Loc.IsBuffer (buf : ℕ) (l : Loc) : Prop := l.IsProj buf ∨ l.IsY buf

/-- What the tail of an expert writes. -/
def Loc.IsResult (l : Loc) : Prop := l.IsOut ∨ l.IsCopy

section Apart

variable {l : Loc} {buf b : ℕ}

theorem Loc.IsProj.isBuffer (h : l.IsProj buf) : l.IsBuffer buf := .inl h

theorem Loc.IsY.isBuffer (h : l.IsY buf) : l.IsBuffer buf := .inr h

theorem Loc.IsBuffer.eq (h : l.IsBuffer buf) (h' : l.IsBuffer b) : buf = b := by
  cases l <;> simp_all [IsBuffer, IsProj, IsY]

theorem Loc.IsBuffer.not_isResult (h : l.IsBuffer buf) : ¬ l.IsResult := by
  cases l <;> simp_all [IsBuffer, IsResult, IsProj, IsY, IsOut, IsCopy]

theorem Loc.IsX.not_isBuffer (h : l.IsX) : ¬ l.IsBuffer buf := by
  cases l <;> simp_all [IsX, IsBuffer, IsProj, IsY]

theorem Loc.IsX.not_isResult (h : l.IsX) : ¬ l.IsResult := by
  cases l <;> simp_all [IsX, IsResult, IsOut, IsCopy]

theorem Loc.IsProj.not_isY (h : l.IsProj buf) : ¬ l.IsY b := by
  cases l <;> simp_all [IsProj, IsY]

theorem Loc.IsProj.not_isInterQ (h : l.IsProj buf) : ¬ l.IsInterQ := by
  cases l <;> simp_all [IsProj, IsInterQ]

theorem Loc.IsCopy.not_isOut (h : l.IsCopy) : ¬ l.IsOut := by
  cases l <;> simp_all [IsCopy, IsOut]

end Apart

/-- Loading projections. -/
theorem uses_proj (buf : ℕ) (k : ℕ → ℕ) (W : Loc → Prop) (total : ℕ) :
    Prog.Uses (Loc.IsProj buf) W (readAll (fun j => Loc.proj buf (k j)) total : Prog Loc Val _) :=
  Prog.Uses.readAll (l := fun j => Loc.proj buf (k j)) (fun _ => rfl) total

/-- Loading groups. -/
theorem uses_y (buf : ℕ) (i grp : ℕ → ℕ) (W : Loc → Prop) (total : ℕ) :
    Prog.Uses (Loc.IsY buf) W (readAll (fun k => Loc.y buf (i k) (grp k)) total : Prog Loc Val _) :=
  Prog.Uses.readAll (l := fun k => Loc.y buf (i k) (grp k)) (fun _ => rfl) total

variable {M : Machine} {J : Job}

section Phases

variable (m : ∀ l, Val l) (e : ℕ)

/-! ### The tokens and FC1 -/

theorem prepare_items : Items m (strided J.nTokens 1 0)
    (fun t => (write (.x t) (prepareX (J.aq t) (J.as t)) : Prog Loc Val Unit)) (fun _ => False)
    fun t l => l = .x t where
  nodup := nodup_strided Nat.one_pos
  ends _ := rfl
  uses t _ := Prog.Uses.write rfl
  apart := by
    rintro _ t - t' - rfl h
    exact Loc.x.inj h

/-- What is prepared of a token. -/
theorem prepare_stored {t : ℕ} (ht : t < J.nTokens) :
    storeAll ((prepareTokens J 1 0).writes m) m (.x t) = prepareX (J.aq t) (J.as t) := by
  have hmem : t ∈ strided J.nTokens 1 0 := (mem_strided Nat.one_pos).mpr ⟨ht, Nat.mod_one t⟩
  refine storeAll_of_single (((prepare_items m).storesTo_eq hmem rfl).trans ?_)
  simp [storesTo]

theorem fc1_items : Items m (rowsOf n13 1 0) (fc1Row M J e) Loc.IsX
    fun r l => r < n13 ∧ ∃ t, l = .proj (e % 2) (t * n13 + r) where
  nodup := nodup_rowsOf
  ends r := by
    rw [fc1Row, Prog.ending_bind, Prog.ending_readAll]
    exact Prog.ending_forEach fun _ _ => rfl
  uses r hr := (Prog.Uses.readAll (fun _ => trivial) _).bind fun X => Prog.Uses.forEach fun t _ =>
    Prog.Uses.write ⟨((mem_rowsOf Nat.one_pos).mp hr).1, t, rfl⟩
  apart := by
    rintro _ r - r' - ⟨hr, t, rfl⟩ ⟨hr', t', h⟩
    have hk := (Loc.proj.inj h).2
    dsimp only [n13] at hk hr hr'
    omega

/-- What FC1 leaves in a projection. -/
theorem fc1_stored {t r : ℕ} (ht : t < J.mPerExpert e) (hr : r < n13) :
    storeAll ((fc1Phase M J 1 0 e).writes m) m (.proj (e % 2) (t * n13 + r)) =
      bf16Rne (M.fmul J.vs1 (fc1Acc M.fadd (J.records e) r
        (fun i => if i < J.mPerExpert e then m (.x (J.tokenIdx (J.tokOff e + i))) else default)
        (J.mPerExpert e) t)) := by
  have hmem : r ∈ rowsOf n13 1 0 := by
    refine (mem_rowsOf Nat.one_pos).mpr ⟨hr, ?_⟩
    rw [Nat.div_one]
    exact Nat.div_eq_of_lt (by omega)
  refine storeAll_of_single (((fc1_items m e).storesTo_eq hmem ⟨hr, t, rfl⟩).trans ?_)
  rw [fc1Row, Prog.writes_bind, Prog.writes_readAll, Prog.ending_readAll]
  dsimp only
  rw [List.nil_append, Prog.writes_forEach fun _ _ => rfl, storesTo, List.filter_flatMap]
  -- the other tokens have other places
  rw [flatMap_eq_single List.nodup_range (List.mem_range.mpr ht)]
  · simp
  · intro t' _ hne
    simp [n13, hne]

/-! ### The activation -/

theorem act_items : Items m (strided (J.mPerExpert e * 18) 1 0) (actItem M J e)
    (Loc.IsProj (e % 2)) fun item l => l = .y (e % 2) (item / 18) (item % 18) ∨
      ∃ j < 32, l = .interQ ((J.tokOff e + item / 18) * 576 + (item % 18 * 32 + j)) where
  nodup := nodup_strided Nat.one_pos
  ends item := by
    rw [actItem, Prog.ending_bind, Prog.ending_readAll]
    dsimp only
    rw [Prog.ending_bind, Prog.ending_readAll]
    dsimp only
    rw [Prog.ending_bind, Prog.ending_forEach fun _ _ => rfl]
    rfl
  uses item _ := by
    refine Prog.Uses.bind (uses_proj _ _ _ _) fun gate => ?_
    refine Prog.Uses.bind (uses_proj _ _ _ _) fun up => ?_
    refine Prog.Uses.bind (Prog.Uses.forEach fun j hj => ?_) fun _ => ?_
    · refine Prog.Uses.write (.inr ⟨j, ?_, rfl⟩)
      split_ifs at hj
      · exact List.mem_range.mp hj
      · simp at hj
    · exact Prog.Uses.write (.inl rfl)
  apart := by
    rintro l x - y - (rfl | ⟨j, hj, rfl⟩) (h | ⟨j', hj', h⟩)
    · have h' := Loc.y.inj h
      omega
    · exact absurd h Loc.noConfusion
    · exact absurd h Loc.noConfusion
    · have h' := Loc.interQ.inj h
      omega

/-- The codes of a group, from the projections in memory. -/
def actCodes (M : Machine) (m : ∀ l, Val l) (e item : ℕ) : (ℕ → UInt8) × UInt8 :=
  actGroup M.fmul M.actM M.inv
    (fun j => if j < 32 then m (.proj (e % 2) (item / 18 * n13 + (item % 18 * 32 + j)))
      else default)
    fun j => if j < 32 then m (.proj (e % 2) (item / 18 * n13 + (interR + (item % 18 * 32 + j))))
      else default

/-- They are the reference's. -/
theorem actCodes_eq (item : ℕ) :
    let A := refAct M.fmul M.actM M.inv fun k => m (.proj (e % 2) (item / 18 * n13 + k))
    (actCodes M m e item).2 = A.2 (item % 18) ∧
      ∀ j < 32, (actCodes M m e item).1 j = A.1 (item % 18 * 32 + j) := by
  have hgroup := refAct_group M.fmul M.actM M.inv
    (fun k => m (.proj (e % 2) (item / 18 * n13 + k))) (Nat.mod_lt item (show 0 < 18 by decide))
  have hcongr : (actCodes M m e item).2 = _ ∧ ∀ j < 32, (actCodes M m e item).1 j = _ :=
    actGroup_congr M.fmul M.actM M.inv (fun j hj => if_pos hj) fun j hj => if_pos hj
  exact ⟨hcongr.1.trans hgroup.1.symm, fun j hj => (hcongr.2 j hj).trans (hgroup.2 j hj).symm⟩

/-- What is stored for a group. -/
theorem writes_actItem (item : ℕ) : (actItem M J e item).writes m =
    ((if J.hasInterQ then List.range 32 else []).map fun j =>
      ⟨.interQ ((J.tokOff e + item / 18) * 576 + (item % 18 * 32 + j)),
        (actCodes M m e item).1 j⟩) ++
      [⟨.y (e % 2) (item / 18) (item % 18),
        prepareGroup (actCodes M m e item).1 (actCodes M m e item).2⟩] := by
  rw [actItem, Prog.writes_bind, Prog.writes_readAll, Prog.ending_readAll]
  dsimp only
  rw [Prog.writes_bind, Prog.writes_readAll, Prog.ending_readAll]
  dsimp only
  rw [Prog.writes_bind, Prog.ending_forEach fun _ _ => rfl, Prog.writes_forEach fun _ _ => rfl,
    List.nil_append, List.nil_append, List.map_eq_flatMap]
  rfl

/-- What the activation leaves of a group: the operand of the reference's codes. -/
theorem act_stored {i grp : ℕ} (hi : i < J.mPerExpert e) (hgrp : grp < 18) :
    let A := refAct M.fmul M.actM M.inv fun k => m (.proj (e % 2) (i * n13 + k))
    ∃ c, storeAll ((actPhase M J 1 0 e).writes m) m (.y (e % 2) i grp) =
        prepareGroup c (A.2 grp) ∧ ∀ j < 32, c j = A.1 (grp * 32 + j) := by
  obtain ⟨item, rfl, rfl⟩ : ∃ item, item / 18 = i ∧ item % 18 = grp :=
    ⟨i * 18 + grp, by omega, by omega⟩
  have hmem : item ∈ strided (J.mPerExpert e * 18) 1 0 :=
    (mem_strided Nat.one_pos).mpr ⟨by omega, Nat.mod_one _⟩
  obtain ⟨hbyte, hcodes⟩ := actCodes_eq (M := M) m e item
  refine ⟨_, ?_, hcodes⟩
  rw [← hbyte]
  refine storeAll_of_single (((act_items m e).storesTo_eq hmem (.inl rfl)).trans ?_)
  rw [writes_actItem, storesTo_append, storesTo_eq_nil.mpr]
  · simp [storesTo]
  · intro x hx
    obtain ⟨j, -, rfl⟩ := List.mem_map.mp hx
    simp

/-- What it leaves of the codes, if they are asked for. -/
theorem interQ_stored (hq : J.hasInterQ = true) {i k : ℕ} (hi : i < J.mPerExpert e)
    (hk : k < 576) :
    storeAll ((actPhase M J 1 0 e).writes m) m (.interQ ((J.tokOff e + i) * 576 + k)) =
      (refAct M.fmul M.actM M.inv fun k => m (.proj (e % 2) (i * n13 + k))).1 k := by
  obtain ⟨item, j, hj, rfl, rfl⟩ : ∃ item, ∃ j < 32, item / 18 = i ∧ item % 18 * 32 + j = k :=
    ⟨i * 18 + k / 32, k % 32, by omega, by omega, by omega⟩
  have hmem : item ∈ strided (J.mPerExpert e * 18) 1 0 :=
    (mem_strided Nat.one_pos).mpr ⟨by omega, Nat.mod_one _⟩
  rw [← (actCodes_eq (M := M) m e item).2 j hj]
  refine storeAll_of_single (((act_items m e).storesTo_eq hmem (.inr ⟨j, hj, rfl⟩)).trans ?_)
  rw [writes_actItem, storesTo_append, if_pos hq, storesTo_eq_nil (S := [_]) |>.mpr (by simp),
    List.append_nil]
  let stored (j : ℕ) : Σ l, Val l :=
    ⟨.interQ ((J.tokOff e + item / 18) * 576 + (item % 18 * 32 + j)), (actCodes M m e item).1 j⟩
  refine storesTo_map (f := stored) List.nodup_range (List.mem_range.mpr hj) fun j' _ h => ?_
  have hplace := Loc.interQ.inj h
  omega

/-! ### The copies -/

/-- What worker 0 stores for the tests. -/
theorem writes_copyPhase : (copyPhase J e).writes m =
    ((if J.hasProjOut then List.range (J.mPerExpert e * n13) else []).map fun k =>
      ⟨.projOut (J.tokOff e * n13 + k), m (.proj (e % 2) k)⟩) ++
      (if J.hasInterS then List.range (J.mPerExpert e * 18) else []).map fun k =>
        ⟨.interS (J.tokOff e * 18 + k), (m (.y (e % 2) (k / 18) (k % 18))).sa⟩ := by
  rw [copyPhase, Prog.writes_bind, Prog.ending_forEach fun _ _ => rfl,
    Prog.writes_forEach fun _ _ => rfl]
  dsimp only
  rw [Prog.writes_forEach fun _ _ => rfl, List.map_eq_flatMap, List.map_eq_flatMap]
  rfl

/-- A projection for the tests. -/
theorem copy_stored_proj (hp : J.hasProjOut = true) {k : ℕ} (hk : k < J.mPerExpert e * n13) :
    storeAll ((copyPhase J e).writes m) m (.projOut (J.tokOff e * n13 + k)) =
      m (.proj (e % 2) k) := by
  have hother (ks : List ℕ) : storesTo (.projOut (J.tokOff e * n13 + k)) (ks.map fun k =>
      (⟨.interS (J.tokOff e * 18 + k), (m (.y (e % 2) (k / 18) (k % 18))).sa⟩ : Σ l, Val l)) = [] :=
    storesTo_map_eq_nil fun _ _ => Loc.noConfusion
  let stored (k : ℕ) : Σ l, Val l := ⟨.projOut (J.tokOff e * n13 + k), m (.proj (e % 2) k)⟩
  refine storeAll_of_single ?_
  rw [writes_copyPhase, storesTo_append, if_pos hp, hother, List.append_nil]
  refine storesTo_map (f := stored) List.nodup_range (List.mem_range.mpr hk) fun k' _ h => ?_
  have hplace := Loc.projOut.inj h
  omega

/-- A scale byte for the tests. -/
theorem copy_stored_scale (hs : J.hasInterS = true) {k : ℕ} (hk : k < J.mPerExpert e * 18) :
    storeAll ((copyPhase J e).writes m) m (.interS (J.tokOff e * 18 + k)) =
      (m (.y (e % 2) (k / 18) (k % 18))).sa := by
  have hother (ks : List ℕ) : storesTo (.interS (J.tokOff e * 18 + k)) (ks.map fun k =>
      (⟨.projOut (J.tokOff e * n13 + k), m (.proj (e % 2) k)⟩ : Σ l, Val l)) = [] :=
    storesTo_map_eq_nil fun _ _ => Loc.noConfusion
  let stored (k : ℕ) : Σ l, Val l :=
    ⟨.interS (J.tokOff e * 18 + k), (m (.y (e % 2) (k / 18) (k % 18))).sa⟩
  refine storeAll_of_single ?_
  rw [writes_copyPhase, storesTo_append, if_pos hs, hother, List.nil_append]
  refine storesTo_map (f := stored) List.nodup_range (List.mem_range.mpr hk) fun k' _ h => ?_
  have hplace := Loc.interS.inj h
  omega

/-! ### FC2 -/

/-- The operand of some codes. -/
def YGroup.Prepared (Y : YGroup) : Prop := ∃ c s, Y = prepareGroup c s

/-- The operands of tokens all of whose groups are. -/
theorem operands_prepared {Y : ℕ → YGroup} (hY : ∀ k, (Y k).Prepared) :
    ∃ q s : ℕ → ℕ → UInt8, operands Y = fun i => prepareY (q i) (s i) := by
  choose c s hcs using hY
  let c' (i grp : ℕ) : ℕ → UInt8 := if grp < 18 then c (i * 18 + grp) else fun _ => 0
  let s' (i grp : ℕ) : UInt8 := if grp < 18 then s (i * 18 + grp) else 0
  refine ⟨fun i k => c' i (k / 32) (k % 32), s', funext fun i => ?_⟩
  rw [← assemble_prepareGroup (c' i) (s' i), operands]
  refine congrArg assemble (funext fun grp => ?_)
  dsimp only [c', s']
  split_ifs
  · exact hcs _
  · rfl

/-- The operand of a token, from its codes. -/
theorem operands_eq {Y : ℕ → YGroup} {i : ℕ} {q s : ℕ → UInt8}
    (hY : ∀ grp < 18, ∃ c, Y (i * 18 + grp) = prepareGroup c (s grp) ∧
      ∀ j < 32, c j = q (grp * 32 + j))
    (hq : ∀ k, 576 ≤ k → q k = 0) (hs : ∀ grp, 18 ≤ grp → s grp = 0) :
    operands Y i = prepareY q s := by
  choose! c hc using hY
  let c' (grp : ℕ) : ℕ → UInt8 := if grp < 18 then c grp else fun _ => 0
  have hcodes : (fun k => c' (k / 32) (k % 32)) = q := by
    funext k
    dsimp only [c']
    split_ifs with hk
    · rw [(hc _ hk).2 _ (Nat.mod_lt k (by decide)), Nat.div_add_mod']
    · exact (hq k (by omega)).symm
  rw [← hcodes, ← assemble_prepareGroup, operands]
  refine congrArg assemble (funext fun grp => ?_)
  dsimp only [c']
  split_ifs with hgrp
  · exact (hc grp hgrp).1
  · rw [hs grp (by omega)]
    rfl

/-- The operands that FC2 of an expert reads. -/
def fc2Operands (J : Job) (m : ∀ l, Val l) (e : ℕ) : ℕ → YOperand :=
  operands fun k => if k < J.mPerExpert e * 18 then m (.y (e % 2) (k / 18) (k % 18)) else default

/-- What a worker stores of FC2. -/
theorem writes_fc2Phase (n tid : ℕ) : (fc2Phase M J n tid e).writes m =
    (fc2Writes M.fmul (J.records e) (splitRows n2 n tid).1 (splitRows n2 n tid).2
      (fc2Operands J m e) (J.mPerExpert e) (fun i => M.fmul J.vs2 (J.pairWeight (J.tokOff e + i)))
      fun i => J.outRow (J.tokOff e + i) * J.outStride).map fun w => ⟨.out w.1, w.2⟩ := by
  rw [fc2Phase, Prog.writes_bind, Prog.writes_readAll, Prog.ending_readAll]
  dsimp only
  rw [List.nil_append, Prog.writes_forEach fun _ _ => rfl]
  exact List.map_eq_flatMap.symm

/-- **What of FC2 goes to a place.** A place is a row of the output and a column; the column decides
which worker stores there, and what is stored does not depend on the worker. -/
theorem storesTo_fc2Phase (hstride : n2 ≤ J.outStride)
    (hY : ∀ i < J.mPerExpert e, ∀ grp < 18, (m (.y (e % 2) i grp)).Prepared) (n tid k : ℕ) :
    storesTo (.out k) ((fc2Phase M J n tid e).writes m) =
      if k % J.outStride ∈ rowsOf n2 n tid then
        (List.range (J.mPerExpert e)).flatMap fun i =>
          if J.outRow (J.tokOff e + i) = k / J.outStride then
            [⟨.out k, rowOut M.fmul (J.records e) (fc2Operands J m e i)
              (M.fmul J.vs2 (J.pairWeight (J.tokOff e + i))) (k % J.outStride)⟩]
          else []
      else [] := by
  obtain ⟨q, s, hqs⟩ := operands_prepared
    (Y := fun k => if k < J.mPerExpert e * 18 then m (.y (e % 2) (k / 18) (k % 18)) else default)
    fun k => by
      split_ifs with hk
      · exact hY _ (by omega) _ (by omega)
      · exact ⟨_, _, rfl⟩
  have hqs : fc2Operands J m e = fun i => prepareY (q i) (s i) := hqs
  have hat := fc2Writes_at M.fmul (J.records e) (splitRows n2 n tid).1 q s
    (J.mPerExpert e) (fun i => M.fmul J.vs2 (J.pairWeight (J.tokOff e + i)))
    (fun i => J.outRow (J.tokOff e + i)) (ρ := k / J.outStride) hstride (splitRows_le n2 n tid)
    (Nat.mod_lt k (by rw [n2] at hstride; omega))
  simp only [Nat.div_add_mod', ← mem_rowsOf_iff] at hat
  have hto : storesTo (.out k) ((fc2Phase M J n tid e).writes m) =
      ((fc2Writes M.fmul (J.records e) (splitRows n2 n tid).1 (splitRows n2 n tid).2
        (fun t => prepareY (q t) (s t)) (J.mPerExpert e)
        (fun i => M.fmul J.vs2 (J.pairWeight (J.tokOff e + i)))
        fun i => J.outRow (J.tokOff e + i) * J.outStride).filter (fun x => x.1 = k)).map
          fun w => ⟨.out w.1, w.2⟩ := by
    rw [writes_fc2Phase, hqs, storesTo, List.filter_map]
    refine congrArg _ (List.filter_congr fun w _ => ?_)
    simp
  rw [hto, hat, hqs]
  split_ifs
  · rw [List.map_flatMap]
    refine List.flatMap_congr fun i _ => ?_
    split_ifs <;> rfl
  · rfl

theorem ending_fc2Phase (n tid : ℕ) : (fc2Phase M J n tid e).ending m = .inl ⟨⟩ := by
  rw [fc2Phase, Prog.ending_bind, Prog.ending_readAll]
  exact Prog.ending_forEach fun _ _ => rfl

theorem uses_fc2Phase (n tid : ℕ) : (fc2Phase M J n tid e).Uses (Loc.IsY (e % 2)) Loc.IsOut :=
  (uses_y _ _ _ _ _).bind fun _ => Prog.Uses.forEach fun _ _ => Prog.Uses.write trivial

end Phases

end CpuMoe

end VllmMoet
