import Mathlib.Data.List.Basic
import Mathlib.Data.List.Nodup
import Mathlib.Logic.Function.Basic

/-!
# Intrusive doubly linked lists

A doubly linked list kept *inside* an indexed store: every node carries a `prev` and a
`next` field, and the two ends are kept outside. The store is shared, so several lists
can live in it as long as their nodes are disjoint.

`Links.Seg H p l a` says that the nodes `l`, in that order, are chained through both
fields, with `p` before the first and `a` after the last node; `Links.IsList H E l` says
that `l` is the whole list between the ends `E`. The two updates `unlink` and `pushTail`
are given as the pointer code writes them, and shown to be removal from and appending to
the abstract list; `scan` is a walk along `next`, and is shown to be `List.find?`.

The frame rule (`Links.IsList.congr`) is what lets several lists share one store: a list
only depends on the fields of its own nodes.
-/

namespace VllmMoet

universe u

variable {ι : Type u} [DecidableEq ι]

/-- The two link fields of every node of a store. -/
structure Links (ι : Type u) where
  prev : ι → Option ι
  next : ι → Option ι

/-- The two ends of one list. -/
structure Ends (ι : Type u) where
  head : Option ι
  tail : Option ι

namespace Links

/-- Set the `next` field of a node, if there is one. -/
def setNext (H : Links ι) (n : Option ι) (v : Option ι) : Links ι :=
  match n with
  | none => H
  | some x => { H with next := Function.update H.next x v }

/-- Set the `prev` field of a node, if there is one. -/
def setPrev (H : Links ι) (n : Option ι) (v : Option ι) : Links ι :=
  match n with
  | none => H
  | some x => { H with prev := Function.update H.prev x v }

@[simp] theorem setNext_prev (H : Links ι) (n v : Option ι) :
    (H.setNext n v).prev = H.prev := by cases n <;> rfl

@[simp] theorem setPrev_next (H : Links ι) (n v : Option ι) :
    (H.setPrev n v).next = H.next := by cases n <;> rfl

@[simp] theorem setNext_next (H : Links ι) (n v : Option ι) (x : ι) :
    (H.setNext n v).next x = if n = some x then v else H.next x := by
  cases n <;> simp [setNext, Function.update_apply, eq_comm]

@[simp] theorem setPrev_prev (H : Links ι) (n v : Option ι) (x : ι) :
    (H.setPrev n v).prev x = if n = some x then v else H.prev x := by
  cases n <;> simp [setPrev, Function.update_apply, eq_comm]

/-- The nodes `l` are chained in order, between `p` and `a`. -/
def Seg (H : Links ι) : Option ι → List ι → Option ι → Prop
  | _, [], _ => True
  | p, s :: l, a => H.prev s = p ∧ H.next s = l.head?.or a ∧ Seg H (some s) l a

/-- `l` is the whole list between the ends `E`. -/
structure IsList (H : Links ι) (E : Ends ι) (l : List ι) : Prop where
  seg : H.Seg none l none
  head : E.head = l.head?
  tail : E.tail = l.getLast?
  nodup : l.Nodup

/-! ### Segments -/

omit [DecidableEq ι] in
/-- A segment depends only on the fields of its own nodes. -/
theorem Seg.congr {H H' : Links ι} {p a : Option ι} {l : List ι} (h : H.Seg p l a)
    (hl : ∀ x ∈ l, H'.prev x = H.prev x ∧ H'.next x = H.next x) : H'.Seg p l a := by
  induction l generalizing p with
  | nil => trivial
  | cons s l ih =>
    obtain ⟨hp, hn, hseg⟩ := h
    obtain ⟨hp', hn'⟩ := hl s (by simp)
    exact ⟨hp'.trans hp, hn'.trans hn, ih hseg fun x hx => hl x (by simp [hx])⟩

omit [DecidableEq ι] in
/-- Concatenation of segments: each is the other's neighbour. -/
theorem seg_append {H : Links ι} {p a : Option ι} {l₁ l₂ : List ι} :
    H.Seg p (l₁ ++ l₂) a ↔ H.Seg p l₁ (l₂.head?.or a) ∧ H.Seg (l₁.getLast?.or p) l₂ a := by
  induction l₁ generalizing p with
  | nil => simp [Seg]
  | cons s l ih =>
    have hlast : ((s :: l).getLast?.or p) = (l.getLast?.or (some s)) := by
      cases l with
      | nil => rfl
      | cons t l => simp [List.getLast?_eq_some_getLast (List.cons_ne_nil t l)]
    have hhead : ((l ++ l₂).head?.or a) = l.head?.or (l₂.head?.or a) := by
      cases l <;> simp
    simp only [List.cons_append, Seg, ih, hlast, hhead, and_assoc]

omit [DecidableEq ι] in
/-- The fields of a node in the middle of a segment. -/
theorem Seg.fields {H : Links ι} {p a : Option ι} {l₁ l₂ : List ι} {s : ι}
    (h : H.Seg p (l₁ ++ s :: l₂) a) :
    H.prev s = l₁.getLast?.or p ∧ H.next s = l₂.head?.or a := by
  obtain ⟨-, hprev, hnext, -⟩ := seg_append.mp h
  exact ⟨hprev, hnext⟩

/-- Replacing the neighbour after a segment: only the last node's `next` changes. -/
theorem Seg.setNext_getLast {H : Links ι} {p a b : Option ι} {l : List ι}
    (h : H.Seg p l a) (hnd : l.Nodup) : (H.setNext l.getLast? b).Seg p l b := by
  rcases List.eq_nil_or_concat l with rfl | ⟨l', x, rfl⟩
  · trivial
  · simp only [List.concat_eq_append] at h hnd ⊢
    have hx : x ∉ l' := fun hm => (List.disjoint_of_nodup_append hnd) hm (by simp)
    obtain ⟨h₁, hp, -, -⟩ := seg_append.mp h
    rw [List.getLast?_concat]
    refine seg_append.mpr ⟨h₁.congr fun y hy => ⟨by simp, ?_⟩, by simpa using hp, by simp,
      trivial⟩
    have hne : x ≠ y := fun h => hx (h ▸ hy)
    simp [hne]

/-- Replacing the neighbour before a segment: only the first node's `prev` changes. -/
theorem Seg.setPrev_head {H : Links ι} {p q a : Option ι} {l : List ι}
    (h : H.Seg p l a) (hnd : l.Nodup) : (H.setPrev l.head? q).Seg q l a := by
  cases l with
  | nil => trivial
  | cons x l =>
    obtain ⟨-, hn, hseg⟩ := h
    have hx : x ∉ l := (List.nodup_cons.mp hnd).1
    refine ⟨by simp, by simpa using hn, hseg.congr fun y hy => ⟨?_, by simp⟩⟩
    have hne : x ≠ y := fun h => hx (h ▸ hy)
    simp [hne]

/-- Setting `next` of a node outside a segment leaves the segment. -/
theorem Seg.setNext_of_notMem {H : Links ι} {p a v n : Option ι} {l : List ι}
    (h : H.Seg p l a) (hn : ∀ x ∈ n, x ∉ l) : (H.setNext n v).Seg p l a := by
  refine h.congr fun y hy => ⟨by simp, ?_⟩
  have hne : n ≠ some y := fun h => hn y h hy
  simp [hne]

/-- Setting `prev` of a node outside a segment leaves the segment. -/
theorem Seg.setPrev_of_notMem {H : Links ι} {p a v n : Option ι} {l : List ι}
    (h : H.Seg p l a) (hn : ∀ x ∈ n, x ∉ l) : (H.setPrev n v).Seg p l a := by
  refine h.congr fun y hy => ⟨?_, by simp⟩
  have hne : n ≠ some y := fun h => hn y h hy
  simp [hne]

/-! ### Removing a node -/

/-- Take node `s` out of the list, as pointer code does it: the neighbours (or the ends)
are joined and the node's own fields are cleared. -/
def unlink (H : Links ι) (s : ι) : Links ι :=
  (((H.setNext (H.prev s) (H.next s)).setPrev (H.next s) (H.prev s)).setNext (some s)
    none).setPrev (some s) none

/-- The ends after `unlink`. -/
def unlinkEnds (H : Links ι) (E : Ends ι) (s : ι) : Ends ι where
  head := if (H.prev s).isSome then E.head else H.next s
  tail := if (H.next s).isSome then E.tail else H.prev s

/-- `unlink` removes the node from the list. -/
theorem IsList.unlink {H : Links ι} {E : Ends ι} {l₁ l₂ : List ι} {s : ι}
    (h : H.IsList E (l₁ ++ s :: l₂)) :
    (H.unlink s).IsList (H.unlinkEnds E s) (l₁ ++ l₂) := by
  obtain ⟨hseg, hhead, htail, hnd⟩ := h
  obtain ⟨hprev, hnext⟩ := hseg.fields
  simp only [Option.or_none] at hprev hnext
  obtain ⟨h₁, -, -, h₂⟩ := seg_append.mp hseg
  have hnd' : (l₁ ++ l₂).Nodup := hnd.sublist (by simp)
  have hs₁ : s ∉ l₁ := fun hm => (List.disjoint_of_nodup_append hnd) hm (by simp)
  have hs₂ : s ∉ l₂ := (List.nodup_cons.mp (List.Nodup.of_append_right hnd)).1
  have hd : List.Disjoint l₁ l₂ := List.disjoint_of_nodup_append hnd'
  -- each half keeps its own fields, except at the joint
  have g₁ : (H.unlink s).Seg none l₁ l₂.head? := by
    rw [Links.unlink, hprev, hnext]
    refine Seg.setPrev_of_notMem (Seg.setNext_of_notMem (Seg.setPrev_of_notMem
      (h₁.setNext_getLast (List.Nodup.of_append_left hnd')) ?_) ?_) ?_
    · exact fun x hx hm => hd hm (List.mem_of_mem_head? hx)
    · rintro x ⟨⟩; exact hs₁
    · rintro x ⟨⟩; exact hs₁
  have g₂ : (H.unlink s).Seg l₁.getLast? l₂ none := by
    rw [Links.unlink, hprev, hnext]
    refine Seg.setPrev_of_notMem (Seg.setNext_of_notMem (Seg.setPrev_head
      (Seg.setNext_of_notMem h₂ ?_) (List.Nodup.of_append_right hnd')) ?_) ?_
    · exact fun x hx hm => hd (List.mem_of_mem_getLast? hx) hm
    · rintro x ⟨⟩; exact hs₂
    · rintro x ⟨⟩; exact hs₂
  refine ⟨seg_append.mpr ⟨by simpa using g₁, by simpa using g₂⟩, ?_, ?_, hnd'⟩
  · rw [unlinkEnds, hprev, hnext]
    cases l₁ with
    | nil => simp
    | cons x l => simp [hhead]
  · rw [unlinkEnds, hprev, hnext]
    cases l₂ with
    | nil => simp
    | cons x l => simp [htail, List.getLast?_append, List.getLast?_cons_cons]

/-! ### Appending a node -/

/-- Append node `s` at the tail end `t`, as pointer code does it. -/
def pushTail (H : Links ι) (t : Option ι) (s : ι) : Links ι :=
  ((H.setPrev (some s) t).setNext (some s) none).setNext t (some s)

/-- The ends after `pushTail`. -/
def pushTailEnds (E : Ends ι) (s : ι) : Ends ι where
  head := if E.tail.isSome then E.head else some s
  tail := some s

/-- `pushTail` appends the node to the list. -/
theorem IsList.pushTail {H : Links ι} {E : Ends ι} {l : List ι} {s : ι}
    (h : H.IsList E l) (hs : s ∉ l) :
    (H.pushTail E.tail s).IsList (pushTailEnds E s) (l ++ [s]) := by
  obtain ⟨hseg, hhead, htail, hnd⟩ := h
  refine ⟨seg_append.mpr ⟨?_, ?_, ?_, trivial⟩, ?_, by simp [pushTailEnds], ?_⟩
  · rw [Links.pushTail, htail]
    refine Seg.setNext_getLast (Seg.setNext_of_notMem (Seg.setPrev_of_notMem hseg ?_) ?_) hnd
    · rintro x ⟨⟩; exact hs
    · rintro x ⟨⟩; exact hs
  · rw [htail]
    simp [Links.pushTail]
  · have hne : l.getLast? ≠ some s := fun h => hs (List.mem_of_mem_getLast? h)
    simp [Links.pushTail, htail, hne]
  · rcases List.eq_nil_or_concat l with rfl | ⟨l', x, rfl⟩
    · simp [pushTailEnds, htail]
    · simp only [pushTailEnds, htail, hhead]
      cases l' <;> simp
  · rw [← List.concat_eq_append]
    exact List.Nodup.concat hs hnd

/-! ### Frame -/

omit [DecidableEq ι] in
/-- A list depends only on the fields of its own nodes. -/
theorem IsList.congr {H H' : Links ι} {E : Ends ι} {l : List ι} (h : H.IsList E l)
    (hl : ∀ x ∈ l, H'.prev x = H.prev x ∧ H'.next x = H.next x) : H'.IsList E l :=
  ⟨h.seg.congr hl, h.head, h.tail, h.nodup⟩

/-- `unlink` changes only the fields of the node and its two neighbours. -/
theorem unlink_frame {H : Links ι} {s x : ι} (hx : x ≠ s) (hp : H.prev s ≠ some x)
    (hn : H.next s ≠ some x) :
    (H.unlink s).prev x = H.prev x ∧ (H.unlink s).next x = H.next x := by
  simp [unlink, hx.symm, hp, hn]

/-- `pushTail` changes only the fields of the node and of the old tail. -/
theorem pushTail_frame {H : Links ι} {t : Option ι} {s x : ι} (hx : x ≠ s)
    (ht : t ≠ some x) :
    (H.pushTail t s).prev x = H.prev x ∧ (H.pushTail t s).next x = H.next x := by
  simp [pushTail, hx.symm, ht]

/-- Removing a node of one list leaves a disjoint list alone. -/
theorem IsList.unlink_disjoint {H : Links ι} {E E' : Ends ι} {l₁ l₂ l' : List ι} {s : ι}
    (h' : H.IsList E' l') (h : H.IsList E (l₁ ++ s :: l₂))
    (hd : List.Disjoint l' (l₁ ++ s :: l₂)) : (H.unlink s).IsList E' l' := by
  obtain ⟨hprev, hnext⟩ := h.seg.fields
  simp only [Option.or_none] at hprev hnext
  refine h'.congr fun x hx => unlink_frame ?_ ?_ ?_
  · rintro rfl; exact hd hx (by simp)
  · intro h; exact hd hx (by simp [List.mem_of_mem_getLast? (hprev ▸ h)])
  · intro h; exact hd hx (by simp [List.mem_of_mem_head? (hnext ▸ h)])

/-- Appending a node to one list leaves a disjoint list alone. -/
theorem IsList.pushTail_disjoint {H : Links ι} {E E' : Ends ι} {l l' : List ι} {s : ι}
    (h' : H.IsList E' l') (h : H.IsList E l) (hs : s ∉ l') (hd : List.Disjoint l' l) :
    (H.pushTail E.tail s).IsList E' l' := by
  refine h'.congr fun x hx => pushTail_frame ?_ ?_
  · rintro rfl; exact hs hx
  · intro ht; exact hd hx (List.mem_of_mem_getLast? (h.tail ▸ ht))

/-! ### Walking along `next` -/

/-- The first node from `cur` along `next` that meets `p`; `fuel` bounds the walk. -/
def scan (H : Links ι) (p : ι → Bool) : ℕ → Option ι → Option ι
  | 0, _ => none
  | _ + 1, none => none
  | fuel + 1, some v => if p v then some v else scan H p fuel (H.next v)

omit [DecidableEq ι] in
/-- Over a segment the walk is `List.find?`. -/
theorem Seg.scan_eq_find {H : Links ι} {q : Option ι} {l : List ι} (p : ι → Bool)
    (h : H.Seg q l none) {fuel : ℕ} (hf : l.length < fuel) :
    H.scan p fuel l.head? = l.find? p := by
  induction l generalizing q fuel with
  | nil => cases fuel <;> rfl
  | cons s l ih =>
    obtain ⟨fuel, rfl⟩ := Nat.exists_eq_add_of_lt hf
    obtain ⟨-, hnext, hseg⟩ := h
    rw [Option.or_none] at hnext
    simp only [List.length_cons, List.head?_cons, scan, List.find?_cons]
    cases hp : p s with
    | true => simp
    | false =>
      simp only [Bool.false_eq_true, ↓reduceIte, hnext]
      exact ih hseg (by omega)

omit [DecidableEq ι] in
/-- Over a whole list the walk from its head is `List.find?`. -/
theorem IsList.scan_eq_find {H : Links ι} {E : Ends ι} {l : List ι} (p : ι → Bool)
    (h : H.IsList E l) {fuel : ℕ} (hf : l.length < fuel) :
    H.scan p fuel E.head = l.find? p := by
  rw [h.head]
  exact h.seg.scan_eq_find p hf

end Links

end VllmMoet
