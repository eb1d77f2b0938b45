import Mathlib.Data.Int.Notation
import Mathlib.Data.List.Perm.Basic

/-!
# A submission and completion ring

The ring of an io_uring user with one submitting thread. A read is prepared, taken by a
submission, completed by the kernel with any result and reaped, in this order; each stage is
a list. `Uring.reads` are the reads that are not reaped yet, and only preparing and reaping
change them, up to order.
-/

namespace VllmMoet

universe u

/-- What `io_uring_enter` answers to a submission: how many entries it took, or an error. -/
inductive Answer
  | accepted (n : ℕ)
  | error
  deriving DecidableEq

/-- Reads prepared, reads submitted, and completions with their results. -/
structure Uring (ρ : Type u) where
  sq : List ρ
  flying : List ρ
  cq : List (ρ × ℤ)

namespace Uring

variable {ρ : Type u} {R R' : Uring ρ} {r : ρ}

/-- The reads that are not reaped. -/
def reads (R : Uring ρ) : List ρ := R.sq ++ R.flying ++ R.cq.map Prod.fst

/-- Queue one read. -/
def prepRead (R : Uring ρ) (r : ρ) : Uring ρ := { R with sq := R.sq ++ [r] }

/-- A submission of what is prepared. `none` is an answer the kernel does not give. -/
def submit (R : Uring ρ) : Answer → Option (Uring ρ)
  | .accepted n =>
    if n ≤ R.sq.length then
      some { R with
        sq := R.sq.drop n
        flying := R.flying ++ R.sq.take n }
    else none
  | .error => some R

/-- The kernel completes the `i`-th submitted read, with any result. -/
def complete (R : Uring ρ) (i : ℕ) (res : ℤ) : Option (Uring ρ) :=
  R.flying[i]?.map fun r => { R with
    flying := R.flying.eraseIdx i
    cq := R.cq ++ [(r, res)] }

theorem reads_prepRead (R : Uring ρ) (r : ρ) : (R.prepRead r).reads.Perm (r :: R.reads) := by
  simp only [reads, prepRead, List.append_assoc]
  exact List.perm_middle

theorem reads_submit {a : Answer} (h : R.submit a = some R') : R'.reads.Perm R.reads := by
  cases a with
  | accepted n =>
    simp only [submit] at h
    split at h
    · obtain rfl := Option.some.inj h
      simp only [reads]
      refine List.Perm.append_right _ ?_
      -- what was taken goes behind what is in flight
      rw [← List.append_assoc]
      refine List.perm_append_comm.trans ?_
      rw [← List.append_assoc, List.take_append_drop]
    · simp at h
  | error => exact Option.some.inj h ▸ List.Perm.refl _

theorem cq_submit {a : Answer} (h : R.submit a = some R') : R'.cq = R.cq := by
  cases a with
  | accepted n =>
    simp only [submit] at h
    split at h
    · exact Option.some.inj h ▸ rfl
    · simp at h
  | error => exact Option.some.inj h ▸ rfl

theorem reads_complete {i : ℕ} {res : ℤ} (h : R.complete i res = some R') :
    R'.reads.Perm R.reads := by
  obtain ⟨r, hr, rfl⟩ := Option.map_eq_some_iff.mp h
  obtain ⟨hi, hget⟩ := List.getElem?_eq_some_iff.mp hr
  have hperm : (r :: R.flying.eraseIdx i).Perm R.flying := by
    rw [← hget]
    exact List.getElem_cons_eraseIdx_perm hi
  simp only [reads, List.map_append, List.map_cons, List.map_nil, List.append_assoc]
  refine List.Perm.append_left _ ?_
  rw [← List.append_assoc]
  exact (List.perm_append_singleton _ _).trans (hperm.append_right _)

/-- Reaping takes one read out. -/
theorem reads_pop {res : ℤ} {cq : List (ρ × ℤ)} (h : R.cq = (r, res) :: cq) :
    R.reads.Perm (r :: { R with cq := cq }.reads) := by
  simp only [reads, h, List.map_cons]
  exact List.perm_middle

end Uring

end VllmMoet
