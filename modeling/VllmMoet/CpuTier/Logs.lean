import Mathlib.Data.Int.Notation
import Mathlib.Data.List.Pairwise
import Mathlib.Logic.Function.Basic
import Mathlib.Tactic.Common
import VllmMoet.Lib.Transition

/-!
# The miss log and the use log

`serve` of `cpu_tier.cpp` logs to two rings, which `cpu_tier_misses` and `cpu_tier_uses` drain
from another thread: a drain reads the count, moves its cursor past the entries older than the
ring, and copies word by word.

* `Cfg`: a ring; `missLog` counts an entry before it writes it, `useLog` after;
* `State`, `step`: the writes of `serve` and the copies of a drain, a word at a time;
* `WriterOk`, `ReaderOk`: what the slots hold, and where the cursor is, in every run;
* `logs_drained`: as long as the slot that is copied is left alone, the drains return the logged
  entries, whole and in order, but for those more than a ring's length old.

Nothing keeps `serve` off a slot that is copied, and a miss can be drained before it is written
(`unwritten_miss`).
-/

namespace VllmMoet

namespace TierLog

/-- A log: the entries of its ring, the words a drain copies of an entry, and whether an entry is
counted before its words are written. -/
structure Cfg where
  ring : ℕ
  words : ℕ
  countFirst : Bool
  ringPos : 0 < ring
  wordsPos : 0 < words

/-- `CPU_TIER_MAX_PAIRS`. -/
def maxPairs : ℕ := 96

/-- `misses`: a `Miss` has the words `step`, `layer`, `expert` and `m`. -/
def missLog : Cfg := ⟨65536, 4, true, Nat.zero_lt_succ _, Nat.zero_lt_succ _⟩

/-- `uses`: a `Use` has the words `step`, `layer` and `n`, and the ids. -/
def useLog : Cfg := ⟨16384, 3 + maxPairs, false, Nat.zero_lt_succ _, Nat.zero_lt_succ _⟩

/-- The words `serve` writes of an entry. -/
structure Entry (C : Cfg) where
  words : List ℤ
  le : words.length ≤ C.words

/-- An entry of the miss log. -/
def missEntry (step layer expert m : ℤ) : Entry missLog :=
  ⟨[step, layer, expert, m], Nat.le_refl _⟩

/-- An entry of the use log: of the ids, as many as the request has, or as fit. -/
def useEntry (step layer : ℤ) (nAll : ℕ) (ids : List ℤ) : Entry useLog :=
  ⟨step :: layer :: (min nAll maxPairs : ℕ) :: ids.take (min nAll maxPairs), by
    simp only [useLog, List.length_cons, List.length_take]
    omega⟩

variable {C : Cfg}

/-- The entry `serve` is writing, and the next word. -/
structure Writing (C : Cfg) where
  index : ℕ
  entry : Entry C
  word : ℕ

/-- A drain under way: it copies the words of entry `start + i` of `take`. -/
structure Reading where
  start : ℕ
  take : ℕ
  i : ℕ
  row : List ℤ
  out : List (ℕ × List ℤ)

/-- The state. `logged`, the entries so far, and the indices in `drained`, what the drains have
returned, are not kept by the source. -/
structure State (C : Cfg) where
  slots : ℕ → ℕ → ℤ
  count : ℕ
  writer : Option (Writing C)
  cursor : ℕ
  reader : Option Reading
  logged : List (Entry C)
  drained : List (ℕ × List ℤ)

/-- `serve` logs an entry or writes on; a drain is called for at most `cap` entries or copies
on. -/
inductive Act (C : Cfg)
  | log (e : Entry C)
  | write
  | drain (cap : ℕ)
  | copy

/-- One step. -/
def step (s : State C) : Act C → Option (State C)
  | .log e =>
    if s.writer.isNone then
      some { s with
        count := if C.countFirst then s.count + 1 else s.count
        writer := some ⟨s.count, e, 0⟩
        logged := s.logged ++ [e] }
    else none
  | .write => s.writer.map fun w =>
    match w.entry.words[w.word]? with
    | some v => { s with
        slots := Function.update s.slots (w.index % C.ring)
          (Function.update (s.slots (w.index % C.ring)) w.word v)
        writer := some { w with word := w.word + 1 } }
    | none => { s with
        count := if C.countFirst then s.count else w.index + 1
        writer := none }
  | .drain cap =>
    if s.reader.isNone then
      let start := if C.ring < s.count - s.cursor then s.count - C.ring else s.cursor
      let take := min (s.count - start) cap
      some (if take = 0 then { s with cursor := start }
        else { s with reader := some ⟨start, take, 0, [], []⟩ })
    else none
  | .copy => s.reader.map fun r =>
    let row := r.row ++ [s.slots ((r.start + r.i) % C.ring) r.row.length]
    if row.length < C.words then { s with reader := some { r with row := row } }
    else if r.i + 1 < r.take then
      { s with reader := some { r with
          i := r.i + 1
          row := []
          out := r.out ++ [(r.start + r.i, row)] } }
    else { s with
      reader := none
      cursor := r.start + r.take
      drained := s.drained ++ (r.out ++ [(r.start + r.i, row)]) }

/-- Nothing is logged. -/
def start (C : Cfg) : State C :=
  ⟨fun _ _ => 0, 0, none, 0, none, [], []⟩

/-- Every interleaving of `serve` and the drains. -/
def logSystem (C : Cfg) : TransitionSystem (State C) (Act C) :=
  .ofStep (fun s => s = start C) step

/-- The condition on a step: while an entry is copied, `serve` has not begun the entry a ring's
length later, and if entries are counted before they are written, it has finished this one. -/
def Undisturbed (s : State C) : Act C → Prop
  | .copy => ∀ r, s.reader = some r →
      s.logged.length ≤ r.start + r.i + C.ring ∧
      (C.countFirst = true → ∀ w, s.writer = some w → w.index = r.start + r.i →
        w.word = w.entry.words.length)
  | _ => True

/-- What the drains have returned: entries in the order they were logged, none twice, each whole,
and of those before the cursor all but the ones more than a ring's length old. -/
structure Drained (s : State C) : Prop where
  ordered : (s.drained.map Prod.fst).Pairwise (· < ·)
  whole : ∀ p ∈ s.drained, ∃ e, s.logged[p.1]? = some e ∧ e.words <+: p.2
  lost : ∀ k < s.cursor, k ∈ s.drained.map Prod.fst ∨ k + C.ring < s.count

/-! ### What the slots hold -/

/-- The entries are counted as they are logged or when they are written, and the slots hold the
last ones. -/
structure WriterOk (s : State C) : Prop where
  idle : s.writer = none → s.count = s.logged.length
  busy : ∀ w, s.writer = some w → w.index + 1 = s.logged.length ∧
    s.logged[w.index]? = some w.entry ∧ w.word ≤ w.entry.words.length ∧
    s.count = if C.countFirst then w.index + 1 else w.index
  held : ∀ k e, s.logged[k]? = some e → s.logged.length ≤ k + C.ring →
    ∀ j, j < e.words.length → (∀ w, s.writer = some w → w.index = k → j < w.word) →
      e.words[j]? = some (s.slots (k % C.ring) j)

variable {s s' : State C}

theorem WriterOk.log (h : WriterOk s) (hw : s.writer = none) (e : Entry C) :
    WriterOk { s with
      count := if C.countFirst then s.count + 1 else s.count
      writer := some ⟨s.count, e, 0⟩
      logged := s.logged ++ [e] } := by
  have hcount := h.idle hw
  refine ⟨fun hnone => absurd hnone (by simp), ?_, ?_⟩
  · rintro w hsome
    cases hsome
    refine ⟨?_, ?_, Nat.zero_le _, rfl⟩
    · simp [hcount]
    · simp [hcount]
  · intro k f hk hlen j hj hnot
    by_cases hlast : k = s.count
    · -- nothing of the new entry is written
      exact absurd (hnot _ rfl hlast.symm) (Nat.not_lt_zero _)
    · have hlt : k < s.logged.length := by
        have := (List.getElem?_eq_some_iff.mp hk).1
        simp only [List.length_append, List.length_singleton] at this
        omega
      rw [List.getElem?_append_left hlt] at hk
      rw [List.length_append, List.length_singleton] at hlen
      refine h.held k f hk (by omega) j hj fun w hsome => ?_
      rw [hw] at hsome
      cases hsome

/-- A word is written. -/
theorem WriterOk.word (h : WriterOk s) {w : Writing C} (hw : s.writer = some w) {v : ℤ}
    (hv : w.entry.words[w.word]? = some v) :
    WriterOk { s with
      slots := Function.update s.slots (w.index % C.ring)
        (Function.update (s.slots (w.index % C.ring)) w.word v)
      writer := some { w with word := w.word + 1 } } := by
  obtain ⟨hindex, hentry, hword, hcount⟩ := h.busy w hw
  have hlt := (List.getElem?_eq_some_iff.mp hv).1
  refine ⟨fun hnone => absurd hnone (by simp), ?_, ?_⟩
  · rintro w' hsome
    cases hsome
    exact ⟨hindex, hentry, hlt, hcount⟩
  · intro k f hk hlen j hj hnot
    dsimp only at hk hlen hnot ⊢
    have hkl := (List.getElem?_eq_some_iff.mp hk).1
    by_cases hlast : k = w.index
    · rw [hlast, hentry] at hk
      cases hk
      have hjw : j < w.word + 1 := hnot _ rfl hlast.symm
      rw [hlast, Function.update_self, Function.update_apply]
      split_ifs with hjeq
      · rw [hjeq, hv]
      · refine h.held w.index w.entry hentry (by omega) j hj fun w' hw' _ => ?_
        rw [hw] at hw'
        cases hw'
        omega
    · -- the slot of an entry less than a ring's length older is another one
      have hslot : k % C.ring ≠ w.index % C.ring := by
        intro hmod
        have hzero := Nat.sub_mod_eq_zero_of_mod_eq hmod.symm
        rw [Nat.mod_eq_of_lt (by omega)] at hzero
        omega
      rw [Function.update_of_ne hslot]
      refine h.held k f hk hlen j hj fun w' hw' hk' => ?_
      rw [hw] at hw'
      cases hw'
      exact absurd hk'.symm hlast

/-- The entry is written. -/
theorem WriterOk.done (h : WriterOk s) {w : Writing C} (hw : s.writer = some w)
    (hv : w.entry.words[w.word]? = none) :
    WriterOk { s with
      count := if C.countFirst then s.count else w.index + 1
      writer := none } := by
  obtain ⟨hindex, hentry, hword, hcount⟩ := h.busy w hw
  refine ⟨fun _ => ?_, fun w' hw' => absurd hw' (by simp), fun k f hk hlen j hj _ => ?_⟩
  · dsimp only
    split_ifs at hcount ⊢ with hfirst
    · rw [hcount, hindex]
    · exact hindex
  · refine h.held k f hk hlen j hj fun w' hw' hk' => ?_
    rw [hw] at hw'
    cases hw'
    rw [← hk', hentry] at hk
    cases hk
    exact Nat.lt_of_lt_of_le hj (List.getElem?_eq_none_iff.mp hv)

/-- A drain changes nothing of the log. -/
theorem WriterOk.same (h : WriterOk s) (hslots : s'.slots = s.slots) (hcount : s'.count = s.count)
    (hwriter : s'.writer = s.writer) (hlogged : s'.logged = s.logged) : WriterOk s' := by
  refine ⟨fun hnone => ?_, fun w hw => ?_, fun k e hk hlen j hj hnot => ?_⟩
  · rw [hcount, hlogged]
    exact h.idle (hwriter ▸ hnone)
  · rw [hcount, hlogged]
    exact h.busy w (hwriter ▸ hw)
  · rw [hlogged] at hk hlen
    rw [hwriter] at hnot
    rw [hslots]
    exact h.held k e hk hlen j hj hnot

/-- What is counted is logged. -/
theorem WriterOk.count_le (h : WriterOk s) : s.count ≤ s.logged.length := by
  rcases hw : s.writer with _ | w
  · exact Nat.le_of_eq (h.idle hw)
  · obtain ⟨hindex, -, -, hcount⟩ := h.busy w hw
    split_ifs at hcount <;> omega

/-! ### Where the cursor is -/

/-- A drain copies the entries from its start on, and has passed only ones that are too old. -/
structure ReadingOk (C : Cfg) (s : State C) (r : Reading) : Prop where
  lt : r.i < r.take
  le : r.start + r.take ≤ s.count
  cursor : s.cursor ≤ r.start
  old : ∀ k, s.cursor ≤ k → k < r.start → k + C.ring < s.count
  row : r.row.length < C.words
  out : r.out.map Prod.fst = List.range' r.start r.i

/-- The entries before the cursor were returned in order, or were too old. -/
structure ReaderOk (s : State C) : Prop where
  le : s.cursor ≤ s.count
  ordered : (s.drained.map Prod.fst).Pairwise (· < ·)
  below : ∀ k ∈ s.drained.map Prod.fst, k < s.cursor
  lost : ∀ k < s.cursor, k ∈ s.drained.map Prod.fst ∨ k + C.ring < s.count
  reading : ∀ r, s.reader = some r → ReadingOk C s r

/-- Counting further entries leaves the cursor where it is. -/
theorem ReaderOk.same (h : ReaderOk s) (hcount : s.count ≤ s'.count)
    (hcursor : s'.cursor = s.cursor) (hreader : s'.reader = s.reader)
    (hdrained : s'.drained = s.drained) : ReaderOk s' := by
  obtain ⟨hle, hordered, hbelow, hlost, hreading⟩ := h
  rw [← hdrained] at hordered hbelow hlost
  rw [← hcursor] at hle hbelow hlost
  refine ⟨Nat.le_trans hle hcount, hordered, hbelow, fun k hk => ?_, fun r hr => ?_⟩
  · exact (hlost k hk).imp_right fun hold => Nat.lt_of_lt_of_le hold hcount
  · obtain ⟨hlt, hle', hcur, hold, hrow, hout⟩ := hreading r (hreader ▸ hr)
    rw [← hcursor] at hcur hold
    exact ⟨hlt, Nat.le_trans hle' hcount, hcur,
      fun k hk hlt => Nat.lt_of_lt_of_le (hold k hk hlt) hcount, hrow, hout⟩

/-- A drain that takes nothing, or begins. -/
theorem ReaderOk.drain (h : ReaderOk s) (hnone : s.reader = none) (cap : ℕ) {start take : ℕ}
    (hstart : start = if C.ring < s.count - s.cursor then s.count - C.ring else s.cursor)
    (htake : take = min (s.count - start) cap) :
    ReaderOk (if take = 0 then { s with cursor := start }
      else { s with reader := some ⟨start, take, 0, [], []⟩ }) := by
  obtain ⟨hle, hordered, hbelow, hlost, -⟩ := h
  have hcursor : s.cursor ≤ start := by
    split_ifs at hstart <;> omega
  have hstartle : start ≤ s.count := by
    split_ifs at hstart <;> omega
  have hold : ∀ k, s.cursor ≤ k → k < start → k + C.ring < s.count := by
    intro k hk hlt
    split_ifs at hstart <;> omega
  split_ifs with hzero
  · refine ⟨hstartle, hordered, fun k hk => Nat.lt_of_lt_of_le (hbelow k hk) hcursor,
      fun k hk => ?_, fun r hr => ?_⟩
    · by_cases hlt : k < s.cursor
      · exact hlost k hlt
      · exact .inr (hold k (by omega) hk)
    · rw [hnone] at hr
      cases hr
  · refine ⟨hle, hordered, hbelow, hlost, fun r hr => ?_⟩
    cases hr
    refine ⟨?_, ?_, hcursor, hold, C.wordsPos, rfl⟩
    · dsimp only
      omega
    · dsimp only
      omega

/-- A drain copies a word. -/
theorem ReaderOk.copy (h : ReaderOk s) {r : Reading} (hr : s.reader = some r) {v : ℤ}
    (hlen : (r.row ++ [v]).length < C.words) :
    ReaderOk { s with reader := some { r with row := r.row ++ [v] } } := by
  obtain ⟨hle, hordered, hbelow, hlost, hreading⟩ := h
  obtain ⟨hlt, hle', hcursor, hold, -, hout⟩ := hreading r hr
  refine ⟨hle, hordered, hbelow, hlost, fun r' hr' => ?_⟩
  cases hr'
  exact ⟨hlt, hle', hcursor, hold, hlen, hout⟩

theorem map_fst_range' {out : List (ℕ × List ℤ)} {start i : ℕ} (row : List ℤ)
    (hout : out.map Prod.fst = List.range' start i) :
    (out ++ [(start + i, row)]).map Prod.fst = List.range' start (i + 1) := by
  rw [List.map_append, hout, List.range'_1_concat]
  rfl

/-- A drain goes on to its next entry. -/
theorem ReaderOk.next (h : ReaderOk s) {r : Reading} (hr : s.reader = some r) {row : List ℤ}
    (hnext : r.i + 1 < r.take) :
    ReaderOk { s with reader := some { r with
      i := r.i + 1
      row := []
      out := r.out ++ [(r.start + r.i, row)] } } := by
  obtain ⟨hle, hordered, hbelow, hlost, hreading⟩ := h
  obtain ⟨-, hle', hcursor, hold, -, hout⟩ := hreading r hr
  refine ⟨hle, hordered, hbelow, hlost, fun r' hr' => ?_⟩
  cases hr'
  exact ⟨hnext, hle', hcursor, hold, C.wordsPos, map_fst_range' row hout⟩

/-- A drain returns. -/
theorem ReaderOk.done (h : ReaderOk s) {r : Reading} (hr : s.reader = some r) {row : List ℤ}
    (hlast : ¬r.i + 1 < r.take) :
    ReaderOk { s with
      reader := none
      cursor := r.start + r.take
      drained := s.drained ++ (r.out ++ [(r.start + r.i, row)]) } := by
  obtain ⟨-, hordered, hbelow, hlost, hreading⟩ := h
  obtain ⟨hlt, hle', hcursor, hold, -, hout⟩ := hreading r hr
  have htake : r.i + 1 = r.take := by omega
  have hrange : (s.drained ++ (r.out ++ [(r.start + r.i, row)])).map Prod.fst =
      s.drained.map Prod.fst ++ List.range' r.start r.take := by
    rw [List.map_append, map_fst_range' row hout, htake]
  refine ⟨hle', ?_, fun k hk => ?_, fun k hk => ?_, fun r' hr' => by cases hr'⟩
  · dsimp only
    rw [hrange, List.pairwise_append]
    refine ⟨hordered, List.pairwise_lt_range', fun a ha b hb => ?_⟩
    have ha' := hbelow a ha
    have hb' := (List.mem_range'_1.mp hb).1
    omega
  · dsimp only at hk ⊢
    rw [hrange, List.mem_append] at hk
    rcases hk with hk | hk
    · have := hbelow k hk
      omega
    · exact (List.mem_range'_1.mp hk).2
  · dsimp only at hk ⊢
    rw [hrange, List.mem_append]
    by_cases hk₀ : k < s.cursor
    · exact (hlost k hk₀).imp_left .inl
    · by_cases hk₁ : k < r.start
      · exact .inr (hold k (by omega) hk₁)
      · exact .inl (.inr (List.mem_range'_1.mpr ⟨by omega, hk⟩))

/-! ### What the drains copy -/

/-- The row begins with the words of the entry at its index. -/
def Whole (s : State C) (p : ℕ × List ℤ) : Prop :=
  ∃ e, s.logged[p.1]? = some e ∧ e.words <+: p.2

/-- The rows are whole, and so is what was copied of the next one. -/
structure RowsOk (s : State C) : Prop where
  drained : ∀ p ∈ s.drained, Whole s p
  out : ∀ r, s.reader = some r → ∀ p ∈ r.out, Whole s p
  row : ∀ r, s.reader = some r → ∃ e, s.logged[r.start + r.i]? = some e ∧
    ∀ j < r.row.length, j < e.words.length → r.row[j]? = e.words[j]?

theorem Whole.mono {p : ℕ × List ℤ} (h : Whole s p) {es : List (Entry C)}
    (hlogged : s'.logged = s.logged ++ es) : Whole s' p := by
  obtain ⟨e, he, hprefix⟩ := h
  refine ⟨e, ?_, hprefix⟩
  rw [hlogged, List.getElem?_append_left (List.getElem?_eq_some_iff.mp he).1]
  exact he

/-- Logging further entries leaves the rows as they are. -/
theorem RowsOk.mono (h : RowsOk s) (es : List (Entry C)) (hlogged : s'.logged = s.logged ++ es)
    (hreader : s'.reader = s.reader) (hdrained : s'.drained = s.drained) : RowsOk s' := by
  refine ⟨fun p hp => (h.drained p (hdrained ▸ hp)).mono hlogged,
    fun r hr p hp => (h.out r (hreader ▸ hr) p hp).mono hlogged, fun r hr => ?_⟩
  obtain ⟨e, he, hrow⟩ := h.row r (hreader ▸ hr)
  refine ⟨e, ?_, hrow⟩
  rw [hlogged, List.getElem?_append_left (List.getElem?_eq_some_iff.mp he).1]
  exact he

/-- The word that is copied is the entry's. -/
theorem copied_word (hw : WriterOk s) (hr : ReaderOk s) (hcalm : Undisturbed s .copy) {r : Reading}
    (hreader : s.reader = some r) {e : Entry C} (he : s.logged[r.start + r.i]? = some e) {j : ℕ}
    (hj : j < e.words.length) :
    e.words[j]? = some (s.slots ((r.start + r.i) % C.ring) j) := by
  obtain ⟨hlen, hfirst⟩ := hcalm r hreader
  obtain ⟨hlt, hle, -⟩ := hr.reading r hreader
  refine hw.held _ e he hlen j hj fun w hwriter hindex => ?_
  obtain ⟨-, hentry, -, hcount⟩ := hw.busy w hwriter
  split_ifs at hcount with hcf
  · rw [hindex, he] at hentry
    rw [hfirst hcf w hwriter hindex, ← Option.some.inj hentry]
    exact hj
  · -- an entry that is not counted yet is not copied
    omega

theorem row_append {row : List ℤ} {e : Entry C} {v : ℤ}
    (hrow : ∀ j < row.length, j < e.words.length → row[j]? = e.words[j]?)
    (hv : row.length < e.words.length → e.words[row.length]? = some v) :
    ∀ j < (row ++ [v]).length, j < e.words.length → (row ++ [v])[j]? = e.words[j]? := by
  intro j hj hje
  rw [List.length_append, List.length_singleton] at hj
  by_cases hlt : j < row.length
  · rw [List.getElem?_append_left hlt]
    exact hrow j hlt hje
  · obtain rfl : j = row.length := by omega
    rw [List.getElem?_concat_length, hv hje]

/-- A row of all the words is whole. -/
theorem prefix_of_row {row : List ℤ} {e : Entry C} (hlen : C.words ≤ row.length)
    (hrow : ∀ j < row.length, j < e.words.length → row[j]? = e.words[j]?) : e.words <+: row := by
  rw [List.prefix_iff_getElem?]
  intro j hj
  have hle := e.le
  rw [hrow j (by omega) hj, List.getElem?_eq_getElem hj]

/-- A drain begins with no row. -/
theorem RowsOk.drain (h : RowsOk s) (hw : WriterOk s) {start take : ℕ}
    (hr : ReaderOk (if take = 0 then { s with cursor := start }
      else { s with reader := some ⟨start, take, 0, [], []⟩ })) :
    RowsOk (if take = 0 then { s with cursor := start }
      else { s with reader := some ⟨start, take, 0, [], []⟩ }) := by
  split_ifs at hr ⊢ with hzero
  · exact h.mono [] (List.append_nil _).symm rfl rfl
  · refine ⟨h.drained, fun r hr' p hp => ?_, fun r hr' => ?_⟩
    · cases hr'
      cases hp
    · cases hr'
      have hle := (hr.reading _ rfl).le
      have hlt : start + 0 < s.logged.length := by
        have := hw.count_le
        dsimp only at hle
        omega
      exact ⟨_, List.getElem?_eq_getElem hlt, fun j hj => absurd hj (Nat.not_lt_zero j)⟩

/-! ### Every run -/

/-- **The invariant** of every run. -/
structure LogOk (s : State C) : Prop where
  writer : WriterOk s
  reader : ReaderOk s

theorem logOk_step {a : Act C} (h : LogOk s) (hs : step s a = some s') : LogOk s' := by
  obtain ⟨hw, hr⟩ := h
  cases a with
  | log e =>
    obtain ⟨hnone, hs⟩ := Option.ite_none_right_eq_some.mp hs
    obtain rfl := Option.some.inj hs
    refine ⟨hw.log (Option.isNone_iff_eq_none.mp hnone) e, hr.same ?_ rfl rfl rfl⟩
    dsimp only
    split_ifs <;> omega
  | write =>
    obtain ⟨w, hwriter, rfl⟩ := Option.map_eq_some_iff.mp hs
    obtain ⟨-, -, -, hcount⟩ := hw.busy w hwriter
    rcases hv : w.entry.words[w.word]? with _ | v
    · refine ⟨hw.done hwriter hv, hr.same ?_ rfl rfl rfl⟩
      dsimp only
      split_ifs at hcount ⊢ <;> omega
    · exact ⟨hw.word hwriter hv, hr.same (Nat.le_refl _) rfl rfl rfl⟩
  | drain cap =>
    obtain ⟨hnone, hs⟩ := Option.ite_none_right_eq_some.mp hs
    have hr' := hr.drain (Option.isNone_iff_eq_none.mp hnone) cap rfl rfl
    rw [Option.some.inj hs] at hr'
    refine ⟨?_, hr'⟩
    obtain rfl := Option.some.inj hs
    split_ifs <;> exact hw.same rfl rfl rfl rfl
  | copy =>
    obtain ⟨r, hreader, rfl⟩ := Option.map_eq_some_iff.mp hs
    dsimp only
    split_ifs with hlen hnext
    · exact ⟨hw.same rfl rfl rfl rfl, hr.copy hreader hlen⟩
    · exact ⟨hw.same rfl rfl rfl rfl, hr.next hreader hnext⟩
    · exact ⟨hw.same rfl rfl rfl rfl, hr.done hreader hnext⟩

theorem rowsOk_step {a : Act C} (h : LogOk s) (hrows : RowsOk s) (hcalm : Undisturbed s a)
    (hs : step s a = some s') : RowsOk s' := by
  obtain ⟨hw, hr⟩ := h
  have hsame : ∀ {s' : State C}, s'.logged = s.logged → s'.reader = s.reader →
      s'.drained = s.drained → RowsOk s' := fun hlogged hreader hdrained =>
    hrows.mono [] (by rw [hlogged, List.append_nil]) hreader hdrained
  cases a with
  | log e =>
    obtain ⟨-, hs⟩ := Option.ite_none_right_eq_some.mp hs
    obtain rfl := Option.some.inj hs
    exact hrows.mono [e] rfl rfl rfl
  | write =>
    obtain ⟨w, hwriter, rfl⟩ := Option.map_eq_some_iff.mp hs
    split <;> exact hsame rfl rfl rfl
  | drain cap =>
    obtain ⟨hnone, hs⟩ := Option.ite_none_right_eq_some.mp hs
    have hr' := hr.drain (Option.isNone_iff_eq_none.mp hnone) cap rfl rfl
    obtain rfl := Option.some.inj hs
    exact hrows.drain hw hr'
  | copy =>
    obtain ⟨r, hreader, rfl⟩ := Option.map_eq_some_iff.mp hs
    obtain ⟨e, he, hrow⟩ := hrows.row r hreader
    have hrow' := row_append hrow fun hj => copied_word hw hr hcalm hreader he hj
    have hout := hrows.out r hreader
    -- once it is complete, the row is whole
    have hwhole : ∀ {row : List ℤ}, ¬row.length < C.words →
        (∀ j < row.length, j < e.words.length → row[j]? = e.words[j]?) →
        ∀ p ∈ r.out ++ [(r.start + r.i, row)], Whole s p := by
      intro row hlen hrow p hp
      rcases List.mem_append.mp hp with hp | hp
      · exact hout p hp
      · rw [List.mem_singleton.mp hp]
        exact ⟨e, he, prefix_of_row (Nat.not_lt.mp hlen) hrow⟩
    dsimp only
    split_ifs with hlen hnext
    · refine ⟨hrows.drained, fun r' hr' => ?_, fun r' hr' => ?_⟩
      · cases hr'
        exact hout
      · cases hr'
        exact ⟨e, he, hrow'⟩
    · refine ⟨hrows.drained, fun r' hr' => ?_, fun r' hr' => ?_⟩
      · cases hr'
        exact hwhole hlen hrow'
      · cases hr'
        have hle := (hr.reading r hreader).le
        have hlt : r.start + (r.i + 1) < s.logged.length := by
          have := hw.count_le
          omega
        exact ⟨_, List.getElem?_eq_getElem hlt, fun j hj => absurd hj (Nat.not_lt_zero j)⟩
    · refine ⟨fun p hp => ?_, fun r' hr' => absurd hr' (by simp),
        fun r' hr' => absurd hr' (by simp)⟩
      rcases List.mem_append.mp hp with hp | hp
      · exact hrows.drained p hp
      · exact hwhole hlen hrow' p hp

theorem logOk_start : LogOk (start C) ∧ RowsOk (start C) := by
  have hreader : ∀ r, (start C).reader ≠ some r := fun r hr => by cases hr
  have hdrained : ∀ p, p ∉ (start C).drained := fun p hp => by cases hp
  refine ⟨⟨⟨fun _ => rfl, fun w hw => ?_, fun k e hk => ?_⟩, Nat.le_refl _, .nil, fun k hk => ?_,
    fun k hk => absurd hk (Nat.not_lt_zero k), fun r hr => absurd hr (hreader r)⟩,
    fun p hp => absurd hp (hdrained p), fun r hr => absurd hr (hreader r),
    fun r hr => absurd hr (hreader r)⟩
  · cases hw
  · cases hk
  · cases hk

theorem logOk_invariant :
    ((logSystem C).onlySteps Undisturbed).Invariant fun s => LogOk s ∧ RowsOk s where
  start s hs := by
    rw [show s = _ from hs]
    exact logOk_start
  step s a s' _ h hs := ⟨logOk_step h.1 hs.2, rowsOk_step h.1 h.2 hs.1 hs.2⟩

/-- In every run in which the slots that are copied are left alone, the drains return the logged
entries, whole, in order and once, but for those more than a ring's length old. -/
theorem logs_drained (hs : ((logSystem C).onlySteps Undisturbed).Reachable s) : Drained s := by
  obtain ⟨⟨-, hr⟩, hrows⟩ := logOk_invariant.holds hs
  exact ⟨hr.ordered, hrows.drained, hr.lost⟩

/-- A copy while `serve` does not log, and has not logged more than a ring of entries. -/
def settled (s : State C) : Act C → Bool
  | .copy => s.writer.isNone && decide (s.logged.length ≤ C.ring)
  | _ => true

theorem undisturbed_of_settled {a : Act C} (h : settled s a = true) : Undisturbed s a := by
  cases a with
  | copy =>
    simp only [settled, Bool.and_eq_true, Option.isNone_iff_eq_none, decide_eq_true_eq] at h
    refine fun r _ => ⟨by omega, fun _ w hw => ?_⟩
    rw [h.1] at hw
    cases hw
  | _ => trivial

/-- A miss is logged, and then drained. -/
theorem logs_drained_miss :
    ∃ s : State missLog, s.drained = [(0, [7, 2, 5, 1])] ∧ Drained s := by
  have hrun : ∃ s, ((logSystem missLog).onlySteps fun s a => settled s a = true).Reachable s ∧
      (s.drained == [(0, [7, 2, 5, 1])]) = true :=
    TransitionSystem.exists_reachable_of_replay step _ (by exact rfl)
      ([.log (missEntry 7 2 5 1)] ++ List.replicate 5 .write ++ [.drain 8] ++
        List.replicate 4 .copy) _ (by decide)
  obtain ⟨s, hs, hdrained⟩ := hrun
  exact ⟨s, beq_iff_eq.mp hdrained, logs_drained (hs.mono fun _ _ => undisturbed_of_settled)⟩

/-- A miss is counted, and drained before its words are written. -/
theorem unwritten_miss : ∃ s, (logSystem missLog).Reachable s ∧ ¬Drained s := by
  have hrun : ∃ s, (logSystem missLog).Reachable s ∧ (s.drained == [(0, [0, 0, 0, 0])] &&
      s.logged.map Entry.words == [[7, 2, 5, 1]]) = true :=
    TransitionSystem.exists_reachable_of_run step (by exact rfl)
      ([.log (missEntry 7 2 5 1), .drain 8] ++ List.replicate 4 .copy) _ (by decide)
  obtain ⟨s, hs, hP⟩ := hrun
  simp only [Bool.and_eq_true, beq_iff_eq] at hP
  refine ⟨s, hs, fun hd => ?_⟩
  have hmem : (0, [0, 0, 0, 0]) ∈ s.drained := by
    rw [hP.1]
    exact List.mem_singleton_self _
  obtain ⟨e, he, hprefix⟩ := hd.whole _ hmem
  have hwords : (s.logged.map Entry.words)[0]? = some e.words := by
    rw [List.getElem?_map, he]
    rfl
  rw [hP.2] at hwords
  rw [← Option.some.inj hwords] at hprefix
  revert hprefix
  decide

end TierLog

end VllmMoet
