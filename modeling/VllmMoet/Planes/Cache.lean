import Mathlib.Data.List.Basic
import Mathlib.Data.Nat.Notation
import Mathlib.Logic.Function.Basic
import VllmMoet.Lib.Transition

/-!
# The planes cache on disk

The planes of a layer, once built, are kept on disk: one directory for each metadata of a build,
in it a `meta.json` and one file for each part of each layer. `store` writes `meta.json` itself and
queues the parts for a writer thread; both write to a temporary file and rename it. `try_load`
and its probe `cache_has_layer` judge a layer by the metadata and by the names and sizes of its
files.

* `procStep`: what a process and its writer thread do, one system call at a time; `cache`: any
  number of processes on one directory, which start, crash and change their metadata at any time,
  and the loss of power, after which a name has one of the contents it had before.
* `tryLoad`, `cacheHasLayer`: every system call of the reader may see another state of the disk.
* `hit_complete`: what a hit returns, and when the probe answers true.

Live processes have different process ids. The tensors given to `store` are on the GPU, so what is
queued are copies; reading a file that exists succeeds.
-/

namespace VllmMoet

namespace PlanesCache

/-- The bytes of a part. -/
abbrev Image := List UInt8

/-- `_PARTS_2BIT` and `_PARTS_FP4`. -/
inductive Part
  | planes13 | sc13 | planes2 | sc2 | fp13 | fp2
  deriving DecidableEq, Repr

/-- What `_meta` returns. -/
structure Meta where
  version : ℕ
  quantizerAbi : String
  ckptId : String
  world : ℕ
  rank : ℕ
  zeroMode : String
  /-- `"w4q"` or `False` -/
  fp4Split : Bool
  deriving DecidableEq, Repr

/-- The directory `v2/<meta_key>/tp<world>-rank<rank>`. -/
structure Dir (κ : Type) where
  metaKey : κ
  world : ℕ
  rank : ℕ
  deriving DecidableEq

/-- The file `layer<layer>.<part>.bin` of a directory. -/
structure Bin (κ : Type) where
  dir : Dir κ
  layer : ℕ
  part : Part
  deriving DecidableEq

/-- The text of a `meta.json`: one `json.load` raises on, or the dictionary it returns. -/
inductive MetaFile
  | torn
  | dict (m : Meta)
  deriving DecidableEq, Repr

/-- The disk. A temporary file has the process id of its writer in its name. -/
structure FS (κ : Type) where
  metaJson : Dir κ → Option MetaFile
  bin : Bin κ → Option Image
  metaTmp : Dir κ × ℕ → Option MetaFile
  binTmp : Bin κ × ℕ → Option Image

/-! ### The processes -/

/-- A queue entry `(path, cpu)`. -/
structure Item (κ : Type) where
  file : Bin κ
  image : Image

/-- What the writer thread is doing: waiting for an entry, about to open the temporary file, or
with the first `k` bytes written. -/
inductive Hand (κ : Type)
  | idle
  | taken (it : Item κ)
  | writing (it : Item κ) (k : ℕ)

/-- Where a call of `store` is. -/
inductive Stage
  | metaOpen | metaDump | metaReplace | parts
  deriving DecidableEq, Repr

/-- A call of `store` in progress: the directory it computed, and the parts still to be queued. -/
structure Call (κ : Type) where
  dir : Dir κ
  layer : ℕ
  stage : Stage
  todo : List (Part × Image)

/-- A process: the state of the module, the call in progress and the writer thread. -/
structure Proc (κ : Type) where
  enabled : Bool
  /-- what `_meta()` returns now -/
  metadata : Meta
  metaWritten : Bool
  broken : Bool
  call : Option (Call κ)
  queue : List (Item κ)
  hand : Hand κ

/-- A process that has just started. -/
def Proc.start {κ : Type} (enabled : Bool) (m : Meta) : Proc κ where
  enabled := enabled
  metadata := m
  metaWritten := false
  broken := false
  call := none
  queue := []
  hand := .idle

/-- `enabled() and not _broken` -/
def Proc.active {κ : Type} (p : Proc κ) : Bool := p.enabled && !p.broken

/-- What a process does. -/
inductive ProcAct
  /-- what goes into `_meta()` changes -/
  | remeta (m : Meta)
  | store (layer : ℕ) (tensors : List (Part × Option Image))
  | metaOpen | metaDump | metaReplace
  /-- the next part is queued; the queue holds two -/
  | put
  | storeDone
  /-- anything in `store` raises -/
  | storeFail
  /-- the writer takes an entry, opens the temporary file, writes bytes, renames -/
  | take | openTmp | chunk (n : ℕ) | replace
  /-- anything in the writer raises -/
  | writeFail
  | shutdown

/-- The tensors of a call that are not `None`. -/
def parts (tensors : List (Part × Option Image)) : List (Part × Image) :=
  tensors.filterMap fun x => x.2.map (Prod.mk x.1)

section Step

variable {κ : Type} [DecidableEq κ] (metaKey : Meta → κ)

/-- `_rank_dir`: `metaKey` is the first twenty digits of the hash of the metadata. -/
def rankDir (m : Meta) : Dir κ := ⟨metaKey m, m.world, m.rank⟩

/-- `os.replace` of the temporary `meta.json`. -/
def FS.replaceMeta (fs : FS κ) (d : Dir κ) (pid : ℕ) : Option (FS κ) :=
  (fs.metaTmp (d, pid)).map fun c =>
    { fs with
      metaJson := Function.update fs.metaJson d (some c)
      metaTmp := Function.update fs.metaTmp (d, pid) none }

/-- `os.replace` of a temporary part. -/
def FS.replaceBin (fs : FS κ) (b : Bin κ) (pid : ℕ) : Option (FS κ) :=
  (fs.binTmp (b, pid)).map fun image =>
    { fs with
      bin := Function.update fs.bin b (some image)
      binTmp := Function.update fs.binTmp (b, pid) none }

/-- The contents of a temporary `meta.json`. -/
def FS.writeMetaTmp (fs : FS κ) (d : Dir κ) (pid : ℕ) (c : MetaFile) : FS κ :=
  { fs with metaTmp := Function.update fs.metaTmp (d, pid) (some c) }

/-- The contents of a temporary part. -/
def FS.writeBinTmp (fs : FS κ) (b : Bin κ) (pid : ℕ) (image : Image) : FS κ :=
  { fs with binTmp := Function.update fs.binTmp (b, pid) (some image) }

/-- A call of `store` that has computed its directory. -/
def Proc.newCall (p : Proc κ) (layer : ℕ) (tensors : List (Part × Option Image)) : Call κ where
  dir := rankDir metaKey p.metadata
  layer := layer
  stage := if p.metaWritten then .parts else .metaOpen
  todo := parts tensors

/-- One step of a process on the disk. `shutdown` returns when the writer has ended; if an earlier
one timed out, entries queued after it are dropped with the queue. -/
def procStep (pid : ℕ) (p : Proc κ) (fs : FS κ) : ProcAct → Option (Proc κ × FS κ)
  | .remeta m => if p.call.isNone then some ({ p with metadata := m }, fs) else none
  | .store layer tensors =>
    if p.call.isNone then
      if p.active then some ({ p with call := some (p.newCall metaKey layer tensors) }, fs)
      else some (p, fs)
    else none
  | .metaOpen => p.call.bind fun c =>
    if c.stage = .metaOpen then
      some ({ p with call := some { c with stage := .metaDump } }, fs.writeMetaTmp c.dir pid .torn)
    else none
  | .metaDump => p.call.bind fun c =>
    if c.stage = .metaDump then
      some ({ p with call := some { c with stage := .metaReplace } },
        fs.writeMetaTmp c.dir pid (.dict p.metadata))
    else none
  | .metaReplace => p.call.bind fun c =>
    if c.stage = .metaReplace then
      (fs.replaceMeta c.dir pid).map fun fs' =>
        ({ p with metaWritten := true, call := some { c with stage := .parts } }, fs')
    else none
  | .put => p.call.bind fun c =>
    match c.stage, c.todo with
    | .parts, x :: todo =>
      if p.queue.length < 2 then
        some ({ p with
          call := some { c with todo := todo }
          queue := p.queue ++ [⟨⟨c.dir, c.layer, x.1⟩, x.2⟩] }, fs)
      else none
    | _, _ => none
  | .storeDone => p.call.bind fun c =>
    if c.stage = .parts ∧ c.todo = [] then some ({ p with call := none }, fs) else none
  | .storeFail => p.call.bind fun _ => some ({ p with call := none, broken := true }, fs)
  | .take =>
    match p.hand, p.queue with
    | .idle, it :: queue => some ({ p with hand := .taken it, queue := queue }, fs)
    | _, _ => none
  | .openTmp =>
    match p.hand with
    | .taken it => some ({ p with hand := .writing it 0 }, fs.writeBinTmp it.file pid [])
    | _ => none
  | .chunk n =>
    match p.hand with
    | .writing it k =>
      some ({ p with hand := .writing it (k + n) },
        fs.writeBinTmp it.file pid (it.image.take (k + n)))
    | _ => none
  | .replace =>
    match p.hand with
    | .writing it k =>
      if it.image.length ≤ k then
        (fs.replaceBin it.file pid).map fun fs' => ({ p with hand := .idle }, fs')
      else none
    | _ => none
  | .writeFail => some ({ p with hand := .idle, broken := true }, fs)
  | .shutdown =>
    match p.call, p.hand with
    | none, .idle =>
      some ({ p with metaWritten := false, broken := false, queue := [] }, fs)
    | _, _ => none

/-- A part that a call of `store` was given, under the metadata of the call. -/
structure Given where
  metadata : Meta
  layer : ℕ
  part : Part
  image : Image
  deriving DecidableEq, Repr

/-- What a step gives to the cache. -/
def Proc.gives (p : Proc κ) : ProcAct → List Given
  | .store layer tensors =>
    if p.active then (parts tensors).map fun x => ⟨p.metadata, layer, x.1, x.2⟩ else []
  | _ => []

/-- The disk and the processes. -/
structure Sys (κ : Type) where
  fs : FS κ
  /-- the live processes, by process id -/
  procs : ℕ → Option (Proc κ)
  /-- what the calls of `store` so far were given -/
  given : List Given
  /-- the disk after each step -/
  past : List (FS κ)

/-- What happens: a process starts, takes a step, or dies. -/
inductive Act
  | start (pid : ℕ) (enabled : Bool) (m : Meta)
  | proc (pid : ℕ) (a : ProcAct)
  | crash (pid : ℕ)

/-- One step. -/
def step (s : Sys κ) : Act → Option (Sys κ)
  | .start pid enabled m =>
    if (s.procs pid).isNone then
      some { s with procs := Function.update s.procs pid (some (.start enabled m)) }
    else none
  | .proc pid a => (s.procs pid).bind fun p =>
    (procStep metaKey pid p s.fs a).map fun x =>
      { fs := x.2
        procs := Function.update s.procs pid (some x.1)
        given := s.given ++ p.gives a
        past := x.2 :: s.past }
  | .crash pid => some { s with procs := Function.update s.procs pid none }

/-- A disk after the loss of power: files are written out before they are renamed, so what a name
has now it had before. -/
def Survives (past : List (FS κ)) (fs : FS κ) : Prop :=
  (∀ b image, fs.bin b = some image → ∃ f ∈ past, f.bin b = some image) ∧
    ∀ d c, fs.metaJson d = some c → ∃ f ∈ past, f.metaJson d = some c

/-- A step, or the loss of power. -/
inductive Label (κ : Type)
  | act (a : Act)
  | powerLoss (fs : FS κ)

/-- The steps of the system. -/
inductive CacheStep : Sys κ → Label κ → Sys κ → Prop
  | act {s t : Sys κ} {a : Act} : step metaKey s a = some t → CacheStep s (.act a) t
  | powerLoss {s : Sys κ} {fs : FS κ} : Survives s.past fs →
    CacheStep s (.powerLoss fs) { s with fs := fs, procs := fun _ => none }

/-- No process is alive and there are no parts on the disk. -/
structure Start (s : Sys κ) : Prop where
  bin : ∀ b, s.fs.bin b = none
  procs : ∀ pid, s.procs pid = none
  given : s.given = []
  past : s.past = [s.fs]

/-- Any number of processes on one cache directory. -/
def cache : TransitionSystem (Sys κ) (Label κ) where
  Start := Start
  Step := CacheStep metaKey

/-! ### The readers -/

/-- The loop of `try_load` over the parts: the file exists, it has the size, and it is read. -/
def loadParts (look : ℕ → FS κ) (d : Dir κ) (layer : ℕ) :
    ℕ → List (Part × ℕ) → Option (List (Part × Image))
  | _, [] => some []
  | i, (part, nbytes) :: sizes =>
    if ((look i).bin ⟨d, layer, part⟩).isNone then none
    else if ((look (i + 1)).bin ⟨d, layer, part⟩).map List.length ≠ some nbytes then none
    else ((look (i + 2)).bin ⟨d, layer, part⟩).bind fun image =>
      (loadParts look d layer (i + 3) sizes).map fun out => (part, image) :: out

/-- `try_load`: its system call number `i` sees the disk `look i`, and one that raises makes it
return `None`. -/
def tryLoad (look : ℕ → FS κ) (p : Proc κ) (layer : ℕ) (sizes : List (Part × ℕ)) :
    Option (List (Part × Image)) :=
  if p.active then
    if ((look 0).metaJson (rankDir metaKey p.metadata)).isNone then none
    else if (look 1).metaJson (rankDir metaKey p.metadata) ≠ some (.dict p.metadata) then
      none
    else loadParts look (rankDir metaKey p.metadata) layer 2 sizes
  else none

/-- The loop of `cache_has_layer`: the file exists and has the size. -/
def hasParts (look : ℕ → FS κ) (d : Dir κ) (layer : ℕ) : ℕ → List (Part × ℕ) → Bool
  | _, [] => true
  | i, (part, nbytes) :: sizes =>
    if ((look i).bin ⟨d, layer, part⟩).isNone ∨
        ((look (i + 1)).bin ⟨d, layer, part⟩).map List.length ≠ some nbytes then false
    else hasParts look d layer (i + 2) sizes

/-- `cache_has_layer`, with the system calls as in `tryLoad`. -/
def cacheHasLayer (look : ℕ → FS κ) (p : Proc κ) (layer : ℕ) (sizes : List (Part × ℕ)) : Bool :=
  if p.active then
    if ((look 0).metaJson (rankDir metaKey p.metadata)).isNone ∨
        (look 1).metaJson (rankDir metaKey p.metadata) ≠ some (.dict p.metadata) then false
    else hasParts look (rankDir metaKey p.metadata) layer 2 sizes
  else false

end Step

/-! ### What is on the disk -/

section Invariant

variable {κ : Type} {metaKey : Meta → κ}

/-- The file of a part that was given. -/
def Given.file (metaKey : Meta → κ) (g : Given) : Bin κ :=
  ⟨rankDir metaKey g.metadata, g.layer, g.part⟩

/-- Some call of `store` was given the image for this file. -/
def WasGiven (metaKey : Meta → κ) (given : List Given) (b : Bin κ) (image : Image) : Prop :=
  ∃ g ∈ given, g.file metaKey = b ∧ g.image = image

/-- Every part on the disk was given to some call. -/
def Stored (metaKey : Meta → κ) (given : List Given) (fs : FS κ) : Prop :=
  ∀ b image, fs.bin b = some image → WasGiven metaKey given b image

/-- The writer holds something that was given, and its temporary file a beginning of it. -/
def Hand.Ok (metaKey : Meta → κ) (given : List Given) (fs : FS κ) (pid : ℕ) : Hand κ → Prop
  | .idle => True
  | .taken it => WasGiven metaKey given it.file it.image
  | .writing it k => WasGiven metaKey given it.file it.image ∧
    fs.binTmp (it.file, pid) = some (it.image.take k)

/-- Everything that a process is still to write was given. -/
structure Proc.Ok (metaKey : Meta → κ) (given : List Given) (fs : FS κ) (pid : ℕ) (p : Proc κ) :
    Prop where
  todo : ∀ c, p.call = some c → ∀ x ∈ c.todo, WasGiven metaKey given ⟨c.dir, c.layer, x.1⟩ x.2
  queue : ∀ it ∈ p.queue, WasGiven metaKey given it.file it.image
  hand : p.hand.Ok metaKey given fs pid

section Frame

variable {given more : List Given} {b : Bin κ} {image : Image} {fs fs' : FS κ} {pid : ℕ}
  {p : Proc κ}

theorem WasGiven.append (h : WasGiven metaKey given b image) (more : List Given) :
    WasGiven metaKey (given ++ more) b image := by
  obtain ⟨g, hg, hfile⟩ := h
  exact ⟨g, List.mem_append_left _ hg, hfile⟩

theorem Stored.append (h : Stored metaKey given fs) (more : List Given) :
    Stored metaKey (given ++ more) fs := fun b image hb => (h b image hb).append more

/-- The writer only looks at its own temporary file. -/
theorem Hand.Ok.mono {hand : Hand κ} (h : hand.Ok metaKey given fs pid)
    (hfs : ∀ b, fs'.binTmp (b, pid) = fs.binTmp (b, pid)) (more : List Given) :
    hand.Ok metaKey (given ++ more) fs' pid := by
  cases hand with
  | idle => trivial
  | taken it => exact WasGiven.append h more
  | writing it k => exact ⟨h.1.append more, (hfs it.file).trans h.2⟩

theorem Proc.Ok.mono (h : p.Ok metaKey given fs pid)
    (hfs : ∀ b, fs'.binTmp (b, pid) = fs.binTmp (b, pid)) (more : List Given) :
    p.Ok metaKey (given ++ more) fs' pid where
  todo c hc x hx := (h.todo c hc x hx).append more
  queue it hit := (h.queue it hit).append more
  hand := h.hand.mono hfs more

theorem Proc.Ok.start (metaKey : Meta → κ) (given : List Given) (fs : FS κ) (pid : ℕ)
    (enabled : Bool) (m : Meta) : (Proc.start enabled m).Ok metaKey given fs pid where
  todo _ hc := absurd hc (Option.some_ne_none _).symm
  queue _ hit := absurd hit List.not_mem_nil
  hand := trivial

end Frame

/-- What a step of a process keeps: its own state, the parts on the disk, and the temporary files
of the others. -/
structure Kept (metaKey : Meta → κ) (given : List Given) (pid : ℕ) (fs : FS κ) (x : Proc κ × FS κ) :
    Prop where
  proc : x.1.Ok metaKey given x.2 pid
  stored : Stored metaKey given x.2
  others : ∀ q, q ≠ pid → ∀ b, x.2.binTmp (b, q) = fs.binTmp (b, q)

section Writes

variable {given : List Given} {pid : ℕ} {p p' : Proc κ} {fs : FS κ} {x : Proc κ × FS κ}

/-- A step that leaves the disk as it is. -/
theorem Kept.of_proc (hst : Stored metaKey given fs) (hp : p'.Ok metaKey given fs pid) :
    Kept metaKey given pid fs (p', fs) :=
  ⟨hp, hst, fun _ _ _ => rfl⟩

/-- A step of a call towards its parts, which leaves the parts on the disk as they are. -/
theorem Kept.of_stage {fs' : FS κ} {c : Call κ} (hp : p.Ok metaKey given fs pid)
    (hst : Stored metaKey given fs) (hc : p.call = some c) (stage : Stage) (written : Bool)
    (hbin : fs'.bin = fs.bin) (htmp : fs'.binTmp = fs.binTmp) :
    Kept metaKey given pid fs
      ({ p with metaWritten := written, call := some { c with stage := stage } }, fs') where
  proc :=
    { todo := by
        intro c' hc'
        obtain rfl := Option.some.inj hc'
        exact hp.todo c hc
      queue := hp.queue
      hand := List.append_nil given ▸ hp.hand.mono (fun b => congrFun htmp (b, pid)) [] }
  stored b image hb := hst b image ((congrFun hbin b).symm.trans hb)
  others q _ b := congrFun htmp (b, q)

/-- What a new call queues is what the step gives. -/
theorem wasGiven_newCall {layer : ℕ} {tensors : List (Part × Option Image)}
    (hactive : p.active = true) (given : List Given) {y : Part × Image}
    (hy : y ∈ (p.newCall metaKey layer tensors).todo) :
    WasGiven metaKey (given ++ p.gives (.store layer tensors))
      ⟨rankDir metaKey p.metadata, layer, y.1⟩ y.2 := by
  refine ⟨⟨p.metadata, layer, y.1, y.2⟩, List.mem_append_right _ ?_, rfl, rfl⟩
  rw [Proc.gives, if_pos hactive]
  exact List.mem_map_of_mem hy

variable [DecidableEq κ]

theorem writeBinTmp_other (b : Bin κ) (image : Image) {q : ℕ} (hq : q ≠ pid) (b' : Bin κ) :
    (fs.writeBinTmp b pid image).binTmp (b', q) = fs.binTmp (b', q) :=
  Function.update_of_ne (fun h => hq (congrArg Prod.snd h)) _ _

theorem writeBinTmp_self (b : Bin κ) (image : Image) :
    (fs.writeBinTmp b pid image).binTmp (b, pid) = some image :=
  Function.update_self _ _ _

/-- Renaming a file whose image was given. -/
theorem Stored.replaceBin {b : Bin κ} {image : Image} {fs' : FS κ} (hst : Stored metaKey given fs)
    (himage : WasGiven metaKey given b image) (htmp : fs.binTmp (b, pid) = some image)
    (h : fs.replaceBin b pid = some fs') : Stored metaKey given fs' := by
  rw [FS.replaceBin, htmp, Option.map_some] at h
  obtain rfl := Option.some.inj h
  intro b' image' hb'
  by_cases hb : b' = b
  · subst hb
    obtain rfl : image = image' := Option.some.inj ((Function.update_self b' _ _).symm.trans hb')
    exact himage
  · exact hst b' image' ((Function.update_of_ne hb _ _).symm.trans hb')

theorem replaceBin_other {b : Bin κ} {fs' : FS κ} (h : fs.replaceBin b pid = some fs') {q : ℕ}
    (hq : q ≠ pid) (b' : Bin κ) : fs'.binTmp (b', q) = fs.binTmp (b', q) := by
  obtain ⟨image, -, rfl⟩ := Option.map_eq_some_iff.mp h
  exact Function.update_of_ne (fun h => hq (congrArg Prod.snd h)) _ _

/-- What the steps of the writer thread are. -/
theorem exists_of_take (hx : procStep metaKey pid p fs .take = some x) :
    ∃ it queue, p.hand = .idle ∧ p.queue = it :: queue ∧
      x = ({ p with hand := .taken it, queue := queue }, fs) := by
  simp only [procStep] at hx
  split at hx
  · exact ⟨_, _, ‹_›, ‹_›, (Option.some.inj hx).symm⟩
  · exact absurd hx (Option.some_ne_none _).symm

theorem exists_of_openTmp (hx : procStep metaKey pid p fs .openTmp = some x) :
    ∃ it, p.hand = .taken it ∧
      x = ({ p with hand := .writing it 0 }, fs.writeBinTmp it.file pid []) := by
  simp only [procStep] at hx
  split at hx
  · exact ⟨_, ‹_›, (Option.some.inj hx).symm⟩
  · exact absurd hx (Option.some_ne_none _).symm

theorem exists_of_chunk {n : ℕ} (hx : procStep metaKey pid p fs (.chunk n) = some x) :
    ∃ it k, p.hand = .writing it k ∧
      x = ({ p with hand := .writing it (k + n) },
        fs.writeBinTmp it.file pid (it.image.take (k + n))) := by
  simp only [procStep] at hx
  split at hx
  · exact ⟨_, _, ‹_›, (Option.some.inj hx).symm⟩
  · exact absurd hx (Option.some_ne_none _).symm

theorem exists_of_replace (hx : procStep metaKey pid p fs .replace = some x) :
    ∃ it k fs', p.hand = .writing it k ∧ it.image.length ≤ k ∧
      fs.replaceBin it.file pid = some fs' ∧ x = ({ p with hand := .idle }, fs') := by
  simp only [procStep] at hx
  split at hx
  · obtain ⟨hk, hx⟩ := Option.ite_none_right_eq_some.mp hx
    obtain ⟨fs', hfs', rfl⟩ := Option.map_eq_some_iff.mp hx
    exact ⟨_, _, fs', ‹_›, hk, hfs', rfl⟩
  · exact absurd hx (Option.some_ne_none _).symm

theorem exists_of_shutdown (hx : procStep metaKey pid p fs .shutdown = some x) :
    p.hand = .idle ∧ x = ({ p with metaWritten := false, broken := false, queue := [] }, fs) := by
  simp only [procStep] at hx
  split at hx
  · exact ⟨‹_›, (Option.some.inj hx).symm⟩
  · exact absurd hx (Option.some_ne_none _).symm

/-- The step lemma of a process. -/
theorem Proc.Ok.step {a : ProcAct} (h : p.Ok metaKey given fs pid) (hst : Stored metaKey given fs)
    (hx : procStep metaKey pid p fs a = some x) :
    Kept metaKey (given ++ p.gives a) pid fs x := by
  have hmore := h.mono (fun _ => rfl) (p.gives a)
  have hst' := hst.append (p.gives a)
  obtain ⟨htodo, hqueue, hhand⟩ := hmore
  cases a with
  | remeta m =>
    obtain ⟨-, hx⟩ := Option.ite_none_right_eq_some.mp hx
    obtain rfl := Option.some.inj hx
    exact .of_proc hst' ⟨htodo, hqueue, hhand⟩
  | store layer tensors =>
    obtain ⟨-, hx⟩ := Option.ite_none_right_eq_some.mp hx
    by_cases hactive : p.active = true
    · rw [if_pos hactive] at hx
      obtain rfl := Option.some.inj hx
      refine .of_proc hst' ⟨?_, hqueue, hhand⟩
      intro c hc y hy
      obtain rfl := Option.some.inj hc
      exact wasGiven_newCall hactive given hy
    · rw [if_neg hactive] at hx
      obtain rfl := Option.some.inj hx
      exact .of_proc hst' ⟨htodo, hqueue, hhand⟩
  | metaOpen =>
    obtain ⟨c, hc, hx⟩ := Option.bind_eq_some_iff.mp hx
    obtain ⟨-, hx⟩ := Option.ite_none_right_eq_some.mp hx
    obtain rfl := Option.some.inj hx
    exact .of_stage ⟨htodo, hqueue, hhand⟩ hst' hc .metaDump p.metaWritten rfl rfl
  | metaDump =>
    obtain ⟨c, hc, hx⟩ := Option.bind_eq_some_iff.mp hx
    obtain ⟨-, hx⟩ := Option.ite_none_right_eq_some.mp hx
    obtain rfl := Option.some.inj hx
    exact .of_stage ⟨htodo, hqueue, hhand⟩ hst' hc .metaReplace p.metaWritten rfl rfl
  | metaReplace =>
    obtain ⟨c, hc, hx⟩ := Option.bind_eq_some_iff.mp hx
    obtain ⟨-, hx⟩ := Option.ite_none_right_eq_some.mp hx
    obtain ⟨fs', hfs', rfl⟩ := Option.map_eq_some_iff.mp hx
    obtain ⟨m, -, rfl⟩ := Option.map_eq_some_iff.mp hfs'
    exact .of_stage ⟨htodo, hqueue, hhand⟩ hst' hc .parts true rfl rfl
  | put =>
    obtain ⟨⟨dir, layer, stage, todo⟩, hc, hx⟩ := Option.bind_eq_some_iff.mp hx
    cases stage with
    | metaOpen | metaDump | metaReplace => exact absurd hx (Option.some_ne_none _).symm
    | parts =>
      cases todo with
      | nil => exact absurd hx (Option.some_ne_none _).symm
      | cons y todo =>
        obtain ⟨-, hx⟩ := Option.ite_none_right_eq_some.mp hx
        obtain rfl := Option.some.inj hx
        refine .of_proc hst' ⟨?_, ?_, hhand⟩
        · rintro c' hc' z hz
          obtain rfl := Option.some.inj hc'
          exact htodo _ hc z (List.mem_cons_of_mem _ hz)
        · intro it hit
          rcases List.mem_append.mp hit with hit | hit
          · exact hqueue it hit
          · obtain rfl := List.mem_singleton.mp hit
            exact htodo _ hc y List.mem_cons_self
  | storeDone =>
    obtain ⟨c, hc, hx⟩ := Option.bind_eq_some_iff.mp hx
    obtain ⟨-, hx⟩ := Option.ite_none_right_eq_some.mp hx
    obtain rfl := Option.some.inj hx
    exact .of_proc hst' ⟨fun c' hc' => absurd hc' (Option.some_ne_none _).symm, hqueue, hhand⟩
  | storeFail =>
    obtain ⟨c, hc, hx⟩ := Option.bind_eq_some_iff.mp hx
    obtain rfl := Option.some.inj hx
    exact .of_proc hst' ⟨fun c' hc' => absurd hc' (Option.some_ne_none _).symm, hqueue, hhand⟩
  | take =>
    obtain ⟨it, queue, -, hq, rfl⟩ := exists_of_take hx
    rw [hq] at hqueue
    exact .of_proc hst' ⟨htodo, fun it' hit' => hqueue it' (List.mem_cons_of_mem _ hit'),
      hqueue it List.mem_cons_self⟩
  | openTmp =>
    obtain ⟨it, hit, rfl⟩ := exists_of_openTmp hx
    rw [hit] at hhand
    exact ⟨⟨htodo, hqueue, hhand, writeBinTmp_self _ _⟩, hst',
      fun q hq b => writeBinTmp_other _ _ hq b⟩
  | chunk n =>
    obtain ⟨it, k, hit, rfl⟩ := exists_of_chunk hx
    rw [hit] at hhand
    exact ⟨⟨htodo, hqueue, hhand.1, writeBinTmp_self _ _⟩, hst',
      fun q hq b => writeBinTmp_other _ _ hq b⟩
  | replace =>
    obtain ⟨it, k, fs', hit, hk, hfs', rfl⟩ := exists_of_replace hx
    rw [hit] at hhand
    -- everything was written, so the temporary file is the image
    have hwhole := hhand.2
    rw [List.take_of_length_le hk] at hwhole
    exact ⟨⟨htodo, hqueue, trivial⟩, hst'.replaceBin hhand.1 hwhole hfs',
      fun q hq b => replaceBin_other hfs' hq b⟩
  | writeFail =>
    obtain rfl := Option.some.inj hx
    exact .of_proc hst' ⟨htodo, hqueue, trivial⟩
  | shutdown =>
    obtain ⟨hhand', rfl⟩ := exists_of_shutdown hx
    exact .of_proc hst' ⟨htodo, fun it hit => absurd hit List.not_mem_nil, hhand⟩

end Writes

/-- Every part on the disk, now or before, and everything on its way there was given. -/
structure Sys.Ok (metaKey : Meta → κ) (s : Sys κ) : Prop where
  stored : Stored metaKey s.given s.fs
  past : ∀ f ∈ s.past, Stored metaKey s.given f
  procs : ∀ pid p, s.procs pid = some p → p.Ok metaKey s.given s.fs pid

section Run

variable {s t : Sys κ}

theorem Sys.Ok.start (h : Start s) : s.Ok metaKey where
  stored b image hb := absurd ((h.bin b).symm.trans hb) (Option.some_ne_none _).symm
  past f hf b image hb := by
    rw [h.past, List.mem_singleton] at hf
    subst hf
    exact absurd ((h.bin b).symm.trans hb) (Option.some_ne_none _).symm
  procs pid p hp := absurd ((h.procs pid).symm.trans hp) (Option.some_ne_none _).symm

/-- After the loss of power the disk holds what was there before. -/
theorem Sys.Ok.powerLoss {fs : FS κ} (h : s.Ok metaKey) (hfs : Survives s.past fs) :
    Sys.Ok metaKey { s with fs := fs, procs := fun _ => none } where
  stored b image hb := by
    obtain ⟨f, hf, hfb⟩ := hfs.1 b image hb
    exact h.past f hf b image hfb
  past := h.past
  procs _ _ hp := absurd hp (Option.some_ne_none _).symm

/-- A process comes, changes or goes, and the temporary files of the others are as they were. -/
theorem procs_update {given more : List Given} {fs fs' : FS κ} {procs : ℕ → Option (Proc κ)}
    {pid : ℕ} {v : Option (Proc κ)} (h : ∀ q p, procs q = some p → p.Ok metaKey given fs q)
    (hv : ∀ p, v = some p → p.Ok metaKey (given ++ more) fs' pid)
    (hothers : ∀ q, q ≠ pid → ∀ b, fs'.binTmp (b, q) = fs.binTmp (b, q)) (q : ℕ) (p : Proc κ)
    (hp : Function.update procs pid v q = some p) : p.Ok metaKey (given ++ more) fs' q := by
  by_cases hq : q = pid
  · subst hq
    exact hv p ((Function.update_self q _ _).symm.trans hp)
  · exact (h q p ((Function.update_of_ne hq _ _).symm.trans hp)).mono (hothers q hq) more

variable [DecidableEq κ]

/-- The step lemma: a process writes its own files, a start and a crash write none. -/
theorem Sys.Ok.step {a : Act} (h : s.Ok metaKey) (ht : PlanesCache.step metaKey s a = some t) :
    t.Ok metaKey := by
  cases a with
  | start pid enabled m =>
    obtain ⟨-, ht⟩ := Option.ite_none_right_eq_some.mp ht
    obtain rfl := Option.some.inj ht
    refine ⟨h.stored, h.past, ?_⟩
    rw [← List.append_nil s.given]
    refine procs_update h.procs ?_ fun _ _ _ => rfl
    intro p hp
    obtain rfl := Option.some.inj hp
    exact .start metaKey _ s.fs pid enabled m
  | crash pid =>
    obtain rfl := Option.some.inj ht
    refine ⟨h.stored, h.past, ?_⟩
    rw [← List.append_nil s.given]
    exact procs_update h.procs (fun p hp => absurd hp (Option.some_ne_none p).symm)
      fun _ _ _ => rfl
  | proc pid a =>
    obtain ⟨p, hp, ht⟩ := Option.bind_eq_some_iff.mp ht
    obtain ⟨x, hx, rfl⟩ := Option.map_eq_some_iff.mp ht
    obtain ⟨hproc, hstored, hothers⟩ := (h.procs pid p hp).step h.stored hx
    refine ⟨hstored, ?_, procs_update h.procs ?_ hothers⟩
    · intro f hf
      rcases List.mem_cons.mp hf with rfl | hf
      · exact hstored
      · exact (h.past f hf).append _
    · intro p' hp'
      obtain rfl := Option.some.inj hp'
      exact hproc

theorem ok_invariant (metaKey : Meta → κ) : (cache metaKey).Invariant (Sys.Ok metaKey) where
  start _ h := .start h
  step s l t _ h ht := by
    cases ht with
    | act hstep => exact h.step hstep
    | powerLoss hfs => exact h.powerLoss hfs

end Run

/-! ### What a hit returns -/

section Hit

variable {look : ℕ → FS κ} {fs : FS κ} {d : Dir κ} {layer : ℕ} {sizes : List (Part × ℕ)}
  {out : List (Part × Image)} {i : ℕ}

/-- A hit has every part, each as it was on the disk when it was read. -/
theorem loadParts_spec (h : loadParts look d layer i sizes = some out) :
    out.map Prod.fst = sizes.map Prod.fst ∧
      ∀ x ∈ out, ∃ j, (look j).bin ⟨d, layer, x.1⟩ = some x.2 := by
  induction sizes generalizing i out with
  | nil =>
    obtain rfl := Option.some.inj h
    exact ⟨rfl, fun x hx => absurd hx List.not_mem_nil⟩
  | cons size sizes ih =>
    rw [loadParts] at h
    obtain ⟨-, h⟩ := Option.ite_none_left_eq_some.mp h
    obtain ⟨-, h⟩ := Option.ite_none_left_eq_some.mp h
    obtain ⟨image, himage, h⟩ := Option.bind_eq_some_iff.mp h
    obtain ⟨rest, hrest, rfl⟩ := Option.map_eq_some_iff.mp h
    obtain ⟨hparts, hread⟩ := ih hrest
    refine ⟨congrArg (size.1 :: ·) hparts, ?_⟩
    intro x hx
    rcases List.mem_cons.mp hx with rfl | hx
    · exact ⟨i + 2, himage⟩
    · exact hread x hx

/-- On a disk that does not change, the loop of the probe is the loop of the reader. -/
theorem hasParts_eq_isSome_loadParts (i j : ℕ) :
    hasParts (fun _ => fs) d layer i sizes =
      (loadParts (fun _ => fs) d layer j sizes).isSome := by
  induction sizes generalizing i j with
  | nil => rfl
  | cons size sizes ih =>
    rw [hasParts, loadParts]
    cases hbin : fs.bin ⟨d, layer, size.1⟩ with
    | none => rfl
    | some image =>
      by_cases hlen : image.length = size.2
      · simp [hlen, ih (i + 2) (j + 3)]
      · simp [hlen]

/-- The probe answers what the reader would on the same disk. -/
theorem cacheHasLayer_eq_isSome_tryLoad (fs : FS κ) (p : Proc κ) :
    cacheHasLayer metaKey (fun _ => fs) p layer sizes =
      (tryLoad metaKey (fun _ => fs) p layer sizes).isSome := by
  rw [cacheHasLayer, tryLoad]
  by_cases hactive : p.active = true
  · rw [if_pos hactive, if_pos hactive, hasParts_eq_isSome_loadParts 2 2]
    by_cases hmeta : fs.metaJson (rankDir metaKey p.metadata) = some (.dict p.metadata)
    · simp [hmeta]
    · simp [hmeta]
  · rw [if_neg hactive, if_neg hactive]
    rfl

/-- A hit was read under the current metadata, part by part. -/
theorem loadParts_of_tryLoad {p : Proc κ} (h : tryLoad metaKey look p layer sizes = some out) :
    loadParts look (rankDir metaKey p.metadata) layer 2 sizes = some out := by
  rw [tryLoad] at h
  obtain ⟨-, h⟩ := Option.ite_none_right_eq_some.mp h
  obtain ⟨-, h⟩ := Option.ite_none_left_eq_some.mp h
  exact (Option.ite_none_left_eq_some.mp h).2

/-- What is on the disk under a directory that only one metadata has was given under it. -/
theorem Stored.given_of_bin {given : List Given} {m : Meta} {part : Part} {image : Image}
    (h : Stored metaKey given fs) (hb : fs.bin ⟨rankDir metaKey m, layer, part⟩ = some image)
    (hkey : ∀ g ∈ given, rankDir metaKey g.metadata = rankDir metaKey m → g.metadata = m) :
    ⟨m, layer, part, image⟩ ∈ given := by
  obtain ⟨⟨m', layer', part', image'⟩, hg, hfile, himage⟩ := h _ _ hb
  obtain rfl : m' = m := hkey _ hg (congrArg Bin.dir hfile)
  obtain rfl : layer' = layer := congrArg Bin.layer hfile
  obtain rfl : part' = part := congrArg Bin.part hfile
  obtain rfl : image' = image := himage
  exact hg

/-- The system calls of a reader see reachable states of the system, other processes and the
writer thread running in between. If no other metadata that was given has the directory of the
current one, a hit has the parts it was asked for, and each is an image that `store` was given
whole for this layer and part under the current metadata; where the builds of the layer under this
metadata agree, the hit is that build. On the same disk and in the same state of the process the
probe answers true exactly when the reader hits. -/
theorem hit_complete [DecidableEq κ] (metaKey : Meta → κ) {s : ℕ → Sys κ}
    (hs : ∀ i, (cache metaKey).Reachable (s i)) (p : Proc κ) (layer : ℕ)
    (sizes : List (Part × ℕ))
    (hkey : ∀ i, ∀ g ∈ (s i).given,
      rankDir metaKey g.metadata = rankDir metaKey p.metadata → g.metadata = p.metadata) :
    (∀ out, tryLoad metaKey (fun i => (s i).fs) p layer sizes = some out →
      out.map Prod.fst = sizes.map Prod.fst ∧
      (∀ x ∈ out, ∃ i, ⟨p.metadata, layer, x.1, x.2⟩ ∈ (s i).given) ∧
      ∀ planes : Part → Image,
        (∀ i, ∀ g ∈ (s i).given, g.metadata = p.metadata → g.layer = layer →
          g.image = planes g.part) →
        out = sizes.map fun size => (size.1, planes size.1)) ∧
    ∀ fs, cacheHasLayer metaKey (fun _ => fs) p layer sizes =
      (tryLoad metaKey (fun _ => fs) p layer sizes).isSome := by
  refine ⟨?_, fun fs => cacheHasLayer_eq_isSome_tryLoad fs p⟩
  intro out hout
  obtain ⟨hparts, hread⟩ := loadParts_spec (loadParts_of_tryLoad hout)
  have hgiven : ∀ x ∈ out, ∃ i, ⟨p.metadata, layer, x.1, x.2⟩ ∈ (s i).given := by
    intro x hx
    obtain ⟨i, hi⟩ := hread x hx
    exact ⟨i, ((ok_invariant metaKey).holds (hs i)).stored.given_of_bin hi (hkey i)⟩
  refine ⟨hparts, hgiven, ?_⟩
  intro planes hplanes
  have hbuild : ∀ x ∈ out, x = (x.1, planes x.1) := by
    intro x hx
    obtain ⟨i, hi⟩ := hgiven x hx
    exact Prod.ext rfl (hplanes i _ hi rfl rfl)
  have hmap : out.map id = out.map fun x => (x.1, planes x.1) := List.map_congr_left hbuild
  calc out = out.map fun x => (x.1, planes x.1) := (List.map_id out).symm.trans hmap
    _ = (out.map Prod.fst).map fun part => (part, planes part) := by rw [List.map_map]; rfl
    _ = sizes.map fun size => (size.1, planes size.1) := by rw [hparts, List.map_map]; rfl

end Hit

end Invariant

/-! ### A layer stored and read back -/

/-- The metadata of a single rank. -/
def snapshotMeta : Meta where
  version := 2
  quantizerAbi := "tsym4-e8m0-fragmajor-a32-v2"
  ckptId := "snapshot"
  world := 1
  rank := 0
  zeroMode := "auto"
  fp4Split := false

/-- The key of that metadata. -/
def snapshotKey (_ : Meta) : String := "a3f059cfc6c1e3626b15"

/-- An empty cache. -/
def emptySys : Sys String where
  fs := ⟨fun _ => none, fun _ => none, fun _ => none, fun _ => none⟩
  procs := fun _ => none
  given := []
  past := [⟨fun _ => none, fun _ => none, fun _ => none, fun _ => none⟩]

theorem start_emptySys : Start emptySys := ⟨fun _ => rfl, fun _ => rfl, rfl, rfl⟩

/-- The process that reads. -/
def reader : Proc String := .start true snapshotMeta

/-- A process stores one part and dies. -/
def storeRun : List Act :=
  [.start 7 true snapshotMeta] ++
    [.store 3 [(.sc2, some [5, 6]), (.fp2, none)], .metaOpen, .metaDump, .metaReplace, .put,
      .storeDone, .take, .openTmp, .chunk 1, .chunk 1, .replace].map (Act.proc 7) ++
    [.crash 7]

/-- A run of steps without a loss of power is a run of the system. -/
theorem reachable_of_replay {s : Sys String} {as : List Act}
    (h : TransitionSystem.replay (step snapshotKey) emptySys as = some s) :
    (cache snapshotKey).Reachable s := by
  have hs := TransitionSystem.Reachable.replay
    (.start start_emptySys : (TransitionSystem.ofStep Start (step snapshotKey)).Reachable _) h
  clear h
  induction hs with
  | start h0 => exact .start h0
  | step _ hstep ih => exact .step ih (.act hstep)

/-- The next process finds the part. -/
theorem hit_complete_reader : ∃ s, (cache snapshotKey).Reachable s ∧
    cacheHasLayer snapshotKey (fun _ => s.fs) reader 3 [(.sc2, 2)] = true ∧
    tryLoad snapshotKey (fun _ => s.fs) reader 3 [(.sc2, 2)] = some [(.sc2, [5, 6])] ∧
    ⟨snapshotMeta, 3, .sc2, [5, 6]⟩ ∈ s.given := by
  obtain ⟨s, hs, hP⟩ := (Option.any_eq_true (fun s : Sys String =>
      decide (s.given = [⟨snapshotMeta, 3, .sc2, [5, 6]⟩] ∧
        tryLoad snapshotKey (fun _ => s.fs) reader 3 [(.sc2, 2)] = some [(.sc2, [5, 6])]))
    (TransitionSystem.replay (step snapshotKey) emptySys storeRun)).mp (by decide)
  obtain ⟨hgiven, hload⟩ := of_decide_eq_true hP
  have hreach := reachable_of_replay hs
  obtain ⟨hhit, hprobe⟩ := hit_complete snapshotKey (fun _ => hreach) reader 3 [(.sc2, 2)]
    (fun _ g hg _ => by
      rw [hgiven] at hg
      rw [List.mem_singleton.mp hg]
      rfl)
  obtain ⟨-, hmem, -⟩ := hhit _ hload
  obtain ⟨-, hsc2⟩ := hmem _ List.mem_cons_self
  refine ⟨s, hreach, ?_, hload, hsc2⟩
  rw [hprobe, hload]
  rfl

end PlanesCache

end VllmMoet
