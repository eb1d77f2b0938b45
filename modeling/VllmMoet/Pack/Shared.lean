import Mathlib.Data.List.Dedup
import Mathlib.Data.List.Sort
import Mathlib.Data.Nat.Notation
import Mathlib.Logic.Function.Basic
import VllmMoet.Lib.Transition

/-!
# A pack that processes share

The rows of the layers are in one pack file, and a sidecar beside it lists the layers that are
there. Processes add layers and read them; each does its work under a lock of the file system. A
constructor that does not find a valid pack puts an empty one in its place, then an empty sidecar.

* `step`: the system calls of the process that has the lock, one at a time, with crashes of
  processes between any two of them and the loss of power.
* `packHasLayer`: the probe of the loader, which skips the layers it answers true for.

After the loss of power each of the two names is what it was at some time since the directory was
last synced, and each byte of a file what it is or what it was when the file was last synced.
Temporary files are written and synced before they get their name. The name of a pack has the
checkpoint in it, so all processes that share it have the same rows for a layer.
-/

namespace VllmMoet

namespace SharedPack

/-! ### The disk -/

/-- The geometry of a pack and the rows of its layers. -/
structure Config where
  nLayers : ℕ
  /-- `E * stride` -/
  layerBytes : ℕ
  rows : ℕ → ℕ → UInt8

/-- The size of the pack file. -/
def Config.size (cfg : Config) : ℕ := cfg.nLayers * cfg.layerBytes

/-- A file: what reads return, and what is on the medium. -/
structure Inode where
  size : ℕ
  cached : ℕ → UInt8
  durable : ℕ → UInt8

/-- `n` bytes are written at `off`. -/
def Inode.write (f : Inode) (off n : ℕ) (bytes : ℕ → UInt8) : Inode :=
  { f with cached := fun x => if off ≤ x ∧ x < off + n then bytes (x - off) else f.cached x }

/-- Everything written is on the medium. -/
def Inode.sync (f : Inode) : Inode :=
  { f with durable := f.cached }

/-- Some bytes are as they were when the file was last synced. -/
def Inode.afterLoss (f : Inode) (keep : ℕ → Bool) : Inode :=
  { f with cached := fun x => if keep x then f.cached x else f.durable x }.sync

/-- The dictionary in a sidecar: whether the checked fields are those of the pack, and the
layers. -/
structure Manifest where
  matched : Bool
  layers : List ℤ
  deriving DecidableEq

/-- A sidecar: one that `json.load` raises on, or of which the layers are no list of numbers, or
a dictionary. -/
inductive SideFile where
  | unreadable
  | manifest (m : Manifest)
  deriving DecidableEq

/-- The files, the pack and the sidecar. `packs` and `sides` are what the two names may be after
the loss of power. -/
structure Disk where
  inodes : ℕ → Inode
  next : ℕ
  pack : Option ℕ
  side : Option SideFile
  packs : List (Option ℕ)
  sides : List (Option SideFile)

namespace Disk

variable (d : Disk)

/-- A new file of this size, synced. -/
def create (size : ℕ) : Disk :=
  { d with
    inodes := Function.update d.inodes d.next ⟨size, fun _ => 0, fun _ => 0⟩
    next := d.next + 1 }

/-- `os.replace` of the pack. -/
def replacePack (i : ℕ) : Disk :=
  { d with pack := some i, packs := some i :: d.packs }

/-- `os.replace` of the sidecar. -/
def replaceSide (m : Manifest) : Disk :=
  { d with side := some (.manifest m), sides := some (.manifest m) :: d.sides }

/-- `_fsync_dir` -/
def fsyncDir : Disk :=
  { d with packs := [d.pack], sides := [d.side] }

/-- `os.pwrite` of `n` bytes at `off`. -/
def pwrite (i off n : ℕ) (bytes : ℕ → UInt8) : Disk :=
  { d with inodes := Function.update d.inodes i ((d.inodes i).write off n bytes) }

/-- `os.fdatasync` -/
def fdatasync (i : ℕ) : Disk :=
  { d with inodes := Function.update d.inodes i (d.inodes i).sync }

/-- The disk after the loss of power. -/
def afterLoss (p : Option ℕ) (x : Option SideFile) (keep : ℕ → ℕ → Bool) : Disk where
  inodes i := (d.inodes i).afterLoss (keep i)
  next := d.next
  pack := p
  side := x
  packs := [p]
  sides := [x]

end Disk

/-! ### The checks -/

section Checks

variable (cfg : Config)

/-- `_valid_layers` -/
def validLayers (layers : List ℤ) : Option (List ℕ) :=
  if layers.Nodup ∧ ∀ li ∈ layers, 0 ≤ li ∧ li < cfg.nLayers then
    some ((layers.map Int.toNat).insertionSort (· ≤ ·))
  else none

/-- The layers of a sidecar that passes the checks. -/
def sideLayers : Option SideFile → Option (List ℕ)
  | some (.manifest m) => if m.matched then validLayers cfg m.layers else none
  | _ => none

/-- The layers that a sidecar vouches for. -/
def listed (x : Option SideFile) : List ℕ := (sideLayers cfg x).getD []

/-- The pack is a file of the right size. -/
def Disk.validFile (d : Disk) : Bool :=
  d.pack.any fun i => (d.inodes i).size == cfg.size

/-- `pack_has_layer` -/
def packHasLayer (d : Disk) (li : ℕ) : Bool :=
  match sideLayers cfg d.side with
  | none => false
  | some layers => d.validFile cfg && decide (li ∈ layers)

/-- The layers of the new sidecar. -/
def withLayer (layers : List ℕ) (li : ℕ) : List ℕ :=
  (layers ++ [li]).dedup.insertionSort (· ≤ ·)

end Checks

/-! ### The processes -/

/-- An open store: its file, and the layers it takes to be there. -/
structure Handle where
  fd : ℕ
  present : List ℕ

/-- Where the process with the lock is: in the constructor, or in `add_layer`, with the layers it
read and the number of bytes written. -/
inductive Stage where
  | ctorCheck
  | ctorTemp
  | ctorReplace (i : ℕ)
  | ctorSync
  | ctorSide
  | ctorSideSync
  | ctorOpen (layers : List ℕ)
  | addCheck (li : ℕ)
  | addWrite (li : ℕ) (layers : List ℕ) (k : ℕ)
  | addSide (li : ℕ) (layers : List ℕ)
  | addSideSync (li : ℕ) (layers : List ℕ)

/-- The disk, the process with the lock, the open stores, and the layers whose `add_layer` has
made its sidecar durable. -/
structure Sys where
  disk : Disk
  crit : Option (ℕ × Stage)
  handles : ℕ → Option Handle
  added : List ℕ

/-- What happens: a process without a store takes the lock for the constructor, or one with a store
for `add_layer`; the next system call, a write of `n` bytes if it is one; a process dies; the power
is lost. -/
inductive Act where
  | construct (pid : ℕ)
  | add (pid li : ℕ)
  | go (n : ℕ)
  | crash (pid : ℕ)
  | powerLoss (p : Option ℕ) (x : Option SideFile) (keep : ℕ → ℕ → Bool)

section Step

variable (cfg : Config)

/-- The lock is given back. -/
def Sys.unlock (s : Sys) : Sys := { s with crit := none }

/-- The process keeps the lock. -/
def Sys.goTo (s : Sys) (pid : ℕ) (d : Disk) (stage : Stage) : Sys :=
  { s with disk := d, crit := some (pid, stage) }

def Sys.setHandle (s : Sys) (pid : ℕ) (h : Handle) : Sys :=
  { s with handles := Function.update s.handles pid (some h) }

/-- The constructor has read the sidecar and the size of the pack. -/
def ctorNext (d : Disk) : Stage :=
  match sideLayers cfg d.side with
  | none => .ctorTemp
  | some layers => if d.validFile cfg then .ctorOpen layers else .ctorTemp

/-- The end of the constructor; it raises without a pack of the right size. -/
def Sys.open (s : Sys) (pid : ℕ) (layers : List ℕ) : Sys :=
  match s.disk.pack with
  | none => s.unlock
  | some i =>
    if (s.disk.inodes i).size = cfg.size then (s.setHandle pid ⟨i, layers⟩).unlock else s.unlock

/-- The checks of `add_layer`, up to the file it writes. It raises without a valid pack; it returns
if the layer is listed; and it opens the pack again if the name has another file now. -/
def Sys.addCheck (s : Sys) (pid li : ℕ) (h : Handle) : Sys :=
  match sideLayers cfg s.disk.side, s.disk.pack with
  | some layers, some i =>
    if (s.disk.inodes i).size = cfg.size then
      if li ∈ layers then (s.setHandle pid { h with present := layers }).unlock
      else (s.setHandle pid { h with fd := i }).goTo pid s.disk (.addWrite li layers 0)
    else s.unlock
  | _, _ => s.unlock

/-- A write of `add_layer`, of a gibibyte at most, or the sync after the last one. -/
def Sys.addWrite (s : Sys) (pid n li : ℕ) (layers : List ℕ) (k : ℕ) (h : Handle) : Option Sys :=
  if k < cfg.layerBytes then
    if 0 < n ∧ n ≤ cfg.layerBytes - k ∧ n ≤ 1073741824 then
      some (s.goTo pid (s.disk.pwrite h.fd (li * cfg.layerBytes + k) n fun x => cfg.rows li (k + x))
        (.addWrite li layers (k + n)))
    else none
  else some (s.goTo pid (s.disk.fdatasync h.fd) (.addSide li layers))

/-- The next system call of the process with the lock. -/
def Sys.go (s : Sys) (n pid : ℕ) : Stage → Option Sys
  | .ctorCheck => some (s.goTo pid s.disk (ctorNext cfg s.disk))
  | .ctorTemp => some (s.goTo pid (s.disk.create cfg.size) (.ctorReplace s.disk.next))
  | .ctorReplace i => some (s.goTo pid (s.disk.replacePack i) .ctorSync)
  | .ctorSync => some (s.goTo pid s.disk.fsyncDir .ctorSide)
  | .ctorSide => some (s.goTo pid (s.disk.replaceSide ⟨true, []⟩) .ctorSideSync)
  | .ctorSideSync => some (s.goTo pid s.disk.fsyncDir (.ctorOpen []))
  | .ctorOpen layers => some (s.open cfg pid layers)
  | .addCheck li => (s.handles pid).map (s.addCheck cfg pid li)
  | .addWrite li layers k => (s.handles pid).bind (s.addWrite cfg pid n li layers k)
  | .addSide li layers =>
    some (s.goTo pid (s.disk.replaceSide ⟨true, (withLayer layers li).map Int.ofNat⟩)
      (.addSideSync li (withLayer layers li)))
  | .addSideSync li layers => (s.handles pid).map fun h =>
    { (s.setHandle pid { h with present := layers }).unlock with
      disk := s.disk.fsyncDir
      added := li :: s.added }

/-- One step. -/
def step (s : Sys) : Act → Option Sys
  | .construct pid =>
    if s.crit.isNone ∧ (s.handles pid).isNone then some (s.goTo pid s.disk .ctorCheck) else none
  | .add pid li =>
    if s.crit.isNone ∧ (s.handles pid).any (fun h => li ∉ h.present) ∧ li < cfg.nLayers then
      some (s.goTo pid s.disk (.addCheck li))
    else none
  | .go n => s.crit.bind fun c => s.go cfg n c.1 c.2
  | .crash pid => some
    { s with
      handles := Function.update s.handles pid none
      crit := if s.crit.any (fun c => c.1 = pid) then none else s.crit }
  | .powerLoss p x keep =>
    if s.disk.packs.contains p ∧ s.disk.sides.contains x then
      some { s with disk := s.disk.afterLoss p x keep, crit := none, handles := fun _ => none }
    else none

/-- The rows of a layer are in a file, and on the medium. -/
def Holds (f : Inode) (li : ℕ) : Prop :=
  ∀ k < cfg.layerBytes, f.cached (li * cfg.layerBytes + k) = cfg.rows li k ∧
    f.durable (li * cfg.layerBytes + k) = cfg.rows li k

/-- No process is alive, and the layers that are listed beside a pack of the right size are
there. -/
structure Start (s : Sys) : Prop where
  crit : s.crit = none
  handles : ∀ pid, s.handles pid = none
  added : s.added = []
  packs : s.disk.packs = [s.disk.pack]
  sides : s.disk.sides = [s.disk.side]
  next : ∀ i, s.disk.pack = some i → i < s.disk.next
  rows : ∀ i, s.disk.pack = some i → (s.disk.inodes i).size = cfg.size →
    ∀ li ∈ listed cfg s.disk.side, Holds cfg (s.disk.inodes i) li

/-- Any number of processes on one pack. -/
def pack : TransitionSystem Sys Act :=
  .ofStep (Start cfg) (step cfg)

/-- The step is that of a constructor which puts its new file in the place of the pack. -/
def replaces (s : Sys) (a : Act) : Bool :=
  match s.crit, a with
  | some (_, .ctorReplace _), .go _ => true
  | _, _ => false

/-- No new file is put under a sidecar that lists layers. -/
def NoOldManifest (s : Sys) (a : Act) : Prop :=
  replaces s a = true → listed cfg s.disk.side = []

instance (s : Sys) (a : Act) : Decidable (NoOldManifest cfg s a) :=
  inferInstanceAs (Decidable (_ → _))

end Step

/-! ### The sidecar -/

section Sidecar

variable {cfg : Config} {x : Option SideFile} {li : ℕ}

theorem listed_of_sideLayers {layers : List ℕ} (h : sideLayers cfg x = some layers) :
    listed cfg x = layers := by
  rw [listed, h, Option.getD_some]

theorem isSome_of_listed (h : li ∈ listed cfg x) : (sideLayers cfg x).isSome := by
  rw [listed] at h
  cases hx : sideLayers cfg x with
  | none =>
    rw [hx] at h
    exact absurd h List.not_mem_nil
  | some layers => rfl

/-- A layer is there if the manifest lists it and the pack has its size. -/
theorem packHasLayer_iff {d : Disk} :
    packHasLayer cfg d li = true ↔ li ∈ listed cfg d.side ∧ d.validFile cfg = true := by
  rw [packHasLayer, listed]
  cases sideLayers cfg d.side with
  | none => simp
  | some layers => simp [and_comm]

theorem validFile_iff {d : Disk} :
    d.validFile cfg = true ↔ ∃ i, d.pack = some i ∧ (d.inodes i).size = cfg.size := by
  rw [Disk.validFile, Option.any_eq_true]
  simp only [beq_iff_eq]

/-- Layers that are listed are layers of the model. -/
theorem lt_of_mem_listed (h : li ∈ listed cfg x) : li < cfg.nLayers := by
  obtain ⟨layers, hx⟩ := Option.isSome_iff_exists.mp (isSome_of_listed h)
  rw [listed_of_sideLayers hx] at h
  cases x with
  | none => exact absurd hx (Option.some_ne_none _).symm
  | some f =>
    cases f with
    | unreadable => exact absurd hx (Option.some_ne_none _).symm
    | manifest m =>
      obtain ⟨-, hx⟩ := Option.ite_none_right_eq_some.mp hx
      obtain ⟨⟨-, hrange⟩, hx⟩ := Option.ite_none_right_eq_some.mp hx
      obtain rfl := Option.some.inj hx
      obtain ⟨z, hz, rfl⟩ := List.mem_map.mp ((List.mem_insertionSort _).mp h)
      have hlt := hrange z hz
      omega

theorem mem_withLayer {layers : List ℕ} {lj : ℕ} :
    lj ∈ withLayer layers li ↔ lj ∈ layers ∨ lj = li := by
  rw [withLayer, List.mem_insertionSort, List.mem_dedup, List.mem_append, List.mem_singleton]

/-- The sidecar written for a layer lists it, with those that were listed. -/
theorem mem_listed_withLayer {layers : List ℕ} (hrange : ∀ lj ∈ layers, lj < cfg.nLayers)
    (hli : li < cfg.nLayers) {lj : ℕ} :
    lj ∈ listed cfg (some (.manifest ⟨true, (withLayer layers li).map Int.ofNat⟩)) ↔
      lj ∈ layers ∨ lj = li := by
  have hnodup : ((withLayer layers li).map Int.ofNat).Nodup := by
    refine List.Nodup.map (fun a b h => Int.ofNat.inj h) ?_
    exact (List.perm_insertionSort _ _).nodup_iff.mpr (List.nodup_dedup _)
  have hvalid : ∀ z ∈ (withLayer layers li).map Int.ofNat, 0 ≤ z ∧ z < cfg.nLayers := by
    intro z hz
    obtain ⟨lk, hlk, rfl⟩ := List.mem_map.mp hz
    have hlt : lk < cfg.nLayers := by
      rcases mem_withLayer.mp hlk with h | rfl
      · exact hrange lk h
      · exact hli
    exact ⟨Int.natCast_nonneg lk, Int.ofNat_lt.mpr hlt⟩
  have hside : sideLayers cfg (some (.manifest ⟨true, (withLayer layers li).map Int.ofNat⟩)) =
      some ((((withLayer layers li).map Int.ofNat).map Int.toNat).insertionSort (· ≤ ·)) := by
    rw [sideLayers, if_pos rfl, validLayers, if_pos ⟨hnodup, hvalid⟩]
  have hmap : ((withLayer layers li).map Int.ofNat).map Int.toNat = withLayer layers li := by
    rw [List.map_map]
    exact List.map_id _
  rw [listed_of_sideLayers hside, List.mem_insertionSort, hmap, mem_withLayer]

end Sidecar

/-! ### The rows in a file -/

section Rows

variable {cfg : Config} {f : Inode} {li lj : ℕ}

/-- Writing in the part of one layer leaves the others as they are. -/
theorem Holds.write (h : Holds cfg f lj) (hne : lj ≠ li) {k n : ℕ} (hk : k + n ≤ cfg.layerBytes)
    (bytes : ℕ → UInt8) : Holds cfg (f.write (li * cfg.layerBytes + k) n bytes) lj := by
  intro j hj
  have hout : ¬ (li * cfg.layerBytes + k ≤ lj * cfg.layerBytes + j ∧
      lj * cfg.layerBytes + j < li * cfg.layerBytes + k + n) := by
    rintro ⟨hlo, hhi⟩
    rcases Nat.lt_or_gt_of_ne hne with hlt | hgt
    · have hle := Nat.mul_le_mul_right cfg.layerBytes hlt
      rw [Nat.succ_mul] at hle
      omega
    · have hle := Nat.mul_le_mul_right cfg.layerBytes hgt
      rw [Nat.succ_mul] at hle
      omega
  exact ⟨(if_neg hout).trans (h j hj).1, (h j hj).2⟩

theorem Holds.sync (h : Holds cfg f li) : Holds cfg f.sync li :=
  fun k hk => ⟨(h k hk).1, (h k hk).1⟩

/-- What is on the medium survives the loss of power. -/
theorem Holds.afterLoss (h : Holds cfg f li) (keep : ℕ → Bool) :
    Holds cfg (f.afterLoss keep) li := by
  intro k hk
  have hbyte : (f.afterLoss keep).cached (li * cfg.layerBytes + k) = cfg.rows li k := by
    simp only [Inode.afterLoss, Inode.sync, (h k hk).1, (h k hk).2, ite_self]
  exact ⟨hbyte, hbyte⟩

/-- The first `k` bytes of a layer are written. -/
def Written (cfg : Config) (f : Inode) (li k : ℕ) : Prop :=
  ∀ j < k, f.cached (li * cfg.layerBytes + j) = cfg.rows li j

theorem Written.write {k : ℕ} (h : Written cfg f li k) (n : ℕ) :
    Written cfg (f.write (li * cfg.layerBytes + k) n fun x => cfg.rows li (k + x)) li (k + n) := by
  intro j hj
  simp only [Inode.write]
  by_cases hjk : j < k
  · rw [if_neg (by omega)]
    exact h j hjk
  · rw [if_pos ⟨by omega, by omega⟩]
    congr 1
    omega

/-- A layer that is written to its end is in the pack once it is synced. -/
theorem Written.holds {k : ℕ} (h : Written cfg f li k) (hk : cfg.layerBytes ≤ k) :
    Holds cfg f.sync li :=
  fun j hj => ⟨h j (Nat.lt_of_lt_of_le hj hk), h j (Nat.lt_of_lt_of_le hj hk)⟩

end Rows

/-! ### The invariant of the disk -/

/-- What is true of the disk at any time. Of the files that the name of the pack may have after the
loss of power, at most the present one has the right size once a sidecar passes the checks. -/
structure DiskOk (cfg : Config) (d : Disk) : Prop where
  pack_mem : d.pack ∈ d.packs
  side_mem : d.side ∈ d.sides
  next : ∀ i, some i ∈ d.packs → i < d.next
  mono : ∀ x ∈ d.sides, ∀ li ∈ listed cfg x, li ∈ listed cfg d.side
  single : (sideLayers cfg d.side).isSome → ∀ i, some i ∈ d.packs →
    (d.inodes i).size = cfg.size → d.pack = some i
  rows : ∀ i, some i ∈ d.packs → (d.inodes i).size = cfg.size →
    ∀ li ∈ listed cfg d.side, Holds cfg (d.inodes i) li

/-- What an open store relies on. -/
structure HandleOk (cfg : Config) (d : Disk) (h : Handle) : Prop where
  side : (sideLayers cfg d.side).isSome
  pack : d.pack = some h.fd
  size : (d.inodes h.fd).size = cfg.size
  present : ∀ li ∈ h.present, li ∈ listed cfg d.side

/-- A layer that is listed whatever happens. -/
structure Kept (cfg : Config) (d : Disk) (li : ℕ) : Prop where
  sides : ∀ x ∈ d.sides, li ∈ listed cfg x
  packs : ∀ p ∈ d.packs, ∃ i, p = some i ∧ (d.inodes i).size = cfg.size

/-- What the steps of the processes keep for the others: the pack, its size, and the layers that
are listed. -/
structure Extends (cfg : Config) (d d' : Disk) : Prop where
  pack : d'.pack = d.pack
  size : ∀ i, some i ∈ d.packs → (d'.inodes i).size = (d.inodes i).size
  side : (sideLayers cfg d.side).isSome → (sideLayers cfg d'.side).isSome
  listed : ∀ li ∈ listed cfg d.side, li ∈ SharedPack.listed cfg d'.side
  packs : ∀ p ∈ d'.packs, p ∈ d.packs
  sides : ∀ x ∈ d'.sides, x ∈ d.sides ∨ x = d'.side

section Disks

variable {cfg : Config} {d d' : Disk} {h : Handle} {li : ℕ}

/-- A handle stays good while the disk only gains layers. -/
theorem HandleOk.extends (hh : HandleOk cfg d h) (hd : DiskOk cfg d) (he : Extends cfg d d') :
    HandleOk cfg d' h where
  side := he.side hh.side
  pack := he.pack.trans hh.pack
  size := (he.size h.fd (hh.pack ▸ hd.pack_mem)).trans hh.size
  present li hli := he.listed li (hh.present li hli)

/-- A layer that is kept stays so while the disk only gains layers. -/
theorem Kept.extends (hk : Kept cfg d li) (hd : DiskOk cfg d) (he : Extends cfg d d') :
    Kept cfg d' li where
  sides x hx := by
    rcases he.sides x hx with hx | rfl
    · exact hk.sides x hx
    · exact he.listed li (hk.sides _ hd.side_mem)
  packs p hp := by
    obtain ⟨i, rfl, hsize⟩ := hk.packs p (he.packs p hp)
    exact ⟨i, rfl, (he.size i (he.packs _ hp)).trans hsize⟩

theorem Extends.refl (cfg : Config) (d : Disk) : Extends cfg d d :=
  ⟨rfl, fun _ _ => rfl, id, fun _ h => h, fun _ h => h, fun _ h => .inl h⟩

/-! ### The system calls -/

theorem create_inodes {i : ℕ} (hi : i < d.next) (size : ℕ) :
    (d.create size).inodes i = d.inodes i :=
  Function.update_of_ne (Nat.ne_of_lt hi) _ _

theorem DiskOk.create (hd : DiskOk cfg d) (size : ℕ) : DiskOk cfg (d.create size) where
  pack_mem := hd.pack_mem
  side_mem := hd.side_mem
  next i hi := Nat.lt_succ_of_lt (hd.next i hi)
  mono := hd.mono
  single hside i hi hsize := by
    rw [create_inodes (hd.next i hi)] at hsize
    exact hd.single hside i hi hsize
  rows i hi hsize := by
    rw [create_inodes (hd.next i hi)] at hsize ⊢
    exact hd.rows i hi hsize

theorem Extends.create (hd : DiskOk cfg d) (size : ℕ) : Extends cfg d (d.create size) :=
  ⟨rfl, fun i hi => by rw [create_inodes (hd.next i hi)], id, fun _ h => h, fun _ h => h,
    fun _ h => .inl h⟩

theorem DiskOk.fsyncDir (hd : DiskOk cfg d) : DiskOk cfg d.fsyncDir where
  pack_mem := List.mem_singleton_self _
  side_mem := List.mem_singleton_self _
  next i hi := hd.next i (List.mem_singleton.mp hi ▸ hd.pack_mem)
  mono _ hx _ hli := List.mem_singleton.mp hx ▸ hli
  single _ _ hi _ := (List.mem_singleton.mp hi).symm
  rows i hi := hd.rows i (List.mem_singleton.mp hi ▸ hd.pack_mem)

theorem Extends.fsyncDir (hd : DiskOk cfg d) : Extends cfg d d.fsyncDir :=
  ⟨rfl, fun _ _ => rfl, id, fun _ h => h, fun _ hp => List.mem_singleton.mp hp ▸ hd.pack_mem,
    fun _ hx => .inl (List.mem_singleton.mp hx ▸ hd.side_mem)⟩

/-- A new pack, where no sidecar that may come back lists a layer. -/
theorem DiskOk.replacePack (hd : DiskOk cfg d) {i : ℕ} (hi : i < d.next)
    (hvalid : (sideLayers cfg d.side).isSome → d.validFile cfg = false)
    (hempty : listed cfg d.side = []) : DiskOk cfg (d.replacePack i) where
  pack_mem := List.mem_cons_self
  side_mem := hd.side_mem
  next j hj := by
    rcases List.mem_cons.mp hj with hj | hj
    · exact Option.some.inj hj ▸ hi
    · exact hd.next j hj
  mono := hd.mono
  single hside j hj hsize := by
    rcases List.mem_cons.mp hj with hj | hj
    · exact hj.symm
    · have hvalid' := validFile_iff.mpr ⟨j, hd.single hside j hj hsize, hsize⟩
      exact absurd hvalid' (Bool.eq_false_iff.mp (hvalid hside))
  rows j _ _ li hli := absurd hli (hempty ▸ List.not_mem_nil)

/-- The first sidecar of a new pack. -/
theorem DiskOk.firstSide (hd : DiskOk cfg d) (hpacks : d.packs = [d.pack])
    (hempty : listed cfg d.side = []) : DiskOk cfg (d.replaceSide ⟨true, []⟩) where
  pack_mem := hd.pack_mem
  side_mem := List.mem_cons_self
  next := hd.next
  mono x hx li hli := by
    rcases List.mem_cons.mp hx with rfl | hx
    · exact hli
    · exact absurd (hd.mono x hx li hli) (hempty ▸ List.not_mem_nil)
  single _ i hi _ := (List.mem_singleton.mp (hpacks ▸ hi)).symm
  rows _ _ _ _ hli := absurd hli List.not_mem_nil

/-- A sidecar with one more layer, the rows of which are there. -/
theorem DiskOk.nextSide (hd : DiskOk cfg d) {layers : List ℕ} {i : ℕ}
    (hside : sideLayers cfg d.side = some layers) (hli : li < cfg.nLayers)
    (hpack : d.pack = some i) (hrows : Holds cfg (d.inodes i) li) :
    DiskOk cfg (d.replaceSide ⟨true, (withLayer layers li).map Int.ofNat⟩) ∧
      Extends cfg d (d.replaceSide ⟨true, (withLayer layers li).map Int.ofNat⟩) ∧
      ∀ lj ∈ withLayer layers li, lj ∈ listed cfg
        (d.replaceSide ⟨true, (withLayer layers li).map Int.ofNat⟩).side := by
  have hlisted := listed_of_sideLayers hside
  have hmem : ∀ {lj}, lj ∈ listed cfg
      (some (.manifest ⟨true, (withLayer layers li).map Int.ofNat⟩)) ↔ lj ∈ layers ∨ lj = li :=
    mem_listed_withLayer (fun lj hlj => lt_of_mem_listed (hlisted ▸ hlj)) hli
  have hsome : (sideLayers cfg d.side).isSome := by rw [hside]; rfl
  refine ⟨⟨hd.pack_mem, List.mem_cons_self, hd.next, ?_, ?_, ?_⟩, ⟨rfl, fun _ _ => rfl, ?_, ?_,
    fun _ hp => hp, ?_⟩, fun lj hlj => hmem.mpr (mem_withLayer.mp hlj)⟩
  · intro x hx lj hlj
    rcases List.mem_cons.mp hx with rfl | hx
    · exact hlj
    · exact hmem.mpr (.inl (hlisted ▸ hd.mono x hx lj hlj))
  · exact fun _ => hd.single hsome
  · intro j hj hsize lj hlj
    rcases hmem.mp hlj with hlj | rfl
    · exact hd.rows j hj hsize lj (hlisted ▸ hlj)
    · obtain rfl := Option.some.inj (hpack.symm.trans (hd.single hsome j hj hsize))
      exact hrows
  · exact fun _ => isSome_of_listed (hmem.mpr (.inr rfl))
  · exact fun lj hlj => hmem.mpr (.inl (hlisted ▸ hlj))
  · intro x hx
    rcases List.mem_cons.mp hx with rfl | hx
    · exact .inr rfl
    · exact .inl hx

/-- A change of one file that keeps its size and the rows of the listed layers. -/
theorem DiskOk.update (hd : DiskOk cfg d) {i : ℕ} {f : Inode} (hsize : f.size = (d.inodes i).size)
    (hrows : ∀ li ∈ listed cfg d.side, Holds cfg (d.inodes i) li → Holds cfg f li) :
    DiskOk cfg { d with inodes := Function.update d.inodes i f } ∧
      Extends cfg d { d with inodes := Function.update d.inodes i f } := by
  have hsizes : ∀ j, (Function.update d.inodes i f j).size = (d.inodes j).size := by
    intro j
    by_cases hj : j = i
    · subst hj
      rw [Function.update_self, hsize]
    · rw [Function.update_of_ne hj]
  refine ⟨⟨hd.pack_mem, hd.side_mem, hd.next, hd.mono, fun hside j hj hsz => ?_,
    fun j hj hsz li hli => ?_⟩, ⟨rfl, fun j _ => hsizes j, id, fun _ h => h, fun _ h => h,
    fun _ h => .inl h⟩⟩
  · exact hd.single hside j hj ((hsizes j).symm.trans hsz)
  · have hold := hd.rows j hj ((hsizes j).symm.trans hsz) li hli
    change Holds cfg (Function.update d.inodes i f j) li
    by_cases hji : j = i
    · subst hji
      rw [Function.update_self]
      exact hrows li hli hold
    · rw [Function.update_of_ne hji]
      exact hold

/-- What comes back after the loss of power. -/
theorem DiskOk.afterLoss (hd : DiskOk cfg d) {p : Option ℕ} {x : Option SideFile}
    (hp : p ∈ d.packs) (hx : x ∈ d.sides) (keep : ℕ → ℕ → Bool) :
    DiskOk cfg (d.afterLoss p x keep) where
  pack_mem := List.mem_singleton_self _
  side_mem := List.mem_singleton_self _
  next i hi := hd.next i (List.mem_singleton.mp hi ▸ hp)
  mono _ hy _ hli := List.mem_singleton.mp hy ▸ hli
  single _ _ hi _ := (List.mem_singleton.mp hi).symm
  rows i hi hsize li hli :=
    (hd.rows i (List.mem_singleton.mp hi ▸ hp) hsize li (hd.mono x hx li hli)).afterLoss (keep i)

/-- A kept layer is in whichever version of the pack and of the manifest survives a crash. -/
theorem Kept.afterLoss (hk : Kept cfg d li) {p : Option ℕ} {x : Option SideFile}
    (hp : p ∈ d.packs) (hx : x ∈ d.sides) (keep : ℕ → ℕ → Bool) :
    Kept cfg (d.afterLoss p x keep) li where
  sides _ hy := List.mem_singleton.mp hy ▸ hk.sides x hx
  packs _ hq := List.mem_singleton.mp hq ▸ hk.packs p hp

end Disks

/-! ### The invariant of the system -/

/-- What the process with the lock relies on. -/
def Stage.Ok (cfg : Config) (s : Sys) (pid : ℕ) : Stage → Prop
  | .ctorCheck => True
  | .ctorTemp => (sideLayers cfg s.disk.side).isSome → s.disk.validFile cfg = false
  | .ctorReplace i => ((sideLayers cfg s.disk.side).isSome → s.disk.validFile cfg = false) ∧
    i < s.disk.next ∧ (s.disk.inodes i).size = cfg.size
  | .ctorSync => (∀ q, s.handles q = none) ∧ s.added = [] ∧ listed cfg s.disk.side = [] ∧
    s.disk.validFile cfg = true
  | .ctorSide => (∀ q, s.handles q = none) ∧ s.added = [] ∧ listed cfg s.disk.side = [] ∧
    s.disk.validFile cfg = true ∧ s.disk.packs = [s.disk.pack]
  | .ctorSideSync => (sideLayers cfg s.disk.side).isSome ∧ s.disk.validFile cfg = true
  | .ctorOpen layers => (sideLayers cfg s.disk.side).isSome ∧ s.disk.validFile cfg = true ∧
    ∀ li ∈ layers, li ∈ listed cfg s.disk.side
  | .addCheck li => li < cfg.nLayers
  | .addWrite li layers k => li < cfg.nLayers ∧ li ∉ layers ∧
    sideLayers cfg s.disk.side = some layers ∧ k ≤ cfg.layerBytes ∧
    ∀ h, s.handles pid = some h → Written cfg (s.disk.inodes h.fd) li k
  | .addSide li layers => li < cfg.nLayers ∧ sideLayers cfg s.disk.side = some layers ∧
    ∃ h, s.handles pid = some h ∧ Holds cfg (s.disk.inodes h.fd) li
  | .addSideSync li layers => li ∈ layers ∧ ∀ lj ∈ layers, lj ∈ listed cfg s.disk.side

/-- The invariant. -/
structure Inv (cfg : Config) (s : Sys) : Prop where
  disk : DiskOk cfg s.disk
  handles : ∀ pid h, s.handles pid = some h → HandleOk cfg s.disk h
  added : ∀ li ∈ s.added, Kept cfg s.disk li
  stage : ∀ pid stage, s.crit = some (pid, stage) → stage.Ok cfg s pid

/-- A step that keeps the invariant, and the layers that are listed. -/
structure Next (cfg : Config) (s t : Sys) : Prop where
  inv : Inv cfg t
  keeps : ∀ li, packHasLayer cfg s.disk li = true → packHasLayer cfg t.disk li = true

section Run

variable {cfg : Config} {s t : Sys} {pid n : ℕ}

/-- A layer that is there stays there. -/
theorem Extends.packHasLayer {d d' : Disk} (hd : DiskOk cfg d) (he : Extends cfg d d') {li : ℕ}
    (h : packHasLayer cfg d li = true) : packHasLayer cfg d' li = true := by
  obtain ⟨hli, hvalid⟩ := packHasLayer_iff.mp h
  obtain ⟨i, hpack, hsize⟩ := validFile_iff.mp hvalid
  exact packHasLayer_iff.mpr ⟨he.listed li hli, validFile_iff.mpr
    ⟨i, he.pack.trans hpack, (he.size i (hpack ▸ hd.pack_mem)).trans hsize⟩⟩

theorem Inv.start (h : Start cfg s) : Inv cfg s where
  disk :=
    { pack_mem := h.packs ▸ List.mem_singleton_self _
      side_mem := h.sides ▸ List.mem_singleton_self _
      next := fun i hi => h.next i (List.mem_singleton.mp (h.packs ▸ hi)).symm
      mono := fun _ hx _ hli => List.mem_singleton.mp (h.sides ▸ hx) ▸ hli
      single := fun _ _ hi _ => (List.mem_singleton.mp (h.packs ▸ hi)).symm
      rows := fun i hi => h.rows i (List.mem_singleton.mp (h.packs ▸ hi)).symm }
  handles pid _ hh := absurd ((h.handles pid).symm.trans hh) (Option.some_ne_none _).symm
  added _ hli := absurd (h.added ▸ hli) List.not_mem_nil
  stage _ _ hc := absurd (h.crit.symm.trans hc) (Option.some_ne_none _).symm

/-- The process with the lock changes the disk. -/
theorem Inv.goTo (h : Inv cfg s) {d : Disk} (hd : DiskOk cfg d) (he : Extends cfg s.disk d)
    {stage : Stage} (hstage : stage.Ok cfg (s.goTo pid d stage) pid) :
    Next cfg s (s.goTo pid d stage) where
  inv :=
    { disk := hd
      handles := fun q g hg => (h.handles q g hg).extends h.disk he
      added := fun li hli => (h.added li hli).extends h.disk he
      stage := by
        intro q st hst
        obtain ⟨rfl, rfl⟩ := Prod.mk.inj (Option.some.inj hst)
        exact hstage }
  keeps _ := he.packHasLayer h.disk

/-- The lock is given back. -/
theorem Inv.unlock (h : Inv cfg s) : Next cfg s s.unlock where
  inv :=
    { disk := h.disk
      handles := h.handles
      added := h.added
      stage := fun _ _ hst => absurd hst (Option.some_ne_none _).symm }
  keeps _ hli := hli

/-- A store is opened, or changes what it takes to be there, and the lock is given back. -/
theorem Inv.setHandle (h : Inv cfg s) {g : Handle} (hg : HandleOk cfg s.disk g) :
    Next cfg s (s.setHandle pid g).unlock where
  inv :=
    { disk := h.disk
      handles := by
        intro q g' hg'
        by_cases hq : q = pid
        · subst hq
          obtain rfl := Option.some.inj ((Function.update_self q _ _).symm.trans hg')
          exact hg
        · exact h.handles q g' ((Function.update_of_ne hq _ _).symm.trans hg')
      added := h.added
      stage := fun _ _ hst => absurd hst (Option.some_ne_none _).symm }
  keeps _ hli := hli

/-- A process opens what it has found on the disk. -/
theorem Inv.open (h : Inv cfg s) {layers : List ℕ} (hok : (Stage.ctorOpen layers).Ok cfg s pid) :
    Next cfg s (s.open cfg pid layers) := by
  obtain ⟨hside, -, hlayers⟩ := hok
  unfold Sys.open
  split
  · exact h.unlock
  · split
    next hpack hsize => exact h.setHandle ⟨hside, hpack, hsize, hlayers⟩
    next => exact h.unlock

/-- The file that `add_layer` opens again is the one it has. -/
theorem Inv.addCheck (h : Inv cfg s) {li : ℕ} (hli : li < cfg.nLayers) {g : Handle}
    (hg : s.handles pid = some g) : Next cfg s (s.addCheck cfg pid li g) := by
  obtain ⟨hside, hpack, hsize, hpresent⟩ := h.handles pid g hg
  unfold Sys.addCheck
  split
  next layers i hlayers hi =>
    obtain rfl := Option.some.inj (hpack.symm.trans hi)
    rw [if_pos hsize]
    have hlisted := listed_of_sideLayers hlayers
    by_cases hmem : li ∈ layers
    · rw [if_pos hmem]
      exact h.setHandle ⟨hside, hpack, hsize, fun lj hlj => hlisted ▸ hlj⟩
    · rw [if_neg hmem]
      have hset : Next cfg s (s.setHandle pid { g with fd := g.fd }).unlock :=
        h.setHandle ⟨hside, hpack, hsize, hpresent⟩
      have hnext : Next cfg (s.setHandle pid { g with fd := g.fd }).unlock
          ((s.setHandle pid { g with fd := g.fd }).goTo pid s.disk (.addWrite li layers 0)) :=
        hset.inv.goTo h.disk (.refl cfg _)
          ⟨hli, hmem, hlayers, Nat.zero_le _, fun _ _ j hj => absurd hj (Nat.not_lt_zero j)⟩
      exact ⟨hnext.inv, hnext.keeps⟩
  next => exact h.unlock

/-- A write goes to a layer that is not listed. -/
theorem Inv.addWrite (h : Inv cfg s) {li k : ℕ} {layers : List ℕ}
    (hok : (Stage.addWrite li layers k).Ok cfg s pid) {g : Handle} (hg : s.handles pid = some g)
    (ht : s.addWrite cfg pid n li layers k g = some t) : Next cfg s t := by
  obtain ⟨hli, hmem, hlayers, hk, hwritten⟩ := hok
  have hlisted := listed_of_sideLayers hlayers
  rw [Sys.addWrite] at ht
  split at ht
  next =>
    obtain ⟨⟨-, hn, -⟩, ht⟩ := Option.ite_none_right_eq_some.mp ht
    obtain rfl := Option.some.inj ht
    have hother : ∀ lj ∈ listed cfg s.disk.side, lj ≠ li := by
      rintro lj hlj rfl
      exact hmem (hlisted ▸ hlj)
    obtain ⟨hd, he⟩ := h.disk.update (i := g.fd)
      (f := (s.disk.inodes g.fd).write (li * cfg.layerBytes + k) n fun x => cfg.rows li (k + x)) rfl
      fun lj hlj hold => hold.write (hother lj hlj) (by omega) _
    refine h.goTo hd he ⟨hli, hmem, hlayers, by omega, ?_⟩
    intro g' hg'
    obtain rfl := Option.some.inj (hg.symm.trans hg')
    change Written cfg (Function.update s.disk.inodes g.fd _ g.fd) li (k + n)
    rw [Function.update_self]
    exact (hwritten g hg).write n
  next hfull =>
    obtain rfl := Option.some.inj ht
    obtain ⟨hd, he⟩ := h.disk.update (i := g.fd) (f := (s.disk.inodes g.fd).sync) rfl
      fun lj _ hold => hold.sync
    refine h.goTo hd he ⟨hli, hlayers, g, hg, ?_⟩
    change Holds cfg (Function.update s.disk.inodes g.fd _ g.fd) li
    rw [Function.update_self]
    exact (hwritten g hg).holds (Nat.not_lt.mp hfull)

/-- A process that replaces the pack is alone, and nothing was listed. -/
theorem Inv.alone (h : Inv cfg s)
    (hvalid : (sideLayers cfg s.disk.side).isSome → s.disk.validFile cfg = false)
    (hempty : listed cfg s.disk.side = []) : (∀ q, s.handles q = none) ∧ s.added = [] := by
  constructor
  · intro q
    refine Option.eq_none_iff_forall_ne_some.mpr fun g hg => ?_
    obtain ⟨hside, hpack, hsize, -⟩ := h.handles q g hg
    exact Bool.eq_false_iff.mp (hvalid hside) (validFile_iff.mpr ⟨g.fd, hpack, hsize⟩)
  · refine List.eq_nil_iff_forall_not_mem.mpr fun li hli => ?_
    have hlisted := (h.added li hli).sides _ h.disk.side_mem
    exact absurd hlisted (hempty ▸ List.not_mem_nil)

/-- An invariant without stores and added layers is one of the disk and the stage. -/
theorem Inv.of_alone {stage : Stage} (hd : DiskOk cfg s.disk) (hhandles : ∀ q, s.handles q = none)
    (hadded : s.added = []) (hcrit : s.crit = some (pid, stage)) (hstage : stage.Ok cfg s pid) :
    Inv cfg s where
  disk := hd
  handles q _ hg := absurd ((hhandles q).symm.trans hg) (Option.some_ne_none _).symm
  added _ hli := absurd (hadded ▸ hli) List.not_mem_nil
  stage q st hst := by
    obtain ⟨rfl, rfl⟩ := Prod.mk.inj (Option.some.inj (hcrit.symm.trans hst))
    exact hstage

/-- What the constructor does next fits what it has found. -/
theorem ctorNext_ok (cfg : Config) (s : Sys) (pid : ℕ) :
    (ctorNext cfg s.disk).Ok cfg (s.goTo pid s.disk (ctorNext cfg s.disk)) pid := by
  unfold ctorNext
  split
  next hside =>
    intro hsome
    exact absurd (hside ▸ hsome : (none : Option (List ℕ)).isSome) Bool.false_ne_true
  next layers hlayers =>
    split
    next hvalid =>
      refine ⟨hlayers ▸ rfl, hvalid, fun li hli => ?_⟩
      exact listed_of_sideLayers hlayers ▸ hli
    next hvalid => exact fun _ => Bool.eq_false_iff.mpr hvalid

theorem validFile_create {d : Disk} (hd : DiskOk cfg d) (size : ℕ) :
    (d.create size).validFile cfg = d.validFile cfg := by
  simp only [Disk.validFile]
  cases hpack : d.pack with
  | none =>
    have hpack' : (d.create size).pack = none := hpack
    rw [hpack']
    rfl
  | some i =>
    have hpack' : (d.create size).pack = some i := hpack
    rw [hpack', Option.any_some, Option.any_some,
      create_inodes (hd.next i (hpack ▸ hd.pack_mem))]

/-- The end of `add_layer`: the layer is listed whatever happens. -/
theorem Inv.added_synced (h : Inv cfg s) {li : ℕ} {layers : List ℕ} {g : Handle}
    (hg : s.handles pid = some g) (hok : (Stage.addSideSync li layers).Ok cfg s pid) :
    Next cfg s { (s.setHandle pid { g with present := layers }).unlock with
      disk := s.disk.fsyncDir, added := li :: s.added } := by
  obtain ⟨hside, hpack, hsize, -⟩ := h.handles pid g hg
  have he : Extends cfg s.disk s.disk.fsyncDir := .fsyncDir h.disk
  refine ⟨⟨h.disk.fsyncDir, fun q g' hg' => ?_, fun lj hlj => ?_,
    fun _ _ hst => absurd hst (Option.some_ne_none _).symm⟩, fun _ => he.packHasLayer h.disk⟩
  · by_cases hq : q = pid
    · subst hq
      obtain rfl := Option.some.inj ((Function.update_self q _ _).symm.trans hg')
      exact ⟨hside, hpack, hsize, hok.2⟩
    · exact (h.handles q g' ((Function.update_of_ne hq _ _).symm.trans hg')).extends h.disk he
  · rcases List.mem_cons.mp hlj with rfl | hlj
    · exact ⟨fun x hx => List.mem_singleton.mp hx ▸ hok.2 _ hok.1,
        fun p hp => ⟨g.fd, (List.mem_singleton.mp hp).trans hpack, hsize⟩⟩
    · exact (h.added lj hlj).extends h.disk he

/-- The step lemma of the process with the lock. -/
theorem Inv.go (h : Inv cfg s) {stage : Stage} (hc : s.crit = some (pid, stage))
    (hno : NoOldManifest cfg s (.go n)) (ht : s.go cfg n pid stage = some t) : Next cfg s t := by
  have hok := h.stage pid stage hc
  cases stage with
  | ctorCheck =>
    obtain rfl := Option.some.inj ht
    exact h.goTo h.disk (.refl cfg _) (ctorNext_ok cfg _ pid)
  | ctorTemp =>
    obtain rfl := Option.some.inj ht
    refine h.goTo (h.disk.create _) (.create h.disk _) ⟨?_, Nat.lt_succ_self _, ?_⟩
    · intro hside
      exact (validFile_create h.disk _).trans (hok hside)
    · exact congrArg Inode.size (Function.update_self s.disk.next _ s.disk.inodes)
  | ctorReplace i =>
    obtain rfl := Option.some.inj ht
    -- a pack is replaced only where no manifest lists a layer of it
    have hempty : listed cfg s.disk.side = [] := hno (by simp only [replaces, hc])
    obtain ⟨hvalid, hi, hsize⟩ := hok
    obtain ⟨hhandles, hadded⟩ := h.alone hvalid hempty
    refine ⟨.of_alone (h.disk.replacePack hi hvalid hempty) hhandles hadded rfl
      ⟨hhandles, hadded, hempty, validFile_iff.mpr ⟨i, rfl, hsize⟩⟩, fun li hli => ?_⟩
    exact absurd (packHasLayer_iff.mp hli).1 (hempty ▸ List.not_mem_nil)
  | ctorSync =>
    obtain rfl := Option.some.inj ht
    obtain ⟨hhandles, hadded, hempty, hvalid⟩ := hok
    exact h.goTo h.disk.fsyncDir (.fsyncDir h.disk) ⟨hhandles, hadded, hempty, hvalid, rfl⟩
  | ctorSide =>
    obtain rfl := Option.some.inj ht
    obtain ⟨hhandles, hadded, hempty, hvalid, hpacks⟩ := hok
    refine ⟨.of_alone (h.disk.firstSide hpacks hempty) hhandles hadded rfl ⟨rfl, hvalid⟩,
      fun li hli => ?_⟩
    exact absurd (packHasLayer_iff.mp hli).1 (hempty ▸ List.not_mem_nil)
  | ctorSideSync =>
    obtain rfl := Option.some.inj ht
    exact h.goTo h.disk.fsyncDir (.fsyncDir h.disk)
      ⟨hok.1, hok.2, fun li hli => absurd hli List.not_mem_nil⟩
  | ctorOpen layers =>
    obtain rfl := Option.some.inj ht
    exact h.open hok
  | addCheck li =>
    obtain ⟨g, hg, rfl⟩ := Option.map_eq_some_iff.mp ht
    exact h.addCheck hok hg
  | addWrite li layers k =>
    obtain ⟨g, hg, ht⟩ := Option.bind_eq_some_iff.mp ht
    exact h.addWrite hok hg ht
  | addSide li layers =>
    obtain rfl := Option.some.inj ht
    obtain ⟨hli, hlayers, g, hg, hrows⟩ := hok
    obtain ⟨hd, he, hlisted⟩ := h.disk.nextSide hlayers hli (h.handles pid g hg).pack hrows
    exact h.goTo hd he ⟨mem_withLayer.mpr (.inr rfl), hlisted⟩
  | addSideSync li layers =>
    obtain ⟨g, hg, rfl⟩ := Option.map_eq_some_iff.mp ht
    exact h.added_synced hg hok

theorem handle_of_crash {handles : ℕ → Option Handle} {q q' : ℕ} {g : Handle}
    (hg : Function.update handles q none q' = some g) : handles q' = some g := by
  by_cases hq : q' = q
  · subst hq
    exact absurd ((Function.update_self q' none handles).symm.trans hg)
      (Option.some_ne_none _).symm
  · exact (Function.update_of_ne hq none handles).symm.trans hg

/-- The death of another process is nothing to the one with the lock. -/
theorem Stage.Ok.crash {stage : Stage} {q : ℕ} {crit : Option (ℕ × Stage)}
    (hok : stage.Ok cfg s pid) (hne : pid ≠ q) :
    stage.Ok cfg { s with handles := Function.update s.handles q none, crit := crit } pid := by
  have hnone : (∀ q', s.handles q' = none) → ∀ q', Function.update s.handles q none q' = none := by
    intro h q'
    refine Option.eq_none_iff_forall_ne_some.mpr fun g hg => ?_
    exact absurd ((h q').symm.trans (handle_of_crash hg)) (Option.some_ne_none _).symm
  cases stage with
  | ctorCheck | ctorTemp | ctorReplace | ctorSideSync | ctorOpen | addCheck | addSideSync =>
    exact hok
  | ctorSync => exact ⟨hnone hok.1, hok.2⟩
  | ctorSide => exact ⟨hnone hok.1, hok.2⟩
  | addWrite li layers k =>
    obtain ⟨hli, hmem, hlayers, hk, hwritten⟩ := hok
    exact ⟨hli, hmem, hlayers, hk, fun g hg => hwritten g (handle_of_crash hg)⟩
  | addSide li layers =>
    obtain ⟨hli, hlayers, g, hg, hrows⟩ := hok
    exact ⟨hli, hlayers, g, (Function.update_of_ne hne none s.handles).trans hg, hrows⟩

/-- The step lemma. Only the loss of power can take a layer from the list. -/
theorem Inv.step {a : Act} (h : Inv cfg s) (hno : NoOldManifest cfg s a)
    (ht : SharedPack.step cfg s a = some t) :
    Inv cfg t ∧ ((∀ p x keep, a ≠ .powerLoss p x keep) → Next cfg s t) := by
  cases a with
  | construct q =>
    obtain ⟨-, ht⟩ := Option.ite_none_right_eq_some.mp ht
    obtain rfl := Option.some.inj ht
    have hnext : Next cfg s (s.goTo q s.disk .ctorCheck) := h.goTo h.disk (.refl cfg _) trivial
    exact ⟨hnext.inv, fun _ => hnext⟩
  | add q li =>
    obtain ⟨⟨-, -, hli⟩, ht⟩ := Option.ite_none_right_eq_some.mp ht
    obtain rfl := Option.some.inj ht
    have hnext : Next cfg s (s.goTo q s.disk (.addCheck li)) := h.goTo h.disk (.refl cfg _) hli
    exact ⟨hnext.inv, fun _ => hnext⟩
  | go n =>
    obtain ⟨⟨q, stage⟩, hc, ht⟩ := Option.bind_eq_some_iff.mp ht
    have hnext := h.go hc hno ht
    exact ⟨hnext.inv, fun _ => hnext⟩
  | crash q =>
    obtain rfl := Option.some.inj ht
    have hinv : Inv cfg { s with
        handles := Function.update s.handles q none
        crit := if s.crit.any (fun c => c.1 = q) then none else s.crit } := by
      refine ⟨h.disk, fun q' g hg => h.handles q' g (handle_of_crash hg), h.added,
        fun q' stage hst => ?_⟩
      obtain ⟨hne, hc⟩ := Option.ite_none_left_eq_some.mp hst
      refine (h.stage q' stage hc).crash fun heq => hne ?_
      rw [hc, Option.any_some, decide_eq_true_iff]
      exact heq
    exact ⟨hinv, fun _ => ⟨hinv, fun _ hli => hli⟩⟩
  | powerLoss p x keep =>
    obtain ⟨⟨hp, hx⟩, ht⟩ := Option.ite_none_right_eq_some.mp ht
    obtain rfl := Option.some.inj ht
    rw [List.contains_iff_mem] at hp hx
    refine ⟨⟨h.disk.afterLoss hp hx keep, fun _ _ hg => absurd hg (Option.some_ne_none _).symm,
      fun li hli => (h.added li hli).afterLoss hp hx keep,
      fun _ _ hst => absurd hst (Option.some_ne_none _).symm⟩, fun hne => ?_⟩
    exact absurd rfl (hne p x keep)

/-- **The invariant holds in every run** whose packs are replaced only without a manifest. -/
theorem inv_invariant (cfg : Config) :
    ((pack cfg).onlySteps (NoOldManifest cfg)).Invariant (Inv cfg) where
  start _ h := .start h
  step _ _ _ _ h ht := (h.step ht.1 ht.2).1

/-! ### Listed layers are there -/

/-- What the probe answers true for is in the pack. -/
theorem Inv.holds (h : Inv cfg s) {li : ℕ} (hli : packHasLayer cfg s.disk li = true) :
    ∃ i, s.disk.pack = some i ∧ Holds cfg (s.disk.inodes i) li := by
  obtain ⟨hlisted, hvalid⟩ := packHasLayer_iff.mp hli
  obtain ⟨i, hpack, hsize⟩ := validFile_iff.mp hvalid
  exact ⟨i, hpack, h.disk.rows i (hpack ▸ h.disk.pack_mem) hsize li hlisted⟩

/-- **A layer that is listed is really there**, in every run in which no new file is put under a
sidecar that lists layers: the pack has its rows, on the medium too; every open store has the file
that the name has, with the rows of the layers it takes to be there; what was added is listed
whatever happens, and what is listed stays so but for the loss of power. -/
theorem listed_is_there (cfg : Config) (s : Sys)
    (hs : ((pack cfg).onlySteps (NoOldManifest cfg)).Reachable s) :
    (∀ li, packHasLayer cfg s.disk li = true →
      ∃ i, s.disk.pack = some i ∧ Holds cfg (s.disk.inodes i) li) ∧
    (∀ pid h, s.handles pid = some h → s.disk.pack = some h.fd ∧
      ∀ li ∈ h.present, Holds cfg (s.disk.inodes h.fd) li) ∧
    (∀ li ∈ s.added, packHasLayer cfg s.disk li = true) ∧
    ∀ a t, NoOldManifest cfg s a → step cfg s a = some t → (∀ p x keep, a ≠ .powerLoss p x keep) →
      ∀ li, packHasLayer cfg s.disk li = true → packHasLayer cfg t.disk li = true := by
  have hinv := (inv_invariant cfg).holds hs
  refine ⟨fun li => hinv.holds, fun pid h hh => ?_, fun li hli => ?_,
    fun a t hno ht hne => ((hinv.step hno ht).2 hne).keeps⟩
  · obtain ⟨-, hpack, hsize, hpresent⟩ := hinv.handles pid h hh
    exact ⟨hpack, fun li hli => hinv.disk.rows h.fd (hpack ▸ hinv.disk.pack_mem) hsize li
      (hpresent li hli)⟩
  · obtain ⟨hsides, hpacks⟩ := hinv.added li hli
    exact packHasLayer_iff.mpr ⟨hsides _ hinv.disk.side_mem,
      validFile_iff.mpr (hpacks _ hinv.disk.pack_mem)⟩

end Run

/-! ### A run -/

section Example

/-- A pack of one layer of one byte. -/
def tinyPack : Config := ⟨1, 1, fun _ _ => 5⟩

/-- No process, and no pack. -/
def noPack (side : Option SideFile) : Sys where
  disk := ⟨fun _ => ⟨0, fun _ => 0, fun _ => 0⟩, 0, none, side, [none], [side]⟩
  crit := none
  handles _ := none
  added := []

theorem start_noPack (side : Option SideFile) : Start tinyPack (noPack side) where
  crit := rfl
  handles _ := rfl
  added := rfl
  packs := rfl
  sides := rfl
  next _ h := absurd h (Option.some_ne_none _).symm
  rows _ h := absurd h (Option.some_ne_none _).symm

/-- A store is built, and the layer is added. -/
theorem listed_is_there_tiny : ∃ s i,
    ((pack tinyPack).onlySteps (NoOldManifest tinyPack)).Reachable s ∧
    s.disk.pack = some i ∧ Holds tinyPack (s.disk.inodes i) 0 := by
  obtain ⟨s, hs, hlist⟩ := TransitionSystem.exists_reachable_of_replay (step tinyPack)
    (NoOldManifest tinyPack) (start_noPack none)
    [.construct 7, .go 0, .go 0, .go 0, .go 0, .go 0, .go 0, .go 0, .add 7 0, .go 0, .go 1, .go 0,
      .go 0, .go 0]
    (fun s => packHasLayer tinyPack s.disk 0) (by decide)
  obtain ⟨i, hpack, hrows⟩ := (listed_is_there tinyPack s hs).1 0 hlist
  exact ⟨s, i, hs, hpack, hrows⟩

/-- The pack was removed, its sidecar not: the constructor dies between the two files. -/
theorem empty_pack_listed : ∃ s, (pack tinyPack).Reachable s ∧ s.crit = none ∧
    packHasLayer tinyPack s.disk 0 = true ∧
    ¬ ∃ i, s.disk.pack = some i ∧ Holds tinyPack (s.disk.inodes i) 0 := by
  obtain ⟨s, hs, hP⟩ := TransitionSystem.exists_reachable_of_run (step tinyPack)
    (start_noPack (some (.manifest ⟨true, [0]⟩)))
    [.construct 7, .go 0, .go 0, .go 0, .crash 7]
    (fun s => s.crit.isNone && (packHasLayer tinyPack s.disk 0 &&
      s.disk.pack.all fun i => (s.disk.inodes i).cached 0 == 0)) (by decide)
  simp only [Bool.and_eq_true, Option.isNone_iff_eq_none] at hP
  obtain ⟨hcrit, hlist, hzero⟩ := hP
  refine ⟨s, hs, hcrit, hlist, ?_⟩
  rintro ⟨i, hpack, hrows⟩
  rw [hpack, Option.all_some, beq_iff_eq] at hzero
  have hbyte : (s.disk.inodes i).cached 0 = 5 := (hrows 0 (by decide)).1
  exact absurd (hzero.symm.trans hbyte) (by decide)

end Example

end SharedPack

end VllmMoet
