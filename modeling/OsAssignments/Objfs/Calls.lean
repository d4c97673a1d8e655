import OsAssignments.Library.Directory
import OsAssignments.Library.Traces
import OsAssignments.Objstore.LastWrites
import OsAssignments.Objstore.Names
import OsAssignments.Objstore.Sizes

/-!
# The file system over the object store

The functions of `objfs.c` that are in its table `objfs_operations`, over the store of `objstore.c`.
`Op.run` is a call of the kernel on a mounted store; an unmount followed by a mount of either build
is a call too. `Op.spec` is the same call on `View`, a directory of files with the number of blocks
that were taken: a file has what was written at each block index, and the number of bytes written.

`Op.Allowed` is how the store expects to be used. Names are short, and new ones are in use nowhere;
reads and writes are through handles of files in use, at multiples of the block size; a write brings
at most one block, after the first block of its range, while there is space; and what is read was
written. Only a file that was never written is removed: `destroy_object` clears bits that are not
those of the object.
-/

set_option autoImplicit false
set_option relaxedAutoImplicit false

namespace OsAssignments.Objfs

open Library Objstore

/-! ### The functions -/

/-- `objfs_getattr`, for the path of a name; the root directory is the empty name. -/
def objfsGetattr (defFstat defDirstat : Stat) (name : Key) (s : Store) : (ℤ × Stat) × Store :=
  if name.chars = [] then ((0, { defDirstat with ino := 1 }), s)
  else
    let r := findObjectId name s
    let retval := Int.bmod r.1 (2 ^ 32)
    if retval < 0 then ((-2, defFstat), r.2)
    else
      let filled := fillupSizeDetails { defFstat with ino := retval } r.2
      ((if filled.1 < 0 then -9 else 0, filled.2), r.2)

/-- `objfs_unlink` returns 0 whatever `destroy_object` says. -/
def objfsUnlink (name : Key) (s : Store) : Outcome ℤ :=
  (destroyObject name s).map fun r ↦ (0, r.2)

/-- `objfs_rename_key`; `ctr` is the value that `rename_object` finds in its counter. -/
def objfsRenameKey (oldkey newkey : Key) (ctr : BitVec 32) (s : Store) : Outcome ℤ :=
  (renameObject oldkey newkey ctr s).map fun r ↦ (if r.1 < 0 then -22 else 0, r.2)

/-- `objfs_create`: the result and `fi->fh`, if it is set. -/
def objfsCreate (name : Key) (s : Store) : (ℤ × Option ℤ) × Store :=
  let r := createObject name s
  if r.1 < 0 then ((-17, none), r.2) else ((0, some r.1), r.2)

/-- `objfs_open`: the result and `fi->fh`, if it is set. -/
def objfsOpen (name : Key) (s : Store) : (ℤ × Option ℤ) × Store :=
  let r := findObjectId name s
  let retval := Int.bmod r.1 (2 ^ 32)
  if retval < 0 then ((-2, none), r.2) else ((0, some retval), r.2)

/-- `objfs_read`: the result and the bytes read. The handle and the result are narrowed to `int`. -/
def objfsRead (bld : Build) (fh : ℤ) (size : ℕ) (offset : ℤ) (s : Store) :
    Outcome (ℤ × List UInt8) :=
  (objstoreRead bld (Int.bmod fh (2 ^ 32)) size offset s).map fun r ↦
    let retval := Int.bmod r.1.1 (2 ^ 32)
    ((if retval < 0 then -22 else retval, r.1.2), r.2)

/-- `objfs_write`. -/
def objfsWrite (bld : Build) (fh : ℤ) (buf : List UInt8) (offset : ℤ) (s : Store) : Outcome ℤ :=
  (objstoreWrite bld (Int.bmod fh (2 ^ 32)) buf offset s).map fun r ↦
    let retval := Int.bmod r.1 (2 ^ 32)
    (if retval < 0 then -22 else retval, r.2)

/-- `objfs_release`; `release_object` does nothing. -/
def objfsRelease : ℤ := -22

/-! ### Calls on the store -/

/-- The calls of the kernel, and an unmount with a mount of a build. -/
inductive Op
  | objfsGetattr (name : Key)
  | objfsUnlink (name : Key)
  | objfsRenameKey (oldkey newkey : Key) (ctr : BitVec 32)
  | objfsCreate (name : Key)
  | objfsOpen (name : Key)
  | objfsRead (fh : ℤ) (size offset : ℕ)
  | objfsWrite (fh : ℤ) (buf : List UInt8) (offset : ℕ)
  | objfsRelease (fh : ℤ)
  | remount (bld : Build)

/-- What a call returns. -/
inductive Reply
  | status (v : ℤ)
  | attr (v : ℤ) (buf : Stat)
  | handle (v : ℤ) (fh : Option ℤ)
  | data (v : ℤ) (out : List UInt8)

/-- A mounted store. -/
structure Session where
  build : Build
  store : Store

/-- The session after a mount. -/
def Session.start (bld : Build) (d : Device) : Session := ⟨bld, objstoreInit d⟩

/-- A call on a session. -/
def Op.run (defFstat defDirstat : Stat) : Op → Session → Except Fault (Reply × Session)
  | .objfsGetattr name, s =>
    let r := Objfs.objfsGetattr defFstat defDirstat name s.store
    .ok (.attr r.1.1 r.1.2, ⟨s.build, r.2⟩)
  | .objfsUnlink name, s =>
    (Objfs.objfsUnlink name s.store).map fun r ↦ (.status r.1, ⟨s.build, r.2⟩)
  | .objfsRenameKey oldkey newkey ctr, s =>
    (Objfs.objfsRenameKey oldkey newkey ctr s.store).map fun r ↦ (.status r.1, ⟨s.build, r.2⟩)
  | .objfsCreate name, s =>
    let r := Objfs.objfsCreate name s.store
    .ok (.handle r.1.1 r.1.2, ⟨s.build, r.2⟩)
  | .objfsOpen name, s =>
    let r := Objfs.objfsOpen name s.store
    .ok (.handle r.1.1 r.1.2, ⟨s.build, r.2⟩)
  | .objfsRead fh size offset, s =>
    (Objfs.objfsRead s.build fh size offset s.store).map fun r ↦
      (.data r.1.1 r.1.2, ⟨s.build, r.2⟩)
  | .objfsWrite fh buf offset, s =>
    (Objfs.objfsWrite s.build fh buf offset s.store).map fun r ↦ (.status r.1, ⟨s.build, r.2⟩)
  | .objfsRelease _, s => .ok (.status Objfs.objfsRelease, s)
  | .remount bld, s => .ok (.status 0, ⟨bld, Objstore.remount s.store⟩)

/-! ### Files -/

/-- What was written at each block index, and the number of bytes written. -/
structure File where
  blocks : ℕ → Option (List UInt8)
  size : ℕ

namespace File

/-- A new file. -/
def empty : File := ⟨fun _ ↦ none, 0⟩

/-- A write at a block index. At the first index of a range it replaces the indirect block. -/
def write (v : File) (a : ℕ) (buf : List UInt8) : File where
  blocks a' := if a' = a then some buf else if Drops a a' then none else v.blocks a'
  size := v.size + buf.length

/-- The bytes of a range, with zeros where nothing was written. -/
def read (v : File) (size offset : ℕ) : List UInt8 :=
  (List.range size).map fun p ↦
    ((v.blocks ((offset + p) / 4096)).getD []).getD ((offset + p) % 4096) 0

/-- The range of a block index has its first block, unless this is the one. -/
def Reaches (v : File) (a : ℕ) : Prop :=
  ∀ (r : Fin 4) (i : ℕ), 0 < i → i < 1024 → a = 4 + 1024 * r + i → v.blocks (4 + 1024 * r) ≠ none

/-- The block indices of a range were written. -/
def Covers (v : File) (size offset : ℕ) : Prop :=
  ∀ i < (size + 4095) / 4096, v.blocks (offset / 4096 + i) ≠ none

end File

/-- The files, an entry for each slot. -/
abbrev Files := Directory 1015808 Key File

/-- The files, and the number of blocks that were taken for them. -/
structure View where
  files : Files
  used : ℕ

/-- The view of a disk that was never used. -/
def View.start : View := ⟨⟨fun _ ↦ .empty, fun _ ↦ none⟩, 0⟩

/-- The id of an entry, which is its handle. -/
def handle (k : Fin 1015808) : ℤ := (k : ℕ) + 2

/-- What `open` and `create` return for an entry. -/
def handleReply (error : ℤ) (r : Option (Fin 1015808)) : Reply :=
  r.elim (.handle error none) fun k ↦ .handle 0 (some (handle k))

/-- The numbers of an entry. -/
def statReply (defFstat : Stat) (d : Files) (r : Option (Fin 1015808)) : Reply :=
  r.elim (.attr (-2) defFstat) fun k ↦
    let size : ℤ := ((d.value k).getD File.empty).size
    .attr 0 { defFstat with ino := handle k, size := size, blocks := statBlocks size }

namespace Op

/-- A call on the files. -/
def spec (defFstat defDirstat : Stat) : Op → View → Reply → View → Prop
  | objfsGetattr name, d, reply, d' =>
    d' = d ∧ reply = if name.chars = [] then .attr 0 { defDirstat with ino := 1 }
      else statReply defFstat d.files (d.files.lookup name)
  | objfsUnlink name, d, reply, d' =>
    reply = .status 0 ∧
      d' = ⟨(d.files.lookup name).elim d.files fun k ↦ d.files.assign k none, d.used⟩
  | objfsRenameKey oldkey newkey _, d, reply, d' =>
    reply = .status 0 ∧
      d' = ⟨(d.files.lookup oldkey).elim d.files fun k ↦ d.files.rename k newkey, d.used⟩
  | objfsCreate name, d, reply, d' =>
    reply = handleReply (-17) d.files.firstFree ∧
      d' = ⟨d.files.firstFree.elim d.files fun k ↦ d.files.occupy k name .empty, d.used⟩
  | objfsOpen name, d, reply, d' => d' = d ∧ reply = handleReply (-2) (d.files.lookup name)
  | objfsRead fh size offset, d, reply, d' =>
    d' = d ∧ ∃ k v, fh = handle k ∧ d.files.value k = some v ∧
      reply = .data size (v.read size offset)
  | objfsWrite fh buf offset, d, reply, d' =>
    reply = .status buf.length ∧ ∃ k v, fh = handle k ∧ d.files.value k = some v ∧
      d' = ⟨d.files.assign k (some (v.write (offset / 4096) buf)),
        d.used + blocksNeeded (offset / 4096)⟩
  | objfsRelease _, d, reply, d' => d' = d ∧ reply = .status (-22)
  | remount _, d, reply, d' => d' = d ∧ reply = .status 0

/-- How the store expects to be used. -/
def Allowed : Op → View → Prop
  | objfsUnlink name, d =>
    ∃ k v, d.files.lookup name = some k ∧ d.files.value k = some v ∧ v.size = 0
  | objfsRenameKey oldkey newkey ctr, d =>
    ctr = 0 ∧ (∃ k, d.files.lookup oldkey = some k) ∧ newkey.Short ∧ ∀ k, ¬ d.files.Has k newkey
  | objfsCreate name, d => name.Short ∧ ∀ k, ¬ d.files.Has k name
  | objfsRead fh size offset, d =>
    ∃ k v, fh = handle k ∧ d.files.value k = some v ∧ offset % 4096 = 0 ∧
      offset + size ≤ 4096 * 4100 ∧ v.Covers size offset
  | objfsWrite fh buf offset, d =>
    ∃ k v, fh = handle k ∧ d.files.value k = some v ∧ offset % 4096 = 0 ∧ offset / 4096 < 4100 ∧
      1 ≤ buf.length ∧ buf.length ≤ 4096 ∧ v.Reaches (offset / 4096) ∧
      d.used + blocksNeeded (offset / 4096) ≤ 8388608
  | _, _ => True

end Op

end OsAssignments.Objfs
