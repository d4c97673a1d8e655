import OsAssignments.Library.Traces
import OsAssignments.Example.Transfers

/-!
# The file system of the example

The functions of `example/objfs.c` that are in its table `objfs_operations`, and what they do to a
directory of files: `Op.run` is a call on the store, `Op.spec` is the same call on `View`, the
directory with the handles given out so far. An unmount followed by a mount of either build is a
call too.

`simulates_spec` is the refinement, one lemma for each call: from a store that stands for a
directory an allowed call is answered as the directory says, and the store it leaves stands for the
directory that follows. What holds for lists of calls is in `Example.Files`.
-/

set_option autoImplicit false
set_option relaxedAutoImplicit false

namespace OsAssignments.Example

open Library
open Objstore (Block Build Fault Key Stat statBlocks)

/-! ### The functions -/

/-- `objfs_getattr`, for the path of a name; the root directory is the empty name. -/
def objfsGetattr (defFstat defDirstat : Stat) (name : Key) (s : Store) : Except Fault (ℤ × Stat) :=
  if name.chars = [] then .ok (0, { defDirstat with ino := 1 })
  else
    let retval := Int.bmod (findObjectId name s) (2 ^ 32)
    if retval < 0 then .ok (-2, defFstat)
    else (fillupSizeDetails { defFstat with ino := retval } s).map fun r ↦
      (if r.1 < 0 then -9 else 0, r.2)

/-- `objfs_unlink`. -/
def objfsUnlink (bld : Build) (name : Key) (s : Store) : ℤ × Store :=
  (0, (destroyObject bld name s).2)

/-- `objfs_create`: the result and `fi->fh`, if it is set. -/
def objfsCreate (bld : Build) (name : Key) (s : Store) : (ℤ × Option ℤ) × Store :=
  let r := createObject bld name s
  if r.1 < 0 then ((-17, none), r.2) else ((0, some r.1), r.2)

/-- `objfs_open`: the result and `fi->fh`, if it is set. -/
def objfsOpen (name : Key) (s : Store) : ℤ × Option ℤ :=
  let retval := Int.bmod (findObjectId name s) (2 ^ 32)
  if retval < 0 then (-2, none) else (0, some retval)

/-- `objfs_read`: the result and the bytes read. The handle and the result are narrowed to `int`. -/
def objfsRead (bld : Build) (fh : ℤ) (size : ℕ) (s : Store) :
    Except Fault ((ℤ × List UInt8) × Store) :=
  (objstoreRead bld (Int.bmod fh (2 ^ 32)) size s).map fun r ↦
    let retval := Int.bmod r.1.1 (2 ^ 32)
    ((if retval < 0 then -22 else retval, r.1.2), r.2)

/-- `objfs_write`. -/
def objfsWrite (bld : Build) (fh : ℤ) (buf : List UInt8) (s : Store) : Except Fault (ℤ × Store) :=
  (objstoreWrite bld (Int.bmod fh (2 ^ 32)) buf s).map fun r ↦
    let retval := Int.bmod r.1 (2 ^ 32)
    (if retval < 0 then -22 else retval, r.2)

/-- `objfs_release`; `release_object` does nothing. -/
def objfsRelease : ℤ := -22

/-! ### Calls on the store and on the files -/

/-- The calls of the kernel, and an unmount with a mount of a build. -/
inductive Op
  | objfsGetattr (name : Key)
  | objfsUnlink (name : Key)
  | objfsCreate (name : Key)
  | objfsOpen (name : Key)
  | objfsRead (fh : ℤ) (size : ℕ)
  | objfsWrite (fh : ℤ) (buf : List UInt8)
  | objfsRelease (fh : ℤ)
  | remount (bld : Build)

/-- What a call returns. -/
inductive Reply
  | status (v : ℤ)
  | attr (v : ℤ) (buf : Stat)
  | handle (v : ℤ) (fh : Option ℤ)
  | data (v : ℤ) (out : List UInt8)

/-- A mounted store. -/
structure Session where
  build : Build
  store : Store

/-- The files, and the handles that were given out. -/
structure View where
  files : Files
  handles : List ℤ

/-- The session after a mount. -/
def Session.start (bld : Build) (disk : ℕ → Block) : Session := ⟨bld, objstoreInit bld disk⟩

/-- The view of a disk that was never used. -/
def View.start : View := ⟨blank, []⟩

/-- What `open` and `create` return for an entry. -/
def handleReply (error : ℤ) : Option (Fin 16) → Reply
  | none => .handle error none
  | some k => .handle 0 (some ((k : ℕ) + 2))

/-- The numbers of an entry. -/
def statOf (defFstat : Stat) (d : Files) : Option (Fin 16) → Reply
  | none => .attr (-2) defFstat
  | some k =>
    let size : ℤ := ((d.value k).getD []).length
    .attr 0 { defFstat with ino := (k : ℕ) + 2, size := size, blocks := statBlocks size }

namespace Op

variable (defFstat defDirstat : Stat)

/-- A call on a session. -/
def run : Op → Session → Except Fault (Reply × Session)
  | objfsGetattr name, s =>
    (Example.objfsGetattr defFstat defDirstat name s.store).map fun r ↦ (.attr r.1 r.2, s)
  | objfsUnlink name, s =>
    .ok (.status (Example.objfsUnlink s.build name s.store).1,
      ⟨s.build, (Example.objfsUnlink s.build name s.store).2⟩)
  | objfsCreate name, s =>
    let r := Example.objfsCreate s.build name s.store
    .ok (.handle r.1.1 r.1.2, ⟨s.build, r.2⟩)
  | objfsOpen name, s =>
    let r := Example.objfsOpen name s.store
    .ok (.handle r.1 r.2, s)
  | objfsRead fh size, s =>
    (Example.objfsRead s.build fh size s.store).map fun r ↦ (.data r.1.1 r.1.2, ⟨s.build, r.2⟩)
  | objfsWrite fh buf, s =>
    (Example.objfsWrite s.build fh buf s.store).map fun r ↦ (.status r.1, ⟨s.build, r.2⟩)
  | objfsRelease _, s => .ok (.status Example.objfsRelease, s)
  | remount bld, s => .ok (.status 0, .start bld (objstoreDestroy s.build s.store))

/-- A call on the files. Of a read beyond the content only the length and the content are said. -/
def spec : Op → View → Reply → View → Prop
  | objfsGetattr name, d, reply, d' =>
    d' = d ∧ reply = if name.chars = [] then .attr 0 { defDirstat with ino := 1 }
      else statOf defFstat d.files (d.files.lookup name)
  | objfsUnlink name, d, reply, d' =>
    reply = .status 0 ∧
      d' = ⟨(d.files.lookup name).elim d.files fun k ↦ d.files.assign k none, d.handles⟩
  | objfsCreate name, d, reply, d' =>
    reply = handleReply (-17) (create d.files name).1 ∧
      d' = ⟨(create d.files name).2,
        (create d.files name).1.elim d.handles fun k ↦ ((k : ℕ) + 2) :: d.handles⟩
  | objfsOpen name, d, reply, d' =>
    reply = handleReply (-2) (d.files.lookup name) ∧
      d' = ⟨d.files, (d.files.lookup name).elim d.handles fun k ↦ ((k : ℕ) + 2) :: d.handles⟩
  | objfsRead fh size, d, reply, d' =>
    d' = d ∧ ∃ k : Fin 16, fh = (k : ℕ) + 2 ∧
      match d.files.value k with
      | none => reply = .data (-22) []
      | some v => ∃ out, reply = .data size out ∧ Reads v size out
  | objfsWrite fh buf, d, reply, d' =>
    ∃ k : Fin 16, fh = (k : ℕ) + 2 ∧ d' = ⟨(write d.files k buf).2, d.handles⟩ ∧
      reply = .status (if (write d.files k buf).1 < 0 then -22 else (write d.files k buf).1)
  | objfsRelease _, d, reply, d' => d' = d ∧ reply = .status (-22)
  | remount _, d, reply, d' => d' = d ∧ reply = .status 0

/-- What the kernel promises: names fit, and handles were given out. -/
def Allowed : Op → View → Prop
  | objfsCreate name, _ => Fits name
  | objfsRead fh size, d => fh ∈ d.handles ∧ size ≤ 4096
  | objfsWrite fh buf, d => fh ∈ d.handles ∧ buf.length < 2 ^ 31
  | _, _ => True

end Op

/-- The session stands for the files, and handles lead to entries. -/
structure Shows (s : Session) (d : View) : Prop where
  files : Represents s.build s.store d.files
  handles : ∀ fh ∈ d.handles, ∃ k : Fin 16, fh = (k : ℕ) + 2

variable {defFstat defDirstat : Stat} {s : Session} {d : View} {k : Fin 16} {name : Key}

/-- A handle of an entry is an `int`. -/
theorem bmod_handle (k : Fin 16) : Int.bmod (((k : ℕ) : ℤ) + 2) (2 ^ 32) = (k : ℕ) + 2 := by
  have hk := k.isLt
  exact Objstore.wrap_of_range (by omega) (by omega)

theorem bmod_handle' (r : Option (Fin 16)) : Int.bmod (handle r) (2 ^ 32) = handle r := by
  cases r with
  | none => rfl
  | some k => exact bmod_handle k

theorem Shows.more (h : Shows s d) (r : Option (Fin 16)) :
    ∀ fh ∈ r.elim d.handles fun k ↦ ((k : ℕ) + 2 : ℤ) :: d.handles,
      ∃ k : Fin 16, fh = (k : ℕ) + 2 := by
  cases r with
  | none => exact h.handles
  | some k =>
    intro fh hfh
    rcases List.mem_cons.mp hfh with rfl | hold
    · exact ⟨k, rfl⟩
    · exact h.handles fh hold

theorem objfsOpen_eq (h : Represents s.build s.store d.files) (name : Key) :
    Reply.handle (objfsOpen name s.store).1 (objfsOpen name s.store).2 =
      handleReply (-2) (d.files.lookup name) := by
  rw [objfsOpen, findObjectId_eq h, bmod_handle']
  cases d.files.lookup name with
  | none => rfl
  | some k =>
    have hpos : ¬ handle (some k) < 0 := by
      rw [handle]
      omega
    rw [if_neg hpos]
    rfl

variable (defFstat defDirstat) in
theorem objfsGetattr_eq (h : Represents s.build s.store d.files) (name : Key) :
    ∃ r, objfsGetattr defFstat defDirstat name s.store = .ok r ∧ Reply.attr r.1 r.2 =
      if name.chars = [] then .attr 0 { defDirstat with ino := 1 }
      else statOf defFstat d.files (d.files.lookup name) := by
  rw [objfsGetattr]
  split_ifs with hroot
  · exact ⟨_, rfl, rfl⟩
  · dsimp only
    rw [findObjectId_eq h, bmod_handle']
    cases hlookup : d.files.lookup name with
    | none => exact ⟨(-2, defFstat), if_pos (by rw [handle]; norm_num), rfl⟩
    | some k =>
      obtain ⟨v, hv⟩ := Option.ne_none_iff_exists'.mp (Directory.lookup_eq_some_iff.mp hlookup).1.1
      have hlive := h.live k v hv
      have hmod : ((k : ℕ) + 2 : ℤ) % 2 ^ 64 = (k : ℕ) + 2 := by omega
      have hfill : fillupSizeDetails { defFstat with ino := handle (some k) } s.store =
          .ok (0, { defFstat with
            ino := (k : ℕ) + 2, size := v.length, blocks := statBlocks v.length }) := by
        rw [fillupSizeDetails, handle, if_neg (by dsimp only; omega)]
        dsimp only
        rw [record_handle k.isLt]
        dsimp only
        rw [hlive.id, hmod, if_neg (not_not.mpr rfl), hlive.size]
      rw [if_neg (by rw [handle]; omega), hfill]
      refine ⟨_, rfl, ?_⟩
      rw [statOf, hv]
      rfl

/-! ### One call -/

theorem answered_getattr (h : Shows s d) (name : Key) : ∃ reply,
    (Op.objfsGetattr name).run defFstat defDirstat s = .ok (reply, s) ∧
      (Op.objfsGetattr name).spec defFstat defDirstat d reply d := by
  obtain ⟨r, hrun, hreply⟩ := objfsGetattr_eq defFstat defDirstat h.files name
  refine ⟨_, ?_, rfl, hreply⟩
  rw [Op.run, hrun]
  rfl

/-- `objfs_create` turns the failure of `create_object` into its error. -/
theorem objfsCreate_eq (h : Represents s.build s.store d.files) (hname : Fits name) :
    ∃ r t, objfsCreate s.build name s.store = (r, t) ∧
      Reply.handle r.1 r.2 = handleReply (-17) (create d.files name).1 ∧
      Represents s.build t (create d.files name).2 := by
  obtain ⟨t, hcreate, hrep⟩ := represents_create h hname
  rw [objfsCreate, hcreate]
  cases (create d.files name).1 with
  | none => exact ⟨(-17, none), t, rfl, rfl, hrep⟩
  | some k =>
    have hpos : ¬ handle (some k) < 0 := by
      rw [handle]
      omega
    rw [if_neg hpos]
    exact ⟨(0, some (handle (some k))), t, rfl, rfl, hrep⟩

theorem answered_create (h : Shows s d) (hname : Fits name) : ∃ reply s' d',
    (Op.objfsCreate name).run defFstat defDirstat s = .ok (reply, s') ∧
      (Op.objfsCreate name).spec defFstat defDirstat d reply d' ∧ Shows s' d' := by
  obtain ⟨r, t, hrun, hreply, hrep⟩ := objfsCreate_eq h.files hname
  refine ⟨.handle r.1 r.2, ⟨s.build, t⟩, _, ?_, ⟨hreply, rfl⟩, hrep, h.more _⟩
  rw [Op.run, hrun]

theorem answered_unlink (h : Shows s d) (name : Key) : ∃ reply s' d',
    (Op.objfsUnlink name).run defFstat defDirstat s = .ok (reply, s') ∧
      (Op.objfsUnlink name).spec defFstat defDirstat d reply d' ∧ Shows s' d' := by
  obtain ⟨t, hrun, hrep⟩ := represents_destroy h.files name
  refine ⟨.status 0, ⟨s.build, t⟩, _, ?_, ⟨rfl, rfl⟩, hrep, h.handles⟩
  rw [Op.run, objfsUnlink, hrun]

theorem answered_read (h : Shows s d) {fh : ℤ} {size : ℕ} (hfh : fh ∈ d.handles)
    (hsize : size ≤ 4096) : ∃ reply s', (Op.objfsRead fh size).run defFstat defDirstat s =
        .ok (reply, s') ∧ (Op.objfsRead fh size).spec defFstat defDirstat d reply d ∧
          Shows s' d := by
  obtain ⟨k, rfl⟩ := h.handles fh hfh
  obtain ⟨out, t, hrep, hread⟩ := represents_read h.files k hsize
  cases hk : d.files.value k with
  | none =>
    rw [hk] at hread
    refine ⟨.data (-22) [], ⟨s.build, t⟩, ?_, ⟨rfl, k, rfl, ?_⟩, hrep, h.handles⟩
    · rw [Op.run, objfsRead, bmod_handle, hread]
      rfl
    · rw [hk]
  | some v =>
    rw [hk] at hread
    have hwrap : Int.bmod (size : ℤ) (2 ^ 32) = size := Objstore.wrap_of_range (by omega) (by omega)
    have hpos : ¬ (size : ℤ) < 0 := by omega
    refine ⟨.data size out, ⟨s.build, t⟩, ?_, ⟨rfl, k, rfl, ?_⟩, hrep, h.handles⟩
    · rw [Op.run, objfsRead, bmod_handle, hread.1]
      simp only [Except.map]
      rw [hwrap, if_neg hpos]
    · rw [hk]
      exact ⟨out, rfl, hread.2⟩

theorem answered_write (h : Shows s d) {fh : ℤ} {buf : List UInt8} (hfh : fh ∈ d.handles)
    (hbuf : buf.length < 2 ^ 31) : ∃ reply s' d', (Op.objfsWrite fh buf).run defFstat defDirstat s =
        .ok (reply, s') ∧ (Op.objfsWrite fh buf).spec defFstat defDirstat d reply d' ∧
          Shows s' d' := by
  obtain ⟨k, rfl⟩ := h.handles fh hfh
  obtain ⟨t, hwrite, hrep⟩ := represents_write h.files k buf
  have hwrap : Int.bmod (write d.files k buf).1 (2 ^ 32) = (write d.files k buf).1 := by
    rw [write]
    split_ifs
    · exact Objstore.wrap_of_range (by dsimp only; omega) (by dsimp only; omega)
    · rfl
  refine ⟨_, ⟨s.build, t⟩, _, ?_, ⟨k, rfl, rfl, rfl⟩, hrep, h.handles⟩
  rw [Op.run, objfsWrite, bmod_handle, hwrite]
  simp only [Except.map]
  rw [hwrap]

theorem answered_remount (h : Shows s d) (bld : Build) : ∃ s',
    (Op.remount bld).run defFstat defDirstat s = .ok (.status 0, s') ∧ Shows s' d :=
  ⟨⟨bld, objstoreInit bld (objstoreDestroy s.build s.store)⟩, rfl, represents_remount h.files bld,
    h.handles⟩

/-- Each call is answered as the files say. -/
theorem simulates_spec (defFstat defDirstat : Stat) :
    Simulates (Op.run defFstat defDirstat) (Op.spec defFstat defDirstat) Op.Allowed Shows := by
  intro op s d h hok
  cases op with
  | objfsGetattr name =>
    obtain ⟨reply, hrun, hspec⟩ := answered_getattr h name
    exact ⟨reply, s, d, hrun, hspec, h⟩
  | objfsUnlink name => exact answered_unlink h name
  | objfsCreate name => exact answered_create h hok
  | objfsOpen name =>
    exact ⟨_, s, _, rfl, ⟨objfsOpen_eq h.files name, rfl⟩, h.files, h.more _⟩
  | objfsRead fh size =>
    obtain ⟨reply, s', hrun, hspec, hshows⟩ := answered_read h hok.1 hok.2
    exact ⟨reply, s', d, hrun, hspec, hshows⟩
  | objfsWrite fh buf => exact answered_write h hok.1 hok.2
  | objfsRelease fh => exact ⟨_, s, d, rfl, ⟨rfl, rfl⟩, h⟩
  | remount bld =>
    obtain ⟨s', hrun, hshows⟩ := answered_remount h bld
    exact ⟨_, s', d, hrun, ⟨rfl, rfl⟩, hshows⟩

theorem shows_start (bld : Build) {disk : ℕ → Block} (hdisk : disk 0 = Block.zero) :
    Shows (.start bld disk) .start :=
  ⟨represents_blank bld hdisk, fun _ hfh ↦ absurd hfh List.not_mem_nil⟩

end OsAssignments.Example
