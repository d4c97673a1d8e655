import OsAssignments.Library.BitmapScan
import OsAssignments.Library.Records
import OsAssignments.Objstore.Stat

/-!
# The example object store

The store of `example/objstore.c`: one page of at most 16 records `struct object`

    long id; long size; int cache_index; int dirty; char key[64];

that is block 0 of the disk, and one data block for each object, the block of its id. With `-DCACHE`
the data block goes through the line of its id in `objfs->cache`; `cache_index` and `dirty` of the
record tell whether the line is there and whether it must be written back. `Build` selects the two
compilations.

The functions are those of `objstore.c`, with the loops over the records as scans. Scope. The page
and the cache lines are total functions of their index, so that only an access to a record outside
the page dies (`record`). Every `mmap` succeeds, and block input and output fails at negative block
numbers only. Buffers are shorter than `2 ^ 31` bytes, so that sizes are exact.
-/

set_option autoImplicit false
set_option relaxedAutoImplicit false

namespace OsAssignments.Example

open Library
open Objstore (Block Build Fault Key Stat statBlocks)

/-! ### State -/

/-- The integer fields of `struct object`. -/
inductive Field
  | id
  | size
  | cacheIndex
  | dirty
  deriving DecidableEq

namespace Field

/-- Offset of a field in the record. -/
def offset : Field → ℕ
  | id => 0
  | size => 8
  | cacheIndex => 16
  | dirty => 20

/-- Width of a field in bytes. -/
def width : Field → ℕ
  | id => 8
  | size => 8
  | cacheIndex => 4
  | dirty => 4

theorem disjoint (f f' : Field) (h : f' ≠ f) :
    f'.offset + f'.width ≤ f.offset ∨ f.offset + f.width ≤ f'.offset := by
  cases f <;> cases f' <;> simp [offset, width] at h ⊢

end Field

/-- `struct object`. -/
def object : RecordLayout Field where
  stride := 88
  offset := Field.offset
  width := Field.width
  keyOffset := 24
  room := 64
  fields_le := fun f ↦ by cases f <;> simp [Field.offset, Field.width]
  key_le := by norm_num
  disjoint := Field.disjoint

/-- The disk, the cache lines and the page of records. -/
structure Store where
  disk : ℕ → Block
  cache : ℤ → Block
  objs : Bytes

namespace Store

/-- A field of record `k`. -/
def field (s : Store) (k : ℕ) (f : Field) : ℤ := object.get s.objs k f

/-- The store after a field of record `k` is assigned. -/
def assign (s : Store) (k : ℕ) (f : Field) (v : ℤ) : Store :=
  { s with objs := object.set s.objs k f v }

/-- The store after the cache line of `id` is filled. -/
def putLine (s : Store) (id : ℤ) (b : Block) : Store :=
  { s with cache := Function.update s.cache id b }

/-- The store after a block of the disk is written. -/
def putBlock (s : Store) (n : ℕ) (b : Block) : Store :=
  { s with disk := Function.update s.disk n b }

/-- The key of record `k` is the given one. -/
def keyEq (s : Store) (k : ℕ) (key : Key) : Bool := object.hasKey s.objs k key.chars

end Store

/-- The key fits the 64 bytes of the key field with its terminator. -/
def Fits (key : Key) : Prop := key.chars.length < 64

instance (key : Key) : Decidable (Fits key) := inferInstanceAs (Decidable (_ < 64))

/-! ### Blocks -/

/-- `read_block`: the block, or `none` where it returns -1. -/
def readBlock (id : ℤ) (s : Store) : Option Block := if id < 0 then none else some (s.disk id.toNat)

/-- `write_block`: `none` where it returns -1. -/
def writeBlock (id : ℤ) (buf : Block) (s : Store) : Option Store :=
  if id < 0 then none else some (s.putBlock id.toNat buf)

/-- `size` bytes of the cache from the line of `id` on. -/
def cacheBytes (s : Store) (id : ℤ) (size : ℕ) : List UInt8 :=
  (List.range size).map fun n ↦ (s.cache (id + (n / 4096 : ℕ))).byte (n % 4096)

/-- `memcpy` of a buffer to the start of a line. -/
def overwrite (line : Block) (buf : List UInt8) : Block :=
  Block.ofBytes fun n ↦ buf.getD n (line.byte n)

/-- `init_object_cached`. -/
def initObjectCached (bld : Build) (k : ℕ) (s : Store) : Store :=
  match bld with
  | .cached => (s.assign k .cacheIndex (-1)).assign k .dirty 0
  | .uncached => s

/-- `remove_object_cached`. -/
def removeObjectCached (bld : Build) (k : ℕ) (s : Store) : Store :=
  match bld with
  | .cached => (s.assign k .cacheIndex (-1)).assign k .dirty 0
  | .uncached => s

/-- The lines that `find_read_cached` and `find_write_cached` begin with: a block that is not in the
cache is read into its line. -/
def bringIn (k : ℕ) (s : Store) : Option Store :=
  if s.field k .cacheIndex < 0 then
    (readBlock (s.field k .id) s).map fun buf ↦
      (s.putLine (s.field k .id) buf).assign k .cacheIndex (s.field k .id)
  else some s

/-- `find_read_cached`: the bytes read, or `none` where it returns -1. -/
def findReadCached (bld : Build) (k size : ℕ) (s : Store) :
    Except Fault (Option (List UInt8) × Store) :=
  match bld with
  | .cached =>
    (bringIn k s).elim (.ok (none, s)) fun s ↦ .ok (some (cacheBytes s (s.field k .id) size), s)
  | .uncached =>
    (readBlock (s.field k .id) s).elim (.ok (none, s)) fun buf ↦
      if size ≤ 4096 then .ok (some ((List.range size).map buf.byte), s) else .error .wildAddress

/-- `find_write_cached`: `none` where it returns -1. -/
def findWriteCached (bld : Build) (k : ℕ) (buf : List UInt8) (s : Store) : Option Store :=
  match bld with
  | .cached =>
    (bringIn k s).map fun s ↦
      (s.putLine (s.field k .id) (overwrite (s.cache (s.field k .id)) buf)).assign k .dirty 1
  | .uncached => writeBlock (s.field k .id) (Block.ofList buf) s

/-- `obj_sync`; its result is not used. -/
def objSync (bld : Build) (k : ℕ) (s : Store) : Store :=
  match bld with
  | .cached =>
    if s.field k .dirty = 0 then s
    else (writeBlock (s.field k .id) (s.cache (s.field k .id)) s).elim s fun s ↦ s.assign k .dirty 0
  | .uncached => s

/-! ### Objects -/

/-- What follows a loop: one thing after an early exit, another after its last turn. -/
def afterLoop {ρ σ α : Type} (loop : Except ρ σ) (exit : ρ → α) (last : σ → α) : α :=
  match loop with
  | .error r => exit r
  | .ok s => last s

/-- The loop of `find_object_id` and `destroy_object`: the first live record with the key. -/
def findTurn (key : Key) (s : Store) (ctr : ℕ) : Unit → Except ℕ Unit
  | () => if s.field ctr .id ≠ 0 ∧ s.keyEq ctr key = true then .error ctr else .ok ()

/-- `find_object_id`. -/
def findObjectId (key : Key) (s : Store) : ℤ :=
  afterLoop (Bitmap.scan (findTurn key s) 16 0 ()) (fun k ↦ s.field k .id) fun _ ↦ -1

/-- The loop of `create_object`: the first free record is claimed, and a live one with the key ends
the loop. -/
def createTurn (key : Key) (ctr : ℕ) : Store × Option ℕ → Except Store (Store × Option ℕ)
  | (s, free) =>
    if s.field ctr .id = 0 ∧ free = none then .ok (s.assign ctr .id (ctr + 2), some ctr)
    else if s.field ctr .id ≠ 0 ∧ s.keyEq ctr key = true then .error s
    else .ok (s, free)

/-- `create_object`. Its last call is on `obj`, which has moved past the records by then. -/
def createObject (bld : Build) (key : Key) (s : Store) : ℤ × Store :=
  afterLoop (Bitmap.scan (createTurn key) 16 0 (s, none)) (fun s ↦ (-1, s)) fun
    | (s, none) => (-1, s)
    | (s, some k) =>
      let s := { s with objs := object.setKey s.objs k key.chars }
      let s := initObjectCached bld 16 s
      (s.field k .id, s)

/-- `destroy_object`. -/
def destroyObject (bld : Build) (key : Key) (s : Store) : ℤ × Store :=
  afterLoop (Bitmap.scan (findTurn key s) 16 0 ())
    (fun k ↦ (0, ((removeObjectCached bld k s).assign k .id 0).assign k .size 0)) fun _ ↦ (-1, s)

/-- The record at `objs + objid - 2`, if its integer fields lie in the page. -/
def record (objid : ℤ) : Option ℕ := if 2 ≤ objid ∧ objid < 49 then some (objid - 2).toNat else none

/-- `objstore_write`. -/
def objstoreWrite (bld : Build) (objid : ℤ) (buf : List UInt8) (s : Store) :
    Except Fault (ℤ × Store) :=
  match record objid with
  | none => .error .wildAddress
  | some k =>
    if s.field k .id ≠ objid then .ok (-1, s)
    else if buf.length > 4096 then .ok (-1, s)
    else
      match findWriteCached bld k buf s with
      | none => .ok (-1, s)
      | some s => .ok (buf.length, s.assign k .size buf.length)

/-- `objstore_read`: the result and the bytes read. -/
def objstoreRead (bld : Build) (objid : ℤ) (size : ℕ) (s : Store) :
    Except Fault ((ℤ × List UInt8) × Store) :=
  if objid < 2 then .ok ((-1, []), s)
  else
    match record objid with
    | none => .error .wildAddress
    | some k =>
      if s.field k .id ≠ objid then .ok ((-1, []), s)
      else
        match findReadCached bld k size s with
        | .error fault => .error fault
        | .ok (none, s) => .ok ((-1, []), s)
        | .ok (some buf, s) => .ok ((size, buf), s)

/-- `fillup_size_details`. The id is compared as an unsigned number. -/
def fillupSizeDetails (buf : Stat) (s : Store) : Except Fault (ℤ × Stat) :=
  if buf.ino < 2 then .ok (-1, buf)
  else
    match record buf.ino with
    | none => .error .wildAddress
    | some k =>
      if s.field k .id % 2 ^ 64 ≠ buf.ino then .ok (-1, buf)
      else .ok (0, { buf with size := s.field k .size, blocks := statBlocks (s.field k .size) })

/-! ### Mounting -/

/-- `objstore_init` on a disk, with a fresh cache. -/
def objstoreInit (bld : Build) (disk : ℕ → Block) : Store :=
  Nat.fold 16 (fun k _ s ↦ if s.field k .id ≠ 0 then initObjectCached bld k s else s)
    ⟨disk, fun _ ↦ Block.zero, (disk 0).byte⟩

/-- `objstore_destroy`: the disk it leaves. -/
def objstoreDestroy (bld : Build) (s : Store) : ℕ → Block :=
  let s := Nat.fold 16 (fun k _ s ↦ if s.field k .id ≠ 0 then objSync bld k s else s) s
  Function.update s.disk 0 (Block.ofBytes s.objs)

end OsAssignments.Example
