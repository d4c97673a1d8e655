import OsAssignments.Library.BitmapScan
import OsAssignments.Objstore.BlockCalls

/-!
# The store, first-fit allocation and the object table

`Store` is the device with the globals of `objstore.c`: the object table `a`, the pointer
`backup`, the two bitmaps and the dirty array of the inode blocks. The functions here allocate a
data block, look an object up, create and rename it. All of them run the same loop nest over a
bitmap, `Bitmap.scanWords`, with the counter `ctr` that is at the same time a slot of the table
or a position in the data region.

Each function has one specification: `freeDataBlock_spec` and `freeDataBlock_full`,
`findTarget_spec`, `findObjectId_spec`, `createObject_spec` and `createObject_full`. Callers use
these and do not unfold the scans again.

Scope. A lock field tells whether a mutex is held; calls run one after the other, so a lock is
free when a call takes it. `accesses` is a ghost component written by `destroy_object` only.
-/

set_option autoImplicit false
set_option relaxedAutoImplicit false

namespace OsAssignments.Objstore

open Library

/-! ### State -/

/-- Ways in which a call dies instead of returning. -/
inductive Fault
  | nullDeref
  | wildAddress
  | uninitialised
  deriving DecidableEq

/-- Ghost records of the array accesses of `destroy_object`. -/
inductive Access
  | dataBitmap (idx shift : ℤ)
  | cacheArray (i : ℤ)
  deriving DecidableEq

/-- The device and the globals of `objstore.c`. -/
structure Store where
  dev : Device
  a : Bytes
  backup : Option ℕ
  inodeBitmap : ℕ → BitVec 32
  dataBitmap : ℕ → BitVec 32
  dirtyArray : ℕ → BitVec 32
  iLock : Bool
  dLock : Bool
  accesses : List Access

/-- What a call that may die returns. -/
abbrev Outcome (α : Type) := Except Fault (α × Store)

namespace Store

/-- A field of the record in slot `k`. -/
def field (s : Store) (k : ℕ) (f : Field) : ℤ := getField s.a k f

/-- The store after a field of slot `k` is assigned. -/
def assign (s : Store) (k : ℕ) (f : Field) (v : ℤ) : Store := { s with a := setField s.a k f v }

/-- The inode bit of slot `k`. -/
def inodeBit (s : Store) (k : ℕ) : Bool := Bitmap.bit s.inodeBitmap k

/-- The bit of `data_bitmap` that `free_data_block` associates with block `22815 + k`. -/
def dataBit (s : Store) (k : ℕ) : Bool := Bitmap.bit s.dataBitmap k

/-- `dirty_array[k / 46] = 1`: the inode block of slot `k` must be written back. -/
def markDirty (s : Store) (k : ℕ) : Store :=
  { s with dirtyArray := Function.update s.dirtyArray (k / 46) 1 }

end Store

/-! ### Allocation -/

/-- `free_data_block`. -/
def freeDataBlock (s : Store) : ℤ × Store :=
  let s := { s with dLock := true }
  match Bitmap.scanWords (fun i b ctr (_ : Unit) ↦
      if s.dataBitmap i &&& b = 0#32 then Except.error (i, b, ctr) else Except.ok ()) 262144 0 0 ()
    with
  | .error (i, b, ctr) =>
    (22528 + 287 + ctr,
      { s with
        dataBitmap := Function.update s.dataBitmap i (s.dataBitmap i ||| b)
        dLock := false })
  | .ok _ => (-1, { s with dLock := false })

/-! ### Lookup -/

/-- `find_target`: the slot of the object, `none` for the null pointer. -/
def findTarget (objid : ℤ) (setDirty : Bool) (s : Store) : Option ℕ × Store :=
  match Bitmap.scanWords (fun i b ctr (_ : Unit) ↦
      if s.inodeBitmap i &&& b ≠ 0#32 ∧ s.field ctr .id = objid then Except.error ctr
      else Except.ok ()) 31744 0 0 () with
  | .error k => (some k, if setDirty then s.markDirty k else s)
  | .ok _ => (none, s)

/-- `find_object_id`. -/
def findObjectId (key : Key) (s : Store) : ℤ × Store :=
  match Bitmap.scanWords (fun i b ctr (_ : Unit) ↦
      if s.inodeBitmap i &&& b ≠ 0#32 ∧ s.field ctr .id ≠ 0 ∧ keyEq s.a ctr key then
        Except.error ctr
      else Except.ok ()) 31744 0 0 () with
  | .error k => (s.field k .id, { s with backup := some k })
  | .ok _ => (-1, s)

/-! ### Creation -/

/-- The loop body of `create_object`: the first clear bit is claimed, later bits are passed. -/
def claimSlot (i : ℕ) (b : BitVec 32) (ctr : ℕ) :
    Store × Option ℕ → Except Empty (Store × Option ℕ)
  | (s, free) =>
    if b &&& s.inodeBitmap i = 0#32 ∧ free = none then
      let s := { s with inodeBitmap := Function.update s.inodeBitmap i (s.inodeBitmap i ||| b) }
      let s := s.markDirty ctr
      let s := s.assign ctr .id (ctr + 2)
      .ok ({ s with iLock := false }, some ctr)
    else .ok (s, free)

/-- `create_object`. -/
def createObject (key : Key) (s : Store) : ℤ × Store :=
  match Bitmap.scanWords claimSlot 31744 0 0 ({ s with iLock := true }, none) with
  | .ok ((s, some k), _) =>
    let s := { s with a := setKey s.a k key }
    (s.field k .id, s)
  | .ok ((s, none), _) => (-1, { s with iLock := false })

variable {s : Store}

@[simp] theorem field_assign (s : Store) (k k' : ℕ) (f f' : Field) (v : ℤ) :
    (s.assign k f v).field k' f' =
      if k' = k ∧ f' = f then Int.bmod v (256 ^ f.width) else s.field k' f' :=
  getField_setField s.a k k' f f' v

private theorem freeDataBlock_body (s : Store) (k : ℕ) :
    Bitmap.atBit (fun i b ctr (_ : Unit) ↦
      if s.dataBitmap i &&& b = 0#32 then Except.error (i, b, ctr) else Except.ok ()) k () =
    if (!s.dataBit k) = true then .error (k / 32, Bitmap.mask (k % 32), k) else .ok () := by
  have hbit := Bitmap.and_mask_ne_zero_iff s.dataBitmap k
  cases hk : Bitmap.bit s.dataBitmap k with
  | true => simpa [Bitmap.atBit, Store.dataBit, hk] using hbit.mpr hk
  | false => simpa [Bitmap.atBit, Store.dataBit, hk] using hbit

/-- First fit: the least clear bit is set and its block number returned. -/
theorem freeDataBlock_spec (h : ∃ k < 8388608, s.dataBit k = false) :
    ∃ k < 8388608, s.dataBit k = false ∧ (∀ j < k, s.dataBit j = true) ∧
      freeDataBlock s =
        (((22815 + k : ℕ) : ℤ), { s with
          dataBitmap := Function.update s.dataBitmap (k / 32)
            (s.dataBitmap (k / 32) ||| Bitmap.mask (k % 32))
          dLock := false }) := by
  rcases Bitmap.scanWords_search _ 262144 () (fun k ↦ !s.dataBit k)
      (fun k ↦ (k / 32, Bitmap.mask (k % 32), k)) (freeDataBlock_body s) with
    ⟨-, hall⟩ | ⟨k, hk, hclear, hleast, hexit⟩
  · obtain ⟨k, hk, hclear⟩ := h
    have hset := hall k hk
    simp [hclear] at hset
  · refine ⟨k, hk, by simpa using hclear, fun j hj ↦ by simpa using hleast j hj, ?_⟩
    simp only [freeDataBlock]
    rw [hexit]
    simp only [Prod.mk.injEq, and_true]
    push_cast
    norm_num

/-- With every bit set the allocator fails and changes nothing. -/
theorem freeDataBlock_full (h : ∀ k < 8388608, s.dataBit k = true) :
    freeDataBlock s = (-1, { s with dLock := false }) := by
  rcases Bitmap.scanWords_search _ 262144 () (fun k ↦ !s.dataBit k)
      (fun k ↦ (k / 32, Bitmap.mask (k % 32), k)) (freeDataBlock_body s) with
    ⟨hexit, -⟩ | ⟨k, hk, hclear, -, -⟩
  · simp only [freeDataBlock]
    rw [hexit]
  · have hset := h k hk
    simp [hset] at hclear

/-- The bits after an allocation of bit `k`. -/
theorem dataBit_alloc (s : Store) (k i : ℕ) :
    Bitmap.bit (Function.update s.dataBitmap (k / 32)
      (s.dataBitmap (k / 32) ||| Bitmap.mask (k % 32))) i = if i = k then true else s.dataBit i :=
  Bitmap.bit_or_mask s.dataBitmap k i

/-! ### Lookup -/

private theorem findTarget_body (s : Store) (objid : ℤ) (k : ℕ) :
    Bitmap.atBit (fun i b ctr (_ : Unit) ↦
      if s.inodeBitmap i &&& b ≠ 0#32 ∧ s.field ctr .id = objid then Except.error ctr
      else Except.ok ()) k () =
    if decide (s.inodeBit k = true ∧ s.field k .id = objid) = true then .error k else .ok () := by
  simp only [Bitmap.atBit, Bitmap.and_mask_ne_zero_iff, decide_eq_true_eq]
  rfl

private theorem findObjectId_body (s : Store) (key : Key) (k : ℕ) :
    Bitmap.atBit (fun i b ctr (_ : Unit) ↦
      if s.inodeBitmap i &&& b ≠ 0#32 ∧ s.field ctr .id ≠ 0 ∧ keyEq s.a ctr key then
        Except.error ctr
      else Except.ok ()) k () =
    if decide (s.inodeBit k = true ∧ s.field k .id ≠ 0 ∧ keyEq s.a k key = true) = true then
      .error k
    else .ok () := by
  simp only [Bitmap.atBit, Bitmap.and_mask_ne_zero_iff, decide_eq_true_eq]
  rfl

/-- The slot found is the first whose bit is set and whose id is the given one. -/
theorem findTarget_spec (s : Store) (objid : ℤ) (setDirty : Bool) :
    (findTarget objid setDirty s = (none, s) ∧
      ∀ k < 1015808, ¬ (s.inodeBit k = true ∧ s.field k .id = objid)) ∨
    ∃ k < 1015808, (s.inodeBit k = true ∧ s.field k .id = objid) ∧
      (∀ j < k, ¬ (s.inodeBit j = true ∧ s.field j .id = objid)) ∧
      findTarget objid setDirty s = (some k, if setDirty then s.markDirty k else s) := by
  rcases Bitmap.scanWords_search _ 31744 () _ _ (findTarget_body s objid) with
    ⟨hexit, hall⟩ | ⟨k, hk, hfound, hleast, hexit⟩
  · refine Or.inl ⟨?_, fun k hk ↦ of_decide_eq_false (hall k hk)⟩
    simp only [findTarget]
    rw [hexit]
  · refine Or.inr ⟨k, hk, of_decide_eq_true hfound, fun j hj ↦ of_decide_eq_false (hleast j hj), ?_⟩
    simp only [findTarget]
    rw [hexit]

/-- The slot found is the first live one with the key. -/
theorem findObjectId_spec (s : Store) (key : Key) :
    (findObjectId key s = (-1, s) ∧
      ∀ k < 1015808, ¬ (s.inodeBit k = true ∧ s.field k .id ≠ 0 ∧ keyEq s.a k key = true)) ∨
    ∃ k < 1015808, (s.inodeBit k = true ∧ s.field k .id ≠ 0 ∧ keyEq s.a k key = true) ∧
      (∀ j < k, ¬ (s.inodeBit j = true ∧ s.field j .id ≠ 0 ∧ keyEq s.a j key = true)) ∧
      findObjectId key s = (s.field k .id, { s with backup := some k }) := by
  rcases Bitmap.scanWords_search _ 31744 () _ _ (findObjectId_body s key) with
    ⟨hexit, hall⟩ | ⟨k, hk, hfound, hleast, hexit⟩
  · refine Or.inl ⟨?_, fun k hk ↦ of_decide_eq_false (hall k hk)⟩
    simp only [findObjectId]
    rw [hexit]
  · refine Or.inr ⟨k, hk, of_decide_eq_true hfound, fun j hj ↦ of_decide_eq_false (hleast j hj), ?_⟩
    simp only [findObjectId]
    rw [hexit]

/-! ### Creation -/

/-- The store after `create_object` has claimed slot `k`, before the key is copied. -/
def claimed (k : ℕ) (s : Store) : Store :=
  { ({ s with
        inodeBitmap := Function.update s.inodeBitmap (k / 32)
          (s.inodeBitmap (k / 32) ||| Bitmap.mask (k % 32)) }.markDirty k).assign k .id (k + 2) with
    iLock := false }

private theorem scan_claimSlot_set {n : ℕ} (h : ∀ k < n, s.inodeBit k = true) :
    Bitmap.scan (Bitmap.atBit claimSlot) n 0 ({ s with iLock := true }, none) =
      .ok ({ s with iLock := true }, none) := by
  refine Bitmap.scan_ok fun k _ hk ↦ ?_
  have hne := (Bitmap.and_mask_ne_zero_iff s.inodeBitmap k).mpr (h k (by omega))
  rw [BitVec.and_comm] at hne
  exact if_neg fun hclear ↦ hne hclear.1

private theorem claimSlot_clear (s : Store) {k : ℕ} (hk : s.inodeBit k = false) :
    Bitmap.atBit claimSlot k ({ s with iLock := true }, none) = .ok (claimed k s, some k) := by
  have heq : Bitmap.mask (k % 32) &&& s.inodeBitmap (k / 32) = 0#32 := by
    by_contra hne
    rw [BitVec.and_comm] at hne
    have hbit := (Bitmap.and_mask_ne_zero_iff s.inodeBitmap k).mp hne
    rw [← Store.inodeBit, hk] at hbit
    cases hbit
  exact if_pos ⟨heq, rfl⟩

private theorem claimSlot_claimed (s : Store) (k free : ℕ) :
    Bitmap.atBit claimSlot k (s, some free) = .ok (s, some free) :=
  if_neg fun h ↦ by cases h.2

/-- The scan of `create_object` claims the least clear slot and passes the others. -/
theorem scan_claimSlot {k : ℕ} (hk : k < 1015808) (hclear : s.inodeBit k = false)
    (hleast : ∀ j < k, s.inodeBit j = true) :
    Bitmap.scanWords claimSlot 31744 0 0 ({ s with iLock := true }, none) =
      .ok ((claimed k s, some k), 1015808) := by
  have hlinear := Bitmap.scanWords_eq_scan claimSlot 31744 0 ({ s with iLock := true }, none)
  rw [Nat.mul_zero] at hlinear
  have hrest : Bitmap.scan (Bitmap.atBit claimSlot) (1015808 - k - 1) (k + 1)
      (claimed k s, some k) = .ok (claimed k s, some k) :=
    Bitmap.scan_ok fun j _ _ ↦ claimSlot_claimed _ j k
  rw [hlinear, show 32 * 31744 = k + ((1015808 - k - 1) + 1) by omega, Bitmap.scan_append,
    scan_claimSlot_set hleast]
  simp only [Nat.zero_add, Bitmap.scan, claimSlot_clear s hclear, hrest]
  rw [show k + (1015808 - k - 1 + 1) = 1015808 by omega]

/-- With every inode bit set the scan claims nothing. -/
theorem scan_claimSlot_full (hall : ∀ k < 1015808, s.inodeBit k = true) :
    Bitmap.scanWords claimSlot 31744 0 0 ({ s with iLock := true }, none) =
      .ok (({ s with iLock := true }, none), 1015808) := by
  have hlinear := Bitmap.scanWords_eq_scan claimSlot 31744 0 ({ s with iLock := true }, none)
  rw [Nat.mul_zero] at hlinear
  rw [hlinear, scan_claimSlot_set hall]

/-- The least clear slot is claimed with id slot + 2 and the key is copied into it. -/
theorem createObject_spec (key : Key) {k : ℕ} (hk : k < 1015808) (hclear : s.inodeBit k = false)
    (hleast : ∀ j < k, s.inodeBit j = true) :
    createObject key s =
      (getField (setKey (claimed k s).a k key) k .id,
        { claimed k s with a := setKey (claimed k s).a k key }) := by
  simp only [createObject]
  rw [scan_claimSlot hk hclear hleast]
  rfl

/-- With every inode bit set the creation fails and changes nothing. -/
theorem createObject_full (key : Key) (hall : ∀ k < 1015808, s.inodeBit k = true) :
    createObject key s = (-1, { s with iLock := false }) := by
  simp only [createObject]
  rw [scan_claimSlot_full hall]

end OsAssignments.Objstore
