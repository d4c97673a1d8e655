import OsAssignments.Objstore.Store

/-!
# Mounting and unmounting

`objstore_init` loads the two bitmaps and the object table from the metadata blocks, and
`objstore_destroy` writes them back: all blocks of the bitmaps, the inode blocks flagged in
`dirty_array`, and then the dirty cache lines. An inode block carries 46 records in its first 4048
bytes, but the unmount copies 4096 bytes from the table, so that the tail of a block repeats the
head of the next one; the mount copies 4048 bytes and ignores the tail.

`Faithful` is the invariant that makes the partial write-back enough: where `dirty_array` has no
flag, the inode block on the disk still carries the records. Then a mount after an unmount gives
back the bitmaps and the records (`inodeBitmap_remount`, `dataBitmap_remount`, `table_remount`)
and the contents of the data blocks (`logical_remount`).
-/

set_option autoImplicit false
set_option relaxedAutoImplicit false

namespace OsAssignments.Objstore

open Library

/-! ### Chunks -/

/-- The loop that copies `c` cells to the `i`-th chunk of an array. -/
def copyChunk {α : Type} (c i : ℕ) (src dst : ℕ → α) : ℕ → α :=
  fun n ↦ if n / c = i then src (n % c) else dst n

theorem fold_copyChunk {α : Type} (c : ℕ) (src : ℕ → ℕ → α) (dst : ℕ → α) (m n : ℕ) :
    Nat.fold m (fun i _ a ↦ copyChunk c i (src i) a) dst n =
      if n / c < m then src (n / c) (n % c) else dst n := by
  induction m with
  | zero => rfl
  | succ m ih =>
    rw [Nat.fold_succ, copyChunk]
    by_cases hlast : n / c = m
    · rw [if_pos hlast, if_pos (by omega), hlast]
    · rw [if_neg hlast, ih]
      exact if_congr (by omega) rfl rfl

/-- A loop that writes the flagged ones of `n` buffers to the blocks from `first` on. -/
def writeBlocks (n first : ℕ) (flagged : ℕ → Bool) (buf : ℕ → Block) (d : Device) : Device :=
  Nat.fold n (fun i _ d ↦
    if flagged i then writeBlock d ((first + i : ℕ) : ℤ) (buf i) else d) d

/-! ### Mounting -/

/-- Load a bitmap from the blocks from `first` on. -/
def loadBitmap (d : Device) (blocks first : ℕ) : ℕ → BitVec 32 :=
  Nat.fold blocks (fun i _ words ↦
    copyChunk 1024 i (readBlock d ((i + first : ℕ) : ℤ) Block.zero).word words) fun _ ↦ 0#32

/-- Load the object table from the inode blocks. -/
def loadTable (d : Device) : Bytes :=
  Nat.fold 22528 (fun i _ b ↦
    copyChunk 4048 i (readBlock d ((i + 287 : ℕ) : ℤ) Block.zero).byte b) fun _ ↦ 0

/-- `objstore_init`. The arrays are fresh zero pages before their loops fill them. -/
def objstoreInit (objfs : Device) : Store where
  dev :=
    { disk := objfs.disk
      cachePtr := objfs.cachePtr
      cacheIndex := fun i ↦ if 0 ≤ i ∧ i < 32768 then -1 else 0
      cacheDirty := fun _ ↦ 0
      cacheLock := false
      blkWrites := [] }
  a := loadTable objfs
  backup := none
  inodeBitmap := loadBitmap objfs 31 0
  dataBitmap := loadBitmap objfs 256 31
  dirtyArray := fun _ ↦ 0#32
  iLock := false
  dLock := false
  accesses := []

/-! ### Unmounting -/

/-- The bytes copied for inode block `i`. -/
def inodeBlock (a : Bytes) (i : ℕ) : Block := Block.ofBytes fun j ↦ a (j + i * 4048)

/-- The loops of `objstore_destroy` that write the bitmaps and the flagged inode blocks. -/
def metadataLoops (s : Store) : Device :=
  let d := writeBlocks 31 0 (fun _ ↦ true) (fun i ↦ Block.ofWords s.inodeBitmap (1024 * i)) s.dev
  let d := writeBlocks 256 31 (fun _ ↦ true) (fun i ↦ Block.ofWords s.dataBitmap (1024 * i)) d
  writeBlocks 22528 287 (fun i ↦ decide (s.dirtyArray i ≠ 0#32)) (inodeBlock s.a) d

/-- `objstore_destroy`. -/
def objstoreDestroy (s : Store) : Device := writeBackLoop (metadataLoops s)

variable {s : Store} {d : Device} {bld : Build}

/-- What a writing loop leaves on the disk; the cache is not touched. -/
theorem writeBlocks_spec (n first : ℕ) (flagged : ℕ → Bool) (buf : ℕ → Block) (d : Device) :
    (∀ b, (writeBlocks n first flagged buf d).disk b =
      if first ≤ b ∧ b < first + n ∧ flagged (b - first) = true then buf (b - first)
      else d.disk b) ∧
    writeBlocks n first flagged buf d =
      { d with disk := (writeBlocks n first flagged buf d).disk } := by
  induction n with
  | zero => exact ⟨fun b ↦ (if_neg (by omega)).symm, rfl⟩
  | succ n ih =>
    obtain ⟨hdisk, hrest⟩ := ih
    have hstep : writeBlocks (n + 1) first flagged buf d =
        if flagged n then
          writeBlock (writeBlocks n first flagged buf d) ((first + n : ℕ) : ℤ) (buf n)
        else writeBlocks n first flagged buf d := Nat.fold_succ ..
    have hrange {b : ℕ} (hb : b ≠ first + n) :
        (first ≤ b ∧ b < first + n ∧ flagged (b - first) = true) ↔
          first ≤ b ∧ b < first + (n + 1) ∧ flagged (b - first) = true :=
      and_congr_right fun _ ↦ and_congr_left fun _ ↦ by omega
    rw [hstep]
    by_cases hflag : flagged n = true
    · have hwrite : writeBlock (writeBlocks n first flagged buf d) ((first + n : ℕ) : ℤ) (buf n) =
          { writeBlocks n first flagged buf d with
            disk := Function.update (writeBlocks n first flagged buf d).disk (first + n)
              (buf n) } := by
        rw [writeBlock, if_neg (by omega), Int.toNat_natCast]
      rw [if_pos hflag, hwrite]
      refine ⟨fun b ↦ ?_, by rw [hrest]⟩
      by_cases hb : b = first + n
      · have hsub : b - first = n := by omega
        rw [hsub, if_pos ⟨by omega, by omega, hflag⟩, hb]
        exact Function.update_self ..
      · refine (Function.update_of_ne hb ..).trans ((hdisk b).trans (if_congr ?_ rfl rfl))
        exact hrange hb
    · rw [if_neg hflag]
      refine ⟨fun b ↦ (hdisk b).trans (if_congr ?_ rfl rfl), hrest⟩
      by_cases hb : b = first + n
      · have hsub : b - first = n := by omega
        rw [hsub]
        exact iff_of_false (fun h ↦ hflag h.2.2) fun h ↦ hflag h.2.2
      · exact hrange hb

/-- The metadata blocks after the metadata loops: the bitmaps, the flagged inode blocks, and the
other inode blocks as they were. -/
theorem disk_metadataLoops (s : Store) (b : ℕ) : (metadataLoops s).disk b =
    if b < 31 then Block.ofWords s.inodeBitmap (1024 * b)
    else if b < 287 then Block.ofWords s.dataBitmap (1024 * (b - 31))
    else if b < 22815 ∧ s.dirtyArray (b - 287) ≠ 0#32 then inodeBlock s.a (b - 287)
    else s.dev.disk b := by
  rw [metadataLoops, (writeBlocks_spec ..).1, (writeBlocks_spec ..).1, (writeBlocks_spec ..).1]
  simp only [decide_eq_true_eq, and_true, Nat.sub_zero]
  by_cases hinode : b < 31
  · rw [if_neg (by omega), if_neg (by omega), if_pos (by omega), if_pos hinode]
  · by_cases hdata : b < 287
    · rw [if_neg (by omega), if_pos (by omega), if_neg hinode, if_pos hdata]
    · rw [if_neg hinode, if_neg hdata, if_neg (by omega : ¬ (31 ≤ b ∧ b < 31 + 256)),
        if_neg (by omega : ¬ (0 ≤ b ∧ b < 0 + 31))]
      refine if_congr ?_ rfl rfl
      exact ⟨fun h ↦ ⟨by omega, h.2.2⟩, fun h ↦ ⟨by omega, by omega, h.2⟩⟩

theorem metadataLoops_cache (s : Store) :
    metadataLoops s = { s.dev with disk := (metadataLoops s).disk } := by
  rw [metadataLoops, (writeBlocks_spec ..).2, (writeBlocks_spec 256 ..).2,
    (writeBlocks_spec 31 ..).2]

theorem dirtyFrom_metadataLoops (h : DirtyFrom 22815 s.dev) :
    DirtyFrom 22815 (metadataLoops s) := by
  rw [metadataLoops_cache]
  exact h

/-- The metadata blocks after an unmount are those of the metadata loops. -/
theorem disk_objstoreDestroy_metadata (h : DirtyFrom 22815 s.dev) {b : ℕ} (hb : b < 22815) :
    (objstoreDestroy s).disk b = (metadataLoops s).disk b := by
  rw [objstoreDestroy]
  exact disk_writeBackLoop_of_lt (dirtyFrom_metadataLoops h) hb

/-- Without the cache no line is ever dirty. -/
def Quiet (bld : Build) (d : Device) : Prop :=
  bld = .uncached → ∀ i : Fin 32768, d.cacheDirty i ≠ 1

/-- The data blocks after an unmount have the contents they had before. -/
theorem disk_objstoreDestroy_data (hdev : BuildOk bld s.dev) (hquiet : Quiet bld s.dev) {b : ℕ}
    (hb : 22815 ≤ b) : (objstoreDestroy s).disk b = logical bld s.dev b := by
  have hmeta : (metadataLoops s).disk b = s.dev.disk b := by
    rw [disk_metadataLoops, if_neg (by omega), if_neg (by omega), if_neg fun h ↦ by omega]
  have hsame : (objstoreDestroy s).disk b = (writeBackLoop s.dev).disk b := by
    rw [objstoreDestroy, disk_writeBackLoop, disk_writeBackLoop, hmeta, metadataLoops_cache]
    rfl
  rw [hsame]
  cases bld with
  | cached => exact writeBackLoop_eq_logical (hdev rfl) b
  | uncached =>
    rw [disk_writeBackLoop, if_neg fun h ↦ hquiet rfl (slotOf b) h.1]
    rfl

/-! ### A freshly mounted store -/

theorem readBlock_nat (d : Device) (b : ℕ) (buf : Block) :
    readBlock d (b : ℤ) buf = d.disk b := by
  rw [readBlock, if_neg (by omega), Int.toNat_natCast]

theorem loadBitmap_apply (d : Device) {blocks first j : ℕ} (hj : j < 1024 * blocks) :
    loadBitmap d blocks first j = (d.disk (j / 1024 + first)).word (j % 1024) := by
  rw [loadBitmap, fold_copyChunk, if_pos (by omega), readBlock_nat]

theorem loadTable_apply (d : Device) {n : ℕ} (hn : n < 4048 * 22528) :
    loadTable d n = (d.disk (n / 4048 + 287)).byte (n % 4048) := by
  rw [loadTable, fold_copyChunk, if_pos (by omega), readBlock_nat]

theorem cacheIndex_objstoreInit (d : Device) (i : Fin 32768) :
    (objstoreInit d).dev.cacheIndex i = -1 := by
  have hrange : 0 ≤ ((i : ℕ) : ℤ) ∧ ((i : ℕ) : ℤ) < 32768 := ⟨by omega, by omega⟩
  simp only [objstoreInit]
  rw [if_pos hrange]

theorem cacheDirty_objstoreInit (d : Device) (i : ℤ) : (objstoreInit d).dev.cacheDirty i ≠ 1 := by
  rw [objstoreInit]
  exact zero_ne_one

theorem logical_objstoreInit (bld : Build) (d : Device) (b : ℕ) :
    logical bld (objstoreInit d).dev b = d.disk b := by
  cases bld with
  | uncached => rfl
  | cached =>
    have hindex : (objstoreInit d).dev.cacheIndex ((b % 32768 : ℕ) : ℤ) = -1 :=
      cacheIndex_objstoreInit d (slotOf b)
    rw [logical, hindex, if_neg (by omega), objstoreInit]

theorem buildOk_objstoreInit (bld : Build) (d : Device) : BuildOk bld (objstoreInit d).dev := by
  refine fun _ ↦ ⟨fun i _ ↦ cacheDirty_objstoreInit d i, fun i hindex ↦ ?_⟩
  rw [cacheIndex_objstoreInit] at hindex
  omega

theorem dirtyFrom_objstoreInit (d : Device) (n : ℕ) : DirtyFrom n (objstoreInit d).dev :=
  fun i hdirty ↦ absurd hdirty (cacheDirty_objstoreInit d i)

theorem quiet_objstoreInit (bld : Build) (d : Device) : Quiet bld (objstoreInit d).dev :=
  fun _ i ↦ cacheDirty_objstoreInit d i

/-! ### A blank disk -/

/-- Every block of the disk is zero. -/
def Blank (d : Device) : Prop := ∀ b, d.disk b = Block.zero

theorem blank_zeroDevice : Blank zeroDevice := fun _ ↦ rfl

theorem word_zero (j : ℕ) : Block.zero.word j = 0#32 := by
  have hload : Block.zero.byte.load (4 * j) 4 = Bytes.load (fun _ ↦ 0) (4 * j) 4 :=
    Bytes.load_congr fun n _ _ ↦ Block.byte_zero n
  rw [Block.word, hload, Bytes.load_zero]

theorem inodeBit_blank (hd : Blank d) {k : ℕ} (hk : k < 1015808) :
    (objstoreInit d).inodeBit k = false := by
  have hload : (objstoreInit d).inodeBitmap (k / 32) =
      (d.disk (k / 32 / 1024 + 0)).word (k / 32 % 1024) := loadBitmap_apply d (by omega)
  rw [Store.inodeBit, Bitmap.bit, hload, hd, word_zero, BitVec.getMsbD_zero]

theorem dataBit_blank (hd : Blank d) {k : ℕ} (hk : k < 8388608) :
    (objstoreInit d).dataBit k = false := by
  have hload : (objstoreInit d).dataBitmap (k / 32) =
      (d.disk (k / 32 / 1024 + 31)).word (k / 32 % 1024) := loadBitmap_apply d (by omega)
  rw [Store.dataBit, Bitmap.bit, hload, hd, word_zero, BitVec.getMsbD_zero]

theorem byte_blank (hd : Blank d) {n : ℕ} (hn : n < 4048 * 22528) : (objstoreInit d).a n = 0 := by
  have hload : (objstoreInit d).a n = (d.disk (n / 4048 + 287)).byte (n % 4048) :=
    loadTable_apply d hn
  rw [hload, hd, Block.byte_zero]

theorem field_blank (hd : Blank d) {k : ℕ} (hk : k < 1015808) (f : Field) :
    (objstoreInit d).field k f = 0 := by
  have hzero : getField (objstoreInit d).a k f = getField (fun _ ↦ 0) k f :=
    getField_congr fun n _ hhigh ↦ byte_blank hd (by omega)
  rw [Store.field, hzero, getField, Bytes.loadInt, Bytes.load_zero]
  exact Int.zero_bmod

/-! ### Mounting after an unmount -/

/-- Where no flag is set, the inode block on the disk carries the records. -/
def Faithful (s : Store) : Prop :=
  ∀ n < 4048 * 22528, s.dirtyArray (n / 4048) = 0#32 →
    (s.dev.disk (n / 4048 + 287)).byte (n % 4048) = s.a n

/-- The store that `objstore_init` makes after `objstore_destroy`. -/
def remount (s : Store) : Store := objstoreInit (objstoreDestroy s)

theorem faithful_objstoreInit (d : Device) : Faithful (objstoreInit d) :=
  fun _ hn _ ↦ (loadTable_apply d hn).symm

section Remount

variable (hdirty : DirtyFrom 22815 s.dev)

include hdirty

theorem inodeBitmap_remount {j : ℕ} (hj : j < 31744) :
    (remount s).inodeBitmap j = s.inodeBitmap j := by
  have hload : (remount s).inodeBitmap j =
      ((objstoreDestroy s).disk (j / 1024 + 0)).word (j % 1024) :=
    loadBitmap_apply _ (by omega)
  rw [hload, disk_objstoreDestroy_metadata hdirty (by omega), disk_metadataLoops,
    if_pos (by omega), Block.word_ofWords _ _ (Nat.mod_lt j (by norm_num)),
    show 1024 * (j / 1024 + 0) + j % 1024 = j by omega]

theorem dataBitmap_remount {j : ℕ} (hj : j < 262144) :
    (remount s).dataBitmap j = s.dataBitmap j := by
  have hload : (remount s).dataBitmap j =
      ((objstoreDestroy s).disk (j / 1024 + 31)).word (j % 1024) :=
    loadBitmap_apply _ (by omega)
  rw [hload, disk_objstoreDestroy_metadata hdirty (by omega), disk_metadataLoops,
    if_neg (by omega), if_pos (by omega), Block.word_ofWords _ _ (Nat.mod_lt j (by norm_num)),
    show 1024 * (j / 1024 + 31 - 31) + j % 1024 = j by omega]

/-- The first 4048 bytes of an inode block are the ones that are read back. -/
theorem table_remount (hfaithful : Faithful s) {n : ℕ} (hn : n < 4048 * 22528) :
    (remount s).a n = s.a n := by
  have hload : (remount s).a n =
      ((objstoreDestroy s).disk (n / 4048 + 287)).byte (n % 4048) :=
    loadTable_apply _ hn
  rw [hload, disk_objstoreDestroy_metadata hdirty (by omega), disk_metadataLoops,
    if_neg (by omega), if_neg (by omega), show n / 4048 + 287 - 287 = n / 4048 by omega]
  by_cases hflag : s.dirtyArray (n / 4048) = 0#32
  · rw [if_neg fun h ↦ h.2 hflag]
    exact hfaithful n hn hflag
  · rw [if_pos ⟨by omega, hflag⟩, inodeBlock, Block.byte_ofBytes (by omega),
      show n % 4048 + n / 4048 * 4048 = n by omega]

end Remount

theorem logical_remount (hdev : BuildOk bld s.dev) (hquiet : Quiet bld s.dev) (bld' : Build)
    {b : ℕ} (hb : 22815 ≤ b) : logical bld' (remount s).dev b = logical bld s.dev b := by
  rw [remount, logical_objstoreInit, disk_objstoreDestroy_data hdev hquiet hb]

end OsAssignments.Objstore
