import OsAssignments.Objstore.Store

/-!
# Destroying an object

`destroy_object` finds the first live slot with the key, clears its inode bit, and then walks the
pointers of the record. For every block it meets it toggles a bit of `data_bitmap` and drops the
cache line of the block. Three details of the source matter and are kept here. The offset macro
is not parenthesised, so `dir_add - data_block_offset` is `dir_add - 22528 + 287`. An indirect
pointer is released before it is tested against zero. And the indirect block is fetched with
`read_block`, so from the disk, whatever the cache holds.

`released` lists the block numbers in the order in which they are released, and `Frees` says what
releasing a list does: the bitmap and the cache arrays change, and nothing else does. `ReleaseRule`
is the rule for the loops that release them. Toggles outside the 262144 words of `data_bitmap` have
no effect. `destroyObject_spec` is the specification of the call, `bit_toggleDataBits` the effect on
the bits.
-/

set_option autoImplicit false
set_option relaxedAutoImplicit false

namespace OsAssignments.Objstore

open Library

/-! ### Releasing one block -/

/-- `data_bitmap[bit_pos / 32] ^= 1 << (31 - bit_pos % 32)`; the hardware takes the shift count
modulo 32. -/
def toggleDataBit (bitPos : ℤ) (words : ℕ → BitVec 32) : ℕ → BitVec 32 :=
  let idx := bitPos.tdiv 32
  let shift := 31 - bitPos.tmod 32
  if 0 ≤ idx ∧ idx < 262144 then
    Function.update words idx.toNat (words idx.toNat ^^^ (1#32 <<< (shift.toNat % 32)))
  else words

/-- Drop the cache line of a block when its slot carries the tag of the block. -/
def dropLine (blk : ℤ) (d : Device) : Device :=
  if d.cacheIndex (blk.tmod 32768) = blk.tdiv 32768 then
    { d with
      cacheIndex := Function.update d.cacheIndex (blk.tmod 32768) (-1)
      cacheDirty := Function.update d.cacheDirty (blk.tmod 32768) 0 }
  else d

/-- The toggle of `destroy_object` for a block, with its ghost record. -/
def Store.toggle (s : Store) (blk : ℤ) : Store :=
  let bitPos := blk - 22528 + 287
  { s with
    dataBitmap := toggleDataBit bitPos s.dataBitmap
    accesses := .dataBitmap (bitPos.tdiv 32) (31 - bitPos.tmod 32) :: s.accesses }

/-- The line drop of `destroy_object` for a block, with its ghost record. -/
def Store.drop (s : Store) (blk : ℤ) : Store :=
  { s with
    dev := dropLine blk s.dev
    accesses := .cacheArray (blk.tmod 32768) :: s.accesses }

/-! ### The call -/

/-- One turn of the loop over `direct[]`. -/
def freeDirect (k : ℕ) (s : Store) (i : Fin 4) : Store :=
  let dirAdd := s.field k (.direct i)
  if dirAdd ≠ 0 then (s.drop dirAdd).toggle dirAdd else s

/-- One turn of the loop over the entries of an indirect block. -/
def freeEntry (s : Store) (entry : ℤ) : Store :=
  if entry ≠ 0 then (s.toggle entry).drop entry else s

/-- The 1024 entries of an indirect block, in order. -/
def entriesOf (indirBlock : Block) : List ℤ := (List.range 1024).map indirBlock.int

/-- One turn of the loop over `indirect[]`. -/
def freeIndirect (k : ℕ) (s : Store) (i : Fin 4) : Store :=
  let indirAdd := s.field k (.indirect i)
  let s := (s.toggle indirAdd).drop indirAdd
  if indirAdd ≠ 0 then
    let indirBlock := readBlock s.dev indirAdd Block.zero
    (entriesOf indirBlock).foldl freeEntry s
  else s

/-- One turn of the loop that clears the pointers. -/
def clearPointers (k : ℕ) (s : Store) (i : Fin 4) : Store :=
  (s.assign k (.direct i) 0).assign k (.indirect i) 0

/-- `destroy_object` from the claimed slot on: the inode bit is cleared already. -/
def destroyTarget (k : ℕ) (s : Store) : Store :=
  let s := (s.assign k .id 0).assign k .size 0
  let s := (List.finRange 4).foldl (freeDirect k) s
  let s := (List.finRange 4).foldl (freeIndirect k) s
  (List.finRange 4).foldl (clearPointers k) s

/-- The loop body of the search: it leaves at a live slot with the key. -/
def stopAtKey (key : Key) (s : Store) (i : ℕ) (b : BitVec 32) (ctr : ℕ) :
    Unit → Except (ℕ × BitVec 32 × ℕ) Unit
  | () =>
    if s.inodeBitmap i &&& b ≠ 0#32 ∧ s.field ctr .id ≠ 0 ∧ keyEq s.a ctr key then
      .error (i, b, ctr)
    else .ok ()

/-- `destroy_object`. A key that is not live leaves `target` null. -/
def destroyObject (key : Key) (s : Store) : Outcome ℤ :=
  let s := { s with iLock := true }
  match Bitmap.scanWords (stopAtKey key s) 31744 0 0 () with
  | .error (i, b, ctr) =>
    let s := { s with inodeBitmap := Function.update s.inodeBitmap i (s.inodeBitmap i ^^^ b) }
    let s := { s with iLock := false }
    .ok (0, destroyTarget ctr (s.markDirty ctr))
  | .ok _ => .error .nullDeref

/-! ### What is released -/

/-- The entries of the disk copy of an indirect block. -/
def diskEntries (d : Device) (indirAdd : ℤ) : List ℤ :=
  entriesOf (readBlock d indirAdd Block.zero)

/-- The block numbers one turn of the `direct[]` loop releases. -/
def releasedDirect (s : Store) (k : ℕ) (i : Fin 4) : List ℤ :=
  [s.field k (.direct i)].filter (· ≠ 0)

/-- The block numbers one turn of the `indirect[]` loop releases; the first may be zero. -/
def releasedIndirect (s : Store) (k : ℕ) (i : Fin 4) : List ℤ :=
  s.field k (.indirect i) ::
    if s.field k (.indirect i) ≠ 0 then
      (diskEntries s.dev (s.field k (.indirect i))).filter (· ≠ 0)
    else []

/-- The block numbers `destroy_object` releases for the object in slot `k`, in order. -/
def released (s : Store) (k : ℕ) : List ℤ :=
  (List.finRange 4).flatMap (releasedDirect s k) ++
    (List.finRange 4).flatMap (releasedIndirect s k)

/-- Toggle the bits of a list of blocks. -/
def toggleDataBits (blks : List ℤ) (words : ℕ → BitVec 32) : ℕ → BitVec 32 :=
  blks.foldl (fun words blk ↦ toggleDataBit (blk - 22528 + 287) words) words

/-- Drop the cache lines of a list of blocks. -/
def dropLines (blks : List ℤ) (d : Device) : Device := blks.foldl (fun d blk ↦ dropLine blk d) d

/-- Releasing the blocks of a list changes the bitmap and the cache arrays only. -/
structure Frees (blks : List ℤ) (s s' : Store) : Prop where
  dev : s'.dev = dropLines blks s.dev
  dataBitmap : s'.dataBitmap = toggleDataBits blks s.dataBitmap
  a : s'.a = s.a
  backup : s'.backup = s.backup
  inodeBitmap : s'.inodeBitmap = s.inodeBitmap
  dirtyArray : s'.dirtyArray = s.dirtyArray
  locks : s'.iLock = s.iLock ∧ s'.dLock = s.dLock

variable {s s' s'' : Store} {blks blks' : List ℤ} {k : ℕ}

theorem Frees.refl (s : Store) : Frees [] s s := ⟨rfl, rfl, rfl, rfl, rfl, rfl, rfl, rfl⟩

theorem Frees.trans (h : Frees blks s s') (h' : Frees blks' s' s'') :
    Frees (blks ++ blks') s s'' where
  dev := by rw [h'.dev, h.dev, dropLines, dropLines, dropLines, List.foldl_append]
  dataBitmap := by
    rw [h'.dataBitmap, h.dataBitmap, toggleDataBits, toggleDataBits, toggleDataBits,
      List.foldl_append]
  a := h'.a.trans h.a
  backup := h'.backup.trans h.backup
  inodeBitmap := h'.inodeBitmap.trans h.inodeBitmap
  dirtyArray := h'.dirtyArray.trans h.dirtyArray
  locks := ⟨h'.locks.1.trans h.locks.1, h'.locks.2.trans h.locks.2⟩

@[simp] theorem dropLine_disk (blk : ℤ) (d : Device) : (dropLine blk d).disk = d.disk := by
  unfold dropLine
  split_ifs <;> rfl

@[simp] theorem dropLines_disk (blks : List ℤ) (d : Device) :
    (dropLines blks d).disk = d.disk := by
  induction blks generalizing d with
  | nil => rfl
  | cons blk blks ih =>
    rw [dropLines, List.foldl_cons]
    exact (ih _).trans (dropLine_disk blk d)

theorem Frees.field (h : Frees blks s s') (k : ℕ) (f : Field) : s'.field k f = s.field k f := by
  rw [Store.field, Store.field, h.a]

theorem Frees.diskEntries (h : Frees blks s s') (indirAdd : ℤ) :
    diskEntries s'.dev indirAdd = diskEntries s.dev indirAdd := by
  unfold Objstore.diskEntries readBlock
  rw [h.dev, dropLines_disk]

theorem Frees.releasedDirect (h : Frees blks s s') (k : ℕ) (i : Fin 4) :
    releasedDirect s' k i = releasedDirect s k i := by
  rw [Objstore.releasedDirect, Objstore.releasedDirect, h.field]

theorem Frees.releasedIndirect (h : Frees blks s s') (k : ℕ) (i : Fin 4) :
    releasedIndirect s' k i = releasedIndirect s k i := by
  rw [Objstore.releasedIndirect, Objstore.releasedIndirect, h.field, h.diskEntries]

/-- A relation between the stores before and after a list of blocks is released: it holds of one
block, released in either order of the two steps, and of one release after another. -/
structure ReleaseRule (P : List ℤ → Store → Store → Prop) : Prop where
  refl : ∀ s, P [] s s
  trans : ∀ {blks blks' : List ℤ} {s s' s'' : Store}, P blks s s' → P blks' s' s'' →
    P (blks ++ blks') s s''
  dropToggle : ∀ s blk, P [blk] s ((s.drop blk).toggle blk)
  toggleDrop : ∀ s blk, P [blk] s ((s.toggle blk).drop blk)
  frees : ∀ {blks : List ℤ} {s s' : Store}, P blks s s' → Frees blks s s'

theorem releaseRule_frees : ReleaseRule Frees :=
  ⟨Frees.refl, Frees.trans, fun _ _ ↦ ⟨rfl, rfl, rfl, rfl, rfl, rfl, rfl, rfl⟩,
    fun _ _ ↦ ⟨rfl, rfl, rfl, rfl, rfl, rfl, rfl, rfl⟩, id⟩

namespace ReleaseRule

variable {P : List ℤ → Store → Store → Prop}

/-- A loop releases what its turns release, each turn seeing the record and the disk unchanged. -/
theorem foldl {α : Type*} (h : ReleaseRule P) (turn : Store → α → Store)
    (part : Store → α → List ℤ) (hturn : ∀ s x, P (part s x) s (turn s x))
    (hpart : ∀ s s' blks x, Frees blks s s' → part s' x = part s x) (xs : List α) (s : Store) :
    P (xs.flatMap (part s)) s (xs.foldl turn s) := by
  induction xs generalizing s with
  | nil => exact h.refl s
  | cons x xs ih =>
    have hrest := ih (turn s x)
    have hsame : xs.flatMap (part (turn s x)) = xs.flatMap (part s) :=
      List.flatMap_congr fun y _ ↦ hpart _ _ _ y (h.frees (hturn s x))
    rw [hsame] at hrest
    exact h.trans (hturn s x) hrest

theorem freeDirect (h : ReleaseRule P) (k : ℕ) (s : Store) (i : Fin 4) :
    P (releasedDirect s k i) s (freeDirect k s i) := by
  unfold releasedDirect Objstore.freeDirect
  by_cases hzero : s.field k (.direct i) = 0
  · simpa [hzero] using h.refl s
  · simpa [hzero] using h.dropToggle s _

theorem freeEntries (h : ReleaseRule P) (entries : List ℤ) (s : Store) :
    P (entries.filter (· ≠ 0)) s (entries.foldl freeEntry s) := by
  have hloop := h.foldl freeEntry (fun _ entry ↦ [entry].filter (· ≠ 0)) (fun s entry ↦ ?_)
    (fun _ _ _ _ _ ↦ rfl) entries s
  · have hlist : entries.flatMap (fun entry ↦ [entry].filter (· ≠ 0)) =
        entries.filter (· ≠ 0) := by
      clear hloop
      induction entries with
      | nil => rfl
      | cons entry entries ih =>
        rw [List.flatMap_cons, ih, List.filter_cons, List.filter_cons]
        split_ifs <;> rfl
    rwa [hlist] at hloop
  · unfold freeEntry
    by_cases hzero : entry = 0
    · simpa [hzero] using h.refl s
    · simpa [hzero] using h.toggleDrop s entry

theorem freeIndirect (h : ReleaseRule P) (k : ℕ) (s : Store) (i : Fin 4) :
    P (releasedIndirect s k i) s (freeIndirect k s i) := by
  have hhead := h.toggleDrop s (s.field k (.indirect i))
  by_cases hzero : s.field k (.indirect i) = 0
  · have hlist : releasedIndirect s k i = [s.field k (.indirect i)] := by
      rw [releasedIndirect, if_neg (not_not.mpr hzero)]
    have hstore : Objstore.freeIndirect k s i =
        (s.toggle (s.field k (.indirect i))).drop (s.field k (.indirect i)) :=
      if_neg (not_not.mpr hzero)
    rwa [hlist, hstore]
  · have hlist : releasedIndirect s k i = [s.field k (.indirect i)] ++
        (diskEntries s.dev (s.field k (.indirect i))).filter (· ≠ 0) := by
      rw [releasedIndirect, if_pos hzero, List.singleton_append]
    have hstore : Objstore.freeIndirect k s i =
        (diskEntries ((s.toggle (s.field k (.indirect i))).drop (s.field k (.indirect i))).dev
          (s.field k (.indirect i))).foldl freeEntry
          ((s.toggle (s.field k (.indirect i))).drop (s.field k (.indirect i))) :=
      if_pos hzero
    rw [hlist, hstore, ← (h.frees hhead).diskEntries]
    exact h.trans hhead (h.freeEntries _ _)

/-- The two pointer loops release the blocks of the record. -/
theorem loops (h : ReleaseRule P) (k : ℕ) (s : Store) :
    P (released s k) s ((List.finRange 4).foldl (Objstore.freeIndirect k)
      ((List.finRange 4).foldl (Objstore.freeDirect k) s)) := by
  have hdirect := h.foldl (Objstore.freeDirect k) (fun s i ↦ releasedDirect s k i)
    (h.freeDirect k) (fun _ _ _ i hfrees ↦ hfrees.releasedDirect k i) (List.finRange 4) s
  have hindirect := h.foldl (Objstore.freeIndirect k) (fun s i ↦ releasedIndirect s k i)
    (h.freeIndirect k) (fun _ _ _ i hfrees ↦ hfrees.releasedIndirect k i) (List.finRange 4)
    ((List.finRange 4).foldl (Objstore.freeDirect k) s)
  have hsame : (List.finRange 4).flatMap
      (releasedIndirect ((List.finRange 4).foldl (Objstore.freeDirect k) s) k) =
      (List.finRange 4).flatMap (releasedIndirect s k) :=
    List.flatMap_congr fun i _ ↦ (h.frees hdirect).releasedIndirect k i
  rw [hsame] at hindirect
  exact h.trans hdirect hindirect

end ReleaseRule

/-- The two pointer loops change what the release of the blocks of the record changes. -/
theorem frees_loops (k : ℕ) (s : Store) :
    Frees (released s k) s
      ((List.finRange 4).foldl (freeIndirect k) ((List.finRange 4).foldl (freeDirect k) s)) :=
  releaseRule_frees.loops k s

/-! ### The call as a whole -/

/-- The fields `destroy_object` resets. -/
def Field.reset : Field → Bool
  | .cacheIndex => false
  | .dirty => false
  | _ => true

/-- What `destroy_object` does once it has found slot `k`. -/
structure Destroyed (k : ℕ) (s s' : Store) : Prop where
  field : ∀ k' f, s'.field k' f = if k' = k ∧ f.reset = true then 0 else s.field k' f
  bytes : ∀ n, n < 88 * k ∨ 88 * k + 56 ≤ n → s'.a n = s.a n
  inodeBit : ∀ k', s'.inodeBit k' = if k' = k then false else s.inodeBit k'
  dirtyArray : s'.dirtyArray = Function.update s.dirtyArray (k / 46) 1
  dev : s'.dev = dropLines (released s k) s.dev
  dataBitmap : s'.dataBitmap = toggleDataBits (released s k) s.dataBitmap
  backup : s'.backup = s.backup
  locks : s'.iLock = false ∧ s'.dLock = s.dLock

theorem clearPointers_loop (k : ℕ) (s : Store) :
    let s' := (List.finRange 4).foldl (clearPointers k) s
    (∀ k' f, s'.field k' f = if k' = k ∧ f.pointer = true then 0 else s.field k' f) ∧
      (∀ n, n < 88 * k ∨ 88 * k + 56 ≤ n → s'.a n = s.a n) ∧
      s' = { s with a := s'.a } := by
  have hloop : (List.finRange 4).foldl (clearPointers k) s =
      clearPointers k (clearPointers k (clearPointers k (clearPointers k s 0) 1) 2) 3 := rfl
  have hturn (s : Store) (i : Fin 4) (n : ℕ) (hn : n < 88 * k ∨ 88 * k + 56 ≤ n) :
      (clearPointers k s i).a n = s.a n :=
    (setField_of_outside hn).trans (setField_of_outside hn)
  refine ⟨fun k' f ↦ ?_, fun n hn ↦ ?_, rfl⟩
  · rw [hloop]
    simp only [clearPointers, field_assign]
    by_cases hk : k' = k
    · cases f with
      | direct i => fin_cases i <;> simp [hk, Field.pointer]
      | indirect i => fin_cases i <;> simp [hk, Field.pointer]
      | _ => simp [hk, Field.pointer]
    · simp [hk]
  · rw [hloop, hturn _ _ n hn, hturn _ _ n hn, hturn _ _ n hn, hturn _ _ n hn]

private theorem stopAtKey_body (key : Key) (s : Store) (k : ℕ) :
    Bitmap.atBit (stopAtKey key s) k () =
      if decide (s.inodeBit k = true ∧ s.field k .id ≠ 0 ∧ keyEq s.a k key = true) = true then
        .error (k / 32, Bitmap.mask (k % 32), k)
      else .ok () := by
  simp only [Bitmap.atBit, stopAtKey, Bitmap.and_mask_ne_zero_iff, decide_eq_true_eq]
  rfl

/-- What a record releases depends on its pointers and on the disk copies of its indirect
blocks. -/
theorem released_congr (hfield : ∀ f : Field, f.pointer = true → s'.field k f = s.field k f)
    (hentries : ∀ r, s.field k (.indirect r) ≠ 0 →
      diskEntries s'.dev (s.field k (.indirect r)) = diskEntries s.dev (s.field k (.indirect r))) :
    released s' k = released s k := by
  have hdirect (i : Fin 4) : releasedDirect s' k i = releasedDirect s k i := by
    rw [releasedDirect, releasedDirect, hfield _ rfl]
  have hindirect (i : Fin 4) : releasedIndirect s' k i = releasedIndirect s k i := by
    rw [releasedIndirect, releasedIndirect, hfield _ rfl]
    split_ifs with hzero
    · rw [hentries i hzero]
    · rfl
  simp only [released, List.flatMap_congr fun i _ ↦ hdirect i,
    List.flatMap_congr fun i _ ↦ hindirect i]

/-- The store in which the inode bit of the found slot is cleared and its inode block flagged. -/
def unlinked (k : ℕ) (s : Store) : Store :=
  Store.markDirty
    { s with
      inodeBitmap := Function.update s.inodeBitmap (k / 32)
        (s.inodeBitmap (k / 32) ^^^ Bitmap.mask (k % 32))
      iLock := false } k

theorem field_reset_head (s : Store) (k k' : ℕ) (f : Field) :
    ((s.assign k .id 0).assign k .size 0).field k' f =
      if k' = k ∧ (f = .id ∨ f = .size) then 0 else s.field k' f := by
  simp only [field_assign]
  by_cases hk : k' = k
  · cases f <;> simp [hk]
  · simp [hk]

/-- Resetting the head of a record, releasing its blocks and clearing its pointers. -/
private theorem destroyed_of_frees {s₁ s₂ : Store} (hbit : s.inodeBit k = true)
    (hs₁ : s₁ = ((unlinked k s).assign k .id 0).assign k .size 0)
    (hfrees : Frees (released s₁ k) s₁ s₂) :
    Destroyed k s ((List.finRange 4).foldl (clearPointers k) s₂) := by
  have hfield₁ (k' : ℕ) (f : Field) :
      s₁.field k' f = if k' = k ∧ (f = .id ∨ f = .size) then 0 else s.field k' f :=
    hs₁ ▸ field_reset_head (unlinked k s) k k' f
  have hdev₁ : s₁.dev = s.dev := hs₁ ▸ rfl
  have hreleased : released s₁ k = released s k := by
    refine released_congr (fun f hf ↦ ?_) fun r _ ↦ by rw [hdev₁]
    rw [hfield₁, if_neg]
    rintro ⟨-, rfl | rfl⟩ <;> cases hf
  rw [hreleased] at hfrees
  obtain ⟨hfield, hbytes, hrest⟩ := clearPointers_loop k s₂
  generalize (List.finRange 4).foldl (clearPointers k) s₂ = s₃ at hfield hbytes hrest
  have hbytes₁ (n : ℕ) (hn : n < 88 * k ∨ 88 * k + 56 ≤ n) : s₁.a n = s.a n := by
    rw [hs₁]
    exact (setField_of_outside hn).trans (setField_of_outside hn)
  have hinode : s₃.inodeBitmap = Function.update s.inodeBitmap (k / 32)
      (s.inodeBitmap (k / 32) ^^^ Bitmap.mask (k % 32)) :=
    (congrArg Store.inodeBitmap hrest).trans (hfrees.inodeBitmap.trans (hs₁ ▸ rfl))
  refine ⟨fun k' f ↦ ?_, fun n hn ↦ ?_, fun k' ↦ ?_, ?_, ?_, ?_, ?_, ?_, ?_⟩
  · rw [hfield, hfrees.field, hfield₁]
    by_cases hk : k' = k
    · cases f <;> simp [hk, Field.pointer, Field.reset]
    · simp [hk]
  · rw [hbytes n hn, hfrees.a, hbytes₁ n hn]
  · rw [Store.inodeBit, hinode, Bitmap.bit_xor_mask]
    split_ifs with hk
    · rw [hk, ← Store.inodeBit, hbit]
      rfl
    · rfl
  · exact (congrArg Store.dirtyArray hrest).trans (hfrees.dirtyArray.trans (hs₁ ▸ rfl))
  · rw [← hdev₁]
    exact (congrArg Store.dev hrest).trans hfrees.dev
  · have hdata : s₁.dataBitmap = s.dataBitmap := hs₁ ▸ rfl
    rw [← hdata]
    exact (congrArg Store.dataBitmap hrest).trans hfrees.dataBitmap
  · exact (congrArg Store.backup hrest).trans (hfrees.backup.trans (hs₁ ▸ rfl))
  · exact (congrArg Store.iLock hrest).trans (hfrees.locks.1.trans (hs₁ ▸ rfl))
  · exact (congrArg Store.dLock hrest).trans (hfrees.locks.2.trans (hs₁ ▸ rfl))

theorem destroyed_destroyTarget (hbit : s.inodeBit k = true) :
    Destroyed k s (destroyTarget k (unlinked k s)) := by
  unfold destroyTarget
  exact destroyed_of_frees hbit rfl (frees_loops k _)

/-- The search of `destroy_object` leaves at the first live slot with the key. -/
theorem scan_stopAtKey (key : Key) (s : Store) :
    (Bitmap.scanWords (stopAtKey key { s with iLock := true }) 31744 0 0 () = .ok ((), 1015808) ∧
      ∀ k < 1015808, ¬ (s.inodeBit k = true ∧ s.field k .id ≠ 0 ∧ keyEq s.a k key = true)) ∨
    ∃ k < 1015808, (s.inodeBit k = true ∧ s.field k .id ≠ 0 ∧ keyEq s.a k key = true) ∧
      (∀ j < k, ¬ (s.inodeBit j = true ∧ s.field j .id ≠ 0 ∧ keyEq s.a j key = true)) ∧
      Bitmap.scanWords (stopAtKey key { s with iLock := true }) 31744 0 0 () =
        .error (k / 32, Bitmap.mask (k % 32), k) := by
  rcases Bitmap.scanWords_search _ 31744 () _ _ (stopAtKey_body key { s with iLock := true }) with
    ⟨hexit, hall⟩ | ⟨k, hk, hfound, hleast, hexit⟩
  · exact Or.inl ⟨hexit, fun k hk ↦ of_decide_eq_false (hall k hk)⟩
  · exact Or.inr ⟨k, hk, of_decide_eq_true hfound, fun j hj ↦ of_decide_eq_false (hleast j hj),
      hexit⟩

/-- The call resets the first live slot with the key, or dies when there is none. -/
theorem destroyObject_spec (key : Key) (s : Store) :
    (destroyObject key s = .error .nullDeref ∧
      ∀ k < 1015808, ¬ (s.inodeBit k = true ∧ s.field k .id ≠ 0 ∧ keyEq s.a k key = true)) ∨
    ∃ k < 1015808, (s.inodeBit k = true ∧ s.field k .id ≠ 0 ∧ keyEq s.a k key = true) ∧
      (∀ j < k, ¬ (s.inodeBit j = true ∧ s.field j .id ≠ 0 ∧ keyEq s.a j key = true)) ∧
      ∃ s', destroyObject key s = .ok (0, s') ∧ Destroyed k s s' := by
  rcases scan_stopAtKey key s with ⟨hexit, hall⟩ | ⟨k, hk, hlive, hleast, hexit⟩
  · refine Or.inl ⟨?_, hall⟩
    simp only [destroyObject]
    rw [hexit]
  · refine Or.inr ⟨k, hk, hlive, hleast, _, ?_, destroyed_destroyTarget hlive.1⟩
    simp only [destroyObject, hexit]
    rfl

/-! ### Bits -/

private theorem mask_eq_shift : ∀ j < 32, Bitmap.mask j = 1#32 <<< ((31 - j) % 32) := by
  decide

/-- The toggle for a block hits the bit 574 places past the one the allocator gave it; for a zero
pointer it falls outside the bitmap. -/
theorem bit_toggleDataBit {blk : ℤ} (hblk : blk = 0 ∨ 22815 ≤ blk) {j : ℕ} (hj : j < 8388608)
    (words : ℕ → BitVec 32) :
    Bitmap.bit (toggleDataBit (blk - 22528 + 287) words) j =
      if blk = 22241 + j then !Bitmap.bit words j else Bitmap.bit words j := by
  rcases hblk with rfl | hblk
  · rw [if_neg (by omega)]
    rfl
  · obtain ⟨p, hp⟩ : ∃ p : ℕ, blk - 22528 + 287 = p := ⟨(blk - 22241).toNat, by omega⟩
    have hdiv : (p : ℤ).tdiv 32 = ((p / 32 : ℕ) : ℤ) := by
      rw [Int.tdiv_eq_ediv_of_nonneg (Int.natCast_nonneg p)]
      norm_cast
    have hmod : (p : ℤ).tmod 32 = ((p % 32 : ℕ) : ℤ) := by
      rw [Int.tmod_eq_emod_of_nonneg (Int.natCast_nonneg p)]
      norm_cast
    have hshift : (31 - ((p % 32 : ℕ) : ℤ)).toNat = 31 - p % 32 := by omega
    rw [hp, toggleDataBit, hdiv, hmod, hshift, Int.toNat_natCast,
      ← mask_eq_shift _ (Nat.mod_lt p (by norm_num))]
    by_cases hin : p < 8388608
    · rw [if_pos (by omega), Bitmap.bit_xor_mask]
      exact if_congr (by omega) rfl rfl
    · rw [if_neg (by omega), if_neg (by omega)]

/-- A bit is inverted as often as the block 574 places below its own is released. -/
theorem bit_toggleDataBits {blks : List ℤ} (hblks : ∀ blk ∈ blks, blk = 0 ∨ 22815 ≤ blk) {j : ℕ}
    (hj : j < 8388608) (words : ℕ → BitVec 32) :
    Bitmap.bit (toggleDataBits blks words) j =
      (Bitmap.bit words j ^^ decide (blks.count (22241 + (j : ℤ)) % 2 = 1)) := by
  induction blks generalizing words with
  | nil => simp [toggleDataBits]
  | cons blk blks ih =>
    have hrest := ih (fun b hb ↦ hblks b (List.mem_cons_of_mem blk hb))
      (toggleDataBit (blk - 22528 + 287) words)
    have hstep : toggleDataBits (blk :: blks) words =
        toggleDataBits blks (toggleDataBit (blk - 22528 + 287) words) := rfl
    rw [hstep, hrest, bit_toggleDataBit (hblks blk List.mem_cons_self) hj, List.count_cons]
    by_cases hhit : blk = 22241 + j
    · have hparity : (blks.count (22241 + (j : ℤ)) + 1) % 2 = 1 ↔
          ¬ blks.count (22241 + (j : ℤ)) % 2 = 1 := by omega
      simp only [hhit, if_true, beq_self_eq_true, hparity, decide_not]
      cases Bitmap.bit words j <;> simp
    · have hne : ¬ (blk == 22241 + (j : ℤ)) = true := by simpa using hhit
      simp only [if_neg hhit, if_neg hne, Nat.add_zero]

/-- A bit whose block minus 574 is not released keeps its value. -/
theorem bit_toggleDataBits_of_notMem {blks : List ℤ}
    (hblks : ∀ blk ∈ blks, blk = 0 ∨ 22815 ≤ blk) {j : ℕ} (hj : j < 8388608)
    (hnot : 22241 + (j : ℤ) ∉ blks) (words : ℕ → BitVec 32) :
    Bitmap.bit (toggleDataBits blks words) j = Bitmap.bit words j := by
  rw [bit_toggleDataBits hblks hj, List.count_eq_zero_of_not_mem hnot]
  simp

end OsAssignments.Objstore
