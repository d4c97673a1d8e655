import OsAssignments.Objstore.Store

/-!
# Writing and reading the blocks of an object

`objstore_write` and `objstore_read` address an object by block index: indices 0 to 3 are the
direct pointers, and the four indirect blocks cover 1024 indices each, from 4, 1028, 2052 and 3076
on. The source spells these four ranges out; they are one function here, `writeIndirect` or
`readIndirect`, applied to the range and its first index.

A write always allocates a block for its data. The first index of a range allocates a second one:
the first block then becomes the indirect block. `Written` collects what a write does to the
table, the bitmap and the device, the last as a sequence of block calls; it is proved for the
three kinds of index in `written_direct`, `written_first` and `written_next`.
`readLoop_spec` does the same for the reading loop.

Scope. A buffer has `size` bytes, at least one: FUSE sends no empty write. Whatever the size, one
write stores one block. The size of a read is such that `size + 4095` fits an `int`. Pages from
`malloc_4k` are zero filled.
-/

set_option autoImplicit false
set_option relaxedAutoImplicit false

namespace OsAssignments.Objstore

open Library

/-! ### Writing -/

namespace Store

/-- `cache_blk_read` on the device of the store. -/
def blkRead (bld : Build) (blk : ℤ) (temp : Block) (s : Store) : Block × Store :=
  ((cacheBlkRead bld blk temp s.dev).1, { s with dev := (cacheBlkRead bld blk temp s.dev).2 })

/-- `cache_blk_write` on the device of the store. -/
def blkWrite (bld : Build) (blk : ℤ) (temp : Block) (s : Store) : Store :=
  { s with dev := cacheBlkWrite bld blk temp s.dev }

end Store

/-- Address of `target->direct[a]`, for any `a`. -/
def directAddr (k : ℕ) (a : ℤ) : ℤ := 88 * k + 24 + 4 * a

/-- The branch of `objstore_write` for an indirect range whose first block index is `base`. -/
def writeIndirect (bld : Build) (k : ℕ) (r : Fin 4) (base a data1 : ℤ) (temp : Block)
    (s : Store) : Store :=
  if a = base then
    -- The block allocated first becomes the indirect block, the second one holds the data.
    let (data2, s) := freeDataBlock s
    let indirectBlock := Block.zero.setInt 0 data2
    let s := s.assign k (.indirect r) data1
    let s := s.blkWrite bld data1 indirectBlock
    s.blkWrite bld data2 temp
  else
    let (indirectBlock, s) := s.blkRead bld (s.field k (.indirect r)) Block.zero
    let indirectBlock := indirectBlock.setInt (a - base).toNat data1
    let s := s.blkWrite bld (s.field k (.indirect r)) indirectBlock
    s.blkWrite bld data1 temp

/-- `objstore_write`. The block index is narrowed to an `int`; a negative one addresses memory
before `direct[]`. -/
def objstoreWrite (bld : Build) (objid : ℤ) (buff : List UInt8) (offset : ℤ) (s : Store) :
    Outcome ℤ :=
  match findTarget objid true s with
  | (none, s) => .ok (-1, s)
  | (some k, s) =>
    let a := Int.bmod (offset.tdiv 4096) (2 ^ 32)
    let size : ℤ := buff.length
    let (data1, s) := freeDataBlock s
    let temp := Block.ofList buff
    let s := s.assign k .size (s.field k .size + size)
    if a ≤ 3 then
      let s := s.blkWrite bld data1 temp
      if directAddr k a < 0 then .error .wildAddress
      else .ok (size, { s with a := s.a.storeInt (directAddr k a).toNat 4 data1 })
    else if 4 ≤ a ∧ a < 1028 then .ok (size, writeIndirect bld k 0 4 a data1 temp s)
    else if 1028 ≤ a ∧ a < 2052 then .ok (size, writeIndirect bld k 1 1028 a data1 temp s)
    else if 2052 ≤ a ∧ a < 3076 then .ok (size, writeIndirect bld k 2 2052 a data1 temp s)
    else if 3076 ≤ a ∧ a < 4100 then .ok (size, writeIndirect bld k 3 3076 a data1 temp s)
    else .ok (size, s)

/-! ### Reading -/

/-- The branch of `objstore_read` for an indirect range whose first block index is `base`. -/
def readIndirect (bld : Build) (k : ℕ) (r : Fin 4) (base a : ℤ) (s : Store) : Block × Store :=
  let (indirectBlock, s) := s.blkRead bld (s.field k (.indirect r)) Block.zero
  let blockAdd := indirectBlock.int (a - base).toNat
  s.blkRead bld blockAdd Block.zero

/-- A use of the pointer `target`, which dies when it is null. -/
def deref {α : Type} (target : Option ℕ) (use : ℕ → Except Fault α) : Except Fault α :=
  match target with
  | none => .error .nullDeref
  | some k => use k

/-- One turn of the loop of `objstore_read`; `none` is the `break` past the last index. -/
def readTurn (bld : Build) (target : Option ℕ) (a : ℤ) (s : Store) :
    Except Fault (Option (Block × Store)) :=
  if a ≤ 3 then
    deref target fun k ↦
      if directAddr k a < 0 then .error .wildAddress
      else .ok (some (s.blkRead bld (s.a.loadInt (directAddr k a).toNat 4) Block.zero))
  else if 4 ≤ a ∧ a < 1028 then
    deref target fun k ↦ .ok (some (readIndirect bld k 0 4 a s))
  else if 1028 ≤ a ∧ a < 2052 then
    deref target fun k ↦ .ok (some (readIndirect bld k 1 1028 a s))
  else if 2052 ≤ a ∧ a < 3076 then
    deref target fun k ↦ .ok (some (readIndirect bld k 2 2052 a s))
  else if 3076 ≤ a ∧ a < 4100 then
    deref target fun k ↦ .ok (some (readIndirect bld k 3 3076 a s))
  else .ok none

/-- The loop of `objstore_read`: the blocks copied to `temp`, in order. -/
def readLoop (bld : Build) (target : Option ℕ) :
    ℕ → ℤ → Store → Except Fault (List Block × Store)
  | 0, _, s => .ok ([], s)
  | blocks + 1, curr, s =>
    match readTurn bld target (curr.tdiv 4096) s with
    | .error fault => .error fault
    | .ok none => .ok ([], s)
    | .ok (some (block, s)) =>
      match readLoop bld target blocks (curr + 4096) s with
      | .error fault => .error fault
      | .ok (rest, s) => .ok (block :: rest, s)

/-- The first `size` bytes of the pages in `temp`. -/
def bytesOf (temp : List Block) (size : ℕ) : List UInt8 :=
  (List.range size).map fun i ↦ (temp.getD (i / 4096) Block.zero).byte (i % 4096)

/-- `objstore_read`: the return value and the bytes copied to the caller's buffer. -/
def objstoreRead (bld : Build) (objid : ℤ) (size : ℕ) (offset : ℤ) (s : Store) :
    Outcome (ℤ × List UInt8) :=
  let curr := Int.bmod offset (2 ^ 32)
  match findTarget objid false s with
  | (target, s) =>
    match readLoop bld target ((size + 4095) / 4096) curr s with
    | .error fault => .error fault
    | .ok (temp, s) => .ok ((size, bytesOf temp size), s)

/-! ### Live objects and allocation -/

/-- Slot `k` holds a live object: its inode bit is set and its id is not zero. -/
structure Live (s : Store) (k : ℕ) : Prop where
  slot : k < 1015808
  bit : s.inodeBit k = true
  id : s.field k .id ≠ 0

/-- Bit `k` is the least clear bit of `data_bitmap`. -/
structure FirstClear (s : Store) (k : ℕ) : Prop where
  lt : k < 8388608
  clear : s.dataBit k = false
  least : ∀ j < k, s.dataBit j = true

/-- The store after bit `k` of `data_bitmap` is taken. -/
def Store.allocated (s : Store) (k : ℕ) : Store :=
  { s with
    dataBitmap := Function.update s.dataBitmap (k / 32)
      (s.dataBitmap (k / 32) ||| Bitmap.mask (k % 32))
    dLock := false }

variable {bld : Build} {s s' : Store} {k : ℕ} {objid : ℤ} {buff : List UInt8}

theorem freeDataBlock_eq (hk : FirstClear s k) :
    freeDataBlock s = (((22815 + k : ℕ) : ℤ), s.allocated k) := by
  obtain ⟨k', hk', hclear', hleast', heq⟩ := freeDataBlock_spec ⟨k, hk.lt, hk.clear⟩
  have hkk : k' = k := by
    rcases lt_trichotomy k' k with h | h | h
    · have := hk.least k' h
      rw [hclear'] at this
      cases this
    · exact h
    · have := hleast' k h
      rw [hk.clear] at this
      cases this
  rw [heq, hkk]
  rfl

/-- Some bit is clear as soon as the clear bits are counted to be at least one. -/
theorem exists_firstClear (h : 1 ≤ (Bitmap.clearBits s.dataBitmap 8388608).card) :
    ∃ k, FirstClear s k := by
  obtain ⟨k, hk⟩ := Finset.card_pos.mp h
  rw [Bitmap.mem_clearBits] at hk
  obtain ⟨j, hj, hclear, hleast, -⟩ := freeDataBlock_spec ⟨k, hk.1, hk.2⟩
  exact ⟨j, hj, hclear, hleast⟩

/-- The object of an id is found in its slot when ids of live objects are distinct. -/
theorem findTarget_eq (hk : Live s k) (hid : s.field k .id = objid)
    (huniq : ∀ j, Live s j → s.field j .id = objid → j = k) (setDirty : Bool) :
    findTarget objid setDirty s = (some k, if setDirty then s.markDirty k else s) := by
  rcases findTarget_spec s objid setDirty with ⟨-, hnone⟩ | ⟨j, hj, hfound, -, heq⟩
  · exact absurd ⟨hk.bit, hid⟩ (hnone k hk.slot)
  · have hjk := huniq j ⟨hj, hfound.1, by rw [hfound.2, ← hid]; exact hk.id⟩ hfound.2
    rw [heq, hjk]

/-! ### What a write does -/

/-- The effect of a write of `len` bytes to the object in slot `k`: at most one pointer of the
record is assigned, the listed bits are taken and the listed block calls are made. -/
structure Written (bld : Build) (k len : ℕ) (ptr : Option (Field × ℕ)) (bits : List ℕ)
    (calls : List BlockCall) (s s' : Store) : Prop where
  size : s'.field k .size = Int.bmod (s.field k .size + len) (256 ^ 8)
  assigned : ∀ f b, ptr = some (f, b) → s'.field k f = (b : ℤ)
  field : ∀ k' f, (k' = k → f ≠ .size ∧ ∀ b, ptr ≠ some (f, b)) → s'.field k' f = s.field k' f
  bytes : ∀ n, n < 88 * k ∨ 88 * k + 56 ≤ n → s'.a n = s.a n
  dataBit : ∀ i, s'.dataBit i = (decide (i ∈ bits) || s.dataBit i)
  inodeBitmap : s'.inodeBitmap = s.inodeBitmap
  dirtyArray : s'.dirtyArray = Function.update s.dirtyArray (k / 46) 1
  backup : s'.backup = s.backup
  locks : s'.iLock = s.iLock ∧ s'.dLock = false
  dev : s'.dev = runCalls bld calls s.dev

theorem tdiv_blockSize (offset : ℕ) : (offset : ℤ).tdiv 4096 = ((offset / 4096 : ℕ) : ℤ) := by
  rw [Int.tdiv_eq_ediv_of_nonneg (Int.natCast_nonneg offset)]
  norm_cast

theorem blockIndex_eq {offset a : ℕ} (hoffset : offset / 4096 = a) (ha : a < 4100) :
    Int.bmod ((offset : ℤ).tdiv 4096) (2 ^ 32) = a := by
  rw [tdiv_blockSize, hoffset]
  exact wrap_of_range (by omega) (by omega)

theorem directAddr_eq (k : ℕ) (a : Fin 4) :
    (directAddr k (a : ℕ)).toNat = fieldAddr k (.direct a) := by
  simp only [directAddr, fieldAddr, Field.offset]
  omega

/-- A data-region block number is stored in an `int` field as it is. -/
theorem wrap_blk {b : ℕ} (hb : b < 8411423) : Int.bmod (b : ℤ) (256 ^ 4) = b :=
  wrap_of_range (by omega) (by omega)

/-- The prefix that the writes share: the lookup, the first allocation and the new size. -/
def prepared (s : Store) (k j len : ℕ) : Store :=
  ((s.markDirty k).allocated j).assign k .size (s.field k .size + len)

/-- A record assignment on top of the shared prefix, with any further allocations and calls. -/
private theorem written_of_assign {j len : ℕ} {bits : List ℕ} {calls : List BlockCall}
    {f : Field} {b : ℕ} (hf : f.pointer = true) (hb : b < 8411423)
    (ha : s'.a = setField (prepared s k j len).a k f b)
    (hbits : ∀ i, s'.dataBit i = (decide (i ∈ bits) || s.dataBit i))
    (hrest : s'.inodeBitmap = s.inodeBitmap ∧
      s'.dirtyArray = Function.update s.dirtyArray (k / 46) 1 ∧ s'.backup = s.backup ∧
      s'.iLock = s.iLock ∧ s'.dLock = false)
    (hdev : s'.dev = runCalls bld calls s.dev) :
    Written bld k len (some (f, b)) bits calls s s' := by
  have hwidth : f.width = 4 := by cases f <;> first | rfl | cases hf
  have hsize : f ≠ .size := by rintro rfl; cases hf
  have hfield (k' : ℕ) (f' : Field) : s'.field k' f' =
      getField (setField (setField s.a k .size (s.field k .size + len)) k f b) k' f' := by
    rw [Store.field, ha]
    rfl
  refine ⟨?_, ?_, ?_, fun n hn ↦ ?_, hbits, hrest.1, hrest.2.1, hrest.2.2.1, hrest.2.2.2, hdev⟩
  · rw [hfield, getField_setField_of_ne (Or.inr hsize.symm), getField_setField,
      if_pos ⟨rfl, rfl⟩]
    rfl
  · rintro f' b' heq
    obtain ⟨rfl, rfl⟩ := Prod.mk.inj (Option.some.inj heq)
    rw [hfield, getField_setField, if_pos ⟨rfl, rfl⟩, hwidth, wrap_blk hb]
  · intro k' f' hne
    rw [hfield]
    by_cases hk : k' = k
    · obtain ⟨hs, hp⟩ := hne hk
      have hff : f' ≠ f := fun h ↦ hp b (by rw [h])
      rw [getField_setField_of_ne (Or.inr hff), getField_setField_of_ne (Or.inr hs)]
      rfl
    · rw [getField_setField_of_ne (Or.inl hk), getField_setField_of_ne (Or.inl hk)]
      rfl
  · rw [ha]
    exact (setField_of_outside hn).trans (setField_of_outside hn)

/-- The shared prefix alone, with any further allocations and calls. -/
private theorem written_of_prepared {j len : ℕ} {bits : List ℕ} {calls : List BlockCall}
    (ha : s'.a = (prepared s k j len).a)
    (hbits : ∀ i, s'.dataBit i = (decide (i ∈ bits) || s.dataBit i))
    (hrest : s'.inodeBitmap = s.inodeBitmap ∧
      s'.dirtyArray = Function.update s.dirtyArray (k / 46) 1 ∧ s'.backup = s.backup ∧
      s'.iLock = s.iLock ∧ s'.dLock = false)
    (hdev : s'.dev = runCalls bld calls s.dev) :
    Written bld k len none bits calls s s' := by
  have hfield (k' : ℕ) (f' : Field) : s'.field k' f' =
      getField (setField s.a k .size (s.field k .size + len)) k' f' := by
    rw [Store.field, ha]
    rfl
  refine ⟨?_, (fun _ _ h ↦ nomatch h), fun k' f' hne ↦ ?_, fun n hn ↦ ?_, hbits, hrest.1,
    hrest.2.1, hrest.2.2.1, hrest.2.2.2, hdev⟩
  · rw [hfield, getField_setField, if_pos ⟨rfl, rfl⟩]
    rfl
  · rw [hfield, getField_setField_of_ne]
    · rfl
    · by_cases hk : k' = k
      · exact Or.inr (hne hk).1
      · exact Or.inl hk
  · rw [ha]
    exact setField_of_outside hn

theorem dataBit_allocated (s : Store) (j i : ℕ) :
    (s.allocated j).dataBit i = (decide (i ∈ [j]) || s.dataBit i) := by
  show Bitmap.bit _ i = _
  rw [Store.allocated, dataBit_alloc]
  by_cases hi : i = j <;> simp [hi]

theorem dataBit_prepared (s : Store) (k j len i : ℕ) :
    (prepared s k j len).dataBit i = (decide (i ∈ [j]) || s.dataBit i) := by
  rw [← dataBit_allocated]
  unfold prepared Store.dataBit
  rfl

section Write

variable (hlive : Live s k) (hid : s.field k .id = objid)
  (huniq : ∀ i, Live s i → s.field i .id = objid → i = k)

include hlive hid huniq

variable (bld buff) in
/-- A write to a direct index allocates a block, stores the data there and points to it. -/
theorem written_direct {a : Fin 4} {offset j : ℕ} (hoffset : offset / 4096 = a)
    (hj : FirstClear s j) :
    ∃ s', objstoreWrite bld objid buff offset s = .ok (buff.length, s') ∧
      Written bld k buff.length (some (.direct a, 22815 + j)) [j]
        [.write (22815 + j) (Block.ofList buff)] s s' := by
  have htarget := findTarget_eq hlive hid huniq true
  have hj' : FirstClear (s.markDirty k) j := ⟨hj.lt, hj.clear, hj.least⟩
  have ha : ((a : ℕ) : ℤ) ≤ 3 := by omega
  have hlt := hj.lt
  have haddr : ¬ directAddr k ((a : ℕ) : ℤ) < 0 := by
    unfold directAddr
    omega
  simp only [objstoreWrite, htarget, blockIndex_eq hoffset (by omega), if_true,
    freeDataBlock_eq hj', if_pos ha, if_neg haddr]
  refine ⟨_, rfl, written_of_assign (j := j) rfl (by omega) ?_ (fun i ↦ ?_)
    ⟨rfl, rfl, rfl, rfl, rfl⟩ rfl⟩
  · rw [directAddr_eq]
    rfl
  · exact dataBit_allocated s j i

/-- The indirect branch that a block index selects. -/
theorem objstoreWrite_indirect {r : Fin 4} {i offset j : ℕ} (hi : i < 1024)
    (hoffset : offset / 4096 = 4 + 1024 * r + i) (hj : FirstClear s j) :
    objstoreWrite bld objid buff offset s = .ok (buff.length,
      writeIndirect bld k r (4 + 1024 * (r : ℕ) : ℕ) (4 + 1024 * (r : ℕ) + i : ℕ)
        (22815 + j : ℕ) (Block.ofList buff) (prepared s k j buff.length)) := by
  have htarget := findTarget_eq hlive hid huniq true
  have hj' : FirstClear (s.markDirty k) j := ⟨hj.lt, hj.clear, hj.least⟩
  have hr := r.isLt
  simp only [objstoreWrite, htarget, blockIndex_eq hoffset (by omega), if_true,
    freeDataBlock_eq hj']
  rw [if_neg (by omega)]
  fin_cases r
  · rw [if_pos (by constructor <;> simp only [] <;> omega)]
    rfl
  · rw [if_neg (by simp only []; omega), if_pos (by constructor <;> simp only [] <;> omega)]
    rfl
  · rw [if_neg (by simp only []; omega), if_neg (by simp only []; omega),
      if_pos (by constructor <;> simp only [] <;> omega)]
    rfl
  · rw [if_neg (by simp only []; omega), if_neg (by simp only []; omega),
      if_neg (by simp only []; omega), if_pos (by constructor <;> simp only [] <;> omega)]
    rfl

variable (bld buff) in
/-- A write to the first index of a range allocates two blocks: a new indirect block with one
entry, and the block of the data. -/
theorem written_first {r : Fin 4} {offset j₁ j₂ : ℕ} (hoffset : offset / 4096 = 4 + 1024 * r)
    (hj₁ : FirstClear s j₁) (hj₂ : FirstClear (s.allocated j₁) j₂) :
    ∃ s', objstoreWrite bld objid buff offset s = .ok (buff.length, s') ∧
      Written bld k buff.length (some (.indirect r, 22815 + j₁)) [j₁, j₂]
        [.write (22815 + j₁) (Block.zero.setInt 0 ((22815 + j₂ : ℕ) : ℤ)),
          .write (22815 + j₂) (Block.ofList buff)] s s' := by
  have hlt := hj₁.lt
  have hj : FirstClear (prepared s k j₁ buff.length) j₂ := ⟨hj₂.lt, hj₂.clear, hj₂.least⟩
  rw [objstoreWrite_indirect hlive hid huniq (i := 0) (by norm_num) hoffset hj₁, writeIndirect,
    if_pos (by simp), freeDataBlock_eq hj]
  refine ⟨_, rfl, written_of_assign (j := j₁) rfl (by omega) rfl (fun i ↦ ?_)
    ⟨rfl, rfl, rfl, rfl, rfl⟩ rfl⟩
  have hsecond : ((prepared s k j₁ buff.length).allocated j₂).dataBit i =
      (decide (i ∈ [j₂]) || (decide (i ∈ [j₁]) || s.dataBit i)) := by
    rw [dataBit_allocated, dataBit_prepared]
  show ((prepared s k j₁ buff.length).allocated j₂).dataBit i = _
  rw [hsecond]
  by_cases hi₁ : i = j₁ <;> by_cases hi₂ : i = j₂ <;> simp [hi₁, hi₂]

variable (buff) in
/-- A write to a later index of a range allocates one block for the data and enters it in the
indirect block that the record points to. -/
theorem written_next (hdev : BuildOk bld s.dev) {r : Fin 4} {i offset j p : ℕ} (hpos : 0 < i)
    (hi : i < 1024) (hoffset : offset / 4096 = 4 + 1024 * r + i)
    (hp : s.field k (.indirect r) = p) (hj : FirstClear s j) :
    ∃ s', objstoreWrite bld objid buff offset s = .ok (buff.length, s') ∧
      Written bld k buff.length none [j]
        [.read p Block.zero,
          .write p ((logical bld s.dev p).setInt i ((22815 + j : ℕ) : ℤ)),
          .write (22815 + j) (Block.ofList buff)] s s' := by
  have hptr : (prepared s k j buff.length).field k (.indirect r) = p := by
    rw [← hp]
    exact getField_setField_of_ne (Or.inr (by simp))
  have hptr' (dev : Device) :
      ({ prepared s k j buff.length with dev := dev } : Store).field k (.indirect r) = p := hptr
  have hindex : (((4 + 1024 * (r : ℕ) + i : ℕ) : ℤ) - (4 + 1024 * (r : ℕ) : ℕ)).toNat = i := by
    omega
  have hread : (cacheBlkRead bld p Block.zero (prepared s k j buff.length).dev).1 =
      logical bld s.dev p := cacheBlkRead_fst hdev p Block.zero
  rw [objstoreWrite_indirect hlive hid huniq hi hoffset hj, writeIndirect, if_neg (by omega)]
  simp only [hptr, Store.blkRead, hptr', hread, hindex]
  exact ⟨_, rfl, written_of_prepared rfl (dataBit_prepared s k j buff.length)
    ⟨rfl, rfl, rfl, rfl, rfl⟩ rfl⟩

end Write

/-! ### What a read does -/

section Read

/-- A block index past the direct ones falls in one of four ranges. -/
theorem range_lt (a : ℕ) : (a - 4) / 1024 % 4 < 4 := Nat.mod_lt _ (by norm_num)

/-- The block number that `objstore_read` follows for block index `a`, whatever the pointers
hold: an indirect entry is taken from the content of the block the record points to. -/
def followed (bld : Build) (s : Store) (k a : ℕ) : ℤ :=
  if h : a < 4 then s.field k (.direct ⟨a, h⟩)
  else
    (logical bld s.dev (s.field k (.indirect ⟨(a - 4) / 1024 % 4, range_lt a⟩)).toNat).int
      ((a - 4) % 1024)

/-- The block numbers `objstore_read` passes to `cache_blk_read` for block index `a`. -/
def touched (bld : Build) (s : Store) (k a : ℕ) : List ℤ :=
  if a < 4 then [followed bld s k a]
  else [s.field k (.indirect ⟨(a - 4) / 1024 % 4, range_lt a⟩), followed bld s k a]

theorem followed_direct (bld : Build) (s : Store) (k : ℕ) {a : ℕ} (ha : a < 4) :
    followed bld s k a = s.field k (.direct ⟨a, ha⟩) :=
  dif_pos ha

theorem touched_direct (bld : Build) (s : Store) (k : ℕ) {a : ℕ} (ha : a < 4) :
    touched bld s k a = [s.field k (.direct ⟨a, ha⟩)] := by
  rw [touched, if_pos ha, followed_direct bld s k ha]

theorem followed_indirect (bld : Build) (s : Store) (k : ℕ) {r i : ℕ} (hr : r < 4)
    (hi : i < 1024) : followed bld s k (4 + 1024 * r + i) =
      (logical bld s.dev (s.field k (.indirect ⟨r, hr⟩)).toNat).int i := by
  have hrange : (⟨(4 + 1024 * r + i - 4) / 1024 % 4, range_lt _⟩ : Fin 4) =
      ⟨r, hr⟩ := Fin.ext (show (4 + 1024 * r + i - 4) / 1024 % 4 = r by omega)
  have hentry : (4 + 1024 * r + i - 4) % 1024 = i := by omega
  rw [followed, dif_neg (by omega), hrange, hentry]

theorem touched_indirect (bld : Build) (s : Store) (k : ℕ) {r i : ℕ} (hr : r < 4)
    (hi : i < 1024) : touched bld s k (4 + 1024 * r + i) =
      [s.field k (.indirect ⟨r, hr⟩),
        (logical bld s.dev (s.field k (.indirect ⟨r, hr⟩)).toNat).int i] := by
  have hrange : (⟨(4 + 1024 * r + i - 4) / 1024 % 4, range_lt _⟩ : Fin 4) =
      ⟨r, hr⟩ := Fin.ext (show (4 + 1024 * r + i - 4) / 1024 % 4 = r by omega)
  rw [touched, if_neg (by omega), followed_indirect bld s k hr hi, hrange]

/-- The calls are reads of blocks from a list. -/
def ReadsOf (blks : List ℤ) (calls : List BlockCall) : Prop :=
  ∀ call ∈ calls, call.writes = [] ∧ (call.blk : ℤ) ∈ blks

theorem ReadsOf.append {blks : List ℤ} {calls calls' : List BlockCall} (h : ReadsOf blks calls)
    (h' : ReadsOf blks calls') : ReadsOf blks (calls ++ calls') := fun call hcall ↦
  (List.mem_append.mp hcall).elim (h call) (h' call)

theorem ReadsOf.mono {blks blks' : List ℤ} {calls : List BlockCall} (h : ReadsOf blks calls)
    (hsub : ∀ blk ∈ blks, blk ∈ blks') : ReadsOf blks' calls := fun call hcall ↦
  ⟨(h call hcall).1, hsub _ (h call hcall).2⟩

/-- Reads change no content. -/
theorem applyCalls_reads {blks : List ℤ} {calls : List BlockCall} (h : ReadsOf blks calls)
    (m : ℕ → Block) : applyCalls calls m = m := by
  induction calls with
  | nil => rfl
  | cons call calls ih =>
    have hhead : call.apply m = m := by
      cases call with
      | read b temp => rfl
      | write b x => exact absurd (h _ List.mem_cons_self).1 (by simp [BlockCall.writes])
    show applyCalls calls (call.apply m) = m
    rw [hhead]
    exact ih fun call' hcall' ↦ h call' (List.mem_cons_of_mem call hcall')

/-- One call of `cache_blk_read` with a block number that is not negative. -/
theorem blkRead_eq (hdev : BuildOk bld s.dev) {blk : ℤ} (hblk : 0 ≤ blk) :
    s.blkRead bld blk Block.zero = (logical bld s.dev blk.toNat,
      { s with dev := runCalls bld [.read blk.toNat Block.zero] s.dev }) := by
  obtain ⟨b, rfl⟩ := Int.eq_ofNat_of_zero_le hblk
  rw [Store.blkRead, cacheBlkRead_fst hdev, Int.toNat_natCast]
  rfl

/-- The indirect branch that a block index selects. -/
theorem readTurn_indirect (bld : Build) (s : Store) (k : ℕ) (r : Fin 4) {i : ℕ} (hi : i < 1024) :
    readTurn bld (some k) ((4 + 1024 * (r : ℕ) + i : ℕ) : ℤ) s =
      .ok (some
        (readIndirect bld k r (4 + 1024 * (r : ℕ) : ℕ) (4 + 1024 * (r : ℕ) + i : ℕ) s)) := by
  have hr := r.isLt
  rw [readTurn, if_neg (by omega)]
  fin_cases r
  · rw [if_pos (by constructor <;> simp only [] <;> omega)]
    rfl
  · rw [if_neg (by simp only []; omega), if_pos (by constructor <;> simp only [] <;> omega)]
    rfl
  · rw [if_neg (by simp only []; omega), if_neg (by simp only []; omega),
      if_pos (by constructor <;> simp only [] <;> omega)]
    rfl
  · rw [if_neg (by simp only []; omega), if_neg (by simp only []; omega),
      if_neg (by simp only []; omega), if_pos (by constructor <;> simp only [] <;> omega)]
    rfl

/-- One turn of the reading loop at a direct index. -/
theorem readTurn_direct (hdev : BuildOk bld s.dev) (a : Fin 4)
    (hnonneg : 0 ≤ s.field k (.direct a)) :
    readTurn bld (some k) ((a : ℕ) : ℤ) s =
      .ok (some (logical bld s.dev (s.field k (.direct a)).toNat,
        { s with dev :=
          runCalls bld [.read (s.field k (.direct a)).toNat Block.zero] s.dev })) := by
  have haddr : ¬ directAddr k ((a : ℕ) : ℤ) < 0 := by
    unfold directAddr
    omega
  have hload : s.a.loadInt (directAddr k ((a : ℕ) : ℤ)).toNat 4 = s.field k (.direct a) := by
    rw [directAddr_eq]
    rfl
  rw [readTurn, if_pos (by omega), deref, if_neg haddr, hload, blkRead_eq hdev hnonneg]

/-- The indirect branch reads the indirect block and then the block of its entry. -/
theorem readIndirect_eq (hdev : BuildOk bld s.dev) {r : Fin 4} {base a i : ℕ} {ptr ent : ℤ}
    (hi : a = base + i) (hptr : s.field k (.indirect r) = ptr) (hind : 0 ≤ ptr)
    (hent : (logical bld s.dev ptr.toNat).int i = ent) (hpos : 0 ≤ ent) :
    readIndirect bld k r base a s = (logical bld s.dev ent.toNat,
      { s with dev :=
          runCalls bld ([.read ptr.toNat Block.zero] ++ [.read ent.toNat Block.zero]) s.dev }) := by
  have hindex : ((a : ℤ) - (base : ℤ)).toNat = i := by omega
  have hok := buildOk_runCalls hdev [.read ptr.toNat Block.zero]
  have hsame : logical bld (runCalls bld [.read ptr.toNat Block.zero] s.dev) =
      logical bld s.dev := logical_runCalls hdev _
  have hsecond := blkRead_eq
    (s := { s with dev := runCalls bld [.read ptr.toNat Block.zero] s.dev }) hok hpos
  rw [readIndirect, hptr, blkRead_eq hdev hind]
  simp only [hindex, hent, hsecond, hsame, runCalls_append]

/-- One turn of the reading loop returns the content of the block it follows. -/
theorem readTurn_spec (hdev : BuildOk bld s.dev) {a : ℕ} (ha : a < 4100)
    (hnonneg : ∀ blk ∈ touched bld s k a, 0 ≤ blk) :
    ∃ calls, ReadsOf (touched bld s k a) calls ∧
      readTurn bld (some k) a s = .ok (some (logical bld s.dev (followed bld s k a).toNat,
        { s with dev := runCalls bld calls s.dev })) := by
  by_cases hdirect : a < 4
  · rw [touched_direct bld s k hdirect] at hnonneg ⊢
    rw [followed_direct bld s k hdirect]
    have hpos := hnonneg _ (List.mem_singleton_self _)
    refine ⟨[.read (s.field k (.direct ⟨a, hdirect⟩)).toNat Block.zero], fun call hcall ↦ ?_,
      readTurn_direct hdev ⟨a, hdirect⟩ hpos⟩
    rw [List.mem_singleton] at hcall
    subst hcall
    exact ⟨rfl, by rw [BlockCall.blk, Int.toNat_of_nonneg hpos]; exact List.mem_singleton_self _⟩
  · obtain ⟨r, i, hr, hi, rfl⟩ : ∃ r i : ℕ, r < 4 ∧ i < 1024 ∧ a = 4 + 1024 * r + i :=
      ⟨(a - 4) / 1024, (a - 4) % 1024, by omega, by omega, by omega⟩
    rw [touched_indirect bld s k hr hi] at hnonneg ⊢
    rw [followed_indirect bld s k hr hi]
    generalize hptr : s.field k (.indirect ⟨r, hr⟩) = ptr at hnonneg ⊢
    have hind : 0 ≤ ptr := hnonneg _ List.mem_cons_self
    generalize hent : (logical bld s.dev ptr.toNat).int i = ent at hnonneg ⊢
    have hpos : 0 ≤ ent := hnonneg _ (List.mem_cons_of_mem _ List.mem_cons_self)
    refine ⟨[.read ptr.toNat Block.zero] ++ [.read ent.toNat Block.zero], fun call hcall ↦ ?_, ?_⟩
    · simp only [List.mem_append, List.mem_singleton] at hcall
      rcases hcall with rfl | rfl
      · exact ⟨rfl, by rw [BlockCall.blk, Int.toNat_of_nonneg hind]; exact List.mem_cons_self⟩
      · exact ⟨rfl, by
          rw [BlockCall.blk, Int.toNat_of_nonneg hpos]
          exact List.mem_cons_of_mem _ List.mem_cons_self⟩
    · rw [readTurn_indirect bld s k ⟨r, hr⟩ hi, readIndirect_eq hdev rfl hptr hind hent hpos]

theorem readTurn_past (bld : Build) (s : Store) (target : Option ℕ) {a : ℕ} (ha : 4100 ≤ a) :
    readTurn bld target a s = .ok none := by
  rw [readTurn, if_neg (by omega), if_neg (by omega), if_neg (by omega), if_neg (by omega),
    if_neg (by omega)]

/-- The reading loop returns the contents of the blocks it follows, in order and up to the last
block index, and leaves everything but the device alone. -/
theorem readLoop_spec (hdev : BuildOk bld s.dev) {blocks a n : ℕ}
    (hn : n = min blocks (4100 - a)) {curr : ℤ} (hcurr : curr.tdiv 4096 = a) (hnat : 0 ≤ curr)
    (hnonneg : ∀ i < n, ∀ blk ∈ touched bld s k (a + i), 0 ≤ blk) :
    ∃ calls, ReadsOf ((List.range n).flatMap fun i ↦ touched bld s k (a + i)) calls ∧
      readLoop bld (some k) blocks curr s =
        .ok ((List.range n).map fun i ↦
          logical bld s.dev (followed bld s k (a + i)).toNat,
          { s with dev := runCalls bld calls s.dev }) := by
  induction blocks generalizing a n curr s with
  | zero =>
    obtain rfl : n = 0 := by omega
    exact ⟨[], fun call hcall ↦ absurd hcall List.not_mem_nil, rfl⟩
  | succ blocks ih =>
    by_cases ha : 4100 ≤ a
    · obtain rfl : n = 0 := by omega
      refine ⟨[], fun call hcall ↦ absurd hcall List.not_mem_nil, ?_⟩
      rw [readLoop, hcurr, readTurn_past bld s (some k) ha]
      rfl
    obtain ⟨n, rfl⟩ : ∃ m, n = m + 1 := ⟨n - 1, by omega⟩
    obtain ⟨calls, hcalls, hturn⟩ := readTurn_spec (a := a) hdev (by omega)
      (hnonneg 0 (by omega))
    have hsame : logical bld (runCalls bld calls s.dev) = logical bld s.dev := by
      rw [logical_runCalls hdev, applyCalls_reads hcalls]
    have hfollowed (b : ℕ) : followed bld { s with dev := runCalls bld calls s.dev } k b =
        followed bld s k b := by
      simp only [followed, hsame]
      rfl
    have htouched (b : ℕ) : touched bld { s with dev := runCalls bld calls s.dev } k b =
        touched bld s k b := by
      simp only [touched, hfollowed]
      rfl
    obtain ⟨calls', hcalls', hloop⟩ := ih (s := { s with dev := runCalls bld calls s.dev })
      (a := a + 1) (n := n) (buildOk_runCalls hdev calls) (by omega)
      (show (curr + 4096).tdiv 4096 = ((a + 1 : ℕ) : ℤ) by
        rw [Int.tdiv_eq_ediv_of_nonneg (by omega)] at hcurr ⊢
        omega) (by omega)
      (fun i hi ↦ by
        rw [htouched, show a + 1 + i = a + (i + 1) by omega]
        exact hnonneg (i + 1) (by omega))
    refine ⟨calls ++ calls', ReadsOf.append (hcalls.mono fun blk hblk ↦ ?_)
      (hcalls'.mono fun blk hblk ↦ ?_), ?_⟩
    · exact List.mem_flatMap.mpr ⟨0, List.mem_range.mpr (by omega), hblk⟩
    · obtain ⟨i, hi, hblk⟩ := List.mem_flatMap.mp hblk
      rw [htouched, show a + 1 + i = a + (i + 1) by omega] at hblk
      exact List.mem_flatMap.mpr
        ⟨i + 1, List.mem_range.mpr (by have := List.mem_range.mp hi; omega), hblk⟩
    · have hshift (i : ℕ) : a + 1 + i = a + (i + 1) := by omega
      rw [readLoop, hcurr, hturn]
      simp only [hloop, hfollowed, hsame, runCalls_append, hshift, List.range_succ_eq_map,
        List.map_cons, List.map_map, Nat.add_zero]
      rfl

/-- A read follows its block indices up to the last one and leaves all but the device alone. -/
theorem objstoreRead_spec (hdev : BuildOk bld s.dev) (hlive : Live s k)
    (hid : s.field k .id = objid) (huniq : ∀ i, Live s i → s.field i .id = objid → i = k)
    {size offset n : ℕ} (hoffset : offset < 2147483648)
    (hn : n = min ((size + 4095) / 4096) (4100 - offset / 4096))
    (hnonneg : ∀ i < n, ∀ blk ∈ touched bld s k (offset / 4096 + i), 0 ≤ blk) :
    ∃ calls, ReadsOf ((List.range n).flatMap fun i ↦ touched bld s k (offset / 4096 + i)) calls ∧
      objstoreRead bld objid size offset s =
        .ok ((size, bytesOf ((List.range n).map fun i ↦
          logical bld s.dev (followed bld s k (offset / 4096 + i)).toNat) size),
          { s with dev := runCalls bld calls s.dev }) := by
  have hcurr : Int.bmod (offset : ℤ) (2 ^ 32) = offset := wrap_of_range (by omega) (by omega)
  obtain ⟨calls, hcalls, hloop⟩ :=
    readLoop_spec hdev hn (tdiv_blockSize offset) (Int.natCast_nonneg offset) hnonneg
  refine ⟨calls, hcalls, ?_⟩
  rw [objstoreRead, hcurr, findTarget_eq hlive hid huniq false, if_neg Bool.false_ne_true]
  dsimp only
  rw [hloop]

end Read

end OsAssignments.Objstore
