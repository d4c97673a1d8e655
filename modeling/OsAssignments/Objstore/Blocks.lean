import OsAssignments.Library.WriteBack
import OsAssignments.Objstore.Layout

/-!
# Block input and output, with and without the cache

`Device` is the disk image with the cache in front of it. `Build` selects the two compilations of
`objstore.c`, with and without `-DCACHE`; the cache arrays exist in both. The arrays
`cache_index`, `cache_dirty` and the cache lines are functions of the signed index that the code
computes, and `int` arithmetic on block numbers is exact: it overflows for no tag of a block
number. Block input and output succeeds at every block number that is not negative; at a negative
one `pread` and `pwrite` fail and transfer nothing. `blkWrites` is a ghost component that records
the block numbers passed to `cache_blk_write`; no function reads it.

The cached build refines the write-back cache of `Library.WriteBack`: `view_cacheBlkRead` and
`view_cacheBlkWrite` show that the two block functions are `access` and `put` there, and
`disk_writeBackLoop` that the final loop of `objstore_destroy` is `flush`. Both builds are then
described by `logical`, the content of a block: `cacheBlkRead_fst`, `logical_cacheBlkRead` and
`logical_cacheBlkWrite`.
-/

set_option autoImplicit false
set_option relaxedAutoImplicit false

namespace OsAssignments.Objstore

open Library

/-! ### State -/

/-- The two compilations of `objstore.c`. -/
inductive Build
  | cached
  | uncached
  deriving DecidableEq

/-- The disk image, the cache memory and its two arrays. -/
structure Device where
  disk : ℕ → Block
  cachePtr : ℤ → Block
  cacheIndex : ℤ → ℤ
  cacheDirty : ℤ → ℤ
  cacheLock : Bool
  blkWrites : List ℤ

/-- A blank disk behind fresh memory. -/
def zeroDevice : Device where
  disk := fun _ ↦ Block.zero
  cachePtr := fun _ ↦ Block.zero
  cacheIndex := fun _ ↦ 0
  cacheDirty := fun _ ↦ 0
  cacheLock := false
  blkWrites := []

/-! ### Block input and output -/

/-- `read_block`: the buffer after the transfer. -/
def readBlock (d : Device) (blk : ℤ) (buf : Block) : Block :=
  if blk < 0 then buf else d.disk blk.toNat

/-- `write_block`. -/
def writeBlock (d : Device) (blk : ℤ) (buf : Block) : Device :=
  if blk < 0 then d else { d with disk := Function.update d.disk blk.toNat buf }

/-- `cache_blk_read`: the buffer `temp` after the call. -/
def cacheBlkRead (bld : Build) (blk : ℤ) (temp : Block) (d : Device) : Block × Device :=
  match bld with
  | .uncached => (readBlock d blk temp, d)
  | .cached =>
    let i := blk.tmod 32768
    let d := { d with cacheLock := true }
    let d :=
      if d.cacheIndex i = -1 then
        let d := { d with cacheIndex := Function.update d.cacheIndex i (blk.tdiv 32768) }
        { d with cachePtr := Function.update d.cachePtr i (readBlock d blk (d.cachePtr i)) }
      else if d.cacheIndex i ≠ blk.tdiv 32768 then
        let d :=
          if d.cacheDirty i = 1 then
            let oldBlk := 32768 * d.cacheIndex i + i
            let d := writeBlock d oldBlk (d.cachePtr i)
            { d with cachePtr := Function.update d.cachePtr i (readBlock d blk (d.cachePtr i)) }
          else
            { d with cachePtr := Function.update d.cachePtr i (readBlock d blk (d.cachePtr i)) }
        { d with cacheIndex := Function.update d.cacheIndex i (blk.tdiv 32768) }
      else d
    (d.cachePtr i, { d with cacheLock := false })

/-- `cache_blk_write`. -/
def cacheBlkWrite (bld : Build) (blk : ℤ) (temp : Block) (d : Device) : Device :=
  let d := { d with blkWrites := blk :: d.blkWrites }
  match bld with
  | .uncached => writeBlock d blk temp
  | .cached =>
    let i := blk.tmod 32768
    let d := { d with cacheLock := true }
    let d :=
      if d.cacheIndex i = -1 ∨ d.cacheIndex i = blk.tdiv 32768 then
        { d with cachePtr := Function.update d.cachePtr i temp }
      else if d.cacheDirty i = 1 then
        let oldBlk := 32768 * d.cacheIndex i + i
        let d := writeBlock d oldBlk (d.cachePtr i)
        { d with cachePtr := Function.update d.cachePtr i temp }
      else
        { d with cachePtr := Function.update d.cachePtr i temp }
    { d with
      cacheIndex := Function.update d.cacheIndex i (blk.tdiv 32768)
      cacheDirty := Function.update d.cacheDirty i 1
      cacheLock := false }

/-- One turn of the write-back loop. -/
def writeBack (i : ℕ) (d : Device) : Device :=
  if d.cacheDirty i = 1 then
    writeBlock d (32768 * d.cacheIndex i + i) (d.cachePtr i)
  else d

/-- The write-back loop that ends `objstore_destroy`. -/
def writeBackLoop (d : Device) : Device := Nat.fold 32768 (fun i _ d ↦ writeBack i d) d

/-! ### The cache as a write-back cache -/

/-- The cache slot of a block number. -/
def slotOf (b : ℕ) : Fin 32768 := ⟨b % 32768, Nat.mod_lt b (by norm_num)⟩

/-- The abstract cache behind the arrays. -/
def view (d : Device) : WriteBack ℕ (Fin 32768) Block where
  mem := d.disk
  held := fun i ↦
    if 0 ≤ d.cacheIndex i then some (32768 * (d.cacheIndex i).toNat + i) else none
  dirty := fun i ↦ decide (d.cacheDirty i = 1)
  line := fun i ↦ d.cachePtr i

/-- The content of block `b`: its cache line when the slot holds its tag, else the disk. -/
def logical (bld : Build) (d : Device) (b : ℕ) : Block :=
  match bld with
  | .uncached => d.disk b
  | .cached =>
    if d.cacheIndex ((b % 32768 : ℕ) : ℤ) = ((b / 32768 : ℕ) : ℤ) then
      d.cachePtr ((b % 32768 : ℕ) : ℤ)
    else d.disk b

/-- Index -1 implies not dirty, and every clean valid line equals its disk block. -/
structure CacheOk (d : Device) : Prop where
  invalid : ∀ i : Fin 32768, d.cacheIndex i = -1 → d.cacheDirty i ≠ 1
  clean : ∀ i : Fin 32768, 0 ≤ d.cacheIndex i → d.cacheDirty i ≠ 1 →
    d.cachePtr i = d.disk (32768 * (d.cacheIndex i).toNat + i)

variable {bld : Build} {d : Device} {b b' : ℕ} {temp x : Block}

theorem tmod_natCast (b : ℕ) : (b : ℤ).tmod 32768 = ((slotOf b : ℕ) : ℤ) := by
  rw [Int.tmod_eq_emod_of_nonneg (Int.natCast_nonneg b), slotOf]
  norm_cast

theorem tdiv_natCast (b : ℕ) : (b : ℤ).tdiv 32768 = ((b / 32768 : ℕ) : ℤ) := by
  rw [Int.tdiv_eq_ediv_of_nonneg (Int.natCast_nonneg b)]
  norm_cast

/-- A slot holds a block exactly when it carries its tag. -/
theorem view_held_eq_some_iff (d : Device) (i : Fin 32768) (b : ℕ) :
    (view d).held i = some b ↔ slotOf b = i ∧ d.cacheIndex i = ((b / 32768 : ℕ) : ℤ) := by
  simp only [view, slotOf, Fin.ext_iff]
  have hi := i.isLt
  split_ifs with hindex
  · rw [Option.some.injEq]
    omega
  · simp only [false_iff]
    omega

theorem logical_cached (d : Device) : logical .cached d = (view d).content slotOf := by
  funext b
  simp only [logical, WriteBack.content, view_held_eq_some_iff, true_and]
  rfl

theorem coherent_view (hd : CacheOk d) : (view d).Coherent slotOf where
  placed := fun i b hheld ↦ ((view_held_eq_some_iff d i b).mp hheld).1
  clean := fun i b hheld hdirty ↦ by
    obtain ⟨hslot, hindex⟩ := (view_held_eq_some_iff d i b).mp hheld
    have hline := hd.clean i (by omega) (by simpa [view] using hdirty)
    have hb : 32768 * (d.cacheIndex i).toNat + i = b := by
      have hval := congrArg Fin.val hslot
      simp only [slotOf] at hval
      omega
    rwa [hb] at hline

theorem update_natCast_apply {α : Type*} (f : ℤ → α) (i j : Fin 32768) (v : α) :
    Function.update f (i : ℤ) v (j : ℤ) = Function.update (fun k : Fin 32768 ↦ f k) i v j := by
  by_cases hij : j = i
  · subst hij
    simp
  · have hne : ((j : ℕ) : ℤ) ≠ ((i : ℕ) : ℤ) := by
      have := Fin.val_ne_of_ne hij
      omega
    rw [Function.update_of_ne hne, Function.update_of_ne hij]

/-- Writing a dirty line back to the block number computed from its tag and slot. A line without
a tag is written to a negative block number, which transfers nothing. -/
theorem view_writeBlock_old (d : Device) (i : Fin 32768) (hdirty : d.cacheDirty i = 1) :
    view (writeBlock d (32768 * d.cacheIndex i + i) (d.cachePtr i)) = (view d).evict i := by
  have hi := i.isLt
  have hd : (view d).dirty i = true := by simp [view, hdirty]
  unfold writeBlock WriteBack.evict
  by_cases hindex : 0 ≤ d.cacheIndex i
  · have hheld : (view d).held i = some (32768 * (d.cacheIndex i).toNat + i) := if_pos hindex
    have hold : (32768 * d.cacheIndex i + (i : ℕ)).toNat =
        32768 * (d.cacheIndex i).toNat + i := by omega
    rw [if_neg (by omega), hheld, hold]
    simp only [hd, if_true]
    rfl
  · have hheld : (view d).held i = none := if_neg hindex
    rw [if_pos (by omega), hheld]

/-- Reading a block from the disk into its line. -/
theorem view_fill (d : Device) (b : ℕ) :
    view { d with
      cacheIndex := Function.update d.cacheIndex ((slotOf b : ℕ) : ℤ) ((b / 32768 : ℕ) : ℤ)
      cachePtr := Function.update d.cachePtr ((slotOf b : ℕ) : ℤ) (d.disk b) } =
      (view d).fill slotOf b := by
  ext1
  · rfl
  · funext i
    by_cases hi : i = slotOf b
    · subst hi
      simp only [view, WriteBack.fill, slotOf, Function.update_self, if_pos (Int.natCast_nonneg _),
        Int.toNat_natCast, Nat.div_add_mod]
    · simp [view, WriteBack.fill, update_natCast_apply, Function.update_of_ne hi]
  · rfl
  · funext i
    simp [view, WriteBack.fill, update_natCast_apply]

private theorem readBlock_natCast (d : Device) (b : ℕ) (buf : Block) :
    readBlock d b buf = d.disk b := by
  rw [readBlock, if_neg (by omega), Int.toNat_natCast]

/-- `cache_blk_read` is an access of the write-back cache. -/
theorem view_cacheBlkRead (d : Device) (b : ℕ) (temp : Block) :
    view (cacheBlkRead .cached b temp d).2 = (view d).access slotOf b := by
  have hhit : (view d).held (slotOf b) = some b ↔
      d.cacheIndex (slotOf b : ℕ) = ((b / 32768 : ℕ) : ℤ) := by
    simp [view_held_eq_some_iff]
  unfold WriteBack.access
  simp only [hhit, cacheBlkRead, tmod_natCast, tdiv_natCast, readBlock_natCast]
  by_cases hminus : d.cacheIndex (slotOf b : ℕ) = -1
  · have hmiss : d.cacheIndex (slotOf b : ℕ) ≠ ((b / 32768 : ℕ) : ℤ) := by omega
    have hnone : (view d).held (slotOf b) = none := by
      simp only [view, hminus]
      rfl
    have hevict : (view d).evict (slotOf b) = view d := by
      simp only [WriteBack.evict, hnone]
    rw [if_pos hminus, if_neg hmiss, hevict, ← view_fill]
    rfl
  · by_cases htag : d.cacheIndex (slotOf b : ℕ) = ((b / 32768 : ℕ) : ℤ)
    · simp only [if_false, htag, ne_eq, not_true_eq_false, if_true]
      rfl
    · by_cases hdirty : d.cacheDirty (slotOf b : ℕ) = 1
      · have hsame (d' : Device) (buf : Block) (blk : ℤ) :
            (writeBlock d' blk buf).cacheIndex = d'.cacheIndex ∧
              (writeBlock d' blk buf).cachePtr = d'.cachePtr := by
          unfold writeBlock
          split_ifs <;> exact ⟨rfl, rfl⟩
        simp only [hminus, if_false, htag, ne_eq, not_false_eq_true, if_true, hdirty]
        rw [← view_writeBlock_old d _ hdirty, ← view_fill, (hsame ..).1, (hsame ..).2]
        unfold writeBlock
        split_ifs <;> rfl
      · have hclean : (view d).evict (slotOf b) = view d := by
          have hd : (view d).dirty (slotOf b) = false := by simp [view, hdirty]
          unfold WriteBack.evict
          split
          · rfl
          · rw [hd]
            rfl
        simp only [hminus, if_false, htag, ne_eq, not_false_eq_true, if_true, hdirty]
        rw [hclean, ← view_fill]
        rfl

/-- `cache_blk_write` replaces the value of the block in the write-back cache. -/
theorem view_cacheBlkWrite (d : Device) (b : ℕ) (x : Block) :
    view (cacheBlkWrite .cached b x d) = (view d).put slotOf b x := by
  have hhit : (view d).held (slotOf b) = some b ↔
      d.cacheIndex (slotOf b : ℕ) = ((b / 32768 : ℕ) : ℤ) := by
    simp [view_held_eq_some_iff]
  have hput (d' : Device) :
      view { d' with
        cachePtr := Function.update d'.cachePtr ((slotOf b : ℕ) : ℤ) x
        cacheIndex := Function.update d'.cacheIndex ((slotOf b : ℕ) : ℤ) ((b / 32768 : ℕ) : ℤ)
        cacheDirty := Function.update d'.cacheDirty ((slotOf b : ℕ) : ℤ) 1
        cacheLock := false } =
      { view d' with
        held := Function.update (view d').held (slotOf b) (some b)
        dirty := Function.update (view d').dirty (slotOf b) true
        line := Function.update (view d').line (slotOf b) x } := by
    ext1
    · rfl
    · funext i
      by_cases hi : i = slotOf b
      · subst hi
        simp only [view, slotOf, Function.update_self, if_pos (Int.natCast_nonneg _),
          Int.toNat_natCast, Nat.div_add_mod]
      · simp [view, update_natCast_apply, Function.update_of_ne hi]
    · funext i
      by_cases hi : i = slotOf b
      · subst hi
        simp [view]
      · simp [view, update_natCast_apply, Function.update_of_ne hi]
    · funext i
      simp [view, update_natCast_apply]
  unfold WriteBack.put
  simp only [hhit, cacheBlkWrite, tmod_natCast, tdiv_natCast]
  by_cases hheld : d.cacheIndex (slotOf b : ℕ) = -1 ∨
      d.cacheIndex (slotOf b : ℕ) = ((b / 32768 : ℕ) : ℤ)
  · have hbase : (if d.cacheIndex (slotOf b : ℕ) = ((b / 32768 : ℕ) : ℤ) then view d
        else (view d).evict (slotOf b)) = view d := by
      split_ifs with htag
      · rfl
      · have hnone : (view d).held (slotOf b) = none := by
          simp only [view, hheld.resolve_right htag]
          rfl
        simp only [WriteBack.evict, hnone]
    simp only [if_pos hheld, hbase]
    exact hput { d with blkWrites := (b : ℤ) :: d.blkWrites, cacheLock := true }
  · have htag := fun h ↦ hheld (Or.inr h)
    simp only [if_neg hheld, if_neg htag]
    by_cases hdirty : d.cacheDirty (slotOf b : ℕ) = 1
    · simp only [hdirty, if_true]
      rw [← view_writeBlock_old d _ hdirty, ← hput]
      unfold writeBlock
      split_ifs <;> rfl
    · have hclean : (view d).evict (slotOf b) = view d := by
        have hd : (view d).dirty (slotOf b) = false := by simp [view, hdirty]
        unfold WriteBack.evict
        split
        · rfl
        · rw [hd]
          rfl
      simp only [hdirty, if_false, hclean]
      exact hput { d with blkWrites := (b : ℤ) :: d.blkWrites, cacheLock := true }

/-! ### What the two block functions do to the contents -/

/-- The cache condition of a build; the uncached one makes no use of the cache. -/
def BuildOk (bld : Build) (d : Device) : Prop := bld = .cached → CacheOk d

theorem cacheBlkRead_fst (hd : BuildOk bld d) (b : ℕ) (temp : Block) :
    (cacheBlkRead bld b temp d).1 = logical bld d b := by
  cases bld with
  | uncached => exact readBlock_natCast d b temp
  | cached =>
    have hline := WriteBack.line_access (coherent_view (hd rfl)) b
    rw [← view_cacheBlkRead d b temp, ← logical_cached] at hline
    rw [← hline]
    show (cacheBlkRead .cached b temp d).1 =
      (cacheBlkRead .cached b temp d).2.cachePtr ((slotOf b : ℕ) : ℤ)
    rw [← tmod_natCast]
    rfl

theorem logical_cacheBlkRead (hd : BuildOk bld d) (b : ℕ) (temp : Block) :
    logical bld (cacheBlkRead bld b temp d).2 = logical bld d := by
  cases bld with
  | uncached => rfl
  | cached =>
    rw [logical_cached, logical_cached, view_cacheBlkRead,
      WriteBack.content_access (coherent_view (hd rfl))]

theorem logical_cacheBlkWrite (hd : BuildOk bld d) (b : ℕ) (x : Block) :
    logical bld (cacheBlkWrite bld b x d) = Function.update (logical bld d) b x := by
  cases bld with
  | uncached =>
    show (writeBlock _ (b : ℤ) x).disk = _
    rw [writeBlock, if_neg (by omega)]
    rfl
  | cached =>
    rw [logical_cached, logical_cached, view_cacheBlkWrite,
      WriteBack.content_put (coherent_view (hd rfl))]

/-! ### What the two block functions do to the arrays -/

/-- The block number computed from the tag of a line and its slot. -/
def heldBlk (d : Device) (i : Fin 32768) : ℤ := 32768 * d.cacheIndex i + i

@[simp] theorem writeBlock_cacheIndex (d : Device) (blk : ℤ) (buf : Block) :
    (writeBlock d blk buf).cacheIndex = d.cacheIndex := by
  unfold writeBlock
  split_ifs <;> rfl

@[simp] theorem writeBlock_cacheDirty (d : Device) (blk : ℤ) (buf : Block) :
    (writeBlock d blk buf).cacheDirty = d.cacheDirty := by
  unfold writeBlock
  split_ifs <;> rfl

@[simp] theorem writeBlock_blkWrites (d : Device) (blk : ℤ) (buf : Block) :
    (writeBlock d blk buf).blkWrites = d.blkWrites := by
  unfold writeBlock
  split_ifs <;> rfl

theorem writeBlock_disk_of_ne {m : ℕ} {blk : ℤ} {buf : Block} (h : blk ≠ m) :
    (writeBlock d blk buf).disk m = d.disk m := by
  unfold writeBlock
  split_ifs with hneg
  · rfl
  · exact Function.update_of_ne (by omega) ..

@[simp] theorem cacheBlkRead_cacheDirty (bld : Build) (d : Device) (b : ℕ) (temp : Block) :
    (cacheBlkRead bld b temp d).2.cacheDirty = d.cacheDirty := by
  cases bld with
  | uncached => rfl
  | cached =>
    simp only [cacheBlkRead]
    split_ifs <;> simp

@[simp] theorem cacheBlkRead_blkWrites (bld : Build) (d : Device) (b : ℕ) (temp : Block) :
    (cacheBlkRead bld b temp d).2.blkWrites = d.blkWrites := by
  cases bld with
  | uncached => rfl
  | cached =>
    simp only [cacheBlkRead]
    split_ifs <;> simp

/-- A read leaves the tag of the block in its slot. -/
theorem cacheBlkRead_cacheIndex (d : Device) (b : ℕ) (temp : Block) :
    (cacheBlkRead .cached b temp d).2.cacheIndex =
      Function.update d.cacheIndex (slotOf b : ℕ) ((b / 32768 : ℕ) : ℤ) := by
  simp only [cacheBlkRead, tmod_natCast, tdiv_natCast]
  by_cases hminus : d.cacheIndex (slotOf b : ℕ) = -1
  · simp only [if_pos hminus]
  · by_cases htag : d.cacheIndex (slotOf b : ℕ) = ((b / 32768 : ℕ) : ℤ)
    · simp only [htag, ne_eq, not_true_eq_false, if_false]
      exact (Function.update_eq_self_iff.mpr htag.symm).symm
    · simp only [if_neg hminus, htag, ne_eq, not_false_eq_true, if_true]
      split_ifs <;> simp

theorem cacheBlkWrite_cacheIndex (d : Device) (b : ℕ) (x : Block) :
    (cacheBlkWrite .cached b x d).cacheIndex =
      Function.update d.cacheIndex (slotOf b : ℕ) ((b / 32768 : ℕ) : ℤ) := by
  simp only [cacheBlkWrite, tmod_natCast, tdiv_natCast]
  split_ifs <;> simp

theorem cacheBlkWrite_cacheDirty (d : Device) (b : ℕ) (x : Block) :
    (cacheBlkWrite .cached b x d).cacheDirty =
      Function.update d.cacheDirty (slotOf b : ℕ) 1 := by
  simp only [cacheBlkWrite, tmod_natCast]
  split_ifs <;> simp

@[simp] theorem cacheBlkWrite_blkWrites (bld : Build) (d : Device) (blk : ℤ) (x : Block) :
    (cacheBlkWrite bld blk x d).blkWrites = blk :: d.blkWrites := by
  cases bld with
  | uncached => simp [cacheBlkWrite]
  | cached =>
    simp only [cacheBlkWrite]
    split_ifs <;> simp

@[simp] theorem cacheBlkWrite_uncached_cacheIndex (d : Device) (blk : ℤ) (x : Block) :
    (cacheBlkWrite .uncached blk x d).cacheIndex = d.cacheIndex := by
  simp [cacheBlkWrite]

@[simp] theorem cacheBlkWrite_uncached_cacheDirty (d : Device) (blk : ℤ) (x : Block) :
    (cacheBlkWrite .uncached blk x d).cacheDirty = d.cacheDirty := by
  simp [cacheBlkWrite]

/-- A read writes to the disk at most the dirty line it evicts. -/
theorem cacheBlkRead_disk {m : ℕ} (hm : ∀ i, d.cacheDirty (i : Fin 32768) = 1 → heldBlk d i ≠ m)
    (bld : Build) (b : ℕ) (temp : Block) :
    (cacheBlkRead bld b temp d).2.disk m = d.disk m := by
  cases bld with
  | uncached => rfl
  | cached =>
    simp only [cacheBlkRead, tmod_natCast, tdiv_natCast]
    by_cases hdirty : d.cacheDirty (slotOf b : ℕ) = 1
    · have hold := hm (slotOf b) hdirty
      simp only [hdirty, if_true]
      split_ifs
      · rfl
      · exact writeBlock_disk_of_ne hold
      · rfl
    · simp only [hdirty, if_false]
      split_ifs <;> rfl

/-- A write changes on the disk at most its own block and the dirty line it evicts. -/
theorem cacheBlkWrite_disk {m : ℕ} (hm : ∀ i, d.cacheDirty (i : Fin 32768) = 1 → heldBlk d i ≠ m)
    (bld : Build) (hb : b ≠ m) (x : Block) :
    (cacheBlkWrite bld b x d).disk m = d.disk m := by
  cases bld with
  | uncached =>
    show (writeBlock _ (b : ℤ) x).disk m = d.disk m
    rw [writeBlock_disk_of_ne (by omega)]
  | cached =>
    simp only [cacheBlkWrite, tmod_natCast, tdiv_natCast]
    by_cases hdirty : d.cacheDirty (slotOf b : ℕ) = 1
    · have hold := hm (slotOf b) hdirty
      simp only [hdirty, if_true]
      split_ifs
      · rfl
      · exact writeBlock_disk_of_ne hold
    · simp only [hdirty, if_false]
      split_ifs <;> rfl

/-! ### The cache condition is kept -/

/-- The clean half of the cache condition is coherence of the abstract cache. -/
theorem cacheOk_of_coherent (hcoherent : (view d).Coherent slotOf)
    (hinvalid : ∀ i : Fin 32768, d.cacheIndex i = -1 → d.cacheDirty i ≠ 1) : CacheOk d where
  invalid := hinvalid
  clean := fun i hindex hdirty ↦
    hcoherent.clean i _ (if_pos hindex) (by simpa [view] using hdirty)

theorem buildOk_cacheBlkRead (hd : BuildOk bld d) (b : ℕ) (temp : Block) :
    BuildOk bld (cacheBlkRead bld b temp d).2 := by
  rintro rfl
  have hok := hd rfl
  refine cacheOk_of_coherent ?_ fun i hindex ↦ ?_
  · rw [view_cacheBlkRead]
    exact WriteBack.coherent_access (coherent_view hok) b
  · rw [cacheBlkRead_cacheIndex, update_natCast_apply] at hindex
    rw [cacheBlkRead_cacheDirty]
    by_cases hi : i = slotOf b
    · rw [hi, Function.update_self] at hindex
      omega
    · rw [Function.update_of_ne hi] at hindex
      exact hok.invalid i hindex

theorem buildOk_cacheBlkWrite (hd : BuildOk bld d) (b : ℕ) (x : Block) :
    BuildOk bld (cacheBlkWrite bld b x d) := by
  rintro rfl
  have hok := hd rfl
  refine cacheOk_of_coherent ?_ fun i hindex ↦ ?_
  · rw [view_cacheBlkWrite]
    exact WriteBack.coherent_put (coherent_view hok) b x
  · rw [cacheBlkWrite_cacheIndex, update_natCast_apply] at hindex
    rw [cacheBlkWrite_cacheDirty, update_natCast_apply]
    by_cases hi : i = slotOf b
    · rw [hi, Function.update_self] at hindex
      omega
    · rw [Function.update_of_ne hi] at hindex ⊢
      exact hok.invalid i hindex

/-! ### The final write-back loop -/

/-- After the first `n` turns of the write-back loop the arrays are unchanged, and a block is on
the disk as its dirty line has it when its slot is one of the first `n`. -/
theorem writeBackLoop_invariant (d : Device) (n : ℕ) (hn : n ≤ 32768) :
    let d' := Nat.fold n (fun i _ d ↦ writeBack i d) d
    (d'.cacheIndex = d.cacheIndex ∧ d'.cacheDirty = d.cacheDirty ∧ d'.cachePtr = d.cachePtr) ∧
      ∀ b, d'.disk b =
        if (slotOf b : ℕ) < n ∧ d.cacheDirty (slotOf b : ℕ) = 1 ∧ heldBlk d (slotOf b) = b then
          d.cachePtr (slotOf b : ℕ)
        else d.disk b := by
  induction n with
  | zero => simp
  | succ n ih =>
    obtain ⟨⟨hindex, hdirty, hptr⟩, hdisk⟩ := ih (by omega)
    rw [Nat.fold_succ]
    generalize Nat.fold n (fun i _ d ↦ writeBack i d) d = e at hindex hdirty hptr hdisk ⊢
    simp only [writeBack, hindex, hdirty, hptr]
    have hslot (b : ℕ) : (slotOf b : ℕ) < n + 1 ↔ (slotOf b : ℕ) < n ∨ (slotOf b : ℕ) = n := by
      omega
    by_cases hd : d.cacheDirty (n : ℤ) = 1
    · rw [if_pos hd]
      refine ⟨⟨by simp [hindex], by simp [hdirty], ?_⟩, fun b ↦ ?_⟩
      · unfold writeBlock
        split_ifs <;> exact hptr
      · by_cases hb : (32768 * d.cacheIndex n + n : ℤ) = b
        · have hself : (slotOf b : ℕ) = n := by
            simp only [slotOf]
            omega
          rw [if_pos ⟨by omega, by rw [hself]; exact hd, by rw [heldBlk, hself]; exact hb⟩, hself]
          unfold writeBlock
          rw [if_neg (by omega), hb, Int.toNat_natCast]
          exact Function.update_self ..
        · rw [writeBlock_disk_of_ne hb, hdisk]
          refine if_congr (and_congr_left fun hrest ↦ ?_) rfl rfl
          rw [hslot, or_iff_left]
          intro hself
          rw [heldBlk, hself] at hrest
          exact hb hrest.2
    · rw [if_neg hd]
      refine ⟨⟨hindex, hdirty, hptr⟩, fun b ↦ ?_⟩
      rw [hdisk]
      refine if_congr (and_congr_left fun hrest ↦ ?_) rfl rfl
      rw [hslot, or_iff_left]
      intro hself
      rw [hself] at hrest
      exact hd hrest.1

/-- The write-back loop puts every block a dirty line holds on the disk. -/
theorem disk_writeBackLoop (d : Device) (b : ℕ) :
    (writeBackLoop d).disk b =
      if d.cacheDirty (slotOf b : ℕ) = 1 ∧ heldBlk d (slotOf b) = b then
        d.cachePtr (slotOf b : ℕ)
      else d.disk b := by
  rw [writeBackLoop, (writeBackLoop_invariant d 32768 le_rfl).2 b]
  exact if_congr (and_iff_right (slotOf b).isLt) rfl rfl

/-- The write-back loop leaves the content of every block on the disk. -/
theorem writeBackLoop_eq_logical (hd : CacheOk d) (b : ℕ) :
    (writeBackLoop d).disk b = logical .cached d b := by
  rw [logical_cached, ← WriteBack.flush_eq_content (coherent_view hd), disk_writeBackLoop]
  refine if_congr ?_ rfl rfl
  rw [view_held_eq_some_iff]
  simp only [view, decide_eq_true_eq, true_and, heldBlk, slotOf]
  omega

end OsAssignments.Objstore
