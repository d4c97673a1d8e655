import OsAssignments.Objstore.LastWrites

/-!
# The data path and the metadata

Blocks 0 to 22814 hold the bitmaps and the inode blocks, and only the loops of `objstore_destroy`
are meant to write there. `Spared` says that the data path has not come near them: no smaller block
number was passed to `cache_blk_write`, no dirty line holds such a block, and on the disk they are
as blank as they were.

A write that skips the first index of its range takes block 0 for the indirect block
(`skipping_write_endangers`). A read that meets block 0 while the line of block 0 is dirty leaves it
there as a dirty line. `metadata_spared` is about the runs without either.
-/

set_option autoImplicit false
set_option relaxedAutoImplicit false

namespace OsAssignments.Objstore

open Library Library.Ownership

namespace Op

/-- What the callers of the data path promise. -/
def Accesses : Op → Journal → Prop
  | create key, _ => key.Short
  | write k a _, s => Live s.store k ∧ a < 4100 ∧
      blocksNeeded a ≤ (Bitmap.clearBits s.store.dataBitmap 8388608).card
  | read k _ offset, s => Live s.store k ∧ offset % 4096 = 0 ∧ offset < 4100 * 4096
  | remount, _ => False

/-- A write at a later index of a range finds the indirect block, and a read finds a block at every
index it visits unless the line of block 0 is not dirty. -/
def Spares (bld : Build) : Op → Journal → Prop
  | write k a _, s => Reached s.store k a
  | read k size offset, s => ∀ i < min ((size + 4095) / 4096) (4100 - offset / 4096),
      own bld s.store (k, .ofIndex (offset / 4096 + i)) ≠ none ∨ s.store.dev.cacheDirty 0 ≠ 1
  | _, _ => True

end Op

/-- The data path has left the metadata blocks alone. -/
structure Spared (bld : Build) (s : Store) : Prop where
  tidy : Tidy s
  sound : Sound bld s
  durable : Durable bld s
  writes : ∀ blk ∈ s.dev.blkWrites, 22815 ≤ blk
  blank : ∀ b < 22815, s.dev.disk b = Block.zero

variable {bld : Build} {s : Store} {d : Device} {k a b n : ℕ}

theorem spared_start (bld : Build) (hd : Blank d) : Spared bld (objstoreInit d) where
  tidy := tidy_blank hd
  sound := sound_of_no_live (fun _ ↦ not_live_blank hd) (buildOk_objstoreInit bld d)
  durable := durable_objstoreInit bld d
  writes := nofun
  blank := fun b _ ↦ hd b

/-- A block below the dirty lines has its content on the disk. -/
theorem logical_of_dirtyFrom (hdev : BuildOk bld d) (hdirty : DirtyFrom n d) (hb : b < n) :
    logical bld d b = d.disk b := by
  cases bld with
  | uncached => rfl
  | cached => rw [← writeBackLoop_eq_logical (hdev rfl), disk_writeBackLoop_of_lt hdirty hb]

/-- The number in a place without a block is zero, and others are in the data region. -/
theorem Owned.ptr_none_or (h : Owned bld s) (hlive : Live s k) (p : Place) :
    22815 ≤ ptr bld s k p ∨ ptr bld s k p = 0 ∧ own bld s (k, p) = none := by
  rcases h.ptr_cases hlive p with hzero | hregion
  · exact .inr ⟨hzero, own_of_eq_zero hzero⟩
  · exact .inl hregion

/-- A read visits blocks of the data region, and block 0 where nothing was written. -/
theorem Spared.touched (h : Spared bld s) (hlive : Live s k) (ha : a < 4100) :
    ∀ blk ∈ touched bld s k a, 22815 ≤ blk ∨ blk = 0 ∧ own bld s (k, .ofIndex a) = none := by
  intro blk hblk
  have howned := h.sound.toOwned
  rcases Place.index_cases ha with hdirect | ⟨r, i, hr, hi, rfl⟩
  · rw [touched_direct bld s k hdirect, List.mem_singleton] at hblk
    rw [Place.ofIndex_direct hdirect, hblk]
    exact howned.ptr_none_or hlive (.direct ⟨a, hdirect⟩)
  · rw [touched_indirect bld s k hr hi, List.mem_pair] at hblk
    rw [Place.ofIndex_entry hr hi]
    by_cases hzero : s.field k (.indirect ⟨r, hr⟩) = 0
    · have hblock : logical bld s.dev 0 = Block.zero :=
        (logical_of_dirtyFrom h.durable.dev h.durable.dirty (by norm_num)).trans
          (h.blank 0 (by norm_num))
      rw [hzero, Int.toNat_zero, hblock, Block.int_zero, or_self] at hblk
      have hptr : ptr bld s k (.entry ⟨r, hr⟩ ⟨i, hi⟩) = 0 := if_pos hzero
      exact .inr ⟨hblk, own_of_eq_zero hptr⟩
    · rcases hblk with hblk | hblk
      · have hind := howned.ptr_none_or hlive (.indirect ⟨r, hr⟩)
        rw [hblk]
        exact .inl (hind.resolve_right fun h ↦ hzero h.1)
      · have hentry : ptr bld s k (.entry ⟨r, hr⟩ ⟨i, hi⟩) =
            (logical bld s.dev (s.field k (.indirect ⟨r, hr⟩)).toNat).int i := if_neg hzero
        rw [hblk, ← hentry]
        exact howned.ptr_none_or hlive _

/-! ### One operation -/

/-- A change of the table that makes no block call. -/
theorem Spared.create {key : Key} (h : Spared bld s) (hkey : key.Short) :
    Spared bld (createObject key s).2 := by
  rcases createObject_cases s hkey with ⟨-, heq⟩ | ⟨k, hk, hclear, -, st, heq, hc⟩
  · rw [heq]
    have hslots : SameSlots { s with iLock := false } s := sameSlots_of_eq rfl rfl
    exact ⟨⟨h.tidy.id, h.tidy.clear⟩,
      h.sound.frame hslots (fun _ _ _ ↦ rfl) h.sound.dev fun _ _ ↦ rfl,
      ⟨h.durable.dev, h.durable.dirty, h.durable.quiet, h.durable.faithful⟩, h.writes, h.blank⟩
  · rw [heq]
    have hdurable := h.durable.calls [] (by simp) hc.dev
      (faithful_of_change h.durable.faithful hc.bytes hc.dirtyArray)
    refine ⟨hc.tidy h.tidy, h.sound.created hc h.tidy hk hclear, hdurable, ?_, ?_⟩
    · rw [hc.dev]
      exact h.writes
    · rw [hc.dev]
      exact h.blank

/-- A write that finds its blocks, in a range that is reached, calls `cache_blk_write` with numbers
of the data region. -/
theorem Spared.write {bits : List ℕ} (h : Spared bld s) (hlive : Live s k) (ha : a < 4100)
    (buff : List UInt8) (htakes : Takes s a bits) (hreached : Reached s k a) : ∃ st,
      objstoreWrite bld (s.field k .id) buff ((a * 4096 : ℕ) : ℤ) s = .ok (buff.length, st) ∧
      Spared bld st := by
  have hfresh : ∀ j ∈ bits, ∀ q, own bld s q ≠ some ((22815 + j : ℕ) : ℤ) := fun j hj q ↦
    h.sound.fresh (htakes.clear j hj).2 q
  obtain ⟨st, hrun, hst⟩ := stored_write buff h.sound.toOwned hlive ha
    (by omega : a * 4096 / 4096 = a) htakes hfresh hreached
  obtain ⟨st', hrun', hkeeps⟩ := objstoreWrite_keeps bld buff (a * 4096) (by omega) hlive
    fun i hi heq ↦ h.sound.ids i k hi hlive heq
  obtain rfl : st = st' := (Prod.mk.inj (Except.ok.inj (hrun.symm.trans hrun'))).2
  obtain ⟨target, calls, hw, -, hcalls⟩ := hst.written
  have hdurable := h.durable.calls calls hcalls hw.dev
    (faithful_of_change h.durable.faithful (fun n hn ↦ hw.bytes n (by omega)) hw.dirtyArray)
  refine ⟨st, hrun, hkeeps.tidy hlive.bit h.tidy, hst.sound h.sound htakes, hdurable, ?_, ?_⟩
  · intro blk hblk
    rw [hw.dev, blkWrites_runCalls] at hblk
    rcases hblk with hold | ⟨call, hcall, hblk⟩
    · exact h.writes blk hold
    · cases call with
      | read b temp => cases hblk
      | write b x =>
        obtain rfl := List.mem_singleton.mp hblk
        exact_mod_cast hcalls _ hcall
  · intro b hb
    rw [hw.dev, disk_runCalls h.durable.dirty calls hcalls hb]
    exact h.blank b hb

/-- A read that meets block 0 only while its line is not dirty. -/
theorem Spared.read {size offset : ℕ} (h : Spared bld s) (hlive : Live s k)
    (hoffset : offset < 4100 * 4096)
    (hblocks : ∀ i < min ((size + 4095) / 4096) (4100 - offset / 4096),
      own bld s (k, .ofIndex (offset / 4096 + i)) ≠ none ∨ s.dev.cacheDirty 0 ≠ 1) :
    ∃ out st, objstoreRead bld (s.field k .id) size (offset : ℤ) s = .ok ((size, out), st) ∧
      Spared bld st := by
  have htouched : ∀ i < min ((size + 4095) / 4096) (4100 - offset / 4096),
      ∀ blk ∈ Objstore.touched bld s k (offset / 4096 + i),
        22815 ≤ blk ∨ blk = 0 ∧ s.dev.cacheDirty 0 ≠ 1 := fun i hi blk hblk ↦
    (h.touched hlive (by omega) blk hblk).imp_right fun ⟨hzero, hnone⟩ ↦
      ⟨hzero, (hblocks i hi).resolve_left fun hown ↦ hown hnone⟩
  obtain ⟨calls, hcalls, hread⟩ := objstoreRead_spec h.sound.dev hlive rfl
    (fun i hi heq ↦ h.sound.ids i k hi hlive heq) (by omega : offset < 2147483648) rfl
    fun i hi blk hblk ↦ by rcases htouched i hi blk hblk with hblk | ⟨hblk, -⟩ <;> omega
  have hclean := hcalls.clean (d := s.dev) fun blk hblk ↦ by
    obtain ⟨i, hi, hblk⟩ := List.mem_flatMap.mp hblk
    exact htouched i (List.mem_range.mp hi) blk hblk
  obtain ⟨hdurable, hdisk⟩ := h.durable.clean_reads calls hclean
  have hslots : SameSlots { s with dev := runCalls bld calls s.dev } s := sameSlots_of_eq rfl rfl
  have hsound := h.sound.frame hslots
    (fun q b _ ↦ congrFun (logical_reads h.sound.dev hcalls) b.toNat) hdurable.dev fun _ _ ↦ rfl
  refine ⟨_, _, hread, ⟨h.tidy.id, h.tidy.clear⟩, hsound, hdurable, fun blk hblk ↦ ?_,
    fun b hb ↦ (hdisk b hb).trans (h.blank b hb)⟩
  rcases (blkWrites_runCalls bld calls s.dev blk).mp hblk with hold | ⟨call, hcall, hblk⟩
  · exact h.writes blk hold
  · rw [(hclean call hcall).1] at hblk
    cases hblk

/-- Every operation that spares the metadata keeps the invariant. -/
theorem spared_step {s t : Journal} {op : Op} {reply : Reply} (h : Spared bld s.store)
    (haccesses : op.Accesses s) (hspares : op.Spares bld s) (hrun : op.run bld s = .ok (reply, t)) :
    Spared bld t.store := by
  cases op with
  | create key =>
    cases hrun
    exact h.create haccesses
  | write k a buff =>
    obtain ⟨hlive, ha, hbits⟩ := haccesses
    obtain ⟨bits, htakes⟩ := exists_takes hbits
    obtain ⟨st, hwrite, hnext⟩ := h.write hlive ha buff htakes hspares
    rw [Op.run, hwrite] at hrun
    cases hrun
    exact hnext
  | read k size offset =>
    obtain ⟨hlive, -, hoffset⟩ := haccesses
    obtain ⟨out, st, hread, hnext⟩ := h.read hlive hoffset hspares
    rw [Op.run, hread] at hrun
    cases hrun
    exact hnext
  | remount => exact haccesses.elim

/-! ### Runs -/

/-- What an unmount leaves in the metadata blocks of a disk that was blank: the bitmaps, the flagged
inode blocks, and zeros. -/
def metadataImage (s : Store) (b : ℕ) : Block :=
  if b < 31 then Block.ofWords s.inodeBitmap (1024 * b)
  else if b < 287 then Block.ofWords s.dataBitmap (1024 * (b - 31))
  else if s.dirtyArray (b - 287) ≠ 0#32 then inodeBlock s.a (b - 287)
  else Block.zero

/-- The metadata after an unmount is what the metadata loops write. -/
theorem Spared.unmounted (h : Spared bld s) (hb : b < 22815) :
    (objstoreDestroy s).disk b = metadataImage s b := by
  rw [disk_objstoreDestroy_metadata h.durable.dirty hb, disk_metadataLoops, metadataImage]
  simp only [hb, true_and, h.blank b hb]

/-- In the runs that skip no indirect block and read block 0 only while its line is not dirty, the
data path never endangers the metadata. -/
theorem metadata_spared (bld : Build) (d : Device) (hd : Blank d) (s : Journal)
    (hrun : Reaches (Op.run bld) (fun op s ↦ op.Accesses s ∧ op.Spares bld s) (.start d) s) :
    (∀ blk ∈ s.store.dev.blkWrites, 22815 ≤ blk) ∧ DirtyFrom 22815 s.store.dev ∧
      ∀ b < 22815, (objstoreDestroy s.store).disk b = (metadataLoops s.store).disk b ∧
        (objstoreDestroy s.store).disk b = metadataImage s.store b := by
  have h : Spared bld s.store := hrun.invariant (fun s ↦ Spared bld s.store)
    (fun _ _ _ _ hs hok hstep ↦ spared_step hs hok.1 hok.2 hstep) (spared_start bld hd)
  exact ⟨h.writes, h.durable.dirty, fun b hb ↦
    ⟨disk_objstoreDestroy_metadata h.durable.dirty hb, h.unmounted hb⟩⟩

/-- An object on the zero disk that has received one write. -/
theorem metadata_spared_first : ∃ s : Journal, Live s.store 0 ∧ s.store.dataBit 0 = true ∧
    (objstoreDestroy s.store).disk 0 = metadataImage s.store 0 := by
  obtain ⟨s, hcreate, hopening, -, -⟩ := opening_first .cached
  obtain ⟨t, hwrite, hnext, -, -⟩ := hopening.write_direct 0 [7] (by decide) (by decide) (by decide)
  have hfirst : (Op.create keyA).Accesses (.start zeroDevice) := allowed_first.1
  have hneeded : blocksNeeded ((0 : Fin 4) : ℕ) ≤
      (Bitmap.clearBits s.store.dataBitmap 8388608).card :=
    (hopening.orderly (reached_direct _ 0 (by norm_num)) (by decide) [7]).2
  have hsecond : (Op.write 0 ((0 : Fin 4) : ℕ) [7]).Accesses s :=
    ⟨hopening.live, by norm_num, hneeded⟩
  have hrun := ((Reaches.refl (Op.run .cached) (fun op s ↦ op.Accesses s ∧ op.Spares .cached s)
    (.start zeroDevice)).step ⟨hfirst, trivial⟩ hcreate).step
      ⟨hsecond, reached_direct _ 0 (Fin.isLt 0)⟩ hwrite
  obtain ⟨-, -, hdisk⟩ := metadata_spared .cached zeroDevice blank_zeroDevice t hrun
  have hbit := hnext.filled 0 (by norm_num)
  exact ⟨t, hnext.live, hbit.trans (decide_eq_true (by norm_num)), (hdisk 0 (by norm_num)).2⟩

/-- The line of a block that is written stays dirty through a write in another slot. -/
theorem dirty_line_kept (d : Device) {b c : ℕ} (x y : Block) (hslot : slotOf b ≠ slotOf c) :
    (runCalls .cached [.write b x, .write c y] d).cacheDirty (slotOf b : ℕ) = 1 ∧
      heldBlk (runCalls .cached [.write b x, .write c y] d) (slotOf b) = b := by
  constructor
  · show (cacheBlkWrite .cached c y (cacheBlkWrite .cached b x d)).cacheDirty (slotOf b : ℕ) = 1
    rw [cacheBlkWrite_cacheDirty, update_natCast_apply, Function.update_of_ne hslot,
      cacheBlkWrite_cacheDirty, Function.update_self]
  · show heldBlk (cacheBlkWrite .cached c y (cacheBlkWrite .cached b x d)) (slotOf b) = b
    rw [heldBlk, cacheBlkWrite_cacheIndex, heldBlk_slotOf_update, if_neg hslot, heldBlk,
      cacheBlkWrite_cacheIndex, heldBlk_slotOf_update, if_pos rfl]

/-- A first write at the second index of an indirect range enters its block in block 0. -/
theorem skipping_write_endangers : ∃ s t : Journal,
    Reaches (Op.run .cached) Op.Accesses (.start zeroDevice) s ∧
    (Op.write 0 5 [7]).Accesses s ∧ (Op.write 0 5 [7]).run .cached s = .ok (.value 1, t) ∧
    0 ∈ t.store.dev.blkWrites ∧ ¬ DirtyFrom 22815 t.store.dev := by
  obtain ⟨s, hcreate, hopening, hc, -⟩ := opening_first .cached
  have hlive := hopening.live
  have hids : ∀ i, Live s.store i → s.store.field i .id = s.store.field 0 .id → i = 0 :=
    fun i hi heq ↦ hopening.order.sound.ids i 0 hi hlive heq
  have hfinds : (Call.append 0 [7]).FindsBlocks ⟨s.store, fun _ ↦ 5⟩ :=
    findsBlocks_of_filled hopening.filled rfl (by simp [blocksNeeded])
  have hptr : s.store.field 0 (.indirect 0) = ((0 : ℕ) : ℤ) := by
    rw [hc.field, if_neg (by simp), field_blank blank_zeroDevice (by norm_num), Nat.cast_zero]
  obtain ⟨st, hwrite, hw⟩ := written_next [7] hlive rfl hids hopening.order.sound.dev
    (by norm_num : 0 < 1) (by norm_num)
    (by norm_num : 5 * 4096 / 4096 = 4 + 1024 * ((0 : Fin 4) : ℕ) + 1)
    hptr (firstClear_of_filled hopening.filled (by norm_num))
  have hfirst : (Op.create keyA).Accesses (.start zeroDevice) := allowed_first.1
  obtain ⟨t, rfl, hrun⟩ : ∃ t : Journal, t.store = st ∧
      (Op.write 0 5 [7]).run .cached s = .ok (.value 1, t) := by
    rw [Op.run, hwrite]
    exact ⟨_, rfl, rfl⟩
  refine ⟨s, t, (Reaches.refl _ _ _).step hfirst hcreate, ⟨hlive, by norm_num, hfinds⟩,
    hrun, ?_, fun hdirty ↦ ?_⟩
  · rw [hw.dev, blkWrites_runCalls]
    exact .inr ⟨_, List.mem_cons_of_mem _ List.mem_cons_self, List.mem_singleton_self _⟩
  · have hslot : slotOf 0 ≠ slotOf (22815 + 0) := by decide
    obtain ⟨hflag, hheld⟩ := dirty_line_kept (cacheBlkRead .cached 0 Block.zero s.store.dev).2
      ((logical .cached s.store.dev 0).setInt 1 ((22815 + 0 : ℕ) : ℤ)) (Block.ofList [7]) hslot
    rw [hw.dev] at hdirty
    have hle := hdirty (slotOf 0) hflag
    exact absurd (hle.trans_eq hheld) (by norm_num)

end OsAssignments.Objstore
