import OsAssignments.Objstore.Stat

/-!
# The size of an object

`objstore_write` adds the number of bytes written to the size field, wherever they go. After a
sequence of writes the size is therefore the sum of their lengths (`writeAll_sizes`), while the data
reaches to the greatest of their ends, `extent`. The sum and the extent agree after every write
exactly when each write starts where the earlier ones end (`totals_eq_extents_iff`), and
`objfs_getattr` reports the sum (`getattr_reports`).
-/

set_option autoImplicit false
set_option relaxedAutoImplicit false

namespace OsAssignments.Objstore

open Library

/-! ### Sequences of writes -/

/-- The bytes and the offset of a write. -/
structure Write where
  buff : List UInt8
  offset : ℕ

/-- A write of one to 4096 bytes below the end of the last indirect range. -/
structure Write.Fits (w : Write) : Prop where
  pos : 1 ≤ w.buff.length
  le : w.buff.length ≤ 4096
  offset : w.offset < 4100 * 4096

/-- The end of a write. -/
def Write.stop (w : Write) : ℕ := w.offset + w.buff.length

/-- The greatest of the ends of some writes. -/
def extent (ws : List Write) : ℕ := ws.foldl (fun m w ↦ max m w.stop) 0

/-- The number of bytes in some writes. -/
def total (ws : List Write) : ℕ := ws.foldl (fun n w ↦ n + w.buff.length) 0

/-- Calls of `objstore_write` one after the other, and what they return. -/
def writeAll (bld : Build) (objid : ℤ) : List Write → Store → Outcome (List ℤ)
  | [], s => .ok ([], s)
  | w :: ws, s =>
    match objstoreWrite bld objid w.buff w.offset s with
    | .error fault => .error fault
    | .ok (reply, s) =>
      match writeAll bld objid ws s with
      | .error fault => .error fault
      | .ok (replies, s) => .ok (reply :: replies, s)

/-- `objfs_getattr`, with no call of another thread in between. -/
def objfsGetattr (defFstat defDirstat : Stat) (name : Key) (s : Store) :
    Except Fault (AttrPhase × Store) :=
  match (AttrCall.objfsGetattr name).next defFstat defDirstat .called s with
  | .error fault => .error fault
  | .ok (phase, s) => (AttrCall.objfsGetattr name).next defFstat defDirstat phase s

/-- The size field of the object in a slot is `size`, and so is the `st_size` for a name that leads
to it. -/
def Reports (defFstat defDirstat : Stat) (s : Store) (k : ℕ) (size : ℤ) : Prop :=
  s.field k .size = size ∧ ∀ name : Key, name.chars ≠ [] → Finds name s k →
    ∃ buf s', objfsGetattr defFstat defDirstat name s = .ok (.returned 0 buf, s') ∧ buf.size = size

/-- The writes return their sizes, and after them the extent is reported. -/
def SizeRight (bld : Build) (defFstat defDirstat : Stat) (objid : ℤ) (k : ℕ) (ws : List Write)
    (s : Store) : Prop :=
  ∃ t, writeAll bld objid ws s = .ok (ws.map fun w ↦ (w.buff.length : ℤ), t) ∧
    Reports defFstat defDirstat t k (extent ws)

variable {bld : Build} {defFstat defDirstat : Stat} {objid : ℤ} {k : ℕ} {s t : Store}
  {ws : List Write} {w : Write} {name : Key} {z : ℤ}

@[simp] theorem extent_snoc (ws : List Write) (w : Write) :
    extent (ws ++ [w]) = max (extent ws) w.stop := by
  rw [extent, List.foldl_append]
  rfl

@[simp] theorem total_snoc (ws : List Write) (w : Write) :
    total (ws ++ [w]) = total ws + w.buff.length := by
  rw [total, List.foldl_append]
  rfl

theorem total_cons (w : Write) (ws : List Write) :
    total (w :: ws) = w.buff.length + total ws := by
  induction ws using List.reverseRecOn with
  | nil => exact Nat.add_comm 0 _
  | append_singleton ws w' ih =>
    rw [← List.cons_append, total_snoc, total_snoc, ih, Nat.add_assoc]

/-- The extent of writes that fit. -/
theorem extent_le (hfits : ∀ w ∈ ws, w.Fits) : extent ws ≤ 4101 * 4096 := by
  induction ws using List.reverseRecOn with
  | nil => exact Nat.zero_le _
  | append_singleton ws w ih =>
    have hw := hfits w (by simp)
    have hle := hw.le
    have hoffset := hw.offset
    rw [extent_snoc, Write.stop]
    exact max_le (ih fun w' hw' ↦ hfits w' (List.mem_append_left _ hw')) (by omega)

/-! ### What the writes leave -/

/-- The id of a write leads to slot `k`. -/
def Targets (objid : ℤ) (s : Store) (k : ℕ) : Prop := (findTarget objid true s).1 = some k

theorem Targets.spec (h : Targets objid s k) : k < 1015808 ∧
    (s.inodeBit k = true ∧ s.field k .id = objid) ∧
    (∀ j < k, ¬(s.inodeBit j = true ∧ s.field j .id = objid)) ∧
    findTarget objid true s = (some k, s.markDirty k) := by
  rw [Targets] at h
  rcases findTarget_spec s objid true with ⟨hnone, -⟩ | ⟨j, hj, hfound, hleast, heq⟩
  · rw [hnone] at h
    cases h
  · rw [heq] at h
    obtain rfl := Option.some.inj h
    exact ⟨hj, hfound, hleast, heq⟩

theorem Targets.keeps (h : Targets objid s k) {k' : ℕ} (hkeeps : Keeps k' s t) :
    Targets objid t k := by
  obtain ⟨hk, hfound, hleast, -⟩ := h.spec
  have hsame : ∀ j, (t.inodeBit j = true ∧ t.field j .id = objid) ↔
      (s.inodeBit j = true ∧ s.field j .id = objid) := fun j ↦ by
    rw [Store.inodeBit, hkeeps.inodeBitmap, hkeeps.id, Store.inodeBit]
  rcases findTarget_spec t objid true with ⟨-, hnone⟩ | ⟨j, hj, hfound', hleast', heq⟩
  · exact absurd ((hsame k).mpr hfound) (hnone k hk)
  · rcases Nat.lt_trichotomy j k with hlt | rfl | hlt
    · exact absurd ((hsame j).mp hfound') (hleast j hlt)
    · rw [Targets, heq]
    · exact absurd ((hsame k).mpr hfound) (hleast' k hlt)

/-- A write returns its size and adds it to the size field. -/
theorem Targets.write (h : Targets objid s k) (hw : w.Fits)
    (hsize : s.field k .size = Int.bmod z (256 ^ 8)) :
    ∃ t, objstoreWrite bld objid w.buff w.offset s = .ok (w.buff.length, t) ∧ Targets objid t k ∧
      t.field k .size = Int.bmod (z + w.buff.length) (256 ^ 8) := by
  have hoffset := hw.offset
  obtain ⟨t, hwrite, hkeeps⟩ :=
    objstoreWrite_found bld w.buff w.offset (by omega) h.spec.2.2.2
  refine ⟨t, hwrite, h.keeps ((keeps_sized s k w.buff.length).trans hkeeps.toKeeps), ?_⟩
  have hbefore : (freeDataBlock (s.markDirty k)).2.field k .size = s.field k .size := by
    rw [Store.field, (freeDataBlock_table (s.markDirty k)).2]
    rfl
  rw [hkeeps.size, sized, field_assign, if_pos ⟨rfl, rfl⟩, hbefore, hsize]
  exact Int.bmod_add_bmod

/-- The writes return their sizes, and the size field gains their sum. -/
theorem writeAll_sizes (h : Targets objid s k) (hfits : ∀ w ∈ ws, w.Fits)
    (hsize : s.field k .size = Int.bmod z (256 ^ 8)) :
    ∃ t, writeAll bld objid ws s = .ok (ws.map fun w ↦ (w.buff.length : ℤ), t) ∧
      Targets objid t k ∧ t.field k .size = Int.bmod (z + total ws) (256 ^ 8) := by
  induction ws generalizing s z with
  | nil => exact ⟨s, rfl, h, by rw [hsize]; exact congrArg (Int.bmod · _) (Int.add_zero z).symm⟩
  | cons w ws ih =>
    obtain ⟨u, hwrite, hu, husize⟩ := h.write (hfits w List.mem_cons_self) hsize
    obtain ⟨t, hrun, ht, htsize⟩ :=
      ih hu (fun w' hw' ↦ hfits w' (List.mem_cons_of_mem w hw')) husize
    refine ⟨t, ?_, ht, ?_⟩
    · rw [writeAll, hwrite]
      simp only [hrun]
      rfl
    · rw [htsize, total_cons, Nat.cast_add, Int.add_assoc]

/-- What `objfs_getattr` reports is the size field. -/
theorem getattr_reports (h : Targets objid s k) (hlow : 2 ≤ objid) (hhigh : objid < 2 ^ 31)
    (size : ℤ) : Reports defFstat defDirstat s k size ↔ s.field k .size = size := by
  refine ⟨And.left, fun hsize ↦ ⟨hsize, fun name hname hfinds ↦ ?_⟩⟩
  have hid : s.field k .id = objid := h.spec.2.1.2
  have hlookup : findObjectId name s = (objid, { s with backup := some k }) := by
    rcases findObjectId_cases name s with ⟨-, hnone⟩ | ⟨j, hj, hfound⟩
    · exact absurd ⟨hfinds.live, hfinds.found⟩ (hnone k)
    · obtain rfl := hfinds.unique hj
      rw [hfound, hid]
  have hnarrow : Int.bmod objid (2 ^ 32) = objid := wrap_of_range (by omega) (by omega)
  have hcalled : (AttrCall.objfsGetattr name).next defFstat defDirstat .called s =
      .ok (.found { defFstat with ino := objid }, { s with backup := some k }) := by
    rw [AttrCall.next, if_neg hname, hlookup]
    simp only [hnarrow, if_neg (show ¬objid < 0 by omega)]
  have hfield : ∀ f, backupField { s with backup := some k } f = s.field k f := fun _ ↦ rfl
  have hmatch : ¬(objid < 2 ∨ s.field k .id % 2 ^ 64 ≠ objid) := by
    rw [hid]
    omega
  have hfill : fillupSizeDetails { defFstat with ino := objid } { s with backup := some k } =
      (0, { defFstat with ino := objid, size := size, blocks := statBlocks size }) := by
    rw [fillupSizeDetails, hfield, hfield, if_neg hmatch, hsize]
  refine ⟨{ defFstat with ino := objid, size := size, blocks := statBlocks size },
    { s with backup := some k }, ?_, rfl⟩
  rw [objfsGetattr, hcalled]
  simp only [AttrCall.next, hfill, lt_irrefl, if_false]

/-! ### The sum and the extent -/

/-- The sums of the lengths are the extents, at every stage, exactly when each write starts where
the earlier ones end. -/
theorem totals_eq_extents_iff (hfits : ∀ w ∈ ws, w.Fits) :
    (∀ pre, pre <+: ws → Int.bmod (total pre) (256 ^ 8) = extent pre) ↔
      ∀ pre w, pre ++ [w] <+: ws → w.offset = extent pre := by
  -- one more write keeps the two equal exactly when it starts at the extent
  have hstep : ∀ pre w, pre ++ [w] <+: ws → Int.bmod (total pre) (256 ^ 8) = extent pre →
      (Int.bmod (total (pre ++ [w])) (256 ^ 8) = extent (pre ++ [w]) ↔ w.offset = extent pre) := by
    intro pre w hpre heq
    have hw := hfits w (hpre.subset (by simp))
    have hle := extent_le fun w' hw' ↦ hfits w' (hpre.subset (List.mem_append_left _ hw'))
    have hpos := hw.pos
    have hlen := hw.le
    have hsum : Int.bmod (total (pre ++ [w])) (256 ^ 8) = extent pre + w.buff.length := by
      rw [total_snoc, Nat.cast_add, ← Int.bmod_add_bmod, heq]
      exact Int.bmod_eq_of_le (by norm_num; omega) (by norm_num; omega)
    rw [hsum, extent_snoc, Write.stop, ← Nat.cast_add, Nat.cast_inj]
    rcases Nat.le_total (extent pre) (w.offset + w.buff.length) with hmax | hmax
    · rw [max_eq_right hmax]
      omega
    · rw [max_eq_left hmax]
      omega
  constructor
  · intro hall pre w hpre
    exact (hstep pre w hpre (hall pre ((List.prefix_append pre [w]).trans hpre))).mp
      (hall (pre ++ [w]) hpre)
  · intro happends pre hpre
    induction pre using List.reverseRecOn with
    | nil => rfl
    | append_singleton pre w ih =>
      exact (hstep pre w hpre (ih ((List.prefix_append pre [w]).trans hpre))).mpr
        (happends pre w hpre)

theorem sizeRight_iff (h : Targets objid s k) (hlow : 2 ≤ objid) (hhigh : objid < 2 ^ 31)
    (hempty : s.field k .size = 0) (hfits : ∀ w ∈ ws, w.Fits) :
    SizeRight bld defFstat defDirstat objid k ws s ↔
      Int.bmod (total ws) (256 ^ 8) = extent ws := by
  obtain ⟨t, hrun, ht, hsize⟩ :
      ∃ t, writeAll bld objid ws s = .ok (ws.map fun w ↦ (w.buff.length : ℤ), t) ∧
        Targets objid t k ∧ t.field k .size = Int.bmod (0 + total ws) (256 ^ 8) :=
    writeAll_sizes h hfits hempty
  have hreports : Reports defFstat defDirstat t k (extent ws) ↔ t.field k .size = extent ws :=
    getattr_reports ht hlow hhigh (extent ws)
  rw [Int.zero_add] at hsize
  rw [← hsize, ← hreports]
  constructor
  · rintro ⟨t', hrun', hright⟩
    obtain ⟨-, rfl⟩ := Prod.mk.inj (Except.ok.inj (hrun.symm.trans hrun'))
    exact hright
  · exact fun hright ↦ ⟨t, hrun, hright⟩

/-- The size of an object that had none is right after every write of a sequence exactly when each
write starts where the earlier ones end, and at the end of the sequence exactly when the lengths sum
up to the extent. -/
theorem size_is_extent_iff (bld : Build) (defFstat defDirstat : Stat) (objid : ℤ) (s : Store)
    (k : ℕ)
    (ws : List Write) (htarget : Targets objid s k) (hlow : 2 ≤ objid) (hhigh : objid < 2 ^ 31)
    (hempty : s.field k .size = 0) (hfits : ∀ w ∈ ws, w.Fits) :
    ((∀ pre, pre <+: ws → SizeRight bld defFstat defDirstat objid k pre s) ↔
        ∀ pre w, pre ++ [w] <+: ws → w.offset = extent pre) ∧
      (SizeRight bld defFstat defDirstat objid k ws s ↔
        Int.bmod (total ws) (256 ^ 8) = extent ws) := by
  have hright : ∀ pre, pre <+: ws → (SizeRight bld defFstat defDirstat objid k pre s ↔
      Int.bmod (total pre) (256 ^ 8) = extent pre) := fun pre hpre ↦
    sizeRight_iff htarget hlow hhigh hempty fun w hw ↦ hfits w (hpre.subset hw)
  refine ⟨?_, hright ws List.prefix_rfl⟩
  rw [← totals_eq_extents_iff hfits]
  exact forall₂_congr hright

/-! ### A first object -/

/-- A first object on a blank disk is the target of its id, and its size is 0. -/
theorem targets_first : ∃ s, createObject ⟨[97], by decide⟩ (objstoreInit zeroDevice) = (2, s) ∧
    Finds ⟨[97], by decide⟩ s 0 ∧ Targets 2 s 0 ∧ s.field 0 .size = 0 := by
  obtain ⟨s, hcreate, hc⟩ := created_blank blank_zeroDevice ⟨[97], by decide⟩ (by decide)
  have hlive : Live s 0 := (hc.live (by norm_num) 0).mpr (.inr rfl)
  have huniq : ∀ j, Live s j → s.field j .id = 2 → j = 0 := fun j hj _ ↦
    ((hc.live (by norm_num) j).mp hj).resolve_left (not_live_blank blank_zeroDevice)
  refine ⟨s, hcreate, ⟨hlive, ?_, fun j hj ↦ absurd hj (Nat.not_lt_zero j)⟩, ?_, ?_⟩
  · rw [hc.key 0 _ (by decide), if_pos rfl, decide_eq_true rfl]
  · rw [Targets, findTarget_eq hlive ?_ huniq]
    rw [hc.field, if_pos ⟨rfl, rfl⟩]
    rfl
  · rw [hc.field, if_neg (by simp)]
    exact field_blank blank_zeroDevice (by norm_num) .size

theorem size_is_extent_iff_first : ∃ s, Targets 2 s 0 ∧
    ((∀ pre, pre <+: [⟨[7], 0⟩, ⟨[8], 1⟩] → SizeRight .cached ⟨0, 0, 0⟩ ⟨0, 0, 0⟩ 2 0 pre s) ↔
        ∀ pre w, pre ++ [w] <+: [⟨[7], 0⟩, ⟨[8], 1⟩] → w.offset = extent pre) ∧
      (SizeRight .cached ⟨0, 0, 0⟩ ⟨0, 0, 0⟩ 2 0 [⟨[7], 0⟩, ⟨[8], 1⟩] s ↔
        Int.bmod (total [⟨[7], 0⟩, ⟨[8], 1⟩]) (256 ^ 8) = extent [⟨[7], 0⟩, ⟨[8], 1⟩]) := by
  obtain ⟨s, -, -, htarget, hempty⟩ := targets_first
  refine ⟨s, htarget, size_is_extent_iff .cached ⟨0, 0, 0⟩ ⟨0, 0, 0⟩ 2 s 0 [⟨[7], 0⟩, ⟨[8], 1⟩]
    htarget (by norm_num) (by norm_num) hempty fun w hw ↦ ?_⟩
  simp only [List.mem_cons, List.not_mem_nil, or_false] at hw
  rcases hw with rfl | rfl <;> exact ⟨by decide, by decide, by decide⟩

/-- Two writes of one byte at offset 0 leave the size 2. -/
theorem overwrite_counts_twice : ∃ s t, createObject ⟨[97], by decide⟩
      (objstoreInit zeroDevice) = (2, s) ∧ Finds ⟨[97], by decide⟩ s 0 ∧ Targets 2 s 0 ∧
    writeAll .cached 2 [⟨[7], 0⟩, ⟨[8], 0⟩] s = .ok ([1, 1], t) ∧ t.field 0 .size = 2 ∧
    Reports ⟨0, 0, 0⟩ ⟨0, 0, 0⟩ t 0 2 ∧ extent [⟨[7], 0⟩, ⟨[8], 0⟩] = 1 ∧
    ¬SizeRight .cached ⟨0, 0, 0⟩ ⟨0, 0, 0⟩ 2 0 [⟨[7], 0⟩, ⟨[8], 0⟩] s := by
  obtain ⟨s, hcreate, hfinds, htarget, hempty⟩ := targets_first
  have hfits : ∀ w ∈ [Write.mk [7] 0, Write.mk [8] 0], w.Fits := fun w hw ↦ by
    simp only [List.mem_cons, List.not_mem_nil, or_false] at hw
    rcases hw with rfl | rfl <;> exact ⟨by decide, by decide, by decide⟩
  obtain ⟨t, hrun, ht, hsize⟩ :
      ∃ t, writeAll .cached 2 [⟨[7], 0⟩, ⟨[8], 0⟩] s = .ok ([1, 1], t) ∧ Targets 2 t 0 ∧
        t.field 0 .size = Int.bmod (0 + total [Write.mk [7] 0, Write.mk [8] 0]) (256 ^ 8) :=
    writeAll_sizes htarget hfits hempty
  have htwo : t.field 0 .size = 2 := by
    rw [hsize]
    decide
  refine ⟨s, t, hcreate, hfinds, htarget, hrun, htwo,
    (getattr_reports ht (by norm_num) (by norm_num) 2).mpr htwo, by decide, fun hright ↦ ?_⟩
  rw [sizeRight_iff htarget (by norm_num) (by norm_num) hempty hfits] at hright
  exact absurd hright (by decide)

end OsAssignments.Objstore
