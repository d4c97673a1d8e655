import OsAssignments.Objstore.Builds

/-!
# Journals

A journal is a store together with a ghost record of the writes that each slot has received. An `Op`
creates an object, writes one block at any block index, reads, or unmounts and mounts again.
`fileOf` says what a list of writes leaves at a block index: the latest buffer written there, unless
the first block of its range was written after it, which replaces the indirect block.

`InOrder` is the invariant of the runs in which writes at later indices of a range find the
indirect block and every allocation finds a bit (`Op.Orderly`), and reads stay within written block
indices (`Op.Covered`): the contents of an object are those of the writes it has received
(`content_write`, `inOrder_step`).
-/

set_option autoImplicit false
set_option relaxedAutoImplicit false

namespace OsAssignments.Objstore

open Library Library.Ownership

/-! ### Operations -/

/-- A store with the writes that the object in each slot has received, the latest first. -/
structure Journal where
  store : Store
  writes : ℕ → List (ℕ × List UInt8)

/-- The operations of a journal; an object is named by its slot, a write by its block index. -/
inductive Op
  | create (key : Key)
  | write (k a : ℕ) (buff : List UInt8)
  | read (k size offset : ℕ)
  | remount

namespace Op

/-- An operation on a journal. -/
def run (bld : Build) : Op → Journal → Except Fault (Reply × Journal)
  | create key, s =>
    .ok (.value (createObject key s.store).1, ⟨(createObject key s.store).2, s.writes⟩)
  | write k a buff, s =>
    (objstoreWrite bld (s.store.field k .id) buff ((a * 4096 : ℕ) : ℤ) s.store).map
      fun (v, t) ↦ (.value v, ⟨t, Function.update s.writes k ((a, buff) :: s.writes k)⟩)
  | read k size offset, s =>
    (objstoreRead bld (s.store.field k .id) size (offset : ℤ) s.store).map
      fun ((v, buff), t) ↦ (.data v buff, ⟨t, s.writes⟩)
  | remount, s => .ok (.value 0, ⟨Objstore.remount s.store, s.writes⟩)

/-- What the caller promises. -/
def Allowed : Op → Journal → Prop
  | create key, s => key.Short ∧ ∀ j, Live s.store j → keyEq s.store.a j key = false
  | write k a buff, s =>
    Live s.store k ∧ a < 4100 ∧ 1 ≤ buff.length ∧ buff.length ≤ 4096
  | read k size offset, s => Live s.store k ∧ offset % 4096 = 0 ∧ offset + size ≤ 4096 * 4100
  | remount, _ => True

/-- A write at a later index of a range finds the indirect block, and every write finds bits. -/
def Orderly : Op → Journal → Prop
  | write k a _, s => Reached s.store k a ∧
    blocksNeeded a ≤ (Bitmap.clearBits s.store.dataBitmap 8388608).card
  | _, _ => True

/-- A read stays within the block indices that have a block. -/
def Covered (bld : Build) : Op → Journal → Prop
  | read k size offset, s =>
    ∀ i < (size + 4095) / 4096, own bld s.store (k, .ofIndex (offset / 4096 + i)) ≠ none
  | _, _ => True

/-- A read follows block numbers of the data region, or block 0 while its line is not dirty. -/
def Harmless (bld : Build) : Op → Journal → Prop
  | read k size offset, s =>
    ∀ i < (size + 4095) / 4096, ∀ blk ∈ touched bld s.store k (offset / 4096 + i),
      22815 ≤ blk ∨ blk = 0 ∧ s.store.dev.cacheDirty 0 ≠ 1
  | _, _ => True

end Op

/-- The journal after `objstore_init` on a disk that holds no object. -/
def Journal.start (d : Device) : Journal := ⟨objstoreInit d, fun _ ↦ []⟩

/-! ### What writes leave behind -/

/-- A write at block index `a` drops what is at `a'`: `a` is the first index of its range. -/
def Drops (a a' : ℕ) : Prop := 4 ≤ a ∧ (a - 4) % 1024 = 0 ∧ a < a' ∧ a' < a + 1024

instance (a a' : ℕ) : Decidable (Drops a a') := inferInstanceAs (Decidable (_ ∧ _))

/-- What a list of writes, the latest first, leaves at a block index. -/
def fileOf : List (ℕ × List UInt8) → ℕ → Option (List UInt8)
  | [], _ => none
  | (a, buff) :: rest, a' =>
    if a' = a then some buff else if Drops a a' then none else fileOf rest a'

theorem fileOf_self (writes : List (ℕ × List UInt8)) (a : ℕ) (buff : List UInt8) :
    fileOf ((a, buff) :: writes) a = some buff := if_pos rfl

/-- A write that is followed by none at its block index or at the first of its range is kept. -/
theorem fileOf_append {after before : List (ℕ × List UInt8)} {a : ℕ} {buff : List UInt8}
    (hafter : ∀ w ∈ after, a ≠ w.1 ∧ ¬ Drops w.1 a) :
    fileOf (after ++ (a, buff) :: before) a = some buff := by
  induction after with
  | nil => exact fileOf_self before a buff
  | cons w after ih =>
    obtain ⟨hne, hkeep⟩ := hafter w List.mem_cons_self
    rw [List.cons_append, fileOf, if_neg hne, if_neg hkeep]
    exact ih fun w' hw' ↦ hafter w' (List.mem_cons_of_mem w hw')

variable {bld : Build} {s s' : Store} {k a offset : ℕ} {buff : List UInt8} {bits : List ℕ}

/-- The places of slot `k` that a write at block index `a` drops. -/
theorem drops_iff {r : Fin 4} {a' : ℕ} (ha' : a' < 4100) (hr : a = 4 + 1024 * (r : ℕ)) :
    Drops a a' ↔ a' ≠ a ∧ (Place.ofIndex a').field = .indirect r := by
  rcases Place.index_cases ha' with hdirect | ⟨r', i, hr', hi, rfl⟩
  · rw [Place.ofIndex_direct hdirect]
    refine iff_of_false (fun h ↦ ?_) fun h ↦ nomatch h.2
    have := h.2.2.1
    omega
  · rw [Place.ofIndex_entry hr' hi]
    simp only [Place.field, Field.indirect.injEq, Fin.ext_iff, Drops]
    omega

/-- What is not the first index of a range drops nothing. -/
theorem not_drops {a' : ℕ} (ha : a < 4100) (hnot : ∀ r : Fin 4, a ≠ 4 + 1024 * (r : ℕ)) :
    ¬ Drops a a' := by
  intro h
  obtain ⟨hle, hmod, -, -⟩ := h
  exact hnot ⟨(a - 4) / 1024, by omega⟩ (show a = 4 + 1024 * ((a - 4) / 1024) by omega)

section Write

variable (h : Owned bld s) (hlive : Live s k) (ha : a < 4100) (hoffset : offset / 4096 = a)
  (htakes : Takes s a bits)
  (hfresh : ∀ i ∈ bits, ∀ q, own bld s q ≠ some ((22815 + i : ℕ) : ℤ)) (hreached : Reached s k a)
  {v : ℤ} (hrun : objstoreWrite bld (s.field k .id) buff offset s = .ok (v, s'))

include h hlive ha hoffset htakes hfresh hreached hrun

/-- The content of a block index after a write. -/
theorem content_write (k' : ℕ) {a' : ℕ} (ha' : a' < 4100) :
    content bld s' (k', .ofIndex a') =
      if k' = k then
        if a' = a then some (Block.ofList buff)
        else if Drops a a' then none else content bld s (k', .ofIndex a')
      else content bld s (k', .ofIndex a') := by
  have hids : ∀ i, Live s i → s.field i .id = s.field k .id → i = k := fun i hi heq ↦
    h.ids i k hi hlive heq
  have hplace : (k', Place.ofIndex a') = (k, .ofIndex a) ↔ k' = k ∧ a' = a :=
    ⟨fun heq ↦ ⟨(Prod.mk.inj heq).1, Place.ofIndex_inj ha' ha (Prod.mk.inj heq).2⟩,
      fun heq ↦ by rw [heq.1, heq.2]⟩
  -- Away from the first index of a range only the place of the block index changes.
  have hone (hnot : ∀ a', ¬ Drops a a') (hcontent : content bld s' (k', .ofIndex a') =
      Function.update (content bld s) (k, .ofIndex a) (some (Block.ofList buff))
        (k', .ofIndex a')) : content bld s' (k', .ofIndex a') =
      if k' = k then
        if a' = a then some (Block.ofList buff)
        else if Drops a a' then none else content bld s (k', .ofIndex a')
      else content bld s (k', .ofIndex a') := by
    rw [hcontent]
    by_cases hq : k' = k ∧ a' = a
    · rw [hplace.mpr hq, Function.update_self, if_pos hq.1, if_pos hq.2]
    · rw [Function.update_of_ne fun heq ↦ hq (hplace.mp heq), if_neg (hnot a')]
      by_cases hk : k' = k
      · rw [if_pos hk, if_neg fun heq ↦ hq ⟨hk, heq⟩]
      · rw [if_neg hk]
  match bits, htakes with
  | [j], ⟨hj, hnot⟩ =>
    have hfresh' := hfresh j (List.mem_singleton_self j)
    rcases Place.index_cases ha with hdirect | ⟨r, i, hr, hi, rfl⟩
    · obtain ⟨s'', hrun', hw⟩ :=
        written_direct bld buff hlive rfl hids (a := ⟨a, hdirect⟩) hoffset hj
      obtain rfl : s' = s'' := (Prod.mk.inj (Except.ok.inj (hrun.symm.trans hrun'))).2
      refine hone (fun _ ↦ not_drops ha hnot) ?_
      rw [Place.ofIndex_direct hdirect]
      exact content_direct hw h hlive hfresh' _
    · have hpos : 0 < i := Nat.pos_of_ne_zero fun hzero ↦ hnot ⟨r, hr⟩ (by rw [hzero]; rfl)
      have hind : own bld s (k, .indirect ⟨r, hr⟩) = some (ptr bld s k (.indirect ⟨r, hr⟩)) :=
        own_of_ne_zero hlive (hreached ⟨r, hr⟩ i hpos hi rfl)
      obtain ⟨n, hn⟩ : ∃ n : ℕ, s.field k (.indirect ⟨r, hr⟩) = n :=
        ⟨_, (h.eq_natCast hind).symm⟩
      rw [ptr, hn] at hind
      obtain ⟨s'', hrun', hw⟩ :=
        written_next buff hlive rfl hids h.dev (r := ⟨r, hr⟩) hpos hi hoffset
        hn hj
      obtain rfl : s' = s'' := (Prod.mk.inj (Except.ok.inj (hrun.symm.trans hrun'))).2
      refine hone (fun _ ↦ not_drops ha hnot) ?_
      rw [Place.ofIndex_entry hr hi]
      exact content_next (i := ⟨i, hi⟩) hw h hind hj.lt hfresh' (Place.isData_ofIndex a')
  | [j₁, j₂], ⟨hj₁, hj₂, r, hr⟩ =>
    have hne : j₁ ≠ j₂ := by
      rintro rfl
      have hclear := hj₂.clear
      rw [dataBit_allocated, decide_eq_true (List.mem_singleton_self _)] at hclear
      cases hclear
    obtain ⟨s'', hrun', hw⟩ := written_first bld buff hlive rfl hids (hoffset.trans hr) hj₁ hj₂
    obtain rfl : s' = s'' := (Prod.mk.inj (Except.ok.inj (hrun.symm.trans hrun'))).2
    have hindex : Place.ofIndex a = .entry r 0 := by
      rw [hr]
      exact Place.ofIndex_entry r.isLt (i := 0) (by norm_num)
    rw [content_first hw h hlive hne hj₂.lt (hfresh j₁ (by simp)) (hfresh j₂ (by simp))
      (Place.isData_ofIndex a'), ← hindex]
    by_cases hq : k' = k ∧ a' = a
    · rw [hplace.mpr hq, Function.update_self, if_pos hq.1, if_pos hq.2]
    · rw [Function.update_of_ne fun heq ↦ hq (hplace.mp heq)]
      by_cases hk : k' = k
      · have hne' : a' ≠ a := fun heq ↦ hq ⟨hk, heq⟩
        rw [if_pos hk, if_neg hne', withoutRange]
        refine if_congr ?_ rfl rfl
        rw [drops_iff ha' hr]
        exact ⟨fun hp ↦ ⟨hne', hp.2⟩, fun hp ↦ ⟨hk, hp.2⟩⟩
      · rw [if_neg hk, withoutRange_of_ne fun hp ↦ hk hp.1]

end Write

/-! ### The invariant -/

/-- The contents of the objects are those of the writes they have received. -/
structure InOrder (bld : Build) (s : Journal) : Prop where
  consistent : Consistent s.store
  sound : Sound bld s.store
  durable : Durable bld s.store
  files : ∀ k, Live s.store k → ∀ a < 4100, content bld s.store (k, .ofIndex a) =
    (fileOf (s.writes k) a).map Block.ofList
  unborn : ∀ k, ¬ Live s.store k → s.writes k = []

theorem inOrder_start (bld : Build) {d : Device} (hd : Blank d) : InOrder bld (.start d) where
  consistent := consistent_start hd
  sound := sound_of_no_live (fun _ ↦ not_live_blank hd) (buildOk_objstoreInit bld d)
  durable := durable_objstoreInit bld d
  files := fun _ hlive ↦ absurd hlive (not_live_blank hd)
  unborn := fun _ _ ↦ rfl

/-- A read of mapped block indices is harmless. -/
theorem harmless_of_covered {op : Op} {s : Journal} (h : InOrder bld s) (hallowed : op.Allowed s)
    (hcovered : op.Covered bld s) : op.Harmless bld s := by
  cases op with
  | read k size offset =>
    obtain ⟨-, haligned, hrange⟩ := hallowed
    exact fun i hi blk hblk ↦
      .inl (h.sound.touched_region (by omega) (hcovered i hi) blk hblk)
  | _ => trivial

/-- A change that keeps the slots and the contents keeps the invariant. -/
theorem InOrder.frame {bld' : Build} {s : Journal} {st : Store} (h : InOrder bld s)
    (hslots : SameSlots st s.store)
    (hlogical : ∀ q b, own bld s.store q = some b →
      logical bld' st.dev b.toNat = logical bld s.store.dev b.toNat)
    (hdata : ∀ i < 8388608, st.dataBit i = s.store.dataBit i) (hdurable : Durable bld' st) :
    InOrder bld' ⟨st, s.writes⟩ where
  consistent := h.consistent.frame hslots
  sound := h.sound.frame hslots hlogical hdurable.dev hdata
  durable := hdurable
  files := fun k hlive a ha ↦ by
    rw [content_frame hslots hlogical]
    exact h.files k ((live_frame hslots k).mp hlive) a ha
  unborn := fun k hlive ↦ h.unborn k fun hold ↦ hlive ((live_frame hslots k).mpr hold)

/-- Reads of data-region blocks, and of block 0 while its line is not dirty, are clean. -/
theorem ReadsOf.clean {d : Device} {blks : List ℤ} {calls : List BlockCall}
    (hcalls : ReadsOf blks calls)
    (hblks : ∀ blk ∈ blks, 22815 ≤ blk ∨ blk = 0 ∧ d.cacheDirty 0 ≠ 1) :
    ∀ call ∈ calls, call.writes = [] ∧
      (22815 ≤ call.blk ∨ d.cacheDirty (slotOf call.blk : ℕ) ≠ 1) := by
  intro call hcall
  obtain ⟨hwrites, hmem⟩ := hcalls call hcall
  refine ⟨hwrites, (hblks _ hmem).imp (fun hle ↦ ?_) fun hzero ↦ ?_⟩
  · exact_mod_cast hle
  · have hblk0 : call.blk = 0 := by exact_mod_cast hzero.1
    rw [hblk0]
    exact hzero.2

/-- Clean reads leave the disk below the data region alone. -/
theorem Durable.clean_reads (h : Durable bld s) (calls : List BlockCall)
    (hclean : ∀ call ∈ calls, call.writes = [] ∧
      (22815 ≤ call.blk ∨ s.dev.cacheDirty (slotOf call.blk : ℕ) ≠ 1)) :
    Durable bld { s with dev := runCalls bld calls s.dev } ∧
      ∀ b < 22815, (runCalls bld calls s.dev).disk b = s.dev.disk b := by
  obtain ⟨hdirty, hdisk⟩ : DirtyFrom 22815 (runCalls bld calls s.dev) ∧ ∀ b < 22815,
      (runCalls bld calls s.dev).disk b = s.dev.disk b :=
    dirtyFrom_reads h.dirty calls hclean
  refine ⟨⟨buildOk_runCalls h.dev calls, hdirty, quiet_runCalls h.quiet calls, ?_⟩, hdisk⟩
  intro n hn hflag
  have hsame : (runCalls bld calls s.dev).disk (n / 4048 + 287) = s.dev.disk (n / 4048 + 287) :=
    hdisk _ (by omega)
  exact (congrArg (Block.byte · (n % 4048)) hsame).trans (h.faithful n hn hflag)

/-- A harmless read changes the device only. -/
theorem InOrder.read {s : Journal} (h : InOrder bld s) {k size offset : ℕ}
    (hallowed : (Op.read k size offset).Allowed s)
    (hharmless : (Op.read k size offset).Harmless bld s) :
    ∃ out calls, objstoreRead bld (s.store.field k .id) size (offset : ℤ) s.store =
        .ok ((size, out), { s.store with dev := runCalls bld calls s.store.dev }) ∧
      logical bld (runCalls bld calls s.store.dev) = logical bld s.store.dev ∧
      InOrder bld ⟨{ s.store with dev := runCalls bld calls s.store.dev }, s.writes⟩ := by
  obtain ⟨hlive, haligned, hrange⟩ := hallowed
  obtain ⟨calls, hcalls, hread⟩ := objstoreRead_spec h.sound.dev hlive rfl
    (fun i hi heq ↦ h.sound.ids i k hi hlive heq) (by omega : offset < 2147483648)
    (by omega : (size + 4095) / 4096 = min ((size + 4095) / 4096) (4100 - offset / 4096))
    fun i hi blk hblk ↦ by
      rcases hharmless i hi blk hblk with hblk | ⟨hblk, -⟩ <;> omega
  have hclean := hcalls.clean (d := s.store.dev) fun blk hblk ↦ by
    obtain ⟨i, hi, hblk⟩ := List.mem_flatMap.mp hblk
    exact hharmless i (List.mem_range.mp hi) blk hblk
  have hsame := logical_reads h.sound.dev hcalls
  exact ⟨_, calls, hread, hsame, h.frame (sameSlots_of_eq rfl rfl)
    (fun q b _ ↦ congrFun hsame b.toNat) (fun _ _ ↦ rfl) (h.durable.clean_reads calls hclean).1⟩

/-- A write in a range that is reached stores its buffer. -/
theorem InOrder.write {s : Journal} (h : InOrder bld s) {k a : ℕ} {buff : List UInt8}
    (hallowed : (Op.write k a buff).Allowed s) (hreached : Reached s.store k a)
    (htakes : Takes s.store a bits) : ∃ st,
      objstoreWrite bld (s.store.field k .id) buff ((a * 4096 : ℕ) : ℤ) s.store =
        .ok (buff.length, st) ∧ Stored bld k a buff bits s.store st ∧
      InOrder bld ⟨st, Function.update s.writes k ((a, buff) :: s.writes k)⟩ := by
  obtain ⟨hlive, ha, hpos, hsize⟩ := hallowed
  have hfresh : ∀ j ∈ bits, ∀ q, own bld s.store q ≠ some ((22815 + j : ℕ) : ℤ) := fun j hj q ↦
    h.sound.fresh (htakes.clear j hj).2 q
  have hids : ∀ i, Live s.store i → s.store.field i .id = s.store.field k .id → i = k :=
    fun i hi heq ↦ h.sound.ids i k hi hlive heq
  obtain ⟨st, hrun, hst⟩ := stored_write buff h.sound.toOwned hlive ha
    (by omega : a * 4096 / 4096 = a) htakes hfresh hreached
  obtain ⟨st', hrun', hkeeps⟩ := objstoreWrite_keeps bld buff (a * 4096) (by omega) hlive hids
  obtain rfl : st = st' := (Prod.mk.inj (Except.ok.inj (hrun.symm.trans hrun'))).2
  have hcontent := fun k' a' (ha' : a' < 4100) ↦ content_write h.sound.toOwned hlive ha
    (by omega : a * 4096 / 4096 = a) htakes hfresh hreached hrun k' ha'
  obtain ⟨target, calls, hw, htarget, hcalls⟩ := hst.written
  refine ⟨st, hrun, hst,
    ⟨hkeeps.tidy hlive.bit h.consistent.tidy, hkeeps.keysUnique h.consistent.keys⟩,
    hst.sound h.sound htakes, h.durable.calls calls hcalls hw.dev (faithful_of_change
      h.durable.faithful (fun n hn ↦ hw.bytes n (by omega)) hw.dirtyArray),
    fun k' hlive' a' ha' ↦ ?_, fun k' hlive' ↦ ?_⟩
  · have hold := h.files k' ((hw.live htarget k').mp hlive') a' ha'
    rw [hcontent k' a' ha']
    by_cases hk : k' = k
    · subst hk
      simp only [if_true, Function.update_self, fileOf]
      split_ifs
      · rfl
      · rfl
      · exact hold
    · simp only [if_neg hk, Function.update_of_ne hk]
      exact hold
  · have hk : k' ≠ k := fun heq ↦ hlive' (heq ▸ (hw.live htarget k).mpr hlive)
    simp only [Function.update_of_ne hk]
    exact h.unborn k' fun hold ↦ hlive' ((hw.live htarget k').mpr hold)

/-- A write keeps the keys. -/
theorem InOrder.keyEq_write {s t : Journal} (h : InOrder bld s) {reply : Reply}
    (hallowed : (Op.write k a buff).Allowed s)
    (hrun : (Op.write k a buff).run bld s = .ok (reply, t))
    {key : Key} (hkey : key.Short) (j : ℕ) : keyEq t.store.a j key = keyEq s.store.a j key := by
  obtain ⟨hlive, ha, -, -⟩ := hallowed
  obtain ⟨st, hwrite, hkeeps⟩ := objstoreWrite_keeps bld buff (a * 4096) (by omega) hlive
    fun i hi heq ↦ h.sound.ids i k hi hlive heq
  rw [Op.run, hwrite] at hrun
  cases hrun
  exact keyEq_of_bytes hkeeps.bytes hkey j

/-- A write keeps the names. -/
theorem Named.write {s t : Journal} {names : ℕ → Option Key} (hnamed : Named names s.store)
    {reply : Reply} (hallowed : (Op.write k a buff).Allowed s)
    (hrun : (Op.write k a buff).run bld s = .ok (reply, t)) : Named names t.store := by
  obtain ⟨hlive, ha, -, -⟩ := hallowed
  obtain ⟨st, hwrite, hkeeps⟩ := objstoreWrite_keeps bld buff (a * 4096) (by omega) hlive
    fun i hi heq ↦ hnamed.tidy.ids i k hi hlive heq
  rw [Op.run, hwrite] at hrun
  cases hrun
  exact hnamed.keeps hkeeps ((hnamed.live_iff k).mp hlive)

/-- A creation leaves the contents alone. -/
theorem InOrder.create {s : Journal} (h : InOrder bld s) {key : Key}
    (hallowed : (Op.create key).Allowed s) :
    InOrder bld ⟨(createObject key s.store).2, s.writes⟩ := by
  rcases createObject_cases s.store hallowed.1 with ⟨-, heq⟩ | ⟨k, hk, hclear, -, st, heq, hc⟩
  · rw [heq]
    exact h.frame (sameSlots_of_eq rfl rfl) (fun _ _ _ ↦ rfl) (fun _ _ ↦ rfl)
      ⟨h.durable.dev, h.durable.dirty, h.durable.quiet, h.durable.faithful⟩
  · rw [heq]
    have ht := h.consistent.tidy
    refine ⟨⟨hc.tidy ht, hc.keysUnique hk h.consistent.keys hallowed.2⟩,
      h.sound.created hc ht hk hclear, h.durable.calls [] (by simp) hc.dev
        (faithful_of_change h.durable.faithful hc.bytes hc.dirtyArray),
      fun k' hlive a ha ↦ ?_, fun k' hlive ↦ ?_⟩
    · rw [content_created hc ht hk hclear]
      by_cases hold : Live s.store k'
      · exact h.files k' hold a ha
      · rw [content_of_own_none (own_of_not_live hold), h.unborn k' hold]
        rfl
    · exact h.unborn k' fun hold ↦ hlive ((hc.live hk k').mpr (.inl hold))

theorem InOrder.remount {s : Journal} (h : InOrder bld s) (bld' : Build) :
    InOrder bld' ⟨Objstore.remount s.store, s.writes⟩ := by
  refine h.frame h.durable.sameSlots (fun q b hq ↦ ?_) (fun i hi ↦ ?_)
    (durable_objstoreInit bld' _)
  · have hpos := h.sound.pos (k := q.1) (p := q.2) hq
    exact logical_remount h.durable.dev h.durable.quiet bld' (by omega)
  · rw [Store.dataBit, Store.dataBit, Bitmap.bit, Bitmap.bit,
      dataBitmap_remount h.durable.dirty (by omega)]

/-- Every operation keeps the invariant. -/
theorem inOrder_step {s t : Journal} {op : Op} {reply : Reply} (h : InOrder bld s)
    (hallowed : op.Allowed s) (horderly : op.Orderly s) (hharmless : op.Harmless bld s)
    (hrun : op.run bld s = .ok (reply, t)) : InOrder bld t := by
  cases op with
  | create key =>
    cases hrun
    exact h.create hallowed
  | write k a buff =>
    obtain ⟨bits, htakes⟩ := exists_takes horderly.2
    obtain ⟨st, hwrite, -, hnext⟩ := h.write hallowed horderly.1 htakes
    rw [Op.run, hwrite] at hrun
    cases hrun
    exact hnext
  | read k size offset =>
    obtain ⟨out, calls, hread, -, hnext⟩ := h.read hallowed hharmless
    rw [Op.run, hread] at hrun
    cases hrun
    exact hnext
  | remount =>
    cases hrun
    exact h.remount bld

theorem inOrder_run {ok : Op → Journal → Prop} {s t : Journal}
    (hok : ∀ op s, InOrder bld s → ok op s → op.Allowed s ∧ op.Orderly s ∧ op.Harmless bld s)
    (hrun : Reaches (Op.run bld) ok s t) (h : InOrder bld s) : InOrder bld t :=
  hrun.invariant (InOrder bld) (fun op s _ _ hs hop hstep ↦ by
    obtain ⟨hallowed, horderly, hharmless⟩ := hok op s hs hop
    exact inOrder_step hs hallowed horderly hharmless hstep) h

/-! ### Reads of what was written -/

/-- The bytes that a list of writes leaves in a range, with zeros where it leaves nothing. -/
def fileBytes (writes : List (ℕ × List UInt8)) (size offset : ℕ) : List UInt8 :=
  (List.range size).map fun p ↦
    ((fileOf writes ((offset + p) / 4096)).getD []).getD ((offset + p) % 4096) 0

/-- An aligned read of written block indices returns what the writes have left there. -/
theorem InOrder.read_written {s : Journal} (h : InOrder bld s) (hlive : Live s.store k) {size : ℕ}
    (haligned : offset % 4096 = 0) (hrange : offset + size ≤ 4096 * 4100)
    (hwritten : ∀ i < (size + 4095) / 4096, fileOf (s.writes k) (offset / 4096 + i) ≠ none) :
    ∃ t, objstoreRead bld (s.store.field k .id) size (offset : ℤ) s.store =
      .ok ((size, fileBytes (s.writes k) size offset), t) := by
  have hcontent : ∀ i < (size + 4095) / 4096,
      content bld s.store (k, .ofIndex (offset / 4096 + i)) =
      (fileOf (s.writes k) (offset / 4096 + i)).map Block.ofList := fun i hi ↦
    h.files k hlive _ (by omega)
  obtain ⟨calls, -, hread⟩ := objstoreRead_content h.sound.toOwned hlive size offset (by omega)
    (by omega : (size + 4095) / 4096 = min ((size + 4095) / 4096) (4100 - offset / 4096))
    fun i hi ↦ by
      have hne : content bld s.store (k, .ofIndex (offset / 4096 + i)) ≠ none := by
        rw [hcontent i hi, ne_eq, Option.map_eq_none_iff]
        exact hwritten i hi
      exact opened_of_own (own_ne_none_iff_content.mpr hne)
  refine ⟨_, hread.trans (congrArg (fun out ↦ Except.ok ((_, out), _)) ?_)⟩
  refine List.map_congr_left fun p hp ↦ ?_
  have hp := List.mem_range.mp hp
  have hdiv : (offset + p) / 4096 = offset / 4096 + p / 4096 := by omega
  have hmod : (offset + p) % 4096 = p % 4096 := by omega
  have hi : p / 4096 < (size + 4095) / 4096 := by omega
  obtain ⟨buff, hbuff⟩ := Option.ne_none_iff_exists'.mp (hwritten _ hi)
  rw [List.getD_eq_getElem _ _ (by simpa using hi), List.getElem_map, List.getElem_range,
    hcontent _ hi, hdiv, hmod, hbuff, Option.map_some, Option.getD_some, Option.getD_some,
    Block.byte_ofList _ (Nat.mod_lt p (by norm_num))]

/-! ### First runs on the zero disk -/

/-- A journal whose first object lives in slot 0, with the first `c` bits set. -/
structure Opening (bld : Build) (s : Journal) (c : ℕ) : Prop where
  order : InOrder bld s
  live : Live s.store 0
  filled : Filled s.store c

/-- A direct index needs no block to have been opened. -/
theorem reached_direct (s : Store) (k : ℕ) {a : ℕ} (ha : a < 4) : Reached s k a :=
  fun r i hi _ heq ↦ by omega

theorem allowed_first : (Op.create keyA).Allowed (.start zeroDevice) :=
  ⟨by decide, fun _ hlive ↦ absurd hlive (not_live_blank blank_zeroDevice)⟩

/-- The first creation on the zero disk. -/
theorem opening_first (bld : Build) : ∃ s, (Op.create keyA).run bld (.start zeroDevice) =
      .ok (.value 2, s) ∧ Opening bld s 0 ∧ Created keyA 0 (objstoreInit zeroDevice) s.store ∧
    s.writes = fun _ ↦ [] := by
  obtain ⟨st, hcreate, hc⟩ := created_blank blank_zeroDevice keyA (by decide)
  have horder := (inOrder_start bld blank_zeroDevice).create allowed_first
  have hst : (createObject keyA (Journal.start zeroDevice).store).2 = st :=
    congrArg Prod.snd hcreate
  rw [hst] at horder
  have hrun : (Op.create keyA).run bld (.start zeroDevice) =
      .ok (.value 2, ⟨st, (Journal.start zeroDevice).writes⟩) := by
    have hvalue : (createObject keyA (Journal.start zeroDevice).store).1 = 2 :=
      congrArg Prod.fst hcreate
    rw [Op.run, hvalue, hst]
  refine ⟨_, hrun, ⟨horder, (hc.live (by norm_num) 0).mpr (.inr rfl), fun i hi ↦ ?_⟩, hc, rfl⟩
  rw [Store.dataBit, hc.dataBitmap, ← Store.dataBit, dataBit_blank blank_zeroDevice hi,
    decide_eq_false (Nat.not_lt_zero i)]

/-- A first object refers to no block. -/
theorem own_first_object {st : Store} (bld : Build)
    (hc : Created keyA 0 (objstoreInit zeroDevice) st) (q : ℕ × Place) : own bld st q = none := by
  rw [own_created hc (tidy_blank blank_zeroDevice) (by norm_num)
    (inodeBit_blank blank_zeroDevice (by norm_num))]
  exact own_of_not_live (not_live_blank blank_zeroDevice)

section Opening

variable {s : Journal} {c : ℕ} (h : Opening bld s c)

include h

theorem Opening.allowed {a : ℕ} (ha : a < 4100) (buff : List UInt8) (hpos : 1 ≤ buff.length)
    (hsize : buff.length ≤ 4096) : (Op.write 0 a buff).Allowed s := ⟨h.live, ha, hpos, hsize⟩

theorem Opening.orderly {k a : ℕ} (hreached : Reached s.store k a)
    (hc : c + blocksNeeded a ≤ 8388608) (buff : List UInt8) : (Op.write k a buff).Orderly s :=
  have hfinds : (Call.append 0 buff).FindsBlocks ⟨s.store, fun _ ↦ a⟩ :=
    findsBlocks_of_filled h.filled rfl hc
  ⟨hreached, hfinds⟩

/-- A write to an object of a filled journal takes the next bits. -/
theorem Opening.write {k a : ℕ} {buff : List UInt8} (hallowed : (Op.write k a buff).Allowed s)
    (hreached : Reached s.store k a) (hc : c + blocksNeeded a ≤ 8388608) :
    ∃ t, (Op.write k a buff).run bld s = .ok (.value buff.length, t) ∧
      Opening bld t (c + blocksNeeded a) ∧
      Stored bld k a buff (List.range' c (blocksNeeded a)) s.store t.store ∧
      t.writes = Function.update s.writes k ((a, buff) :: s.writes k) := by
  obtain ⟨st, hwrite, hst, horder⟩ := h.order.write hallowed hreached (takes_of_filled h.filled hc)
  obtain ⟨target, calls, hw, htarget, -⟩ := hst.written
  refine ⟨_, by rw [Op.run, hwrite]; rfl, ⟨horder, (hw.live htarget 0).mpr h.live, fun i hi ↦ ?_⟩,
    hst, rfl⟩
  rw [hw.dataBit, h.filled i hi, ← Bool.decide_or]
  refine decide_eq_decide.mpr ?_
  rw [List.mem_range'_1]
  omega

/-- A write at a direct index of the first object enters the next block. -/
theorem Opening.write_direct (a : Fin 4) (buff : List UInt8) (hpos : 1 ≤ buff.length)
    (hsize : buff.length ≤ 4096) (hc : c < 8388608) :
    ∃ t, (Op.write 0 a buff).run bld s = .ok (.value buff.length, t) ∧ Opening bld t (c + 1) ∧
      own bld t.store =
        Function.update (own bld s.store) (0, .direct a) (some ((22815 + c : ℕ) : ℤ)) ∧
      t.writes = Function.update s.writes 0 (((a : ℕ), buff) :: s.writes 0) := by
  have ha := a.isLt
  have hneeded : blocksNeeded a = 1 := if_neg (by omega)
  obtain ⟨t, hrun, hopening, -, hwrites⟩ :=
    h.write (h.allowed (by omega) buff hpos hsize) (reached_direct _ 0 ha) (by omega)
  rw [hneeded] at hopening
  have hids : ∀ i, Live s.store i → s.store.field i .id = s.store.field 0 .id → i = 0 :=
    fun i hi heq ↦ h.order.sound.ids i 0 hi h.live heq
  have hclear := firstClear_of_filled h.filled hc
  obtain ⟨st, hwrite, hw⟩ := written_direct bld buff h.live rfl hids
    (by omega : (a : ℕ) * 4096 / 4096 = a) hclear
  have hst : t.store = st := by
    rw [Op.run, hwrite] at hrun
    cases hrun
    rfl
  refine ⟨t, hrun, hopening, ?_, hwrites⟩
  rw [hst]
  exact own_direct hw h.order.sound.toOwned h.live fun q ↦ h.order.sound.fresh hclear.clear q

/-- A second object is created beside the first. -/
theorem Opening.second (hnamed : Named namesA s.store) : ∃ t, (Op.create keyB).Allowed s ∧
    (Op.create keyB).run bld s = .ok (.value 3, t) ∧ Opening bld t c ∧
    Created keyB 1 s.store t.store ∧ Named namesAB t.store ∧ t.writes = s.writes := by
  have hallowed : (Op.create keyB).Allowed s := ⟨by decide, hnamed.fresh_second⟩
  obtain ⟨st, hcreate, hc, hnext⟩ := hnamed.second
  have hrun : (Op.create keyB).run bld s = .ok (.value 3, ⟨st, s.writes⟩) := by
    rw [Op.run, hcreate]
  refine ⟨_, hallowed, hrun, ⟨inOrder_step h.order hallowed trivial trivial hrun,
    hnext.live keyA rfl, fun i hi ↦ ?_⟩, hc, hnext, rfl⟩
  rw [Store.dataBit, hc.dataBitmap]
  exact h.filled i hi

end Opening

end OsAssignments.Objstore
