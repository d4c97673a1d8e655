import OsAssignments.Objstore.Halves

/-!
# Where `destroy_object` reads and writes

The calls of `toggle` and `drop` record the places of `data_bitmap` and of the cache arrays that
`destroy_object` uses for a block. `Records` says that releasing a list of blocks records the places
of these blocks and no others, so the places of a call are those of `released`.

The bit position of a block is 574 more than the one the allocator gave it, as the offset macro is
not parenthesised, and an indirect pointer is used before it is tested against zero. A call is
inside the arrays exactly when no indirect pointer is zero and no block is one of the last 574 of
the data region (`destroy_inside_iff`). The entries of an indirect block are those on the disk,
which the call reads.
-/

set_option autoImplicit false
set_option relaxedAutoImplicit false

namespace OsAssignments.Objstore

open Library

/-- An access is inside the 262144 words of `data_bitmap`, with a shift count of a 32-bit word, or
inside the 32768 entries of `cache_index` and `cache_dirty`. -/
def Access.Inside : Access → Prop
  | .dataBitmap idx shift => 0 ≤ idx ∧ idx < 262144 ∧ 0 ≤ shift ∧ shift ≤ 31
  | .cacheArray i => 0 ≤ i ∧ i < 32768

/-- The accesses for a block. -/
def accessesOf (blk : ℤ) : List Access :=
  [.dataBitmap ((blk - 22528 + 287).tdiv 32) (31 - (blk - 22528 + 287).tmod 32),
    .cacheArray (blk.tmod 32768)]

/-- A call of `destroy_object` returns, and all its accesses are inside the arrays. -/
def DestroysInside (key : Key) (s : Store) : Prop :=
  ∃ s' new, destroyObject key s = .ok (0, s') ∧ s'.accesses = new ++ s.accesses ∧
    ∀ access ∈ new, access.Inside

/-- The pointers of a record, and the entries of its indirect blocks, are zero or blocks of the data
region. -/
structure WellPointed (s : Store) (k : ℕ) : Prop where
  pointers : ∀ f : Field, f.pointer = true → s.field k f = 0 ∨ s.field k f ∈ dataRegion
  entries : ∀ r, s.field k (.indirect r) ≠ 0 →
    ∀ entry ∈ diskEntries s.dev (s.field k (.indirect r)), entry = 0 ∨ entry ∈ dataRegion

variable {s s' s'' : Store} {blks blks' : List ℤ} {k : ℕ} {blk : ℤ} {key : Key}

/-! ### The accesses of a call -/

/-- Releasing the blocks of a list records their accesses. -/
structure Records (blks : List ℤ) (s s' : Store) : Prop where
  frees : Frees blks s s'
  accesses : ∃ new, s'.accesses = new ++ s.accesses ∧
    ∀ access, access ∈ new ↔ ∃ blk ∈ blks, access ∈ accessesOf blk

theorem Records.trans (h : Records blks s s') (h' : Records blks' s' s'') :
    Records (blks ++ blks') s s'' := by
  obtain ⟨new, hnew, hmem⟩ := h.accesses
  obtain ⟨new', hnew', hmem'⟩ := h'.accesses
  refine ⟨h.frees.trans h'.frees, new' ++ new, ?_, fun access ↦ ?_⟩
  · rw [hnew', hnew, List.append_assoc]
  · rw [List.mem_append, hmem, hmem', or_comm]
    simp only [List.mem_append, or_and_right, exists_or]

theorem releaseRule_records : ReleaseRule Records where
  refl := fun s ↦ ⟨Frees.refl s, [], rfl, by simp⟩
  trans := Records.trans
  dropToggle := fun s blk ↦ by
    refine ⟨releaseRule_frees.dropToggle s blk, accessesOf blk, rfl, ?_⟩
    simp only [List.mem_singleton, exists_eq_left, implies_true]
  toggleDrop := fun s blk ↦ by
    refine ⟨releaseRule_frees.toggleDrop s blk, (accessesOf blk).reverse, rfl, ?_⟩
    simp only [List.mem_singleton, exists_eq_left, List.mem_reverse, implies_true]
  frees := Records.frees

/-- Resetting the head of a record, releasing its blocks and clearing its pointers. -/
theorem accesses_of_records {s₁ s₂ : Store} (hs₁ : s₁ = (s.assign k .id 0).assign k .size 0)
    (hrecords : Records (released s₁ k) s₁ s₂) :
    ∃ new, ((List.finRange 4).foldl (clearPointers k) s₂).accesses = new ++ s.accesses ∧
      ∀ access, access ∈ new ↔ ∃ blk ∈ released s k, access ∈ accessesOf blk := by
  have hdev : s₁.dev = s.dev := hs₁ ▸ rfl
  have hreleased : released s₁ k = released s k := by
    refine released_congr (fun f hf ↦ ?_) fun r _ ↦ by rw [hdev]
    rw [hs₁, field_reset_head, if_neg]
    rintro ⟨-, rfl | rfl⟩ <;> cases hf
  have hbefore : s₁.accesses = s.accesses := hs₁ ▸ rfl
  obtain ⟨new, hnew, hmem⟩ := hrecords.accesses
  rw [hreleased] at hmem
  rw [hbefore] at hnew
  refine ⟨new, ?_, hmem⟩
  have hrest := (clearPointers_loop k s₂).2.2
  generalize (List.finRange 4).foldl (clearPointers k) s₂ = s₃ at hrest
  rw [hrest]
  exact hnew

/-- The accesses of `destroy_object` from the claimed slot on. -/
theorem accesses_destroyTarget (k : ℕ) (s : Store) :
    ∃ new, (destroyTarget k s).accesses = new ++ s.accesses ∧
      ∀ access, access ∈ new ↔ ∃ blk ∈ released s k, access ∈ accessesOf blk := by
  unfold destroyTarget
  exact accesses_of_records rfl (releaseRule_records.loops k _)

/-- The accesses of `destroy_object` are those for the blocks that it releases. -/
theorem accesses_destroyObject (h : Finds key s k) :
    ∃ s' new, destroyObject key s = .ok (0, s') ∧ s'.accesses = new ++ s.accesses ∧
      ∀ access, access ∈ new ↔ ∃ blk ∈ released s k, access ∈ accessesOf blk := by
  rcases destroyUnlink_cases key s with ⟨-, hnone⟩ | ⟨j, hj, hunlink⟩
  · exact absurd ⟨h.live, h.found⟩ (hnone k)
  obtain rfl := h.unique hj
  obtain ⟨new, hnew, hmem⟩ := accesses_destroyTarget j ((cleared j s).markDirty j)
  refine ⟨_, new, ?_, hnew, hmem⟩
  rw [destroyObject_halves, hunlink]
  rfl

/-! ### The places of a block -/

/-- The accesses for a block are inside the arrays exactly when its bit position is. -/
theorem accesses_inside_iff (hblk : blk = 0 ∨ blk ∈ dataRegion) :
    (∀ access ∈ accessesOf blk, access.Inside) ↔ blk ≠ 0 ∧ blk < 8410849 := by
  simp only [accessesOf, List.forall_mem_cons, List.not_mem_nil, false_implies, implies_true,
    and_true, Access.Inside]
  rcases hblk with rfl | ⟨hlow, hhigh⟩
  · refine iff_of_false ?_ fun h ↦ h.1 rfl
    decide
  · rw [Int.tdiv_eq_ediv_of_nonneg (by omega), Int.tmod_eq_emod_of_nonneg (by omega),
      Int.tmod_eq_emod_of_nonneg (by omega)]
    omega

/-- What is released for a record is well pointed to. -/
theorem WellPointed.released (h : WellPointed s k) (hblk : blk ∈ released s k) :
    blk = 0 ∨ blk ∈ dataRegion := by
  rw [Objstore.released, List.mem_append] at hblk
  rcases hblk with hdirect | hindirect
  · obtain ⟨i, -, hi⟩ := List.mem_flatMap.mp hdirect
    rw [List.mem_singleton.mp (List.mem_of_mem_filter hi)]
    exact h.pointers _ rfl
  · obtain ⟨r, -, hr⟩ := List.mem_flatMap.mp hindirect
    rw [releasedIndirect, List.mem_cons] at hr
    rcases hr with rfl | hr
    · exact h.pointers _ rfl
    · split_ifs at hr with hne
      · exact h.entries r hne blk (List.mem_of_mem_filter hr)
      · cases hr

/-- A zero is released exactly for a zero indirect pointer. -/
theorem zero_mem_released : 0 ∈ released s k ↔ ∃ r, s.field k (.indirect r) = 0 := by
  rw [released, List.mem_append, List.mem_flatMap, List.mem_flatMap]
  constructor
  · rintro (⟨i, -, hi⟩ | ⟨r, -, hr⟩)
    · exact absurd (List.of_mem_filter hi) (by decide)
    · rw [releasedIndirect, List.mem_cons] at hr
      rcases hr with hzero | hr
      · exact ⟨r, hzero.symm⟩
      · split_ifs at hr
        · exact absurd (List.of_mem_filter hr) (by decide)
        · cases hr
  · rintro ⟨r, hzero⟩
    refine .inr ⟨r, List.mem_finRange r, ?_⟩
    rw [releasedIndirect, hzero]
    exact List.mem_cons_self

/-- A destroy is inside the arrays exactly when its object uses all four indirect blocks and none of
its blocks is among the last 574 of the data region. -/
theorem destroy_inside_iff (key : Key) (s : Store) (k : ℕ) (hfinds : Finds key s k)
    (hpointed : WellPointed s k) :
    DestroysInside key s ↔
      (∀ r, s.field k (.indirect r) ≠ 0) ∧ ∀ blk ∈ released s k, blk < 8410849 := by
  obtain ⟨s', new, hrun, hnew, hmem⟩ := accesses_destroyObject hfinds
  have hinside : DestroysInside key s ↔ ∀ access ∈ new, access.Inside := by
    constructor
    · rintro ⟨t, new', hrun', hnew', hinside⟩
      obtain ⟨-, rfl⟩ := Prod.mk.inj (Except.ok.inj (hrun.symm.trans hrun'))
      rwa [List.append_cancel_right (hnew.symm.trans hnew')]
    · exact fun hinside ↦ ⟨s', new, hrun, hnew, hinside⟩
  have hblocks : (∀ access ∈ new, access.Inside) ↔
      ∀ blk ∈ released s k, blk ≠ 0 ∧ blk < 8410849 := by
    constructor
    · intro hall blk hblk
      exact (accesses_inside_iff (hpointed.released hblk)).mp fun access haccess ↦
        hall access ((hmem access).mpr ⟨blk, hblk, haccess⟩)
    · intro hall access haccess
      obtain ⟨blk, hblk, haccess⟩ := (hmem access).mp haccess
      exact (accesses_inside_iff (hpointed.released hblk)).mpr (hall blk hblk) access haccess
  rw [hinside, hblocks]
  constructor
  · exact fun hall ↦ ⟨fun r hzero ↦ (hall 0 (zero_mem_released.mpr ⟨r, hzero⟩)).1 rfl,
      fun blk hblk ↦ (hall blk hblk).2⟩
  · rintro ⟨hindirect, hall⟩ blk hblk
    refine ⟨fun hzero ↦ ?_, hall blk hblk⟩
    obtain ⟨r, hr⟩ := zero_mem_released.mp (hzero ▸ hblk)
    exact hindirect r hr

/-- A first object on a blank disk is found and has no blocks. -/
theorem found_first : ∃ s, createObject ⟨[97], by decide⟩ (objstoreInit zeroDevice) = (2, s) ∧
    Finds ⟨[97], by decide⟩ s 0 ∧ ∀ f : Field, f.pointer = true → s.field 0 f = 0 := by
  obtain ⟨s, hcreate, hc⟩ := created_blank blank_zeroDevice ⟨[97], by decide⟩ (by decide)
  refine ⟨s, hcreate, ⟨(hc.live (by norm_num) 0).mpr (.inr rfl), ?_, fun j hj ↦ ?_⟩, fun f hf ↦ ?_⟩
  · rw [hc.key 0 _ (by decide), if_pos rfl, decide_eq_true rfl]
  · exact absurd hj (Nat.not_lt_zero j)
  · rw [hc.field, if_neg]
    · exact field_blank blank_zeroDevice (by norm_num) f
    · rintro ⟨-, rfl⟩
      cases hf

/-- In a sound store pointers and entries are zero or blocks of the data region. -/
theorem wellPointed_of_sound (h : Sound .uncached s) (hlive : Live s k) : WellPointed s k := by
  have hregion : ∀ (p : Place) b, own .uncached s (k, p) = some b → b ∈ dataRegion :=
    fun p b hb ↦ by
    obtain ⟨j, hj, rfl, -⟩ := h.bits (k, p) b hb
    exact ⟨by omega, by omega⟩
  refine ⟨fun f hf ↦ or_iff_not_imp_left.mpr fun hne ↦ ?_, fun r hr entry hentry ↦
    or_iff_not_imp_left.mpr fun hne ↦ ?_⟩
  · cases f with
    | direct i => exact hregion (.direct i) _ (own_of_ne_zero hlive hne)
    | indirect r => exact hregion (.indirect r) _ (own_of_ne_zero hlive hne)
    | id | size | cacheIndex | dirty => cases hf
  · have hpos := hregion (.indirect r) _ (own_of_ne_zero hlive hr)
    obtain ⟨i, hi⟩ := (mem_diskEntries (le_trans (by norm_num) hpos.1)).mp hentry
    refine hregion (.entry r i) entry (own_eq_some.mpr ⟨hlive, ?_, hne⟩)
    rw [ptr, if_neg hr]
    exact hi

/-- Destroying an object with six blocks and an indirect block. -/
theorem destroy_inside_iff_six : ∃ s : Store, Finds keyB s 1 ∧ s.field 1 (.indirect 0) ≠ 0 ∧
    WellPointed s 1 ∧ (DestroysInside keyB s ↔
      (∀ r, s.field 1 (.indirect r) ≠ 0) ∧ ∀ blk ∈ released s 1, blk < 8410849) := by
  obtain ⟨s, hs⟩ := exists_appending (m := 6) (by norm_num)
  have hpointed := wellPointed_of_sound hs.ran.sound hs.second.1
  have hfinds : Finds keyB s.store 1 := ⟨hs.second.1, hs.key', fun j hj hlive ↦ by
    have heq :=
      hs.ran.intact.consistent.keys keyB (by decide) j 1 hlive.1 hs.second.1 hlive.2 hs.key'
    omega⟩
  exact ⟨s.store, hfinds, hs.opened (by norm_num), hpointed,
    destroy_inside_iff keyB s.store 1 hfinds hpointed⟩

/-- Destroying a first object without blocks shifts by 32, in a word before the bitmap. -/
theorem destroy_leaves_bitmap : ∃ s s', Finds ⟨[97], by decide⟩ s 0 ∧ WellPointed s 0 ∧
    destroyObject ⟨[97], by decide⟩ s = .ok (0, s') ∧
    .dataBitmap (-695) 32 ∈ s'.accesses ∧ ¬DestroysInside ⟨[97], by decide⟩ s := by
  obtain ⟨s, -, hfinds, hzero⟩ := found_first
  obtain ⟨s', new, hrun, hnew, hmem⟩ := accesses_destroyObject hfinds
  have haccess : .dataBitmap (-695) 32 ∈ new :=
    (hmem _).mpr ⟨0, zero_mem_released.mpr ⟨0, hzero _ rfl⟩, List.mem_cons_self⟩
  refine ⟨s, s', hfinds, ⟨fun f hf ↦ .inl (hzero f hf), fun r hne ↦ absurd (hzero _ rfl) hne⟩, hrun,
    hnew ▸ List.mem_append_left _ haccess, ?_⟩
  rintro ⟨t, new', hrun', hnew', hinside⟩
  obtain ⟨-, rfl⟩ := Prod.mk.inj (Except.ok.inj (hrun.symm.trans hrun'))
  rw [← List.append_cancel_right (hnew.symm.trans hnew')] at hinside
  exact absurd (hinside _ haccess).1 (by decide)

end OsAssignments.Objstore
