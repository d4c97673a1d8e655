import OsAssignments.Objstore.Writes

/-!
# What a read returns

On the ownership map a read does nothing, and it returns the contents of the places it visits:
`objstoreRead_content`. A place without a block is read as block 0. Only a block index in a range
without an indirect block is excluded here (`Opened`), because there the entries themselves are
taken from block 0.
-/

set_option autoImplicit false
set_option relaxedAutoImplicit false

namespace OsAssignments.Objstore

open Library Library.Ownership

variable {bld bld' : Build} {s : Store} {k a : ℕ} {blks : List ℤ} {calls : List BlockCall}

/-- Block index `a` is a direct index or lies in a range that has its indirect block. -/
def Opened (s : Store) (k a : ℕ) : Prop :=
  ∀ (r : Fin 4) (i : ℕ), i < 1024 → a = 4 + 1024 * r + i → s.field k (.indirect r) ≠ 0

/-- A place that refers to a block lies in a range that has its indirect block. -/
theorem opened_of_own (h : own bld s (k, .ofIndex a) ≠ none) : Opened s k a := by
  rintro r i hi rfl hzero
  refine h (own_of_eq_zero ?_)
  rw [Place.ofIndex_entry r.isLt hi]
  exact if_pos hzero

/-- The number `objstore_read` follows is the one in the place of the block index. -/
theorem followed_eq_ptr (ha : a < 4100) (hopen : Opened s k a) :
    followed bld s k a = ptr bld s k (.ofIndex a) := by
  rcases Place.index_cases ha with hdirect | ⟨r, i, hr, hi, rfl⟩
  · rw [followed_direct bld s k hdirect, Place.ofIndex_direct hdirect]
    rfl
  · rw [followed_indirect bld s k hr hi, Place.ofIndex_entry hr hi, ptr,
      if_neg (hopen ⟨r, hr⟩ i hi rfl)]

/-- The number in a place of a live object is zero or a block of the data region. -/
theorem Owned.ptr_cases (h : Owned bld s) (hlive : Live s k) (p : Place) :
    ptr bld s k p = 0 ∨ 22815 ≤ ptr bld s k p := by
  by_cases hzero : ptr bld s k p = 0
  · exact Or.inl hzero
  · exact Or.inr (h.pos (own_of_ne_zero hlive hzero))

theorem Owned.touched_nonneg (h : Owned bld s) (hlive : Live s k) (ha : a < 4100)
    (hopen : Opened s k a) : ∀ blk ∈ touched bld s k a, 0 ≤ blk := by
  intro blk hblk
  have hplace := h.ptr_cases hlive (.ofIndex a)
  rw [← followed_eq_ptr ha hopen] at hplace
  rcases Place.index_cases ha with hdirect | ⟨r, i, hr, hi, rfl⟩
  · rw [touched_direct bld s k hdirect, List.mem_singleton] at hblk
    rw [followed_direct bld s k hdirect] at hplace
    omega
  · have hind := h.ptr_cases hlive (.indirect ⟨r, hr⟩)
    rw [touched_indirect bld s k hr hi, List.mem_pair] at hblk
    rw [followed_indirect bld s k hr hi] at hplace
    simp only [ptr] at hind
    omega

/-- A read of a block index that is mapped stays in the data region. -/
theorem Owned.touched_region (h : Owned bld s) (ha : a < 4100)
    (hown : own bld s (k, .ofIndex a) ≠ none) : ∀ blk ∈ touched bld s k a, 22815 ≤ blk := by
  intro blk hblk
  obtain ⟨b, hb⟩ := Option.ne_none_iff_exists'.mp hown
  have hopen := opened_of_own hown
  have hfollowed : followed bld s k a = b :=
    (followed_eq_ptr ha hopen).trans (own_eq_some.mp hb).2.1
  have hpos := h.pos hb
  rcases Place.index_cases ha with hdirect | ⟨r, i, hr, hi, rfl⟩
  · rw [touched, if_pos hdirect, hfollowed, List.mem_singleton] at hblk
    omega
  · rw [Place.ofIndex_entry hr hi] at hb
    have hind := h.pos (own_indirect_of_entry hb)
    rw [touched_indirect bld s k hr hi, ← followed_indirect bld s k hr hi, hfollowed,
      List.mem_pair] at hblk
    omega

/-- The content that is followed, block 0 standing in for a place without a block. -/
theorem logical_followed (hlive : Live s k) (ha : a < 4100) (hopen : Opened s k a) :
    logical bld s.dev (followed bld s k a).toNat =
      (content bld s (k, .ofIndex a)).getD (logical bld s.dev 0) := by
  rw [followed_eq_ptr ha hopen]
  by_cases hzero : ptr bld s k (.ofIndex a) = 0
  · rw [content_of_own_none (own_of_eq_zero hzero), hzero]
    rfl
  · rw [content_of_own (own_of_ne_zero hlive hzero)]
    rfl

/-! ### Calls that keep the table and the contents -/

theorem logical_reads (hdev : BuildOk bld s.dev) (hcalls : ReadsOf blks calls) :
    logical bld (runCalls bld calls s.dev) = logical bld s.dev := by
  rw [logical_runCalls hdev, applyCalls_reads hcalls]

/-- Two stores whose slots have the same bits and the same records. -/
structure SameSlots (s' s : Store) : Prop where
  bit : ∀ k < 1015808, s'.inodeBit k = s.inodeBit k
  bytes : ∀ n < 88 * 1015808, s'.a n = s.a n

theorem sameSlots_of_eq {s' : Store} (hinode : s'.inodeBitmap = s.inodeBitmap)
    (ha : s'.a = s.a) : SameSlots s' s where
  bit := fun k _ ↦ by rw [Store.inodeBit, Store.inodeBit, hinode]
  bytes := fun n _ ↦ by rw [ha]

section Frame

variable {s' : Store} (hslots : SameSlots s' s)

include hslots

theorem field_frame (hk : k < 1015808) (f : Field) : s'.field k f = s.field k f :=
  getField_congr fun n _ hhigh ↦ hslots.bytes n (by omega)

theorem live_frame (k : ℕ) : Live s' k ↔ Live s k := by
  constructor
  · exact fun h ↦ ⟨h.slot, hslots.bit k h.slot ▸ h.bit, field_frame hslots h.slot .id ▸ h.id⟩
  · intro h
    refine ⟨h.slot, ?_, ?_⟩
    · rw [hslots.bit k h.slot]
      exact h.bit
    · rw [field_frame hslots h.slot]
      exact h.id

theorem own_frame (hlogical : ∀ q b, own bld s q = some b →
      logical bld' s'.dev b.toNat = logical bld s.dev b.toNat) : own bld' s' = own bld s := by
  funext ⟨k', p⟩
  by_cases hlive : Live s k'
  · refine own_congr (live_frame hslots k') (field_frame hslots hlive.slot _) ?_
    intro r i _ b hb
    rw [hlogical _ b hb]
  · rw [own_of_not_live hlive, own_of_not_live fun h ↦ hlive ((live_frame hslots k').mp h)]

theorem content_frame (hlogical : ∀ q b, own bld s q = some b →
      logical bld' s'.dev b.toNat = logical bld s.dev b.toNat) :
    content bld' s' = content bld s := by
  funext ⟨k', p⟩
  exact content_congr (congrFun (own_frame hslots hlogical) (k', p)) fun b hb ↦ hlogical _ b hb

theorem Owned.frame (h : Owned bld s) (hlogical : ∀ q b, own bld s q = some b →
      logical bld' s'.dev b.toNat = logical bld s.dev b.toNat)
    (hdev : BuildOk bld' s'.dev) : Owned bld' s' where
  exclusive := own_frame hslots hlogical ▸ h.exclusive
  region := own_frame hslots hlogical ▸ h.region
  ids := fun i i' hi hi' heq ↦ by
    rw [field_frame hslots hi.slot, field_frame hslots hi'.slot] at heq
    exact h.ids i i' ((live_frame hslots i).mp hi) ((live_frame hslots i').mp hi') heq
  dev := hdev

theorem Sound.frame (h : Sound bld s) (hlogical : ∀ q b, own bld s q = some b →
      logical bld' s'.dev b.toNat = logical bld s.dev b.toNat)
    (hdev : BuildOk bld' s'.dev) (hdata : ∀ i < 8388608, s'.dataBit i = s.dataBit i) :
    Sound bld' s' where
  toOwned := h.toOwned.frame hslots hlogical hdev
  bits := by
    rw [own_frame hslots hlogical]
    refine h.bits.mono ?_
    rintro b ⟨i, hi, rfl, hset⟩
    exact ⟨i, hi, rfl, (hdata i hi).trans hset⟩

end Frame

/-! ### What a read returns -/

/-- The bytes of a read are those of the contents it visits, in order. -/
theorem objstoreRead_content (h : Owned bld s) (hlive : Live s k) (size offset : ℕ) {n : ℕ}
    (hoffset : offset < 2147483648)
    (hn : n = min ((size + 4095) / 4096) (4100 - offset / 4096))
    (hopen : ∀ i < n, Opened s k (offset / 4096 + i)) :
    ∃ calls, ReadsOf ((List.range n).flatMap fun i ↦ touched bld s k (offset / 4096 + i)) calls ∧
      objstoreRead bld (s.field k .id) size offset s =
        .ok ((size, bytesOf ((List.range n).map fun i ↦
          (content bld s (k, .ofIndex (offset / 4096 + i))).getD (logical bld s.dev 0)) size),
          { s with dev := runCalls bld calls s.dev }) := by
  obtain ⟨calls, hcalls, hrun⟩ := objstoreRead_spec h.dev hlive rfl
    (fun i hi heq ↦ h.ids i k hi hlive heq) hoffset hn
    fun i hi ↦ h.touched_nonneg hlive (by omega) (hopen i hi)
  have hblocks : ((List.range n).map fun i ↦
      logical bld s.dev (followed bld s k (offset / 4096 + i)).toNat) =
      (List.range n).map fun i ↦
        (content bld s (k, .ofIndex (offset / 4096 + i))).getD (logical bld s.dev 0) :=
    List.map_congr_left fun i hi ↦
      logical_followed hlive (by have := List.mem_range.mp hi; omega)
        (hopen i (List.mem_range.mp hi))
  rw [hblocks] at hrun
  exact ⟨calls, hcalls, hrun⟩

end OsAssignments.Objstore
