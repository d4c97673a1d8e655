import OsAssignments.Objstore.Reads
import OsAssignments.Objstore.Destroy
import OsAssignments.Objstore.Mount

/-!
# Slots, ids and keys

The inode bit of a slot, the id stored in its record and the position of the record are linked
only by the counters of four scanning loops. `Tidy` states the link: a slot whose bit is set has
id slot + 2, and a slot whose bit is clear has a zero id, size and pointers, though it may still
hold an old key. `KeysUnique` says that no two live objects have one key.

`Created` and `Destroyed` describe the two calls that change the bits, and `Keeps` what a write
does to the table in any state, whether or not it finds its blocks. Each of them keeps `Tidy`.
-/

set_option autoImplicit false
set_option relaxedAutoImplicit false

namespace OsAssignments.Objstore

open Library

/-- Bits, ids and positions are in step, and a slot whose bit is clear is empty. -/
structure Tidy (s : Store) : Prop where
  id : ∀ k < 1015808, s.inodeBit k = true → s.field k .id = k + 2
  clear : ∀ k < 1015808, s.inodeBit k = false → ∀ f : Field, f.reset = true → s.field k f = 0

/-- No two live objects have the same key. -/
def KeysUnique (s : Store) : Prop :=
  ∀ key : Key, key.Short → ∀ k k', Live s k → Live s k' → keyEq s.a k key = true →
    keyEq s.a k' key = true → k = k'

variable {bld : Build} {s s' : Store} {k k' : ℕ} {key key' : Key}

namespace Tidy

theorem live_iff (h : Tidy s) (hk : k < 1015808) : Live s k ↔ s.inodeBit k = true :=
  ⟨fun hl ↦ hl.bit, fun hb ↦ ⟨hk, hb, by rw [h.id k hk hb]; omega⟩⟩

/-- The bit of a slot is set exactly when its id is not zero. -/
theorem bit_iff (h : Tidy s) (hk : k < 1015808) : s.inodeBit k = true ↔ s.field k .id ≠ 0 := by
  constructor
  · exact fun hb ↦ ((h.live_iff hk).mpr hb).id
  · intro hid
    cases hb : s.inodeBit k with
    | true => rfl
    | false => exact absurd (h.clear k hk hb .id rfl) hid

theorem id_of_live (h : Tidy s) (hl : Live s k) : s.field k .id = k + 2 := h.id k hl.slot hl.bit

/-- Ids of live objects are distinct. -/
theorem ids (h : Tidy s) :
    ∀ k k', Live s k → Live s k' → s.field k .id = s.field k' .id → k = k' := by
  intro k k' hl hl' heq
  rw [h.id_of_live hl, h.id_of_live hl'] at heq
  omega

end Tidy

/-! ### The bytes of a key -/

/-- Bits and records decide whether the slots are tidy and the keys unique. -/
theorem tidy_frame (hslots : SameSlots s' s) (h : Tidy s) : Tidy s' where
  id := fun k hk hbit ↦ by
    rw [hslots.bit k hk] at hbit
    rw [field_frame hslots hk]
    exact h.id k hk hbit
  clear := fun k hk hbit f hf ↦ by
    rw [hslots.bit k hk] at hbit
    rw [field_frame hslots hk]
    exact h.clear k hk hbit f hf

theorem keyEq_frame (hslots : SameSlots s' s) (hk : k < 1015808) (hkey : key.Short) :
    keyEq s'.a k key = keyEq s.a k key := by
  unfold Key.Short at hkey
  refine Bytes.strcmpEq_congr fun n _ hhigh ↦ hslots.bytes n ?_
  simp only [keyAddr] at hhigh
  omega

theorem keysUnique_frame (hslots : SameSlots s' s) (h : KeysUnique s) : KeysUnique s' := by
  intro key hkey i i' hi hi' heq heq'
  rw [keyEq_frame hslots hi.slot hkey] at heq
  rw [keyEq_frame hslots hi'.slot hkey] at heq'
  exact h key hkey i i' ((live_frame hslots i).mp hi) ((live_frame hslots i').mp hi') heq heq'

/-- A call that changes no byte outside the fields of one record keeps all keys. -/
theorem keyEq_of_bytes (hbytes : ∀ n, n < 88 * k ∨ 88 * k + 56 ≤ n → s'.a n = s.a n)
    (hkey : key.Short) (k' : ℕ) : keyEq s'.a k' key = keyEq s.a k' key := by
  unfold Key.Short at hkey
  refine Bytes.strcmpEq_congr fun n hlow hhigh ↦ hbytes n ?_
  simp only [keyAddr] at hlow hhigh
  omega

/-! ### Creation -/

/-- What `create_object` does once it has claimed slot `k`. -/
structure Created (key : Key) (k : ℕ) (s s' : Store) : Prop where
  field : ∀ k' f, s'.field k' f = if k' = k ∧ f = .id then (k : ℤ) + 2 else s.field k' f
  bytes : ∀ n, n < 88 * k ∨ 88 * k + 88 ≤ n → s'.a n = s.a n
  key : ∀ k' (key' : Key), key'.Short →
    keyEq s'.a k' key' = if k' = k then decide (key' = key) else keyEq s.a k' key'
  inodeBit : ∀ k', s'.inodeBit k' = if k' = k then true else s.inodeBit k'
  dataBitmap : s'.dataBitmap = s.dataBitmap
  dirtyArray : s'.dirtyArray = Function.update s.dirtyArray (k / 46) 1
  dev : s'.dev = s.dev

theorem created_claimed (hk : k < 1015808) (hkey : key.Short) :
    Created key k s { claimed k s with a := setKey (claimed k s).a k key } where
  field := fun k' f ↦ by
    rw [Store.field, getField_setKey _ _ _ _ hkey]
    have hassign := field_assign s k k' .id f (k + 2)
    have hwrap : Int.bmod ((k : ℤ) + 2) (256 ^ 8) = k + 2 :=
      Int.bmod_eq_of_le (by norm_num; omega) (by norm_num; omega)
    rw [Field.width, hwrap] at hassign
    exact hassign
  bytes := fun n hn ↦
    (setKey_of_outside hkey (by omega)).trans (setField_of_outside (by omega))
  key := fun k' key' hkey' ↦ by
    rw [keyEq_setKey _ _ _ hkey hkey']
    exact if_congr Iff.rfl rfl (keyEq_setField _ _ _ _ _ hkey')
  inodeBit := fun k' ↦ Bitmap.bit_or_mask s.inodeBitmap k k'
  dataBitmap := rfl
  dirtyArray := rfl
  dev := rfl

/-- The call claims the lowest clear slot. -/
theorem createObject_lowest (hkey : key.Short) (hk : k < 1015808) (hclear : s.inodeBit k = false)
    (hleast : ∀ j < k, s.inodeBit j = true) :
    ∃ s', createObject key s = ((k : ℤ) + 2, s') ∧ Created key k s s' := by
  have hcreated := created_claimed (s := s) hk hkey
  refine ⟨_, ?_, hcreated⟩
  rw [createObject_spec key hk hclear hleast]
  have hid := hcreated.field k .id
  rw [if_pos ⟨rfl, rfl⟩] at hid
  exact congrArg₂ Prod.mk hid rfl

/-- Every bit is set, or there is a lowest clear slot. -/
theorem full_or_lowest (s : Store) : (∀ k < 1015808, s.inodeBit k = true) ∨
    ∃ k < 1015808, s.inodeBit k = false ∧ ∀ j < k, s.inodeBit j = true := by
  by_cases hfull : ∀ k < 1015808, s.inodeBit k = true
  · exact Or.inl hfull
  · have hsome : ∃ k, k < 1015808 ∧ s.inodeBit k = false := by
      obtain ⟨k, hk⟩ := not_forall.mp hfull
      obtain ⟨hk, hclear⟩ := Classical.not_imp.mp hk
      exact ⟨k, hk, Bool.not_eq_true _ ▸ hclear⟩
    obtain ⟨hk, hclear⟩ := Nat.find_spec hsome
    have hleast (j : ℕ) (hj : j < Nat.find hsome) : s.inodeBit j = true := by
      have hmin := Nat.find_min hsome hj
      cases hb : s.inodeBit j with
      | true => rfl
      | false => exact absurd ⟨by omega, hb⟩ hmin
    exact Or.inr ⟨Nat.find hsome, hk, hclear, hleast⟩

/-- The call fails when the table is full and otherwise claims the lowest clear slot. -/
theorem createObject_cases (s : Store) (hkey : key.Short) :
    ((∀ k < 1015808, s.inodeBit k = true) ∧
      createObject key s = (-1, { s with iLock := false })) ∨
    ∃ k < 1015808, s.inodeBit k = false ∧ (∀ j < k, s.inodeBit j = true) ∧
      ∃ s', createObject key s = ((k : ℤ) + 2, s') ∧ Created key k s s' := by
  rcases full_or_lowest s with hfull | ⟨k, hk, hclear, hleast⟩
  · exact Or.inl ⟨hfull, createObject_full key hfull⟩
  · exact Or.inr ⟨k, hk, hclear, hleast, createObject_lowest hkey hk hclear hleast⟩

theorem Created.live (h : Created key k s s') (hk : k < 1015808) (k' : ℕ) :
    Live s' k' ↔ Live s k' ∨ k' = k := by
  by_cases hkk : k' = k
  · refine iff_of_true ⟨hkk ▸ hk, ?_, ?_⟩ (Or.inr hkk)
    · rw [h.inodeBit, if_pos hkk]
    · rw [h.field, if_pos ⟨hkk, rfl⟩]
      omega
  · have hbit : s'.inodeBit k' = s.inodeBit k' := by rw [h.inodeBit, if_neg hkk]
    have hid : s'.field k' .id = s.field k' .id := by rw [h.field, if_neg fun hor ↦ hkk hor.1]
    rw [or_iff_left hkk]
    exact ⟨fun hl ↦ ⟨hl.slot, hbit ▸ hl.bit, hid ▸ hl.id⟩,
      fun hl ↦ ⟨hl.slot, hbit.symm ▸ hl.bit, hid.symm ▸ hl.id⟩⟩

theorem Created.tidy (h : Created key k s s') (ht : Tidy s) : Tidy s' where
  id := fun k' hk' hbit ↦ by
    rw [h.field]
    rw [h.inodeBit] at hbit
    by_cases hkk : k' = k
    · rw [if_pos ⟨hkk, rfl⟩, hkk]
    · rw [if_neg fun hor ↦ hkk hor.1]
      rw [if_neg hkk] at hbit
      exact ht.id k' hk' hbit
  clear := fun k' hk' hbit f hf ↦ by
    rw [h.inodeBit] at hbit
    by_cases hkk : k' = k
    · rw [if_pos hkk] at hbit
      cases hbit
    · rw [if_neg hkk] at hbit
      rw [h.field, if_neg fun hor ↦ hkk hor.1]
      exact ht.clear k' hk' hbit f hf

/-- A fresh key keeps the keys unique. -/
theorem Created.keysUnique (h : Created key k s s') (hk : k < 1015808) (hkeys : KeysUnique s)
    (hfresh : ∀ j, Live s j → keyEq s.a j key = false) : KeysUnique s' := by
  intro key' hkey' i i' hi hi' heq heq'
  rw [h.key _ _ hkey'] at heq heq'
  have hold (j : ℕ) (hj : Live s' j) (hne : j ≠ k) : Live s j :=
    ((h.live hk j).mp hj).resolve_right hne
  by_cases hik : i = k
  · by_cases hik' : i' = k
    · rw [hik, hik']
    · rw [if_pos hik, decide_eq_true_iff] at heq
      rw [if_neg hik', heq, hfresh i' (hold i' hi' hik')] at heq'
      cases heq'
  · by_cases hik' : i' = k
    · rw [if_pos hik', decide_eq_true_iff] at heq'
      rw [if_neg hik, heq', hfresh i (hold i hi hik)] at heq
      cases heq
    · rw [if_neg hik] at heq
      rw [if_neg hik'] at heq'
      exact hkeys key' hkey' i i' (hold i hi hik) (hold i' hi' hik') heq heq'

/-! ### A store on a blank disk -/

theorem not_live_blank {d : Device} (hd : Blank d) : ¬ Live (objstoreInit d) k := by
  intro hlive
  have hbit := hlive.bit
  rw [inodeBit_blank hd hlive.slot] at hbit
  cases hbit

theorem tidy_blank {d : Device} (hd : Blank d) : Tidy (objstoreInit d) where
  id := fun k hk hbit ↦ by
    rw [inodeBit_blank hd hk] at hbit
    cases hbit
  clear := fun k hk _ f _ ↦ field_blank hd hk f

/-- The first object takes slot 0 and id 2. -/
theorem created_blank {d : Device} (hd : Blank d) (key : Key) (hkey : key.Short) :
    ∃ s', createObject key (objstoreInit d) = (2, s') ∧ Created key 0 (objstoreInit d) s' := by
  have hclear := inodeBit_blank hd (k := 0) (by norm_num)
  exact createObject_lowest hkey (by norm_num) hclear fun j hj ↦ absurd hj (Nat.not_lt_zero j)

/-! ### Destruction -/

theorem Destroyed.live (h : Destroyed k s s') (k' : ℕ) : Live s' k' ↔ Live s k' ∧ k' ≠ k := by
  by_cases hkk : k' = k
  · refine iff_of_false (fun hl ↦ ?_) fun hl ↦ hl.2 hkk
    have hbit := hl.bit
    rw [h.inodeBit, if_pos hkk] at hbit
    cases hbit
  · have hbit : s'.inodeBit k' = s.inodeBit k' := by rw [h.inodeBit, if_neg hkk]
    have hid : s'.field k' .id = s.field k' .id := by rw [h.field, if_neg fun hor ↦ hkk hor.1]
    exact ⟨fun hl ↦ ⟨⟨hl.slot, hbit ▸ hl.bit, hid ▸ hl.id⟩, hkk⟩,
      fun hl ↦ ⟨hl.1.slot, hbit.symm ▸ hl.1.bit, hid.symm ▸ hl.1.id⟩⟩

theorem Destroyed.tidy (h : Destroyed k s s') (ht : Tidy s) : Tidy s' where
  id := fun k' hk' hbit ↦ by
    rw [h.inodeBit] at hbit
    by_cases hkk : k' = k
    · rw [if_pos hkk] at hbit
      cases hbit
    · rw [if_neg hkk] at hbit
      rw [h.field, if_neg fun hor ↦ hkk hor.1]
      exact ht.id k' hk' hbit
  clear := fun k' hk' hbit f hf ↦ by
    rw [h.field]
    by_cases hkk : k' = k
    · rw [if_pos ⟨hkk, hf⟩]
    · rw [h.inodeBit, if_neg hkk] at hbit
      rw [if_neg fun hor ↦ hkk hor.1]
      exact ht.clear k' hk' hbit f hf

theorem Destroyed.keysUnique (h : Destroyed k s s') (hkeys : KeysUnique s) : KeysUnique s' := by
  intro key hkey i i' hi hi' heq heq'
  rw [keyEq_of_bytes h.bytes hkey] at heq heq'
  exact hkeys key hkey i i' ((h.live i).mp hi).1 ((h.live i').mp hi').1 heq heq'

/-! ### Writing -/

/-- The bits, the ids and the bytes outside the fields of slot `k` are kept. -/
structure Keeps (k : ℕ) (s s' : Store) : Prop where
  inodeBitmap : s'.inodeBitmap = s.inodeBitmap
  id : ∀ k', s'.field k' .id = s.field k' .id
  bytes : ∀ n, n < 88 * k ∨ 88 * k + 56 ≤ n → s'.a n = s.a n

theorem Keeps.trans {t : Store} (h : Keeps k s s') (h' : Keeps k s' t) : Keeps k s t where
  inodeBitmap := h'.inodeBitmap.trans h.inodeBitmap
  id := fun k' ↦ (h'.id k').trans (h.id k')
  bytes := fun n hn ↦ (h'.bytes n hn).trans (h.bytes n hn)

theorem keeps_of_table (hbits : s'.inodeBitmap = s.inodeBitmap) (ha : s'.a = s.a) :
    Keeps k s s' where
  inodeBitmap := hbits
  id := fun _ ↦ by rw [Store.field, Store.field, ha]
  bytes := fun _ _ ↦ by rw [ha]

theorem keeps_assign (s : Store) (k : ℕ) {f : Field} (hf : f ≠ .id) (v : ℤ) :
    Keeps k s (s.assign k f v) where
  inodeBitmap := rfl
  id := fun _ ↦ getField_setField_of_ne (Or.inr hf.symm)
  bytes := fun _ hn ↦ setField_of_outside hn

theorem freeDataBlock_table (s : Store) : (freeDataBlock s).2.inodeBitmap = s.inodeBitmap ∧
    (freeDataBlock s).2.a = s.a := by
  by_cases hfree : ∃ k < 8388608, s.dataBit k = false
  · obtain ⟨k, -, -, -, heq⟩ := freeDataBlock_spec hfree
    rw [heq]
    exact ⟨rfl, rfl⟩
  · have hfull : ∀ k < 8388608, s.dataBit k = true := fun k hk ↦ by
      by_contra hclear
      exact hfree ⟨k, hk, by simpa using hclear⟩
    rw [freeDataBlock_full hfull]
    exact ⟨rfl, rfl⟩

/-- The size of the object in slot `k` is kept as well. -/
structure KeepsSize (k : ℕ) (s s' : Store) : Prop extends Keeps k s s' where
  size : s'.field k .size = s.field k .size

theorem KeepsSize.trans {t : Store} (h : KeepsSize k s s') (h' : KeepsSize k s' t) :
    KeepsSize k s t where
  toKeeps := h.toKeeps.trans h'.toKeeps
  size := h'.size.trans h.size

theorem keepsSize_of_table (hbits : s'.inodeBitmap = s.inodeBitmap) (ha : s'.a = s.a) :
    KeepsSize k s s' where
  toKeeps := keeps_of_table hbits ha
  size := by rw [Store.field, Store.field, ha]

theorem keepsSize_assign (s : Store) (k : ℕ) {f : Field} (hf : f.pointer = true) (v : ℤ) :
    KeepsSize k s (s.assign k f v) where
  toKeeps := keeps_assign s k (by rintro rfl; cases hf) v
  size := getField_setField_of_ne (Or.inr (by rintro rfl; cases hf))

theorem keepsSize_writeIndirect (bld : Build) (k : ℕ) (r : Fin 4) (base a data1 : ℤ) (temp : Block)
    (s : Store) : KeepsSize k s (writeIndirect bld k r base a data1 temp s) := by
  unfold writeIndirect
  split_ifs
  · have hfree := freeDataBlock_table s
    refine (keepsSize_of_table hfree.1 hfree.2).trans ?_
    refine (keepsSize_assign _ k (f := .indirect r) rfl data1).trans ?_
    exact keepsSize_of_table rfl rfl
  · exact keepsSize_of_table rfl rfl

theorem Keeps.live (h : Keeps k s s') (k' : ℕ) : Live s' k' ↔ Live s k' := by
  have hbit : s'.inodeBit k' = s.inodeBit k' := by rw [Store.inodeBit, h.inodeBitmap]; rfl
  exact ⟨fun hl ↦ ⟨hl.slot, hbit ▸ hl.bit, h.id k' ▸ hl.id⟩,
    fun hl ↦ ⟨hl.slot, hbit.symm ▸ hl.bit, (h.id k').symm ▸ hl.id⟩⟩

theorem Keeps.field (h : Keeps k s s') (hk : k' ≠ k) (f : Field) :
    s'.field k' f = s.field k' f :=
  getField_congr fun n hlow hhigh ↦ h.bytes n (by omega)

theorem Keeps.tidy (h : Keeps k s s') (hbit : s.inodeBit k = true) (ht : Tidy s) : Tidy s' where
  id := fun k' hk' hb ↦ by
    rw [Store.inodeBit, h.inodeBitmap] at hb
    rw [h.id]
    exact ht.id k' hk' hb
  clear := fun k' hk' hb f hf ↦ by
    rw [Store.inodeBit, h.inodeBitmap, ← Store.inodeBit] at hb
    have hk : k' ≠ k := by
      rintro rfl
      rw [hbit] at hb
      cases hb
    rw [h.field hk]
    exact ht.clear k' hk' hb f hf

theorem Keeps.keysUnique (h : Keeps k s s') (hkeys : KeysUnique s) : KeysUnique s' := by
  intro key hkey i i' hi hi' heq heq'
  rw [keyEq_of_bytes h.bytes hkey] at heq heq'
  exact hkeys key hkey i i' ((h.live i).mp hi) ((h.live i').mp hi') heq heq'

/-- The store in which a write has found its object, called the allocator and set the new size. -/
def sized (s : Store) (k len : ℕ) : Store :=
  (freeDataBlock (s.markDirty k)).2.assign k .size
    ((freeDataBlock (s.markDirty k)).2.field k .size + len)

/-- Whatever blocks it finds, a write at a block index does not fail, and after the new size is set
it keeps the slots and the size. -/
theorem objstoreWrite_found {objid : ℤ} (bld : Build) (buff : List UInt8) (offset : ℕ)
    (hoffset : offset / 4096 < 4100) (hfind : findTarget objid true s = (some k, s.markDirty k)) :
    ∃ s', objstoreWrite bld objid buff offset s = .ok (buff.length, s') ∧
      KeepsSize k (sized s k buff.length) s' := by
  simp only [objstoreWrite, hfind, blockIndex_eq rfl hoffset]
  split_ifs with hdirect haddr h₀ h₁ h₂ h₃
  · exact absurd haddr (by unfold directAddr; omega)
  · have ha : offset / 4096 < 4 := by omega
    have hwrite (t : Store) : KeepsSize k t
        (t.blkWrite bld (freeDataBlock (s.markDirty k)).1 (Block.ofList buff)) :=
      keepsSize_of_table rfl rfl
    refine ⟨_, rfl, (hwrite _).trans ?_⟩
    rw [directAddr_eq k ⟨offset / 4096, ha⟩]
    have hassign (t : Store) (v : ℤ) :
        KeepsSize k t (t.assign k (.direct ⟨offset / 4096, ha⟩) v) := keepsSize_assign t k rfl v
    exact hassign _ _
  · exact ⟨_, rfl, keepsSize_writeIndirect ..⟩
  · exact ⟨_, rfl, keepsSize_writeIndirect ..⟩
  · exact ⟨_, rfl, keepsSize_writeIndirect ..⟩
  · exact ⟨_, rfl, keepsSize_writeIndirect ..⟩
  · exact ⟨_, rfl, keepsSize_of_table rfl rfl⟩

theorem keeps_sized (s : Store) (k len : ℕ) : Keeps k s (sized s k len) := by
  have hfree := freeDataBlock_table (s.markDirty k)
  have hhead : Keeps k s (freeDataBlock (s.markDirty k)).2 := keeps_of_table hfree.1 hfree.2
  exact hhead.trans (keeps_assign _ k (by simp) _)

/-- A write at a block index does not fail and keeps the slots. -/
theorem objstoreWrite_keeps (bld : Build) (buff : List UInt8) (offset : ℕ)
    (hoffset : offset / 4096 < 4100) (hlive : Live s k)
    (huniq : ∀ i, Live s i → s.field i .id = s.field k .id → i = k) :
    ∃ s', objstoreWrite bld (s.field k .id) buff offset s = .ok (buff.length, s') ∧
      Keeps k s s' := by
  obtain ⟨s', hwrite, hkeeps⟩ :=
    objstoreWrite_found bld buff offset hoffset (findTarget_eq hlive rfl huniq true)
  exact ⟨s', hwrite, (keeps_sized s k buff.length).trans hkeeps.toKeeps⟩

/-! ### Lookup -/

/-- The object with a live key is found by `find_object_id`, and its id leads back to its slot. -/
theorem find_live_key (ht : Tidy s) (hkeys : KeysUnique s) (hkey : key.Short) (hlive : Live s k)
    (heq : keyEq s.a k key = true) :
    (findObjectId key s).1 = k + 2 ∧
      (findTarget (findObjectId key s).1 false (findObjectId key s).2).1 = some k := by
  rcases findObjectId_spec s key with ⟨-, hnone⟩ | ⟨j, hj, ⟨hbit, hid, hjkey⟩, -, hfound⟩
  · exact absurd ⟨hlive.bit, hlive.id, heq⟩ (hnone k hlive.slot)
  · obtain rfl : j = k := hkeys key hkey j k ⟨hj, hbit, hid⟩ hlive hjkey heq
    have hid' : ({ s with backup := some j } : Store).field j .id = s.field j .id := rfl
    have hback := findTarget_eq (s := { s with backup := some j }) ⟨hj, hbit, hid⟩ hid'
      (fun i hi hii ↦ ht.ids i j ⟨hi.slot, hi.bit, hi.id⟩ ⟨hj, hbit, hid⟩ hii) false
    rw [hfound]
    dsimp only
    rw [hback]
    exact ⟨ht.id_of_live hlive, rfl⟩

/-- The object destroyed is the only one with the key. -/
theorem destroyObject_unique (hlive : Live s k) (heq : keyEq s.a k key = true)
    (hunique : ∀ j, Live s j → keyEq s.a j key = true → j = k) :
    ∃ s', destroyObject key s = .ok (0, s') ∧ Destroyed k s s' := by
  rcases destroyObject_spec key s with ⟨-, hnone⟩ | ⟨j, hj, ⟨hbit, hid, hjkey⟩, -, s', hrun, hd⟩
  · exact absurd ⟨hlive.bit, hlive.id, heq⟩ (hnone k hlive.slot)
  · obtain rfl : j = k := hunique j ⟨hj, hbit, hid⟩ hjkey
    exact ⟨s', hrun, hd⟩

theorem destroyObject_live (hkeys : KeysUnique s) (hkey : key.Short) (hlive : Live s k)
    (heq : keyEq s.a k key = true) :
    ∃ s', destroyObject key s = .ok (0, s') ∧ Destroyed k s s' :=
  destroyObject_unique hlive heq fun j hj hjkey ↦ hkeys key hkey j k hj hlive hjkey heq

/-! ### Stores whose names are known -/

/-- The slots in use and the names of their objects. -/
structure Named (names : ℕ → Option Key) (s : Store) : Prop where
  tidy : Tidy s
  keys : KeysUnique s
  slot : ∀ k, names k ≠ none → k < 1015808
  bit : ∀ k < 1015808, s.inodeBit k = (names k).isSome
  name : ∀ k key, names k = some key → ∀ key' : Key, key'.Short →
    keyEq s.a k key' = decide (key' = key)

theorem named_blank {d : Device} (hd : Blank d) : Named (fun _ ↦ none) (objstoreInit d) where
  tidy := tidy_blank hd
  keys := fun _ _ _ _ hlive ↦ absurd hlive (not_live_blank hd)
  slot := fun _ hne ↦ absurd rfl hne
  bit := fun _ hk ↦ inodeBit_blank hd hk
  name := fun _ _ heq ↦ by cases heq

namespace Named

variable {names : ℕ → Option Key} (h : Named names s)

include h

theorem live_iff (k : ℕ) : Live s k ↔ names k ≠ none := by
  constructor
  · intro hlive hnone
    have hbit := h.bit k hlive.slot
    rw [hnone, hlive.bit] at hbit
    cases hbit
  · intro hne
    have hk := h.slot k hne
    rw [h.tidy.live_iff hk, h.bit k hk, Option.isSome_iff_ne_none]
    exact hne

theorem live (key : Key) (hname : names k = some key) : Live s k :=
  (h.live_iff k).mpr (hname ▸ Option.some_ne_none key)

theorem eq (hname : names k = some key) (hkey : key.Short) : keyEq s.a k key = true := by
  rw [h.name k key hname key hkey, decide_eq_true rfl]

/-- A name that is not in use is the name of no live object. -/
theorem fresh (hkey : key.Short) (hnew : ∀ j, names j ≠ some key) :
    ∀ j, Live s j → keyEq s.a j key = false := by
  intro j hlive
  obtain ⟨other, hother⟩ := Option.ne_none_iff_exists'.mp ((h.live_iff j).mp hlive)
  rw [h.name j other hother key hkey, decide_eq_false_iff_not]
  rintro rfl
  exact hnew j hother

/-- The names after a creation. -/
theorem created (hkey : key.Short) (hk : k < 1015808) (hnew : ∀ j, names j ≠ some key)
    (hc : Created key k s s') : Named (Function.update names k (some key)) s' where
  tidy := hc.tidy h.tidy
  keys := hc.keysUnique hk h.keys (h.fresh hkey hnew)
  slot := fun j hj ↦ by
    by_cases hjk : j = k
    · exact hjk ▸ hk
    · rw [Function.update_of_ne hjk] at hj
      exact h.slot j hj
  bit := fun j hj ↦ by
    rw [hc.inodeBit, Function.update_apply]
    split_ifs
    · rfl
    · exact h.bit j hj
  name := fun j other hother key' hkey' ↦ by
    rw [hc.key j key' hkey']
    rw [Function.update_apply] at hother
    split_ifs at hother ⊢
    · rw [Option.some.inj hother]
    · exact h.name j other hother key' hkey'

/-- A creation takes the lowest slot that is free. -/
theorem create (key : Key) (k : ℕ) (hkey : key.Short) (hk : k < 1015808) (hfree : names k = none)
    (hleast : ∀ j < k, names j ≠ none) (hnew : ∀ j, names j ≠ some key) :
    ∃ s', createObject key s = ((k : ℤ) + 2, s') ∧ Created key k s s' ∧
      Named (Function.update names k (some key)) s' := by
  have hclear : s.inodeBit k = false := by
    rw [h.bit k hk, hfree]
    rfl
  have hset : ∀ j < k, s.inodeBit j = true := fun j hj ↦ by
    rw [h.bit j (hj.trans hk), Option.isSome_iff_ne_none]
    exact hleast j hj
  obtain ⟨s', hcreate, hc⟩ := createObject_lowest hkey hk hclear hset
  exact ⟨s', hcreate, hc, h.created hkey hk hnew hc⟩

/-- A write keeps the names. -/
theorem keeps {i : ℕ} (hkeeps : Keeps i s s') (hi : names i ≠ none) : Named names s' where
  tidy := hkeeps.tidy ((h.live_iff i).mpr hi).bit h.tidy
  keys := hkeeps.keysUnique h.keys
  slot := h.slot
  bit := fun k hk ↦ by
    rw [Store.inodeBit, hkeeps.inodeBitmap]
    exact h.bit k hk
  name := fun k key hkey key' hkey' ↦
    (keyEq_of_bytes hkeeps.bytes hkey' k).trans (h.name k key hkey key' hkey')

/-- A destroy frees the slot of the name. -/
theorem destroy (key : Key) (k : ℕ) (hkey : key.Short) (hname : names k = some key) :
    ∃ s', destroyObject key s = .ok (0, s') ∧ Destroyed k s s' ∧
      Named (Function.update names k none) s' := by
  obtain ⟨s', hrun, hd⟩ := destroyObject_live h.keys hkey (h.live key hname) (h.eq hname hkey)
  refine ⟨s', hrun, hd, hd.tidy h.tidy, hd.keysUnique h.keys, fun j hj ↦ ?_, fun j hj ↦ ?_,
    fun j other hother key' hkey' ↦ ?_⟩
  · rw [Function.update_apply] at hj
    split_ifs at hj
    · exact absurd rfl hj
    · exact h.slot j hj
  · rw [hd.inodeBit, Function.update_apply]
    split_ifs
    · rfl
    · exact h.bit j hj
  · rw [Function.update_apply] at hother
    split_ifs at hother
    rw [keyEq_of_bytes hd.bytes hkey']
    exact h.name j other hother key' hkey'

end Named

/-- The key of the first object. -/
def keyA : Key := ⟨[97], by decide⟩

/-- The key of the second object. -/
def keyB : Key := ⟨[98], by decide⟩

/-- The name of the object in slot 0. -/
def namesA : ℕ → Option Key := Function.update (fun _ ↦ none) 0 (some keyA)

/-- The names of the objects in slots 0 and 1. -/
def namesAB : ℕ → Option Key := Function.update namesA 1 (some keyB)

theorem namesA_eq (k : ℕ) : namesA k = if k = 0 then some keyA else none :=
  Function.update_apply ..

theorem namesAB_eq (k : ℕ) :
    namesAB k = if k = 1 then some keyB else if k = 0 then some keyA else none := by
  rw [namesAB, Function.update_apply, namesA_eq]

/-- The first object of a blank disk. -/
theorem named_created {d : Device} (hd : Blank d) (hc : Created keyA 0 (objstoreInit d) s) :
    Named namesA s :=
  (named_blank hd).created (by decide) (by norm_num) (fun _ heq ↦ Option.some_ne_none keyA heq.symm)
    hc

theorem named_first {d : Device} (hd : Blank d) : ∃ s, createObject keyA (objstoreInit d) = (2, s) ∧
    Created keyA 0 (objstoreInit d) s ∧ Named namesA s := by
  obtain ⟨s, hcreate, hc⟩ := created_blank hd keyA (by decide)
  exact ⟨s, hcreate, hc, named_created hd hc⟩

/-- The name of the second object is new. -/
theorem Named.fresh_second (h : Named namesA s) : ∀ j, Live s j → keyEq s.a j keyB = false := by
  refine h.fresh (by decide) fun j heq ↦ ?_
  rw [namesA_eq] at heq
  split_ifs at heq
  exact absurd heq (by decide)

/-- The second object, beside the first. -/
theorem Named.second (h : Named namesA s) : ∃ s', createObject keyB s = (3, s') ∧
    Created keyB 1 s s' ∧ Named namesAB s' := by
  refine h.create keyB 1 (by decide) (by norm_num) rfl (fun j hj ↦ ?_) fun j heq ↦ ?_
  · obtain rfl : j = 0 := by omega
    exact Option.some_ne_none keyA
  · rw [namesA_eq] at heq
    split_ifs at heq
    exact absurd heq (by decide)

end OsAssignments.Objstore
