import OsAssignments.Objstore.Release

/-!
# Appending blocks

An object that holds `n` blocks has its first `n` block indices mapped and no other, and the
indirect blocks of exactly the ranges that these reach (`Holds`). A store is `WellFormed` when it
is sound and every live object holds some number of blocks. Writing at the next index is an
append: `append_exact_and_isolated` shows that it stores the buffer, leaves a well-formed store in
which the object holds one block more, and changes the result of no read inside what was written
before, in both builds.
-/

set_option autoImplicit false
set_option relaxedAutoImplicit false

namespace OsAssignments.Objstore

open Library Library.Ownership

/-- The object in slot `k` holds its first `n` blocks and no others. -/
structure Holds (bld : Build) (s : Store) (k n : ℕ) : Prop where
  le : n ≤ 4100
  mapped : ∀ a < 4100, own bld s (k, .ofIndex a) ≠ none ↔ a < n
  opened : ∀ r : Fin 4, own bld s (k, .indirect r) ≠ none ↔ 4 + 1024 * (r : ℕ) < n

/-- A sound store in which every live object holds some number of blocks. -/
structure WellFormed (bld : Build) (s : Store) : Prop where
  sound : Sound bld s
  holds : ∀ k, Live s k → ∃ n, Holds bld s k n

/-- The number of blocks an append at index `n` allocates. -/
def blocksNeeded (n : ℕ) : ℕ := if n = 4 ∨ n = 1028 ∨ n = 2052 ∨ n = 3076 then 2 else 1

variable {bld bld' : Build} {s s' : Store} {k k' n m : ℕ} {buff : List UInt8} {bits : List ℕ}

/-! ### Allocation -/

theorem first_index_iff : (∃ r : Fin 4, n = 4 + 1024 * (r : ℕ)) ↔
    n = 4 ∨ n = 1028 ∨ n = 2052 ∨ n = 3076 := by
  constructor
  · rintro ⟨r, rfl⟩
    omega
  · rintro (rfl | rfl | rfl | rfl)
    · exact ⟨0, rfl⟩
    · exact ⟨1, rfl⟩
    · exact ⟨2, rfl⟩
    · exact ⟨3, rfl⟩

/-- Taking a clear bit leaves one clear bit less. -/
theorem clearBits_allocated (s : Store) (j : ℕ) :
    Bitmap.clearBits (s.allocated j).dataBitmap 8388608 =
      (Bitmap.clearBits s.dataBitmap 8388608).erase j := by
  ext i
  have hbit := dataBit_allocated s j i
  rw [Store.dataBit, Store.dataBit] at hbit
  rw [Finset.mem_erase, Bitmap.mem_clearBits, Bitmap.mem_clearBits, hbit]
  by_cases hij : i = j
  · simp [hij]
  · simp [hij]

theorem exists_takes (h : blocksNeeded n ≤ (Bitmap.clearBits s.dataBitmap 8388608).card) :
    ∃ bits, Takes s n bits := by
  have hpos : 1 ≤ blocksNeeded n := by
    unfold blocksNeeded
    split_ifs <;> omega
  obtain ⟨j₁, hj₁⟩ := exists_firstClear (le_trans hpos h)
  by_cases hfirst : ∃ r : Fin 4, n = 4 + 1024 * (r : ℕ)
  · have htwo : blocksNeeded n = 2 := if_pos (first_index_iff.mp hfirst)
    have hmem : j₁ ∈ Bitmap.clearBits s.dataBitmap 8388608 :=
      Bitmap.mem_clearBits.mpr ⟨hj₁.lt, hj₁.clear⟩
    have hcard := Finset.card_erase_of_mem hmem
    rw [← clearBits_allocated] at hcard
    obtain ⟨j₂, hj₂⟩ := exists_firstClear (s := s.allocated j₁) (by omega)
    exact ⟨[j₁, j₂], hj₁, hj₂, hfirst⟩
  · exact ⟨[j₁], hj₁, fun r hr ↦ hfirst ⟨r, hr⟩⟩

/-! ### A new object -/

/-- A new object refers to no block, so the ownership map does not change. -/
theorem own_created {key : Key} (hc : Created key k s s') (ht : Tidy s) (hk : k < 1015808)
    (hclear : s.inodeBit k = false) : own bld s' = own bld s := by
  funext ⟨k', p⟩
  by_cases hkk : k' = k
  · have hempty : s'.inodeBit k' = true → ptr bld s' k' p = 0 := fun _ ↦ by
      have hzero (f : Field) (hf : f.pointer = true) : s'.field k' f = 0 := by
        rw [hc.field, if_neg (by rintro ⟨-, rfl⟩; cases hf), hkk]
        exact ht.clear k hk hclear f (by cases f <;> first | rfl | cases hf)
      cases p with
      | direct i => exact hzero _ rfl
      | indirect r => exact hzero _ rfl
      | entry r i => exact if_pos (hzero (.indirect r) rfl)
    have hold : ¬ Live s k' := fun hl ↦ by
      have hbit := hl.bit
      rw [hkk, hclear] at hbit
      cases hbit
    rw [own_of_not_live hold, own_of_eq_zero (hempty (by rw [hc.inodeBit, if_pos hkk]))]
  · refine own_congr ?_ ?_ fun r i _ b _ ↦ by rw [hc.dev]
    · rw [hc.live hk, or_iff_left hkk]
    · rw [hc.field, if_neg fun hor ↦ hkk hor.1]

theorem content_created {key : Key} (hc : Created key k s s') (ht : Tidy s) (hk : k < 1015808)
    (hclear : s.inodeBit k = false) : content bld s' = content bld s := by
  funext q
  rw [content, content, own_created hc ht hk hclear, hc.dev]

theorem Owned.created {key : Key} (h : Owned bld s) (hc : Created key k s s') (ht : Tidy s)
    (hk : k < 1015808) (hclear : s.inodeBit k = false) : Owned bld s' where
  exclusive := own_created hc ht hk hclear ▸ h.exclusive
  region := own_created hc ht hk hclear ▸ h.region
  ids := (hc.tidy ht).ids
  dev := hc.dev ▸ h.dev

theorem Sound.created {key : Key} (h : Sound bld s) (hc : Created key k s s') (ht : Tidy s)
    (hk : k < 1015808) (hclear : s.inodeBit k = false) : Sound bld s' where
  toOwned := h.toOwned.created hc ht hk hclear
  bits := by
    have hbits : allocatedBlocks s' = allocatedBlocks s := by
      unfold allocatedBlocks Store.dataBit
      rw [hc.dataBitmap]
    rw [own_created hc ht hk hclear, hbits]
    exact h.bits

/-- The ownership map decides how many blocks an object holds. -/
theorem Holds.congr (h : Holds bld s k n) (hown : ∀ p, own bld' s' (k, p) = own bld s (k, p)) :
    Holds bld' s' k n where
  le := h.le
  mapped := fun a ha ↦ by rw [hown, h.mapped a ha]
  opened := fun r ↦ by rw [hown, h.opened r]

/-- An object that refers to no block holds none. -/
theorem holds_zero (h : ∀ p, own bld s (k, p) = none) : Holds bld s k 0 where
  le := Nat.zero_le _
  mapped := fun a _ ↦ by simp [h]
  opened := fun r ↦ by simp [h]

/-- In a store without live objects every condition on objects holds. -/
theorem sound_of_no_live (h : ∀ k, ¬ Live s k) (hdev : BuildOk bld s.dev) : Sound bld s where
  exclusive := fun q _ _ hq ↦ absurd hq (by rw [own_of_not_live (h q.1)]; exact nofun)
  region := fun q _ hq ↦ absurd hq (by rw [own_of_not_live (h q.1)]; exact nofun)
  ids := fun k _ hk ↦ absurd hk (h k)
  dev := hdev
  bits := fun q _ hq ↦ absurd hq (by rw [own_of_not_live (h q.1)]; exact nofun)

/-! ### The next index -/

theorem own_ne_none_iff_content {q : ℕ × Place} : own bld s q ≠ none ↔ content bld s q ≠ none := by
  rw [content, ne_eq, ne_eq, Option.map_eq_none_iff]

theorem Holds.reached (h : Holds bld s k n) : Reached s k n := by
  rintro r i hpos - rfl hzero
  exact (h.opened r).mpr (by omega) (own_of_eq_zero hzero)

theorem Holds.unopened (h : Holds bld s k n) (hlive : Live s k) : Unopened s k n := by
  rintro r rfl
  by_contra hne
  have hown : own bld s (k, .indirect r) ≠ none := by
    rw [own_of_ne_zero (p := .indirect r) hlive hne]
    exact Option.some_ne_none _
  exact absurd ((h.opened r).mp hown) (lt_irrefl _)

theorem Holds.unique (h : Holds bld s k n) (h' : Holds bld s k m) : m = n := by
  have hn := h.le
  have hm := h'.le
  rcases lt_trichotomy m n with hlt | heq | hlt
  · exact absurd ((h'.mapped m (by omega)).mp ((h.mapped m (by omega)).mpr hlt)) (lt_irrefl m)
  · exact heq
  · exact absurd ((h.mapped n (by omega)).mp ((h'.mapped n (by omega)).mpr hlt)) (lt_irrefl n)

/-- An append adds one block to its object and leaves the others as they were. -/
theorem Stored.holds (hst : Stored bld k n buff bits s s') (hn : n < 4100)
    (hopen : Unopened s k n) (h : Holds bld s k' m) (hm : k' = k → m = n) :
    Holds bld s' k' (if k' = k then m + 1 else m) where
  le := by
    have := h.le
    split_ifs with hk
    · have := hm hk
      omega
    · omega
  mapped := fun a ha ↦ by
    have hold := h.mapped a ha
    rw [own_ne_none_iff_content, hst.content hopen _ (Place.isData_ofIndex a)]
    rw [own_ne_none_iff_content] at hold
    by_cases hq : (k', Place.ofIndex a) = (k, .ofIndex n)
    · obtain ⟨hk, hplace⟩ := Prod.mk.inj hq
      have hmn := hm hk
      have han := Place.ofIndex_inj ha hn hplace
      rw [hq, Function.update_self, if_pos hk]
      exact iff_of_true (Option.some_ne_none _) (by omega)
    · rw [Function.update_of_ne hq, hold]
      split_ifs with hk
      · have hmn := hm hk
        have han : a ≠ n := by
          rintro rfl
          exact hq (by rw [hk])
        omega
      · rfl
  opened := fun r ↦ by
    rw [hst.opened, h.opened]
    split_ifs with hk
    · have := hm hk
      omega
    · exact or_iff_left fun hor ↦ hk hor.1

/-- A read inside the blocks of an object is determined by their contents. -/
theorem Holds.read (h : Holds bld s k n) (hs : Owned bld s) (hlive : Live s k)
    (size offset : ℕ) (hrange : offset + size ≤ 4096 * n) :
    ∃ calls blks, ReadsOf blks calls ∧ (∀ blk ∈ blks, 22815 ≤ blk) ∧
      objstoreRead bld (s.field k .id) size offset s =
        .ok ((size, bytesOf ((List.range ((size + 4095) / 4096)).map fun i ↦
          (content bld s (k, .ofIndex (offset / 4096 + i))).getD Block.zero) size),
          { s with dev := runCalls bld calls s.dev }) := by
  have hle := h.le
  have hmapped (i : ℕ) (hi : i < (size + 4095) / 4096) :
      own bld s (k, .ofIndex (offset / 4096 + i)) ≠ none :=
    (h.mapped _ (by omega)).mpr (by omega)
  obtain ⟨calls, hcalls, hrun⟩ := objstoreRead_content hs hlive size offset
    (n := (size + 4095) / 4096) (by omega) (by omega) fun i hi ↦ opened_of_own (hmapped i hi)
  have hblocks : ((List.range ((size + 4095) / 4096)).map fun i ↦
      (content bld s (k, .ofIndex (offset / 4096 + i))).getD (logical bld s.dev 0)) =
      (List.range ((size + 4095) / 4096)).map fun i ↦
        (content bld s (k, .ofIndex (offset / 4096 + i))).getD Block.zero :=
    List.map_congr_left fun i hi ↦ by
      obtain ⟨x, hx⟩ := Option.ne_none_iff_exists'.mp
        (own_ne_none_iff_content.mp (hmapped i (List.mem_range.mp hi)))
      rw [hx]
      rfl
  rw [hblocks] at hrun
  refine ⟨calls, _, hcalls, fun blk hblk ↦ ?_, hrun⟩
  obtain ⟨i, hi, hblk⟩ := List.mem_flatMap.mp hblk
  have hlt := List.mem_range.mp hi
  exact hs.touched_region (by omega) (hmapped i hlt) blk hblk

/-- A buffer of at most one block is read back from its block. -/
theorem bytesOf_ofList (hsize : buff.length ≤ 4096) :
    bytesOf [Block.ofList buff] buff.length = buff := by
  refine List.ext_getElem (by simp [bytesOf]) fun i hi hi' ↦ ?_
  have hdiv : i / 4096 = 0 := by omega
  have hmod : i % 4096 = i := by omega
  simp only [bytesOf, List.getElem_map, List.getElem_range, hdiv, hmod, List.getD_cons_zero]
  rw [Block.byte_ofList buff (by omega), List.getD_eq_getElem _ _ hi']

/-- Reads inside what was written before an append return what they returned. -/
theorem stored_read (hst : Stored bld k n buff bits s s') (hn : n < 4100) (hs : Owned bld s)
    (hlive : Live s k) (hholds : Holds bld s k n) (hlive' : Live s k') (hm : Holds bld s k' m)
    {size offset : ℕ} (hrange : offset + size ≤ 4096 * m) :
    ∃ out t t', objstoreRead bld (s.field k' .id) size offset s = .ok (out, t) ∧
      objstoreRead bld (s.field k' .id) size offset s' = .ok (out, t') := by
  obtain ⟨target, calls, hw, htarget, -⟩ := hst.written
  have hopen := hholds.unopened hlive
  have hmn : k' = k → m = n := by
    rintro rfl
    exact hholds.unique hm
  obtain ⟨calls₁, blks₁, -, -, hread⟩ := hm.read hs hlive' size offset hrange
  obtain ⟨calls₂, blks₂, -, -, hread'⟩ := (hst.holds hn hopen hm hmn).read hst.owned
    ((hw.live htarget k').mpr hlive') size offset (by split_ifs <;> omega)
  have hblocks : ((List.range ((size + 4095) / 4096)).map fun i ↦
      (content bld s' (k', .ofIndex (offset / 4096 + i))).getD Block.zero) =
      (List.range ((size + 4095) / 4096)).map fun i ↦
        (content bld s (k', .ofIndex (offset / 4096 + i))).getD Block.zero := by
    refine List.map_congr_left fun i hi ↦ ?_
    have hle := hm.le
    have hlt := List.mem_range.mp hi
    have hne : (k', Place.ofIndex (offset / 4096 + i)) ≠ (k, .ofIndex n) := by
      intro heq
      obtain ⟨hk, hplace⟩ := Prod.mk.inj heq
      have hin := Place.ofIndex_inj (by omega) hn hplace
      have := hmn hk
      omega
    rw [hst.content hopen _ (Place.isData_ofIndex _), Function.update_of_ne hne]
  rw [hw.id htarget, hblocks] at hread'
  exact ⟨_, _, _, hread, hread'⟩

/-- An append returns the size, stores the buffer and disturbs no other read. -/
theorem append_exact_and_isolated (bld : Build) (s : Store) (h : WellFormed bld s) (k n : ℕ)
    (hlive : Live s k) (hn : n ≤ 4099) (hholds : Holds bld s k n) (buff : List UInt8)
    (hpos : 1 ≤ buff.length) (hsize : buff.length ≤ 4096)
    (hfree : blocksNeeded n ≤ (Bitmap.clearBits s.dataBitmap 8388608).card) :
    ∃ s', objstoreWrite bld (s.field k .id) buff ((n * 4096 : ℕ) : ℤ) s = .ok (buff.length, s') ∧
      WellFormed bld s' ∧ Live s' k ∧ Holds bld s' k (n + 1) ∧
      (∃ t, objstoreRead bld (s.field k .id) buff.length ((n * 4096 : ℕ) : ℤ) s' =
        .ok ((buff.length, buff), t)) ∧
      ∀ k' m, Live s k' → Holds bld s k' m → ∀ size offset : ℕ, offset + size ≤ 4096 * m →
        ∃ out t t', objstoreRead bld (s.field k' .id) size offset s = .ok (out, t) ∧
          objstoreRead bld (s.field k' .id) size offset s' = .ok (out, t') := by
  obtain ⟨bits, htakes⟩ := exists_takes hfree
  have hopen := hholds.unopened hlive
  obtain ⟨s', hrun, hst⟩ := stored_write buff h.sound.toOwned hlive
    (by omega : n < 4100) (by omega : n * 4096 / 4096 = n) htakes
    (fun i hi q ↦ h.sound.fresh (htakes.clear i hi).2 q) hholds.reached
  obtain ⟨target, calls, hw, htarget, -⟩ := hst.written
  have hkeep := hw.live htarget
  have hid := hw.id htarget
  have hsound := hst.sound h.sound htakes
  have hnext (k' m : ℕ) (hk' : Live s k') (hm : Holds bld s k' m) (hmn : k' = k → m = n) :=
    hst.holds (by omega) hopen hm hmn
  have hself : Holds bld s' k (n + 1) := by
    have := hnext k n hlive hholds fun _ ↦ rfl
    rwa [if_pos rfl] at this
  refine ⟨s', hrun, ⟨hsound, fun k' hk' ↦ ?_⟩, (hkeep k).mpr hlive, hself, ?_, ?_⟩
  · by_cases hk : k' = k
    · exact ⟨n + 1, hk ▸ hself⟩
    · obtain ⟨m, hm⟩ := h.holds k' ((hkeep k').mp hk')
      have := hnext k' m ((hkeep k').mp hk') hm fun heq ↦ absurd heq hk
      rw [if_neg hk] at this
      exact ⟨m, this⟩
  · obtain ⟨calls', blks, -, -, hread⟩ := hself.read hst.owned ((hkeep k).mpr hlive)
      buff.length (n * 4096) (by omega)
    have hone : (buff.length + 4095) / 4096 = 1 := by omega
    have hdiv : n * 4096 / 4096 + 0 = n := by omega
    rw [hid, hone, List.range_one, List.map_singleton, hdiv,
      hst.content hopen _ (Place.isData_ofIndex n), Function.update_self, Option.getD_some,
      bytesOf_ofList hsize] at hread
    exact ⟨_, hread⟩
  · intro k' m hk' hm size offset hrange
    exact stored_read hst (by omega) h.sound.toOwned hlive hholds hk' hm hrange

/-- The first append to the first object of a blank store, in the cached build. -/
theorem append_to_first_object : ∃ s s', Live s 0 ∧
    objstoreWrite .cached (s.field 0 .id) [7] ((0 * 4096 : ℕ) : ℤ) s = .ok (1, s') ∧
      WellFormed .cached s' ∧
      ∃ t, objstoreRead .cached (s.field 0 .id) 1 ((0 * 4096 : ℕ) : ℤ) s' = .ok ((1, [7]), t) := by
  obtain ⟨s, -, hc⟩ := created_blank blank_zeroDevice ⟨[97], by decide⟩ (by decide)
  have ht := tidy_blank blank_zeroDevice
  have hbit := inodeBit_blank blank_zeroDevice (k := 0) (by norm_num)
  have hnone (k : ℕ) (p : Place) : own .cached s (k, p) = none := by
    rw [own_created hc ht (by norm_num) hbit, own_of_not_live (not_live_blank blank_zeroDevice)]
  have hwf : WellFormed .cached s :=
    ⟨(sound_of_no_live (fun _ ↦ not_live_blank blank_zeroDevice)
      (buildOk_objstoreInit _ _)).created hc ht (by norm_num) hbit,
      fun k _ ↦ ⟨0, holds_zero (hnone k)⟩⟩
  have hlive : Live s 0 := (hc.live (by norm_num) 0).mpr (Or.inr rfl)
  have hzero : s.dataBit 0 = false := by
    rw [Store.dataBit, hc.dataBitmap]
    exact dataBit_blank blank_zeroDevice (by norm_num)
  have hfree : blocksNeeded 0 ≤ (Bitmap.clearBits s.dataBitmap 8388608).card :=
    Finset.card_pos.mpr ⟨0, Bitmap.mem_clearBits.mpr ⟨by norm_num, hzero⟩⟩
  obtain ⟨s', hrun, hwf', -, -, hread, -⟩ := append_exact_and_isolated .cached s hwf 0 0 hlive
    (by norm_num) (holds_zero (hnone 0)) [7] (by decide) (by decide) hfree
  exact ⟨s, s', hlive, hrun, hwf', hread⟩

end OsAssignments.Objstore
