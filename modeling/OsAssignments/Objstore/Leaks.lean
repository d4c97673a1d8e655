import OsAssignments.Objstore.Journals

/-!
# Space that is not given back

A write allocates before it knows whether its block index already has a block, and the block that a
rewrite replaces keeps its bit. `no_leak` is about the runs in which every write is at a block
index without a block: there the set bits are exactly the blocks in use. `rewrite_leaks` is the
shortest run with a rewrite.

A destroy inverts the bits 574 places past those of the blocks it releases. The least of these
blocks has its bit inverted by no other, so the bits come out right only for an object without
blocks (`destroy_frees_exactly_iff`).
-/

set_option autoImplicit false
set_option relaxedAutoImplicit false

namespace OsAssignments.Objstore

open Library Library.Ownership

/-- A write is at a block index that has no block. -/
def Op.Fresh (bld : Build) : Op → Journal → Prop
  | write k a _, s => own bld s.store (k, .ofIndex a) = none
  | _, _ => True

/-- The blocks in use are exactly those whose bits are set, and a range that has its indirect block
has its first block. -/
structure Accounted (bld : Build) (s : Store) : Prop where
  tight : Tight (own bld s) (allocatedBlocks s)
  first : ∀ k (r : Fin 4), own bld s (k, .indirect r) ≠ none → own bld s (k, .entry r 0) ≠ none

variable {bld : Build} {s s' : Store} {k a len offset j : ℕ} {buff : List UInt8} {bits : List ℕ}
  {target : Option (Field × ℕ)} {calls : List BlockCall}

/-- The allocated blocks after a write that takes one more bit. -/
theorem allocatedBlocks_insert (hbit : ∀ i, s'.dataBit i = (decide (i = j) || s.dataBit i))
    (hj : j < 8388608) :
    allocatedBlocks s' = insert ((22815 + j : ℕ) : ℤ) (allocatedBlocks s) := by
  ext b
  constructor
  · rintro ⟨i, hi, rfl, hset⟩
    rw [hbit, Bool.or_eq_true, decide_eq_true_iff] at hset
    rcases hset with rfl | hset
    · exact .inl rfl
    · exact .inr ⟨i, hi, rfl, hset⟩
  · rintro (rfl | ⟨i, hi, rfl, hset⟩)
    · exact ⟨j, hj, rfl, by rw [hbit, decide_eq_true rfl, Bool.true_or]⟩
    · exact ⟨i, hi, rfl, by rw [hbit, hset, Bool.or_true]⟩

theorem allocatedBlocks_congr (hbit : ∀ i < 8388608, s'.dataBit i = s.dataBit i) :
    allocatedBlocks s' = allocatedBlocks s := by
  ext b
  constructor
  · rintro ⟨i, hi, rfl, hset⟩
    exact ⟨i, hi, rfl, (hbit i hi).symm.trans hset⟩
  · rintro ⟨i, hi, rfl, hset⟩
    exact ⟨i, hi, rfl, (hbit i hi).trans hset⟩

/-- A range without its first block has no indirect block, so a write that opens it replaces none.
-/
theorem Accounted.unopened (h : Accounted bld s) (hlive : Live s k)
    (hempty : own bld s (k, .ofIndex a) = none) : Unopened s k a := by
  rintro r rfl
  by_contra hne
  have hindex : Place.ofIndex (4 + 1024 * (r : ℕ)) = .entry r 0 :=
    Place.ofIndex_entry r.isLt (i := 0) (by norm_num)
  refine h.first k r ?_ (hindex ▸ hempty)
  rw [own_of_ne_zero (p := .indirect r) hlive hne]
  exact Option.some_ne_none _

/-- Without its indirect block a range owns nothing. -/
theorem withoutRange_of_unopened {r : Fin 4} (hzero : s.field k (.indirect r) = 0) :
    withoutRange (own bld s) k r = own bld s := by
  funext ⟨k', p⟩
  unfold withoutRange
  split_ifs with hq
  · obtain ⟨rfl, hp⟩ := hq
    refine (own_of_eq_zero ?_).symm
    cases p with
    | direct i => cases hp
    | indirect r' =>
      obtain rfl : r' = r := Field.indirect.inj hp
      exact hzero
    | entry r' i =>
      obtain rfl : r' = r := Field.indirect.inj hp
      exact if_pos hzero
  · rfl

section Write

variable (h : Accounted bld s) (hs : Sound bld s) (hlive : Live s k) (ha : a < 4100)
  (hoffset : offset / 4096 = a) (htakes : Takes s a bits) (hreached : Reached s k a)
  (hempty : own bld s (k, .ofIndex a) = none) {v : ℤ}
  (hrun : objstoreWrite bld (s.field k .id) buff offset s = .ok (v, s'))

include h hs hlive ha hoffset htakes hreached hempty hrun

/-- A write at a block index without a block takes the bits of the blocks it enters. -/
theorem Accounted.write_tight : Tight (own bld s') (allocatedBlocks s') := by
  have hids : ∀ i, Live s i → s.field i .id = s.field k .id → i = k := fun i hi heq ↦
    hs.ids i k hi hlive heq
  have hfresh : ∀ i ∈ bits, ∀ q, own bld s q ≠ some ((22815 + i : ℕ) : ℤ) := fun i hi q ↦
    hs.fresh (htakes.clear i hi).2 q
  match bits, htakes with
  | [j], ⟨hj, hnot⟩ =>
    have hfresh' := hfresh j (List.mem_singleton_self j)
    rcases Place.index_cases ha with hdirect | ⟨r, i, hr, hi, rfl⟩
    · obtain ⟨s'', hrun', hw⟩ :=
        written_direct bld buff hlive rfl hids (a := ⟨a, hdirect⟩) hoffset hj
      obtain rfl : s' = s'' := (Prod.mk.inj (Except.ok.inj (hrun.symm.trans hrun'))).2
      rw [own_direct hw hs.toOwned hlive hfresh',
        allocatedBlocks_insert (fun i ↦ by simpa using hw.dataBit i) hj.lt]
      rw [Place.ofIndex_direct hdirect] at hempty
      exact h.tight.update hempty
    · have hpos : 0 < i := Nat.pos_of_ne_zero fun hzero ↦ hnot ⟨r, hr⟩ (by rw [hzero]; rfl)
      have hind : own bld s (k, .indirect ⟨r, hr⟩) = some (ptr bld s k (.indirect ⟨r, hr⟩)) :=
        own_of_ne_zero hlive (hreached ⟨r, hr⟩ i hpos hi rfl)
      obtain ⟨n, hn⟩ : ∃ n : ℕ, s.field k (.indirect ⟨r, hr⟩) = n :=
        ⟨_, (hs.eq_natCast hind).symm⟩
      rw [ptr, hn] at hind
      obtain ⟨s'', hrun', hw⟩ := written_next buff hlive rfl hids hs.dev (r := ⟨r, hr⟩) hpos hi
        hoffset hn hj
      obtain rfl : s' = s'' := (Prod.mk.inj (Except.ok.inj (hrun.symm.trans hrun'))).2
      rw [own_next (i := ⟨i, hi⟩) hw hs.toOwned hind hj.lt hfresh',
        allocatedBlocks_insert (fun i ↦ by simpa using hw.dataBit i) hj.lt]
      rw [Place.ofIndex_entry hr hi] at hempty
      exact h.tight.update hempty
  | [j₁, j₂], ⟨hj₁, hj₂, r, hr⟩ =>
    have hne : j₁ ≠ j₂ := by
      rintro rfl
      have hclear := hj₂.clear
      rw [dataBit_allocated, decide_eq_true (List.mem_singleton_self _)] at hclear
      cases hclear
    have hzero := h.unopened hlive hempty r hr
    have hindex : Place.ofIndex a = .entry r 0 := by
      rw [hr]
      exact Place.ofIndex_entry r.isLt (i := 0) (by norm_num)
    obtain ⟨s'', hrun', hw⟩ := written_first bld buff hlive rfl hids (hoffset.trans hr) hj₁ hj₂
    obtain rfl : s' = s'' := (Prod.mk.inj (Except.ok.inj (hrun.symm.trans hrun'))).2
    have hbits : allocatedBlocks s' = insert ((22815 + j₂ : ℕ) : ℤ)
        (insert ((22815 + j₁ : ℕ) : ℤ) (allocatedBlocks s)) := by
      have hbits₁ : allocatedBlocks (s.allocated j₁) =
          insert ((22815 + j₁ : ℕ) : ℤ) (allocatedBlocks s) :=
        allocatedBlocks_insert (fun i ↦ by simpa using dataBit_allocated s j₁ i) hj₁.lt
      rw [← hbits₁]
      refine allocatedBlocks_insert (fun i ↦ ?_) hj₂.lt
      rw [hw.dataBit, dataBit_allocated]
      by_cases hi₁ : i = j₁ <;> by_cases hi₂ : i = j₂ <;> simp [hi₁, hi₂]
    rw [own_first hw hs.toOwned hlive hne hj₂.lt (hfresh j₁ (by simp)) (hfresh j₂ (by simp)),
      withoutRange_of_unopened hzero, hbits]
    refine (h.tight.update (own_of_eq_zero (p := .indirect r) hzero)).update ?_
    rw [Function.update_of_ne (by simp), ← hindex]
    exact hempty

omit hempty in
/-- A write that opens a range enters the first block of the range. -/
theorem Accounted.write_first (hst : Stored bld k a buff bits s s') (k' : ℕ) (r : Fin 4)
    (hind : own bld s' (k', .indirect r) ≠ none) : own bld s' (k', .entry r 0) ≠ none := by
  have hfresh : ∀ i ∈ bits, ∀ q, own bld s q ≠ some ((22815 + i : ℕ) : ℤ) := fun i hi q ↦
    hs.fresh (htakes.clear i hi).2 q
  have hr := r.isLt
  have hindex : Place.ofIndex (4 + 1024 * (r : ℕ)) = .entry r 0 :=
    Place.ofIndex_entry r.isLt (i := 0) (by norm_num)
  have hcontent := content_write hs.toOwned hlive ha hoffset htakes hfresh hreached hrun k'
    (by omega : 4 + 1024 * (r : ℕ) < 4100)
  have hkeep : ¬ Drops a (4 + 1024 * (r : ℕ)) := fun hdrops ↦ by
    obtain ⟨hle, hmod, hlt, hend⟩ := hdrops
    omega
  rw [← hindex, own_ne_none_iff_content, hcontent, if_neg hkeep]
  have hold := (hst.opened k' r).mp hind
  by_cases hk : k' = k
  · rw [if_pos hk]
    split_ifs with hr
    · exact Option.some_ne_none _
    · have hopen := hold.resolve_right fun hor ↦ hr hor.2.symm
      rw [hindex, ← own_ne_none_iff_content]
      exact h.first k' r hopen
  · rw [if_neg hk, hindex, ← own_ne_none_iff_content]
    exact h.first k' r (hold.resolve_right fun hor ↦ hk hor.1)

end Write

/-! ### Runs -/

theorem accounted_start (bld : Build) {d : Device} (hd : Blank d) :
    Accounted bld (objstoreInit d) where
  tight := fun b ↦ by
    refine iff_of_false ?_ ?_
    · rintro ⟨i, hi, rfl, hset⟩
      rw [dataBit_blank hd hi] at hset
      cases hset
    · rintro ⟨q, hq⟩
      rw [own_of_not_live (k := q.1) (p := q.2) (not_live_blank hd)] at hq
      cases hq
  first := fun k r hne ↦ absurd (own_of_not_live (not_live_blank hd)) hne

/-- A change that keeps the ownership map and the bits keeps the account. -/
theorem Accounted.congr {bld' : Build} (h : Accounted bld s) (hown : own bld' s' = own bld s)
    (hbit : ∀ i < 8388608, s'.dataBit i = s.dataBit i) : Accounted bld' s' where
  tight := by
    rw [hown, allocatedBlocks_congr hbit]
    exact h.tight
  first := by
    rw [hown]
    exact h.first

variable {s t : Journal} {op : Op} {reply : Reply}

theorem accounted_step (h : Accounted bld s.store) (ho : InOrder bld s) (hallowed : op.Allowed s)
    (horderly : op.Orderly s) (hharmless : op.Harmless bld s) (hempty : op.Fresh bld s)
    (hrun : op.run bld s = .ok (reply, t)) : Accounted bld t.store := by
  cases op with
  | create key =>
    cases hrun
    rcases createObject_cases s.store hallowed.1 with ⟨-, heq⟩ | ⟨k, hk, hclear, -, st, heq, hc⟩
    · rw [heq]
      exact h.congr (own_frame (s := s.store) (sameSlots_of_eq rfl rfl) fun _ _ _ ↦ rfl)
        fun _ _ ↦ rfl
    · rw [heq]
      refine h.congr (own_created hc ho.consistent.tidy hk hclear) fun i _ ↦ ?_
      rw [Store.dataBit, Store.dataBit, hc.dataBitmap]
  | write k a buff =>
    obtain ⟨bits, htakes⟩ := exists_takes horderly.2
    obtain ⟨st, hwrite, hst, -⟩ := ho.write hallowed horderly.1 htakes
    rw [Op.run, hwrite] at hrun
    cases hrun
    have hoffset : a * 4096 / 4096 = a := by omega
    exact ⟨h.write_tight ho.sound hallowed.1 hallowed.2.1 hoffset htakes horderly.1 hempty hwrite,
      h.write_first ho.sound hallowed.1 hallowed.2.1 hoffset htakes horderly.1 hwrite hst⟩
  | read k size offset =>
    obtain ⟨out, calls, hread, hsame, -⟩ := ho.read hallowed hharmless
    rw [Op.run, hread] at hrun
    cases hrun
    exact h.congr (own_frame (s := s.store) (sameSlots_of_eq rfl rfl)
      fun _ b _ ↦ congrFun hsame b.toNat) fun _ _ ↦ rfl
  | remount =>
    cases hrun
    refine h.congr (own_frame ho.durable.sameSlots fun q b hq ↦ ?_) fun i hi ↦ ?_
    · have hpos := ho.sound.pos (k := q.1) (p := q.2) hq
      exact logical_remount ho.durable.dev ho.durable.quiet bld (by omega)
    · rw [Store.dataBit, Store.dataBit, Bitmap.bit, Bitmap.bit,
        dataBitmap_remount ho.durable.dirty (by omega)]

/-- The blocks in use. -/
def blocksInUse (bld : Build) (s : Store) : Set ℤ := {b | ∃ q, own bld s q = some b}

/-- As long as every write is at a block index without a block, every set bit belongs to a block
that a live object refers to, and there are as many set bits as blocks in use. -/
theorem no_leak (bld : Build) (d : Device) (hd : Blank d) (s : Journal)
    (hrun : Reaches (Op.run bld)
      (fun op s ↦ op.Allowed s ∧ op.Orderly s ∧ op.Harmless bld s ∧ op.Fresh bld s) (.start d) s) :
    (∀ j < 8388608, s.store.dataBit j = true →
      ∃ k p, Live s.store k ∧ own bld s.store (k, p) = some ((22815 + j : ℕ) : ℤ)) ∧
    ((Finset.range 8388608).filter fun j ↦ s.store.dataBit j = true).card =
      (blocksInUse bld s.store).ncard := by
  have hinv : InOrder bld s ∧ Accounted bld s.store := by
    refine hrun.invariant (fun s ↦ InOrder bld s ∧ Accounted bld s.store)
      (fun op s _ _ hs hok hstep ↦ ?_) ⟨inOrder_start bld hd, accounted_start bld hd⟩
    obtain ⟨hallowed, horderly, hharmless, hempty⟩ := hok
    exact ⟨inOrder_step hs.1 hallowed horderly hharmless hstep,
      accounted_step hs.2 hs.1 hallowed horderly hharmless hempty hstep⟩
  have htight := hinv.2.tight
  refine ⟨fun j hj hset ↦ ?_, ?_⟩
  · obtain ⟨q, hq⟩ := (htight _).mp ⟨j, hj, rfl, hset⟩
    exact ⟨q.1, q.2, (own_eq_some.mp hq).1, hq⟩
  · have hset : blocksInUse bld s.store = (fun j : ℕ ↦ ((22815 + j : ℕ) : ℤ)) ''
        ((Finset.range 8388608).filter fun j ↦ s.store.dataBit j = true : Finset ℕ) := by
      ext b
      rw [blocksInUse, Set.mem_ofPred_eq, ← htight b]
      constructor
      · rintro ⟨j, hj, rfl, hset⟩
        exact ⟨j, by simp [hj, hset], rfl⟩
      · rintro ⟨j, hj, rfl⟩
        simp only [Finset.coe_filter, Finset.mem_range, Set.mem_ofPred_eq] at hj
        exact ⟨j, hj.1, rfl, hj.2⟩
    rw [hset, Set.ncard_image_of_injective _ fun i j hij ↦ by
      have heq : ((22815 + i : ℕ) : ℤ) = ((22815 + j : ℕ) : ℤ) := hij
      omega, Set.ncard_coe_finset]

/-- A first object whose block 0 is written once: one bit is set and one block is in use. -/
theorem no_leak_first_block : ∃ s t, (Op.create keyA).run .cached (.start zeroDevice) =
      .ok (.value 2, s) ∧ (Op.write 0 0 [7]).run .cached s = .ok (.value 1, t) ∧
    (∀ j < 8388608, t.store.dataBit j = true →
      ∃ k p, Live t.store k ∧ own .cached t.store (k, p) = some ((22815 + j : ℕ) : ℤ)) ∧
    ((Finset.range 8388608).filter fun j ↦ t.store.dataBit j = true).card =
      (blocksInUse .cached t.store).ncard := by
  obtain ⟨s, hcreate, hs, hc, -⟩ := opening_first .cached
  obtain ⟨t, hwrite, ht, -, -⟩ :=
    hs.write_direct 0 [7] (by decide) (by decide) (by norm_num)
  have hreached := reached_direct s.store 0 (by norm_num : 0 < 4)
  have hallowed := hs.allowed (a := 0) (by norm_num) [7] (by decide) (by decide)
  have hrun := (Reaches.refl (Op.run .cached) (fun op s ↦ op.Allowed s ∧ op.Orderly s ∧
    op.Harmless .cached s ∧ op.Fresh .cached s) (.start zeroDevice)).step
      ⟨allowed_first, trivial, trivial, trivial⟩ hcreate
  refine ⟨s, t, hcreate, hwrite, no_leak .cached zeroDevice blank_zeroDevice t (hrun.step
    ⟨hallowed, hs.orderly hreached (by decide) [7], trivial, own_first_object .cached hc _⟩ hwrite)⟩

/-- Writing block 0 of the first object twice leaves bit 0 set for a block that nobody refers to. -/
theorem rewrite_leaks : ∃ s,
    Reaches (Op.run .cached) (fun op s ↦ op.Allowed s ∧ op.Orderly s) (.start zeroDevice) s ∧
    s.store.dataBit 0 = true ∧ ∀ k p, own .cached s.store (k, p) ≠ some ((22815 + 0 : ℕ) : ℤ) := by
  obtain ⟨s, hcreate, hs, hc, -⟩ := opening_first .cached
  obtain ⟨t, hwrite, ht, hown, -⟩ :=
    hs.write_direct 0 [7] (by decide) (by decide) (by norm_num)
  obtain ⟨u, hrewrite, hu, hown', -⟩ :=
    ht.write_direct 0 [8] (by decide) (by decide) (by norm_num)
  have hreached (st : Store) := reached_direct st 0 (by norm_num : 0 < 4)
  have hrun := (Reaches.refl (Op.run .cached) (fun op s ↦ op.Allowed s ∧ op.Orderly s)
    (.start zeroDevice)).step ⟨allowed_first, trivial⟩ hcreate
  have hrun' := hrun.step ⟨hs.allowed (a := 0) (by norm_num) [7] (by decide) (by decide),
    hs.orderly (hreached _) (by decide) [7]⟩ hwrite
  refine ⟨u, hrun'.step ⟨ht.allowed (a := 0) (by norm_num) [8] (by decide) (by decide),
    ht.orderly (hreached _) (by decide) [8]⟩ hrewrite, hu.filled 0 (by norm_num), fun k p ↦ ?_⟩
  rw [hown', hown]
  by_cases hq : (k, p) = (0, .direct 0)
  · rw [hq, Function.update_self]
    decide
  · rw [Function.update_of_ne hq, Function.update_of_ne hq, own_first_object .cached hc]
    exact fun h ↦ nomatch h

/-! ### Destroys -/

/-- The bits of the blocks that the object in slot `k` owns. -/
def ownedBits (bld : Build) (s : Store) (k : ℕ) : Set ℕ :=
  {j | ∃ p, own bld s (k, p) = some ((22815 + j : ℕ) : ℤ)}

/-- A destroy clears exactly the bits of the blocks that the object in slot `k` owned, so that there
are as many more clear bits as it owned blocks. -/
structure FreesExactly (bld : Build) (k : ℕ) (s s' : Store) : Prop where
  bits : ∀ j < 8388608, s'.dataBit j = true ↔ s.dataBit j = true ∧ j ∉ ownedBits bld s k
  count : (Bitmap.clearBits s'.dataBitmap 8388608).card =
    (Bitmap.clearBits s.dataBitmap 8388608).card + (ownedBits bld s k).ncard

section Destroy

variable {s s' : Store} (hd : Destroyed k s s') (h : Sound bld s) (hlive : Live s k)
  (hcurrent : Current bld s k)

include hd h hlive hcurrent

/-- A bit that a destroy changes is 574 places past the bit of a block of the object. -/
theorem ownedBits_of_toggled (hj : j < 8388608) (hchanged : s'.dataBit j ≠ s.dataBit j) :
    574 ≤ j ∧ j - 574 ∈ ownedBits bld s k := by
  have hblks : ∀ b ∈ released s k, b = 0 ∨ 22815 ≤ b := fun b hb ↦
    released_cases h.toOwned hlive hcurrent hb
  have hmem : 22241 + (j : ℤ) ∈ released s k := by
    by_contra hnot
    refine hchanged ?_
    rw [Store.dataBit, hd.dataBitmap]
    exact bit_toggleDataBits_of_notMem hblks hj hnot _
  obtain hzero | ⟨p, hp⟩ := mem_released h.toOwned hlive hcurrent hmem
  · omega
  · have hpos := h.pos hp
    refine ⟨by omega, p, ?_⟩
    rw [hp, Option.some.injEq]
    omega

/-- The bit of the first block of the object stays set. -/
theorem exists_not_freed (hne : (ownedBits bld s k).Nonempty) :
    ∃ j < 8388608, j ∈ ownedBits bld s k ∧ s'.dataBit j = true := by
  classical
  obtain ⟨p, hp⟩ := Nat.find_spec hne
  obtain ⟨j, hj, heq, hset⟩ := h.bits _ _ hp
  obtain rfl : Nat.find hne = j := by omega
  refine ⟨_, hj, ⟨p, hp⟩, ?_⟩
  by_contra hclear
  obtain ⟨hle, hmem⟩ := ownedBits_of_toggled hd h hlive hcurrent hj fun hsame ↦
    hclear (hsame.trans hset)
  exact Nat.find_min hne (by omega) hmem

/-- A destroy of an object without blocks keeps the bits. -/
theorem dataBit_destroyed_empty (hempty : ownedBits bld s k = ∅) (hj : j < 8388608) :
    s'.dataBit j = s.dataBit j := by
  by_contra hchanged
  have hmem := (ownedBits_of_toggled hd h hlive hcurrent hj hchanged).2
  rw [hempty] at hmem
  exact hmem

theorem freesExactly_iff : FreesExactly bld k s s' ↔ ownedBits bld s k = ∅ := by
  constructor
  · intro hfrees
    by_contra hne
    obtain ⟨j, hj, hmem, hset⟩ := exists_not_freed hd h hlive hcurrent
      (Set.nonempty_iff_ne_empty.mpr hne)
    exact ((hfrees.bits j hj).mp hset).2 hmem
  · intro hempty
    have hsame := fun j (hj : j < 8388608) ↦ dataBit_destroyed_empty hd h hlive hcurrent hempty hj
    refine ⟨fun j hj ↦ ?_, ?_⟩
    · rw [hsame j hj, hempty]
      simp
    · have hclear : Bitmap.clearBits s'.dataBitmap 8388608 =
          Bitmap.clearBits s.dataBitmap 8388608 := by
        ext j
        rw [Bitmap.mem_clearBits, Bitmap.mem_clearBits]
        exact and_congr_right fun hj ↦ Eq.congr_left (hsame j hj)
      rw [hclear, hempty, Set.ncard_empty, Nat.add_zero]

end Destroy

/-- An object owns no block exactly when its eight pointers are zero. -/
theorem ownedBits_eq_empty_iff {s : Store} (h : Owned bld s) (hlive : Live s k) :
    ownedBits bld s k = ∅ ↔ ∀ f : Field, f.pointer = true → s.field k f = 0 := by
  have hown : ownedBits bld s k = ∅ ↔ ∀ p, own bld s (k, p) = none := by
    constructor
    · intro hempty p
      by_contra hne
      obtain ⟨b, hb⟩ := Option.ne_none_iff_exists'.mp hne
      have hpos := h.pos hb
      have hmem : (b - 22815).toNat ∈ ownedBits bld s k := ⟨p, by
        rw [hb, Option.some.injEq]
        omega⟩
      rw [hempty] at hmem
      exact hmem
    · rintro hnone
      ext j
      refine iff_of_false (fun hmem ↦ ?_) (Set.notMem_empty j)
      obtain ⟨p, hp⟩ := hmem
      rw [hnone p] at hp
      exact nomatch hp
  rw [hown]
  constructor
  · intro hnone f hf
    by_contra hne
    cases f with
    | direct i => exact nomatch (own_of_ne_zero (p := .direct i) hlive hne).symm.trans (hnone _)
    | indirect r => exact nomatch (own_of_ne_zero (p := .indirect r) hlive hne).symm.trans (hnone _)
    | _ => exact nomatch hf
  · intro hzero p
    refine own_of_eq_zero ?_
    cases p with
    | direct i => exact hzero (.direct i) rfl
    | indirect r => exact hzero (.indirect r) rfl
    | entry r i => exact if_pos (hzero (.indirect r) rfl)

/-- In a well-formed store of the uncached build, a destroy clears exactly the bits of the blocks
that its object owns if and only if the object owns none. -/
theorem destroy_frees_exactly_iff (s : Store) (h : Sound .uncached s) (key : Key) (k : ℕ)
    (hlive : Live s k) (heq : keyEq s.a k key = true)
    (hunique : ∀ j, Live s j → keyEq s.a j key = true → j = k) :
    ∃ s', destroyObject key s = .ok (0, s') ∧
      (FreesExactly .uncached k s s' ↔ ∀ f : Field, f.pointer = true → s.field k f = 0) := by
  obtain ⟨s', hrun, hd⟩ := destroyObject_unique hlive heq hunique
  refine ⟨s', hrun, ?_⟩
  rw [freesExactly_iff hd h hlive (current_uncached s k), ownedBits_eq_empty_iff h.toOwned hlive]

/-- An object without blocks is destroyed beside one that has a block. -/
theorem destroy_frees_exactly_empty : ∃ s s' : Store,
    own .uncached s (0, .direct 0) = some 22815 ∧ Live s 1 ∧
      destroyObject keyB s = .ok (0, s') ∧ FreesExactly .uncached 1 s s' := by
  obtain ⟨s₁, hcreate, h₁, hc, -⟩ := opening_first .uncached
  have hallowed := h₁.allowed (a := 0) (by norm_num) [7] (by decide) (by decide)
  obtain ⟨s₂, hwrite, h₂, hown, -⟩ :=
    h₁.write_direct 0 [7] (by decide) (by decide) (by norm_num)
  have hnamed₂ : Named namesA s₂.store :=
    (named_created blank_zeroDevice hc).write hallowed hwrite
  obtain ⟨s₃, -, -, h₃, hc₃, hnamed₃, -⟩ := h₂.second hnamed₂
  have hlive : Live s₃.store 1 := hnamed₃.live keyB rfl
  have heq : keyEq s₃.store.a 1 keyB = true := hnamed₃.eq rfl (by decide)
  have hclear : s₂.store.inodeBit 1 = false := hnamed₂.bit 1 (by norm_num)
  have hzero : ∀ f : Field, f.pointer = true → s₃.store.field 1 f = 0 := by
    intro f hf
    have hreset : f.reset = true := by
      cases f <;> first | rfl | cases hf
    have hid : f ≠ .id := by
      rintro rfl
      cases hf
    rw [hc₃.field, if_neg fun h ↦ hid h.2]
    exact hnamed₂.tidy.clear 1 (by norm_num) hclear f hreset
  have hblock : own .uncached s₃.store (0, .direct 0) = some 22815 := by
    rw [own_created hc₃ hnamed₂.tidy (by norm_num) hclear, hown, Function.update_self]
    rfl
  obtain ⟨s', hrun, hiff⟩ := destroy_frees_exactly_iff s₃.store h₃.order.sound keyB 1 hlive heq
    fun j hj hjkey ↦ hnamed₃.keys keyB (by decide) j 1 hj hlive hjkey heq
  exact ⟨s₃.store, s', hblock, hlive, hrun, hiff.mpr hzero⟩

/-- Destroying a first object with one block leaves the bit of the block set. -/
theorem destroy_leaks : ∃ s t : Journal, ∃ u : Store,
    (Op.create keyA).run .uncached (.start zeroDevice) = .ok (.value 2, s) ∧
    (Op.write 0 0 [7]).run .uncached s = .ok (.value 1, t) ∧
    destroyObject keyA t.store = .ok (0, u) ∧ Sound .uncached t.store ∧ KeysUnique t.store ∧
    own .uncached t.store (0, .direct 0) = some ((22815 + 0 : ℕ) : ℤ) ∧ u.dataBit 0 = true := by
  obtain ⟨s, hcreate, hs, hc, -⟩ := opening_first .uncached
  obtain ⟨t, hwrite, ht, hown, -⟩ :=
    hs.write_direct 0 [7] (by decide) (by decide) (by norm_num)
  have heq : keyEq t.store.a 0 keyA = true := by
    rw [hs.order.keyEq_write (hs.allowed (by norm_num) [7] (by decide) (by decide)) hwrite
      (by decide), hc.key _ _ (by decide), if_pos rfl, decide_eq_true rfl]
  obtain ⟨u, hrun, hd⟩ := destroyObject_live ht.order.consistent.keys (by decide) ht.live heq
  have hblock : own .uncached t.store (0, .direct 0) = some ((22815 + 0 : ℕ) : ℤ) := by
    rw [hown]
    exact Function.update_self ..
  refine ⟨s, t, u, hcreate, hwrite, hrun, ht.order.sound, ht.order.consistent.keys, hblock, ?_⟩
  by_contra hclear
  have hset : t.store.dataBit 0 = true := ht.filled 0 (by norm_num)
  have hfar := (ownedBits_of_toggled hd ht.order.sound ht.live (current_uncached _ _)
    (by norm_num : 0 < 8388608) fun hsame ↦ hclear (hsame.trans hset)).1
  omega

end OsAssignments.Objstore
