import OsAssignments.Objstore.Slots

/-!
# What a destroyed object leaves behind

Dropping the line of a block exposes the disk copy of the block and changes no other content
(`logical_dropLines`); the cache condition survives. On the ownership map a destroy erases the
places of its object (`own_destroyed`), provided that the disk copies of its indirect blocks are
current (`Current`): the entries it releases are read from the disk. The bits are another matter.
A released block inverts the bit 574 places past its own, so the remaining objects keep their bits
only when none of their blocks lies 574 past a released one (`Apart`, `Sound.destroyed`).
-/

set_option autoImplicit false
set_option relaxedAutoImplicit false

namespace OsAssignments.Objstore

open Library Library.Ownership

variable {bld : Build} {d : Device} {s s' : Store} {k : ℕ} {blks : List ℤ}

/-! ### Dropping lines -/

theorem view_dropLine (d : Device) (b : ℕ) : view (dropLine b d) = (view d).drop slotOf b := by
  have hheld := view_held_eq_some_iff d (slotOf b) b
  rw [dropLine, WriteBack.drop, tmod_natCast, tdiv_natCast]
  by_cases htag : d.cacheIndex (slotOf b : ℕ) = ((b / 32768 : ℕ) : ℤ)
  · rw [if_pos htag, if_pos (hheld.mpr ⟨rfl, htag⟩)]
    ext1
    · rfl
    · funext i
      by_cases hi : i = slotOf b
      · simp [view, hi]
      · simp [view, update_natCast_apply, Function.update_of_ne hi]
    · funext i
      by_cases hi : i = slotOf b
      · simp [view, hi]
      · simp [view, update_natCast_apply, Function.update_of_ne hi]
    · rfl
  · rw [if_neg htag, if_neg fun h ↦ htag (hheld.mp h).2]

theorem logical_dropLine (bld : Build) (d : Device) (b b' : ℕ) :
    logical bld (dropLine b d) b' = if b' = b then d.disk b else logical bld d b' := by
  cases bld with
  | cached =>
    rw [logical_cached, logical_cached, view_dropLine, WriteBack.content_drop]
    rfl
  | uncached =>
    rw [logical, dropLine_disk]
    split_ifs with hb
    · rw [hb]
    · rfl

/-- A dropped line is neither valid nor dirty. -/
theorem dropLine_line (b : ℤ) (d : Device) (i : ℤ) :
    (dropLine b d).cacheIndex i = d.cacheIndex i ∧ (dropLine b d).cacheDirty i = d.cacheDirty i ∨
      (dropLine b d).cacheIndex i = -1 ∧ (dropLine b d).cacheDirty i = 0 := by
  unfold dropLine
  split_ifs
  · by_cases hi : i = b.tmod 32768
    · exact Or.inr (by simp [hi])
    · exact Or.inl (by simp [hi])
  · exact Or.inl ⟨rfl, rfl⟩

theorem buildOk_dropLine (hd : BuildOk bld d) (b : ℕ) : BuildOk bld (dropLine b d) := by
  intro hbld
  have hok := hd hbld
  refine cacheOk_of_coherent ?_ fun i hindex ↦ ?_
  · rw [view_dropLine]
    exact WriteBack.coherent_drop (coherent_view hok) b
  · rcases dropLine_line b d i with ⟨hi, hdirty⟩ | ⟨-, hdirty⟩
    · rw [hdirty]
      exact hok.invalid i (hi ▸ hindex)
    · rw [hdirty]
      exact zero_ne_one

theorem dirtyFrom_dropLine {n : ℕ} (hd : DirtyFrom n d) (b : ℤ) : DirtyFrom n (dropLine b d) := by
  intro i hdirty
  rcases dropLine_line b d i with ⟨hindex, hsame⟩ | ⟨-, hzero⟩
  · rw [heldBlk, hindex]
    exact hd i (hsame ▸ hdirty)
  · rw [hzero] at hdirty
    exact absurd hdirty zero_ne_one

theorem quiet_dropLine (hd : Quiet bld d) (b : ℤ) : Quiet bld (dropLine b d) := by
  intro hbld i hdirty
  rcases dropLine_line b d i with ⟨-, hsame⟩ | ⟨-, hzero⟩
  · exact hd hbld i (hsame ▸ hdirty)
  · rw [hzero] at hdirty
    exact absurd hdirty zero_ne_one

theorem logical_dropLines (bld : Build) (hblks : ∀ b ∈ blks, 0 ≤ b) (d : Device) (b : ℕ) :
    logical bld (dropLines blks d) b = if (b : ℤ) ∈ blks then d.disk b else logical bld d b := by
  induction blks generalizing d with
  | nil => rfl
  | cons blk blks ih =>
    obtain ⟨n, rfl⟩ := Int.eq_ofNat_of_zero_le (hblks blk List.mem_cons_self)
    have hstep : dropLines ((n : ℤ) :: blks) d = dropLines blks (dropLine n d) := rfl
    rw [hstep, ih (fun b hb ↦ hblks b (List.mem_cons_of_mem _ hb)), dropLine_disk,
      logical_dropLine]
    by_cases hb : b = n
    · rw [if_pos hb, hb, if_pos List.mem_cons_self, ite_self]
    · rw [if_neg hb]
      refine if_congr ?_ rfl rfl
      rw [List.mem_cons, or_iff_right (by exact_mod_cast hb)]

/-- The device conditions survive the dropping of lines. -/
theorem device_dropLines {n : ℕ} (hblks : ∀ b ∈ blks, 0 ≤ b) (hd : BuildOk bld d) :
    BuildOk bld (dropLines blks d) ∧ (DirtyFrom n d → DirtyFrom n (dropLines blks d)) ∧
      (Quiet bld d → Quiet bld (dropLines blks d)) := by
  induction blks generalizing d with
  | nil => exact ⟨hd, id, id⟩
  | cons blk blks ih =>
    obtain ⟨m, rfl⟩ := Int.eq_ofNat_of_zero_le (hblks blk List.mem_cons_self)
    obtain ⟨hok, hdirty, hquiet⟩ :=
      ih (fun b hb ↦ hblks b (List.mem_cons_of_mem _ hb)) (buildOk_dropLine hd m)
    exact ⟨hok, fun h ↦ hdirty (dirtyFrom_dropLine h m), fun h ↦ hquiet (quiet_dropLine h m)⟩

/-! ### The blocks released -/

/-- The disk copies of the indirect blocks of an object are current. -/
def Current (bld : Build) (s : Store) (k : ℕ) : Prop :=
  ∀ (r : Fin 4) (b : ℤ), own bld s (k, .indirect r) = some b →
    s.dev.disk b.toNat = logical bld s.dev b.toNat

theorem current_uncached (s : Store) (k : ℕ) : Current .uncached s k := fun _ _ _ ↦ rfl

theorem mem_diskEntries {b ptr : ℤ} (hptr : 0 ≤ ptr) :
    b ∈ diskEntries d ptr ↔ ∃ i : Fin 1024, (d.disk ptr.toNat).int i = b := by
  rw [diskEntries, entriesOf, readBlock, if_neg (by omega), List.mem_map]
  constructor
  · rintro ⟨i, hi, rfl⟩
    exact ⟨⟨i, List.mem_range.mp hi⟩, rfl⟩
  · rintro ⟨i, rfl⟩
    exact ⟨i, List.mem_range.mpr i.isLt, rfl⟩

/-- Besides zeros, a destroy releases the blocks its object refers to. -/
theorem mem_released (h : Owned bld s) (hlive : Live s k) (hcurrent : Current bld s k) {b : ℤ}
    (hb : b ∈ released s k) : b = 0 ∨ ∃ p, own bld s (k, p) = some b := by
  by_cases hzero : b = 0
  · exact Or.inl hzero
  refine Or.inr ?_
  rw [released, List.mem_append] at hb
  rcases hb with hb | hb
  · obtain ⟨i, -, hi⟩ := List.mem_flatMap.mp hb
    obtain rfl : b = s.field k (.direct i) :=
      List.mem_singleton.mp (List.mem_of_mem_filter hi)
    exact ⟨.direct i, own_eq_some.mpr ⟨hlive, rfl, hzero⟩⟩
  · obtain ⟨r, -, hr⟩ := List.mem_flatMap.mp hb
    rw [releasedIndirect, List.mem_cons] at hr
    rcases hr with rfl | hr
    · exact ⟨.indirect r, own_eq_some.mpr ⟨hlive, rfl, hzero⟩⟩
    · by_cases hind : s.field k (.indirect r) = 0
      · rw [if_neg (not_not.mpr hind)] at hr
        exact absurd hr List.not_mem_nil
      · rw [if_pos hind] at hr
        have hown : own bld s (k, .indirect r) = some (s.field k (.indirect r)) :=
          own_of_ne_zero hlive hind
        have hpos := h.pos hown
        obtain ⟨i, hi⟩ := (mem_diskEntries (by omega)).mp (List.mem_of_mem_filter hr)
        rw [hcurrent r _ hown] at hi
        refine ⟨.entry r i, own_eq_some.mpr ⟨hlive, ?_, hzero⟩⟩
        rw [ptr, if_neg hind, hi]

theorem released_cases (h : Owned bld s) (hlive : Live s k) (hcurrent : Current bld s k) {b : ℤ}
    (hb : b ∈ released s k) : b = 0 ∨ 22815 ≤ b := by
  rcases mem_released h hlive hcurrent hb with hzero | ⟨p, hp⟩
  · exact Or.inl hzero
  · exact Or.inr (h.pos hp)

/-! ### The ownership map after a destroy -/

section Destroyed

variable (hd : Destroyed k s s') (h : Owned bld s) (hlive : Live s k)
  (hcurrent : Current bld s k)

include hd h hlive hcurrent

/-- The blocks of the other objects keep their contents. -/
theorem logical_destroyed {k' : ℕ} {p : Place} {b : ℤ} (hk : k' ≠ k)
    (hown : own bld s (k', p) = some b) :
    logical bld s'.dev b.toNat = logical bld s.dev b.toNat := by
  rw [hd.dev, logical_dropLines bld, if_neg]
  · intro hmem
    rw [h.eq_natCast hown] at hmem
    rcases mem_released h hlive hcurrent hmem with hzero | ⟨p', hp'⟩
    · have := h.pos hown
      omega
    · exact hk (Prod.mk.inj (h.exclusive _ _ b hown hp')).1
  · intro b hb
    rcases released_cases h hlive hcurrent hb with rfl | hpos <;> omega

theorem own_destroyed (q : ℕ × Place) :
    own bld s' q = if q.1 = k then none else own bld s q := by
  obtain ⟨k', p⟩ := q
  split_ifs with hk
  · exact own_of_not_live fun hl ↦ ((hd.live k').mp hl).2 hk
  · refine own_congr ?_ ?_ fun r i _ b hb ↦ ?_
    · rw [hd.live, and_iff_left hk]
    · rw [hd.field, if_neg fun hor ↦ hk hor.1]
    · rw [logical_destroyed hd h hlive hcurrent hk hb]

theorem content_destroyed (q : ℕ × Place) :
    content bld s' q = if q.1 = k then none else content bld s q := by
  obtain ⟨k', p⟩ := q
  have hown := own_destroyed hd h hlive hcurrent (k', p)
  split_ifs at hown ⊢ with hk
  · exact content_of_own_none hown
  · exact content_congr hown fun b hb ↦ logical_destroyed hd h hlive hcurrent hk hb

theorem below_destroyed : Below (own bld s') (own bld s) := by
  intro q b hq
  rw [own_destroyed hd h hlive hcurrent] at hq
  split_ifs at hq
  exact hq

theorem Owned.destroyed : Owned bld s' where
  exclusive := h.exclusive.of_le (below_destroyed hd h hlive hcurrent)
  region := h.region.of_le (below_destroyed hd h hlive hcurrent)
  ids := fun i i' hi hi' heq ↦ by
    have hi₀ := (hd.live i).mp hi
    have hi₀' := (hd.live i').mp hi'
    rw [hd.field, hd.field, if_neg fun hor ↦ hi₀.2 hor.1, if_neg fun hor ↦ hi₀'.2 hor.1] at heq
    exact h.ids i i' hi₀.1 hi₀'.1 heq
  dev := by
    rw [hd.dev]
    refine (device_dropLines (n := 0) (fun b hb ↦ ?_) h.dev).1
    rcases released_cases h hlive hcurrent hb with rfl | hpos <;> omega

end Destroyed

/-- No other object refers to a block 574 past a block of the object in slot `k`. -/
def Apart (bld : Build) (s : Store) (k : ℕ) : Prop :=
  ∀ (p : Place) (b : ℤ), own bld s (k, p) = some b → ∀ q : ℕ × Place, q.1 ≠ k →
    own bld s q ≠ some (b + 574)

theorem Sound.destroyed (hd : Destroyed k s s') (h : Sound bld s) (hlive : Live s k)
    (hcurrent : Current bld s k) (hapart : Apart bld s k) : Sound bld s' where
  toOwned := h.toOwned.destroyed hd hlive hcurrent
  bits := fun q b hq ↦ by
    have hown := own_destroyed hd h.toOwned hlive hcurrent q
    rw [hq] at hown
    split_ifs at hown with hk
    obtain ⟨j, hj, rfl, hset⟩ := h.bits q b hown.symm
    refine ⟨j, hj, rfl, ?_⟩
    rw [Store.dataBit, hd.dataBitmap, bit_toggleDataBits_of_notMem ?_ hj ?_]
    · exact hset
    · exact fun b hb ↦ released_cases h.toOwned hlive hcurrent hb
    · intro hmem
      rcases mem_released h.toOwned hlive hcurrent hmem with hzero | ⟨p, hp⟩
      · omega
      · refine hapart p _ hp q hk ?_
        rw [← hown]
        push_cast
        ring_nf

end OsAssignments.Objstore
