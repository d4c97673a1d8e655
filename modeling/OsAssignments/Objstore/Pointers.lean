import OsAssignments.Library.Ownership
import OsAssignments.Objstore.Data

/-!
# The blocks that objects refer to

A `Place` of a record can hold a block number: a direct pointer, an indirect pointer, or an entry
of an indirect block. `own` maps the places of live objects to the blocks they refer to, the
entries being looked up in the contents of the indirect blocks, so that the object table and the
blocks behind it become one ownership map in the sense of `Library.Ownership`.

A store is `Owned` when every block has at most one place, lies in the data region, and the ids of
live objects are distinct. It is `Sound` when moreover the bit of every such block is set. The
three kinds of write act on the ownership map as updates with fresh blocks, `own_direct`,
`own_first` and `own_next`, and on the contents of the data places as updates with the data
written, `content_direct`, `content_first` and `content_next`.
-/

set_option autoImplicit false
set_option relaxedAutoImplicit false

namespace OsAssignments.Objstore

open Library Library.Ownership

/-! ### Places -/

/-- A place of a record that can hold a block number. -/
inductive Place
  | direct (i : Fin 4)
  | indirect (r : Fin 4)
  | entry (r : Fin 4) (i : Fin 1024)
  deriving DecidableEq

namespace Place

/-- The field of the record through which a place is reached. -/
def field : Place → Field
  | direct i => .direct i
  | indirect r => .indirect r
  | entry r _ => .indirect r

/-- The places that hold the number of a block of user data. -/
def IsData : Place → Prop
  | indirect _ => False
  | _ => True

instance (p : Place) : Decidable p.IsData := by
  cases p <;> unfold IsData <;> infer_instance

/-- The place of the data of block index `a`. -/
def ofIndex (a : ℕ) : Place :=
  if h : a < 4 then direct ⟨a, h⟩
  else entry ⟨(a - 4) / 1024 % 4, range_lt a⟩
    ⟨(a - 4) % 1024, Nat.mod_lt _ (by norm_num)⟩

theorem ofIndex_direct {a : ℕ} (ha : a < 4) : ofIndex a = direct ⟨a, ha⟩ := dif_pos ha

theorem ofIndex_entry {r i : ℕ} (hr : r < 4) (hi : i < 1024) :
    ofIndex (4 + 1024 * r + i) = entry ⟨r, hr⟩ ⟨i, hi⟩ := by
  rw [ofIndex, dif_neg (by omega), entry.injEq]
  exact ⟨Fin.ext (show (4 + 1024 * r + i - 4) / 1024 % 4 = r by omega),
    Fin.ext (show (4 + 1024 * r + i - 4) % 1024 = i by omega)⟩

/-- A block index past the direct ones lies in one of the four ranges. -/
theorem index_cases {a : ℕ} (ha : a < 4100) :
    a < 4 ∨ ∃ r i : ℕ, r < 4 ∧ i < 1024 ∧ a = 4 + 1024 * r + i := by
  by_cases hdirect : a < 4
  · exact Or.inl hdirect
  · exact Or.inr ⟨(a - 4) / 1024, (a - 4) % 1024, by omega, by omega, by omega⟩

theorem isData_ofIndex (a : ℕ) : (ofIndex a).IsData := by
  unfold ofIndex
  split_ifs <;> trivial

theorem ofIndex_inj {a a' : ℕ} (ha : a < 4100) (ha' : a' < 4100) (h : ofIndex a = ofIndex a') :
    a = a' := by
  rcases index_cases ha with hd | ⟨r, i, hr, hi, rfl⟩ <;>
    rcases index_cases ha' with hd' | ⟨r', i', hr', hi', rfl⟩
  · rw [ofIndex_direct hd, ofIndex_direct hd', direct.injEq] at h
    exact congrArg Fin.val h
  · rw [ofIndex_direct hd, ofIndex_entry hr' hi'] at h
    cases h
  · rw [ofIndex_entry hr hi, ofIndex_direct hd'] at h
    cases h
  · rw [ofIndex_entry hr hi, ofIndex_entry hr' hi', entry.injEq] at h
    have hrange : r = r' := congrArg Fin.val h.1
    have hentry : i = i' := congrArg Fin.val h.2
    rw [hrange, hentry]

end Place

/-! ### The ownership map -/

instance (s : Store) (k : ℕ) : Decidable (Live s k) :=
  decidable_of_iff (k < 1015808 ∧ s.inodeBit k = true ∧ s.field k .id ≠ 0)
    ⟨fun h ↦ ⟨h.1, h.2.1, h.2.2⟩, fun h ↦ ⟨h.slot, h.bit, h.id⟩⟩

/-- The number in a place of slot `k`; a missing indirect block has no entries. -/
def ptr (bld : Build) (s : Store) (k : ℕ) : Place → ℤ
  | .direct i => s.field k (.direct i)
  | .indirect r => s.field k (.indirect r)
  | .entry r i =>
    if s.field k (.indirect r) = 0 then 0
    else (logical bld s.dev (s.field k (.indirect r)).toNat).int i

/-- The block a place of a live object refers to. -/
def own (bld : Build) (s : Store) (q : ℕ × Place) : Option ℤ :=
  if Live s q.1 ∧ ptr bld s q.1 q.2 ≠ 0 then some (ptr bld s q.1 q.2) else none

/-- The content of the block a place of a live object refers to. -/
def content (bld : Build) (s : Store) (q : ℕ × Place) : Option Block :=
  (own bld s q).map fun b ↦ logical bld s.dev b.toNat

/-- The block numbers of the data region. -/
def dataRegion : Set ℤ := {b | 22815 ≤ b ∧ b < 8411423}

/-- The blocks whose bit in `data_bitmap` is set. -/
def allocatedBlocks (s : Store) : Set ℤ :=
  {b | ∃ j < 8388608, b = ((22815 + j : ℕ) : ℤ) ∧ s.dataBit j = true}

/-- No two places of live objects refer to one block, and all refer to the data region. -/
structure Owned (bld : Build) (s : Store) : Prop where
  exclusive : Exclusive (own bld s)
  region : Backed (own bld s) dataRegion
  ids : ∀ k k', Live s k → Live s k' → s.field k .id = s.field k' .id → k = k'
  dev : BuildOk bld s.dev

/-- The blocks referred to are moreover allocated. -/
structure Sound (bld : Build) (s : Store) : Prop extends Owned bld s where
  bits : Backed (own bld s) (allocatedBlocks s)

variable {bld bld' : Build} {s s' : Store} {k k' len j : ℕ} {p : Place} {b : ℤ} {x : Block}

theorem own_eq_some : own bld s (k, p) = some b ↔ Live s k ∧ ptr bld s k p = b ∧ b ≠ 0 := by
  unfold own
  split_ifs with h
  · constructor
    · rintro ⟨rfl⟩
      exact ⟨h.1, rfl, h.2⟩
    · rintro ⟨-, rfl, -⟩
      rfl
  · constructor
    · exact fun hnone ↦ nomatch hnone
    · rintro ⟨hlive, rfl, hne⟩
      exact absurd ⟨hlive, hne⟩ h

theorem own_of_ne_zero (hlive : Live s k) (hne : ptr bld s k p ≠ 0) :
    own bld s (k, p) = some (ptr bld s k p) :=
  own_eq_some.mpr ⟨hlive, rfl, hne⟩

theorem own_of_eq_zero (hzero : ptr bld s k p = 0) : own bld s (k, p) = none :=
  if_neg fun h ↦ h.2 hzero

theorem own_of_not_live (hlive : ¬ Live s k) : own bld s (k, p) = none :=
  if_neg fun h ↦ hlive h.1

/-- An entry is owned through the indirect block of its range. -/
theorem own_indirect_of_entry {r : Fin 4} {i : Fin 1024}
    (h : own bld s (k, .entry r i) = some b) :
    own bld s (k, .indirect r) = some (s.field k (.indirect r)) := by
  obtain ⟨hlive, hptr, hne⟩ := own_eq_some.mp h
  refine own_of_ne_zero hlive fun hzero ↦ hne ?_
  rw [← hptr]
  exact if_pos hzero

/-- A place keeps its block when its field and the content of its indirect block are kept. -/
theorem own_congr (hlive : Live s' k ↔ Live s k)
    (hfield : s'.field k p.field = s.field k p.field)
    (hblock : ∀ r i, p = .entry r i → ∀ b, own bld s (k, .indirect r) = some b →
      (logical bld' s'.dev b.toNat).int i = (logical bld s.dev b.toNat).int i) :
    own bld' s' (k, p) = own bld s (k, p) := by
  by_cases hk : Live s k
  · have hptr : ptr bld' s' k p = ptr bld s k p := by
      cases p with
      | direct i => exact hfield
      | indirect r => exact hfield
      | entry r i =>
        have hfield' : s'.field k (.indirect r) = s.field k (.indirect r) := hfield
        simp only [ptr, hfield']
        split_ifs with hzero
        · rfl
        · exact hblock r i rfl _ (own_of_ne_zero hk hzero)
    simp only [own, hptr, hlive]
  · rw [own_of_not_live hk, own_of_not_live fun h ↦ hk (hlive.mp h)]

theorem content_of_own (h : own bld s (k, p) = some b) :
    content bld s (k, p) = some (logical bld s.dev b.toNat) := by
  rw [content, h]
  rfl

theorem content_of_own_none (h : own bld s (k, p) = none) : content bld s (k, p) = none := by
  rw [content, h]
  rfl

/-- A place keeps its content when it keeps its block and the content of that block is kept. -/
theorem content_congr (hown : own bld' s' (k, p) = own bld s (k, p))
    (hblock : ∀ b, own bld s (k, p) = some b →
      logical bld' s'.dev b.toNat = logical bld s.dev b.toNat) :
    content bld' s' (k, p) = content bld s (k, p) := by
  unfold content
  rw [hown]
  cases h : own bld s (k, p) with
  | none => rfl
  | some b => exact congrArg some (hblock b h)

/-! ### Numbers of blocks -/

namespace Owned

theorem pos (h : Owned bld s) (hq : own bld s (k, p) = some b) : 22815 ≤ b := (h.region _ _ hq).1

/-- A block number of a place, as a natural number. -/
theorem eq_natCast (h : Owned bld s) (hq : own bld s (k, p) = some b) : ((b.toNat : ℕ) : ℤ) = b :=
  Int.toNat_of_nonneg (by have := h.pos hq; omega)

/-- A block that no place refers to differs from the block of a place. -/
theorem ne_of_fresh (h : Owned bld s) {n : ℕ} (hfresh : ∀ q, own bld s q ≠ some (n : ℤ))
    (hq : own bld s (k, p) = some b) : b.toNat ≠ n := by
  rintro rfl
  exact hfresh _ (by rw [h.eq_natCast hq]; exact hq)

theorem toNat_inj (h : Owned bld s) {b' : ℤ} {p' : Place} (hq : own bld s (k, p) = some b)
    (hq' : own bld s (k', p') = some b') (hb : b.toNat = b'.toNat) : (k, p) = (k', p') := by
  have hbb : b = b' := by rw [← h.eq_natCast hq, ← h.eq_natCast hq', hb]
  exact h.exclusive _ _ b hq (hbb ▸ hq')

end Owned

end OsAssignments.Objstore
