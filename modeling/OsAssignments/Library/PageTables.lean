import Mathlib

/-!
# Radix page tables in memory

Page-table entries of 64 bits, with the present bit and a frame number above the low 12 bits, in
frames of 512 entries. `Describes depth m T` says that a memory holds a tree of tables: `T` gives
the frame at each path of indices that has one (deepest index first), no frame stands at two table
paths, and the entries of a table say exactly which paths below it have a frame. A table has a path
of length at most `depth`; below it are the pages.

`Describes.write` is the one rule for a write to an entry, and its consequences are the steps of a
walk that builds or dismantles a tree: adding a table, adding a page, changing the permission bits
of an entry, clearing an entry.
-/

set_option autoImplicit false
set_option relaxedAutoImplicit false

namespace OsAssignments.Library

/-- A page-table entry. -/
abbrev Entry := BitVec 64

/-- A page frame number. -/
abbrev Pfn := BitVec 32

/-! ### Entries -/

namespace Entry

/-- The present bit. -/
def Present (e : Entry) : Prop := e &&& 1 = 1

instance (e : Entry) : Decidable (Present e) := inferInstanceAs (Decidable (_ = _))

/-- The frame number of an entry. -/
def pfn (e : Entry) : Pfn := (e >>> 12).setWidth 32

theorem and_one (e : Entry) : e &&& 1 = if e.getLsbD 0 then 1 else 0 := by
  rw [show (1 : BitVec 64) = 1#64 from rfl, BitVec.and_one_eq_setWidth_ofBool_getLsbD]
  cases e.getLsbD 0 <;> rfl

theorem not_present_iff (e : Entry) : ¬Present e ↔ e &&& 1 = 0 := by
  rw [Present, and_one]
  cases e.getLsbD 0 <;> simp

theorem present_or_bits (e bits : Entry) (h : Present e ∨ Present bits) : Present (e ||| bits) := by
  have hbit : ∀ e, Present e ↔ e.getLsbD 0 = true := by
    intro e
    rw [Present, and_one]
    cases e.getLsbD 0 <;> simp
  rw [hbit, BitVec.getLsbD_or, Bool.or_eq_true, ← hbit, ← hbit]
  exact h

/-- Setting bits below bit 12 does not change the frame number. -/
theorem pfn_or (e bits : Entry) (hbits : bits.toNat < 2 ^ 12) : pfn (e ||| bits) = pfn e := by
  have hhigh : ∀ i, 12 ≤ i → bits.getLsbD i = false := fun i hi ↦
    Nat.testBit_lt_two_pow (hbits.trans_le (Nat.pow_le_pow_right (by norm_num) hi))
  apply BitVec.eq_of_getLsbD_eq
  intro i hi
  simp only [pfn, BitVec.getLsbD_setWidth, BitVec.getLsbD_ushiftRight, BitVec.getLsbD_or,
    hhigh _ (Nat.le_add_right 12 i), Bool.or_false]

/-- A frame number shifted into place in 32 bits is read back when it is below `2 ^ 20`. -/
theorem pfn_shift (f : Pfn) (hf : f.toNat < 2 ^ 20) : pfn ((f <<< 12).setWidth 64) = f := by
  have hhigh : ∀ i, 20 ≤ i → f.getLsbD i = false := fun i hi ↦
    Nat.testBit_lt_two_pow (hf.trans_le (Nat.pow_le_pow_right (by norm_num) hi))
  apply BitVec.eq_of_getLsbD_eq
  intro i hi
  rw [pfn, BitVec.getLsbD_setWidth, BitVec.getLsbD_ushiftRight, BitVec.getLsbD_setWidth,
    BitVec.getLsbD_shiftLeft, Nat.add_sub_cancel_left]
  by_cases h : i < 20
  · simp [hi, show 12 + i < 64 by omega, show 12 + i < 32 by omega]
  · rw [hhigh i (by omega)]
    simp

end Entry

/-- What an entry says about the frame below it. -/
def Encodes (e : Entry) : Option Pfn → Prop
  | none => e = 0
  | some f => e.Present ∧ e.pfn = f

theorem Encodes.not_present {e : Entry} (h : Encodes e none) : ¬e.Present := by
  rw [show e = 0 from h]
  decide

theorem Encodes.bit_eq_zero {e : Entry} (h : Encodes e none) : e &&& 1 = 0 :=
  (Entry.not_present_iff e).mp h.not_present

theorem Encodes.bit_ne_zero {e : Entry} {f : Pfn} (h : Encodes e (some f)) : ¬e &&& 1 = 0 := by
  rw [← Entry.not_present_iff, not_not]
  exact h.1

/-- Setting permission bits of an entry. -/
theorem Encodes.or_bits {e : Entry} {f : Pfn} (h : Encodes e (some f)) (bits : Entry)
    (hbits : bits.toNat < 2 ^ 12) : Encodes (e ||| bits) (some f) :=
  ⟨Entry.present_or_bits _ _ (.inl h.1), (Entry.pfn_or _ _ hbits).trans h.2⟩

/-- The bit that permits writing. -/
def Entry.Writable (e : Entry) : Prop := e.getLsbD 1 = true

/-- The bit that permits user access. -/
def Entry.User (e : Entry) : Prop := e.getLsbD 2 = true

instance (e : Entry) : Decidable e.Writable := inferInstanceAs (Decidable (_ = true))

instance (e : Entry) : Decidable e.User := inferInstanceAs (Decidable (_ = true))

theorem Entry.writable_or (e bits : Entry) :
    (e ||| bits).Writable ↔ e.Writable ∨ bits.Writable := by
  rw [Writable, BitVec.getLsbD_or, Bool.or_eq_true]
  rfl

theorem Entry.user_or (e bits : Entry) : (e ||| bits).User ↔ e.User ∨ bits.User := by
  rw [User, BitVec.getLsbD_or, Bool.or_eq_true]
  rfl

/-! ### Tables in memory -/

/-- The entries of the page-table frames. -/
abbrev Tables := Pfn → ℕ → Entry

namespace Tables

/-- The tables after one entry is written. -/
def set (m : Tables) (t : Pfn) (i : ℕ) (e : Entry) : Tables :=
  Function.update m t (Function.update (m t) i e)

/-- The tables after the 512 entries of a frame are zeroed. -/
def zero (m : Tables) (t : Pfn) : Tables :=
  Function.update m t fun i ↦ if i < 512 then 0 else m t i

variable {m : Tables} {t u : Pfn} {i j : ℕ} {e e' : Entry}

@[simp] theorem set_same : m.set t i e t i = e := by
  rw [set, Function.update_self, Function.update_self]

theorem set_of_ne_index (h : j ≠ i) : m.set t i e t j = m t j := by
  rw [set, Function.update_self, Function.update_of_ne h]

theorem set_of_ne (h : u ≠ t) : m.set t i e u = m u := Function.update_of_ne h ..

@[simp] theorem set_set : (m.set t i e).set t i e' = m.set t i e' := by
  simp only [set, Function.update_self, Function.update_idem]

theorem zero_same (hi : i < 512) : m.zero t t i = 0 := by
  rw [zero, Function.update_self, if_pos hi]

theorem zero_of_ne (h : u ≠ t) : m.zero t u = m u := Function.update_of_ne h ..

end Tables

/-! ### Trees of tables -/

/-- A place in a tree: the indices on the way from the root, deepest first. -/
abbrev TablePath := List ℕ

/-- The memory holds the tree `T`. -/
structure Describes (depth : ℕ) (m : Tables) (T : TablePath → Option Pfn) : Prop where
  inj : ∀ {π ρ : TablePath} {f : Pfn}, π.length ≤ depth → ρ.length ≤ depth → T π = some f →
    T ρ = some f → π = ρ
  entry : ∀ {π : TablePath} {f : Pfn} {i : ℕ}, π.length ≤ depth → i < 512 → T π = some f →
    Encodes (m f i) (T (i :: π))

namespace Describes

variable {depth : ℕ} {m : Tables} {T : TablePath → Option Pfn} {π : TablePath} {t f : Pfn}
  {i : ℕ} {e : Entry}

/-- Memory outside the tables does not matter. -/
theorem congr {m' : Tables} (h : Describes depth m T)
    (hsame : ∀ π f, π.length ≤ depth → T π = some f → m' f = m f) : Describes depth m' T where
  inj := h.inj
  entry := fun {π f i} hπ hi hf ↦ by
    rw [hsame π f hπ hf]
    exact h.entry hπ hi hf

/-- A write to an entry of a table. A table that appears below it must be new, and say itself what
is below it. -/
theorem write {o : Option Pfn} (h : Describes depth m T) (hπ : π.length ≤ depth)
    (ht : T π = some t) (he : Encodes e o)
    (hnew : ∀ f, o = some f → π.length < depth →
      (∀ ρ : TablePath, ρ.length ≤ depth → ρ ≠ i :: π → T ρ ≠ some f) ∧
        ∀ j < 512, Encodes (m f j) (T (j :: i :: π))) :
    Describes depth (m.set t i e) (Function.update T (i :: π) o) := by
  have hlonger : ∀ ρ : TablePath, ρ ≠ i :: ρ := fun ρ heq ↦ by
    have hlength := congrArg List.length heq
    simp at hlength
  refine ⟨fun {ρ σ f} hρ hσ hfρ hfσ ↦ ?_, fun {ρ f j} hρ hj hf ↦ ?_⟩
  · rw [Function.update_apply] at hfρ hfσ
    split_ifs at hfρ hfσ with h₁ h₂ h₂
    · rw [h₁, h₂]
    · have hlt : π.length < depth := by
        rw [h₁, List.length_cons] at hρ
        omega
      exact absurd hfσ ((hnew f hfρ hlt).1 σ hσ h₂)
    · have hlt : π.length < depth := by
        rw [h₂, List.length_cons] at hσ
        omega
      exact absurd hfρ ((hnew f hfσ hlt).1 ρ hρ h₁)
    · exact h.inj hρ hσ hfρ hfσ
  · by_cases hnode : ρ = i :: π
    · -- the node that was written: its own entries are as they were
      have hlt : π.length < depth := by
        rw [hnode, List.length_cons] at hρ
        omega
      rw [hnode, Function.update_self] at hf
      obtain ⟨hfresh, hbelow⟩ := hnew f hf hlt
      have hft : f ≠ t := by
        rintro rfl
        exact hfresh π hπ (hlonger π) ht
      rw [Tables.set_of_ne hft, hnode, Function.update_of_ne]
      · exact hbelow j hj
      · intro heq
        have hlength := congrArg List.length heq
        simp at hlength
    · rw [Function.update_of_ne hnode] at hf
      by_cases hft : f = t
      · have hρπ : ρ = π := h.inj hρ hπ (hft ▸ hf) ht
        subst hρπ
        rw [hft]
        by_cases hij : j = i
        · rw [hij, Tables.set_same, Function.update_self]
          exact he
        · rw [Tables.set_of_ne_index hij, Function.update_of_ne (by simpa using hij)]
          exact h.entry hρ hj ht
      · rw [Tables.set_of_ne hft, Function.update_of_ne]
        · exact h.entry hρ hj hf
        · intro heq
          rw [List.cons.injEq] at heq
          rw [heq.2, ht] at hf
          exact hft (Option.some.inj hf).symm

/-- A write that leaves the frame below an entry as it is. -/
theorem rewrite (h : Describes depth m T) (hπ : π.length ≤ depth) (ht : T π = some t)
    (he : Encodes e (T (i :: π))) : Describes depth (m.set t i e) T := by
  have hwrite := h.write hπ ht he fun f hf hlt ↦ ⟨fun ρ hρ hne hfρ ↦
    hne (h.inj hρ hlt hfρ hf), fun j hj ↦ h.entry hlt hj hf⟩
  rwa [Function.update_eq_self] at hwrite

/-- A new table below an entry. -/
theorem add_table (h : Describes depth m T) (hπ : π.length < depth) (ht : T π = some t)
    (he : Encodes e (some f)) (hfresh : ∀ ρ : TablePath, ρ.length ≤ depth → T ρ ≠ some f)
    (hbelow : ∀ j, T (j :: i :: π) = none) :
    Describes depth ((m.zero f).set t i e) (Function.update T (i :: π) (some f)) := by
  have hzero : Describes depth (m.zero f) T := by
    refine h.congr fun ρ u hρ hu ↦ Tables.zero_of_ne ?_
    rintro rfl
    exact hfresh ρ hρ hu
  refine hzero.write hπ.le ht he fun u hu _ ↦ ?_
  obtain rfl : f = u := Option.some.inj hu
  refine ⟨fun ρ hρ _ ↦ hfresh ρ hρ, fun j hj ↦ ?_⟩
  rw [hbelow j, Tables.zero_same hj]
  rfl

/-- A page below an entry of a table of the last level. -/
theorem add_page (h : Describes depth m T) (hπ : π.length = depth) (ht : T π = some t)
    (he : Encodes e (some f)) :
    Describes depth (m.set t i e) (Function.update T (i :: π) (some f)) :=
  h.write hπ.le ht he fun _ _ hlt ↦ absurd hlt (by omega)

/-- A cleared entry. -/
theorem clear (h : Describes depth m T) (hπ : π.length ≤ depth) (ht : T π = some t) :
    Describes depth (m.set t i 0) (Function.update T (i :: π) none) :=
  h.write hπ ht rfl fun _ hnone ↦ by cases hnone

/-- After a write that puts a frame below an entry, an entry of the tree is the one that was written
or an entry of the old tree. -/
theorem entry_update {ρ : TablePath} {u : Pfn} {j : ℕ} (h : Describes depth m T)
    (hπ : π.length ≤ depth) (ht : T π = some t)
    (hnew : T (i :: π) = some f ∨ ∀ j, T (j :: i :: π) = none) (hρ : ρ.length ≤ depth)
    (hu : Function.update T (i :: π) (some f) ρ = some u)
    (hne : Function.update T (i :: π) (some f) (j :: ρ) ≠ none) :
    (j :: ρ = i :: π ∧ m.set t i e u j = e) ∨
      j :: ρ ≠ i :: π ∧ T ρ = some u ∧ T (j :: ρ) ≠ none ∧ m.set t i e u j = m u j := by
  by_cases hplace : j :: ρ = i :: π
  · obtain ⟨rfl, rfl⟩ := List.cons.inj hplace
    rw [Function.update_of_ne (List.cons_ne_self j ρ).symm, ht] at hu
    obtain rfl := Option.some.inj hu
    exact .inl ⟨rfl, Tables.set_same⟩
  · rw [Function.update_of_ne hplace] at hne
    have hold : T ρ = some u := by
      by_cases hbelow : ρ = i :: π
      · rw [hbelow, Function.update_self] at hu
        rcases hnew with hsame | hnone
        · rw [hbelow, hsame, hu]
        · exact absurd (hbelow ▸ hnone j) hne
      · rwa [Function.update_of_ne hbelow] at hu
    refine .inr ⟨hplace, hold, hne, ?_⟩
    by_cases hut : u = t
    · have hρπ : ρ = π := h.inj hρ hπ hold (hut ▸ ht)
      rw [hut, Tables.set_of_ne_index fun hji ↦ hplace (by rw [hji, hρπ])]
    · rw [Tables.set_of_ne hut]

end Describes

/-! ### Closed trees -/

section Closed

variable {depth : ℕ} {T : TablePath → Option Pfn} {π ρ : TablePath} {t f : Pfn} {i : ℕ}

/-- Nothing is below a place that is not in the tree. -/
theorem closed_append (hclosed : ∀ π i, T π = none → T (i :: π) = none) (hnone : T π = none)
    (ρ : TablePath) : T (ρ ++ π) = none := by
  induction ρ with
  | nil => exact hnone
  | cons i ρ ih => exact hclosed _ i ih

/-- Every place above a place in the tree is in the tree. -/
theorem ne_none_of_suffix (hclosed : ∀ π i, T π = none → T (i :: π) = none) (hsuffix : ρ <:+ π)
    (hne : T π ≠ none) : T ρ ≠ none := by
  obtain ⟨σ, rfl⟩ := hsuffix
  exact fun hnone ↦ hne (closed_append hclosed hnone σ)

/-- A place below one in the tree keeps the tree closed. -/
theorem closed_update (hclosed : ∀ π i, T π = none → T (i :: π) = none) (ht : T π = some t)
    (f : Pfn) (ρ : TablePath) (j : ℕ) (hρ : Function.update T (i :: π) (some f) ρ = none) :
    Function.update T (i :: π) (some f) (j :: ρ) = none := by
  rw [Function.update_apply] at hρ
  split_ifs at hρ
  rw [Function.update_of_ne]
  · exact hclosed ρ j hρ
  · intro heq
    rw [List.cons.injEq] at heq
    rw [heq.2, ht] at hρ
    cases hρ

/-- So does it keep the places within the depth and the indices within the tables. -/
theorem inside_update (hinside : ∀ π, T π ≠ none → π.length ≤ depth + 1 ∧ ∀ i ∈ π, i < 512)
    (hπ : π.length ≤ depth) (hi : i < 512) (ht : T π = some t)
    (hρ : Function.update T (i :: π) (some f) ρ ≠ none) :
    ρ.length ≤ depth + 1 ∧ ∀ j ∈ ρ, j < 512 := by
  rw [Function.update_apply] at hρ
  split_ifs at hρ with heq
  · rw [heq, List.length_cons]
    have hindices := (hinside π (by rw [ht]; exact Option.some_ne_none _)).2
    exact ⟨by omega, List.forall_mem_cons.mpr ⟨hi, hindices⟩⟩
  · exact hinside ρ hρ

end Closed

/-! ### Permissions -/

/-- Every entry of the tree permits user access, and exactly those at the places `W` permit
writing. -/
structure Marked (depth : ℕ) (m : Tables) (T : TablePath → Option Pfn) (W : TablePath → Prop) :
    Prop where
  user : ∀ {π : TablePath} {t : Pfn} {i : ℕ}, π.length ≤ depth → i < 512 → T π = some t →
    T (i :: π) ≠ none → (m t i).User
  writable : ∀ {π : TablePath} {t : Pfn} {i : ℕ}, π.length ≤ depth → i < 512 → T π = some t →
    T (i :: π) ≠ none → ((m t i).Writable ↔ W (i :: π))
  inside : ∀ ρ, W ρ → T ρ ≠ none

namespace Marked

variable {depth : ℕ} {m : Tables} {T : TablePath → Option Pfn} {W W' : TablePath → Prop}
  {π : TablePath} {t f : Pfn} {i : ℕ} {e : Entry}

theorem congr {m' : Tables} (h : Marked depth m T W)
    (hsame : ∀ π f, π.length ≤ depth → T π = some f → m' f = m f) (hW : ∀ ρ, W' ρ ↔ W ρ) :
    Marked depth m' T W' where
  user := fun {π t i} hπ hi ht hne ↦ by
    rw [hsame π t hπ ht]
    exact h.user hπ hi ht hne
  writable := fun {π t i} hπ hi ht hne ↦ by
    rw [hsame π t hπ ht, hW]
    exact h.writable hπ hi ht hne
  inside := fun ρ hρ ↦ h.inside ρ ((hW ρ).mp hρ)

/-- A frame that is no table is zeroed. -/
theorem zero (h : Marked depth m T W)
    (hfresh : ∀ ρ : TablePath, ρ.length ≤ depth → T ρ ≠ some f) : Marked depth (m.zero f) T W :=
  h.congr (fun ρ _ hρ hu ↦ Tables.zero_of_ne fun heq ↦ hfresh ρ hρ (heq ▸ hu)) fun _ ↦ Iff.rfl

/-- A write to an entry of a table that keeps the frame below it, or puts one there that is no table
and has nothing below it. -/
theorem write (hd : Describes depth m T) (h : Marked depth m T W) (hπ : π.length ≤ depth)
    (ht : T π = some t) (huser : e.User) (hwritable : e.Writable ↔ W' (i :: π))
    (hW : ∀ ρ, ρ ≠ i :: π → (W' ρ ↔ W ρ))
    (hnew : T (i :: π) = some f ∨ ∀ j, T (j :: i :: π) = none) :
    Marked depth (m.set t i e) (Function.update T (i :: π) (some f)) W' := by
  refine ⟨fun hρ hj hu hne ↦ ?_, fun hρ hj hu hne ↦ ?_, fun ρ hρ ↦ ?_⟩
  · rcases hd.entry_update hπ ht hnew hρ hu hne with ⟨-, heq⟩ | ⟨-, hu, hne, heq⟩
    · rwa [heq]
    · rw [heq]
      exact h.user hρ hj hu hne
  · rcases hd.entry_update hπ ht hnew hρ hu hne with ⟨hplace, heq⟩ | ⟨hplace, hu, hne, heq⟩
    · rw [heq, hplace]
      exact hwritable
    · rw [heq, hW _ hplace]
      exact h.writable hρ hj hu hne
  · by_cases hplace : ρ = i :: π
    · rw [hplace, Function.update_self]
      exact Option.some_ne_none f
    · rw [Function.update_of_ne hplace]
      exact h.inside ρ ((hW ρ hplace).mp hρ)

/-- A write that keeps the frame below an entry. -/
theorem rewrite (hd : Describes depth m T) (h : Marked depth m T W) (hπ : π.length ≤ depth)
    (ht : T π = some t) (hne : T (i :: π) ≠ none) (huser : e.User)
    (hwritable : e.Writable ↔ W' (i :: π)) (hW : ∀ ρ, ρ ≠ i :: π → (W' ρ ↔ W ρ)) :
    Marked depth (m.set t i e) T W' := by
  obtain ⟨f, hf⟩ := Option.ne_none_iff_exists'.mp hne
  have hwrite := h.write hd hπ ht huser hwritable hW (.inl hf)
  rwa [← hf, Function.update_eq_self] at hwrite

end Marked

/-! ### Walks -/

/-- The entries that the hardware passes on the way along some indices from a table; it fails at an
entry that is not present. -/
def walk (m : Tables) : List ℕ → Pfn → Option (List Entry)
  | [], _ => some []
  | i :: rest, t =>
    if (m t i).Present then (walk m rest (m t i).pfn).map fun es ↦ m t i :: es else none

section Walk

variable {depth : ℕ} {m : Tables} {T : TablePath → Option Pfn} {W : TablePath → Prop}
  {π : TablePath} {t f : Pfn} {rest : List ℕ}

/-- A walk fails where the tree has no place. -/
theorem Describes.walk_none (h : Describes depth m T) (ht : T π = some t)
    (hlen : rest.length + π.length ≤ depth + 1) (hidx : ∀ i ∈ rest, i < 512)
    (hnone : T (rest.reverse ++ π) = none) : walk m rest t = none := by
  induction rest generalizing π t with
  | nil =>
    rw [List.reverse_nil, List.nil_append, ht] at hnone
    cases hnone
  | cons i rest ih =>
    rw [List.length_cons] at hlen
    have hentry := h.entry (by omega) (hidx i List.mem_cons_self) ht
    rw [walk]
    cases hbelow : T (i :: π) with
    | none =>
      rw [hbelow] at hentry
      exact if_neg hentry.not_present
    | some f =>
      rw [hbelow] at hentry
      have hplace : (i :: rest).reverse ++ π = rest.reverse ++ i :: π := by simp
      rw [if_pos hentry.1, hentry.2, ih hbelow (by rw [List.length_cons]; omega)
        (fun j hj ↦ hidx j (List.mem_cons_of_mem i hj)) (hplace ▸ hnone), Option.map_none]

/-- A walk passes the same entries in two memories that differ, as far as the tree goes, only in the
entries of some pages, and the walk is to none of these. -/
theorem Describes.walk_congr {m' : Tables} {R : List TablePath} (h : Describes depth m T)
    (hR : ∀ ρ ∈ R, ρ.length = depth + 1)
    (hsame : ∀ {ρ : TablePath} {u : Pfn} {j : ℕ}, ρ.length ≤ depth → j < 512 → T ρ = some u →
      j :: ρ ∉ R → m' u j = m u j) (ht : T π = some t)
    (hlen : rest.length + π.length ≤ depth + 1) (hidx : ∀ i ∈ rest, i < 512)
    (hout : rest.reverse ++ π ∉ R) : walk m' rest t = walk m rest t := by
  induction rest generalizing π t with
  | nil => rfl
  | cons i rest ih =>
    rw [List.length_cons] at hlen
    have hi := hidx i List.mem_cons_self
    have hplace : (i :: rest).reverse ++ π = rest.reverse ++ i :: π := by simp
    rw [hplace] at hout
    have hentry := h.entry (by omega) hi ht
    have heq : m' t i = m t i := by
      refine hsame (by omega) hi ht fun hmem ↦ ?_
      have hlast := hR _ hmem
      rw [List.length_cons] at hlast
      obtain rfl : rest = [] := List.length_eq_zero_iff.mp (by omega)
      exact hout hmem
    rw [walk, walk, heq]
    cases hbelow : T (i :: π) with
    | none =>
      rw [hbelow] at hentry
      rw [if_neg hentry.not_present, if_neg hentry.not_present]
    | some f =>
      rw [hbelow] at hentry
      rw [if_pos hentry.1, if_pos hentry.1, hentry.2, ih hbelow (by rw [List.length_cons]; omega)
        (fun j hj ↦ hidx j (List.mem_cons_of_mem i hj)) hout]

/-- A walk has an entry for each index. -/
theorem length_of_walk {es : List Entry} (h : walk m rest t = some es) :
    es.length = rest.length := by
  induction rest generalizing t es with
  | nil =>
    obtain rfl : [] = es := Option.some.inj h
    rfl
  | cons i rest ih =>
    rw [walk] at h
    split_ifs at h
    obtain ⟨es', hes', rfl⟩ := Option.map_eq_some_iff.mp h
    rw [List.length_cons, List.length_cons, ih hes']

/-- A walk ends at the frame that the tree has at its place. -/
theorem Describes.walk_last (h : Describes depth m T)
    (hclosed : ∀ π i, T π = none → T (i :: π) = none) (ht : T π = some t)
    (hlen : rest.length + π.length ≤ depth + 1) (hidx : ∀ i ∈ rest, i < 512) (hrest : rest ≠ []) :
    ((walk m rest t).bind fun es ↦ es.getLast?.map Entry.pfn) = T (rest.reverse ++ π) := by
  induction rest generalizing π t with
  | nil => exact absurd rfl hrest
  | cons i rest ih =>
    rw [List.length_cons] at hlen
    have hentry := h.entry (by omega) (hidx i List.mem_cons_self) ht
    have hplace : (i :: rest).reverse ++ π = rest.reverse ++ i :: π := by simp
    rw [hplace, walk]
    cases hbelow : T (i :: π) with
    | none =>
      rw [hbelow] at hentry
      rw [if_neg hentry.not_present, closed_append hclosed hbelow]
      rfl
    | some f =>
      rw [hbelow] at hentry
      rw [if_pos hentry.1, hentry.2]
      by_cases hempty : rest = []
      · subst hempty
        exact (congrArg some hentry.2).trans hbelow.symm
      · rw [← ih hbelow (by rw [List.length_cons]; omega)
          (fun j hj ↦ hidx j (List.mem_cons_of_mem i hj)) hempty, Option.bind_map]
        cases hwalk : walk m rest f with
        | none => rfl
        | some es =>
          have hne : es ≠ [] := fun hnil ↦ hempty (by
            have hlength := length_of_walk hwalk
            rw [hnil] at hlength
            exact List.length_eq_zero_iff.mp hlength.symm)
          obtain ⟨e, es, rfl⟩ := List.exists_cons_of_ne_nil hne
          simp only [Option.bind_some, Function.comp_apply, List.getLast?_cons_cons]

theorem suffix_length_succ {p : TablePath} {i : ℕ} (hp : i :: π <:+ p) {ρ : TablePath}
    (hρ : ρ <:+ p) (hlength : ρ.length = π.length + 1) : ρ = i :: π :=
  (List.suffix_of_suffix_length_le hρ hp (by simp [hlength])).eq_of_length (by simp [hlength])

/-- A walk to a place in the tree passes exactly the entries on the way. -/
theorem Describes.walk_entries (h : Describes depth m T)
    (hclosed : ∀ π i, T π = none → T (i :: π) = none) (ht : T π = some t)
    (hlen : rest.length + π.length ≤ depth + 1) (hidx : ∀ i ∈ rest, i < 512)
    (hne : T (rest.reverse ++ π) ≠ none) :
    ∃ es, walk m rest t = some es ∧
      (∀ e ∈ es, ∃ (σ : TablePath) (u : Pfn) (j : ℕ), j ∈ rest ∧ j :: σ <:+ rest.reverse ++ π ∧
        π.length ≤ σ.length ∧ T σ = some u ∧ m u j = e) ∧
      ∀ (σ : TablePath) (u : Pfn) (j : ℕ), j :: σ <:+ rest.reverse ++ π → π.length ≤ σ.length →
        T σ = some u → j ∈ rest ∧ m u j ∈ es := by
  induction rest generalizing π t with
  | nil =>
    refine ⟨[], rfl, fun e he ↦ absurd he List.not_mem_nil, fun σ u j hσ hle _ ↦ ?_⟩
    have hlength := hσ.length_le
    rw [List.reverse_nil, List.nil_append, List.length_cons] at hlength
    omega
  | cons i rest ih =>
    rw [List.length_cons] at hlen
    have hplace : (i :: rest).reverse ++ π = rest.reverse ++ i :: π := by simp
    rw [hplace] at hne ⊢
    have hsuffix : i :: π <:+ rest.reverse ++ i :: π := List.suffix_append _ _
    obtain ⟨g, hg⟩ := Option.ne_none_iff_exists'.mp (ne_none_of_suffix hclosed hsuffix hne)
    have hentry := h.entry (by omega) (hidx i List.mem_cons_self) ht
    rw [hg] at hentry
    obtain ⟨es, hwalk, hes, hmem⟩ := ih hg (by rw [List.length_cons]; omega)
      (fun j hj ↦ hidx j (List.mem_cons_of_mem i hj)) hne
    refine ⟨m t i :: es, ?_, fun e he ↦ ?_, fun σ u j hσ hle hu ↦ ?_⟩
    · rw [walk, if_pos hentry.1, hentry.2, hwalk, Option.map_some]
    · rcases List.mem_cons.mp he with rfl | he
      · exact ⟨π, t, i, List.mem_cons_self, hsuffix, le_rfl, ht, rfl⟩
      · obtain ⟨σ, u, j, hj, hσ, hle, hu, rfl⟩ := hes e he
        rw [List.length_cons] at hle
        exact ⟨σ, u, j, List.mem_cons_of_mem i hj, hσ, by omega, hu, rfl⟩
    · rcases hle.eq_or_lt with heq | hlt
      · obtain ⟨rfl, rfl⟩ := List.cons.inj (suffix_length_succ hsuffix hσ (by simp [heq]))
        rw [← Option.some.inj (ht.symm.trans hu)]
        exact ⟨List.mem_cons_self, List.mem_cons_self⟩
      · obtain ⟨hj, he⟩ := hmem σ u j hσ (by rw [List.length_cons]; omega) hu
        exact ⟨List.mem_cons_of_mem i hj, List.mem_cons_of_mem _ he⟩

/-- A walk to a place in the tree passes one entry for each index, all of them for user access, and
all writable exactly when the places on the way are marked; the last one has the frame. -/
theorem Marked.walk_eq (hd : Describes depth m T) (h : Marked depth m T W)
    (hclosed : ∀ π i, T π = none → T (i :: π) = none)
    (ht : T π = some t) (hlen : rest.length + π.length ≤ depth + 1) (hidx : ∀ i ∈ rest, i < 512)
    (hf : T (rest.reverse ++ π) = some f) :
    ∃ es, walk m rest t = some es ∧ es.length = rest.length ∧ (∀ e ∈ es, e.User) ∧
      ((∀ e ∈ es, e.Writable) ↔
        ∀ ρ : TablePath, ρ <:+ rest.reverse ++ π → π.length < ρ.length → W ρ) ∧
      ∀ e ∈ es.getLast?, e.pfn = f := by
  have hne : T (rest.reverse ++ π) ≠ none := hf ▸ Option.some_ne_none f
  obtain ⟨es, hwalk, hes, hmem⟩ := hd.walk_entries hclosed ht hlen hidx hne
  have hshort : ∀ {j : ℕ} {σ : TablePath}, j :: σ <:+ rest.reverse ++ π → σ.length ≤ depth := by
    intro j σ hσ
    have hlength := hσ.length_le
    rw [List.length_cons, List.length_append, List.length_reverse] at hlength
    omega
  refine ⟨es, hwalk, length_of_walk hwalk, fun e he ↦ ?_,
    ⟨fun hall ρ hρ hlt ↦ ?_, fun hall e he ↦ ?_⟩, fun e he ↦ ?_⟩
  · obtain ⟨σ, u, j, hj, hσ, -, hu, rfl⟩ := hes e he
    exact h.user (hshort hσ) (hidx j hj) hu (ne_none_of_suffix hclosed hσ hne)
  · cases ρ with
    | nil => exact absurd hlt (Nat.not_lt_zero _)
    | cons j σ =>
      rw [List.length_cons] at hlt
      have hbelow := ne_none_of_suffix hclosed hρ hne
      obtain ⟨u, hu⟩ := Option.ne_none_iff_exists'.mp fun hnone ↦ hbelow (hclosed σ j hnone)
      obtain ⟨hj, he⟩ := hmem σ u j hρ (by omega) hu
      exact (h.writable (hshort hρ) (hidx j hj) hu hbelow).mp (hall _ he)
  · obtain ⟨σ, u, j, hj, hσ, hle, hu, rfl⟩ := hes e he
    refine (h.writable (hshort hσ) (hidx j hj) hu (ne_none_of_suffix hclosed hσ hne)).mpr ?_
    exact hall _ hσ (by rw [List.length_cons]; omega)
  · by_cases hrest : rest = []
    · subst hrest
      rw [← Option.some.inj hwalk] at he
      cases he
    · have hlast := hd.walk_last hclosed ht hlen hidx hrest
      rw [hwalk, Option.bind_some, Option.mem_def.mp he, Option.map_some, hf] at hlast
      exact Option.some.inj hlast

end Walk

end OsAssignments.Library
