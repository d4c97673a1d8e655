import Mathlib

/-!
# Directories

A directory has finitely many entries. Each entry keeps the last name it was given, and those in use
have a value. `lookup` finds the first entry in use with a name and `firstFree` the first one that
is not in use; `occupy` gives an entry a name and a value, `rename` gives it another name, and
`assign` changes its value or frees it, which leaves the name.

`Distinct` says that no two entries in use have the same name. Then a lookup finds the entry of a
name whichever it is (`Distinct.lookup`), and giving a name that is in use nowhere keeps it
(`Distinct.occupy`). `Embeds` relates a directory to a larger one with the same entries in use.
-/

set_option autoImplicit false
set_option relaxedAutoImplicit false

namespace OsAssignments.Library

/-- Entries with the last name of each and the value of those in use. -/
@[ext]
structure Directory (n : ℕ) (N V : Type*) where
  name : Fin n → N
  value : Fin n → Option V

namespace Directory

variable {n : ℕ} {N V : Type*} {d : Directory n N V} {i j : Fin n} {x y : N} {v : V}

/-- The entry is in use under a name. -/
def Has (d : Directory n N V) (i : Fin n) (x : N) : Prop := d.value i ≠ none ∧ d.name i = x

instance [DecidableEq N] (d : Directory n N V) (i : Fin n) (x : N) : Decidable (d.Has i x) :=
  decidable_of_iff ((d.value i).isSome ∧ d.name i = x)
    (and_congr_left fun _ ↦ Option.isSome_iff_ne_none)

/-- The first entry in use with a name. -/
def lookup [DecidableEq N] (d : Directory n N V) (x : N) : Option (Fin n) :=
  Fin.find? fun i ↦ (d.value i).isSome && decide (d.name i = x)

/-- The first entry that is not in use. -/
def firstFree (d : Directory n N V) : Option (Fin n) := Fin.find? fun i ↦ (d.value i).isNone

/-- The directory after an entry is given a value, or none; it keeps its name. -/
def assign (d : Directory n N V) (i : Fin n) (v : Option V) : Directory n N V where
  name := d.name
  value := Function.update d.value i v

/-- The directory after an entry is taken into use under a name. -/
def occupy (d : Directory n N V) (i : Fin n) (x : N) (v : V) : Directory n N V where
  name := Function.update d.name i x
  value := Function.update d.value i (some v)

/-- The directory after an entry is given another name. -/
def rename (d : Directory n N V) (i : Fin n) (x : N) : Directory n N V where
  name := Function.update d.name i x
  value := d.value

/-- The entries in use. -/
def used (d : Directory n N V) : Finset (Fin n) := Finset.univ.filter fun i ↦ (d.value i).isSome

/-- No two entries in use have the same name. -/
def Distinct (d : Directory n N V) : Prop :=
  ∀ i j, d.value i ≠ none → d.value j ≠ none → d.name i = d.name j → i = j

@[simp] theorem assign_name (i : Fin n) (v : Option V) : (d.assign i v).name = d.name := rfl

@[simp] theorem assign_value_self (i : Fin n) (v : Option V) : (d.assign i v).value i = v := by
  simp [assign]

theorem assign_value_of_ne (h : j ≠ i) (v : Option V) : (d.assign i v).value j = d.value j := by
  simp [assign, h]

@[simp] theorem occupy_name_self (i : Fin n) (x : N) (v : V) : (d.occupy i x v).name i = x := by
  simp [occupy]

@[simp] theorem occupy_value_self (i : Fin n) (x : N) (v : V) :
    (d.occupy i x v).value i = some v := by
  simp [occupy]

theorem occupy_name_of_ne (h : j ≠ i) (x : N) (v : V) : (d.occupy i x v).name j = d.name j := by
  simp [occupy, h]

theorem occupy_value_of_ne (h : j ≠ i) (x : N) (v : V) : (d.occupy i x v).value j = d.value j := by
  simp [occupy, h]

@[simp] theorem rename_value (i : Fin n) (x : N) : (d.rename i x).value = d.value := rfl

@[simp] theorem rename_name_self (i : Fin n) (x : N) : (d.rename i x).name i = x := by
  simp [rename]

theorem rename_name_of_ne (h : j ≠ i) (x : N) : (d.rename i x).name j = d.name j := by
  simp [rename, h]

/-! ### Lookup -/

theorem lookup_eq_some_iff [DecidableEq N] :
    d.lookup x = some i ↔ d.Has i x ∧ ∀ j < i, ¬ d.Has j x := by
  simp [lookup, Has, Option.isSome_iff_ne_none]

theorem lookup_eq_none_iff [DecidableEq N] : d.lookup x = none ↔ ∀ i, ¬ d.Has i x := by
  simp [lookup, Has, Option.isSome_iff_ne_none]

/-- What is there is found, or something before it. -/
theorem exists_lookup [DecidableEq N] (h : d.Has i x) : ∃ j, d.lookup x = some j ∧ j ≤ i := by
  cases hlookup : d.lookup x with
  | none => exact absurd h (lookup_eq_none_iff.mp hlookup i)
  | some j =>
    refine ⟨j, rfl, not_lt.mp fun hlt ↦ ?_⟩
    exact (lookup_eq_some_iff.mp hlookup).2 i hlt h

theorem firstFree_eq_some_iff :
    d.firstFree = some i ↔ d.value i = none ∧ ∀ j < i, d.value j ≠ none := by
  simp [firstFree, Option.isSome_iff_ne_none]

theorem firstFree_eq_none_iff : d.firstFree = none ↔ ∀ i, d.value i ≠ none := by
  simp [firstFree, Option.isSome_iff_ne_none]

theorem Distinct.lookup [DecidableEq N] (h : d.Distinct) (hi : d.Has i x) :
    d.lookup x = some i := by
  refine lookup_eq_some_iff.mpr ⟨hi, fun j hj hother ↦ ?_⟩
  have heq : j = i := h j i hother.1 hi.1 (hother.2.trans hi.2.symm)
  exact absurd heq (ne_of_lt hj)

/-! ### Changes -/

theorem has_occupy (hfree : d.value i = none) (j : Fin n) (y : N) :
    (d.occupy i x v).Has j y ↔ (j = i ∧ y = x) ∨ d.Has j y := by
  by_cases hj : j = i
  · subst hj
    simp [Has, occupy, hfree, eq_comm]
  · simp [Has, occupy, hj]

theorem has_assign (i j : Fin n) (v : Option V) (y : N) :
    (d.assign i v).Has j y ↔ if j = i then v ≠ none ∧ d.name i = y else d.Has j y := by
  split_ifs with hj
  · subst hj
    simp [Has, assign]
  · simp [Has, assign, Function.update_of_ne hj]

/-- A name that no entry in use has can be given. -/
theorem Distinct.occupy (h : d.Distinct) (hfree : d.value i = none) (hfresh : ∀ j, ¬ d.Has j x) :
    (d.occupy i x v).Distinct := by
  intro j l hj hl heq
  have hjuse : (d.occupy i x v).Has j ((d.occupy i x v).name j) := ⟨hj, rfl⟩
  have hluse : (d.occupy i x v).Has l ((d.occupy i x v).name j) := ⟨hl, heq.symm⟩
  rcases (has_occupy hfree _ _).mp hjuse with ⟨rfl, hname⟩ | hjold
  · rcases (has_occupy hfree _ _).mp hluse with ⟨rfl, -⟩ | hlold
    · rfl
    · exact absurd (hname ▸ hlold) (hfresh l)
  · rcases (has_occupy hfree _ _).mp hluse with ⟨rfl, hname⟩ | hlold
    · exact absurd (hname ▸ hjold) (hfresh j)
    · exact h j l hjold.1 hlold.1 (hjold.2.trans hlold.2.symm)

/-- A new value, or none, for an entry in use keeps the names apart. -/
theorem Distinct.assign (h : d.Distinct) (hi : d.value i ≠ none) (v : Option V) :
    (d.assign i v).Distinct := by
  have hold : ∀ j, (d.assign i v).value j ≠ none → d.value j ≠ none := fun j hj ↦ by
    by_cases hji : j = i
    · rwa [hji]
    · rwa [assign_value_of_ne hji] at hj
  exact fun j l hj hl heq ↦ h j l (hold j hj) (hold l hl) heq

/-- No entry is free exactly when all are used. -/
theorem firstFree_eq_none_iff_card : d.firstFree = none ↔ d.used.card = n := by
  have hcard : d.used.card = (Finset.univ : Finset (Fin n)).card ↔ d.used = Finset.univ :=
    Finset.card_eq_iff_eq_univ _
  rw [Finset.card_fin] at hcard
  rw [firstFree_eq_none_iff, hcard, Finset.eq_univ_iff_forall]
  simp [used, Option.isSome_iff_ne_none]

/-! ### Directories of different sizes -/

section Embeds

variable {m : ℕ} {W : Type*} {h : n ≤ m} {f : V → W} {e : Directory m N W}

/-- The first entries of a larger directory are those of `d`, with their values mapped, and no other
is in use. -/
structure Embeds (h : n ≤ m) (f : V → W) (d : Directory n N V) (e : Directory m N W) : Prop where
  value : ∀ i, e.value (i.castLE h) = (d.value i).map f
  name : ∀ i, d.value i ≠ none → e.name (i.castLE h) = d.name i
  rest : ∀ j : Fin m, n ≤ j → e.value j = none

namespace Embeds

variable (he : Embeds h f d e)

include he

theorem value_ne_none_iff (i : Fin n) : e.value (i.castLE h) ≠ none ↔ d.value i ≠ none := by
  rw [he.value, ne_eq, Option.map_eq_none_iff]

/-- The entries in use under a name are the same. -/
theorem has_iff (j : Fin m) : e.Has j x ↔ ∃ i, j = i.castLE h ∧ d.Has i x := by
  constructor
  · rintro ⟨hj, hname⟩
    have hlt : (j : ℕ) < n := by
      by_contra hle
      exact hj (he.rest j (by omega))
    have hcast : j = Fin.castLE h ⟨j, hlt⟩ := rfl
    rw [hcast] at hj hname
    have huse := (he.value_ne_none_iff _).mp hj
    exact ⟨_, hcast, huse, (he.name _ huse).symm.trans hname⟩
  · rintro ⟨i, rfl, huse, hname⟩
    exact ⟨(he.value_ne_none_iff i).mpr huse, (he.name i huse).trans hname⟩

theorem lookup [DecidableEq N] (x : N) : e.lookup x = (d.lookup x).map (Fin.castLE h) := by
  cases hlookup : d.lookup x with
  | none =>
    refine lookup_eq_none_iff.mpr fun j hj ↦ ?_
    obtain ⟨i, -, hi⟩ := (he.has_iff j).mp hj
    exact lookup_eq_none_iff.mp hlookup i hi
  | some i =>
    obtain ⟨hi, hleast⟩ := lookup_eq_some_iff.mp hlookup
    refine lookup_eq_some_iff.mpr ⟨(he.has_iff _).mpr ⟨i, rfl, hi⟩, fun j hj hother ↦ ?_⟩
    obtain ⟨l, rfl, hl⟩ := (he.has_iff j).mp hother
    exact hleast l (Fin.lt_def.mpr (Fin.lt_def.mp hj)) hl

/-- As long as the smaller directory has a free entry it is the first free one of both. -/
theorem firstFree (hfree : d.firstFree = some i) : e.firstFree = some (i.castLE h) := by
  obtain ⟨hnone, hleast⟩ := firstFree_eq_some_iff.mp hfree
  refine firstFree_eq_some_iff.mpr ⟨by rw [he.value, hnone]; rfl, fun j hj ↦ ?_⟩
  have hlt : (j : ℕ) < i := Fin.lt_def.mp hj
  exact (he.value_ne_none_iff ⟨j, hlt.trans i.isLt⟩).mpr (hleast _ (Fin.lt_def.mpr hlt))

theorem occupy (i : Fin n) (x : N) (v : V) :
    Embeds h f (d.occupy i x v) (e.occupy (i.castLE h) x (f v)) where
  value := fun j ↦ by
    by_cases hj : j = i
    · subst hj
      simp
    · rw [occupy_value_of_ne hj, occupy_value_of_ne ((Fin.castLE_injective h).ne hj), he.value]
  name := fun j hj ↦ by
    by_cases hji : j = i
    · subst hji
      simp
    · rw [occupy_value_of_ne hji] at hj
      rw [occupy_name_of_ne hji, occupy_name_of_ne ((Fin.castLE_injective h).ne hji), he.name j hj]
  rest := fun j hj ↦ by
    rw [occupy_value_of_ne fun heq ↦ ?_, he.rest j hj]
    have hval : (j : ℕ) = i := congrArg Fin.val heq
    omega

/-- A value, or none, for an entry in use. -/
theorem assign (hi : d.value i ≠ none) (v : Option V) :
    Embeds h f (d.assign i v) (e.assign (i.castLE h) (v.map f)) where
  value := fun j ↦ by
    by_cases hj : j = i
    · subst hj
      rw [assign_value_self, assign_value_self]
    · rw [assign_value_of_ne hj, assign_value_of_ne ((Fin.castLE_injective h).ne hj), he.value]
  name := fun j hj ↦ by
    refine he.name j ?_
    by_cases hji : j = i
    · rwa [hji]
    · rwa [assign_value_of_ne hji] at hj
  rest := fun j hj ↦ by
    rw [assign_value_of_ne fun heq ↦ ?_, he.rest j hj]
    have hval : (j : ℕ) = i := congrArg Fin.val heq
    omega

end Embeds

end Embeds

end Directory

end OsAssignments.Library
