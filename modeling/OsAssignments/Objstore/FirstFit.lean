import OsAssignments.Objstore.Data
import OsAssignments.Objstore.Mount

/-!
# First-fit allocation

`free_data_block` takes the least clear bit of `data_bitmap`, and leaves the bitmap alone when all
8388608 bits are set. All bits up to the one taken are then set, so as long as nothing is freed the
next call takes a later one: blocks come out in increasing order until the allocator fails, and from
then on it fails (`first_fit_exact`).
-/

set_option autoImplicit false
set_option relaxedAutoImplicit false

namespace OsAssignments.Objstore

open Library

variable {s : Store} {i j k : ℕ}

/-- The calls of a series, the `n`-th of them in the store `s n`: no bit that is set after a call is
clear at the next one. -/
def NothingFreed (s : ℕ → Store) : Prop :=
  ∀ n, ∀ k < 8388608, (freeDataBlock (s n)).2.dataBit k = true → (s (n + 1)).dataBit k = true

/-- What a call returns and leaves: it takes the least clear bit or fails, and fails when there is
none. -/
theorem freeDataBlock_cases (s : Store) :
    (∃ k, FirstClear s k ∧ freeDataBlock s = (((22815 + k : ℕ) : ℤ), s.allocated k)) ∨
      (∀ k < 8388608, s.dataBit k = true) ∧ freeDataBlock s = (-1, { s with dLock := false }) := by
  by_cases hall : ∀ k < 8388608, s.dataBit k = true
  · exact .inr ⟨hall, freeDataBlock_full hall⟩
  · push Not at hall
    obtain ⟨k, hk, hset⟩ := hall
    obtain ⟨j, hj, hclear, hleast, heq⟩ :=
      freeDataBlock_spec (s := s) ⟨k, hk, Bool.eq_false_iff.mpr hset⟩
    exact .inl ⟨j, ⟨hj, hclear, hleast⟩, heq⟩

/-- The bits after the least clear one is taken. -/
theorem dataBit_allocated_iff (s : Store) (k i : ℕ) :
    (s.allocated k).dataBit i = true ↔ i = k ∨ s.dataBit i = true := by
  rw [dataBit_allocated, Bool.or_eq_true, decide_eq_true_iff, List.mem_singleton]

/-- A call clears no bit. -/
theorem dataBit_freeDataBlock (h : s.dataBit k = true) :
    (freeDataBlock s).2.dataBit k = true := by
  rcases freeDataBlock_cases s with ⟨j, -, heq⟩ | ⟨-, heq⟩
  · rw [heq]
    exact (dataBit_allocated_iff s j k).mpr (.inr h)
  · rw [heq]
    exact h

/-- A bit that is set after a call of the series is set at all later calls. -/
theorem NothingFreed.dataBit {s : ℕ → Store} (h : NothingFreed s) (hk : k < 8388608)
    (hset : (freeDataBlock (s i)).2.dataBit k = true) (hij : i < j) : (s j).dataBit k = true := by
  induction j with
  | zero => exact absurd hij (Nat.not_lt_zero i)
  | succ j ih =>
    rcases Nat.lt_succ_iff_lt_or_eq.mp hij with hlt | rfl
    · exact h j k hk (dataBit_freeDataBlock (ih hlt))
    · exact h i k hk hset

/-- A later call of a series returns a later block, unless it fails. -/
theorem NothingFreed.increasing {s : ℕ → Store} (h : NothingFreed s) (hij : i < j)
    (hreturns : (freeDataBlock (s j)).1 ≠ -1) :
    (freeDataBlock (s i)).1 ≠ -1 ∧ (freeDataBlock (s i)).1 < (freeDataBlock (s j)).1 := by
  rcases freeDataBlock_cases (s j) with ⟨k, hk, heq⟩ | ⟨-, heq⟩
  swap
  · exact absurd (congrArg Prod.fst heq) hreturns
  have hlater : ∀ l < 8388608, (freeDataBlock (s i)).2.dataBit l = true → l ≠ k := by
    intro l hl hset
    rintro rfl
    have hbit := h.dataBit hl hset hij
    rw [hk.clear] at hbit
    cases hbit
  rcases freeDataBlock_cases (s i) with ⟨l, hl, heq'⟩ | ⟨hall, -⟩
  · rw [heq'] at hlater ⊢
    -- every bit up to the one taken first is set, so the one taken later lies above it
    have hlt : l < k := by
      by_contra hge
      refine hlater k hk.lt ((dataBit_allocated_iff (s i) l k).mpr ?_) rfl
      rcases Nat.lt_or_eq_of_le (Nat.not_lt.mp hge) with hkl | hkl
      · exact .inr (hl.least k hkl)
      · exact .inl hkl
    rw [heq]
    exact ⟨by omega, by omega⟩
  · exact absurd rfl (hlater k hk.lt (dataBit_freeDataBlock (hall k hk.lt)))

/-- First fit is exact, for every content of the bitmap, and blocks come out in increasing order. -/
theorem first_fit_exact :
    (∀ s : Store,
      (∀ k, FirstClear s k → freeDataBlock s = (((22815 + k : ℕ) : ℤ), s.allocated k) ∧
        ∀ i, (s.allocated k).dataBit i = true ↔ i = k ∨ s.dataBit i = true) ∧
      ((freeDataBlock s).1 ≠ -1 → ∃ k, FirstClear s k) ∧
      ((freeDataBlock s).1 = -1 ↔ ∀ k < 8388608, s.dataBit k = true) ∧
      ((freeDataBlock s).1 = -1 → (freeDataBlock s).2 = { s with dLock := false })) ∧
    ∀ s : ℕ → Store, NothingFreed s → ∀ i j, i < j → (freeDataBlock (s j)).1 ≠ -1 →
      (freeDataBlock (s i)).1 ≠ -1 ∧ (freeDataBlock (s i)).1 < (freeDataBlock (s j)).1 := by
  refine ⟨fun s ↦ ⟨fun k hk ↦ ⟨freeDataBlock_eq hk, dataBit_allocated_iff s k⟩, ?_⟩,
    fun s h i j hij hreturns ↦ h.increasing hij hreturns⟩
  rcases freeDataBlock_cases s with ⟨k, hk, heq⟩ | ⟨hall, heq⟩
  · have hne : (freeDataBlock s).1 ≠ -1 := by
      rw [heq]
      exact fun hneg ↦ absurd hneg (by omega)
    refine ⟨fun _ ↦ ⟨k, hk⟩, iff_of_false hne fun hall ↦ ?_, fun hneg ↦ absurd hneg hne⟩
    have hset := hall k hk.lt
    rw [hk.clear] at hset
    cases hset
  · have hneg : (freeDataBlock s).1 = -1 := by rw [heq]
    exact ⟨fun hne ↦ absurd hneg hne, iff_of_true hneg hall, fun _ ↦ by rw [heq]⟩

/-- Calls one after the other on a mounted zero disk. -/
def callsInTurn : ℕ → Store
  | 0 => objstoreInit zeroDevice
  | n + 1 => (freeDataBlock (callsInTurn n)).2

theorem nothingFreed_callsInTurn : NothingFreed callsInTurn := fun _ _ _ hset ↦ hset

/-- The first call takes the first block, and the second one the next. -/
theorem first_fit_exact_twice :
    (freeDataBlock (callsInTurn 0)).1 = 22815 ∧ (freeDataBlock (callsInTurn 1)).1 = 22816 ∧
      (freeDataBlock (callsInTurn 0)).1 < (freeDataBlock (callsInTurn 1)).1 := by
  have hbit : ∀ k < 8388608, (callsInTurn 0).dataBit k = false := fun k hk ↦
    dataBit_blank blank_zeroDevice hk
  have hfirst : FirstClear (callsInTurn 0) 0 :=
    ⟨by norm_num, hbit 0 (by norm_num), fun j hj ↦ absurd hj (Nat.not_lt_zero j)⟩
  obtain ⟨hcall, hset⟩ := (first_fit_exact.1 (callsInTurn 0)).1 0 hfirst
  have hnext : callsInTurn 1 = (callsInTurn 0).allocated 0 := congrArg Prod.snd hcall
  have hsecond : FirstClear (callsInTurn 1) 1 := by
    rw [hnext]
    refine ⟨by norm_num, Bool.eq_false_iff.mpr fun htrue ↦ ?_, fun j hj ↦ ?_⟩
    · rcases (hset 1).mp htrue with hzero | hold
      · exact absurd hzero one_ne_zero
      · rw [hbit 1 (by norm_num)] at hold
        cases hold
    · exact (hset j).mpr (.inl (by omega))
  have hvalue : (freeDataBlock (callsInTurn 1)).1 = 22816 :=
    congrArg Prod.fst ((first_fit_exact.1 (callsInTurn 1)).1 1 hsecond).1
  have hreturns : (freeDataBlock (callsInTurn 1)).1 ≠ -1 := by
    rw [hvalue]
    norm_num
  exact ⟨congrArg Prod.fst hcall, hvalue,
    (first_fit_exact.2 callsInTurn nothingFreed_callsInTurn 0 1 one_pos hreturns).2⟩

end OsAssignments.Objstore
