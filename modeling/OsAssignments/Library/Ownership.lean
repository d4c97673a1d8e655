import Mathlib

/-!
# Places that own resources

Places hold resources, at most one each. `Exclusive` says that no two places hold the same
resource, `Backed` that every held resource is recorded as allocated, and `Tight` that the
allocated resources are exactly the held ones. The three survive the two moves of an allocator:
a place takes a resource that was not allocated (`Exclusive.update`, `Backed.update`,
`Tight.update`), and a place gives its resource up (`Exclusive.of_le`, `Tight.erase`).
-/

set_option autoImplicit false
set_option relaxedAutoImplicit false

namespace OsAssignments.Library

namespace Ownership

variable {P R : Type*} {own own' : P → Option R} {allocated : Set R}

/-- No two places hold the same resource. -/
def Exclusive (own : P → Option R) : Prop :=
  ∀ p q r, own p = some r → own q = some r → p = q

/-- Every held resource is allocated. -/
def Backed (own : P → Option R) (allocated : Set R) : Prop :=
  ∀ p r, own p = some r → r ∈ allocated

/-- The allocated resources are exactly the held ones. -/
def Tight (own : P → Option R) (allocated : Set R) : Prop :=
  ∀ r, r ∈ allocated ↔ ∃ p, own p = some r

/-- Every place of the first map holds the same resource in the second, or holds nothing. -/
def Below (own' own : P → Option R) : Prop :=
  ∀ p r, own' p = some r → own p = some r

theorem Exclusive.of_le (h : Exclusive own) (hle : Below own' own) : Exclusive own' :=
  fun p q r hp hq ↦ h p q r (hle p r hp) (hle q r hq)

theorem Backed.of_le (h : Backed own allocated) (hle : Below own' own) : Backed own' allocated :=
  fun p r hp ↦ h p r (hle p r hp)

theorem Backed.mono {allocated' : Set R} (h : Backed own allocated)
    (hsub : allocated ⊆ allocated') : Backed own allocated' :=
  fun p r hp ↦ hsub (h p r hp)

theorem Tight.backed (h : Tight own allocated) : Backed own allocated :=
  fun p r hp ↦ (h r).mpr ⟨p, hp⟩

theorem Backed.fresh {r : R} (h : Backed own allocated) (hr : r ∉ allocated) (q : P) :
    own q ≠ some r :=
  fun hq ↦ hr (h q r hq)

variable [DecidableEq P]

/-- A place takes a resource that no place holds. -/
theorem Exclusive.update {p : P} {r : R} (h : Exclusive own) (hfresh : ∀ q, own q ≠ some r) :
    Exclusive (Function.update own p (some r)) := by
  intro q q' r' hq hq'
  by_cases hqp : q = p
  · by_cases hqp' : q' = p
    · rw [hqp, hqp']
    · rw [hqp, Function.update_self] at hq
      rw [Function.update_of_ne hqp', ← Option.some.inj hq] at hq'
      exact absurd hq' (hfresh q')
  · rw [Function.update_of_ne hqp] at hq
    by_cases hqp' : q' = p
    · rw [hqp', Function.update_self] at hq'
      rw [← Option.some.inj hq'] at hq
      exact absurd hq (hfresh q)
    · rw [Function.update_of_ne hqp'] at hq'
      exact h q q' r' hq hq'

theorem Backed.update {p : P} {r : R} (h : Backed own allocated) :
    Backed (Function.update own p (some r)) (insert r allocated) := by
  intro q r' hq
  by_cases hqp : q = p
  · rw [hqp, Function.update_self] at hq
    exact Or.inl (Option.some.inj hq).symm
  · rw [Function.update_of_ne hqp] at hq
    exact Or.inr (h q r' hq)

/-- An empty place takes a resource, which becomes allocated. -/
theorem Tight.update {p : P} {r : R} (h : Tight own allocated) (hempty : own p = none) :
    Tight (Function.update own p (some r)) (insert r allocated) := by
  intro r'
  constructor
  · rintro (rfl | hr')
    · exact ⟨p, Function.update_self ..⟩
    · obtain ⟨q, hq⟩ := (h r').mp hr'
      have hqp : q ≠ p := fun heq ↦ by rw [heq, hempty] at hq; cases hq
      exact ⟨q, by rw [Function.update_of_ne hqp, hq]⟩
  · rintro ⟨q, hq⟩
    exact h.backed.update q r' hq

/-- A place gives up the resource it alone holds, which is freed. -/
theorem Tight.erase {p : P} {r : R} (h : Tight own allocated) (hown : own p = some r)
    (hexcl : Exclusive own) : Tight (Function.update own p none) (allocated \ {r}) := by
  intro r'
  constructor
  · rintro ⟨hr', hne⟩
    obtain ⟨q, hq⟩ := (h r').mp hr'
    have hqp : q ≠ p := fun heq ↦ by
      rw [heq, hown] at hq
      exact hne (Option.some.inj hq).symm
    exact ⟨q, by rw [Function.update_of_ne hqp, hq]⟩
  · rintro ⟨q, hq⟩
    by_cases hqp : q = p
    · rw [hqp, Function.update_self] at hq
      cases hq
    · rw [Function.update_of_ne hqp] at hq
      refine ⟨h.backed q r' hq, fun hr' ↦ hqp (hexcl q p r' hq ?_)⟩
      rw [hown, hr']

/-- An empty place that takes a resource leaves the other places as they were. -/
theorem below_update_some {p : P} (r : R) (hempty : own p = none) :
    Below own (Function.update own p (some r)) := by
  intro q r' hq
  have hqp : q ≠ p := by
    rintro rfl
    rw [hempty] at hq
    cases hq
  rwa [Function.update_of_ne hqp]

end Ownership

end OsAssignments.Library
