import OsAssignments.Library.PageTables

/-!
# Permissions of pages

A walk permits what all of its entries permit. In a `Permissive` tree the entries above the last
level never forbid what the entry of a page permits, so that a walk permits user access, or writing,
exactly when its last entry does (`Permissive.walk_iff`). Adding a table, and setting permission
bits above the last level, keeps a tree permissive (`Permissive.write_above`). So does adding a
page, when the entries above a writable one permit writing (`Permissive.write_page`), and taking
pages out (`Permissive.of_kept`).
-/

set_option autoImplicit false
set_option relaxedAutoImplicit false

namespace OsAssignments.Library

/-- The entries above the last level permit user access, and those above a page whose entry permits
writing permit writing. -/
structure Permissive (depth : ℕ) (m : Tables) (T : TablePath → Option Pfn) : Prop where
  user : ∀ {π : TablePath} {t : Pfn} {i : ℕ}, π.length < depth → i < 512 → T π = some t →
    T (i :: π) ≠ none → (m t i).User
  writable : ∀ {π : TablePath} {t : Pfn} {i : ℕ}, π.length = depth → i < 512 → T π = some t →
    T (i :: π) ≠ none → (m t i).Writable → ∀ {σ : TablePath} {u : Pfn} {j : ℕ}, j :: σ <:+ π →
    T σ = some u → (m u j).Writable

variable {depth : ℕ} {m : Tables} {T : TablePath → Option Pfn} {π ρ : TablePath} {t f : Pfn} {i : ℕ}
  {e : Entry}

theorem update_ne_none (hne : T ρ ≠ none) : Function.update T π (some f) ρ ≠ none := by
  rw [Function.update_apply]
  split_ifs
  · exact Option.some_ne_none f
  · exact hne

namespace Permissive

/-- Memory outside the tables does not matter. -/
theorem congr {m' : Tables} (h : Permissive depth m T)
    (hsame : ∀ π f, π.length ≤ depth → T π = some f → m' f = m f) : Permissive depth m' T where
  user := fun {π t i} hπ hi ht hne ↦ by
    rw [hsame π t hπ.le ht]
    exact h.user hπ hi ht hne
  writable := fun {π t i} hπ hi ht hne hwrite σ u j hσ hu ↦ by
    rw [hsame π t hπ.le ht] at hwrite
    have hlength := hσ.length_le
    rw [List.length_cons] at hlength
    rw [hsame σ u (by omega) hu]
    exact h.writable hπ hi ht hne hwrite hσ hu

/-- A write above the last level that permits user access and takes no permission to write away. -/
theorem write_above (hd : Describes depth m T) (hclosed : ∀ π i, T π = none → T (i :: π) = none)
    (h : Permissive depth m T) (hπ : π.length < depth) (ht : T π = some t) (huser : e.User)
    (hgrow : T (i :: π) ≠ none → (m t i).Writable → e.Writable)
    (hnew : T (i :: π) = some f ∨ ∀ j, T (j :: i :: π) = none) :
    Permissive depth (m.set t i e) (Function.update T (i :: π) (some f)) where
  user := fun hρ hj hu hne ↦ by
    rcases hd.entry_update hπ.le ht hnew hρ.le hu hne with ⟨-, heq⟩ | ⟨-, hu, hne, heq⟩
    · rwa [heq]
    · rw [heq]
      exact h.user hρ hj hu hne
  writable := fun {ρ u j} hρ hj hu hne hwrite σ v k hσ hv ↦ by
    rcases hd.entry_update hπ.le ht hnew hρ.le hu hne with ⟨hplace, -⟩ | ⟨-, hu, hne, heq⟩
    · have hlength := congrArg List.length hplace
      rw [List.length_cons, List.length_cons] at hlength
      omega
    rw [heq] at hwrite
    have habove : T (k :: σ) ≠ none :=
      ne_none_of_suffix hclosed hσ (hu ▸ Option.some_ne_none u)
    have hlength := hσ.length_le
    rw [List.length_cons] at hlength
    rcases hd.entry_update hπ.le ht hnew (by omega) hv (update_ne_none habove) with
      ⟨hplace, heq'⟩ | ⟨-, hv, -, heq'⟩
    · rw [heq']
      exact hgrow (hplace ▸ habove) (h.writable hρ hj hu hne hwrite (hplace ▸ hσ) ht)
    · rw [heq']
      exact h.writable hρ hj hu hne hwrite hσ hv

/-- A page below an entry of the last level. Where its entry permits writing, so do those above. -/
theorem write_page (hd : Describes depth m T) (h : Permissive depth m T) (hπ : π.length = depth)
    (ht : T π = some t) (hnew : ∀ j, T (j :: i :: π) = none)
    (habove : e.Writable → ∀ {σ : TablePath} {u : Pfn} {j : ℕ}, j :: σ <:+ π → T σ = some u →
      (m u j).Writable) :
    Permissive depth (m.set t i e) (Function.update T (i :: π) (some f)) := by
  -- an entry above the last level is not the one that was written
  have hother : ∀ {σ : TablePath} {u : Pfn} {j : ℕ}, σ.length < depth → T σ = some u →
      m.set t i e u j = m u j := by
    intro σ u j hσ hu
    rw [Tables.set_of_ne]
    rintro rfl
    have hlength := congrArg List.length (hd.inj hσ.le hπ.le hu ht)
    omega
  have hold : ∀ {σ : TablePath} {u : Pfn}, σ.length ≤ depth →
      Function.update T (i :: π) (some f) σ = some u → T σ = some u := by
    intro σ u hσ hu
    rwa [Function.update_of_ne] at hu
    rintro rfl
    rw [List.length_cons] at hσ
    omega
  refine ⟨fun {σ u j} hσ hj hu hne ↦ ?_, fun {ρ u j} hρ hj hu hne hwrite σ v k hσ hv ↦ ?_⟩
  · have hu := hold hσ.le hu
    rw [hother hσ hu]
    refine h.user hσ hj hu ?_
    rwa [Function.update_of_ne] at hne
    intro heq
    have hlength := congrArg List.length heq
    rw [List.length_cons, List.length_cons] at hlength
    omega
  · have hlength := hσ.length_le
    rw [List.length_cons] at hlength
    have hv := hold (by omega) hv
    rw [hother (by omega) hv]
    rcases hd.entry_update hπ.le ht (.inr hnew) hρ.le hu hne with ⟨hplace, heq⟩ | ⟨-, hu, hne, heq⟩
    · rw [heq] at hwrite
      rw [(List.cons.inj hplace).2] at hσ
      exact habove hwrite hσ hv
    · rw [heq] at hwrite
      exact h.writable hρ hj hu hne hwrite hσ hv

/-- Taking places out, and leaving the entries of what stays as they are, keeps a tree permissive.
-/
theorem of_kept {m' : Tables} {T' : TablePath → Option Pfn} (h : Permissive depth m T)
    (hclosed : ∀ π i, T' π = none → T' (i :: π) = none)
    (hinside : ∀ π, T' π ≠ none → ∀ i ∈ π, i < 512) (hle : ∀ π f, T' π = some f → T π = some f)
    (hentry : ∀ {π : TablePath} {t : Pfn} {i : ℕ}, π.length ≤ depth → i < 512 → T' π = some t →
      T' (i :: π) ≠ none → m' t i = m t i) : Permissive depth m' T' where
  user := fun hπ hi ht hne ↦ by
    obtain ⟨f, hf⟩ := Option.ne_none_iff_exists'.mp hne
    rw [hentry hπ.le hi ht hne]
    exact h.user hπ hi (hle _ _ ht) (by rw [hle _ _ hf]; exact Option.some_ne_none f)
  writable := fun {π t i} hπ hi ht hne hwrite σ u j hσ hu ↦ by
    obtain ⟨f, hf⟩ := Option.ne_none_iff_exists'.mp hne
    rw [hentry hπ.le hi ht hne] at hwrite
    have habove : T' (j :: σ) ≠ none := ne_none_of_suffix hclosed hσ (ht ▸ Option.some_ne_none t)
    have hlength := hσ.length_le
    rw [List.length_cons] at hlength
    rw [hentry (by omega) (hinside _ habove j List.mem_cons_self) hu habove]
    exact h.writable hπ hi (hle _ _ ht) (by rw [hle _ _ hf]; exact Option.some_ne_none f) hwrite hσ
      (hle _ _ hu)

end Permissive

/-! ### Walks -/

section Walk

variable {rest : List ℕ} {u : Pfn} {j : ℕ}

/-- In a permissive tree the last entry of a walk decides. -/
theorem Permissive.walk_iff (hd : Describes depth m T)
    (hclosed : ∀ π i, T π = none → T (i :: π) = none) (h : Permissive depth m T)
    (hroot : T [] = some t) (hidx : ∀ i ∈ rest, i < 512) (hplace : rest.reverse = j :: ρ)
    (hρ : ρ.length = depth) (hu : T ρ = some u) (hne : T (j :: ρ) ≠ none) :
    ∃ es, walk m rest t = some es ∧ ((∀ e ∈ es, e.User) ↔ (m u j).User) ∧
      ((∀ e ∈ es, e.Writable) ↔ (m u j).Writable) := by
  have hlength := congrArg List.length hplace
  rw [List.length_reverse, List.length_cons, hρ] at hlength
  obtain ⟨es, hwalk, hes, hmem⟩ := hd.walk_entries hclosed hroot (by simp [hlength]) hidx
    (by rwa [List.append_nil, hplace])
  rw [List.append_nil, hplace] at hes hmem
  obtain ⟨hj, hlast⟩ := hmem ρ u j List.suffix_rfl (Nat.zero_le _) hu
  -- an entry of the walk is the last one, or above it
  have hcases : ∀ e ∈ es, e = m u j ∨ ∃ (σ : TablePath) (v : Pfn) (k : ℕ), k :: σ <:+ ρ ∧
      σ.length < depth ∧ k < 512 ∧ T σ = some v ∧ T (k :: σ) ≠ none ∧ m v k = e := by
    intro e he
    obtain ⟨σ, v, k, hk, hσ, -, hv, rfl⟩ := hes e he
    rcases List.suffix_cons_iff.mp hσ with heq | habove
    · obtain ⟨rfl, rfl⟩ := List.cons.inj heq
      exact .inl (by rw [Option.some.inj (hv.symm.trans hu)])
    · have hle := habove.length_le
      rw [List.length_cons] at hle
      exact .inr ⟨σ, v, k, habove, by omega, hidx k hk, hv, ne_none_of_suffix hclosed hσ hne, rfl⟩
  refine ⟨es, hwalk, ⟨fun hall ↦ hall _ hlast, fun huser e he ↦ ?_⟩,
    ⟨fun hall ↦ hall _ hlast, fun hwrite e he ↦ ?_⟩⟩
  · rcases hcases e he with rfl | ⟨σ, v, k, -, hσ, hk, hv, hbelow, rfl⟩
    · exact huser
    · exact h.user hσ hk hv hbelow
  · rcases hcases e he with rfl | ⟨σ, v, k, habove, -, -, hv, -, rfl⟩
    · exact hwrite
    · exact h.writable hρ (hidx j hj) hu hne hwrite habove hv

end Walk

end OsAssignments.Library
