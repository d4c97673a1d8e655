import OsAssignments.Library.PagePermissions
import OsAssignments.Paging.Allocation

/-!
# Permissions of the pages of a process

`allocate` sets the write bit in every entry on the way to a writable page, in tables that other
pages share. That their permissions stay as they are rests on the whole tree: an entry above the
last level always permits user access, and it permits writing wherever a writable page is below it
(`TreeConditions`), so the entry of a page alone decides what the page permits. `Mapped` says what a
walk of `allocate` has done to a tree, and `allocate_maps_one_page` what the hardware finds
afterwards.

The entries of a table are combined with the bits that were there. An entry that is not present has
to be zero: the tables are zeroed when they are allocated, and entries are cleared when their page
is unmapped. Otherwise the bits that are left over end up in the frame number
(`leftover_bits_misdirect`).
-/

set_option autoImplicit false
set_option relaxedAutoImplicit false

namespace OsAssignments.Paging.Syscalls

open OsAssignments.Library
open ContextMm (permit descend newTable below below_of_none below_of_some descend_eq newTable_tables
  Walked walked_update
  entry_user entry_not_writable calls_permit calls_le_below hardwareWalk hardwareIndices_eq indices
  indices_lt MapsTo)

/-! ### The tree in memory -/

/-- The frame at a place, as the entries on the way to it have it. -/
def frameAt (m : Tables) (pgd : Pfn) : TablePath → Option Pfn
  | [] => some pgd
  | i :: π => (frameAt m pgd π).bind fun t ↦
      if π.length ≤ 3 ∧ i < 512 ∧ (m t i).Present then some (m t i).pfn else none

/-- The tables are different frames, every present entry above the last level permits user access,
and the entries above a page whose entry permits writing permit writing. -/
structure TreeConditions (m : Tables) (pgd : Pfn) : Prop where
  distinct : ∀ (π ρ : TablePath) (f : Pfn), π.length ≤ 3 → ρ.length ≤ 3 →
    frameAt m pgd π = some f → frameAt m pgd ρ = some f → π = ρ
  user : ∀ (π : TablePath) (t : Pfn) (i : ℕ), π.length ≤ 2 → i < 512 → frameAt m pgd π = some t →
    (m t i).Present → (m t i).User
  writable : ∀ (π : TablePath) (t : Pfn) (i : ℕ),
    π.length = 3 → i < 512 → frameAt m pgd π = some t →
    (m t i).Present → (m t i).Writable → ∀ (σ : TablePath) (u : Pfn) (j : ℕ), j :: σ <:+ π →
    frameAt m pgd σ = some u → (m u j).Writable

/-- The entries of the tables that are not present are zero. -/
def AbsentZero (m : Tables) (pgd : Pfn) : Prop :=
  ∀ (π : TablePath) (t : Pfn) (i : ℕ), π.length ≤ 3 → i < 512 → frameAt m pgd π = some t →
    ¬(m t i).Present → m t i = 0

section Tree

variable {m : Tables} {pgd t f : Pfn} {T : TablePath → Option Pfn} {π : TablePath} {i : ℕ}

theorem frameAt_closed (π : TablePath) (i : ℕ) (hnone : frameAt m pgd π = none) :
    frameAt m pgd (i :: π) = none := by
  rw [frameAt, hnone, Option.bind_none]

theorem frameAt_below (hπ : π.length ≤ 3) (hi : i < 512) (ht : frameAt m pgd π = some t) :
    frameAt m pgd (i :: π) = if (m t i).Present then some (m t i).pfn else none := by
  rw [frameAt, ht, Option.bind_some]
  exact if_congr (by rw [and_iff_right hπ, and_iff_right hi]) rfl rfl

theorem present_of_frameAt (hπ : π.length ≤ 3) (hi : i < 512) (ht : frameAt m pgd π = some t) :
    frameAt m pgd (i :: π) ≠ none ↔ (m t i).Present := by
  rw [frameAt_below hπ hi ht]
  split_ifs with hpresent <;> simp [hpresent]

theorem frameAt_inside (π : TablePath) (hne : frameAt m pgd π ≠ none) :
    π.length ≤ 4 ∧ ∀ i ∈ π, i < 512 := by
  induction π with
  | nil => exact ⟨Nat.zero_le 4, fun i hi ↦ absurd hi List.not_mem_nil⟩
  | cons i π ih =>
    obtain ⟨t, ht⟩ := Option.ne_none_iff_exists'.mp fun hnone ↦ hne (frameAt_closed π i hnone)
    rw [frameAt, ht, Option.bind_some] at hne
    obtain ⟨hπ, hi, -⟩ := (ite_ne_right_iff.mp hne).1
    rw [List.length_cons]
    exact ⟨by omega, List.forall_mem_cons.mpr ⟨hi, (ih (ht ▸ Option.some_ne_none t)).2⟩⟩

/-- A memory that holds a tree has its frames. -/
theorem frameAt_eq (hd : Describes 3 m T) (hroot : T [] = some pgd)
    (hclosed : ∀ π i, T π = none → T (i :: π) = none)
    (hinside : ∀ π, T π ≠ none → π.length ≤ 4 ∧ ∀ i ∈ π, i < 512) : frameAt m pgd = T := by
  funext π
  induction π with
  | nil => exact hroot.symm
  | cons i π ih =>
    rw [frameAt, ih]
    cases ht : T π with
    | none => exact (hclosed π i ht).symm
    | some t =>
      rw [Option.bind_some]
      by_cases hplace : π.length ≤ 3 ∧ i < 512
      · have hentry := hd.entry hplace.1 hplace.2 ht
        cases hbelow : T (i :: π) with
        | none =>
          rw [hbelow] at hentry
          exact if_neg fun h ↦ hentry.not_present h.2.2
        | some f =>
          rw [hbelow] at hentry
          rw [if_pos ⟨hplace.1, hplace.2, hentry.1⟩, hentry.2]
      · rw [if_neg fun h ↦ hplace ⟨h.1, h.2.1⟩]
        by_contra hne
        have hbelow := hinside (i :: π) (Ne.symm hne)
        rw [List.length_cons] at hbelow
        exact hplace ⟨by omega, hbelow.2 i List.mem_cons_self⟩

theorem TreeConditions.describes (h : TreeConditions m pgd) (hzero : AbsentZero m pgd) :
    Describes 3 m (frameAt m pgd) where
  inj := fun hπ hρ hf hf' ↦ h.distinct _ _ _ hπ hρ hf hf'
  entry := fun {π f i} hπ hi hf ↦ by
    rw [frameAt_below hπ hi hf]
    split_ifs with hpresent
    · exact ⟨hpresent, rfl⟩
    · exact hzero π f i hπ hi hf hpresent

theorem TreeConditions.permissive (h : TreeConditions m pgd) : Permissive 3 m (frameAt m pgd) where
  user := fun {π t i} hπ hi ht hne ↦
    h.user π t i (by omega) hi ht ((present_of_frameAt hπ.le hi ht).mp hne)
  writable := fun {π t i} hπ hi ht hne hwrite σ u j hσ hu ↦
    h.writable π t i hπ hi ht ((present_of_frameAt hπ.le hi ht).mp hne) hwrite σ u j hσ hu

/-- A permissive tree in memory satisfies the conditions. -/
theorem treeConditions_of_permissive (hd : Describes 3 m (frameAt m pgd))
    (h : Permissive 3 m (frameAt m pgd)) : TreeConditions m pgd ∧ AbsentZero m pgd := by
  refine ⟨⟨fun π ρ f hπ hρ hf hf' ↦ hd.inj hπ hρ hf hf', fun π t i hπ hi ht hpresent ↦ ?_,
    fun π t i hπ hi ht hpresent hwrite σ u j hσ hu ↦ ?_⟩, fun π t i hπ hi ht hpresent ↦ ?_⟩
  · exact h.user (by omega) hi ht ((present_of_frameAt (by omega) hi ht).mpr hpresent)
  · exact h.writable hπ hi ht ((present_of_frameAt hπ.le hi ht).mpr hpresent) hwrite hσ hu
  · have hentry := hd.entry hπ hi ht
    rw [frameAt_below hπ hi ht, if_neg hpresent] at hentry
    exact hentry

end Tree

/-! ### The levels of a walk -/

/-- What is assumed of the calls of `os_pfn_alloc` from number `first` to before number `last`: the
frames are below `2 ^ 20`, not in use, and different from each other. -/
structure Supplies (frames : ℕ → Pfn) (used : Pfn → Prop) (first last : ℕ) : Prop where
  small : ∀ n, first ≤ n → n < last → Small (frames n)
  unused : ∀ n, first ≤ n → n < last → ¬used (frames n)
  distinct : ∀ n k, first ≤ n → n < k → k < last → frames n ≠ frames k

/-- The frames in use after some more calls. -/
def usedAfter (frames : ℕ → Pfn) (used : Pfn → Prop) (first last : ℕ) (f : Pfn) : Prop :=
  used f ∨ ∃ n, first ≤ n ∧ n < last ∧ frames n = f

/-- The memory holds a permissive tree, whose tables are in use. -/
structure PermissiveTree (pgd : Pfn) (T : TablePath → Option Pfn) (used : Pfn → Prop)
    (s : Machine) :
    Prop where
  root : T [] = some pgd
  describes : Describes 3 s.tables T
  closed : ∀ π i, T π = none → T (i :: π) = none
  inside : ∀ π, T π ≠ none → π.length ≤ 4 ∧ ∀ i ∈ π, i < 512
  used : ∀ π f, π.length ≤ 3 → T π = some f → used f
  permissive : Permissive 3 s.tables T

/-- A step above the last level leaves the entries of the pages as they are, and takes no permission
to write away. -/
structure StepAbove (T : TablePath → Option Pfn) (s s' : Machine) : Prop where
  kept : ∀ {ρ : TablePath} {u : Pfn} {j : ℕ}, ρ.length = 3 → T ρ = some u →
    s'.tables u j = s.tables u j
  grown : ∀ {σ : TablePath} {u : Pfn} {j : ℕ}, σ.length < 3 → T σ = some u →
    (s.tables u j).Writable → (s'.tables u j).Writable

section Levels

variable {frames : ℕ → Pfn} {used used' : Pfn → Prop} {first mid last : ℕ} {pgd table f : Pfn}
  {flag : BitVec 32} {T T' : TablePath → Option Pfn} {s s' s'' : Machine} {π : TablePath} {i : ℕ}

theorem Supplies.later (h : Supplies frames used first last) (hle : first ≤ mid) :
    Supplies frames (usedAfter frames used first mid) mid last where
  small := fun n hn hlt ↦ h.small n (hle.trans hn) hlt
  unused := fun n hn hlt hused ↦ by
    rcases hused with hused | ⟨k, hk, hkn, heq⟩
    · exact h.unused n (hle.trans hn) hlt hused
    · exact h.distinct k n hk (by omega) hlt heq
  distinct := fun n k hn hnk hk ↦ h.distinct n k (hle.trans hn) hnk hk

theorem Supplies.earlier (h : Supplies frames used first last) (hle : mid ≤ last) :
    Supplies frames used first mid :=
  ⟨fun n hn hlt ↦ h.small n hn (hlt.trans_le hle), fun n hn hlt ↦ h.unused n hn (hlt.trans_le hle),
    fun n k hn hnk hk ↦ h.distinct n k hn hnk (hk.trans_le hle)⟩

theorem usedAfter_of_later (hmid : first ≤ mid) (hlast : mid ≤ last)
    (h : usedAfter frames (usedAfter frames used first mid) mid last f) :
    usedAfter frames used first last f := by
  rcases h with (hused | ⟨n, hn, hlt, heq⟩) | ⟨n, hn, hlt, heq⟩
  · exact .inl hused
  · exact .inr ⟨n, hn, hlt.trans_le hlast, heq⟩
  · exact .inr ⟨n, hmid.trans hn, hlt, heq⟩

theorem StepAbove.trans (h : StepAbove T s s') (hkeeps : ∀ ρ f, T ρ = some f → T' ρ = some f)
    (h' : StepAbove T' s' s'') : StepAbove T s s'' where
  kept := fun hρ hu ↦ (h'.kept hρ (hkeeps _ _ hu)).trans (h.kept hρ hu)
  grown := fun hσ hu hwrite ↦ h'.grown hσ (hkeeps _ _ hu) (h.grown hσ hu hwrite)

/-- A write to a table above the last level is such a step when it takes no permission to write
away. -/
theorem StepAbove.of_set {e : Entry} (hd : Describes 3 s.tables T) (hπ : π.length < 3)
    (ht : T π = some table) (htables : s'.tables = s.tables.set table i e)
    (hgrow : (s.tables table i).Writable → e.Writable) : StepAbove T s s' where
  kept := fun {ρ u j} hρ hu ↦ by
    rw [htables, Tables.set_of_ne]
    rintro rfl
    have hlength := congrArg List.length (hd.inj hρ.le hπ.le hu ht)
    omega
  grown := fun {σ u j} hσ hu hwrite ↦ by
    rw [htables]
    by_cases hut : u = table
    · subst hut
      by_cases hji : j = i
      · subst hji
        rw [Tables.set_same]
        exact hgrow hwrite
      · rwa [Tables.set_of_ne_index hji]
    · rwa [Tables.set_of_ne hut]

namespace PermissiveTree

/-- A load changes nothing but the log. -/
theorem load (h : PermissiveTree pgd T used s) (table : Pfn) (i : ℕ) :
    PermissiveTree pgd T used (s.load table i).2 :=
  ⟨h.root, h.describes, h.closed, h.inside, h.used, h.permissive⟩

/-- The write bit of an entry above the last level. -/
theorem permit (h : PermissiveTree pgd T used s) (hπ : π.length < 3) (hi : i < 512)
    (ht : T π = some table) (hf : T (i :: π) = some f) (flag : BitVec 32) :
    PermissiveTree pgd T used (permit flag table i s) ∧ StepAbove T s (permit flag table i s) ∧
      (flag &&& 0x2 = 2 → ((permit flag table i s).tables table i).Writable) := by
  unfold ContextMm.permit
  split_ifs with hflag
  · have hentry := h.describes.entry hπ.le hi ht
    have hwrite : Entry.Writable (s.tables table i ||| 0x2) :=
      (Entry.writable_or _ _).mpr (.inr (by decide))
    refine ⟨⟨h.root, h.describes.rewrite hπ.le ht ?_, h.closed, h.inside, h.used, ?_⟩,
      .of_set h.describes hπ ht rfl fun _ ↦ hwrite, fun _ ↦ ?_⟩
    · rw [hf] at hentry ⊢
      exact hentry.or_bits 0x2 (by decide)
    · have huser := h.permissive.user hπ hi ht (hf ▸ Option.some_ne_none f)
      have hpermissive := h.permissive.write_above h.describes h.closed hπ ht
        ((Entry.user_or _ 0x2).mpr (.inl huser)) (fun _ _ ↦ hwrite) (.inl hf)
      rwa [← hf, Function.update_eq_self] at hpermissive
    · rw [Machine.or_tables, Tables.set_same]
      exact hwrite
  · exact ⟨h, ⟨fun _ _ ↦ rfl, fun _ _ hwrite ↦ hwrite⟩, fun h ↦ absurd h hflag⟩

/-- A new table below an entry that is not present. -/
theorem newTable (h : PermissiveTree pgd T used s) (hsupplies : Supplies frames used s.calls last)
    (hlast : s.calls < last) (hπ : π.length < 3) (hi : i < 512) (ht : T π = some table)
    (hnone : T (i :: π) = none) :
    PermissiveTree pgd (Function.update T (i :: π) (some (frames s.calls)))
        (usedAfter frames used s.calls (s.calls + 1)) (newTable frames table i s).2 ∧
      StepAbove T s (newTable frames table i s).2 := by
  have hnew : ∀ ρ : TablePath, ρ.length ≤ 3 → T ρ ≠ some (frames s.calls) := fun ρ hρ hf ↦
    hsupplies.unused s.calls le_rfl hlast (h.used ρ _ hρ hf)
  have hentry : s.tables table i = 0 := by
    have hentry := h.describes.entry hπ.le hi ht
    rwa [hnone] at hentry
  have hne : table ≠ frames s.calls := fun heq ↦ hnew π hπ.le (heq ▸ ht)
  have hsame : ∀ (ρ : TablePath) (u : Pfn), ρ.length ≤ 3 → T ρ = some u →
      s.tables.zero (frames s.calls) u = s.tables u := fun ρ u hρ hu ↦
    Tables.zero_of_ne fun heq ↦ hnew ρ hρ (heq ▸ hu)
  have hzero : Describes 3 (s.tables.zero (frames s.calls)) T := h.describes.congr hsame
  have htables : (ContextMm.newTable frames table i s).2.tables =
      (s.tables.zero (frames s.calls)).set table i (0 ||| shifted (frames s.calls) ||| 0x5) :=
    newTable_tables hentry hne
  refine ⟨⟨?_, ?_, closed_update h.closed ht _, fun ρ hρ ↦ inside_update h.inside hπ.le hi ht hρ,
    fun ρ f hρ hf ↦ ?_, ?_⟩, ?_⟩
  · rw [Function.update_of_ne (List.cons_ne_nil i π).symm]
    exact h.root
  · rw [htables]
    exact h.describes.add_table hπ ht (encodes_shifted (hsupplies.small s.calls le_rfl hlast) 0x5
      (by decide) (by decide)) hnew fun j ↦ h.closed _ j hnone
  · rw [Function.update_apply] at hf
    split_ifs at hf
    · exact .inr ⟨s.calls, le_rfl, Nat.lt_succ_self _, Option.some.inj hf⟩
    · exact .inl (h.used ρ f hρ hf)
  · rw [htables]
    exact (h.permissive.congr hsame).write_above hzero h.closed hπ ht (entry_user _)
      (fun hne _ ↦ absurd hnone hne) (.inr fun j ↦ h.closed _ j hnone)
  · have hzeroed : StepAbove T s (s.zero (frames s.calls)) :=
      ⟨fun {ρ u j} hρ hu ↦ congrFun (hsame ρ u hρ.le hu) j, fun {σ u j} hσ hu hwrite ↦ by
        rwa [Machine.zero_tables, hsame σ u hσ.le hu]⟩
    refine hzeroed.trans (fun _ _ hf ↦ hf) (.of_set hzero hπ ht htables fun hwrite ↦ ?_)
    rw [Machine.zero_tables, hsame π table hπ.le ht, hentry] at hwrite
    exact absurd hwrite (by decide)

/-- The frames in use may be more than the tables. -/
theorem mono (h : PermissiveTree pgd T used s) (hused : ∀ f, used f → used' f) :
    PermissiveTree pgd T used' s :=
  ⟨h.root, h.describes, h.closed, h.inside, fun π f hπ hf ↦ hused f (h.used π f hπ hf),
    h.permissive⟩

/-- A level of the walk adds the table below an entry or finds it there. -/
theorem below (h : PermissiveTree pgd T used s) (hsupplies : Supplies frames used s.calls last)
    (hlast : (below frames table i s).2.calls ≤ last) (hπ : π.length < 3) (hi : i < 512)
    (ht : T π = some table) :
    PermissiveTree pgd (Function.update T (i :: π) (some (below frames table i s).1))
        (usedAfter frames used s.calls (ContextMm.below frames table i s).2.calls)
        (ContextMm.below frames table i s).2 ∧
      StepAbove T s (ContextMm.below frames table i s).2 ∧
      ∀ f, T (i :: π) = some f → f = (ContextMm.below frames table i s).1 := by
  have hentry := h.describes.entry hπ.le hi ht
  cases hbelow : T (i :: π) with
  | none =>
    rw [hbelow] at hentry
    rw [below_of_none hentry] at hlast ⊢
    obtain ⟨htree, hstep⟩ := (h.load table i).newTable hsupplies hlast hπ hi ht hbelow
    exact ⟨htree, ⟨hstep.kept, hstep.grown⟩, fun f hf ↦ by cases hf⟩
  | some f =>
    rw [hbelow] at hentry
    rw [below_of_some hentry, ← hbelow, Function.update_eq_self]
    exact ⟨((h.load table i).load table i).mono fun _ ↦ .inl,
      ⟨fun _ _ ↦ rfl, fun _ _ hwrite ↦ hwrite⟩, fun g hg ↦ (Option.some.inj (hbelow ▸ hg)).symm⟩

/-- A level of the walk, with the write bit. -/
theorem descend (h : PermissiveTree pgd T used s) (hsupplies : Supplies frames used s.calls last)
    (hlast : (descend frames flag table i s).2.calls ≤ last) (hπ : π.length < 3) (hi : i < 512)
    (ht : T π = some table) :
    PermissiveTree pgd (Function.update T (i :: π) (some (descend frames flag table i s).1))
        (usedAfter frames used s.calls (ContextMm.descend frames flag table i s).2.calls)
        (ContextMm.descend frames flag table i s).2 ∧
      StepAbove T s (ContextMm.descend frames flag table i s).2 ∧
      Walked T (Function.update T (i :: π) (some (ContextMm.descend frames flag table i s).1))
        (i :: π) ∧
      (flag &&& 0x2 = 2 →
        ((ContextMm.descend frames flag table i s).2.tables table i).Writable) := by
  rw [descend_eq] at hlast ⊢
  rw [calls_permit] at hlast ⊢
  obtain ⟨htree, hstep, hsame⟩ := h.below hsupplies hlast hπ hi ht
  have hwalked := walked_update h.closed ht hsame
  obtain ⟨hpermit, hstep', hwrite⟩ := htree.permit hπ hi (hwalked.keeps π table ht)
    (Function.update_self ..) flag
  exact ⟨hpermit, hstep.trans hwalked.keeps hstep', hwalked, hwrite⟩

end PermissiveTree

theorem calls_le_descend (frames : ℕ → Pfn) (flag : BitVec 32) (table : Pfn) (i : ℕ) (s : Machine) :
    s.calls ≤ (descend frames flag table i s).2.calls := by
  rw [descend_eq, calls_permit]
  exact calls_le_below frames table i s

theorem calls_le_mapPage (frames : ℕ → Pfn) (flag : BitVec 32) (table : Pfn) (i : ℕ) (s : Machine) :
    s.calls ≤ (mapPage frames flag table i s).calls := by
  by_cases hpresent : (s.tables table i).Present
  · rw [mapPage_present hpresent]
    exact le_rfl
  · rw [mapPage_absent hpresent, calls_permit]
    exact Nat.le_succ _

theorem calls_le_allocateLevels (frames : ℕ → Pfn) (flag : BitVec 32) (rest : List ℕ) (table : Pfn)
    (s : Machine) : s.calls ≤ (allocateLevels frames flag rest table s).calls := by
  induction rest generalizing table s with
  | nil => exact le_rfl
  | cons i rest ih =>
    cases rest with
    | nil => exact calls_le_mapPage frames flag table i s
    | cons j rest => exact (calls_le_descend frames flag table i s).trans (ih _ _)

/-! ### The page -/

/-- The entry of a new page. -/
def pageEntry (flag : BitVec 32) (f : Pfn) : Entry :=
  if flag &&& 0x2 = 2 then 0 ||| shifted f ||| 0x5 ||| 0x2 else 0 ||| shifted f ||| 0x5

theorem mapPage_tables (frames : ℕ → Pfn) (flag : BitVec 32) (hentry : s.tables table i = 0) :
    (mapPage frames flag table i s).tables =
        s.tables.set table i (pageEntry flag (frames s.calls)) ∧
      (mapPage frames flag table i s).calls = s.calls + 1 := by
  have habsent : ¬(s.tables table i).Present := by
    rw [hentry]
    decide
  rw [mapPage_absent habsent, pageEntry]
  unfold permit
  split_ifs
  · simp only [Machine.or_tables, Tables.set_same, Tables.set_set, osPfnAlloc, Machine.load, hentry,
      Machine.or_calls, and_self]
  · simp only [Machine.or_tables, Tables.set_same, Tables.set_set, osPfnAlloc, Machine.load, hentry,
      Machine.or_calls, and_self]

theorem pageEntry_encodes (flag : BitVec 32) (hf : Small f) :
    Encodes (pageEntry flag f) (some f) := by
  have hencodes := encodes_shifted hf 0x5 (by decide) (by decide)
  rw [pageEntry]
  split_ifs
  · exact hencodes.or_bits 0x2 (by decide)
  · exact hencodes

theorem pageEntry_user (flag : BitVec 32) (f : Pfn) : (pageEntry flag f).User := by
  rw [pageEntry]
  split_ifs
  · exact (Entry.user_or _ _).mpr (.inl (entry_user f))
  · exact entry_user f

theorem pageEntry_writable_iff (flag : BitVec 32) (f : Pfn) :
    (pageEntry flag f).Writable ↔ flag &&& 0x2 = 2 := by
  rw [pageEntry]
  split_ifs with hflag
  · exact iff_of_true ((Entry.writable_or _ _).mpr (.inr (by decide))) hflag
  · exact iff_of_false (entry_not_writable f) hflag

/-- A page has been added at place `q`: its entry permits user access, and writing when the segment
does, its frame was not in use, and the entries of the other pages are as they were. -/
structure PageAdded (flag : BitVec 32) (used : Pfn → Prop) (T T' : TablePath → Option Pfn)
    (s s' : Machine) (q : TablePath) : Prop where
  walked : Walked T T' q
  kept : ∀ {ρ : TablePath} {u : Pfn} {j : ℕ}, ρ.length = 3 → T ρ = some u → j :: ρ ≠ q →
    s'.tables u j = s.tables u j
  frame : ∀ f, T' q = some f → ¬used f
  entry : ∀ {ρ : TablePath} {u : Pfn} {j : ℕ}, j :: ρ = q → T' ρ = some u →
    (s'.tables u j).User ∧ ((s'.tables u j).Writable ↔ flag &&& 0x2 = 2)

namespace PermissiveTree

/-- The first level maps a page that is not there. Where the segment is writable, so are the entries
above. -/
theorem mapPage (h : PermissiveTree pgd T used s) (hsupplies : Supplies frames used s.calls last)
    (hlast : (mapPage frames flag table i s).calls ≤ last) (hπ : π.length = 3) (hi : i < 512)
    (ht : T π = some table) (hnone : T (i :: π) = none)
    (hway : flag &&& 0x2 = 2 → ∀ {σ : TablePath} {u : Pfn} {j : ℕ}, j :: σ <:+ π → T σ = some u →
      (s.tables u j).Writable) :
    ∃ T', PermissiveTree pgd T' used (Syscalls.mapPage frames flag table i s) ∧
      PageAdded flag used T T' s (Syscalls.mapPage frames flag table i s) (i :: π) := by
  have hentry : s.tables table i = 0 := by
    have hentry := h.describes.entry hπ.le hi ht
    rwa [hnone] at hentry
  obtain ⟨htables, hcalls⟩ := mapPage_tables frames flag hentry
  rw [hcalls] at hlast
  have hplace : ∀ ρ : TablePath, ρ.length ≤ 3 →
      Function.update T (i :: π) (some (frames s.calls)) ρ = T ρ := fun ρ hρ ↦
    Function.update_of_ne (fun heq ↦ by
      rw [heq, List.length_cons] at hρ
      omega) ..
  refine ⟨Function.update T (i :: π) (some (frames s.calls)), ⟨?_, ?_,
    closed_update h.closed ht _, fun ρ hρ ↦ inside_update h.inside hπ.le hi ht hρ,
    fun ρ f hρ hf ↦ h.used ρ f hρ (hplace ρ hρ ▸ hf), ?_⟩,
    ⟨walked_update h.closed ht fun g hg ↦ ?_, fun {ρ u j} hρ hu hne ↦ ?_, fun f hf ↦ ?_,
      fun {ρ u j} hq hu ↦ ?_⟩⟩
  · rw [hplace [] (Nat.zero_le 3)]
    exact h.root
  · rw [htables]
    exact h.describes.add_page hπ ht (pageEntry_encodes flag (hsupplies.small s.calls le_rfl hlast))
  · rw [htables]
    exact h.permissive.write_page h.describes hπ ht (fun j ↦ h.closed _ j hnone) fun hwrite ↦
      hway ((pageEntry_writable_iff flag _).mp hwrite)
  · rw [hnone] at hg
    cases hg
  · rw [htables]
    by_cases hut : u = table
    · have hρπ : ρ = π := h.describes.inj hρ.le hπ.le hu (hut ▸ ht)
      rw [hut, Tables.set_of_ne_index fun hji ↦ hne (by rw [hji, hρπ])]
    · rw [Tables.set_of_ne hut]
  · rw [Function.update_self] at hf
    rw [← Option.some.inj hf]
    exact hsupplies.unused s.calls le_rfl hlast
  · obtain ⟨rfl, rfl⟩ := List.cons.inj hq
    rw [hplace ρ hπ.le, ht] at hu
    rw [← Option.some.inj hu, htables, Tables.set_same]
    exact ⟨pageEntry_user flag _, pageEntry_writable_iff flag _⟩

/-- A walk adds a page that is not there, and the tables on the way where they are missing. -/
theorem allocateLevels {rest : List ℕ} (h : PermissiveTree pgd T used s)
    (hsupplies : Supplies frames used s.calls last)
    (hlast : (allocateLevels frames flag rest table s).calls ≤ last)
    (hlen : rest.length + π.length = 4) (hrest : rest ≠ []) (hidx : ∀ i ∈ rest, i < 512)
    (ht : T π = some table) (hnone : T (rest.reverse ++ π) = none)
    (hway : flag &&& 0x2 = 2 → ∀ {σ : TablePath} {u : Pfn} {j : ℕ}, j :: σ <:+ π → T σ = some u →
      (s.tables u j).Writable) :
    ∃ T', PermissiveTree pgd T'
        (usedAfter frames used s.calls (Syscalls.allocateLevels frames flag rest table s).calls)
        (Syscalls.allocateLevels frames flag rest table s) ∧
      PageAdded flag used T T' s (Syscalls.allocateLevels frames flag rest table s)
        (rest.reverse ++ π) := by
  induction rest generalizing T used s π table with
  | nil => exact absurd rfl hrest
  | cons i rest ih =>
    have hi : i < 512 := hidx i List.mem_cons_self
    cases rest with
    | nil =>
      have hπ : π.length = 3 := by
        rw [List.length_singleton] at hlen
        omega
      obtain ⟨T', htree, hadded⟩ := h.mapPage hsupplies hlast hπ hi ht hnone hway
      exact ⟨T', htree.mono fun _ ↦ .inl, hadded⟩
    | cons j rest =>
      have hπ : π.length < 3 := by
        simp only [List.length_cons] at hlen
        omega
      have hplace : (i :: j :: rest).reverse ++ π = (j :: rest).reverse ++ i :: π := by simp
      rw [hplace] at hnone ⊢
      obtain ⟨hdescend, hstep, hwalked, hwrite⟩ := h.descend hsupplies
        ((calls_le_allocateLevels frames flag (j :: rest) _ _).trans hlast) hπ hi ht
      have habove : ∀ ρ : TablePath, ρ ≠ i :: π →
          Function.update T (i :: π) (some (ContextMm.descend frames flag table i s).1) ρ = T ρ :=
        fun ρ hρ ↦ Function.update_of_ne hρ ..
      have hbelow : (j :: rest).reverse ++ i :: π ≠ i :: π := fun heq ↦ by
        have hlength := congrArg List.length heq
        rw [List.length_append, List.length_reverse, List.length_cons] at hlength
        omega
      obtain ⟨T', htree, hadded⟩ := ih hdescend
        (hsupplies.later (calls_le_descend frames flag table i s)) hlast
        (by simp only [List.length_cons] at hlen ⊢; omega) (List.cons_ne_nil j rest)
        (fun m hm ↦ hidx m (List.mem_cons_of_mem i hm)) (Function.update_self ..)
        ((habove _ hbelow).trans hnone) (fun hflag {σ u k} hσ hu ↦ by
          have hle := hσ.length_le
          rw [List.length_cons, List.length_cons] at hle
          rw [habove σ fun heq ↦ by rw [heq, List.length_cons] at hle; omega] at hu
          rcases List.suffix_cons_iff.mp hσ with heq | hσ
          · obtain ⟨rfl, rfl⟩ := List.cons.inj heq
            rw [← Option.some.inj (ht.symm.trans hu)]
            exact hwrite hflag
          · exact hstep.grown (by omega) hu (hway hflag hσ hu))
      exact ⟨T', htree.mono fun f ↦ usedAfter_of_later (calls_le_descend frames flag table i s)
          (calls_le_allocateLevels frames flag (j :: rest) _ _),
            hwalked.trans hadded.walked (List.suffix_append _ _),
        fun hρ hu hne ↦ (hadded.kept hρ (hwalked.keeps _ _ hu) hne).trans (hstep.kept hρ hu),
        fun f hf hused ↦ hadded.frame f hf (.inl hused), hadded.entry⟩

/-- Where the page is there already, the tree stays as it is. -/
theorem allocateLevels_present {rest : List ℕ} (h : PermissiveTree pgd T used s)
    (hlen : rest.length + π.length = 4) (hrest : rest ≠ []) (hidx : ∀ i ∈ rest, i < 512)
    (ht : T π = some table) (hne : T (rest.reverse ++ π) ≠ none) :
    PermissiveTree pgd T used (Syscalls.allocateLevels frames flag rest table s) := by
  induction rest generalizing s π table with
  | nil => exact absurd rfl hrest
  | cons i rest ih =>
    have hi : i < 512 := hidx i List.mem_cons_self
    have hplace : (i :: rest).reverse ++ π = rest.reverse ++ i :: π := by simp
    rw [hplace] at hne
    obtain ⟨f, hf⟩ := Option.ne_none_iff_exists'.mp
      (ne_none_of_suffix h.closed (List.suffix_append rest.reverse (i :: π)) hne)
    have hentry := h.describes.entry (by rw [List.length_cons] at hlen; omega) hi ht
    rw [hf] at hentry
    cases rest with
    | nil =>
      change PermissiveTree pgd T used (Syscalls.mapPage frames flag table i s)
      rw [mapPage_present hentry.1]
      exact h.load table i
    | cons j rest =>
      have hπ : π.length < 3 := by
        simp only [List.length_cons] at hlen
        omega
      change PermissiveTree pgd T used (Syscalls.allocateLevels frames flag (j :: rest)
        (ContextMm.descend frames flag table i s).1 (ContextMm.descend frames flag table i s).2)
      rw [descend_eq, below_of_some hentry]
      exact ih (((h.load table i).load table i).permit hπ hi ht hf flag).1
        (by simp only [List.length_cons] at hlen ⊢; omega) (List.cons_ne_nil j rest)
        (fun m hm ↦ hidx m (List.mem_cons_of_mem i hm)) hf hne

end PermissiveTree

end Levels

/-! ### What the hardware finds -/

/-- The walk of an address ends at a page and permits user access. -/
def UserAt (p : State) (va : BitVec 64) : Prop :=
  ∃ es, hardwareWalk p.machine.tables p.current.pgd va = some es ∧ ∀ e ∈ es, e.User

/-- The walk of an address ends at a page and permits writing. -/
def WritableAt (p : State) (va : BitVec 64) : Prop :=
  ∃ es, hardwareWalk p.machine.tables p.current.pgd va = some es ∧ ∀ e ∈ es, e.Writable

section Hardware

variable {frames : ℕ → Pfn} {used : Pfn → Prop} {p p' : State} {T T' : TablePath → Option Pfn}
  {va vb : BitVec 64} {ρ : TablePath} {u f : Pfn} {j : ℕ} {flag : BitVec 32}

theorem PermissiveTree.pageTree (h : PermissiveTree p.current.pgd T used p.machine) :
    PageTree p T :=
  ⟨h.root, h.describes, h.closed⟩

theorem TreeConditions.permissiveTree (h : TreeConditions p.machine.tables p.current.pgd)
    (hzero : AbsentZero p.machine.tables p.current.pgd)
    (hused : ∀ π f, π.length ≤ 3 → frameAt p.machine.tables p.current.pgd π = some f → used f) :
    PermissiveTree p.current.pgd (frameAt p.machine.tables p.current.pgd) used p.machine :=
  ⟨rfl, h.describes hzero, frameAt_closed, frameAt_inside, hused, h.permissive⟩

theorem PermissiveTree.treeConditions (h : PermissiveTree p.current.pgd T used p.machine) :
    TreeConditions p.machine.tables p.current.pgd ∧ AbsentZero p.machine.tables p.current.pgd := by
  have hframes := frameAt_eq h.describes h.root h.closed h.inside
  refine treeConditions_of_permissive ?_ ?_
  · rw [hframes]
    exact h.describes
  · rw [hframes]
    exact h.permissive

/-- The entry of a page decides what the page permits. -/
theorem PermissiveTree.walk_iff (h : PermissiveTree p.current.pgd T used p.machine)
    (hva : va.toNat < 2 ^ 48) (hplace : place va = j :: ρ) (hu : T ρ = some u)
    (hne : T (place va) ≠ none) :
    ∃ es, hardwareWalk p.machine.tables p.current.pgd va = some es ∧
      ((∀ e ∈ es, e.User) ↔ (p.machine.tables u j).User) ∧
      ((∀ e ∈ es, e.Writable) ↔ (p.machine.tables u j).Writable) := by
  have hlength := congrArg List.length hplace
  rw [hardwareWalk, hardwareIndices_eq hva]
  refine h.permissive.walk_iff h.describes h.closed h.root (indices_lt hva) hplace ?_ hu
    (hplace ▸ hne)
  rw [List.length_cons] at hlength
  exact (Nat.succ_injective hlength).symm

theorem PermissiveTree.at_iff (h : PermissiveTree p.current.pgd T used p.machine)
    (hva : va.toNat < 2 ^ 48) (hplace : place va = j :: ρ) (hu : T ρ = some u)
    (hne : T (place va) ≠ none) :
    (UserAt p va ↔ (p.machine.tables u j).User) ∧
      (WritableAt p va ↔ (p.machine.tables u j).Writable) := by
  obtain ⟨es, hwalk, huser, hwritable⟩ := h.walk_iff hva hplace hu hne
  rw [UserAt, WritableAt, hwalk, ← huser, ← hwritable]
  simp only [Option.some.injEq, exists_eq_left', and_self]

/-- The new page. -/
theorem PageAdded.mapsTo (h : PageAdded flag used T T' p.machine p'.machine (place va))
    {used' : Pfn → Prop} (htree : PermissiveTree p'.current.pgd T' used' p'.machine)
    (hva : va.toNat < 2 ^ 48) :
    ∃ f, ¬used f ∧ MapsTo p'.machine.tables p'.current.pgd va (flag &&& 0x2 = 2) f := by
  have hne : T' (place va) ≠ none := (h.walked.dom _).mpr (.inr List.suffix_rfl)
  obtain ⟨f, hf⟩ := Option.ne_none_iff_exists'.mp hne
  obtain ⟨j, ρ, hplace⟩ : ∃ j ρ, place va = j :: ρ := ⟨_, _, rfl⟩
  obtain ⟨u, hu⟩ := Option.ne_none_iff_exists'.mp fun hnone ↦
    hne (hplace ▸ htree.closed ρ j hnone)
  obtain ⟨es, hwalk, huser, hwritable⟩ := htree.walk_iff hva hplace hu hne
  have hentry := h.entry hplace.symm hu
  have hlast := htree.pageTree.translate_eq hva
  rw [translate, hwalk, Option.bind_some, hf] at hlast
  refine ⟨f, h.frame f hf, es, hwalk, length_of_walk hwalk, huser.mpr hentry.1,
    hwritable.trans hentry.2, fun e he ↦ ?_⟩
  rw [Option.mem_def.mp he, Option.map_some] at hlast
  exact Option.some.inj hlast

/-- Another page. -/
theorem PageAdded.other (h : PageAdded flag used T T' p.machine p'.machine (place va))
    (htree : PermissiveTree p.current.pgd T used p.machine) {used' : Pfn → Prop}
    (htree' : PermissiveTree p'.current.pgd T' used' p'.machine) (hva : va.toNat < 2 ^ 48)
    (hvb : vb.toNat < 2 ^ 48) (hother : vb.toNat / 4096 ≠ va.toNat / 4096) :
    translate p' vb = translate p vb ∧ (UserAt p' vb ↔ UserAt p vb) ∧
      (WritableAt p' vb ↔ WritableAt p vb) := by
  have hplaces : place vb ≠ place va := fun heq ↦ hother ((place_eq_iff hvb hva).mp heq)
  have hdom : T' (place vb) ≠ none ↔ T (place vb) ≠ none := by
    rw [h.walked.dom, or_iff_left fun hsuffix ↦ hplaces (hsuffix.eq_of_length rfl)]
  rw [htree.pageTree.translate_eq hvb, htree'.pageTree.translate_eq hvb]
  cases hold : T (place vb) with
  | none =>
    have hnone : T' (place vb) = none := by
      rw [hold] at hdom
      exact not_not.mp fun hne ↦ hdom.mp hne rfl
    rw [UserAt, UserAt, WritableAt, WritableAt, htree.pageTree.walk_none hvb hold,
      htree'.pageTree.walk_none hvb hnone]
    simp only [hnone, reduceCtorEq, false_and, exists_false, and_self]
  | some g =>
    have hne : T (place vb) ≠ none := hold ▸ Option.some_ne_none g
    obtain ⟨j, ρ, hplace⟩ : ∃ j ρ, place vb = j :: ρ := ⟨_, _, rfl⟩
    have hρ : ρ.length = 3 := (Nat.succ_injective (congrArg List.length hplace)).symm
    obtain ⟨u, hu⟩ := Option.ne_none_iff_exists'.mp fun hnone ↦
      hne (hplace ▸ htree.closed ρ j hnone)
    have hat := htree.at_iff hvb hplace hu hne
    have hat' := htree'.at_iff hvb hplace (h.walked.keeps ρ u hu) (hdom.mpr hne)
    rw [h.kept hρ hu (hplace ▸ hplaces)] at hat'
    exact ⟨h.walked.keeps _ g hold, hat'.1.trans hat.1.symm, hat'.2.trans hat.2.symm⟩

/-- A call of `allocate` for a page that is not there adds it. -/
theorem PermissiveTree.allocate_absent {m : MmSegment}
    (h : PermissiveTree p.current.pgd T used p.machine) (hva : va.toNat < 2 ^ 48)
    (hnone : T (place va) = none)
    (hsupplies : Supplies frames used p.machine.calls (allocate frames va m p).machine.calls) :
    ∃ T', PermissiveTree p.current.pgd T'
        (usedAfter frames used p.machine.calls (allocate frames va m p).machine.calls)
        (allocate frames va m p).machine ∧
      PageAdded m.accessFlags used T T' p.machine (allocate frames va m p).machine (place va) := by
  rw [← List.append_nil (place va)] at hnone ⊢
  exact h.allocateLevels hsupplies le_rfl rfl (List.cons_ne_nil _ _) (indices_lt hva) h.root hnone
    fun _ _ _ _ hσ ↦ absurd (List.suffix_nil.mp hσ) (List.cons_ne_nil _ _)

/-- After a call of `allocate` the tables are those from before and frames that it was served. -/
theorem TreeConditions.usedAfter_allocate {m : MmSegment}
    (h : TreeConditions p.machine.tables p.current.pgd)
    (hzero : AbsentZero p.machine.tables p.current.pgd)
    (hused : ∀ π f, π.length ≤ 3 → frameAt p.machine.tables p.current.pgd π = some f → used f)
    (hva : va.toNat < 2 ^ 48) (hnone : frameAt p.machine.tables p.current.pgd (place va) = none)
    (hsupplies : Supplies frames used p.machine.calls (allocate frames va m p).machine.calls)
    {π : TablePath} (hπ : π.length ≤ 3)
    (hf : frameAt (allocate frames va m p).machine.tables p.current.pgd π = some f) :
    usedAfter frames used p.machine.calls (allocate frames va m p).machine.calls f := by
  obtain ⟨T, htree, -⟩ := (h.permissiveTree hzero hused).allocate_absent hva hnone hsupplies
  rw [frameAt_eq htree.describes htree.root htree.closed htree.inside] at hf
  exact htree.used π f hπ hf

/-- A call of `allocate` maps no page but the one of its address. -/
theorem PermissiveTree.page_of_newly_mapped {m : MmSegment}
    (h : PermissiveTree p.current.pgd T used p.machine) (hva : va.toNat < 2 ^ 48)
    (hvb : vb.toNat < 2 ^ 48)
    (hsupplies : Supplies frames used p.machine.calls (allocate frames va m p).machine.calls)
    (hold : hardwareWalk p.machine.tables p.current.pgd vb = none)
    (hnew : hardwareWalk (allocate frames va m p).machine.tables p.current.pgd vb ≠ none) :
    vb.toNat / 4096 = va.toNat / 4096 := by
  have hnone : T (place vb) = none := by
    rw [← h.pageTree.translate_eq hvb, translate, hold, Option.bind_none]
  by_contra hother
  have hplaces : place vb ≠ place va := fun heq ↦ hother ((place_eq_iff hvb hva).mp heq)
  cases hplace : T (place va) with
  | none =>
    obtain ⟨T', htree, hadded⟩ := h.allocate_absent hva hplace hsupplies
    have hpages : PageTree (allocate frames va m p) T' :=
      ⟨htree.root, htree.describes, htree.closed⟩
    refine hnew (hpages.walk_none hvb ?_)
    by_contra hne
    rcases (hadded.walked.dom _).mp hne with hin | hsuffix
    · exact hin hnone
    · exact hplaces (hsuffix.eq_of_length rfl)
  | some f =>
    have htree : PermissiveTree p.current.pgd T used (allocate frames va m p).machine :=
      h.allocateLevels_present (by simp [indices]) (List.cons_ne_nil _ _) (indices_lt hva) h.root
        (by
          rw [List.append_nil]
          exact hplace ▸ Option.some_ne_none f)
    have hpages : PageTree (allocate frames va m p) T := ⟨htree.root, htree.describes, htree.closed⟩
    exact hnew (hpages.walk_none hvb hnone)

end Hardware

/-- `allocate` maps the page of an address that is not mapped to a fresh frame, with the permissions
of the segment, and leaves every other page and the conditions on the tree as they are. -/
theorem allocate_maps_one_page (frames : ℕ → Pfn) (p : State) (m : MmSegment) (va : BitVec 64)
    (used : Pfn → Prop) (hconditions : TreeConditions p.machine.tables p.current.pgd)
    (hzero : AbsentZero p.machine.tables p.current.pgd) (hva : va.toNat < 2 ^ 48)
    (hunmapped : hardwareWalk p.machine.tables p.current.pgd va = none)
    (hused : ∀ π f, π.length ≤ 3 → frameAt p.machine.tables p.current.pgd π = some f → used f)
    (hsupplies : Supplies frames used p.machine.calls (allocate frames va m p).machine.calls) :
    let p' := allocate frames va m p
    TreeConditions p'.machine.tables p'.current.pgd ∧ AbsentZero p'.machine.tables p'.current.pgd ∧
      (∃ f, ¬used f ∧
        MapsTo p'.machine.tables p'.current.pgd va (m.accessFlags &&& 0x2 = 2) f) ∧
      ∀ vb : BitVec 64, vb.toNat < 2 ^ 48 → vb.toNat / 4096 ≠ va.toNat / 4096 →
        translate p' vb = translate p vb ∧ (UserAt p' vb ↔ UserAt p vb) ∧
          (WritableAt p' vb ↔ WritableAt p vb) := by
  intro p'
  have htree := hconditions.permissiveTree hzero hused
  have hnone : frameAt p.machine.tables p.current.pgd (place va) = none := by
    rw [← htree.pageTree.translate_eq hva, translate, hunmapped, Option.bind_none]
  obtain ⟨T', htree', hadded⟩ := htree.allocate_absent hva hnone hsupplies
  have htree'' : PermissiveTree p'.current.pgd T'
      (usedAfter frames used p.machine.calls p'.machine.calls) p'.machine := htree'
  obtain ⟨hconditions', hzero'⟩ := htree''.treeConditions
  exact ⟨hconditions', hzero', hadded.mapsTo htree'' hva,
    fun vb hvb hother ↦ hadded.other htree htree'' hva hvb hother⟩

/-- A root table without present entries is the only table. -/
theorem eq_root_of_empty {m : Tables} {pgd f : Pfn} {π : TablePath}
    (hempty : ∀ i < 512, ¬(m pgd i).Present) (hf : frameAt m pgd π = some f) :
    π = [] ∧ f = pgd := by
  have hnone : ∀ (i : ℕ) (π : TablePath), frameAt m pgd (i :: π) = none := by
    intro i π
    induction π generalizing i with
    | nil => exact if_neg fun h ↦ hempty i h.2.1 h.2.2
    | cons j π ih => exact frameAt_closed (j :: π) i (ih j)
  cases π with
  | nil => exact ⟨rfl, (Option.some.inj hf).symm⟩
  | cons i π =>
    rw [hnone] at hf
    cases hf

theorem treeConditions_of_empty {m : Tables} {pgd : Pfn} (hempty : ∀ i < 512, ¬(m pgd i).Present) :
    TreeConditions m pgd := by
  refine ⟨fun π ρ f _ _ hf hf' ↦
    (eq_root_of_empty hempty hf).1.trans (eq_root_of_empty hempty hf').1.symm,
    fun π t i _ hi ht hpresent ↦ ?_, fun π t i hπ _ ht _ _ _ _ _ _ _ ↦ ?_⟩
  · rw [(eq_root_of_empty hempty ht).2] at hpresent
    exact absurd hpresent (hempty i hi)
  · rw [(eq_root_of_empty hempty ht).1] at hπ
    cases hπ

/-- Five small frames other than the root table. -/
theorem supplies_upwards : Supplies ContextMm.upwards (· = 0x2000) 0 5 := by
  have hsmall : ∀ n < 5, Small (ContextMm.upwards n) ∧ ContextMm.upwards n ≠ 0x2000 := by decide
  have hdistinct : ∀ k < 5, ∀ n < k, ContextMm.upwards n ≠ ContextMm.upwards k := by decide
  exact ⟨fun n _ hn ↦ (hsmall n hn).1, fun n _ hn ↦ (hsmall n hn).2,
    fun n k _ hnk hk ↦ hdistinct k hk n hnk⟩

/-- Two pages of data one after the other: the second call leaves the first page as it is. -/
theorem allocate_maps_one_page_beside :
    let p := allocate ContextMm.upwards 0x180000000 (untouched.current.mms .data) untouched
    let p' := allocate ContextMm.upwards 0x180001000 (untouched.current.mms .data) p
    (∃ f, f ≠ 4 ∧ MapsTo p'.machine.tables p'.current.pgd 0x180001000 True f) ∧
      translate p 0x180000000 = some 4 ∧ translate p' 0x180000000 = some 4 ∧
      UserAt p' 0x180000000 ∧ WritableAt p' 0x180000000 := by
  intro p p'
  have hempty : ∀ i < 512, ¬(untouched.machine.tables untouched.current.pgd i).Present := fun _ _ ↦
    Encodes.not_present rfl
  have hzero : AbsentZero untouched.machine.tables untouched.current.pgd := fun _ _ _ _ _ _ _ ↦ rfl
  have hroot : ∀ π f, π.length ≤ 3 →
      frameAt untouched.machine.tables untouched.current.pgd π = some f → f = 0x2000 :=
    fun π f _ hf ↦ (eq_root_of_empty hempty hf).2
  have hcalls : p.machine.calls = 4 := by decide
  have hcalls' : p'.machine.calls = 5 := by decide
  have hfirst : Supplies ContextMm.upwards (· = 0x2000) 0 p.machine.calls :=
    supplies_upwards.earlier (by omega)
  have hsecond : Supplies ContextMm.upwards
      (usedAfter ContextMm.upwards (· = 0x2000) 0 p.machine.calls) p.machine.calls
      p'.machine.calls :=
    hcalls' ▸ supplies_upwards.later (Nat.zero_le _)
  have hlow : (0x180000000 : BitVec 64).toNat < 2 ^ 48 := by decide
  have hroom : hardwareWalk p.machine.tables p.current.pgd 0x180001000 = none := by decide
  obtain ⟨hconditions, hzero', ⟨f, -, es, hwalk, -, huser, hwrite, -⟩, -⟩ :=
    allocate_maps_one_page ContextMm.upwards untouched (untouched.current.mms .data) 0x180000000
      (· = 0x2000) (treeConditions_of_empty hempty) hzero hlow rfl hroot hfirst
  have hused : ∀ π f, π.length ≤ 3 → frameAt p.machine.tables p.current.pgd π = some f →
      usedAfter ContextMm.upwards (· = 0x2000) 0 p.machine.calls f := fun _ _ hπ hf ↦
    (treeConditions_of_empty hempty).usedAfter_allocate hzero hroot hlow rfl hfirst hπ hf
  obtain ⟨-, -, ⟨f', hf', hmaps⟩, hother⟩ :=
    allocate_maps_one_page ContextMm.upwards p (untouched.current.mms .data) 0x180001000
      _ hconditions hzero' (by decide) hroom hused hsecond
  obtain ⟨hframe, huser', hwritable'⟩ := hother 0x180000000 hlow (by decide)
  have hmapped : translate p 0x180000000 = some 4 := by decide
  have hallowed : (untouched.current.mms .data).accessFlags &&& 0x2 = 2 := by decide
  refine ⟨⟨f', fun heq ↦ hf' (.inr ⟨3, Nat.zero_le _, by omega, heq.symm⟩), ?_⟩, hmapped,
    hframe.trans hmapped, huser'.mpr ⟨es, hwalk, huser⟩,
      hwritable'.mpr ⟨es, hwalk, hwrite.mpr hallowed⟩⟩
  rwa [eq_true hallowed] at hmaps

/-- A process with bits left over in the first entry of its root table, which is not present. -/
def leftover : State :=
  { untouched with machine := ⟨Tables.set (fun _ _ ↦ 0) 0x2000 0 0x2000, 0, []⟩ }

/-- The bits that are left over are combined with the frame of the new table, and the page is not
found. -/
theorem leftover_bits_misdirect :
    let p' := allocate ContextMm.upwards 0x180000000 (leftover.current.mms .data) leftover
    TreeConditions leftover.machine.tables leftover.current.pgd ∧
      hardwareWalk leftover.machine.tables leftover.current.pgd 0x180000000 = none ∧
      (∀ π f, π.length ≤ 3 → frameAt leftover.machine.tables leftover.current.pgd π = some f →
        f = 0x2000) ∧
      Supplies ContextMm.upwards (· = 0x2000) leftover.machine.calls p'.machine.calls ∧
      hardwareWalk p'.machine.tables p'.current.pgd 0x180000000 = none := by
  intro p'
  have hempty : ∀ i < 512, ¬(leftover.machine.tables leftover.current.pgd i).Present := fun i _ ↦ by
    by_cases hi : i = 0
    · rw [hi]
      decide
    · have hzero : Tables.set (fun _ _ ↦ 0) 0x2000 0 0x2000 0x2000 i = 0 :=
        Tables.set_of_ne_index hi
      exact Encodes.not_present hzero
  have hcalls : p'.machine.calls = 4 := by
    decide
  exact ⟨treeConditions_of_empty hempty, by decide, fun π f _ hf ↦ (eq_root_of_empty hempty hf).2,
    supplies_upwards.earlier (hcalls ▸ by decide), by decide⟩

end OsAssignments.Paging.Syscalls
