import OsAssignments.Paging.Shrink

/-!
# The frames of a process

`Accounted pgd T s` says that the page tables in memory are the tree `T` and that the frames in use
are accounted for: the tables are frames in use, and the user frames in use are those of the pages,
each mapped once. `allocate` adds the tables on the way to a page and the page, where they are
missing (`Accounted.allocateLevels`), and taking pages out keeps the account as well
(`Accounted.unmap`).

What is assumed of `os_pfn_alloc` is that the frames it returns are below `2 ^ 20` and not in use,
for the calls in the log (`AllocsUnused`).
-/

set_option autoImplicit false
set_option relaxedAutoImplicit false

namespace OsAssignments.Paging.Syscalls

open OsAssignments.Library
open ContextMm (permit descend newTable below below_of_none below_of_some descend_eq newTable_tables
  pruned pruned_cons
  pruned_of_notMem pruned_eq_some Walked walked_update)

/-- The frames whose number survives the shift into an entry. -/
def Small (f : Pfn) : Prop := f.toNat < 2 ^ 20

instance : DecidablePred Small := fun _ ↦ inferInstanceAs (Decidable (_ < _))

instance : Fintype Region := ⟨{.osDs, .osPt, .user}, fun r ↦ by cases r <;> decide⟩

/-- The page tables are a tree, and its frames are the frames in use. -/
structure Accounted (pgd : Pfn) (T : TablePath → Option Pfn) (s : Machine) : Prop where
  root : T [] = some pgd
  describes : Describes 3 s.tables T
  closed : ∀ π i, T π = none → T (i :: π) = none
  inside : ∀ π, T π ≠ none → π.length ≤ 4 ∧ ∀ i ∈ π, i < 512
  tables : ∀ π f, π.length ≤ 3 → T π = some f → InUse s.log Region.osPt f
  user : ∀ f, InUse s.log Region.user f ↔ ∃ π : TablePath, π.length = 4 ∧ T π = some f
  distinct : ∀ π ρ f, π.length = 4 → ρ.length = 4 → T π = some f → T ρ = some f → π = ρ
  frees : FreesInUse s.log

variable {frames : ℕ → Pfn} {pgd table f : Pfn} {flag : BitVec 32} {T : TablePath → Option Pfn}
  {R : List TablePath} {s s' : Machine} {π ρ : TablePath} {i : ℕ}

/-! ### The log -/

theorem log_permit (flag : BitVec 32) (table : Pfn) (i : ℕ) (s : Machine) :
    s.log <:+ (permit flag table i s).log := by
  unfold permit
  split_ifs
  · exact List.suffix_append [.access table, .access table] s.log
  · exact List.suffix_rfl

theorem log_below (frames : ℕ → Pfn) (table : Pfn) (i : ℕ) (s : Machine) :
    s.log <:+ (below frames table i s).2.log := by
  unfold below
  split_ifs
  · exact List.suffix_append [.access table, .access table, .access table, .access table,
      .access (frames s.calls), .alloc .osPt (frames s.calls), .access table] s.log
  · exact List.suffix_append [.access table, .access table] s.log

theorem log_descend (frames : ℕ → Pfn) (flag : BitVec 32) (table : Pfn) (i : ℕ) (s : Machine) :
    s.log <:+ (descend frames flag table i s).2.log := by
  rw [descend_eq]
  exact (log_below frames table i s).trans (log_permit flag table i _)

theorem mapPage_present (h : (s.tables table i).Present) :
    mapPage frames flag table i s = (s.load table i).2 :=
  if_pos h

theorem mapPage_absent (h : ¬(s.tables table i).Present) :
    mapPage frames flag table i s = permit flag table i
      (((osPfnAlloc frames .user (s.load table i).2).2.or table i
        (shifted (frames s.calls))).or table i 0x5) :=
  if_neg h

theorem log_mapPage (frames : ℕ → Pfn) (flag : BitVec 32) (table : Pfn) (i : ℕ) (s : Machine) :
    s.log <:+ (mapPage frames flag table i s).log := by
  by_cases hpresent : (s.tables table i).Present
  · rw [mapPage_present hpresent]
    exact List.suffix_cons _ s.log
  · rw [mapPage_absent hpresent]
    refine List.IsSuffix.trans ?_ (log_permit flag table i _)
    exact List.suffix_append [.access table, .access table, .access table, .access table,
      .alloc .user (frames s.calls), .access table] s.log

theorem log_allocateLevels (frames : ℕ → Pfn) (flag : BitVec 32) (rest : List ℕ) (table : Pfn)
    (s : Machine) : s.log <:+ (allocateLevels frames flag rest table s).log := by
  induction rest generalizing table s with
  | nil => exact List.suffix_rfl
  | cons i rest ih =>
    cases rest with
    | nil => exact log_mapPage frames flag table i s
    | cons j rest => exact (log_descend frames flag table i s).trans (ih _ _)

theorem allocsUnused_of_suffix {ok : Pfn → Prop} {log log' : List (FrameEvent Region Pfn)}
    (hsuffix : log <:+ log') (h : AllocsUnused ok log') : AllocsUnused ok log := by
  obtain ⟨new, rfl⟩ := hsuffix
  exact h.of_append

namespace Accounted

/-- A load changes nothing but the log. -/
theorem load (h : Accounted pgd T s) (table : Pfn) (i : ℕ) : Accounted pgd T (s.load table i).2 :=
  ⟨h.root, h.describes, h.closed, h.inside, h.tables, h.user, h.distinct, h.frees⟩

/-- Setting the write bit of an entry of the tree. -/
theorem permit (h : Accounted pgd T s) (hπ : π.length ≤ 3) (hi : i < 512) (ht : T π = some table)
    (hf : T (i :: π) = some f) (flag : BitVec 32) :
    Accounted pgd T (permit flag table i s) := by
  unfold ContextMm.permit
  split_ifs
  · refine ⟨h.root, h.describes.rewrite hπ ht ?_, h.closed, h.inside, h.tables, h.user, h.distinct,
      h.frees⟩
    have hentry := h.describes.entry hπ hi ht
    rw [hf] at hentry ⊢
    exact hentry.or_bits 0x2 (by decide)
  · exact h

/-- A new table below an entry that is not present. -/
theorem newTable (h : Accounted pgd T s) (hπ : π.length < 3) (hi : i < 512) (ht : T π = some table)
    (hnone : T (i :: π) = none)
    (hunused : AllocsUnused Small (newTable frames table i s).2.log) :
    Accounted pgd (Function.update T (i :: π) (some (frames s.calls)))
      (newTable frames table i s).2 := by
  have hfresh : (Small (frames s.calls) ∧ ∀ r, ¬InUse s.log r (frames s.calls)) ∧ _ := hunused
  obtain ⟨⟨hsmall, hfree⟩, -⟩ := hfresh
  have hnew : ∀ ρ : TablePath, ρ.length ≤ 3 → T ρ ≠ some (frames s.calls) := fun ρ hρ hf ↦
    hfree .osPt (h.tables ρ _ hρ hf)
  have hentry : s.tables table i = 0 := by
    have hentry := h.describes.entry hπ.le hi ht
    rwa [hnone] at hentry
  have hne : table ≠ frames s.calls := fun heq ↦ hnew π hπ.le (heq ▸ ht)
  have hpage : ∀ ρ : TablePath, ρ.length = 4 →
      Function.update T (i :: π) (some (frames s.calls)) ρ = T ρ := fun ρ hρ ↦
    Function.update_of_ne (fun heq ↦ by
      rw [heq, List.length_cons] at hρ
      omega) ..
  refine ⟨?_, ?_, closed_update h.closed ht _,
    fun ρ hρ ↦ inside_update h.inside hπ.le hi ht hρ, fun ρ f hρ hf ↦ ?_,
    fun f ↦ ?_, fun ρ σ f hρ hσ hf hf' ↦ ?_, h.frees⟩
  · rw [Function.update_of_ne (List.cons_ne_nil i π).symm]
    exact h.root
  · rw [newTable_tables hentry hne]
    exact h.describes.add_table hπ ht (encodes_shifted hsmall 0x5 (by decide) (by decide)) hnew
      fun j ↦ h.closed _ j hnone
  · change (Region.osPt, f) = (Region.osPt, frames s.calls) ∨ InUse s.log .osPt f
    rw [Function.update_apply] at hf
    split_ifs at hf
    · rw [Option.some.inj hf]
      exact .inl rfl
    · exact .inr (h.tables ρ f hρ hf)
  · change (Region.user, f) = (Region.osPt, frames s.calls) ∨ InUse s.log .user f ↔ _
    rw [or_iff_right (by simp), h.user f]
    exact exists_congr fun ρ ↦ and_congr_right fun hρ ↦ by rw [hpage ρ hρ]
  · rw [hpage ρ hρ] at hf
    rw [hpage σ hσ] at hf'
    exact h.distinct ρ σ f hρ hσ hf hf'

/-- A level of the walk adds the table below an entry or finds it there. -/
theorem below (h : Accounted pgd T s) (hπ : π.length < 3) (hi : i < 512) (ht : T π = some table)
    (hunused : AllocsUnused Small (below frames table i s).2.log) :
    Accounted pgd (Function.update T (i :: π) (some (below frames table i s).1))
        (below frames table i s).2 ∧
      ∀ f, T (i :: π) = some f → f = (ContextMm.below frames table i s).1 := by
  have hentry := h.describes.entry hπ.le hi ht
  cases hbelow : T (i :: π) with
  | none =>
    rw [hbelow] at hentry
    rw [below_of_none hentry] at hunused ⊢
    exact ⟨(h.load table i).newTable hπ hi ht hbelow hunused, fun f hf ↦ by cases hf⟩
  | some f =>
    rw [hbelow] at hentry
    rw [below_of_some hentry, ← hbelow, Function.update_eq_self]
    exact ⟨(h.load table i).load table i, fun g hg ↦ (Option.some.inj (hbelow ▸ hg)).symm⟩

/-- A level of the walk, with the write bit. -/
theorem descend (h : Accounted pgd T s) (hπ : π.length < 3) (hi : i < 512) (ht : T π = some table)
    (hunused : AllocsUnused Small (descend frames flag table i s).2.log) :
    Accounted pgd (Function.update T (i :: π) (some (descend frames flag table i s).1))
        (descend frames flag table i s).2 ∧
      ∀ f, T (i :: π) = some f → f = (ContextMm.descend frames flag table i s).1 := by
  rw [descend_eq] at hunused ⊢
  obtain ⟨hbelow, hsame⟩ := h.below hπ hi ht
    (allocsUnused_of_suffix (log_permit flag table i _) hunused)
  refine ⟨hbelow.permit hπ.le hi ?_ (Function.update_self ..) flag, hsame⟩
  rw [Function.update_of_ne (List.cons_ne_self i π).symm, ht]

/-- A page below an entry of the last level that is not present. -/
theorem newPage (h : Accounted pgd T s) (hπ : π.length = 3) (hi : i < 512) (ht : T π = some table)
    (hnone : T (i :: π) = none) (hsmall : Small (frames s.calls))
    (hfree : ∀ r, ¬InUse s.log r (frames s.calls)) :
    Accounted pgd (Function.update T (i :: π) (some (frames s.calls)))
      (((osPfnAlloc frames .user s).2.or table i (shifted (frames s.calls))).or table i 0x5) := by
  have hentry : s.tables table i = 0 := by
    have hentry := h.describes.entry hπ.le hi ht
    rwa [hnone] at hentry
  have hnew : ∀ ρ : TablePath, ρ.length = 4 → T ρ ≠ some (frames s.calls) := fun ρ hρ hf ↦
    hfree .user ((h.user _).mpr ⟨ρ, hρ, hf⟩)
  have htables : (((osPfnAlloc frames .user s).2.or table i (shifted (frames s.calls))).or table i
      0x5).tables = s.tables.set table i (0 ||| shifted (frames s.calls) ||| 0x5) := by
    simp only [Machine.or_tables, Tables.set_same, Tables.set_set, osPfnAlloc, hentry]
  refine ⟨?_, ?_, closed_update h.closed ht _,
    fun ρ hρ ↦ inside_update h.inside hπ.le hi ht hρ, fun ρ f hρ hf ↦ ?_,
    fun f ↦ ?_, fun ρ σ f hρ hσ hf hf' ↦ ?_, h.frees⟩
  · rw [Function.update_of_ne (List.cons_ne_nil i π).symm]
    exact h.root
  · rw [htables]
    exact h.describes.add_page hπ ht (encodes_shifted hsmall 0x5 (by decide) (by decide))
  · change (Region.osPt, f) = (Region.user, frames s.calls) ∨ InUse s.log .osPt f
    rw [Function.update_of_ne] at hf
    · exact .inr (h.tables ρ f hρ hf)
    · rintro rfl
      rw [List.length_cons] at hρ
      omega
  · change (Region.user, f) = (Region.user, frames s.calls) ∨ InUse s.log .user f ↔ _
    rw [Prod.mk.injEq, and_iff_right rfl, h.user f]
    constructor
    · rintro (rfl | ⟨ρ, hρ, hf⟩)
      · exact ⟨i :: π, by rw [List.length_cons, hπ], Function.update_self ..⟩
      · refine ⟨ρ, hρ, ?_⟩
        rw [Function.update_of_ne, hf]
        rintro rfl
        rw [hnone] at hf
        cases hf
    · rintro ⟨ρ, hρ, hf⟩
      rw [Function.update_apply] at hf
      split_ifs at hf
      · exact .inl (Option.some.inj hf).symm
      · exact .inr ⟨ρ, hρ, hf⟩
  · rw [Function.update_apply] at hf hf'
    split_ifs at hf hf' with hρi hσi hσi
    · rw [hρi, hσi]
    · exact absurd (Option.some.inj hf ▸ hf') (hnew σ hσ)
    · exact absurd (Option.some.inj hf' ▸ hf) (hnew ρ hρ)
    · exact h.distinct ρ σ f hρ hσ hf hf'

/-- The first level maps the page if it is not there. -/
theorem mapPage (h : Accounted pgd T s) (hπ : π.length = 3) (hi : i < 512) (ht : T π = some table)
    (hunused : AllocsUnused Small (mapPage frames flag table i s).log) :
    ∃ f, Accounted pgd (Function.update T (i :: π) (some f)) (mapPage frames flag table i s) ∧
      ∀ g, T (i :: π) = some g → g = f := by
  have hentry := h.describes.entry hπ.le hi ht
  cases hbelow : T (i :: π) with
  | none =>
    rw [hbelow] at hentry
    rw [mapPage_absent hentry.not_present] at hunused ⊢
    have hfresh : (Small (frames s.calls) ∧ ∀ r, ¬InUse s.log r (frames s.calls)) ∧ _ :=
      allocsUnused_of_suffix (log_permit flag table i _) hunused
    have hpage := (h.load table i).newPage hπ hi ht hbelow hfresh.1.1 hfresh.1.2
    refine ⟨_, hpage.permit hπ.le hi ?_ (Function.update_self ..) flag, nofun⟩
    rw [Function.update_of_ne (List.cons_ne_self i π).symm, ht]
  | some f =>
    rw [hbelow] at hentry
    rw [mapPage_present hentry.1]
    refine ⟨f, ?_, fun g hg ↦ (Option.some.inj hg).symm⟩
    rw [← hbelow, Function.update_eq_self]
    exact h.load table i

/-- A walk adds the tables on the way and the page, where they are missing. -/
theorem allocateLevels {rest : List ℕ} (h : Accounted pgd T s)
    (hunused : AllocsUnused Small (allocateLevels frames flag rest table s).log)
    (hlen : rest.length + π.length = 4) (hrest : rest ≠ []) (hidx : ∀ i ∈ rest, i < 512)
    (ht : T π = some table) :
    ∃ T', Accounted pgd T' (allocateLevels frames flag rest table s) ∧
      Walked T T' (rest.reverse ++ π) := by
  induction rest generalizing T s π table with
  | nil => exact absurd rfl hrest
  | cons i rest ih =>
    have hi : i < 512 := hidx i List.mem_cons_self
    cases rest with
    | nil =>
      have hπ : π.length = 3 := by
        rw [List.length_singleton] at hlen
        omega
      obtain ⟨f, hpage, hsame⟩ := h.mapPage hπ hi ht hunused
      exact ⟨_, hpage, walked_update h.closed ht hsame⟩
    | cons j rest =>
      have hπ : π.length < 3 := by
        simp only [List.length_cons] at hlen
        omega
      have hplace : (i :: j :: rest).reverse ++ π = (j :: rest).reverse ++ i :: π := by simp
      rw [hplace]
      obtain ⟨hdescend, hsame⟩ := h.descend hπ hi ht
        (allocsUnused_of_suffix (log_allocateLevels frames flag (j :: rest) _ _) hunused)
      obtain ⟨T', haccounted, hwalked⟩ := ih hdescend hunused
        (by simp only [List.length_cons] at hlen ⊢; omega) (List.cons_ne_nil j rest)
        (fun m hm ↦ hidx m (List.mem_cons_of_mem i hm)) (Function.update_self ..)
      exact ⟨T', haccounted, (walked_update h.closed ht hsame).trans hwalked
        (List.suffix_append _ _)⟩

/-! ### Pages taken out -/

/-- The frames in use after the pages are freed, each of which was. -/
theorem inUse_freed (h : Accounted pgd T s) (hR : ∀ ρ ∈ R, ρ.length = 4) :
    (∀ r f, InUse ((pagesFreed T R).map (FrameEvent.free Region.user) ++ moves s.log) r f ↔
        InUse s.log r f ∧ (r = .user → f ∉ pagesFreed T R)) ∧
      FreesInUse ((pagesFreed T R).map (FrameEvent.free Region.user) ++ moves s.log) := by
  induction R with
  | nil =>
    refine ⟨fun r f ↦ ?_, freesInUse_moves.mpr h.frees⟩
    have hnil : r = .user → f ∉ pagesFreed T [] := fun _ ↦ List.not_mem_nil
    rw [and_iff_left hnil]
    exact inUse_moves
  | cons q R ih =>
    obtain ⟨hin, hfrees⟩ := ih fun ρ hρ ↦ hR ρ (List.mem_cons_of_mem q hρ)
    rw [pagesFreed]
    cases hq : pruned T R q with
    | none => exact ⟨hin, hfrees⟩
    | some g =>
      obtain ⟨hg, hqR⟩ := pruned_eq_some hq
      have hlen := hR q List.mem_cons_self
      have hnotMem : g ∉ pagesFreed T R := fun hmem ↦ by
        obtain ⟨ρ, hρ, hf⟩ := mem_pagesFreed.mp hmem
        exact hqR (h.distinct q ρ g hlen (hR ρ (List.mem_cons_of_mem q hρ)) hg hf ▸ hρ)
      have hused := (hin .user g).mpr ⟨(h.user g).mpr ⟨q, hlen, hg⟩, fun _ ↦ hnotMem⟩
      refine ⟨fun r f ↦ ?_, hused, hfrees⟩
      refine (and_congr_right' (hin r f)).trans ?_
      change _ ↔ _ ∧ (_ → f ∉ g :: pagesFreed T R)
      rw [List.mem_cons, Ne, Prod.mk.injEq]
      tauto

/-- Taking pages out keeps the account. -/
theorem unmap (h : Accounted pgd T s) (hunmapped : Unmapped T R s s')
    (hR : ∀ ρ ∈ R, ρ.length = 4) : Accounted pgd (pruned T R) s' := by
  obtain ⟨hin, hfrees⟩ := h.inUse_freed hR
  have hlog : ∀ r f, InUse s'.log r f ↔ InUse s.log r f ∧ (r = .user → f ∉ pagesFreed T R) :=
    fun r f ↦ by rw [← inUse_moves, hunmapped.moves, hin]
  have hkeep : ∀ σ : TablePath, σ.length ≤ 3 → pruned T R σ = T σ := fun σ hσ ↦
    pruned_of_notMem fun hσR ↦ absurd (hR σ hσR) (by omega)
  refine ⟨(hkeep [] (Nat.zero_le 3)).trans h.root, hunmapped.describes, fun π i hnone ↦ ?_,
    fun π hne ↦ ?_, fun π f hπ hf ↦ ?_, fun f ↦ ?_, fun π ρ f hπ hρ hf hf' ↦ ?_, ?_⟩
  · refine pruned_eq_none.mpr (.inr ?_)
    rcases pruned_eq_none.mp hnone with hπ | hπ
    · by_contra hne
      have hlen := (h.inside _ hne).1
      rw [List.length_cons, hR π hπ] at hlen
      omega
    · exact h.closed π i hπ
  · exact h.inside π fun hnone ↦ hne (pruned_eq_none.mpr (.inr hnone))
  · rw [hlog, and_iff_left nofun]
    exact h.tables π f hπ (pruned_eq_some hf).1
  · rw [hlog, h.user f, mem_pagesFreed]
    constructor
    · rintro ⟨⟨π, hπ, hf⟩, hfreed⟩
      refine ⟨π, hπ, ?_⟩
      rw [pruned_of_notMem fun hmem ↦ hfreed rfl ⟨π, hmem, hf⟩, hf]
    · rintro ⟨π, hπ, hf⟩
      obtain ⟨hf, hmem⟩ := pruned_eq_some hf
      refine ⟨⟨π, hπ, hf⟩, fun _ hfreed ↦ ?_⟩
      obtain ⟨q, hq, hfq⟩ := hfreed
      exact hmem (h.distinct q π f (hR q hq) hπ hfq hf ▸ hq)
  · exact h.distinct π ρ f hπ hρ (pruned_eq_some hf).1 (pruned_eq_some hf').1
  · rw [← freesInUse_moves, hunmapped.moves]
    exact hfrees

end Accounted

end OsAssignments.Paging.Syscalls
