import OsAssignments.Paging.Prepare

/-!
# `cleanup_context_mm` undoes `prepare_context_mm`

The first turn of the cleanup frees the pages of the three segments; the next ones dismantle the
tree from the bottom, one level at a time. `Dismantled T R users s` says that the tables at the
places `R` of the tree `T` are gone, that these tables and the user frames `users` are what has been
freed, and that no freed frame has been accessed. A walk for a level passes only tables above that
level, which are all there, and removes the table at its place unless an earlier walk did
(`Dismantled.freeLevels`), so sharing of tables does not matter.
-/

set_option autoImplicit false
set_option relaxedAutoImplicit false

namespace OsAssignments.Paging.ContextMm

open OsAssignments.Library

/-- A tree without the tables at some places. -/
def pruned (T : TablePath → Option Pfn) (R : List TablePath) (π : TablePath) : Option Pfn :=
  if π ∈ R then none else T π

/-- A tree in which all table frames differ from each other and from some user frames. -/
structure Apart (T : TablePath → Option Pfn) (users : List Pfn) : Prop where
  inj : ∀ π ρ f, π.length ≤ 3 → ρ.length ≤ 3 → T π = some f → T ρ = some f → π = ρ
  user : ∀ π f, π.length ≤ 3 → T π = some f → f ∉ users

/-- The tables at the places `R` and the user frames `users` have been freed. -/
structure Dismantled (T : TablePath → Option Pfn) (R : List TablePath) (users : List Pfn)
    (s : Machine) : Prop where
  describes : Describes 3 s.tables (pruned T R)
  short : ∀ π ∈ R, π.length ≤ 3
  tables : ∀ f, (Region.osPt, f) ∈ freed s.log ↔ ∃ π ∈ R, T π = some f
  user : ∀ f, (Region.user, f) ∈ freed s.log ↔ f ∈ users
  others : ∀ f, (Region.osDs, f) ∉ freed s.log
  nodup : ((freed s.log).map Prod.snd).Nodup
  safe : SafeLog s.log

variable {T : TablePath → Option Pfn} {R : List TablePath} {users all : List Pfn} {s : Machine}
  {c : MmSeg} {lower : ℕ} {argPfn table f : Pfn} {π ρ q : TablePath} {i : ℕ}

theorem pruned_eq_some (h : pruned T R π = some f) : T π = some f ∧ π ∉ R := by
  unfold pruned at h
  split_ifs at h with hπ
  exact ⟨h, hπ⟩

theorem pruned_of_notMem (h : π ∉ R) : pruned T R π = T π := if_neg h

theorem pruned_cons : pruned T (q :: R) = Function.update (pruned T R) q none := by
  funext π
  rw [Function.update_apply]
  simp only [pruned, List.mem_cons]
  by_cases hq : π = q <;> simp [hq]

namespace Dismantled

/-- A table of the tree has not been freed. -/
theorem alive (h : Dismantled T R users s) (hapart : Apart T all) (hsub : users ⊆ all)
    (hπ : π.length ≤ 3) (ht : pruned T R π = some table) : table ∉ (freed s.log).map Prod.snd := by
  obtain ⟨ht, hR⟩ := pruned_eq_some ht
  rw [List.mem_map]
  rintro ⟨⟨r, f⟩, hmem, rfl⟩
  cases r with
  | osDs => exact h.others f hmem
  | osPt =>
    obtain ⟨ρ, hρ, hf⟩ := (h.tables f).mp hmem
    exact hR (hapart.inj ρ π f (h.short ρ hρ) hπ hf ht ▸ hρ)
  | user => exact hapart.user π f hπ ht (hsub ((h.user f).mp hmem))

/-- A load from a table of the tree. -/
theorem load (h : Dismantled T R users s) (hapart : Apart T all) (hsub : users ⊆ all)
    (hπ : π.length ≤ 3) (ht : pruned T R π = some table) (i : ℕ) :
    Dismantled T R users (s.load table i).2 := by
  refine ⟨h.describes, h.short, h.tables, h.user, h.others, h.nodup, fun r hr ↦ ?_, h.safe⟩
  exact h.alive hapart hsub hπ ht (List.mem_map_of_mem (f := Prod.snd) hr)

/-- A user frame freed. -/
theorem free_user (h : Dismantled T R users s) (hnew : f ∉ (freed s.log).map Prod.snd) :
    Dismantled T R (f :: users) (osPfnFree .user f s) where
  describes := h.describes
  short := h.short
  tables := fun g ↦ by
    change (Region.osPt, g) ∈ (Region.user, f) :: freed s.log ↔ _
    rw [List.mem_cons, h.tables g]
    simp
  user := fun g ↦ by
    change (Region.user, g) ∈ (Region.user, f) :: freed s.log ↔ _
    rw [List.mem_cons, List.mem_cons, h.user g]
    simp
  others := fun g ↦ by
    change (Region.osDs, g) ∉ (Region.user, f) :: freed s.log
    simpa using h.others g
  nodup := List.nodup_cons.mpr ⟨hnew, h.nodup⟩
  safe := h.safe

/-- A table freed and its entry cleared. -/
theorem free_table (h : Dismantled T R users s) (hapart : Apart T all) (hsub : users ⊆ all)
    (hπ : π.length < 3) (ht : pruned T R π = some table) (hf : pruned T R (i :: π) = some f) :
    Dismantled T ((i :: π) :: R) users ((osPfnFree .osPt f s).and table i 0) := by
  have hlen : (i :: π).length ≤ 3 := by simpa using hπ
  have hnew := h.alive hapart hsub hlen hf
  have hne : table ≠ f := by
    rintro rfl
    have heq := hapart.inj _ _ _ hπ.le hlen (pruned_eq_some ht).1 (pruned_eq_some hf).1
    have hlength := congrArg List.length heq
    simp at hlength
  have halive : table ∉ (freed ((osPfnFree .osPt f s).log)).map Prod.snd := by
    change table ∉ f :: (freed s.log).map Prod.snd
    rw [List.mem_cons]
    exact not_or.mpr ⟨hne, h.alive hapart hsub hπ.le ht⟩
  have haccess : ∀ r, (r, table) ∉ freed (osPfnFree .osPt f s).log := fun r hr ↦
    halive (List.mem_map_of_mem (f := Prod.snd) hr)
  refine ⟨?_, ?_, fun g ↦ ?_, fun g ↦ ?_, fun g ↦ ?_, List.nodup_cons.mpr ⟨hnew, h.nodup⟩,
    haccess, haccess, h.safe⟩
  · rw [pruned_cons]
    change Describes 3 (s.tables.set table i (s.tables table i &&& 0)) _
    rw [show s.tables table i &&& 0 = 0 from BitVec.and_zero]
    exact h.describes.clear hπ.le ht
  · exact List.forall_mem_cons.mpr ⟨hlen, h.short⟩
  · change (Region.osPt, g) ∈ (Region.osPt, f) :: freed s.log ↔ _
    rw [List.mem_cons, h.tables g, List.exists_mem_cons_iff, (pruned_eq_some hf).1]
    simp [eq_comm]
  · change (Region.user, g) ∈ (Region.osPt, f) :: freed s.log ↔ _
    rw [List.mem_cons, h.user g]
    simp
  · change (Region.osDs, g) ∉ (Region.osPt, f) :: freed s.log
    simpa using h.others g

/-- A place that has no table to remove. -/
theorem absent (h : Dismantled T R users s) (hq : q ∈ R) : Dismantled T (q :: R) users s := by
  have hmem : ∀ π, π ∈ q :: R ↔ π ∈ R := fun π ↦ by
    rw [List.mem_cons]
    exact or_iff_right_of_imp fun heq ↦ heq ▸ hq
  have hpruned : pruned T (q :: R) = pruned T R := by
    funext π
    simp only [pruned, hmem]
  refine ⟨hpruned ▸ h.describes, List.forall_mem_cons.mpr ⟨h.short q hq, h.short⟩, fun f ↦ ?_,
    h.user, h.others, h.nodup, h.safe⟩
  rw [h.tables f]
  simp only [hmem]

/-- What an entry of a table of the tree says about the place below it. -/
theorem entry (h : Dismantled T R users s) (hπ : π.length ≤ 3) (hi : i < 512)
    (ht : pruned T R π = some table) : Encodes (s.tables table i) (pruned T R (i :: π)) :=
  h.describes.entry hπ hi ht

end Dismantled

/-! ### One walk -/

/-- The turn of `free_memory` at its last level: the table below the entry is freed if it is still
there. -/
theorem freeLevels_last {j : ℕ} {rest : List ℕ} (hlower : (j :: rest).length + 1 = lower) :
    freeLevels c lower argPfn (i :: j :: rest) table s =
      if (s.tables table i).Present then
        (osPfnFree .osPt (s.tables table i).pfn ((s.load table i).2.load table i).2).and table i 0
      else ((s.load table i).2.load table i).2 := by
  rw [freeLevels, if_neg (by omega), if_neg (List.cons_ne_nil j rest)]
  simp only [if_pos hlower]
  rw [freeLevels, if_pos (by rw [List.length_cons] at hlower; omega)]
  rfl

/-- A turn of `free_memory` above its last level. -/
theorem freeLevels_above {j : ℕ} {rest : List ℕ} (hlower : lower < (j :: rest).length + 1) :
    freeLevels c lower argPfn (i :: j :: rest) table s =
      freeLevels c lower argPfn (j :: rest) (s.tables table i).pfn (s.load table i).2 := by
  rw [freeLevels, if_neg (by omega), if_neg (List.cons_ne_nil j rest)]
  simp only [if_neg hlower.ne']
  rfl

/-- A walk for a level removes the table at its place, unless an earlier walk did. -/
theorem Dismantled.freeLevels {rest : List ℕ} (h : Dismantled T R users s) (hapart : Apart T all)
    (hsub : users ⊆ all) (hlower : 2 ≤ lower) (hlen : rest.length + π.length = 4)
    (hidx : ∀ i ∈ rest, i < 512) (hq : q <:+ rest.reverse ++ π) (hqlen : q.length + lower = 5)
    (hπq : π.length < q.length) (hT : T q ≠ none)
    (habove : ∀ ρ, ρ <:+ q → ρ ≠ q → pruned T R ρ ≠ none) (ht : pruned T R π = some table) :
    Dismantled T (q :: R) users (freeLevels c lower argPfn rest table s) := by
  induction rest generalizing s π table with
  | nil =>
    rw [List.length_nil] at hlen
    omega
  | cons i rest ih =>
    have hi : i < 512 := hidx i List.mem_cons_self
    simp only [List.length_cons] at hlen
    obtain ⟨j, rest, rfl⟩ : ∃ j rest', rest = j :: rest' :=
      List.exists_cons_of_ne_nil (List.ne_nil_of_length_pos (by omega))
    have hload := h.load hapart hsub (by omega) ht i
    have hentry := h.entry (by omega) hi ht
    have hplace : (i :: j :: rest).reverse ++ π = (j :: rest).reverse ++ i :: π := by simp
    rw [hplace] at hq
    have hiq : i :: π <:+ q :=
      List.suffix_of_suffix_length_le (List.suffix_append _ _) hq (by simpa using hπq)
    by_cases hlast : (j :: rest).length + 1 = lower
    · rw [freeLevels_last hlast]
      obtain rfl : i :: π = q := hiq.eq_of_length (by simp only [List.length_cons] at *; omega)
      have hload' := hload.load hapart hsub (by omega) ht i
      cases hbelow : pruned T R (i :: π) with
      | none =>
        rw [hbelow] at hentry
        rw [if_neg hentry.not_present]
        refine hload'.absent ?_
        unfold pruned at hbelow
        by_contra hR
        rw [if_neg hR] at hbelow
        exact hT hbelow
      | some f =>
        rw [hbelow] at hentry
        rw [if_pos hentry.1, hentry.2]
        exact hload'.free_table hapart hsub (by omega) ht hbelow
    · rw [freeLevels_above (by simp only [List.length_cons] at *; omega)]
      have hne : i :: π ≠ q := by
        rintro rfl
        simp only [List.length_cons] at *
        omega
      obtain ⟨f, hf⟩ := Option.ne_none_iff_exists'.mp (habove _ hiq hne)
      rw [hf] at hentry
      rw [hentry.2]
      exact ih hload (by simp only [List.length_cons] at *; omega)
        (fun m hm ↦ hidx m (List.mem_cons_of_mem i hm)) hq
        (by
          have hle := hiq.length_le
          have hlt : (i :: π).length ≠ q.length := fun heq ↦ hne (hiq.eq_of_length heq)
          omega) hf

/-- The frame that the first turn frees for a segment. -/
def pageFreed (c : MmSeg) (argPfn f : Pfn) : Pfn := if c = .stack ∨ c = .code then f else argPfn

theorem freeLevels_page : freeLevels c 1 argPfn [i] table s =
    if c = .stack ∨ c = .code then osPfnFree .user (s.tables table i).pfn (s.load table i).2
    else osPfnFree .user argPfn s := rfl

/-- The walk for the first level frees the page. -/
theorem Dismantled.freeLevels_page {rest : List ℕ} (h : Dismantled T [] users s)
    (hapart : Apart T all) (hsub : users ⊆ all) (hrest : rest ≠ [])
    (hlen : rest.length + π.length = 4) (hidx : ∀ i ∈ rest, i < 512)
    (habove : ∀ ρ, ρ <:+ rest.reverse ++ π → T ρ ≠ none) (ht : T π = some table)
    (hf : T (rest.reverse ++ π) = some f) (hnew : pageFreed c argPfn f ∉ users) :
    Dismantled T [] (pageFreed c argPfn f :: users)
      (ContextMm.freeLevels c 1 argPfn rest table s) := by
  have hpruned : ∀ ρ, pruned T [] ρ = T ρ := fun ρ ↦ pruned_of_notMem List.not_mem_nil
  induction rest generalizing s π table with
  | nil => exact absurd rfl hrest
  | cons i rest ih =>
    have hi : i < 512 := hidx i List.mem_cons_self
    simp only [List.length_cons] at hlen
    have hload := h.load hapart hsub (by omega) ((hpruned π).trans ht) i
    have hentry := h.entry (by omega) hi ((hpruned π).trans ht)
    cases rest with
    | nil =>
      have hunfreed : ∀ s, Dismantled T [] users s → ∀ g, g ∉ users →
          g ∉ (freed s.log).map Prod.snd := by
        intro s hs g hg hmem
        obtain ⟨⟨r, g'⟩, hfreed, rfl⟩ := List.mem_map.mp hmem
        cases r with
        | osDs => exact hs.others g' hfreed
        | osPt =>
          obtain ⟨ρ, hρ, -⟩ := (hs.tables g').mp hfreed
          cases hρ
        | user => exact hg ((hs.user g').mp hfreed)
      rw [show (i :: π : TablePath) = [i].reverse ++ π from rfl, hpruned, hf] at hentry
      rw [ContextMm.freeLevels_page, hentry.2]
      unfold pageFreed at hnew ⊢
      split_ifs at hnew ⊢
      · exact hload.free_user (hunfreed _ hload _ hnew)
      · exact h.free_user (hunfreed _ h _ hnew)
    | cons j rest =>
      have hplace : (i :: j :: rest).reverse ++ π = (j :: rest).reverse ++ i :: π := by simp
      rw [hplace] at hf habove
      obtain ⟨g, hg⟩ := Option.ne_none_iff_exists'.mp (habove (i :: π) (List.suffix_append _ _))
      rw [hpruned, hg] at hentry
      rw [freeLevels_above (by simp), hentry.2]
      exact ih hload (List.cons_ne_nil j rest) (by simp only [List.length_cons] at *; omega)
        (fun m hm ↦ hidx m (List.mem_cons_of_mem i hm)) habove hg hf

/-! ### The whole cleanup -/

variable {ctx : ExecContext} {code stack : Pfn}

/-- The place of the table that the walk of a segment removes at a level. -/
def ExecContext.tablePlace (ctx : ExecContext) (lower : ℕ) (c : MmSeg) : TablePath :=
  (ctx.place c).drop (lower - 1)

theorem ExecContext.length_tablePlace (ctx : ExecContext) (c : MmSeg) (hlower : 2 ≤ lower)
    (hupper : lower ≤ 4) : (ctx.tablePlace lower c).length + lower = 5 := by
  rw [tablePlace, List.length_drop, ctx.length_place]
  omega

/-- The places of the tables that a turn of the cleanup removes. -/
def ExecContext.tablesAt (ctx : ExecContext) (lower : ℕ) : List TablePath :=
  [ctx.tablePlace lower .data, ctx.tablePlace lower .code, ctx.tablePlace lower .stack]

theorem ExecContext.length_of_mem_tablesAt (ctx : ExecContext) (hlower : 2 ≤ lower)
    (hupper : lower ≤ 4) (hρ : ρ ∈ ctx.tablesAt lower) : ρ.length + lower = 5 := by
  simp only [tablesAt, List.mem_cons, List.not_mem_nil, or_false] at hρ
  rcases hρ with rfl | rfl | rfl <;> exact ctx.length_tablePlace _ hlower hupper

/-- Every table below the root is removed by one of the turns. -/
theorem Prepared.mem_tablesAt (h : Prepared ctx T code stack) (hπ : π.length ≤ 3)
    (ht : T π ≠ none) : π ∈ ctx.tablesAt (5 - π.length) := by
  have hdrop : ∀ c, π <:+ ctx.place c → π = ctx.tablePlace (5 - π.length) c := fun c hsuffix ↦ by
    rw [List.suffix_iff_eq_drop, ctx.length_place] at hsuffix
    rw [ExecContext.tablePlace, show 5 - π.length - 1 = 4 - π.length by omega]
    exact hsuffix
  simp only [ExecContext.tablesAt, List.mem_cons, List.not_mem_nil, or_false]
  rcases (h.dom π).mp ht with hcode | hdata | hstack
  · exact .inr (.inl (hdrop _ hcode))
  · exact .inl (hdrop _ hdata)
  · exact .inr (.inr (hdrop _ hstack))

/-- The walk of one segment for a level above the first. -/
theorem Dismantled.freeMemory (h : Dismantled T R users s)
    (hdom : ∀ ρ, ρ <:+ ctx.place c → T ρ ≠ none)
    (hlow : (virutalAdd c (ctx.mms c)).toNat < 2 ^ 48) (hroot : T [] = some ctx.pgd)
    (hapart : Apart T all) (hsub : users ⊆ all) (hlower : 2 ≤ lower) (hupper : lower ≤ 4)
    (hR : ∀ ρ ∈ R, 5 ≤ ρ.length + lower) :
    Dismantled T (ctx.tablePlace lower c :: R) users
      (freeMemory (ctx.mms c) ctx.pgd c lower ctx.argPfn s) := by
  have hqlen := ctx.length_tablePlace c hlower hupper
  have hsuffix : ctx.tablePlace lower c <:+ ctx.place c := List.drop_suffix _ _
  have hnil : ([] : TablePath) ∉ R := fun hmem ↦ by
    have hle := hR [] hmem
    rw [List.length_nil] at hle
    omega
  have hplace : (indices (virutalAdd c (ctx.mms c))).reverse ++ [] = ctx.place c :=
    List.append_nil _
  refine Dismantled.freeLevels (π := []) h hapart hsub hlower rfl (indices_lt hlow)
    (hplace.symm ▸ hsuffix) hqlen (by rw [List.length_nil]; omega) (hdom _ hsuffix)
    (fun ρ hρ hne ↦ ?_) ((pruned_of_notMem hnil).trans hroot)
  rw [pruned_of_notMem]
  · exact hdom ρ (hρ.trans hsuffix)
  · intro hmem
    have hle := hR ρ hmem
    have hlt : ρ.length ≠ (ctx.tablePlace lower c).length := fun heq ↦ hne (hρ.eq_of_length heq)
    have := hρ.length_le
    omega

/-- One turn of the cleanup above the first level removes the tables of a level. -/
theorem Dismantled.cleanupLevel (h : Dismantled T R users s) (hprepared : Prepared ctx T code stack)
    (hseparate : ctx.Separate) (hroot : T [] = some ctx.pgd) (hapart : Apart T all)
    (hsub : users ⊆ all) (hlower : 2 ≤ lower) (hupper : lower ≤ 4)
    (hR : ∀ ρ ∈ R, 5 ≤ ρ.length + lower) :
    Dismantled T (ctx.tablesAt lower ++ R) users (cleanupLevel ctx lower s) := by
  have hlen := fun c ↦ (ctx.length_tablePlace c hlower hupper).ge
  have hstack := h.freeMemory (c := .stack) (fun ρ hρ ↦ (hprepared.dom ρ).mpr (.inr (.inr hρ)))
    (hseparate.low _ (by decide)) hroot hapart hsub hlower hupper hR
  have hR₁ : ∀ ρ ∈ ctx.tablePlace lower .stack :: R, 5 ≤ ρ.length + lower :=
    List.forall_mem_cons.mpr ⟨hlen .stack, hR⟩
  have hcode := hstack.freeMemory (c := .code) (fun ρ hρ ↦ (hprepared.dom ρ).mpr (.inl hρ))
    (hseparate.low _ (by decide)) hroot hapart hsub hlower hupper hR₁
  exact hcode.freeMemory (c := .data) (fun ρ hρ ↦ (hprepared.dom ρ).mpr (.inr (.inl hρ)))
    (hseparate.low _ (by decide)) hroot hapart hsub hlower hupper
    (List.forall_mem_cons.mpr ⟨hlen .code, hR₁⟩)

/-- The walk of one segment for the first level. -/
theorem Dismantled.freePage (h : Dismantled T [] users s)
    (hdom : ∀ ρ, ρ <:+ ctx.place c → T ρ ≠ none)
    (hlow : (virutalAdd c (ctx.mms c)).toNat < 2 ^ 48) (hroot : T [] = some ctx.pgd)
    (hapart : Apart T all) (hsub : users ⊆ all) (hf : T (ctx.place c) = some f)
    (hnew : pageFreed c ctx.argPfn f ∉ users) :
    Dismantled T [] (pageFreed c ctx.argPfn f :: users)
      (ContextMm.freeMemory (ctx.mms c) ctx.pgd c 1 ctx.argPfn s) := by
  have hplace : (indices (virutalAdd c (ctx.mms c))).reverse ++ [] = ctx.place c :=
    List.append_nil _
  exact Dismantled.freeLevels_page (π := []) h hapart hsub (List.cons_ne_nil _ _) rfl
    (indices_lt hlow) (hplace.symm ▸ hdom) hroot (hplace.symm ▸ hf) hnew

/-- The first turn of the cleanup frees the pages. -/
theorem Dismantled.cleanupPages (h : Dismantled T [] [] s) (hprepared : Prepared ctx T code stack)
    (hseparate : ctx.Separate) (hroot : T [] = some ctx.pgd)
    (hapart : Apart T [ctx.argPfn, stack, code]) (hnodup : [ctx.argPfn, stack, code].Nodup) :
    Dismantled T [] [ctx.argPfn, code, stack] (ContextMm.cleanupLevel ctx 1 s) := by
  have hdom := hprepared.dom
  obtain ⟨⟨hargStack, hargCode⟩, hstackCode⟩ :
      (ctx.argPfn ≠ stack ∧ ctx.argPfn ≠ code) ∧ stack ≠ code := by
    simpa using hnodup
  obtain ⟨f, hf⟩ := Option.ne_none_iff_exists'.mp
    ((hdom (ctx.place .data)).mpr (.inr (.inl List.suffix_rfl)))
  have hfirst := h.freePage (c := .stack) (fun ρ hρ ↦ (hdom ρ).mpr (.inr (.inr hρ)))
    (hseparate.low _ (by decide)) hroot hapart (List.nil_subset _) hprepared.stack
    List.not_mem_nil
  have hsecond := hfirst.freePage (c := .code) (fun ρ hρ ↦ (hdom ρ).mpr (.inl hρ))
    (hseparate.low _ (by decide)) hroot hapart (by simp [pageFreed]) hprepared.code
    (by simpa [pageFreed] using hstackCode.symm)
  exact hsecond.freePage (c := .data) (fun ρ hρ ↦ (hdom ρ).mpr (.inr (.inl hρ)))
    (hseparate.low _ (by decide)) hroot hapart (by simp [pageFreed]) hf
    (by simp [pageFreed, hargStack, hargCode])

/-- The frames of an address space that has been prepared differ from each other and from the frame
of the arguments. -/
theorem Built.apart {frames : ℕ → Pfn} {pgd : Pfn} {pages : List Pfn} {n : ℕ}
    (h : Built frames pgd pages T s) (hsupplied : Supplied frames argPfn n)
    (hn : s.calls ≤ n) : Apart T (argPfn :: pages) ∧ (argPfn :: pages).Nodup := by
  have harg : ∀ r, (r, argPfn) ∉ allocated s.log := by
    intro r hmem
    obtain ⟨m, hm, heq⟩ := h.exists_call hmem
    exact hsupplied.arg m (by omega) heq
  refine ⟨⟨fun π ρ f hπ hρ ↦ h.describes.inj hπ hρ, fun π f hπ hf hmem ↦ ?_⟩,
    List.nodup_cons.mpr ⟨fun hmem ↦ harg .user ((h.user _).mpr hmem), h.distinct⟩⟩
  have htable := (h.tables f).mpr ⟨π, hπ, hf⟩
  rcases List.mem_cons.mp hmem with rfl | hmem
  · exact harg .osPt htable
  · have heq := List.inj_on_of_nodup_map (h.nodup hsupplied hn) htable ((h.user f).mpr hmem) rfl
    cases heq

/-- Freeing the root when every table below it has been freed leaves the frees a permutation of the
allocations and the frame of the arguments. -/
theorem Built.balanced {frames : ℕ → Pfn} {pgd : Pfn} {n : ℕ} {s₀ : Machine}
    (hbuilt : Built frames pgd [stack, code] T s₀) (hsupplied : Supplied frames argPfn n)
    (hn : s₀.calls ≤ n) (h : Dismantled T R [argPfn, code, stack] s)
    (hR : ∀ π, T π ≠ none → (π ∈ R ↔ π.length ≤ 3 ∧ π ≠ [])) :
    (freed (osPfnFree .osPt pgd s).log).Perm ((.user, argPfn) :: allocated s₀.log) ∧
      ((freed (osPfnFree .osPt pgd s).log).map Prod.snd).Nodup := by
  obtain ⟨hapart, hnodup⟩ := hbuilt.apart hsupplied hn
  have hroot := hbuilt.root
  have hunfreed : pgd ∉ (freed s.log).map Prod.snd := by
    rw [List.mem_map]
    rintro ⟨⟨r, f⟩, hmem, rfl⟩
    cases r with
    | osDs => exact h.others f hmem
    | osPt =>
      obtain ⟨π, hπ, hf⟩ := (h.tables f).mp hmem
      have hnil := hapart.inj π [] f (h.short π hπ) (Nat.zero_le 3) hf hroot
      exact ((hR π (by simp [hf])).mp hπ).2 hnil
    | user =>
      have huser := (h.user f).mp hmem
      refine hapart.user [] f (Nat.zero_le 3) hroot ?_
      simp only [List.mem_cons, List.not_mem_nil, or_false] at huser ⊢
      tauto
  have hfrees : ((freed (osPfnFree .osPt pgd s).log).map Prod.snd).Nodup :=
    List.nodup_cons.mpr ⟨hunfreed, h.nodup⟩
  have htaken : ((Region.user, argPfn) :: allocated s₀.log).Nodup := by
    refine List.nodup_cons.mpr ⟨fun hmem ↦ ?_, (hbuilt.nodup hsupplied hn).of_map _⟩
    exact (List.nodup_cons.mp hnodup).1 ((hbuilt.user argPfn).mp hmem)
  refine ⟨(List.perm_ext_iff_of_nodup (hfrees.of_map _) htaken).mpr fun ⟨r, f⟩ ↦ ?_, hfrees⟩
  change (r, f) ∈ (Region.osPt, pgd) :: freed s.log ↔ _
  cases r with
  | osDs => simp [h.others f, hbuilt.others f]
  | osPt =>
    have htables : (∃ π ∈ R, T π = some f) ↔ ∃ π : TablePath, (π.length ≤ 3 ∧ T π = some f) ∧
        π ≠ [] := by
      refine exists_congr fun π ↦ ?_
      by_cases hf : T π = some f
      · rw [hR π (by simp [hf])]
        tauto
      · tauto
    have hpgd : f = pgd ↔ T [] = some f := by
      rw [hroot, Option.some.injEq, eq_comm]
    simp only [List.mem_cons, Prod.mk.injEq, true_and, h.tables f, htables, hbuilt.tables f, hpgd,
      reduceCtorEq, false_and, false_or]
    constructor
    · rintro (hnil | ⟨π, hπ, -⟩)
      · exact ⟨[], Nat.zero_le 3, hnil⟩
      · exact ⟨π, hπ⟩
    · rintro ⟨π, hπ⟩
      by_cases hnil : π = []
      · exact .inl (hnil ▸ hπ.2)
      · exact .inr ⟨π, hπ, hnil⟩
  | user =>
    simp only [List.mem_cons, Prod.mk.injEq, true_and, h.user f, hbuilt.user f, reduceCtorEq,
      false_and, false_or, List.not_mem_nil, or_false]
    tauto

/-- Cleanup after preparation frees every frame that was allocated, and the frame of the arguments,
exactly once, each in its region, and no other; and it accesses no frame that has been freed. -/
theorem cleanup_undoes_prepare (frames : ℕ → Pfn) (ctx : ExecContext) (tables : Tables)
    (hseparate : ctx.Separate)
    (hsupplied : Supplied frames ctx.argPfn
      (prepareContextMm frames ctx ⟨tables, 0, []⟩).2.calls) :
    let prepared := prepareContextMm frames ctx ⟨tables, 0, []⟩
    let log := (cleanupContextMm prepared.1 prepared.2).log
    (freed log).Perm ((.user, ctx.argPfn) :: allocated prepared.2.log) ∧
      ((freed log).map Prod.snd).Nodup ∧ SafeLog log := by
  obtain ⟨T, code, stack, hprepared, hbuilt, -, -⟩ := prepared tables hseparate hsupplied
  intro prepared log
  obtain ⟨hapart, hnodup⟩ := hbuilt.apart hsupplied le_rfl
  have hstart : Dismantled T [] [] prepared.2 := by
    have hfreed : freed prepared.2.log = [] := hbuilt.unfreed
    have hpruned : pruned T [] = T := funext fun π ↦ pruned_of_notMem List.not_mem_nil
    refine ⟨hpruned.symm ▸ hbuilt.describes, by simp, ?_, ?_, ?_, ?_, safeLog_of_freed_nil hfreed⟩
    all_goals simp [hfreed]
  have hroot : T [] = some prepared.1.pgd := hbuilt.root
  have hprepared' : Prepared prepared.1 T code stack :=
    ⟨hprepared.dom, hprepared.code, hprepared.stack⟩
  have hseparate' : prepared.1.Separate := ⟨hseparate.low, hseparate.distinct⟩
  have hpages := hstart.cleanupPages hprepared' hseparate' hroot hapart hnodup
  have hsub : [prepared.1.argPfn, code, stack] ⊆ [ctx.argPfn, stack, code] := by
    change [ctx.argPfn, code, stack] ⊆ _
    simp
  have hlevel₂ := hpages.cleanupLevel hprepared' hseparate' hroot hapart hsub le_rfl (by decide)
    (fun ρ hρ ↦ absurd hρ List.not_mem_nil)
  have hlevel₃ := hlevel₂.cleanupLevel hprepared' hseparate' hroot hapart hsub
    (Nat.le_succ 2) (by decide) fun ρ hρ ↦ by
      rw [List.append_nil] at hρ
      have := prepared.1.length_of_mem_tablesAt le_rfl (by decide) hρ
      omega
  have hlevel₄ := hlevel₃.cleanupLevel hprepared' hseparate' hroot hapart hsub
    (by decide : 2 ≤ 4) le_rfl fun ρ hρ ↦ by
      rw [List.append_nil, List.mem_append] at hρ
      rcases hρ with hρ | hρ
      · have := prepared.1.length_of_mem_tablesAt (by decide) (by decide) hρ
        omega
      · have := prepared.1.length_of_mem_tablesAt le_rfl (by decide) hρ
        omega
  have hbalanced := hbuilt.balanced hsupplied le_rfl hlevel₄ fun π hπ ↦ by
    simp only [List.append_nil, List.mem_append]
    constructor
    · rintro (hρ | hρ | hρ) <;>
      · have := prepared.1.length_of_mem_tablesAt (by decide) (by decide) hρ
        exact ⟨by omega, List.ne_nil_of_length_pos (by omega)⟩
    · rintro ⟨hlen, hne⟩
      have hpos := List.length_pos_of_ne_nil hne
      have hmem := hprepared'.mem_tablesAt hlen hπ
      obtain hlen | hlen | hlen : π.length = 1 ∨ π.length = 2 ∨ π.length = 3 := by omega
      all_goals
        rw [hlen] at hmem
        tauto
  exact ⟨hbalanced.1, hbalanced.2, hlevel₄.safe⟩

/-- Frames one after the other. -/
def upwards (n : ℕ) : Pfn := BitVec.ofNat 32 (n + 1)

/-- A context whose code and data share their upper two levels. -/
def sharing : ExecContext where
  pgd := 0
  mms
    | .code => ⟨0x100000000, 0x100001000, 0x5⟩
    | .rodata => ⟨0x140000000, 0x140001000, 0x4⟩
    | .data => ⟨0x100200000, 0x100201000, 0x6⟩
    | .stack => ⟨0x7FFF00000, 0x800000000, 0x6⟩
  argPfn := 0x1000

theorem sharing_separate : sharing.Separate := by
  refine ⟨fun c hc ↦ ?_, fun c d hc hd hcd ↦ ?_⟩
  · cases c with
    | rodata => exact absurd rfl hc
    | code | data | stack => decide
  · have hpages : ∀ c ∈ [MmSeg.code, .rodata, .data, .stack],
        ∀ d ∈ [MmSeg.code, .rodata, .data, .stack], c ≠ .rodata → d ≠ .rodata → c ≠ d →
          virutalAdd c (sharing.mms c) >>> 12 ≠ virutalAdd d (sharing.mms d) >>> 12 := by decide
    exact hpages c (by cases c <;> decide) d (by cases d <;> decide) hc hd hcd

theorem sharing_supplied : Supplied upwards sharing.argPfn
    (prepareContextMm upwards sharing ⟨fun _ _ ↦ 0, 0, []⟩).2.calls := by
  have hcalls : (prepareContextMm upwards sharing ⟨fun _ _ ↦ 0, 0, []⟩).2.calls = 9 := by
    decide +kernel
  have hunused : ∀ j < 9, ∀ i < j, upwards i ≠ upwards j := by decide
  rw [hcalls]
  exact ⟨by decide, fun i j hij hj ↦ hunused j hj i hij, by decide⟩

theorem cleanup_undoes_prepare_sharing :
    let prepared := prepareContextMm upwards sharing ⟨fun _ _ ↦ 0, 0, []⟩
    let log := (cleanupContextMm prepared.1 prepared.2).log
    (freed log).Perm ((.user, sharing.argPfn) :: allocated prepared.2.log) ∧
      ((freed log).map Prod.snd).Nodup ∧ SafeLog log :=
  cleanup_undoes_prepare upwards sharing (fun _ _ ↦ 0) sharing_separate sharing_supplied

end OsAssignments.Paging.ContextMm
