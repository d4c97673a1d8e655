import OsAssignments.Paging.ContextMm

/-!
# The tree that `prepare_context_mm` builds

`Built` is what holds while an address space is prepared: the tables in memory are a tree, every
frame that was allocated from the page-table region is a table of it, every user frame allocated is
in the list of pages, and nothing has been freed. A level of `allocate` adds the table below an
entry or finds it there (`Built.descend`), so the walk adds the tables on the way to a page and the
page (`Built.allocateLevels`). `prepared` puts the three segments together.
-/

set_option autoImplicit false
set_option relaxedAutoImplicit false

namespace OsAssignments.Paging.ContextMm

open OsAssignments.Library

/-- What is assumed of the first `n` calls of `os_pfn_alloc`: the frames are below `2 ^ 20`, not in
use, and none is the frame of the arguments. -/
structure Supplied (frames : ℕ → Pfn) (argPfn : Pfn) (n : ℕ) : Prop where
  small : ∀ i < n, (frames i).toNat < 2 ^ 20
  unused : ∀ i j, i < j → j < n → frames i ≠ frames j
  arg : ∀ i < n, frames i ≠ argPfn

/-- An address space in preparation, with the user frames it has allocated. -/
structure Built (frames : ℕ → Pfn) (pgd : Pfn) (pages : List Pfn) (T : TablePath → Option Pfn)
    (s : Machine) : Prop where
  root : T [] = some pgd
  describes : Describes 3 s.tables T
  closed : ∀ π i, T π = none → T (i :: π) = none
  tables : ∀ f, (Region.osPt, f) ∈ allocated s.log ↔ ∃ π : TablePath, π.length ≤ 3 ∧ T π = some f
  user : ∀ f, (Region.user, f) ∈ allocated s.log ↔ f ∈ pages
  others : ∀ f, (Region.osDs, f) ∉ allocated s.log
  distinct : pages.Nodup
  order : (allocated s.log).map Prod.snd = ((List.range s.calls).map frames).reverse
  unfreed : freed s.log = []

variable {frames : ℕ → Pfn} {pgd argPfn table : Pfn} {pages : List Pfn} {c : MmSeg}
  {flag : BitVec 32} {T : TablePath → Option Pfn} {s : Machine} {π ρ : TablePath} {i n : ℕ}
    {f : Pfn}

namespace Built

theorem exists_call (h : Built frames pgd pages T s) {region : Region}
    (hf : (region, f) ∈ allocated s.log) : ∃ m < s.calls, frames m = f := by
  have hpfn : f ∈ (allocated s.log).map Prod.snd := List.mem_map_of_mem (f := Prod.snd) hf
  rw [h.order, List.mem_reverse, List.mem_map] at hpfn
  obtain ⟨m, hm, heq⟩ := hpfn
  exact ⟨m, List.mem_range.mp hm, heq⟩

/-- All the frames allocated are different. -/
theorem nodup (h : Built frames pgd pages T s) (hsupplied : Supplied frames argPfn n)
    (hn : s.calls ≤ n) : ((allocated s.log).map Prod.snd).Nodup := by
  rw [h.order, List.nodup_reverse]
  refine List.nodup_range.map_on fun i hi j hj heq ↦ ?_
  rw [List.mem_range] at hi hj
  by_contra hne
  rcases Nat.lt_or_gt_of_ne hne with hlt | hlt
  · exact hsupplied.unused i j hlt (by omega) heq
  · exact hsupplied.unused j i hlt (by omega) heq.symm

/-- The frame of the next call has not been allocated. -/
theorem unused (h : Built frames pgd pages T s) (hsupplied : Supplied frames argPfn n)
    (hn : s.calls < n) (region : Region) : (region, frames s.calls) ∉ allocated s.log := by
  intro hmem
  obtain ⟨m, hm, heq⟩ := h.exists_call hmem
  exact hsupplied.unused m s.calls hm hn heq

/-- The frame of the next call is none of the tables. -/
theorem fresh (h : Built frames pgd pages T s) (hsupplied : Supplied frames argPfn n)
    (hn : s.calls < n) : ∀ ρ : TablePath, ρ.length ≤ 3 → T ρ ≠ some (frames s.calls) :=
  fun ρ hρ hf ↦ h.unused hsupplied hn .osPt ((h.tables _).mpr ⟨ρ, hρ, hf⟩)

/-- One more frame in the order of the calls. -/
theorem order_alloc (h : Built frames pgd pages T s) (region : Region) :
    (allocated ((osPfnAlloc frames region s).2).log).map Prod.snd =
      ((List.range (osPfnAlloc frames region s).2.calls).map frames).reverse := by
  change frames s.calls :: (allocated s.log).map Prod.snd = _
  rw [h.order, osPfnAlloc, List.range_succ, List.map_append, List.reverse_append]
  rfl

/-- Setting the write bit of the entry that was just made. -/
theorem permit (h : Built frames pgd pages (Function.update T (i :: π) (some f)) s)
    (hπ : π.length ≤ 3) (ht : T π = some table) (hi : i < 512) (flag : BitVec 32) :
    Built frames pgd pages (Function.update T (i :: π) (some f)) (permit flag table i s) := by
  have hne : π ≠ i :: π := fun heq ↦ by
    have hlength := congrArg List.length heq
    simp at hlength
  have ht' : Function.update T (i :: π) (some f) π = some table := by
    rw [Function.update_of_ne hne, ht]
  unfold ContextMm.permit
  split_ifs
  · refine ⟨h.root, h.describes.rewrite hπ ht' ?_, h.closed, h.tables, h.user, h.others, h.distinct,
      h.order, h.unfreed⟩
    have hentry := h.describes.entry hπ hi ht'
    rw [Function.update_self] at hentry ⊢
    exact hentry.or_bits 0x2 (by decide)
  · exact h

end Built

theorem calls_permit (flag : BitVec 32) (table : Pfn) (i : ℕ) (s : Machine) :
    (permit flag table i s).calls = s.calls := by
  unfold permit
  split_ifs <;> rfl

/-- The table a level of `allocate` goes on with. -/
def below (frames : ℕ → Pfn) (table : Pfn) (i : ℕ) (s : Machine) : Pfn × Machine :=
  if s.tables table i &&& 1 = 0 then newTable frames table i (s.load table i).2
  else oldTable table i (s.load table i).2

theorem below_of_none (h : Encodes (s.tables table i) none) :
    below frames table i s = newTable frames table i (s.load table i).2 :=
  if_pos h.bit_eq_zero

theorem below_of_some (h : Encodes (s.tables table i) (some f)) :
    below frames table i s = (f, ((s.load table i).2.load table i).2) := by
  rw [below, if_neg h.bit_ne_zero, ← h.2]
  rfl

theorem descend_eq : descend frames flag table i s =
    ((below frames table i s).1, permit flag table i (below frames table i s).2) := rfl

theorem calls_le_below (frames : ℕ → Pfn) (table : Pfn) (i : ℕ) (s : Machine) :
    s.calls ≤ (below frames table i s).2.calls := by
  unfold below
  split_ifs
  · exact Nat.le_succ _
  · exact le_rfl

/-- The entry of a new table. -/
theorem newTable_tables (hentry : s.tables table i = 0) (hne : table ≠ frames s.calls) :
    (newTable frames table i s).2.tables =
      (s.tables.zero (frames s.calls)).set table i (0 ||| shifted (frames s.calls) ||| 0x5) := by
  simp only [newTable, osPfnAlloc, Machine.or_tables, Machine.zero_tables, Tables.set_same,
    Tables.set_set, Tables.zero_of_ne hne, hentry]

namespace Built

/-- A load changes nothing but the log. -/
theorem load (h : Built frames pgd pages T s) (table : Pfn) (i : ℕ) :
    Built frames pgd pages T (s.load table i).2 :=
  ⟨h.root, h.describes, h.closed, h.tables, h.user, h.others, h.distinct, h.order, h.unfreed⟩

/-- A new table below an entry that is not present. -/
theorem newTable (h : Built frames pgd pages T s) (hsupplied : Supplied frames argPfn n)
    (hn : s.calls < n) (hπ : π.length < 3) (hi : i < 512) (ht : T π = some table)
    (hnone : T (i :: π) = none) :
    Built frames pgd pages (Function.update T (i :: π) (some (frames s.calls)))
      (newTable frames table i s).2 := by
  have hfresh := h.fresh hsupplied hn
  have hentry : s.tables table i = 0 := by
    have hentry := h.describes.entry hπ.le hi ht
    rwa [hnone] at hentry
  have hne : table ≠ frames s.calls := fun heq ↦ hfresh π hπ.le (heq ▸ ht)
  have htables : (ContextMm.newTable frames table i s).2.tables =
      (s.tables.zero (frames s.calls)).set table i (0 ||| shifted (frames s.calls) ||| 0x5) :=
    newTable_tables hentry hne
  refine ⟨?_, ?_, closed_update h.closed ht _, fun f ↦ ?_, fun f ↦ ?_, fun f ↦ ?_, ?_, ?_,
    h.unfreed⟩
  · rw [Function.update_of_ne (List.cons_ne_nil i π).symm]
    exact h.root
  · rw [htables]
    exact h.describes.add_table hπ ht
      (encodes_shifted (hsupplied.small _ hn) 0x5 (by decide) (by decide)) hfresh
      fun j ↦ h.closed _ j hnone
  · change (Region.osPt, f) ∈ (Region.osPt, frames s.calls) :: allocated s.log ↔ _
    rw [List.mem_cons, h.tables f, Prod.mk.injEq]
    constructor
    · rintro (⟨-, rfl⟩ | ⟨ρ, hρ, hf⟩)
      · exact ⟨i :: π, by simpa using hπ, Function.update_self ..⟩
      · refine ⟨ρ, hρ, ?_⟩
        rw [Function.update_of_ne, hf]
        rintro rfl
        rw [hnone] at hf
        cases hf
    · rintro ⟨ρ, hρ, hf⟩
      rw [Function.update_apply] at hf
      split_ifs at hf
      · exact .inl ⟨rfl, (Option.some.inj hf).symm⟩
      · exact .inr ⟨ρ, hρ, hf⟩
  · change (Region.user, f) ∈ (Region.osPt, frames s.calls) :: allocated s.log ↔ _
    rw [List.mem_cons, h.user f]
    simp
  · change (Region.osDs, f) ∉ (Region.osPt, frames s.calls) :: allocated s.log
    simpa using h.others f
  · exact h.distinct
  · exact h.order_alloc .osPt

/-- A level of the walk adds the table below an entry or finds it there. -/
theorem below (h : Built frames pgd pages T s) (hsupplied : Supplied frames argPfn n)
    (hn : (below frames table i s).2.calls ≤ n) (hπ : π.length < 3) (hi : i < 512)
    (ht : T π = some table) :
    Built frames pgd pages (Function.update T (i :: π) (some (below frames table i s).1))
        (below frames table i s).2 ∧
      ∀ f, T (i :: π) = some f → f = (ContextMm.below frames table i s).1 := by
  have hentry := h.describes.entry hπ.le hi ht
  cases hbelow : T (i :: π) with
  | none =>
    rw [hbelow] at hentry
    rw [below_of_none hentry] at hn ⊢
    exact ⟨(h.load table i).newTable hsupplied hn hπ hi ht hbelow,
      fun f hf ↦ by cases hf⟩
  | some f =>
    rw [hbelow] at hentry
    rw [below_of_some hentry, ← hbelow, Function.update_eq_self]
    exact ⟨(h.load table i).load table i, fun g hg ↦ (Option.some.inj (hbelow ▸ hg)).symm⟩

/-- A user frame from `os_pfn_alloc`. -/
theorem alloc_user (h : Built frames pgd pages T s) (hsupplied : Supplied frames argPfn n)
    (hn : s.calls < n) :
    Built frames pgd (frames s.calls :: pages) T (osPfnAlloc frames .user s).2 := by
  have hnew : frames s.calls ∉ pages := fun hmem ↦
    h.unused hsupplied hn .user ((h.user _).mpr hmem)
  refine ⟨h.root, h.describes, h.closed, fun f ↦ ?_, fun f ↦ ?_, fun f ↦ ?_,
    List.nodup_cons.mpr ⟨hnew, h.distinct⟩, h.order_alloc .user, h.unfreed⟩
  · change (Region.osPt, f) ∈ (Region.user, frames s.calls) :: allocated s.log ↔ _
    rw [List.mem_cons, h.tables f]
    simp
  · change (Region.user, f) ∈ (Region.user, frames s.calls) :: allocated s.log ↔ _
    rw [List.mem_cons, List.mem_cons, h.user f]
    simp
  · change (Region.osDs, f) ∉ (Region.user, frames s.calls) :: allocated s.log
    simpa using h.others f

/-- An entry for a page, below a table of the last level. -/
theorem setPage (h : Built frames pgd pages T s) (hπ : π.length = 3) (hi : i < 512)
    (ht : T π = some table) (hnone : T (i :: π) = none) :
    Built frames pgd pages
      (Function.update T (i :: π) (some (Entry.pfn (0 ||| shifted f ||| 0x5))))
      ((s.or table i (shifted f)).or table i 0x5) := by
  have hentry : s.tables table i = 0 := by
    have hentry := h.describes.entry hπ.le hi ht
    rwa [hnone] at hentry
  refine ⟨?_, ?_, closed_update h.closed ht _, fun f ↦ ?_, h.user, h.others, h.distinct, h.order,
    h.unfreed⟩
  · rw [Function.update_of_ne (List.cons_ne_nil i π).symm]
    exact h.root
  · simp only [Machine.or_tables, Tables.set_same, Tables.set_set, hentry]
    exact h.describes.add_page hπ ht ⟨Entry.present_or_bits _ _ (.inr (by decide)), rfl⟩
  · refine (h.tables f).trans (exists_congr fun ρ ↦ and_congr_right fun hρ ↦ ?_)
    rw [Function.update_of_ne]
    rintro rfl
    rw [List.length_cons, hπ] at hρ
    omega

end Built

/-! ### Permissions -/

section Marks

variable {W : TablePath → Prop}

/-- Setting the write bit of an entry of the tree marks its place. -/
theorem marked_permit (hd : Describes 3 s.tables T) (hm : Marked 3 s.tables T W) (hπ : π.length ≤ 3)
    (hi : i < 512) (ht : T π = some table) (hne : T (i :: π) ≠ none) (flag : BitVec 32) :
    Marked 3 (permit flag table i s).tables T
      (fun ρ ↦ W ρ ∨ ρ = i :: π ∧ flag &&& 0x2 = 2) := by
  unfold permit
  split_ifs with hflag
  · refine hm.rewrite hd hπ ht hne ?_ ?_ fun ρ hρ ↦ or_iff_left fun h ↦ hρ h.1
    · exact (Entry.user_or _ _).mpr (.inl (hm.user hπ hi ht hne))
    · exact iff_of_true ((Entry.writable_or _ _).mpr (.inr (by decide))) (.inr ⟨rfl, hflag⟩)
  · exact hm.congr (fun _ _ _ _ ↦ rfl) fun ρ ↦ or_iff_left fun h ↦ hflag h.2

theorem shifted_bit (f : Pfn) {j : ℕ} (hj : j < 12) : (shifted f).getLsbD j = false := by
  rw [shifted, BitVec.getLsbD_setWidth, BitVec.getLsbD_shiftLeft, decide_eq_true hj]
  simp

/-- An entry that is set for a frame permits user access and no writing. -/
theorem entry_user (f : Pfn) : Entry.User (0 ||| shifted f ||| 0x5) :=
  (Entry.user_or _ _).mpr (.inr (by decide))

theorem entry_not_writable (f : Pfn) : ¬Entry.Writable (0 ||| shifted f ||| 0x5) := by
  rw [Entry.writable_or, Entry.writable_or, Entry.Writable, Entry.Writable,
    shifted_bit f (by norm_num)]
  decide

namespace Built

/-- A level of the walk marks the place of its entry. -/
theorem marked_descend (h : Built frames pgd pages T s) (hm : Marked 3 s.tables T W)
    (hsupplied : Supplied frames argPfn n)
    (hn : (ContextMm.descend frames flag table i s).2.calls ≤ n)
    (hπ : π.length < 3) (hi : i < 512) (ht : T π = some table) :
    Marked 3 (ContextMm.descend frames flag table i s).2.tables
      (Function.update T (i :: π) (some (ContextMm.descend frames flag table i s).1))
      (fun ρ ↦ W ρ ∨ ρ = i :: π ∧ flag &&& 0x2 = 2) := by
  rw [descend_eq] at hn ⊢
  rw [calls_permit] at hn
  have hbelow := (h.below hsupplied hn hπ hi ht).1
  have hplace : Function.update T (i :: π) (some (ContextMm.below frames table i s).1) π =
      some table := by
    rw [Function.update_of_ne, ht]
    intro heq
    have hlength := congrArg List.length heq
    simp at hlength
  refine marked_permit hbelow.describes ?_ hπ.le hi hplace
    (by rw [Function.update_self]; exact Option.some_ne_none _) flag
  have hentry := h.describes.entry hπ.le hi ht
  cases hold : T (i :: π) with
  | none =>
    rw [hold] at hentry
    rw [below_of_none hentry] at hn ⊢
    have hfresh := h.fresh hsupplied hn
    have hne : table ≠ frames s.calls := fun heq ↦ hfresh π hπ.le (heq ▸ ht)
    have hzero : Describes 3 (s.tables.zero (frames s.calls)) T :=
      h.describes.congr fun ρ u hρ hu ↦ Tables.zero_of_ne fun heq ↦ hfresh ρ hρ (heq ▸ hu)
    have htables : (ContextMm.newTable frames table i (s.load table i).2).2.tables =
        (s.tables.zero (frames s.calls)).set table i (0 ||| shifted (frames s.calls) ||| 0x5) :=
      newTable_tables hentry hne
    rw [htables]
    exact (hm.zero hfresh).write hzero hπ.le ht (entry_user _)
      (iff_of_false (entry_not_writable _) fun hW ↦ hm.inside _ hW hold) (fun _ _ ↦ Iff.rfl)
      (.inr fun j ↦ h.closed _ j hold)
  | some f =>
    rw [hold] at hentry
    rw [below_of_some hentry, ← hold, Function.update_eq_self]
    exact hm

/-- The entry of a page marks its place. -/
theorem marked_setPage (h : Built frames pgd pages T s) (hm : Marked 3 s.tables T W)
    (flag : BitVec 32) (hπ : π.length = 3) (hi : i < 512) (ht : T π = some table)
    (hnone : T (i :: π) = none) :
    Marked 3 (ContextMm.permit flag table i ((s.or table i (shifted f)).or table i 0x5)).tables
      (Function.update T (i :: π) (some (Entry.pfn (0 ||| shifted f ||| 0x5))))
      (fun ρ ↦ W ρ ∨ ρ = i :: π ∧ flag &&& 0x2 = 2) := by
  have hset := h.setPage (f := f) hπ hi ht hnone
  have hplace : Function.update T (i :: π) (some (Entry.pfn (0 ||| shifted f ||| 0x5))) π =
      some table := by
    rw [Function.update_of_ne, ht]
    intro heq
    have hlength := congrArg List.length heq
    simp at hlength
  refine marked_permit hset.describes ?_ hπ.le hi hplace
    (by rw [Function.update_self]; exact Option.some_ne_none _) flag
  have hentry : s.tables table i = 0 := by
    have hentry := h.describes.entry hπ.le hi ht
    rwa [hnone] at hentry
  simp only [Machine.or_tables, Tables.set_same, Tables.set_set, hentry]
  exact hm.write h.describes hπ.le ht (entry_user _)
    (iff_of_false (entry_not_writable _) fun hW ↦ hm.inside _ hW hnone) (fun _ _ ↦ Iff.rfl)
    (.inr fun j ↦ h.closed _ j hnone)

end Built

end Marks

theorem mapPage_absent (h : ¬(s.tables table i).Present) :
    mapPage frames c flag argPfn table i s =
      permit flag table i (((page frames c argPfn (s.load table i).2).2.or table i
        (shifted (page frames c argPfn (s.load table i).2).1)).or table i 0x5) :=
  if_neg h

theorem mapPage_present (h : (s.tables table i).Present) :
    mapPage frames c flag argPfn table i s = (s.load table i).2 :=
  if_pos h

namespace Built

/-- A page below an entry that is not present: the frame of the arguments, or a new user frame. -/
theorem mapPage (h : Built frames pgd pages T s) (flag : BitVec 32)
    (hsupplied : Supplied frames argPfn n)
    (hn : (mapPage frames c flag argPfn table i s).calls ≤ n) (hπ : π.length = 3) (hi : i < 512)
    (ht : T π = some table) (hnone : T (i :: π) = none) :
    ∃ f pages', Built frames pgd pages' (Function.update T (i :: π) (some f))
        (ContextMm.mapPage frames c flag argPfn table i s) ∧
      (if c = .data then pages' = pages ∧ f = Entry.pfn (0 ||| shifted argPfn ||| 0x5)
        else pages' = f :: pages) ∧
      ∀ W, Marked 3 s.tables T W →
        Marked 3 (ContextMm.mapPage frames c flag argPfn table i s).tables
          (Function.update T (i :: π) (some f)) (fun ρ ↦ W ρ ∨ ρ = i :: π ∧ flag &&& 0x2 = 2) := by
  have habsent : ¬(s.tables table i).Present := by
    have hentry := h.describes.entry hπ.le hi ht
    rw [hnone] at hentry
    exact hentry.not_present
  rw [mapPage_absent habsent] at hn ⊢
  rw [calls_permit] at hn
  by_cases hc : c = .data
  · simp only [page, if_pos hc] at hn ⊢
    exact ⟨_, pages, ((h.load table i).setPage hπ hi ht hnone).permit hπ.le ht hi flag, ⟨rfl, rfl⟩,
      fun W hm ↦ (h.load table i).marked_setPage hm flag hπ hi ht hnone⟩
  · simp only [page, if_neg hc] at hn ⊢
    have halloc := (h.load table i).alloc_user hsupplied hn
    have hset := (halloc.setPage (f := frames s.calls) hπ hi ht hnone).permit hπ.le ht hi flag
    have hmarked := fun W (hm : Marked 3 s.tables T W) ↦
      halloc.marked_setPage (f := frames s.calls) hm flag hπ hi ht hnone
    have hsmall : (frames s.calls).toNat < 2 ^ 20 := hsupplied.small _ hn
    rw [(encodes_shifted hsmall 0x5 (by decide) (by decide)).2] at hset hmarked
    exact ⟨_, _, hset, rfl, hmarked⟩

/-- A level of the walk, with the write bit. -/
theorem descend (h : Built frames pgd pages T s) (hsupplied : Supplied frames argPfn n)
    (hn : (descend frames flag table i s).2.calls ≤ n) (hπ : π.length < 3) (hi : i < 512)
    (ht : T π = some table) :
    Built frames pgd pages (Function.update T (i :: π) (some (descend frames flag table i s).1))
        (ContextMm.descend frames flag table i s).2 ∧
      ∀ f, T (i :: π) = some f → f = (ContextMm.descend frames flag table i s).1 := by
  rw [descend_eq] at hn ⊢
  rw [calls_permit] at hn
  obtain ⟨hbelow, hsame⟩ := h.below hsupplied hn hπ hi ht
  exact ⟨hbelow.permit hπ.le ht hi flag, hsame⟩

end Built

/-! ### The walk to a page -/

/-- What a walk to the place `p` adds to a tree. -/
structure Walked (T T' : TablePath → Option Pfn) (p : TablePath) : Prop where
  keeps : ∀ ρ f, T ρ = some f → T' ρ = some f
  dom : ∀ ρ, T' ρ ≠ none ↔ T ρ ≠ none ∨ ρ <:+ p

theorem Walked.trans {T₁ T₂ T₃ : TablePath → Option Pfn} {p q : TablePath}
    (h : Walked T₁ T₂ p) (h' : Walked T₂ T₃ q) (hpq : p <:+ q) : Walked T₁ T₃ q where
  keeps := fun ρ f hf ↦ h'.keeps ρ f (h.keeps ρ f hf)
  dom := fun ρ ↦ by
    rw [h'.dom, h.dom, or_assoc]
    exact or_congr_right ⟨fun hor ↦ hor.elim (fun hp ↦ hp.trans hpq) id, .inr⟩

/-- The places on the way from `π` to `p`, without `π`. -/
def OnWay (π p ρ : TablePath) : Prop := ρ <:+ p ∧ π.length < ρ.length

theorem onWay_last : OnWay π (i :: π) ρ ↔ ρ = i :: π := by
  constructor
  · rintro ⟨hsuffix, hlt⟩
    exact suffix_length_succ List.suffix_rfl hsuffix
      (le_antisymm (by simpa using hsuffix.length_le) hlt)
  · rintro rfl
    exact ⟨List.suffix_rfl, by simp⟩

/-- The way through a place. -/
theorem onWay_first {p : TablePath} (hp : i :: π <:+ p) :
    OnWay π p ρ ↔ ρ = i :: π ∨ OnWay (i :: π) p ρ := by
  constructor
  · rintro ⟨hsuffix, hlt⟩
    rcases Nat.lt_or_ge (i :: π).length ρ.length with hlonger | hshort
    · exact .inr ⟨hsuffix, hlonger⟩
    · exact .inl (suffix_length_succ hp hsuffix (le_antisymm (by simpa using hshort) hlt))
  · rintro (rfl | ⟨hsuffix, hlt⟩)
    · exact ⟨hp, by simp⟩
    · exact ⟨hsuffix, by simp at hlt; omega⟩

/-- One more place on the way. -/
theorem walked_update (hclosed : ∀ π i, T π = none → T (i :: π) = none) (ht : T π = some table)
    (hsame : ∀ g, T (i :: π) = some g → g = f) :
    Walked T (Function.update T (i :: π) (some f)) (i :: π) where
  keeps := fun ρ g hg ↦ by
    rw [Function.update_apply]
    split_ifs with heq
    · rw [← hsame g (heq ▸ hg)]
    · exact hg
  dom := fun ρ ↦ by
    rw [List.suffix_cons_iff, Function.update_apply]
    split_ifs with heq
    · exact iff_of_true (Option.some_ne_none f) (.inr (.inl heq))
    · refine ⟨.inl, fun hor ↦ ?_⟩
      rcases hor with hρ | hρ | hρ
      · exact hρ
      · exact absurd hρ heq
      · exact ne_none_of_suffix hclosed hρ (by rw [ht]; exact Option.some_ne_none table)

theorem calls_le_mapPage (frames : ℕ → Pfn) (c : MmSeg) (flag : BitVec 32) (argPfn table : Pfn)
    (i : ℕ) (s : Machine) : s.calls ≤ (mapPage frames c flag argPfn table i s).calls := by
  by_cases hpresent : (s.tables table i).Present
  · rw [mapPage_present hpresent]
    exact le_rfl
  · rw [mapPage_absent hpresent, calls_permit]
    change s.calls ≤ (page frames c argPfn (s.load table i).2).2.calls
    unfold page
    split_ifs
    · exact le_rfl
    · exact Nat.le_succ _

theorem calls_le_allocateLevels (frames : ℕ → Pfn) (c : MmSeg) (flag : BitVec 32) (argPfn : Pfn)
    (rest : List ℕ) (table : Pfn) (s : Machine) :
    s.calls ≤ (allocateLevels frames c flag argPfn rest table s).calls := by
  induction rest generalizing table s with
  | nil => exact le_rfl
  | cons i rest ih =>
    cases rest with
    | nil => exact calls_le_mapPage frames c flag argPfn table i s
    | cons j rest =>
      have hdescend : s.calls ≤ (descend frames flag table i s).2.calls := by
        rw [descend_eq, calls_permit]
        exact calls_le_below frames table i s
      exact hdescend.trans (ih _ _)

/-- A walk adds the tables on the way and the page, where they are missing. -/
theorem Built.allocateLevels {rest : List ℕ} (h : Built frames pgd pages T s)
    (hsupplied : Supplied frames argPfn n)
    (hn : (allocateLevels frames c flag argPfn rest table s).calls ≤ n)
    (hlen : rest.length + π.length = 4) (hrest : rest ≠ []) (hidx : ∀ i ∈ rest, i < 512)
    (ht : T π = some table) (hnone : T (rest.reverse ++ π) = none) :
    ∃ T' pages', Built frames pgd pages' T'
        (ContextMm.allocateLevels frames c flag argPfn rest table s) ∧
      Walked T T' (rest.reverse ++ π) ∧
      (if c = .data then pages' = pages ∧
          T' (rest.reverse ++ π) = some (Entry.pfn (0 ||| shifted argPfn ||| 0x5))
        else ∃ f, T' (rest.reverse ++ π) = some f ∧ pages' = f :: pages) ∧
      ∀ W, Marked 3 s.tables T W →
        Marked 3 (ContextMm.allocateLevels frames c flag argPfn rest table s).tables T'
          fun ρ ↦ W ρ ∨ OnWay π (rest.reverse ++ π) ρ ∧ flag &&& 0x2 = 2 := by
  induction rest generalizing T s π table with
  | nil => exact absurd rfl hrest
  | cons i rest ih =>
    have hi : i < 512 := hidx i List.mem_cons_self
    cases rest with
    | nil =>
      have hπ : π.length = 3 := by
        rw [List.length_singleton] at hlen
        omega
      obtain ⟨f, pages', hpage, hpages, hmarked⟩ := h.mapPage flag hsupplied hn hπ hi ht hnone
      refine ⟨_, pages', hpage, walked_update h.closed ht fun g hg ↦ ?_, ?_, fun W hm ↦
        (hmarked W hm).congr (fun _ _ _ _ ↦ rfl) fun ρ ↦ or_congr_right (and_congr_left' ?_)⟩
      · rw [show T (i :: π) = none from hnone] at hg
        cases hg
      · split_ifs with hc
        · rw [if_pos hc] at hpages
          exact ⟨hpages.1, hpages.2 ▸ Function.update_self ..⟩
        · rw [if_neg hc] at hpages
          exact ⟨f, Function.update_self .., hpages⟩
      · exact onWay_last
    | cons j rest =>
      have hπ : π.length < 3 := by
        simp only [List.length_cons] at hlen
        omega
      have hplace : (i :: j :: rest).reverse ++ π = (j :: rest).reverse ++ i :: π := by simp
      rw [hplace] at hnone ⊢
      obtain ⟨hdescend, hsame⟩ := h.descend hsupplied
        ((calls_le_allocateLevels frames c flag argPfn (j :: rest) _ _).trans hn) hπ hi ht
      obtain ⟨T', pages', hbuilt, hwalked, hpages, hmarked⟩ := ih hdescend hn
        (by simp only [List.length_cons] at hlen ⊢; omega) (List.cons_ne_nil j rest)
        (fun m hm ↦ hidx m (List.mem_cons_of_mem i hm)) (Function.update_self ..) (by
          rw [Function.update_of_ne]
          · exact hnone
          · intro heq
            have hlength := congrArg List.length heq
            simp at hlength
            omega)
      refine ⟨T', pages', hbuilt, (walked_update h.closed ht hsame).trans hwalked
        (List.suffix_append _ _), hpages, fun W hm ↦ ?_⟩
      have hfirst := h.marked_descend hm hsupplied
        ((calls_le_allocateLevels frames c flag argPfn (j :: rest) _ _).trans hn) hπ hi ht
      refine (hmarked _ hfirst).congr (fun _ _ _ _ ↦ rfl) fun ρ ↦ ?_
      rw [onWay_first (List.suffix_append (j :: rest).reverse (i :: π))]
      tauto

/-! ### The whole address space -/

/-- The place of a segment's page in the tree. -/
def ExecContext.place (ctx : ExecContext) (c : MmSeg) : TablePath :=
  (indices (virutalAdd c (ctx.mms c))).reverse

/-- The pages of the three segments are below `2 ^ 48` and pairwise distinct. -/
structure ExecContext.Separate (ctx : ExecContext) : Prop where
  low : ∀ c, c ≠ .rodata → (virutalAdd c (ctx.mms c)).toNat < 2 ^ 48
  distinct : ∀ c d, c ≠ .rodata → d ≠ .rodata → c ≠ d →
    virutalAdd c (ctx.mms c) >>> 12 ≠ virutalAdd d (ctx.mms d) >>> 12

theorem ExecContext.Separate.place_ne {ctx : ExecContext} (h : ctx.Separate) {c d : MmSeg}
    (hc : c ≠ .rodata) (hd : d ≠ .rodata) (hcd : c ≠ d) : ctx.place c ≠ ctx.place d := by
  intro heq
  exact h.distinct c d hc hd hcd
    (page_eq_of_indices (h.low c hc) (h.low d hd) (List.reverse_injective heq))

theorem ExecContext.length_place (ctx : ExecContext) (c : MmSeg) : (ctx.place c).length = 4 := rfl

/-- No page is above another one. -/
theorem ExecContext.Separate.not_suffix {ctx : ExecContext} (h : ctx.Separate) {c d : MmSeg}
    (hc : c ≠ .rodata) (hd : d ≠ .rodata) (hcd : c ≠ d) : ¬ctx.place c <:+ ctx.place d :=
  fun hsuffix ↦ h.place_ne hc hd hcd (hsuffix.eq_of_length rfl)

/-- The address space with its root only. -/
theorem built_root (frames : ℕ → Pfn) (tables : Tables) :
    Built frames (frames 0) [] (fun ρ ↦ if ρ = [] then some (frames 0) else none)
      ((osPfnAlloc frames .osPt ⟨tables, 0, []⟩).2.zero (frames 0)) where
  root := rfl
  describes := {
    inj := fun {π ρ f} _ _ hf hf' ↦ by
      split_ifs at hf hf' with hπ hρ
      rw [hπ, hρ]
    entry := fun {π f i} _ hi hf ↦ by
      split_ifs at hf
      obtain rfl := Option.some.inj hf
      rw [if_neg (List.cons_ne_nil i π)]
      exact Tables.zero_same hi }
  closed := fun π i _ ↦ if_neg (List.cons_ne_nil i π)
  tables := fun f ↦ by
    change (Region.osPt, f) ∈ [(Region.osPt, frames 0)] ↔ _
    rw [List.mem_singleton, Prod.mk.injEq]
    constructor
    · rintro ⟨-, rfl⟩
      exact ⟨[], Nat.zero_le 3, rfl⟩
    · rintro ⟨ρ, -, hf⟩
      split_ifs at hf
      exact ⟨rfl, (Option.some.inj hf).symm⟩
  user := fun f ↦ by
    change (Region.user, f) ∈ [(Region.osPt, frames 0)] ↔ _
    simp
  others := fun f ↦ by
    change (Region.osDs, f) ∉ [(Region.osPt, frames 0)]
    simp
  distinct := List.nodup_nil
  order := rfl
  unfreed := rfl

/-- The walk of one segment, from the root. -/
theorem Built.allocate {ctx : ExecContext} (h : Built frames pgd pages T s)
    (hsupplied : Supplied frames ctx.argPfn n)
    (hn : (allocate frames c pgd (ctx.mms c) ctx.argPfn s).calls ≤ n)
    (hlow : (virutalAdd c (ctx.mms c)).toNat < 2 ^ 48) (hnone : T (ctx.place c) = none) :
    ∃ T' pages', Built frames pgd pages' T'
        (ContextMm.allocate frames c pgd (ctx.mms c) ctx.argPfn s) ∧
      Walked T T' (ctx.place c) ∧
      (if c = .data then pages' = pages ∧
          T' (ctx.place c) = some (Entry.pfn (0 ||| shifted ctx.argPfn ||| 0x5))
        else ∃ f, T' (ctx.place c) = some f ∧ pages' = f :: pages) ∧
      ∀ W, Marked 3 s.tables T W →
        Marked 3 (ContextMm.allocate frames c pgd (ctx.mms c) ctx.argPfn s).tables T'
          fun ρ ↦ W ρ ∨ OnWay [] (ctx.place c) ρ ∧ (ctx.mms c).accessFlags &&& 0x2 = 2 := by
  have hplace : (indices (virutalAdd c (ctx.mms c))).reverse ++ [] = ctx.place c :=
    List.append_nil _
  have hwalk := Built.allocateLevels (π := []) h hsupplied hn rfl (List.cons_ne_nil _ _)
    (indices_lt hlow) h.root (by rw [hplace]; exact hnone)
  rwa [hplace] at hwalk

/-- A tree of three walks. -/
structure Prepared (ctx : ExecContext) (T : TablePath → Option Pfn) (code stack : Pfn) : Prop where
  dom : ∀ ρ, T ρ ≠ none ↔ ρ <:+ ctx.place .code ∨ ρ <:+ ctx.place .data ∨ ρ <:+ ctx.place .stack
  code : T (ctx.place .code) = some code
  stack : T (ctx.place .stack) = some stack

/-- What `prepare_context_mm` leaves: the tree of the three segments, and two user frames. -/
theorem prepared {ctx : ExecContext} (tables : Tables) (hseparate : ctx.Separate)
    (hsupplied : Supplied frames ctx.argPfn
      (prepareContextMm frames ctx ⟨tables, 0, []⟩).2.calls) :
    ∃ T code stack, Prepared ctx T code stack ∧
      Built frames (frames 0) [stack, code] T (prepareContextMm frames ctx ⟨tables, 0, []⟩).2 ∧
      T (ctx.place .data) = some (Entry.pfn (0 ||| shifted ctx.argPfn ||| 0x5)) ∧
      Marked 3 (prepareContextMm frames ctx ⟨tables, 0, []⟩).2.tables T fun ρ ↦
        ∃ c, c ≠ .rodata ∧ OnWay [] (ctx.place c) ρ ∧ (ctx.mms c).accessFlags &&& 0x2 = 2 := by
  set s₀ := ((osPfnAlloc frames .osPt ⟨tables, 0, []⟩).2.zero (frames 0)) with hs₀
  set s₁ := allocate frames .code (frames 0) (ctx.mms .code) ctx.argPfn s₀ with hs₁
  set s₂ := allocate frames .data (frames 0) (ctx.mms .data) ctx.argPfn s₁ with hs₂
  set s₃ := allocate frames .stack (frames 0) (ctx.mms .stack) ctx.argPfn s₂ with hs₃
  have hcalls₁ : s₁.calls ≤ s₂.calls := calls_le_allocateLevels ..
  have hcalls₂ : s₂.calls ≤ s₃.calls := calls_le_allocateLevels ..
  obtain ⟨T₁, pages₁, hbuilt₁, hwalked₁, hpages₁, hmarked₁⟩ := (built_root frames tables).allocate
    (c := .code) hsupplied (hcalls₁.trans hcalls₂) (hseparate.low _ (by decide))
    (if_neg (List.cons_ne_nil _ _))
  have hnone₁ : T₁ (ctx.place .data) = none := by
    by_contra hne
    rcases (hwalked₁.dom _).mp hne with hroot | hsuffix
    · exact hroot (if_neg (List.cons_ne_nil _ _))
    · exact hseparate.not_suffix (by decide) (by decide) (by decide) hsuffix
  obtain ⟨T₂, pages₂, hbuilt₂, hwalked₂, hpages₂, hmarked₂⟩ :=
    hbuilt₁.allocate (c := .data) hsupplied
    hcalls₂ (hseparate.low _ (by decide)) hnone₁
  have hnone₂ : T₂ (ctx.place .stack) = none := by
    by_contra hne
    rcases (hwalked₂.dom _).mp hne with hne | hsuffix
    · rcases (hwalked₁.dom _).mp hne with hroot | hsuffix
      · exact hroot (if_neg (List.cons_ne_nil _ _))
      · exact hseparate.not_suffix (by decide) (by decide) (by decide) hsuffix
    · exact hseparate.not_suffix (by decide) (by decide) (by decide) hsuffix
  obtain ⟨T₃, pages₃, hbuilt₃, hwalked₃, hpages₃, hmarked₃⟩ :=
    hbuilt₂.allocate (c := .stack) hsupplied
    le_rfl (hseparate.low _ (by decide)) hnone₂
  obtain ⟨code, hcode, rfl⟩ := hpages₁
  obtain ⟨rfl, hdata⟩ : pages₂ = [code] ∧ _ := hpages₂
  obtain ⟨stack, hstack, rfl⟩ := hpages₃
  have hroot : Marked 3 s₀.tables
      (fun ρ ↦ if ρ = [] then some (frames 0) else none) fun _ ↦ False :=
    { user := fun {π t i} _ _ _ hne ↦ absurd (if_neg (List.cons_ne_nil i π)) hne
      writable := fun {π t i} _ _ _ hne ↦ absurd (if_neg (List.cons_ne_nil i π)) hne
      inside := fun _ ↦ False.elim }
  refine ⟨T₃, code, stack, ⟨fun ρ ↦ ?_, ?_, hstack⟩, hbuilt₃, hwalked₃.keeps _ _ hdata,
    (hmarked₃ _ (hmarked₂ _ (hmarked₁ _ hroot))).congr (fun _ _ _ _ ↦ rfl) fun ρ ↦ ?_⟩
  · rw [hwalked₃.dom, hwalked₂.dom, hwalked₁.dom]
    have hroot : (if ρ = [] then some (frames 0) else none) ≠ none → ρ <:+ ctx.place .code := by
      intro hne
      split_ifs at hne with hnil
      · exact hnil ▸ List.nil_suffix
      · exact absurd rfl hne
    tauto
  · exact hwalked₃.keeps _ _ (hwalked₂.keeps _ _ hcode)
  · constructor
    · rintro ⟨c, hc, hway⟩
      cases c with
      | code => exact .inl (.inl (.inr hway))
      | data => exact .inl (.inr hway)
      | stack => exact .inr hway
      | rodata => exact absurd rfl hc
    · rintro (((hfalse | hway) | hway) | hway)
      · exact hfalse.elim
      · exact ⟨.code, by decide, hway⟩
      · exact ⟨.data, by decide, hway⟩
      · exact ⟨.stack, by decide, hway⟩

end OsAssignments.Paging.ContextMm
