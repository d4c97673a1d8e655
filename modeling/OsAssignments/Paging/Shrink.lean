import OsAssignments.Paging.AddressSpace
import OsAssignments.Paging.Syscalls

/-!
# What `SYSCALL_SHRINK` unmaps

`Unmapped T R s₀ s` says that the pages at the places `R` have been taken out of the tree `T`, each
freed once if it was there, and nothing else has changed. Every turn of the loop adds the place of
its address (`Unmapped.shrinkLevels`, `Unmapped.shrinkLoop`). The address is the `i`-th page below
`next_free` up to `i = 2 ^ 19 - 1`; from then on the product with 4096 is negative and the address
is `2 ^ 32` higher (`shrinkAdd_toNat`).

The check before the loop multiplies in 32 bits, so it sees a size modulo `2 ^ 20`. The call does
what it reports exactly when that does not matter (`shrink_exact_iff`).
-/

set_option autoImplicit false
set_option relaxedAutoImplicit false

namespace OsAssignments.Paging.Syscalls

open OsAssignments.Library
open ContextMm (MmSeg indices indices_lt oldTable pruned pruned_cons pruned_of_notMem hardwareWalk
  hardwareIndices_eq page_eq_of_indices)

variable {T : TablePath → Option Pfn} {R : List TablePath} {s₀ s : Machine} {π q : TablePath}
  {table f pgd : Pfn} {i : ℕ} {rest : List ℕ}

/-! ### One page -/

/-- The place of an address in the tree. -/
def place (va : BitVec 64) : TablePath := (indices va).reverse

/-- The pages that were still there when their places were visited, latest first. -/
def pagesFreed (T : TablePath → Option Pfn) : List TablePath → List Pfn
  | [] => []
  | q :: R => (pruned T R q).toList ++ pagesFreed T R

theorem mem_pagesFreed : f ∈ pagesFreed T R ↔ ∃ q ∈ R, T q = some f := by
  induction R with
  | nil => simp [pagesFreed]
  | cons q R ih =>
    rw [pagesFreed, List.mem_append, Option.mem_toList, ih, List.exists_mem_cons_iff, pruned]
    split_ifs with hq
    · constructor
      · rintro (hnone | hf)
        · cases hnone
        · exact .inr hf
      · rintro (hf | hf)
        · exact .inr ⟨q, hq, hf⟩
        · exact .inr hf
    · exact Iff.rfl

/-- The pages at some places have been taken out. -/
structure Unmapped (T : TablePath → Option Pfn) (R : List TablePath) (s₀ s : Machine) : Prop where
  describes : Describes 3 s.tables (pruned T R)
  moves : moves s.log = (pagesFreed T R).map (FrameEvent.free Region.user) ++ moves s₀.log
  entry : ∀ {ρ : TablePath} {u : Pfn} {j : ℕ}, ρ.length ≤ 3 → j < 512 → T ρ = some u → j :: ρ ∉ R →
    s.tables u j = s₀.tables u j
  calls : s.calls = s₀.calls

theorem shrinkLevels_page : shrinkLevels [i] table s =
    if (s.tables table i).Present then
      (osPfnFree .user (s.tables table i).pfn ((s.load table i).2.load table i).2).and table i 0
    else (s.load table i).2 := rfl

theorem shrinkLevels_above (hrest : rest ≠ []) : shrinkLevels (i :: rest) table s =
    if s.tables table i &&& 1 = 0 then (s.load table i).2
    else shrinkLevels rest (s.tables table i).pfn ((s.load table i).2.load table i).2 := by
  cases rest with
  | nil => exact absurd rfl hrest
  | cons j rest => rfl

namespace Unmapped

theorem refl (hd : Describes 3 s.tables T) : Unmapped T [] s s where
  describes := by
    rwa [show pruned T [] = T from funext fun π ↦ pruned_of_notMem List.not_mem_nil]
  moves := rfl
  entry := fun _ _ _ _ ↦ rfl
  calls := rfl

/-- A load changes nothing but the log. -/
theorem load (h : Unmapped T R s₀ s) (table : Pfn) (i : ℕ) : Unmapped T R s₀ (s.load table i).2 :=
  ⟨h.describes, h.moves, h.entry, h.calls⟩

/-- A place where there is no page. -/
theorem absent (h : Unmapped T R s₀ s) (hnone : pruned T R q = none) :
    Unmapped T (q :: R) s₀ s where
  describes := by
    rw [pruned_cons, ← hnone, Function.update_eq_self]
    exact h.describes
  moves := by
    rw [pagesFreed, hnone]
    exact h.moves
  entry := fun hρ hj hu hmem ↦ h.entry hρ hj hu fun h' ↦ hmem (List.mem_cons_of_mem _ h')
  calls := h.calls

/-- A page that is there is freed and its entry cleared. -/
theorem clear (h : Unmapped T R s₀ s) (hR : ∀ ρ ∈ R, ρ.length = 4) (hπ : π.length = 3)
    (ht : T π = some table) (hf : pruned T R (i :: π) = some f) :
    Unmapped T ((i :: π) :: R) s₀ ((osPfnFree .user f s).and table i 0) where
  describes := by
    have ht' : pruned T R π = some table := by
      rw [pruned_of_notMem fun hmem ↦ absurd (hR π hmem) (by omega), ht]
    rw [pruned_cons]
    change Describes 3 (s.tables.set table i (s.tables table i &&& 0)) _
    rw [show s.tables table i &&& 0 = 0 from BitVec.and_zero]
    exact h.describes.clear hπ.le ht'
  moves := by
    rw [pagesFreed, hf]
    exact congrArg (FrameEvent.free Region.user f :: ·) h.moves
  entry := fun {ρ u j} hρ hj hu hmem ↦ by
    rw [List.mem_cons, not_or] at hmem
    change s.tables.set table i (s.tables table i &&& 0) u j = _
    have hkeep : ∀ σ, σ.length ≤ 3 → pruned T R σ = T σ := fun σ hσ ↦
      pruned_of_notMem fun hσR ↦ absurd (hR σ hσR) (by omega)
    by_cases hut : u = table
    · have hρπ : ρ = π := h.describes.inj hρ hπ.le (by rw [hkeep ρ hρ, hu])
        (by rw [hkeep π hπ.le, ht, hut])
      have hji : j ≠ i := fun hji ↦ hmem.1 (by rw [hji, hρπ])
      rw [hut, Tables.set_of_ne_index hji, ← hut]
      exact h.entry hρ hj hu hmem.2
    · rw [Tables.set_of_ne hut]
      exact h.entry hρ hj hu hmem.2
  calls := h.calls

/-- A turn of the loop takes out the page at its place. -/
theorem shrinkLevels (h : Unmapped T R s₀ s) (hR : ∀ ρ ∈ R, ρ.length = 4)
    (hclosed : ∀ π i, T π = none → T (i :: π) = none) (hlen : rest.length + π.length = 4)
    (hrest : rest ≠ []) (hidx : ∀ i ∈ rest, i < 512) (ht : T π = some table) :
    Unmapped T ((rest.reverse ++ π) :: R) s₀ (shrinkLevels rest table s) := by
  induction rest generalizing s π table with
  | nil => exact absurd rfl hrest
  | cons i rest ih =>
    rw [List.length_cons] at hlen
    have hi := hidx i List.mem_cons_self
    have hkeep : ∀ σ, σ.length ≤ 3 → pruned T R σ = T σ := fun σ hσ ↦
      pruned_of_notMem fun hσR ↦ absurd (hR σ hσR) (by omega)
    have hentry := h.describes.entry (by omega) hi ((hkeep π (by omega)).trans ht)
    cases rest with
    | nil =>
      have hπ : π.length = 3 := by
        rw [List.length_nil] at hlen
        omega
      change Unmapped T ((i :: π) :: R) s₀ _
      rw [shrinkLevels_page]
      cases hbelow : pruned T R (i :: π) with
      | none =>
        rw [hbelow] at hentry
        rw [if_neg hentry.not_present]
        exact (h.load table i).absent hbelow
      | some f =>
        rw [hbelow] at hentry
        rw [if_pos hentry.1, hentry.2]
        exact ((h.load table i).load table i).clear hR hπ ht hbelow
    | cons j rest =>
      have hπ : (i :: π).length ≤ 3 := by
        simp only [List.length_cons] at hlen ⊢
        omega
      have hplace : (i :: j :: rest).reverse ++ π = (j :: rest).reverse ++ i :: π := by simp
      rw [hplace, shrinkLevels_above (List.cons_ne_nil j rest)]
      rw [hkeep _ hπ] at hentry
      cases hbelow : T (i :: π) with
      | none =>
        rw [hbelow] at hentry
        rw [if_pos hentry.bit_eq_zero]
        refine (h.load table i).absent ?_
        rw [pruned]
        split_ifs
        · rfl
        · exact closed_append hclosed hbelow _
      | some f =>
        rw [hbelow] at hentry
        rw [if_neg hentry.bit_ne_zero, hentry.2]
        exact ih ((h.load table i).load table i) (by simp only [List.length_cons] at hlen ⊢; omega)
          (List.cons_ne_nil j rest) (fun m hm ↦ hidx m (List.mem_cons_of_mem i hm)) hbelow

end Unmapped

/-! ### The addresses of the loop -/

section Addresses

variable {nextFree : BitVec 64} {size : BitVec 32}

/-- `size * 4096` in 32 bits. -/
theorem toNat_product (size : BitVec 32) : (size * 4096).toNat = 4096 * (size.toNat % 2 ^ 20) := by
  rw [BitVec.toNat_mul, show (4096 : BitVec 32).toNat = 4096 from rfl]
  omega

/-- The address of a turn is below `next_free` while the product with 4096 is not negative, and
`2 ^ 32` higher when it is. -/
theorem shrinkAdd_toNat (hlow : 2 ^ 32 ≤ nextFree.toNat) (hhigh : nextFree.toNat ≤ 2 ^ 47)
    (i : BitVec 32) : (shrinkAdd nextFree i).toNat =
      if i.toNat % 2 ^ 20 < 2 ^ 19 then nextFree.toNat - 4096 * (i.toNat % 2 ^ 20)
      else nextFree.toNat + 2 ^ 32 - 4096 * (i.toNat % 2 ^ 20) := by
  have hproduct := toNat_product i
  have hmsb : (i * 4096).msb = decide (2 ^ 19 ≤ i.toNat % 2 ^ 20) := by
    rw [BitVec.msb_eq_decide, hproduct, decide_eq_decide]
    omega
  rw [shrinkAdd, BitVec.toNat_sub, BitVec.toNat_signExtend, BitVec.toNat_setWidth, hmsb, hproduct]
  by_cases hpos : i.toNat % 2 ^ 20 < 2 ^ 19
  · rw [if_pos hpos, decide_eq_false (by omega), if_neg Bool.false_ne_true]
    omega
  · rw [if_neg hpos, decide_eq_true (by omega), if_pos rfl]
    omega

theorem shrinkAdd_lt (hlow : 2 ^ 32 ≤ nextFree.toNat) (hhigh : nextFree.toNat ≤ 2 ^ 47)
    (i : BitVec 32) : (shrinkAdd nextFree i).toNat < 2 ^ 48 := by
  rw [shrinkAdd_toNat hlow hhigh]
  split_ifs <;> omega

/-- The places of some turns, latest first. -/
def turnPlaces (nextFree : BitVec 64) (first turns : ℕ) : List TablePath :=
  ((List.range' first turns).map fun n ↦ place (shrinkAdd nextFree (BitVec.ofNat 32 n))).reverse

theorem turnPlaces_succ (nextFree : BitVec 64) (first turns : ℕ) :
    turnPlaces nextFree first (turns + 1) = turnPlaces nextFree (first + 1) turns ++
      [place (shrinkAdd nextFree (BitVec.ofNat 32 first))] := by
  rw [turnPlaces, List.range'_succ, List.map_cons, List.reverse_cons, turnPlaces]

theorem mem_turnPlaces {first turns : ℕ} : q ∈ turnPlaces nextFree first turns ↔
    ∃ n, first ≤ n ∧ n < first + turns ∧ place (shrinkAdd nextFree (BitVec.ofNat 32 n)) = q := by
  simp only [turnPlaces, List.mem_reverse, List.mem_map, List.mem_range'_1, and_assoc]

theorem length_of_mem_turnPlaces {first turns : ℕ} (hq : q ∈ turnPlaces nextFree first turns) :
    q.length = 4 := by
  obtain ⟨n, -, -, rfl⟩ := mem_turnPlaces.mp hq
  rfl

/-- The loop ends when the counter can exceed the size, and takes out the pages of its turns. -/
theorem Unmapped.shrinkLoop (h : Unmapped T R s₀ s) (hR : ∀ ρ ∈ R, ρ.length = 4)
    (hclosed : ∀ π i, T π = none → T (i :: π) = none) (hroot : T [] = some pgd)
    (hlow : 2 ^ 32 ≤ nextFree.toNat) (hhigh : nextFree.toNat ≤ 2 ^ 47)
    (hsize : size.toNat + 1 < 2 ^ 32) {n turns fuel : ℕ} (hn : n + turns = size.toNat + 1)
    (hfuel : turns < fuel) :
    ∃ s', shrinkLoop pgd nextFree size fuel (BitVec.ofNat 32 n) s = some s' ∧
      Unmapped T (turnPlaces nextFree n turns ++ R) s₀ s' := by
  induction turns generalizing n s R fuel with
  | zero =>
    obtain ⟨fuel, rfl⟩ := Nat.exists_eq_succ_of_ne_zero (Nat.pos_iff_ne_zero.mp hfuel)
    refine ⟨s, if_neg ?_, h⟩
    rw [BitVec.le_def, BitVec.toNat_ofNat]
    omega
  | succ turns ih =>
    obtain ⟨fuel, rfl⟩ := Nat.exists_eq_succ_of_ne_zero (Nat.ne_zero_of_lt hfuel)
    have hle : BitVec.ofNat 32 n ≤ size := by
      rw [BitVec.le_def, BitVec.toNat_ofNat]
      omega
    have hturn := h.shrinkLevels (π := []) hR hclosed rfl (List.cons_ne_nil _ _)
      (indices_lt (shrinkAdd_lt hlow hhigh (BitVec.ofNat 32 n))) hroot
    rw [List.append_nil] at hturn
    obtain ⟨s', hs', h'⟩ := ih (n := n + 1) hturn (List.forall_mem_cons.mpr ⟨rfl, hR⟩) (by omega)
      (by omega : turns < fuel)
    refine ⟨s', ?_, ?_⟩
    · rw [Syscalls.shrinkLoop, if_pos hle]
      rwa [BitVec.ofNat_add] at hs'
    · rw [turnPlaces_succ, List.append_assoc]
      exact h'

end Addresses

/-! ### Pages of a process -/

/-- The page tables of a process are a tree. -/
structure PageTree (p : State) (T : TablePath → Option Pfn) : Prop where
  root : T [] = some p.current.pgd
  describes : Describes 3 p.machine.tables T
  closed : ∀ π i, T π = none → T (i :: π) = none

/-- The frame that the hardware finds at an address. -/
def translate (p : State) (va : BitVec 64) : Option Pfn :=
  (hardwareWalk p.machine.tables p.current.pgd va).bind fun es ↦ es.getLast?.map Entry.pfn

section Pages

variable {p p' : State} {va vb : BitVec 64} {machine : Machine}

/-- Addresses have the same place when they are on the same page. -/
theorem place_eq_iff (hva : va.toNat < 2 ^ 48) (hvb : vb.toNat < 2 ^ 48) :
    place va = place vb ↔ va.toNat / 4096 = vb.toNat / 4096 := by
  constructor
  · intro h
    have hpage := congrArg BitVec.toNat (page_eq_of_indices hva hvb (List.reverse_injective h))
    simpa only [BitVec.toNat_ushiftRight, Nat.shiftRight_eq_div_pow] using hpage
  · intro h
    have hdiv : ∀ k, va.toNat / 2 ^ (12 + k) = vb.toNat / 2 ^ (12 + k) := fun k ↦ by
      rw [Nat.pow_add, ← Nat.div_div_eq_div_mul, ← Nat.div_div_eq_div_mul]
      exact congrArg (· / 2 ^ k) h
    rw [place, place, ← hardwareIndices_eq hva, ← hardwareIndices_eq hvb]
    simp only [ContextMm.hardwareIndices]
    rw [hdiv 0, hdiv 9, hdiv 18, hdiv 27]

namespace PageTree

/-- The hardware finds the pages of the tree. -/
theorem translate_eq (h : PageTree p T) (hva : va.toNat < 2 ^ 48) :
    translate p va = T (place va) := by
  have hlast := h.describes.walk_last h.closed h.root le_rfl (indices_lt hva) (List.cons_ne_nil _ _)
  rw [List.append_nil] at hlast
  rw [translate, hardwareWalk, hardwareIndices_eq hva]
  exact hlast

theorem walk_none (h : PageTree p T) (hva : va.toNat < 2 ^ 48) (hnone : T (place va) = none) :
    hardwareWalk p.machine.tables p.current.pgd va = none := by
  rw [hardwareWalk, hardwareIndices_eq hva]
  refine h.describes.walk_none h.root le_rfl (indices_lt hva) ?_
  rwa [List.append_nil]

/-- A page that has been taken out is not found. -/
theorem walk_unmapped (h : PageTree p T) (hunmapped : Unmapped T R p.machine machine)
    (hR : ∀ ρ ∈ R, ρ.length = 4) (hva : va.toNat < 2 ^ 48)
    (hnone : pruned T R (place va) = none) :
    hardwareWalk machine.tables p.current.pgd va = none := by
  rw [hardwareWalk, hardwareIndices_eq hva]
  refine hunmapped.describes.walk_none (π := []) ?_ le_rfl (indices_lt hva) ?_
  · rw [pruned_of_notMem fun hmem ↦ absurd (hR [] hmem) (by simp), h.root]
  · rwa [List.append_nil]

/-- Any other page is found by the same walk. -/
theorem walk_kept (h : PageTree p T) (hunmapped : Unmapped T R p.machine machine)
    (hR : ∀ ρ ∈ R, ρ.length = 4) (hva : va.toNat < 2 ^ 48) (hout : place va ∉ R) :
    hardwareWalk machine.tables p.current.pgd va =
      hardwareWalk p.machine.tables p.current.pgd va := by
  rw [hardwareWalk, hardwareWalk, hardwareIndices_eq hva]
  refine h.describes.walk_congr hR hunmapped.entry h.root le_rfl (indices_lt hva) ?_
  rwa [List.append_nil]

end PageTree

theorem pagesFreed_eq (hnodup : R.Nodup) : pagesFreed T R = R.filterMap T := by
  induction R with
  | nil => rfl
  | cons q R ih =>
    obtain ⟨hq, hR⟩ := List.nodup_cons.mp hnodup
    rw [pagesFreed, pruned_of_notMem hq, ih hR, List.filterMap_cons]
    cases T q with
    | none => rfl
    | some f => rfl

end Pages

/-! ### The whole call -/

/-- A segment between `2 ^ 32` and `2 ^ 47` whose `next_free` is page-aligned. -/
structure MmSegment.Placed (m : MmSegment) : Prop where
  aligned : m.nextFree.toNat % 4096 = 0
  low : 2 ^ 32 ≤ m.start.toNat
  ordered : m.start.toNat ≤ m.nextFree.toNat
  high : m.nextFree.toNat ≤ 2 ^ 47

/-- The page `n` pages below `next_free`. -/
def MmSegment.pageBelow (m : MmSegment) (n : ℕ) : BitVec 64 :=
  m.nextFree - BitVec.ofNat 64 (4096 * n)

/-- The call lowers `next_free` of a segment by some pages to `value`, and unmaps and frees exactly
these. -/
structure ShrunkBy (p : State) (seg : MmSeg) (size : ℕ) (value : BitVec 64) (p' : State) :
    Prop where
  lowered : value.toNat + 4096 * size = (p.current.mms seg).nextFree.toNat
  context : p'.current = (p.setNextFree seg value).current
  walks : ∀ va : BitVec 64, va.toNat < 2 ^ 48 →
    hardwareWalk p'.machine.tables p.current.pgd va =
      if value.toNat ≤ va.toNat ∧ va.toNat < (p.current.mms seg).nextFree.toNat then none
      else hardwareWalk p.machine.tables p.current.pgd va
  frees : moves p'.machine.log =
    (((List.range size).filterMap fun i ↦ translate p (value + BitVec.ofNat 64 (4096 * i))).map
      (FrameEvent.free Region.user)) ++ moves p.machine.log
  output : p'.output = p.output

/-- What a shrink reports: 0 and no change when the pages are more than the segment has, and
otherwise the new value of `next_free`. -/
def ShrinksExactly (p : State) (seg : MmSeg) (size : ℕ)
    (outcome : Except Stop (BitVec 64 × State)) : Prop :=
  if (p.current.mms seg).nextFree.toNat - (p.current.mms seg).start.toNat < 4096 * size then
    outcome = .ok (0, p)
  else ∃ value p', outcome = .ok (value, p') ∧ ShrunkBy p seg size value p'

/-- When a shrink does what it reports: it is refused by the size modulo `2 ^ 20`, or the size is
below `2 ^ 19`; or it is below `2 ^ 20` and no page is there from the `2 ^ 19`-th one on, nor
`2 ^ 32` above. -/
def ShrinkFits (p : State) (seg : MmSeg) (size : ℕ) : Prop :=
  let m := p.current.mms seg
  m.nextFree.toNat - m.start.toNat < 4096 * (size % 2 ^ 20) ∨ size < 2 ^ 19 ∨
    size < 2 ^ 20 ∧ ∀ n, 2 ^ 19 ≤ n → n ≤ size →
      translate p (m.pageBelow n) = none ∧ translate p (m.pageBelow n + 2 ^ 32) = none

section Call

variable {p p' : State} {seg : MmSeg} {m : MmSegment} {size : BitVec 32} {param1 param2 : BitVec 64}
  {value : BitVec 64} {n k : ℕ}

theorem MmSegment.Placed.toNat_lowered (hm : m.Placed) (size : BitVec 32) :
    (m.nextFree - (size * 4096).setWidth 64).toNat =
      m.nextFree.toNat - 4096 * (size.toNat % 2 ^ 20) := by
  have hlow := hm.low
  have hordered := hm.ordered
  rw [BitVec.toNat_sub, BitVec.toNat_setWidth, toNat_product]
  omega

theorem MmSegment.Placed.toNat_pageBelow (hm : m.Placed) (hn : 4096 * n ≤ m.nextFree.toNat) :
    (m.pageBelow n).toNat = m.nextFree.toNat - 4096 * n := by
  have hhigh := hm.high
  rw [pageBelow, BitVec.toNat_sub, BitVec.toNat_ofNat]
  omega

/-- The check before the loop, in exact numbers. -/
theorem MmSegment.Placed.guard_iff (hm : m.Placed) (size : BitVec 32) :
    m.nextFree - (size * 4096).setWidth 64 < m.start ↔
      m.nextFree.toNat - m.start.toNat < 4096 * (size.toNat % 2 ^ 20) := by
  have hlow := hm.low
  have hordered := hm.ordered
  rw [BitVec.lt_def, hm.toNat_lowered]
  omega

/-- The address of a turn is a page below `next_free` or `2 ^ 32` above one. -/
theorem MmSegment.Placed.toNat_turn (hm : m.Placed) (hn : n < 2 ^ 20) :
    (shrinkAdd m.nextFree (BitVec.ofNat 32 n)).toNat =
      if n < 2 ^ 19 then m.nextFree.toNat - 4096 * n else m.nextFree.toNat + 2 ^ 32 - 4096 * n := by
  rw [shrinkAdd_toNat (hm.low.trans hm.ordered) hm.high, BitVec.toNat_ofNat,
    Nat.mod_eq_of_lt (by omega : n < 2 ^ 32), Nat.mod_eq_of_lt hn]

/-- The turns for a size below `2 ^ 20` are for different pages. -/
theorem MmSegment.Placed.turn_inj (hm : m.Placed) (hn : n < 2 ^ 20) (hk : k < 2 ^ 20)
    (h : place (shrinkAdd m.nextFree (BitVec.ofNat 32 n)) =
      place (shrinkAdd m.nextFree (BitVec.ofNat 32 k))) : n = k := by
  have hlow := hm.low.trans hm.ordered
  have haligned := hm.aligned
  rw [place_eq_iff (shrinkAdd_lt hlow hm.high _) (shrinkAdd_lt hlow hm.high _), hm.toNat_turn hn,
    hm.toNat_turn hk] at h
  split_ifs at h <;> omega

theorem MmSegment.Placed.nodup_turnPlaces (hm : m.Placed) (hsize : size.toNat < 2 ^ 20) :
    (turnPlaces m.nextFree 1 size.toNat).Nodup := by
  rw [turnPlaces, List.nodup_reverse]
  refine List.Nodup.map_on (fun n hn k hk h ↦ ?_) List.nodup_range'
  rw [List.mem_range'_1] at hn hk
  exact hm.turn_inj (by omega) (by omega) h

/-- A call that the check refuses. -/
theorem shrink_refused
    (h : (p.current.mms (selected (param2.setWidth 32))).nextFree -
      ((param1.setWidth 32 : BitVec 32) * 4096).setWidth 64 <
        (p.current.mms (selected (param2.setWidth 32))).start) :
          shrink param1 param2 p = .ok (0, p) :=
  if_pos h

/-- A call that returns has been refused, or has lowered `next_free` by the 32-bit product. -/
theorem shrink_value (h : shrink param1 param2 p = .ok (value, p'))
    (haccepted : ¬(p.current.mms (selected (param2.setWidth 32))).nextFree -
      ((param1.setWidth 32 : BitVec 32) * 4096).setWidth 64 <
        (p.current.mms (selected (param2.setWidth 32))).start) :
    value = (p.current.mms (selected (param2.setWidth 32))).nextFree -
      ((param1.setWidth 32 : BitVec 32) * 4096).setWidth 64 := by
  simp only [shrink] at h
  rw [if_neg haccepted] at h
  split at h
  · cases h
  · obtain ⟨rfl, -⟩ := Prod.mk.inj (Except.ok.inj h)
    rfl

/-- A call that the check lets through runs its loop to the end. -/
theorem shrink_runs (htree : PageTree p T)
    (hm : (p.current.mms (selected (param2.setWidth 32))).Placed)
    (haccepted : ¬(p.current.mms (selected (param2.setWidth 32))).nextFree -
      ((param1.setWidth 32 : BitVec 32) * 4096).setWidth 64 <
        (p.current.mms (selected (param2.setWidth 32))).start)
    (hsize : (param1.setWidth 32 : BitVec 32).toNat + 1 < 2 ^ 32) :
    ∃ machine, Unmapped T (turnPlaces (p.current.mms (selected (param2.setWidth 32))).nextFree 1
        (param1.setWidth 32 : BitVec 32).toNat) p.machine machine ∧
      shrink param1 param2 p = .ok ((p.current.mms (selected (param2.setWidth 32))).nextFree -
          ((param1.setWidth 32 : BitVec 32) * 4096).setWidth 64,
        (p.setMachine machine).setNextFree (selected (param2.setWidth 32))
          ((p.current.mms (selected (param2.setWidth 32))).nextFree -
            ((param1.setWidth 32 : BitVec 32) * 4096).setWidth 64)) := by
  obtain ⟨machine, hloop, hunmapped⟩ := (Unmapped.refl htree.describes).shrinkLoop
    (fun ρ hρ ↦ absurd hρ List.not_mem_nil) htree.closed htree.root
      (hm.low.trans hm.ordered) hm.high
    hsize (Nat.add_comm 1 _) (by omega : (param1.setWidth 32 : BitVec 32).toNat < 2 ^ 32)
  rw [List.append_nil] at hunmapped
  refine ⟨machine, hunmapped, ?_⟩
  simp only [shrink]
  rw [if_neg haccepted, show (1 : BitVec 32) = BitVec.ofNat 32 1 from rfl, hloop]

theorem pruned_eq_none : pruned T R q = none ↔ q ∈ R ∨ T q = none := by
  rw [pruned]
  split_ifs with hq
  · exact iff_of_true rfl (.inl hq)
  · rw [or_iff_right hq]

/-- The page of an address below `next_free`, counted from there. -/
theorem MmSegment.Placed.exists_pageBelow (hm : m.Placed) {va : BitVec 64}
    (hlow : m.nextFree.toNat ≤ va.toNat + 4096 * k) (hk : 4096 * k ≤ m.nextFree.toNat)
    (hlt : va.toNat < m.nextFree.toNat) :
    ∃ n, 1 ≤ n ∧ n ≤ k ∧ place va = place (m.pageBelow n) := by
  have haligned := hm.aligned
  have hhigh := hm.high
  have hn : 4096 * (m.nextFree.toNat / 4096 - va.toNat / 4096) ≤ m.nextFree.toNat := by omega
  refine ⟨m.nextFree.toNat / 4096 - va.toNat / 4096, by omega, by omega, ?_⟩
  rw [place_eq_iff (by omega) (by rw [hm.toNat_pageBelow hn]; omega), hm.toNat_pageBelow hn]
  omega

/-- A loop whose turns are for the pages below `next_free`, as far as there are pages, does what the
call reports. -/
theorem shrunkBy_of_turns (htree : PageTree p T)
    (hm : (p.current.mms seg).Placed) {machine : Machine}
    (hunmapped : Unmapped T
      (turnPlaces (p.current.mms seg).nextFree 1 size.toNat) p.machine machine)
    (hsize : size.toNat < 2 ^ 20)
    (hroom : 4096 * size.toNat ≤
      (p.current.mms seg).nextFree.toNat - (p.current.mms seg).start.toNat)
    (hvalue : value.toNat = (p.current.mms seg).nextFree.toNat - 4096 * size.toNat)
    (hturns : ∀ n, 1 ≤ n → n ≤ size.toNat →
      shrinkAdd (p.current.mms seg).nextFree (BitVec.ofNat 32 n) = (p.current.mms seg).pageBelow n ∨
        T (place (shrinkAdd (p.current.mms seg).nextFree (BitVec.ofNat 32 n))) = none ∧
          T (place ((p.current.mms seg).pageBelow n)) = none) :
    ShrunkBy p seg size.toNat value ((p.setMachine machine).setNextFree seg value) where
  lowered := by omega
  context := rfl
  output := rfl
  walks := fun va hva ↦ by
    set m := p.current.mms seg
    have hlow := hm.low.trans hm.ordered
    have hhigh := hm.high
    have hturn := fun n ↦ shrinkAdd_lt hlow hhigh (BitVec.ofNat 32 n)
    have hlength : ∀ ρ ∈ turnPlaces m.nextFree 1 size.toNat, ρ.length = 4 :=
      fun ρ ↦ length_of_mem_turnPlaces
    change hardwareWalk machine.tables p.current.pgd va = _
    split_ifs with hrange
    · refine htree.walk_unmapped hunmapped hlength hva (pruned_eq_none.mpr ?_)
      obtain ⟨n, hn, hle, hpage⟩ := hm.exists_pageBelow
        (by omega : m.nextFree.toNat ≤ va.toNat + 4096 * size.toNat) (by omega) hrange.2
      rcases hturns n hn hle with heq | ⟨-, hnone⟩
      · exact .inl (mem_turnPlaces.mpr ⟨n, hn, by omega, by rw [heq, hpage]⟩)
      · exact .inr (hpage ▸ hnone)
    · by_cases hmem : place va ∈ turnPlaces m.nextFree 1 size.toNat
      · obtain ⟨n, hn, hlt, hpage⟩ := mem_turnPlaces.mp hmem
        rcases hturns n hn (by omega) with heq | ⟨hnone, -⟩
        · have haligned := hm.aligned
          rw [heq, place_eq_iff (heq ▸ hturn n) hva, hm.toNat_pageBelow (by omega)] at hpage
          omega
        · rw [hpage] at hnone
          rw [htree.walk_unmapped hunmapped hlength hva (pruned_eq_none.mpr (.inr hnone)),
            htree.walk_none hva hnone]
      · exact htree.walk_kept hunmapped hlength hva hmem
  frees := by
    set m := p.current.mms seg
    have hhigh := hm.high
    change moves machine.log = _
    rw [hunmapped.moves, pagesFreed_eq (hm.nodup_turnPlaces hsize), turnPlaces, ← List.map_reverse,
      List.reverse_range', List.map_map, List.filterMap_map]
    congr 2
    refine List.filterMap_congr fun i hi ↦ ?_
    rw [List.mem_range] at hi
    have hpage : value + BitVec.ofNat 64 (4096 * i) = m.pageBelow (size.toNat - i) := by
      apply BitVec.eq_of_toNat_eq
      rw [hm.toNat_pageBelow (by omega), BitVec.toNat_add, BitVec.toNat_ofNat, hvalue]
      omega
    have hlt : (m.pageBelow (size.toNat - i)).toNat < 2 ^ 48 := by
      rw [hm.toNat_pageBelow (by omega)]
      omega
    rw [hpage, htree.translate_eq hlt]
    simp only [Function.comp_apply]
    rw [show 1 + size.toNat - 1 - i = size.toNat - i by omega]
    rcases hturns (size.toNat - i) (by omega) (by omega) with heq | ⟨hturn, hbelow⟩
    · rw [heq]
    · rw [hturn, hbelow]

theorem MmSegment.Placed.turn_eq (hm : m.Placed) (hn : n < 2 ^ 19) :
    shrinkAdd m.nextFree (BitVec.ofNat 32 n) = m.pageBelow n := by
  have hlow := hm.low.trans hm.ordered
  apply BitVec.eq_of_toNat_eq
  rw [hm.toNat_turn (by omega), if_pos hn, hm.toNat_pageBelow (by omega)]

theorem MmSegment.Placed.turn_eq_above (hm : m.Placed) (hn : 2 ^ 19 ≤ n) (hlt : n < 2 ^ 20)
    (hle : 4096 * n ≤ m.nextFree.toNat) :
    shrinkAdd m.nextFree (BitVec.ofNat 32 n) = m.pageBelow n + 2 ^ 32 := by
  have hhigh := hm.high
  apply BitVec.eq_of_toNat_eq
  rw [hm.toNat_turn hlt, if_neg (by omega), BitVec.toNat_add, hm.toNat_pageBelow hle,
    show (2 ^ 32 : BitVec 64).toNat = 2 ^ 32 from rfl]
  omega

/-- Where the loop goes wrong there must be no pages. -/
theorem turns_absent (htree : PageTree p T) (hm : (p.current.mms seg).Placed) {machine : Machine}
    (hunmapped : Unmapped T
      (turnPlaces (p.current.mms seg).nextFree 1 size.toNat) p.machine machine)
    (hsize : size.toNat < 2 ^ 20)
    (h : ShrunkBy p seg size.toNat value ((p.setMachine machine).setNextFree seg value))
    (hn : 2 ^ 19 ≤ n) (hle : n ≤ size.toNat) :
    T (place ((p.current.mms seg).pageBelow n)) = none ∧
      T (place (shrinkAdd (p.current.mms seg).nextFree (BitVec.ofNat 32 n))) = none := by
  set m := p.current.mms seg
  have hlowered : value.toNat + 4096 * size.toNat = m.nextFree.toNat := h.lowered
  have hlow := hm.low.trans hm.ordered
  have hhigh := hm.high
  have haligned := hm.aligned
  have hlength : ∀ ρ ∈ turnPlaces m.nextFree 1 size.toNat, ρ.length = 4 :=
    fun ρ ↦ length_of_mem_turnPlaces
  have hbelow : (m.pageBelow n).toNat = m.nextFree.toNat - 4096 * n :=
    hm.toNat_pageBelow (by omega)
  have hturn := hm.toNat_turn (by omega : n < 2 ^ 20)
  rw [if_neg (by omega)] at hturn
  have hturn_lt := shrinkAdd_lt hlow hhigh (BitVec.ofNat 32 n)
  -- no turn is for the page that is `n` pages below
  have hmissed : place (m.pageBelow n) ∉ turnPlaces m.nextFree 1 size.toNat := fun hmem ↦ by
    obtain ⟨k, hk, hlt, hpage⟩ := mem_turnPlaces.mp hmem
    rw [place_eq_iff (shrinkAdd_lt hlow hhigh _) (by omega), hm.toNat_turn (by omega), hbelow]
      at hpage
    split_ifs at hpage <;> omega
  have hinside :
      value.toNat ≤ (m.pageBelow n).toNat ∧ (m.pageBelow n).toNat < m.nextFree.toNat := by
    omega
  have houtside : ¬(value.toNat ≤ (shrinkAdd m.nextFree (BitVec.ofNat 32 n)).toNat ∧
      (shrinkAdd m.nextFree (BitVec.ofNat 32 n)).toNat < m.nextFree.toNat) := by
    omega
  have hwalk_below := h.walks (m.pageBelow n) (by omega)
  have hwalk_turn := h.walks (shrinkAdd m.nextFree (BitVec.ofNat 32 n)) hturn_lt
  rw [if_pos hinside] at hwalk_below
  rw [if_neg houtside] at hwalk_turn
  constructor
  · have hkept := htree.walk_kept hunmapped hlength (by omega) hmissed
    rw [← htree.translate_eq (by omega), translate, ← hkept]
    exact congrArg (Option.bind · _) hwalk_below
  · have hgone := htree.walk_unmapped hunmapped hlength hturn_lt (pruned_eq_none.mpr
      (.inl (mem_turnPlaces.mpr ⟨n, by omega, by omega, rfl⟩)))
    rw [← htree.translate_eq hturn_lt, translate, ← hwalk_turn]
    exact congrArg (Option.bind · _) hgone

/-- A call that is let through with a size below `2 ^ 20`. -/
theorem exact_iff_of_small (htree : PageTree p T)
    (hm : (p.current.mms (selected (param2.setWidth 32))).Placed)
    (hsize : (param1.setWidth 32 : BitVec 32).toNat < 2 ^ 20)
    (haccepted : ¬(p.current.mms (selected (param2.setWidth 32))).nextFree.toNat -
      (p.current.mms (selected (param2.setWidth 32))).start.toNat <
        4096 * ((param1.setWidth 32 : BitVec 32).toNat % 2 ^ 20)) :
    ShrinksExactly p (selected (param2.setWidth 32)) (param1.setWidth 32 : BitVec 32).toNat
        (shrink param1 param2 p) ↔
      (param1.setWidth 32 : BitVec 32).toNat < 2 ^ 19 ∨
        (param1.setWidth 32 : BitVec 32).toNat < 2 ^ 20 ∧
          ∀ n, 2 ^ 19 ≤ n → n ≤ (param1.setWidth 32 : BitVec 32).toNat →
            translate p ((p.current.mms (selected (param2.setWidth 32))).pageBelow n) = none ∧
              translate p ((p.current.mms (selected (param2.setWidth 32))).pageBelow n + 2 ^ 32) =
                none := by
  obtain ⟨machine, hunmapped, hruns⟩ := shrink_runs htree hm
    (fun h ↦ haccepted ((hm.guard_iff _).mp h)) (by omega)
  have hlowered := hm.toNat_lowered (param1.setWidth 32)
  generalize selected (param2.setWidth 32) = seg at *
  generalize (param1.setWidth 32 : BitVec 32) = size at *
  rw [Nat.mod_eq_of_lt hsize] at haccepted hlowered
  have hlow := hm.low.trans hm.ordered
  have hhigh := hm.high
  have hordered := hm.ordered
  have hplaces : ∀ n, 2 ^ 19 ≤ n → n ≤ size.toNat →
      (T (place ((p.current.mms seg).pageBelow n)) = none ∧
        T (place (shrinkAdd (p.current.mms seg).nextFree (BitVec.ofNat 32 n))) = none ↔
      translate p ((p.current.mms seg).pageBelow n) = none ∧
        translate p ((p.current.mms seg).pageBelow n + 2 ^ 32) = none) := fun n hn hle ↦ by
    have hbelow : ((p.current.mms seg).pageBelow n).toNat < 2 ^ 48 := by
      rw [hm.toNat_pageBelow (by omega)]
      omega
    rw [← hm.turn_eq_above hn (by omega) (by omega), htree.translate_eq hbelow,
      htree.translate_eq (shrinkAdd_lt hlow hhigh _)]
  rw [ShrinksExactly, if_neg (by omega), hruns]
  constructor
  · rintro ⟨value, p', hreturn, hshrunk⟩
    obtain ⟨rfl, rfl⟩ := Prod.mk.inj (Except.ok.inj hreturn)
    exact .inr ⟨hsize, fun n hn hle ↦ (hplaces n hn hle).mp
      (turns_absent htree hm hunmapped hsize hshrunk hn hle)⟩
  · refine fun hfits ↦ ⟨_, _, rfl, shrunkBy_of_turns htree hm hunmapped hsize (by omega) hlowered
      fun n hn hle ↦ ?_⟩
    rcases Nat.lt_or_ge n (2 ^ 19) with hsmall | hlarge
    · exact .inl (hm.turn_eq hsmall)
    · rcases hfits with hfits | ⟨-, hfits⟩
      · omega
      · exact .inr ((hplaces n hlarge hle).mpr (hfits n hlarge hle)).symm

/-- A call that is let through with a size from `2 ^ 20` on does not do what it reports. -/
theorem not_exact_of_large
    (hm : (p.current.mms (selected (param2.setWidth 32))).Placed)
    (hlarge : 2 ^ 20 ≤ (param1.setWidth 32 : BitVec 32).toNat)
    (haccepted : ¬(p.current.mms (selected (param2.setWidth 32))).nextFree.toNat -
      (p.current.mms (selected (param2.setWidth 32))).start.toNat <
        4096 * ((param1.setWidth 32 : BitVec 32).toNat % 2 ^ 20)) :
    ¬ShrinksExactly p (selected (param2.setWidth 32)) (param1.setWidth 32 : BitVec 32).toNat
      (shrink param1 param2 p) := by
  have hguard := fun h ↦ haccepted ((hm.guard_iff (param1.setWidth 32)).mp h)
  have hlow := hm.low
  have hordered := hm.ordered
  have hlowered := hm.toNat_lowered (param1.setWidth 32)
  intro h
  rw [ShrinksExactly] at h
  split_ifs at h with hroom
  · have hvalue := shrink_value h hguard
    have hzero := congrArg BitVec.toNat hvalue
    rw [hlowered, show (0 : BitVec 64).toNat = 0 from rfl] at hzero
    omega
  · obtain ⟨value, p', hreturn, hshrunk⟩ := h
    have hvalue := hshrunk.lowered
    rw [shrink_value hreturn hguard, hlowered] at hvalue
    omega

theorem doSyscall_shrink (memory : BitVec 64 → BitVec 8) (param1 param2 : BitVec 64) (p : State) :
    doSyscall memory syscallShrink param1 param2 p = shrink param1 param2 p := rfl

/-- `SYSCALL_SHRINK` does what it reports exactly when the arithmetic on the size is right. -/
theorem shrink_exact_iff (memory : BitVec 64 → BitVec 8) (p : State) (T : TablePath → Option Pfn)
    (param1 param2 : BitVec 64) (htree : PageTree p T)
    (hm : (p.current.mms (selected (param2.setWidth 32))).Placed) :
    ShrinksExactly p (selected (param2.setWidth 32)) (param1.setWidth 32 : BitVec 32).toNat
        (doSyscall memory syscallShrink param1 param2 p) ↔
      ShrinkFits p (selected (param2.setWidth 32)) (param1.setWidth 32 : BitVec 32).toNat := by
  rw [doSyscall_shrink, ShrinkFits]
  by_cases hrefused : (p.current.mms (selected (param2.setWidth 32))).nextFree.toNat -
      (p.current.mms (selected (param2.setWidth 32))).start.toNat <
        4096 * ((param1.setWidth 32 : BitVec 32).toNat % 2 ^ 20)
  · refine iff_of_true ?_ (.inl hrefused)
    rw [ShrinksExactly, if_pos (hrefused.trans_le (Nat.mul_le_mul_left _ (Nat.mod_le _ _)))]
    exact shrink_refused ((hm.guard_iff _).mpr hrefused)
  rw [or_iff_right hrefused]
  rcases Nat.lt_or_ge (param1.setWidth 32 : BitVec 32).toNat (2 ^ 20) with hsize | hlarge
  · exact exact_iff_of_small htree hm hsize hrefused
  · refine iff_of_false (not_exact_of_large hm hlarge hrefused) ?_
    rintro (hsmall | ⟨hsmall, -⟩) <;> omega

end Call

/-- A tree with nothing below its root. -/
def rootOnly (pgd : Pfn) (π : TablePath) : Option Pfn := if π = [] then some pgd else none

/-- A process that has eight pages of data, none of them touched. -/
def untouched : State where
  current :=
    { id := 1
      pgd := 0x2000
      mms
        | .code => ⟨0x100000000, 0x100008000, 0x100008000, 0x5⟩
        | .rodata => ⟨0x140000000, 0x140100000, 0x140000000, 0x1⟩
        | .data => ⟨0x180000000, 0x180100000, 0x180008000, 0x3⟩
        | .stack => ⟨0x7FF000000, 0x800000000, 0x800000000, 0x3⟩ }
  machine := ⟨fun _ _ ↦ 0, 0, []⟩
  output := []

theorem pageTree_rootOnly {p : State} (hempty : ∀ i < 512, p.machine.tables p.current.pgd i = 0) :
    PageTree p (rootOnly p.current.pgd) where
  root := rfl
  describes := {
    inj := fun {π ρ f} _ _ hf hf' ↦ by
      rw [rootOnly] at hf hf'
      split_ifs at hf hf' with hπ hρ
      rw [hπ, hρ]
    entry := fun {π f i} _ hi hf ↦ by
      rw [rootOnly] at hf ⊢
      split_ifs at hf
      obtain rfl := Option.some.inj hf
      rw [if_neg (List.cons_ne_nil i π)]
      exact hempty i hi }
  closed := fun π i _ ↦ if_neg (List.cons_ne_nil i π)

theorem untouched_placed : (untouched.current.mms .data).Placed :=
  ⟨by decide, by decide, by decide, by decide⟩

/-- One page each of code, of data and of stack. -/
def onePageEach : MmSeg → MmSegment
  | .code => ⟨0x100000000, 0x100001000, 0x100001000, 0x5⟩
  | .rodata => ⟨0x140000000, 0x140001000, 0x140000000, 0x4⟩
  | .data => ⟨0x100200000, 0x100201000, 0x100201000, 0x6⟩
  | .stack => ⟨0x7FFF00000, 0x800000000, 0x800000000, 0x6⟩

/-- The page of data that `prepare_context_mm` has mapped goes. -/
theorem shrink_exact_iff_prepared :
    let p : State :=
      { current := { id := 1, pgd := ContextMm.upwards 0, mms := onePageEach }
        machine := (ContextMm.prepareContextMm ContextMm.upwards ContextMm.sharing
          ⟨fun _ _ ↦ 0, 0, []⟩).2
        output := [] }
    translate p 0x100200000 ≠ none ∧
      ShrinksExactly p .data 1 (doSyscall (fun _ ↦ 0) syscallShrink 1 1 p) := by
  obtain ⟨T, code, stack, _, hbuilt, hdata, _⟩ := ContextMm.prepared (fun _ _ ↦ 0)
    ContextMm.sharing_separate ContextMm.sharing_supplied
  have hplaced : (onePageEach .data).Placed := ⟨by decide, by decide, by decide, by decide⟩
  have hsize : ((1 : BitVec 64).setWidth 32 : BitVec 32).toNat = 1 := by decide
  have hseg : selected ((1 : BitVec 64).setWidth 32) = .data := by decide
  generalize (ContextMm.prepareContextMm ContextMm.upwards ContextMm.sharing
    ⟨fun _ _ ↦ 0, 0, []⟩).2 = machine at *
  intro p
  have htree : PageTree p T := ⟨hbuilt.root, hbuilt.describes, hbuilt.closed⟩
  have hpage : translate p 0x100200000 = T (ContextMm.sharing.place .data) :=
    htree.translate_eq (by decide)
  have hexact := shrink_exact_iff (fun _ ↦ 0) p T 1 1 htree (by rw [hseg]; exact hplaced)
  rw [hsize, hseg] at hexact
  have hfits : ShrinkFits p .data 1 := .inr (.inl (by decide))
  clear_value p
  refine ⟨fun hnone ↦ ?_, hexact.mpr hfits⟩
  rw [hpage, hdata] at hnone
  cases hnone

/-- A shrink by `2 ^ 20` pages, of which there are eight, is not refused. -/
theorem shrink_wraps :
    ¬ShrinksExactly untouched .data (2 ^ 20)
      (doSyscall (fun _ ↦ 0) syscallShrink 0x100000 1 untouched) := by
  have hlarge : ¬ShrinksExactly untouched (selected ((1 : BitVec 64).setWidth 32))
      ((0x100000 : BitVec 64).setWidth 32 : BitVec 32).toNat (shrink 0x100000 1 untouched) :=
    not_exact_of_large untouched_placed (by decide) (by decide)
  have hsize : ((0x100000 : BitVec 64).setWidth 32 : BitVec 32).toNat = 2 ^ 20 := by decide
  have hseg : selected ((1 : BitVec 64).setWidth 32) = .data := by decide
  rw [hsize, hseg] at hlarge
  rw [doSyscall_shrink]
  exact hlarge

end OsAssignments.Paging.Syscalls
