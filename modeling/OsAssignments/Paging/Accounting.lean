import OsAssignments.Library.Runs
import OsAssignments.Paging.Allocation

/-!
# User memory is accounted for

`Accounts p` is the account of a process by addresses: `next_free` of both data segments is in its
segment, a page outside the code lies below a `next_free` or holds an address of the stack, no user
frame is mapped by two pages, and the user frames in use are the frames that are mapped. It holds
after every sequence of calls that expand and shrink the data segments and of page faults that do
not exit (`user_memory_accounted`).

A shrink by `2 ^ 20` pages or more that passes the check unmaps pages that are not its own, as the
loop visits every page within `2 ^ 31` bytes of `next_free`. It frees each of them, so the account
is right all the same. The loop covers the pages it should because a segment is shorter than `2 ^
31` bytes.
-/

set_option autoImplicit false
set_option relaxedAutoImplicit false

namespace OsAssignments.Paging.Syscalls

open OsAssignments.Library
open ContextMm (MmSeg indices indices_lt pruned pruned_of_notMem pruned_eq_some hardwareIndices_eq)

/-! ### The account by addresses -/

/-- The page of an address lies between the start of a segment and its `next_free`. -/
def MmSegment.HasPage (m : MmSegment) (va : BitVec 64) : Prop :=
  m.start.toNat ≤ va.toNat / 4096 * 4096 ∧ va.toNat / 4096 * 4096 + 4096 ≤ m.nextFree.toNat

/-- The page of an address holds an address of a segment without its end. -/
def MmSegment.Meets (m : MmSegment) (va : BitVec 64) : Prop :=
  ∃ a : BitVec 64, m.start ≤ a ∧ a < m.stop ∧ a.toNat / 4096 = va.toNat / 4096

/-- The page of an address holds an address of a segment with its end. -/
def MmSegment.MeetsClosed (m : MmSegment) (va : BitVec 64) : Prop :=
  ∃ a : BitVec 64, m.start ≤ a ∧ a ≤ m.stop ∧ a.toNat / 4096 = va.toNat / 4096

/-- Where a page outside the code may be. -/
def ExecContext.Covers (c : ExecContext) (va : BitVec 64) : Prop :=
  (c.mms .data).HasPage va ∨ (c.mms .rodata).HasPage va ∨ (c.mms .stack).MeetsClosed va

/-- The memory of a process is accounted for. -/
structure Accounts (p : State) : Prop where
  bounds : ∀ seg, seg = .data ∨ seg = .rodata →
    (p.current.mms seg).start.toNat ≤ (p.current.mms seg).nextFree.toNat ∧
      (p.current.mms seg).nextFree.toNat ≤ (p.current.mms seg).stop.toNat + 1
  placed : ∀ (va : BitVec 64) (f : Pfn), va.toNat < 2 ^ 48 → translate p va = some f →
    ¬(p.current.mms .code).Meets va → p.current.Covers va
  distinct : ∀ (va vb : BitVec 64) (f : Pfn), va.toNat < 2 ^ 48 → vb.toNat < 2 ^ 48 →
    translate p va = some f → translate p vb = some f → va.toNat / 4096 = vb.toNat / 4096
  user : ∀ f, InUse p.machine.log Region.user f ↔
    ∃ va : BitVec 64, va.toNat < 2 ^ 48 ∧ translate p va = some f
  frees : FreesInUse p.machine.log

/-- A data segment: page-aligned, shorter than `2 ^ 31` bytes, between `2 ^ 32` and `2 ^ 47`. -/
structure MmSegment.Lies (m : MmSegment) : Prop where
  start_aligned : m.start.toNat % 4096 = 0
  stop_aligned : m.stop.toNat % 4096 = 0
  aligned : m.nextFree.toNat % 4096 = 0
  low : 2 ^ 32 ≤ m.start.toNat
  ordered : m.start.toNat ≤ m.nextFree.toNat
  bounded : m.nextFree.toNat ≤ m.stop.toNat
  short : m.stop.toNat < m.start.toNat + 2 ^ 31
  high : m.stop.toNat ≤ 2 ^ 47

/-- The page tables of a process are a tree of frames in use. -/
structure TreeInUse (p : State) (T : TablePath → Option Pfn) : Prop extends PageTree p T where
  inside : ∀ π, T π ≠ none → π.length ≤ 4 ∧ ∀ i ∈ π, i < 512
  tables : ∀ π f, π.length ≤ 3 → T π = some f → InUse p.machine.log Region.osPt f

variable {frames : ℕ → Pfn} {memory : BitVec 64 → BitVec 8} {T T' : TablePath → Option Pfn}
  {p p' : State} {m : MmSegment} {seg : MmSeg} {va vb value param1 param2 : BitVec 64}
  {π : TablePath} {s s' : Machine}

theorem MmSegment.Lies.placed (h : m.Lies) : m.Placed :=
  ⟨h.aligned, h.low, h.ordered, h.bounded.trans h.high⟩

/-- Every place of a page is that of an address. -/
theorem exists_address (hlen : π.length = 4) (hidx : ∀ i ∈ π, i < 512) :
    ∃ va : BitVec 64, va.toNat < 2 ^ 48 ∧ place va = π := by
  obtain ⟨a, b, c, d, rfl⟩ := List.length_eq_four.mp hlen
  simp only [List.forall_mem_cons, List.not_mem_nil, false_implies, implies_true, and_true] at hidx
  obtain ⟨ha, hb, hc, hd⟩ := hidx
  have hva : (BitVec.ofNat 64 (d * 2 ^ 39 + c * 2 ^ 30 + b * 2 ^ 21 + a * 2 ^ 12)).toNat =
      d * 2 ^ 39 + c * 2 ^ 30 + b * 2 ^ 21 + a * 2 ^ 12 := by
    rw [BitVec.toNat_ofNat]
    omega
  refine ⟨BitVec.ofNat 64 (d * 2 ^ 39 + c * 2 ^ 30 + b * 2 ^ 21 + a * 2 ^ 12), by omega, ?_⟩
  rw [place, ← hardwareIndices_eq (by omega)]
  simp only [ContextMm.hardwareIndices, hva, List.reverse_cons, List.reverse_nil, List.nil_append,
    List.cons_append, List.cons.injEq, and_true]
  omega

/-! ### The account by places -/

/-- What every call keeps. -/
structure Kept (p : State) (T : TablePath → Option Pfn) : Prop where
  account : Accounted p.current.pgd T p.machine
  data : (p.current.mms .data).Lies
  rodata : (p.current.mms .rodata).Lies
  stack : (p.current.mms .stack).stop.toNat < 2 ^ 47
  placed : ∀ va : BitVec 64, va.toNat < 2 ^ 48 → T (place va) ≠ none →
    ¬(p.current.mms .code).Meets va → p.current.Covers va

theorem Kept.tree (h : Kept p T) : PageTree p T :=
  ⟨h.account.root, h.account.describes, h.account.closed⟩

theorem Kept.accounts (h : Kept p T) : Accounts p where
  bounds := fun seg hseg ↦ by
    have hdata := h.data
    have hrodata := h.rodata
    rcases hseg with rfl | rfl
    · exact ⟨hdata.ordered, hdata.bounded.trans (Nat.le_succ _)⟩
    · exact ⟨hrodata.ordered, hrodata.bounded.trans (Nat.le_succ _)⟩
  placed := fun va f hva hf ↦ by
    rw [h.tree.translate_eq hva] at hf
    exact h.placed va hva (by rw [hf]; exact Option.some_ne_none f)
  distinct := fun va vb f hva hvb hf hf' ↦ by
    rw [h.tree.translate_eq hva] at hf
    rw [h.tree.translate_eq hvb] at hf'
    exact (place_eq_iff hva hvb).mp (h.account.distinct _ _ f rfl rfl hf hf')
  user := fun f ↦ by
    rw [h.account.user f]
    constructor
    · rintro ⟨π, hπ, hf⟩
      obtain ⟨va, hva, rfl⟩ := exists_address hπ
        (h.account.inside π (by rw [hf]; exact Option.some_ne_none f)).2
      exact ⟨va, hva, (h.tree.translate_eq hva).trans hf⟩
    · rintro ⟨va, hva, hf⟩
      exact ⟨place va, rfl, (h.tree.translate_eq hva).symm.trans hf⟩
  frees := h.account.frees

theorem Accounts.kept (h : Accounts p) (htree : TreeInUse p T) (hdata : (p.current.mms .data).Lies)
    (hrodata : (p.current.mms .rodata).Lies) (hstack : (p.current.mms .stack).stop.toNat < 2 ^ 47) :
    Kept p T where
  data := hdata
  rodata := hrodata
  stack := hstack
  placed := fun va hva hne ↦ by
    obtain ⟨f, hf⟩ := Option.ne_none_iff_exists'.mp hne
    exact h.placed va f hva ((htree.translate_eq hva).trans hf)
  account := by
    have haddress : ∀ π f, π.length = 4 → T π = some f →
        ∃ va : BitVec 64, va.toNat < 2 ^ 48 ∧ place va = π ∧ translate p va = some f := by
      intro π f hπ hf
      obtain ⟨va, hva, rfl⟩ := exists_address hπ
        (htree.inside π (by rw [hf]; exact Option.some_ne_none f)).2
      exact ⟨va, hva, rfl, (htree.translate_eq hva).trans hf⟩
    refine ⟨htree.root, htree.describes, htree.closed, htree.inside, htree.tables, fun f ↦ ?_,
      fun π ρ f hπ hρ hf hf' ↦ ?_, h.frees⟩
    · rw [h.user f]
      constructor
      · rintro ⟨va, hva, hf⟩
        exact ⟨place va, rfl, (htree.translate_eq hva).symm.trans hf⟩
      · rintro ⟨π, hπ, hf⟩
        obtain ⟨va, hva, -, hf⟩ := haddress π f hπ hf
        exact ⟨va, hva, hf⟩
    · obtain ⟨va, hva, rfl, hfa⟩ := haddress π f hπ hf
      obtain ⟨vb, hvb, rfl, hfb⟩ := haddress ρ f hρ hf'
      exact (place_eq_iff hva hvb).mpr (h.distinct va vb f hva hvb hfa hfb)

/-! ### Calls -/

/-- A new `next_free` of a data segment, and a tree that has no page the account does not cover. -/
theorem Kept.move (h : Kept p T) (hseg : seg = .data ∨ seg = .rodata)
    (haligned : value.toNat % 4096 = 0) (hlow : (p.current.mms seg).start.toNat ≤ value.toNat)
    (hhigh : value.toNat ≤ (p.current.mms seg).stop.toNat)
    (haccount : Accounted p.current.pgd T' s')
    (hpages : ∀ va : BitVec 64, va.toNat < 2 ^ 48 → T' (place va) ≠ none → T (place va) ≠ none ∧
      ((p.current.mms seg).HasPage va → va.toNat / 4096 * 4096 + 4096 ≤ value.toNat)) :
    Kept ((p.setMachine s').setNextFree seg value) T' := by
  have hlies : (p.current.mms seg).Lies := by
    rcases hseg with rfl | rfl
    · exact h.data
    · exact h.rodata
  have hmoved : ((p.current.mms seg).setNextFree value).Lies :=
    ⟨hlies.start_aligned, hlies.stop_aligned, haligned, hlies.low, hlow, hhigh, hlies.short,
      hlies.high⟩
  have hsame : ((p.setMachine s').setNextFree seg value).current.mms seg =
      (p.current.mms seg).setNextFree value := Function.update_self ..
  have hother : ∀ seg', seg' ≠ seg → ((p.setMachine s').setNextFree seg value).current.mms seg' =
      p.current.mms seg' := fun seg' hne ↦ Function.update_of_ne hne ..
  have hlast : ∀ seg', (p.current.mms seg').Lies →
      (((p.setMachine s').setNextFree seg value).current.mms seg').Lies := fun seg' hseg' ↦ by
    by_cases hne : seg' = seg
    · rw [hne, hsame]
      exact hmoved
    · rwa [hother seg' hne]
  have hkeep :
      ∀ seg' va, T' (place va) ≠ none → va.toNat < 2 ^ 48 → (p.current.mms seg').HasPage va →
      (((p.setMachine s').setNextFree seg value).current.mms seg').HasPage va := by
    intro seg' va hne hva hpage
    by_cases heq : seg' = seg
    · subst heq
      rw [hsame]
      exact ⟨hpage.1, (hpages va hva hne).2 hpage⟩
    · rwa [hother seg' heq]
  have hstack : seg ≠ .stack ∧ seg ≠ .code := by
    rcases hseg with rfl | rfl <;> decide
  refine ⟨haccount, hlast .data h.data, hlast .rodata h.rodata, ?_, fun va hva hne hcode ↦ ?_⟩
  · rw [hother .stack hstack.1.symm]
    exact h.stack
  · rw [hother .code hstack.2.symm] at hcode
    rw [ExecContext.Covers, hother .stack hstack.1.symm]
    rcases h.placed va hva (hpages va hva hne).1 hcode with hdata | hrodata | hstack
    · exact .inl (hkeep .data va hne hva hdata)
    · exact .inr (.inl (hkeep .rodata va hne hva hrodata))
    · exact .inr (.inr hstack)

theorem selected_eq (flags : BitVec 32) : selected flags = .data ∨ selected flags = .rodata := by
  rw [selected]
  split_ifs
  · exact .inr rfl
  · exact .inl rfl

theorem Kept.lies (h : Kept p T) (flags : BitVec 32) : (p.current.mms (selected flags)).Lies := by
  rcases selected_eq flags with heq | heq <;> rw [heq]
  · exact h.data
  · exact h.rodata

/-- `SYSCALL_EXPAND` returns and keeps the account. -/
theorem Kept.expand (h : Kept p T) (param1 param2 : BitVec 64) :
    ∃ value p', expand param1 param2 p = .ok (value, p') ∧ p'.machine = p.machine ∧ Kept p' T := by
  have hlies := h.lies (param2.setWidth 32)
  have hseg := selected_eq (param2.setWidth 32)
  simp only [Syscalls.expand]
  generalize (param1.setWidth 32 : BitVec 32) = size
  generalize selected (param2.setWidth 32) = seg at *
  split_ifs with hsize hroom
  · exact ⟨_, _, rfl, rfl, h⟩
  · exact ⟨_, _, rfl, rfl, h⟩
  · refine ⟨_, _, rfl, rfl, ?_⟩
    have haligned := hlies.aligned
    have hstop := hlies.stop_aligned
    have hlow := hlies.low
    have hordered := hlies.ordered
    have hbounded := hlies.bounded
    have hhigh := hlies.high
    have hle : size.toNat ≤ 512 := by
      rw [BitVec.lt_def, not_lt] at hsize
      exact hsize
    have hgrown : ((p.current.mms seg).nextFree + (size * 4096).setWidth 64).toNat =
        (p.current.mms seg).nextFree.toNat + 4096 * size.toNat := by
      rw [BitVec.toNat_add, BitVec.toNat_setWidth, toNat_product]
      omega
    have hguard : (p.current.mms seg).nextFree.toNat + 4096 * size.toNat - 1 ≤
        (p.current.mms seg).stop.toNat := by
      rw [BitVec.lt_def, not_lt, BitVec.toNat_sub, hgrown,
        show (1 : BitVec 64).toNat = 1 from rfl] at hroom
      omega
    exact h.move hseg (by omega) (by omega) (by omega) h.account fun va hva hne ↦
      ⟨hne, fun hpage ↦ hpage.2.trans (by omega)⟩

/-- `SYSCALL_SHRINK` returns and keeps the account. -/
theorem Kept.shrink (h : Kept p T) (param1 param2 : BitVec 64) :
    ∃ value p', shrink param1 param2 p = .ok (value, p') ∧ ∃ T', Kept p' T' := by
  have hlies := h.lies (param2.setWidth 32)
  have hseg := selected_eq (param2.setWidth 32)
  have hm := hlies.placed
  by_cases hrefused : (p.current.mms (selected (param2.setWidth 32))).nextFree -
      ((param1.setWidth 32 : BitVec 32) * 4096).setWidth 64 <
        (p.current.mms (selected (param2.setWidth 32))).start
  · exact ⟨_, _, shrink_refused hrefused, T, h⟩
  have hroom := mt (hm.guard_iff (param1.setWidth 32)).mpr hrefused
  have hlowered := hm.toNat_lowered (param1.setWidth 32)
  have haligned := hlies.aligned
  have hordered := hlies.ordered
  have hbounded := hlies.bounded
  have hlow := hlies.low
  have hhigh := hlies.high
  have hshort := hlies.short
  obtain ⟨machine, hunmapped, hruns⟩ := shrink_runs h.tree hm hrefused (by omega)
  refine ⟨_, _, hruns, _, h.move hseg (by omega) (by omega) (by omega)
    (h.account.unmap hunmapped fun ρ ↦ length_of_mem_turnPlaces) fun va hva hne ↦ ?_⟩
  obtain ⟨hmissed, hpage⟩ := not_or.mp (fun hor ↦ hne (pruned_eq_none.mpr hor))
  refine ⟨hpage, fun ⟨hfirst, hlast⟩ ↦ ?_⟩
  by_contra habove
  -- the page is one of those given back, so a turn of the loop was for it
  obtain ⟨n, hn, hle, hplace⟩ := hm.exists_pageBelow
    (by omega : (p.current.mms (selected (param2.setWidth 32))).nextFree.toNat ≤
      va.toNat + 4096 * ((param1.setWidth 32 : BitVec 32).toNat % 2 ^ 20)) (by omega) (by omega)
  refine hmissed (mem_turnPlaces.mpr ⟨n, hn, ?_, by rw [hm.turn_eq (by omega), hplace]⟩)
  have hmod := Nat.mod_le (param1.setWidth 32 : BitVec 32).toNat (2 ^ 20)
  omega

/-! ### Page faults -/

/-- The page of an address that `check_present` accepts is covered. -/
theorem Kept.covers (h : Kept p T) (hpresent : checkPresent va p.current = some seg) :
    va.toNat < 2 ^ 48 ∧ p.current.Covers va := by
  have hdata := h.data
  have hrodata := h.rodata
  have hhas : ∀ {m : MmSegment}, m.Lies → va < m.nextFree ∧ m.start ≤ va →
      va.toNat < 2 ^ 48 ∧ m.HasPage va := fun {m} hm hva ↦ by
    have hlt : va.toNat < m.nextFree.toNat := hva.1
    have hle : m.start.toNat ≤ va.toNat := hva.2
    have haligned := hm.aligned
    have hstart := hm.start_aligned
    have hbounded := hm.bounded
    have hhigh := hm.high
    exact ⟨by omega, by omega, by omega⟩
  simp only [checkPresent] at hpresent
  split_ifs at hpresent with hin hin hin
  · exact (hhas hdata hin).imp_right .inl
  · exact (hhas hrodata hin).imp_right fun hpage ↦ .inr (.inl hpage)
  · have hle : va.toNat ≤ (p.current.mms .stack).stop.toNat := hin.1
    have hstack := h.stack
    exact ⟨by omega, .inr (.inr ⟨va, hin.2, hin.1, rfl⟩)⟩

theorem ExecContext.Covers.congr {c : ExecContext} (h : c.Covers va)
    (hpage : va.toNat / 4096 = vb.toNat / 4096) : c.Covers vb := by
  rcases h with hdata | hrodata | ⟨a, hstart, hstop, ha⟩
  · refine .inl ?_
    rwa [MmSegment.HasPage, ← hpage]
  · refine .inr (.inl ?_)
    rwa [MmSegment.HasPage, ← hpage]
  · exact .inr (.inr ⟨a, hstart, hstop, ha.trans hpage⟩)

/-- `allocate` for a page that is covered keeps the account. -/
theorem Kept.allocate (h : Kept p T) (hva : va.toNat < 2 ^ 48) (hcovers : p.current.Covers va)
    (m : MmSegment) (hunused : AllocsUnused Small (allocate frames va m p).machine.log) :
    ∃ T', Kept (allocate frames va m p) T' := by
  obtain ⟨T', haccount, hwalked⟩ := h.account.allocateLevels (π := []) hunused rfl
    (List.cons_ne_nil _ _) (indices_lt hva) h.account.root
  rw [List.append_nil] at hwalked
  refine ⟨T', haccount, h.data, h.rodata, h.stack, fun vb hvb hne hcode ↦ ?_⟩
  rcases (hwalked.dom _).mp hne with hold | hsuffix
  · exact h.placed vb hvb hold hcode
  · have hplace : place vb = place va := hsuffix.eq_of_length rfl
    exact hcovers.congr ((place_eq_iff hvb hva).mp hplace).symm

/-- A fault that does not exit has mapped a page that is covered. -/
theorem handlePageFault_ok {rip errorCode : BitVec 64}
    (h : handlePageFault frames rip va errorCode p = .ok p') :
    ∃ seg m, checkPresent va p.current = some seg ∧ p' = allocate frames va m p := by
  simp only [handlePageFault, refuse] at h
  split at h
  · cases h
  · split at h
    · cases h
    · exact ⟨_, _, ‹_›, (Except.ok.inj h).symm⟩
    · split at h
      · cases h
      · exact ⟨_, _, ‹_›, (Except.ok.inj h).symm⟩
    · exact ⟨_, _, ‹_›, (Except.ok.inj h).symm⟩

/-! ### Runs -/

/-- A call of the process, or a page fault. -/
inductive Call
  | expand (param1 param2 : BitVec 64)
  | shrink (param1 param2 : BitVec 64)
  | fault (rip virtualAdd errorCode : BitVec 64)

/-- What the kernel does with it. -/
def run (frames : ℕ → Pfn) (memory : BitVec 64 → BitVec 8) :
    Call → State → Except Stop (BitVec 64 × State)
  | .expand param1 param2, p => doSyscall memory syscallExpand param1 param2 p
  | .shrink param1 param2, p => doSyscall memory syscallShrink param1 param2 p
  | .fault rip virtualAdd errorCode, p =>
    (handlePageFault frames rip virtualAdd errorCode p).map fun p ↦ (0, p)

theorem log_shrinkLevels (rest : List ℕ) (table : Pfn) (s : Machine) :
    s.log <:+ (shrinkLevels rest table s).log := by
  induction rest generalizing table s with
  | nil => exact List.suffix_rfl
  | cons i rest ih =>
    cases rest with
    | nil =>
      rw [shrinkLevels_page]
      split_ifs
      · exact List.suffix_append [.access table, .access table, .free .user _, .access table,
          .access table] s.log
      · exact List.suffix_cons _ s.log
    | cons j rest =>
      rw [shrinkLevels_above (List.cons_ne_nil j rest)]
      split_ifs
      · exact List.suffix_cons _ s.log
      · have hloads : s.log <:+ ((s.load table i).2.load table i).2.log :=
          ⟨[.access table, .access table], rfl⟩
        exact hloads.trans (ih _ _)

theorem log_shrinkLoop {pgd : Pfn} {nextFree : BitVec 64} {size : BitVec 32} {turns : ℕ}
    {i : BitVec 32} (h : shrinkLoop pgd nextFree size turns i s = some s') : s.log <:+ s'.log := by
  induction turns generalizing i s with
  | zero => cases h
  | succ turns ih =>
    rw [shrinkLoop] at h
    split_ifs at h
    · exact (log_shrinkLevels _ _ s).trans (ih h)
    · rw [Option.some.inj h]

/-- The log only grows. -/
theorem log_run {call : Call} (h : run frames memory call p = .ok (value, p')) :
    p.machine.log <:+ p'.machine.log := by
  cases call with
  | expand param1 param2 =>
    have hexpand : expand param1 param2 p = .ok (value, p') := h
    simp only [expand] at hexpand
    split_ifs at hexpand
    all_goals
      obtain ⟨-, rfl⟩ := Prod.mk.inj (Except.ok.inj hexpand)
      exact List.suffix_rfl
  | shrink param1 param2 =>
    have hshrink : shrink param1 param2 p = .ok (value, p') := h
    simp only [shrink] at hshrink
    split_ifs at hshrink
    · obtain ⟨-, rfl⟩ := Prod.mk.inj (Except.ok.inj hshrink)
      exact List.suffix_rfl
    · split at hshrink
      · cases hshrink
      · obtain ⟨-, rfl⟩ := Prod.mk.inj (Except.ok.inj hshrink)
        exact log_shrinkLoop ‹_›
  | fault rip virtualAdd errorCode =>
    cases hfault : handlePageFault frames rip virtualAdd errorCode p with
    | error stop =>
      rw [run, hfault] at h
      cases h
    | ok q =>
      rw [run, hfault] at h
      obtain ⟨-, rfl⟩ := Prod.mk.inj (Except.ok.inj h)
      obtain ⟨seg, m, -, rfl⟩ := handlePageFault_ok hfault
      exact log_allocateLevels ..

/-- Every call that returns, and every fault that does not exit, keeps the account. -/
theorem Kept.run {call : Call} (h : Kept p T) (hrun : run frames memory call p = .ok (value, p'))
    (hunused : AllocsUnused Small p'.machine.log) : ∃ T', Kept p' T' := by
  cases call with
  | expand param1 param2 =>
    obtain ⟨value', q, hexpand, -, hkept⟩ := h.expand param1 param2
    obtain ⟨-, rfl⟩ := Prod.mk.inj (Except.ok.inj (hexpand.symm.trans hrun))
    exact ⟨T, hkept⟩
  | shrink param1 param2 =>
    obtain ⟨value', q, hshrink, hkept⟩ := h.shrink param1 param2
    obtain ⟨-, rfl⟩ := Prod.mk.inj (Except.ok.inj (hshrink.symm.trans hrun))
    exact hkept
  | fault rip virtualAdd errorCode =>
    cases hfault : handlePageFault frames rip virtualAdd errorCode p with
    | error stop =>
      rw [Syscalls.run, hfault] at hrun
      cases hrun
    | ok q =>
      rw [Syscalls.run, hfault] at hrun
      obtain ⟨-, rfl⟩ := Prod.mk.inj (Except.ok.inj hrun)
      obtain ⟨seg, m, hpresent, rfl⟩ := handlePageFault_ok hfault
      obtain ⟨hva, hcovers⟩ := h.covers hpresent
      exact h.allocate hva hcovers m hunused

/-- A process whose page tables are a root. -/
def started : State := { untouched with machine := ⟨fun _ _ ↦ 0, 1, [.alloc .osPt 0x2000]⟩ }

theorem started_tree : TreeInUse started (rootOnly 0x2000) where
  toPageTree := pageTree_rootOnly fun _ _ ↦ rfl
  inside := fun π hπ ↦ by
    rw [rootOnly] at hπ
    split_ifs at hπ with hnil
    · rw [hnil]
      exact ⟨Nat.zero_le 4, fun i hi ↦ by cases hi⟩
    · exact absurd rfl hπ
  tables := fun π f _ hf ↦ by
    rw [rootOnly] at hf
    split_ifs at hf
    rw [← Option.some.inj hf]
    exact .inl rfl

theorem started_accounts : Accounts started := by
  have hnone : ∀ va : BitVec 64, va.toNat < 2 ^ 48 → translate started va = none := fun va hva ↦ by
    rw [started_tree.translate_eq hva]
    exact if_neg (List.cons_ne_nil _ _)
  refine ⟨fun seg hseg ↦ ?_, fun va f hva hf ↦ ?_, fun va vb f hva _ hf ↦ ?_, fun f ↦ ?_, trivial⟩
  · rcases hseg with rfl | rfl <;> decide
  · rw [hnone va hva] at hf
    cases hf
  · rw [hnone va hva] at hf
    cases hf
  · refine iff_of_false (fun h ↦ ?_) ?_
    · rcases h with h | h <;> cases h
    · rintro ⟨va, hva, hf⟩
      rw [hnone va hva] at hf
      cases hf

/-- The process after it has touched its third page of data. -/
def touched : State :=
  allocate ContextMm.upwards 0x180002000 (started.current.mms .data) started

end OsAssignments.Paging.Syscalls
