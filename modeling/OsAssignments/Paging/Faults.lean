import OsAssignments.Paging.Permissions

/-!
# Page faults

`handle_page_fault` maps the page of an address in the data segment or in the read-only data below
`next_free`, or in the stack, and exits otherwise. Its check of the stack includes the end of the
segment, where the other two exclude it: an address just at the end is taken for one of the stack,
and its page is mapped outside of it. At every other address the handler accepts exactly the legal
faults (`fault_handled_iff`).
-/

set_option autoImplicit false
set_option relaxedAutoImplicit false

namespace OsAssignments.Paging.Syscalls

open OsAssignments.Library
open ContextMm (MmSeg hardwareWalk)

variable {frames : ℕ → Pfn} {rip va vb errorCode : BitVec 64} {p p' : State} {c : ExecContext}
  {m : MmSegment} {seg : MmSeg}

/-! ### Legal faults -/

/-- The address is between the start of a segment and `next_free`. -/
def MmSegment.Below (m : MmSegment) (va : BitVec 64) : Prop := m.start ≤ va ∧ va < m.nextFree

/-- The address is in a segment, without its end. -/
def MmSegment.Within (m : MmSegment) (va : BitVec 64) : Prop := m.start ≤ va ∧ va < m.stop

/-- The page of the address lies wholly in a segment. -/
def MmSegment.ContainsPage (m : MmSegment) (va : BitVec 64) : Prop :=
  m.start.toNat ≤ va.toNat / 4096 * 4096 ∧ va.toNat / 4096 * 4096 + 4096 ≤ m.stop.toNat

/-- The fault is no violation of a protection, and it is in the data, or reads read-only data, or is
in the stack. -/
def ExecContext.Legal (c : ExecContext) (va errorCode : BitVec 64) : Prop :=
  ¬errorCode &&& 0x1 = 1 ∧
    ((c.mms .data).Below va ∨ ((c.mms .rodata).Below va ∧ ¬errorCode &&& 0x2 = 2) ∨
      (c.mms .stack).Within va)

/-- A segment of whole pages. -/
structure MmSegment.Pages (m : MmSegment) : Prop where
  start_aligned : m.start.toNat % 4096 = 0
  stop_aligned : m.stop.toNat % 4096 = 0
  ordered : m.start ≤ m.stop

/-- The segments for data, read-only data and the stack consist of whole pages and are disjoint, and
`next_free` of the first two is not behind their end. -/
structure ExecContext.Laid (c : ExecContext) : Prop where
  pages : ∀ seg, seg ≠ .code → (c.mms seg).Pages
  data_bounded : (c.mms .data).nextFree ≤ (c.mms .data).stop
  rodata_bounded : (c.mms .rodata).nextFree ≤ (c.mms .rodata).stop
  disjoint : ∀ seg seg', seg ≠ .code → seg' ≠ .code → seg ≠ seg' →
    (c.mms seg).stop ≤ (c.mms seg').start ∨ (c.mms seg').stop ≤ (c.mms seg).start

/-- The handler resumes the process exactly on a legal fault. Then it maps the page of the address,
which lies in one of the segments, and the hardware finds no other new page; on any other fault it
exits and leaves the context and the machine as they are. -/
structure HandlesFault (frames : ℕ → Pfn) (rip va errorCode : BitVec 64) (p : State) : Prop where
  resumes : (∃ p', handlePageFault frames rip va errorCode p = .ok p') ↔
    p.current.Legal va errorCode
  maps : ∀ p', handlePageFault frames rip va errorCode p = .ok p' → ∃ seg, seg ≠ .code ∧
    (p.current.mms seg).ContainsPage va ∧ p' = allocate frames va (p.current.mms seg) p
  pages : ∀ p' used, handlePageFault frames rip va errorCode p = .ok p' → va.toNat < 2 ^ 48 →
    TreeConditions p.machine.tables p.current.pgd → AbsentZero p.machine.tables p.current.pgd →
    (∀ π f, π.length ≤ 3 → frameAt p.machine.tables p.current.pgd π = some f → used f) →
    Supplies frames used p.machine.calls p'.machine.calls →
    ∀ vb : BitVec 64, vb.toNat < 2 ^ 48 → hardwareWalk p.machine.tables p.current.pgd vb = none →
      hardwareWalk p'.machine.tables p'.current.pgd vb ≠ none →
      ∃ seg, seg ≠ .code ∧ (p.current.mms seg).ContainsPage vb
  exits : ¬p.current.Legal va errorCode → ∃ q, handlePageFault frames rip va errorCode p =
    .error (.exit q) ∧ q.current = p.current ∧ q.machine = p.machine

theorem MmSegment.Pages.containsPage_of_below (h : m.Pages) (hbounded : m.nextFree ≤ m.stop)
    (hva : m.Below va) : m.ContainsPage va := by
  obtain ⟨hstart, hlt⟩ := hva
  have hstart_aligned := h.start_aligned
  have hstop_aligned := h.stop_aligned
  rw [BitVec.le_def] at hstart hbounded
  rw [BitVec.lt_def] at hlt
  exact ⟨by omega, by omega⟩

theorem MmSegment.Pages.containsPage_of_within (h : m.Pages) (hva : m.Within va) :
    m.ContainsPage va := by
  obtain ⟨hstart, hlt⟩ := hva
  have hstart_aligned := h.start_aligned
  have hstop_aligned := h.stop_aligned
  rw [BitVec.le_def] at hstart
  rw [BitVec.lt_def] at hlt
  exact ⟨by omega, by omega⟩

theorem MmSegment.ContainsPage.congr (h : m.ContainsPage va)
    (hpage : vb.toNat / 4096 = va.toNat / 4096) : m.ContainsPage vb := by
  rwa [MmSegment.ContainsPage, hpage]

/-! ### What the handler accepts -/

/-- The fault that the handler takes for one of the stack although it is just behind it. -/
def ExecContext.AtStackEnd (c : ExecContext) (va errorCode : BitVec 64) : Prop :=
  ¬errorCode &&& 0x1 = 1 ∧ va = (c.mms .stack).stop ∧ ¬(c.mms .data).Below va ∧
    ¬(c.mms .rodata).Below va

theorem checkPresent_data (h : (c.mms .data).Below va) : checkPresent va c = some .data :=
  if_pos h.symm

theorem checkPresent_rodata (hdata : ¬(c.mms .data).Below va) (h : (c.mms .rodata).Below va) :
    checkPresent va c = some .rodata :=
  (if_neg fun h ↦ hdata h.symm).trans (if_pos h.symm)

theorem checkPresent_rest (hdata : ¬(c.mms .data).Below va) (hrodata : ¬(c.mms .rodata).Below va) :
    checkPresent va c =
      if va ≤ (c.mms .stack).stop ∧ (c.mms .stack).start ≤ va then some .stack else none :=
  (if_neg fun h ↦ hdata h.symm).trans (if_neg fun h ↦ hrodata h.symm)

/-- An address of the read-only data is not in the stack. -/
theorem ExecContext.Laid.not_within_stack (hlaid : c.Laid) (h : (c.mms .rodata).Below va) :
    ¬(c.mms .stack).Within va := by
  rintro ⟨hstart, hstop⟩
  obtain ⟨hlow, hhigh⟩ := h
  have hbounded := hlaid.rodata_bounded
  have hdisjoint := hlaid.disjoint .rodata .stack (by decide) (by decide) (by decide)
  rw [BitVec.le_def] at hstart hlow hbounded
  rw [BitVec.lt_def] at hstop hhigh
  rw [BitVec.le_def, BitVec.le_def] at hdisjoint
  omega

/-- A legal fault in disjoint segments, and one at the end of the stack, is resumed with the page of
its address mapped for its segment. -/
theorem handlePageFault_accepted (hlaid : p.current.Laid)
    (h : p.current.Legal va errorCode ∨ p.current.AtStackEnd va errorCode) :
    ∃ seg, seg ≠ .code ∧ handlePageFault frames rip va errorCode p =
        .ok (allocate frames va (p.current.mms seg) p) ∧
      (p.current.Legal va errorCode → (p.current.mms seg).ContainsPage va) := by
  have hprotection : ¬errorCode &&& 0x1 = 1 := h.elim And.left And.left
  rw [handlePageFault, if_neg hprotection]
  by_cases hdata : (p.current.mms .data).Below va
  · rw [checkPresent_data hdata]
    exact ⟨.data, by decide, rfl,
      fun _ ↦ (hlaid.pages .data (by decide)).containsPage_of_below hlaid.data_bounded hdata⟩
  by_cases hrodata : (p.current.mms .rodata).Below va
  · have hread : ¬errorCode &&& 0x2 = 2 := by
      rcases h with ⟨-, hdata' | hread | hstack⟩ | hend
      · exact absurd hdata' hdata
      · exact hread.2
      · exact absurd hstack (hlaid.not_within_stack hrodata)
      · exact absurd hrodata hend.2.2.2
    rw [checkPresent_rodata hdata hrodata]
    exact ⟨.rodata, by decide, if_neg hread,
      fun _ ↦ (hlaid.pages .rodata (by decide)).containsPage_of_below hlaid.rodata_bounded hrodata⟩
  · have hpages := hlaid.pages .stack (by decide)
    have hwithin : p.current.Legal va errorCode → (p.current.mms .stack).Within va := by
      rintro ⟨-, hdata' | hread | hstack⟩
      · exact absurd hdata' hdata
      · exact absurd hread.1 hrodata
      · exact hstack
    have hstack : va ≤ (p.current.mms .stack).stop ∧ (p.current.mms .stack).start ≤ va := by
      rcases h with hlegal | hend
      · exact ⟨BitVec.le_of_lt (hwithin hlegal).2, (hwithin hlegal).1⟩
      · rw [hend.2.1]
        exact ⟨BitVec.le_refl _, hpages.ordered⟩
    rw [checkPresent_rest hdata hrodata, if_pos hstack]
    exact ⟨.stack, by decide, rfl, fun hlegal ↦ hpages.containsPage_of_within (hwithin hlegal)⟩

/-- Any other fault is refused. -/
theorem handlePageFault_refused
    (h : ¬(p.current.Legal va errorCode ∨ p.current.AtStackEnd va errorCode)) :
    handlePageFault frames rip va errorCode p = refuse rip va errorCode p := by
  rw [handlePageFault]
  by_cases hprotection : errorCode &&& 0x1 = 1
  · exact if_pos hprotection
  rw [if_neg hprotection]
  have hdata : ¬(p.current.mms .data).Below va := fun hdata ↦ h (.inl ⟨hprotection, .inl hdata⟩)
  by_cases hrodata : (p.current.mms .rodata).Below va
  · have hwrite : errorCode &&& 0x2 = 2 := not_not.mp fun hread ↦
      h (.inl ⟨hprotection, .inr (.inl ⟨hrodata, hread⟩)⟩)
    rw [checkPresent_rodata hdata hrodata]
    exact if_pos hwrite
  · have hstack : ¬(va ≤ (p.current.mms .stack).stop ∧ (p.current.mms .stack).start ≤ va) := by
      rintro ⟨hle, hstart⟩
      by_cases heq : va = (p.current.mms .stack).stop
      · exact h (.inr ⟨hprotection, heq, hdata, hrodata⟩)
      · exact h (.inl ⟨hprotection, .inr (.inr ⟨hstart, BitVec.lt_of_le_ne hle heq⟩)⟩)
    rw [checkPresent_rest hdata hrodata, if_neg hstack]

/-- The end of the stack is in no segment. -/
theorem not_legal_of_atStackEnd (h : c.AtStackEnd va errorCode) : ¬c.Legal va errorCode := by
  rintro ⟨-, hdata | hread | hstack⟩
  · exact h.2.2.1 hdata
  · exact h.2.2.2 hread.1
  · exact BitVec.ne_of_lt hstack.2 h.2.1

/-- The handler does what it should exactly when the fault is not at the end of the stack. -/
theorem fault_handled_iff (frames : ℕ → Pfn) (rip va errorCode : BitVec 64) (p : State)
    (hlaid : p.current.Laid) :
    HandlesFault frames rip va errorCode p ↔ ¬p.current.AtStackEnd va errorCode := by
  constructor
  · intro hhandles hend
    obtain ⟨seg, -, hok, -⟩ := handlePageFault_accepted hlaid (.inr hend)
    exact not_legal_of_atStackEnd hend (hhandles.resumes.mp ⟨_, hok⟩)
  · intro hnot
    have hrefused : ¬p.current.Legal va errorCode →
        handlePageFault frames rip va errorCode p = refuse rip va errorCode p := fun hlegal ↦
      handlePageFault_refused fun h ↦ h.elim hlegal hnot
    have hlegal : ∀ p', handlePageFault frames rip va errorCode p = .ok p' →
        p.current.Legal va errorCode := by
      intro p' hok
      by_contra hlegal
      rw [hrefused hlegal, refuse] at hok
      cases hok
    have hmaps : ∀ p', handlePageFault frames rip va errorCode p = .ok p' → ∃ seg, seg ≠ .code ∧
        (p.current.mms seg).ContainsPage va ∧ p' = allocate frames va (p.current.mms seg) p := by
      intro p' hok
      obtain ⟨seg, hseg, haccepted, hpage⟩ := handlePageFault_accepted hlaid (.inl (hlegal p' hok))
      exact ⟨seg, hseg, hpage (hlegal p' hok), Except.ok.inj (hok.symm.trans haccepted)⟩
    refine ⟨⟨fun ⟨p', hok⟩ ↦ hlegal p' hok, fun hl ↦ ?_⟩, hmaps,
      fun p' used hok hva hconditions hzero hused hsupplies vb hvb hold hnew ↦ ?_,
      fun hl ↦ ⟨_, hrefused hl, rfl, rfl⟩⟩
    · obtain ⟨seg, -, haccepted, -⟩ := handlePageFault_accepted hlaid (.inl hl)
      exact ⟨_, haccepted⟩
    · obtain ⟨seg, hseg, hpage, rfl⟩ := hmaps p' hok
      have htree := hconditions.permissiveTree hzero hused
      exact ⟨seg, hseg, hpage.congr (htree.page_of_newly_mapped hva hvb hsupplies hold hnew)⟩

theorem untouched_laid : untouched.current.Laid where
  pages := fun seg hseg ↦ by
    cases seg with
    | code => exact absurd rfl hseg
    | rodata => exact ⟨by decide, by decide, by decide⟩
    | data => exact ⟨by decide, by decide, by decide⟩
    | stack => exact ⟨by decide, by decide, by decide⟩
  data_bounded := by decide
  rodata_bounded := by decide
  disjoint := fun seg seg' hseg hseg' hne ↦ by
    cases seg <;> cases seg' <;> first | contradiction | decide

theorem fault_handled_iff_untouched :
    HandlesFault ContextMm.upwards 0 0x7FFFFF000 0x6 untouched ↔
      ¬untouched.current.AtStackEnd 0x7FFFFF000 0x6 :=
  fault_handled_iff ContextMm.upwards 0 0x7FFFFF000 0x6 untouched untouched_laid

/-- A write just behind the stack is resumed, and a page outside every segment is mapped for it. -/
theorem stack_end_mapped : ∃ p',
    handlePageFault ContextMm.upwards 0 0x800000000 0x6 untouched = .ok p' ∧
      untouched.current.Laid ∧ ¬untouched.current.Legal 0x800000000 0x6 ∧
      hardwareWalk untouched.machine.tables untouched.current.pgd 0x800000000 = none ∧
      hardwareWalk p'.machine.tables p'.current.pgd 0x800000000 ≠ none ∧
      (∀ seg, ¬(untouched.current.mms seg).ContainsPage 0x800000000) ∧
      ¬HandlesFault ContextMm.upwards 0 0x800000000 0x6 untouched := by
  have hend : untouched.current.AtStackEnd 0x800000000 0x6 :=
    ⟨by decide, rfl, fun h ↦ absurd h.2 (by decide), fun h ↦ absurd h.2 (by decide)⟩
  have hlegal := not_legal_of_atStackEnd hend
  refine ⟨_, rfl, untouched_laid, hlegal, rfl, by decide, fun seg h ↦ ?_, fun hhandles ↦ ?_⟩
  · cases seg <;> exact absurd h.2 (by decide)
  · exact hlegal (hhandles.resumes.mp ⟨_, rfl⟩)

end OsAssignments.Paging.Syscalls
