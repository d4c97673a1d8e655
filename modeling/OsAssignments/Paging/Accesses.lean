import OsAssignments.Paging.Translations

/-!
# Loads and stores

`Session.Shows` relates a process to the space that it sees: the pages of the space are those with a
translation, with the bytes of their frames. A load or a store of the processor does to the process
what an access does to the space (`access_answers`). When the page is there the first attempt
decides; when it is not, the handler exits or maps a page, and the second attempt decides.

What is assumed of `os_pfn_alloc` is said of the log at the end of an operation, which goes on from
the log before it (`log_act`).
-/

set_option autoImplicit false
set_option relaxedAutoImplicit false

namespace OsAssignments.Paging.Syscalls

open OsAssignments.Library
open ContextMm (MmSeg)

variable {frames : ℕ → Pfn} {p p' : Process} {q s s' : State} {d : Space}
    {T : TablePath → Option Pfn}
  {rip va errorCode param1 param2 value : BitVec 64} {number : BitVec 32} {n : ℕ} {write : Bool}
    {f : Pfn}
  {o : Option Pfn} {stop : Stop} {reply : Reply} {t : Session} {memory : BitVec 64 → BitVec 8}

/-! ### What a process shows -/

/-- The space is what the process sees. -/
structure Process.Shows (p : Process) (d : Space) : Prop where
  current : d.current = p.state.current
  output : d.output = p.state.output
  page : d.page = VirtualMemory.contents (pageMap p.state) p.ram

/-- The process is there, and its space is what it sees, or both are gone. -/
def Session.Shows (t : Session) (d : Option Space) : Prop :=
  d.elim (t.gone = true) fun d ↦ t.gone = false ∧ (∃ T, t.process.Holds T) ∧ t.process.Shows d

/-- The log of the kernel. -/
def Process.log (p : Process) : List (FrameEvent Region Pfn) := p.state.machine.log

/-! ### Attempts -/

theorem touch_ok (h : p.attempt write va = .ok f) :
    p.touch frames rip va write (n + 1) = .ok (some f, p) := by
  rw [Process.touch, h]

theorem touch_stop (h : p.attempt write va = .error errorCode)
    (hfault : handlePageFault frames rip va errorCode p.state = .error stop) :
    p.touch frames rip va write (n + 1) = .error stop := by
  rw [Process.touch, h]
  dsimp only
  rw [hfault]

theorem touch_again (h : p.attempt write va = .error errorCode)
    (hfault : handlePageFault frames rip va errorCode p.state = .ok s) :
    p.touch frames rip va write (n + 1) = (p.setState s).touch frames rip va write n := by
  rw [Process.touch, h]
  dsimp only
  rw [hfault]

/-! ### The log goes on -/

/-- The handler exits in the state in which it was entered, but for what it prints. -/
theorem handlePageFault_error (h : handlePageFault frames rip va errorCode s = .error stop) :
    ∃ q, stop = .exit q ∧ q.machine = s.machine := by
  simp only [handlePageFault, refuse] at h
  split at h
  · exact ⟨_, (Except.error.inj h).symm, rfl⟩
  split at h
  · exact ⟨_, (Except.error.inj h).symm, rfl⟩
  · cases h
  · split at h
    · exact ⟨_, (Except.error.inj h).symm, rfl⟩
    · cases h
  · cases h

/-- An access ends with a later log, also when it exits. It does not hang. -/
theorem log_touch : (∀ o p', p.touch frames rip va write n = .ok (o, p') → p.log <:+ p'.log) ∧
    ∀ stop, p.touch frames rip va write n = .error stop →
      ∃ q, stop = .exit q ∧ p.log <:+ q.machine.log := by
  induction n generalizing p with
  | zero =>
    refine ⟨fun o p' h ↦ ?_, fun stop h ↦ ?_⟩
    · obtain ⟨-, rfl⟩ := Prod.mk.inj (Except.ok.inj h)
      exact List.suffix_rfl
    · cases h
  | succ n ih =>
    cases hattempt : p.attempt write va with
    | ok f =>
      rw [touch_ok hattempt]
      refine ⟨fun o p' h ↦ ?_, fun stop h ↦ ?_⟩
      · obtain ⟨-, rfl⟩ := Prod.mk.inj (Except.ok.inj h)
        exact List.suffix_rfl
      · cases h
    | error errorCode =>
      cases hfault : handlePageFault frames rip va errorCode p.state with
      | error stop =>
        rw [touch_stop hattempt hfault]
        refine ⟨fun o p' h ↦ ?_, fun stop' h ↦ ?_⟩
        · cases h
        · obtain ⟨q, rfl, hmachine⟩ := handlePageFault_error hfault
          exact ⟨q, (Except.error.inj h).symm, hmachine ▸ List.suffix_rfl⟩
      | ok s =>
        rw [touch_again hattempt hfault]
        obtain ⟨seg, m, -, rfl⟩ := handlePageFault_ok hfault
        have hlog : p.log <:+ (p.setState (allocate frames va m p.state)).log :=
          log_allocateLevels ..
        exact ⟨fun o p' h ↦ hlog.trans (ih.1 o p' h), fun stop h ↦
          (ih.2 stop h).imp fun q hq ↦ ⟨hq.1, hlog.trans hq.2⟩⟩

theorem log_access {use : Pfn → Process → Reply × Process}
    (huse : ∀ f p, (use f p).2.state = p.state)
    (h : p.access frames n rip va write use = (reply, t)) : p.log <:+ t.process.log := by
  rw [Process.access] at h
  split at h
  · rename_i stop htouch
    obtain rfl : (p.stop stop).2 = t := (Prod.mk.inj h).2
    obtain ⟨q, rfl, hlog⟩ := log_touch.2 stop htouch
    exact hlog
  · rename_i p' htouch
    obtain rfl : Session.on p' = t := (Prod.mk.inj h).2
    exact log_touch.1 none p' htouch
  · rename_i f p' htouch
    obtain rfl : Session.on (use f p').2 = t := (Prod.mk.inj h).2
    have hlog := log_touch.1 (some f) p' htouch
    rwa [Process.log, Process.log, ← huse f p'] at hlog

theorem log_doSyscall (h : doSyscall memory number param1 param2 s = .ok (value, s')) :
    s.machine.log <:+ s'.machine.log := by
  have hexpand : ∀ s s', expand param1 param2 s = .ok (value, s') → s'.machine = s.machine := by
    intro s s' h
    obtain ⟨value', q, heq, hmachine, -⟩ := expand_machine param1 param2 s
    obtain ⟨-, rfl⟩ := Prod.mk.inj (Except.ok.inj (heq.symm.trans h))
    exact hmachine
  rw [doSyscall] at h
  split_ifs at h
  · obtain ⟨-, rfl⟩ := Prod.mk.inj (Except.ok.inj h)
    exact List.suffix_rfl
  · rcases write_eq memory param1 param2 s with ⟨-, heq⟩ | ⟨-, heq⟩
    · rw [heq] at h
      rw [hexpand _ _ h]
      exact List.suffix_append _ _
    · obtain ⟨-, rfl⟩ := Prod.mk.inj (Except.ok.inj (heq.symm.trans h))
      exact List.suffix_append _ _
  · exact hexpand _ _ h ▸ List.suffix_rfl
  · have hrun : run (fun _ ↦ 0) memory (.shrink param1 param2) s = .ok (value, s') := h
    exact log_run hrun
  · obtain ⟨-, rfl⟩ := Prod.mk.inj (Except.ok.inj h)
    exact List.suffix_rfl

/-- A call that does not return exits as it is, or hangs. -/
theorem doSyscall_error (h : doSyscall memory number param1 param2 s = .error stop) :
    stop = .exit s ∨ stop = .hang := by
  rw [doSyscall] at h
  split_ifs at h
  · exact .inl (Except.error.inj h).symm
  · rcases write_eq memory param1 param2 s with ⟨-, heq⟩ | ⟨-, heq⟩
    · obtain ⟨value', q, hexpand, -⟩ := expand_machine param1 param2 _
      rw [heq, hexpand] at h
      cases h
    · rw [heq] at h
      cases h
  · obtain ⟨value', q, hexpand, -⟩ := expand_machine param1 param2 s
    rw [hexpand] at h
    cases h
  · simp only [shrink] at h
    split_ifs at h
    split at h
    · exact .inr (Except.error.inj h).symm
    · cases h

/-- The log after an operation goes on from the log before it. -/
theorem log_act {op : Op} (h : op.act frames n p = (reply, t)) : p.log <:+ t.process.log := by
  cases op with
  | load rip va => exact log_access (fun _ _ ↦ rfl) h
  | store rip va b => exact log_access (fun _ _ ↦ rfl) h
  | syscall number param1 param2 =>
    rw [Op.act] at h
    split at h
    · rename_i stop hcall
      obtain rfl : (p.stop stop).2 = t := (Prod.mk.inj h).2
      rcases doSyscall_error hcall with rfl | rfl
      · exact List.suffix_rfl
      · exact List.suffix_rfl
    · rename_i value s' hcall
      obtain rfl := (Prod.mk.inj h).2
      exact log_doSyscall hcall
  | keep va =>
    obtain rfl := (Prod.mk.inj h).2
    exact List.suffix_rfl
  | drop va =>
    obtain rfl := (Prod.mk.inj h).2
    exact List.suffix_rfl

/-! ### Accesses -/

section Access

/-- The page that an access needs is there when the page map has it. -/
theorem Process.Shows.page_of_some {e : Translation Pfn} (h : p.Shows d)
    (he : pageMap p.state n = some e) : d.page n = some ⟨p.ram e.frame, e.writable⟩ := by
  rw [h.page]
  exact VirtualMemory.contents_of_some he

theorem Process.Shows.page_of_none (h : p.Shows d) (hnone : pageMap p.state n = none) :
    d.page n = none := by
  rw [h.page]
  exact VirtualMemory.contents_eq_none_iff.mpr hnone

/-- The use of a page by the process and by its space: it does the same to both. -/
def UsesAlike (write : Bool) (va : BitVec 64) (use : Pfn → Process → Reply × Process)
    (see : SeenPage ℕ (BitVec 8) → Reply × SeenPage ℕ (BitVec 8)) : Prop :=
  ∀ (p : Process) T d e, p.Holds T → p.Shows d → pageMap p.state (pageOf va) = some e →
    (write → e.writable) → (use e.frame p).1 = (see ⟨p.ram e.frame, e.writable⟩).1 ∧
      (use e.frame p).2.Holds T ∧
      (use e.frame p).2.Shows (d.setPage (pageOf va) (see ⟨p.ram e.frame, e.writable⟩).2)

theorem Session.shows_on (h : p.Holds T) (hshows : p.Shows d) : (Session.on p).Shows (some d) :=
  ⟨rfl, ⟨T, h⟩, hshows⟩

/-- An access from whose page fault the handler returns. -/
theorem access_again {use : Pfn → Process → Reply × Process}
    (h : p.attempt write va = .error errorCode)
    (hfault : handlePageFault frames rip va errorCode p.state = .ok s) :
    p.access frames (n + 1) rip va write use = (p.setState s).access frames n rip va write use := by
  rw [Process.access, touch_again h hfault, Process.access]
  cases htouch : (p.setState s).touch frames rip va write n with
  | error stop =>
    obtain ⟨q, rfl, -⟩ := log_touch.2 stop htouch
    rfl
  | ok r =>
    obtain ⟨o, p'⟩ := r
    cases o with
    | none => rfl
    | some f => rfl

/-- An access to a page that is there. -/
theorem access_found (frames : ℕ → Pfn) (rip : BitVec 64) (n : ℕ) {e : Translation Pfn}
    {use : Pfn → Process → Reply × Process}
    {see : SeenPage ℕ (BitVec 8) → Reply × SeenPage ℕ (BitVec 8)}
    (h : p.Holds T) (hshows : p.Shows d) (hva : va.toNat < 2 ^ 48)
    (he : pageMap p.state (pageOf va) = some e) (huse : UsesAlike write va use see) :
    if write → e.writable then
      p.access frames (n + 1) rip va write use =
          ((see ⟨p.ram e.frame, e.writable⟩).1, .on (use e.frame p).2) ∧
        (Session.on (use e.frame p).2).Shows
          (some (d.setPage (pageOf va) (see ⟨p.ram e.frame, e.writable⟩).2))
    else ∃ t, p.access frames (n + 1) rip va write use = (.exited, t) ∧ t.gone = true := by
  have hattempt := h.attempt_of_some write hva he
  split_ifs with hok
  · rw [if_pos hok] at hattempt
    obtain ⟨hreply, hholds, hshows'⟩ := huse p T d e h hshows he hok
    refine ⟨?_, Session.shows_on hholds hshows'⟩
    rw [Process.access, touch_ok hattempt, ← hreply]
  · rw [if_neg hok] at hattempt
    obtain ⟨q, -, hfault⟩ := handlePageFault_present frames rip va write p.state
    refine ⟨(p.stop (.exit q)).2, ?_, rfl⟩
    rw [Process.access, touch_stop hattempt hfault]
    rfl

/-- A load or a store does to the process what it does to its space. -/
theorem access_answers {use : Pfn → Process → Reply × Process}
    {see : SeenPage ℕ (BitVec 8) → Reply × SeenPage ℕ (BitVec 8)}
    (h : p.Holds T) (hshows : p.Shows d) (hva : va.toNat < 2 ^ 48)
    (huse : UsesAlike write va use see) (hstate : ∀ f p, (use f p).2.state = p.state)
    (hrun : p.access frames (n + 2) rip va write use = (reply, t))
    (hunused : AllocsUnused Small t.process.log) :
    ∃ d', Op.answersAccess write va d see reply d' ∧ t.Shows d' := by
  cases hpage : pageMap p.state (pageOf va) with
  | some e =>
    have hfound := access_found frames rip (n + 1) h hshows hva hpage huse
    have hseen := hshows.page_of_some hpage
    split_ifs at hfound with hok
    · obtain ⟨haccess, hshows'⟩ := hfound
      obtain ⟨rfl, rfl⟩ := Prod.mk.inj (haccess.symm.trans hrun)
      exact ⟨_, .inl ⟨.inl ⟨_, hseen, hok⟩, _, .inl hseen, rfl, rfl⟩, hshows'⟩
    · obtain ⟨t', haccess, hgone⟩ := hfound
      obtain ⟨rfl, rfl⟩ := Prod.mk.inj (haccess.symm.trans hrun)
      refine ⟨none, .inr ⟨?_, rfl, rfl⟩, hgone⟩
      rintro (⟨pg, hpg, hpermits⟩ | ⟨hnone, -⟩)
      · obtain rfl := Option.some.inj (hseen.symm.trans hpg)
        exact hok hpermits
      · rw [hseen] at hnone
        cases hnone
  | none =>
    have hattempt := h.attempt_of_none write hva hpage
    have hunseen := hshows.page_of_none hpage
    have hforbidden : ∀ seg, checkPresent va p.state.current = some seg →
        ¬(write → seg ≠ .rodata ∧ d.MayWrite seg) → ¬d.Permits write va := by
      rintro seg hseg hno (⟨pg, hpg, -⟩ | ⟨-, seg', hseg', hok⟩)
      · rw [hunseen] at hpg
        cases hpg
      · rw [hshows.current, hseg] at hseg'
        exact hno (Option.some.inj hseg' ▸ hok)
    rcases handlePageFault_absent frames rip va write p.state with
      ⟨seg, hseg, hrodata, hfault⟩ | ⟨hno, q, -, hfault⟩
    · -- the handler maps a page, and the access is attempted again
      rw [access_again hattempt hfault] at hrun
      obtain ⟨f, T', hholds, hmap⟩ := h.allocate (m := p.state.current.mms seg) hva hseg hpage
        (allocsUnused_of_suffix (log_access hstate hrun) hunused)
      have hshows' : (p.setState (allocate frames va (p.state.current.mms seg) p.state)).Shows
          (d.setPage (pageOf va)
            ⟨p.ram f, decide ((p.state.current.mms seg).accessFlags &&& 0x2 = 2)⟩) := by
        have hadd := VirtualMemory.contents_add (pageMap p.state) p.ram (pageOf va)
          ⟨f, true, decide ((p.state.current.mms seg).accessFlags &&& 0x2 = 2)⟩
        rw [← hmap, ← hshows.page] at hadd
        exact ⟨hshows.current, hshows.output, hadd.symm⟩
      have hmayWrite : d.MayWrite seg ↔ (p.state.current.mms seg).accessFlags &&& 0x2 = 2 := by
        rw [Space.MayWrite, hshows.current]
      have hsegment := (congrArg (checkPresent va) hshows.current).trans hseg
      have hfound := access_found frames rip n hholds hshows' hva
        ((congrFun hmap _).trans (Function.update_self ..)) huse
      split_ifs at hfound with hok
      · obtain ⟨haccess, hshows''⟩ := hfound
        obtain ⟨rfl, rfl⟩ := Prod.mk.inj (haccess.symm.trans hrun)
        rw [Space.setPage, Space.setPage, Function.update_idem] at hshows''
        refine ⟨_, .inl ⟨.inr ⟨hunseen, seg, hsegment, fun hwrite ↦ ⟨hrodata hwrite, ?_⟩⟩, _,
          .inr ⟨hunseen, seg, hsegment, ?_⟩, rfl, rfl⟩, hshows''⟩
        · exact hmayWrite.mpr (of_decide_eq_true (hok hwrite))
        · exact decide_eq_decide.mpr hmayWrite.symm
      · obtain ⟨t', haccess, hgone⟩ := hfound
        obtain ⟨rfl, rfl⟩ := Prod.mk.inj (haccess.symm.trans hrun)
        exact ⟨none, .inr ⟨hforbidden seg hseg fun h ↦ hok fun hwrite ↦
          decide_eq_true (hmayWrite.mp (h hwrite).2), rfl, rfl⟩, hgone⟩
    · rw [Process.access, touch_stop hattempt hfault] at hrun
      obtain ⟨rfl, rfl⟩ := Prod.mk.inj hrun
      refine ⟨none, .inr ⟨?_, rfl, rfl⟩, rfl⟩
      rintro (⟨pg, hpg, -⟩ | ⟨-, seg, hseg, hok⟩)
      · rw [hunseen] at hpg
        cases hpg
      · exact hno ⟨seg, hshows.current ▸ hseg, fun hwrite ↦ (hok hwrite).1⟩

/-- A load reads the byte of the page. -/
theorem usesAlike_load (va : BitVec 64) : UsesAlike false va
    (fun f p ↦ (.byte (p.ram f (offsetOf va)), p)) fun pg ↦
      (.byte (pg.bytes (offsetOf va)), pg) := by
  intro p T d e h hshows he _
  refine ⟨rfl, h, hshows.current, hshows.output, ?_⟩
  rw [Space.setPage, ← hshows.page_of_some he]
  exact (Function.update_eq_self _ _).trans hshows.page

/-- A store writes it, and no byte of another page. -/
theorem usesAlike_store (va : BitVec 64) (b : BitVec 8) : UsesAlike true va
    (fun f p ↦ (.done, p.poke f (offsetOf va) b)) fun pg ↦
      (.done, { pg with bytes := Function.update pg.bytes (offsetOf va) b }) := by
  intro p T d e h hshows he _
  refine ⟨rfl, ⟨h.kept, h.permissive, h.user, h.coherent⟩, hshows.current, hshows.output, ?_⟩
  change Function.update d.page _ _ = VirtualMemory.contents (pageMap p.state)
    (Function.update p.ram _ _)
  rw [VirtualMemory.contents_write h.apart he, ← hshows.page]

end Access

end OsAssignments.Paging.Syscalls
