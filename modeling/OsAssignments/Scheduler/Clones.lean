import OsAssignments.Scheduler.Shutdown

/-!
# What a clone copies

`do_clone` of `schedule.c` takes the parent's data from the init process, and that of
`schedule_v1.c` from the current one (`doCloneV1`). `CopiesCaller` says that a clone is a copy of
its caller: the two versions make the same child, and no freed stack frame is read for it.

A `History` is a kernel with the set of the stack frames that are free. In every history the frames
of the processes are different and none of them is free (`housed_run`), so a clone made by init is a
copy of it; any other caller must agree with init in all that is copied (`clone_copies_iff`).
-/

set_option autoImplicit false
set_option relaxedAutoImplicit false

namespace OsAssignments.Scheduler

open OsAssignments.Library

variable {e : Event} {k b k' : Kernel} {type : PickType} {new i : Fin 16}
  {reply : Option UserRegs}

/-! ### The other version -/

/-- `do_clone` of `schedule_v1.c`. -/
def doCloneV1 (new : Fin 16) (pfn : BitVec 32) (thFunc userStack : BitVec 64) (k : Kernel) :
    Kernel :=
  let current := k.ctx k.current
  let regs := Function.update current.regs .entryRip thFunc
  let regs := Function.update regs .entryCs 0x23
  let regs := Function.update regs .entryRsp userStack
  let regs := Function.update regs .entrySs 0x2b
  let regs := Function.update regs .rbp userStack
  let regs := Function.update regs .entryRflags (k.osMem current.osStackPfn 2)
  k.setCtx new
    { type := current.type
      state := .ready
      usedMem := current.usedMem
      pgd := current.pgd
      osStackPfn := pfn
      osRsp := current.osRsp
      mms := current.mms
      regs := regs
      pendingSignalBitmap := 0
      sighandlers := current.sighandlers
      ticksToSleep := 0
      alarmConfigTime := 0
      ticksToAlarm := 0 }

/-- The registers that a clone takes over. -/
def kept : List Reg :=
  [.r15, .r14, .r13, .r12, .r11, .r10, .r9, .r8, .rdi, .rsi, .rdx, .rcx, .rbx, .rax]

/-- Init and the caller agree in all that `do_clone` copies. -/
structure AgreesWithInit (new : Fin 16) (pfn : BitVec 32) (k : Kernel) : Prop where
  type : (k.ctx 1).type = (k.ctx k.current).type
  usedMem : (k.ctx 1).usedMem = (k.ctx k.current).usedMem
  pgd : (k.ctx 1).pgd = (k.ctx k.current).pgd
  osRsp : (k.ctx 1).osRsp = (k.ctx k.current).osRsp
  mms : (k.ctx 1).mms = (k.ctx k.current).mms
  sighandlers : (k.ctx 1).sighandlers = (k.ctx k.current).sighandlers
  regs : ∀ r ∈ kept, (k.ctx 1).regs r = (k.ctx k.current).regs r
  rflags : k.osMem (cloneFrame new pfn k) 2 = k.stack 2

/-- The two versions make the same child exactly when init and the caller agree. -/
theorem doClone_eq_iff (new : Fin 16) (pfn : BitVec 32) (thFunc userStack : BitVec 64)
    (k : Kernel) :
    doClone new pfn thFunc userStack k = doCloneV1 new pfn thFunc userStack k ↔
      AgreesWithInit new pfn k := by
  constructor
  · intro h
    have hchild := congrFun (congrArg Kernel.ctx h) new
    simp only [doClone, doCloneV1, Kernel.setCtx_ctx, Function.update_self,
      ExecContext.mk.injEq, true_and, and_true] at hchild
    obtain ⟨htype, hused, hpgd, hrsp, hmms, hregs, hhandlers⟩ := hchild
    refine ⟨htype, hused, hpgd, hrsp, hmms, hhandlers, fun r hr ↦ ?_, ?_⟩
    · have hsame := congrFun hregs r
      simp only [kept, List.mem_cons, List.not_mem_nil, or_false] at hr
      rcases hr with rfl | rfl | rfl | rfl | rfl | rfl | rfl | rfl | rfl | rfl | rfl | rfl | rfl |
        rfl <;> simpa using hsame
    · have hsame := congrFun hregs .entryRflags
      rw [Function.update_self, Function.update_self] at hsame
      exact hsame
  · intro h
    have hregs : ∀ r, r ∈ kept ∨ r = .entryRip ∨ r = .entryCs ∨ r = .entryRsp ∨ r = .entrySs ∨
        r = .rbp ∨ r = .entryRflags := by
      intro r
      cases r <;> simp [kept]
    simp only [doClone, doCloneV1, h.type, h.usedMem, h.pgd, h.osRsp, h.mms, h.sighandlers]
    congr 2
    funext r
    rcases hregs r with hr | rfl | rfl | rfl | rfl | rfl | rfl
    · have hsame := h.regs r hr
      simp only [kept, List.mem_cons, List.not_mem_nil, or_false] at hr
      rcases hr with rfl | rfl | rfl | rfl | rfl | rfl | rfl | rfl | rfl | rfl | rfl | rfl | rfl |
        rfl <;> simpa using hsame
    all_goals simp
    exact h.rflags

/-! ### Histories -/

/-- A kernel with the OS stack frames that `do_exit` has freed and no clone has got since. -/
structure History where
  kernel : Kernel
  free : Set (BitVec 32)

namespace History

/-- The free frames after an event. -/
def freeAfter (t : History) : Event → Set (BitVec 32)
  | .exit .. => insert (t.kernel.ctx t.kernel.current).osStackPfn t.free
  | .clone _ pfn _ _ => t.free \ {pfn}
  | _ => t.free

/-- One event. -/
def run (e : Event) (t : History) : Except Halt (Option UserRegs × History) :=
  (step e t.kernel).map fun (reply, k) ↦ (reply, ⟨k, t.freeAfter e⟩)

/-- Events are issued by processes, and `os_pfn_alloc` returns a frame that no process has. -/
def Supplied (e : Event) (t : History) : Prop :=
  e.ByProcess t.kernel ∧ ∀ new pfn thFunc userStack, e = .clone new pfn thFunc userStack →
    ∀ i, i ≠ 0 → (t.kernel.ctx i).state ≠ .unused → (t.kernel.ctx i).osStackPfn ≠ pfn

end History

/-- The processes have different stack frames. -/
def FramesApart (k : Kernel) : Prop :=
  ∀ i j, i ≠ 0 → j ≠ 0 → (k.ctx i).state ≠ .unused → (k.ctx j).state ≠ .unused →
    (k.ctx i).osStackPfn = (k.ctx j).osStackPfn → i = j

/-- The scheduler is orderly, and every process has a stack frame of its own that is not free. -/
structure Housed (t : History) : Prop where
  orderly : Orderly t.kernel
  apart : FramesApart t.kernel
  taken : ∀ i, i ≠ 0 → (t.kernel.ctx i).state ≠ .unused → (t.kernel.ctx i).osStackPfn ∉ t.free

theorem beforePick_osStackPfn (h : beforePick e k = some (type, b)) (i : Fin 16) :
    (b.ctx i).osStackPfn = (k.ctx i).osStackPfn := by
  cases e <;> cases h
  · rename_i user sp locals
    obtain ⟨userMem, heq⟩ := accountTick_spec k user sp locals
    rw [heq]
    rfl
  · simp only [beforeSleep, Kernel.setCtx_ctx, Function.update_apply]
    split_ifs with hi
    · rw [hi]
    · rfl
  · simp only [beforeExit, Kernel.setState_ctx]
    rfl

/-- What is in use at a pick was in use before, and has not just exited. -/
theorem beforePick_used (ho : Orderly k) (h : beforePick e k = some (type, b))
    (hused : (b.ctx i).state ≠ .unused) :
    (k.ctx i).state ≠ .unused ∧ (type = .doExit → i ≠ k.current) := by
  by_cases hi : i = k.current
  · rw [hi, beforePick_state_current h] at hused
    refine ⟨?_, fun hexit ↦ absurd (by rw [hexit]; rfl) hused⟩
    rw [hi, (ho.one _).mpr rfl]
    simp
  · refine ⟨fun hunused ↦ hused ?_, fun _ ↦ hi⟩
    cases e <;> cases h
    · rename_i user sp locals
      have hawake : (k.ctx i).ticksToSleep ≠ 1 := fun hone ↦ by
        have hwaiting := ho.sleepers i hone.ge
        rw [hunused] at hwaiting
        cases hwaiting
      obtain ⟨userMem, heq⟩ := accountTick_spec k user sp locals
      rw [heq]
      simp only [ticked, if_neg hi, if_neg hawake]
      exact hunused
    · simp only [beforeSleep, Kernel.setCtx_ctx, Function.update_of_ne hi]
      exact hunused
    · simp only [beforeExit, Kernel.setState_ctx, if_neg hi]
      exact hunused

/-- A pick returns the swapper or a context that is in use. -/
theorem picked_used (hcurr : (b.ctx b.current).state = type.leaves)
    (hnew : pickNextContext type b = some new) (hne : new ≠ 0) : (b.ctx new).state ≠ .unused := by
  have hpicked := picked type b
  rw [hnew] at hpicked
  generalize hresult : some new = result at hpicked
  cases hpicked with
  | ready i _ _ hready _ =>
    cases hresult
    rw [hready]
    simp
  | fallback isWait _ _ =>
    cases type <;> rw [fallback] at hresult
    · split_ifs at hresult
      · cases hresult
        rw [hcurr]
        simp [PickType.leaves]
      · cases hresult
        exact absurd rfl hne
    · cases hresult
      exact absurd rfl hne
    · split_ifs at hresult
      cases hresult
      exact absurd rfl hne

/-- A process in use after an event has its stack frame from before, or has just been cloned. -/
theorem used_step (ho : Orderly k) (hstep : step e k = .ok (reply, k')) (hi : i ≠ 0)
    (hused : (k'.ctx i).state ≠ .unused) :
    ((k.ctx i).state ≠ .unused ∧ (k'.ctx i).osStackPfn = (k.ctx i).osStackPfn ∧
        ∀ frame sp, e = .exit frame sp → i ≠ k.current) ∨
      ∃ pfn thFunc userStack, e = .clone i pfn thFunc userStack ∧
        (k'.ctx i).osStackPfn = pfn := by
  cases hpick : beforePick e k with
  | none =>
    cases e <;> cases hpick <;> cases hstep
    · rename_i new pfn thFunc userStack
      rw [doClone, Kernel.setCtx_ctx] at hused ⊢
      by_cases hnew : i = new
      · subst hnew
        rw [Function.update_self]
        exact .inr ⟨pfn, thFunc, userStack, rfl, rfl⟩
      · rw [Function.update_of_ne hnew] at hused ⊢
        exact .inl ⟨hused, rfl, fun frame sp h ↦ by cases h⟩
    all_goals
      first | rw [doSignal, Kernel.setCtx_ctx] at hused ⊢
            | rw [doAlarm, Kernel.setCtx_ctx] at hused ⊢
      refine .inl ?_
      by_cases hcurr : i = k.current
      · subst hcurr
        rw [Function.update_self] at hused ⊢
        exact ⟨hused, rfl, fun frame sp h ↦ by cases h⟩
      · rw [Function.update_of_ne hcurr] at hused ⊢
        exact ⟨hused, rfl, fun frame sp h ↦ by cases h⟩
  | some pick =>
    obtain ⟨type, b⟩ := pick
    obtain ⟨new, hnew, -, rfl⟩ := step_ok hpick hstep
    have hd : Dispatched new b (afterPick e new b).2 := afterPick_dispatches hpick
    have hbefore : (b.ctx i).state ≠ .unused := by
      rw [hd.state] at hused
      split_ifs at hused with heq
      · have hcurr := beforePick_current hpick ▸ beforePick_state_current hpick
        rw [heq]
        exact picked_used hcurr hnew (heq ▸ hi)
      · exact hused
    obtain ⟨hold, hexit⟩ := beforePick_used ho hpick hbefore
    refine .inl ⟨hold, ?_, fun frame sp heq ↦ hexit ?_⟩
    · rw [hd.ctx i]
      exact beforePick_osStackPfn hpick i
    · subst heq
      cases hpick
      rfl

theorem History.step_of_run {t t' : History} (hrun : t.run e = .ok (reply, t')) :
    step e t.kernel = .ok (reply, t'.kernel) ∧ t'.free = t.freeAfter e := by
  rw [History.run] at hrun
  cases hstep : step e t.kernel with
  | error halt =>
    rw [hstep] at hrun
    cases hrun
  | ok result =>
    rw [hstep] at hrun
    cases hrun
    exact ⟨rfl, rfl⟩

/-- Every supplied event keeps the frames of the processes apart and not free. -/
theorem housed_step {t t' : History} (h : Housed t) (hsupplied : History.Supplied e t)
    (hrun : t.run e = .ok (reply, t')) : Housed t' := by
  obtain ⟨hstep, hfree⟩ := History.step_of_run hrun
  have hused := fun i ↦ used_step (i := i) h.orderly hstep
  refine ⟨orderly_step h.orderly hsupplied.1 hstep, fun i j hi hj hui huj heq ↦ ?_,
    fun i hi hui ↦ ?_⟩
  · rcases hused i hi hui with ⟨hui, hpi, -⟩ | ⟨pfn, f, st, rfl, hpi⟩
    · rcases hused j hj huj with ⟨huj, hpj, -⟩ | ⟨pfn, f, st, rfl, hpj⟩
      · exact h.apart i j hi hj hui huj (hpi.symm.trans (heq.trans hpj))
      · exact absurd (hpi.symm.trans (heq.trans hpj)) (hsupplied.2 _ _ _ _ rfl i hi hui)
    · rcases hused j hj huj with ⟨huj, hpj, -⟩ | ⟨pfn', f', st', heq', -⟩
      · exact absurd (hpj.symm.trans (heq.symm.trans hpi)) (hsupplied.2 _ _ _ _ rfl j hj huj)
      · cases heq'
        rfl
  · rw [hfree]
    rcases hused i hi hui with ⟨hui, hpi, hexit⟩ | ⟨pfn, f, st, rfl, hpi⟩
    · rw [hpi]
      have htaken := h.taken i hi hui
      cases e with
      | exit frame sp =>
        rintro (heq | hmem)
        · have hcurrent := hsupplied.1
          have hrunning : (t.kernel.ctx t.kernel.current).state ≠ .unused := by
            rw [(h.orderly.one _).mpr rfl]
            simp
          exact hexit frame sp rfl (h.apart i _ hi hcurrent hui hrunning heq)
        · exact htaken hmem
      | clone new pfn f st => exact fun hmem ↦ htaken hmem.1
      | _ => exact htaken
    · rw [hpi]
      exact fun hmem ↦ hmem.2 rfl

theorem housed_run {k₀ : Kernel} {t : History} (horderly : Orderly k₀) (hapart : FramesApart k₀)
    (hrun : Reaches History.run History.Supplied ⟨k₀, ∅⟩ t) : Housed t :=
  Reaches.invariant Housed (fun _ _ _ _ ht he hstep ↦ housed_step ht he hstep) hrun
    ⟨horderly, hapart, fun _ _ _ ↦ id⟩

/-! ### Copies -/

/-- A clone is a copy of its caller: it has the caller's page table, segments, handlers and the
`rflags` of the caller's system-call frame, starts at its function on its stack with its counters
zero, is the child that the other version makes, and no free stack frame was read for it. -/
structure CopiesCaller (new : Fin 16) (pfn : BitVec 32) (thFunc userStack : BitVec 64)
    (t : History) (child : ExecContext) : Prop where
  pgd : child.pgd = (t.kernel.ctx t.kernel.current).pgd
  mms : child.mms = (t.kernel.ctx t.kernel.current).mms
  sighandlers : child.sighandlers = (t.kernel.ctx t.kernel.current).sighandlers
  rflags : child.regs .entryRflags = t.kernel.stack 2
  rip : child.regs .entryRip = thFunc
  rsp : child.regs .entryRsp = userStack
  counters : child.ticksToSleep = 0 ∧ child.ticksToAlarm = 0 ∧ child.alarmConfigTime = 0
  sameChild : doClone new pfn thFunc userStack t.kernel =
    doCloneV1 new pfn thFunc userStack t.kernel
  notFree : cloneFrame new pfn t.kernel ∉ t.freeAfter (.clone new pfn thFunc userStack)

/-- In every history a clone is a copy of its caller exactly when init is the caller, or init and
the caller agree and the frame of init is not free. -/
theorem clone_copies_iff (k₀ : Kernel) (horderly : Orderly k₀) (hapart : FramesApart k₀)
    (t : History) (hrun : Reaches History.run History.Supplied ⟨k₀, ∅⟩ t) (new : Fin 16)
    (pfn : BitVec 32) (thFunc userStack : BitVec 64)
    (hclone : History.Supplied (.clone new pfn thFunc userStack) t) :
    CopiesCaller new pfn thFunc userStack t ((doClone new pfn thFunc userStack t.kernel).ctx new) ↔
      t.kernel.current = 1 ∨ AgreesWithInit new pfn t.kernel ∧
        cloneFrame new pfn t.kernel ∉ t.freeAfter (.clone new pfn thFunc userStack) := by
  have hhoused := housed_run horderly hapart hrun
  constructor
  · exact fun h ↦ .inr ⟨(doClone_eq_iff ..).mp h.sameChild, h.notFree⟩
  · intro h
    have hagrees : AgreesWithInit new pfn t.kernel ∧
        cloneFrame new pfn t.kernel ∉ t.freeAfter (.clone new pfn thFunc userStack) := by
      refine h.elim (fun hinit ↦ ?_) id
      have hrunning : (t.kernel.ctx 1).state = .running := (hhoused.orderly.one 1).mpr hinit.symm
      have hnew : new ≠ 1 := by
        rintro rfl
        rw [hclone.1.2] at hrunning
        cases hrunning
      have hframe : cloneFrame new pfn t.kernel = (t.kernel.ctx 1).osStackPfn := if_neg hnew
      refine ⟨⟨by rw [hinit], by rw [hinit], by rw [hinit], by rw [hinit], by rw [hinit],
        by rw [hinit], fun _ _ ↦ by rw [hinit], ?_⟩, fun hmem ↦ ?_⟩
      · rw [hframe, Kernel.stack, hinit]
      · rw [hframe] at hmem
        exact hhoused.taken 1 (by decide) (by rw [hrunning]; exact nofun) hmem.1
    have hsame := (doClone_eq_iff new pfn thFunc userStack t.kernel).mpr hagrees.1
    have hchild : (doClone new pfn thFunc userStack t.kernel).ctx new =
        (doCloneV1 new pfn thFunc userStack t.kernel).ctx new := by rw [hsame]
    rw [hchild, doCloneV1, Kernel.setCtx_ctx, Function.update_self]
    exact ⟨rfl, rfl, rfl, by simp [Kernel.stack], by simp, by simp, ⟨rfl, rfl, rfl⟩, hsame,
      hagrees.2⟩

/-! ### Two clones -/

theorem orderly_oneProcess : Orderly oneProcess where
  one := by
    intro i
    revert i
    decide
  sleepers := by
    intro i
    revert i
    decide
  swapper := rfl

theorem framesApart_oneProcess : FramesApart oneProcess := by
  have hstate : ∀ i, (oneProcess.ctx i).state ≠ .unused → i = 1 := by decide
  exact fun i j _ _ hi hj _ ↦ (hstate i hi).trans (hstate j hj).symm

theorem supplied_oneProcess : History.Supplied (.clone 2 1 8 0) ⟨oneProcess, ∅⟩ := by
  refine ⟨⟨by decide, rfl⟩, fun new pfn f st heq i _ _ ↦ ?_⟩
  cases heq
  exact (by decide : (0 : BitVec 32) ≠ 1)

/-- Init clones itself. -/
theorem clone_copies_init :
    CopiesCaller 2 1 8 0 ⟨oneProcess, ∅⟩ ((doClone 2 1 8 0 oneProcess).ctx 2) :=
  (clone_copies_iff oneProcess orderly_oneProcess framesApart_oneProcess ⟨oneProcess, ∅⟩
    (Reaches.refl _ _ _) 2 1 8 0 supplied_oneProcess).mpr (.inl rfl)

/-- Init clones itself and sleeps, and the clone registers a handler and clones itself: its child
has the handlers of init. -/
theorem clone_of_clone : ∃ t, Reaches History.run History.Supplied ⟨oneProcess, ∅⟩ t ∧
    History.Supplied (.clone 3 2 8 0) t ∧
    ¬CopiesCaller 3 2 8 0 t ((doClone 3 2 8 0 t.kernel).ctx 3) := by
  have hsleeping : pickNextContext .sleeping
      (beforeSleep 3 (fun _ ↦ 0) (doClone 2 1 8 0 oneProcess)) = some 2 := by decide
  obtain ⟨regs, k, hk, hsleep⟩ : ∃ regs k, k = (afterPick (.sleep 3 (fun _ ↦ 0) 5) 2
        (beforeSleep 3 (fun _ ↦ 0) (doClone 2 1 8 0 oneProcess))).2 ∧
      step (.sleep 3 (fun _ ↦ 0) 5) (doClone 2 1 8 0 oneProcess) = .ok (some regs, k) :=
    ⟨_, _, rfl, step_of_pick (e := .sleep 3 (fun _ ↦ 0) 5) rfl hsleeping⟩
  have hcloned : History.run (.clone 2 1 8 0) ⟨oneProcess, ∅⟩ =
      .ok (none, ⟨doClone 2 1 8 0 oneProcess, ∅ \ {1}⟩) := rfl
  have hslept : History.run (.sleep 3 (fun _ ↦ 0) 5) ⟨doClone 2 1 8 0 oneProcess, ∅ \ {1}⟩ =
      .ok (some regs, ⟨k, ∅ \ {1}⟩) := by
    rw [History.run, hsleep]
    rfl
  have hsignalled : History.run (.signal .segv 7) ⟨k, ∅ \ {1}⟩ =
      .ok (none, ⟨doSignal .segv 7 k, ∅ \ {1}⟩) := rfl
  have hsleepSupplied : History.Supplied (.sleep 3 (fun _ ↦ 0) 5)
      ⟨doClone 2 1 8 0 oneProcess, ∅ \ {1}⟩ := ⟨(by decide : (1 : Fin 16) ≠ 0), nofun⟩
  have hsignalSupplied : History.Supplied (.signal .segv 7) ⟨k, ∅ \ {1}⟩ := ⟨trivial, nofun⟩
  refine ⟨⟨doSignal .segv 7 k, ∅ \ {1}⟩, (((Reaches.refl _ _ _).step supplied_oneProcess
    hcloned).step hsleepSupplied hslept).step hsignalSupplied hsignalled, ⟨⟨?_, ?_⟩, ?_⟩, ?_⟩
  · rw [hk]
    decide
  · rw [hk]
    decide
  · intro new pfn f st heq
    cases heq
    rw [hk]
    decide
  · intro h
    have hhandlers := congrFun h.sighandlers .segv
    rw [hk] at hhandlers
    revert hhandlers
    decide

end OsAssignments.Scheduler
