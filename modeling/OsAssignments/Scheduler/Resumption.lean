import OsAssignments.Scheduler.Ticks

/-!
# A process resumes as it left

What is saved when a process leaves the CPU, kept while it is away, and loaded when it comes back.

A tick saves all twenty registers, with the change of a delivered signal (`saveContext_tickStack`).
`do_sleep` saves `rbp` and the interrupt frame only, and sets `cs` and `ss` itself; the other
registers stay as an earlier switch left them in the context. While another context runs, the saved
registers stay as they are (`away_run`), and coming back loads them (`afterPick_loads`).

So a process that left through a tick always resumes as it left, and one that left through
`do_sleep` does so exactly when its registers were the saved ones already (`resumes_as_left_iff`).
`stale_rbx` is a run in which they were not.
-/

set_option autoImplicit false
set_option relaxedAutoImplicit false

namespace OsAssignments.Scheduler

open OsAssignments.Library

variable {e : Event} {k k' b : Kernel} {type : PickType} {new p : Fin 16}
  {reply : Option UserRegs}

/-! ### Leaving through a tick -/

/-- The user registers after the change that a delivered signal makes to `rsp` and `rip`. -/
def signalled (user : UserRegs) (k : Kernel) : UserRegs :=
  let alarm := alarmTick (user .entryRsp) (user .entryRip) { k with numticks := k.numticks + 1 }
  Function.update (Function.update user .entryRsp alarm.1) .entryRip alarm.2.1

section Stack

variable (k) (user : UserRegs) (sp locals : ℕ) (st : Stack)

/-- The words of the frame under the pushed registers. -/
theorem frame_word {j : ℕ} (hj : j ≤ 5) :
    above (pushRegisters user (sp + 6 + locals) (interruptFrame user sp st)) (sp + 5) j =
      [user .entrySs, user .entryRsp, user .entryRflags, user .entryCs, user .entryRip,
        user .rbp].getD (5 - j) 0 := by
  rw [above, pushRegisters, pushes_of_lt (by omega), interruptFrame,
    show sp + 5 - j = sp + (5 - j) by omega, pushes_apply (by simp only [List.length_cons]; omega)]

/-- The words of the pushed registers. -/
theorem register_word {j : ℕ} (hj : j ≤ 13) :
    above (pushRegisters user (sp + 6 + locals) st) (sp + 19 + locals) j =
      [user .r8, user .r9, user .r10, user .r11, user .r12, user .r13, user .r14, user .r15,
        user .rax, user .rbx, user .rcx, user .rdx, user .rdi, user .rsi].getD (13 - j) 0 := by
  rw [above, pushRegisters, show sp + 19 + locals - j = sp + 6 + locals + (13 - j) by omega,
    pushes_apply (by simp only [List.length_cons]; omega)]

/-- The words the handler stores back are `rip` and `rsp`. -/
theorem tickStack_eq : tickStack k user sp locals =
    Function.update (Function.update
      (pushRegisters user (sp + 6 + locals) (interruptFrame user sp k.stack))
      (sp + 4) (signalled user k .entryRip)) (sp + 1) (signalled user k .entryRsp) := by
  simp only [tickStack]
  rw [frame_word user sp locals k.stack (by omega : 4 ≤ 5),
    frame_word user sp locals k.stack (by omega : 1 ≤ 5)]
  rfl

theorem tickStack_register {j : ℕ} (hj : j ≤ 13) :
    above (tickStack k user sp locals) (sp + 19 + locals) j =
      [user .r8, user .r9, user .r10, user .r11, user .r12, user .r13, user .r14, user .r15,
        user .rax, user .rbx, user .rcx, user .rdx, user .rdi, user .rsi].getD (13 - j) 0 := by
  rw [tickStack_eq, above, Function.update_of_ne (by omega), Function.update_of_ne (by omega)]
  exact register_word user sp locals _ hj

theorem tickStack_frame {j : ℕ} (hj : j ≤ 5) (hrip : j ≠ 1) (hrsp : j ≠ 4) :
    above (tickStack k user sp locals) (sp + 5) j =
      [user .entrySs, user .entryRsp, user .entryRflags, user .entryCs, user .entryRip,
        user .rbp].getD (5 - j) 0 := by
  rw [tickStack_eq, above, Function.update_of_ne (by omega), Function.update_of_ne (by omega)]
  exact frame_word user sp locals _ hj

/-- A tick saves all the registers, as the signal left them. -/
theorem saveContext_tickStack :
    saveContext (tickStack k user sp locals) (sp + 5) (sp + 19 + locals) = signalled user k := by
  have hregister := fun j ↦ @tickStack_register k user sp locals j
  have hframe := fun j ↦ @tickStack_frame k user sp locals j
  funext r
  cases r
  case entryRip =>
    rw [saveContext, tickStack_eq, above, Function.update_of_ne (by omega),
      show sp + 5 - 1 = sp + 4 by omega, Function.update_self]
  case entryRsp =>
    rw [saveContext, tickStack_eq, above, show sp + 5 - 4 = sp + 1 by omega, Function.update_self]
  case r15 => exact hregister 6 (by decide)
  case r14 => exact hregister 7 (by decide)
  case r13 => exact hregister 8 (by decide)
  case r12 => exact hregister 9 (by decide)
  case r11 => exact hregister 10 (by decide)
  case r10 => exact hregister 11 (by decide)
  case r9 => exact hregister 12 (by decide)
  case r8 => exact hregister 13 (by decide)
  case rdi => exact hregister 1 (by decide)
  case rsi => exact hregister 0 (by decide)
  case rdx => exact hregister 2 (by decide)
  case rcx => exact hregister 3 (by decide)
  case rbx => exact hregister 4 (by decide)
  case rax => exact hregister 5 (by decide)
  case rbp => exact hframe 0 (by decide) (by decide) (by decide)
  case entryCs => exact hframe 2 (by decide) (by decide) (by decide)
  case entryRflags => exact hframe 3 (by decide) (by decide) (by decide)
  case entrySs => exact hframe 5 (by decide) (by decide) (by decide)

end Stack

/-! ### Saving and loading around the pick -/

/-- The frame that is written is the frame that is popped. -/
theorem resume_writeFrame (regs : UserRegs) (sp : ℕ) (st : Stack) :
    resume regs (sp + 5) (writeFrame regs (sp + 5) st) = regs := by
  funext r
  cases r
  case rbp | entryRip | entryCs | entryRflags | entryRsp | entrySs =>
    simp [resume, writeFrame, above]
  all_goals rfl

/-- Coming back loads the saved registers. -/
theorem afterPick_loads (h : beforePick e k = some (type, b)) (hnew : new ≠ b.current) :
    (afterPick e new b).1 = (b.ctx new).regs := by
  cases e <;> cases h
  · rw [afterPick, endTick_of_ne _ _ hnew, switchTo, resume_writeFrame, Kernel.setRegs_ctx,
      Kernel.setState_ctx]
    exact if_neg hnew
  · simp only [afterPick, endSleep, switchTo]
    rw [resume_writeFrame, Kernel.setState_ctx]
  · simp only [afterPick, endExit, switchTo]
    rw [resume_writeFrame, Kernel.setState_ctx]

/-- What a context holds in its saved registers once it has left the CPU. -/
def savedRegs (e : Event) (k : Kernel) : UserRegs :=
  match e with
  | .tick user _ _ => signalled user k
  | .sleep _ frame _ => saveSleeper frame (k.ctx k.current).regs
  | _ => (k.ctx k.current).regs

theorem accountTick_stack (user : UserRegs) (sp locals : ℕ) (k : Kernel) :
    (accountTick user sp locals k).stack = tickStack k user sp locals := by
  obtain ⟨userMem, heq⟩ := accountTick_spec k user sp locals
  rw [heq]
  exact Function.update_self ..

theorem endTick_saves (rbp saveRsp : ℕ) (hnew : new ≠ b.current) :
    ((endTick rbp saveRsp new b).2.ctx b.current).regs = saveContext b.stack rbp saveRsp := by
  rw [endTick_of_ne _ _ hnew, switchTo_ctx, Kernel.setRegs_ctx, if_pos rfl]

/-- Leaving the CPU saves the registers. -/
theorem afterPick_saves (h : beforePick e k = some (type, b)) (hnew : new ≠ b.current) :
    ((afterPick e new b).2.ctx b.current).regs = savedRegs e k := by
  cases e <;> cases h
  · rename_i user sp locals
    rw [afterPick, endTick_saves _ _ hnew, accountTick_stack, saveContext_tickStack]
    rfl
  · rw [afterPick, endSleep, switchTo_ctx, Kernel.setState_ctx]
    change (Kernel.ctx (beforeSleep _ _ k) k.current).regs = _
    simp only [beforeSleep, Kernel.setCtx_ctx, Function.update_self]
    rfl
  · rw [afterPick, endExit, switchTo_ctx]
    change ((Kernel.setState _ _ _).ctx k.current).regs = _
    rw [Kernel.setState_ctx]
    change ((Kernel.setState _ _ _).ctx k.current).regs = _
    rw [Kernel.setState_ctx]
    rfl

/-! ### While another context runs -/

theorem beforePick_regs (h : beforePick e k = some (type, b)) (hp : p ≠ k.current) :
    (b.ctx p).regs = (k.ctx p).regs := by
  cases e <;> cases h
  · rename_i user sp locals
    obtain ⟨userMem, heq⟩ := accountTick_spec k user sp locals
    rw [heq]
    rfl
  · simp only [beforeSleep, Kernel.setCtx_ctx, Function.update_of_ne hp]
    rfl
  · simp only [beforeExit, Kernel.setState_ctx]
    rfl

/-- A context that is off the CPU and keeps its saved registers. -/
def Holds (p : Fin 16) (regs : UserRegs) (k : Kernel) : Prop :=
  (k.ctx p).state ≠ .unused ∧ (k.ctx p).regs = regs

/-- The other contexts leave the saved registers alone. -/
theorem away_step {regs : UserRegs} (hp : k.current ≠ p) (hlegal : e.Legal k)
    (hholds : Holds p regs k) (hstep : step e k = .ok (reply, k')) : Holds p regs k' := by
  obtain ⟨hused, hregs⟩ := hholds
  cases hpick : beforePick e k with
  | none =>
    cases e <;> cases hpick <;> cases hstep
    · rename_i new pfn thFunc userStack
      have hne : p ≠ new := by
        rintro rfl
        exact hused hlegal
      simp only [Holds, doClone, Kernel.setCtx_ctx, Function.update_of_ne hne]
      exact ⟨hused, hregs⟩
    all_goals
      simp only [Holds, doSignal, doAlarm, Kernel.setCtx_ctx, Function.update_of_ne hp.symm]
      exact ⟨hused, hregs⟩
  | some pick =>
    obtain ⟨type, b⟩ := pick
    rcases step_dispatches hpick with ⟨-, hhalt⟩ | ⟨new, reply', k'', hnew, hok, hd⟩
    · rw [hhalt] at hstep
      cases hstep
    · rw [hok] at hstep
      cases hstep
      refine ⟨?_, ?_⟩
      · rw [hd.state]
        split_ifs
        · simp
        · rcases beforePick_state hpick hp.symm with hsame | hready
          · rw [hsame]
            exact hused
          · rw [hready]
            simp
      · rw [hd.regs p (beforePick_current hpick ▸ hp.symm), beforePick_regs hpick hp.symm, hregs]

theorem away_run {regs : UserRegs}
    (h : Reaches step (fun e k ↦ e.Legal k ∧ k.current ≠ p) k k') (hholds : Holds p regs k) :
    Holds p regs k' :=
  Reaches.invariant (Holds p regs) (fun _ _ _ _ hk he hstep ↦ away_step he.2 he.1 hk hstep)
    h hholds

/-! ### Coming back -/

/-- The system-call stub lays the registers out as `do_sleep` reads them. -/
def StubLayout (frame : Stack) (user : UserRegs) : Prop :=
  frame 1 = user .entryRsp ∧ frame 2 = user .entryRflags ∧ frame 4 = user .entryRip ∧
    frame 10 = user .rbp

/-- The current process leaves the CPU with given user registers. -/
def Leaves : Event → Kernel → UserRegs → Prop
  | .tick user _ _, k, regs => regs = signalled user k
  | .sleep _ frame _, _, regs => StubLayout frame regs
  | _, _, _ => False

/-- The registers that are to be restored: `rax` only after a tick. -/
def Restores (e : Event) (r : Reg) : Prop :=
  match e with
  | .tick .. => True
  | _ => r ≠ .rax

/-- The registers that `do_sleep` does not save, `rax` apart. -/
def unsaved : List Reg :=
  [.r8, .r9, .r10, .r11, .r12, .r13, .r14, .r15, .rbx, .rcx, .rdx, .rdi, .rsi]

/-- The condition under which leaving loses no register: through a tick, or through `do_sleep` with
the segments it assumes and all other registers as they are saved in the context already. -/
def LosesNothing (e : Event) (k : Kernel) (regs : UserRegs) : Prop :=
  match e with
  | .tick .. => True
  | _ => regs .entryCs = 0x23 ∧ regs .entrySs = 0x2b ∧
    ∀ r ∈ unsaved, regs r = (k.ctx k.current).regs r

theorem savedRegs_eq_iff {user : UserRegs} (hleaves : Leaves e k user) :
    (∀ r, Restores e r → savedRegs e k r = user r) ↔ LosesNothing e k user := by
  cases e with
  | tick user' sp locals => exact iff_of_true (fun r _ ↦ congrFun hleaves.symm r) trivial
  | sleep n frame sp =>
    obtain ⟨hrsp, hrflags, hrip, hrbp⟩ := hleaves
    constructor
    · intro h
      refine ⟨(h .entryCs (by simp [Restores])).symm, (h .entrySs (by simp [Restores])).symm,
        fun r hr ↦ ?_⟩
      have hne : Restores (.sleep n frame sp) r := by
        rintro rfl
        simp [unsaved] at hr
      rw [← h r hne]
      simp only [unsaved, List.mem_cons, List.not_mem_nil, or_false] at hr
      rcases hr with rfl | rfl | rfl | rfl | rfl | rfl | rfl | rfl | rfl | rfl | rfl | rfl | rfl <;>
        rfl
    · rintro ⟨hcs, hss, hsame⟩ r hr
      cases r
      case rax => exact absurd rfl hr
      case rbp => exact hrbp
      case entryRip => exact hrip
      case entryRflags => exact hrflags
      case entryRsp => exact hrsp
      case entryCs => exact hcs.symm
      case entrySs => exact hss.symm
      all_goals exact (hsame _ (by simp [unsaved])).symm
  | _ => exact hleaves.elim

/-- A process that leaves the CPU and is switched in again later resumes with the registers it left
with exactly when leaving loses none. -/
theorem resumes_as_left_iff (e : Event) (k k₁ k₂ k₃ : Kernel) (user regs : UserRegs) (e' : Event)
    (reply : Option UserRegs) (hleaves : Leaves e k user) (hstep : step e k = .ok (reply, k₁))
    (hout : k₁.current ≠ k.current)
    (haway : Reaches step (fun e k' ↦ e.Legal k' ∧ k'.current ≠ k.current) k₁ k₂)
    (hother : k₂.current ≠ k.current) (hback : step e' k₂ = .ok (some regs, k₃))
    (hin : k₃.current = k.current) :
    (∀ r, Restores e r → regs r = user r) ↔ LosesNothing e k user := by
  obtain ⟨type, b, hpick⟩ : ∃ type b, beforePick e k = some (type, b) := by
    cases e
    case tick | sleep => exact ⟨_, _, rfl⟩
    all_goals exact hleaves.elim
  have hcurrent := beforePick_current hpick
  have hheld : Holds k.current (savedRegs e k) k₁ := by
    obtain ⟨new, hnew, -, rfl⟩ := step_ok hpick hstep
    have hd : Dispatched new b (afterPick e new b).2 := afterPick_dispatches hpick
    have hne : new ≠ b.current := by
      rw [hd.current, ← hcurrent] at hout
      exact hout
    refine ⟨?_, hcurrent ▸ afterPick_saves hpick hne⟩
    rw [hd.state, if_neg (hcurrent ▸ hne.symm), beforePick_state_current hpick]
    cases e <;> cases hpick
    · simp [PickType.leaves]
    · simp [PickType.leaves]
    · exact hleaves.elim
  have hloaded : regs = savedRegs e k := by
    obtain ⟨type', b', hpick'⟩ : ∃ type b, beforePick e' k₂ = some (type, b) := by
      cases e'
      case tick | sleep | exit => exact ⟨_, _, rfl⟩
      all_goals cases hback
    obtain ⟨new, -, hregs, rfl⟩ := step_ok hpick' hback
    have hnew : new = k.current := (afterPick_dispatches hpick').current.symm.trans hin
    subst hnew
    have hne : k.current ≠ b'.current := by
      rw [beforePick_current hpick']
      exact hother.symm
    rw [Option.some.inj hregs, afterPick_loads hpick' hne, beforePick_regs hpick' hother.symm]
    exact (away_run haway hheld).2
  rw [hloaded]
  exact savedRegs_eq_iff hleaves

/-- Process 1 runs and process 2 is ready; nothing has been saved for process 1 yet. -/
def sleeperAndReady : Kernel :=
  zeroKernel (fun i ↦ zeroContext (if i = 1 then .running else if i = 2 then .ready else .unused)) 1

/-- Registers that are not zero. -/
def busyRegs : UserRegs := Function.update (fun _ ↦ 5) .rbx 7

theorem signalled_busyRegs : signalled busyRegs sleeperAndReady = busyRegs := by
  funext r
  cases r <;> rfl

/-- Process 1 is preempted with registers that are not zero, and a tick later it comes back with
them. -/
theorem resumes_as_left_busy : ∃ reply k₁ regs k₂,
    step (.tick busyRegs 0 0) sleeperAndReady = .ok (reply, k₁) ∧
      k₁.current ≠ sleeperAndReady.current ∧
      step (.tick (fun _ ↦ 0) 0 0) k₁ = .ok (some regs, k₂) ∧ ∀ r, regs r = busyRegs r := by
  have hleaving : pickNextContext .timer (accountTick busyRegs 0 0 sleeperAndReady) = some 2 := by
    decide
  have hcoming : pickNextContext .timer (accountTick (fun _ ↦ 0) 0 0
      (endTick 5 19 2 (accountTick busyRegs 0 0 sleeperAndReady)).2) = some 1 := by decide
  have hleft := step_of_pick (e := .tick busyRegs 0 0) rfl hleaving
  have hback := step_of_pick (e := .tick (fun _ ↦ 0) 0 0) rfl hcoming
  have hleaves : Leaves (.tick busyRegs 0 0) sleeperAndReady busyRegs := signalled_busyRegs.symm
  have hout : (endTick 5 19 2 (accountTick busyRegs 0 0 sleeperAndReady)).2.current ≠
      sleeperAndReady.current := by decide
  refine ⟨_, _, _, _, hleft, hout, hback, fun r ↦ ?_⟩
  exact (resumes_as_left_iff (.tick busyRegs 0 0) sleeperAndReady _ _ _ busyRegs _
    (.tick (fun _ ↦ 0) 0 0) _ hleaves hleft hout (Reaches.refl _ _ _) hout hback rfl).mpr trivial r
      trivial

/-- The registers of a process in user mode, with a given `rbx`. -/
def userWith (rbx : BitVec 64) : UserRegs :=
  Function.update (Function.update (Function.update (fun _ ↦ 0) .entryCs 0x23) .entrySs 0x2b)
    .rbx rbx

/-- Process 1 sleeps for one tick, process 2 runs, and the tick switches process 1 in again. -/
theorem sleeper_returns : ∃ reply k₁ regs k₂,
    step (.sleep 1 (fun _ ↦ 0) 5) sleeperAndReady = .ok (reply, k₁) ∧
      k₁.current ≠ sleeperAndReady.current ∧
      step (.tick (fun _ ↦ 0) 0 0) k₁ = .ok (some regs, k₂) ∧
      k₂.current = sleeperAndReady.current ∧ regs .rbx = 0 := by
  have hsleeping :
      pickNextContext .sleeping (beforeSleep 1 (fun _ ↦ 0) sleeperAndReady) = some 2 := by
    decide
  have hwaking : pickNextContext .timer (accountTick (fun _ ↦ 0) 0 0
      (endSleep 10 2 (beforeSleep 1 (fun _ ↦ 0) sleeperAndReady)).2) = some 1 := by decide
  have hsleep := step_of_pick (e := .sleep 1 (fun _ ↦ 0) 5) rfl hsleeping
  have htick := step_of_pick (e := .tick (fun _ ↦ 0) 0 0) rfl hwaking
  refine ⟨_, _, _, _, hsleep, by decide, htick, rfl, ?_⟩
  rw [afterPick_loads (e := .tick (fun _ ↦ 0) 0 0) rfl (by decide)]
  rfl

theorem leaves_sleeper (rbx : BitVec 64) :
    Leaves (.sleep 1 (fun _ ↦ 0) 5) sleeperAndReady (userWith rbx) :=
  ⟨rfl, rfl, rfl, rfl⟩

/-- Process 1 calls `do_sleep` with 7 in `rbx`, and finds another value there when it is back. -/
theorem stale_rbx : ∃ reply k₁ regs k₂,
    Leaves (.sleep 1 (fun _ ↦ 0) 5) sleeperAndReady (userWith 7) ∧
    step (.sleep 1 (fun _ ↦ 0) 5) sleeperAndReady = .ok (reply, k₁) ∧
    k₁.current ≠ sleeperAndReady.current ∧
    step (.tick (fun _ ↦ 0) 0 0) k₁ = .ok (some regs, k₂) ∧
    k₂.current = sleeperAndReady.current ∧ regs .rbx ≠ userWith 7 .rbx := by
  obtain ⟨reply, k₁, regs, k₂, hsleep, hout, htick, hin, hrbx⟩ := sleeper_returns
  refine ⟨reply, k₁, regs, k₂, leaves_sleeper 7, hsleep, hout, htick, hin, ?_⟩
  rw [hrbx]
  decide

end OsAssignments.Scheduler
