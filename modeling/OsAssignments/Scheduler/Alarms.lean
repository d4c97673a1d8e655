import OsAssignments.Scheduler.Resumption

/-!
# Where an alarm is delivered

The tick handler counts the alarm of the init process, and `invoke_sync_signal` changes the
interrupt frame by the handler of the current process. After a tick the user registers of every
process are known (`tick_userRegs`): those of the interrupted process as the signal left them, the
others as they were. So an alarm that expires is delivered to init exactly when init is the current
process (`alarm_reaches_init_iff`). In `alarm_hits_clone` it is asleep, and its clone takes the
signal.
-/

set_option autoImplicit false
set_option relaxedAutoImplicit false

namespace OsAssignments.Scheduler

open OsAssignments.Library

variable {k k' : Kernel} {user regs : UserRegs} {sp locals : ℕ} {i : Fin 16}

/-- The registers a process goes on with: those in the processor for the current one, the saved ones
for the others. -/
def userRegs (live : UserRegs) (k : Kernel) (i : Fin 16) : UserRegs :=
  if i = k.current then live else (k.ctx i).regs

/-- The alarm signal is delivered to init and to nobody else: init goes on in its handler with the
interrupted `rip` pushed on its stack, and the `rip`, `rsp` and memory of the others stay. -/
structure Delivered (handler : BitVec 64) (before after : Fin 16 → UserRegs)
    (userMem userMem' : BitVec 64 → BitVec 64) : Prop where
  rip : after 1 .entryRip = handler
  rsp : after 1 .entryRsp = before 1 .entryRsp - 8
  pushed : userMem' = Function.update userMem (before 1 .entryRsp - 8) (before 1 .entryRip)
  others : ∀ j, j ≠ 1 →
    after j .entryRip = before j .entryRip ∧ after j .entryRsp = before j .entryRsp

/-! ### Registers and memory after a tick -/

/-- The interrupted process goes on as the signal left it, and the others as they were. -/
theorem tick_userRegs (hstep : step (.tick user sp locals) k = .ok (some regs, k')) (i : Fin 16) :
    userRegs regs k' i = if i = k.current then signalled user k else (k.ctx i).regs := by
  obtain ⟨b, hb, hpick⟩ : ∃ b, b = accountTick user sp locals k ∧
      beforePick (.tick user sp locals) k = some (.timer, b) := ⟨_, rfl, rfl⟩
  obtain ⟨new, -, hregs, rfl⟩ := step_ok hpick hstep
  have hcurrent := beforePick_current hpick
  have hd : Dispatched new b (afterPick (.tick user sp locals) new b).2 :=
    afterPick_dispatches hpick
  have hloaded : regs = if new = k.current then signalled user k else (k.ctx new).regs := by
    rw [Option.some.inj hregs]
    split_ifs with hnew
    · rw [afterPick, endTick_of_eq _ _ (hnew.trans hcurrent.symm), hb, accountTick_stack,
        saveContext_tickStack]
    · rw [afterPick_loads hpick (hcurrent ▸ hnew), beforePick_regs hpick hnew]
  rw [userRegs, hd.current]
  by_cases hi : i = new
  · rw [if_pos hi, hloaded, hi]
  · rw [if_neg hi]
    split_ifs with hcurr
    · have hsaved :=
        afterPick_saves hpick (fun heq ↦ hi (hcurr.trans (hcurrent.symm.trans heq.symm)))
      rw [hcurrent, ← hcurr] at hsaved
      exact hsaved
    · rw [hd.regs i (hcurrent ▸ hcurr), beforePick_regs hpick hcurr]

theorem accountTick_userMem (user : UserRegs) (sp locals : ℕ) (k : Kernel) :
    (accountTick user sp locals k).userMem = (alarmTick (user .entryRsp) (user .entryRip)
      { k with numticks := k.numticks + 1 }).2.2.userMem := by
  simp only [accountTick, show sp + 5 + 1 + locals = sp + 6 + locals by omega]
  rw [frame_word user sp locals k.stack (by omega : 4 ≤ 5),
    frame_word user sp locals k.stack (by omega : 1 ≤ 5), wake_all]
  rfl

/-- The user memory after a tick is what the signal makes of it. -/
theorem tick_userMem (hstep : step (.tick user sp locals) k = .ok (some regs, k')) :
    k'.userMem = (alarmTick (user .entryRsp) (user .entryRip)
      { k with numticks := k.numticks + 1 }).2.2.userMem := by
  obtain ⟨b, hb, hpick⟩ : ∃ b, b = accountTick user sp locals k ∧
      beforePick (.tick user sp locals) k = some (.timer, b) := ⟨_, rfl, rfl⟩
  obtain ⟨new, -, -, rfl⟩ := step_ok hpick hstep
  rw [← accountTick_userMem user sp locals, ← hb, afterPick, endTick]
  split_ifs <;> rfl

/-! ### The signal -/

theorem invokeSyncSignal_handled (signo : Signal) (ustackp urip : BitVec 64)
    (hhandler : (k.ctx k.current).sighandlers signo ≠ 0) :
    invokeSyncSignal signo ustackp urip k = some (ustackp - 8,
      (k.ctx k.current).sighandlers signo,
      { k with
        signals := k.signals + 1
        userMem := Function.update k.userMem (ustackp - 8) urip }) :=
  if_neg hhandler

/-- An alarm that expires while init is current pushes `rip` and enters the handler of init. -/
theorem alarmTick_expired (ustackp urip : BitVec 64) (hinit : k.current = 1)
    (hhandler : (k.ctx 1).sighandlers .alrm ≠ 0) (hexpires : (k.ctx 1).ticksToAlarm = 1) :
    (alarmTick ustackp urip k).1 = ustackp - 8 ∧
      (alarmTick ustackp urip k).2.1 = (k.ctx 1).sighandlers .alrm ∧
      (alarmTick ustackp urip k).2.2.userMem =
        Function.update k.userMem (ustackp - 8) urip := by
  obtain ⟨q, hq⟩ : ∃ q, q = k.setCtx 1 { k.ctx 1 with ticksToAlarm := (k.ctx 1).alarmConfigTime } :=
    ⟨_, rfl⟩
  have hset : (q.ctx q.current).sighandlers .alrm = (k.ctx 1).sighandlers .alrm := by
    have hcurrent : q.current = 1 := by
      rw [hq]
      exact hinit
    rw [hcurrent, hq, Kernel.setCtx_ctx, Function.update_self]
  have hmem : q.userMem = k.userMem := by
    rw [hq]
    rfl
  have halarm : alarmTick ustackp urip k =
      (invokeSyncSignal .alrm ustackp urip q).getD (ustackp, urip, q) := by
    simp only [alarmTick, hexpires, le_refl, if_true, Nat.sub_self]
    rw [hq]
  rw [halarm, invokeSyncSignal_handled .alrm ustackp urip (hset.symm ▸ hhandler), hset, hmem]
  exact ⟨rfl, rfl, rfl⟩

/-- When another process is current the registers of init stay, and the signal does not reach it. -/
theorem not_delivered (hcurr : k.current ≠ 1)
    (hstep : step (.tick user sp locals) k = .ok (some regs, k')) :
    ¬Delivered ((k.ctx 1).sighandlers .alrm) (userRegs user k) (userRegs regs k') k.userMem
      k'.userMem := by
  intro h
  have hrsp := h.rsp
  rw [tick_userRegs hstep, if_neg hcurr.symm, userRegs, if_neg hcurr.symm] at hrsp
  exact absurd hrsp (by bv_omega)

/-- An alarm of init that expires is delivered to init exactly when init is the current process. -/
theorem alarm_reaches_init_iff (k k' : Kernel) (user regs : UserRegs) (sp locals : ℕ)
    (hhandler : (k.ctx 1).sighandlers .alrm ≠ 0) (hexpires : (k.ctx 1).ticksToAlarm = 1)
    (hstep : step (.tick user sp locals) k = .ok (some regs, k')) :
    Delivered ((k.ctx 1).sighandlers .alrm) (userRegs user k) (userRegs regs k') k.userMem
      k'.userMem ↔ k.current = 1 := by
  refine ⟨fun h ↦ by_contra fun hcurr ↦ not_delivered hcurr hstep h, fun hinit ↦ ?_⟩
  have hmem := tick_userMem hstep
  obtain ⟨hrsp, hrip, hpushed⟩ := alarmTick_expired (k := { k with numticks := k.numticks + 1 })
    (user .entryRsp) (user .entryRip) hinit hhandler hexpires
  have hbefore : userRegs user k 1 = user := if_pos hinit.symm
  have hafter : userRegs regs k' 1 = signalled user k := by
    rw [tick_userRegs hstep, if_pos hinit.symm]
  refine ⟨?_, ?_, ?_, fun j hj ↦ ?_⟩
  · rw [hafter, signalled, Function.update_self]
    exact hrip
  · rw [hafter, hbefore, signalled, Function.update_of_ne (by decide), Function.update_self]
    exact hrsp
  · rw [hmem, hbefore]
    exact hpushed
  · have hother : j ≠ k.current := hinit ▸ hj
    rw [tick_userRegs hstep, if_neg hother, userRegs, if_neg hother]
    exact ⟨rfl, rfl⟩

/-! ### Two runs -/

/-- Init has a handler for its alarm, which expires at the next tick. -/
def initWithAlarm : Kernel := doAlarm 1 (doSignal .alrm 5 oneProcess)

/-- Init is current at the tick at which its alarm expires, and enters its handler. -/
theorem alarm_reaches_init_alone : ∃ regs k,
    step (.tick (fun _ ↦ 16) 0 0) initWithAlarm = .ok (some regs, k) ∧
    Delivered 5 (userRegs (fun _ ↦ 16) initWithAlarm) (userRegs regs k) initWithAlarm.userMem
      k.userMem := by
  have hpick : pickNextContext .timer (accountTick (fun _ ↦ 16) 0 0 initWithAlarm) = some 1 := by
    decide
  have hstep := step_of_pick (e := .tick (fun _ ↦ 16) 0 0) rfl hpick
  exact ⟨_, _, hstep, (alarm_reaches_init_iff initWithAlarm _ (fun _ ↦ 16) _ 0 0 (by decide) rfl
    hstep).mpr rfl⟩

/-- Init clones itself and sleeps; the alarm expires while the clone runs, and init is not sent to
its handler. -/
theorem alarm_hits_clone : ∃ k user regs k', Reaches step Event.Legal oneProcess k ∧ Alive k 1 ∧
    (k.ctx 1).sighandlers .alrm ≠ 0 ∧ (k.ctx 1).ticksToAlarm = 1 ∧
    step (.tick user 0 0) k = .ok (some regs, k') ∧
    ¬Delivered ((k.ctx 1).sighandlers .alrm) (userRegs user k) (userRegs regs k') k.userMem
      k'.userMem := by
  have hsignal : step (.signal .alrm 5) oneProcess = .ok (none, doSignal .alrm 5 oneProcess) := rfl
  have halarm : step (.alarm 1) (doSignal .alrm 5 oneProcess) = .ok (none, initWithAlarm) := rfl
  have hclone : step (.clone 2 0 8 0) initWithAlarm = .ok (none, doClone 2 0 8 0 initWithAlarm) :=
    rfl
  have hunused : Event.Legal (.clone 2 0 8 0) initWithAlarm :=
    (by decide : (initWithAlarm.ctx 2).state = .unused)
  have hsignalLegal : Event.Legal (.signal .alrm 5) oneProcess := trivial
  have halarmLegal : Event.Legal (.alarm 1) (doSignal .alrm 5 oneProcess) := trivial
  have hsleepLegal : Event.Legal (.sleep 3 (fun _ ↦ 0) 5) (doClone 2 0 8 0 initWithAlarm) := trivial
  have hrun := (((Reaches.refl step Event.Legal oneProcess).step hsignalLegal hsignal).step
    halarmLegal halarm).step hunused hclone
  have hsleeping : pickNextContext .sleeping
      (beforeSleep 3 (fun _ ↦ 0) (doClone 2 0 8 0 initWithAlarm)) = some 2 := by decide
  have hticking : pickNextContext .timer (accountTick (fun _ ↦ 16) 0 0 (endSleep 10 2
      (beforeSleep 3 (fun _ ↦ 0) (doClone 2 0 8 0 initWithAlarm))).2) = some 2 := by decide
  have hsleep := step_of_pick (e := .sleep 3 (fun _ ↦ 0) 5) rfl hsleeping
  have htick := step_of_pick (e := .tick (fun _ ↦ 16) 0 0) rfl hticking
  refine ⟨_, _, _, _, hrun.step hsleepLegal hsleep, ?_, ?_, ?_, htick,
    not_delivered ?_ htick⟩
  · decide
  · decide
  · decide
  · decide

end OsAssignments.Scheduler
