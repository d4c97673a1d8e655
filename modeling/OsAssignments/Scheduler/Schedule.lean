import OsAssignments.Scheduler.Context

/-!
# The round-robin scheduler

The functions of `schedule.c`. `pickNextContext` scans the pids above the current one and then
those below it, from 1 on, for a `READY` context, and notes on the way whether one is `WAITING`.
`handleTimerTick`, `doSleep` and `doExit` each prepare the contexts, pick, and switch; the parts
before and after the pick are definitions of their own (`accountTick` and `endTick`, `beforeSleep`
and `endSleep`, `beforeExit` and `endExit`).

The interrupt frame is pushed by the processor and the prologue of the handler, so word `rbp` of
the stack holds the interrupted `%rbp` and the words above it `rip`, `cs`, `rflags`, `rsp` and `ss`.
The compiler may reserve any number of words for locals before the handler pushes the registers.
For `do_sleep` and `do_exit` the words of the OS stack page, which the system-call stub lays out,
and the place of their own frame, five words or more below its top, are arguments. The last
instructions of the three functions load the registers of the picked context and pop the rest in
`iretq`: `resume` returns what is loaded.
-/

set_option autoImplicit false
set_option relaxedAutoImplicit false

namespace OsAssignments.Scheduler

/-! ### The pick -/

/-- The three callers of the pick, `enum type`. -/
inductive PickType
  | timer
  | sleeping
  | doExit
  deriving DecidableEq

/-- One of the two loops of `pick_next_context`: it leaves at a `READY` context, and otherwise
carries `is_wait`. -/
def scan (ctx : Fin 16 → ExecContext) : List (Fin 16) → Bool → Except (Fin 16) Bool
  | [], isWait => .ok isWait
  | i :: rest, isWait =>
    if (ctx i).state = .ready then .error i
    else scan ctx rest (if (ctx i).state = .waiting then true else isWait)

/-- The pids of the first loop, `curr_pid + 1` to 15. -/
def pidsAbove (curr : Fin 16) : List (Fin 16) := (List.finRange 16).filter fun i ↦ curr < i

/-- The pids of the second loop, 1 to `curr_pid - 1`. -/
def pidsBelow (curr : Fin 16) : List (Fin 16) :=
  (List.finRange 16).filter fun i ↦ 1 ≤ i ∧ i < curr

/-- What is picked when no context is `READY`; `none` is the call of `do_cleanup`. -/
def fallback (type : PickType) (curr : Fin 16) (isWait : Bool) : Option (Fin 16) :=
  match type with
  | .timer => if curr ≠ 0 then some curr else if isWait then some 0 else none
  | .sleeping => some 0
  | .doExit => if isWait then some 0 else none

/-- `pick_next_context`. -/
def pickNextContext (type : PickType) (k : Kernel) : Option (Fin 16) :=
  match scan k.ctx (pidsAbove k.current) false with
  | .error i => some i
  | .ok isWait =>
    match scan k.ctx (pidsBelow k.current) isWait with
    | .error i => some i
    | .ok isWait => fallback type k.current isWait

/-- A pick and what its caller does with the context it returns. -/
def dispatch (type : PickType) (finish : Fin 16 → Kernel → UserRegs × Kernel) (k : Kernel) :
    Except Halt (UserRegs × Kernel) :=
  match pickNextContext type k with
  | none => .error .cleanup
  | some new => .ok (finish new k)

/-! ### Saving and loading registers -/

/-- The interrupt frame and the saved `%rbp`, from word `sp` on: `%rbp` then is word `sp + 5`. -/
def interruptFrame (user : UserRegs) (sp : ℕ) (st : Stack) : Stack :=
  pushes [user .entrySs, user .entryRsp, user .entryRflags, user .entryCs, user .entryRip,
    user .rbp] sp st

/-- The registers the handler pushes, from word `sp` on: `save_rsp` then is word `sp + 13`. -/
def pushRegisters (user : UserRegs) (sp : ℕ) (st : Stack) : Stack :=
  pushes [user .r8, user .r9, user .r10, user .r11, user .r12, user .r13, user .r14, user .r15,
    user .rax, user .rbx, user .rcx, user .rdx, user .rdi, user .rsi] sp st

/-- `SAVING THE CURRENT CONTEXT` in `handle_timer_tick`; the pops at its end read the same words. -/
def saveContext (st : Stack) (rbp saveRsp : ℕ) : UserRegs
  | .rsi => above st saveRsp 0
  | .rdi => above st saveRsp 1
  | .rdx => above st saveRsp 2
  | .rcx => above st saveRsp 3
  | .rbx => above st saveRsp 4
  | .rax => above st saveRsp 5
  | .r15 => above st saveRsp 6
  | .r14 => above st saveRsp 7
  | .r13 => above st saveRsp 8
  | .r12 => above st saveRsp 9
  | .r11 => above st saveRsp 10
  | .r10 => above st saveRsp 11
  | .r9 => above st saveRsp 12
  | .r8 => above st saveRsp 13
  | .entrySs => above st rbp 5
  | .entryRsp => above st rbp 4
  | .entryRflags => above st rbp 3
  | .entryCs => above st rbp 2
  | .entryRip => above st rbp 1
  | .rbp => above st rbp 0

/-- The words `%rbp` to `40(%rbp)` after the frame of a context is written there. -/
def writeFrame (regs : UserRegs) (rbp : ℕ) (st : Stack) : Stack :=
  let st := Function.update st rbp (regs .rbp)
  let st := Function.update st (rbp - 1) (regs .entryRip)
  let st := Function.update st (rbp - 2) (regs .entryCs)
  let st := Function.update st (rbp - 3) (regs .entryRflags)
  let st := Function.update st (rbp - 4) (regs .entryRsp)
  Function.update st (rbp - 5) (regs .entrySs)

/-- The registers after the moves from `regs`, `pop %rbp` and `iretq`. -/
def resume (regs : UserRegs) (rbp : ℕ) (st : Stack) : UserRegs
  | .rbp => above st rbp 0
  | .entryRip => above st rbp 1
  | .entryCs => above st rbp 2
  | .entryRflags => above st rbp 3
  | .entryRsp => above st rbp 4
  | .entrySs => above st rbp 5
  | r => regs r

/-- The switch to a context at the end of the three functions: its frame is written over the frame
of the function, and it becomes the current one. -/
def switchTo (new : Fin 16) (rbp : ℕ) (k : Kernel) : UserRegs × Kernel :=
  let st := writeFrame (k.ctx new).regs rbp k.stack
  (resume (k.ctx new).regs rbp st, { k.setStack st with current := new })

/-! ### Signals and alarms -/

/-- `invoke_sync_signal`: the new user stack pointer and instruction pointer; `none` is the call of
`do_exit`, which does not come back. -/
def invokeSyncSignal (signo : Signal) (ustackp urip : BitVec 64) (k : Kernel) :
    Option (BitVec 64 × BitVec 64 × Kernel) :=
  let k := { k with signals := k.signals + 1 }
  let handler := (k.ctx k.current).sighandlers signo
  if handler = 0 then
    if signo ≠ .alrm then none else some (ustackp, urip, k)
  else
    let ustackp := ustackp - 8
    some (ustackp, handler, { k with userMem := Function.update k.userMem ustackp urip })

/-- The alarm part of `handle_timer_tick`; it is tested for the init process only. -/
def alarmTick (ustackp urip : BitVec 64) (k : Kernel) : BitVec 64 × BitVec 64 × Kernel :=
  let init := k.ctx 1
  if 1 ≤ init.ticksToAlarm then
    if init.ticksToAlarm - 1 = 0 then
      let k := k.setCtx 1 { init with ticksToAlarm := init.alarmConfigTime }
      (invokeSyncSignal .alrm ustackp urip k).getD (ustackp, urip, k)
    else (ustackp, urip, k.setCtx 1 { init with ticksToAlarm := init.ticksToAlarm - 1 })
  else (ustackp, urip, k)

/-- `do_signal`. -/
def doSignal (signo : Signal) (handler : BitVec 64) (k : Kernel) : Kernel :=
  let current := k.ctx k.current
  k.setCtx k.current
    { current with sighandlers := Function.update current.sighandlers signo handler }

/-- `do_alarm`. -/
def doAlarm (ticks : ℕ) (k : Kernel) : Kernel :=
  k.setCtx k.current { k.ctx k.current with ticksToAlarm := ticks, alarmConfigTime := ticks }

/-! ### The timer tick -/

/-- One turn of the loop that counts sleeping contexts down. -/
def wakeOne (k : Kernel) (i : Fin 16) : Kernel :=
  let itr := k.ctx i
  if 1 ≤ itr.ticksToSleep then
    let itr := { itr with ticksToSleep := itr.ticksToSleep - 1 }
    k.setCtx i (if itr.ticksToSleep = 0 then { itr with state := .ready } else itr)
  else k

/-- `handle_timer_tick` up to the pick: the frame and the registers are on the stack, alarms and
sleepers are accounted for, and the current context is `READY`. -/
def accountTick (user : UserRegs) (sp locals : ℕ) (k : Kernel) : Kernel :=
  let rbp := sp + 5
  let st := pushRegisters user (rbp + 1 + locals) (interruptFrame user sp k.stack)
  let k := { k with numticks := k.numticks + 1 }
  let (ustackp, urip, k) := alarmTick (above st rbp 4) (above st rbp 1) k
  let st := Function.update st (rbp - 1) urip
  let st := Function.update st (rbp - 4) ustackp
  let k := k.setStack st
  let k := (List.finRange 16).foldl wakeOne k
  k.setState k.current .ready

/-- `handle_timer_tick` after its pick: it saves the current context and switches to another one, or
goes back with what is on the stack. -/
def endTick (rbp saveRsp : ℕ) (new : Fin 16) (k : Kernel) : UserRegs × Kernel :=
  let saved := saveContext k.stack rbp saveRsp
  let k := k.setState new .running
  if new ≠ k.current then switchTo new rbp (k.setRegs k.current saved)
  else (saved, k)

/-- `handle_timer_tick`: the registers loaded at its end. -/
def handleTimerTick (user : UserRegs) (sp locals : ℕ) (k : Kernel) :
    Except Halt (UserRegs × Kernel) :=
  dispatch .timer (endTick (sp + 5) (sp + 19 + locals)) (accountTick user sp locals k)

/-! ### Exit, sleep and clone -/

/-- `do_exit` up to the pick. -/
def beforeExit (frame : Stack) (k : Kernel) : Kernel :=
  (k.setStack frame).setState k.current .unused

/-- `do_exit` after its pick. -/
def endExit (rbp : ℕ) (new : Fin 16) (k : Kernel) : UserRegs × Kernel :=
  let k := k.setState new .running
  switchTo new rbp { k with freed := (k.ctx k.current).osStackPfn :: k.freed }

/-- `do_exit`, with the words of the OS stack page; `%rbp` is word `sp + 5`. -/
def doExit (frame : Stack) (sp : ℕ) (k : Kernel) : Except Halt (UserRegs × Kernel) :=
  dispatch .doExit (endExit (sp + 5)) (beforeExit frame k)

/-- What `do_sleep` stores in `current->regs`: six fields, from the top of the OS stack page. -/
def saveSleeper (frame : Stack) (regs : UserRegs) : UserRegs
  | .rbp => frame 10
  | .entryRip => frame 4
  | .entryRflags => frame 2
  | .entryRsp => frame 1
  | .entryCs => 0x23
  | .entrySs => 0x2b
  | r => regs r

/-- `do_sleep` up to the pick. -/
def beforeSleep (ticks : ℕ) (frame : Stack) (k : Kernel) : Kernel :=
  let current := k.ctx k.current
  (k.setStack frame).setCtx k.current
    { current with
      ticksToSleep := ticks
      state := .waiting
      regs := saveSleeper frame current.regs }

/-- `do_sleep` after its pick. -/
def endSleep (rbp : ℕ) (new : Fin 16) (k : Kernel) : UserRegs × Kernel :=
  switchTo new rbp (k.setState new .running)

/-- `do_sleep`, with the words of the OS stack page; `%rbp` is word `sp + 5`. -/
def doSleep (ticks : ℕ) (frame : Stack) (sp : ℕ) (k : Kernel) :
    Except Halt (UserRegs × Kernel) :=
  dispatch .sleeping (endSleep (sp + 5)) (beforeSleep ticks frame k)

/-- The OS stack frame that `do_clone` reads: `init->os_stack_pfn`, after the frame of the new
context is stored, which is the same field when slot 1 is given out again. -/
def cloneFrame (new : Fin 16) (pfn : BitVec 32) (k : Kernel) : BitVec 32 :=
  if new = 1 then pfn else (k.ctx 1).osStackPfn

/-- `do_clone`, with the context that `get_new_ctx` returns and the frame of its OS stack. -/
def doClone (new : Fin 16) (pfn : BitVec 32) (thFunc userStack : BitVec 64) (k : Kernel) :
    Kernel :=
  let init := k.ctx 1
  let regs := Function.update init.regs .entryCs 0x23
  let regs := Function.update regs .entrySs 0x2b
  let regs := Function.update regs .entryRip thFunc
  let regs := Function.update regs .entryRsp userStack
  let regs := Function.update regs .rbp (regs .entryRsp)
  let regs := Function.update regs .entryRflags (k.osMem (cloneFrame new pfn k) 2)
  k.setCtx new
    { type := init.type
      state := .ready
      usedMem := init.usedMem
      pgd := init.pgd
      osStackPfn := pfn
      osRsp := init.osRsp
      mms := init.mms
      regs := regs
      pendingSignalBitmap := 0
      sighandlers := init.sighandlers
      ticksToSleep := 0
      alarmConfigTime := 0
      ticksToAlarm := 0 }

/-! ### Steps -/

/-- What can happen while a process runs. -/
inductive Event
  | tick (user : UserRegs) (sp locals : ℕ)
  | sleep (ticks : ℕ) (frame : Stack) (sp : ℕ)
  | exit (frame : Stack) (sp : ℕ)
  | clone (new : Fin 16) (pfn : BitVec 32) (thFunc userStack : BitVec 64)
  | signal (signo : Signal) (handler : BitVec 64)
  | alarm (ticks : ℕ)

/-- One event, with the registers loaded when it ends in `iretq`. -/
def step : Event → Kernel → Except Halt (Option UserRegs × Kernel)
  | .tick user sp locals, k =>
    (handleTimerTick user sp locals k).map fun (regs, k) ↦ (some regs, k)
  | .sleep ticks frame sp, k => (doSleep ticks frame sp k).map fun (regs, k) ↦ (some regs, k)
  | .exit frame sp, k => (doExit frame sp k).map fun (regs, k) ↦ (some regs, k)
  | .clone new pfn thFunc userStack, k => .ok (none, doClone new pfn thFunc userStack k)
  | .signal signo handler, k => .ok (none, doSignal signo handler k)
  | .alarm ticks, k => .ok (none, doAlarm ticks k)

end OsAssignments.Scheduler
