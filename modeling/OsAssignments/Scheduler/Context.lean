import Mathlib

/-!
# Execution contexts, registers and stacks of gemOS

The data of the process scheduler: the contexts of the sixteen processes, the saved user registers
and the OS stack pages. A stack page is the sequence of its 8-byte words, counted from the top of
the page downwards, so that a push moves to the next word and `8 * n` bytes above an address is `n`
words before it. The tick counters are natural numbers: the code decrements them only where they
are positive.

`Kernel.setCtx`, `Kernel.setState` and `Kernel.setRegs` are the assignments through a context
pointer. The process name, which is built by `do_clone` and only printed, is left out, and so are
the printed texts.
-/

set_option autoImplicit false
set_option relaxedAutoImplicit false

namespace OsAssignments.Scheduler

/-! ### Data -/

/-- The states of a process, `enum process_state`. -/
inductive ProcessState
  | unused
  | new
  | ready
  | running
  | waiting
  | exiting
  deriving DecidableEq

/-- The signals, `enum signals`. -/
inductive Signal
  | segv
  | fpe
  | alrm
  deriving DecidableEq

/-- The fields of `struct user_regs`. -/
inductive Reg
  | r15
  | r14
  | r13
  | r12
  | r11
  | r10
  | r9
  | r8
  | rbp
  | rdi
  | rsi
  | rdx
  | rcx
  | rbx
  | rax
  | entryRip
  | entryCs
  | entryRflags
  | entryRsp
  | entrySs
  deriving DecidableEq

/-- `struct user_regs`: a value for each field. -/
abbrev UserRegs := Reg → BitVec 64

/-- `struct mm_segment`. -/
structure MmSegment where
  start : BitVec 64
  stop : BitVec 64
  nextFree : BitVec 64
  accessFlags : BitVec 32

instance neZero_processes : NeZero 16 := ⟨by norm_num⟩

/-- `struct exec_context`; the pid of a context is its position in the list of contexts. -/
structure ExecContext where
  type : BitVec 8
  state : ProcessState
  usedMem : BitVec 16
  pgd : BitVec 32
  osStackPfn : BitVec 32
  osRsp : BitVec 64
  mms : Fin 4 → MmSegment
  regs : UserRegs
  pendingSignalBitmap : BitVec 32
  sighandlers : Signal → BitVec 64
  ticksToSleep : ℕ
  alarmConfigTime : ℕ
  ticksToAlarm : ℕ

/-- The words of an OS stack page from its top downwards. -/
abbrev Stack := ℕ → BitVec 64

/-- The contexts, the current one and the memory the scheduler touches. The last two components
are ghost records: the stack frames freed and the number of calls of `invoke_sync_signal`. -/
structure Kernel where
  ctx : Fin 16 → ExecContext
  current : Fin 16
  numticks : ℕ
  osMem : BitVec 32 → Stack
  userMem : BitVec 64 → BitVec 64
  freed : List (BitVec 32)
  signals : ℕ

/-- `do_cleanup` does not return. -/
inductive Halt
  | cleanup
  deriving DecidableEq

/-- A context in a given state, with all registers, counters and addresses zero. -/
def zeroContext (state : ProcessState) : ExecContext where
  type := 0
  state := state
  usedMem := 0
  pgd := 0
  osStackPfn := 0
  osRsp := 0
  mms := fun _ ↦ ⟨0, 0, 0, 0⟩
  regs := fun _ ↦ 0
  pendingSignalBitmap := 0
  sighandlers := fun _ ↦ 0
  ticksToSleep := 0
  alarmConfigTime := 0
  ticksToAlarm := 0

/-- A kernel with given contexts and zero memory. -/
def zeroKernel (ctx : Fin 16 → ExecContext) (current : Fin 16) : Kernel where
  ctx := ctx
  current := current
  numticks := 0
  osMem := fun _ _ ↦ 0
  userMem := fun _ ↦ 0
  freed := []
  signals := 0

/-! ### Assignments -/

namespace Kernel

/-- The kernel after a context is overwritten. -/
def setCtx (k : Kernel) (i : Fin 16) (c : ExecContext) : Kernel :=
  { k with ctx := Function.update k.ctx i c }

/-- The kernel after the state of a context is assigned. -/
def setState (k : Kernel) (i : Fin 16) (state : ProcessState) : Kernel :=
  k.setCtx i { k.ctx i with state := state }

/-- The kernel after the saved registers of a context are assigned. -/
def setRegs (k : Kernel) (i : Fin 16) (regs : UserRegs) : Kernel :=
  k.setCtx i { k.ctx i with regs := regs }

/-- The words of the OS stack page of the current context. -/
def stack (k : Kernel) : Stack := k.osMem (k.ctx k.current).osStackPfn

/-- The kernel after the OS stack page of the current context is overwritten. -/
def setStack (k : Kernel) (stack : Stack) : Kernel :=
  { k with osMem := Function.update k.osMem (k.ctx k.current).osStackPfn stack }

variable (k : Kernel) (i j : Fin 16) (c : ExecContext) (state : ProcessState) (st : Stack)
  (regs : UserRegs)

@[simp] theorem setCtx_ctx : (k.setCtx i c).ctx = Function.update k.ctx i c := rfl

@[simp] theorem setStack_ctx : (k.setStack st).ctx = k.ctx := rfl

theorem setState_ctx : (k.setState i state).ctx j =
    { k.ctx j with state := if j = i then state else (k.ctx j).state } := by
  by_cases hj : j = i
  · rw [if_pos hj, hj]
    exact Function.update_self ..
  · rw [if_neg hj]
    exact Function.update_of_ne hj ..

theorem setRegs_ctx : (k.setRegs i regs).ctx j =
    { k.ctx j with regs := if j = i then regs else (k.ctx j).regs } := by
  by_cases hj : j = i
  · rw [if_pos hj, hj]
    exact Function.update_self ..
  · rw [if_neg hj]
    exact Function.update_of_ne hj ..

end Kernel

/-! ### Stack words -/

/-- The words a sequence of pushes leaves from word `sp` on. -/
def pushes (vs : List (BitVec 64)) (sp : ℕ) (st : Stack) : Stack :=
  match vs with
  | [] => st
  | v :: vs => pushes vs (sp + 1) (Function.update st sp v)

/-- The word `8 * n` bytes above the address of word `base`: `8 * n (base)` in the assembly. -/
def above (st : Stack) (base n : ℕ) : BitVec 64 := st (base - n)

theorem pushes_of_lt {vs : List (BitVec 64)} {sp m : ℕ} {st : Stack} (h : m < sp) :
    pushes vs sp st m = st m := by
  induction vs generalizing sp st with
  | nil => rfl
  | cons v vs ih =>
    rw [pushes, ih (Nat.lt_succ_of_lt h), Function.update_of_ne h.ne]

/-- A pushed word is read back at its place. -/
theorem pushes_apply {vs : List (BitVec 64)} {sp m : ℕ} {st : Stack} (h : m < vs.length) :
    pushes vs sp st (sp + m) = vs.getD m 0 := by
  induction vs generalizing sp st m with
  | nil => exact absurd h (Nat.not_lt_zero m)
  | cons v vs ih =>
    cases m with
    | zero =>
      change pushes vs (sp + 1) (Function.update st sp v) sp = v
      rw [pushes_of_lt (Nat.lt_succ_self sp), Function.update_self]
    | succ m =>
      rw [pushes, show sp + (m + 1) = sp + 1 + m by omega, ih (Nat.lt_of_succ_lt_succ h),
        List.getD_cons_succ]

end OsAssignments.Scheduler
