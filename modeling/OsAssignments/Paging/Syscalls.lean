import OsAssignments.Paging.ContextMm

/-!
# System calls and page faults

The functions of the second assignment's `entry.c`. A segment now has a `next_free`:
`SYSCALL_EXPAND` and `SYSCALL_SHRINK` move it, `handle_page_fault` maps the page of an address below
it when it is first touched, and `SYSCALL_SHRINK` unmaps the pages it gives back. The case of
`SYSCALL_WRITE` has no `break` and goes on with that of `SYSCALL_EXPAND`.

`size` is a 32-bit number and so is `size * 4096`; the counter of the loop of `SYSCALL_SHRINK` and
its product with 4096 are signed 32-bit numbers, which wrap and are sign-extended. The counter has
`2 ^ 32` values, so a loop that has not ended after as many turns never does.
-/

set_option autoImplicit false
set_option relaxedAutoImplicit false

namespace OsAssignments.Paging.Syscalls

open OsAssignments.Library
open ContextMm (MmSeg indices permit descend oldTable)

/-! ### Processes -/

/-- `struct mm_segment`. -/
structure MmSegment where
  start : BitVec 64
  stop : BitVec 64
  nextFree : BitVec 64
  accessFlags : BitVec 32

/-- `struct exec_context`, as far as the functions here use it. -/
structure ExecContext where
  id : BitVec 32
  pgd : Pfn
  mms : MmSeg → MmSegment

/-- What the kernel prints: a character of a process, or the report of a page fault. -/
inductive Printed
  | char (c : BitVec 8)
  | fault (rip virtualAdd errorCode : BitVec 64)

/-- The current context, the machine, and what has been printed, newest first. -/
structure State where
  current : ExecContext
  machine : Machine
  output : List Printed

/-- What happens instead of a return: `do_exit` is called, or a loop never ends. -/
inductive Stop
  | exit (s : State)
  | hang

/-- The segment after its `next_free` is set. -/
def MmSegment.setNextFree (m : MmSegment) (nextFree : BitVec 64) : MmSegment :=
  { m with nextFree := nextFree }

/-- `current->mms[seg].next_free = nextFree`. -/
def State.setNextFree (s : State) (seg : MmSeg) (nextFree : BitVec 64) : State :=
  { s with current :=
      { s.current with
        mms := Function.update s.current.mms seg ((s.current.mms seg).setNextFree nextFree) } }

/-- The machine of a process after some kernel function. -/
def State.setMachine (s : State) (machine : Machine) : State := { s with machine := machine }

/-- `MAP_RD`. -/
def mapRd : BitVec 32 := 0x0

/-- The segment that the flags of a call select. -/
def selected (flags : BitVec 32) : MmSeg := if flags = mapRd then .rodata else .data

/-! ### The system calls -/

/-- The case `SYSCALL_EXPAND`. -/
def expand (param1 param2 : BitVec 64) (s : State) : Except Stop (BitVec 64 × State) :=
  let size : BitVec 32 := param1.setWidth 32
  let flags : BitVec 32 := param2.setWidth 32
  if 512 < size then .ok (0, s)
  else
    let m := s.current.mms (selected flags)
    let nextFree := m.nextFree
    if m.stop < nextFree + (size * 4096).setWidth 64 - 1 then .ok (0, s)
    else .ok (nextFree, s.setNextFree (selected flags) (nextFree + (size * 4096).setWidth 64))

/-- The walk of `SYSCALL_WRITE` for one address: whether all its entries are present. -/
def checkLevels : List ℕ → Pfn → Machine → Bool × Machine
  | [], _, s => (true, s)
  | [i], l1, s =>
    let (e, s) := s.load l1 i
    (e &&& 0x1 ≠ 0, s)
  | i :: rest, table, s =>
    let (e, s) := s.load table i
    if e &&& 0x1 = 0 then (false, s)
    else
      let (below, s) := oldTable table i s
      checkLevels rest below s

/-- The case `SYSCALL_WRITE`, in a process whose memory is `memory`. The second address is checked
when it is on a later page than the first. -/
def write (memory : BitVec 64 → BitVec 8) (param1 param2 : BitVec 64) (s : State) :
    Except Stop (BitVec 64 × State) :=
  let buff := param1
  let length : BitVec 32 := param2.setWidth 32
  if 1024 < length then .ok (-1, s)
  else
    let (first, machine) := checkLevels (indices param1) s.current.pgd s.machine
    let s := s.setMachine machine
    if first = false then .ok (-1, s)
    else
      let last := param1 + length.setWidth 64 - 1
      let (second, machine) :=
        if param1 / 4096 < last / 4096 then checkLevels (indices last) s.current.pgd s.machine
        else (true, s.machine)
      let s := s.setMachine machine
      if second = false then .ok (-1, s)
      else
        let chars := (List.range length.toNat).map fun i ↦
          Printed.char (memory (buff + BitVec.ofNat 64 i))
        -- there is no `break` here
        expand param1 param2 { s with output := chars.reverse ++ s.output }

/-- The walk of `SYSCALL_SHRINK` for one page: the page is freed and its entry cleared, if it is
there. -/
def shrinkLevels : List ℕ → Pfn → Machine → Machine
  | [], _, s => s
  | [i], l1, s =>
    let (e, s) := s.load l1 i
    if e &&& 0x1 = 1 then
      let (e, s) := s.load l1 i
      let s := osPfnFree .user e.pfn s
      s.and l1 i 0x0
    else s
  | i :: rest, table, s =>
    let (e, s) := s.load table i
    if e &&& 0x1 = 0 then s
    else
      let (below, s) := oldTable table i s
      shrinkLevels rest below s

/-- The address of a turn of the loop of `SYSCALL_SHRINK`. -/
def shrinkAdd (nextFree : BitVec 64) (i : BitVec 32) : BitVec 64 :=
  nextFree - (i * 4096).signExtend 64

/-- The loop of `SYSCALL_SHRINK`, from a value of the counter on; no result when it has not ended
after the given number of turns. -/
def shrinkLoop (pgd : Pfn) (nextFree : BitVec 64) (size : BitVec 32) :
    ℕ → BitVec 32 → Machine → Option Machine
  | 0, _, _ => none
  | turns + 1, i, s =>
    if i ≤ size then
      shrinkLoop pgd nextFree size turns (i + 1)
        (shrinkLevels (indices (shrinkAdd nextFree i)) pgd s)
    else some s

/-- The case `SYSCALL_SHRINK`. -/
def shrink (param1 param2 : BitVec 64) (s : State) : Except Stop (BitVec 64 × State) :=
  let size : BitVec 32 := param1.setWidth 32
  let flags : BitVec 32 := param2.setWidth 32
  let m := s.current.mms (selected flags)
  let nextFree := m.nextFree
  if nextFree - (size * 4096).setWidth 64 < m.start then .ok (0, s)
  else
    match shrinkLoop s.current.pgd nextFree size (2 ^ 32) 1 s.machine with
    | none => .error .hang
    | some machine =>
      let lowered := nextFree - (size * 4096).setWidth 64
      .ok (lowered, (s.setMachine machine).setNextFree (selected flags) lowered)

/-- `SYSCALL_EXIT` to `SYSCALL_SHRINK`. -/
def syscallExit : BitVec 32 := 1

def syscallGetpid : BitVec 32 := 2

def syscallWrite : BitVec 32 := 3

def syscallExpand : BitVec 32 := 4

def syscallShrink : BitVec 32 := 5

/-- `do_syscall`; `param3` and `param4` are not used. -/
def doSyscall (memory : BitVec 64 → BitVec 8) (syscall : BitVec 32) (param1 param2 : BitVec 64)
    (s : State) : Except Stop (BitVec 64 × State) :=
  if syscall = syscallExit then .error (.exit s)
  else if syscall = syscallGetpid then .ok (s.current.id.setWidth 64, s)
  else if syscall = syscallWrite then write memory param1 param2 s
  else if syscall = syscallExpand then expand param1 param2 s
  else if syscall = syscallShrink then shrink param1 param2 s
  else .ok (-1, s)

/-! ### Page faults -/

/-- The first level of `allocate`. -/
def mapPage (frames : ℕ → Pfn) (flag : BitVec 32) (l1 : Pfn) (i : ℕ) (s : Machine) : Machine :=
  let (e, s) := s.load l1 i
  if e &&& 0x1 = 1 then s
  else
    let (a, s) := osPfnAlloc frames .user s
    let s := s.or l1 i (shifted a)
    permit flag l1 i (s.or l1 i 0x5)

/-- The loop of `allocate` over the levels. -/
def allocateLevels (frames : ℕ → Pfn) (flag : BitVec 32) : List ℕ → Pfn → Machine → Machine
  | [], _, s => s
  | [i], l1, s => mapPage frames flag l1 i s
  | i :: rest, table, s =>
    let (below, s) := descend frames flag table i s
    allocateLevels frames flag rest below s

/-- `allocate`. -/
def allocate (frames : ℕ → Pfn) (virtualAdd : BitVec 64) (m : MmSegment) (s : State) : State :=
  s.setMachine (allocateLevels frames m.accessFlags (indices virtualAdd) s.current.pgd s.machine)

/-- `check_present`: the segment of an address, where the source returns 1, 2 and 3 for data,
read-only data and stack, and -1 for none. The stack includes its end. -/
def checkPresent (virtualAdd : BitVec 64) (current : ExecContext) : Option MmSeg :=
  let m := current.mms .data
  if virtualAdd < m.nextFree ∧ m.start ≤ virtualAdd then some .data
  else
    let m := current.mms .rodata
    if virtualAdd < m.nextFree ∧ m.start ≤ virtualAdd then some .rodata
    else
      let m := current.mms .stack
      if virtualAdd ≤ m.stop ∧ m.start ≤ virtualAdd then some .stack else none

/-- The report of a fault, and `do_exit`. -/
def refuse (rip virtualAdd errorCode : BitVec 64) (s : State) : Except Stop State :=
  .error (.exit { s with output := .fault rip virtualAdd errorCode :: s.output })

/-- `handle_page_fault`, for the values that the processor leaves on the stack and in `cr2`. -/
def handlePageFault (frames : ℕ → Pfn) (rip virtualAdd errorCode : BitVec 64) (s : State) :
    Except Stop State :=
  if errorCode &&& 0x1 = 1 then refuse rip virtualAdd errorCode s
  else
    match checkPresent virtualAdd s.current with
    | none => refuse rip virtualAdd errorCode s
    | some .data => .ok (allocate frames virtualAdd (s.current.mms .data) s)
    | some .rodata =>
      if errorCode &&& 0x2 = 2 then refuse rip virtualAdd errorCode s
      else .ok (allocate frames virtualAdd (s.current.mms .rodata) s)
    | some _ => .ok (allocate frames virtualAdd (s.current.mms .stack) s)

end OsAssignments.Paging.Syscalls
