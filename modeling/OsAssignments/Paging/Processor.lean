import OsAssignments.Library.Traces
import OsAssignments.Library.VirtualMemory
import OsAssignments.Paging.WriteCalls
import OsAssignments.Paging.Accounting

/-!
# A process and its memory

What a process does between two system calls is load and store bytes. The processor translates each
address, with a translation that it has kept or by the page tables; where that fails it enters
`handle_page_fault`, and when the handler returns it tries again. `Op.run` is a load, a store, a
call of `do_syscall`, or a moment at which the processor keeps a translation or drops one, which it
may do at any time. The bits for accessed and written pages, which the processor sets in the
entries, are left out.

`Op.answers` is the same without page tables, frames and faults. A `Space` has pages with bytes; a
page comes into being when it is first used, with any bytes, and goes when it is given back.
-/

set_option autoImplicit false
set_option relaxedAutoImplicit false

namespace OsAssignments.Paging.Syscalls

open OsAssignments.Library
open ContextMm (MmSeg indices hardwareWalk)

/-! ### The processor -/

/-- The page of an address. -/
def pageOf (va : BitVec 64) : ℕ := va.toNat / 4096

/-- The byte of an address in its page. -/
def offsetOf (va : BitVec 64) : ℕ := va.toNat % 4096

/-- The translation of an address by the page tables. -/
def walked (m : Tables) (pgd : Pfn) (va : BitVec 64) : Option (Translation Pfn) :=
  (hardwareWalk m pgd va).bind fun es ↦ es.getLast?.map fun e ↦
    ⟨e.pfn, es.all fun e ↦ decide e.User, es.all fun e ↦ decide e.Writable⟩

/-- A process with the frames behind its page tables, and the translations that the processor has
kept. -/
structure Process where
  state : State
  ram : Pfn → ℕ → BitVec 8
  tlb : ℕ → Option (Translation Pfn)

/-- The error code of a page fault of the process. -/
def faultCode (present write : Bool) : BitVec 64 :=
  0x4 ||| (if write then 0x2 else 0x0) ||| (if present then 0x1 else 0x0)

namespace Process

/-- The translation that the processor uses for an address. -/
def translation (p : Process) (va : BitVec 64) : Option (Translation Pfn) :=
  (p.tlb (pageOf va)).or (walked p.state.machine.tables p.state.current.pgd va)

/-- One attempt of an access: the frame, or the error code of a page fault. -/
def attempt (write : Bool) (va : BitVec 64) (p : Process) : Except (BitVec 64) Pfn :=
  (p.translation va).elim (.error (faultCode false write)) fun e ↦
    if e.user ∧ (write → e.writable) then .ok e.frame else .error (faultCode true write)

/-- The process in another state of the kernel. -/
def setState (p : Process) (state : State) : Process := { p with state := state }

/-- An access, attempted again after each page fault from which the handler returns. -/
def touch (frames : ℕ → Pfn) (rip va : BitVec 64) (write : Bool) :
    ℕ → Process → Except Stop (Option Pfn × Process)
  | 0, p => .ok (none, p)
  | attempts + 1, p =>
    match p.attempt write va with
    | .ok f => .ok (some f, p)
    | .error errorCode =>
      match handlePageFault frames rip va errorCode p.state with
      | .error stop => .error stop
      | .ok state => touch frames rip va write attempts (p.setState state)

/-- The memory as the kernel reads it for the process. -/
def memory (p : Process) (va : BitVec 64) : BitVec 8 :=
  (p.translation va).elim 0 fun e ↦ p.ram e.frame (offsetOf va)

/-- The process after a byte of a frame is written. -/
def poke (p : Process) (f : Pfn) (offset : ℕ) (b : BitVec 8) : Process :=
  { p with ram := Function.update p.ram f (Function.update (p.ram f) offset b) }

/-- The process after the processor drops its translations for some pages. -/
def forget (D : ℕ → Prop) [DecidablePred D] (p : Process) : Process :=
  { p with tlb := VirtualMemory.drop D p.tlb }

/-- The process after the processor keeps the translation of an address. -/
def remember (va : BitVec 64) (p : Process) : Process :=
  { p with
    tlb := Function.update p.tlb (pageOf va)
      (walked p.state.machine.tables p.state.current.pgd va) }

end Process

/-- The operands of `invlpg` in the loop of `SYSCALL_SHRINK`. -/
def shrinkLoopInvlpg (pgd : Pfn) (nextFree : BitVec 64) (size : BitVec 32) :
    ℕ → BitVec 32 → Machine → List (BitVec 64)
  | 0, _, _ => []
  | turns + 1, i, s =>
    if i ≤ size then
      (if (walk s.tables (indices (shrinkAdd nextFree i)) pgd).isSome then [shrinkAdd nextFree i]
        else []) ++
      shrinkLoopInvlpg pgd nextFree size turns (i + 1)
        (shrinkLevels (indices (shrinkAdd nextFree i)) pgd s)
    else []

/-- The operands of `invlpg` in a system call. -/
def invlpg (syscall : BitVec 32) (param1 param2 : BitVec 64) (s : State) : List (BitVec 64) :=
  let size : BitVec 32 := param1.setWidth 32
  let m := s.current.mms (selected (param2.setWidth 32))
  if syscall = syscallShrink ∧ ¬m.nextFree - (size * 4096).setWidth 64 < m.start then
    shrinkLoopInvlpg s.current.pgd m.nextFree size (2 ^ 32) 1 s.machine
  else []

/-! ### What a process does -/

/-- A load, a store, a system call, or the processor keeps a translation or drops one. -/
inductive Op
  | load (rip va : BitVec 64)
  | store (rip va : BitVec 64) (b : BitVec 8)
  | syscall (number : BitVec 32) (param1 param2 : BitVec 64)
  | keep (va : BitVec 64)
  | drop (va : BitVec 64)

/-- What comes of it: a value, or nothing, or the process has exited. It must not be faulting for
ever, nor hang in the kernel. -/
inductive Reply
  | byte (b : BitVec 8)
  | done
  | value (v : BitVec 64)
  | exited
  | faulting
  | hung
  deriving DecidableEq

/-- A process, which may have exited. -/
structure Session where
  process : Process
  gone : Bool

/-- The session of a process that goes on. -/
def Session.on (p : Process) : Session := ⟨p, false⟩

/-- A process that stops. -/
def Process.stop (p : Process) : Stop → Reply × Session
  | .exit s => (.exited, ⟨p.setState s, true⟩)
  | .hang => (.hung, ⟨p, true⟩)

/-- An access with a use of the frame. -/
def Process.access (frames : ℕ → Pfn) (attempts : ℕ) (rip va : BitVec 64) (write : Bool)
    (use : Pfn → Process → Reply × Process) (p : Process) : Reply × Session :=
  match p.touch frames rip va write attempts with
  | .error stop => p.stop stop
  | .ok (none, p) => (.faulting, .on p)
  | .ok (some f, p) => ((use f p).1, .on (use f p).2)

/-- What the process and the processor do. -/
def Op.act (frames : ℕ → Pfn) (attempts : ℕ) : Op → Process → Reply × Session
  | load rip va, p =>
    p.access frames attempts rip va false fun f p ↦ (.byte (p.ram f (offsetOf va)), p)
  | store rip va b, p =>
    p.access frames attempts rip va true fun f p ↦ (.done, p.poke f (offsetOf va) b)
  | syscall number param1 param2, p =>
    match doSyscall p.memory number param1 param2 p.state with
    | .error stop => p.stop stop
    | .ok (v, state) =>
      (.value v, .on ((p.setState state).forget fun n ↦
        n ∈ (invlpg number param1 param2 p.state).map pageOf))
  | keep va, p => (.done, .on (p.remember va))
  | drop va, p => (.done, .on (p.forget fun n ↦ n = pageOf va))

/-- The same as long as the process is there. -/
def Op.run (frames : ℕ → Pfn) (attempts : ℕ) (op : Op) (s : Session) :
    Except Empty (Reply × Session) :=
  .ok (if s.gone then (.exited, s) else op.act frames attempts s.process)

/-! ### Without page tables -/

/-- The segments of a process, what has been printed for it, and the pages that are there. -/
structure Space where
  current : ExecContext
  output : List Printed
  page : ℕ → Option (SeenPage ℕ (BitVec 8))

namespace Space

/-- The space after a page is changed, or comes into being. -/
def setPage (d : Space) (n : ℕ) (pg : SeenPage ℕ (BitVec 8)) : Space :=
  { d with page := Function.update d.page n (some pg) }

/-- The space after the `next_free` of a segment is set. -/
def setNextFree (d : Space) (seg : MmSeg) (nextFree : BitVec 64) : Space :=
  { d with current :=
      { d.current with
        mms := Function.update d.current.mms seg ((d.current.mms seg).setNextFree nextFree) } }

/-- The space after some pages are given back. -/
def giveBack (d : Space) (first last : ℕ) : Space :=
  { d with page := fun n ↦ if first ≤ n ∧ n < last then none else d.page n }

/-- A byte of the memory. -/
def memory (d : Space) (va : BitVec 64) : BitVec 8 :=
  (d.page (pageOf va)).elim 0 fun pg ↦ pg.bytes (offsetOf va)

/-- The process may write to a segment. -/
def MayWrite (d : Space) (seg : MmSeg) : Prop := (d.current.mms seg).accessFlags &&& 0x2 = 2

instance (d : Space) (seg : MmSeg) : Decidable (d.MayWrite seg) :=
  inferInstanceAs (Decidable (_ = _))

/-- The access is permitted: by the page when it is there, and by its segment when it is not. -/
def Permits (d : Space) (write : Bool) (va : BitVec 64) : Prop :=
  (∃ pg, d.page (pageOf va) = some pg ∧ (write → pg.writable)) ∨
    d.page (pageOf va) = none ∧ ∃ seg, checkPresent va d.current = some seg ∧
      (write → seg ≠ .rodata ∧ d.MayWrite seg)

/-- The page that an access finds: it is there, or it is a new page of its segment, with any bytes.
-/
def Finds (d : Space) (va : BitVec 64) (pg : SeenPage ℕ (BitVec 8)) : Prop :=
  d.page (pageOf va) = some pg ∨
    d.page (pageOf va) = none ∧ ∃ seg, checkPresent va d.current = some seg ∧
      pg.writable = decide (d.MayWrite seg)

/-- A segment grows, by at most 512 pages and up to its end. -/
def expand (size : ℕ) (seg : MmSeg) (d : Space) : BitVec 64 × Space :=
  let m := d.current.mms seg
  if 512 < size ∨ m.stop.toNat + 1 < m.nextFree.toNat + 4096 * size then (0, d)
  else (m.nextFree, d.setNextFree seg (m.nextFree + BitVec.ofNat 64 (4096 * size)))

/-- A segment gives its last pages back. -/
def shrink (size : ℕ) (seg : MmSeg) (d : Space) : BitVec 64 × Space :=
  let m := d.current.mms seg
  if m.nextFree.toNat < m.start.toNat + 4096 * size then (0, d)
  else
    let lowered := m.nextFree - BitVec.ofNat 64 (4096 * size)
    (lowered, (d.giveBack (pageOf lowered) (pageOf m.nextFree)).setNextFree seg lowered)

/-- The buffer can be printed: it is short, and its first and last pages are there. -/
def Prints (d : Space) (buff : BitVec 64) (length : BitVec 32) : Prop :=
  length.toNat ≤ 1024 ∧ d.page (pageOf buff) ≠ none ∧
    (length.toNat ≠ 0 → d.page ((buff.toNat + length.toNat - 1) / 4096) ≠ none)

/-- The buffer is printed. -/
def print (d : Space) (buff : BitVec 64) (length : BitVec 32) : Space :=
  { d with output := printedChars d.memory buff length ++ d.output }

end Space

namespace Op

/-- A system call. The kernel expands a segment after it has printed a buffer. -/
def answersCall (number : BitVec 32) (param1 param2 : BitVec 64) (d : Space) (reply : Reply)
    (d' : Option Space) : Prop :=
  let size : ℕ := (param1.setWidth 32 : BitVec 32).toNat
  let seg := selected (param2.setWidth 32)
  let returns (answer : BitVec 64 × Space) : Prop := reply = .value answer.1 ∧ d' = some answer.2
  if number = syscallExit then reply = .exited ∧ d' = none
  else if number = syscallGetpid then returns (d.current.id.setWidth 64, d)
  else if number = syscallWrite then
    d.Prints param1 (param2.setWidth 32) ∧
        returns ((d.print param1 (param2.setWidth 32)).expand size seg) ∨
      ¬d.Prints param1 (param2.setWidth 32) ∧ returns (-1, d)
  else if number = syscallExpand then returns (d.expand size seg)
  else if number = syscallShrink then returns (d.shrink size seg)
  else returns (-1, d)

/-- An access that is permitted finds a page; after any other the process is gone. -/
def answersAccess (write : Bool) (va : BitVec 64) (d : Space)
    (use : SeenPage ℕ (BitVec 8) → Reply × SeenPage ℕ (BitVec 8)) (reply : Reply)
    (d' : Option Space) :
    Prop :=
  d.Permits write va ∧ (∃ pg, d.Finds va pg ∧ reply = (use pg).1 ∧
      d' = some (d.setPage (pageOf va) (use pg).2)) ∨
    ¬d.Permits write va ∧ reply = .exited ∧ d' = none

/-- What comes of an operation. -/
def answers : Op → Space → Reply → Option Space → Prop
  | load _ va, d => answersAccess false va d fun pg ↦ (.byte (pg.bytes (offsetOf va)), pg)
  | store _ va b, d => answersAccess true va d fun pg ↦
      (.done, { pg with bytes := Function.update pg.bytes (offsetOf va) b })
  | syscall number param1 param2, d => answersCall number param1 param2 d
  | keep _, d => fun reply d' ↦ reply = .done ∧ d' = some d
  | drop _, d => fun reply d' ↦ reply = .done ∧ d' = some d

/-- The same when the process may be gone. -/
def spec (op : Op) (d : Option Space) (reply : Reply) (d' : Option Space) : Prop :=
  d.elim (reply = .exited ∧ d' = none) fun d ↦ op.answers d reply d'

/-- Addresses are below `2 ^ 48`, and so are the bytes of a buffer; an empty one does not start at
0. A segment is shrunk by less than `2 ^ 19` pages. -/
def Allowed : Op → Prop
  | load _ va => va.toNat < 2 ^ 48
  | store _ va _ => va.toNat < 2 ^ 48
  | syscall number param1 param2 =>
    (number = syscallShrink → (param1.setWidth 32 : BitVec 32).toNat < 2 ^ 19) ∧
      (number = syscallWrite → (param2.setWidth 32 : BitVec 32).toNat ≤ 1024 →
        param1.toNat < 2 ^ 48 ∧ param1.toNat + (param2.setWidth 32 : BitVec 32).toNat ≤ 2 ^ 48 ∧
          ((param2.setWidth 32 : BitVec 32).toNat = 0 → param1.toNat ≠ 0))
  | keep va => va.toNat < 2 ^ 48
  | drop _ => True

instance decidableAllowed : (op : Op) → Decidable op.Allowed
  | load _ va => inferInstanceAs (Decidable (va.toNat < 2 ^ 48))
  | store _ va _ => inferInstanceAs (Decidable (va.toNat < 2 ^ 48))
  | syscall _ _ _ => inferInstanceAs (Decidable ((_ → _) ∧ (_ → _ → _ ∧ _ ∧ (_ → _ ≠ _))))
  | keep va => inferInstanceAs (Decidable (va.toNat < 2 ^ 48))
  | drop _ => inferInstanceAs (Decidable True)

end Op

end OsAssignments.Paging.Syscalls
