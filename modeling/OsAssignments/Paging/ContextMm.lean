import OsAssignments.Paging.Machine

/-!
# Preparing and cleaning up an address space

The functions of `context_mm.c`. `allocate` and `freeMemory` walk the four levels of the page
tables; the loops over the levels recurse on the indices that are left, top level first, so that the
number of indices is the level. A level of `allocate` above the first one is `descend`.
-/

set_option autoImplicit false
set_option relaxedAutoImplicit false

namespace OsAssignments.Paging.ContextMm

open OsAssignments.Library

/-! ### Contexts -/

/-- `struct mm_segment`. -/
structure MmSegment where
  start : BitVec 64
  stop : BitVec 64
  accessFlags : BitVec 32

/-- The indices of the memory segments. -/
inductive MmSeg
  | code
  | rodata
  | data
  | stack
  deriving DecidableEq

/-- `struct exec_context`, as far as the memory functions use it. -/
structure ExecContext where
  pgd : Pfn
  mms : MmSeg → MmSegment
  argPfn : Pfn

/-- The address a segment is walked for: the start, or the last page of the stack. -/
def virutalAdd (c : MmSeg) (m : MmSegment) : BitVec 64 :=
  if c = .code ∨ c = .data then m.start else m.stop - 0x1000

/-- `l1_index` to `l4_index`. -/
def l1Index (virutalAdd : BitVec 64) : ℕ := ((virutalAdd >>> 12) &&& 0x1FF).toNat

def l2Index (virutalAdd : BitVec 64) : ℕ := ((virutalAdd >>> 21) &&& 0x1FF).toNat

def l3Index (virutalAdd : BitVec 64) : ℕ := ((virutalAdd >>> 30) &&& 0x1FF).toNat

def l4Index (virutalAdd : BitVec 64) : ℕ := ((virutalAdd >>> 39).setWidth 32).toNat

/-- The indices of the four levels, top level first. -/
def indices (virutalAdd : BitVec 64) : List ℕ :=
  [l4Index virutalAdd, l3Index virutalAdd, l2Index virutalAdd, l1Index virutalAdd]

section Indices

variable {va vb : BitVec 64}

theorem masked_index (k : ℕ) : ((va >>> k) &&& 0x1FF).toNat = va.toNat / 2 ^ k % 512 := by
  rw [BitVec.toNat_and, BitVec.toNat_ushiftRight, Nat.shiftRight_eq_div_pow]
  exact Nat.and_two_pow_sub_one_eq_mod _ 9

theorem l4Index_eq (hva : va.toNat < 2 ^ 48) : l4Index va = va.toNat / 2 ^ 39 := by
  rw [l4Index, BitVec.toNat_setWidth, BitVec.toNat_ushiftRight, Nat.shiftRight_eq_div_pow]
  omega

/-- The indices of an address below `2 ^ 48` are in the tables. -/
theorem indices_lt (hva : va.toNat < 2 ^ 48) : ∀ i ∈ indices va, i < 512 := by
  intro i hi
  simp only [indices, List.mem_cons, List.not_mem_nil, or_false, l1Index, l2Index, l3Index,
    masked_index, l4Index_eq hva] at hi
  omega

/-- Addresses with the same indices are on the same page. -/
theorem page_eq_of_indices (hva : va.toNat < 2 ^ 48) (hvb : vb.toNat < 2 ^ 48)
    (h : indices va = indices vb) : va >>> 12 = vb >>> 12 := by
  simp only [indices, List.cons.injEq, and_true, l1Index, l2Index, l3Index, masked_index,
    l4Index_eq hva, l4Index_eq hvb] at h
  apply BitVec.eq_of_toNat_eq
  rw [BitVec.toNat_ushiftRight, BitVec.toNat_ushiftRight, Nat.shiftRight_eq_div_pow,
    Nat.shiftRight_eq_div_pow]
  omega

end Indices

/-! ### Allocation -/

/-- The write bit of an entry, set for a writable segment. -/
def permit (flag : BitVec 32) (table : Pfn) (i : ℕ) (s : Machine) : Machine :=
  if flag &&& 0x2 = 2 then s.or table i 0x2 else s

/-- A new table, zeroed, below an entry. -/
def newTable (frames : ℕ → Pfn) (table : Pfn) (i : ℕ) (s : Machine) : Pfn × Machine :=
  let (a, s) := osPfnAlloc frames .osPt s
  let s := s.zero a
  let s := s.or table i (shifted a)
  (a, s.or table i 0x5)

/-- The table an entry refers to. -/
def oldTable (table : Pfn) (i : ℕ) (s : Machine) : Pfn × Machine :=
  let (e, s) := s.load table i
  (e.pfn, s)

/-- A level of `allocate` above the first one: the table below the entry, which is new when the
entry is not present. -/
def descend (frames : ℕ → Pfn) (flag : BitVec 32) (table : Pfn) (i : ℕ) (s : Machine) :
    Pfn × Machine :=
  let (e, s) := s.load table i
  let (below, s) := if e &&& 0x1 = 0 then newTable frames table i s else oldTable table i s
  (below, permit flag table i s)

/-- The page of an entry: the arguments for the data segment, and a new user frame otherwise. -/
def page (frames : ℕ → Pfn) (c : MmSeg) (argPfn : Pfn) (s : Machine) : Pfn × Machine :=
  if c = .data then (argPfn, s) else osPfnAlloc frames .user s

/-- The first level of `allocate`. -/
def mapPage (frames : ℕ → Pfn) (c : MmSeg) (flag : BitVec 32) (argPfn : Pfn) (l1 : Pfn) (i : ℕ)
    (s : Machine) : Machine :=
  let (e, s) := s.load l1 i
  if e &&& 0x1 = 1 then s
  else
    let (a, s) := page frames c argPfn s
    let s := s.or l1 i (shifted a)
    permit flag l1 i (s.or l1 i 0x5)

/-- The loop of `allocate` over the levels. -/
def allocateLevels (frames : ℕ → Pfn) (c : MmSeg) (flag : BitVec 32) (argPfn : Pfn) :
    List ℕ → Pfn → Machine → Machine
  | [], _, s => s
  | [i], l1, s => mapPage frames c flag argPfn l1 i s
  | i :: rest, table, s =>
    let (below, s) := descend frames flag table i s
    allocateLevels frames c flag argPfn rest below s

/-- `allocate`. -/
def allocate (frames : ℕ → Pfn) (c : MmSeg) (l4 : Pfn) (m : MmSegment) (argPfn : Pfn)
    (s : Machine) : Machine :=
  allocateLevels frames c m.accessFlags argPfn (indices (virutalAdd c m)) l4 s

/-- `prepare_context_mm`. -/
def prepareContextMm (frames : ℕ → Pfn) (ctx : ExecContext) (s : Machine) :
    ExecContext × Machine :=
  let (a, s) := osPfnAlloc frames .osPt s
  let argPfn := ctx.argPfn
  let ctx := { ctx with pgd := a }
  let s := s.zero a
  let s := allocate frames .code a (ctx.mms .code) argPfn s
  let s := allocate frames .data a (ctx.mms .data) argPfn s
  let s := allocate frames .stack a (ctx.mms .stack) argPfn s
  (ctx, s)

/-! ### Cleanup -/

/-- The loop of `free_memory` over the levels, down to `lower`. -/
def freeLevels (c : MmSeg) (lower : ℕ) (argPfn : Pfn) : List ℕ → Pfn → Machine → Machine
  | [], _, s => s
  | i :: rest, table, s =>
    if rest.length + 1 < lower then s
    else if rest = [] then
      if c = .stack ∨ c = .code then
        let (e, s) := s.load table i
        osPfnFree .user e.pfn s
      else osPfnFree .user argPfn s
    else
      let (e, s) := s.load table i
      let below := e.pfn
      let s :=
        if rest.length + 1 = lower then
          let (e, s) := s.load table i
          if e &&& 0x1 = 1 then
            let s := osPfnFree .osPt below s
            s.and table i 0x0
          else s
        else s
      freeLevels c lower argPfn rest below s

/-- `free_memory`. -/
def freeMemory (m : MmSegment) (p4 : Pfn) (c : MmSeg) (lower : ℕ) (argPfn : Pfn) (s : Machine) :
    Machine :=
  freeLevels c lower argPfn (indices (virutalAdd c m)) p4 s

/-- One turn of the loop of `cleanup_context_mm`. -/
def cleanupLevel (ctx : ExecContext) (i : ℕ) (s : Machine) : Machine :=
  let s := freeMemory (ctx.mms .stack) ctx.pgd .stack i ctx.argPfn s
  let s := freeMemory (ctx.mms .code) ctx.pgd .code i ctx.argPfn s
  freeMemory (ctx.mms .data) ctx.pgd .data i ctx.argPfn s

/-- `cleanup_context_mm`. -/
def cleanupContextMm (ctx : ExecContext) (s : Machine) : Machine :=
  let s := cleanupLevel ctx 1 s
  let s := cleanupLevel ctx 2 s
  let s := cleanupLevel ctx 3 s
  let s := cleanupLevel ctx 4 s
  osPfnFree .osPt ctx.pgd s

end OsAssignments.Paging.ContextMm
