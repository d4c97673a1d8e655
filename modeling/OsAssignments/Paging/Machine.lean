import OsAssignments.Library.FrameLog
import OsAssignments.Library.PageTables

/-!
# Physical memory of gemOS

The page-table frames, as the kernel reaches them through `osmap`, and a log of what it does with
frames. `os_pfn_alloc` is not part of the sources: the frames that its calls return are a sequence,
the `n`-th call returning the `n`-th. Every load and store of an entry is logged as an access to its
frame.
-/

set_option autoImplicit false
set_option relaxedAutoImplicit false

namespace OsAssignments.Paging

open OsAssignments.Library

/-- The memory regions. -/
inductive Region
  | osDs
  | osPt
  | user
  deriving DecidableEq

/-- The page tables, the number of frames allocated so far and the log. -/
structure Machine where
  tables : Tables
  calls : ℕ
  log : List (FrameEvent Region Pfn)

/-- `os_pfn_alloc`, returning the frames of a sequence one after the other. -/
def osPfnAlloc (frames : ℕ → Pfn) (region : Region) (s : Machine) : Pfn × Machine :=
  (frames s.calls, ⟨s.tables, s.calls + 1, .alloc region (frames s.calls) :: s.log⟩)

/-- `os_pfn_free`. -/
def osPfnFree (region : Region) (pfn : Pfn) (s : Machine) : Machine :=
  { s with log := .free region pfn :: s.log }

namespace Machine

/-- A load of an entry. -/
def load (table : Pfn) (i : ℕ) (s : Machine) : Entry × Machine :=
  (s.tables table i, { s with log := .access table :: s.log })

/-- A store to an entry. -/
def store (table : Pfn) (i : ℕ) (e : Entry) (s : Machine) : Machine :=
  { s with tables := s.tables.set table i e, log := .access table :: s.log }

/-- `table[i] |= bits`. -/
def or (table : Pfn) (i : ℕ) (bits : Entry) (s : Machine) : Machine :=
  let (e, s) := s.load table i
  s.store table i (e ||| bits)

/-- `table[i] &= bits`. -/
def and (table : Pfn) (i : ℕ) (bits : Entry) (s : Machine) : Machine :=
  let (e, s) := s.load table i
  s.store table i (e &&& bits)

/-- The loop that zeroes the 512 entries of a table. -/
def zero (table : Pfn) (s : Machine) : Machine :=
  { s with tables := s.tables.zero table, log := .access table :: s.log }

section

variable (table : Pfn) (i : ℕ) (bits : Entry) (s : Machine)

@[simp] theorem or_tables :
    (s.or table i bits).tables = s.tables.set table i (s.tables table i ||| bits) := rfl

@[simp] theorem or_calls : (s.or table i bits).calls = s.calls := rfl

@[simp] theorem allocated_or : allocated (s.or table i bits).log = allocated s.log := rfl

@[simp] theorem freed_or : freed (s.or table i bits).log = freed s.log := rfl

@[simp] theorem zero_tables : (s.zero table).tables = s.tables.zero table := rfl

@[simp] theorem zero_calls : (s.zero table).calls = s.calls := rfl

@[simp] theorem allocated_zero : allocated (s.zero table).log = allocated s.log := rfl

@[simp] theorem freed_zero : freed (s.zero table).log = freed s.log := rfl

end

end Machine

/-- `pfn << 12` for a 32-bit frame number, as it is combined with a 64-bit entry. -/
def shifted (pfn : Pfn) : Entry := (pfn <<< 12).setWidth 64

/-- An entry that is set for a frame. -/
theorem encodes_shifted {pfn : Pfn} (hpfn : pfn.toNat < 2 ^ 20) (bits : Entry)
    (hbits : bits.toNat < 2 ^ 12) (hpresent : Entry.Present bits) :
    Encodes (0 ||| shifted pfn ||| bits) (some pfn) := by
  refine ⟨Entry.present_or_bits _ _ (.inr hpresent), ?_⟩
  rw [Entry.pfn_or _ _ hbits, show (0 : Entry) = 0#64 from rfl, BitVec.zero_or, shifted,
    Entry.pfn_shift pfn hpfn]

end OsAssignments.Paging
