import OsAssignments.Paging.Shrink

/-!
# The write system call

`SYSCALL_WRITE` walks the page tables for the first byte of a buffer, and for the last one when it
is on a later page. It prints when both walks find their four entries present (`write_eq`), and then
goes on with the case of `SYSCALL_EXPAND`, which takes the address for a number of pages and the
length for flags: the call returns the length and leaves the segments alone only by coincidence
(`write_clean_iff`).

The index into the table of the top level is the address shifted by 39 and is not masked, so an
address from `2 ^ 48` on is looked up outside the table. Below it the two walks suffice, since 1024
bytes meet two pages at most (`write_validates_iff`).
-/

set_option autoImplicit false
set_option relaxedAutoImplicit false

namespace OsAssignments.Paging.Syscalls

open OsAssignments.Library
open ContextMm (MmSeg indices l4Index hardwareWalk hardwareIndices_eq indices_lt oldTable)

variable {memory : BitVec 64 → BitVec 8} {param1 param2 va : BitVec 64} {length : BitVec 32}
  {p p' : State}

/-! ### The walks of the check -/

/-- The entries that the check of an address loads: the table and the index of each, in order. -/
def loadedEntries (m : Tables) : List ℕ → Pfn → List (Pfn × ℕ)
  | [], _ => []
  | [i], l1 => [(l1, i)]
  | i :: rest, table =>
    if (m table i).Present then (table, i) :: (table, i) :: loadedEntries m rest (m table i).pfn
    else [(table, i)]

theorem loadedEntries_cons (m : Tables) (i j : ℕ) (rest : List ℕ) (table : Pfn) :
    loadedEntries m (i :: j :: rest) table =
      if (m table i).Present then
        (table, i) :: (table, i) :: loadedEntries m (j :: rest) (m table i).pfn
      else [(table, i)] := rfl

/-- The machine after some entries are loaded. -/
def Machine.loaded (entries : List (Pfn × ℕ)) (s : Machine) : Machine :=
  { s with log := (entries.map fun e ↦ .access e.1).reverse ++ s.log }

theorem Machine.loaded_append (entries more : List (Pfn × ℕ)) (s : Machine) :
    Machine.loaded more (Machine.loaded entries s) = Machine.loaded (entries ++ more) s := by
  simp only [Machine.loaded, List.map_append, List.reverse_append, List.append_assoc]

/-- The check succeeds exactly when the walk finds all entries present, and does nothing but load
them. -/
theorem checkLevels_eq (rest : List ℕ) (table : Pfn) (s : Machine) :
    checkLevels rest table s =
      ((walk s.tables rest table).isSome,
        Machine.loaded (loadedEntries s.tables rest table) s) := by
  induction rest generalizing table s with
  | nil => rfl
  | cons i rest ih =>
    have hread : (s.tables table i).Present ↔ ¬s.tables table i &&& 0x1 = 0 := by
      rw [← Entry.not_present_iff, not_not]
    cases rest with
    | nil =>
      change (decide (s.tables table i &&& 0x1 ≠ 0), (s.load table i).2) = _
      rw [walk]
      by_cases hpresent : (s.tables table i).Present
      · rw [if_pos hpresent, decide_eq_true (hread.mp hpresent)]
        rfl
      · rw [if_neg hpresent, decide_eq_false (hread.not.mp hpresent)]
        rfl
    | cons j rest =>
      change (if s.tables table i &&& 0x1 = 0 then (false, (s.load table i).2) else
        checkLevels (j :: rest) (s.tables table i).pfn
          (Machine.loaded [(table, i), (table, i)] s)) = _
      by_cases hpresent : (s.tables table i).Present
      · have hwalk : walk s.tables (i :: j :: rest) table =
            (walk s.tables (j :: rest) (s.tables table i).pfn).map fun es ↦
              s.tables table i :: es :=
          if_pos hpresent
        rw [if_neg (hread.mp hpresent), ih, Machine.loaded_append, loadedEntries_cons,
          if_pos hpresent, hwalk, Option.isSome_map]
        rfl
      · rw [if_pos (not_not.mp (hread.not.mp hpresent)), loadedEntries_cons, if_neg hpresent, walk,
          if_neg hpresent]
        rfl

/-! ### What the call does -/

/-- All entries on the way to an address are present, for the indices of the kernel. -/
def Reached (p : State) (va : BitVec 64) : Prop :=
  (walk p.machine.tables (indices va) p.current.pgd).isSome = true

/-- The address of the last byte. -/
def lastAdd (param1 : BitVec 64) (length : BitVec 32) : BitVec 64 := param1 + length.setWidth 64 - 1

/-- The call prints: the buffer is short enough and the addresses that are checked are reached. -/
def Accepted (p : State) (param1 : BitVec 64) (length : BitVec 32) : Prop :=
  ¬1024 < length ∧ Reached p param1 ∧
    (param1 / 4096 < lastAdd param1 length / 4096 → Reached p (lastAdd param1 length))

instance (p : State) (va : BitVec 64) : Decidable (Reached p va) :=
  inferInstanceAs (Decidable (_ = true))

/-- The characters of a buffer as they are printed, newest first. -/
def printedChars (memory : BitVec 64 → BitVec 8) (buff : BitVec 64) (length : BitVec 32) :
    List Printed :=
  ((List.range length.toNat).map fun i ↦ Printed.char (memory (buff + BitVec.ofNat 64 i))).reverse

/-- The entries that the call loads while it checks an address. -/
def addressLoads (p : State) (va : BitVec 64) : List (Pfn × ℕ) :=
  loadedEntries p.machine.tables (indices va) p.current.pgd

/-- The entries that the call loads. -/
def writeLoads (p : State) (param1 : BitVec 64) (length : BitVec 32) : List (Pfn × ℕ) :=
  if 1024 < length then []
  else
    addressLoads p param1 ++
      if Reached p param1 ∧ param1 / 4096 < lastAdd param1 length / 4096 then
        addressLoads p (lastAdd param1 length)
      else []

/-- The state after the checks. -/
def State.checked (p : State) (param1 : BitVec 64) (length : BitVec 32) : State :=
  p.setMachine (Machine.loaded (writeLoads p param1 length) p.machine)

/-- The call either refuses the buffer, or prints it and goes on with `SYSCALL_EXPAND`. -/
theorem write_eq (memory : BitVec 64 → BitVec 8) (param1 param2 : BitVec 64) (p : State) :
    (Accepted p param1 (param2.setWidth 32) ∧ write memory param1 param2 p =
        expand param1 param2 { p.checked param1 (param2.setWidth 32) with
          output := printedChars memory param1 (param2.setWidth 32) ++ p.output }) ∨
      (¬Accepted p param1 (param2.setWidth 32) ∧
        write memory param1 param2 p = .ok (-1, p.checked param1 (param2.setWidth 32))) := by
  simp only [write, checkLevels_eq]
  generalize (param2.setWidth 32 : BitVec 32) = length
  by_cases hlong : 1024 < length
  · refine .inr ⟨fun h ↦ h.1 hlong, ?_⟩
    rw [if_pos hlong, State.checked, writeLoads, if_pos hlong]
    rfl
  rw [if_neg hlong]
  by_cases hfirst : Reached p param1
  · rw [if_neg (ne_false_of_eq_true hfirst)]
    by_cases hlater : param1 / 4096 < lastAdd param1 length / 4096
    · have hloads : writeLoads p param1 length =
          addressLoads p param1 ++ addressLoads p (lastAdd param1 length) := by
        rw [writeLoads, if_neg hlong, if_pos ⟨hfirst, hlater⟩]
      rw [State.checked, hloads, ← Machine.loaded_append]
      unfold lastAdd at hlater
      rw [if_pos hlater]
      by_cases hsecond : Reached p (lastAdd param1 length)
      · exact .inl ⟨⟨hlong, hfirst, fun _ ↦ hsecond⟩, if_neg (ne_false_of_eq_true hsecond)⟩
      · exact .inr ⟨fun h ↦ hsecond (h.2.2 hlater), if_pos (Bool.eq_false_iff.mpr hsecond)⟩
    · have hloads : writeLoads p param1 length = addressLoads p param1 := by
        rw [writeLoads, if_neg hlong, if_neg fun h ↦ hlater h.2, List.append_nil]
      rw [State.checked, hloads]
      refine .inl ⟨⟨hlong, hfirst, fun h ↦ absurd h hlater⟩, ?_⟩
      unfold lastAdd at hlater
      rw [if_neg hlater]
      rfl
  · refine .inr ⟨fun h ↦ hfirst h.2.1, ?_⟩
    rw [if_pos (Bool.eq_false_iff.mpr hfirst), State.checked, writeLoads, if_neg hlong,
      if_neg fun h ↦ hfirst h.1, List.append_nil]
    rfl

/-! ### Side effects -/

/-- `SYSCALL_EXPAND` refuses: the size is too large, or the segment has no room for it. -/
def Refused (p : State) (size flags : BitVec 32) : Prop :=
  512 < size ∨ (p.current.mms (selected flags)).stop <
    (p.current.mms (selected flags)).nextFree + (size * 4096).setWidth 64 - 1

/-- The context and the page tables are as before; the call has printed the bytes and returns the
length when it accepts the buffer, and otherwise has printed nothing and returns -1. -/
def WritesCleanly (memory : BitVec 64 → BitVec 8) (param1 param2 : BitVec 64) (p : State) : Prop :=
  ∃ value p', doSyscall memory syscallWrite param1 param2 p = .ok (value, p') ∧
    p'.current = p.current ∧ p'.machine.tables = p.machine.tables ∧
    (Accepted p param1 (param2.setWidth 32) → value = (param2.setWidth 32 : BitVec 32).setWidth 64 ∧
      p'.output = printedChars memory param1 (param2.setWidth 32) ++ p.output) ∧
    (¬Accepted p param1 (param2.setWidth 32) → value = -1 ∧ p'.output = p.output)

theorem doSyscall_write :
    doSyscall memory syscallWrite param1 param2 p = write memory param1 param2 p :=
  rfl

theorem expand_refused (h : Refused p (param1.setWidth 32) (param2.setWidth 32)) :
    expand param1 param2 p = .ok (0, p) := by
  simp only [expand]
  rcases h with hlarge | hroom
  · rw [if_pos hlarge]
  · rw [if_pos hroom, ite_self]

theorem expand_granted (h : ¬Refused p (param1.setWidth 32) (param2.setWidth 32)) :
    expand param1 param2 p = .ok ((p.current.mms (selected (param2.setWidth 32))).nextFree,
      p.setNextFree (selected (param2.setWidth 32))
        ((p.current.mms (selected (param2.setWidth 32))).nextFree +
          ((param1.setWidth 32 : BitVec 32) * 4096).setWidth 64)) := by
  rw [Refused, not_or] at h
  simp only [expand]
  rw [if_neg h.1, if_neg h.2]

/-- Setting `next_free` of a segment changes nothing only when it has the value already. -/
theorem setNextFree_current_iff (seg : MmSeg) (nextFree : BitVec 64) :
    (p.setNextFree seg nextFree).current = p.current ↔ nextFree = (p.current.mms seg).nextFree := by
  constructor
  · intro h
    rw [← h]
    change _ = (Function.update p.current.mms seg _ seg).nextFree
    rw [Function.update_self]
    rfl
  · rintro rfl
    change { p.current with mms := Function.update p.current.mms seg (p.current.mms seg) } =
      p.current
    rw [Function.update_eq_self]

/-- An accepted size that moves nothing is 0. -/
theorem size_eq_zero_iff {size : BitVec 32} (hsize : ¬512 < size) (nextFree : BitVec 64) :
    nextFree + (size * 4096).setWidth 64 = nextFree ↔ size = 0 := by
  rw [BitVec.lt_def, not_lt, show (512 : BitVec 32).toNat = 512 from rfl] at hsize
  rw [add_eq_left, ← BitVec.toNat_inj, ← BitVec.toNat_inj, BitVec.toNat_setWidth, toNat_product,
    show (0 : BitVec 64).toNat = 0 from rfl, show (0 : BitVec 32).toNat = 0 from rfl]
  omega

theorem setWidth_eq_zero_iff : length.setWidth 64 = 0 ↔ length = 0 := by
  rw [← BitVec.toNat_inj, ← BitVec.toNat_inj, BitVec.toNat_setWidth,
    Nat.mod_eq_of_lt (length.isLt.trans (by norm_num))]
  rfl

/-- The write call has no side effect, and returns what it should, exactly when it refuses the
buffer, when the length is 0 and the expansion by the address is refused, and when the low half of
the address is 0 and `next_free` happens to be the length. -/
theorem write_clean_iff (memory : BitVec 64 → BitVec 8) (p : State) (param1 param2 : BitVec 64) :
    WritesCleanly memory param1 param2 p ↔
      ¬Accepted p param1 (param2.setWidth 32) ∨
        (Refused p (param1.setWidth 32) (param2.setWidth 32) ∧
          (param2.setWidth 32 : BitVec 32) = 0) ∨
        (¬Refused p (param1.setWidth 32) (param2.setWidth 32) ∧
          (param1.setWidth 32 : BitVec 32) = 0 ∧
          (p.current.mms (selected (param2.setWidth 32))).nextFree =
            (param2.setWidth 32 : BitVec 32).setWidth 64) := by
  rw [WritesCleanly, doSyscall_write]
  rcases write_eq memory param1 param2 p with ⟨haccepted, heq⟩ | ⟨hnot, heq⟩
  · rw [heq, or_iff_right (not_not.mpr haccepted)]
    by_cases hrefused : Refused p (param1.setWidth 32) (param2.setWidth 32)
    · have hexpand := expand_refused (p := { p.checked param1 (param2.setWidth 32) with
        output := printedChars memory param1 (param2.setWidth 32) ++ p.output }) hrefused
      rw [hexpand, or_iff_left fun h ↦ h.1 hrefused, and_iff_right hrefused, ← setWidth_eq_zero_iff]
      constructor
      · rintro ⟨value, p', hok, -, -, hreturned, -⟩
        obtain ⟨rfl, rfl⟩ := Prod.mk.inj (Except.ok.inj hok)
        exact (hreturned haccepted).1.symm
      · exact fun hzero ↦
          ⟨_, _, rfl, rfl, rfl, fun _ ↦ ⟨hzero.symm, rfl⟩, fun h ↦ absurd haccepted h⟩
    · have hexpand := expand_granted (p := { p.checked param1 (param2.setWidth 32) with
        output := printedChars memory param1 (param2.setWidth 32) ++ p.output }) hrefused
      rw [hexpand, or_iff_right fun h ↦ hrefused h.1, and_iff_right hrefused,
        ← size_eq_zero_iff (fun h ↦ hrefused (.inl h))
          (p.current.mms (selected (param2.setWidth 32))).nextFree]
      constructor
      · rintro ⟨value, p', hok, hcurrent, -, hreturned, -⟩
        obtain ⟨rfl, rfl⟩ := Prod.mk.inj (Except.ok.inj hok)
        exact ⟨(setNextFree_current_iff _ _).mp hcurrent, (hreturned haccepted).1⟩
      · rintro ⟨hsize, hlength⟩
        exact ⟨_, _, rfl, (setNextFree_current_iff _ _).mpr hsize, rfl,
          fun _ ↦ ⟨hlength, rfl⟩, fun h ↦ absurd haccepted h⟩
  · exact iff_of_true ⟨_, _, heq, rfl, rfl, fun h ↦ absurd h hnot, fun _ ↦ ⟨rfl, rfl⟩⟩ (.inl hnot)

/-- The tables on the way to the first page of code. -/
def codeTables : Tables :=
  let m : Tables := fun _ _ ↦ 0
  let m := m.set 0x2000 0 0x2001007
  let m := m.set 0x2001 4 0x2002007
  let m := m.set 0x2002 0 0x2003007
  m.set 0x2003 0 0x3000005

/-- A process whose first page of code is mapped. -/
def codeMapped : State := { untouched with machine := ⟨codeTables, 5, []⟩ }

theorem codeMapped_reached : Reached codeMapped 0x100000010 := by decide

/-- Five bytes of code are printed, and the data segment grows by sixteen pages. -/
theorem write_expands : Accepted codeMapped 0x100000010 5 ∧
    (∃ p', doSyscall (fun _ ↦ 65) syscallWrite 0x100000010 5 codeMapped = .ok (0x180008000, p') ∧
      (p'.current.mms .data).nextFree = 0x180018000 ∧
      p'.output = List.replicate 5 (.char 65)) ∧
    ¬WritesCleanly (fun _ ↦ 65) 0x100000010 5 codeMapped := by
  have haccepted : Accepted codeMapped 0x100000010 5 := ⟨by decide, codeMapped_reached, by decide⟩
  have hgranted : ¬Refused codeMapped 0x10 5 := by
    rw [Refused]
    decide
  have hwrite : doSyscall (fun _ ↦ 65) syscallWrite 0x100000010 5 codeMapped =
      .ok (0x180008000, State.setNextFree { codeMapped.checked 0x100000010 5 with
        output := printedChars (fun _ ↦ 65) 0x100000010 5 } .data 0x180018000) := by
    rw [doSyscall_write]
    rcases write_eq (fun _ ↦ 65) 0x100000010 5 codeMapped with ⟨-, heq⟩ | ⟨hnot, -⟩
    · exact heq.trans (expand_granted hgranted)
    · exact absurd haccepted hnot
  refine ⟨haccepted, ⟨_, hwrite, rfl, rfl⟩, ?_⟩
  rintro ⟨value, p', hok, hcurrent, -⟩
  obtain ⟨-, rfl⟩ := Prod.mk.inj (Except.ok.inj (hwrite.symm.trans hok))
  exact absurd ((setNextFree_current_iff _ _).mp hcurrent) (by decide)

/-! ### Validation of the buffer -/

/-- The buffer is short, does not wrap around, and every byte of it is on a page that the hardware
finds. -/
structure ValidBuffer (p : State) (buff : BitVec 64) (length : BitVec 32) : Prop where
  short : length.toNat ≤ 1024
  inside : buff.toNat + length.toNat ≤ 2 ^ 64
  mapped : ∀ i < length.toNat,
    hardwareWalk p.machine.tables p.current.pgd (buff + BitVec.ofNat 64 i) ≠ none

/-- The call prints a valid buffer, or prints nothing and returns -1; valid buffers that are not
empty and lie below `2 ^ 48` are printed; and the entries that are loaded are inside the tables. -/
def Validates (memory : BitVec 64 → BitVec 8) (param1 param2 : BitVec 64) (p : State) : Prop :=
  ∃ value p', doSyscall memory syscallWrite param1 param2 p = .ok (value, p') ∧
    (ValidBuffer p param1 (param2.setWidth 32) ∧
        p'.output = printedChars memory param1 (param2.setWidth 32) ++ p.output ∨
      p'.output = p.output ∧ value = -1) ∧
    (ValidBuffer p param1 (param2.setWidth 32) → 0 < (param2.setWidth 32 : BitVec 32).toNat →
      param1.toNat + (param2.setWidth 32 : BitVec 32).toNat ≤ 2 ^ 48 →
      p'.output = printedChars memory param1 (param2.setWidth 32) ++ p.output) ∧
    p'.machine = Machine.loaded (writeLoads p param1 (param2.setWidth 32)) p.machine ∧
    ∀ e ∈ writeLoads p param1 (param2.setWidth 32), e.2 < 512

theorem index_of_mem_loadedEntries {m : Tables} {rest : List ℕ} {table : Pfn} {e : Pfn × ℕ}
    (he : e ∈ loadedEntries m rest table) : e.2 ∈ rest := by
  induction rest generalizing table with
  | nil => exact absurd he List.not_mem_nil
  | cons i rest ih =>
    cases rest with
    | nil => exact List.mem_singleton.mpr (congrArg Prod.snd (List.mem_singleton.mp he))
    | cons j rest =>
      rw [loadedEntries_cons] at he
      split_ifs at he
      · rcases List.mem_cons.mp he with rfl | he
        · exact List.mem_cons_self
        rcases List.mem_cons.mp he with rfl | he
        · exact List.mem_cons_self
        exact List.mem_cons_of_mem i (ih he)
      · rw [List.mem_singleton.mp he]
        exact List.mem_cons_self

/-- The index into the top level is not masked. -/
theorem l4Index_lt_iff : l4Index va < 512 ↔ va.toNat < 2 ^ 48 := by
  have hva := va.isLt
  rw [l4Index, BitVec.toNat_setWidth, BitVec.toNat_ushiftRight, Nat.shiftRight_eq_div_pow]
  omega

/-- The check of an address stays inside the tables exactly when the address is below `2 ^ 48`. -/
theorem addressLoads_inside_iff : (∀ e ∈ addressLoads p va, e.2 < 512) ↔ va.toNat < 2 ^ 48 := by
  constructor
  · intro hall
    have htop : (p.current.pgd, l4Index va) ∈ addressLoads p va := by
      rw [addressLoads, ContextMm.indices, loadedEntries_cons]
      split_ifs <;> exact List.mem_cons_self
    exact l4Index_lt_iff.mp (hall _ htop)
  · exact fun hva e he ↦ indices_lt hva e.2 (index_of_mem_loadedEntries he)

theorem reached_iff (hva : va.toNat < 2 ^ 48) :
    Reached p va ↔ hardwareWalk p.machine.tables p.current.pgd va ≠ none := by
  rw [Reached, hardwareWalk, hardwareIndices_eq hva, Option.isSome_iff_ne_none]

/-- Addresses on one page are walked alike. -/
theorem hardwareWalk_congr {m : Tables} {pgd : Pfn} {vb : BitVec 64}
    (h : va.toNat / 4096 = vb.toNat / 4096) : hardwareWalk m pgd va = hardwareWalk m pgd vb := by
  have hindices : ContextMm.hardwareIndices va = ContextMm.hardwareIndices vb := by
    simp only [ContextMm.hardwareIndices, List.cons.injEq, and_true]
    omega
  rw [hardwareWalk, hardwareWalk, hindices]

theorem toNat_lastAdd (param1 : BitVec 64) (length : BitVec 32) :
    (lastAdd param1 length).toNat = (param1.toNat + length.toNat + (2 ^ 64 - 1)) % 2 ^ 64 := by
  have hlength := length.isLt
  rw [lastAdd, BitVec.toNat_sub, BitVec.toNat_add, BitVec.toNat_setWidth,
    show (1 : BitVec 64).toNat = 1 from rfl]
  omega

theorem later_iff : param1 / 4096 < lastAdd param1 length / 4096 ↔
    param1.toNat / 4096 < (lastAdd param1 length).toNat / 4096 := by
  rw [BitVec.lt_def, BitVec.toNat_udiv, BitVec.toNat_udiv]
  rfl

/-- The last address is checked outside the tables when the buffer ends above them, and when it is
empty at address 0. -/
theorem last_inside_iff (hlow : param1.toNat < 2 ^ 48) (hshort : length.toNat ≤ 1024) :
    (param1 / 4096 < lastAdd param1 length / 4096 → (lastAdd param1 length).toNat < 2 ^ 48) ↔
      if length = 0 then param1 ≠ 0 else param1.toNat + length.toNat ≤ 2 ^ 48 := by
  have hzero : length = 0 ↔ length.toNat = 0 := BitVec.toNat_inj.symm
  have haddress : param1 = 0 ↔ param1.toNat = 0 := BitVec.toNat_inj.symm
  rw [later_iff, toNat_lastAdd]
  split_ifs with hempty
  · rw [hzero] at hempty
    rw [Ne, haddress]
    omega
  · rw [hzero] at hempty
    omega

/-- When the checks of a call stay inside the tables: the length is too large, or the address is
below `2 ^ 48` and not mapped, or so is the end of the buffer. -/
def ChecksFit (p : State) (param1 : BitVec 64) (length : BitVec 32) : Prop :=
  1024 < length.toNat ∨ (param1.toNat < 2 ^ 48 ∧
    (hardwareWalk p.machine.tables p.current.pgd param1 = none ∨
      if length = 0 then param1 ≠ 0 else param1.toNat + length.toNat ≤ 2 ^ 48))

theorem writeLoads_inside_iff :
    (∀ e ∈ writeLoads p param1 length, e.2 < 512) ↔ ChecksFit p param1 length := by
  have hlong : 1024 < length ↔ 1024 < length.toNat := BitVec.lt_def
  rw [writeLoads, ChecksFit, ← hlong]
  by_cases h : 1024 < length
  · rw [if_pos h]
    exact iff_of_true (fun e he ↦ absurd he List.not_mem_nil) (.inl h)
  rw [if_neg h, or_iff_right h, List.forall_mem_append, addressLoads_inside_iff]
  refine and_congr_right fun hlow ↦ ?_
  have hmapped := reached_iff (p := p) hlow
  rw [← last_inside_iff hlow (not_lt.mp (hlong.not.mp h))]
  by_cases hfirst : Reached p param1
  · rw [or_iff_right (hmapped.mp hfirst)]
    by_cases hlater : param1 / 4096 < lastAdd param1 length / 4096
    · rw [if_pos ⟨hfirst, hlater⟩, addressLoads_inside_iff]
      exact ⟨fun h _ ↦ h, fun h ↦ h hlater⟩
    · rw [if_neg fun h ↦ hlater h.2]
      exact iff_of_true (fun e he ↦ absurd he List.not_mem_nil) fun h ↦ absurd h hlater
  · rw [if_neg fun h ↦ hfirst h.1]
    exact iff_of_true (fun e he ↦ absurd he List.not_mem_nil)
      (.inl (not_not.mp (hmapped.not.mp hfirst)))

/-- A buffer that is not empty and lies below `2 ^ 48` is accepted exactly when it is valid: its
bytes are on the pages of the first one and of the last one. -/
theorem accepted_iff_valid (hpos : 0 < length.toNat) (hend : param1.toNat + length.toNat ≤ 2 ^ 48) :
    Accepted p param1 length ↔ ValidBuffer p param1 length := by
  have hlast : (lastAdd param1 length).toNat = param1.toNat + (length.toNat - 1) := by
    rw [toNat_lastAdd]
    omega
  have hbyte : ∀ i < length.toNat, (param1 + BitVec.ofNat 64 i).toNat = param1.toNat + i := by
    intro i hi
    rw [BitVec.toNat_add, BitVec.toNat_ofNat]
    omega
  have hlong : 1024 < length ↔ 1024 < length.toNat := BitVec.lt_def
  rw [Accepted, later_iff, reached_iff (by omega), reached_iff (by omega), hlong]
  constructor
  · rintro ⟨hshort, hfirst, hsecond⟩
    refine ⟨not_lt.mp hshort, by omega, fun i hi ↦ ?_⟩
    by_cases hpage : (param1.toNat + i) / 4096 = param1.toNat / 4096
    · rwa [hardwareWalk_congr ((congrArg (· / 4096) (hbyte i hi)).trans hpage)]
    · have hpage' : (param1 + BitVec.ofNat 64 i).toNat / 4096 =
          (lastAdd param1 length).toNat / 4096 := by
        rw [hbyte i hi, hlast]
        omega
      rw [hardwareWalk_congr hpage']
      exact hsecond (by omega)
  · intro hvalid
    have hfirst := hvalid.mapped 0 hpos
    have hsecond := hvalid.mapped (length.toNat - 1) (by omega)
    rw [hardwareWalk_congr (congrArg (· / 4096) (hbyte 0 hpos))] at hfirst
    rw [hardwareWalk_congr (congrArg (· / 4096) ((hbyte _ (by omega)).trans hlast.symm))] at hsecond
    exact ⟨not_lt.mpr hvalid.short, hfirst, fun _ ↦ hsecond⟩

/-- The empty buffer is valid. -/
theorem valid_of_empty (hempty : length.toNat = 0) : ValidBuffer p param1 length := by
  have hlow := param1.isLt
  exact ⟨by omega, by omega, fun i hi ↦ absurd hi (by omega)⟩

/-- The expansion leaves the machine and what has been printed. -/
theorem expand_machine (param1 param2 : BitVec 64) (p : State) :
    ∃ value p', expand param1 param2 p = .ok (value, p') ∧
    p'.machine = p.machine ∧ p'.output = p.output := by
  by_cases h : Refused p (param1.setWidth 32) (param2.setWidth 32)
  · exact ⟨_, _, expand_refused h, rfl, rfl⟩
  · exact ⟨_, _, expand_granted h, rfl, rfl⟩

/-- The write call validates its buffer exactly when the checks stay inside the tables. -/
theorem write_validates_iff (memory : BitVec 64 → BitVec 8) (p : State)
    (param1 param2 : BitVec 64) :
    Validates memory param1 param2 p ↔ ChecksFit p param1 (param2.setWidth 32) := by
  rw [← writeLoads_inside_iff]
  refine ⟨fun ⟨_, _, _, _, _, _, hinside⟩ ↦ hinside, fun hinside ↦ ?_⟩
  have hfit := writeLoads_inside_iff.mp hinside
  rw [Validates, doSyscall_write]
  have hzero : (param2.setWidth 32 : BitVec 32) = 0 ↔ (param2.setWidth 32 : BitVec 32).toNat = 0 :=
    BitVec.toNat_inj.symm
  have hshort : 1024 < (param2.setWidth 32 : BitVec 32) ↔
      1024 < (param2.setWidth 32 : BitVec 32).toNat := BitVec.lt_def
  rcases write_eq memory param1 param2 p with ⟨haccepted, heq⟩ | ⟨hnot, heq⟩
  · obtain ⟨value, p', hexpand, hmachine, houtput⟩ := expand_machine param1 param2
      { p.checked param1 (param2.setWidth 32) with
        output := printedChars memory param1 (param2.setWidth 32) ++ p.output }
    have hvalid : ValidBuffer p param1 (param2.setWidth 32) := by
      by_cases hempty : (param2.setWidth 32 : BitVec 32).toNat = 0
      · exact valid_of_empty hempty
      rcases hfit with hlong | ⟨hlow, hnone | hend⟩
      · exact absurd (hshort.mpr hlong) haccepted.1
      · exact absurd hnone ((reached_iff hlow).mp haccepted.2.1)
      · rw [if_neg (hzero.not.mpr hempty)] at hend
        exact (accepted_iff_valid (Nat.pos_of_ne_zero hempty) hend).mp haccepted
    exact ⟨value, p', heq.trans hexpand, .inl ⟨hvalid, houtput⟩, fun _ _ _ ↦ houtput, hmachine,
      hinside⟩
  · exact ⟨_, _, heq, .inr ⟨rfl, rfl⟩,
      fun hvalid hpos hend ↦ absurd ((accepted_iff_valid hpos hend).mpr hvalid) hnot, rfl, hinside⟩

/-- An address with bit 48 set is looked up outside the table of the top level. -/
theorem write_indexes_outside : ¬Validates (fun _ ↦ 0) 0x1000000000000 1 untouched := by
  rintro ⟨_, _, _, _, _, _, hinside⟩
  have hmem : (0x2000, 512) ∈ writeLoads untouched 0x1000000000000 1 := by decide
  exact absurd (hinside _ hmem) (by decide)

end OsAssignments.Paging.Syscalls
