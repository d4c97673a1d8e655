import OsAssignments.Library.Threads
import OsAssignments.Objstore.Appends

/-!
# The steps of a write

With several threads in the store, each of `free_data_block`, `cache_blk_read` and
`cache_blk_write` is one atomic step, because it holds its mutex to the end. `WriteCall.next` is
`objstore_write` taken apart at these calls: an assignment to the record goes with the locked call
that follows it. `steps_objstoreWrite` puts the steps of a write together again.

The steps of a write inside an indirect range are described by `next_called`, `next_found`,
`next_allocated`, `indirectStep_first` and `indirectStep_next`; the others are plain.
-/

set_option autoImplicit false
set_option relaxedAutoImplicit false

namespace OsAssignments.Objstore

open Library

/-! ### Steps -/

/-- A call of `objstore_write`. -/
structure WriteCall where
  objid : ℤ
  buff : List UInt8
  offset : ℤ

/-- How far a write is, with its local variables. -/
inductive WritePhase
  | called
  | found (k : ℕ)
  | allocated (k : ℕ) (data1 : ℤ)
  | second (k : ℕ) (r : Fin 4) (data1 data2 : ℤ)
  | loaded (k : ℕ) (r : Fin 4) (i data1 : ℤ) (indirectBlock : Block)
  | storing (data : ℤ)
  | returned (reply : ℤ)

/-- The first step in the indirect branch of a range whose first block index is `base`. -/
def indirectStep (bld : Build) (k : ℕ) (r : Fin 4) (base a data1 : ℤ) (s : Store) :
    WritePhase × Store :=
  if a = base then
    let (data2, s) := freeDataBlock s
    (.second k r data1 data2, s)
  else
    let (indirectBlock, s) := s.blkRead bld (s.field k (.indirect r)) Block.zero
    (.loaded k r (a - base) data1 indirectBlock, s)

namespace WriteCall

/-- The next step of a write. -/
def next (bld : Build) (call : WriteCall) :
    WritePhase → Store → Except Fault (WritePhase × Store)
  | .called, s =>
    match findTarget call.objid true s with
    | (none, s) => .ok (.returned (-1), s)
    | (some k, s) => .ok (.found k, s)
  | .found k, s =>
    let (data1, s) := freeDataBlock s
    .ok (.allocated k data1, s)
  | .allocated k data1, s =>
    let a := Int.bmod (call.offset.tdiv 4096) (2 ^ 32)
    let size : ℤ := call.buff.length
    let s := s.assign k .size (s.field k .size + size)
    if a ≤ 3 then
      let s := s.blkWrite bld data1 (Block.ofList call.buff)
      if directAddr k a < 0 then .error .wildAddress
      else .ok (.returned size, { s with a := s.a.storeInt (directAddr k a).toNat 4 data1 })
    else if 4 ≤ a ∧ a < 1028 then .ok (indirectStep bld k 0 4 a data1 s)
    else if 1028 ≤ a ∧ a < 2052 then .ok (indirectStep bld k 1 1028 a data1 s)
    else if 2052 ≤ a ∧ a < 3076 then .ok (indirectStep bld k 2 2052 a data1 s)
    else if 3076 ≤ a ∧ a < 4100 then .ok (indirectStep bld k 3 3076 a data1 s)
    else .ok (.returned size, s)
  | .second k r data1 data2, s =>
    let s := s.assign k (.indirect r) data1
    .ok (.storing data2, s.blkWrite bld data1 (Block.zero.setInt 0 data2))
  | .loaded k r i data1 indirectBlock, s =>
    let indirectBlock := indirectBlock.setInt i.toNat data1
    .ok (.storing data1, s.blkWrite bld (s.field k (.indirect r)) indirectBlock)
  | .storing data, s =>
    .ok (.returned call.buff.length, s.blkWrite bld data (Block.ofList call.buff))
  | .returned reply, s => .ok (.returned reply, s)

/-- Steps of a write that no other thread disturbs. -/
def steps (bld : Build) (call : WriteCall) :
    ℕ → WritePhase → Store → Except Fault (WritePhase × Store)
  | 0, phase, s => .ok (phase, s)
  | n + 1, phase, s =>
    match call.next bld phase s with
    | .error fault => .error fault
    | .ok (phase, s) => call.steps bld n phase s

variable {bld : Build} {call : WriteCall}

theorem steps_succ {n : ℕ} {phase phase' : WritePhase} {s s' : Store}
    (h : call.next bld phase s = .ok (phase', s')) :
    call.steps bld (n + 1) phase s = call.steps bld n phase' s' := by
  rw [steps, h]

theorem steps_returned (n : ℕ) (reply : ℤ) (s : Store) :
    call.steps bld n (.returned reply) s = .ok (.returned reply, s) := by
  induction n with
  | zero => rfl
  | succ n ih => rw [steps_succ rfl, ih]

/-- The rest of a write after the first step in an indirect branch. -/
theorem steps_indirectStep (k : ℕ) (r : Fin 4) (base a data1 : ℤ) (s : Store) :
    call.steps bld 3 (indirectStep bld k r base a data1 s).1
        (indirectStep bld k r base a data1 s).2 =
      .ok (.returned call.buff.length,
        writeIndirect bld k r base a data1 (Block.ofList call.buff) s) := by
  unfold indirectStep writeIndirect
  split_ifs with ha
  · rfl
  · rfl

/-- The steps of a write, one after the other, are `objstore_write`. -/
theorem steps_objstoreWrite (bld : Build) (call : WriteCall) (s : Store) :
    call.steps bld 6 .called s =
      match objstoreWrite bld call.objid call.buff call.offset s with
      | .ok (reply, s) => .ok (.returned reply, s)
      | .error fault => .error fault := by
  rw [steps, next, objstoreWrite]
  rcases findTarget call.objid true s with ⟨_ | k, s⟩
  · exact steps_returned 5 (-1) s
  · dsimp only
    rw [steps, next]
    dsimp only
    rw [steps, next]
    dsimp only
    split_ifs
    · rfl
    · exact steps_returned ..
    · exact steps_indirectStep ..
    · exact steps_indirectStep ..
    · exact steps_indirectStep ..
    · exact steps_indirectStep ..
    · exact steps_returned ..

/-! ### Steps inside an indirect range -/

section Step

variable {s : Store} {k j : ℕ} {r : Fin 4} {e : ℕ} {data1 : ℤ}

theorem next_called (hlive : Live s k) (hid : s.field k .id = call.objid)
    (huniq : ∀ i, Live s i → s.field i .id = call.objid → i = k) :
    call.next bld .called s = .ok (.found k, s.markDirty k) := by
  rw [next, findTarget_eq hlive hid huniq true, if_pos rfl]

theorem next_found (hj : FirstClear s j) :
    call.next bld (.found k) s = .ok (.allocated k (22815 + j : ℕ), s.allocated j) := by
  rw [next, freeDataBlock_eq hj]

/-- The branch that a block index past the direct ones selects. -/
theorem next_allocated (he : e < 1024) (hoffset : call.offset = (4096 * (4 + 1024 * r + e) : ℕ)) :
    call.next bld (.allocated k data1) s =
      .ok (indirectStep bld k r (4 + 1024 * (r : ℕ) : ℕ) (4 + 1024 * (r : ℕ) + e : ℕ) data1
        (s.assign k .size (s.field k .size + call.buff.length))) := by
  have hr := r.isLt
  have hindex : Int.bmod (call.offset.tdiv 4096) (2 ^ 32) = (4 + 1024 * (r : ℕ) + e : ℕ) := by
    rw [hoffset]
    exact blockIndex_eq (by omega) (by omega)
  rw [next]
  simp only [hindex]
  rw [if_neg (by omega)]
  fin_cases r
  · rw [if_pos (by constructor <;> simp only [] <;> omega)]
    rfl
  · rw [if_neg (by simp only []; omega), if_pos (by constructor <;> simp only [] <;> omega)]
    rfl
  · rw [if_neg (by simp only []; omega), if_neg (by simp only []; omega),
      if_pos (by constructor <;> simp only [] <;> omega)]
    rfl
  · rw [if_neg (by simp only []; omega), if_neg (by simp only []; omega),
      if_neg (by simp only []; omega), if_pos (by constructor <;> simp only [] <;> omega)]
    rfl

/-- The first index of a range allocates a second block. -/
theorem indirectStep_first {base : ℤ} (hj : FirstClear s j) :
    indirectStep bld k r base base data1 s =
      (.second k r data1 (22815 + j : ℕ), s.allocated j) := by
  rw [indirectStep, if_pos rfl, freeDataBlock_eq hj]

/-- A later index reads the indirect block. -/
theorem indirectStep_next {base : ℕ} (he : 0 < e) (hdev : BuildOk bld s.dev)
    (hptr : 0 ≤ s.field k (.indirect r)) :
    indirectStep bld k r base (base + e : ℕ) data1 s =
      (.loaded k r e data1 (logical bld s.dev (s.field k (.indirect r)).toNat),
        { s with
          dev := runCalls bld [.read (s.field k (.indirect r)).toNat Block.zero] s.dev }) := by
  have hindex : ((base + e : ℕ) : ℤ) - base = e := by omega
  rw [indirectStep, if_neg (by omega), blkRead_eq hdev hptr, hindex]

end Step

end WriteCall

end OsAssignments.Objstore
