import OsAssignments.Objstore.Blocks

/-!
# Sequences of block calls

A `BlockCall` is one call of `cache_blk_read` or `cache_blk_write` with a block number that is not
negative, and `runCalls` runs a sequence of them in either build. On the contents of the blocks a
read does nothing and a write replaces one block (`applyCalls`), whatever the cache evicts on the
way: `logical_runCalls`. `buildOk_runCalls` keeps the cache condition. `cache_transparent` puts
this together with the final write-back loop.

`DirtyFrom n` says that every dirty line holds a block from `n` on. Calls on such blocks keep it,
and leave the disk below `n` alone (`dirtyFrom_runCalls`, `disk_runCalls`): this is how the data
path is kept away from the metadata blocks.
-/

set_option autoImplicit false
set_option relaxedAutoImplicit false

namespace OsAssignments.Objstore

open Library

/-- A call of one of the two block functions. -/
inductive BlockCall
  | read (b : ℕ) (temp : Block)
  | write (b : ℕ) (x : Block)

namespace BlockCall

/-- The block number passed to the call. -/
def blk : BlockCall → ℕ
  | read b _ => b
  | write b _ => b

/-- The device after the call. -/
def run (bld : Build) (d : Device) : BlockCall → Device
  | read b temp => (cacheBlkRead bld b temp d).2
  | write b x => cacheBlkWrite bld b x d

/-- The contents after the call. -/
def apply (m : ℕ → Block) : BlockCall → ℕ → Block
  | read _ _ => m
  | write b x => Function.update m b x

/-- The block numbers passed to `cache_blk_write`. -/
def writes : BlockCall → List ℤ
  | read _ _ => []
  | write b _ => [(b : ℤ)]

end BlockCall

/-- The device after a sequence of calls. -/
def runCalls (bld : Build) (calls : List BlockCall) (d : Device) : Device :=
  calls.foldl (BlockCall.run bld) d

/-- The contents after a sequence of calls. -/
def applyCalls (calls : List BlockCall) (m : ℕ → Block) : ℕ → Block :=
  calls.foldl BlockCall.apply m

variable {bld : Build} {d : Device} {n : ℕ}

theorem runCalls_append (bld : Build) (calls calls' : List BlockCall) (d : Device) :
    runCalls bld (calls ++ calls') d = runCalls bld calls' (runCalls bld calls d) :=
  List.foldl_append ..

theorem logical_run (hd : BuildOk bld d) (call : BlockCall) :
    logical bld (call.run bld d) = call.apply (logical bld d) := by
  cases call with
  | read b temp => exact logical_cacheBlkRead hd b temp
  | write b x => exact logical_cacheBlkWrite hd b x

theorem buildOk_run (hd : BuildOk bld d) (call : BlockCall) : BuildOk bld (call.run bld d) := by
  cases call with
  | read b temp => exact buildOk_cacheBlkRead hd b temp
  | write b x => exact buildOk_cacheBlkWrite hd b x

theorem buildOk_runCalls (hd : BuildOk bld d) (calls : List BlockCall) :
    BuildOk bld (runCalls bld calls d) := by
  induction calls generalizing d with
  | nil => exact hd
  | cons call calls ih => exact ih (buildOk_run hd call)

/-- The contents after a sequence of calls do not depend on what the cache held. -/
theorem logical_runCalls (hd : BuildOk bld d) (calls : List BlockCall) :
    logical bld (runCalls bld calls d) = applyCalls calls (logical bld d) := by
  induction calls generalizing d with
  | nil => rfl
  | cons call calls ih =>
    have hrest := ih (buildOk_run hd call)
    rw [logical_run hd] at hrest
    exact hrest

/-- After a sequence of calls the content of a block depends on that block alone, and on nothing
when the calls write it. -/
theorem applyCalls_congr {m m' : ℕ → Block} {b : ℕ} (calls : List BlockCall)
    (h : m b = m' b ∨ ∃ y, .write b y ∈ calls) : applyCalls calls m b = applyCalls calls m' b := by
  induction calls generalizing m m' with
  | nil => exact h.resolve_right (by simp)
  | cons call calls ih =>
    refine ih ?_
    cases call with
    | read c temp => simpa [BlockCall.apply] using h
    | write c x =>
      by_cases hc : b = c
      · exact Or.inl (by simp [BlockCall.apply, hc])
      · simpa [BlockCall.apply, Function.update_of_ne hc, hc] using h

theorem blkWrites_runCalls (bld : Build) (calls : List BlockCall) (d : Device) (blk : ℤ) :
    blk ∈ (runCalls bld calls d).blkWrites ↔
      blk ∈ d.blkWrites ∨ ∃ call ∈ calls, blk ∈ call.writes := by
  induction calls generalizing d with
  | nil => simp [runCalls]
  | cons call calls ih =>
    have hcall : blk ∈ (call.run bld d).blkWrites ↔ blk ∈ d.blkWrites ∨ blk ∈ call.writes := by
      cases call with
      | read b temp => simp [BlockCall.run, BlockCall.writes]
      | write b x => simp [BlockCall.run, BlockCall.writes, or_comm]
    show blk ∈ (runCalls bld calls (call.run bld d)).blkWrites ↔ _
    rw [ih, hcall, or_assoc]
    simp only [List.mem_cons, exists_eq_or_imp]

/-- The write-back cache is transparent: after any sequence of calls the cache condition holds,
a read returns the content and changes none, a write changes the content of its own block only,
and the final write-back loop leaves the contents on the disk. -/
theorem cache_transparent (d : Device) (hd : CacheOk d) (calls : List BlockCall) :
    let d' := runCalls .cached calls d
    CacheOk d' ∧
      (∀ (b : ℕ) temp, (cacheBlkRead .cached b temp d').1 = logical .cached d' b ∧
        logical .cached (cacheBlkRead .cached b temp d').2 = logical .cached d' ∧
        CacheOk (cacheBlkRead .cached b temp d').2) ∧
      (∀ (b : ℕ) x, logical .cached (cacheBlkWrite .cached b x d') b = x ∧
        (∀ b' ≠ b, logical .cached (cacheBlkWrite .cached b x d') b' = logical .cached d' b') ∧
        CacheOk (cacheBlkWrite .cached b x d')) ∧
      ∀ b, (writeBackLoop d').disk b = logical .cached d' b := by
  have hok : BuildOk .cached (runCalls .cached calls d) := buildOk_runCalls (fun _ ↦ hd) calls
  refine ⟨hok rfl, fun b temp ↦ ⟨cacheBlkRead_fst hok b temp, logical_cacheBlkRead hok b temp,
    buildOk_cacheBlkRead hok b temp rfl⟩, fun b x ↦ ⟨?_, fun b' hb' ↦ ?_,
    buildOk_cacheBlkWrite hok b x rfl⟩, writeBackLoop_eq_logical (hok rfl)⟩
  · rw [logical_cacheBlkWrite hok, Function.update_self]
  · rw [logical_cacheBlkWrite hok, Function.update_of_ne hb']

/-- Two writes to blocks of one slot: the first block is evicted and read back from the disk. -/
theorem cache_transparent_collision :
    (cacheBlkRead .cached 5 Block.zero (runCalls .cached
      [.write 5 (Block.ofList [1]), .write 32773 (Block.ofList [2])] zeroDevice)).1 =
      Block.ofList [1] := by
  have hok : CacheOk zeroDevice := ⟨fun _ _ ↦ by simp [zeroDevice], fun _ _ _ ↦ rfl⟩
  have hread := ((cache_transparent zeroDevice hok
    [.write 5 (Block.ofList [1]), .write 32773 (Block.ofList [2])]).2.1 5 Block.zero).1
  rw [logical_runCalls fun _ ↦ hok] at hread
  refine hread.trans ?_
  simp [applyCalls, BlockCall.apply]

/-! ### Dirty lines and the disk below them -/

/-- Every dirty line holds a block from `n` on. -/
def DirtyFrom (n : ℕ) (d : Device) : Prop :=
  ∀ i : Fin 32768, d.cacheDirty i = 1 → (n : ℤ) ≤ heldBlk d i

theorem heldBlk_slotOf_update (d : Device) (b : ℕ) (i : Fin 32768) :
    32768 * Function.update d.cacheIndex (slotOf b : ℕ) ((b / 32768 : ℕ) : ℤ) i + (i : ℕ) =
      if i = slotOf b then (b : ℤ) else heldBlk d i := by
  rw [update_natCast_apply]
  split_ifs with hi
  · rw [hi, Function.update_self]
    simp only [slotOf]
    omega
  · rw [Function.update_of_ne hi]
    rfl

/-- A call on a block from `n` on keeps the dirty lines there. A read may also be of a lower
block when the slot of that block is not dirty. -/
theorem dirtyFrom_run (bld : Build) (hd : DirtyFrom n d) (call : BlockCall)
    (hcall : n ≤ call.blk ∨ call.writes = [] ∧ d.cacheDirty (slotOf call.blk : ℕ) ≠ 1) :
    DirtyFrom n (call.run bld d) := by
  intro i hdirty
  cases call with
  | read b temp =>
    simp only [BlockCall.run, cacheBlkRead_cacheDirty] at hdirty
    cases bld with
    | uncached => exact hd i hdirty
    | cached =>
      simp only [heldBlk, BlockCall.run, cacheBlkRead_cacheIndex, heldBlk_slotOf_update]
      split_ifs with hi
      · rcases hcall with hcall | ⟨-, hclean⟩
        · exact_mod_cast hcall
        · exact absurd (hi ▸ hdirty) hclean
      · exact hd i hdirty
  | write b x =>
    have hb : n ≤ b := hcall.resolve_right fun h ↦ by simp [BlockCall.writes] at h
    cases bld with
    | uncached =>
      simp only [heldBlk, BlockCall.run, cacheBlkWrite_uncached_cacheDirty,
        cacheBlkWrite_uncached_cacheIndex] at hdirty ⊢
      exact hd i hdirty
    | cached =>
      simp only [BlockCall.run, cacheBlkWrite_cacheDirty, update_natCast_apply] at hdirty
      simp only [heldBlk, BlockCall.run, cacheBlkWrite_cacheIndex, heldBlk_slotOf_update]
      split_ifs with hi
      · exact_mod_cast hb
      · rw [Function.update_of_ne hi] at hdirty
        exact hd i hdirty

theorem dirtyFrom_runCalls (hd : DirtyFrom n d) (calls : List BlockCall)
    (hcalls : ∀ call ∈ calls, n ≤ call.blk) : DirtyFrom n (runCalls bld calls d) := by
  induction calls generalizing d with
  | nil => exact hd
  | cons call calls ih =>
    exact ih (dirtyFrom_run bld hd call (Or.inl (hcalls call List.mem_cons_self)))
      fun call' hcall' ↦ hcalls call' (List.mem_cons_of_mem call hcall')

/-- A call leaves the disk below `n` alone when dirty lines and writes lie from `n` on. -/
theorem disk_run (hd : DirtyFrom n d) (call : BlockCall)
    (hcall : n ≤ call.blk ∨ call.writes = []) {m : ℕ} (hm : m < n) :
    (call.run bld d).disk m = d.disk m := by
  have hlines : ∀ i, d.cacheDirty (i : Fin 32768) = 1 → heldBlk d i ≠ m := fun i hdirty ↦ by
    have := hd i hdirty
    omega
  cases call with
  | read b temp => exact cacheBlkRead_disk hlines bld b temp
  | write b x =>
    have hb : n ≤ b := hcall.resolve_right fun h ↦ by simp [BlockCall.writes] at h
    exact cacheBlkWrite_disk hlines bld (by omega) x

theorem disk_runCalls (hd : DirtyFrom n d) (calls : List BlockCall)
    (hcalls : ∀ call ∈ calls, n ≤ call.blk) {m : ℕ} (hm : m < n) :
    (runCalls bld calls d).disk m = d.disk m := by
  induction calls generalizing d with
  | nil => rfl
  | cons call calls ih =>
    have hhead := hcalls call List.mem_cons_self
    have hrest := ih (dirtyFrom_run bld hd call (Or.inl hhead))
      fun call' hcall' ↦ hcalls call' (List.mem_cons_of_mem call hcall')
    exact hrest.trans (disk_run hd call (Or.inl hhead) hm)

/-- Reads of blocks from `n` on, or of lower blocks whose slot is not dirty, keep the dirty lines
from `n` on and leave the disk below `n` alone. -/
theorem dirtyFrom_reads (hd : DirtyFrom n d) (calls : List BlockCall)
    (hcalls : ∀ call ∈ calls, call.writes = [] ∧
      (n ≤ call.blk ∨ d.cacheDirty (slotOf call.blk : ℕ) ≠ 1)) :
    DirtyFrom n (runCalls bld calls d) ∧ ∀ m < n, (runCalls bld calls d).disk m = d.disk m := by
  induction calls generalizing d with
  | nil => exact ⟨hd, fun _ _ ↦ rfl⟩
  | cons call calls ih =>
    obtain ⟨hwrites, hblk⟩ := hcalls call List.mem_cons_self
    have hsame : (call.run bld d).cacheDirty = d.cacheDirty := by
      cases call with
      | read b temp => exact cacheBlkRead_cacheDirty bld d b temp
      | write b x => exact absurd hwrites (by simp [BlockCall.writes])
    have hhead := dirtyFrom_run bld hd call (hblk.imp_right fun hclean ↦ ⟨hwrites, hclean⟩)
    obtain ⟨hdirty, hdisk⟩ := ih hhead fun call' hcall' ↦ by
      rw [hsame]
      exact hcalls call' (List.mem_cons_of_mem call hcall')
    exact ⟨hdirty, fun m hm ↦ (hdisk m hm).trans (disk_run hd call (.inr hwrites) hm)⟩

/-- The write-back loop leaves the disk below the dirty lines alone. -/
theorem disk_writeBackLoop_of_lt (hd : DirtyFrom n d) {m : ℕ} (hm : m < n) :
    (writeBackLoop d).disk m = d.disk m := by
  rw [disk_writeBackLoop, if_neg]
  rintro ⟨hdirty, hheld⟩
  have := hd (slotOf m) hdirty
  omega

end OsAssignments.Objstore
