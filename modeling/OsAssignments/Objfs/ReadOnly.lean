import OsAssignments.Objfs.Runs

/-!
# Runs that only read

Lookups, reads, releases and remounts leave every block of the disk as it was, whatever the disk
holds: after any list of them that is answered, an unmount writes back what was there
(`reading_keeps_disk`). The bitmaps are written back in any case, byte for byte as they were loaded;
no inode block is flagged, and no cache line gets dirty, not even one that a wild block number leads
to.
-/

set_option autoImplicit false
set_option relaxedAutoImplicit false

namespace OsAssignments.Objfs

open Library Objstore

/-- The call is a lookup, a read, a release, or an unmount with a mount. -/
def Op.ReadOnly : Op → Prop
  | .objfsGetattr _ | .objfsOpen _ | .objfsRead .. | .objfsRelease _ | .remount _ => True
  | _ => False

/-- The disk is as it was, and no line of the cache has to be written back. -/
structure Clean (disk : ℕ → Block) (d : Device) : Prop where
  disk : d.disk = disk
  lines : ∀ i, d.cacheDirty i ≠ 1

/-- An unmount would write back what the disk holds. -/
structure Untouched (disk : ℕ → Block) (s : Store) : Prop where
  clean : Clean disk s.dev
  flags : s.dirtyArray = fun _ ↦ 0#32
  inodes : ∀ b < 31, Block.ofWords s.inodeBitmap (1024 * b) = disk b
  data : ∀ b < 256, Block.ofWords s.dataBitmap (1024 * b) = disk (b + 31)

variable {disk : ℕ → Block} {d : Device} {s s' : Store} {bld : Build}

/-! ### Reading blocks -/

/-- A read finds no line to write back. -/
theorem Clean.blockRead (h : Clean disk d) (bld : Build) (blk : ℤ) (temp : Block) :
    Clean disk (cacheBlkRead bld blk temp d).2 := by
  cases bld with
  | uncached => exact h
  | cached =>
    simp only [cacheBlkRead]
    split_ifs with hempty hother hdirty
    · exact ⟨h.disk, h.lines⟩
    · exact absurd hdirty (h.lines _)
    · exact ⟨h.disk, h.lines⟩
    · exact ⟨h.disk, h.lines⟩

theorem Clean.indirect (h : Clean disk s.dev) (bld : Build) (k : ℕ) (r : Fin 4) (base a : ℤ) :
    Clean disk (readIndirect bld k r base a s).2.dev :=
  (h.blockRead bld _ Block.zero).blockRead bld _ Block.zero

theorem Clean.turn (h : Clean disk s.dev) {target : Option ℕ} {a : ℤ} {x : Block}
    (hrun : readTurn bld target a s = .ok (some (x, s'))) : Clean disk s'.dev := by
  cases target with
  | none =>
    simp only [readTurn, deref] at hrun
    split_ifs at hrun
    all_goals cases hrun
  | some k =>
    simp only [readTurn, deref] at hrun
    split_ifs at hrun
    · cases hrun
      exact h.blockRead bld _ Block.zero
    · cases hrun
      exact h.indirect bld k 0 4 a
    · cases hrun
      exact h.indirect bld k 1 1028 a
    · cases hrun
      exact h.indirect bld k 2 2052 a
    · cases hrun
      exact h.indirect bld k 3 3076 a
    · cases hrun

theorem Clean.loop (h : Clean disk s.dev) {target : Option ℕ} {blocks : ℕ} {curr : ℤ}
    {xs : List Block} (hrun : readLoop bld target blocks curr s = .ok (xs, s')) :
    Clean disk s'.dev := by
  induction blocks generalizing curr s xs with
  | zero =>
    cases hrun
    exact h
  | succ blocks ih =>
    rw [readLoop] at hrun
    split at hrun
    · cases hrun
    · cases hrun
      exact h
    · rename_i x t hturn
      split at hrun
      · cases hrun
      · rename_i rest t' hloop
        cases hrun
        exact ih (h.turn hturn) hloop

/-! ### Calls -/

theorem Untouched.read (h : Untouched disk s) {objid offset : ℤ} {size : ℕ}
    {out : ℤ × List UInt8} (hrun : objstoreRead bld objid size offset s = .ok (out, s')) :
    Untouched disk s' := by
  have hframe := objstoreRead_frame hrun
  have hclean : Clean disk s'.dev := by
    have hstore : (findTarget objid false s).2 = s := by
      rcases findTarget_spec s objid false with ⟨heq, -⟩ | ⟨k, -, -, -, heq⟩
      · rw [heq]
      · rw [heq, if_neg Bool.false_ne_true]
    simp only [objstoreRead] at hrun
    generalize findTarget objid false s = found at hrun hstore
    obtain ⟨target, s₀⟩ := found
    obtain rfl : s₀ = s := hstore
    dsimp only at hrun
    split at hrun
    · cases hrun
    · rename_i xs t hloop
      cases hrun
      exact h.clean.loop hloop
  rw [hframe]
  exact ⟨hclean, h.flags, h.inodes, h.data⟩

theorem Untouched.lookup (h : Untouched disk s) (name : Key) :
    Untouched disk (findObjectId name s).2 := by
  rcases findObjectId_cases name s with ⟨hrun, -⟩ | ⟨k, -, hrun⟩
  · rwa [hrun]
  · rw [hrun]
    exact ⟨h.clean, h.flags, h.inodes, h.data⟩

/-- A mounted store is untouched. -/
theorem untouched_objstoreInit (dev : Device) : Untouched dev.disk (objstoreInit dev) where
  clean := ⟨rfl, fun _ hdirty ↦ absurd hdirty (by decide : (0 : ℤ) ≠ 1)⟩
  flags := rfl
  inodes := fun b hb ↦ Block.ofWords_word fun j hj ↦ by
    have hdiv : (1024 * b + j) / 1024 + 0 = b := by omega
    have hmod : (1024 * b + j) % 1024 = j := by omega
    have hload : loadBitmap dev 31 0 (1024 * b + j) =
        (dev.disk ((1024 * b + j) / 1024 + 0)).word ((1024 * b + j) % 1024) :=
      loadBitmap_apply dev (by omega)
    rwa [hdiv, hmod] at hload
  data := fun b hb ↦ Block.ofWords_word fun j hj ↦ by
    have hdiv : (1024 * b + j) / 1024 + 31 = b + 31 := by omega
    have hmod : (1024 * b + j) % 1024 = j := by omega
    have hload : loadBitmap dev 256 31 (1024 * b + j) =
        (dev.disk ((1024 * b + j) / 1024 + 31)).word ((1024 * b + j) % 1024) :=
      loadBitmap_apply dev (by omega)
    rwa [hdiv, hmod] at hload

/-- The unmount of an untouched store changes no block. -/
theorem Untouched.unmount (h : Untouched disk s) : (objstoreDestroy s).disk = disk := by
  funext b
  have hlines : ∀ i, (metadataLoops s).cacheDirty i ≠ 1 := by
    rw [metadataLoops_cache]
    exact h.clean.lines
  rw [objstoreDestroy, disk_writeBackLoop, if_neg fun hdirty ↦ hlines _ hdirty.1,
    disk_metadataLoops]
  split_ifs with hinode hdata hflag
  · exact h.inodes b hinode
  · have hblock := h.data (b - 31) (by omega)
    rwa [show b - 31 + 31 = b by omega] at hblock
  · exact absurd (congrFun h.flags _) hflag.2
  · exact congrFun h.clean.disk b

/-- A call that reads leaves the store untouched. -/
theorem Untouched.step {defFstat defDirstat : Stat} {op : Op} {reply : Reply} {t t' : Session}
    (h : Untouched disk t.store) (hop : op.ReadOnly)
    (hrun : op.run defFstat defDirstat t = .ok (reply, t')) : Untouched disk t'.store := by
  cases op with
  | objfsGetattr name =>
    cases hrun
    dsimp only
    rw [objfsGetattr]
    split_ifs with hroot
    · exact h
    · dsimp only
      split_ifs
      all_goals exact h.lookup name
  | objfsOpen name =>
    cases hrun
    dsimp only
    rw [objfsOpen]
    split_ifs
    all_goals exact h.lookup name
  | objfsRead fh size offset =>
    rw [Op.run, objfsRead] at hrun
    cases hread : objstoreRead t.build (Int.bmod fh (2 ^ 32)) size offset t.store with
    | error fault =>
      rw [hread] at hrun
      cases hrun
    | ok r =>
      rw [hread] at hrun
      cases hrun
      exact h.read hread
  | objfsRelease fh =>
    cases hrun
    exact h
  | remount bld =>
    cases hrun
    have hmounted := untouched_objstoreInit (objstoreDestroy t.store)
    rwa [h.unmount] at hmounted
  | objfsUnlink | objfsRenameKey | objfsCreate | objfsWrite => cases hop

/-- Calls that only read leave every block of the disk as it was. -/
theorem reading_keeps_disk (defFstat defDirstat : Stat) (bld : Build) (dev : Device) (ops : List Op)
    (hops : ∀ op ∈ ops, op.ReadOnly) (rs : List Reply) (s : Session)
    (hrun : replies (Op.run defFstat defDirstat) ops (.start bld dev) = .ok (rs, s)) :
    (objstoreDestroy s.store).disk = dev.disk := by
  have hstep : ∀ op ∈ ops, ∀ (t : Session) r (t' : Session), Untouched dev.disk t.store →
      op.run defFstat defDirstat t = .ok (r, t') → Untouched dev.disk t'.store :=
    fun op hop t r t' ht hcall ↦ ht.step (hops op hop) hcall
  exact (replies_invariant hstep hrun (untouched_objstoreInit dev)).unmount

/-- A file is written, and a mount of the other build looks it up and reads it. -/
theorem reading_keeps_disk_first : ∃ (dev : Device) (rs : List Reply) (s : Session),
    replies (Op.run ⟨0, 0, 0⟩ ⟨0, 0, 0⟩) [.objfsOpen keyA, .objfsRead 2 1 0]
        (.start .uncached dev) = .ok (rs, s) ∧ rs.getLast? = some (.data 1 [7]) ∧
      (objstoreDestroy s.store).disk = dev.disk := by
  have hsim := simulates_spec ⟨0, 0, 0⟩ ⟨0, 0, 0⟩
  obtain ⟨t, ht⟩ := shows_written ⟨0, 0, 0⟩ ⟨0, 0, 0⟩ .cached
  obtain ⟨_, s₀, d, hremount, ⟨rfl, -⟩, hs₀⟩ := hsim (.remount .uncached) t _ ht trivial
  have hstart : s₀ = .start .uncached (objstoreDestroy t.store) :=
    (Prod.mk.inj (Except.ok.inj hremount)).2.symm
  have hpromised : Promised (Op.spec ⟨0, 0, 0⟩ ⟨0, 0, 0⟩) Op.Allowed
      [.objfsOpen keyA, .objfsRead 2 1 0] ⟨filesWritten, 1⟩ := by
    refine .cons trivial fun reply d h ↦ ?_
    obtain ⟨rfl, -⟩ := h
    refine .cons ⟨0, _, handle_zero, value_filesWritten, rfl, by norm_num, fun i hi ↦ ?_⟩
      fun reply d _ ↦ .nil d
    obtain rfl : i = 0 := by omega
    exact Option.some_ne_none _
  obtain ⟨rs, s, d', hrun, hconforms, -⟩ := hsim.replies hpromised hs₀
  rw [hstart] at hrun
  have hlast : rs.getLast? = some (.data 1 [7]) := by
    rcases hconforms with _ | ⟨h₁, h⟩
    obtain ⟨rfl, -⟩ := h₁
    rcases h with _ | ⟨h₂, h⟩
    obtain ⟨rfl, k, v, hk, hv, rfl⟩ := h₂
    obtain rfl := handle_injective (handle_zero.symm.trans hk)
    obtain rfl := Option.some.inj (hv.symm.trans value_filesWritten)
    cases h
    rfl
  refine ⟨_, rs, s, hrun, hlast, reading_keeps_disk ⟨0, 0, 0⟩ ⟨0, 0, 0⟩ .uncached
    (objstoreDestroy t.store) [.objfsOpen keyA, .objfsRead 2 1 0] (fun op hop ↦ ?_) rs s hrun⟩
  rcases List.mem_pair.mp hop with rfl | rfl
  all_goals trivial

end OsAssignments.Objfs
