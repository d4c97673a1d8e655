import OsAssignments.Objfs.Files

/-!
# Runs of the file system

Every list of calls that uses the store as it expects to be used is answered as the files say and
dies nowhere, with either build and however often it is mounted again (`objfs_files`). Afterwards
the blocks that were not taken are free. Unmounting and mounting again, by whichever build, shows in
none of the other replies (`remounts_invisible`).
-/

set_option autoImplicit false
set_option relaxedAutoImplicit false

namespace OsAssignments.Objfs

open Library Objstore

variable {defFstat defDirstat : Stat} {d d' d'' : View} {op : Op} {reply reply' : Reply}

/-! ### Replies -/

theorem shows_start (bld : Build) {dev : Device} (hdev : Blank dev) :
    Shows (.start bld dev) .start := ⟨_, represents_start bld hdev⟩

/-- From a disk that was never used, the calls are answered as the files say, and each write takes
the blocks it needs. -/
theorem objfs_files (defFstat defDirstat : Stat) (bld : Build) (dev : Device) (hdev : Blank dev)
    (ops : List Op) (hops : Promised (Op.spec defFstat defDirstat) Op.Allowed ops .start) :
    ∃ rs s d, replies (Op.run defFstat defDirstat) ops (.start bld dev) = .ok (rs, s) ∧
      Conforms (Op.spec defFstat defDirstat) ops .start rs d ∧
      freeBlocks s.store + d.used = 8388608 := by
  obtain ⟨rs, s, d, hrun, hconforms, writes, hrep⟩ :=
    (simulates_spec defFstat defDirstat).replies hops (shows_start bld hdev)
  exact ⟨rs, s, d, hrun, hconforms, hrep.space⟩

/-! ### Mounting again -/

theorem handle_injective : Function.Injective handle := fun k l h ↦ by
  simp only [handle] at h
  exact Fin.ext (by omega)

/-- A call has one answer. -/
theorem spec_unique (h : op.spec defFstat defDirstat d reply d')
    (h' : op.spec defFstat defDirstat d reply' d'') : reply = reply' ∧ d' = d'' := by
  cases op with
  | objfsRead fh size offset =>
    obtain ⟨rfl, k, v, rfl, hv, rfl⟩ := h
    obtain ⟨rfl, l, w, hl, hw, rfl⟩ := h'
    obtain rfl := handle_injective hl
    obtain rfl := Option.some.inj (hv.symm.trans hw)
    exact ⟨rfl, rfl⟩
  | objfsWrite fh buf offset =>
    obtain ⟨rfl, k, v, rfl, hv, rfl⟩ := h
    obtain ⟨rfl, l, w, hl, hw, rfl⟩ := h'
    obtain rfl := handle_injective hl
    obtain rfl := Option.some.inj (hv.symm.trans hw)
    exact ⟨rfl, rfl⟩
  | objfsUnlink name | objfsRenameKey oldkey newkey ctr | objfsCreate name =>
    exact ⟨h.1.trans h'.1.symm, h.2.trans h'.2.symm⟩
  | objfsGetattr name | objfsOpen name | objfsRelease fh | remount bld =>
    exact ⟨h.2.trans h'.2.symm, h.1.trans h'.1.symm⟩

/-- The call is one of the kernel. -/
def Op.ofKernel : Op → Bool
  | .remount _ => false
  | _ => true

theorem spec_of_not_ofKernel (hop : op.ofKernel = false) (d : View) :
    op.spec defFstat defDirstat d (.status 0) d ∧
      ∀ r d', op.spec defFstat defDirstat d r d' → d' = d := by
  cases op with
  | remount bld => exact ⟨⟨rfl, rfl⟩, fun r d' h ↦ h.1⟩
  | _ => cases hop

/-- The calls of the kernel are answered as if the store were mounted once, by any build. -/
theorem remounts_invisible (defFstat defDirstat : Stat) (bld bld' : Build) (dev dev' : Device)
    (hdev : Blank dev) (hdev' : Blank dev') (ops : List Op)
    (hops : Promised (Op.spec defFstat defDirstat) Op.Allowed ops .start) :
    ∃ rs s s', replies (Op.run defFstat defDirstat) ops (.start bld dev) = .ok (rs, s) ∧
      replies (Op.run defFstat defDirstat) (ops.filter Op.ofKernel) (.start bld' dev') =
        .ok (keptReplies Op.ofKernel ops rs, s') := by
  have hops' := hops.filter (p := Op.ofKernel) fun op d hop ↦ ⟨_, (spec_of_not_ofKernel hop d).1⟩
  obtain ⟨rs, s, e, hrun, hconforms, -⟩ :=
    (simulates_spec defFstat defDirstat).replies hops (shows_start bld hdev)
  obtain ⟨rs', s', e', hrun', hconforms', -⟩ :=
    (simulates_spec defFstat defDirstat).replies hops' (shows_start bld' hdev')
  have hkept := hconforms.filter (p := Op.ofKernel) fun op d r d' hop h ↦
    (spec_of_not_ofKernel hop d).2 r d' h
  have hunique : ∀ (op : Op) d r d' r' d'', op.Allowed d → op.spec defFstat defDirstat d r d' →
      op.spec defFstat defDirstat d r' d'' → r = r' ∧ d' = d'' :=
    fun _ _ _ _ _ _ _ h h' ↦ spec_unique h h'
  obtain ⟨rfl, -⟩ := Conforms.unique hunique hops' hkept hconforms'
  exact ⟨rs, s, s', hrun, hrun'⟩

/-! ### A first file -/

/-- The files after the first creation. -/
def filesA : Files := View.start.files.occupy 0 keyA .empty

theorem firstFree_start : View.start.files.firstFree = some 0 :=
  Directory.firstFree_eq_some_iff.mpr ⟨rfl, fun j hj ↦ absurd hj (Fin.not_lt_zero j)⟩

theorem spec_first_create (h : (Op.objfsCreate keyA).spec defFstat defDirstat .start reply d) :
    d = ⟨filesA, 0⟩ := by
  obtain ⟨-, rfl⟩ := h
  rw [firstFree_start]
  rfl

theorem value_filesA : filesA.value 0 = some .empty := Directory.occupy_value_self ..

/-- A file that is written, and read after a remount. -/
def firstOps (bld : Build) : List Op :=
  [.objfsCreate keyA, .objfsWrite 2 [7] 0, .remount bld, .objfsRead 2 1 0]

theorem handle_zero : (2 : ℤ) = handle 0 := rfl

/-- The files after the first write. -/
def filesWritten : Files := filesA.assign 0 (some (File.empty.write 0 [7]))

theorem value_filesWritten : filesWritten.value 0 = some (File.empty.write 0 [7]) :=
  Directory.assign_value_self ..

theorem spec_first_write
    (h : (Op.objfsWrite 2 [7] 0).spec defFstat defDirstat ⟨filesA, 0⟩ reply d) :
    d = ⟨filesWritten, 1⟩ := by
  obtain ⟨-, k, v, hk, hv, rfl⟩ := h
  obtain rfl := handle_injective (handle_zero.symm.trans hk)
  obtain rfl := Option.some.inj (hv.symm.trans value_filesA)
  rfl

theorem allowed_first_create : (Op.objfsCreate keyA).Allowed .start :=
  ⟨by decide, fun _ hk ↦ hk.1 rfl⟩

theorem allowed_first_write : (Op.objfsWrite 2 [7] 0).Allowed ⟨filesA, 0⟩ :=
  ⟨0, .empty, handle_zero, value_filesA, rfl, by norm_num, by decide, by decide,
    fun r i _ _ heq ↦ absurd heq (by omega), by decide⟩

/-- The first file is created and written. -/
theorem shows_written (defFstat defDirstat : Stat) (bld : Build) :
    ∃ s : Session, Shows s ⟨filesWritten, 1⟩ := by
  have hsim := simulates_spec defFstat defDirstat
  obtain ⟨_, s, d, -, h₁, hs⟩ := hsim (.objfsCreate keyA) (.start bld zeroDevice) _
    (shows_start bld blank_zeroDevice) allowed_first_create
  obtain rfl := spec_first_create h₁
  obtain ⟨_, t, d, -, h₂, ht⟩ := hsim (.objfsWrite 2 [7] 0) s _ hs allowed_first_write
  obtain rfl := spec_first_write h₂
  exact ⟨t, ht⟩

theorem promised_first (bld : Build) :
    Promised (Op.spec defFstat defDirstat) Op.Allowed (firstOps bld) .start := by
  refine .cons allowed_first_create fun reply d h ↦ ?_
  obtain rfl := spec_first_create h
  refine .cons allowed_first_write fun reply d h ↦ ?_
  obtain rfl := spec_first_write h
  refine .cons trivial fun reply d h ↦ ?_
  obtain ⟨rfl, -⟩ := h
  refine .cons ⟨0, _, handle_zero, value_filesWritten, rfl, by norm_num, fun i hi ↦ ?_⟩
    fun reply d _ ↦ .nil d
  obtain rfl : i = 0 := by omega
  exact Option.some_ne_none _

theorem conforms_first {bld : Build} {rs : List Reply}
    (h : Conforms (Op.spec defFstat defDirstat) (firstOps bld) .start rs d) :
    rs.getLast? = some (.data 1 [7]) ∧ d.used = 1 := by
  rcases h with _ | ⟨h₁, h⟩
  obtain rfl := spec_first_create h₁
  rcases h with _ | ⟨h₂, h⟩
  obtain rfl := spec_first_write h₂
  rcases h with _ | ⟨h₃, h⟩
  obtain ⟨rfl, -⟩ := h₃
  rcases h with _ | ⟨h₄, h⟩
  obtain ⟨rfl, k, v, hk, hv, rfl⟩ := h₄
  obtain rfl := handle_injective (handle_zero.symm.trans hk)
  obtain rfl := Option.some.inj (hv.symm.trans value_filesWritten)
  cases h
  exact ⟨rfl, rfl⟩

/-- What is written through the cache is read without it, and one block was taken. -/
theorem objfs_files_first : ∃ rs s,
    replies (Op.run ⟨0, 0, 0⟩ ⟨0, 0, 0⟩) (firstOps .uncached) (.start .cached zeroDevice) =
        .ok (rs, s) ∧ rs.getLast? = some (.data 1 [7]) ∧ freeBlocks s.store = 8388607 := by
  obtain ⟨rs, s, d, hrun, hconforms, hspace⟩ := objfs_files ⟨0, 0, 0⟩ ⟨0, 0, 0⟩ .cached zeroDevice
    blank_zeroDevice (firstOps .uncached) (promised_first .uncached)
  obtain ⟨hlast, hused⟩ := conforms_first hconforms
  exact ⟨rs, s, hrun, hlast, by omega⟩

/-- The same calls without the remount. -/
theorem remounts_invisible_first : ∃ rs s s',
    replies (Op.run ⟨0, 0, 0⟩ ⟨0, 0, 0⟩) (firstOps .uncached) (.start .cached zeroDevice) =
        .ok (rs, s) ∧
      replies (Op.run ⟨0, 0, 0⟩ ⟨0, 0, 0⟩)
        [.objfsCreate keyA, .objfsWrite 2 [7] 0, .objfsRead 2 1 0]
        (.start .uncached zeroDevice) = .ok (keptReplies Op.ofKernel (firstOps .uncached) rs, s') :=
  remounts_invisible ⟨0, 0, 0⟩ ⟨0, 0, 0⟩ .cached .uncached zeroDevice zeroDevice blank_zeroDevice
    blank_zeroDevice (firstOps .uncached) (promised_first .uncached)

end OsAssignments.Objfs
