import OsAssignments.Library.Threads
import OsAssignments.Objstore.Sharing

/-!
# The two halves of creating and destroying

With several threads in the store, `create_object` and `destroy_object` are two steps each: the
section under `i_lock`, which claims a slot or finds one and clears its bit, and what follows
without the lock, which copies the key or resets the record. `find_object_id` is one step.
`Request.next` is the step of a thread, `Request.answer` the call as a whole; `createObject_halves`
and `destroyObject_halves` put the halves together.
-/

set_option autoImplicit false
set_option relaxedAutoImplicit false

namespace OsAssignments.Objstore

open Library

/-! ### Creation -/

/-- The section of `create_object` under `i_lock`. -/
def createClaim (s : Store) : Option ℕ × Store :=
  match Bitmap.scanWords claimSlot 31744 0 0 ({ s with iLock := true }, none) with
  | .ok ((s, some k), _) => (some k, s)
  | .ok ((s, none), _) => (none, { s with iLock := false })

/-- The end of `create_object`, with the slot that was claimed. -/
def createCopy (key : Key) (k : ℕ) (s : Store) : ℤ × Store :=
  let s := { s with a := setKey s.a k key }
  (s.field k .id, s)

theorem createCopy_reply (key : Key) (k : ℕ) (s : Store) :
    (createCopy key k s).1 = (createCopy key k s).2.field k .id := by
  rw [createCopy]

theorem createObject_halves (key : Key) (s : Store) :
    createObject key s =
      match createClaim s with
      | (some k, s) => createCopy key k s
      | (none, s) => (-1, s) := by
  simp only [createObject, createClaim]
  generalize Bitmap.scanWords claimSlot 31744 0 0 ({ s with iLock := true }, none) = result
  rcases result with e | ⟨⟨s, _ | k⟩, ctr⟩
  · exact e.elim
  · rfl
  · rfl

/-- Slot `k` is the lowest one whose bit is clear. -/
structure LowestClear (s : Store) (k : ℕ) : Prop where
  slot : k < 1015808
  clear : s.inodeBit k = false
  least : ∀ j < k, s.inodeBit j = true

/-- The bits decide which slot is the lowest clear one. -/
theorem LowestClear.congr {s s' : Store} {k : ℕ} (h : LowestClear s k)
    (hbits : ∀ j, s'.inodeBit j = s.inodeBit j) : LowestClear s' k :=
  ⟨h.slot, (hbits k).trans h.clear, fun j hj ↦ (hbits j).trans (h.least j hj)⟩

/-- The section claims the lowest clear slot, if there is one. -/
theorem createClaim_cases (s : Store) :
    ((∀ k < 1015808, s.inodeBit k = true) ∧
      createClaim s = (none, { s with iLock := false })) ∨
    ∃ k, LowestClear s k ∧ createClaim s = (some k, claimed k s) := by
  by_cases hfull : ∀ k < 1015808, s.inodeBit k = true
  · refine .inl ⟨hfull, ?_⟩
    simp only [createClaim]
    rw [scan_claimSlot_full hfull]
  · have hsome : ∃ k, k < 1015808 ∧ s.inodeBit k = false := by
      simpa using hfull
    obtain ⟨hk, hclear⟩ := Nat.find_spec hsome
    have hleast : ∀ j < Nat.find hsome, s.inodeBit j = true := fun j hj ↦ by
      have hmin := Nat.find_min hsome hj
      simpa [hj.trans hk] using hmin
    refine .inr ⟨Nat.find hsome, ⟨hk, hclear, hleast⟩, ?_⟩
    simp only [createClaim]
    rw [scan_claimSlot hk hclear hleast]

/-! ### Destruction -/

/-- The section of `destroy_object` under `i_lock`. A key that is not live leaves `target` null. -/
def destroyUnlink (key : Key) (s : Store) : Except Fault (ℕ × Store) :=
  let s := { s with iLock := true }
  match Bitmap.scanWords (stopAtKey key s) 31744 0 0 () with
  | .error (i, b, ctr) =>
    let s := { s with inodeBitmap := Function.update s.inodeBitmap i (s.inodeBitmap i ^^^ b) }
    .ok (ctr, { s with iLock := false })
  | .ok _ => .error .nullDeref

/-- The end of `destroy_object`, with the slot that was found. -/
def destroyReset (k : ℕ) (s : Store) : ℤ × Store := (0, destroyTarget k (s.markDirty k))

theorem destroyReset_reply (k : ℕ) (s : Store) : (destroyReset k s).1 = 0 := by
  rw [destroyReset]

theorem destroyObject_halves (key : Key) (s : Store) :
    destroyObject key s =
      match destroyUnlink key s with
      | .ok (k, s) => .ok (destroyReset k s)
      | .error fault => .error fault := by
  simp only [destroyObject, destroyUnlink]
  generalize Bitmap.scanWords (stopAtKey key { s with iLock := true }) 31744 0 0 () = result
  rcases result with ⟨i, b, ctr⟩ | ⟨⟨⟩, ctr⟩ <;> rfl

/-- Slot `k` is the first live one with a key. -/
structure Finds (key : Key) (s : Store) (k : ℕ) : Prop where
  live : Live s k
  found : keyEq s.a k key = true
  least : ∀ j < k, ¬(Live s j ∧ keyEq s.a j key = true)

/-- The store after the section of `destroy_object` has found slot `k`. -/
def cleared (k : ℕ) (s : Store) : Store :=
  { s with
    inodeBitmap := Function.update s.inodeBitmap (k / 32)
      (s.inodeBitmap (k / 32) ^^^ Bitmap.mask (k % 32))
    iLock := false }

theorem inodeBit_cleared {s : Store} {k : ℕ} (hk : s.inodeBit k = true) (j : ℕ) :
    (cleared k s).inodeBit j = if j = k then false else s.inodeBit j := by
  refine (Bitmap.bit_xor_mask s.inodeBitmap k j).trans ?_
  by_cases hj : j = k
  · rw [if_pos hj, if_pos hj, hj, ← Store.inodeBit, hk]
    rfl
  · rw [if_neg hj, if_neg hj]
    rfl

section Table

variable {s s' : Store} {k : ℕ} {key : Key}

private theorem not_found_iff (key : Key) (s : Store) (k : ℕ) (hk : k < 1015808) :
    ¬(s.inodeBit k = true ∧ s.field k .id ≠ 0 ∧ keyEq s.a k key = true) ↔
      ¬(Live s k ∧ keyEq s.a k key = true) := by
  rw [not_iff_not]
  exact ⟨fun h ↦ ⟨⟨hk, h.1, h.2.1⟩, h.2.2⟩, fun h ↦ ⟨h.1.bit, h.1.id, h.2⟩⟩

/-- The section clears the bit of the first live slot with the key, or dies when there is none. -/
theorem destroyUnlink_cases (key : Key) (s : Store) :
    (destroyUnlink key s = .error .nullDeref ∧ ∀ k, ¬(Live s k ∧ keyEq s.a k key = true)) ∨
    ∃ k, Finds key s k ∧ destroyUnlink key s = .ok (k, cleared k s) := by
  rcases scan_stopAtKey key s with ⟨hexit, hall⟩ | ⟨k, hk, hlive, hleast, hexit⟩
  · refine .inl ⟨?_, fun k h ↦ (not_found_iff key s k h.1.slot).mp (hall k h.1.slot) h⟩
    simp only [destroyUnlink]
    rw [hexit]
  · refine .inr ⟨k, ⟨⟨hk, hlive.1, hlive.2.1⟩, hlive.2.2, fun j hj ↦ ?_⟩, ?_⟩
    · exact (not_found_iff key s j (by omega)).mp (hleast j hj)
    · simp only [destroyUnlink]
      rw [hexit]
      rfl

/-- The lookup finds the first live slot with the key, if there is one. -/
theorem findObjectId_cases (key : Key) (s : Store) :
    (findObjectId key s = (-1, s) ∧ ∀ k, ¬(Live s k ∧ keyEq s.a k key = true)) ∨
    ∃ k, Finds key s k ∧ findObjectId key s = (s.field k .id, { s with backup := some k }) := by
  rcases findObjectId_spec s key with ⟨hexit, hall⟩ | ⟨k, hk, hlive, hleast, hexit⟩
  · exact .inl ⟨hexit, fun k h ↦ (not_found_iff key s k h.1.slot).mp (hall k h.1.slot) h⟩
  · exact .inr ⟨k, ⟨⟨hk, hlive.1, hlive.2.1⟩, hlive.2.2, fun j hj ↦
      (not_found_iff key s j (by omega)).mp (hleast j hj)⟩, hexit⟩

/-- The first live slot with a key is unique. -/
theorem Finds.unique {j : ℕ} (h : Finds key s k) (h' : Finds key s j) : j = k := by
  by_contra hne
  rcases Nat.lt_or_gt_of_ne hne with hlt | hlt
  · exact h.least j hlt ⟨h'.live, h'.found⟩
  · exact h'.least k hlt ⟨h.live, h.found⟩

/-- A record is reset; the other records, the keys and the inode bits are kept. -/
structure Resets (k : ℕ) (s s' : Store) : Prop where
  field : ∀ k' f, s'.field k' f = if k' = k ∧ f.reset = true then 0 else s.field k' f
  bytes : ∀ n, n < 88 * k ∨ 88 * k + 56 ≤ n → s'.a n = s.a n
  inodeBitmap : s'.inodeBitmap = s.inodeBitmap

private theorem resets_of_frees {s₁ s₂ : Store} {blks : List ℤ}
    (hs₁ : s₁ = ((s.markDirty k).assign k .id 0).assign k .size 0) (hfrees : Frees blks s₁ s₂) :
    Resets k s ((List.finRange 4).foldl (clearPointers k) s₂) := by
  obtain ⟨hfield, hbytes, hrest⟩ := clearPointers_loop k s₂
  generalize (List.finRange 4).foldl (clearPointers k) s₂ = s₃ at hfield hbytes hrest
  refine ⟨fun k' f ↦ ?_, fun n hn ↦ ?_, ?_⟩
  · have hfield₁ : s₁.field k' f = if k' = k ∧ (f = .id ∨ f = .size) then 0 else s.field k' f :=
      hs₁ ▸ field_reset_head (s.markDirty k) k k' f
    rw [hfield, hfrees.field, hfield₁]
    by_cases hk : k' = k
    · cases f <;> simp [hk, Field.pointer, Field.reset]
    · simp [hk]
  · rw [hbytes n hn, hfrees.a, hs₁]
    exact (setField_of_outside hn).trans (setField_of_outside hn)
  · exact (congrArg Store.inodeBitmap hrest).trans (hfrees.inodeBitmap.trans (hs₁ ▸ rfl))

/-- The end of `destroy_object` resets the record. -/
theorem resets_destroyReset (k : ℕ) (s : Store) : Resets k s (destroyReset k s).2 :=
  resets_of_frees rfl (frees_loops k _)

end Table

/-! ### Calls of threads -/

/-- A call that a thread makes. -/
inductive Request
  | create (key : Key)
  | destroy (key : Key)
  | lookup (key : Key)

/-- The key of a call. -/
def Request.key : Request → Key
  | .create key => key
  | .destroy key => key
  | .lookup key => key

/-- How far a call is: a creation may have claimed a slot, a destruction may have cleared the bit of
one. -/
inductive Phase
  | called
  | claimed (k : ℕ)
  | unlinked (k : ℕ)
  | returned (reply : ℤ)

/-- The next step of a call. -/
def Request.next : Request → Phase → Store → Except Fault (Phase × Store)
  | .create _, .called, s =>
    match createClaim s with
    | (some k, s) => .ok (.claimed k, s)
    | (none, s) => .ok (.returned (-1), s)
  | .create key, .claimed k, s =>
    let (reply, s) := createCopy key k s
    .ok (.returned reply, s)
  | .destroy key, .called, s =>
    match destroyUnlink key s with
    | .ok (k, s) => .ok (.unlinked k, s)
    | .error fault => .error fault
  | .destroy _, .unlinked k, s =>
    let (reply, s) := destroyReset k s
    .ok (.returned reply, s)
  | .lookup key, .called, s =>
    let (reply, s) := findObjectId key s
    .ok (.returned reply, s)
  | _, phase, s => .ok (phase, s)

theorem Request.next_claimed (key : Key) (k : ℕ) (s : Store) :
    (Request.create key).next (.claimed k) s =
      .ok (.returned (createCopy key k s).1, (createCopy key k s).2) := by
  rw [Request.next]

theorem Request.next_unlinked (key : Key) (k : ℕ) (s : Store) :
    (Request.destroy key).next (.unlinked k) s =
      .ok (.returned (destroyReset k s).1, (destroyReset k s).2) := by
  rw [Request.next]

theorem Request.next_lookup (key : Key) (s : Store) :
    (Request.lookup key).next .called s =
      .ok (.returned (findObjectId key s).1, (findObjectId key s).2) := by
  rw [Request.next]

/-- The call as a whole. -/
def Request.answer : Request → Store → Outcome ℤ
  | .create key, s => .ok (createObject key s)
  | .destroy key, s => destroyObject key s
  | .lookup key, s => .ok (findObjectId key s)

/-- A call keeps the live objects with other keys. -/
theorem Request.answer_keeps {s s' : Store} {k : ℕ} {key : Key} {request : Request} {reply : ℤ}
    (hshort : request.key.Short) (hkey : key.Short) (hne : request.key ≠ key) (hlive : Live s k)
    (heq : keyEq s.a k key = true) (hrun : request.answer s = .ok (reply, s')) :
    Live s' k ∧ keyEq s'.a k key = true ∧ s'.field k .id = s.field k .id := by
  cases request with
  | create key' =>
    rcases createObject_cases s hshort with ⟨-, hfull⟩ | ⟨j, hj, hclear, -, s'', hcreate, hc⟩
    · cases hfull.symm.trans (Except.ok.inj hrun)
      exact ⟨⟨hlive.slot, hlive.bit, hlive.id⟩, heq, rfl⟩
    · cases hcreate.symm.trans (Except.ok.inj hrun)
      have hjk : k ≠ j := by
        rintro rfl
        rw [hlive.bit] at hclear
        cases hclear
      refine ⟨(hc.live hj k).mpr (.inl hlive), ?_, ?_⟩
      · rw [hc.key k key hkey, if_neg hjk, heq]
      · rw [hc.field, if_neg fun h ↦ hjk h.1]
  | destroy key' =>
    rcases destroyObject_spec key' s with ⟨hdies, -⟩ | ⟨j, hj, ⟨-, -, hfound⟩, -, s'', hdestroy, hd⟩
    · cases hdies.symm.trans hrun
    · cases hdestroy.symm.trans hrun
      have hjk : k ≠ j := by
        rintro rfl
        exact hne (key_unique hfound heq)
      refine ⟨(hd.live k).mpr ⟨hlive, hjk⟩, ?_, ?_⟩
      · rw [keyEq_of_bytes hd.bytes hkey, heq]
      · rw [hd.field, if_neg fun h ↦ hjk h.1]
  | lookup key' =>
    rcases findObjectId_cases key' s with ⟨hnone, -⟩ | ⟨j, -, hfind⟩
    · obtain ⟨-, rfl⟩ := Prod.mk.inj (hnone.symm.trans (Except.ok.inj hrun))
      exact ⟨hlive, heq, rfl⟩
    · obtain ⟨-, rfl⟩ := Prod.mk.inj (hfind.symm.trans (Except.ok.inj hrun))
      exact ⟨⟨hlive.slot, hlive.bit, hlive.id⟩, heq, rfl⟩

end OsAssignments.Objstore
