import OsAssignments.Library.Runs
import OsAssignments.Objstore.Appends

/-!
# Sessions

A session is a store together with a ghost count of the blocks appended to the object in each
slot. A `Call` creates an object, appends the next block of an object, reads a range or destroys
an object, and `Call.Allowed` says what the callers promise: a fresh short key, a live object, a
range that is written, a live key. `Reaches (Call.run bld) ok` is a run of such calls.

Whatever the state of `data_bitmap`, the slots stay in step with the ids and the keys stay unique
(`Consistent`, `consistent_run`); `handles_and_slots_in_step` draws the consequences for the
handles that `create_object`, `find_object_id` and `find_target` pass around.
-/

set_option autoImplicit false
set_option relaxedAutoImplicit false

namespace OsAssignments.Objstore

open Library Library.Ownership

/-! ### Calls -/

/-- A store with the number of blocks appended to the object in each slot. -/
structure Session where
  store : Store
  written : ℕ → ℕ

/-- The calls of a session; an object is named by its slot. -/
inductive Call
  | create (key : Key)
  | append (k : ℕ) (buff : List UInt8)
  | read (k size offset : ℕ)
  | destroy (key : Key)

/-- What a call returns, with the bytes it read. -/
inductive Reply
  | value (v : ℤ)
  | data (v : ℤ) (buff : List UInt8)

/-- The counts after a creation: a new object has no blocks. -/
def Session.kept (s : Session) : ℕ → ℕ := fun k ↦ if Live s.store k then s.written k else 0

namespace Call

/-- A call on a session. -/
def run (bld : Build) : Call → Session → Except Fault (Reply × Session)
  | create key, s =>
    .ok (.value (createObject key s.store).1, ⟨(createObject key s.store).2, s.kept⟩)
  | append k buff, s =>
    (objstoreWrite bld (s.store.field k .id) buff ((s.written k * 4096 : ℕ) : ℤ) s.store).map
      fun (v, t) ↦ (.value v, ⟨t, Function.update s.written k (s.written k + 1)⟩)
  | read k size offset, s =>
    (objstoreRead bld (s.store.field k .id) size (offset : ℤ) s.store).map
      fun ((v, buff), t) ↦ (.data v buff, ⟨t, s.written⟩)
  | destroy key, s =>
    (destroyObject key s.store).map fun (v, t) ↦ (.value v, ⟨t, s.written⟩)

/-- What the caller promises. -/
def Allowed : Call → Session → Prop
  | create key, s => key.Short ∧ ∀ j, Live s.store j → keyEq s.store.a j key = false
  | append k buff, s =>
    Live s.store k ∧ s.written k < 4100 ∧ 1 ≤ buff.length ∧ buff.length ≤ 4096
  | read k size offset, s => Live s.store k ∧ offset + size ≤ 4096 * s.written k
  | destroy key, s => key.Short ∧ ∃ k, Live s.store k ∧ keyEq s.store.a k key = true

end Call

/-- The session after `objstore_init` on a disk that holds no object. -/
def Session.start (d : Device) : Session := ⟨objstoreInit d, fun _ ↦ 0⟩

variable {bld : Build} {s t : Session} {st : Store} {call : Call} {reply : Reply} {k : ℕ}

/-! ### A read changes the device only -/

theorem readTurn_frame {target : Option ℕ} {a : ℤ} {x : Block} {st' : Store}
    (h : readTurn bld target a st = .ok (some (x, st'))) :
    st' = { st with dev := st'.dev } := by
  cases target with
  | none =>
    simp only [readTurn, deref] at h
    split_ifs at h
    all_goals cases h
  | some k =>
    simp only [readTurn, deref] at h
    split_ifs at h <;> cases h <;> rfl

theorem readLoop_frame {target : Option ℕ} {blocks : ℕ} {curr : ℤ} {xs : List Block} {st' : Store}
    (h : readLoop bld target blocks curr st = .ok (xs, st')) :
    st' = { st with dev := st'.dev } := by
  induction blocks generalizing curr st xs with
  | zero =>
    cases h
    rfl
  | succ blocks ih =>
    rw [readLoop] at h
    split at h
    · cases h
    · cases h
      rfl
    · rename_i x st₁ hturn
      have hfirst := readTurn_frame hturn
      split at h
      · cases h
      · rename_i rest st₂ hloop
        cases h
        have hrest := ih hloop
        rw [hrest, hfirst]

theorem objstoreRead_frame {objid offset : ℤ} {size : ℕ} {out : ℤ × List UInt8} {st' : Store}
    (h : objstoreRead bld objid size offset st = .ok (out, st')) :
    st' = { st with dev := st'.dev } := by
  have hstore : (findTarget objid false st).2 = st := by
    rcases findTarget_spec st objid false with ⟨heq, -⟩ | ⟨k, -, -, -, heq⟩
    · rw [heq]
    · rw [heq, if_neg Bool.false_ne_true]
  unfold objstoreRead at h
  generalize findTarget objid false st = found at h hstore
  obtain ⟨target, st₀⟩ := found
  obtain rfl : st₀ = st := hstore
  dsimp only at h
  split at h
  · cases h
  · rename_i xs st₁ hloop
    cases h
    exact readLoop_frame hloop

/-! ### What a call can do -/

/-- Slots, ids and keys are in order. -/
structure Consistent (s : Store) : Prop where
  tidy : Tidy s
  keys : KeysUnique s

theorem Consistent.frame {st st' : Store} (h : Consistent st) (hslots : SameSlots st' st) :
    Consistent st' :=
  ⟨tidy_frame hslots h.tidy, keysUnique_frame hslots h.keys⟩

/-- What an allowed call can do to a session. -/
inductive Turn (bld : Build) (s : Session) : Call → Session → Prop
  | full (key : Key) (hfull : ∀ k < 1015808, s.store.inodeBit k = true) :
    Turn bld s (.create key) ⟨{ s.store with iLock := false }, s.kept⟩
  | created (key : Key) (k : ℕ) (st : Store) (hk : k < 1015808)
    (hclear : s.store.inodeBit k = false) (hcreated : Created key k s.store st) :
    Turn bld s (.create key) ⟨st, s.kept⟩
  | appended (k : ℕ) (buff : List UInt8) (st : Store)
    (hrun : objstoreWrite bld (s.store.field k .id) buff ((s.written k * 4096 : ℕ) : ℤ) s.store =
      .ok (buff.length, st)) (hkeeps : Keeps k s.store st) :
    Turn bld s (.append k buff) ⟨st, Function.update s.written k (s.written k + 1)⟩
  | read (k size offset : ℕ) (out : ℤ × List UInt8) (dev : Device)
    (hrun : objstoreRead bld (s.store.field k .id) size (offset : ℤ) s.store =
      .ok (out, { s.store with dev := dev })) :
    Turn bld s (.read k size offset) ⟨{ s.store with dev := dev }, s.written⟩
  | destroyed (key : Key) (k : ℕ) (st : Store) (hlive : Live s.store k)
    (hkey : keyEq s.store.a k key = true) (hdestroyed : Destroyed k s.store st) :
    Turn bld s (.destroy key) ⟨st, s.written⟩

theorem turn_of_run (hc : Consistent s.store) (hallowed : call.Allowed s)
    (hrun : call.run bld s = .ok (reply, t)) : Turn bld s call t := by
  cases call with
  | create key =>
    cases hrun
    rcases createObject_cases s.store hallowed.1 with ⟨hfull, heq⟩ | ⟨k, hk, hclear, -, st, heq, hd⟩
    · rw [heq]
      exact .full key hfull
    · rw [heq]
      exact .created key k st hk hclear hd
  | append k buff =>
    obtain ⟨hlive, hlt, -, -⟩ := hallowed
    obtain ⟨st, hwrite, hkeeps⟩ := objstoreWrite_keeps bld buff (s.written k * 4096)
      (by omega) hlive fun i hi heq ↦ hc.tidy.ids i k hi hlive heq
    rw [Call.run, hwrite] at hrun
    cases hrun
    exact .appended k buff st hwrite hkeeps
  | read k size offset =>
    rw [Call.run] at hrun
    cases hread : objstoreRead bld (s.store.field k .id) size (offset : ℤ) s.store with
    | error fault =>
      rw [hread] at hrun
      cases hrun
    | ok out =>
      obtain ⟨out, st⟩ := out
      rw [hread] at hrun
      cases hrun
      have hframe := objstoreRead_frame hread
      rw [hframe] at hread ⊢
      exact .read k size offset out st.dev hread
  | destroy key =>
    obtain ⟨hshort, k, hlive, hkey⟩ := hallowed
    obtain ⟨st, hdestroy, hd⟩ := destroyObject_live hc.keys hshort hlive hkey
    rw [Call.run, hdestroy] at hrun
    cases hrun
    exact .destroyed key k st hlive hkey hd

/-! ### Slots over whole runs -/

theorem consistent_start {d : Device} (hd : Blank d) : Consistent (objstoreInit d) where
  tidy := tidy_blank hd
  keys := fun _ _ _ _ hlive ↦ absurd hlive (not_live_blank hd)

/-- Every allowed call keeps the slots and the keys in order. -/
theorem consistent_step (hc : Consistent s.store) (hallowed : call.Allowed s)
    (hrun : call.run bld s = .ok (reply, t)) : Consistent t.store := by
  cases turn_of_run hc hallowed hrun with
  | full key hfull => exact hc.frame (sameSlots_of_eq rfl rfl)
  | created key k st hk hclear hcreated =>
    exact ⟨hcreated.tidy hc.tidy, hcreated.keysUnique hk hc.keys hallowed.2⟩
  | appended k buff st hwrite hkeeps =>
    exact ⟨hkeeps.tidy hallowed.1.bit hc.tidy, hkeeps.keysUnique hc.keys⟩
  | read k size offset out dev hread =>
    exact hc.frame (sameSlots_of_eq rfl rfl)
  | destroyed key k st hlive hkey hdestroyed =>
    exact ⟨hdestroyed.tidy hc.tidy, hdestroyed.keysUnique hc.keys⟩

/-- Slots, ids and keys are in order after any run of allowed calls. -/
theorem consistent_run {ok : Call → Session → Prop} (hok : ∀ call s, ok call s → call.Allowed s)
    (h : Reaches (Call.run bld) ok s t) (hc : Consistent s.store) : Consistent t.store :=
  Reaches.invariant (fun s ↦ Consistent s.store)
    (fun call s _ _ hs hcall hrun ↦ consistent_step hs (hok call s hcall) hrun) h hc

/-- Handles and slots are in step in every state reached from a blank disk. -/
theorem handles_and_slots_in_step (bld : Build) (d : Device) (hd : Blank d) (s : Session)
    (hrun : Reaches (Call.run bld) Call.Allowed (.start d) s) :
    (∀ k < 1015808,
      (s.store.inodeBit k = true ↔ s.store.field k .id ≠ 0) ∧
      (s.store.inodeBit k = true → s.store.field k .id = k + 2) ∧
      (s.store.inodeBit k = false → s.store.field k .size = 0 ∧
        ∀ i, s.store.field k (.direct i) = 0 ∧ s.store.field k (.indirect i) = 0)) ∧
    (∀ key : Key, key.Short →
      ((createObject key s.store).1 = -1 ↔ ∀ k < 1015808, s.store.inodeBit k = true) ∧
      ∀ k < 1015808, s.store.inodeBit k = false → (∀ j < k, s.store.inodeBit j = true) →
        (createObject key s.store).1 = k + 2 ∧
        (∀ j, Live s.store j → s.store.field j .id ≠ k + 2) ∧
        (createObject key s.store).2.field k .size = 0 ∧
        ∀ i, (createObject key s.store).2.field k (.direct i) = 0 ∧
          (createObject key s.store).2.field k (.indirect i) = 0) ∧
    ∀ key : Key, key.Short → ∀ k, Live s.store k → keyEq s.store.a k key = true →
      (findTarget (findObjectId key s.store).1 false (findObjectId key s.store).2).1 = some k := by
  obtain ⟨ht, hkeys⟩ := consistent_run (fun _ _ h ↦ h) hrun (consistent_start hd)
  refine ⟨fun k hk ↦ ⟨ht.bit_iff hk, ht.id k hk, fun hclear ↦ ?_⟩, fun key hkey ↦ ?_,
    fun key hkey k hlive heq ↦ (find_live_key ht hkeys hkey hlive heq).2⟩
  · have hzero := ht.clear k hk hclear
    exact ⟨hzero _ rfl, fun i ↦ ⟨hzero _ rfl, hzero _ rfl⟩⟩
  · rcases createObject_cases s.store hkey with
      ⟨hfull, hcreate⟩ | ⟨j, hj, hclear, hleast, st, hcreate, hc⟩
    · rw [hcreate]
      refine ⟨iff_of_true rfl hfull, fun k hk hclear _ ↦ ?_⟩
      rw [hfull k hk] at hclear
      cases hclear
    · rw [hcreate]
      refine ⟨iff_of_false (by simp only; omega) fun hfull ↦ ?_, fun k hk hclear' hleast' ↦ ?_⟩
      · rw [hfull j hj] at hclear
        cases hclear
      · obtain rfl : k = j := by
          rcases lt_trichotomy k j with h | h | h
          · rw [hleast k h] at hclear'
            cases hclear'
          · exact h
          · rw [hleast' j h] at hclear
            cases hclear
        have hzero := ht.clear k hk hclear
        refine ⟨rfl, fun i hi heq ↦ ?_, ?_, fun i ↦ ⟨?_, ?_⟩⟩
        · rw [ht.id_of_live hi] at heq
          obtain rfl : i = k := by omega
          rw [hi.bit] at hclear
          cases hclear
        · rw [hc.field, if_neg (by simp)]
          exact hzero _ rfl
        · rw [hc.field, if_neg (by simp)]
          exact hzero _ rfl
        · rw [hc.field, if_neg (by simp)]
          exact hzero _ rfl

/-- An append does not fail and keeps the names. -/
theorem Named.append {names : ℕ → Option Key} (h : Named names s.store) {buff : List UInt8}
    (hallowed : (Call.append k buff).Allowed s) (bld : Build) :
    ∃ t, (Call.append k buff).run bld s = .ok (.value buff.length, t) ∧ Named names t.store := by
  obtain ⟨hlive, hlt, -, -⟩ := hallowed
  obtain ⟨st, hwrite, hkeeps⟩ := objstoreWrite_keeps bld buff (s.written k * 4096) (by omega) hlive
    fun i hi heq ↦ h.tidy.ids i k hi hlive heq
  exact ⟨_, by rw [Call.run, hwrite]; rfl, h.keeps hkeeps ((h.live_iff k).mp hlive)⟩

/-- The names of the objects once the first one has been destroyed. -/
def namesB : ℕ → Option Key := Function.update namesAB 0 none

/-- Two objects are created and the first one, which holds a block, is destroyed: slot 0 is free. -/
theorem reaches_freed_slot (bld : Build) : ∃ s, Reaches (Call.run bld) Call.Allowed
    (.start zeroDevice) s ∧ Named namesB s.store := by
  obtain ⟨s₁, hcreate₁, -, h₁⟩ := named_first blank_zeroDevice
  have hallowed₁ : (Call.create keyA).Allowed (.start zeroDevice) :=
    ⟨by decide, fun _ hlive ↦ absurd hlive (not_live_blank blank_zeroDevice)⟩
  have hrun₁ : (Call.create keyA).run bld (.start zeroDevice) =
      .ok (.value 2, ⟨s₁, (Session.start zeroDevice).kept⟩) := by
    rw [Call.run, Session.start, hcreate₁]
  have hcount : (Session.start zeroDevice).kept 0 = 0 := ite_self 0
  have hallowed₂ : (Call.append 0 [7]).Allowed ⟨s₁, (Session.start zeroDevice).kept⟩ :=
    ⟨h₁.live keyA rfl, lt_of_eq_of_lt hcount (by norm_num), by decide, by decide⟩
  obtain ⟨s₂, hrun₂, h₂⟩ := Named.append h₁ hallowed₂ bld
  have hallowed₃ : (Call.create keyB).Allowed s₂ := ⟨by decide, h₂.fresh_second⟩
  obtain ⟨s₃, hcreate₃, -, h₃⟩ := h₂.second
  have hrun₃ : (Call.create keyB).run bld s₂ = .ok (.value 3, ⟨s₃, s₂.kept⟩) := by
    rw [Call.run, hcreate₃]
  have hallowed₄ : (Call.destroy keyA).Allowed ⟨s₃, s₂.kept⟩ :=
    ⟨by decide, 0, h₃.live keyA rfl, h₃.eq rfl (by decide)⟩
  obtain ⟨s₄, hdestroy, -, h₄⟩ := h₃.destroy keyA 0 (by decide) rfl
  have hrun₄ : (Call.destroy keyA).run bld ⟨s₃, s₂.kept⟩ = .ok (.value 0, ⟨s₄, s₂.kept⟩) := by
    rw [Call.run, hdestroy]
    rfl
  exact ⟨_, ((((Reaches.refl _ _ _).step hallowed₁ hrun₁).step hallowed₂ hrun₂).step hallowed₃
    hrun₃).step hallowed₄ hrun₄, h₄⟩

/-- A creation in the freed slot finds no pointers there, and its object is found by its key. -/
theorem handles_of_freed_slot : ∃ s t : Session,
    Named namesB s.store ∧ (Call.create keyA).run .cached s = .ok (.value 2, t) ∧
      (∀ i, t.store.field 0 (.direct i) = 0 ∧ t.store.field 0 (.indirect i) = 0) ∧
      (∀ k < 1015808, t.store.inodeBit k = true ↔ t.store.field k .id ≠ 0) ∧
      (findTarget (findObjectId keyA t.store).1 false (findObjectId keyA t.store).2).1 =
        some 0 := by
  obtain ⟨s, hreaches, hs⟩ := reaches_freed_slot .cached
  have hfresh : ∀ j, namesB j ≠ some keyA := fun j heq ↦ by
    rw [namesB, Function.update_apply, namesAB_eq] at heq
    split_ifs at heq
    exact absurd heq (by decide)
  have hclear : s.store.inodeBit 0 = false := hs.bit 0 (by norm_num)
  have hlowest : ∀ j < 0, s.store.inodeBit j = true := fun j hj ↦ absurd hj (Nat.not_lt_zero j)
  obtain ⟨-, hcreate, -⟩ := handles_and_slots_in_step .cached zeroDevice blank_zeroDevice s hreaches
  obtain ⟨hvalue, -, -, hpointers⟩ :=
    (hcreate keyA (by decide)).2 0 (by norm_num) hclear hlowest
  obtain ⟨u, hrun, -, hu⟩ := hs.create keyA 0 (by decide) (by norm_num) rfl
    (fun j hj ↦ absurd hj (Nat.not_lt_zero j)) hfresh
  have hstep : (Call.create keyA).run .cached s = .ok (.value 2, ⟨u, s.kept⟩) := by
    rw [Call.run, hrun]
    rfl
  have hallowed : (Call.create keyA).Allowed s := ⟨by decide, hs.fresh (by decide) hfresh⟩
  obtain ⟨hbits, -, hfind⟩ := handles_and_slots_in_step .cached zeroDevice blank_zeroDevice _
    (hreaches.step hallowed hstep)
  rw [hrun] at hpointers
  exact ⟨s, _, hs, hstep, hpointers, fun k hk ↦ (hbits k hk).1,
    hfind keyA (by decide) 0 (hu.live keyA rfl) (hu.eq rfl (by decide))⟩

end OsAssignments.Objstore
