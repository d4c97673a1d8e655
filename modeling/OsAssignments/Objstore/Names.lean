import OsAssignments.Objstore.Rename

/-!
# Names

The name of an object is the string at the key field of its record. Nothing checks a name: neither
`create_object` nor `rename_object` looks for an object that already has it, and `strcpy` copies it
whatever its length.

`names_unique` is about the runs in which no name is given twice: there no two live objects ever
share one. `keys_kept_apart_iff` is about the length. A name of less than 32 bytes stays in its
record. A longer one runs into the next record, and does no harm there only when it happens to spell
the low bytes of the id of that record (`FitsByChance`).
-/

set_option autoImplicit false
set_option relaxedAutoImplicit false

namespace OsAssignments.Objstore

open Library

variable {s s' t : Store} {key newname : Key} {k j n : ℕ}

/-! ### Unique names -/

/-- The calls that give and take names; a renaming finds the given value on the stack. -/
inductive NameCall
  | create (key : Key)
  | rename (key newname : Key) (ctr : BitVec 32)
  | destroy (key : Key)

namespace NameCall

/-- A call on a store. -/
def run : NameCall → Store → Outcome ℤ
  | create key, s => .ok (createObject key s)
  | rename key newname ctr, s => renameObject key newname ctr s
  | destroy key, s => destroyObject key s

/-- Names are short, and a name that a live object has is not given to another one. -/
def Distinct : NameCall → Store → Prop
  | create key, s => key.Short ∧
    ((∀ j, Live s j → keyEq s.a j key = false) ∨ ∀ k < 1015808, s.inodeBit k = true)
  | rename key newname _, s => key.Short ∧ newname.Short ∧
    ∀ j, Live s j → keyEq s.a j newname = true → keyEq s.a j key = true
  | destroy key, _ => key.Short

end NameCall

/-- What a renaming that returns has done to the store. -/
theorem renameObject_ok {ctr : BitVec 32} {v : ℤ}
    (h : renameObject key newname ctr s = .ok (v, s')) :
    ∃ m flag, keyEq s.a m key = true ∧ s' = renamed s m newname flag := by
  rw [renameObject] at h
  rcases renameScan_cases key newname ctr s with
    ⟨hrun, -⟩ | ⟨hrun, -⟩ | ⟨j, m, flag, r, hrun, hm, -⟩ | ⟨n, r, hrun, hn⟩
  · rw [hrun] at h
    cases h
  · rw [hrun] at h
    cases h
  · rw [hrun] at h
    exact ⟨m, flag, hm.found, (Prod.mk.inj (Except.ok.inj h)).2.symm.trans hm.store⟩
  · obtain ⟨j, m, flag, -, hm⟩ := hn.first
    rw [hrun] at h
    exact ⟨m, flag, hm.found, (Prod.mk.inj (Except.ok.inj h)).2.symm.trans hm.store⟩

/-- A renaming keeps names unique unless another object has the new one. -/
theorem KeysUnique.renamed (h : KeysUnique s) (hkey : key.Short) (hnew : newname.Short) {m flag : ℕ}
    (hm : keyEq s.a m key = true)
    (hother : ∀ j, Live s j → keyEq s.a j newname = true → keyEq s.a j key = true) :
    KeysUnique (renamed s m newname flag) := by
  intro other hshort i i' hi hi' heq heq'
  rw [keyEq_renamed s m flag _ hnew hshort] at heq heq'
  rw [live_renamed s m flag _ hnew] at hi hi'
  by_cases him : i = m
  · by_cases him' : i' = m
    · rw [him, him']
    · rw [if_pos him, decide_eq_true_iff] at heq
      rw [if_neg him', heq] at heq'
      exact h key hkey i i' hi hi' (him ▸ hm) (hother i' hi' heq')
  · by_cases him' : i' = m
    · rw [if_pos him', decide_eq_true_iff] at heq'
      rw [if_neg him, heq'] at heq
      exact h key hkey i i' hi hi' (hother i hi heq) (him' ▸ hm)
    · rw [if_neg him] at heq
      rw [if_neg him'] at heq'
      exact h other hshort i i' hi hi' heq heq'

theorem keysUnique_step {call : NameCall} {v : ℤ} (h : KeysUnique s) (hdistinct : call.Distinct s)
    (hrun : call.run s = .ok (v, s')) : KeysUnique s' := by
  cases call with
  | create key =>
    obtain ⟨hkey, hfresh⟩ := hdistinct
    have hcreate : createObject key s = (v, s') := Except.ok.inj hrun
    rcases createObject_cases s hkey with ⟨-, heq⟩ | ⟨k, hk, hclear, -, st, heq, hc⟩
    · obtain ⟨-, rfl⟩ := Prod.mk.inj (heq.symm.trans hcreate)
      exact keysUnique_frame (s := s) (sameSlots_of_eq rfl rfl) h
    · obtain ⟨-, rfl⟩ := Prod.mk.inj (heq.symm.trans hcreate)
      refine hc.keysUnique hk h (hfresh.resolve_right fun hfull ↦ ?_)
      rw [hfull k hk] at hclear
      cases hclear
  | rename key newname ctr =>
    obtain ⟨hkey, hnew, hother⟩ := hdistinct
    obtain ⟨m, flag, hm, rfl⟩ := renameObject_ok hrun
    exact h.renamed hkey hnew hm hother
  | destroy key =>
    rcases destroyObject_spec key s with ⟨hnone, -⟩ | ⟨k, -, -, -, st, hdestroy, hd⟩
    · exact nomatch hrun.symm.trans hnone
    · obtain ⟨-, rfl⟩ := Prod.mk.inj (Except.ok.inj (hrun.symm.trans hdestroy))
      exact hd.keysUnique h

/-- As long as no name that a live object has is given to another one, no two live objects share a
name, and a creation with the name of a live object changes nothing. -/
theorem names_unique (d : Device) (hd : Blank d) (s : Store)
    (hrun : Reaches NameCall.run NameCall.Distinct (objstoreInit d) s) :
    KeysUnique s ∧ ∀ key, (NameCall.create key).Distinct s →
      (∃ j, Live s j ∧ keyEq s.a j key = true) →
      createObject key s = (-1, { s with iLock := false }) := by
  refine ⟨hrun.invariant KeysUnique (fun call s v t hs hok hstep ↦ keysUnique_step hs hok hstep)
    fun _ _ _ _ hlive ↦ absurd hlive (not_live_blank hd), fun key hdistinct hlive ↦ ?_⟩
  obtain ⟨j, hj, heq⟩ := hlive
  refine createObject_full key (hdistinct.2.resolve_left fun hfresh ↦ ?_)
  rw [hfresh j hj] at heq
  cases heq

/-- The key that the second object is renamed to. -/
def keyC : Key := ⟨[99], by decide⟩

/-- Two objects are created, and the second one gets another name. -/
theorem names_unique_renamed : ∃ s₁ s₂ s₃ : Store,
    createObject keyA (objstoreInit zeroDevice) = (2, s₁) ∧ createObject keyB s₁ = (3, s₂) ∧
      renameObject keyB keyC 0 s₂ = .ok (3, s₃) ∧ Live s₃ 0 ∧ Live s₃ 1 ∧
      keyEq s₃.a 0 keyA = true ∧ keyEq s₃.a 1 keyC = true ∧ KeysUnique s₃ := by
  obtain ⟨s₁, hcreate, -, h₁⟩ := named_first blank_zeroDevice
  obtain ⟨s₂, hcreate', -, h₂⟩ := h₁.second
  have hfreshC : ∀ j, Live s₂ j → keyEq s₂.a j keyC = false := h₂.fresh (by decide) fun j heq ↦ by
    rw [namesAB_eq] at heq
    split_ifs at heq
    all_goals exact absurd heq (by decide)
  have hlive₀ : Live s₂ 0 := h₂.live keyA rfl
  have hlive₁ : Live s₂ 1 := h₂.live keyB rfl
  have hrename : renameObject keyB keyC 0 s₂ = .ok (3, renamed s₂ 1 keyC (1 / 46)) := by
    rw [renameObject_zero h₂.tidy h₂.keys (by decide) (by decide) hlive₁ (h₂.eq rfl (by decide))
      hfreshC, h₂.tidy.id_of_live hlive₁]
    rfl
  have hdistinct₁ : (NameCall.create keyA).Distinct (objstoreInit zeroDevice) :=
    ⟨by decide, .inl fun _ hlive ↦ absurd hlive (not_live_blank blank_zeroDevice)⟩
  have hdistinct₂ : (NameCall.create keyB).Distinct s₁ := ⟨by decide, .inl h₁.fresh_second⟩
  have hdistinct₃ : (NameCall.rename keyB keyC 0).Distinct s₂ :=
    ⟨by decide, by decide, fun j hj heq ↦ by
      rw [hfreshC j hj] at heq
      cases heq⟩
  have hrun₁ : (NameCall.create keyA).run (objstoreInit zeroDevice) = .ok (2, s₁) :=
    congrArg Except.ok hcreate
  have hrun₂ : (NameCall.create keyB).run s₁ = .ok (3, s₂) := congrArg Except.ok hcreate'
  have hrun₃ : (NameCall.rename keyB keyC 0).run s₂ = .ok (3, renamed s₂ 1 keyC (1 / 46)) := hrename
  have hreaches : Reaches NameCall.run NameCall.Distinct (objstoreInit zeroDevice)
      (renamed s₂ 1 keyC (1 / 46)) :=
    (((Reaches.refl _ _ _).step hdistinct₁ hrun₁).step hdistinct₂ hrun₂).step hdistinct₃ hrun₃
  have hkeep : ∀ j, Live (renamed s₂ 1 keyC (1 / 46)) j ↔ Live s₂ j := fun j ↦
    live_renamed s₂ 1 (1 / 46) j (by decide)
  refine ⟨s₁, s₂, _, hcreate, hcreate', hrename, (hkeep 0).mpr hlive₀,
    (hkeep 1).mpr hlive₁, ?_, ?_,
    (names_unique zeroDevice blank_zeroDevice _ hreaches).1⟩
  · rw [keyEq_renamed s₂ 1 _ 0 (by decide) (by decide), if_neg zero_ne_one]
    exact h₂.eq rfl (by decide)
  · rw [keyEq_renamed s₂ 1 _ 1 (by decide) (by decide), if_pos rfl, decide_eq_true rfl]

/-- Creating an object twice gives two objects of one name. -/
theorem name_given_twice : ∃ s t, createObject keyA (objstoreInit zeroDevice) = (2, s) ∧
    createObject keyA s = (3, t) ∧ Live t 0 ∧ Live t 1 ∧ keyEq t.a 0 keyA = true ∧
    keyEq t.a 1 keyA = true := by
  obtain ⟨s, hcreate, hc⟩ := created_blank blank_zeroDevice keyA (by decide)
  have hclear : s.inodeBit 1 = false := by
    rw [hc.inodeBit, if_neg (by norm_num), inodeBit_blank blank_zeroDevice (by norm_num)]
  have hleast : ∀ j < 1, s.inodeBit j = true := fun j hj ↦ by
    rw [hc.inodeBit, if_pos (by omega)]
  obtain ⟨t, hagain, hc'⟩ :=
    createObject_lowest (by decide : keyA.Short) (by norm_num) hclear hleast
  have hlive := (hc.live (by norm_num) 0).mpr (.inr rfl)
  refine ⟨s, t, hcreate, hagain, (hc'.live (by norm_num) 0).mpr (.inl hlive),
    (hc'.live (by norm_num) 1).mpr (.inr rfl), ?_, ?_⟩
  · rw [hc'.key _ _ (by decide), if_neg (by norm_num), hc.key _ _ (by decide), if_pos rfl,
      decide_eq_true rfl]
  · rw [hc'.key _ _ (by decide), if_pos rfl, decide_eq_true rfl]

/-! ### Long names -/

/-- Copying a name into slot `k` changes no byte after the record. -/
def Contained (a : Bytes) (k : ℕ) (key : Key) : Prop :=
  ∀ n, 88 * (k + 1) ≤ n → setKey a k key n = a n

/-- A name that leaves its record does no harm: the bytes after the record are those of the name,
now and once slot `k + 1` has its id, and with the id of slot `k` in place no object before it has
the name. -/
structure FitsByChance (s : Store) (k : ℕ) (key : Key) : Prop where
  now : Contained s.a k key
  later : k + 1 < 1015808 → s.inodeBit (k + 1) = false →
    Contained (setField s.a (k + 1) .id (k + 3)) k key
  apart : ∀ j < k, Live s j → keyEq (setField s.a k .id (k + 2)) j key = false

/-- Creations of objects with other names. -/
def createOther (key' : Key) (s : Store) : Outcome ℤ := .ok (createObject key' s)

/-- The object created in slot `k` is found by its name, now and after any creations of objects with
other names, and the other records are as they were. -/
structure StoredApart (key : Key) (k : ℕ) (s s' : Store) : Prop where
  found : (findObjectId key s').1 = k + 2
  records : ∀ n, n < 88 * k ∨ 88 * (k + 1) ≤ n → s'.a n = s.a n
  lasting : ∀ t, Reaches createOther (fun key' _ ↦ key' ≠ key) s' t → (findObjectId key t).1 = k + 2

/-- The table after a creation in slot `k`. -/
def createdTable (a : Bytes) (k : ℕ) (key : Key) : Bytes := setKey (setField a k .id (k + 2)) k key

variable {a a' : Bytes}

theorem setKey_before (h : n < 88 * k + 56) : setKey a k key n = a n :=
  Bytes.strcpy_of_outside (.inl h)

theorem setKey_congr (h : a n = a' n) : setKey a k key n = setKey a' k key n :=
  Bytes.strcpy_congr h

theorem setField_congr {f : Field} {v : ℤ} (h : a n = a' n) :
    setField a k f v n = setField a' k f v n :=
  Bytes.storeInt_congr h

theorem keyEq_iff_setKey : keyEq a k key = true ↔ setKey a k key = a := Bytes.strcmpEq_iff_strcpy

theorem keyEq_setKey_self (a : Bytes) (k : ℕ) (key : Key) : keyEq (setKey a k key) k key = true :=
  (Bytes.strcmpEq_strcpy key.noNul key.noNul).mpr rfl

theorem contained_of_short (hkey : key.Short) : Contained a k key := fun _ hn ↦
  setKey_of_outside hkey (.inr (by omega))

theorem createdTable_of_outside (h : n < 88 * k) : createdTable a k key n = a n :=
  (setKey_before (by omega)).trans (setField_of_outside (.inl h))

theorem createdTable_after (h : 88 * (k + 1) ≤ n) : createdTable a k key n = setKey a k key n :=
  setKey_congr (setField_of_outside (.inr (by omega)))

/-- The id that a creation gives to its slot. -/
theorem getField_createdTable (hk : k < 1015808) :
    getField (createdTable a k key) k .id = k + 2 := by
  have hbefore :
      getField (createdTable a k key) k .id = getField (setField a k .id (k + 2)) k .id :=
    getField_congr fun n _ hhigh ↦ setKey_before hhigh
  rw [hbefore, getField_setField, if_pos ⟨rfl, rfl⟩]
  exact Int.bmod_eq_of_le (by norm_num [Field.width]; omega) (by norm_num [Field.width]; omega)

/-- The top byte of a small id is zero. -/
theorem top_of_id {v : ℕ} (hv : v < 2 ^ 56) (h : getField a k .id = v) : a (88 * k + 7) = 0 := by
  have hlt := Bytes.load_lt a (88 * k) 8
  rw [getField, Bytes.loadInt, fieldAddr, Field.offset, Field.width, Nat.add_zero] at h
  have hcases : Int.bmod (Bytes.load a (88 * k) 8) (256 ^ 8) = Bytes.load a (88 * k) 8 ∨
      Int.bmod (Bytes.load a (88 * k) 8) (256 ^ 8) = Bytes.load a (88 * k) 8 - 256 ^ 8 := by
    rw [Int.bmod_def]
    split_ifs
    · left
      rw [Int.emod_eq_of_lt (Int.natCast_nonneg _) (by exact_mod_cast hlt)]
    · right
      rw [Int.emod_eq_of_lt (Int.natCast_nonneg _) (by exact_mod_cast hlt)]
      norm_num
  norm_num at hcases hlt h
  have hlow : Bytes.load a (88 * k) (7 + 1) < 256 ^ 7 := by
    norm_num
    omega
  exact Bytes.top_of_load_lt hlow

/-- A name ends where the top byte of the next id is zero. -/
theorem keyEq_of_ends (hzero : a (88 * (j + 1) + 7) = 0)
    (h : ∀ n, 88 * j + 56 ≤ n → n ≤ 88 * (j + 1) + 7 → a n = a' n) :
    keyEq a j key = keyEq a' j key :=
  Bytes.strcmpEq_congr_of_zero key.noNul hzero (by simp only [keyAddr]; omega) h

/-- A short name ends in its record. -/
theorem keyEq_of_short (hkey : key.Short)
    (h : ∀ n, 88 * j + 56 ≤ n → n < 88 * (j + 1) → a n = a' n) :
    keyEq a j key = keyEq a' j key := by
  unfold Key.Short at hkey
  refine Bytes.strcmpEq_congr fun n hlow hhigh ↦ h n hlow ?_
  simp only [keyAddr] at hhigh
  omega

/-- Strings of the slots up to `k` end before the records that later creations change. -/
structure Ended (key : Key) (k : ℕ) (t : Store) : Prop where
  below : ∀ j < k, t.a (88 * (j + 1) + 7) = 0
  above : k + 1 < 1015808 → t.inodeBit (k + 1) = true → t.field (k + 1) .id = ((k + 3 : ℕ) : ℤ)
  later : k + 1 < 1015808 → t.inodeBit (k + 1) = false →
    keyEq (setField t.a (k + 1) .id (k + 3)) k key = true

/-- The object in slot `k` is the first one with the name, and later creations keep it so. -/
structure Lasting (key : Key) (k : ℕ) (t : Store) : Prop where
  bits : ∀ j ≤ k, t.inodeBit j = true
  handle : t.field k .id = k + 2
  own : keyEq t.a k key = true
  first : ∀ j < k, Live t j → keyEq t.a j key = false
  ended : key.Short ∨ Ended key k t

theorem Lasting.found (h : Lasting key k t) (hk : k < 1015808) :
    (findObjectId key t).1 = k + 2 := by
  have hid := h.handle
  rcases findObjectId_spec t key with ⟨-, hnone⟩ | ⟨j, hj, ⟨hbit, hjid, hjkey⟩, hleast, hfound⟩
  · exact absurd ⟨h.bits k le_rfl, by omega, h.own⟩ (hnone k hk)
  · rcases lt_trichotomy j k with hlt | rfl | hgt
    · rw [h.first j hlt ⟨hj, hbit, hjid⟩] at hjkey
      cases hjkey
    · rw [hfound, hid]
    · exact absurd ⟨h.bits k le_rfl, by omega, h.own⟩ (hleast k hgt)

/-- The table that a creation leaves. -/
theorem createObject_table (key : Key) (hk : k < 1015808) (hclear : s.inodeBit k = false)
    (hleast : ∀ j < k, s.inodeBit j = true) :
    ∃ s', createObject key s = ((k : ℤ) + 2, s') ∧ s'.a = createdTable s.a k key ∧
      ∀ j, s'.inodeBit j = if j = k then true else s.inodeBit j := by
  refine ⟨{ claimed k s with a := setKey (claimed k s).a k key }, ?_, rfl,
    fun j ↦ Bitmap.bit_or_mask s.inodeBitmap k j⟩
  rw [createObject_spec key hk hclear hleast]
  exact congrArg (·, _) (getField_createdTable hk)

/-- A creation past slot `k` keeps the name of its object. -/
theorem Lasting.step {key' : Key} {l : ℕ} (h : Lasting key k t) (hl : l < 1015808)
    (hclear : t.inodeBit l = false) (hleast : ∀ j < l, t.inodeBit j = true)
    (ha : s'.a = createdTable t.a l key')
    (hbit : ∀ j, s'.inodeBit j = if j = l then true else t.inodeBit j) : Lasting key k s' := by
  have hkl : k < l := by
    by_contra hle
    rw [h.bits l (by omega)] at hclear
    cases hclear
  have hbefore (n : ℕ) (hn : n < 88 * l) : s'.a n = t.a n := by rw [ha, createdTable_of_outside hn]
  have hfield (j : ℕ) (hj : j < l) (f : Field) : s'.field j f = t.field j f :=
    getField_congr fun n _ hhigh ↦ hbefore n (by omega)
  have hbits (j : ℕ) (hj : j ≠ l) : s'.inodeBit j = t.inodeBit j := by rw [hbit, if_neg hj]
  have hlive (j : ℕ) (hj : j < k) : Live s' j ↔ Live t j := by
    have hid := hfield j (by omega) .id
    have hset := hbits j (by omega)
    exact ⟨fun hl ↦ ⟨hl.slot, hset ▸ hl.bit, hid ▸ hl.id⟩,
      fun hl ↦ ⟨hl.slot, hset.symm ▸ hl.bit, hid.symm ▸ hl.id⟩⟩
  rcases h.ended with hshort | hended
  · have hname (j : ℕ) (hj : j ≤ k) : keyEq s'.a j key = keyEq t.a j key :=
      keyEq_of_short hshort fun n _ hhigh ↦ hbefore n (by omega)
    refine ⟨fun j hj ↦ (hbits j (by omega)).trans (h.bits j hj), ?_, ?_, fun j hj hl ↦ ?_,
      .inl hshort⟩
    · rw [hfield k hkl, h.handle]
    · rw [hname k le_rfl, h.own]
    · rw [hname j hj.le]
      exact h.first j hj ((hlive j hj).mp hl)
  · have hzero (j : ℕ) (hj : j < k) : s'.a (88 * (j + 1) + 7) = 0 :=
      (hbefore _ (by omega)).trans (hended.below j hj)
    have hname (j : ℕ) (hj : j < k) : keyEq s'.a j key = keyEq t.a j key :=
      keyEq_of_ends (hzero j hj) fun n _ hhigh ↦ hbefore n (by omega)
    have hnext : k + 1 < 1015808 ∧ s'.field (k + 1) .id = ((k + 3 : ℕ) : ℤ) ∧
        keyEq s'.a k key = true := by
      by_cases hlk : l = k + 1
      · subst hlk
        have hid : getField (createdTable t.a (k + 1) key') (k + 1) .id = ((k + 1 : ℕ) : ℤ) + 2 :=
          getField_createdTable hl
        have hid' : s'.field (k + 1) .id = ((k + 3 : ℕ) : ℤ) := by
          rw [Store.field, ha, hid]
          push_cast
          ring
        refine ⟨hl, hid', ?_⟩
        rw [← hended.later hl hclear]
        refine keyEq_of_ends (top_of_id (by omega) hid') fun n _ hhigh ↦ ?_
        rw [ha, createdTable, setKey_before (by omega)]
        push_cast
        ring_nf
      · have hset := hleast (k + 1) (by omega)
        have hid' : s'.field (k + 1) .id = ((k + 3 : ℕ) : ℤ) :=
          (hfield (k + 1) (by omega) .id).trans (hended.above (by omega) hset)
        refine ⟨by omega, hid', ?_⟩
        rw [← h.own]
        exact keyEq_of_ends (top_of_id (by omega) hid') fun n _ hhigh ↦ hbefore n (by omega)
    obtain ⟨hk, hid, hown⟩ := hnext
    have hset : s'.inodeBit (k + 1) = true := by
      rw [hbit]
      split_ifs with hlk
      · rfl
      · exact hleast (k + 1) (by omega)
    refine ⟨fun j hj ↦ (hbits j (by omega)).trans (h.bits j hj), ?_, hown, fun j hj hl ↦ ?_,
      .inr ⟨hzero, fun _ _ ↦ hid, fun _ hclear ↦ ?_⟩⟩
    · rw [hfield k hkl, h.handle]
    · rw [hname j hj]
      exact h.first j hj ((hlive j hj).mp hl)
    · rw [hset] at hclear
      cases hclear

/-- Creations of objects with any names keep the name of an object that lasts. -/
theorem Lasting.run {ok : Key → Store → Prop} (h : Lasting key k s)
    (hrun : Reaches createOther ok s t) : Lasting key k t := by
  refine hrun.invariant (Lasting key k) (fun key' s v t hs _ hstep ↦ ?_) h
  have hcreate : createObject key' s = (v, t) := Except.ok.inj hstep
  rcases full_or_lowest s with hfull | ⟨l, hl, hclear, hleast⟩
  · obtain ⟨-, rfl⟩ := Prod.mk.inj ((createObject_full key' hfull).symm.trans hcreate)
    exact ⟨hs.bits, hs.handle, hs.own, fun j hj hlive ↦
      hs.first j hj ⟨hlive.slot, hlive.bit, hlive.id⟩,
      hs.ended.imp id fun he ↦ ⟨he.below, he.above, he.later⟩⟩
  · obtain ⟨s', hcreate', ha, hbit⟩ := createObject_table key' hl hclear hleast
    obtain ⟨-, rfl⟩ := Prod.mk.inj (hcreate'.symm.trans hcreate)
    exact hs.step hl hclear hleast ha hbit

/-- After the record, the id of the next slot is written over the same bytes. -/
theorem setField_after (hrecords : ∀ n, 88 * (k + 1) ≤ n → s'.a n = s.a n) {v : ℤ} {n : ℕ}
    (hn : 88 * (k + 1) ≤ n) : setField s'.a (k + 1) .id v n = setField s.a (k + 1) .id v n :=
  setField_congr (hrecords n hn)

section Create

variable (hk : k < 1015808) (hleast : ∀ j < k, s.inodeBit j = true)
  (hfresh : ∀ j, Live s j → keyEq s.a j key = false) (ha : s'.a = createdTable s.a k key)
  (hbit : ∀ j, s'.inodeBit j = if j = k then true else s.inodeBit j)

include hk hleast ha hbit

omit hk hleast in
/-- The slots before the new one are as they were. -/
theorem live_before (hj : j < k) : Live s' j ↔ Live s j := by
  have hid : s'.field j .id = s.field j .id := getField_congr fun n _ hhigh ↦ by
    rw [ha, createdTable_of_outside (by omega)]
  have hset : s'.inodeBit j = s.inodeBit j := by rw [hbit, if_neg hj.ne]
  exact ⟨fun hl ↦ ⟨hl.slot, hset ▸ hl.bit, hid ▸ hl.id⟩,
    fun hl ↦ ⟨hl.slot, hset.symm ▸ hl.bit, hid.symm ▸ hl.id⟩⟩

/-- A new object lasts when its name is the first of its kind and ends in time. -/
theorem lasting_of_created (hfirst : ∀ j < k, Live s' j → keyEq s'.a j key = false)
    (hended : key.Short ∨ Ended key k s') : Lasting key k s' where
  bits := fun j hj ↦ by
    rw [hbit]
    split_ifs with hjk
    · rfl
    · exact hleast j (by omega)
  handle := by rw [Store.field, ha, getField_createdTable hk]
  own := by rw [ha, createdTable, keyEq_setKey_self]
  first := hfirst
  ended := hended

include hfresh in
/-- A short name is stored apart, in any store. -/
theorem storedApart_of_short (hkey : key.Short) : StoredApart key k s s' := by
  have hlasting := lasting_of_created hk hleast ha hbit (fun j hj hl ↦ ?_) (.inl hkey)
  · refine ⟨hlasting.found hk, fun n hn ↦ ?_, fun t hrun ↦ (hlasting.run hrun).found hk⟩
    rw [ha]
    rcases hn with hn | hn
    · exact createdTable_of_outside hn
    · exact (createdTable_after hn).trans (contained_of_short hkey n hn)
  · rw [← hfresh j ((live_before ha hbit hj).mp hl)]
    exact keyEq_of_short hkey fun n _ hhigh ↦ by rw [ha, createdTable_of_outside (by omega)]

omit hbit in
/-- In a tidy store the strings before the new slot end before its name. -/
theorem ends_before (h : Tidy s) : ∀ j < k, s'.a (88 * (j + 1) + 7) = 0 := by
  intro j hj
  rw [ha]
  by_cases hjk : j + 1 = k
  · refine top_of_id (v := j + 3) (by omega) ?_
    rw [hjk, getField_createdTable hk, ← hjk]
    push_cast
    ring
  · rw [createdTable_of_outside (by omega)]
    refine top_of_id (v := j + 3) (by omega) ?_
    have hid := h.id (j + 1) (by omega) (hleast (j + 1) (by omega))
    rw [Store.field] at hid
    rw [hid]
    push_cast
    ring

omit hbit in
/-- Before the new slot, its name is found where it is found once the slot has its id. -/
theorem keyEq_before (h : Tidy s) (hj : j < k) :
    keyEq s'.a j key = keyEq (setField s.a k .id (k + 2)) j key :=
  keyEq_of_ends (ends_before hk hleast ha h j hj) fun n _ hhigh ↦ by
    rw [ha, createdTable, setKey_before (by omega)]

theorem storedApart_of_fits (h : Tidy s) (hfits : FitsByChance s k key) :
    StoredApart key k s s' := by
  have hafter : ∀ n, 88 * (k + 1) ≤ n → s'.a n = s.a n := fun n hn ↦ by
    rw [ha, createdTable_after hn, hfits.now n hn]
  have hset (hclear : s'.inodeBit (k + 1) = false) : s.inodeBit (k + 1) = false := by
    rwa [hbit, if_neg (by omega)] at hclear
  have hlasting := lasting_of_created hk hleast ha hbit (fun j hj hl ↦ ?_)
    (.inr ⟨ends_before hk hleast ha h, fun hlt hbit' ↦ ?_, fun hlt hclear ↦ ?_⟩)
  · refine ⟨hlasting.found hk, fun n hn ↦ ?_, fun t hrun ↦ (hlasting.run hrun).found hk⟩
    rcases hn with hn | hn
    · rw [ha, createdTable_of_outside hn]
    · exact hafter n hn
  · rw [keyEq_before hk hleast ha h hj]
    exact hfits.apart j hj ((live_before ha hbit hj).mp hl)
  · rw [hbit, if_neg (by omega)] at hbit'
    have hsame : s'.field (k + 1) .id = s.field (k + 1) .id :=
      getField_congr fun n hlow _ ↦ hafter n hlow
    rw [hsame, h.id (k + 1) hlt hbit']
    push_cast
    ring
  · have hown : setKey s'.a k key = s'.a := by
      rw [← keyEq_iff_setKey, ha, createdTable, keyEq_setKey_self]
    rw [keyEq_iff_setKey]
    funext n
    by_cases hn : 88 * (k + 1) ≤ n
    · have hsame := setField_after hafter (v := k + 3) hn
      rw [setKey_congr hsame, hsame]
      exact hfits.later hlt (hset hclear) n hn
    · have hsame : setField s'.a (k + 1) .id (k + 3) n = s'.a n :=
        setField_of_outside (.inl (by omega))
      rw [setKey_congr hsame, hsame, hown]

/-- A long name that is stored apart fits. -/
theorem fitsByChance_of_storedApart (h : Tidy s) (hlong : ¬ key.Short)
    (hapart : StoredApart key k s s') :
    FitsByChance s k key := by
  have hafter : ∀ n, 88 * (k + 1) ≤ n → s'.a n = s.a n := fun n hn ↦ hapart.records n (.inr hn)
  have hids (j : ℕ) (hj : j < 1015808) (hjk : j ≠ k) (hset : s'.inodeBit j = true) :
      s'.field j .id = j + 2 := by
    have hsame : s'.field j .id = s.field j .id := getField_congr fun n hlow hhigh ↦
      hapart.records n (by omega)
    rw [hbit, if_neg hjk] at hset
    rw [hsame, h.id j hj hset]
  refine ⟨fun n hn ↦ ?_, fun hlt hclear ↦ ?_, fun j hj hl ↦ ?_⟩
  · rw [← createdTable_after hn, ← ha, hafter n hn]
  · -- The creation of an object with a short name in the next slot.
    have hclear' : s'.inodeBit (k + 1) = false := by rw [hbit, if_neg (by omega), hclear]
    have hleast' : ∀ j < k + 1, s'.inodeBit j = true := fun j hj ↦ by
      rw [hbit]
      split_ifs with hjk
      · rfl
      · exact hleast j (by omega)
    have hne : keyA ≠ key := by
      rintro rfl
      exact hlong (by decide)
    obtain ⟨t, hcreate, ht, htbit⟩ := createObject_table keyA hlt hclear' hleast'
    have hfound := hapart.lasting t ((Reaches.refl _ _ _).step hne (congrArg Except.ok hcreate))
    have hid : t.field (k + 1) .id = ((k + 3 : ℕ) : ℤ) := by
      rw [Store.field, ht, getField_createdTable hlt]
      push_cast
      ring
    have hown : keyEq t.a k key = true := by
      rcases findObjectId_spec t key with ⟨hnone, -⟩ | ⟨j, hj, ⟨hset, hjid, hjkey⟩, -, heq⟩
      · rw [hnone] at hfound
        dsimp only at hfound
        omega
      · rw [heq] at hfound
        dsimp only at hfound
        obtain rfl : j = k := by
          by_contra hjk
          by_cases hnext : j = k + 1
          · rw [hnext, hid] at hfound
            omega
          · have hsame : t.field j .id = s'.field j .id := getField_congr fun n hlow hhigh ↦ by
              rw [ht]
              by_cases hn : n < 88 * (k + 1)
              · exact createdTable_of_outside hn
              · exact (createdTable_after (by omega)).trans
                  (contained_of_short (by decide) n (by omega))
            rw [htbit, if_neg hnext] at hset
            rw [hsame, hids j hj hjk hset] at hfound
            omega
        exact hjkey
    have hown' : keyEq (setField s'.a (k + 1) .id (k + 3)) k key = true := by
      rw [← hown]
      refine (keyEq_of_ends (top_of_id (by omega) hid) fun n _ hhigh ↦ ?_).symm
      rw [ht, createdTable, setKey_before (by omega)]
      push_cast
      ring_nf
    intro n hn
    have hsame := setField_after hafter (v := k + 3) hn
    rw [← hsame, ← setKey_congr hsame]
    exact congrFun (keyEq_iff_setKey.mp hown') n
  · rw [← keyEq_before hk hleast ha h hj]
    by_contra hne
    have hj' := (live_before ha hbit hj).mpr hl
    have hfound := hapart.found
    rcases findObjectId_spec s' key with ⟨hnone, -⟩ | ⟨i, hi, ⟨hset, hiid, hikey⟩, hfirst, heq⟩
    · rw [hnone] at hfound
      dsimp only at hfound
      omega
    · rw [heq] at hfound
      dsimp only at hfound
      have hik : i = k := by
        by_contra hik
        rw [hids i hi hik hset] at hfound
        omega
      exact hfirst j (hik ▸ hj) ⟨hj'.bit, hj'.id, Bool.not_eq_false _ ▸ hne⟩

end Create

/-- A renaming that copies a name into slot `m` leaves the other records alone when the name is
contained in its own. -/
theorem rename_contained_iff {ctr : BitVec 32} {v : ℤ} {r : Renaming} {m : ℕ}
    (hrun : renameScan key newname ctr s = .ok (v, r)) (hactual : r.actual = some m) :
    (∀ n, n < 88 * m ∨ 88 * (m + 1) ≤ n → r.store.a n = s.a n) ↔
      newname.Short ∨ Contained s.a m newname := by
  have hstore : r.store.a = setKey s.a m newname := by
    rcases renameScan_cases key newname ctr s with
      ⟨hrun', -⟩ | ⟨hrun', -⟩ | ⟨j, m', flag, r', hrun', hm, -⟩ | ⟨n, r', hrun', hn⟩
    · exact nomatch hrun.symm.trans hrun'
    · exact nomatch hrun.symm.trans hrun'
    · obtain ⟨-, rfl⟩ := Prod.mk.inj (Except.ok.inj (hrun.symm.trans hrun'))
      obtain rfl := Option.some.inj (hactual.symm.trans hm.actual)
      rw [hm.store]
      rfl
    · obtain ⟨-, rfl⟩ := Prod.mk.inj (Except.ok.inj (hrun.symm.trans hrun'))
      obtain ⟨j, m', flag, -, hm⟩ := hn.first
      obtain rfl := Option.some.inj (hactual.symm.trans hm.actual)
      rw [hm.store]
      rfl
  rw [hstore]
  constructor
  · exact fun h ↦ .inr fun n hn ↦ h n (.inr hn)
  · rintro h n (hn | hn)
    · exact setKey_before (by omega)
    · exact h.elim (fun hshort ↦ contained_of_short hshort n hn) fun hcontained ↦ hcontained n hn

/-- A short name disturbs no other object, in any store; a longer one disturbs none exactly when it
fits, in a tidy store. The new name of a renaming keeps to its record exactly when it is short or
contained in it. -/
theorem keys_kept_apart_iff (s : Store) :
    (∀ (key : Key) (k : ℕ), k < 1015808 → s.inodeBit k = false → (∀ j < k, s.inodeBit j = true) →
      (∀ j, Live s j → keyEq s.a j key = false) →
      ∃ s', createObject key s = ((k : ℤ) + 2, s') ∧ (key.Short → StoredApart key k s s') ∧
        (Tidy s → (StoredApart key k s s' ↔ key.Short ∨ FitsByChance s k key))) ∧
    ∀ (key newname : Key) (ctr : BitVec 32) (v : ℤ) (r : Renaming) (m : ℕ),
      renameScan key newname ctr s = .ok (v, r) → r.actual = some m →
      ((∀ n, n < 88 * m ∨ 88 * (m + 1) ≤ n → r.store.a n = s.a n) ↔
        newname.Short ∨ Contained s.a m newname) := by
  refine ⟨fun key k hk hclear hleast hfresh ↦ ?_, fun key newname ctr v r m hrun hactual ↦
    rename_contained_iff hrun hactual⟩
  obtain ⟨s', hcreate, ha, hbit⟩ := createObject_table key hk hclear hleast
  have hshort := storedApart_of_short hk hleast hfresh ha hbit
  refine ⟨s', hcreate, hshort, fun h ↦ ⟨fun hapart ↦ ?_, fun hor ↦ ?_⟩⟩
  · by_cases hkey : key.Short
    · exact .inl hkey
    · exact .inr (fitsByChance_of_storedApart hk hleast ha hbit h hkey hapart)
  · exact hor.elim hshort (storedApart_of_fits hk hleast ha hbit h)

/-- The first object and its name. -/
theorem keys_kept_apart_first : ∃ s',
    createObject keyA (objstoreInit zeroDevice) = (2, s') ∧
      StoredApart keyA 0 (objstoreInit zeroDevice) s' := by
  obtain ⟨s', hcreate, hshort, -⟩ := (keys_kept_apart_iff (objstoreInit zeroDevice)).1 keyA 0
    (by norm_num) (inodeBit_blank blank_zeroDevice (by norm_num))
    (fun j hj ↦ absurd hj (Nat.not_lt_zero j)) fun j hlive ↦
      absurd hlive (not_live_blank blank_zeroDevice)
  exact ⟨s', hcreate, hshort (by decide)⟩

/-- A name of 33 bytes. -/
def longKey : Key := ⟨List.replicate 33 97, by decide⟩

/-- The last byte of a long name of the first object is in the id of the second record. -/
theorem long_name_overflows : ∃ s', createObject longKey (objstoreInit zeroDevice) = (2, s') ∧
    (objstoreInit zeroDevice).a 88 = 0 ∧ s'.a 88 = 97 := by
  obtain ⟨s', hcreate, ha, -⟩ := createObject_table (s := objstoreInit zeroDevice) longKey
    (by norm_num : 0 < 1015808) (inodeBit_blank blank_zeroDevice (by norm_num))
    fun j hj ↦ absurd hj (Nat.not_lt_zero j)
  refine ⟨s', hcreate, byte_blank blank_zeroDevice (by norm_num), ?_⟩
  rw [ha, createdTable_after (by norm_num)]
  have hcongr : setKey (objstoreInit zeroDevice).a 0 longKey 88 = setKey (fun _ ↦ 0) 0 longKey 88 :=
    setKey_congr (byte_blank blank_zeroDevice (by norm_num))
  rw [hcongr]
  decide

end OsAssignments.Objstore
