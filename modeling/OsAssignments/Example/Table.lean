import OsAssignments.Example.Store

/-!
# Records of the example store

What the small functions of the store do to each field and key of each record. `findTurn_scan` and
`createObject_ways` say which records the loops of `find_object_id`, `destroy_object` and
`create_object` find, claim and leave alone.
-/

set_option autoImplicit false
set_option relaxedAutoImplicit false

namespace OsAssignments.Example

open Library
open Objstore (Block Build Fault Key Stat statBlocks)

variable {s : Store} {k k' : ℕ} {f f' : Field} {v : ℤ} {key key' : Key} {bld : Build}

/-- A value of an `int` is read back unchanged from every field. -/
theorem wrap_width (f : Field) (hlow : -2147483648 ≤ v) (hhigh : v < 2147483648) :
    Int.bmod v (256 ^ f.width) = v := by
  cases f <;> exact Int.bmod_eq_of_le (by norm_num [Field.width]; omega)
    (by norm_num [Field.width]; omega)

@[simp] theorem disk_assign : (s.assign k f v).disk = s.disk := rfl

@[simp] theorem cache_assign : (s.assign k f v).cache = s.cache := rfl

theorem field_assign (hlow : -2147483648 ≤ v) (hhigh : v < 2147483648) :
    (s.assign k f v).field k' f' = if k' = k ∧ f' = f then v else s.field k' f' := by
  have hset : (s.assign k f v).field k' f' =
      if k' = k ∧ f' = f then Int.bmod v (256 ^ f.width) else s.field k' f' :=
    RecordLayout.get_set s.objs k k' f f' v
  rw [hset, wrap_width f hlow hhigh]

theorem field_assign_of_ne (h : k' ≠ k ∨ f' ≠ f) : (s.assign k f v).field k' f' = s.field k' f' :=
  RecordLayout.get_set_of_ne h

@[simp] theorem keyEq_assign (hkey : Fits key) : (s.assign k f v).keyEq k' key = s.keyEq k' key :=
  RecordLayout.hasKey_set s.objs k k' f v hkey

@[simp] theorem field_putLine (id : ℤ) (b : Block) : (s.putLine id b).field k f = s.field k f := rfl

@[simp] theorem field_putBlock (n : ℕ) (b : Block) : (s.putBlock n b).field k f = s.field k f := rfl

@[simp] theorem cache_putLine (id : ℤ) (b : Block) :
    (s.putLine id b).cache = Function.update s.cache id b := rfl

@[simp] theorem disk_putLine (id : ℤ) (b : Block) : (s.putLine id b).disk = s.disk := rfl

@[simp] theorem disk_putBlock (n : ℕ) (b : Block) :
    (s.putBlock n b).disk = Function.update s.disk n b := rfl

@[simp] theorem cache_putBlock (n : ℕ) (b : Block) : (s.putBlock n b).cache = s.cache := rfl

/-- A record has one key. -/
theorem key_unique (h : s.keyEq k key = true) (h' : s.keyEq k key' = true) : key = key' :=
  Key.mk.injEq .. ▸ RecordLayout.eq_of_hasKey key.noNul key'.noNul h h'

/-! ### Initialisation and removal -/

/-- The two bookkeeping functions of the cache do the same to a record. -/
theorem removeObjectCached_eq (bld : Build) (k : ℕ) (s : Store) :
    removeObjectCached bld k s = initObjectCached bld k s := rfl

@[simp] theorem disk_initObjectCached : (initObjectCached bld k s).disk = s.disk := by
  cases bld <;> rfl

@[simp] theorem cache_initObjectCached : (initObjectCached bld k s).cache = s.cache := by
  cases bld <;> rfl

theorem field_initObjectCached : (initObjectCached bld k s).field k' f =
    if bld = .cached ∧ k' = k ∧ f = .dirty then 0
    else if bld = .cached ∧ k' = k ∧ f = .cacheIndex then -1 else s.field k' f := by
  cases bld with
  | uncached => simp [initObjectCached]
  | cached =>
    rw [initObjectCached, field_assign (by norm_num) (by norm_num),
      field_assign (by norm_num) (by norm_num)]
    simp

theorem keyEq_initObjectCached (hkey : Fits key) :
    (initObjectCached bld k s).keyEq k' key = s.keyEq k' key := by
  cases bld with
  | uncached => rfl
  | cached => rw [initObjectCached, keyEq_assign hkey, keyEq_assign hkey]

/-! ### The search for a key -/

/-- The record is live and has the key. -/
def Found (s : Store) (key : Key) (k : ℕ) : Prop := s.field k .id ≠ 0 ∧ s.keyEq k key = true

instance (s : Store) (key : Key) (k : ℕ) : Decidable (Found s key k) :=
  inferInstanceAs (Decidable (_ ∧ _))

/-- The loop finds the first live record with the key. -/
theorem findTurn_scan (key : Key) (s : Store) :
    (Bitmap.scan (findTurn key s) 16 0 () = .ok () ∧ ∀ k < 16, ¬ Found s key k) ∨
      ∃ k < 16, Found s key k ∧ (∀ j < k, ¬ Found s key j) ∧
        Bitmap.scan (findTurn key s) 16 0 () = .error k := by
  have hbody : ∀ i, 0 ≤ i → i < 0 + 16 →
      findTurn key s i () = if decide (Found s key i) = true then .error i else .ok () :=
    fun i _ _ ↦ if_congr decide_eq_true_iff.symm rfl rfl
  rcases Bitmap.scan_search _ _ hbody with ⟨hscan, hall⟩ | ⟨k, -, hk, hfound, hbefore, hscan⟩
  · exact .inl ⟨hscan, fun k hk ↦ of_decide_eq_false (hall k (Nat.zero_le k) (by omega))⟩
  · exact .inr ⟨k, by omega, of_decide_eq_true hfound,
      fun j hj ↦ of_decide_eq_false (hbefore j (Nat.zero_le j) hj), hscan⟩

/-! ### Creation -/

/-- A loop over `n` records from record `k` on that claims nothing. -/
theorem createTurn_search (key : Key) (free : Option ℕ) {n : ℕ}
    (hclaims : ∀ i, k ≤ i → i < k + n → s.field i .id ≠ 0 ∨ free ≠ none) :
    (Bitmap.scan (createTurn key) n k (s, free) = .ok (s, free) ∧
        ∀ i, k ≤ i → i < k + n → ¬ Found s key i) ∨
      (Bitmap.scan (createTurn key) n k (s, free) = .error s ∧
        ∃ i, k ≤ i ∧ i < k + n ∧ Found s key i) := by
  have hbody : ∀ i, k ≤ i → i < k + n → createTurn key i (s, free) =
      if decide (Found s key i) = true then .error s else .ok (s, free) := fun i hlow hhigh ↦ by
    have hskip : ¬ (s.field i .id = 0 ∧ free = none) := fun h ↦
      (hclaims i hlow hhigh).elim (fun hne ↦ hne h.1) fun hne ↦ hne h.2
    rw [createTurn, if_neg hskip]
    exact if_congr decide_eq_true_iff.symm rfl rfl
  rcases Bitmap.scan_search _ (fun _ ↦ s) hbody with
    ⟨hscan, hall⟩ | ⟨i, hlow, hhigh, hfound, -, hscan⟩
  · exact .inl ⟨hscan, fun i hlow hhigh ↦ of_decide_eq_false (hall i hlow hhigh)⟩
  · exact .inr ⟨hscan, i, hlow, hhigh, of_decide_eq_true hfound⟩

/-- The store after record `k` is claimed by `create_object`. -/
def claim (k : ℕ) (s : Store) : Store := s.assign k .id (k + 2)

/-- The store after record `k` is claimed and named. -/
def named (bld : Build) (k : ℕ) (key : Key) (s : Store) : Store :=
  initObjectCached bld 16 { claim k s with objs := object.setKey (claim k s).objs k key.chars }

/-- The first free record. -/
def FirstFree (s : Store) (k : ℕ) : Prop := s.field k .id = 0 ∧ ∀ j < k, s.field j .id ≠ 0

/-- Before the claim and after it, another record is found or not alike. -/
theorem found_claim (hkey : Fits key) {j : ℕ} (hj : j ≠ k) :
    Found (claim k s) key j ↔ Found s key j := by
  rw [Found, Found, claim, field_assign_of_ne (.inl hj), keyEq_assign hkey]

/-- The ways of a creation, for a key of any length: nothing is claimed; the first free record is,
but the key is found behind it; or the key is given to the record claimed. -/
theorem createObject_ways (bld : Build) (key : Key) (s : Store) :
    (createObject bld key s = (-1, s) ∧
      ((∃ j < 16, Found s key j ∧ ∀ i ≤ j, s.field i .id ≠ 0) ∨ ∀ j < 16, s.field j .id ≠ 0)) ∨
    ∃ k < 16, FirstFree s k ∧ (∀ j < k, ¬ Found s key j) ∧
      ((createObject bld key s = (-1, claim k s) ∧ ∃ j, k < j ∧ j < 16 ∧ Found (claim k s) key j) ∨
        (createObject bld key s = ((named bld k key s).field k .id, named bld k key s) ∧
          ∀ j, k < j → j < 16 → ¬ Found (claim k s) key j)) := by
  by_cases hfree : ∃ k, k < 16 ∧ s.field k .id = 0
  · have hspec := Nat.find_spec hfree
    have hbefore : ∀ j < Nat.find hfree, s.field j .id ≠ 0 := fun j hj hzero ↦
      Nat.find_min hfree hj ⟨hj.trans hspec.1, hzero⟩
    obtain ⟨hk, hzero⟩ := hspec
    generalize Nat.find hfree = k at hk hzero hbefore
    obtain ⟨m, hm⟩ : ∃ m, 16 = k + (m + 1) := ⟨15 - k, by omega⟩
    have hsplit := Bitmap.scan_append (createTurn key) k (m + 1) 0 (s, none)
    rw [← hm, Nat.zero_add] at hsplit
    rcases createTurn_search (s := s) key none (n := k) (k := 0) fun i _ hi ↦
        .inl (hbefore i (by omega)) with ⟨hscan, hnone⟩ | ⟨hscan, j, -, hj, hfound⟩
    · -- No record before the first free one has the key, and the free one is claimed.
      refine .inr ⟨k, hk, ⟨hzero, hbefore⟩, fun j hj ↦ hnone j (Nat.zero_le j) (by omega), ?_⟩
      have hclaim : createTurn key k (s, none) = .ok (claim k s, some k) := by
        rw [createTurn, if_pos ⟨hzero, rfl⟩, claim]
      have hrest : Bitmap.scan (createTurn key) 16 0 (s, none) =
          Bitmap.scan (createTurn key) m (k + 1) (claim k s, some k) := by
        rw [hsplit, hscan]
        dsimp only
        rw [Bitmap.scan, hclaim]
      rcases createTurn_search (s := claim k s) key (some k) (n := m) (k := k + 1) fun i _ _ ↦
          .inr (Option.some_ne_none k) with ⟨hscan', hnone'⟩ | ⟨hscan', j, hlow, hhigh, hfound⟩
      · refine .inr ⟨?_, fun j hj hj' ↦ hnone' j (by omega) (by omega)⟩
        rw [createObject, hrest, hscan']
        rfl
      · refine .inl ⟨?_, j, by omega, by omega, hfound⟩
        rw [createObject, hrest, hscan', afterLoop]
    · refine .inl ⟨?_, .inl ⟨j, by omega, hfound, fun i hi ↦ hbefore i (by omega)⟩⟩
      rw [createObject, hsplit, hscan, afterLoop]
  · have hall : ∀ j < 16, s.field j .id ≠ 0 := fun j hj hzero ↦ hfree ⟨j, hj, hzero⟩
    refine .inl ⟨?_, .inr hall⟩
    rcases createTurn_search (s := s) key none (n := 16) (k := 0) fun i _ hi ↦
        .inl (hall i (by omega)) with ⟨hscan, -⟩ | ⟨hscan, -⟩
    · rw [createObject, hscan, afterLoop]
    · rw [createObject, hscan, afterLoop]

/-- The ways of a creation whose key fits: where it is found does not depend on the claim. -/
theorem createObject_cases (bld : Build) (s : Store) (hkey : Fits key) :
    (createObject bld key s = (-1, s) ∧
      ((∃ j < 16, Found s key j ∧ ∀ i ≤ j, s.field i .id ≠ 0) ∨ ∀ j < 16, s.field j .id ≠ 0)) ∨
    ∃ k < 16, FirstFree s k ∧ (∀ j < k, ¬ Found s key j) ∧
      ((createObject bld key s = (-1, claim k s) ∧ ∃ j, k < j ∧ j < 16 ∧ Found s key j) ∨
        (createObject bld key s = ((named bld k key s).field k .id, named bld k key s) ∧
          ∀ j < 16, j ≠ k → ¬ Found s key j)) := by
  rcases createObject_ways bld key s with hkept | ⟨k, hk, hfirst, hbefore, hway⟩
  · exact .inl hkept
  · refine .inr ⟨k, hk, hfirst, hbefore, ?_⟩
    rcases hway with ⟨hcreate, j, hj, hj', hfound⟩ | ⟨hcreate, hnone⟩
    · exact .inl ⟨hcreate, j, hj, hj', (found_claim hkey (ne_of_gt hj)).mp hfound⟩
    · refine .inr ⟨hcreate, fun j hj hne ↦ ?_⟩
      rcases Nat.lt_or_gt_of_ne hne with hlt | hgt
      · exact hbefore j hlt
      · exact fun h ↦ hnone j hgt hj ((found_claim hkey hne).mpr h)

/-! ### The named record -/

@[simp] theorem disk_named : (named bld k key s).disk = s.disk := disk_initObjectCached

@[simp] theorem cache_named : (named bld k key s).cache = s.cache := cache_initObjectCached

theorem field_named (hkey : Fits key) (hk : k < 16) (hk' : k' < 16) :
    (named bld k key s).field k' f =
      if k' = k ∧ f = .id then (k : ℤ) + 2 else s.field k' f := by
  have hcopy :
      Store.field { claim k s with objs := object.setKey (claim k s).objs k key.chars } k' f =
      (claim k s).field k' f :=
    RecordLayout.get_setKey _ _ _ _ hkey
  rw [named, field_initObjectCached, if_neg (by omega), if_neg (by omega), hcopy, claim,
    field_assign (by omega) (by omega)]

theorem keyEq_named (hkey : Fits key) (hkey' : Fits key') :
    (named bld k key s).keyEq k' key' = if k' = k then decide (key' = key)
      else s.keyEq k' key' := by
  have hcopy : Store.keyEq { claim k s with objs := object.setKey (claim k s).objs k key.chars } k'
      key' = if k' = k then decide (key'.chars = key.chars) else (claim k s).keyEq k' key' :=
    RecordLayout.hasKey_setKey _ _ _ hkey key.noNul hkey' key'.noNul
  have hchars : key'.chars = key.chars ↔ key' = key := (Key.mk.injEq ..).symm ▸ Iff.rfl
  rw [named, keyEq_initObjectCached hkey', hcopy, claim, keyEq_assign hkey',
    decide_eq_decide.mpr hchars]

end OsAssignments.Example
