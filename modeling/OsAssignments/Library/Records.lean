import OsAssignments.Library.ByteMemory

/-!
# Arrays of records in a byte memory

A `RecordLayout` describes a C structure with integer fields and, after them, a character array for
a key. An array of such records lies in a byte memory from address 0. `get` and `set` are a field of
a record, `hasKey` and `setKey` are `strcmp` with its key and `strcpy` into it.

`get_set` is the law of the fields: an assignment is read back there and nowhere else. `hasKey_set`,
`get_setKey` and `hasKey_setKey` are the laws that join fields and keys. A key has to be shorter
than its array: a longer one runs into the next record.
-/

set_option autoImplicit false
set_option relaxedAutoImplicit false

namespace OsAssignments.Library

/-- The layout of a record: fields with offset and width, and a key of `room` bytes after them. -/
structure RecordLayout (F : Type*) where
  stride : ℕ
  offset : F → ℕ
  width : F → ℕ
  keyOffset : ℕ
  room : ℕ
  fields_le : ∀ f, offset f + width f ≤ keyOffset
  key_le : keyOffset + room ≤ stride
  disjoint : ∀ f f', f' ≠ f → offset f' + width f' ≤ offset f ∨ offset f + width f ≤ offset f'

namespace RecordLayout

variable {F : Type*} (R : RecordLayout F)

/-- Address of a field of record `k`. -/
def fieldAddr (k : ℕ) (f : F) : ℕ := R.stride * k + R.offset f

/-- Address of the key of record `k`. -/
def keyAddr (k : ℕ) : ℕ := R.stride * k + R.keyOffset

/-- Field `f` of record `k`. -/
def get (m : Bytes) (k : ℕ) (f : F) : ℤ := m.loadInt (R.fieldAddr k f) (R.width f)

/-- The memory after field `f` of record `k` is assigned. -/
def set (m : Bytes) (k : ℕ) (f : F) (v : ℤ) : Bytes := m.storeInt (R.fieldAddr k f) (R.width f) v

/-- `strcmp` of the key of record `k` with a string returns zero. -/
def hasKey (m : Bytes) (k : ℕ) (str : List UInt8) : Bool := m.strcmpEq (R.keyAddr k) str

/-- The memory after `strcpy` of a string to the key of record `k`. -/
def setKey (m : Bytes) (k : ℕ) (str : List UInt8) : Bytes := m.strcpy (R.keyAddr k) str

variable {R} {m m' : Bytes} {k k' n : ℕ} {f f' : F} {v : ℤ} {str other : List UInt8}

/-- A record ends before the next one starts. -/
theorem stride_mul_add_le (h : k < k') : R.stride * k + R.stride ≤ R.stride * k' := by
  calc R.stride * k + R.stride = R.stride * (k + 1) := (Nat.mul_succ _ _).symm
    _ ≤ R.stride * k' := Nat.mul_le_mul_left _ h

/-- A field depends on its own record, before the key. -/
theorem get_congr (h : ∀ n, R.stride * k ≤ n → n < R.stride * k + R.keyOffset → m n = m' n) :
    R.get m k f = R.get m' k f := by
  have hf := R.fields_le f
  refine Bytes.loadInt_congr fun n hlow hhigh ↦ h n ?_ ?_
  · rw [fieldAddr] at hlow
    omega
  · rw [fieldAddr] at hhigh
    omega

/-- A key that fits its array depends on its own record, from the key on. -/
theorem hasKey_congr (hstr : str.length < R.room)
    (h : ∀ n, R.stride * k + R.keyOffset ≤ n → n < R.stride * k + R.stride → m n = m' n) :
    R.hasKey m k str = R.hasKey m' k str := by
  have hkey := R.key_le
  refine Bytes.strcmpEq_congr fun n hlow hhigh ↦ h n hlow ?_
  rw [keyAddr] at hhigh
  omega

/-- An assignment changes bytes of its own record only, before the key. -/
theorem set_of_outside (h : n < R.stride * k ∨ R.stride * k + R.keyOffset ≤ n) :
    R.set m k f v n = m n := by
  have hf := R.fields_le f
  refine Bytes.storeInt_of_outside ?_
  rw [fieldAddr]
  omega

/-- A copied key that fits changes bytes of its own record only, from the key on. -/
theorem setKey_of_outside (hstr : str.length < R.room)
    (h : n < R.stride * k + R.keyOffset ∨ R.stride * k + R.stride ≤ n) :
    R.setKey m k str n = m n := by
  have hkey := R.key_le
  refine Bytes.strcpy_of_outside ?_
  rw [keyAddr]
  omega

theorem get_set_self (m : Bytes) (k : ℕ) (f : F) (v : ℤ) :
    R.get (R.set m k f v) k f = Int.bmod v (256 ^ R.width f) :=
  Bytes.loadInt_storeInt_self m _ _ v

theorem get_set_of_ne (h : k' ≠ k ∨ f' ≠ f) : R.get (R.set m k f v) k' f' = R.get m k' f' := by
  have hf := R.fields_le f
  have hf' := R.fields_le f'
  have hkey := R.key_le
  refine Bytes.loadInt_storeInt_of_disjoint ?_
  rw [fieldAddr, fieldAddr]
  rcases lt_trichotomy k' k with hlt | rfl | hgt
  · have hle := stride_mul_add_le (R := R) hlt
    omega
  · have hdisjoint := R.disjoint f f' (h.resolve_left fun hne ↦ hne rfl)
    omega
  · have hle := stride_mul_add_le (R := R) hgt
    omega

theorem get_set [DecidableEq F] (m : Bytes) (k k' : ℕ) (f f' : F) (v : ℤ) :
    R.get (R.set m k f v) k' f' =
      if k' = k ∧ f' = f then Int.bmod v (256 ^ R.width f) else R.get m k' f' := by
  split_ifs with h
  · rw [h.1, h.2, get_set_self]
  · refine get_set_of_ne ?_
    by_contra hsame
    push Not at hsame
    exact h hsame

theorem hasKey_set (m : Bytes) (k k' : ℕ) (f : F) (v : ℤ) (hstr : str.length < R.room) :
    R.hasKey (R.set m k f v) k' str = R.hasKey m k' str := by
  have hkey := R.key_le
  refine hasKey_congr hstr fun n hlow hhigh ↦ set_of_outside ?_
  rcases lt_trichotomy k' k with hlt | rfl | hgt
  · have hle := stride_mul_add_le (R := R) hlt
    omega
  · omega
  · have hle := stride_mul_add_le (R := R) hgt
    omega

theorem get_setKey (m : Bytes) (k k' : ℕ) (f : F) (hstr : str.length < R.room) :
    R.get (R.setKey m k str) k' f = R.get m k' f := by
  have hkey := R.key_le
  refine get_congr fun n hlow hhigh ↦ setKey_of_outside hstr ?_
  rcases lt_trichotomy k' k with hlt | rfl | hgt
  · have hle := stride_mul_add_le (R := R) hlt
    omega
  · omega
  · have hle := stride_mul_add_le (R := R) hgt
    omega

theorem hasKey_setKey (m : Bytes) (k k' : ℕ) (hstr : str.length < R.room) (hnul : 0 ∉ str)
    (hother : other.length < R.room) (hnul' : 0 ∉ other) :
    R.hasKey (R.setKey m k str) k' other =
      if k' = k then decide (other = str) else R.hasKey m k' other := by
  have hkey := R.key_le
  split_ifs with hk
  · rw [hk, Bool.eq_iff_iff, hasKey, setKey, Bytes.strcmpEq_strcpy hnul hnul', decide_eq_true_iff]
  · refine hasKey_congr hother fun n hlow hhigh ↦ setKey_of_outside hstr ?_
    rcases Nat.lt_or_gt_of_ne hk with hlt | hgt
    · have hle := stride_mul_add_le (R := R) hlt
      omega
    · have hle := stride_mul_add_le (R := R) hgt
      omega

/-- A record has one key. -/
theorem eq_of_hasKey (hstr : 0 ∉ str) (hother : 0 ∉ other) (h : R.hasKey m k str = true)
    (h' : R.hasKey m k other = true) : str = other :=
  Bytes.eq_of_strcmpEq hstr hother h h'

/-- In a memory of zeros every field is 0. -/
theorem get_zero (R : RecordLayout F) (k : ℕ) (f : F) : R.get (fun _ ↦ 0) k f = 0 := by
  rw [get, Bytes.loadInt, Bytes.load_zero]
  exact Int.zero_bmod

/-- In a memory of zeros every key is empty. -/
theorem hasKey_zero (R : RecordLayout F) (k : ℕ) : R.hasKey (fun _ ↦ 0) k [] = true := rfl

-- The laws above are all that is used of these; a field of a symbolic memory must not be evaluated.
attribute [irreducible] get set hasKey setKey

end RecordLayout

end OsAssignments.Library
