import OsAssignments.Library.ByteMemory

/-!
# Blocks and object records

The two byte layouts of the object store. A disk block is 4096 bytes; read as an indirect block
or as a piece of a bitmap it is 1024 little-endian 32-bit words. The object table `a` is one
flat byte memory of 88-byte records `struct object`:

    long id; long size; int cache_index; int dirty; int direct[4]; int indirect[4]; char key[32];

`Field` lists the integer fields of a record with their offsets and widths, and
`getField_setField` is the one law of the table: a store to a field is read back there and
nowhere else. `int_setInt` is the same law for the entries of an indirect block. Block numbers
fit in an `int` and are read back unchanged (`wrap_of_range`).
-/

set_option autoImplicit false
set_option relaxedAutoImplicit false

namespace OsAssignments.Objstore

open Library

/-! ### Blocks -/

/-- A block of `BLOCK_SIZE` bytes; the bytes past the block are fixed to zero. -/
@[ext]
structure Block where
  byte : Bytes
  outside : ∀ n, 4096 ≤ n → byte n = 0

namespace Block

/-- The first 4096 bytes of a memory as a block. -/
def ofBytes (m : Bytes) : Block where
  byte := fun n ↦ if n < 4096 then m n else 0
  outside := fun n hn ↦ if_neg (by omega)

/-- A fresh anonymous page. -/
def zero : Block := ofBytes fun _ ↦ 0

/-- The bytes of a buffer at the start of a fresh page. -/
def ofList (buff : List UInt8) : Block := ofBytes fun n ↦ buff.getD n 0

/-- Entry `j` of the block read as an `int` array. -/
def int (b : Block) (j : ℕ) : ℤ := b.byte.loadInt (4 * j) 4

/-- The block after entry `j` of its `int` array is assigned. -/
def setInt (b : Block) (j : ℕ) (v : ℤ) : Block := ofBytes (b.byte.storeInt (4 * j) 4 v)

/-- Word `j` of the block read as an `unsigned int` array. -/
def word (b : Block) (j : ℕ) : BitVec 32 := BitVec.ofNat 32 (b.byte.load (4 * j) 4)

/-- Byte `n` of the memory of an `unsigned int` array. -/
def wordByte (words : ℕ → BitVec 32) (n : ℕ) : UInt8 :=
  UInt8.ofNat ((words (n / 4)).toNat / 256 ^ (n % 4))

/-- The 4096 bytes of an `unsigned int` array that start at word `i`. -/
def ofWords (words : ℕ → BitVec 32) (i : ℕ) : Block :=
  ofBytes fun n ↦ wordByte words (4 * i + n)

variable {b : Block} {m : Bytes} {n j j' : ℕ} {v : ℤ}

theorem byte_ofBytes (hn : n < 4096) : (ofBytes m).byte n = m n := if_pos hn

@[simp] theorem byte_zero (n : ℕ) : zero.byte n = 0 := by
  simp [zero, ofBytes]

theorem byte_ofList (buff : List UInt8) (hn : n < 4096) :
    (ofList buff).byte n = buff.getD n 0 :=
  byte_ofBytes hn

@[simp] theorem int_zero (j : ℕ) : zero.int j = 0 := by
  simp [int, Bytes.loadInt, Bytes.load]

theorem int_setInt (b : Block) (j : ℕ) (hj' : j' < 1024) (v : ℤ) :
    (b.setInt j v).int j' = if j' = j then Int.bmod v (256 ^ 4) else b.int j' := by
  have hbytes : (b.setInt j v).int j' = (b.byte.storeInt (4 * j) 4 v).loadInt (4 * j') 4 :=
    Bytes.loadInt_congr fun n _ hhigh ↦ byte_ofBytes (by omega)
  rw [hbytes]
  split_ifs with heq
  · rw [heq, Bytes.loadInt_storeInt_self]
  · exact Bytes.loadInt_storeInt_of_disjoint (by omega)

theorem load_wordByte (words : ℕ → BitVec 32) (i : ℕ) :
    Bytes.load (wordByte words) (4 * i) 4 = (words i).toNat := by
  have hstore : Bytes.load (wordByte words) (4 * i) 4 =
      Bytes.load (Bytes.store (fun _ ↦ 0) (4 * i) 4 (words i).toNat) (4 * i) 4 := by
    refine Bytes.load_congr fun n hlow hhigh ↦ ?_
    rw [wordByte, Bytes.store, if_pos ⟨hlow, hhigh⟩, show n / 4 = i by omega,
      show n % 4 = n - 4 * i by omega]
  rw [hstore, Bytes.load_store_self, Nat.mod_eq_of_lt (by simpa using (words i).isLt)]

/-- Words survive the trip through a block. -/
theorem word_ofWords (words : ℕ → BitVec 32) (i : ℕ) (hj : j < 1024) :
    (ofWords words i).word j = words (i + j) := by
  have hshift : (ofWords words i).byte.load (4 * j) 4 =
      Bytes.load (wordByte words) (4 * (i + j)) 4 := by
    simp only [Bytes.load, ofWords, byte_ofBytes (show 4 * j < 4096 by omega),
      byte_ofBytes (show 4 * j + 1 < 4096 by omega),
        byte_ofBytes (show 4 * j + 1 + 1 < 4096 by omega),
      byte_ofBytes (show 4 * j + 1 + 1 + 1 < 4096 by omega), Nat.mul_add, Nat.add_assoc]
  rw [word, hshift, load_wordByte, BitVec.ofNat_toNat, BitVec.setWidth_eq]

/-- The block of an array that was read from a block. -/
theorem ofWords_word {words : ℕ → BitVec 32} {i : ℕ} (h : ∀ j < 1024, words (i + j) = b.word j) :
    ofWords words i = b := by
  ext n
  by_cases hn : n < 4096
  · have hword := h (n / 4) (by omega)
    have hlt : b.byte.load (4 * (n / 4)) 4 < 2 ^ 32 := Bytes.load_lt b.byte (4 * (n / 4)) 4
    have hdigit : b.byte.load (4 * (n / 4)) 4 / 256 ^ (n % 4) % 256 =
        (b.byte (4 * (n / 4) + n % 4)).toNat := Bytes.load_digit (by omega)
    rw [ofWords, byte_ofBytes hn, wordByte, show (4 * i + n) / 4 = i + n / 4 by omega,
      show (4 * i + n) % 4 = n % 4 by omega, hword, word, BitVec.toNat_ofNat, Nat.mod_eq_of_lt hlt]
    rw [UInt8.toNat_ofNat', hdigit, Nat.div_add_mod]
  · rw [(ofWords words i).outside n (by omega), b.outside n (by omega)]

end Block

/-- A block number, and any other value of an `int`, is its own 32-bit two's complement. -/
theorem wrap_of_range {v : ℤ} (hlow : -2147483648 ≤ v) (hhigh : v < 2147483648) :
    Int.bmod v (256 ^ 4) = v :=
  Int.bmod_eq_of_le (by norm_num; omega) (by norm_num; omega)

/-! ### Object records -/

instance neZero_ranges : NeZero 4 := ⟨by norm_num⟩

/-- The integer fields of `struct object`. -/
inductive Field
  | id
  | size
  | cacheIndex
  | dirty
  | direct (i : Fin 4)
  | indirect (i : Fin 4)
  deriving DecidableEq

namespace Field

/-- Offset of a field in the record. -/
def offset : Field → ℕ
  | id => 0
  | size => 8
  | cacheIndex => 16
  | dirty => 20
  | direct i => 24 + 4 * i
  | indirect i => 40 + 4 * i

/-- Width of a field in bytes: `long` has 8, `int` has 4. -/
def width : Field → ℕ
  | id => 8
  | size => 8
  | _ => 4

/-- The block pointers of a record. -/
def pointer : Field → Bool
  | direct _ => true
  | indirect _ => true
  | _ => false

/-- Every field ends before the key. -/
theorem offset_add_width_le (f : Field) : f.offset + f.width ≤ 56 := by
  cases f <;> simp only [offset, width] <;> omega

/-- Distinct fields of one record do not overlap. -/
theorem disjoint {f f' : Field} (h : f' ≠ f) :
    f'.offset + f'.width ≤ f.offset ∨ f.offset + f.width ≤ f'.offset := by
  cases f <;> cases f' <;> simp only [offset, width, ne_eq, not_true_eq_false, direct.injEq,
    indirect.injEq] at h ⊢ <;> omega

end Field

/-- Address of a field of the record in slot `k`. -/
def fieldAddr (k : ℕ) (f : Field) : ℕ := 88 * k + f.offset

/-- Address of the key of the record in slot `k`. -/
def keyAddr (k : ℕ) : ℕ := 88 * k + 56

/-- Field `f` of the record in slot `k` of a table. -/
def getField (a : Bytes) (k : ℕ) (f : Field) : ℤ := a.loadInt (fieldAddr k f) f.width

/-- The table after field `f` of slot `k` is assigned. -/
def setField (a : Bytes) (k : ℕ) (f : Field) (v : ℤ) : Bytes :=
  a.storeInt (fieldAddr k f) f.width v

variable {a a' : Bytes} {k k' n : ℕ} {f f' : Field} {v : ℤ}

theorem getField_setField (a : Bytes) (k k' : ℕ) (f f' : Field) (v : ℤ) :
    getField (setField a k f v) k' f' =
      if k' = k ∧ f' = f then Int.bmod v (256 ^ f.width) else getField a k' f' := by
  have hf := f.offset_add_width_le
  have hf' := f'.offset_add_width_le
  split_ifs with h
  · rw [h.1, h.2]
    exact Bytes.loadInt_storeInt_self a _ _ v
  · refine Bytes.loadInt_storeInt_of_disjoint ?_
    simp only [fieldAddr]
    by_cases hk : k' = k
    · have hdisjoint : f'.offset + f'.width ≤ f.offset ∨ f.offset + f.width ≤ f'.offset :=
        Field.disjoint fun hff ↦ h ⟨hk, hff⟩
      omega
    · omega

theorem getField_setField_of_ne (h : k' ≠ k ∨ f' ≠ f) :
    getField (setField a k f v) k' f' = getField a k' f' := by
  rw [getField_setField, if_neg]
  rintro ⟨hk, hf⟩
  exact h.elim (fun hne ↦ hne hk) fun hne ↦ hne hf

/-- An assignment to a field changes bytes of its own record only, before the key. -/
theorem setField_of_outside (h : n < 88 * k ∨ 88 * k + 56 ≤ n) : setField a k f v n = a n := by
  have hf := f.offset_add_width_le
  refine Bytes.storeInt_of_outside ?_
  simp only [fieldAddr]
  omega

/-- A field depends on its own record, before the key. -/
theorem getField_congr (h : ∀ n, 88 * k ≤ n → n < 88 * k + 56 → a n = a' n) :
    getField a k f = getField a' k f := by
  have hf := f.offset_add_width_le
  refine Bytes.loadInt_congr fun n hlow hhigh ↦ h n ?_ ?_ <;>
    simp only [fieldAddr] at hlow hhigh <;>
    omega

/-! ### Keys -/

/-- A key: a C string, which has no zero byte before its terminator. -/
structure Key where
  chars : List UInt8
  noNul : 0 ∉ chars
  deriving DecidableEq

/-- The key without characters. -/
def Key.empty : Key := ⟨[], List.not_mem_nil⟩

/-- The key fits the 32 bytes of the key field with its terminator. -/
def Key.Short (key : Key) : Prop := key.chars.length < 32

instance (key : Key) : Decidable key.Short := inferInstanceAs (Decidable (_ < 32))

/-- `strcmp` of the key in slot `k` with a key returns zero. -/
def keyEq (a : Bytes) (k : ℕ) (key : Key) : Bool := a.strcmpEq (keyAddr k) key.chars

theorem keyEq_setField (a : Bytes) (k k' : ℕ) (f : Field) (v : ℤ) {key : Key}
    (hkey : key.Short) : keyEq (setField a k f v) k' key = keyEq a k' key := by
  unfold Key.Short at hkey
  refine Bytes.strcmpEq_congr fun n hlow hhigh ↦ setField_of_outside ?_
  simp only [keyAddr] at hlow hhigh
  omega

/-- The table after `strcpy` of a key into slot `k`. -/
def setKey (a : Bytes) (k : ℕ) (key : Key) : Bytes := a.strcpy (keyAddr k) key.chars

/-- A key of less than 32 bytes stays inside the record. -/
theorem setKey_of_outside {key : Key} (hkey : key.Short)
    (h : n < 88 * k + 56 ∨ 88 * k + 88 ≤ n) : setKey a k key n = a n := by
  unfold Key.Short at hkey
  refine Bytes.strcpy_of_outside ?_
  simp only [keyAddr]
  omega

theorem getField_setKey (a : Bytes) (k k' : ℕ) (f : Field) {key : Key} (hkey : key.Short) :
    getField (setKey a k key) k' f = getField a k' f :=
  getField_congr fun n hlow hhigh ↦ setKey_of_outside hkey (by omega)

theorem keyEq_setKey (a : Bytes) (k k' : ℕ) {key key' : Key} (hkey : key.Short)
    (hkey' : key'.Short) :
    keyEq (setKey a k key) k' key' = if k' = k then decide (key' = key) else keyEq a k' key' := by
  unfold Key.Short at hkey'
  split_ifs with hk
  · rw [hk, Bool.eq_iff_iff, keyEq, setKey, Bytes.strcmpEq_strcpy key.noNul key'.noNul,
      decide_eq_true_iff, Key.mk.injEq]
  · refine Bytes.strcmpEq_congr fun n hlow hhigh ↦ setKey_of_outside hkey ?_
    simp only [keyAddr] at hlow hhigh
    omega

/-- A slot holds one key. -/
theorem key_unique {key key' : Key} (h : keyEq a k key = true) (h' : keyEq a k key' = true) :
    key = key' :=
  Key.mk.injEq .. ▸ Bytes.eq_of_strcmpEq key.noNul key'.noNul h h'

end OsAssignments.Objstore
