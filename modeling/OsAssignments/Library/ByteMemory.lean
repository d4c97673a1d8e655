import Mathlib

/-!
# Little-endian integers and C strings in a flat byte memory

A byte memory is a function from addresses to bytes. `load` and `store` read and write a
natural number of any width, least significant byte first; `loadInt` and `storeInt` are the
two's complement reading of the same bytes. `load_store_self` and `store_of_outside` are the two
laws of the memory: a store is read back modulo its width, and it changes no byte outside its
range. `loadInt_storeInt_self` and `loadInt_storeInt_of_disjoint` say so of integers.

A C string is a byte list without a zero byte. `strcpy` writes it and its terminator, and
`strcmpEq` is the outcome `strcmp(...) == 0`. `strcmpEq_strcpy` decides the comparison after a
copy to the same address, `strcpy_of_outside` and `strcmpEq_congr` are the frame rules, and
`eq_of_strcmpEq` says that the string stored at an address is unique. A string is at an address
when copying it there changes nothing (`strcmpEq_iff_strcpy`), and it depends on no byte past a
zero byte (`strcmpEq_congr_of_zero`).
-/

set_option autoImplicit false
set_option relaxedAutoImplicit false

namespace OsAssignments.Library

/-- A flat memory, one byte at each address. -/
abbrev Bytes := ℕ → UInt8

namespace Bytes

variable {m m' : Bytes} {addr addr' w w' : ℕ}

/-! ### Integers -/

/-- The little-endian number in the `w` bytes at `addr`. -/
def load (m : Bytes) : ℕ → ℕ → ℕ
  | _, 0 => 0
  | addr, w + 1 => (m addr).toNat + 256 * load m (addr + 1) w

/-- The memory after the low `w` bytes of `v` are written at `addr`. -/
def store (m : Bytes) (addr w v : ℕ) : Bytes := fun n ↦
  if addr ≤ n ∧ n < addr + w then UInt8.ofNat (v / 256 ^ (n - addr)) else m n

/-- The two's complement reading of the `w` bytes at `addr`. -/
def loadInt (m : Bytes) (addr w : ℕ) : ℤ := Int.bmod (load m addr w) (256 ^ w)

/-- The memory after an integer is written in `w` bytes, two's complement. -/
def storeInt (m : Bytes) (addr w : ℕ) (v : ℤ) : Bytes :=
  store m addr w (v % (256 ^ w : ℕ)).toNat

theorem load_congr (h : ∀ n, addr ≤ n → n < addr + w → m n = m' n) :
    load m addr w = load m' addr w := by
  induction w generalizing addr with
  | zero => rfl
  | succ w ih =>
    have hrest : load m (addr + 1) w = load m' (addr + 1) w :=
      ih fun n hlow hhigh ↦ h n (by omega) (by omega)
    simp only [load, h addr le_rfl (by omega), hrest]

@[simp] theorem load_zero (addr w : ℕ) : load (fun _ ↦ 0) addr w = 0 := by
  induction w generalizing addr with
  | zero => rfl
  | succ w ih => simp [load, ih]

theorem load_lt (m : Bytes) (addr w : ℕ) : load m addr w < 256 ^ w := by
  induction w generalizing addr with
  | zero => simp [load]
  | succ w ih =>
    have hbyte := (m addr).toNat_lt
    have hrest := ih (addr + 1)
    rw [load, pow_succ]
    omega

theorem store_of_outside {n v : ℕ} (h : n < addr ∨ addr + w ≤ n) :
    store m addr w v n = m n := by
  rw [store, if_neg (by omega)]

/-- Above its lowest byte, a store is the store of the quotient. -/
theorem load_store_succ (m : Bytes) (addr w v : ℕ) :
    load (store m addr (w + 1) v) (addr + 1) w =
      load (store m (addr + 1) w (v / 256)) (addr + 1) w := by
  refine load_congr fun n hlow hhigh ↦ ?_
  have hsplit : n - addr = (n - (addr + 1)) + 1 := by omega
  rw [store, store, if_pos (by omega), if_pos (by omega), hsplit, pow_succ', Nat.div_div_eq_div_mul]

theorem load_store_self (m : Bytes) (addr w v : ℕ) :
    load (store m addr w v) addr w = v % 256 ^ w := by
  induction w generalizing addr v with
  | zero => simp [load, Nat.mod_one]
  | succ w ih =>
    have hbyte : (store m addr (w + 1) v addr).toNat = v % 256 := by
      rw [store, if_pos (by omega), Nat.sub_self, pow_zero, Nat.div_one, UInt8.toNat_ofNat']
    rw [load, hbyte, load_store_succ, ih, pow_succ', Nat.mod_mul]

/-- The digits of a number are its bytes. -/
theorem load_digit {i : ℕ} (hi : i < w) : load m addr w / 256 ^ i % 256 = (m (addr + i)).toNat := by
  induction w generalizing addr i with
  | zero => exact absurd hi (Nat.not_lt_zero i)
  | succ w ih =>
    have hbyte := (m addr).toNat_lt
    rw [load]
    cases i with
    | zero =>
      rw [pow_zero, Nat.div_one, Nat.add_zero addr]
      omega
    | succ i =>
      have hquot : ((m addr).toNat + 256 * load m (addr + 1) w) / 256 = load m (addr + 1) w := by
        omega
      rw [pow_succ', ← Nat.div_div_eq_div_mul, hquot, ih (by omega), Nat.add_right_comm,
        Nat.add_assoc]

/-- A number that is small for its width has a zero byte on top. -/
theorem top_of_load_lt (h : load m addr (w + 1) < 256 ^ w) : m (addr + w) = 0 := by
  induction w generalizing addr with
  | zero =>
    rw [load, load] at h
    exact UInt8.toNat_inj.mp (show (m addr).toNat = 0 by omega)
  | succ w ih =>
    rw [load, pow_succ] at h
    have hrest : load m (addr + 1) (w + 1) < 256 ^ w := by omega
    rw [show addr + (w + 1) = addr + 1 + w by omega]
    exact ih hrest

theorem load_eq_zero_iff : load m addr w = 0 ↔ ∀ i < w, m (addr + i) = 0 := by
  induction w generalizing addr with
  | zero => exact ⟨fun _ i hi ↦ absurd hi (Nat.not_lt_zero i), fun _ ↦ rfl⟩
  | succ w ih =>
    have hbyte : (m addr).toNat = 0 ↔ m addr = 0 := UInt8.toNat_inj (b := 0)
    have hsplit : load m addr (w + 1) = 0 ↔ (m addr).toNat = 0 ∧ load m (addr + 1) w = 0 := by
      rw [load]
      omega
    rw [hsplit, hbyte, ih]
    constructor
    · rintro ⟨hzero, hrest⟩ (_ | i) hi
      · exact hzero
      · rw [show addr + (i + 1) = addr + 1 + i by omega]
        exact hrest i (by omega)
    · intro h
      refine ⟨h 0 (by omega), fun i hi ↦ ?_⟩
      rw [show addr + 1 + i = addr + (i + 1) by omega]
      exact h (i + 1) (by omega)

/-- A number of one byte is in the lowest byte, and the others are zero. -/
theorem load_eq_byte_iff {v : ℕ} (hv : v < 256) :
    load m addr (w + 1) = v ↔ (m addr).toNat = v ∧ ∀ i < w, m (addr + 1 + i) = 0 := by
  have hbyte := (m addr).toNat_lt
  rw [← load_eq_zero_iff, load]
  omega

/-- A number that is small for its width is read as itself. -/
theorem loadInt_eq_iff {v : ℕ} (hv : 2 * v < 256 ^ w) :
    loadInt m addr w = v ↔ load m addr w = v := by
  have hlt := load_lt m addr w
  have hmod : ((load m addr w : ℕ) : ℤ) % (256 ^ w : ℕ) = load m addr w := by
    exact_mod_cast congrArg (Nat.cast : ℕ → ℤ) (Nat.mod_eq_of_lt hlt)
  constructor
  · intro h
    have hemod := Int.bmod_emod (x := (load m addr w : ℤ)) (m := 256 ^ w)
    rw [loadInt] at h
    rw [h, hmod, Int.emod_eq_of_lt (by omega) (by omega)] at hemod
    omega
  · intro h
    rw [loadInt, h]
    exact Int.bmod_eq_of_le (by omega) (by omega)

theorem loadInt_congr (h : ∀ n, addr ≤ n → n < addr + w → m n = m' n) :
    loadInt m addr w = loadInt m' addr w := by
  rw [loadInt, loadInt, load_congr h]

theorem storeInt_of_outside {n : ℕ} {v : ℤ} (h : n < addr ∨ addr + w ≤ n) :
    storeInt m addr w v n = m n :=
  store_of_outside h

/-- A stored byte does not depend on the rest of the memory. -/
theorem storeInt_congr {n : ℕ} {v : ℤ} (h : m n = m' n) :
    storeInt m addr w v n = storeInt m' addr w v n := by
  rw [storeInt, storeInt, store, store, h]

theorem loadInt_storeInt_of_disjoint {v : ℤ} (h : addr' + w' ≤ addr ∨ addr + w ≤ addr') :
    loadInt (storeInt m addr w v) addr' w' = loadInt m addr' w' :=
  loadInt_congr fun _ hlow hhigh ↦ storeInt_of_outside (by omega)

theorem loadInt_storeInt_self (m : Bytes) (addr w : ℕ) (v : ℤ) :
    loadInt (storeInt m addr w v) addr w = Int.bmod v (256 ^ w) := by
  have hpos : (0 : ℤ) < (256 ^ w : ℕ) := by positivity
  have hlow : 0 ≤ v % (256 ^ w : ℕ) := Int.emod_nonneg v hpos.ne'
  have hhigh : v % (256 ^ w : ℕ) < (256 ^ w : ℕ) := Int.emod_lt_of_pos v hpos
  rw [loadInt, storeInt, load_store_self, Nat.mod_eq_of_lt (by omega), Int.toNat_of_nonneg hlow,
    Int.emod_bmod]

/-! ### C strings -/

/-- `strcmp` of the string at `addr` with `str` returns zero. -/
def strcmpEq (m : Bytes) : ℕ → List UInt8 → Bool
  | addr, [] => m addr == 0
  | addr, c :: str => m addr == c && strcmpEq m (addr + 1) str

/-- The memory after `strcpy` of `str` to `addr`, terminator included. -/
def strcpy : Bytes → ℕ → List UInt8 → Bytes
  | m, addr, [] => Function.update m addr 0
  | m, addr, c :: str => strcpy (Function.update m addr c) (addr + 1) str

theorem strcpy_of_outside {str : List UInt8} {n : ℕ} (h : n < addr ∨ addr + str.length < n) :
    strcpy m addr str n = m n := by
  induction str generalizing m addr with
  | nil =>
    simp only [List.length_nil] at h
    rw [strcpy, Function.update_of_ne (by omega)]
  | cons c str ih =>
    rw [List.length_cons] at h
    rw [strcpy, ih (by omega), Function.update_of_ne (by omega)]

/-- The bytes of a copied string, and its terminator. -/
theorem strcpy_of_inside {str : List UInt8} {n : ℕ} (hlow : addr ≤ n)
    (hhigh : n ≤ addr + str.length) :
    strcpy m addr str n = str.getD (n - addr) 0 := by
  induction str generalizing m addr with
  | nil =>
    obtain rfl : n = addr := by
      simp only [List.length_nil] at hhigh
      omega
    rw [strcpy, Function.update_self, List.getD_nil]
  | cons c str ih =>
    rw [List.length_cons] at hhigh
    rw [strcpy]
    by_cases hn : n = addr
    · rw [hn, strcpy_of_outside (.inl (Nat.lt_succ_self addr)), Function.update_self, Nat.sub_self,
        List.getD_cons_zero]
    · rw [ih (by omega) (by omega), show n - addr = (n - (addr + 1)) + 1 by omega,
        List.getD_cons_succ]

theorem strcmpEq_congr {str : List UInt8}
    (h : ∀ n, addr ≤ n → n ≤ addr + str.length → m n = m' n) :
    strcmpEq m addr str = strcmpEq m' addr str := by
  induction str generalizing addr with
  | nil => rw [strcmpEq, strcmpEq, h addr le_rfl (by omega)]
  | cons c str ih =>
    rw [List.length_cons] at h
    rw [strcmpEq, strcmpEq, h addr le_rfl (by omega),
      ih fun n hlow hhigh ↦ h n (by omega) (by omega)]

/-- After a copy the string at the address is the copied one and no other. The two strings must
be free of zero bytes: a zero inside would end them early. -/
theorem strcmpEq_strcpy {str other : List UInt8} (hstr : 0 ∉ str) (hother : 0 ∉ other) :
    strcmpEq (strcpy m addr str) addr other = true ↔ other = str := by
  induction str generalizing m addr other with
  | nil =>
    cases other with
    | nil => simp [strcmpEq, strcpy]
    | cons d other =>
      have hd : d ≠ 0 := fun h ↦ hother (by simp [h])
      simp [strcmpEq, strcpy, hd.symm]
  | cons c str ih =>
    have hhead : strcpy (Function.update m addr c) (addr + 1) str addr = c := by
      rw [strcpy_of_outside (Or.inl (by omega)), Function.update_self]
    have hc : c ≠ 0 := fun h ↦ hstr (by simp [h])
    cases other with
    | nil => simp [strcmpEq, strcpy, hhead, hc]
    | cons d other =>
      have htail : strcmpEq (strcpy (Function.update m addr c) (addr + 1) str) (addr + 1) other =
          true ↔ other = str := ih
        (fun h ↦ hstr (by simp [h])) (fun h ↦ hother (List.mem_cons_of_mem d h))
      simp only [strcmpEq, strcpy, hhead, Bool.and_eq_true, beq_iff_eq, htail, List.cons.injEq]
      exact and_congr_left fun _ ↦ eq_comm

/-- At most one string without zero bytes is stored at an address. -/
theorem eq_of_strcmpEq {str other : List UInt8} (hstr : 0 ∉ str) (hother : 0 ∉ other)
    (h : strcmpEq m addr str = true) (h' : strcmpEq m addr other = true) : str = other := by
  induction str generalizing addr other with
  | nil =>
    cases other with
    | nil => rfl
    | cons d other =>
      simp only [strcmpEq, Bool.and_eq_true, beq_iff_eq] at h h'
      exact absurd (h'.1.symm.trans h) fun hd ↦ hother (by simp [hd])
  | cons c str ih =>
    cases other with
    | nil =>
      simp only [strcmpEq, Bool.and_eq_true, beq_iff_eq] at h h'
      exact absurd (h.1.symm.trans h') fun hc ↦ hstr (by simp [hc])
    | cons d other =>
      simp only [strcmpEq, Bool.and_eq_true, beq_iff_eq] at h h'
      have hhead : c = d := h.1.symm.trans h'.1
      have htail : str = other := ih (fun hmem ↦ hstr (List.mem_cons_of_mem c hmem))
        (fun hmem ↦ hother (List.mem_cons_of_mem d hmem)) h.2 h'.2
      rw [hhead, htail]

/-- A copied byte does not depend on the rest of the memory. -/
theorem strcpy_congr {str : List UInt8} {n : ℕ} (h : m n = m' n) :
    strcpy m addr str n = strcpy m' addr str n := by
  induction str generalizing m m' addr with
  | nil =>
    rw [strcpy, strcpy]
    by_cases hn : n = addr
    · rw [hn, Function.update_self, Function.update_self]
    · rw [Function.update_of_ne hn, Function.update_of_ne hn, h]
  | cons c str ih =>
    rw [strcpy, strcpy]
    refine ih ?_
    by_cases hn : n = addr
    · rw [hn, Function.update_self, Function.update_self]
    · rw [Function.update_of_ne hn, Function.update_of_ne hn, h]

/-- A string is at an address exactly when copying it there changes nothing. -/
theorem strcmpEq_iff_strcpy {str : List UInt8} :
    strcmpEq m addr str = true ↔ strcpy m addr str = m := by
  induction str generalizing m addr with
  | nil =>
    rw [strcmpEq, strcpy, beq_iff_eq]
    constructor
    · intro h
      rw [← h, Function.update_eq_self]
    · intro h
      rw [← h, Function.update_self]
  | cons c str ih =>
    have hhead : strcpy m addr (c :: str) addr = c := by
      rw [strcpy, strcpy_of_outside (.inl (by omega)), Function.update_self]
    rw [strcmpEq, Bool.and_eq_true, beq_iff_eq]
    constructor
    · rintro ⟨hc, hrest⟩
      rw [strcpy, ← hc, Function.update_eq_self]
      exact ih.mp hrest
    · intro h
      have hc : m addr = c := (congrFun h addr).symm.trans hhead
      rw [strcpy, ← hc, Function.update_eq_self] at h
      exact ⟨hc, ih.mpr h⟩

/-- A string ends at the first zero byte, so the bytes after it do not matter. -/
theorem strcmpEq_congr_of_zero {str : List UInt8} (hstr : 0 ∉ str) {z : ℕ} (hz : m z = 0)
    (haddr : addr ≤ z) (h : ∀ n, addr ≤ n → n ≤ z → m n = m' n) :
    strcmpEq m addr str = strcmpEq m' addr str := by
  induction str generalizing addr with
  | nil => rw [strcmpEq, strcmpEq, h addr le_rfl haddr]
  | cons c str ih =>
    have hc : (0 : UInt8) ≠ c := fun heq ↦ hstr (heq ▸ List.mem_cons_self)
    rw [strcmpEq, strcmpEq, ← h addr le_rfl haddr]
    by_cases heq : addr = z
    · rw [heq, hz, beq_eq_false_iff_ne.mpr hc, Bool.false_and, Bool.false_and]
    · rw [ih (fun hmem ↦ hstr (List.mem_cons_of_mem c hmem)) (by omega)
        fun n hlow hhigh ↦ h n (by omega) hhigh]

end Bytes

end OsAssignments.Library
