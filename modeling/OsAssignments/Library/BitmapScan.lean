import Mathlib

/-!
# Bitmaps of 32-bit words, scanned from the most significant bit

A bitmap is an array of 32-bit words; bit `k` is bit `k % 32` of word `k / 32`, counted from the
most significant end, and `mask j` selects bit `j` of a word. `bit_or_mask`, `bit_xor_mask` say
what setting and toggling one bit does to every bit.

`scanWords` is the loop nest
`for (i = 0; i < words; i++) { b = 1 << 31; for (j = 0; j < 32; j++) { body; b = b >> 1; ctr++; } }`
with an early exit: the body returns `Except.error` to leave both loops and `Except.ok` to go on.
`scanWords_eq_scan` turns the nest into the single loop `scan` over the bit number, and
`scan_ok`, `scan_error`, `scan_append` are the rules for that loop. The search for the first bit
that satisfies a test is `scanWords_search`, and `scanWords_invariant` is the rule for a body that
changes the state as it goes.
-/

set_option autoImplicit false
set_option relaxedAutoImplicit false

namespace OsAssignments.Library

namespace Bitmap

/-! ### Bits of words -/

/-- The mask of bit `j` of a word, counted from the most significant bit. -/
def mask (j : ℕ) : BitVec 32 := (1#32 <<< 31) >>> j

/-- Bit `k` of a bitmap. -/
def bit (words : ℕ → BitVec 32) (k : ℕ) : Bool := (words (k / 32)).getMsbD (k % 32)

theorem getMsbD_mask {j i : ℕ} (hj : j < 32) : (mask j).getMsbD i = decide (i = j) := by
  simp only [mask, BitVec.getMsbD_ushiftRight, BitVec.getMsbD_shiftLeft, BitVec.getMsbD_one]
  by_cases hij : i = j
  · subst hij
    simp [hj]
  · simp only [hij, decide_false]
    by_cases hi : i < j
    · simp [hi]
    · simp
      omega

theorem mask_succ (j : ℕ) : mask j >>> 1 = mask (j + 1) := by
  rw [mask, mask, BitVec.shiftRight_add]

theorem and_mask_eq_zero_iff (word : BitVec 32) {j : ℕ} (hj : j < 32) :
    word &&& mask j = 0#32 ↔ word.getMsbD j = false := by
  constructor
  · intro hzero
    have hbit := congrArg (fun v : BitVec 32 ↦ v.getMsbD j) hzero
    simpa [BitVec.getMsbD_and, getMsbD_mask hj] using hbit
  · intro hbit
    refine BitVec.eq_of_getMsbD_eq fun i hi ↦ ?_
    rw [BitVec.getMsbD_and, getMsbD_mask hj]
    by_cases hij : i = j
    · subst hij
      simp [hbit]
    · simp [hij]

/-- The test `words[k / 32] & b` on the mask of bit `k`. -/
theorem and_mask_ne_zero_iff (words : ℕ → BitVec 32) (k : ℕ) :
    words (k / 32) &&& mask (k % 32) ≠ 0#32 ↔ bit words k = true := by
  rw [Ne, and_mask_eq_zero_iff _ (Nat.mod_lt k (by norm_num)), bit, Bool.not_eq_false]

private theorem word_bit_eq_iff {k i : ℕ} : i / 32 = k / 32 ∧ i % 32 = k % 32 ↔ i = k := by
  omega

/-- Setting bit `k` sets it and leaves every other bit as it was. -/
theorem bit_or_mask (words : ℕ → BitVec 32) (k i : ℕ) :
    bit (Function.update words (k / 32) (words (k / 32) ||| mask (k % 32))) i =
      if i = k then true else bit words i := by
  have hk : k % 32 < 32 := Nat.mod_lt k (by norm_num)
  by_cases hword : i / 32 = k / 32
  · rw [bit, hword, Function.update_self, BitVec.getMsbD_or, getMsbD_mask hk]
    by_cases hbit : i % 32 = k % 32
    · rw [if_pos (word_bit_eq_iff.mp ⟨hword, hbit⟩)]
      simp [hbit]
    · rw [if_neg fun h ↦ hbit (word_bit_eq_iff.mpr h).2]
      simp [hbit, bit, hword]
  · rw [bit, Function.update_of_ne hword, if_neg fun h ↦ hword (word_bit_eq_iff.mpr h).1, bit]

/-- Toggling bit `k` inverts it and leaves every other bit as it was. -/
theorem bit_xor_mask (words : ℕ → BitVec 32) (k i : ℕ) :
    bit (Function.update words (k / 32) (words (k / 32) ^^^ mask (k % 32))) i =
      if i = k then !bit words i else bit words i := by
  have hk : k % 32 < 32 := Nat.mod_lt k (by norm_num)
  by_cases hword : i / 32 = k / 32
  · rw [bit, hword, Function.update_self, BitVec.getMsbD_xor, getMsbD_mask hk]
    by_cases hbit : i % 32 = k % 32
    · rw [if_pos (word_bit_eq_iff.mp ⟨hword, hbit⟩)]
      simp [hbit, bit, hword]
    · rw [if_neg fun h ↦ hbit (word_bit_eq_iff.mpr h).2]
      simp [hbit, bit, hword]
  · rw [bit, Function.update_of_ne hword, if_neg fun h ↦ hword (word_bit_eq_iff.mpr h).1, bit]

/-- The bits below `n` that are clear. -/
def clearBits (words : ℕ → BitVec 32) (n : ℕ) : Finset ℕ :=
  (Finset.range n).filter fun k ↦ bit words k = false

@[simp] theorem mem_clearBits {words : ℕ → BitVec 32} {n k : ℕ} :
    k ∈ clearBits words n ↔ k < n ∧ bit words k = false := by
  simp [clearBits]

/-! ### The scanning loops -/

section Scan

variable {σ ρ : Type*}

/-- The inner loop: `n` more bits of one word, from the mask `b` and the counter `ctr`. -/
def scanWord (body : BitVec 32 → ℕ → σ → Except ρ σ) :
    ℕ → BitVec 32 → ℕ → σ → Except ρ (σ × ℕ)
  | 0, _, ctr, s => .ok (s, ctr)
  | n + 1, b, ctr, s =>
    match body b ctr s with
    | .error r => .error r
    | .ok s' => scanWord body n (b >>> 1) (ctr + 1) s'

/-- The outer loop: `n` more words, from word `i` and the counter `ctr`. -/
def scanWords (body : ℕ → BitVec 32 → ℕ → σ → Except ρ σ) :
    ℕ → ℕ → ℕ → σ → Except ρ (σ × ℕ)
  | 0, _, ctr, s => .ok (s, ctr)
  | n + 1, i, ctr, s =>
    match scanWord (body i) 32 (1#32 <<< 31) ctr s with
    | .error r => .error r
    | .ok (s', ctr') => scanWords body n (i + 1) ctr' s'

/-- One loop over `n` consecutive bit numbers from `k`. -/
def scan (body : ℕ → σ → Except ρ σ) : ℕ → ℕ → σ → Except ρ σ
  | 0, _, s => .ok s
  | n + 1, k, s =>
    match body k s with
    | .error r => .error r
    | .ok s' => scan body n (k + 1) s'

/-- The body of the loop nest at bit `k`. -/
def atBit (body : ℕ → BitVec 32 → ℕ → σ → Except ρ σ) (k : ℕ) : σ → Except ρ σ :=
  body (k / 32) (mask (k % 32)) k

theorem scan_append (body : ℕ → σ → Except ρ σ) (n n' k : ℕ) (s : σ) :
    scan body (n + n') k s =
      match scan body n k s with
      | .error r => .error r
      | .ok s' => scan body n' (k + n) s' := by
  induction n generalizing k s with
  | zero => simp [scan]
  | succ n ih =>
    rw [Nat.succ_add, scan, scan]
    cases body k s with
    | error r => rfl
    | ok s' =>
      simp only [ih (k + 1) s']
      rw [show k + 1 + n = k + (n + 1) by omega]

private theorem scanWord_eq_scan (body : ℕ → BitVec 32 → ℕ → σ → Except ρ σ) (i n j : ℕ) (s : σ)
    (hj : j + n = 32) :
    scanWord (body i) n (mask j) (32 * i + j) s =
      match scan (atBit body) n (32 * i + j) s with
      | .error r => .error r
      | .ok s' => .ok (s', 32 * i + 32) := by
  induction n generalizing j s with
  | zero => simp only [scanWord, scan, show j = 32 by omega]
  | succ n ih =>
    have hbody : atBit body (32 * i + j) = body i (mask j) (32 * i + j) := by
      rw [atBit, show (32 * i + j) / 32 = i by omega, show (32 * i + j) % 32 = j by omega]
    rw [scanWord, scan, hbody]
    cases body i (mask j) (32 * i + j) s with
    | error r => rfl
    | ok s' =>
      simp only [mask_succ]
      exact ih (j + 1) s' (by omega)

/-- The loop nest visits the bits in order, word `k / 32` and mask `k % 32` at counter `k`. -/
theorem scanWords_eq_scan (body : ℕ → BitVec 32 → ℕ → σ → Except ρ σ) (n i : ℕ) (s : σ) :
    scanWords body n i (32 * i) s =
      match scan (atBit body) (32 * n) (32 * i) s with
      | .error r => .error r
      | .ok s' => .ok (s', 32 * (i + n)) := by
  induction n generalizing i s with
  | zero => rfl
  | succ n ih =>
    have hword := scanWord_eq_scan body i 32 0 s (by norm_num)
    rw [mask, BitVec.ushiftRight_zero, Nat.add_zero] at hword
    rw [scanWords, hword, show 32 * (n + 1) = 32 + 32 * n by omega, scan_append]
    cases scan (atBit body) 32 (32 * i) s with
    | error r => rfl
    | ok s' =>
      simp only [show 32 * i + 32 = 32 * (i + 1) by omega]
      rw [ih (i + 1) s', show i + 1 + n = i + (n + 1) by omega]

theorem scan_ok {body : ℕ → σ → Except ρ σ} {n k : ℕ} {s : σ}
    (h : ∀ i, k ≤ i → i < k + n → body i s = .ok s) : scan body n k s = .ok s := by
  induction n generalizing k with
  | zero => rfl
  | succ n ih =>
    rw [scan, h k le_rfl (by omega)]
    exact ih fun i hlow hhigh ↦ h i (by omega) (by omega)

theorem scan_error {body : ℕ → σ → Except ρ σ} {n k i : ℕ} {s : σ} {r : ρ}
    (hlow : k ≤ i) (hhigh : i < k + n) (hbefore : ∀ j, k ≤ j → j < i → body j s = .ok s)
    (hexit : body i s = .error r) : scan body n k s = .error r := by
  have hsplit : n = (i - k) + ((n - (i - k) - 1) + 1) := by omega
  rw [hsplit, scan_append, scan_ok fun j hj hj' ↦ hbefore j hj (by omega)]
  simp only [show k + (i - k) = i by omega, scan, hexit]

/-- A loop whose body is a test passes every number, or leaves at the first one that passes the
test. -/
theorem scan_search {body : ℕ → σ → Except ρ σ} {n k : ℕ} {s : σ} (test : ℕ → Bool) (result : ℕ → ρ)
    (hbody : ∀ i, k ≤ i → i < k + n →
      body i s = if test i = true then .error (result i) else .ok s) :
    (scan body n k s = .ok s ∧ ∀ i, k ≤ i → i < k + n → test i = false) ∨
      ∃ i, k ≤ i ∧ i < k + n ∧ test i = true ∧ (∀ j, k ≤ j → j < i → test j = false) ∧
        scan body n k s = .error (result i) := by
  induction n generalizing k with
  | zero => exact .inl ⟨rfl, fun i hlow hhigh ↦ absurd hhigh (by omega)⟩
  | succ n ih =>
    have hfirst := hbody k le_rfl (by omega)
    rw [scan, hfirst]
    cases htest : test k with
    | true =>
      exact .inr ⟨k, le_rfl, by omega, htest, fun j hlow hhigh ↦ absurd hhigh (by omega), rfl⟩
    | false =>
      rw [if_neg Bool.false_ne_true]
      dsimp only
      rcases ih (k := k + 1) fun i hlow hhigh ↦ hbody i (by omega) (by omega) with
        ⟨hscan, hall⟩ | ⟨i, hlow, hhigh, hfound, hbefore, hscan⟩
      · refine .inl ⟨hscan, fun i hlow hhigh ↦ ?_⟩
        by_cases hi : i = k
        · rw [hi, htest]
        · exact hall i (by omega) (by omega)
      · refine .inr ⟨i, by omega, by omega, hfound, fun j hj hji ↦ ?_, hscan⟩
        by_cases hjk : j = k
        · rw [hjk, htest]
        · exact hbefore j (by omega) hji

/-- A scan whose body is a test either passes every bit or leaves at the first bit that passes
the test. -/
theorem scanWords_search (body : ℕ → BitVec 32 → ℕ → σ → Except ρ σ) (n : ℕ) (s : σ)
    (test : ℕ → Bool) (result : ℕ → ρ)
    (hbody : ∀ k, atBit body k s = if test k = true then .error (result k) else .ok s) :
    (scanWords body n 0 0 s = .ok (s, 32 * n) ∧ ∀ k < 32 * n, test k = false) ∨
      ∃ k < 32 * n, test k = true ∧ (∀ j < k, test j = false) ∧
        scanWords body n 0 0 s = .error (result k) := by
  have hscan := scanWords_eq_scan body n 0 s
  rw [Nat.mul_zero, Nat.zero_add] at hscan
  have hpass {k : ℕ} (hk : test k = false) : atBit body k s = .ok s := by simp [hbody, hk]
  by_cases hfound : ∃ k, k < 32 * n ∧ test k = true
  · right
    have hspec := Nat.find_spec hfound
    have hleast : ∀ j < Nat.find hfound, test j = false := fun j hj ↦ by
      have hnot := Nat.find_min hfound hj
      simpa [hj.trans hspec.1] using hnot
    refine ⟨Nat.find hfound, hspec.1, hspec.2, hleast, ?_⟩
    rw [hscan, scan_error (Nat.zero_le _) (by omega) (fun j _ hj ↦ hpass (hleast j hj))
      (by rw [hbody, if_pos hspec.2])]
  · left
    have hclear : ∀ k < 32 * n, test k = false := fun k hk ↦ by
      by_contra htest
      exact hfound ⟨k, hk, by simpa using htest⟩
    refine ⟨?_, hclear⟩
    rw [hscan, scan_ok fun k _ hk ↦ hpass (hclear k (by omega))]

/-- What a turn says of the next one, or of the exit it takes, a loop says of its end. -/
theorem scan_invariant {body : ℕ → σ → Except ρ σ} (inv : ℕ → σ → Prop) (exit : ρ → Prop) {n k : ℕ}
    (hstep : ∀ i s, k ≤ i → i < k + n → inv i s →
      (∀ s', body i s = .ok s' → inv (i + 1) s') ∧ ∀ r, body i s = .error r → exit r)
    {s : σ} (hs : inv k s) :
    (∀ s', scan body n k s = .ok s' → inv (k + n) s') ∧
      ∀ r, scan body n k s = .error r → exit r := by
  induction n generalizing k s with
  | zero => exact ⟨fun s' h ↦ Except.ok.inj h ▸ hs, nofun⟩
  | succ n ih =>
    obtain ⟨hok, herror⟩ := hstep k s le_rfl (by omega) hs
    rw [scan]
    cases hbody : body k s with
    | error r => exact ⟨nofun, fun r' h ↦ Except.error.inj h ▸ herror r hbody⟩
    | ok s₁ =>
      have hrest := ih (fun i s hlow hhigh ↦ hstep i s (by omega) (by omega)) (hok s₁ hbody)
      rwa [show k + 1 + n = k + (n + 1) by omega] at hrest

/-- The loop nest ends with its invariant at the last bit, or leaves with the exit condition. -/
theorem scanWords_invariant {body : ℕ → BitVec 32 → ℕ → σ → Except ρ σ} (inv : ℕ → σ → Prop)
    (exit : ρ → Prop) {n : ℕ}
    (hstep : ∀ k s, k < 32 * n → inv k s →
      (∀ s', atBit body k s = .ok s' → inv (k + 1) s') ∧ ∀ r, atBit body k s = .error r → exit r)
    {s : σ} (hs : inv 0 s) :
    (∃ s', scanWords body n 0 0 s = .ok (s', 32 * n) ∧ inv (32 * n) s') ∨
      ∃ r, scanWords body n 0 0 s = .error r ∧ exit r := by
  have hscan := scanWords_eq_scan body n 0 s
  rw [Nat.mul_zero, Nat.zero_add] at hscan
  obtain ⟨hok, herror⟩ := scan_invariant (n := 32 * n) inv exit
    (fun k s _ hk ↦ hstep k s (by omega)) hs
  rw [Nat.zero_add] at hok
  rw [hscan]
  cases hend : scan (atBit body) (32 * n) 0 s with
  | error r => exact .inr ⟨r, rfl, herror r hend⟩
  | ok s' => exact .inl ⟨s', rfl, hok s' hend⟩

end Scan

end Bitmap

end OsAssignments.Library
