import OsAssignments.Objstore.Remount

/-!
# Renaming an object

`rename_object` scans the inode bits with three cursors: the bit itself, the counter `ctr` and the
record `obj`. The counter is never initialised. The record starts at slot 0 and is recomputed from
the counter after each bit, so under bit `n` the call examines slot `slotAt ctr n` and flags entry
`flagAt ctr n` of `dirty_array`, where `ctr` is the value found on the stack.

`renameScan_cases` is the specification of the call for every such value: it dies at an address
outside the table, it dies because nothing matched, it returns at the end of the scan, or it returns
-1 at a second match. `rename_moves_name_iff` says when it does what it is for.

Scope. The table has 1048576 records and `dirty_array` 22528 entries; a use of a record or an entry
outside of them is a fault. The counter wraps around.
-/

set_option autoImplicit false
set_option relaxedAutoImplicit false

namespace OsAssignments.Objstore

open Library

/-! ### The call -/

/-- The store and the locals of `rename_object`, with ghost records of the slots compared with the
key, each under the bit tested, and of the entries of `dirty_array` assigned. -/
structure Renaming where
  store : Store
  ctr : BitVec 32
  obj : ℤ
  actual : Option ℕ
  examined : List (ℕ × ℕ)
  flagged : List ℕ

/-- `ctr++; obj = a + ctr`. -/
def Renaming.next (r : Renaming) : Renaming :=
  { r with ctr := r.ctr + 1, obj := (r.ctr + 1).toInt }

/-- The store after entry `flag` of `dirty_array` is set and a name is copied into slot `m`. -/
def renamed (s : Store) (m : ℕ) (newname : Key) (flag : ℕ) : Store :=
  { s with
    dirtyArray := Function.update s.dirtyArray flag 1
    a := setKey s.a m newname }

/-- The branch of the first match, in slot `k`. -/
def Renaming.take (newname : Key) (k : ℕ) (r : Renaming) : Except Fault Renaming :=
  let flag := r.ctr.toInt.tdiv 46
  if 0 ≤ flag ∧ flag < 22528 then
    .ok { r with
      store := renamed r.store k newname flag.toNat
      actual := some k
      flagged := flag.toNat :: r.flagged }
  else .error .wildAddress

/-- The loop body. It leaves with a fault or, at a second match, with `return -1`. -/
def renameTurn (key newname : Key) (i : ℕ) (b : BitVec 32) (n : ℕ) (r : Renaming) :
    Except (Except Fault Renaming) Renaming :=
  if r.store.inodeBitmap i &&& b ≠ 0#32 then
    if 0 ≤ r.obj ∧ r.obj < 1048576 then
      let k := r.obj.toNat
      let r := { r with examined := (n, k) :: r.examined }
      if keyEq r.store.a k key then
        match r.actual with
        | some _ => .error (.ok r)
        | none =>
          match r.take newname k with
          | .error fault => .error (.error fault)
          | .ok r => .ok r.next
      else .ok r.next
    else .error (.error .wildAddress)
  else .ok r.next

/-- `rename_object` with its ghost records; `ctr` is the value of the counter on entry. -/
def renameScan (key newname : Key) (ctr : BitVec 32) (s : Store) : Except Fault (ℤ × Renaming) :=
  match Bitmap.scanWords (renameTurn key newname) 31744 0 0 ⟨s, ctr, 0, none, [], []⟩ with
  | .error (.error fault) => .error fault
  | .error (.ok r) => .ok (-1, r)
  | .ok (r, _) =>
    match r.actual with
    | none => .error .uninitialised
    | some k => .ok (r.store.field k .id, r)

/-- `rename_object`. -/
def renameObject (key newname : Key) (ctr : BitVec 32) (s : Store) : Outcome ℤ :=
  (renameScan key newname ctr s).map fun (v, r) ↦ (v, r.store)

/-! ### The cursors -/

/-- The slot that is examined under bit `n`. -/
def slotAt (ctr : BitVec 32) (n : ℕ) : ℤ :=
  if n = 0 then 0 else (ctr + BitVec.ofNat 32 n).toInt

/-- The entry of `dirty_array` that a match under bit `n` sets. -/
def flagAt (ctr : BitVec 32) (n : ℕ) : ℤ := (ctr + BitVec.ofNat 32 n).toInt.tdiv 46

variable {key newname : Key} {ctr : BitVec 32} {s : Store} {r : Renaming} {n k : ℕ}

/-- Counted from zero, the counter is the bit. -/
theorem toInt_count (hn : n < 1015808) : ((0 : BitVec 32) + BitVec.ofNat 32 n).toInt = n := by
  rw [show (0 : BitVec 32) = 0#32 from rfl, BitVec.zero_add, BitVec.toInt_ofNat']
  exact Int.bmod_eq_of_le (by norm_num) (by norm_num; omega)

/-- Past bit 0, the record is that of the bit only if the counter started at zero. -/
theorem slotAt_eq_iff (hpos : n ≠ 0) (hn : n < 1015808) : slotAt ctr n = n ↔ ctr = 0 := by
  rw [slotAt, if_neg hpos, ← toInt_count hn, BitVec.toInt_inj, BitVec.add_left_inj]

theorem tdiv_eq_zero_iff {v : ℤ} : v.tdiv 46 = 0 ↔ -46 < v ∧ v < 46 := by
  rcases le_total 0 v with hpos | hneg
  · rw [Int.tdiv_eq_ediv_of_nonneg hpos]
    omega
  · have hneg' : v.tdiv 46 = -((-v).tdiv 46) := by rw [Int.neg_tdiv, neg_neg]
    rw [hneg', Int.tdiv_eq_ediv_of_nonneg (by omega)]
    omega

/-- The cursors are aligned when the counter started at zero, or at a small value with nothing to
examine past bit 0. -/
theorem aligned_iff (hbit : s.inodeBit k = true) (hk : k < 1015808) :
    ((∀ n < 1015808, s.inodeBit n = true → slotAt ctr n = n) ∧ flagAt ctr k = (k / 46 : ℕ)) ↔
      ctr = 0 ∨ -46 < ctr.toInt ∧ ctr.toInt < 46 ∧ ∀ n < 1015808, s.inodeBit n = true → n = 0 := by
  have hcount (n : ℕ) (hn : n < 1015808) : flagAt 0 n = (n / 46 : ℕ) := by
    rw [flagAt, toInt_count hn, Int.tdiv_eq_ediv_of_nonneg (Int.natCast_nonneg n)]
    norm_cast
  have hfirst : flagAt ctr 0 = ctr.toInt.tdiv 46 := by
    rw [flagAt, BitVec.add_zero]
  constructor
  · rintro ⟨hslot, hflag⟩
    by_cases hctr : ctr = 0
    · exact .inl hctr
    · have honly : ∀ n < 1015808, s.inodeBit n = true → n = 0 := fun n hn hset ↦ by
        by_contra hne
        exact hctr ((slotAt_eq_iff hne hn).mp (hslot n hn hset))
      obtain rfl := honly k hk hbit
      rw [hfirst, Nat.zero_div, Nat.cast_zero, tdiv_eq_zero_iff] at hflag
      exact .inr ⟨hflag.1, hflag.2, honly⟩
  · rintro (rfl | ⟨hlow, hhigh, honly⟩)
    · refine ⟨fun n hn _ ↦ ?_, hcount k hk⟩
      by_cases hne : n = 0
      · rw [slotAt, if_pos hne, hne, Nat.cast_zero]
      · exact (slotAt_eq_iff hne hn).mpr rfl
    · refine ⟨fun n hn hset ↦ by rw [honly n hn hset]; rfl, ?_⟩
      obtain rfl := honly k hk hbit
      rw [hfirst, Nat.zero_div, Nat.cast_zero]
      exact tdiv_eq_zero_iff.mpr ⟨hlow, hhigh⟩

/-! ### The scan -/

/-- The match under bit `j`, in slot `m`, was the first. -/
structure Matched (key newname : Key) (ctr : BitVec 32) (s : Store) (j m flag : ℕ) (r : Renaming) :
    Prop where
  lt : j < 1015808
  bit : s.inodeBit j = true
  slot : slotAt ctr j = m
  entry : flagAt ctr j = flag
  found : keyEq s.a m key = true
  first : ∀ i < j, s.inodeBit i = true → keyEq s.a (slotAt ctr i).toNat key = false
  actual : r.actual = some m
  store : r.store = renamed s m newname flag
  flagged : r.flagged = [flag]

/-- The bits below `n` have been tested. -/
structure Seen (key newname : Key) (ctr : BitVec 32) (s : Store) (n : ℕ) (r : Renaming) : Prop where
  inside : ∀ j < n, s.inodeBit j = true → 0 ≤ slotAt ctr j
  examined : ∀ e : ℕ × ℕ,
    e ∈ r.examined ↔ e.1 < n ∧ s.inodeBit e.1 = true ∧ slotAt ctr e.1 = (e.2 : ℤ)
  effect : (r.actual = none ∧ r.store = s ∧ r.flagged = [] ∧
      ∀ j < n, s.inodeBit j = true → keyEq s.a (slotAt ctr j).toNat key = false) ∨
    ∃ j m flag, j < n ∧ Matched key newname ctr s j m flag r ∧
      ∀ i < n, j < i → s.inodeBit i = true → keyEq r.store.a (slotAt ctr i).toNat key = false

/-- The state in which bit `n` is tested. -/
structure Scanned (key newname : Key) (ctr : BitVec 32) (s : Store) (n : ℕ) (r : Renaming) :
    Prop extends Seen key newname ctr s n r where
  counter : r.ctr = ctr + BitVec.ofNat 32 n
  record : r.obj = slotAt ctr n

/-- A second match, under bit `n`, makes the call return -1. -/
structure MatchedAgain (key newname : Key) (ctr : BitVec 32) (s : Store) (r : Renaming) (n : ℕ) :
    Prop where
  lt : n < 1015808
  first : ∃ j m flag, j < n ∧ Matched key newname ctr s j m flag r
  bit : s.inodeBit n = true
  inside : 0 ≤ slotAt ctr n
  found : keyEq r.store.a (slotAt ctr n).toNat key = true
  examined : (n, (slotAt ctr n).toNat) ∈ r.examined

/-- Under bit `n` the call leaves the table, or it leaves `dirty_array` at a match. -/
structure Strays (key : Key) (ctr : BitVec 32) (s : Store) (n : ℕ) : Prop where
  lt : n < 1015808
  bit : s.inodeBit n = true
  outside : ¬(0 ≤ slotAt ctr n ∧ slotAt ctr n < 1048576) ∨
    keyEq s.a (slotAt ctr n).toNat key = true ∧ ¬(0 ≤ flagAt ctr n ∧ flagAt ctr n < 22528)

/-- The ways in which the call leaves the scan. -/
def Leaves (key newname : Key) (ctr : BitVec 32) (s : Store) : Except Fault Renaming → Prop
  | .error fault => fault = .wildAddress ∧ ∃ n, Strays key ctr s n
  | .ok r => ∃ n, MatchedAgain key newname ctr s r n

theorem Seen.next (h : Seen key newname ctr s (n + 1) r) (hctr : r.ctr = ctr + BitVec.ofNat 32 n) :
    Scanned key newname ctr s (n + 1) r.next := by
  have hnext : r.ctr + 1 = ctr + BitVec.ofNat 32 (n + 1) := by
    rw [hctr, BitVec.add_assoc, BitVec.ofNat_add]
    rfl
  refine ⟨⟨h.inside, h.examined, h.effect.imp id ?_⟩, hnext, ?_⟩
  · rintro ⟨j, m, flag, hj, hm, hrest⟩
    exact ⟨j, m, flag, hj,
      ⟨hm.lt, hm.bit, hm.slot, hm.entry, hm.found, hm.first, hm.actual, hm.store,
      hm.flagged⟩, hrest⟩
  · rw [slotAt, if_neg (Nat.succ_ne_zero n), ← hnext]
    rfl

/-- Nothing is examined under a clear bit. -/
theorem Seen.clear (h : Seen key newname ctr s n r) (hclear : s.inodeBit n = false) :
    Seen key newname ctr s (n + 1) r := by
  have hlt (j : ℕ) (hset : s.inodeBit j = true) : j < n + 1 ↔ j < n := by
    refine ⟨fun hj ↦ ?_, fun hj ↦ by omega⟩
    by_contra hge
    obtain rfl : j = n := by omega
    rw [hclear] at hset
    cases hset
  refine ⟨fun j hj hset ↦ h.inside j ((hlt j hset).mp hj) hset, fun e ↦ ?_, ?_⟩
  · rw [h.examined e]
    exact ⟨fun he ↦ ⟨(hlt _ he.2.1).mpr he.1, he.2⟩, fun he ↦ ⟨(hlt _ he.2.1).mp he.1, he.2⟩⟩
  · rcases h.effect with ⟨hnone, hstore, hflagged, hall⟩ | ⟨j, m, flag, hj, hm, hrest⟩
    · exact .inl ⟨hnone, hstore, hflagged, fun j hj hset ↦ hall j ((hlt j hset).mp hj) hset⟩
    · exact .inr ⟨j, m, flag, by omega, hm, fun i hi hji hset ↦
        hrest i ((hlt i hset).mp hi) hji hset⟩

/-- The examined slots after one more is examined under a set bit. -/
theorem Seen.examined_cons (h : Seen key newname ctr s n r) (hset : s.inodeBit n = true)
    (hslot : slotAt ctr n = k) (e : ℕ × ℕ) : e ∈ (n, k) :: r.examined ↔
      e.1 < n + 1 ∧ s.inodeBit e.1 = true ∧ slotAt ctr e.1 = (e.2 : ℤ) := by
  obtain ⟨j, m⟩ := e
  rw [List.mem_cons, h.examined, Prod.mk.injEq]
  constructor
  · rintro (⟨rfl, rfl⟩ | ⟨hj, hrest⟩)
    · exact ⟨Nat.lt_succ_self j, hset, hslot⟩
    · exact ⟨Nat.lt_succ_of_lt hj, hrest⟩
  · rintro ⟨hj, hbit, heq⟩
    by_cases hjn : j = n
    · subst hjn
      exact .inl ⟨rfl, by simp only at heq; omega⟩
    · exact .inr ⟨by simp only at hj ⊢; omega, hbit, heq⟩

theorem Seen.inside_succ (h : Seen key newname ctr s n r) (hslot : slotAt ctr n = k) :
    ∀ j < n + 1, s.inodeBit j = true → 0 ≤ slotAt ctr j := by
  intro j hj hset
  by_cases hjn : j = n
  · rw [hjn, hslot]
    exact Int.natCast_nonneg k
  · exact h.inside j (by omega) hset

/-- A turn of the loop tests one more bit or leaves. -/
theorem renameTurn_step (hn : n < 1015808) (h : Scanned key newname ctr s n r) :
    (∀ r', Bitmap.atBit (renameTurn key newname) n r = .ok r' →
      Scanned key newname ctr s (n + 1) r') ∧
    ∀ e, Bitmap.atBit (renameTurn key newname) n r = .error e → Leaves key newname ctr s e := by
  have hinode : r.store.inodeBitmap = s.inodeBitmap := by
    rcases h.effect with ⟨-, hstore, -⟩ | ⟨j, m, flag, -, hm, -⟩
    · rw [hstore]
    · rw [hm.store]
      rfl
  simp only [Bitmap.atBit, renameTurn, hinode, Bitmap.and_mask_ne_zero_iff]
  by_cases hset : Bitmap.bit s.inodeBitmap n = true
  swap
  · rw [if_neg hset]
    refine ⟨fun r' heq ↦ ?_, fun e heq ↦ by cases heq⟩
    cases heq
    exact (h.toSeen.clear (Bool.not_eq_true _ ▸ hset)).next h.counter
  rw [if_pos hset]
  by_cases hinside : 0 ≤ r.obj ∧ r.obj < 1048576
  swap
  · rw [if_neg hinside]
    refine ⟨fun r' heq ↦ (by cases heq), fun e heq ↦ ?_⟩
    cases heq
    exact ⟨rfl, n, hn, hset, .inl (h.record ▸ hinside)⟩
  rw [if_pos hinside]
  obtain ⟨k, hk⟩ : ∃ k : ℕ, slotAt ctr n = k :=
    ⟨_, (Int.toNat_of_nonneg (h.record ▸ hinside.1)).symm⟩
  have hobj : r.obj.toNat = k := by rw [h.record, hk, Int.toNat_natCast]
  rw [hobj]
  have hexamined := h.toSeen.examined_cons hset hk
  have hins := h.toSeen.inside_succ hk
  by_cases hkey : keyEq r.store.a k key = true
  · rw [if_pos hkey]
    cases hactual : r.actual with
    | some m =>
      refine ⟨fun r' heq ↦ (by cases heq), fun e heq ↦ ?_⟩
      cases heq
      rcases h.effect with ⟨hnone, -⟩ | ⟨j, m', flag, hj, hm, -⟩
      · cases hnone.symm.trans hactual
      · have hexam : (n, (slotAt ctr n).toNat) ∈ (n, k) :: r.examined := by
          rw [hk, Int.toNat_natCast]
          exact List.mem_cons_self
        have hagain : keyEq r.store.a (slotAt ctr n).toNat key = true := by
          rw [hk, Int.toNat_natCast]
          exact hkey
        exact ⟨n, hn, ⟨j, m', flag, hj, ⟨hm.lt, hm.bit, hm.slot, hm.entry, hm.found, hm.first,
          hactual.symm.trans hm.actual, hm.store, hm.flagged⟩⟩, hset,
            hins n (Nat.lt_succ_self n) hset,
          hagain, hexam⟩
    | none =>
      obtain ⟨hstore, hflagged, hall⟩ : r.store = s ∧ r.flagged = [] ∧
          ∀ j < n, s.inodeBit j = true → keyEq s.a (slotAt ctr j).toNat key = false := by
        rcases h.effect with ⟨-, hrest⟩ | ⟨j, m, flag, -, hm, -⟩
        · exact hrest
        · cases hactual.symm.trans hm.actual
      have hflag : r.ctr.toInt.tdiv 46 = flagAt ctr n := by rw [h.counter, flagAt]
      simp only [Renaming.take, hflag]
      by_cases hentry : 0 ≤ flagAt ctr n ∧ flagAt ctr n < 22528
      · rw [if_pos hentry]
        refine ⟨fun r' heq ↦ ?_, fun e heq ↦ by cases heq⟩
        cases heq
        obtain ⟨flag, hflag'⟩ : ∃ flag : ℕ, flagAt ctr n = flag :=
          ⟨_, (Int.toNat_of_nonneg hentry.1).symm⟩
        refine Seen.next ⟨hins, hexamined, .inr ⟨n, k, flag, Nat.lt_succ_self n, ?_,
          fun i hi hni ↦ by omega⟩⟩ h.counter
        refine ⟨hn, hset, hk, hflag', hstore ▸ hkey, hall, rfl, ?_, ?_⟩
        · rw [hflag', Int.toNat_natCast, hstore]
        · rw [hflag', Int.toNat_natCast, hflagged]
      · rw [if_neg hentry]
        refine ⟨fun r' heq ↦ (by cases heq), fun e heq ↦ ?_⟩
        cases heq
        refine ⟨rfl, n, hn, hset, .inr ⟨?_, hentry⟩⟩
        rw [hk, Int.toNat_natCast, ← hstore]
        exact hkey
  · rw [if_neg hkey]
    refine ⟨fun r' heq ↦ ?_, fun e heq ↦ by cases heq⟩
    cases heq
    refine Seen.next ⟨hins, hexamined, ?_⟩ h.counter
    rcases h.effect with ⟨hnone, hstore, hflagged, hall⟩ | ⟨j, m, flag, hj, hm, hrest⟩
    · refine .inl ⟨hnone, hstore, hflagged, fun j hj hbit ↦ ?_⟩
      by_cases hjn : j = n
      · rw [hjn, hk, Int.toNat_natCast, ← hstore]
        exact Bool.not_eq_true _ ▸ hkey
      · exact hall j (by omega) hbit
    · refine .inr ⟨j, m, flag, by omega, ⟨hm.lt, hm.bit, hm.slot, hm.entry, hm.found, hm.first,
        hm.actual, hm.store, hm.flagged⟩, fun i hi hji hbit ↦ ?_⟩
      by_cases hin : i = n
      · rw [hin, hk, Int.toNat_natCast]
        exact Bool.not_eq_true _ ▸ hkey
      · exact hrest i (by omega) hji hbit

theorem scanned_start (key newname : Key) (ctr : BitVec 32) (s : Store) :
    Scanned key newname ctr s 0 ⟨s, ctr, 0, none, [], []⟩ where
  inside := fun j hj ↦ absurd hj (Nat.not_lt_zero j)
  examined := fun _ ↦ iff_of_false List.not_mem_nil fun he ↦ Nat.not_lt_zero _ he.1
  effect := .inl ⟨rfl, rfl, rfl, fun j hj ↦ absurd hj (Nat.not_lt_zero j)⟩
  counter := (BitVec.add_zero ctr).symm
  record := rfl

/-- The outcomes of the call. -/
theorem renameScan_cases (key newname : Key) (ctr : BitVec 32) (s : Store) :
    (renameScan key newname ctr s = .error .wildAddress ∧ ∃ n, Strays key ctr s n) ∨
    (renameScan key newname ctr s = .error .uninitialised ∧
      ∀ j < 1015808, s.inodeBit j = true → keyEq s.a (slotAt ctr j).toNat key = false) ∨
    (∃ j m flag r, renameScan key newname ctr s = .ok (r.store.field m .id, r) ∧
      Matched key newname ctr s j m flag r ∧ Seen key newname ctr s 1015808 r ∧
      ∀ i < 1015808, j < i → s.inodeBit i = true →
        keyEq r.store.a (slotAt ctr i).toNat key = false) ∨
    ∃ n r, renameScan key newname ctr s = .ok (-1, r) ∧ MatchedAgain key newname ctr s r n := by
  rcases Bitmap.scanWords_invariant (n := 31744) (Scanned key newname ctr s)
    (Leaves key newname ctr s) (fun k r hk h ↦ renameTurn_step (by omega) h)
    (scanned_start key newname ctr s) with ⟨r, hrun, h⟩ | ⟨e, hrun, he⟩
  · simp only [renameScan, hrun]
    rcases h.effect with ⟨hnone, -, -, hall⟩ | ⟨j, m, flag, -, hm, hrest⟩
    · rw [hnone]
      exact .inr (.inl ⟨rfl, hall⟩)
    · rw [hm.actual]
      exact .inr (.inr (.inl ⟨j, m, flag, r, rfl, hm, h.toSeen, hrest⟩))
  · simp only [renameScan, hrun]
    cases e with
    | error fault =>
      obtain ⟨rfl, hstray⟩ := he
      exact .inl ⟨rfl, hstray⟩
    | ok r =>
      obtain ⟨n, hn⟩ := he
      exact .inr (.inr (.inr ⟨n, r, rfl, hn⟩))

/-! ### When the name moves -/

/-- The call does what it is for: it returns the id of the object in slot `k` and changes the key of
this slot only, it compares each slot under its own bit, and it flags the inode block of the slot,
so that the object has its new name after an unmount and a mount. -/
structure NameMoved (key newname : Key) (k : ℕ) (s : Store) (v : ℤ) (r : Renaming) : Prop where
  value : v = s.field k .id
  inodeBitmap : r.store.inodeBitmap = s.inodeBitmap
  dataBitmap : r.store.dataBitmap = s.dataBitmap
  bytes : ∀ n, n < 88 * k + 56 ∨ 88 * k + 88 ≤ n → r.store.a n = s.a n
  name : keyEq r.store.a k newname = true
  aligned : ∀ e ∈ r.examined, e.2 = e.1
  flagged : r.flagged = [k / 46]
  dirtyArray : r.store.dirtyArray = Function.update s.dirtyArray (k / 46) 1
  durable : ∀ bld, Durable bld s → (findObjectId newname (remount r.store)).1 = s.field k .id ∧
    (findObjectId key (remount r.store)).1 = -1

theorem keyEq_renamed (s : Store) (m flag j : ℕ) {other : Key} (hnew : newname.Short)
    (hother : other.Short) : keyEq (renamed s m newname flag).a j other =
      if j = m then decide (other = newname) else keyEq s.a j other :=
  keyEq_setKey _ _ _ hnew hother

theorem field_renamed (s : Store) (m flag j : ℕ) (f : Field) (hnew : newname.Short) :
    (renamed s m newname flag).field j f = s.field j f :=
  getField_setKey _ _ _ _ hnew

theorem live_renamed (s : Store) (m flag j : ℕ) (hnew : newname.Short) :
    Live (renamed s m newname flag) j ↔ Live s j := by
  have hid := field_renamed s m flag j .id hnew
  exact ⟨fun h ↦ ⟨h.slot, h.bit, hid ▸ h.id⟩, fun h ↦ ⟨h.slot, h.bit, hid.symm ▸ h.id⟩⟩

section Moved

variable (hkey : key.Short) (hnew : newname.Short) (hlive : Live s k)
  (heq : keyEq s.a k key = true) (honly : ∀ j, Live s j → keyEq s.a j key = true → j = k)
  (hfresh : ∀ j, Live s j → keyEq s.a j newname = false)

include hkey hnew hlive heq honly hfresh

/-- A renamed object is found after an unmount and a mount. -/
theorem find_renamed (bld : Build) (h : Durable bld s) :
    (findObjectId newname (remount (renamed s k newname (k / 46)))).1 = s.field k .id ∧
      (findObjectId key (remount (renamed s k newname (k / 46)))).1 = -1 := by
  have hdurable : Durable bld (renamed s k newname (k / 46)) :=
    h.calls [] (by simp) rfl (faithful_of_change h.faithful
      (fun n hn ↦ setKey_of_outside hnew (by omega)) rfl)
  have hslots := hdurable.sameSlots
  generalize hs' : renamed s k newname (k / 46) = s' at hslots
  have hlive' (j : ℕ) : Live (remount s') j ↔ Live s j := by
    rw [live_frame hslots, ← hs', live_renamed s k _ j hnew]
  have hname (j : ℕ) (hj : j < 1015808) {other : Key} (hother : other.Short) :
      keyEq (remount s').a j other =
        if j = k then decide (other = newname) else keyEq s.a j other := by
    rw [keyEq_frame hslots hj hother, ← hs', keyEq_renamed s k _ j hnew hother]
  have hne : key ≠ newname := by
    rintro rfl
    rw [hfresh k hlive] at heq
    cases heq
  constructor
  · rcases findObjectId_spec (remount s') newname with
      ⟨-, hnone⟩ | ⟨j, hj, ⟨hbit, hid, hjkey⟩, -, hfound⟩
    · have hk := (hlive' k).mpr hlive
      refine absurd ⟨hk.bit, hk.id, ?_⟩ (hnone k hlive.slot)
      rw [hname k hlive.slot hnew, if_pos rfl, decide_eq_true rfl]
    · have hj' := (hlive' j).mp ⟨hj, hbit, hid⟩
      obtain rfl : j = k := by
        by_contra hjk
        rw [hname j hj hnew, if_neg hjk, hfresh j hj'] at hjkey
        cases hjkey
      rw [hfound, field_frame hslots hj, ← hs', field_renamed s j _ j _ hnew]
  · rcases findObjectId_spec (remount s') key with ⟨hfound, -⟩ | ⟨j, hj, ⟨hbit, hid, hjkey⟩, -, -⟩
    · rw [hfound]
    · have hj' := (hlive' j).mp ⟨hj, hbit, hid⟩
      rw [hname j hj hkey] at hjkey
      by_cases hjk : j = k
      · rw [if_pos hjk, decide_eq_false hne] at hjkey
        cases hjkey
      · rw [if_neg hjk] at hjkey
        exact absurd (honly j hj' hjkey) hjk

/-- The call succeeds when the only slot with the key is examined under its bit. -/
theorem renameScan_aligned (hslot : ∀ n < 1015808, s.inodeBit n = true → slotAt ctr n = n)
    (hflag : flagAt ctr k = (k / 46 : ℕ))
    (hmatch : ∀ j < 1015808, s.inodeBit j = true → keyEq s.a j key = true → j = k) :
    ∃ v r, renameScan key newname ctr s = .ok (v, r) ∧ NameMoved key newname k s v r := by
  have hk := hlive.slot
  have hbits : ∀ n < 1015808, s.inodeBit n = true → (slotAt ctr n).toNat = n := fun n hn hset ↦ by
    rw [hslot n hn hset, Int.toNat_natCast]
  have hfirst {j m flag : ℕ} {r : Renaming} (hm : Matched key newname ctr s j m flag r) :
      j = k ∧ m = k ∧ flag = k / 46 := by
    have hjm : j = m := by
      have hj := hslot j hm.lt hm.bit
      rw [hm.slot] at hj
      omega
    obtain rfl := hmatch j hm.lt hm.bit (hjm ▸ hm.found)
    have hentry := hm.entry
    rw [hflag] at hentry
    exact ⟨rfl, hjm.symm, by omega⟩
  rcases renameScan_cases key newname ctr s with
    ⟨-, n, hn⟩ | ⟨-, hnone⟩ | ⟨j, m, flag, r, hrun, hm, hseen, -⟩ | ⟨n, r, -, hn⟩
  · exfalso
    have hlt := hn.lt
    rcases hn.outside with hout | ⟨hfound, hout⟩
    · rw [hslot n hn.lt hn.bit] at hout
      omega
    · rw [hbits n hn.lt hn.bit] at hfound
      obtain rfl := hmatch n hn.lt hn.bit hfound
      rw [hflag] at hout
      omega
  · have hmissing := hnone k hk hlive.bit
    rw [hbits k hk hlive.bit, heq] at hmissing
    cases hmissing
  · obtain ⟨rfl, rfl, rfl⟩ := hfirst hm
    refine ⟨_, r, hrun, ?_, ?_, ?_, fun n hn ↦ ?_, ?_, fun e he ↦ ?_, hm.flagged, ?_,
      fun bld hbld ↦ ?_⟩
    · rw [hm.store, field_renamed s m _ m _ hnew]
    · rw [hm.store]
      rfl
    · rw [hm.store]
      rfl
    · rw [hm.store]
      exact setKey_of_outside hnew hn
    · rw [hm.store, keyEq_renamed s m _ m hnew hnew, if_pos rfl, decide_eq_true rfl]
    · obtain ⟨hlt, hbit, hexam⟩ := (hseen.examined e).mp he
      rw [hslot e.1 hlt hbit] at hexam
      omega
    · rw [hm.store]
      rfl
    · rw [hm.store]
      exact find_renamed hkey hnew hlive heq honly hfresh bld hbld
  · exfalso
    obtain ⟨j, m, flag, hjn, hm⟩ := hn.first
    obtain ⟨rfl, rfl, rfl⟩ := hfirst hm
    have hagain := hn.found
    rw [hm.store, hbits n hn.lt hn.bit, keyEq_renamed s m _ n hnew hkey, if_neg (by omega)]
      at hagain
    have := hmatch n hn.lt hn.bit hagain
    omega

omit honly hfresh in
/-- When the call succeeds it has examined the only slot with the key under its bit. -/
theorem aligned_of_nameMoved (hid : 2 ≤ s.field k .id) {v : ℤ}
    (hrun : renameScan key newname ctr s = .ok (v, r)) (h : NameMoved key newname k s v r) :
    ((∀ n < 1015808, s.inodeBit n = true → slotAt ctr n = n) ∧ flagAt ctr k = (k / 46 : ℕ)) ∧
      ∀ j < 1015808, s.inodeBit j = true → keyEq s.a j key = true → j = k := by
  rcases renameScan_cases key newname ctr s with
    ⟨hrun', -⟩ | ⟨hrun', -⟩ | ⟨j, m, flag, r', hrun', hm, hseen, hrest⟩ | ⟨n, r', hrun', -⟩
  · exact nomatch hrun.symm.trans hrun'
  · exact nomatch hrun.symm.trans hrun'
  · obtain ⟨-, rfl⟩ := Prod.mk.inj (Except.ok.inj (hrun.symm.trans hrun'))
    have hslot : ∀ n < 1015808, s.inodeBit n = true → slotAt ctr n = n := fun n hn hset ↦ by
      have hpos := hseen.inside n hn hset
      have hexam := h.aligned (n, (slotAt ctr n).toNat) ((hseen.examined _).mpr
        ⟨hn, hset, (Int.toNat_of_nonneg hpos).symm⟩)
      simp only at hexam
      omega
    have hjm : j = m := by
      have hj := hslot j hm.lt hm.bit
      rw [hm.slot] at hj
      omega
    subst hjm
    have hmatch : ∀ i < 1015808, s.inodeBit i = true → keyEq s.a i key = true → i = j := by
      intro i hi hset hikey
      rcases lt_trichotomy i j with hlt | heq' | hgt
      · have hmissing := hm.first i hlt hset
        rw [hslot i hi hset, Int.toNat_natCast, hikey] at hmissing
        cases hmissing
      · exact heq'
      · have hmissing := hrest i hi hgt hset
        rw [hm.store, hslot i hi hset, Int.toNat_natCast, keyEq_renamed s j _ i hnew hkey,
          if_neg (by omega), hikey] at hmissing
        cases hmissing
    obtain rfl := hmatch k hlive.slot hlive.bit heq
    have hentry := hm.entry
    have hflagged := hm.flagged.symm.trans h.flagged
    rw [List.cons.injEq] at hflagged
    exact ⟨⟨hslot, by rw [hentry, hflagged.1]⟩, hmatch⟩
  · obtain ⟨rfl, -⟩ := Prod.mk.inj (Except.ok.inj (hrun.symm.trans hrun'))
    have hvalue := h.value
    omega

end Moved

/-- The name moves exactly when the cursors are aligned and no slot with its bit set but without an
object has the key. -/
theorem rename_moves_name_iff (s : Store) (key newname : Key) (hkey : key.Short)
    (hnew : newname.Short) (k : ℕ) (hlive : Live s k) (hid : 2 ≤ s.field k .id)
    (heq : keyEq s.a k key = true) (honly : ∀ j, Live s j → keyEq s.a j key = true → j = k)
    (hfresh : ∀ j, Live s j → keyEq s.a j newname = false) (ctr : BitVec 32) :
    (∃ v r, renameScan key newname ctr s = .ok (v, r) ∧ NameMoved key newname k s v r) ↔
      (ctr = 0 ∨
        -46 < ctr.toInt ∧ ctr.toInt < 46 ∧ ∀ n < 1015808, s.inodeBit n = true → n = 0) ∧
      ∀ j < 1015808, s.inodeBit j = true → keyEq s.a j key = true → j = k := by
  rw [← aligned_iff hlive.bit hlive.slot]
  constructor
  · rintro ⟨v, r, hrun, hmoved⟩
    exact aligned_of_nameMoved hkey hnew hlive heq hid hrun hmoved
  · rintro ⟨⟨hslot, hflag⟩, hmatch⟩
    exact renameScan_aligned hkey hnew hlive heq honly hfresh hslot hflag hmatch

/-- With its counter at zero `rename_object` copies the name into the record and flags its inode
block. -/
theorem renameObject_zero {j : ℕ} {newkey : Key} (ht : Tidy s) (hkeys : KeysUnique s)
    (hkey : key.Short) (hnew : newkey.Short) (hlive : Live s j) (heq : keyEq s.a j key = true)
    (hfresh : ∀ i, Live s i → keyEq s.a i newkey = false) :
    renameObject key newkey 0 s = .ok (s.field j .id, renamed s j newkey (j / 46)) := by
  have honly : ∀ i, Live s i → keyEq s.a i key = true → i = j := fun i hi hikey ↦
    hkeys key hkey i j hi hlive hikey heq
  have hmatch : ∀ i < 1015808, s.inodeBit i = true → keyEq s.a i key = true → i = j :=
    fun i hi hbit ↦ honly i ((ht.live_iff hi).mpr hbit)
  obtain ⟨hslot, hflag⟩ := (aligned_iff hlive.bit hlive.slot).mpr (.inl (rfl : (0 : BitVec 32) = 0))
  obtain ⟨v, r, hrun, hmoved⟩ :=
    renameScan_aligned hkey hnew hlive heq honly hfresh hslot hflag hmatch
  obtain ⟨i, m, flag, hm⟩ : ∃ i m flag, Matched key newkey 0 s i m flag r := by
    rcases renameScan_cases key newkey 0 s with
      ⟨hrun', -⟩ | ⟨hrun', -⟩ | ⟨i, m, flag, r', hrun', hm, -⟩ | ⟨n, r', hrun', hn⟩
    · cases hrun.symm.trans hrun'
    · cases hrun.symm.trans hrun'
    · obtain rfl := (Prod.mk.inj (Except.ok.inj (hrun.symm.trans hrun'))).2
      exact ⟨i, m, flag, hm⟩
    · obtain rfl := (Prod.mk.inj (Except.ok.inj (hrun.symm.trans hrun'))).2
      obtain ⟨i, m, flag, -, hm⟩ := hn.first
      exact ⟨i, m, flag, hm⟩
  have him : i = m := by
    have hi := hslot i hm.lt hm.bit
    rw [hm.slot] at hi
    omega
  obtain rfl := him
  obtain rfl : i = j := hmatch i hm.lt hm.bit hm.found
  obtain rfl : flag = i / 46 := List.singleton_inj.mp (hm.flagged.symm.trans hmoved.flagged)
  rw [renameObject, hrun, hmoved.value, ← hm.store]
  rfl

/-- A store whose only object is in slot 0. -/
theorem only_object {st : Store} (hc : Created keyA 0 (objstoreInit zeroDevice) st) :
    Live st 0 ∧ 2 ≤ st.field 0 .id ∧ keyEq st.a 0 keyA = true ∧
      (∀ j, Live st j → keyEq st.a j keyA = true → j = 0) ∧
      ∀ j, Live st j → keyEq st.a j keyB = false := by
  have hlive (j : ℕ) : Live st j ↔ j = 0 := by
    rw [hc.live (by norm_num), or_iff_right (not_live_blank blank_zeroDevice)]
  refine ⟨(hlive 0).mpr rfl, ?_, ?_, fun j hj _ ↦ (hlive j).mp hj, fun j hj ↦ ?_⟩
  · rw [hc.field, if_pos ⟨rfl, rfl⟩]
    norm_num
  · rw [hc.key _ _ (by decide), if_pos rfl, decide_eq_true rfl]
  · rw [(hlive j).mp hj, hc.key _ _ (by decide), if_pos rfl, decide_eq_false (by decide)]

theorem rename_moves_name_first : ∃ st,
    createObject keyA (objstoreInit zeroDevice) = (2, st) ∧
    ((∃ v r, renameScan keyA keyB 0 st = .ok (v, r) ∧ NameMoved keyA keyB 0 st v r) ↔
      ((0 : BitVec 32) = 0 ∨ -46 < (0 : BitVec 32).toInt ∧ (0 : BitVec 32).toInt < 46 ∧
        ∀ n < 1015808, st.inodeBit n = true → n = 0) ∧
      ∀ j < 1015808, st.inodeBit j = true → keyEq st.a j keyA = true → j = 0) := by
  obtain ⟨st, hcreate, hc⟩ := created_blank blank_zeroDevice keyA (by decide)
  obtain ⟨hlive, hid, heq, honly, hfresh⟩ := only_object hc
  exact ⟨st, hcreate, rename_moves_name_iff st keyA keyB (by decide) (by decide) 0 hlive hid heq
    honly hfresh 0⟩

/-- With 46 on the stack the only object is renamed, but the inode block after its own is flagged.
-/
theorem rename_flags_other_block : ∃ st,
    createObject keyA (objstoreInit zeroDevice) = (2, st) ∧ Live st 0 ∧ keyEq st.a 0 keyA = true ∧
    (∀ j, Live st j → keyEq st.a j keyA = true → j = 0) ∧
    (∀ j, Live st j → keyEq st.a j keyB = false) ∧
    ¬∃ v r, renameScan keyA keyB 46 st = .ok (v, r) ∧ NameMoved keyA keyB 0 st v r := by
  obtain ⟨st, hcreate, hc⟩ := created_blank blank_zeroDevice keyA (by decide)
  obtain ⟨hlive, hid, heq, honly, hfresh⟩ := only_object hc
  refine ⟨st, hcreate, hlive, heq, honly, hfresh, ?_⟩
  rintro ⟨v, r, hrun, hmoved⟩
  have hflag := (aligned_of_nameMoved (by decide) (by decide) hlive heq hid hrun hmoved).1.2
  exact absurd hflag (by decide)

end OsAssignments.Objstore
