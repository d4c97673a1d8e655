import OsAssignments.Objstore.Pointers

/-!
# What a write does to the ownership map

The three kinds of write of `Objstore.Data`, seen on the ownership map. Each takes blocks that no
place refers to. A direct index updates one place; the first index of a range replaces the
indirect block and with it all entries of the range; a later index updates one entry. The contents
of the data places change accordingly: `content_direct`, `content_first`, `content_next`. A store
stays `Owned`, and `Sound` when the blocks come from the bitmap.
-/

set_option autoImplicit false
set_option relaxedAutoImplicit false

namespace OsAssignments.Objstore

open Library Library.Ownership

variable {bld : Build} {s s' : Store} {k k' len j : ℕ} {p : Place} {b : ℤ} {x : Block}
  {a : ℕ} {buff : List UInt8} {target : Option (Field × ℕ)} {bits : List ℕ} {calls : List BlockCall}

/-! ### The record and the contents -/

theorem Written.inodeBit (h : Written bld k len target bits calls s s') (k' : ℕ) :
    s'.inodeBit k' = s.inodeBit k' := by
  rw [Store.inodeBit, Store.inodeBit, h.inodeBitmap]

/-- A write keeps the ids, so the same objects are live. -/
theorem Written.id (h : Written bld k len target bits calls s s')
    (htarget : ∀ f b, target = some (f, b) → f.pointer = true) (k' : ℕ) :
    s'.field k' .id = s.field k' .id :=
  h.field k' .id fun _ ↦ ⟨by simp, fun b hb ↦ by cases htarget _ b hb⟩

theorem Written.live (h : Written bld k len target bits calls s s')
    (htarget : ∀ f b, target = some (f, b) → f.pointer = true) (k' : ℕ) :
    Live s' k' ↔ Live s k' := by
  constructor
  · exact fun hl ↦ ⟨hl.slot, h.inodeBit k' ▸ hl.bit, h.id htarget k' ▸ hl.id⟩
  · exact fun hl ↦ ⟨hl.slot, (h.inodeBit k').symm ▸ hl.bit, (h.id htarget k').symm ▸ hl.id⟩

/-- A pointer field of another slot, or one that the write does not assign, is kept. -/
theorem Written.pointer (h : Written bld k len target bits calls s s') {f : Field}
    (hf : f.pointer = true) (hne : k' = k → ∀ b, target ≠ some (f, b)) :
    s'.field k' f = s.field k' f :=
  h.field k' f fun hk ↦ ⟨fun hsize ↦ (by rw [hsize] at hf; cases hf), hne hk⟩

theorem Written.logical (h : Written bld k len target bits calls s s') (hdev : BuildOk bld s.dev) :
    logical bld s'.dev = applyCalls calls (logical bld s.dev) := by
  rw [h.dev, logical_runCalls hdev]

theorem Place.field_pointer (p : Place) : p.field.pointer = true := by cases p <;> rfl

/-- The blocks of a write that comes with fresh bits are allocated afterwards. -/
theorem Written.allocated (h : Written bld k len target bits calls s s')
    (hbits : ∀ i ∈ bits, i < 8388608) :
    ∀ b, (b ∈ allocatedBlocks s ∨ ∃ i ∈ bits, b = ((22815 + i : ℕ) : ℤ)) →
      b ∈ allocatedBlocks s' := by
  rintro b (⟨i, hi, rfl, hset⟩ | ⟨i, hi, rfl⟩)
  · exact ⟨i, hi, rfl, by rw [h.dataBit, hset, Bool.or_true]⟩
  · exact ⟨i, hbits i hi, rfl, by rw [h.dataBit, decide_eq_true hi, Bool.true_or]⟩

theorem fresh_mem_region (hj : j < 8388608) : ((22815 + j : ℕ) : ℤ) ∈ dataRegion :=
  ⟨by omega, by omega⟩

/-- A clear bit belongs to a block that no place refers to. -/
theorem Sound.fresh (h : Sound bld s) (hclear : s.dataBit j = false) (q : ℕ × Place) :
    own bld s q ≠ some ((22815 + j : ℕ) : ℤ) := by
  refine h.bits.fresh ?_ q
  rintro ⟨i, -, hij, hset⟩
  obtain rfl : i = j := by omega
  rw [hclear] at hset
  cases hset

/-! ### A direct index -/

section Direct

variable {a : Fin 4}
  (hw : Written bld k len (some (.direct a, 22815 + j)) bits [.write (22815 + j) x] s s')
  (h : Owned bld s) (hlive : Live s k)
  (hfresh : ∀ q, own bld s q ≠ some ((22815 + j : ℕ) : ℤ))

include hw h

private theorem logical_direct (n : ℕ) (hn : n ≠ 22815 + j) :
    logical bld s'.dev n = logical bld s.dev n := by
  rw [hw.logical h.dev]
  exact Function.update_of_ne hn ..

include hlive hfresh

theorem own_direct :
    own bld s' = Function.update (own bld s) (k, .direct a) (some ((22815 + j : ℕ) : ℤ)) := by
  have hkeep := hw.live fun f b hb ↦ by cases hb; rfl
  funext ⟨k', p⟩
  by_cases hq : (k', p) = (k, .direct a)
  · obtain ⟨rfl, rfl⟩ := Prod.mk.inj hq
    rw [Function.update_self]
    exact own_eq_some.mpr ⟨(hkeep _).mpr hlive, hw.assigned _ _ rfl, by omega⟩
  · rw [Function.update_of_ne hq]
    refine own_congr (hkeep k') (hw.pointer p.field_pointer fun hk b hb ↦ hq ?_) ?_
    · have hfield : p.field = .direct a := (Prod.mk.inj (Option.some.inj hb)).1.symm
      cases p <;> simp_all [Place.field]
    · rintro r i rfl b hb
      rw [logical_direct hw h _ (h.ne_of_fresh hfresh hb)]

theorem content_direct (q : ℕ × Place) :
    content bld s' q = Function.update (content bld s) (k, .direct a) (some x) q := by
  obtain ⟨k', p⟩ := q
  have hown := congrFun (own_direct hw h hlive hfresh) (k', p)
  by_cases hq : (k', p) = (k, .direct a)
  · rw [hq, Function.update_self] at hown ⊢
    rw [content_of_own hown, hw.logical h.dev, Int.toNat_natCast]
    exact congrArg some (Function.update_self ..)
  · rw [Function.update_of_ne hq] at hown ⊢
    exact content_congr hown fun b hb ↦ logical_direct hw h _ (h.ne_of_fresh hfresh hb)

end Direct

/-! ### The first index of a range -/

/-- A map on places without the places of one range of slot `k`. -/
def withoutRange {α : Type*} (m : ℕ × Place → Option α) (k : ℕ) (r : Fin 4) :
    ℕ × Place → Option α :=
  fun q ↦ if q.1 = k ∧ q.2.field = .indirect r then none else m q

theorem withoutRange_of_ne {α : Type*} {m : ℕ × Place → Option α} {r : Fin 4} {q : ℕ × Place}
    (hq : ¬ (q.1 = k ∧ q.2.field = .indirect r)) : withoutRange m k r q = m q :=
  if_neg hq

theorem below_withoutRange {α : Type*} (m : ℕ × Place → Option α) (k : ℕ) (r : Fin 4) :
    Below (withoutRange m k r) m := by
  intro q b hq
  unfold withoutRange at hq
  split_ifs at hq
  exact hq

section First

variable {r : Fin 4} {j₁ j₂ : ℕ}
  (hw : Written bld k len (some (.indirect r, 22815 + j₁)) bits
    [.write (22815 + j₁) (Block.zero.setInt 0 ((22815 + j₂ : ℕ) : ℤ)),
      .write (22815 + j₂) x] s s')
  (h : Owned bld s) (hlive : Live s k) (hne : j₁ ≠ j₂) (hj₂ : j₂ < 8388608)
  (hfresh₁ : ∀ q, own bld s q ≠ some ((22815 + j₁ : ℕ) : ℤ))
  (hfresh₂ : ∀ q, own bld s q ≠ some ((22815 + j₂ : ℕ) : ℤ))

include hw h

private theorem logical_first (n : ℕ) (hn₁ : n ≠ 22815 + j₁) (hn₂ : n ≠ 22815 + j₂) :
    logical bld s'.dev n = logical bld s.dev n := by
  rw [hw.logical h.dev]
  exact (Function.update_of_ne hn₂ ..).trans (Function.update_of_ne hn₁ ..)

include hne hj₂

private theorem int_first (i : Fin 1024) : (logical bld s'.dev (22815 + j₁)).int i =
    if i = 0 then ((22815 + j₂ : ℕ) : ℤ) else 0 := by
  have hblock : logical bld s'.dev (22815 + j₁) =
      Block.zero.setInt 0 ((22815 + j₂ : ℕ) : ℤ) := by
    rw [hw.logical h.dev]
    exact (Function.update_of_ne (by omega) ..).trans (Function.update_self ..)
  rw [hblock, Block.int_setInt _ _ i.isLt, wrap_blk (by omega), Block.int_zero]
  exact if_congr (by rw [Fin.ext_iff]; rfl) rfl rfl

include hlive hfresh₁ hfresh₂

theorem own_first :
    own bld s' = Function.update
      (Function.update (withoutRange (own bld s) k r) (k, .indirect r)
        (some ((22815 + j₁ : ℕ) : ℤ)))
      (k, .entry r 0) (some ((22815 + j₂ : ℕ) : ℤ)) := by
  have hkeep := hw.live fun f b hb ↦ by cases hb; rfl
  have hassigned := hw.assigned _ _ rfl
  have hptr (i : Fin 1024) : ptr bld s' k (.entry r i) =
      if i = 0 then ((22815 + j₂ : ℕ) : ℤ) else 0 := by
    rw [ptr, hassigned, if_neg (by omega), Int.toNat_natCast, int_first hw h hne hj₂]
  ext q : 1
  obtain ⟨k', p⟩ := q
  by_cases hq : k' = k ∧ p.field = .indirect r
  · obtain ⟨rfl, hp⟩ := hq
    cases p with
    | direct i => cases hp
    | indirect r' =>
      obtain rfl : r' = r := by simpa [Place.field] using hp
      rw [Function.update_of_ne (by simp), Function.update_self]
      exact own_eq_some.mpr ⟨(hkeep _).mpr hlive, hassigned, by omega⟩
    | entry r' i =>
      obtain rfl : r' = r := by simpa [Place.field] using hp
      by_cases hi : i = 0
      · rw [hi, Function.update_self]
        exact own_eq_some.mpr ⟨(hkeep _).mpr hlive, by rw [hptr, if_pos rfl], by omega⟩
      · rw [Function.update_of_ne (by simp [hi]), Function.update_of_ne (by simp)]
        rw [own_of_eq_zero (by rw [hptr, if_neg hi])]
        exact (if_pos ⟨rfl, rfl⟩).symm
  · have hout : own bld s' (k', p) = own bld s (k', p) := by
      refine own_congr (hkeep k') (hw.pointer p.field_pointer fun hk b hb ↦ hq ⟨hk, ?_⟩) ?_
      · exact (Prod.mk.inj (Option.some.inj hb)).1.symm
      · rintro r' i rfl b hb
        rw [logical_first hw h _ (h.ne_of_fresh hfresh₁ hb) (h.ne_of_fresh hfresh₂ hb)]
    rw [hout, Function.update_of_ne, Function.update_of_ne, withoutRange_of_ne hq]
    · exact fun heq ↦ hq ⟨(Prod.mk.inj heq).1, (Prod.mk.inj heq).2 ▸ rfl⟩
    · exact fun heq ↦ hq ⟨(Prod.mk.inj heq).1, (Prod.mk.inj heq).2 ▸ rfl⟩

theorem content_first {q : ℕ × Place} (hdata : q.2.IsData) :
    content bld s' q =
      Function.update (withoutRange (content bld s) k r) (k, .entry r 0) (some x) q := by
  obtain ⟨k', p⟩ := q
  have hown := congrFun (own_first hw h hlive hne hj₂ hfresh₁ hfresh₂) (k', p)
  have hind : (k', p) ≠ (k, .indirect r) := by
    rintro ⟨rfl, rfl⟩
    exact hdata
  by_cases hq : (k', p) = (k, .entry r 0)
  · rw [hq, Function.update_self] at hown ⊢
    rw [content_of_own hown, hw.logical h.dev, Int.toNat_natCast]
    exact congrArg some (Function.update_self ..)
  · rw [Function.update_of_ne hq, Function.update_of_ne hind] at hown
    rw [Function.update_of_ne hq]
    by_cases hrange : k' = k ∧ p.field = .indirect r
    · rw [withoutRange, if_pos hrange]
      exact content_of_own_none (hown.trans (if_pos hrange))
    · rw [withoutRange_of_ne hrange] at hown ⊢
      exact content_congr hown fun b hb ↦
        logical_first hw h _ (h.ne_of_fresh hfresh₁ hb) (h.ne_of_fresh hfresh₂ hb)

end First

/-! ### A later index of a range -/

section Next

variable {r : Fin 4} {i : Fin 1024} {n : ℕ}
  (hw : Written bld k len none bits
    [.read n Block.zero,
      .write n ((logical bld s.dev n).setInt i ((22815 + j : ℕ) : ℤ)),
      .write (22815 + j) x] s s')
  (h : Owned bld s) (hind : own bld s (k, .indirect r) = some (n : ℤ)) (hj : j < 8388608)
  (hfresh : ∀ q, own bld s q ≠ some ((22815 + j : ℕ) : ℤ))

include hw h

private theorem logical_next (m : ℕ) (hm : m ≠ n) (hm' : m ≠ 22815 + j) :
    logical bld s'.dev m = logical bld s.dev m := by
  rw [hw.logical h.dev]
  exact (Function.update_of_ne hm' ..).trans (Function.update_of_ne hm ..)

include hind hfresh

private theorem logical_indirect_next : logical bld s'.dev n =
    (logical bld s.dev n).setInt i ((22815 + j : ℕ) : ℤ) := by
  have hn : n ≠ 22815 + j := by
    rintro rfl
    exact hfresh _ hind
  rw [hw.logical h.dev]
  exact (Function.update_of_ne hn ..).trans (Function.update_self ..)

include hj

theorem own_next :
    own bld s' = Function.update (own bld s) (k, .entry r i) (some ((22815 + j : ℕ) : ℤ)) := by
  have hkeep := hw.live fun f b hb ↦ nomatch hb
  have hfield (k' : ℕ) (p : Place) : s'.field k' p.field = s.field k' p.field :=
    hw.pointer p.field_pointer fun _ b hb ↦ nomatch hb
  obtain ⟨hlive, hptr, hnz⟩ := own_eq_some.mp hind
  funext ⟨k', p⟩
  by_cases hq : (k', p) = (k, .entry r i)
  · obtain ⟨rfl, rfl⟩ := Prod.mk.inj hq
    have hfield' : s'.field k' (.indirect r) = n := (hfield k' (.indirect r)).trans hptr
    rw [Function.update_self]
    refine own_eq_some.mpr ⟨(hkeep _).mpr hlive, ?_, by omega⟩
    rw [ptr, hfield', if_neg hnz, Int.toNat_natCast, logical_indirect_next hw h hind hfresh,
      Block.int_setInt _ _ i.isLt, if_pos rfl, wrap_blk (by omega)]
  · rw [Function.update_of_ne hq]
    refine own_congr (hkeep k') (hfield k' p) ?_
    rintro r' i' rfl b hb
    by_cases hsame : b.toNat = n
    · have hplace := h.toNat_inj hb hind (by rw [hsame, Int.toNat_natCast])
      obtain ⟨rfl, hrange⟩ := Prod.mk.inj hplace
      obtain rfl : r' = r := by simpa using hrange
      rw [hsame, logical_indirect_next hw h hind hfresh, Block.int_setInt _ _ i'.isLt, if_neg]
      rw [← Fin.ext_iff]
      rintro rfl
      exact hq rfl
    · rw [logical_next hw h _ hsame (h.ne_of_fresh hfresh hb)]

theorem content_next {q : ℕ × Place} (hdata : q.2.IsData) :
    content bld s' q = Function.update (content bld s) (k, .entry r i) (some x) q := by
  obtain ⟨k', p⟩ := q
  have hown := congrFun (own_next hw h hind hj hfresh) (k', p)
  by_cases hq : (k', p) = (k, .entry r i)
  · rw [hq, Function.update_self] at hown ⊢
    rw [content_of_own hown, hw.logical h.dev, Int.toNat_natCast]
    exact congrArg some (Function.update_self ..)
  · rw [Function.update_of_ne hq] at hown ⊢
    refine content_congr hown fun b hb ↦ logical_next hw h _ (fun hbn ↦ ?_)
      (h.ne_of_fresh hfresh hb)
    have hplace := h.toNat_inj hb hind (by rw [hbn, Int.toNat_natCast])
    obtain ⟨rfl, rfl⟩ := Prod.mk.inj hplace
    exact hdata

end Next

/-! ### The write as a whole -/

/-- The bits a write at block index `a` takes: one, or two at the first index of a range. -/
def Takes (s : Store) (a : ℕ) : List ℕ → Prop
  | [j] => FirstClear s j ∧ ∀ r : Fin 4, a ≠ 4 + 1024 * r
  | [j₁, j₂] => FirstClear s j₁ ∧ FirstClear (s.allocated j₁) j₂ ∧ ∃ r : Fin 4, a = 4 + 1024 * r
  | _ => False

theorem Takes.cases {s : Store} {a : ℕ} {bits : List ℕ} (h : Takes s a bits) :
    (∃ j, bits = [j] ∧ FirstClear s j ∧ ∀ r : Fin 4, a ≠ 4 + 1024 * r) ∨
      ∃ j₁ j₂, bits = [j₁, j₂] ∧ FirstClear s j₁ ∧ FirstClear (s.allocated j₁) j₂ ∧
        ∃ r : Fin 4, a = 4 + 1024 * r :=
  match bits with
  | [j] => .inl ⟨j, rfl, h⟩
  | [j₁, j₂] => .inr ⟨j₁, j₂, rfl, h⟩
  | [] | _ :: _ :: _ :: _ => h.elim

/-- Block index `a` is a later index of a range only when the range has its indirect block. -/
def Reached (s : Store) (k a : ℕ) : Prop :=
  ∀ (r : Fin 4) (i : ℕ), 0 < i → i < 1024 → a = 4 + 1024 * r + i → s.field k (.indirect r) ≠ 0

/-- Block index `a` is the first index of a range only when the range has no indirect block. -/
def Unopened (s : Store) (k a : ℕ) : Prop :=
  ∀ r : Fin 4, a = 4 + 1024 * r → s.field k (.indirect r) = 0

/-- The effect of storing a buffer at block index `a` of the object in slot `k`. -/
structure Stored (bld : Build) (k a : ℕ) (buff : List UInt8) (bits : List ℕ) (s s' : Store) :
    Prop where
  written : ∃ target calls, Written bld k buff.length target bits calls s s' ∧
    (∀ f b, target = some (f, b) → f.pointer = true) ∧ ∀ call ∈ calls, 22815 ≤ call.blk
  owned : Owned bld s'
  taken : ∀ q b, own bld s' q = some b →
    own bld s q = some b ∨ ∃ j ∈ bits, b = ((22815 + j : ℕ) : ℤ)
  opened : ∀ k' r, own bld s' (k', .indirect r) ≠ none ↔
    own bld s (k', .indirect r) ≠ none ∨ k' = k ∧ a = 4 + 1024 * (r : ℕ)
  content : Unopened s k a → ∀ q : ℕ × Place, q.2.IsData → content bld s' q =
    Function.update (content bld s) (k, .ofIndex a) (some (Block.ofList buff)) q

theorem Takes.clear (h : Takes s a bits) : ∀ i ∈ bits, i < 8388608 ∧ s.dataBit i = false := by
  match bits, h with
  | [i], h =>
    intro i' hi'
    obtain rfl : i' = i := by simpa using hi'
    exact ⟨h.1.lt, h.1.clear⟩
  | [j₁, j₂], ⟨h₁, h₂, _⟩ =>
    intro i' hi'
    have hclear := h₂.clear
    rw [dataBit_allocated, Bool.or_eq_false_iff] at hclear
    rcases List.mem_pair.mp hi' with rfl | rfl
    · exact ⟨h₁.lt, h₁.clear⟩
    · exact ⟨h₂.lt, hclear.2⟩

/-- What a write keeps besides the ownership map. -/
theorem Written.owned (hw : Written bld k len target bits calls s s')
    (htarget : ∀ f b, target = some (f, b) → f.pointer = true) (h : Owned bld s)
    (hexclusive : Exclusive (own bld s')) (hregion : Backed (own bld s') dataRegion) :
    Owned bld s' where
  exclusive := hexclusive
  region := hregion
  ids := fun i i' hi hi' heq ↦ by
    rw [hw.id htarget, hw.id htarget] at heq
    exact h.ids i i' ((hw.live htarget i).mp hi) ((hw.live htarget i').mp hi') heq
  dev := by
    rw [hw.dev]
    exact buildOk_runCalls h.dev calls

/-- A place takes a fresh block of the data region. -/
theorem region_update {m : ℕ × Place → Option ℤ} (h : Backed m dataRegion) (hj : j < 8388608)
    (q : ℕ × Place) :
    Backed (Function.update m q (some ((22815 + j : ℕ) : ℤ))) dataRegion :=
  h.update.mono (Set.insert_subset (fresh_mem_region hj) subset_rfl)

/-- The range of a block index past the direct ones. -/
def rangeOf (a : ℕ) : Fin 4 := ⟨(a - 4) / 1024 % 4, range_lt a⟩

theorem rangeOf_eq {r : Fin 4} {i : ℕ} (hi : i < 1024) : rangeOf (4 + 1024 * (r : ℕ) + i) = r :=
  Fin.ext (show (4 + 1024 * (r : ℕ) + i - 4) / 1024 % 4 = r by omega)

/-- The pointer a write at block index `a` assigns, with the block of the first bit it takes. -/
def writeTarget (a : ℕ) : List ℕ → Option (Field × ℕ)
  | [] => none
  | j :: _ =>
    if h : a < 4 then some (.direct ⟨a, h⟩, 22815 + j)
    else if (a - 4) % 1024 = 0 then some (.indirect (rangeOf a), 22815 + j)
    else none

/-- The block calls that enter a block in entry `i` of the indirect block `p`. -/
def entryCalls (m : ℕ → Block) (p i : ℕ) (x : Block) (j : ℕ) : List BlockCall :=
  [.read p Block.zero, .write p ((m p).setInt i ((22815 + j : ℕ) : ℤ)), .write (22815 + j) x]

/-- The block calls of a write at block index `a`, where `m` has the contents before it. -/
def writeCalls (m : ℕ → Block) (s : Store) (k a : ℕ) (x : Block) : List ℕ → List BlockCall
  | [j] =>
    if a < 4 then [.write (22815 + j) x]
    else entryCalls m (s.field k (.indirect (rangeOf a))).toNat ((a - 4) % 1024) x j
  | [j₁, j₂] => [.write (22815 + j₁) (Block.zero.setInt 0 ((22815 + j₂ : ℕ) : ℤ)),
      .write (22815 + j₂) x]
  | _ => []

/-- A write at a block index, whatever the objects share: a later index of a range needs no more
than an indirect pointer that is not negative. -/
theorem written_takes (buff : List UInt8) (offset : ℕ) (hlive : Live s k)
    (hids : ∀ i, Live s i → s.field i .id = s.field k .id → i = k) (hdev : BuildOk bld s.dev)
    (ha : a < 4100) (hoffset : offset / 4096 = a) (htakes : Takes s a bits)
    (hptr : 4 ≤ a → (a - 4) % 1024 ≠ 0 → 0 ≤ s.field k (.indirect (rangeOf a))) :
    ∃ s', objstoreWrite bld (s.field k .id) buff offset s = .ok (buff.length, s') ∧
      Written bld k buff.length (writeTarget a bits) bits
        (writeCalls (logical bld s.dev) s k a (Block.ofList buff) bits) s s' := by
  match bits, htakes with
  | [j], ⟨hj, hnot⟩ =>
    rcases Place.index_cases ha with hdirect | ⟨r, i, hr, hi, rfl⟩
    · rw [writeTarget, dif_pos hdirect, writeCalls, if_pos hdirect]
      exact written_direct bld buff hlive rfl hids (a := ⟨a, hdirect⟩) hoffset hj
    · have hpos : 0 < i := Nat.pos_of_ne_zero fun hzero ↦ hnot ⟨r, hr⟩ (by rw [hzero]; rfl)
      have hentry : (4 + 1024 * r + i - 4) % 1024 = i := by omega
      have hrange : rangeOf (4 + 1024 * r + i) = ⟨r, hr⟩ := rangeOf_eq (r := ⟨r, hr⟩) hi
      have hp := hptr (by omega) (by omega)
      rw [writeTarget, dif_neg (by omega), if_neg (by omega), writeCalls, if_neg (by omega), hentry]
      rw [hrange] at hp ⊢
      exact written_next buff hlive rfl hids hdev (r := ⟨r, hr⟩) hpos hi hoffset
        (Int.toNat_of_nonneg hp).symm hj
  | [j₁, j₂], ⟨hj₁, hj₂, r, hr⟩ =>
    have hrange : rangeOf a = r := by
      have hzero := rangeOf_eq (r := r) (i := 0) (by norm_num)
      rwa [Nat.add_zero, ← hr] at hzero
    rw [writeTarget, dif_neg (by omega), if_pos (by omega), hrange, writeCalls]
    exact written_first bld buff hlive rfl hids (hoffset.trans hr) hj₁ hj₂

theorem entryCalls_region {m : ℕ → Block} {q i : ℕ} (hq : 22815 ≤ q) :
    ∀ call ∈ entryCalls m q i x j, 22815 ≤ call.blk := by
  intro call hcall
  simp only [entryCalls, List.mem_cons, List.not_mem_nil, or_false] at hcall
  rcases hcall with rfl | rfl | rfl
  · exact hq
  · exact hq
  · exact Nat.le_add_right ..

/-- The block calls of a write stay in the data region when its indirect pointer does. -/
theorem writeCalls_region {m : ℕ → Block} (ha : a < 4100) (htakes : Takes s a bits)
    (hptr : 4 ≤ a → (a - 4) % 1024 ≠ 0 → 22815 ≤ s.field k (.indirect (rangeOf a))) :
    ∀ call ∈ writeCalls m s k a x bits, 22815 ≤ call.blk := by
  intro call hcall
  match bits, htakes with
  | [j], ⟨hj, hnot⟩ =>
    rw [writeCalls] at hcall
    split_ifs at hcall with hdirect
    · obtain rfl := List.mem_singleton.mp hcall
      exact Nat.le_add_right ..
    · have hne : (a - 4) % 1024 ≠ 0 := fun hzero ↦
        hnot (rangeOf a) (by simp only [rangeOf]; omega)
      have hind := hptr (by omega) hne
      exact entryCalls_region (by omega) call hcall
  | [j₁, j₂], _ =>
    rw [writeCalls, List.mem_pair] at hcall
    rcases hcall with rfl | rfl <;> exact Nat.le_add_right ..

/-- Every block taken is written. -/
theorem writeCalls_writes {m : ℕ → Block} (htakes : Takes s a bits) {j : ℕ} (hj : j ∈ bits) :
    ∃ y, .write (22815 + j) y ∈ writeCalls m s k a x bits := by
  match bits, htakes with
  | [j₁], _ =>
    obtain rfl := List.mem_singleton.mp hj
    refine ⟨x, ?_⟩
    rw [writeCalls]
    split_ifs <;> simp [entryCalls]
  | [j₁, j₂], _ =>
    rcases List.mem_pair.mp hj with rfl | rfl
    · exact ⟨_, List.mem_cons_self⟩
    · exact ⟨x, List.mem_cons_of_mem _ List.mem_cons_self⟩

section Stored

theorem stored_direct (buff : List UInt8) {a : Fin 4} {offset : ℕ} (h : Owned bld s)
    (hlive : Live s k) (hoffset : offset / 4096 = a) (hj : FirstClear s j)
    (hfresh : ∀ q, own bld s q ≠ some ((22815 + j : ℕ) : ℤ)) :
    ∃ s', objstoreWrite bld (s.field k .id) buff offset s = .ok (buff.length, s') ∧
      Stored bld k a buff [j] s s' := by
  obtain ⟨s', hrun, hw⟩ := written_direct bld buff hlive rfl
    (fun i hi heq ↦ h.ids i k hi hlive heq) hoffset hj
  have htarget : ∀ (f : Field) (b : ℕ), some (Field.direct a, 22815 + j) = some (f, b) →
      f.pointer = true := fun f b hb ↦ by cases hb; rfl
  have hown := own_direct hw h hlive hfresh
  refine ⟨s', hrun, ⟨_, _, hw, htarget, ?_⟩, ?_, fun q b hq ↦ ?_, fun k' r ↦ ?_, fun _ q _ ↦ ?_⟩
  · intro call hcall
    obtain rfl := List.mem_singleton.mp hcall
    exact Nat.le_add_right ..
  · refine hw.owned htarget h ?_ ?_
    · rw [hown]
      exact h.exclusive.update hfresh
    · rw [hown]
      exact region_update h.region hj.lt _
  · rw [hown] at hq
    by_cases hqq : q = (k, .direct a)
    · rw [hqq, Function.update_self] at hq
      exact Or.inr ⟨j, List.mem_singleton_self j, (Option.some.inj hq).symm⟩
    · rw [Function.update_of_ne hqq] at hq
      exact Or.inl hq
  · rw [hown, Function.update_of_ne (by simp)]
    exact ⟨Or.inl, fun hor ↦ hor.resolve_right fun heq ↦ by have := a.isLt; omega⟩
  · rw [Place.ofIndex_direct a.isLt]
    exact content_direct hw h hlive hfresh q

theorem stored_first (buff : List UInt8) {r : Fin 4} {offset j₁ j₂ : ℕ} (h : Owned bld s)
    (hlive : Live s k) (hoffset : offset / 4096 = 4 + 1024 * r) (hj₁ : FirstClear s j₁)
    (hj₂ : FirstClear (s.allocated j₁) j₂)
    (hfresh₁ : ∀ q, own bld s q ≠ some ((22815 + j₁ : ℕ) : ℤ))
    (hfresh₂ : ∀ q, own bld s q ≠ some ((22815 + j₂ : ℕ) : ℤ)) :
    ∃ s', objstoreWrite bld (s.field k .id) buff offset s = .ok (buff.length, s') ∧
      Stored bld k (4 + 1024 * r) buff [j₁, j₂] s s' := by
  obtain ⟨s', hrun, hw⟩ := written_first bld buff hlive rfl
    (fun i hi heq ↦ h.ids i k hi hlive heq) hoffset hj₁ hj₂
  have htarget : ∀ (f : Field) (b : ℕ), some (Field.indirect r, 22815 + j₁) = some (f, b) →
      f.pointer = true := fun f b hb ↦ by cases hb; rfl
  have hne : j₁ ≠ j₂ := by
    rintro rfl
    have hclear := hj₂.clear
    rw [dataBit_allocated, decide_eq_true (List.mem_singleton_self _)] at hclear
    cases hclear
  have hown := own_first hw h hlive hne hj₂.lt hfresh₁ hfresh₂
  have hbelow := below_withoutRange (own bld s) k r
  have hindex : Place.ofIndex (4 + 1024 * (r : ℕ)) = .entry r 0 :=
    Place.ofIndex_entry r.isLt (i := 0) (by norm_num)
  refine ⟨s', hrun, ⟨_, _, hw, htarget, ?_⟩, ?_, fun q b hq ↦ ?_, fun k' r' ↦ ?_,
    fun hopen q hdata ↦ ?_⟩
  · intro call hcall
    rcases List.mem_pair.mp hcall with rfl | rfl <;> exact Nat.le_add_right ..
  · refine hw.owned htarget h ?_ ?_
    · rw [hown]
      refine ((h.exclusive.of_le hbelow).update fun q hq ↦ hfresh₁ q (hbelow q _ hq)).update
        fun q hq ↦ ?_
      by_cases hqq : q = (k, .indirect r)
      · rw [hqq, Function.update_self] at hq
        have := Option.some.inj hq
        omega
      · rw [Function.update_of_ne hqq] at hq
        exact hfresh₂ q (hbelow q _ hq)
    · rw [hown]
      exact region_update (region_update (h.region.of_le hbelow) hj₁.lt _) hj₂.lt _
  · rw [hown] at hq
    by_cases hentry : q = (k, .entry r 0)
    · rw [hentry, Function.update_self] at hq
      exact Or.inr ⟨j₂, by simp, (Option.some.inj hq).symm⟩
    rw [Function.update_of_ne hentry] at hq
    by_cases hind : q = (k, .indirect r)
    · rw [hind, Function.update_self] at hq
      exact Or.inr ⟨j₁, by simp, (Option.some.inj hq).symm⟩
    · rw [Function.update_of_ne hind] at hq
      exact Or.inl (hbelow q b hq)
  · rw [hown, Function.update_of_ne (by simp)]
    by_cases hind : (k', Place.indirect r') = (k, .indirect r)
    · obtain ⟨rfl, hr⟩ := Prod.mk.inj hind
      obtain rfl : r' = r := by simpa using hr
      simp
    · rw [Function.update_of_ne hind]
      have hrange : ¬ (k' = k ∧ Place.field (.indirect r') = .indirect r) := by
        rintro ⟨rfl, hr⟩
        exact hind (by rw [Field.indirect.inj hr])
      rw [withoutRange_of_ne hrange]
      refine ⟨Or.inl, fun hor ↦ hor.resolve_right ?_⟩
      rintro ⟨rfl, heq⟩
      exact hrange ⟨rfl, congrArg Field.indirect (Fin.ext (by omega))⟩
  · rw [content_first hw h hlive hne hj₂.lt hfresh₁ hfresh₂ hdata, hindex]
    have hnone : withoutRange (content bld s) k r q = content bld s q := by
      unfold withoutRange
      split_ifs with hq
      · obtain ⟨k', p⟩ := q
        obtain ⟨rfl, hp⟩ := hq
        refine (content_of_own_none (own_of_eq_zero ?_)).symm
        cases p with
        | direct i => cases hp
        | indirect r' => exact hdata.elim
        | entry r' i =>
          obtain rfl : r' = r := Field.indirect.inj hp
          exact if_pos (hopen _ rfl)
      · rfl
    by_cases hq : q = (k, .entry r 0)
    · rw [hq, Function.update_self, Function.update_self]
    · rw [Function.update_of_ne hq, Function.update_of_ne hq, hnone]

theorem stored_next (buff : List UInt8) {r : Fin 4} {i offset : ℕ} (h : Owned bld s)
    (hlive : Live s k) (hpos : 0 < i) (hi : i < 1024) (hoffset : offset / 4096 = 4 + 1024 * r + i)
    (hj : FirstClear s j) (hfresh : ∀ q, own bld s q ≠ some ((22815 + j : ℕ) : ℤ))
    (hreached : s.field k (.indirect r) ≠ 0) :
    ∃ s', objstoreWrite bld (s.field k .id) buff offset s = .ok (buff.length, s') ∧
      Stored bld k (4 + 1024 * r + i) buff [j] s s' := by
  have hind : own bld s (k, .indirect r) = some (s.field k (.indirect r)) :=
    own_of_ne_zero hlive hreached
  obtain ⟨n, hn⟩ : ∃ n : ℕ, s.field k (.indirect r) = n := ⟨_, (h.eq_natCast hind).symm⟩
  rw [hn] at hind
  have hge := h.pos hind
  obtain ⟨s', hrun, hw⟩ := written_next buff hlive rfl
    (fun i' hi' heq ↦ h.ids i' k hi' hlive heq) h.dev hpos hi hoffset hn hj
  have htarget : ∀ (f : Field) (b : ℕ), none = some (f, b) → f.pointer = true :=
    fun f b hb ↦ nomatch hb
  have hown := own_next (i := ⟨i, hi⟩) hw h hind hj.lt hfresh
  refine ⟨s', hrun, ⟨_, _, hw, htarget, ?_⟩, ?_, fun q b hq ↦ ?_, fun k' r' ↦ ?_,
    fun _ q hdata ↦ ?_⟩
  · intro call hcall
    simp only [List.mem_cons, List.not_mem_nil, or_false] at hcall
    rcases hcall with rfl | rfl | rfl <;> simp only [BlockCall.blk] <;> omega
  · refine hw.owned htarget h ?_ ?_
    · rw [hown]
      exact h.exclusive.update hfresh
    · rw [hown]
      exact region_update h.region hj.lt _
  · rw [hown] at hq
    by_cases hqq : q = (k, .entry r ⟨i, hi⟩)
    · rw [hqq, Function.update_self] at hq
      exact Or.inr ⟨j, List.mem_singleton_self j, (Option.some.inj hq).symm⟩
    · rw [Function.update_of_ne hqq] at hq
      exact Or.inl hq
  · rw [hown, Function.update_of_ne (by simp)]
    exact ⟨Or.inl, fun hor ↦ hor.resolve_right fun heq ↦ by omega⟩
  · rw [Place.ofIndex_entry r.isLt hi]
    exact content_next hw h hind hj.lt hfresh hdata

/-- Storing a buffer at a block index, with fresh blocks and in a range that is reached. -/
theorem stored_write (buff : List UInt8) {offset : ℕ} (h : Owned bld s) (hlive : Live s k)
    (ha : a < 4100) (hoffset : offset / 4096 = a) (htakes : Takes s a bits)
    (hfresh : ∀ i ∈ bits, ∀ q, own bld s q ≠ some ((22815 + i : ℕ) : ℤ))
    (hreached : Reached s k a) :
    ∃ s', objstoreWrite bld (s.field k .id) buff offset s = .ok (buff.length, s') ∧
      Stored bld k a buff bits s s' := by
  match bits, htakes with
  | [i], ⟨hi, hnot⟩ =>
    have hfresh' := hfresh i (List.mem_singleton_self i)
    rcases Place.index_cases ha with hdirect | ⟨r, e, hr, he, rfl⟩
    · exact stored_direct buff (a := ⟨a, hdirect⟩) h hlive hoffset hi hfresh'
    · have hpos : 0 < e := Nat.pos_of_ne_zero fun hzero ↦ hnot ⟨r, hr⟩ (by rw [hzero]; rfl)
      exact stored_next buff (r := ⟨r, hr⟩) h hlive hpos he hoffset hi hfresh'
        (hreached ⟨r, hr⟩ e hpos he rfl)
  | [j₁, j₂], ⟨hj₁, hj₂, r, hr⟩ =>
    subst hr
    exact stored_first buff h hlive hoffset hj₁ hj₂ (hfresh j₁ (by simp)) (hfresh j₂ (by simp))

end Stored

/-- A store that was sound stays sound. -/
theorem Stored.sound (hst : Stored bld k a buff bits s s') (h : Sound bld s)
    (htakes : Takes s a bits) : Sound bld s' where
  toOwned := hst.owned
  bits := fun q b hq ↦ by
    obtain ⟨target, calls, hw, -⟩ := hst.written
    refine hw.allocated (fun i hi ↦ (htakes.clear i hi).1) b ?_
    exact (hst.taken q b hq).imp_left (h.bits q b)

end OsAssignments.Objstore
