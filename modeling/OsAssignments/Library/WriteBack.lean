import Mathlib

/-!
# Write-back caches over a block memory

A cache keeps, in each slot, at most one of the memory blocks that the placement function `slot`
sends there, together with a dirty flag and the cached value. The content of a block is its
cached value when it is held and its memory value otherwise: `content` is the memory that users
of the cache see.

`Coherent` says that a held block sits in its own slot and that a clean line equals the memory.
It is all that transparency needs. `access` brings a block in, writing a dirty victim back and
leaving the dirty flag as it was; it changes no content (`content_access`). `put` replaces the
value of one block (`content_put`), `drop` forgets a line and exposes the memory below it
(`content_drop`), and `flush`, the memory after every dirty line is written back, is the content
(`flush_eq_content`). Nothing is assumed of a dirty line: its flag may stay set after the line
has been refilled from memory.
-/

set_option autoImplicit false
set_option relaxedAutoImplicit false

namespace OsAssignments.Library

/-- A cache with slots `S` in front of a memory with blocks `B` and values `α`. -/
@[ext]
structure WriteBack (B S α : Type*) where
  mem : B → α
  held : S → Option B
  dirty : S → Bool
  line : S → α

namespace WriteBack

variable {B S α : Type*} [DecidableEq B] [DecidableEq S]

/-- The memory seen through the cache. -/
def content (slot : B → S) (c : WriteBack B S α) (b : B) : α :=
  if c.held (slot b) = some b then c.line (slot b) else c.mem b

/-- Held blocks sit in their own slot, and clean lines equal the memory. -/
structure Coherent (slot : B → S) (c : WriteBack B S α) : Prop where
  placed : ∀ i b, c.held i = some b → slot b = i
  clean : ∀ i b, c.held i = some b → c.dirty i = false → c.line i = c.mem b

/-- Write the line of a slot back to the memory if it is dirty. -/
def evict (c : WriteBack B S α) (i : S) : WriteBack B S α :=
  match c.held i with
  | none => c
  | some b => if c.dirty i then { c with mem := Function.update c.mem b (c.line i) } else c

/-- Load a block into its slot; the dirty flag of the slot is not touched. -/
def fill (slot : B → S) (c : WriteBack B S α) (b : B) : WriteBack B S α :=
  { c with
    held := Function.update c.held (slot b) (some b)
    line := Function.update c.line (slot b) (c.mem b) }

/-- Make the slot of a block hold it, evicting what was there. -/
def access (slot : B → S) (c : WriteBack B S α) (b : B) : WriteBack B S α :=
  if c.held (slot b) = some b then c else fill slot (evict c (slot b)) b

/-- Make the slot of a block hold it with a new value, dirty, evicting what was there. -/
def put (slot : B → S) (c : WriteBack B S α) (b : B) (x : α) : WriteBack B S α :=
  let c := if c.held (slot b) = some b then c else evict c (slot b)
  { c with
    held := Function.update c.held (slot b) (some b)
    dirty := Function.update c.dirty (slot b) true
    line := Function.update c.line (slot b) x }

/-- Forget the line of a block without writing it back. -/
def drop (slot : B → S) (c : WriteBack B S α) (b : B) : WriteBack B S α :=
  if c.held (slot b) = some b then
    { c with
      held := Function.update c.held (slot b) none
      dirty := Function.update c.dirty (slot b) false }
  else c

/-- The memory after all dirty lines are written back. -/
def flush (slot : B → S) (c : WriteBack B S α) (b : B) : α :=
  if c.held (slot b) = some b ∧ c.dirty (slot b) = true then c.line (slot b) else c.mem b

variable {slot : B → S} {c : WriteBack B S α}

omit [DecidableEq S] in
@[simp] theorem evict_held (c : WriteBack B S α) (i : S) : (evict c i).held = c.held := by
  unfold evict
  split
  · rfl
  · split <;> rfl

omit [DecidableEq S] in
@[simp] theorem evict_dirty (c : WriteBack B S α) (i : S) : (evict c i).dirty = c.dirty := by
  unfold evict
  split
  · rfl
  · split <;> rfl

omit [DecidableEq S] in
@[simp] theorem evict_line (c : WriteBack B S α) (i : S) : (evict c i).line = c.line := by
  unfold evict
  split
  · rfl
  · split <;> rfl

omit [DecidableEq S] in
/-- After an eviction the memory of a block is its content if it sat in the evicted slot, and
what it was otherwise. -/
theorem evict_mem (hc : Coherent slot c) (i : S) (b : B) :
    (evict c i).mem b = if c.held i = some b then c.line i else c.mem b := by
  unfold evict
  cases hheld : c.held i with
  | none => simp
  | some held =>
    cases hdirty : c.dirty i with
    | true =>
      by_cases hb : held = b
      · subst hb
        simp
      · simp [hb, Function.update_of_ne (Ne.symm hb)]
    | false =>
      by_cases hb : held = b
      · subst hb
        simp [hc.clean i held hheld hdirty]
      · simp [hb]

omit [DecidableEq S] in
theorem coherent_evict (hc : Coherent slot c) (i : S) : Coherent slot (evict c i) where
  placed := fun j b hheld ↦ hc.placed j b (by simpa using hheld)
  clean := fun j b hheld hdirty ↦ by
    rw [evict_held] at hheld
    rw [evict_dirty] at hdirty
    rw [evict_line, evict_mem hc]
    by_cases hi : c.held i = some b
    · rw [if_pos hi, (hc.placed i b hi).symm, (hc.placed j b hheld).symm]
    · rw [if_neg hi, hc.clean j b hheld hdirty]

omit [DecidableEq S] in
/-- Writing a line back changes no content. -/
theorem content_evict (hc : Coherent slot c) (i : S) :
    content slot (evict c i) = content slot c := by
  funext b
  rw [content, content, evict_held, evict_line, evict_mem hc]
  by_cases hheld : c.held (slot b) = some b
  · rw [if_pos hheld, if_pos hheld]
  · rw [if_neg hheld, if_neg hheld, if_neg]
    intro hi
    rw [← hc.placed i b hi] at hi
    exact hheld hi

/-! ### Access -/

theorem content_access (hc : Coherent slot c) (b : B) :
    content slot (access slot c b) = content slot c := by
  unfold access
  split_ifs with hhit
  · rfl
  · funext b'
    by_cases hslot : slot b' = slot b
    · by_cases hb : b' = b
      · subst hb
        rw [content, content, if_neg hhit]
        simp [fill, evict_mem hc, hhit]
      · have hne : some b ≠ some b' := fun h ↦ hb (Option.some.inj h).symm
        rw [content, content]
        simp [fill, hslot, hne, evict_mem hc]
    · rw [← content_evict hc (slot b), content, content]
      simp [fill, Function.update_of_ne hslot]

theorem coherent_access (hc : Coherent slot c) (b : B) : Coherent slot (access slot c b) := by
  unfold access
  split_ifs with hhit
  · exact hc
  · have he := coherent_evict hc (slot b)
    refine ⟨fun i b' hheld ↦ ?_, fun i b' hheld hdirty ↦ ?_⟩
    · by_cases hi : i = slot b
      · subst hi
        simp only [fill, Function.update_self, Option.some.injEq] at hheld
        rw [hheld]
      · simp only [fill, Function.update_of_ne hi] at hheld
        exact he.placed i b' hheld
    · by_cases hi : i = slot b
      · subst hi
        simp only [fill, Function.update_self, Option.some.injEq] at hheld
        simp [fill, hheld]
      · simp only [fill, Function.update_of_ne hi] at hheld hdirty ⊢
        exact he.clean i b' hheld hdirty

/-- The line an access leaves in the slot is the content of the block. -/
theorem line_access (hc : Coherent slot c) (b : B) :
    (access slot c b).line (slot b) = content slot c b := by
  unfold access content
  split_ifs with hhit
  · rfl
  · simp [fill, evict_mem hc, hhit]

/-! ### Put -/

theorem content_put (hc : Coherent slot c) (b : B) (x : α) :
    content slot (put slot c b x) = Function.update (content slot c) b x := by
  funext b'
  by_cases hb : b' = b
  · subst hb
    simp [content, put]
  · rw [Function.update_of_ne hb]
    have hrest : content slot (put slot c b x) b' = content slot (access slot c b) b' := by
      unfold put access
      by_cases hhit : c.held (slot b) = some b
      · rw [if_pos hhit, if_pos hhit]
        by_cases hslot : slot b' = slot b
        · simp [content, hslot, hhit, Ne.symm hb]
        · simp [content, Function.update_of_ne hslot]
      · rw [if_neg hhit, if_neg hhit]
        by_cases hslot : slot b' = slot b
        · simp [content, fill, hslot, Ne.symm hb]
        · simp [content, fill, Function.update_of_ne hslot]
    rw [hrest, content_access hc]

theorem coherent_put (hc : Coherent slot c) (b : B) (x : α) : Coherent slot (put slot c b x) := by
  have hbase : Coherent slot (if c.held (slot b) = some b then c else evict c (slot b)) := by
    split_ifs
    · exact hc
    · exact coherent_evict hc _
  refine ⟨fun i b' hheld ↦ ?_, fun i b' hheld hdirty ↦ ?_⟩
  · by_cases hi : i = slot b
    · subst hi
      simp only [put, Function.update_self, Option.some.injEq] at hheld
      rw [hheld]
    · simp only [put, Function.update_of_ne hi] at hheld
      exact hbase.placed i b' hheld
  · by_cases hi : i = slot b
    · subst hi
      simp [put] at hdirty
    · simp only [put, Function.update_of_ne hi] at hheld hdirty ⊢
      exact hbase.clean i b' hheld hdirty

/-! ### Drop and flush -/

/-- Dropping a line exposes the memory of its block and nothing else. -/
theorem content_drop (c : WriteBack B S α) (b b' : B) :
    content slot (drop slot c b) b' = if b' = b then c.mem b else content slot c b' := by
  unfold drop
  split_ifs with hhit hb hb
  · subst hb
    simp [content]
  · by_cases hslot : slot b' = slot b
    · simp [content, hslot, hhit, Ne.symm hb]
    · simp [content, Function.update_of_ne hslot]
  · subst hb
    simp [content, hhit]
  · rfl

theorem coherent_drop (hc : Coherent slot c) (b : B) : Coherent slot (drop slot c b) := by
  unfold drop
  split_ifs with hhit
  · refine ⟨fun i b' hheld ↦ ?_, fun i b' hheld hdirty ↦ ?_⟩
    · by_cases hi : i = slot b
      · subst hi
        simp at hheld
      · simp only [Function.update_of_ne hi] at hheld
        exact hc.placed i b' hheld
    · by_cases hi : i = slot b
      · subst hi
        simp at hheld
      · simp only [Function.update_of_ne hi] at hheld hdirty
        exact hc.clean i b' hheld hdirty
  · exact hc

omit [DecidableEq S] in
/-- Writing back every dirty line makes the memory equal to the content. -/
theorem flush_eq_content (hc : Coherent slot c) : flush slot c = content slot c := by
  funext b
  unfold flush content
  by_cases hheld : c.held (slot b) = some b
  · cases hdirty : c.dirty (slot b) with
    | true => simp [hheld]
    | false => simp [hheld, hc.clean _ _ hheld hdirty]
  · simp [hheld]

end WriteBack

end OsAssignments.Library
