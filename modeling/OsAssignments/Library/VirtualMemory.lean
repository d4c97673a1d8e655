import Mathlib

/-!
# Virtual memory

Pages are translated to frames, some of which may be written. What a user of the memory sees of it
are the `contents`: the bytes of each page that is translated. As long as no two pages have one
frame (`Apart`), a write to a frame changes the contents of its page and of no other
(`contents_write`).

A processor keeps translations that it has used. It may use them as long as they are those of the
tables (`Coherent`, `lookup_of_coherent`). A new translation leaves them so, and so does a removed
one when the pages removed are dropped (`Coherent.add`, `Coherent.remove`).
-/

set_option autoImplicit false
set_option relaxedAutoImplicit false

namespace OsAssignments.Library

/-- The frame of a page, and what is permitted there. -/
structure Translation (F : Type*) where
  frame : F
  user : Bool
  writable : Bool
  deriving DecidableEq

/-- A page as its user sees it. -/
structure SeenPage (O B : Type*) where
  bytes : O → B
  writable : Bool

namespace VirtualMemory

variable {P F O B : Type*} {map map' tlb tlb' : P → Option (Translation F)} {ram : F → O → B}
    {p : P}
  {e : Translation F}

/-- The bytes of the pages that are translated. -/
def contents (map : P → Option (Translation F)) (ram : F → O → B) (p : P) : Option (SeenPage O B) :=
  (map p).map fun e ↦ ⟨ram e.frame, e.writable⟩

/-- No two pages have one frame. -/
def Apart (map : P → Option (Translation F)) : Prop :=
  ∀ p q e e', map p = some e → map q = some e' → e.frame = e'.frame → p = q

/-- What a processor uses: the translation that it has kept, or the one of the tables. -/
def lookup (tlb map : P → Option (Translation F)) (p : P) : Option (Translation F) :=
  (tlb p).or (map p)

/-- The translations that have been kept are those of the tables. -/
def Coherent (tlb map : P → Option (Translation F)) : Prop := ∀ p e, tlb p = some e → map p = some e

/-- The translations that are left when those of some pages are dropped. -/
def drop (D : P → Prop) [DecidablePred D] (map : P → Option (Translation F)) (p : P) :
    Option (Translation F) := if D p then none else map p

theorem contents_of_some (h : map p = some e) :
    contents map ram p = some ⟨ram e.frame, e.writable⟩ := by
  rw [contents, h, Option.map_some]

theorem contents_eq_none_iff : contents map ram p = none ↔ map p = none := Option.map_eq_none_iff

/-- Pages whose translations are removed are seen no more. -/
theorem contents_remove (map : P → Option (Translation F)) (ram : F → O → B) (D : P → Prop)
    [DecidablePred D] : contents (drop D map) ram = fun p ↦ if D p then none
      else contents map ram p := by
  ext1 p
  rw [contents, drop]
  split_ifs <;> rfl

section Update

variable [DecidableEq P]

/-- A page that is added shows what its frame holds. -/
theorem contents_add (map : P → Option (Translation F)) (ram : F → O → B) (p : P)
    (e : Translation F) :
    contents (Function.update map p (some e)) ram =
      Function.update (contents map ram) p (some ⟨ram e.frame, e.writable⟩) := by
  ext1 q
  rw [contents, Function.update_apply, Function.update_apply]
  split_ifs <;> rfl

/-- A write to the frame of a page. -/
theorem contents_write [DecidableEq F] (h : Apart map) (hp : map p = some e) (bytes : O → B) :
    contents map (Function.update ram e.frame bytes) =
      Function.update (contents map ram) p (some ⟨bytes, e.writable⟩) := by
  ext1 q
  rw [Function.update_apply]
  split_ifs with hq
  · rw [hq, contents_of_some hp, Function.update_self]
  · rw [contents, contents]
    refine Option.map_congr fun e' he' ↦ ?_
    rw [Function.update_of_ne fun heq ↦ hq (h q p e' e he' hp heq)]

end Update

/-! ### Translations that are kept -/

theorem lookup_of_coherent (h : Coherent tlb map) (p : P) : lookup tlb map p = map p := by
  rw [lookup]
  cases hp : tlb p with
  | none => exact Option.none_or
  | some e => exact (h p e hp).symm

/-- A translation may be kept when it has been looked up in the tables. -/
theorem Coherent.keep [DecidableEq P] (h : Coherent tlb map) (p : P) :
    Coherent (Function.update tlb p (map p)) map := by
  intro q e hq
  rw [Function.update_apply] at hq
  split_ifs at hq with heq
  · rwa [heq]
  · exact h q e hq

/-- Translations may be dropped at any time. -/
theorem Coherent.drop (h : Coherent tlb map) (D : P → Prop) [DecidablePred D] :
    Coherent (drop D tlb) map := by
  intro q e hq
  rw [VirtualMemory.drop] at hq
  split_ifs at hq
  exact h q e hq

/-- The translations that are kept stay right when a page gets its first one. -/
theorem Coherent.add [DecidableEq P] (h : Coherent tlb map) (hp : map p = none)
    (e : Translation F) : Coherent tlb (Function.update map p (some e)) := by
  intro q e' hq
  have hq' := h q e' hq
  rw [Function.update_of_ne, hq']
  rintro rfl
  rw [hp] at hq'
  cases hq'

/-- They stay right when the translations of some pages are removed from the tables, and those of
them that had one are dropped. -/
theorem Coherent.remove (h : Coherent tlb map) {D : P → Prop} [DecidablePred D]
    (hremoved : ∀ q, map' q ≠ map q → map q ≠ none → D q) :
    Coherent (VirtualMemory.drop D tlb) map' := by
  intro q e hq
  rw [VirtualMemory.drop] at hq
  split_ifs at hq with hdropped
  have hq' := h q e hq
  by_contra hne
  exact hdropped (hremoved q (fun heq ↦ hne (heq.trans hq')) (hq' ▸ Option.some_ne_none e))

end VirtualMemory

end OsAssignments.Library
