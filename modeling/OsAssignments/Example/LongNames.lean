import OsAssignments.Example.Files

/-!
# Names that do not fit

`create_object` copies a name of any length into the 64 bytes of the key. A longer one runs into the
record behind, whose id comes first. `example_long_name_iff` says which names leave that id as it
was: those that fit, and those whose one byte too many happens to be the id. All others take the
handle of the next object from it.
-/

set_option autoImplicit false
set_option relaxedAutoImplicit false

namespace OsAssignments.Example

open Library
open Objstore (Block Build Fault Key Stat statBlocks)

variable {bld : Build} {s : Store} {key : Key} {k j : ℕ}

/-- The first free record is one. -/
theorem FirstFree.unique (h : FirstFree s k) (h' : FirstFree s j) : k = j := by
  rcases lt_trichotomy k j with hlt | heq | hgt
  · exact absurd h.1 (h'.2 k hlt)
  · exact heq
  · exact absurd h'.1 (h.2 j hgt)

/-- A creation that succeeds names the first free record, however long the name. -/
theorem createObject_eq_named (hfirst : FirstFree s k)
    (hcreated : (createObject bld key s).1 ≠ -1) :
    (createObject bld key s).2 = named bld k key s := by
  rcases createObject_ways bld key s with ⟨heq, -⟩ | ⟨j, -, hfirst', -, ⟨heq, -⟩ | ⟨heq, -⟩⟩
  · rw [heq] at hcreated
    exact absurd rfl hcreated
  · rw [heq] at hcreated
    exact absurd rfl hcreated
  · rw [heq, hfirst'.unique hfirst]

/-- An id of a record is one byte and seven zero bytes. -/
theorem id_eq_iff {m : Bytes} {v : ℕ} (hv : v < 256) : object.get m j .id = v ↔
    (m (88 * j)).toNat = v ∧ ∀ i < 7, m (88 * j + 1 + i) = 0 := by
  have haddr : object.fieldAddr j .id = 88 * j := rfl
  have hwidth : object.width .id = 7 + 1 := rfl
  rw [RecordLayout.get, haddr, hwidth, Bytes.loadInt_eq_iff (by norm_num; omega),
    Bytes.load_eq_byte_iff hv]

/-- The bytes that a copy of a name leaves in the record behind. -/
theorem setKey_behind (m : Bytes) (k : ℕ) (key : Key) (i : ℕ) :
    object.setKey m k key.chars (88 * (k + 1) + i) =
    if 64 + i ≤ key.chars.length then key.chars.getD (64 + i) 0 else m (88 * (k + 1) + i) := by
  have haddr : object.keyAddr k = 88 * k + 24 := rfl
  rw [RecordLayout.setKey, haddr]
  split_ifs with hin
  · rw [Bytes.strcpy_of_inside (by omega) (by omega),
      show 88 * (k + 1) + i - (88 * k + 24) = 64 + i by omega]
  · exact Bytes.strcpy_of_outside (.inr (by omega))

/-- A character of a key is not zero. -/
theorem key_getD_ne_zero {n : ℕ} (hn : n < key.chars.length) : key.chars.getD n 0 ≠ 0 := by
  rw [List.getD_eq_getElem _ _ hn]
  exact fun hzero ↦ key.noNul (hzero ▸ List.getElem_mem hn)

/-- After a creation in record `k` the next object has the id of its slot exactly when the name
fits, or is one byte too long and that byte is the id. -/
theorem example_long_name_iff (bld : Build) (key : Key) (s : Store) (k : ℕ) (hk : k < 15)
    (hfirst : FirstFree s k) (hnext : s.field (k + 1) .id = (k + 3 : ℕ))
    (hcreated : (createObject bld key s).1 ≠ -1) :
    (createObject bld key s).2.field (k + 1) .id = (k + 3 : ℕ) ↔
      key.chars.length < 64 ∨
        key.chars.length = 65 ∧ (key.chars.getD 64 0).toNat = k + 3 := by
  have hold : object.get (claim k s).objs (k + 1) .id = (k + 3 : ℕ) :=
    (field_assign_of_ne (.inl (by omega))).trans hnext
  obtain ⟨hlow, hrest⟩ := (id_eq_iff (by omega)).mp hold
  have hfield : (named bld k key s).field (k + 1) .id =
      object.get (object.setKey (claim k s).objs k key.chars) (k + 1) .id := by
    rw [named, field_initObjectCached, if_neg (by omega), if_neg (by omega)]
    rfl
  have hbyte := setKey_behind (claim k s).objs k key 0
  rw [Nat.add_zero, Nat.add_zero] at hbyte
  have hbehind : ∀ i, object.setKey (claim k s).objs k key.chars (88 * (k + 1) + 1 + i) =
      if 65 + i ≤ key.chars.length then key.chars.getD (65 + i) 0
      else (claim k s).objs (88 * (k + 1) + 1 + i) := fun i ↦ by
    have h := setKey_behind (claim k s).objs k key (1 + i)
    rwa [← Nat.add_assoc, show 64 + (1 + i) = 65 + i by omega] at h
  rw [createObject_eq_named hfirst hcreated, hfield, id_eq_iff (by omega), hbyte]
  constructor
  · rintro ⟨hid, hzero⟩
    by_cases hshort : key.chars.length < 64
    · exact .inl hshort
    · rw [if_pos (by omega)] at hid
      refine .inr ⟨?_, hid⟩
      have hlong : ¬ 66 ≤ key.chars.length := fun hle ↦ by
        have hnext := hzero 0 (by norm_num)
        rw [hbehind, if_pos (by omega)] at hnext
        exact key_getD_ne_zero (by omega) hnext
      by_contra hne
      -- A name of 64 bytes ends in the id: its terminator is there.
      have hend : key.chars.getD 64 0 = 0 := List.getD_eq_default _ _ (by omega)
      rw [hend] at hid
      simp only [UInt8.toNat_zero] at hid
      omega
  · rintro (hshort | ⟨hlength, hid⟩)
    · rw [if_neg (by omega)]
      refine ⟨hlow, fun i hi ↦ ?_⟩
      rw [hbehind, if_neg (by omega), hrest i hi]
    · rw [if_pos (by omega)]
      refine ⟨hid, fun i hi ↦ ?_⟩
      rw [hbehind]
      split_ifs with hin
      · exact List.getD_eq_default _ _ (by omega)
      · exact hrest i hi

/-- The id of the record that is named, however long the name. -/
theorem id_named (hk : k < 16) : (named bld k key s).field k .id = (k : ℤ) + 2 := by
  have hcopy :
      Store.field { claim k s with objs := object.setKey (claim k s).objs k key.chars } k .id =
      (claim k s).field k .id := by
    refine RecordLayout.get_congr fun n _ hhigh ↦ ?_
    rw [RecordLayout.setKey]
    exact Bytes.strcpy_of_outside (.inl hhigh)
  rw [named, field_initObjectCached, if_neg (by omega), if_neg (by omega), hcopy, claim,
    field_assign (by omega) (by omega), if_pos ⟨rfl, rfl⟩]

/-- A name of 66 bytes. -/
def longName : Key := ⟨List.replicate 66 97, by decide⟩

/-- Where the first of two files was removed a creation under a long name succeeds. -/
theorem created_longName {bld : Build} {s : Store} (h : Represents bld s filesB) :
    FirstFree s 0 ∧ (createObject bld longName s).1 ≠ -1 := by
  have hnowhere : ∀ j, ¬ filesB.Has j longName := by decide
  have hclaim := represents_claim (k := 0) h (by decide)
  have hfirst : FirstFree s 0 :=
    ⟨(h.free 0 (by decide)).id, fun j hj ↦ absurd hj (Nat.not_lt_zero j)⟩
  refine ⟨hfirst, ?_⟩
  rcases createObject_ways bld longName s with ⟨-, ⟨j, hj, hfound, -⟩ | hall⟩ |
    ⟨k, hk, hfirst', -, ⟨-, j, hlow, hhigh, hfound⟩ | ⟨heq, -⟩⟩
  · exact absurd (h.has hj hfound) (hnowhere ⟨j, hj⟩)
  · exact absurd hfirst.1 (hall 0 (by norm_num))
  · obtain rfl := hfirst.unique hfirst'
    have hhas : Directory.Has (filesB.assign 0 (some [])) ⟨j, hhigh⟩ longName :=
      hclaim.has hhigh hfound
    rw [Directory.has_assign, if_neg fun heq ↦ by
      have hval : j = 0 := congrArg Fin.val heq
      omega] at hhas
    exact absurd hhas (hnowhere ⟨j, hhigh⟩)
  · rw [heq, id_named hk]
    omega

/-- The creation takes the handle of the second file from it. -/
theorem example_long_name_first : ∃ bld s, Represents bld s filesB ∧
    (createObject bld longName s).2.field 1 .id ≠ (3 : ℕ) := by
  obtain ⟨rs, ⟨bld, s⟩, d, -, hconforms, hshows⟩ := (simulates_spec ⟨0, 0, 0⟩ ⟨0, 0, 0⟩).replies
    promised_unlink (shows_start .cached rfl : Shows (.start .cached fun _ ↦ Block.zero) .start)
  have hrep : Represents bld s filesB := conforms_unlink hconforms ▸ hshows.files
  obtain ⟨hfirst, hcreated⟩ := created_longName hrep
  have hiff := example_long_name_iff bld longName s 0 (by norm_num) hfirst
    (hrep.live 1 [] (by decide)).id hcreated
  refine ⟨bld, s, hrep, fun hid ↦ ?_⟩
  exact absurd (hiff.mp hid) (by decide)

end OsAssignments.Example
