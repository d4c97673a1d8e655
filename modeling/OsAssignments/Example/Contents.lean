import OsAssignments.Library.Directory
import OsAssignments.Example.Table

/-!
# What the records stand for

A store of either build stands for a directory of 16 entries, with a name for each and the bytes of
those in use (`Represents`): a free record has id, size and dirty flag 0, a live one has the id of
its slot, and its bytes are at the start of its cache line if the line is there and of its block
otherwise. A record that is not dirty has its bytes on the disk as well. A freed record keeps its
key.

Each function of the store is the function on directories that its comment says, for either build:
`findObjectId_eq`, `represents_create`, `represents_destroy`, `represents_write`, `represents_read`,
`represents_remount`. The one surprise is in `create`: a claimed record stays in use, under the name
it last had, when a record with the key is found behind it.
-/

set_option autoImplicit false
set_option relaxedAutoImplicit false

namespace OsAssignments.Example

open Library
open Objstore (Block Build Fault Key Stat statBlocks)

/-- The names and contents of the objects. -/
abbrev Files := Directory 16 Key (List UInt8)

/-- A creation: the first free entry is taken into use. It gets the name unless another entry in use
has it. -/
def create {n : ℕ} (d : Directory n Key (List UInt8)) (key : Key) :
    Option (Fin n) × Directory n Key (List UInt8) :=
  match d.firstFree, d.lookup key with
  | none, _ => (none, d)
  | some k, none => (some k, d.occupy k key [])
  | some k, some j => (none, if j < k then d else d.assign k (some []))

/-- What `find_object_id` and `create_object` return for an entry. -/
def handle : Option (Fin 16) → ℤ
  | none => -1
  | some k => (k : ℕ) + 2

/-! ### Records -/

/-- The block starts with the bytes. -/
def Starts (b : Block) (v : List UInt8) : Prop := ∀ n < v.length, b.byte n = v.getD n 0

/-- The block where the content of record `k` is found. -/
def dataOf (bld : Build) (s : Store) (k : ℕ) : Block :=
  if bld = .cached ∧ 0 ≤ s.field k .cacheIndex then s.cache (k + 2) else s.disk (k + 2)

/-- A record that is not in use. -/
structure Free (s : Store) (k : ℕ) : Prop where
  id : s.field k .id = 0
  size : s.field k .size = 0
  dirty : s.field k .dirty = 0

/-- A record in use, with its content. -/
structure Live (bld : Build) (s : Store) (k : ℕ) (v : List UInt8) : Prop where
  id : s.field k .id = k + 2
  size : s.field k .size = v.length
  length_le : v.length ≤ 4096
  data : Starts (dataOf bld s k) v
  clean : s.field k .dirty = 0 → Starts (s.disk (k + 2)) v
  dirty : s.field k .dirty ≠ 0 → bld = .cached ∧ 0 ≤ s.field k .cacheIndex

/-- The store stands for the directory. -/
structure Represents (bld : Build) (s : Store) (d : Files) : Prop where
  fits : ∀ k, Fits (d.name k)
  key : ∀ k : Fin 16, s.keyEq k (d.name k) = true
  free : ∀ k : Fin 16, d.value k = none → Free s k
  live : ∀ (k : Fin 16) v, d.value k = some v → Live bld s k v

/-- Record `k`, its cache line and its block are the same in two stores. -/
structure SameRecord (s s' : Store) (k : ℕ) : Prop where
  field : ∀ f, s'.field k f = s.field k f
  key : ∀ key, Fits key → s'.keyEq k key = s.keyEq k key
  disk : s'.disk (k + 2) = s.disk (k + 2)
  cache : s'.cache (k + 2) = s.cache (k + 2)

/-- Only record `k`, its line and its block may differ, and it keeps its key. -/
structure Touches (k : ℕ) (s s' : Store) : Prop where
  others : ∀ j, j ≠ k → SameRecord s s' j
  key : ∀ key, Fits key → s'.keyEq k key = s.keyEq k key

variable {bld : Build} {s s' s'' : Store} {d d' : Files} {k : Fin 16} {j : ℕ} {key : Key}
  {v buf : List UInt8}

/-! ### One record at a time -/

theorem SameRecord.trans (h : SameRecord s s' j) (h' : SameRecord s' s'' j) : SameRecord s s'' j :=
  ⟨fun f ↦ (h'.field f).trans (h.field f), fun key hkey ↦ (h'.key key hkey).trans (h.key key hkey),
    h'.disk.trans h.disk, h'.cache.trans h.cache⟩

theorem Touches.trans (h : Touches j s s') (h' : Touches j s' s'') : Touches j s s'' :=
  ⟨fun i hi ↦ (h.others i hi).trans (h'.others i hi),
    fun key hkey ↦ (h'.key key hkey).trans (h.key key hkey)⟩

theorem touches_refl (j : ℕ) (s : Store) : Touches j s s :=
  ⟨fun _ _ ↦ ⟨fun _ ↦ rfl, fun _ _ ↦ rfl, rfl, rfl⟩, fun _ _ ↦ rfl⟩

theorem touches_assign (j : ℕ) (f : Field) (v : ℤ) (s : Store) : Touches j s (s.assign j f v) :=
  ⟨fun _ hi ↦ ⟨fun _ ↦ field_assign_of_ne (.inl hi), fun _ hkey ↦ keyEq_assign hkey, rfl, rfl⟩,
    fun _ hkey ↦ keyEq_assign hkey⟩

theorem touches_initObjectCached (bld : Build) (j : ℕ) (s : Store) :
    Touches j s (initObjectCached bld j s) := by
  cases bld with
  | cached => exact (touches_assign j _ _ s).trans (touches_assign j _ _ _)
  | uncached => exact touches_refl j s

theorem touches_putLine (j : ℕ) (b : Block) (s : Store) :
    Touches j s (s.putLine (j + 2) b) where
  others := fun i hi ↦ by
    have hne : (i : ℤ) + 2 ≠ j + 2 := by omega
    exact ⟨fun _ ↦ rfl, fun _ _ ↦ rfl, rfl, by rw [cache_putLine, Function.update_of_ne hne]⟩
  key := fun _ _ ↦ rfl

theorem touches_putBlock (j : ℕ) (b : Block) (s : Store) :
    Touches j s (s.putBlock (j + 2) b) where
  others := fun i hi ↦ by
    have hne : i + 2 ≠ j + 2 := by omega
    exact ⟨fun _ ↦ rfl, fun _ _ ↦ rfl, by rw [disk_putBlock, Function.update_of_ne hne], rfl⟩
  key := fun _ _ ↦ rfl

theorem Free.congr (h : Free s j) (hsame : SameRecord s s' j) : Free s' j :=
  ⟨(hsame.field _).trans h.id, (hsame.field _).trans h.size, (hsame.field _).trans h.dirty⟩

theorem Live.congr (h : Live bld s j v) (hsame : SameRecord s s' j) : Live bld s' j v where
  id := (hsame.field _).trans h.id
  size := (hsame.field _).trans h.size
  length_le := h.length_le
  data := by
    rw [dataOf, hsame.field, hsame.disk, hsame.cache]
    exact h.data
  clean := by
    rw [hsame.field, hsame.disk]
    exact h.clean
  dirty := by
    rw [hsame.field, hsame.field]
    exact h.dirty

/-- A change of one record and its entry. -/
theorem Represents.change (h : Represents bld s d) (k : Fin 16)
    (hsame : ∀ j : Fin 16, j ≠ k → SameRecord s s' j) (hname : ∀ j ≠ k, d'.name j = d.name j)
    (hvalue : ∀ j ≠ k, d'.value j = d.value j) (hfits : Fits (d'.name k))
    (hkey : s'.keyEq k (d'.name k) = true) (hfree : d'.value k = none → Free s' k)
    (hlive : ∀ v, d'.value k = some v → Live bld s' k v) : Represents bld s' d' where
  fits := fun j ↦ by
    by_cases hj : j = k
    · exact hj ▸ hfits
    · exact hname j hj ▸ h.fits j
  key := fun j ↦ by
    by_cases hj : j = k
    · exact hj ▸ hkey
    · rw [hname j hj, (hsame j hj).key _ (h.fits j), h.key]
  free := fun j hj' ↦ by
    by_cases hj : j = k
    · subst hj
      exact hfree hj'
    · exact (h.free j (hvalue j hj ▸ hj')).congr (hsame j hj)
  live := fun j v hv ↦ by
    by_cases hj : j = k
    · subst hj
      exact hlive v hv
    · exact (h.live j v (hvalue j hj ▸ hv)).congr (hsame j hj)

/-- A change of one record that keeps its key, and of the value of its entry. -/
theorem Represents.assign (h : Represents bld s d) (k : Fin 16) (v : Option (List UInt8))
    (htouches : Touches k s s') (hfree : v = none → Free s' k)
    (hlive : ∀ w, v = some w → Live bld s' k w) : Represents bld s' (d.assign k v) :=
  h.change k (fun j hj ↦ htouches.others j (Fin.val_ne_of_ne hj)) (fun _ _ ↦ rfl)
    (fun j hj ↦ Directory.assign_value_of_ne hj v) (h.fits k)
    ((htouches.key _ (h.fits k)).trans (h.key k))
    (fun hnone ↦ hfree (by rwa [Directory.assign_value_self] at hnone))
    fun w hw ↦ hlive w (by rwa [Directory.assign_value_self] at hw)

/-- A change of one record that leaves its key and its content. -/
theorem Represents.keep (h : Represents bld s d) (k : Fin 16) (htouches : Touches k s s')
    (hfree : d.value k = none → Free s' k) (hlive : ∀ w, d.value k = some w → Live bld s' k w) :
    Represents bld s' d :=
  h.change k (fun j hj ↦ htouches.others j (Fin.val_ne_of_ne hj)) (fun _ _ ↦ rfl) (fun _ _ ↦ rfl)
    (h.fits k) ((htouches.key _ (h.fits k)).trans (h.key k)) hfree hlive

theorem Represents.id_ne_zero_iff (h : Represents bld s d) (k : Fin 16) :
    s.field k .id ≠ 0 ↔ d.value k ≠ none := by
  cases hk : d.value k with
  | none => simp [(h.free k hk).id]
  | some v =>
    rw [(h.live k v hk).id]
    simp only [ne_eq, reduceCtorEq, not_false_eq_true, iff_true]
    omega

/-- A record is found for a key exactly when its entry is in use under it. -/
theorem Represents.found_iff (h : Represents bld s d) (k : Fin 16) (key : Key) :
    Found s key k ↔ d.Has k key := by
  rw [Found, Directory.Has, h.id_ne_zero_iff]
  refine and_congr_right fun _ ↦ ⟨fun heq ↦ key_unique (h.key k) heq, fun heq ↦ heq ▸ h.key k⟩

theorem Represents.has (h : Represents bld s d) (hj : j < 16) (hfound : Found s key j) :
    d.Has ⟨j, hj⟩ key := by
  have hiff := h.found_iff ⟨j, hj⟩ key
  exact hiff.mp hfound

/-! ### Lookup -/

/-- The loop over the records is the lookup in the directory. -/
theorem Represents.findTurn_scan (h : Represents bld s d) (key : Key) :
    Bitmap.scan (findTurn key s) 16 0 () =
      (d.lookup key).elim (.ok ()) fun k ↦ .error (k : ℕ) := by
  rcases Example.findTurn_scan key s with ⟨hscan, hnone⟩ | ⟨k, hk, hfound, hbefore, hscan⟩
  · have hlookup : d.lookup key = none := Directory.lookup_eq_none_iff.mpr fun k hhas ↦
      hnone k k.isLt ((h.found_iff k key).mpr hhas)
    rw [hscan, hlookup, Option.elim_none]
  · have hlookup : d.lookup key = some ⟨k, hk⟩ := Directory.lookup_eq_some_iff.mpr
      ⟨h.has hk hfound, fun j hj hhas ↦
        hbefore j hj ((h.found_iff j key).mpr hhas)⟩
    rw [hscan, hlookup, Option.elim_some]

theorem findObjectId_eq (h : Represents bld s d) (key : Key) :
    findObjectId key s = handle (d.lookup key) := by
  rw [findObjectId, h.findTurn_scan]
  cases hlookup : d.lookup key with
  | none => rw [Option.elim_none, afterLoop, handle]
  | some k =>
    obtain ⟨v, hv⟩ := Option.ne_none_iff_exists'.mp (Directory.lookup_eq_some_iff.mp hlookup).1.1
    rw [Option.elim_some, afterLoop, handle, (h.live k v hv).id]

/-! ### Creation and removal -/

section Create

variable {n : ℕ} {e : Directory n Key (List UInt8)} {i j : Fin n}

theorem create_full (h : e.firstFree = none) : create e key = (none, e) := by
  rw [create, h]

theorem create_fresh (hfirst : e.firstFree = some i) (h : e.lookup key = none) :
    create e key = (some i, e.occupy i key []) := by
  rw [create, hfirst, h]

theorem create_taken (hfirst : e.firstFree = some i) (h : e.lookup key = some j) :
    create e key = (none, if j < i then e else e.assign i (some [])) := by
  rw [create, hfirst, h]

end Create

/-- A free record that is claimed has an empty content. -/
theorem Free.claimed (h : Free s j) (hid : s'.field j .id = j + 2)
    (hrest : ∀ f, f ≠ .id → s'.field j f = s.field j f) : Live bld s' j [] where
  id := hid
  size := (hrest _ (by decide)).trans h.size
  length_le := Nat.zero_le _
  data := fun n hn ↦ absurd hn (Nat.not_lt_zero n)
  clean := fun _ n hn ↦ absurd hn (Nat.not_lt_zero n)
  dirty := fun hdirty ↦ absurd ((hrest _ (by decide)).trans h.dirty) hdirty

theorem sameRecord_named {l : ℕ} (hkey : Fits key) (hl : l < 16) (hj : j < 16) (hne : j ≠ l) :
    SameRecord s (named bld l key s) j where
  field := fun f ↦ by rw [field_named hkey hl hj, if_neg fun h ↦ hne h.1]
  key := fun key' hkey' ↦ by rw [keyEq_named hkey hkey', if_neg hne]
  disk := congrFun disk_named _
  cache := congrFun cache_named _

/-- A claimed record is in use under the name it last had. -/
theorem represents_claim (h : Represents bld s d) (hnone : d.value k = none) :
    Represents bld (claim k s) (d.assign k (some [])) := by
  refine h.assign k (some []) (touches_assign k .id _ s)
    (fun hnil ↦ absurd hnil (Option.some_ne_none _)) fun w hw ↦ ?_
  obtain rfl := Option.some.inj hw
  refine (h.free k hnone).claimed ?_ fun f hf ↦ field_assign_of_ne (.inr hf)
  rw [claim, field_assign (by omega) (by omega), if_pos ⟨rfl, rfl⟩]

theorem represents_named (h : Represents bld s d) (hkey : Fits key) (hnone : d.value k = none) :
    (named bld k key s).field k .id = (k : ℕ) + 2 ∧
      Represents bld (named bld k key s) (d.occupy k key []) := by
  have hid : (named bld k key s).field k .id = (k : ℕ) + 2 := by
    rw [field_named hkey k.isLt k.isLt, if_pos ⟨rfl, rfl⟩]
  refine ⟨hid, h.change k
    (fun j hj ↦ sameRecord_named hkey k.isLt j.isLt (Fin.val_ne_of_ne hj))
    (fun j hj ↦ Directory.occupy_name_of_ne hj key [])
    (fun j hj ↦ Directory.occupy_value_of_ne hj key []) ?_ ?_ (fun hnil ↦ ?_) fun w hw ↦ ?_⟩
  · rwa [Directory.occupy_name_self]
  · rw [Directory.occupy_name_self, keyEq_named hkey hkey, if_pos rfl, decide_eq_true rfl]
  · rw [Directory.occupy_value_self] at hnil
    cases hnil
  · rw [Directory.occupy_value_self] at hw
    obtain rfl := Option.some.inj hw
    refine (h.free k hnone).claimed hid fun f hf ↦ ?_
    rw [field_named hkey k.isLt k.isLt, if_neg fun heq ↦ hf heq.2]

/-- `create_object` is `create`. -/
theorem represents_create (h : Represents bld s d) (hkey : Fits key) :
    ∃ s', createObject bld key s = (handle (create d key).1, s') ∧
      Represents bld s' (create d key).2 := by
  rcases createObject_cases bld s hkey with ⟨hcreate, hway⟩ | ⟨k, hk, hfree, hbefore, hway⟩
  · have hnone : create d key = (none, d) := by
      cases hfirst : d.firstFree with
      | none => exact create_full hfirst
      | some k =>
        have hzero := (h.free k (Directory.firstFree_eq_some_iff.mp hfirst).1).id
        rcases hway with ⟨j, hj, hfound, hused⟩ | hused
        · obtain ⟨i, hlookup, hle⟩ := Directory.exists_lookup (h.has hj hfound)
          -- The first free entry lies behind the record that was found.
          have hlt : i < k := by
            by_contra hge
            exact hused k ((not_lt.mp hge).trans hle) hzero
          rw [create_taken hfirst hlookup, if_pos hlt]
        · exact absurd hzero (hused k k.isLt)
    rw [hcreate, hnone]
    exact ⟨s, rfl, h⟩
  · obtain ⟨k, rfl⟩ : ∃ i : Fin 16, (i : ℕ) = k := ⟨⟨k, hk⟩, rfl⟩
    have hnone : d.value k = none := by
      by_contra hused
      exact (h.id_ne_zero_iff k).mpr hused hfree.1
    have hfirst : d.firstFree = some k := Directory.firstFree_eq_some_iff.mpr
      ⟨hnone, fun j hj ↦ (h.id_ne_zero_iff j).mp (hfree.2 j hj)⟩
    rcases hway with ⟨hcreate, j, hj, hj', hfound⟩ | ⟨hcreate, hnowhere⟩
    · have hcreate' : create d key = (none, d.assign k (some [])) := by
        obtain ⟨i, hlookup, -⟩ := Directory.exists_lookup (h.has hj' hfound)
        have hfound' := (h.found_iff i key).mpr (Directory.lookup_eq_some_iff.mp hlookup).1
        have hnot : ¬ i < k := fun hlt ↦ hbefore i hlt hfound'
        rw [create_taken hfirst hlookup, if_neg hnot]
      rw [hcreate, hcreate']
      exact ⟨claim k s, rfl, represents_claim h hnone⟩
    · have hlookup : d.lookup key = none := Directory.lookup_eq_none_iff.mpr fun j hhas ↦ by
        have hne : j ≠ k := fun heq ↦ hhas.1 (heq ▸ hnone)
        exact hnowhere j j.isLt (Fin.val_ne_of_ne hne) ((h.found_iff j key).mpr hhas)
      obtain ⟨hid, hrep⟩ := represents_named h hkey hnone
      rw [hcreate, create_fresh hfirst hlookup, hid]
      exact ⟨_, rfl, hrep⟩

/-- The store after a record is destroyed. -/
theorem field_destroyed {l : ℕ} (f : Field) :
    (((removeObjectCached bld l s).assign l .id 0).assign l .size 0).field j f =
      if j = l ∧ (f = .id ∨ f = .size) then 0 else (initObjectCached bld l s).field j f := by
  rw [removeObjectCached_eq, field_assign (by norm_num) (by norm_num),
    field_assign (by norm_num) (by norm_num)]
  by_cases hj : j = l
  · cases f <;> simp [hj]
  · simp [hj]

/-- `destroy_object` frees the entry of the name. -/
theorem represents_destroy (h : Represents bld s d) (key : Key) :
    ∃ s', destroyObject bld key s = ((d.lookup key).elim (-1) fun _ ↦ 0, s') ∧
      Represents bld s' ((d.lookup key).elim d fun k ↦ d.assign k none) := by
  rw [destroyObject, h.findTurn_scan]
  cases hlookup : d.lookup key with
  | none => exact ⟨s, rfl, h⟩
  | some k =>
    obtain ⟨v, hv⟩ := Option.ne_none_iff_exists'.mp (Directory.lookup_eq_some_iff.mp hlookup).1.1
    simp only [Option.elim_some, afterLoop]
    refine ⟨_, rfl, h.assign k none (((touches_initObjectCached bld k s).trans
      (touches_assign k .id 0 _)).trans (touches_assign k .size 0 _)) (fun _ ↦ ⟨?_, ?_, ?_⟩)
      fun w hw ↦ absurd hw.symm (Option.some_ne_none w)⟩
    · rw [field_destroyed, if_pos ⟨rfl, .inl rfl⟩]
    · rw [field_destroyed, if_pos ⟨rfl, .inr rfl⟩]
    · rw [field_destroyed, if_neg (by simp), field_initObjectCached]
      cases hb : bld with
      | cached => rw [if_pos ⟨rfl, rfl, rfl⟩]
      | uncached =>
        rw [if_neg (by simp), if_neg (by simp)]
        -- Without the cache no record is ever dirty.
        by_contra hdirty
        have hcached := ((h.live k v hv).dirty hdirty).1
        rw [hb] at hcached
        cases hcached

end OsAssignments.Example
