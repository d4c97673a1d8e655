import OsAssignments.Objfs.Calls
import OsAssignments.Objstore.Leaks

/-!
# The files in the store

`Represents` relates a store to the files it holds. Entry `k` of the directory is in use exactly
when slot `k` is, and then the record has its name and its size, and the contents of its blocks are
those of the writes it has received. The clear bits of `data_bitmap` are the blocks that were not
taken.

One lemma for each call says what it returns and which files it leaves; `simulates_spec` puts them
together.
-/

set_option autoImplicit false
set_option relaxedAutoImplicit false

namespace OsAssignments.Objfs

open Library Objstore Library.Ownership

/-- The number of clear bits of `data_bitmap`. -/
def freeBlocks (s : Store) : ℕ := (Bitmap.clearBits s.dataBitmap 8388608).card

/-- The record in slot `k` is that of a file. -/
structure Stores (s : Store) (k : ℕ) (name : Key) (v : File) (writes : List (ℕ × List UInt8)) :
    Prop where
  key : keyEq s.a k name = true
  short : name.Short
  blocks : v.blocks = fileOf writes
  size : s.field k .size = v.size
  unwritten : v.size = 0 → ∀ f : Field, f.pointer = true → s.field k f = 0

/-- The store holds the files. -/
structure Represents (bld : Build) (s : Store) (d : View) (writes : ℕ → List (ℕ × List UInt8)) :
    Prop where
  order : InOrder bld ⟨s, writes⟩
  live : ∀ k : Fin 1015808, d.files.value k ≠ none ↔ Live s k
  file : ∀ k v, d.files.value k = some v → Stores s k (d.files.name k) v (writes k)
  small : ∀ k v, d.files.value k = some v → v.size ≤ 4096 * d.used
  space : freeBlocks s + d.used = 8388608

variable {bld bld' : Build} {s s' : Store} {d : View} {writes : ℕ → List (ℕ × List UInt8)}
  {k : Fin 1015808} {j : ℕ} {v : File} {name key : Key}

/-! ### Frames -/

theorem freeBlocks_congr (h : ∀ i < 8388608, s'.dataBit i = s.dataBit i) :
    freeBlocks s' = freeBlocks s := by
  refine congrArg Finset.card (Finset.ext fun i ↦ ?_)
  simp only [Bitmap.mem_clearBits]
  exact and_congr_right fun hi ↦ by rw [← Store.dataBit, h i hi, Store.dataBit]

/-- A change that keeps the name, the size and the pointers of a record keeps its file. -/
theorem Stores.frame {ws : List (ℕ × List UInt8)} (h : Stores s j name v ws)
    (hkey : keyEq s'.a j name = keyEq s.a j name) (hfield : ∀ f, s'.field j f = s.field j f) :
    Stores s' j name v ws where
  key := hkey.trans h.key
  short := h.short
  blocks := h.blocks
  size := (hfield .size).trans h.size
  unwritten := fun hzero f hf ↦ (hfield f).trans (h.unwritten hzero f hf)

/-- A change that keeps the slots, the contents and the bits keeps the files. -/
theorem Represents.frame (h : Represents bld s d writes) (hslots : SameSlots s' s)
    (horder : InOrder bld' ⟨s', writes⟩) (hbits : ∀ i < 8388608, s'.dataBit i = s.dataBit i) :
    Represents bld' s' d writes where
  order := horder
  live := fun k ↦ (h.live k).trans (live_frame hslots k).symm
  file := fun k v hv ↦ (h.file k v hv).frame (keyEq_frame hslots k.isLt (h.file k v hv).short)
    (field_frame hslots k.isLt)
  small := h.small
  space := by rw [freeBlocks_congr hbits, h.space]

/-- A change of the locks, or of the pointer that lookups leave, keeps the files. -/
theorem Represents.keep (h : Represents bld s d writes) (hinode : s'.inodeBitmap = s.inodeBitmap)
    (ha : s'.a = s.a) (hdata : s'.dataBitmap = s.dataBitmap) (hdev : s'.dev = s.dev)
    (hdirty : s'.dirtyArray = s.dirtyArray) : Represents bld s' d writes := by
  have hslots : SameSlots s' s := sameSlots_of_eq hinode ha
  have hbits : ∀ i < 8388608, s'.dataBit i = s.dataBit i := fun i _ ↦ by
    rw [Store.dataBit, Store.dataBit, hdata]
  refine h.frame hslots (h.order.frame hslots (fun q b _ ↦ by rw [hdev]) hbits ?_) hbits
  refine h.order.durable.calls [] (by simp) hdev fun hdisk n hn hflag ↦ ?_
  rw [hdirty] at hflag
  rw [hdev, ha]
  exact h.order.durable.faithful n hn hflag

/-! ### Entries and slots -/

namespace Represents

variable (h : Represents bld s d writes)

include h

theorem tidy : Tidy s := h.order.consistent.tidy

theorem id (hk : d.files.value k ≠ none) : s.field k .id = handle k :=
  h.tidy.id_of_live ((h.live k).mp hk)

/-- The name of an entry is the only one that its record has. -/
theorem keyEq_iff (hk : d.files.value k ≠ none) (key : Key) :
    keyEq s.a k key = true ↔ d.files.name k = key := by
  obtain ⟨v, hv⟩ := Option.ne_none_iff_exists'.mp hk
  have hname := (h.file k v hv).key
  constructor
  · intro heq
    have hchars := Bytes.eq_of_strcmpEq (d.files.name k).noNul key.noNul hname heq
    cases hn : d.files.name k
    cases key
    rw [hn] at hchars
    subst hchars
    rfl
  · rintro rfl
    exact hname

/-- The slots with a name are the entries with it. -/
theorem has_iff (k : Fin 1015808) (key : Key) :
    d.files.Has k key ↔ Live s k ∧ keyEq s.a k key = true := by
  rw [Directory.Has, ← h.live k]
  exact and_congr_right fun hk ↦ (h.keyEq_iff hk key).symm

theorem fresh (hfresh : ∀ k, ¬ d.files.Has k key) : ∀ j, Live s j → keyEq s.a j key = false := by
  intro j hlive
  by_contra hne
  exact hfresh ⟨j, hlive.slot⟩ ((h.has_iff ⟨j, hlive.slot⟩ key).mpr
    ⟨hlive, Bool.eq_true_of_not_eq_false hne⟩)

/-- A lookup finds the first entry with the name. -/
theorem lookup_cases (key : Key) :
    (d.files.lookup key = none ∧ findObjectId key s = (-1, s)) ∨
    ∃ k : Fin 1015808, d.files.lookup key = some k ∧ d.files.Has k key ∧
      findObjectId key s = (handle k, { s with backup := some (k : ℕ) }) := by
  rcases findObjectId_cases key s with ⟨hrun, hnone⟩ | ⟨j, hfinds, hrun⟩
  · exact .inl ⟨Directory.lookup_eq_none_iff.mpr fun k hk ↦ hnone k ((h.has_iff k key).mp hk), hrun⟩
  · have hhas : d.files.Has ⟨j, hfinds.live.slot⟩ key :=
      (h.has_iff _ key).mpr ⟨hfinds.live, hfinds.found⟩
    refine .inr
      ⟨⟨j, hfinds.live.slot⟩, Directory.lookup_eq_some_iff.mpr ⟨hhas, fun i hi hother ↦ ?_⟩,
      hhas, ?_⟩
    · exact hfinds.least i hi ((h.has_iff i key).mp hother)
    · rw [hrun, h.tidy.id_of_live hfinds.live]
      rfl

end Represents

/-- A handle is an `int`. -/
theorem bmod_handle (k : Fin 1015808) : Int.bmod (handle k) (2 ^ 32) = handle k := by
  have hk := k.isLt
  exact wrap_of_range (by rw [handle]; omega) (by rw [handle]; omega)

theorem handle_pos (k : Fin 1015808) : ¬ handle k < 0 := by
  rw [handle]
  omega

/-! ### Space -/

/-- Taking bits that were clear takes as many free blocks. -/
theorem freeBlocks_taken {a : ℕ} {bits : List ℕ} (htakes : Takes s a bits)
    (hbits : ∀ i, s'.dataBit i = (decide (i ∈ bits) || s.dataBit i)) :
    freeBlocks s' + blocksNeeded a = freeBlocks s := by
  have hset (i : ℕ) : i ∈ Bitmap.clearBits s'.dataBitmap 8388608 ↔
      i ∉ bits ∧ i ∈ Bitmap.clearBits s.dataBitmap 8388608 := by
    have hbit := hbits i
    rw [Store.dataBit, Store.dataBit] at hbit
    rw [Bitmap.mem_clearBits, Bitmap.mem_clearBits, hbit, Bool.or_eq_false_iff,
      decide_eq_false_iff_not]
    exact and_left_comm
  obtain ⟨i, rfl, hi, hnot⟩ | ⟨i, i', rfl, hi, hi', hfirst⟩ := htakes.cases
  · have hneeded : blocksNeeded a = 1 := if_neg fun hfirst ↦ by
      obtain ⟨r, hr⟩ := first_index_iff.mpr hfirst
      exact hnot r hr
    have hmem : i ∈ Bitmap.clearBits s.dataBitmap 8388608 :=
      Bitmap.mem_clearBits.mpr ⟨hi.lt, hi.clear⟩
    have herase : Bitmap.clearBits s'.dataBitmap 8388608 =
        (Bitmap.clearBits s.dataBitmap 8388608).erase i := Finset.ext fun x ↦ by
      rw [hset, Finset.mem_erase, List.mem_singleton]
    rw [freeBlocks, herase, hneeded]
    exact Finset.card_erase_add_one hmem
  · have hneeded : blocksNeeded a = 2 := if_pos (first_index_iff.mp hfirst)
    have hmem : i ∈ Bitmap.clearBits s.dataBitmap 8388608 :=
      Bitmap.mem_clearBits.mpr ⟨hi.lt, hi.clear⟩
    have hmem' : i' ∈ (Bitmap.clearBits s.dataBitmap 8388608).erase i := by
      rw [← clearBits_allocated]
      exact Bitmap.mem_clearBits.mpr ⟨hi'.lt, hi'.clear⟩
    have herase : Bitmap.clearBits s'.dataBitmap 8388608 =
        ((Bitmap.clearBits s.dataBitmap 8388608).erase i).erase i' := Finset.ext fun x ↦ by
      rw [hset, Finset.mem_erase, Finset.mem_erase, List.mem_pair, not_or, and_assoc]
      exact and_left_comm
    have hcard := Finset.card_erase_add_one hmem
    have hcard' := Finset.card_erase_add_one hmem'
    rw [freeBlocks, freeBlocks, herase, hneeded]
    omega

/-! ### Lookups -/

theorem answered_getattr (defFstat defDirstat : Stat) (h : Represents bld s d writes) (name : Key) :
    ∃ v buf s', objfsGetattr defFstat defDirstat name s = ((v, buf), s') ∧
      Represents bld s' d writes ∧ Reply.attr v buf =
        if name.chars = [] then .attr 0 { defDirstat with ino := 1 }
        else statReply defFstat d.files (d.files.lookup name) := by
  rw [objfsGetattr]
  split_ifs with hroot
  · exact ⟨_, _, s, rfl, h, rfl⟩
  · rcases h.lookup_cases name with ⟨hlookup, hrun⟩ | ⟨k, hlookup, hhas, hrun⟩
    · rw [hrun, hlookup]
      exact ⟨-2, defFstat, s, rfl, h, rfl⟩
    · obtain ⟨v, hv⟩ := Option.ne_none_iff_exists'.mp hhas.1
      have hrange : ¬(handle k < 2 ∨ handle k % 2 ^ 64 ≠ handle k) := by
        have hlt := k.isLt
        rw [handle]
        omega
      have hfill :
          fillupSizeDetails { defFstat with ino := handle k } { s with backup := some (k : ℕ) } =
          (0, { defFstat with ino := handle k, size := v.size, blocks := statBlocks v.size }) := by
        have hsize : backupField { s with backup := some (k : ℕ) } .size = v.size :=
          (h.file k v hv).size
        have hid : backupField { s with backup := some (k : ℕ) } .id = handle k := h.id hhas.1
        rw [fillupSizeDetails, hsize, hid, if_neg hrange]
      rw [hrun]
      dsimp only
      rw [bmod_handle, if_neg (handle_pos k), hfill, hlookup, statReply, Option.elim_some, hv]
      exact ⟨0, _, _, rfl, h.keep rfl rfl rfl rfl rfl, rfl⟩

theorem answered_open (h : Represents bld s d writes) (name : Key) :
    ∃ v fh s', objfsOpen name s = ((v, fh), s') ∧ Represents bld s' d writes ∧
      Reply.handle v fh = handleReply (-2) (d.files.lookup name) := by
  rcases h.lookup_cases name with ⟨hlookup, hrun⟩ | ⟨k, hlookup, -, hrun⟩
  · rw [objfsOpen, hrun, hlookup]
    exact ⟨-2, none, s, rfl, h, rfl⟩
  · rw [objfsOpen, hrun, hlookup]
    dsimp only
    rw [bmod_handle, if_neg (handle_pos k)]
    exact ⟨0, some (handle k), _, rfl, h.keep rfl rfl rfl rfl rfl, rfl⟩

/-! ### Creation, removal and renaming -/

/-- `create_object` with a new short name takes the first free entry. -/
theorem represents_create (h : Represents bld s d writes) (hname : name.Short)
    (hnew : ∀ k, ¬ d.files.Has k name) :
    ∃ s', createObject name s = (d.files.firstFree.elim (-1) handle, s') ∧
      Represents bld s'
        ⟨d.files.firstFree.elim d.files fun k ↦ d.files.occupy k name .empty, d.used⟩
        writes := by
  have horder := h.order.create ⟨hname, h.fresh hnew⟩
  rcases createObject_cases s hname with ⟨hfull, hrun⟩ | ⟨j, hj, hclear, hleast, s', hrun, hc⟩
  · have hfree : d.files.firstFree = none := Directory.firstFree_eq_none_iff.mpr fun k ↦
      (h.live k).mpr ((h.tidy.live_iff k.isLt).mpr (hfull k k.isLt))
    rw [hfree]
    exact ⟨{ s with iLock := false }, hrun, h.keep rfl rfl rfl rfl rfl⟩
  · rw [hrun] at horder
    have hnone : d.files.value ⟨j, hj⟩ = none := by
      by_contra hne
      have hbit := ((h.live ⟨j, hj⟩).mp hne).bit
      rw [hclear] at hbit
      exact Bool.false_ne_true hbit
    have hfree : d.files.firstFree = some ⟨j, hj⟩ := Directory.firstFree_eq_some_iff.mpr
      ⟨hnone, fun k hk ↦ (h.live k).mpr ((h.tidy.live_iff k.isLt).mpr (hleast k hk))⟩
    generalize hk : (⟨j, hj⟩ : Fin 1015808) = k at hnone hfree
    obtain rfl : j = k := congrArg Fin.val hk
    rw [hfree]
    refine ⟨s', hrun, ⟨horder, fun k' ↦ ?_, fun k' v hv ↦ ?_, fun k' v hv ↦ ?_, ?_⟩⟩
    · rw [Option.elim_some, hc.live hj, ← h.live k', ← Fin.ext_iff]
      by_cases hkk : k' = k
      · subst hkk
        simp
      · rw [Directory.occupy_value_of_ne hkk, or_iff_left hkk]
    · rw [Option.elim_some] at hv ⊢
      by_cases hkk : k' = k
      · subst hkk
        rw [Directory.occupy_value_self, Option.some.injEq] at hv
        subst hv
        rw [Directory.occupy_name_self]
        have hdead : ¬ Live s k' := fun hlive ↦ (h.live k').mpr hlive hnone
        refine ⟨?_, hname, ?_, ?_, fun _ f hf ↦ ?_⟩
        · rw [hc.key _ _ hname, if_pos rfl]
          exact decide_eq_true rfl
        · have hnil : writes k' = [] := h.order.unborn k' hdead
          rw [hnil]
          rfl
        · rw [hc.field, if_neg (by simp), h.tidy.clear k' hj hclear .size rfl]
          rfl
        · have hid : f ≠ .id := by
            rintro rfl
            cases hf
          rw [hc.field, if_neg fun hor ↦ hid hor.2]
          exact h.tidy.clear k' hj hclear f (by cases f <;> first | rfl | cases hf)
      · rw [Directory.occupy_value_of_ne hkk] at hv
        rw [Directory.occupy_name_of_ne hkk]
        have hval : (k' : ℕ) ≠ k := fun heq ↦ hkk (Fin.ext heq)
        refine (h.file k' v hv).frame ?_ fun f ↦ ?_
        · rw [hc.key _ _ (h.file k' v hv).short, if_neg hval]
        · rw [hc.field, if_neg fun hor ↦ hval hor.1]
    · rw [Option.elim_some] at hv
      by_cases hkk : k' = k
      · subst hkk
        rw [Directory.occupy_value_self, Option.some.injEq] at hv
        subst hv
        exact Nat.zero_le _
      · rw [Directory.occupy_value_of_ne hkk] at hv
        exact h.small k' v hv
    · rw [freeBlocks, hc.dataBitmap]
      exact h.space

/-- An object that was never written owns no block. -/
theorem Represents.own_unwritten (h : Represents bld s d writes) (hv : d.files.value k = some v)
    (hzero : v.size = 0) : ownedBits bld s k = ∅ ∧ ∀ p, own bld s (k, p) = none := by
  have hlive : Live s k := (h.live k).mp (by rw [hv]; exact Option.some_ne_none v)
  have hempty : ownedBits bld s k = ∅ := (ownedBits_eq_empty_iff h.order.sound.toOwned hlive).mpr
    ((h.file k v hv).unwritten hzero)
  refine ⟨hempty, fun p ↦ ?_⟩
  by_contra hne
  obtain ⟨b, hb⟩ := Option.ne_none_iff_exists'.mp hne
  obtain ⟨i, -, rfl, -⟩ := h.order.sound.bits _ _ hb
  have hmem : i ∈ ownedBits bld s k := ⟨p, hb⟩
  rw [hempty] at hmem
  exact hmem

/-- `destroy_object` removes a file that was never written. -/
theorem represents_unlink (h : Represents bld s d writes) (hlookup : d.files.lookup name = some k)
    (hv : d.files.value k = some v) (hzero : v.size = 0) :
    ∃ s' ws, destroyObject name s = .ok (0, s') ∧
      Represents bld s' ⟨d.files.assign k none, d.used⟩ ws := by
  obtain ⟨hlive, heq⟩ := (h.has_iff k name).mp (Directory.lookup_eq_some_iff.mp hlookup).1
  have hname : d.files.name k = name := (Directory.lookup_eq_some_iff.mp hlookup).1.2
  obtain ⟨hempty, hnone⟩ := h.own_unwritten hv hzero
  have hcurrent : Current bld s k := fun r b hb ↦ by
    rw [hnone] at hb
    cases hb
  have hapart : Apart bld s k := fun p b hb ↦ by
    rw [hnone] at hb
    cases hb
  obtain ⟨s', hrun, hd⟩ := destroyObject_live h.order.consistent.keys
    (hname ▸ (h.file k v hv).short) hlive heq
  have hother : ∀ k' v', (d.files.assign k none).value k' = some v' →
      k' ≠ k ∧ d.files.value k' = some v' := fun k' v' hv' ↦ by
    have hkk : k' ≠ k := by
      rintro rfl
      rw [Directory.assign_value_self] at hv'
      cases hv'
    exact ⟨hkk, by rwa [Directory.assign_value_of_ne hkk] at hv'⟩
  refine ⟨s', _, hrun, ⟨h.order.destroy hd hlive hcurrent hapart, fun k' ↦ ?_, fun k' v' hv' ↦ ?_,
    fun k' v' hv' ↦ h.small k' v' (hother k' v' hv').2, ?_⟩⟩
  · rw [hd.live, ← h.live k']
    by_cases hkk : k' = k
    · subst hkk
      simp
    · exact (iff_of_eq (by rw [Directory.assign_value_of_ne hkk])).trans
        (and_iff_left fun heq ↦ hkk (Fin.ext heq)).symm
  · obtain ⟨hkk, hold⟩ := hother k' v' hv'
    have hval : (k' : ℕ) ≠ k := fun heq ↦ hkk (Fin.ext heq)
    have hstill : Live s' k' := (hd.live k').mpr
      ⟨(h.live k').mp (by rw [hold]; exact Option.some_ne_none v'), hval⟩
    rw [if_pos hstill]
    refine (h.file k' v' hold).frame ?_ fun f ↦ ?_
    · exact keyEq_of_bytes hd.bytes (h.file k' v' hold).short k'
    · rw [hd.field, if_neg fun hor ↦ hval hor.1]
  · exact (congrArg (· + d.used) (freeBlocks_congr fun i hi ↦
      dataBit_destroyed_empty hd h.order.sound hlive hcurrent hempty hi)).trans h.space

/-- A renaming keeps the contents. -/
theorem inOrder_renamed {newkey : Key} (h : InOrder bld ⟨s, writes⟩) (hkey : key.Short)
    (hnew : newkey.Short) (heq : keyEq s.a j key = true)
    (hfresh : ∀ i, Live s i → keyEq s.a i newkey = false) :
    InOrder bld ⟨renamed s j newkey (j / 46), writes⟩ := by
  have hfield := fun i f ↦ field_renamed s j (j / 46) i f hnew
  have hlive := fun i ↦ live_renamed s j (j / 46) i hnew
  have hown : own bld (renamed s j newkey (j / 46)) = own bld s := funext fun q ↦
    own_congr (hlive q.1) (hfield q.1 _) fun _ _ _ _ _ ↦ rfl
  have hcontent : content bld (renamed s j newkey (j / 46)) = content bld s := funext fun q ↦
    content_congr (congrFun hown q) fun _ _ ↦ rfl
  refine ⟨⟨⟨fun i hi hbit ↦ ?_, fun i hi hbit f hf ↦ ?_⟩, ?_⟩, ⟨⟨?_, ?_, ?_, ?_⟩, ?_⟩, ?_, ?_, ?_⟩
  · exact (hfield i .id).trans (h.consistent.tidy.id i hi hbit)
  · exact (hfield i f).trans (h.consistent.tidy.clear i hi hbit f hf)
  · refine h.consistent.keys.renamed hkey hnew heq fun i hi hother ↦ ?_
    rw [hfresh i hi] at hother
    cases hother
  · exact hown ▸ h.sound.exclusive
  · exact hown ▸ h.sound.region
  · intro i i' hi hi' hid
    refine h.sound.ids i i' ((hlive i).mp hi) ((hlive i').mp hi') ?_
    exact (hfield i .id).symm.trans (hid.trans (hfield i' .id))
  · exact h.sound.dev
  · exact hown ▸ h.sound.bits
  · exact h.durable.calls [] (by simp) rfl (faithful_of_change h.durable.faithful
      (fun n hn ↦ setKey_of_outside hnew (by omega)) rfl)
  · intro i hi a ha
    rw [hcontent]
    exact h.files i ((hlive i).mp hi) a ha
  · exact fun i hi ↦ h.unborn i fun hold ↦ hi ((hlive i).mpr hold)

/-- `rename_object`, with its counter at zero, to a new short name. -/
theorem represents_rename {newkey : Key} (h : Represents bld s d writes)
    (hlookup : d.files.lookup key = some k) (hnew : newkey.Short)
    (hfresh : ∀ k, ¬ d.files.Has k newkey) :
    ∃ s', renameObject key newkey 0 s = .ok (handle k, s') ∧
      Represents bld s' ⟨d.files.rename k newkey, d.used⟩ writes := by
  have hhas := (Directory.lookup_eq_some_iff.mp hlookup).1
  obtain ⟨hlive, heq⟩ := (h.has_iff k key).mp hhas
  obtain ⟨v, hv⟩ := Option.ne_none_iff_exists'.mp hhas.1
  have hkey : key.Short := hhas.2 ▸ (h.file k v hv).short
  have hrun := renameObject_zero h.tidy h.order.consistent.keys hkey hnew hlive heq (h.fresh hfresh)
  rw [h.id hhas.1] at hrun
  refine ⟨_, hrun, ⟨inOrder_renamed h.order hkey hnew heq (h.fresh hfresh), fun k' ↦ ?_,
    fun k' v' hv' ↦ ?_, h.small, h.space⟩⟩
  · exact (h.live k').trans (live_renamed s k _ k' hnew).symm
  · have hold := h.file k' v' hv'
    have hfield := fun f ↦ field_renamed s k (k / 46) k' f hnew
    by_cases hkk : k' = k
    · subst hkk
      rw [Directory.rename_name_self]
      refine ⟨?_, hnew, hold.blocks, (hfield .size).trans hold.size, fun hzero f hf ↦ ?_⟩
      · rw [keyEq_renamed s k' _ k' hnew hnew, if_pos rfl]
        exact decide_eq_true rfl
      · exact (hfield f).trans (hold.unwritten hzero f hf)
    · rw [Directory.rename_name_of_ne hkk]
      refine hold.frame ?_ hfield
      rw [keyEq_renamed s k _ k' hnew hold.short, if_neg fun heq ↦ hkk (Fin.ext heq)]

/-! ### Transfers -/

/-- What was written to a file has a block. -/
theorem Represents.own_written (h : Represents bld s d writes)
    (hv : d.files.value k = some v) {a : ℕ}
    (ha : a < 4100) (hwritten : v.blocks a ≠ none) : own bld s (k, .ofIndex a) ≠ none := by
  have hlive : Live s k := (h.live k).mp (by rw [hv]; exact Option.some_ne_none v)
  rw [own_ne_none_iff_content, h.order.files k hlive a ha, ← (h.file k v hv).blocks, ne_eq,
    Option.map_eq_none_iff]
  exact hwritten

/-- A range with its first block has its indirect block. -/
theorem Represents.reached (h : Represents bld s d writes) (hv : d.files.value k = some v) {a : ℕ}
    (hreaches : v.Reaches a) : Reached s k a := by
  intro r i hpos hi heq
  have hwritten := hreaches r i hpos hi heq
  have hr := r.isLt
  have hown := h.own_written hv (by omega) hwritten
  have hindex : Place.ofIndex (4 + 1024 * (r : ℕ)) = .entry r 0 :=
    Place.ofIndex_entry r.isLt (i := 0) (by norm_num)
  rw [hindex] at hown
  obtain ⟨b, hb⟩ := Option.ne_none_iff_exists'.mp hown
  exact (own_eq_some.mp (own_indirect_of_entry hb)).2.2

/-- `objstore_write` at a block index. -/
theorem represents_write (h : Represents bld s d writes) (hv : d.files.value k = some v) {a : ℕ}
    {buf : List UInt8} (ha : a < 4100) (hpos : 1 ≤ buf.length) (hlength : buf.length ≤ 4096)
    (hreaches : v.Reaches a) (hspace : d.used + blocksNeeded a ≤ 8388608) :
    ∃ s' ws, objstoreWrite bld (handle k) buf ((a * 4096 : ℕ) : ℤ) s = .ok (buf.length, s') ∧
      Represents bld s' ⟨d.files.assign k (some (v.write a buf)), d.used + blocksNeeded a⟩ ws := by
  have hne : d.files.value k ≠ none := by
    rw [hv]
    exact Option.some_ne_none v
  have hlive : Live s k := (h.live k).mp hne
  have hfree : blocksNeeded a ≤ freeBlocks s := by
    have hsum := h.space
    omega
  have hneeded : 1 ≤ blocksNeeded a := by
    unfold blocksNeeded
    split_ifs <;> omega
  obtain ⟨bits, htakes⟩ := exists_takes hfree
  obtain ⟨s', hrun, hst, horder⟩ :=
    h.order.write ⟨hlive, ha, hpos, hlength⟩ (h.reached hv hreaches) htakes
  obtain ⟨target, calls, hw, htarget, -⟩ := hst.written
  dsimp only at hrun
  rw [h.id hne] at hrun
  refine ⟨s', _, hrun, ⟨horder, fun k' ↦ ?_, fun k' v' hv' ↦ ?_, fun k' v' hv' ↦ ?_, ?_⟩⟩
  · rw [hw.live htarget, ← h.live k']
    by_cases hkk : k' = k
    · subst hkk
      rw [Directory.assign_value_self]
      exact iff_of_true (Option.some_ne_none _) hne
    · rw [Directory.assign_value_of_ne hkk]
  · have hold := h.file k v hv
    by_cases hkk : k' = k
    · subst hkk
      rw [Directory.assign_value_self, Option.some.injEq] at hv'
      subst hv'
      rw [Function.update_self]
      refine ⟨?_, hold.short, ?_, ?_, fun hzero ↦ ?_⟩
      · exact (keyEq_of_bytes hw.bytes hold.short k').trans hold.key
      · funext a'
        rw [File.write, fileOf, hold.blocks]
      · have hsmall := h.small k' v hv
        rw [hw.size, hold.size, File.write]
        exact (Int.bmod_eq_of_le (by norm_num; omega) (by norm_num; omega)).trans
          (by push_cast; rfl)
      · rw [File.write] at hzero
        dsimp only at hzero
        omega
    · rw [Directory.assign_value_of_ne hkk] at hv'
      have hval : (k' : ℕ) ≠ k := fun heq ↦ hkk (Fin.ext heq)
      rw [Function.update_of_ne hval]
      refine (h.file k' v' hv').frame ?_ fun f ↦ ?_
      · exact keyEq_of_bytes hw.bytes (h.file k' v' hv').short k'
      · exact hw.field k' f fun heq ↦ absurd heq hval
  · by_cases hkk : k' = k
    · subst hkk
      rw [Directory.assign_value_self, Option.some.injEq] at hv'
      subst hv'
      have hsmall := h.small k' v hv
      rw [File.write]
      dsimp only
      omega
    · rw [Directory.assign_value_of_ne hkk] at hv'
      have hsmall := h.small k' v' hv'
      dsimp only
      omega
  · have htaken := freeBlocks_taken htakes hw.dataBit
    have hsum := h.space
    dsimp only
    omega

/-- `objstore_read` of what was written. -/
theorem represents_read (h : Represents bld s d writes) (hv : d.files.value k = some v)
    {size offset : ℕ} (haligned : offset % 4096 = 0) (hrange : offset + size ≤ 4096 * 4100)
    (hcovers : v.Covers size offset) :
    ∃ s', objstoreRead bld (handle k) size (offset : ℤ) s = .ok ((size, v.read size offset), s') ∧
      Represents bld s' d writes := by
  have hne : d.files.value k ≠ none := by
    rw [hv]
    exact Option.some_ne_none v
  have hlive : Live s k := (h.live k).mp hne
  have hblocks := (h.file k v hv).blocks
  obtain ⟨t, hread⟩ := h.order.read_written hlive haligned hrange fun i hi ↦ by
    have hwritten := hcovers i hi
    rwa [hblocks] at hwritten
  have hallowed : (Objstore.Op.read k size offset).Allowed ⟨s, writes⟩ := ⟨hlive, haligned, hrange⟩
  obtain ⟨out, calls, hrun, -, horder⟩ := h.order.read hallowed
    (harmless_of_covered h.order hallowed fun i hi ↦ h.own_written hv (by omega) (hcovers i hi))
  have hout : out = fileBytes (writes k) size offset :=
    (Prod.mk.inj (Prod.mk.inj (Except.ok.inj (hrun.symm.trans hread))).1).2
  have hbytes : fileBytes (writes k) size offset = v.read size offset := by
    rw [fileBytes, File.read, hblocks]
  dsimp only at hrun
  rw [h.id hne, hout, hbytes] at hrun
  exact ⟨_, hrun, h.frame (sameSlots_of_eq rfl rfl) horder fun _ _ ↦ rfl⟩

/-- An unmount and a mount of either build. -/
theorem represents_remount (h : Represents bld s d writes) (bld' : Build) :
    Represents bld' (remount s) d writes := by
  refine h.frame h.order.durable.sameSlots (h.order.remount bld') fun i hi ↦ ?_
  rw [Store.dataBit, Store.dataBit, Bitmap.bit, Bitmap.bit,
    dataBitmap_remount h.order.durable.dirty (by omega)]

/-- A disk that was never used holds no file. -/
theorem represents_start (bld : Build) {dev : Device} (hdev : Blank dev) :
    Represents bld (objstoreInit dev) .start fun _ ↦ [] := by
  have hnone : ∀ k v, View.start.files.value k ≠ some v := fun k v hv ↦ by cases hv
  refine ⟨inOrder_start bld hdev, fun k ↦ ?_, fun k v hv ↦ absurd hv (hnone k v),
    fun k v hv ↦ absurd hv (hnone k v), ?_⟩
  · exact iff_of_false (fun hne ↦ hne rfl) (not_live_blank hdev)
  · have hall : Bitmap.clearBits (objstoreInit dev).dataBitmap 8388608 = Finset.range 8388608 :=
      Finset.ext fun i ↦ by
        rw [Bitmap.mem_clearBits, Finset.mem_range]
        exact and_iff_left_of_imp fun hi ↦ dataBit_blank hdev hi
    rw [freeBlocks, hall, Finset.card_range]
    rfl

/-! ### One call -/

/-- The session stands for the files. -/
def Shows (s : Session) (d : View) : Prop := ∃ writes, Represents s.build s.store d writes

theorem simulates_spec (defFstat defDirstat : Stat) :
    Simulates (Op.run defFstat defDirstat) (Op.spec defFstat defDirstat) Op.Allowed Shows := by
  rintro op ⟨bld, s⟩ d ⟨writes, h⟩ hallowed
  cases op with
  | objfsGetattr name =>
    obtain ⟨v, buf, s', hrun, hrep, hreply⟩ := answered_getattr defFstat defDirstat h name
    refine ⟨.attr v buf, ⟨bld, s'⟩, d, ?_, ⟨rfl, hreply⟩, writes, hrep⟩
    rw [Op.run, hrun]
  | objfsUnlink name =>
    obtain ⟨k, v, hlookup, hv, hzero⟩ := hallowed
    obtain ⟨s', ws, hrun, hrep⟩ := represents_unlink h hlookup hv hzero
    refine ⟨.status 0, ⟨bld, s'⟩, _, ?_, ⟨rfl, ?_⟩, ws, hrep⟩
    · rw [Op.run, objfsUnlink, hrun]
      rfl
    · rw [hlookup]
      rfl
  | objfsRenameKey oldkey newkey ctr =>
    obtain ⟨rfl, ⟨k, hlookup⟩, hnew, hfresh⟩ := hallowed
    obtain ⟨s', hrun, hrep⟩ := represents_rename h hlookup hnew hfresh
    refine ⟨.status 0, ⟨bld, s'⟩, _, ?_, ⟨rfl, ?_⟩, writes, hrep⟩
    · rw [Op.run, objfsRenameKey, hrun]
      simp only [Except.map, if_neg (handle_pos k)]
    · rw [hlookup]
      rfl
  | objfsCreate name =>
    obtain ⟨s', hrun, hrep⟩ := represents_create h hallowed.1 hallowed.2
    refine ⟨handleReply (-17) d.files.firstFree, ⟨bld, s'⟩, _, ?_, ⟨rfl, rfl⟩, writes, hrep⟩
    rw [Op.run, objfsCreate, hrun]
    cases d.files.firstFree with
    | none => rfl
    | some k =>
      dsimp only
      rw [Option.elim_some, if_neg (handle_pos k)]
      rfl
  | objfsOpen name =>
    obtain ⟨v, fh, s', hrun, hrep, hreply⟩ := answered_open h name
    refine ⟨.handle v fh, ⟨bld, s'⟩, d, ?_, ⟨rfl, hreply⟩, writes, hrep⟩
    rw [Op.run, hrun]
  | objfsRead fh size offset =>
    obtain ⟨k, v, rfl, hv, haligned, hrange, hcovers⟩ := hallowed
    obtain ⟨s', hrun, hrep⟩ := represents_read h hv haligned hrange hcovers
    have hsize : Int.bmod (size : ℤ) (2 ^ 32) = size := wrap_of_range (by omega) (by omega)
    refine ⟨.data size (v.read size offset), ⟨bld, s'⟩, d, ?_, ⟨rfl, k, v, rfl, hv, rfl⟩,
      writes, hrep⟩
    rw [Op.run, objfsRead, bmod_handle, hrun]
    simp only [Except.map, hsize, if_neg (by omega : ¬ (size : ℤ) < 0)]
  | objfsWrite fh buf offset =>
    obtain ⟨k, v, rfl, hv, haligned, hlt, hpos, hlength, hreaches, hspace⟩ := hallowed
    obtain ⟨s', ws, hrun, hrep⟩ := represents_write h hv hlt hpos hlength hreaches hspace
    have hsize : Int.bmod (buf.length : ℤ) (2 ^ 32) = buf.length :=
      wrap_of_range (by omega) (by omega)
    have hoffset : offset / 4096 * 4096 = offset := by omega
    rw [hoffset] at hrun
    refine ⟨.status buf.length, ⟨bld, s'⟩, _, ?_, ⟨rfl, k, v, rfl, hv, rfl⟩, ws, hrep⟩
    rw [Op.run, objfsWrite, bmod_handle, hrun]
    simp only [Except.map, hsize, if_neg (by omega : ¬ (buf.length : ℤ) < 0)]
  | objfsRelease fh => exact ⟨.status (-22), ⟨bld, s⟩, d, rfl, ⟨rfl, rfl⟩, writes, h⟩
  | remount bld' =>
    exact ⟨.status 0, ⟨bld', remount s⟩, d, rfl, ⟨rfl, rfl⟩, writes, represents_remount h bld'⟩

end OsAssignments.Objfs
