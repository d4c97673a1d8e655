import OsAssignments.Example.Contents

/-!
# Reads, writes and remounts

A write replaces the content of an object by its buffer, whatever the content was and whichever the
build (`represents_write`). A read returns as many bytes as it is asked for, of which those within
the object are its content (`represents_read`). An unmount writes every dirty line back, so that
what the next mount finds stands for the same directory, even if it is of the other build
(`represents_remount`).
-/

set_option autoImplicit false
set_option relaxedAutoImplicit false

namespace OsAssignments.Example

open Library
open Objstore (Block Build Fault Key Stat statBlocks)

variable {bld : Build} {s s' : Store} {d : Files} {k : Fin 16} {j : ℕ} {v buf : List UInt8}

/-- The handle of an entry leads to its record. -/
theorem record_handle (hj : j < 16) : record ((j : ℤ) + 2) = some j := by
  have hnat : ((j : ℤ) + 2 - 2).toNat = j := by omega
  rw [record, if_pos (by omega), hnat]

/-! ### The cache line of an object -/

/-- After the line is brought in the content is the same and lies in the line. -/
theorem bringIn_live (h : Live .cached s j v) (hj : j < 16) : ∃ s', bringIn j s = some s' ∧
    Touches j s s' ∧ Live .cached s' j v ∧ 0 ≤ s'.field j .cacheIndex := by
  rw [bringIn]
  split_ifs with hmiss
  · have hread : readBlock (s.field j .id) s = some (s.disk (j + 2)) := by
      have hnat : ((j : ℤ) + 2).toNat = j + 2 := by omega
      rw [readBlock, h.id, if_neg (by omega), hnat]
    have hfield : ∀ f, ((s.putLine ((j : ℤ) + 2) (s.disk (j + 2))).assign j .cacheIndex
        ((j : ℤ) + 2)).field j f = if f = .cacheIndex then (j : ℤ) + 2 else s.field j f :=
          fun f ↦ by
      rw [field_assign (by omega) (by omega)]
      exact if_congr (and_iff_right rfl) rfl rfl
    have hclean : s.field j .dirty = 0 := by
      by_contra hdirty
      have hin := (h.dirty hdirty).2
      omega
    have hdata : Starts (s.disk (j + 2)) v := h.clean hclean
    rw [hread, h.id, Option.map_some]
    refine ⟨_, rfl, (touches_putLine j _ s).trans (touches_assign j _ _ _),
      ⟨?_, ?_, h.length_le, ?_, fun _ ↦ hdata, fun hdirty ↦ ?_⟩, ?_⟩
    · rw [hfield, if_neg (by decide), h.id]
    · rw [hfield, if_neg (by decide), h.size]
    · rw [dataOf, hfield, if_pos rfl, if_pos ⟨rfl, by omega⟩, cache_assign, cache_putLine,
        Function.update_self]
      exact hdata
    · rw [hfield, if_neg (by decide)] at hdirty
      exact absurd hclean hdirty
    · rw [hfield, if_pos rfl]
      omega
  · exact ⟨s, rfl, touches_refl j s, h, not_lt.mp hmiss⟩

/-! ### Writes -/

theorem starts_overwrite (line : Block) (hlength : buf.length ≤ 4096) :
    Starts (overwrite line buf) buf := by
  intro n hn
  rw [overwrite, Block.byte_ofBytes (by omega), List.getD_eq_getElem _ _ hn,
    List.getD_eq_getElem _ _ hn]

theorem starts_ofList (hlength : buf.length ≤ 4096) : Starts (Block.ofList buf) buf :=
  fun n hn ↦ Block.byte_ofList buf (by omega)

/-- What is written to a live object is its content from then on. -/
theorem findWriteCached_live (h : Live bld s j v) (hj : j < 16) (hlength : buf.length ≤ 4096) :
    ∃ s', findWriteCached bld j buf s = some s' ∧ Touches j s s' ∧
      Live bld (s'.assign j .size buf.length) j buf := by
  have hsize : ∀ t : Store, t.field j .id = j + 2 →
      (∀ f, (t.assign j .size buf.length).field j f =
        if f = .size then (buf.length : ℤ) else t.field j f) := fun t _ f ↦ by
    rw [field_assign (by omega) (by omega)]
    exact if_congr (and_iff_right rfl) rfl rfl
  cases bld with
  | uncached =>
    have hnat : ((j : ℤ) + 2).toNat = j + 2 := by omega
    have hwrite : findWriteCached .uncached j buf s =
        some (s.putBlock (j + 2) (Block.ofList buf)) := by
      rw [findWriteCached, h.id, writeBlock, if_neg (by omega), hnat]
    have hdirty : s.field j .dirty = 0 := by
      by_contra hdirty
      cases (h.dirty hdirty).1
    have hfield := hsize (s.putBlock (j + 2) (Block.ofList buf)) h.id
    have hdata : Starts (Function.update s.disk (j + 2) (Block.ofList buf) (j + 2)) buf := by
      rw [Function.update_self]
      exact starts_ofList hlength
    refine ⟨_, hwrite, touches_putBlock j _ s, ⟨?_, ?_, hlength, ?_, fun _ ↦ hdata, fun hne ↦ ?_⟩⟩
    · rw [hfield, if_neg (by decide)]
      exact h.id
    · rw [hfield, if_pos rfl]
    · rw [dataOf, if_neg fun hcached ↦ absurd hcached.1 (by decide)]
      exact hdata
    · rw [hfield, if_neg (by decide)] at hne
      exact absurd hdirty hne
  | cached =>
    obtain ⟨t, hbring, htouches, hlive, hin⟩ := bringIn_live h hj
    have hwrite : findWriteCached .cached j buf s =
        some ((t.putLine ((j : ℤ) + 2)
          (overwrite (t.cache ((j : ℤ) + 2)) buf)).assign j .dirty 1) := by
      rw [findWriteCached, hbring, Option.map_some, hlive.id]
    have hfield : ∀ f, (((t.putLine ((j : ℤ) + 2) (overwrite (t.cache ((j : ℤ) + 2)) buf)).assign
        j .dirty 1).assign j .size buf.length).field j f =
        if f = .size then (buf.length : ℤ) else if f = .dirty then 1 else t.field j f := fun f ↦ by
      rw [field_assign (by omega) (by omega), field_assign (by norm_num) (by norm_num)]
      exact if_congr (and_iff_right rfl) rfl (if_congr (and_iff_right rfl) rfl rfl)
    refine ⟨_, hwrite, (htouches.trans (touches_putLine j _ t)).trans (touches_assign j _ _ _),
      ⟨?_, ?_, hlength, ?_, fun hclean ↦ ?_, fun _ ↦ ⟨rfl, ?_⟩⟩⟩
    · rw [hfield, if_neg (by decide), if_neg (by decide), hlive.id]
    · rw [hfield, if_pos rfl]
    · have hin' := hfield .cacheIndex
      rw [if_neg (by decide), if_neg (by decide)] at hin'
      rw [dataOf, hin', if_pos ⟨rfl, hin⟩, cache_assign,
        cache_assign, cache_putLine, Function.update_self]
      exact starts_overwrite _ hlength
    · rw [hfield, if_neg (by decide), if_pos rfl] at hclean
      exact absurd hclean (by norm_num)
    · rw [hfield, if_neg (by decide), if_neg (by decide)]
      exact hin

/-- What a write through a handle returns, and the content it leaves. -/
def write (d : Files) (k : Fin 16) (buf : List UInt8) : ℤ × Files :=
  if (d.value k).isSome ∧ buf.length ≤ 4096 then (buf.length, d.assign k (some buf)) else (-1, d)

/-- `objstore_write` is `write`. -/
theorem represents_write (h : Represents bld s d) (k : Fin 16) (buf : List UInt8) :
    ∃ s', objstoreWrite bld ((k : ℕ) + 2) buf s = .ok ((write d k buf).1, s') ∧
      Represents bld s' (write d k buf).2 := by
  rw [objstoreWrite, record_handle k.isLt]
  dsimp only
  cases hk : d.value k with
  | none =>
    have hid : s.field k .id ≠ (k : ℕ) + 2 := by
      rw [(h.free k hk).id]
      omega
    rw [if_pos hid, write, if_neg fun hlive ↦ by simp [hk] at hlive]
    exact ⟨s, rfl, h⟩
  | some v =>
    have hlive := h.live k v hk
    rw [if_neg (not_not.mpr hlive.id), write]
    by_cases hlength : buf.length ≤ 4096
    · obtain ⟨t, hwrite, htouches, hlive'⟩ := findWriteCached_live hlive k.isLt hlength
      rw [if_neg (not_lt.mpr hlength), hwrite, if_pos ⟨by rw [hk]; rfl, hlength⟩]
      refine ⟨_, rfl, h.assign k (some buf) (htouches.trans (touches_assign k _ _ t))
        (fun hnone ↦ absurd hnone (Option.some_ne_none buf)) fun w hw ↦ ?_⟩
      obtain rfl := Option.some.inj hw
      exact hlive'
    · rw [if_pos (not_le.mp hlength), if_neg fun hboth ↦ hlength hboth.2]
      exact ⟨s, rfl, h⟩

/-! ### Reads -/

/-- As many bytes as asked for, beginning with those of the content. -/
def Reads (v : List UInt8) (size : ℕ) (out : List UInt8) : Prop :=
  out.length = size ∧ out.take v.length = v.take size

theorem reads_of_byte {b : Block} (h : Starts b v) (size : ℕ) :
    Reads v size ((List.range size).map b.byte) := by
  refine ⟨by rw [List.length_map, List.length_range], ?_⟩
  refine List.ext_getElem (by simp [Nat.min_comm]) fun n hn hn' ↦ ?_
  have hlt : n < v.length := by
    rw [List.length_take] at hn'
    omega
  rw [List.getElem_take, List.getElem_map, List.getElem_range, List.getElem_take, h n hlt,
    List.getD_eq_getElem _ _ hlt]

/-- Within the content a read returns exactly the bytes asked for. -/
theorem Reads.eq {size : ℕ} {out : List UInt8} (h : Reads v size out) (hsize : size ≤ v.length) :
    out = v.take size := by
  rw [← h.2, List.take_of_length_le (h.1.trans_le hsize)]

/-- Up to a block the bytes from a line on are those of the line. -/
theorem cacheBytes_eq (s : Store) (id : ℤ) {size : ℕ} (hsize : size ≤ 4096) :
    cacheBytes s id size = (List.range size).map (s.cache id).byte := by
  refine List.map_congr_left fun n hn ↦ ?_
  have hlt : n < 4096 := (List.mem_range.mp hn).trans_le hsize
  rw [Nat.div_eq_of_lt hlt, Nat.mod_eq_of_lt hlt, Nat.cast_zero, add_zero]

theorem findReadCached_live (h : Live bld s j v) (hj : j < 16) {size : ℕ} (hsize : size ≤ 4096) :
    ∃ out s', findReadCached bld j size s = .ok (some out, s') ∧ Reads v size out ∧
      Touches j s s' ∧ Live bld s' j v := by
  cases bld with
  | uncached =>
    have hnat : ((j : ℤ) + 2).toNat = j + 2 := by omega
    have hread : readBlock (s.field j .id) s = some (s.disk (j + 2)) := by
      rw [readBlock, h.id, if_neg (by omega), hnat]
    have hdata := h.data
    rw [dataOf, if_neg fun hcached ↦ absurd hcached.1 (by decide)] at hdata
    rw [findReadCached, hread, Option.elim_some, if_pos hsize]
    exact ⟨_, s, rfl, reads_of_byte hdata size, touches_refl j s, h⟩
  | cached =>
    obtain ⟨t, hbring, htouches, hlive, hin⟩ := bringIn_live h hj
    have hdata := hlive.data
    rw [dataOf, if_pos ⟨rfl, hin⟩] at hdata
    rw [findReadCached, hbring, Option.elim_some, hlive.id, cacheBytes_eq t _ hsize]
    exact ⟨_, t, rfl, reads_of_byte hdata size, htouches, hlive⟩

/-- `objstore_read` of at most a block. -/
theorem represents_read (h : Represents bld s d) (k : Fin 16) {size : ℕ} (hsize : size ≤ 4096) :
    ∃ out s', Represents bld s' d ∧ match d.value k with
      | none => objstoreRead bld ((k : ℕ) + 2) size s = .ok ((-1, []), s')
      | some v => objstoreRead bld ((k : ℕ) + 2) size s = .ok ((size, out), s') ∧
        Reads v size out := by
  rw [objstoreRead, if_neg (by omega), record_handle k.isLt]
  dsimp only
  cases hk : d.value k with
  | none =>
    have hid : s.field k .id ≠ (k : ℕ) + 2 := by
      rw [(h.free k hk).id]
      omega
    rw [if_pos hid]
    exact ⟨[], s, h, rfl⟩
  | some v =>
    obtain ⟨out, t, hread, hreads, htouches, hlive⟩ :=
      findReadCached_live (h.live k v hk) k.isLt hsize
    rw [if_neg (not_not.mpr (h.live k v hk).id), hread]
    refine ⟨out, t, h.keep k htouches (fun hnone ↦ ?_) fun w hw ↦ ?_, rfl, hreads⟩
    · rw [hk] at hnone
      cases hnone
    · rw [hk] at hw
      obtain rfl := Option.some.inj hw
      exact hlive

/-! ### Remounts -/

/-- A live record that is synced has its content on the disk. -/
theorem objSync_live (h : Live bld s j v) (hj : j < 16) : Touches j s (objSync bld j s) ∧
    Live bld (objSync bld j s) j v ∧ (objSync bld j s).field j .dirty = 0 := by
  cases bld with
  | uncached =>
    refine ⟨touches_refl j s, h, ?_⟩
    by_contra hdirty
    cases (h.dirty hdirty).1
  | cached =>
    rw [objSync]
    split_ifs with hclean
    · exact ⟨touches_refl j s, h, hclean⟩
    · have hin := (h.dirty hclean).2
      have hdata := h.data
      rw [dataOf, if_pos ⟨rfl, hin⟩] at hdata
      have hnat : ((j : ℤ) + 2).toNat = j + 2 := by omega
      have hwrite : writeBlock (s.field j .id) (s.cache (s.field j .id)) s =
          some (s.putBlock (j + 2) (s.cache ((j : ℤ) + 2))) := by
        rw [writeBlock, h.id, if_neg (by omega), hnat]
      have hfield :
          ∀ f, ((s.putBlock (j + 2) (s.cache ((j : ℤ) + 2))).assign j .dirty 0).field j f =
          if f = .dirty then 0 else s.field j f := fun f ↦ by
        rw [field_assign (by norm_num) (by norm_num)]
        exact if_congr (and_iff_right rfl) rfl rfl
      rw [hwrite, Option.elim_some]
      refine ⟨(touches_putBlock j _ s).trans (touches_assign j _ _ _), ⟨?_, ?_, h.length_le, ?_,
        fun _ ↦ ?_, fun hdirty ↦ ?_⟩, ?_⟩
      · rw [hfield, if_neg (by decide), h.id]
      · rw [hfield, if_neg (by decide), h.size]
      · have hin' := hfield .cacheIndex
        rw [if_neg (by decide)] at hin'
        rw [dataOf, hin', if_pos ⟨rfl, hin⟩]
        exact hdata
      · rw [disk_assign, disk_putBlock, Function.update_self]
        exact hdata
      · rw [hfield, if_pos rfl] at hdirty
        exact absurd rfl hdirty
      · rw [hfield, if_pos rfl]

/-- After the loop of `objstore_destroy` no record is dirty. -/
theorem represents_syncLoop (h : Represents bld s d) {n : ℕ} (hn : n ≤ 16) :
    let t := Nat.fold n (fun k _ s ↦ if s.field k .id ≠ 0 then objSync bld k s else s) s
    Represents bld t d ∧ ∀ i < n, t.field i .dirty = 0 := by
  dsimp only
  induction n with
  | zero => exact ⟨h, fun i hi ↦ absurd hi (Nat.not_lt_zero i)⟩
  | succ n ih =>
    obtain ⟨hrep, hclean⟩ := ih (by omega)
    rw [Nat.fold_succ]
    generalize Nat.fold n (fun k _ s ↦ if s.field k .id ≠ 0 then objSync bld k s else s) s = t
      at hrep hclean ⊢
    have hfin : ((⟨n, hn⟩ : Fin 16) : ℕ) = n := rfl
    cases hvalue : d.value ⟨n, hn⟩ with
    | none =>
      have hfree := hrep.free ⟨n, hn⟩ hvalue
      rw [hfin] at hfree
      rw [if_neg (not_not.mpr hfree.id)]
      refine ⟨hrep, fun i hi ↦ ?_⟩
      rcases Nat.lt_succ_iff_lt_or_eq.mp hi with hlt | rfl
      · exact hclean i hlt
      · exact hfree.dirty
    | some v =>
      have hlive := hrep.live ⟨n, hn⟩ v hvalue
      rw [hfin] at hlive
      obtain ⟨htouches, hlive', hdirty⟩ := objSync_live hlive hn
      rw [if_pos (by rw [hlive.id]; omega)]
      refine ⟨hrep.keep ⟨n, hn⟩ htouches (fun hnone ↦ ?_) fun w hw ↦ ?_, fun i hi ↦ ?_⟩
      · rw [hvalue] at hnone
        cases hnone
      · rw [hvalue] at hw
        exact Option.some.inj hw ▸ hlive'
      · rcases Nat.lt_succ_iff_lt_or_eq.mp hi with hlt | rfl
        · rw [(htouches.others i (by omega)).field, hclean i hlt]
        · exact hdirty

/-- What the loop of `objstore_init` changes in the first `n` records. -/
structure Initialised (bld : Build) (n : ℕ) (s t : Store) : Prop where
  disk : t.disk = s.disk
  key : ∀ k key, Fits key → t.keyEq k key = s.keyEq k key
  field : ∀ k f, f = .id ∨ f = .size → t.field k f = s.field k f
  dirty : ∀ k, s.field k .dirty = 0 → t.field k .dirty = 0
  index : bld = .cached → ∀ k < n, s.field k .id ≠ 0 → t.field k .cacheIndex = -1

theorem initialised_initLoop (bld : Build) (s : Store) (n : ℕ) : Initialised bld n s
    (Nat.fold n (fun k _ s ↦ if s.field k .id ≠ 0 then initObjectCached bld k s else s) s) := by
  induction n with
  | zero =>
    exact ⟨rfl, fun _ _ _ ↦ rfl, fun _ _ _ ↦ rfl, fun _ h ↦ h,
      fun _ i hi ↦ absurd hi (Nat.not_lt_zero i)⟩
  | succ n ih =>
    rw [Nat.fold_succ]
    generalize Nat.fold n
      (fun k _ s ↦ if s.field k .id ≠ 0 then initObjectCached bld k s else s) s = t
      at ih ⊢
    split_ifs with hlive
    · have hrest :
          ∀ k f, f = .id ∨ f = .size → (initObjectCached bld n t).field k f = t.field k f := by
        rintro k f (rfl | rfl)
        · rw [field_initObjectCached, if_neg (by simp), if_neg (by simp)]
        · rw [field_initObjectCached, if_neg (by simp), if_neg (by simp)]
      refine ⟨disk_initObjectCached.trans ih.disk,
        fun k key hkey ↦ (keyEq_initObjectCached hkey).trans (ih.key k key hkey),
        fun k f hf ↦ (hrest k f hf).trans (ih.field k f hf), fun k hzero ↦ ?_, fun hb k hk hid ↦ ?_⟩
      · rw [field_initObjectCached]
        split_ifs with hsame hother
        · rfl
        · exact absurd hother.2.2 (by decide)
        · exact ih.dirty k hzero
      · rw [field_initObjectCached, if_neg (by simp)]
        split_ifs with hsame
        · rfl
        · refine ih.index hb k ?_ hid
          have hne : k ≠ n := fun heq ↦ hsame ⟨hb, heq, rfl⟩
          omega
    · refine ⟨ih.disk, ih.key, ih.field, ih.dirty, fun hb k hk hid ↦ ih.index hb k ?_ hid⟩
      have hne : k ≠ n := fun heq ↦ hlive (by rwa [ih.field n .id (.inl rfl), ← heq])
      omega

/-- The record is the same after a trip to block 0. -/
theorem field_page (t : Store) {c : ℤ → Block} (hj : j < 16) (f : Field) :
    Store.field ⟨s.disk, c, (Block.ofBytes t.objs).byte⟩ j f = t.field j f := by
  refine RecordLayout.get_congr fun n _ hhigh ↦ Block.byte_ofBytes ?_
  have hstride : object.stride * j + object.keyOffset = 88 * j + 24 := rfl
  omega

theorem keyEq_page (t : Store) {c : ℤ → Block} (hj : j < 16) {key : Key} (hkey : Fits key) :
    Store.keyEq ⟨s.disk, c, (Block.ofBytes t.objs).byte⟩ j key = t.keyEq j key := by
  refine RecordLayout.hasKey_congr hkey fun n _ hhigh ↦ Block.byte_ofBytes ?_
  have hstride : object.stride * j + object.stride = 88 * j + 88 := rfl
  omega

/-- What the next mount finds, of whichever build, stands for the same directory. -/
theorem represents_remount (h : Represents bld s d) (bld' : Build) :
    Represents bld' (objstoreInit bld' (objstoreDestroy bld s)) d := by
  obtain ⟨hrep, hclean⟩ := represents_syncLoop h (n := 16) le_rfl
  rw [objstoreDestroy]
  generalize Nat.fold 16 (fun k _ s ↦ if s.field k .id ≠ 0 then objSync bld k s else s) s = t
    at hrep hclean
  have hinit := initialised_initLoop bld' ⟨Function.update t.disk 0 (Block.ofBytes t.objs),
    fun _ ↦ Block.zero, (Block.ofBytes t.objs).byte⟩ 16
  have hpage : Function.update t.disk 0 (Block.ofBytes t.objs) 0 = Block.ofBytes t.objs :=
    Function.update_self ..
  rw [objstoreInit, hpage]
  generalize Nat.fold 16 (fun k _ s ↦ if s.field k .id ≠ 0 then initObjectCached bld' k s else s)
    ⟨Function.update t.disk 0 (Block.ofBytes t.objs), fun _ ↦ Block.zero,
      (Block.ofBytes t.objs).byte⟩ = u at hinit ⊢
  have hfield : ∀ (k : Fin 16) f, f = .id ∨ f = .size → u.field k f = t.field k f := fun k f hf ↦
    (hinit.field k f hf).trans (field_page (s := ⟨_, t.cache, t.objs⟩) t k.isLt f)
  have hdirty : ∀ k : Fin 16, u.field k .dirty = 0 := fun k ↦ hinit.dirty k
    ((field_page (s := ⟨_, t.cache, t.objs⟩) t k.isLt .dirty).trans (hclean k k.isLt))
  have hdisk : ∀ k : ℕ, u.disk (k + 2) = t.disk (k + 2) := fun k ↦ by
    have hne : k + 2 ≠ 0 := by omega
    rw [hinit.disk]
    dsimp only
    rw [Function.update_of_ne hne]
  refine ⟨hrep.fits, fun k ↦ ?_, fun k hk ↦ ⟨?_, ?_, hdirty k⟩, fun k v hv ↦ ?_⟩
  · rw [hinit.key k _ (hrep.fits k), keyEq_page (s := ⟨_, t.cache, t.objs⟩) t k.isLt (hrep.fits k)]
    exact hrep.key k
  · rw [hfield k .id (.inl rfl), (hrep.free k hk).id]
  · rw [hfield k .size (.inr rfl), (hrep.free k hk).size]
  · have hlive := hrep.live k v hv
    have hdata : Starts (u.disk (k + 2)) v := by
      rw [hdisk]
      exact hlive.clean (hclean k k.isLt)
    refine ⟨?_, ?_, hlive.length_le, ?_, fun _ ↦ hdata, fun hne ↦ absurd (hdirty k) hne⟩
    · rw [hfield k .id (.inl rfl), hlive.id]
    · rw [hfield k .size (.inr rfl), hlive.size]
    · rw [dataOf]
      split_ifs with hin
      · -- No line is there after a mount.
        have hid : Store.field ⟨Function.update t.disk 0 (Block.ofBytes t.objs),
            fun _ ↦ Block.zero, (Block.ofBytes t.objs).byte⟩ k .id ≠ 0 := by
          rw [field_page (s := ⟨_, t.cache, t.objs⟩) t k.isLt, hlive.id]
          omega
        have hout := hinit.index hin.1 k k.isLt hid
        omega
      · exact hdata

/-- The directory of a disk that was never used. -/
def blank : Files := ⟨fun _ ↦ .empty, fun _ ↦ none⟩

/-- A disk whose block 0 is zero holds no object. -/
theorem represents_blank (bld : Build) {disk : ℕ → Block} (hdisk : disk 0 = Block.zero) :
    Represents bld (objstoreInit bld disk) blank := by
  have hinit := initialised_initLoop bld ⟨disk, fun _ ↦ Block.zero, (disk 0).byte⟩ 16
  rw [objstoreInit]
  generalize Nat.fold 16 (fun k _ s ↦ if s.field k .id ≠ 0 then initObjectCached bld k s else s)
    ⟨disk, fun _ ↦ Block.zero, (disk 0).byte⟩ = u at hinit ⊢
  have hbytes : (disk 0).byte = fun _ ↦ 0 := by
    rw [hdisk]
    exact funext Block.byte_zero
  have hzero : ∀ k f, Store.field ⟨disk, fun _ ↦ Block.zero, (disk 0).byte⟩ k f = 0 := fun k f ↦ by
    rw [Store.field, hbytes, RecordLayout.get_zero]
  have hfits : ∀ k, Fits (blank.name k) := fun _ ↦ Nat.zero_lt_succ 63
  refine ⟨hfits, fun k ↦ ?_, fun k _ ↦ ⟨?_, ?_, hinit.dirty k (hzero k _)⟩,
    fun k v hv ↦ absurd hv.symm (Option.some_ne_none v)⟩
  · rw [hinit.key k _ (hfits k), Store.keyEq, hbytes]
    exact RecordLayout.hasKey_zero object k
  · rw [hinit.field k .id (.inl rfl), hzero]
  · rw [hinit.field k .size (.inr rfl), hzero]

end OsAssignments.Example
