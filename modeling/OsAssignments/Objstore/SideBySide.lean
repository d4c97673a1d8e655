import OsAssignments.Objstore.Builds

/-!
# The cached and the uncached build, side by side

Both builds are mounted from one image and serve the same calls. `Agree` relates their states: the
object table, the bitmaps and the contents of the blocks of live objects are the same. What a call
does to the table and the bitmaps does not depend on the cache (`Alike`), and an append makes the
same block calls in both builds, so creations, appends and reads keep `Agree`, whatever the cache
evicts. A destroy reads the indirect blocks of its object from the disk: it keeps `Agree` when the
disk copies are current, which is part of `Call.Safe`. `builds_agree` covers the runs in which that
is so and appends take blocks of no object, and `builds_differ` is the shortest run in which the
disk copy is stale.
-/

set_option autoImplicit false
set_option relaxedAutoImplicit false

namespace OsAssignments.Objstore

open Library Library.Ownership

variable {bld bld' : Build} {s t : Session} {st st' : Store} {call : Call} {k a : ℕ} {bits : List ℕ}

/-! ### Stores with the same table -/

/-- The tables and the bitmaps of two stores are the same. -/
structure Alike (st st' : Store) : Prop where
  table : st'.a = st.a
  inodeBitmap : st'.inodeBitmap = st.inodeBitmap
  dataBitmap : st'.dataBitmap = st.dataBitmap

namespace Alike

variable (h : Alike st st')

include h

theorem field (k : ℕ) (f : Field) : st'.field k f = st.field k f := by
  rw [Store.field, Store.field, h.table]

theorem inodeBit (k : ℕ) : st'.inodeBit k = st.inodeBit k := by
  rw [Store.inodeBit, Store.inodeBit, h.inodeBitmap]

theorem sameSlots : SameSlots st' st := sameSlots_of_eq h.inodeBitmap h.table

theorem assign (k : ℕ) (f : Field) (v : ℤ) : Alike (st.assign k f v) (st'.assign k f v) :=
  ⟨congrArg (setField · k f v) h.table, h.inodeBitmap, h.dataBitmap⟩

theorem findTarget (objid : ℤ) (setDirty : Bool) :
    (findTarget objid setDirty st').1 = (findTarget objid setDirty st).1 ∧
      Alike (findTarget objid setDirty st).2 (findTarget objid setDirty st').2 := by
  simp only [Objstore.findTarget, h.inodeBitmap, h.field]
  split
  · refine ⟨rfl, ?_⟩
    split_ifs
    · exact ⟨h.table, h.inodeBitmap, h.dataBitmap⟩
    · exact h
  · exact ⟨rfl, h⟩

theorem freeDataBlock : (freeDataBlock st').1 = (freeDataBlock st).1 ∧
    Alike (freeDataBlock st).2 (freeDataBlock st').2 := by
  simp only [Objstore.freeDataBlock, h.dataBitmap]
  generalize Bitmap.scanWords _ 262144 0 0 () = found
  cases found with
  | error bit => exact ⟨rfl, h.table, h.inodeBitmap, rfl⟩
  | ok _ => exact ⟨rfl, h.table, h.inodeBitmap, rfl⟩

theorem writeIndirect (k : ℕ) (r : Fin 4) (base a data1 : ℤ) (temp : Block) :
    Alike (writeIndirect bld k r base a data1 temp st)
      (writeIndirect bld' k r base a data1 temp st') := by
  unfold Objstore.writeIndirect
  split_ifs
  · obtain ⟨-, hfree⟩ := h.freeDataBlock
    have hassign := hfree.assign k (.indirect r) data1
    exact ⟨hassign.table, hassign.inodeBitmap, hassign.dataBitmap⟩
  · exact ⟨h.table, h.inodeBitmap, h.dataBitmap⟩

/-- What a write returns and does to the table does not depend on the cache. -/
theorem write {objid offset v : ℤ} {buff : List UInt8} {u : Store}
    (hrun : objstoreWrite bld objid buff offset st = .ok (v, u)) :
    ∃ u', objstoreWrite bld' objid buff offset st' = .ok (v, u') ∧ Alike u u' := by
  obtain ⟨htarget, hfound⟩ := h.findTarget objid true
  unfold objstoreWrite at hrun ⊢
  generalize Objstore.findTarget objid true st = found at hrun htarget hfound
  generalize Objstore.findTarget objid true st' = found' at htarget hfound ⊢
  obtain ⟨target, s₀⟩ := found
  obtain ⟨target', s₀'⟩ := found'
  obtain rfl : target' = target := htarget
  cases target' with
  | none =>
    cases hrun
    exact ⟨s₀', rfl, hfound⟩
  | some k =>
    obtain ⟨hblk, hfree⟩ := hfound.freeDataBlock
    have hsize := hfree.assign k .size ((Objstore.freeDataBlock s₀).2.field k .size + buff.length)
    dsimp only at hrun ⊢
    rw [hblk, hfree.field]
    split_ifs at hrun ⊢
    · cases hrun
      refine ⟨_, rfl, ?_, hsize.inodeBitmap, hsize.dataBitmap⟩
      exact congrArg (Bytes.storeInt · _ 4 _) hsize.table
    all_goals
      cases hrun
      first
        | exact ⟨_, rfl, hsize⟩
        | exact ⟨_, rfl, hsize.writeIndirect ..⟩

theorem create (key : Key) : (createObject key st').1 = (createObject key st).1 ∧
    Alike (createObject key st).2 (createObject key st').2 := by
  rcases full_or_lowest st with hfull | ⟨k, hk, hclear, hleast⟩
  · rw [createObject_full key hfull,
      createObject_full key fun k hk ↦ (h.inodeBit k).trans (hfull k hk)]
    exact ⟨rfl, h.table, h.inodeBitmap, h.dataBitmap⟩
  · rw [createObject_spec key hk hclear hleast, createObject_spec key hk
      ((h.inodeBit k).trans hclear) fun j hj ↦ (h.inodeBit j).trans (hleast j hj)]
    have htable : setKey (claimed k st').a k key = setKey (claimed k st).a k key :=
      congrArg (fun a ↦ setKey (setField a k .id (k + 2)) k key) h.table
    have hinode : (claimed k st').inodeBitmap = (claimed k st).inodeBitmap :=
      congrArg (fun words : ℕ → BitVec 32 ↦ Function.update words (k / 32)
        (words (k / 32) ||| Bitmap.mask (k % 32))) h.inodeBitmap
    dsimp only
    rw [htable]
    exact ⟨rfl, rfl, hinode, h.dataBitmap⟩

/-- The loops over the pointers do the same where they read the same entries from the disk. -/
theorem destroyTarget {k : ℕ} (hentries : ∀ r, st.field k (.indirect r) ≠ 0 →
      diskEntries st'.dev (st.field k (.indirect r)) =
        diskEntries st.dev (st.field k (.indirect r))) :
    Alike (destroyTarget k st) (destroyTarget k st') := by
  have hhead := (h.assign k .id 0).assign k .size 0
  have hreleased : released ((st'.assign k .id 0).assign k .size 0) k =
      released ((st.assign k .id 0).assign k .size 0) k :=
    released_congr (fun f _ ↦ hhead.field k f) fun r hr ↦ by
      have hsame := field_reset_head st k k (.indirect r)
      rw [if_neg (by simp)] at hsame
      rw [hsame] at hr ⊢
      exact hentries r hr
  have hfrees := frees_loops k ((st.assign k .id 0).assign k .size 0)
  have hfrees' := frees_loops k ((st'.assign k .id 0).assign k .size 0)
  rw [hreleased] at hfrees'
  have hloops : Alike _ _ := ⟨hfrees'.a.trans (hhead.table.trans hfrees.a.symm),
    hfrees'.inodeBitmap.trans (hhead.inodeBitmap.trans hfrees.inodeBitmap.symm),
    hfrees'.dataBitmap.trans
      ((congrArg (toggleDataBits _) hhead.dataBitmap).trans hfrees.dataBitmap.symm)⟩
  have hclear {u u' : Store} (hu : Alike u u') (i : Fin 4) :
      Alike (clearPointers k u i) (clearPointers k u' i) :=
    (hu.assign k (.direct i) 0).assign k (.indirect i) 0
  exact hclear (hclear (hclear (hclear hloops 0) 1) 2) 3

/-- A destroy returns the same and leaves the same table where it reads the same entries. -/
theorem destroy {key : Key} {v : ℤ} {u : Store}
    (hentries : ∀ k, Live st k → keyEq st.a k key = true → ∀ r, st.field k (.indirect r) ≠ 0 →
      diskEntries st'.dev (st.field k (.indirect r)) =
        diskEntries st.dev (st.field k (.indirect r)))
    (hrun : destroyObject key st = .ok (v, u)) :
    ∃ u', destroyObject key st' = .ok (v, u') ∧ Alike u u' := by
  have hscan : stopAtKey key { st' with iLock := true } =
      stopAtKey key { st with iLock := true } := by
    funext i b ctr _
    show (if st'.inodeBitmap i &&& b ≠ 0#32 ∧ st'.field ctr .id ≠ 0 ∧ keyEq st'.a ctr key then
      Except.error (i, b, ctr) else Except.ok ()) = _
    rw [h.inodeBitmap, h.field, h.table]
    rfl
  unfold destroyObject at hrun ⊢
  dsimp only at hrun ⊢
  rw [hscan]
  rcases scan_stopAtKey key st with ⟨hexit, -⟩ | ⟨k, hk, ⟨hbit, hid, hkey⟩, -, hexit⟩
  · rw [hexit] at hrun
    cases hrun
  · rw [hexit] at hrun ⊢
    cases hrun
    have hhead : Alike (unlinked k st) (unlinked k st') := ⟨h.table,
      congrArg (fun words : ℕ → BitVec 32 ↦ Function.update words (k / 32)
        (words (k / 32) ^^^ Bitmap.mask (k % 32))) h.inodeBitmap, h.dataBitmap⟩
    exact ⟨_, rfl, hhead.destroyTarget (hentries k ⟨hk, hbit, hid⟩ hkey)⟩

theorem takes (htakes : Takes st a bits) : Takes st' a bits := by
  have hfirst {u u' : Store} (hdata : u'.dataBitmap = u.dataBitmap) {j : ℕ} (hj : FirstClear u j) :
      FirstClear u' j := by
    have hbit : u'.dataBit = u.dataBit := congrArg Bitmap.bit hdata
    exact ⟨hj.lt, hbit ▸ hj.clear, hbit ▸ hj.least⟩
  match bits, htakes with
  | [j], ⟨hj, hnot⟩ => exact ⟨hfirst h.dataBitmap hj, hnot⟩
  | [j₁, j₂], ⟨hj₁, hj₂, hr⟩ =>
    refine ⟨hfirst h.dataBitmap hj₁, hfirst ?_ hj₂, hr⟩
    exact congrArg (fun words : ℕ → BitVec 32 ↦ Function.update words (j₁ / 32)
      (words (j₁ / 32) ||| Bitmap.mask (j₁ % 32))) h.dataBitmap

end Alike

/-! ### The calls of an append -/

/-- The block calls of a write depend on the table, and on the content of the indirect block at a
later index of a range. -/
theorem writeCalls_congr {m m' : ℕ → Block} {x : Block} (ha : a < 4100) (htakes : Takes st a bits)
    (hfield : st'.field k (.indirect (rangeOf a)) = st.field k (.indirect (rangeOf a)))
    (hblock : 4 ≤ a → (a - 4) % 1024 ≠ 0 →
      m' (st.field k (.indirect (rangeOf a))).toNat =
        m (st.field k (.indirect (rangeOf a))).toNat) :
    writeCalls m' st' k a x bits = writeCalls m st k a x bits := by
  match bits, htakes with
  | [j], ⟨_, hnot⟩ =>
    rw [writeCalls, writeCalls, hfield]
    split_ifs with hdirect
    · rfl
    · have hlater : (a - 4) % 1024 ≠ 0 := fun hzero ↦
        hnot ⟨(a - 4) / 1024, by omega⟩ (show a = 4 + 1024 * ((a - 4) / 1024) by omega)
      rw [entryCalls, entryCalls, hblock (by omega) hlater]
  | [j₁, j₂], _ => rfl

/-- At a later index of a range the indirect pointer is that of a block of the object. -/
theorem Intact.own_range (hi : Intact bld s) (hlive : Live s.store k) (hlt : s.written k < 4100)
    (hfour : 4 ≤ s.written k) (hlater : (s.written k - 4) % 1024 ≠ 0) :
    own bld s.store (k, .indirect (rangeOf (s.written k))) =
      some (s.store.field k (.indirect (rangeOf (s.written k)))) := by
  have hindex : s.written k = 4 + 1024 * ((s.written k - 4) / 1024) + (s.written k - 4) % 1024 := by
    omega
  have hmod := Nat.mod_lt (s.written k - 4) (by norm_num : 1024 > 0)
  have hrange : rangeOf (s.written k) = ⟨(s.written k - 4) / 1024, by omega⟩ :=
    Fin.ext (show (s.written k - 4) / 1024 % 4 = (s.written k - 4) / 1024 by omega)
  rw [hrange]
  exact own_of_ne_zero hlive ((hi.holds k hlive).reached ⟨(s.written k - 4) / 1024, by omega⟩ _
    (Nat.pos_of_ne_zero hlater) hmod hindex)

/-- What an append does, with its block calls. -/
theorem Intact.append_written (hi : Intact bld s) {buff : List UInt8} (hlive : Live s.store k)
    (hlt : s.written k < 4100) (htakes : Takes s.store (s.written k) bits) {v : ℤ}
    (hrun : objstoreWrite bld (s.store.field k .id) buff ((s.written k * 4096 : ℕ) : ℤ) s.store =
      .ok (v, st)) :
    Written bld k buff.length (writeTarget (s.written k) bits) bits
      (writeCalls (logical bld s.store.dev) s.store k (s.written k) (Block.ofList buff) bits)
      s.store st := by
  obtain ⟨st', hrun', hw⟩ := written_takes buff (s.written k * 4096) hlive
    (fun i hlive' heq ↦ hi.owned.ids i k hlive' hlive heq) hi.owned.dev hlt (by omega) htakes
    fun hfour hlater ↦ by
      have hpos := hi.owned.pos (hi.own_range hlive hlt hfour hlater)
      omega
  obtain rfl : st = st' := (Prod.mk.inj (Except.ok.inj (hrun.symm.trans hrun'))).2
  exact hw

/-! ### The two builds side by side -/

/-- The builds agree on the table, on the bitmaps and on the contents of the blocks of live
objects. -/
structure Agree (s t : Session) : Prop where
  alike : Alike s.store t.store
  written : t.written = s.written
  blocks : ∀ q b, own .cached s.store q = some b →
    logical .uncached t.store.dev b.toNat = logical .cached s.store.dev b.toNat

namespace Agree

variable (h : Agree s t)

include h

theorem own : own .uncached t.store = own .cached s.store := own_frame h.alike.sameSlots h.blocks

theorem content : content .uncached t.store = content .cached s.store :=
  content_frame h.alike.sameSlots h.blocks

theorem live (k : ℕ) : Live t.store k ↔ Live s.store k := live_frame h.alike.sameSlots k

theorem kept : t.kept = s.kept := by
  funext k
  simp only [Session.kept, h.live, h.written]

theorem allowed (hallowed : call.Allowed s) : call.Allowed t := by
  cases call with
  | create key =>
    refine ⟨hallowed.1, fun j hlive ↦ ?_⟩
    rw [h.alike.table]
    exact hallowed.2 j ((h.live j).mp hlive)
  | append k buff =>
    obtain ⟨hlive, hlt, hsize⟩ := hallowed
    exact ⟨(h.live k).mpr hlive, by rw [h.written]; exact hlt, hsize⟩
  | read k size offset =>
    obtain ⟨hlive, hrange⟩ := hallowed
    exact ⟨(h.live k).mpr hlive, by rw [h.written]; exact hrange⟩
  | destroy key =>
    obtain ⟨hkey, k, hlive, heq⟩ := hallowed
    exact ⟨hkey, k, (h.live k).mpr hlive, by rw [h.alike.table]; exact heq⟩

theorem safe (hsafe : call.Safe .cached s) : call.Safe .uncached t := by
  cases call with
  | append k buff =>
    obtain ⟨bits, htakes, hfresh⟩ := hsafe
    refine ⟨bits, ?_, fun j hj q ↦ ?_⟩
    · rw [h.written]
      exact h.alike.takes htakes
    · rw [h.own]
      exact hfresh j hj q
  | destroy key => exact fun k _ _ ↦ current_uncached t.store k
  | _ => trivial

end Agree

/-- A creation makes no block call and refers to no block. -/
theorem createObject_blocks {key : Key} (ht : Tidy st) (hkey : key.Short) :
    (createObject key st).2.dev = st.dev ∧ own bld (createObject key st).2 = own bld st := by
  rcases createObject_cases st hkey with ⟨-, heq⟩ | ⟨k, hk, hclear, -, u, heq, hc⟩
  · rw [heq]
    exact ⟨rfl, own_frame (sameSlots_of_eq rfl rfl) fun _ _ _ ↦ rfl⟩
  · rw [heq]
    exact ⟨hc.dev, own_created hc ht hk hclear⟩

section Step

variable (h : Agree s t) (hs : Intact .cached s) (ht : Intact .uncached t)

include h hs ht

theorem Agree.create {key : Key} (hkey : key.Short) :
    (createObject key t.store).1 = (createObject key s.store).1 ∧
      Agree ⟨(createObject key s.store).2, s.kept⟩ ⟨(createObject key t.store).2, t.kept⟩ := by
  obtain ⟨hvalue, halike⟩ := h.alike.create key
  obtain ⟨hdev, hown⟩ : _ ∧ Objstore.own .cached (createObject key s.store).2 = _ :=
    createObject_blocks hs.consistent.tidy hkey
  obtain ⟨hdev', -⟩ : _ ∧ Objstore.own .uncached (createObject key t.store).2 = _ :=
    createObject_blocks ht.consistent.tidy hkey
  refine ⟨hvalue, halike, h.kept, fun q b hq ↦ ?_⟩
  rw [hdev, hdev']
  exact h.blocks q b (hown ▸ hq)

/-- An append makes the same block calls in both builds. -/
theorem Agree.append (buff : List UInt8) (hlive : Live s.store k) (hlt : s.written k < 4100)
    (htakes : Takes s.store (s.written k) bits)
    (hfresh : ∀ j ∈ bits, ∀ q, Objstore.own .cached s.store q ≠ some ((22815 + j : ℕ) : ℤ)) :
    ∃ u u', objstoreWrite .cached (s.store.field k .id) buff
      ((s.written k * 4096 : ℕ) : ℤ) s.store =
        .ok (buff.length, u) ∧
      objstoreWrite .uncached (t.store.field k .id) buff ((t.written k * 4096 : ℕ) : ℤ) t.store =
        .ok (buff.length, u') ∧
      Agree ⟨u, Function.update s.written k (s.written k + 1)⟩
        ⟨u', Function.update t.written k (t.written k + 1)⟩ := by
  obtain ⟨u, hrun, hst⟩ := hs.append buff hlive hlt htakes hfresh
  obtain ⟨u', hrun', halike⟩ : ∃ u', objstoreWrite .uncached (s.store.field k .id) buff
      ((s.written k * 4096 : ℕ) : ℤ) t.store = .ok (buff.length, u') ∧ Alike u u' :=
    h.alike.write hrun
  have hwritten : t.written k = s.written k := congrFun h.written k
  have htakes' : Takes t.store (t.written k) bits := hwritten ▸ h.alike.takes htakes
  rw [← h.alike.field, ← hwritten] at hrun'
  have hdev := (hs.append_written hlive hlt htakes hrun).dev
  have hdev' := (ht.append_written ((h.live k).mpr hlive) (hwritten ▸ hlt) htakes' hrun').dev
  have hcalls : writeCalls (logical .uncached t.store.dev) t.store k (t.written k)
      (Block.ofList buff) bits = writeCalls (logical .cached s.store.dev) s.store k (s.written k)
        (Block.ofList buff) bits := by
    rw [hwritten]
    exact writeCalls_congr hlt htakes (h.alike.field k _) fun hfour hlater ↦
      h.blocks _ _ (hs.own_range hlive hlt hfour hlater)
  refine ⟨u, u', hrun, hrun', halike, by rw [h.written], fun q b hq ↦ ?_⟩
  rw [hdev, hdev', hcalls, logical_runCalls hs.owned.dev, logical_runCalls ht.owned.dev]
  refine applyCalls_congr _ ?_
  rcases hst.taken q b hq with hold | ⟨j, hj, rfl⟩
  · exact .inl (h.blocks q b hold)
  · exact .inr (writeCalls_writes htakes hj)

/-- A read returns the same bytes in both builds. -/
theorem Agree.read {size offset : ℕ} (hlive : Live s.store k)
    (hrange : offset + size ≤ 4096 * s.written k) :
    ∃ out u u', objstoreRead .cached (s.store.field k .id) size (offset : ℤ) s.store =
        .ok ((size, out), u) ∧
      objstoreRead .uncached (t.store.field k .id) size (offset : ℤ) t.store =
        .ok ((size, out), u') ∧ Agree ⟨u, s.written⟩ ⟨u', t.written⟩ := by
  have hwritten : t.written k = s.written k := congrFun h.written k
  have hlive' := (h.live k).mpr hlive
  obtain ⟨calls, blks, hcalls, -, hrun⟩ := (hs.holds k hlive).read hs.owned hlive size offset hrange
  obtain ⟨calls', blks', hcalls', -, hrun'⟩ :=
    (ht.holds k hlive').read ht.owned hlive' size offset (hwritten ▸ hrange)
  rw [h.content] at hrun'
  refine ⟨_, _, _, hrun, hrun', ⟨h.alike.table, h.alike.inodeBitmap, h.alike.dataBitmap⟩, h.written,
    fun q b hq ↦ ?_⟩
  have hsame := logical_reads hs.owned.dev hcalls
  have hsame' := logical_reads ht.owned.dev hcalls'
  have hown : Objstore.own .cached { s.store with dev := runCalls .cached calls s.store.dev } =
      Objstore.own .cached s.store :=
    own_frame (sameSlots_of_eq rfl rfl) fun _ b _ ↦ congrFun hsame b.toNat
  have hold : Objstore.own .cached s.store q = some b := (congrFun hown q).symm.trans hq
  exact (congrFun hsame' b.toNat).trans ((h.blocks q b hold).trans (congrFun hsame b.toNat).symm)

/-- A destroy that finds its indirect blocks on the disk does the same in both builds. -/
theorem Agree.destroy {key : Key} (hkey : key.Short) (hlive : Live s.store k)
    (heq : keyEq s.store.a k key = true)
    (hcurrent : ∀ k, Live s.store k → keyEq s.store.a k key = true → Current .cached s.store k) :
    ∃ u u', destroyObject key s.store = .ok (0, u) ∧ destroyObject key t.store = .ok (0, u') ∧
      Agree ⟨u, s.written⟩ ⟨u', t.written⟩ := by
  obtain ⟨u, hrun, hd⟩ := destroyObject_live hs.consistent.keys hkey hlive heq
  have hlive' := (h.live k).mpr hlive
  have heq' : keyEq t.store.a k key = true := by rw [h.alike.table]; exact heq
  obtain ⟨v, hrun', hd'⟩ := destroyObject_live ht.consistent.keys hkey hlive' heq'
  obtain ⟨u', hrun'', halike⟩ := h.alike.destroy (fun k' hlive' heq' r hr ↦ by
    have hown : Objstore.own .cached s.store (k', .indirect r) =
      some (s.store.field k' (.indirect r)) := own_of_ne_zero hlive' hr
    have hpos := hs.owned.pos hown
    have hdisk : t.store.dev.disk (s.store.field k' (.indirect r)).toNat =
        s.store.dev.disk (s.store.field k' (.indirect r)).toNat :=
      (h.blocks _ _ hown).trans (hcurrent k' hlive' heq' r _ hown).symm
    rw [diskEntries, diskEntries, readBlock, readBlock, if_neg (by omega), if_neg (by omega),
      hdisk]) hrun
  obtain rfl : v = u' := (Prod.mk.inj (Except.ok.inj (hrun'.symm.trans hrun''))).2
  refine ⟨u, v, hrun, hrun', halike, h.written, fun q b hq ↦ ?_⟩
  have hcur := hcurrent k hlive heq
  have hown := own_destroyed hd hs.owned hlive hcur q
  rw [hq] at hown
  split_ifs at hown with hk
  obtain ⟨k', p⟩ := q
  have hown' : Objstore.own .uncached t.store (k', p) = some b := by
    rw [h.own]
    exact hown.symm
  exact (logical_destroyed hd' ht.owned hlive' (current_uncached t.store k) hk hown').trans
    ((h.blocks _ b hown.symm).trans (logical_destroyed hd hs.owned hlive hcur hk hown.symm).symm)

/-- A safe call returns the same in both builds and keeps their agreement. -/
theorem agree_step (hallowed : call.Allowed s) (hsafe : call.Safe .cached s) :
    ∃ reply s' t', call.run .cached s = .ok (reply, s') ∧
      call.run .uncached t = .ok (reply, t') ∧ Agree s' t' := by
  cases call with
  | create key =>
    obtain ⟨hvalue, hagree⟩ := h.create hs ht hallowed.1
    exact ⟨_, _, _, rfl, by rw [Call.run, hvalue], hagree⟩
  | append k buff =>
    obtain ⟨hlive, hlt, -⟩ := hallowed
    obtain ⟨bits, htakes, hfresh⟩ := hsafe
    obtain ⟨u, u', hrun, hrun', hagree⟩ := h.append hs ht buff hlive hlt htakes hfresh
    exact ⟨_, _, _, by rw [Call.run, hrun]; rfl, by rw [Call.run, hrun']; rfl, hagree⟩
  | read k size offset =>
    obtain ⟨out, u, u', hrun, hrun', hagree⟩ := h.read hs ht hallowed.1 hallowed.2
    exact ⟨_, _, _, by rw [Call.run, hrun]; rfl, by rw [Call.run, hrun']; rfl, hagree⟩
  | destroy key =>
    obtain ⟨hkey, k, hlive, heq⟩ := hallowed
    obtain ⟨u, u', hrun, hrun', hagree⟩ := h.destroy hs ht hkey hlive heq hsafe
    exact ⟨_, _, _, by rw [Call.run, hrun]; rfl, by rw [Call.run, hrun']; rfl, hagree⟩

end Step

/-! ### Runs -/

theorem agree_image (h : Image s) : Agree s s where
  alike := ⟨rfl, rfl, rfl⟩
  written := rfl
  blocks := fun q b _ ↦ by
    obtain ⟨d, hd⟩ := h.store
    rw [hd, logical_objstoreInit, logical_objstoreInit]

/-- The guard of the runs in which the two builds stay together. -/
def Paired (call : Call) (p : Session × Session) : Prop :=
  call.Allowed p.1 ∧ call.Safe .cached p.1

/-- The states of two builds that agree and are in order. -/
structure Twins (p : Session × Session) : Prop where
  agree : Agree p.1 p.2
  cached : Intact .cached p.1
  uncached : Intact .uncached p.2

/-- A safe call returns the same in both builds and keeps them in order. -/
theorem Twins.step {p : Session × Session} (h : Twins p) (hok : Paired call p) :
    ∃ reply s' t', call.run .cached p.1 = .ok (reply, s') ∧
      call.run .uncached p.2 = .ok (reply, t') ∧ Twins (s', t') := by
  obtain ⟨hallowed, hsafe⟩ := hok
  obtain ⟨reply, s', t', hrun, hrun', hagree⟩ :=
    agree_step h.agree h.cached h.uncached hallowed hsafe
  exact ⟨reply, s', t', hrun, hrun', hagree, intact_step h.cached hallowed hsafe hrun,
    intact_step h.uncached (h.agree.allowed hallowed) (h.agree.safe hsafe) hrun'⟩

theorem twins_image (h : Image s) : Twins (s, s) :=
  ⟨agree_image h, (intact_image h .cached).1, (intact_image h .uncached).1⟩

theorem twins_run {p : Session × Session} (himage : Image s)
    (hrun : Together (Call.run .cached) (Call.run .uncached) Paired (s, s) p) : Twins p := by
  refine hrun.invariant Twins (fun call p reply reply' p' h hok hcached huncached ↦ ?_)
    (twins_image himage)
  obtain ⟨_, s', t', hs', ht', htwins⟩ := h.step hok
  obtain ⟨-, rfl⟩ := Prod.mk.inj (Except.ok.inj (hs'.symm.trans hcached))
  obtain ⟨-, rfl⟩ := Prod.mk.inj (Except.ok.inj (ht'.symm.trans huncached))
  exact htwins

/-- Mounted from one image, the two builds agree after every run whose calls are safe, and the next
safe call returns the same in both. -/
theorem builds_agree (s₀ : Session) (himage : Image s₀) (s t : Session)
    (hrun : Together (Call.run .cached) (Call.run .uncached) Paired (s₀, s₀) (s, t)) :
    Agree s t ∧ ∀ call, Paired call (s, t) → ∃ reply s' t',
      call.run .cached s = .ok (reply, s') ∧ call.run .uncached t = .ok (reply, t') ∧
        Agree s' t' := by
  have h := twins_run himage hrun
  refine ⟨h.agree, fun call hok ↦ ?_⟩
  obtain ⟨reply, s', t', hrun, hrun', htwins⟩ := h.step hok
  exact ⟨reply, s', t', hrun, hrun', htwins.agree⟩

theorem allowed_create_first : (Call.create keyA).Allowed (.start zeroDevice) :=
  ⟨by decide, fun _ hlive ↦ absurd hlive (not_live_blank blank_zeroDevice)⟩

/-! ### Runs that append to a first object -/

/-- Every slot of the cache is empty or holds the block of its own number. -/
def FirstLap (d : Device) : Prop :=
  ∀ i : Fin 32768, d.cacheIndex i = -1 ∨ d.cacheIndex i = 0

/-- As long as all blocks have different slots nothing is evicted. -/
theorem firstLap_run {d : Device} (hd : FirstLap d) (call : BlockCall) (hblk : call.blk < 32768) :
    FirstLap (call.run .cached d) ∧ (call.run .cached d).disk = d.disk := by
  have hzero : ((call.blk / 32768 : ℕ) : ℤ) = 0 := by
    rw [Nat.div_eq_of_lt hblk, Nat.cast_zero]
  have hslot := hd (slotOf call.blk)
  have hindex : (call.run .cached d).cacheIndex =
      Function.update d.cacheIndex (slotOf call.blk : ℕ) 0 := by
    rw [← hzero]
    cases call with
    | read b temp => exact cacheBlkRead_cacheIndex d b temp
    | write b x => exact cacheBlkWrite_cacheIndex d b x
  refine ⟨fun i ↦ ?_, ?_⟩
  · rw [hindex, update_natCast_apply]
    by_cases hi : i = slotOf call.blk
    · rw [hi, Function.update_self]
      exact .inr rfl
    · rw [Function.update_of_ne hi]
      exact hd i
  · cases call with
    | read b temp =>
      simp only [BlockCall.blk] at hzero hslot
      simp only [BlockCall.run, cacheBlkRead, tmod_natCast, tdiv_natCast, hzero]
      rcases hslot with hempty | hheld
      · rw [if_pos hempty]
      · rw [if_neg (by rw [hheld]; decide), if_neg (not_not.mpr hheld)]
    | write b x =>
      simp only [BlockCall.blk] at hzero hslot
      simp only [BlockCall.run, cacheBlkWrite, tmod_natCast, tdiv_natCast, hzero, if_pos hslot]

theorem firstLap_runCalls {d : Device} (hd : FirstLap d) (calls : List BlockCall)
    (hcalls : ∀ call ∈ calls, call.blk < 32768) :
    FirstLap (runCalls .cached calls d) ∧ (runCalls .cached calls d).disk = d.disk := by
  induction calls generalizing d with
  | nil => exact ⟨hd, rfl⟩
  | cons call calls ih =>
    obtain ⟨hlap, hdisk⟩ := firstLap_run hd call (hcalls call List.mem_cons_self)
    obtain ⟨hlap', hdisk'⟩ :=
      ih hlap fun call' hcall' ↦ hcalls call' (List.mem_cons_of_mem call hcall')
    exact ⟨hlap', hdisk'.trans hdisk⟩

/-- The guard of the runs of both builds without a condition on destroys. -/
def Untied (call : Call) (p : Session × Session) : Prop := Unguarded call p.1 ∧ Unguarded call p.2

/-- What both builds keep while the first blocks are appended to a first object on the zero disk:
the blocks are taken in order, and in the cached build none of them reaches the disk. -/
structure Lap (n : ℕ) (s t : Session) : Prop where
  reached : Together (Call.run .cached) (Call.run .uncached)
    (fun call p ↦ Paired call p ∧ Untied call p) (.start zeroDevice, .start zeroDevice) (s, t)
  twins : Twins (s, t)
  sound : Sound .cached s.store
  live : Live s.store 0
  written : s.written 0 = n
  key : keyEq s.store.a 0 keyA = true
  filled : Filled s.store (if n ≤ 4 then n else n + 1)
  pointers : ∀ f : Field, f.pointer = true → s.store.field 0 f =
    if f.opensAt < n then ((22815 + f.opensAt : ℕ) : ℤ) else 0
  lap : FirstLap s.store.dev
  disk : s.store.dev.disk = zeroDevice.disk
  entries : n = 5 → logical .cached s.store.dev 22819 = Block.zero.setInt 0 22820

theorem lap_zero : ∃ s t, Lap 0 s t := by
  have htwins := twins_image (Image.blank blank_zeroDevice)
  have hok : Paired (.create keyA) (.start zeroDevice, .start zeroDevice) :=
    ⟨allowed_create_first, trivial⟩
  obtain ⟨reply, s, t, hrun, hrun', htwins'⟩ := htwins.step hok
  obtain ⟨st, hcreate, hc⟩ := created_blank blank_zeroDevice keyA (by decide)
  have hstore : s.store = st := by
    rw [Call.run, Session.start, hcreate] at hrun
    cases hrun
    rfl
  have hwritten : s.written 0 = 0 := by
    have hkept : (Session.start zeroDevice).kept 0 = 0 := ite_self 0
    rw [Call.run] at hrun
    cases hrun
    exact hkept
  have hopen : Untied (.create keyA) (.start zeroDevice, .start zeroDevice) :=
    ⟨⟨hok.1, trivial⟩, hok.1, trivial⟩
  have hlap : FirstLap (objstoreInit zeroDevice).dev := fun i ↦
    .inl (cacheIndex_objstoreInit zeroDevice i)
  rw [← hstore] at hc
  refine ⟨s, t, .tail .refl ⟨_, _, _, ⟨hok, hopen⟩, hrun, hrun'⟩, htwins',
    (sound_start blank_zeroDevice .cached).created hc (tidy_blank blank_zeroDevice) (by norm_num)
      (inodeBit_blank blank_zeroDevice (by norm_num)), (hc.live (by norm_num) 0).mpr (.inr rfl),
    hwritten, ?_, fun i hi ↦ ?_, fun f hf ↦ ?_, hc.dev ▸ hlap, hc.dev ▸ rfl, fun h ↦ by cases h⟩
  · rw [hc.key 0 keyA (by decide), if_pos rfl, decide_eq_true rfl]
  · rw [Store.dataBit, hc.dataBitmap]
    exact dataBit_blank blank_zeroDevice hi
  · have hid : f ≠ .id := by
      rintro rfl
      cases hf
    rw [hc.field, if_neg fun h ↦ hid h.2, if_neg (Nat.not_lt_zero _)]
    exact field_blank blank_zeroDevice (by norm_num) f

/-- The pointer that a write at one of the first five block indices assigns. -/
theorem early_target {n : ℕ} (hn : n ≤ 4) : ∃ f : Field, f.pointer = true ∧ f.opensAt = n ∧
    writeTarget n (List.range' n (blocksNeeded n)) = some (f, 22815 + n) := by
  rcases Nat.lt_or_eq_of_le hn with hlt | rfl
  · have hneeded : blocksNeeded n = 1 := if_neg (by omega)
    rw [hneeded, List.range'_one]
    exact ⟨.direct ⟨n, hlt⟩, rfl, rfl, dif_pos hlt⟩
  · exact ⟨.indirect 0, rfl, rfl, rfl⟩

/-- The block calls of a write at one of the first five block indices. -/
def earlyCalls (n : ℕ) (x : Block) : List BlockCall :=
  if n < 4 then [.write (22815 + n) x]
  else [.write 22819 (Block.zero.setInt 0 22820), .write 22820 x]

theorem writeCalls_early {n : ℕ} (hn : n ≤ 4) (m : ℕ → Block) (st : Store) (x : Block) :
    writeCalls m st 0 n x (List.range' n (blocksNeeded n)) = earlyCalls n x := by
  rcases Nat.lt_or_eq_of_le hn with hlt | rfl
  · have hneeded : blocksNeeded n = 1 := if_neg (by omega)
    rw [hneeded, List.range'_one, writeCalls, if_pos hlt, earlyCalls, if_pos hlt]
  · rfl

theorem earlyCalls_lt {n : ℕ} (hn : n ≤ 4) (x : Block) :
    ∀ call ∈ earlyCalls n x, call.blk < 32768 := by
  intro call hcall
  unfold earlyCalls at hcall
  split_ifs at hcall
  · obtain rfl := List.mem_singleton.mp hcall
    show 22815 + n < 32768
    omega
  · rcases List.mem_pair.mp hcall with rfl | rfl
    · exact (by norm_num : 22819 < 32768)
    · exact (by norm_num : 22820 < 32768)

/-- The next append of such a run. -/
theorem Lap.append {n : ℕ} (h : Lap n s t) (hn : n ≤ 4) : ∃ u t' f,
    Together (Call.run .cached) (Call.run .uncached) (fun call p ↦ Paired call p ∧ Untied call p)
      (.start zeroDevice, .start zeroDevice) (⟨u, Function.update s.written 0 (n + 1)⟩, t') ∧
    Twins (⟨u, Function.update s.written 0 (n + 1)⟩, t') ∧ Sound .cached u ∧
    f.pointer = true ∧ f.opensAt = n ∧
    Written .cached 0 1 (some (f, 22815 + n)) (List.range' n (blocksNeeded n))
      (earlyCalls n (Block.ofList [7])) s.store u := by
  have hroom : n + blocksNeeded n ≤ 8388608 := by
    unfold blocksNeeded
    split_ifs <;> omega
  have hfilled : Filled s.store n := by
    have hold := h.filled
    rwa [if_pos hn] at hold
  have hlt : s.written 0 < 4100 := by
    rw [h.written]
    omega
  have htakes : Takes s.store (s.written 0) (List.range' n (blocksNeeded n)) := by
    rw [h.written]
    exact takes_of_filled hfilled hroom
  have hfresh : ∀ j ∈ List.range' n (blocksNeeded n), ∀ q,
      own .cached s.store q ≠ some ((22815 + j : ℕ) : ℤ) := fun j hj q ↦
    h.sound.fresh (htakes.clear j hj).2 q
  have hallowed : (Call.append 0 [7]).Allowed s := ⟨h.live, hlt, by decide, by decide⟩
  have hfinds : (Call.append 0 [7]).FindsBlocks s := findsBlocks_of_filled hfilled h.written hroom
  have hfinds' : (Call.append 0 [7]).FindsBlocks t := by
    show blocksNeeded (t.written 0) ≤ (Bitmap.clearBits t.store.dataBitmap 8388608).card
    rw [h.twins.agree.written, h.twins.agree.alike.dataBitmap]
    exact hfinds
  have huntied : Untied (.append 0 [7]) (s, t) :=
    ⟨⟨hallowed, hfinds⟩, h.twins.agree.allowed hallowed, hfinds'⟩
  have hpaired : Paired (.append 0 [7]) (s, t) := ⟨hallowed, _, htakes, hfresh⟩
  obtain ⟨reply, s', t', hrun, hrun', htwins⟩ := h.twins.step hpaired
  obtain ⟨u, hwrite, hst⟩ := h.twins.cached.append [7] h.live hlt htakes hfresh
  have hs' : s' = ⟨u, Function.update s.written 0 (n + 1)⟩ := by
    rw [Call.run, hwrite] at hrun
    cases hrun
    rw [h.written]
  have hw := h.twins.cached.append_written h.live hlt htakes hwrite
  obtain ⟨f, hf, hopens, htarget⟩ := early_target hn
  rw [h.written, htarget, writeCalls_early hn] at hw
  subst hs'
  exact ⟨u, t', f, h.reached.tail ⟨_, _, _, ⟨hpaired, huntied⟩, hrun, hrun'⟩, htwins,
    hst.sound h.sound htakes, hf, hopens, hw⟩

theorem lap_succ {n : ℕ} (h : Lap n s t) (hn : n ≤ 4) : ∃ s' t', Lap (n + 1) s' t' := by
  obtain ⟨u, t', f, hreached, htwins, hsound, hf, hopens, hw⟩ := h.append hn
  have hopen := opens_some (n := n) (j := n) hf hopens
  have htarget : ∀ f' b, some (f, 22815 + n) = some (f', b) → f'.pointer = true := fun f' b heq ↦
    (hopen.region f' b heq).1
  obtain ⟨hlap, hdisk⟩ := firstLap_runCalls h.lap _ (earlyCalls_lt hn (Block.ofList [7]))
  rw [← hw.dev] at hlap hdisk
  refine ⟨_, t', hreached, htwins, hsound, (hw.live htarget 0).mpr h.live,
    Function.update_self (0 : ℕ) (n + 1) s.written,
    (keyEq_of_bytes hw.bytes (by decide) 0).trans h.key, fun i hi ↦ ?_, fun f' hf' ↦ ?_, hlap,
    hdisk.trans h.disk, fun hfive ↦ ?_⟩
  · have hneeded : n + blocksNeeded n = if n + 1 ≤ 4 then n + 1 else n + 1 + 1 := by
      unfold blocksNeeded
      split_ifs <;> omega
    have hold := h.filled i hi
    rw [if_pos hn] at hold
    rw [← hneeded]
    show u.dataBit i = _
    rw [hw.dataBit, hold, ← Bool.decide_or]
    refine decide_eq_decide.mpr ?_
    rw [List.mem_range'_1]
    omega
  · have hold := h.pointers f' hf'
    by_cases hff : f'.opensAt = n
    · obtain ⟨b, hb⟩ := (hopen.iff f' hf').mp hff
      have hnew := hw.assigned f' b hb
      obtain ⟨-, rfl⟩ := Prod.mk.inj (Option.some.inj hb)
      rw [if_pos (by omega), hff]
      exact hnew
    · have hkept : u.field 0 f' = s.store.field 0 f' :=
        hw.pointer hf' fun _ b hb ↦ hff ((hopen.iff f' hf').mpr ⟨b, hb⟩)
      refine (hkept.trans hold).trans (if_congr ?_ rfl rfl)
      omega
  · obtain rfl : n = 4 := by omega
    show logical .cached u.dev 22819 = _
    have hcalls : earlyCalls 4 (Block.ofList [7]) =
        [.write 22819 (Block.zero.setInt 0 22820), .write 22820 (Block.ofList [7])] := rfl
    rw [hw.dev, logical_runCalls h.twins.cached.owned.dev, hcalls]
    simp only [applyCalls, List.foldl_cons, List.foldl_nil, BlockCall.apply]
    rw [Function.update_of_ne (by norm_num), Function.update_self]

theorem exists_lap {n : ℕ} (hn : n ≤ 5) : ∃ s t, Lap n s t := by
  induction n with
  | zero => exact lap_zero
  | succ n ih =>
    obtain ⟨s, t, h⟩ := ih (by omega)
    exact lap_succ h (by omega)

/-- Without an indirect block there is nothing that the disk could be behind with. -/
theorem current_of_zero (h : ∀ r, st.field k (.indirect r) = 0) : Current bld st k := by
  intro r b hb
  obtain ⟨-, hptr, hne⟩ := own_eq_some.mp hb
  exact absurd (hptr.symm.trans (h r)) hne

/-- An object with two blocks is read and destroyed in both builds. -/
theorem builds_agree_two_blocks : ∃ s t s₁ t₁ s₂ t₂ reply, Lap 2 s t ∧
    (Call.read 0 8192 0).run .cached s = .ok (reply, s₁) ∧
    (Call.read 0 8192 0).run .uncached t = .ok (reply, t₁) ∧
    (Call.destroy keyA).run .cached s₁ = .ok (.value 0, s₂) ∧
    (Call.destroy keyA).run .uncached t₁ = .ok (.value 0, t₂) ∧ Agree s₂ t₂ := by
  obtain ⟨s, t, h⟩ := exists_lap (n := 2) (by norm_num)
  have himage := Image.blank blank_zeroDevice
  have hallowed : (Call.read 0 8192 0).Allowed s := ⟨h.live, by rw [h.written]⟩
  have hpaired : Paired (.read 0 8192 0) (s, t) := ⟨hallowed, trivial⟩
  have hreached := h.reached.mono fun _ _ hok ↦ hok.1
  obtain ⟨-, hnext⟩ := builds_agree _ himage s t hreached
  obtain ⟨reply, s₁, t₁, hread, hread', -⟩ := hnext _ hpaired
  have hreached₁ : Together (Call.run .cached) (Call.run .uncached) Paired
      (.start zeroDevice, .start zeroDevice) (s₁, t₁) :=
    hreached.tail ⟨_, _, _, hpaired, hread, hread'⟩
  -- The read changes the device only.
  obtain ⟨dev, hdev⟩ : ∃ dev, s₁.store = { s.store with dev := dev } := by
    cases turn_of_run h.twins.cached.consistent hallowed hread with
    | read _ _ _ _ dev _ => exact ⟨dev, rfl⟩
  have hslots : SameSlots s₁.store s.store := by
    rw [hdev]
    exact sameSlots_of_eq rfl rfl
  have hlive : Live s₁.store 0 := (live_frame hslots 0).mpr h.live
  have hkey : keyEq s₁.store.a 0 keyA = true := by
    rw [hdev]
    exact h.key
  have hindirect : ∀ r, s₁.store.field 0 (.indirect r) = 0 := fun r ↦ by
    rw [field_frame hslots (by norm_num), h.pointers _ rfl, Field.opensAt, if_neg (by omega)]
  have hkeys := (h.twins.cached.consistent.frame hslots).keys
  have hdestroy : Paired (.destroy keyA) (s₁, t₁) :=
    ⟨⟨by decide, 0, hlive, hkey⟩, fun k hlive' hkey' ↦ by
      obtain rfl : k = 0 := hkeys keyA (by decide) k 0 hlive' hlive hkey' hkey
      exact current_of_zero hindirect⟩
  obtain ⟨reply', s₂, t₂, hrun, hrun', hagree₂⟩ :=
    (builds_agree _ himage s₁ t₁ hreached₁).2 _ hdestroy
  obtain ⟨u, hu, -⟩ := destroyObject_live hkeys (by decide) hlive hkey
  have hvalue : reply' = .value 0 := by
    rw [Call.run, hu] at hrun
    cases hrun
    rfl
  rw [hvalue] at hrun hrun'
  exact ⟨s, t, s₁, t₁, s₂, t₂, reply, h, hread, hread', hrun, hrun', hagree₂⟩

/-! ### A run that ends in a difference -/

theorem filter_map_range_zero {f : ℕ → ℤ} {n : ℕ} (h : ∀ i < n, f i = 0) :
    ((List.range n).map f).filter (· ≠ 0) = [] := by
  rw [List.filter_eq_nil_iff]
  intro b hb
  obtain ⟨i, hi, rfl⟩ := List.mem_map.mp hb
  simp [h i (List.mem_range.mp hi)]

theorem filter_map_range_first {f : ℕ → ℤ} {n : ℕ} (hfirst : f 0 ≠ 0)
    (h : ∀ i < n, f (i + 1) = 0) : ((List.range (n + 1)).map f).filter (· ≠ 0) = [f 0] := by
  rw [List.range_succ_eq_map, List.map_cons, List.map_map,
    List.filter_cons_of_pos (by simpa using hfirst)]
  exact congrArg (f 0 :: ·) (filter_map_range_zero h)

/-- An indirect block with a single entry. -/
theorem filter_entriesOf_single {b : Block} {v : ℤ} (hv : v ≠ 0) (hfirst : b.int 0 = v)
    (hrest : ∀ i < 1023, b.int (i + 1) = 0) : (entriesOf b).filter (· ≠ 0) = [v] := by
  subst hfirst
  exact filter_map_range_first hv hrest

/-- What an object with four direct blocks and one indirect block releases. -/
theorem released_five {st : Store} {p : ℤ} {blks : Fin 4 → ℤ} {entries : List ℤ} (hp : p ≠ 0)
    (hblks : ∀ i, blks i ≠ 0) (hdirect : ∀ i, st.field k (.direct i) = blks i)
    (hindirect : ∀ r, st.field k (.indirect r) = if r = 0 then p else 0)
    (hentries : (diskEntries st.dev p).filter (· ≠ 0) = entries) :
    released st k = [blks 0, blks 1, blks 2, blks 3, p] ++ entries ++ [0, 0, 0] := by
  have hloop : List.finRange 4 = [0, 1, 2, 3] := rfl
  have hfirst : releasedIndirect st k 0 = p :: entries := by
    rw [releasedIndirect, hindirect, if_pos rfl, if_pos hp, hentries]
  have hrest (r : Fin 4) (hr : r ≠ 0) : releasedIndirect st k r = [0] := by
    rw [releasedIndirect, hindirect, if_neg hr, if_neg (not_not.mpr rfl)]
  have hsingle (i : Fin 4) : releasedDirect st k i = [blks i] := by
    simp [releasedDirect, hdirect, hblks]
  rw [released, hloop]
  simp only [List.flatMap_cons, List.flatMap_nil, hsingle, hfirst, hrest 1 (by decide),
    hrest 2 (by decide), hrest 3 (by decide)]
  simp

/-- The pointers after five appends in order. -/
theorem released_lap {st : Store} {entries : List ℤ}
    (hpointers : ∀ f : Field, f.pointer = true → st.field 0 f =
      if f.opensAt < 5 then ((22815 + f.opensAt : ℕ) : ℤ) else 0)
    (hentries : (diskEntries st.dev 22819).filter (· ≠ 0) = entries) :
    released st 0 = [22815, 22816, 22817, 22818, 22819] ++ entries ++ [0, 0, 0] := by
  have hdirect (i : Fin 4) : st.field 0 (.direct i) = 22815 + (i : ℕ) := by
    rw [hpointers _ rfl, Field.opensAt, if_pos (by omega)]
    push_cast
    rfl
  have hindirect (r : Fin 4) : st.field 0 (.indirect r) = if r = 0 then 22819 else 0 := by
    rw [hpointers _ rfl, Field.opensAt]
    by_cases hr : r = 0
    · rw [if_pos hr, hr, if_pos (by norm_num)]
      norm_num
    · have hpos : 0 < (r : ℕ) := Fin.pos_iff_ne_zero.mpr hr
      rw [if_neg hr, if_neg (by omega)]
  exact released_five (by norm_num) (fun i ↦ by omega) hdirect hindirect hentries

/-- Create an object, append five blocks to it and destroy it: the uncached build toggles the bit
574 places past that of block 22820, and the cached build reads from the disk an indirect block
without entries. -/
theorem builds_differ : ∃ s t s' t' : Session,
    Together (Call.run .cached) (Call.run .uncached) Untied
      (.start zeroDevice, .start zeroDevice) (s, t) ∧
    Untied (.destroy keyA) (s, t) ∧ (Call.destroy keyA).run .cached s = .ok (.value 0, s') ∧
    (Call.destroy keyA).run .uncached t = .ok (.value 0, t') ∧
    s'.store.dataBit 579 = false ∧ t'.store.dataBit 579 = true := by
  obtain ⟨s, t, h⟩ := exists_lap le_rfl
  have halike := h.twins.agree.alike
  have hlive' : Live t.store 0 := (h.twins.agree.live 0).mpr h.live
  have hkey' : keyEq t.store.a 0 keyA = true := by
    rw [halike.table]
    exact h.key
  obtain ⟨u, hrun, hd⟩ :=
    destroyObject_live h.twins.cached.consistent.keys (by decide) h.live h.key
  obtain ⟨u', hrun', hd'⟩ :=
    destroyObject_live h.twins.uncached.consistent.keys (by decide) hlive' hkey'
  have hstale : (diskEntries s.store.dev 22819).filter (· ≠ 0) = [] := by
    rw [diskEntries, readBlock, if_neg (by norm_num), h.disk]
    exact filter_map_range_zero fun i _ ↦ Block.int_zero i
  have hown : own .cached s.store (0, .indirect 0) = some 22819 := by
    rw [own_eq_some]
    exact ⟨h.live, (h.pointers (.indirect 0) rfl).trans (if_pos (by decide)), by norm_num⟩
  have hcurrent : (diskEntries t.store.dev 22819).filter (· ≠ 0) = [22820] := by
    have hblock : t.store.dev.disk 22819 = Block.zero.setInt 0 22820 :=
      (h.twins.agree.blocks _ _ hown).trans (h.entries rfl)
    rw [diskEntries, readBlock, if_neg (by norm_num)]
    show (entriesOf (t.store.dev.disk 22819)).filter (· ≠ 0) = [22820]
    rw [hblock]
    refine filter_entriesOf_single (by norm_num) ?_ fun i hi ↦ ?_
    · rw [Block.int_setInt _ _ (by norm_num), if_pos rfl,
        wrap_of_range (by norm_num) (by norm_num)]
    · rw [Block.int_setInt _ _ (by omega), if_neg i.succ_ne_zero, Block.int_zero]
  have hreleased := released_lap h.pointers hstale
  have hreleased' : released t.store 0 = _ :=
    released_lap (fun f hf ↦ (halike.field 0 f).trans (h.pointers f hf)) hcurrent
  have hclear : s.store.dataBit 579 = false := (h.filled 579 (by norm_num)).trans (by simp)
  have hclear' : t.store.dataBit 579 = false := by
    rw [Store.dataBit, halike.dataBitmap]
    exact hclear
  have hallowed : (Call.destroy keyA).Allowed s := ⟨by decide, 0, h.live, h.key⟩
  refine ⟨s, t, _, _, h.reached.mono fun _ _ hok ↦ hok.2,
    ⟨⟨hallowed, trivial⟩, h.twins.agree.allowed hallowed, trivial⟩,
    by rw [Call.run, hrun]; rfl, by rw [Call.run, hrun']; rfl, ?_, ?_⟩
  · show u.dataBit 579 = false
    rw [Store.dataBit, hd.dataBitmap, hreleased, bit_toggleDataBits (by decide) (by norm_num),
      ← Store.dataBit, hclear]
    rfl
  · show u'.dataBit 579 = true
    rw [Store.dataBit, hd'.dataBitmap, hreleased', bit_toggleDataBits (by decide) (by norm_num),
      ← Store.dataBit, hclear']
    rfl

end OsAssignments.Objstore
