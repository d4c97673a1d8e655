import OsAssignments.Objstore.Journals

/-!
# What a read reveals

`objstore_read` follows whatever block number it finds, and where nothing was written that is
block 0, the first block of the inode bitmap. `reads_reveal_only_the_object` compares two journals
in which an object has received the same writes: reads of written block indices agree, whatever the
other objects did. `bitmap_disclosed` is a read of an empty object that tells how many objects there
are.
-/

set_option autoImplicit false
set_option relaxedAutoImplicit false

namespace OsAssignments.Objstore

open Library

/-- Two journals in which an object has received the same writes give the same bytes for each
aligned range of block indices that the writes have left there. -/
theorem reads_reveal_only_the_object (bld : Build) (d d' : Device) (hd : Blank d) (hd' : Blank d')
    (s t : Journal)
    (hs : Reaches (Op.run bld) (fun op s ↦ op.Allowed s ∧ op.Orderly s ∧ op.Harmless bld s)
      (.start d) s)
    (ht : Reaches (Op.run bld) (fun op s ↦ op.Allowed s ∧ op.Orderly s ∧ op.Harmless bld s)
      (.start d') t)
    (k k' : ℕ) (hlive : Live s.store k) (hlive' : Live t.store k')
    (hid : s.store.field k .id = t.store.field k' .id) (hwrites : s.writes k = t.writes k')
    (size offset : ℕ) (haligned : offset % 4096 = 0) (hrange : offset + size ≤ 4096 * 4100)
    (hwritten : ∀ i < (size + 4095) / 4096, fileOf (s.writes k) (offset / 4096 + i) ≠ none) :
    ∃ buff s' t', objstoreRead bld (s.store.field k .id) size (offset : ℤ) s.store =
        .ok ((size, buff), s') ∧
      objstoreRead bld (s.store.field k .id) size (offset : ℤ) t.store =
        .ok ((size, buff), t') := by
  have horder := inOrder_run (fun _ _ _ hok ↦ hok) hs (inOrder_start bld hd)
  have horder' := inOrder_run (fun _ _ _ hok ↦ hok) ht (inOrder_start bld hd')
  obtain ⟨s', hread⟩ := horder.read_written hlive haligned hrange hwritten
  obtain ⟨t', hread'⟩ := horder'.read_written hlive' haligned hrange (hwrites ▸ hwritten)
  rw [← hwrites, ← hid] at hread'
  exact ⟨_, s', t', hread, hread'⟩

/-- The guard of these histories, for the cached build. -/
def Careful (op : Op) (s : Journal) : Prop := op.Allowed s ∧ op.Orderly s ∧ op.Harmless .cached s

/-- The zero disk with a first object that has one written block. -/
theorem written_alone : ∃ s : Journal,
    Reaches (Op.run .cached) Careful (.start zeroDevice) s ∧ Live s.store 0 ∧
      Named namesA s.store ∧ own .cached s.store (0, .direct 0) = some 22815 ∧
      s.writes 0 = [(0, [7])] := by
  obtain ⟨s₁, hcreate, h₁, hc, hnone⟩ := opening_first .cached
  have hreached (u : Store) (k : ℕ) := reached_direct u k (by norm_num : 0 < 4)
  have hstart := (Reaches.refl (Op.run .cached) Careful (.start zeroDevice)).step
    ⟨allowed_first, trivial, trivial⟩ hcreate
  have hallowed := h₁.allowed (a := 0) (by norm_num) [7] (by decide) (by decide)
  obtain ⟨s, hwrite, h, hown, hwrites⟩ :=
    h₁.write_direct 0 [7] (by decide) (by decide) (by norm_num)
  have hs := hstart.step ⟨hallowed, h₁.orderly (hreached _ 0) (by decide) [7], trivial⟩ hwrite
  refine ⟨s, hs, h.live, (named_created blank_zeroDevice hc).write hallowed hwrite, ?_, ?_⟩
  · rw [hown, Function.update_self]
    rfl
  · rw [hwrites, Function.update_self, hnone]
    rfl

/-- The same write after a second object was created and written. -/
theorem written_beside : ∃ t : Journal,
    Reaches (Op.run .cached) Careful (.start zeroDevice) t ∧ Live t.store 0 ∧
      Named namesAB t.store ∧ own .cached t.store (0, .direct 0) = some 22816 ∧
      t.writes 0 = [(0, [7])] ∧ t.writes 1 = [(0, [9])] := by
  obtain ⟨t₁, hcreate, h₁, hc, hnone⟩ := opening_first .cached
  have hreached (u : Store) (k : ℕ) := reached_direct u k (by norm_num : 0 < 4)
  have hstart := (Reaches.refl (Op.run .cached) Careful (.start zeroDevice)).step
    ⟨allowed_first, trivial, trivial⟩ hcreate
  obtain ⟨t₂, hallowed, hcreate', h₂, -, hnamed₂, hwrites₂⟩ :=
    h₁.second (named_created blank_zeroDevice hc)
  have hallowed₂ : (Op.write 1 0 [9]).Allowed t₂ :=
    ⟨hnamed₂.live keyB rfl, by norm_num, by decide, by decide⟩
  obtain ⟨t₃, hwrite₂, h₃, -, hwrites₃⟩ := h₂.write hallowed₂ (hreached _ 1) (by decide)
  have hallowed₃ := h₃.allowed (a := 0) (by norm_num) [7] (by decide) (by decide)
  obtain ⟨t, hwrite₃, h, hown, hwrites⟩ :=
    h₃.write_direct 0 [7] (by decide) (by decide) (by decide)
  have ht := ((hstart.step ⟨hallowed, trivial, trivial⟩ hcreate').step
    ⟨hallowed₂, h₂.orderly (hreached _ 1) (by decide) [9], trivial⟩ hwrite₂).step
      ⟨hallowed₃, h₃.orderly (hreached _ 0) (by decide) [7], trivial⟩ hwrite₃
  refine ⟨t, ht, h.live, (hnamed₂.write hallowed₂ hwrite₂).write hallowed₃ hwrite₃, ?_, ?_, ?_⟩
  · rw [hown, Function.update_self]
    rfl
  · rw [hwrites, Function.update_self, hwrites₃, Function.update_of_ne zero_ne_one, hwrites₂,
      hnone]
    rfl
  · rw [hwrites, Function.update_of_ne one_ne_zero, hwrites₃, Function.update_self, hwrites₂,
      hnone]

/-- A first object with one written block reads the same when a second one was there first, and its
block is another. -/
theorem reads_reveal_only_first_object : ∃ (s t : Journal) (buff : List UInt8) (s' t' : Store),
    Live s.store 0 ∧ ¬Live s.store 1 ∧ Live t.store 1 ∧ t.writes 1 = [(0, [9])] ∧
      own .cached s.store (0, .direct 0) = some 22815 ∧
      own .cached t.store (0, .direct 0) = some 22816 ∧
      objstoreRead .cached (s.store.field 0 .id) 1 (0 : ℕ) s.store = .ok ((1, buff), s') ∧
      objstoreRead .cached (s.store.field 0 .id) 1 (0 : ℕ) t.store = .ok ((1, buff), t') := by
  obtain ⟨s, hs, hlive, hnamed, hown, hfile⟩ := written_alone
  obtain ⟨t, ht, hlive', hnamed', hown', hfile', hsecond⟩ := written_beside
  have hid : s.store.field 0 .id = t.store.field 0 .id := by
    rw [hnamed.tidy.id_of_live hlive, hnamed'.tidy.id_of_live hlive']
  have hnone : ¬Live s.store 1 := by
    rw [hnamed.live_iff]
    exact not_not.mpr rfl
  obtain ⟨buff, s', t', hread, hread'⟩ := reads_reveal_only_the_object .cached zeroDevice zeroDevice
    blank_zeroDevice blank_zeroDevice s t hs ht 0 0 hlive hlive' hid (hfile.trans hfile'.symm)
    1 0 (by norm_num) (by norm_num) fun i hi ↦ by
      obtain rfl : i = 0 := by omega
      rw [hfile]
      exact Option.some_ne_none _
  exact ⟨s, t, buff, s', t', hlive, hnone, hnamed'.live keyB rfl, hsecond, hown, hown', hread,
    hread'⟩

/-! ### An empty object -/

/-- Block 0 after a remount starts the inode bitmap. -/
theorem word_remount {bld : Build} {s : Store} (h : Durable bld s) :
    (logical bld (remount s).dev 0).word 0 = s.inodeBitmap 0 := by
  rw [remount, logical_objstoreInit, disk_objstoreDestroy_metadata h.dirty (by norm_num),
    disk_metadataLoops, if_pos (by norm_num), Block.word_ofWords _ _ (by norm_num)]

/-- The first word of a block is decided by the first four bytes read from it. -/
theorem word_of_bytesOf {x y : Block} (h : bytesOf [x] 4 = bytesOf [y] 4) :
    x.word 0 = y.word 0 := by
  have hbyte : ∀ n < 4, x.byte n = y.byte n := fun n hn ↦ by
    have hget := congrArg (fun out : List UInt8 ↦ out[n]?) h
    have hdiv : n / 4096 = 0 := by omega
    have hmod : n % 4096 = n := by omega
    simpa [bytesOf, List.getElem?_map, List.getElem?_range hn, hdiv, hmod] using hget
  have hload : x.byte.load 0 4 = y.byte.load 0 4 :=
    Bytes.load_congr fun n _ hn ↦ hbyte n (by omega)
  rw [Block.word, Block.word, Nat.mul_zero, hload]

/-- An object that has received no write reads block 0. -/
theorem read_empty {bld : Build} {s : Journal} {k : ℕ} (h : InOrder bld s) (hlive : Live s.store k)
    (hnone : s.writes k = []) : ∃ t, objstoreRead bld (s.store.field k .id) 4 (0 : ℕ) s.store =
      .ok ((4, bytesOf [logical bld s.store.dev 0] 4), t) := by
  obtain ⟨calls, -, hread⟩ := objstoreRead_content h.sound.toOwned hlive 4 0 (n := 1) (by norm_num)
    (by norm_num) fun i hi r j _ heq ↦ by omega
  have hempty := h.files k hlive 0 (by norm_num)
  rw [hnone, Place.ofIndex_direct (by norm_num)] at hempty
  have hindex : Place.ofIndex (0 / 4096 + 0) = .direct 0 := Place.ofIndex_direct (by norm_num)
  have hblocks : (List.range 1).map (fun i ↦
      (content bld s.store (k, .ofIndex (0 / 4096 + i))).getD (logical bld s.store.dev 0)) =
      [logical bld s.store.dev 0] := by
    rw [List.range_one, List.map_singleton, hindex]
    exact congrArg (fun o : Option Block ↦ [o.getD (logical bld s.store.dev 0)]) hempty
  rw [hblocks] at hread
  exact ⟨_, hread⟩

/-- After a remount an empty object reads the inode bitmap: with a second object in the store its
first four bytes are others. -/
theorem bitmap_disclosed : ∃ s t : Journal,
    Reaches (Op.run .cached) (fun op s ↦ op.Allowed s ∧ op.Orderly s) (.start zeroDevice) s ∧
    Reaches (Op.run .cached) (fun op s ↦ op.Allowed s ∧ op.Orderly s) (.start zeroDevice) t ∧
    Live s.store 0 ∧ Live t.store 0 ∧ s.store.field 0 .id = t.store.field 0 .id ∧
    s.writes 0 = t.writes 0 ∧
    ¬ ∃ buff s' t', objstoreRead .cached (s.store.field 0 .id) 4 (0 : ℕ) s.store =
        .ok ((4, buff), s') ∧
      objstoreRead .cached (s.store.field 0 .id) 4 (0 : ℕ) t.store = .ok ((4, buff), t') := by
  obtain ⟨s, hcreate, hs, hc, hnone⟩ := opening_first .cached
  have hnamed := named_created blank_zeroDevice hc
  obtain ⟨t, hallowed, hrunB, hopeningB, hcB, -, hkept⟩ := hs.second hnamed
  have hreached := (Reaches.refl (Op.run .cached) (fun op s ↦ op.Allowed s ∧ op.Orderly s)
    (.start zeroDevice)).step ⟨allowed_first, trivial⟩ hcreate
  have hremount (u : Journal) : Op.remount.Allowed u ∧ Op.remount.Orderly u := ⟨trivial, trivial⟩
  have hslots := hs.order.durable.sameSlots
  have hslotsB := hopeningB.order.durable.sameSlots
  have hidB : t.store.field 0 .id = s.store.field 0 .id := by
    rw [hcB.field, if_neg fun h ↦ absurd h.1 zero_ne_one]
  have hids : (remount s.store).field 0 .id = (remount t.store).field 0 .id := by
    rw [field_frame hslots (by norm_num), field_frame hslotsB (by norm_num), hidB]
  have hnew : Live (remount s.store) 0 := (live_frame hslots 0).mpr hs.live
  have hnewB : Live (remount t.store) 0 := (live_frame hslotsB 0).mpr hopeningB.live
  refine ⟨⟨remount s.store, s.writes⟩, ⟨remount t.store, t.writes⟩,
    hreached.step (hremount s) rfl, (hreached.step ⟨hallowed, trivial⟩ hrunB).step (hremount t) rfl,
    hnew, hnewB, hids, congrFun hkept.symm 0, ?_⟩
  rintro ⟨buff, s', t', hread, hread'⟩
  have hwrites : s.writes 0 = [] := congrFun hnone 0
  obtain ⟨u, hempty⟩ := read_empty (hs.order.remount .cached) hnew hwrites
  obtain ⟨u', hempty'⟩ :=
    read_empty (hopeningB.order.remount .cached) hnewB ((congrFun hkept 0).trans hwrites)
  have hout := congrArg (fun out ↦ out.1.2) (Except.ok.inj (hread.symm.trans hempty))
  rw [← hids] at hempty'
  have hout' := congrArg (fun out ↦ out.1.2) (Except.ok.inj (hread'.symm.trans hempty'))
  have hword := word_of_bytesOf (hout.symm.trans hout')
  rw [word_remount hs.order.durable, word_remount hopeningB.order.durable] at hword
  have hset : t.store.inodeBit 1 = true := by rw [hcB.inodeBit, if_pos rfl]
  have hclear : s.store.inodeBit 1 = false := hnamed.bit 1 (by norm_num)
  have hsame : s.store.inodeBit 1 = t.store.inodeBit 1 :=
    congrArg (fun word : BitVec 32 ↦ word.getMsbD 1) hword
  rw [hset, hclear] at hsame
  cases hsame

end OsAssignments.Objstore
