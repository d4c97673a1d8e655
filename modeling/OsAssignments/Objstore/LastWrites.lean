import OsAssignments.Objstore.Journals

/-!
# The latest write to a block

A write replaces a whole block: the bytes it does not bring are zero afterwards, wherever in the
block its offset points. So the law of the last write holds block by block, for writes and reads at
offsets that are multiples of the block size (`last_block_write_wins`), and not byte by byte
(`byte_write_lost`).

`Latest writes a buff` says that `buff` is what the latest write to block index `a` brought, and
that no write has replaced the indirect block of `a` since.
-/

set_option autoImplicit false
set_option relaxedAutoImplicit false

namespace OsAssignments.Objstore

open Library Library.Ownership

/-- The latest write to a block index, with no later write at the first index of its range. -/
def Latest (writes : List (ℕ × List UInt8)) (a : ℕ) (buff : List UInt8) : Prop :=
  ∃ after before, writes = after ++ (a, buff) :: before ∧ ∀ w ∈ after, a ≠ w.1 ∧ ¬Drops w.1 a

/-- An operation of a journal, or the destruction of an object. -/
inductive Deed
  | plain (op : Op)
  | destroy (key : Key)

namespace Deed

/-- A destroyed object has received no writes. -/
def run (bld : Build) : Deed → Journal → Except Fault (Reply × Journal)
  | plain op, s => op.run bld s
  | destroy key, s =>
    (destroyObject key s.store).map fun (v, t) ↦
      (.value v, ⟨t, fun k ↦ if Live t k then s.writes k else []⟩)

/-- The store is used block by block, as it expects it: see `Op.Allowed`, `Op.Orderly` and
`Op.Harmless`. An object that is destroyed has current disk copies of its indirect blocks, and no
block 574 below a block of another object. -/
def Blockwise (bld : Build) : Deed → Journal → Prop
  | plain op, s => op.Allowed s ∧ op.Orderly s ∧ op.Harmless bld s
  | destroy key, s => key.Short ∧ ∃ k, Live s.store k ∧ keyEq s.store.a k key = true ∧
      Current bld s.store k ∧ Apart bld s.store k

end Deed

variable {bld : Build} {d : Device} {s t : Journal} {k a offset : ℕ} {buff : List UInt8}

theorem fileOf_latest {writes : List (ℕ × List UInt8)} (h : Latest writes a buff) :
    fileOf writes a = some buff := by
  obtain ⟨after, before, rfl, hafter⟩ := h
  exact fileOf_append hafter

/-- A destroy leaves the other objects alone. -/
theorem InOrder.destroy (h : InOrder bld s) {st : Store} (hd : Destroyed k s.store st)
    (hlive : Live s.store k) (hcurrent : Current bld s.store k) (hapart : Apart bld s.store k) :
    InOrder bld ⟨st, fun k ↦ if Live st k then s.writes k else []⟩ where
  consistent := ⟨hd.tidy h.consistent.tidy, hd.keysUnique h.consistent.keys⟩
  sound := h.sound.destroyed hd hlive hcurrent hapart
  durable := h.durable.destroyed hd fun b hb ↦ by
    have hcases := released_cases h.sound.toOwned hlive hcurrent hb
    omega
  files := fun k' hlive' a ha ↦ by
    have hold := (hd.live k').mp hlive'
    rw [content_destroyed hd h.sound.toOwned hlive hcurrent, if_neg hold.2]
    change _ = (fileOf (if Live st k' then s.writes k' else []) a).map Block.ofList
    rw [if_pos hlive']
    exact h.files k' hold.1 a ha
  unborn := fun k' hdead ↦ if_neg hdead

/-- Every deed keeps the invariant. -/
theorem InOrder.deed {deed : Deed} {reply : Reply} (h : InOrder bld s)
    (hblockwise : deed.Blockwise bld s) (hrun : deed.run bld s = .ok (reply, t)) :
    InOrder bld t := by
  cases deed with
  | plain op => exact inOrder_step h hblockwise.1 hblockwise.2.1 hblockwise.2.2 hrun
  | destroy key =>
    obtain ⟨hkey, k, hlive, heq, hcurrent, hapart⟩ := hblockwise
    obtain ⟨st, hdestroy, hd⟩ := destroyObject_live h.consistent.keys hkey hlive heq
    rw [Deed.run, hdestroy] at hrun
    cases hrun
    exact h.destroy hd hlive hcurrent hapart

/-- An aligned read of a live object returns what the latest write to each block index brought. -/
theorem InOrder.read_latest (h : InOrder bld s) (hlive : Live s.store k) {size : ℕ}
    (haligned : offset % 4096 = 0) (hrange : offset + size ≤ 4096 * 4100)
    (hopen : ∀ i < (size + 4095) / 4096, Opened s.store k (offset / 4096 + i)) :
    ∃ out t, objstoreRead bld (s.store.field k .id) size (offset : ℤ) s.store =
        .ok ((size, out), t) ∧
      ∀ p < size, ∀ buff, Latest (s.writes k) ((offset + p) / 4096) buff →
        out[p]? = some (buff.getD ((offset + p) % 4096) 0) := by
  obtain ⟨calls, -, hread⟩ := objstoreRead_content h.sound.toOwned hlive size offset (by omega)
    (by omega : (size + 4095) / 4096 = min ((size + 4095) / 4096) (4100 - offset / 4096)) hopen
  refine ⟨_, _, hread, fun p hp buff hlatest ↦ ?_⟩
  have hindex : offset / 4096 + p / 4096 = (offset + p) / 4096 := by omega
  have hbyte : (offset + p) % 4096 = p % 4096 := by omega
  have hi : p / 4096 < (size + 4095) / 4096 := by omega
  have hcontent : content bld s.store (k, .ofIndex (offset / 4096 + p / 4096)) =
      some (Block.ofList buff) := by
    rw [h.files k hlive _ (by omega), hindex, fileOf_latest hlatest, Option.map_some]
  rw [bytesOf, List.getElem?_map, List.getElem?_range hp, Option.map_some,
    List.getD_eq_getElem _ _ (by simpa using hi), List.getElem_map, List.getElem_range, hcontent,
    Option.getD_some, Block.byte_ofList _ (Nat.mod_lt p (by norm_num)), hbyte]

/-- The last write to a block wins, in every run that reads and writes whole blocks. -/
theorem last_block_write_wins (bld : Build) (d : Device) (hd : Blank d) (s : Journal)
    (hrun : Reaches (Deed.run bld) (Deed.Blockwise bld) (.start d) s) (k size offset : ℕ)
    (hlive : Live s.store k) (haligned : offset % 4096 = 0) (hrange : offset + size ≤ 4096 * 4100)
    (hopen : ∀ i < (size + 4095) / 4096, Opened s.store k (offset / 4096 + i)) :
    ∃ out t, objstoreRead bld (s.store.field k .id) size (offset : ℤ) s.store =
        .ok ((size, out), t) ∧
      ∀ p < size, ∀ buff, Latest (s.writes k) ((offset + p) / 4096) buff →
        out[p]? = some (buff.getD ((offset + p) % 4096) 0) :=
  (hrun.invariant (InOrder bld) (fun _ _ _ _ h hok hstep ↦ h.deed hok hstep)
    (inOrder_start bld hd)).read_latest hlive haligned hrange hopen

/-- A block of an object on the zero disk is written twice. -/
theorem last_block_write_wins_twice : ∃ s out t,
    Reaches (Deed.run .cached) (Deed.Blockwise .cached) (.start zeroDevice) s ∧
      s.writes 0 = [(0, [9]), (0, [7])] ∧
      objstoreRead .cached (s.store.field 0 .id) 1 ((0 : ℕ) : ℤ) s.store = .ok ((1, out), t) ∧
      out[0]? = some 9 := by
  obtain ⟨s₁, hcreate, h₁, -, hwrites₁⟩ := opening_first .cached
  obtain ⟨s₂, hrun₂, h₂, -, hwrites₂⟩ :=
    h₁.write_direct 0 [7] (by decide) (by decide) (by decide)
  obtain ⟨s₃, hrun₃, h₃, -, hwrites₃⟩ :=
    h₂.write_direct 0 [9] (by decide) (by decide) (by decide)
  have hfirst : (Deed.plain (.create keyA)).Blockwise .cached (.start zeroDevice) :=
    ⟨allowed_first, trivial, trivial⟩
  have hblockwise {s : Journal} {c : ℕ} (h : Opening .cached s c) (hc : c + 1 ≤ 8388608)
      (x : UInt8) : (Deed.plain (.write 0 0 [x])).Blockwise .cached s := by
    have hreached := reached_direct s.store 0 (by norm_num : 0 < 4)
    exact ⟨h.allowed (by norm_num) [x] (by simp) (by simp), h.orderly hreached hc [x], trivial⟩
  have hrun : Reaches (Deed.run .cached) (Deed.Blockwise .cached) (.start zeroDevice) s₃ :=
    (((Reaches.refl _ _ _).step hfirst hcreate).step (hblockwise h₁ (by decide) 7) hrun₂).step
      (hblockwise h₂ (by decide) 9) hrun₃
  have hwrites : s₃.writes 0 = [(0, [9]), (0, [7])] := by
    rw [hwrites₃, hwrites₂, hwrites₁]
    rfl
  have hlatest : Latest (s₃.writes 0) 0 [9] :=
    ⟨[], [(0, [7])], hwrites, fun w hw ↦ absurd hw List.not_mem_nil⟩
  obtain ⟨out, u, hread, hout⟩ := last_block_write_wins .cached zeroDevice blank_zeroDevice s₃ hrun
    0 1 0 h₃.live rfl (by norm_num) fun i hi r j hj heq ↦ by omega
  exact ⟨s₃, out, u, hrun, hwrites, hread, hout 0 (by norm_num) [9] hlatest⟩

/-- A byte written at offset 1 is found at offset 0, and not at offset 1. -/
theorem byte_write_lost : ∃ s st t,
    (Op.create keyA).run .cached (.start zeroDevice) = .ok (.value 2, s) ∧
      objstoreWrite .cached 2 [7] ((1 : ℕ) : ℤ) s.store = .ok (1, st) ∧
      objstoreRead .cached 2 2 ((0 : ℕ) : ℤ) st = .ok ((2, [7, 0]), t) := by
  obtain ⟨s, hcreate, hopening, -, -⟩ := opening_first .cached
  have hlive := hopening.live
  have hids : ∀ i, Live s.store i → s.store.field i .id = s.store.field 0 .id → i = 0 :=
    fun i hi heq ↦ hopening.order.sound.ids i 0 hi hlive heq
  have hid : s.store.field 0 .id = 2 := hopening.order.consistent.tidy.id_of_live hlive
  have htakes := takes_of_filled hopening.filled (n := 0) (by decide)
  obtain ⟨st, hwrite, hst⟩ := stored_write [7] hopening.order.sound.toOwned hlive (by norm_num)
    (by norm_num : 1 / 4096 = 0) htakes
    (fun j hj q ↦ hopening.order.sound.fresh (htakes.clear j hj).2 q)
    (reached_direct _ 0 (by norm_num))
  obtain ⟨st', hwrite', hkeeps⟩ := objstoreWrite_keeps .cached [7] 1 (by norm_num) hlive hids
  obtain rfl : st = st' := (Prod.mk.inj (Except.ok.inj (hwrite.symm.trans hwrite'))).2
  obtain ⟨target, calls, hw, htarget, -⟩ := hst.written
  have hlive' : Live st 0 := (hw.live htarget 0).mpr hlive
  have hid' : st.field 0 .id = 2 := (hkeeps.id 0).trans hid
  have hcontent : content .cached st (0, .ofIndex (0 / 4096 + 0)) = some (Block.ofList [7]) := by
    rw [hst.content (fun r heq ↦ by omega) _ (Place.isData_ofIndex 0), Function.update_self]
  obtain ⟨calls', -, hread⟩ := objstoreRead_content hst.owned hlive' 2 0 (by norm_num)
    (by norm_num : 1 = min ((2 + 4095) / 4096) (4100 - 0 / 4096)) fun i hi r j hj heq ↦ by omega
  have hbytes : bytesOf [Block.ofList [7]] 2 = [7, 0] := by
    simp [bytesOf, List.range_succ, Block.byte_ofList]
  rw [List.range_one, List.map_singleton, hcontent, Option.getD_some, hbytes, hid'] at hread
  rw [hid] at hwrite
  exact ⟨s, st, _, hcreate, hwrite, hread⟩

end OsAssignments.Objstore
