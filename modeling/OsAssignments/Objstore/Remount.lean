import OsAssignments.Objstore.Sharing

/-!
# Remounting in the course of a run

`Mounted` is a store in use: it was mounted from a blank disk, served calls that change it, and may
have been unmounted and mounted again any number of times, each time by either build. Two facts
hold of every such store. `Pointed` is about the table: the pointers of a live object are set, to
blocks of the data region, exactly as far as blocks were appended. `Durable` is about the device:
no dirty line holds a metadata block, and an inode block without a flag carries its records on the
disk. They support each other, and `remount_restores` follows from the second.

Nothing is assumed about `data_bitmap` beyond the blocks an append finds free. After a destroy has
toggled the wrong bits two objects may share a block; the table and the device do not care.
-/

set_option autoImplicit false
set_option relaxedAutoImplicit false

namespace OsAssignments.Objstore

open Library

/-! ### The device -/

/-- The conditions on the device under which an unmount loses nothing. -/
structure Durable (bld : Build) (s : Store) : Prop where
  dev : BuildOk bld s.dev
  dirty : DirtyFrom 22815 s.dev
  quiet : Quiet bld s.dev
  faithful : Faithful s

variable {bld : Build} {s s' : Store} {d : Device} {k n : ℕ} {bits : List ℕ}

theorem quiet_run (hd : Quiet bld d) (call : BlockCall) : Quiet bld (call.run bld d) := by
  rintro rfl i
  cases call with
  | read b temp => exact hd rfl i
  | write b x =>
    rw [BlockCall.run, cacheBlkWrite_uncached_cacheDirty]
    exact hd rfl i

theorem quiet_runCalls (hd : Quiet bld d) (calls : List BlockCall) :
    Quiet bld (runCalls bld calls d) := by
  induction calls generalizing d with
  | nil => exact hd
  | cons call calls ih => exact ih (quiet_run hd call)

theorem durable_objstoreInit (bld : Build) (d : Device) : Durable bld (objstoreInit d) where
  dev := buildOk_objstoreInit bld d
  dirty := dirtyFrom_objstoreInit d 22815
  quiet := quiet_objstoreInit bld d
  faithful := faithful_objstoreInit d

/-- The records lie 46 to an inode block: a record that changes has the block that is flagged. -/
theorem faithful_of_change (h : Faithful s)
    (hbytes : ∀ n, n < 88 * k ∨ 88 * k + 88 ≤ n → s'.a n = s.a n)
    (hflags : s'.dirtyArray = Function.update s.dirtyArray (k / 46) 1)
    (hdisk : ∀ b < 22815, s'.dev.disk b = s.dev.disk b) : Faithful s' := by
  intro n hn hflag
  have hblock : n / 4048 ≠ k / 46 := by
    intro heq
    rw [hflags, heq, Function.update_self] at hflag
    cases hflag
  rw [hflags, Function.update_of_ne hblock] at hflag
  rw [hdisk _ (by omega), hbytes n (by omega)]
  exact h n hn hflag

/-- Block calls in the data region keep the conditions on the device. -/
theorem Durable.calls (h : Durable bld s) (calls : List BlockCall)
    (hcalls : ∀ call ∈ calls, 22815 ≤ call.blk) (hdev : s'.dev = runCalls bld calls s.dev)
    (hfaithful : (∀ b < 22815, s'.dev.disk b = s.dev.disk b) → Faithful s') : Durable bld s' where
  dev := hdev ▸ buildOk_runCalls h.dev calls
  dirty := hdev ▸ dirtyFrom_runCalls h.dirty calls hcalls
  quiet := hdev ▸ quiet_runCalls h.quiet calls
  faithful := hfaithful fun b hb ↦ by
    rw [hdev]
    exact disk_runCalls h.dirty calls hcalls hb

/-- A destroy that releases no negative block number loses nothing that an unmount needs. -/
theorem Durable.destroyed (h : Durable bld s) (hd : Destroyed k s s')
    (hreleased : ∀ b ∈ released s k, 0 ≤ b) : Durable bld s' := by
  obtain ⟨hok, hdirty, hquiet⟩ := device_dropLines (n := 22815) hreleased h.dev
  rw [← hd.dev] at hok hdirty hquiet
  refine ⟨hok, hdirty h.dirty, hquiet h.quiet,
    faithful_of_change h.faithful (fun n hn ↦ hd.bytes n (by omega)) hd.dirtyArray fun b _ ↦ ?_⟩
  rw [hd.dev, dropLines_disk]

/-! ### The table -/

/-- The block index at which an append assigns a pointer of the record. -/
def Field.opensAt : Field → ℕ
  | .direct i => i
  | .indirect r => 4 + 1024 * r
  | _ => 0

/-- Pointers of a live object are set exactly as far as blocks were appended. -/
def Pointed (s : Session) : Prop :=
  ∀ k, Live s.store k → ∀ f : Field, f.pointer = true →
    (f.opensAt < s.written k → 22815 ≤ s.store.field k f) ∧
    (s.written k ≤ f.opensAt → s.store.field k f = 0)

/-- The pointer a write assigns is the one that block index `n` opens, if there is one. -/
structure Opens (n : ℕ) (target : Option (Field × ℕ)) : Prop where
  region : ∀ f b, target = some (f, b) → f.pointer = true ∧ 22815 ≤ b
  iff : ∀ f : Field, f.pointer = true → (f.opensAt = n ↔ ∃ b, target = some (f, b))

theorem opens_some {f : Field} {j : ℕ} (hf : f.pointer = true) (hn : f.opensAt = n) :
    Opens n (some (f, 22815 + j)) where
  region := by
    rintro f' b heq
    obtain ⟨rfl, rfl⟩ := Prod.mk.inj (Option.some.inj heq)
    exact ⟨hf, Nat.le_add_right ..⟩
  iff := fun f' hf' ↦ by
    constructor
    · intro hn'
      have hff : f = f' := by
        rw [← hn] at hn'
        cases f <;> cases f' <;> simp only [Field.opensAt, Field.pointer, Bool.false_eq_true,
          Field.direct.injEq, Field.indirect.injEq, Fin.ext_iff] at hf hf' hn' ⊢ <;> omega
      exact ⟨_, by rw [hff]⟩
    · rintro ⟨b, heq⟩
      rw [← (Prod.mk.inj (Option.some.inj heq)).1]
      exact hn

theorem opens_none {r i : ℕ} (hpos : 0 < i) (hi : i < 1024) : Opens (4 + 1024 * r + i) none where
  region := nofun
  iff := fun f hf ↦ by
    refine iff_of_false (fun heq ↦ ?_) nofun
    cases f <;> simp only [Field.opensAt, Field.pointer, Bool.false_eq_true] at hf heq <;> omega

/-- The pointer that a write at block index `n` assigns is the one that `n` opens. -/
theorem opens_writeTarget (hn : n < 4100) (htakes : Takes s n bits) :
    Opens n (writeTarget n bits) := by
  match bits, htakes with
  | [j], ⟨hj, hnot⟩ =>
    rcases Place.index_cases hn with hdirect | ⟨r, i, hr, hi, rfl⟩
    · rw [writeTarget, dif_pos hdirect]
      exact opens_some rfl rfl
    · have hpos : 0 < i := Nat.pos_of_ne_zero fun hzero ↦ hnot ⟨r, hr⟩ (by rw [hzero]; rfl)
      rw [writeTarget, dif_neg (by omega), if_neg (by omega)]
      exact opens_none hpos hi
  | [j₁, j₂], ⟨hj₁, hj₂, r, hr⟩ =>
    have hrange : rangeOf n = r := by
      have hzero := rangeOf_eq (r := r) (i := 0) (by norm_num)
      rwa [Nat.add_zero, ← hr] at hzero
    rw [writeTarget, dif_neg (by omega), if_pos (by omega), hrange]
    exact opens_some rfl hr.symm

/-- An append moves the boundary of the pointers that are set by one block index. -/
theorem Pointed.append {s : Session} {st : Store} {target : Option (Field × ℕ)}
    {calls : List BlockCall} {len : ℕ} (h : Pointed s)
    (hw : Written bld k len target bits calls s.store st) (hopens : Opens (s.written k) target) :
    Pointed ⟨st, Function.update s.written k (s.written k + 1)⟩ := by
  intro k' hlive f hf
  have hold := h k' ((hw.live (fun f b hb ↦ (hopens.region f b hb).1) k').mp hlive) f hf
  by_cases hk : k' = k
  · subst hk
    have hiff := hopens.iff f hf
    simp only [Function.update_self]
    by_cases hn : f.opensAt = s.written k'
    · obtain ⟨b, hb⟩ := hiff.mp hn
      rw [hw.assigned f b hb]
      have := (hopens.region f b hb).2
      exact ⟨fun _ ↦ by omega, fun hle ↦ by omega⟩
    · rw [hw.pointer hf fun _ b hb ↦ hn (hiff.mpr ⟨b, hb⟩)]
      exact ⟨fun hlt ↦ hold.1 (by omega), fun hle ↦ hold.2 (by omega)⟩
  · rw [hw.pointer hf fun heq ↦ absurd heq hk]
    simpa only [Function.update_of_ne hk] using hold

/-- An object without indirect blocks releases its direct blocks, and four zero pointers. -/
theorem released_small {b : ℤ}
    (hdirect : ∀ i, s.field k (.direct i) = 0 ∨ 22815 ≤ s.field k (.direct i))
    (hindirect : ∀ r, s.field k (.indirect r) = 0) (hb : b ∈ released s k) :
    b = 0 ∨ 22815 ≤ b := by
  rw [released, List.mem_append] at hb
  rcases hb with hb | hb
  · obtain ⟨i, -, hi⟩ := List.mem_flatMap.mp hb
    obtain rfl : b = s.field k (.direct i) := List.mem_singleton.mp (List.mem_of_mem_filter hi)
    exact hdirect i
  · obtain ⟨r, -, hr⟩ := List.mem_flatMap.mp hb
    rw [releasedIndirect, hindirect, if_neg (by norm_num)] at hr
    exact Or.inl (List.mem_singleton.mp hr)

/-! ### Stores in use -/

/-- The calls that change the store; an object that is destroyed has at most four blocks. -/
def Call.Mutates : Call → Session → Prop
  | .read _ _ _, _ => False
  | .destroy key, s => ∀ k, Live s.store k → keyEq s.store.a k key = true → s.written k ≤ 4
  | _, _ => True

/-- A store mounted from a blank disk that has served calls and been mounted again. -/
inductive Mounted : Build → Session → Prop
  | blank {bld : Build} {d : Device} (hd : Blank d) : Mounted bld (.start d)
  | call {bld : Build} {s t : Session} {call : Call} {reply : Reply} (hs : Mounted bld s)
    (hallowed : call.Allowed s) (hfinds : call.FindsBlocks s) (hmutates : call.Mutates s)
    (hrun : call.run bld s = .ok (reply, t)) : Mounted bld t
  | again {bld : Build} {s : Session} (bld' : Build) (hs : Mounted bld s) :
    Mounted bld' ⟨remount s.store, s.written⟩

/-- What holds of every store in use. -/
structure InUse (bld : Build) (s : Session) : Prop where
  consistent : Consistent s.store
  pointed : Pointed s
  durable : Durable bld s.store

variable {s t : Session} {call : Call} {reply : Reply}

theorem inUse_start (bld : Build) {d : Device} (hd : Blank d) : InUse bld (.start d) where
  consistent := consistent_start hd
  pointed := fun _ hlive ↦ absurd hlive (not_live_blank hd)
  durable := durable_objstoreInit bld d

/-- The pointers of an object that is created are those of an empty slot. -/
theorem Pointed.created {st : Store} {key : Key} (h : Pointed s) (ht : Tidy s.store)
    (hk : k < 1015808) (hclear : s.store.inodeBit k = false) (hc : Created key k s.store st) :
    Pointed ⟨st, s.kept⟩ := by
  intro k' hlive f hf
  have hfield : st.field k' f = s.store.field k' f := by
    rw [hc.field, if_neg]
    rintro ⟨-, rfl⟩
    cases hf
  show (f.opensAt < s.kept k' → 22815 ≤ st.field k' f) ∧ (s.kept k' ≤ f.opensAt → st.field k' f = 0)
  rw [hfield]
  rcases (hc.live hk k').mp hlive with hold | rfl
  · rw [Session.kept, if_pos hold]
    exact h k' hold f hf
  · have hnew : ¬ Live s.store k' := fun hl ↦ by
      rw [hl.bit] at hclear
      cases hclear
    have hzero := ht.clear k' hk hclear f (by cases f <;> first | rfl | cases hf)
    rw [Session.kept, if_neg hnew]
    exact ⟨fun hlt ↦ absurd hlt (Nat.not_lt_zero _), fun _ ↦ hzero⟩

theorem Pointed.destroyed {st : Store} (h : Pointed s) (hd : Destroyed k s.store st) :
    Pointed ⟨st, s.written⟩ := by
  intro k' hlive f hf
  obtain ⟨hold, hne⟩ := (hd.live k').mp hlive
  rw [hd.field, if_neg fun hor ↦ hne hor.1]
  exact h k' hold f hf

/-- Every call of a store in use keeps the table and the device in order. -/
theorem inUse_step (h : InUse bld s) (hallowed : call.Allowed s) (hfinds : call.FindsBlocks s)
    (hmutates : call.Mutates s) (hrun : call.run bld s = .ok (reply, t)) : InUse bld t := by
  have hconsistent := consistent_step h.consistent hallowed hrun
  have ht := h.consistent.tidy
  cases turn_of_run h.consistent hallowed hrun with
  | full key hfull =>
    refine ⟨hconsistent, fun k hlive f hf ↦ ?_, h.durable.dev, h.durable.dirty, h.durable.quiet,
      h.durable.faithful⟩
    have hold : Live s.store k := ⟨hlive.slot, hlive.bit, hlive.id⟩
    show (f.opensAt < s.kept k → 22815 ≤ s.store.field k f) ∧
      (s.kept k ≤ f.opensAt → s.store.field k f = 0)
    rw [Session.kept, if_pos hold]
    exact h.pointed k hold f hf
  | created key k st hk hclear hcreated =>
    exact ⟨hconsistent, h.pointed.created ht hk hclear hcreated,
      h.durable.calls [] (by simp) hcreated.dev
        (faithful_of_change h.durable.faithful hcreated.bytes hcreated.dirtyArray)⟩
  | appended k buff st hwrite hkeeps =>
    obtain ⟨hlive, hlt, -, -⟩ := hallowed
    obtain ⟨bits, htakes⟩ := exists_takes hfinds
    have hptr (hge : 4 ≤ s.written k) (hne : (s.written k - 4) % 1024 ≠ 0) :
        22815 ≤ s.store.field k (.indirect (rangeOf (s.written k))) :=
      (h.pointed k hlive (.indirect _) rfl).1 (by simp only [Field.opensAt, rangeOf]; omega)
    obtain ⟨st', hrun', hw⟩ := written_takes buff (s.written k * 4096) hlive
      (fun i hi heq ↦ ht.ids i k hi hlive heq) h.durable.dev hlt (by omega) htakes
      fun hge hne ↦ le_trans (by norm_num) (hptr hge hne)
    rw [hwrite] at hrun'
    obtain rfl : st = st' := (Prod.mk.inj (Except.ok.inj hrun')).2
    exact ⟨hconsistent, h.pointed.append hw (opens_writeTarget hlt htakes),
      h.durable.calls _ (writeCalls_region hlt htakes hptr) hw.dev
        (faithful_of_change h.durable.faithful (fun n hn ↦ hw.bytes n (by omega)) hw.dirtyArray)⟩
  | read k size offset out dev hread => exact hmutates.elim
  | destroyed key k st hlive hkey hdestroyed =>
    have hsmall := hmutates k hlive hkey
    refine ⟨hconsistent, h.pointed.destroyed hdestroyed,
      h.durable.destroyed hdestroyed fun b hb ↦ ?_⟩
    have hcases := released_small (fun i ↦ ?_) (fun r ↦ ?_) hb
    · omega
    · have hp := h.pointed k hlive (.direct i) rfl
      exact (le_or_gt (s.written k) _).imp hp.2 hp.1
    · exact (h.pointed k hlive (.indirect r) rfl).2 (by simp only [Field.opensAt]; omega)

/-- A store that is in order keeps its slots when it is mounted again. -/
theorem Durable.sameSlots {st : Store} (h : Durable bld st) : SameSlots (remount st) st where
  bit := fun k hk ↦ by
    rw [Store.inodeBit, Store.inodeBit, Bitmap.bit, Bitmap.bit,
      inodeBitmap_remount h.dirty (by omega)]
  bytes := fun n hn ↦ table_remount h.dirty h.faithful (by omega)

theorem inUse_of_mounted (h : Mounted bld s) : InUse bld s := by
  induction h with
  | blank hd => exact inUse_start _ hd
  | call _ hallowed hfinds hmutates hrun ih => exact inUse_step ih hallowed hfinds hmutates hrun
  | @again bld s bld' _ ih =>
    have hslots := ih.durable.sameSlots
    refine ⟨ih.consistent.frame hslots, fun k hlive f hf ↦ ?_, durable_objstoreInit bld' _⟩
    have hold := (live_frame hslots k).mp hlive
    rw [field_frame hslots hold.slot]
    exact ih.pointed k hold f hf

/-- Mounting after an unmount restores the bitmaps, every record, and the content of every block
of the data region, those of live objects among them. -/
theorem remount_restores (bld bld' : Build) (s : Session) (h : Mounted bld s) :
    (∀ j < 31744, (remount s.store).inodeBitmap j = s.store.inodeBitmap j) ∧
    (∀ j < 262144, (remount s.store).dataBitmap j = s.store.dataBitmap j) ∧
    (∀ k < 1015808, ∀ n < 88, (remount s.store).a (88 * k + n) = s.store.a (88 * k + n)) ∧
    ∀ b : ℕ, 22815 ≤ b → logical bld' (remount s.store).dev b = logical bld s.store.dev b := by
  have hd := (inUse_of_mounted h).durable
  exact ⟨fun j hj ↦ inodeBitmap_remount hd.dirty hj, fun j hj ↦ dataBitmap_remount hd.dirty hj,
    fun k hk n hn ↦ table_remount hd.dirty hd.faithful (by omega),
    fun b hb ↦ logical_remount hd.dev hd.quiet bld' hb⟩

/-- One object with one block, written through the cache and mounted again without it. -/
theorem remount_first_block : ∃ s : Session, Mounted .cached s ∧
    s.store.field 0 (.direct 0) = 22815 ∧
    logical .uncached (remount s.store).dev 22815 = Block.ofList [7] := by
  obtain ⟨st, hcreate, hc⟩ := created_blank blank_zeroDevice ⟨[97], by decide⟩ (by decide)
  have hlive : Live st 0 := (hc.live (by norm_num) 0).mpr (Or.inr rfl)
  have hbit {i : ℕ} (hi : i < 8388608) : st.dataBit i = false := by
    rw [Store.dataBit, hc.dataBitmap]
    exact dataBit_blank blank_zeroDevice hi
  have hallowed : (Call.create ⟨[97], by decide⟩).Allowed (.start zeroDevice) :=
    ⟨by decide, fun _ hlive ↦ absurd hlive (not_live_blank blank_zeroDevice)⟩
  have hstep : Call.run .cached (.create ⟨[97], by decide⟩) (.start zeroDevice) =
      .ok (.value 2, ⟨st, (Session.start zeroDevice).kept⟩) := by
    rw [Call.run, Session.start, hcreate]
  have hmounted := (Mounted.blank blank_zeroDevice).call hallowed trivial trivial hstep
  have hkept : (Session.start zeroDevice).kept 0 = 0 := ite_self 0
  have hwf := (inUse_of_mounted hmounted).consistent
  have hoffset : (Session.start zeroDevice).kept 0 * 4096 / 4096 = ((0 : Fin 4) : ℕ) := by
    rw [hkept]
    rfl
  obtain ⟨st', hwrite, hw⟩ := written_direct .cached [7] hlive rfl
    (fun i hi heq ↦ hwf.tidy.ids i 0 hi hlive heq) hoffset
    ⟨by norm_num, hbit (by norm_num), fun j hj ↦ absurd hj (Nat.not_lt_zero j)⟩
  have hfinds : (Call.append 0 [7]).FindsBlocks ⟨st, (Session.start zeroDevice).kept⟩ := by
    show blocksNeeded ((Session.start zeroDevice).kept 0) ≤ _
    rw [hkept]
    exact Finset.card_pos.mpr ⟨0, Bitmap.mem_clearBits.mpr ⟨by norm_num, hbit (by norm_num)⟩⟩
  have hstep' : Call.run .cached (.append 0 [7]) ⟨st, (Session.start zeroDevice).kept⟩ =
      .ok (.value 1, ⟨st', Function.update (Session.start zeroDevice).kept 0
        ((Session.start zeroDevice).kept 0 + 1)⟩) := by
    rw [Call.run, hwrite]
    rfl
  have hallowed' : (Call.append 0 [7]).Allowed ⟨st, (Session.start zeroDevice).kept⟩ :=
    ⟨hlive, hkept.trans_lt (by norm_num), by decide, by decide⟩
  have hmounted' := hmounted.call hallowed' hfinds trivial hstep'
  refine ⟨_, hmounted', hw.assigned _ _ rfl, ?_⟩
  refine ((remount_restores .cached .uncached _ hmounted').2.2.2 22815 (by norm_num)).trans ?_
  rw [hw.logical (inUse_of_mounted hmounted).durable.dev]
  simp [applyCalls, BlockCall.apply]

end OsAssignments.Objstore
