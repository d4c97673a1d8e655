import OsAssignments.Objstore.Sessions

/-!
# Runs in which no block is shared

`Intact` is the invariant of a session whose objects share no block: the slots are in order, every
block has one place, and each live object holds as many blocks as were appended to it. An allowed
call keeps it when it is `Safe`: an append takes blocks that no place refers to, and a destroy
finds its indirect blocks current on the disk.

In the uncached build the disk is always current, and a sound store makes every append safe. What
breaks soundness is the toggle of `destroy_object`, which clears the bit 574 places past the bit
of a released block. `no_block_sharing` covers the runs in which no other object has a block
there, and `shared_after_destroy` is the shortest kind of run in which one does.
-/

set_option autoImplicit false
set_option relaxedAutoImplicit false

namespace OsAssignments.Objstore

open Library Library.Ownership

/-! ### The invariant -/

/-- No block has two places, and the objects hold what was appended to them. -/
structure Intact (bld : Build) (s : Session) : Prop where
  consistent : Consistent s.store
  owned : Owned bld s.store
  holds : ∀ k, Live s.store k → Holds bld s.store k (s.written k)

namespace Call

/-- An append takes blocks that no place refers to; a destroy reads current indirect blocks. -/
def Safe (bld : Build) : Call → Session → Prop
  | append k _, s => ∃ bits, Takes s.store (s.written k) bits ∧
      ∀ j ∈ bits, ∀ q, own bld s.store q ≠ some ((22815 + j : ℕ) : ℤ)
  | destroy key, s => ∀ k, Live s.store k → keyEq s.store.a k key = true →
      Current bld s.store k
  | _, _ => True

/-- An append finds its blocks free. -/
def FindsBlocks : Call → Session → Prop
  | append k _, s =>
    blocksNeeded (s.written k) ≤ (Bitmap.clearBits s.store.dataBitmap 8388608).card
  | _, _ => True

/-- A destroy releases no block 574 below a block of another object. -/
def KeepsApart (bld : Build) : Call → Session → Prop
  | destroy key, s => ∀ k, Live s.store k → keyEq s.store.a k key = true → Apart bld s.store k
  | _, _ => True

end Call

variable {bld bld' : Build} {s t : Session} {call : Call} {reply : Reply}

theorem intact_start (bld : Build) {d : Device} (hd : Blank d) : Intact bld (.start d) where
  consistent := consistent_start hd
  owned := (sound_of_no_live (fun _ ↦ not_live_blank hd) (buildOk_objstoreInit bld d)).toOwned
  holds := fun _ hlive ↦ absurd hlive (not_live_blank hd)

/-- A change that keeps the slots and the contents keeps the invariant. -/
theorem Intact.frame (hi : Intact bld s) (hslots : SameSlots t.store s.store)
    (hlogical : ∀ q b, own bld s.store q = some b →
      logical bld' t.store.dev b.toNat = logical bld s.store.dev b.toNat)
    (hdev : BuildOk bld' t.store.dev) (hwritten : ∀ k, Live s.store k → t.written k = s.written k) :
    Intact bld' t where
  consistent := hi.consistent.frame hslots
  owned := hi.owned.frame hslots hlogical hdev
  holds := fun k hlive ↦ by
    have hold := (live_frame hslots k).mp hlive
    rw [hwritten k hold]
    exact (hi.holds k hold).congr fun p ↦ congrFun (own_frame hslots hlogical) (k, p)

/-- An append stores its buffer at the next index. -/
theorem Intact.append (hi : Intact bld s) {k : ℕ} (buff : List UInt8) {bits : List ℕ}
    (hlive : Live s.store k) (hlt : s.written k < 4100) (htakes : Takes s.store (s.written k) bits)
    (hfresh : ∀ j ∈ bits, ∀ q, own bld s.store q ≠ some ((22815 + j : ℕ) : ℤ)) :
    ∃ st, objstoreWrite bld (s.store.field k .id) buff ((s.written k * 4096 : ℕ) : ℤ) s.store =
        .ok (buff.length, st) ∧ Stored bld k (s.written k) buff bits s.store st :=
  stored_write buff hi.owned hlive hlt (by omega) htakes hfresh (hi.holds k hlive).reached

/-- A safe call keeps the invariant. -/
theorem intact_step (hi : Intact bld s) (hallowed : call.Allowed s) (hsafe : call.Safe bld s)
    (hrun : call.run bld s = .ok (reply, t)) : Intact bld t := by
  have hconsistent := consistent_step hi.consistent hallowed hrun
  cases turn_of_run hi.consistent hallowed hrun with
  | full key hfull =>
    exact hi.frame (sameSlots_of_eq rfl rfl) (fun _ _ _ ↦ rfl) hi.owned.dev
      fun k hlive ↦ if_pos hlive
  | created key k st hk hclear hcreated =>
    have hown : own bld st = own bld s.store :=
      own_created hcreated hi.consistent.tidy hk hclear
    refine ⟨hconsistent, hi.owned.created hcreated hi.consistent.tidy hk hclear,
      fun k' hlive ↦ ?_⟩
    by_cases hlive' : Live s.store k'
    · simp only [Session.kept, if_pos hlive']
      exact (hi.holds k' hlive').congr fun p ↦ congrFun hown (k', p)
    · simp only [Session.kept, if_neg hlive']
      exact holds_zero fun p ↦ by rw [hown, own_of_not_live hlive']
  | appended k buff st hwrite hkeeps =>
    obtain ⟨hlive, hlt, -, -⟩ := hallowed
    obtain ⟨bits, htakes, hfresh⟩ := hsafe
    have hholds := hi.holds k hlive
    obtain ⟨st', hrun', hst⟩ := hi.append buff hlive hlt htakes hfresh
    rw [hwrite] at hrun'
    obtain rfl : st = st' := (Prod.mk.inj (Except.ok.inj hrun')).2
    refine ⟨hconsistent, hst.owned, fun k' hlive' ↦ ?_⟩
    have hold : Live s.store k' := (hkeeps.live k').mp hlive'
    have hnext := hst.holds hlt (hholds.unopened hlive) (hi.holds k' hold)
      fun heq ↦ by rw [heq]
    by_cases hk : k' = k
    · rw [if_pos hk] at hnext
      simp only [hk, Function.update_self] at hnext ⊢
      exact hnext
    · rw [if_neg hk] at hnext
      simp only [Function.update_of_ne hk]
      exact hnext
  | read k size offset out dev hread =>
    obtain ⟨calls, blks, hcalls, -, hrun'⟩ :=
      (hi.holds k hallowed.1).read hi.owned hallowed.1 size offset hallowed.2
    rw [hread] at hrun'
    obtain rfl : dev = runCalls bld calls s.store.dev :=
      congrArg Store.dev (Prod.mk.inj (Except.ok.inj hrun')).2
    exact hi.frame (sameSlots_of_eq rfl rfl)
      (fun _ b _ ↦ congrFun (logical_reads hi.owned.dev hcalls) b.toNat)
      (buildOk_runCalls hi.owned.dev calls) fun _ _ ↦ rfl
  | destroyed key k st hlive hkey hdestroyed =>
    have hcurrent := hsafe k hlive hkey
    refine ⟨hconsistent, hi.owned.destroyed hdestroyed hlive hcurrent, fun k' hlive' ↦ ?_⟩
    obtain ⟨hold, hne⟩ := (hdestroyed.live k').mp hlive'
    refine (hi.holds k' hold).congr fun p ↦ ?_
    rw [own_destroyed hdestroyed hi.owned hlive hcurrent, if_neg hne]

/-! ### Bits -/

/-- In a sound store an append that finds its blocks free takes blocks of no object. -/
theorem safe_of_sound (hs : Sound .uncached s.store) (hfinds : call.FindsBlocks s) :
    call.Safe .uncached s := by
  cases call with
  | create key => trivial
  | append k buff =>
    obtain ⟨bits, htakes⟩ := exists_takes hfinds
    exact ⟨bits, htakes, fun j hj q ↦ hs.fresh (htakes.clear j hj).2 q⟩
  | read k size offset => trivial
  | destroy key => exact fun k _ _ ↦ current_uncached s.store k

/-- A call of the uncached build keeps the bits of all blocks set, unless it destroys an object
with a block 574 below a block of another object. -/
theorem sound_step (hi : Intact .uncached s) (hs : Sound .uncached s.store)
    (hallowed : call.Allowed s) (hfinds : call.FindsBlocks s) (hapart : call.KeepsApart .uncached s)
    (hrun : call.run .uncached s = .ok (reply, t)) : Sound .uncached t.store := by
  cases turn_of_run hi.consistent hallowed hrun with
  | full key hfull =>
    exact hs.frame (s := s.store) (sameSlots_of_eq rfl rfl) (fun _ _ _ ↦ rfl) hs.dev fun _ _ ↦ rfl
  | created key k st hk hclear hcreated =>
    exact hs.created hcreated hi.consistent.tidy hk hclear
  | appended k buff st hwrite hkeeps =>
    obtain ⟨bits, htakes⟩ := exists_takes hfinds
    obtain ⟨st', hrun', hst⟩ := hi.append buff hallowed.1 hallowed.2.1 htakes
      fun j hj q ↦ hs.fresh (htakes.clear j hj).2 q
    rw [hwrite] at hrun'
    obtain rfl : st = st' := (Prod.mk.inj (Except.ok.inj hrun')).2
    exact hst.sound hs htakes
  | read k size offset out dev hread =>
    obtain ⟨calls, blks, hcalls, -, hrun'⟩ :=
      (hi.holds k hallowed.1).read hi.owned hallowed.1 size offset hallowed.2
    rw [hread] at hrun'
    obtain rfl : dev = runCalls .uncached calls s.store.dev :=
      congrArg Store.dev (Prod.mk.inj (Except.ok.inj hrun')).2
    exact hs.frame (s := s.store) (sameSlots_of_eq rfl rfl)
      (fun _ b _ ↦ congrFun (logical_reads hs.dev hcalls) b.toNat)
      (buildOk_runCalls hs.dev calls) fun _ _ ↦ rfl
  | destroyed key k st hlive hkey hdestroyed =>
    exact hs.destroyed hdestroyed hlive (current_uncached s.store k) (hapart k hlive hkey)

theorem sound_run {ok : Call → Session → Prop} (hok : ∀ call s, ok call s →
      call.Allowed s ∧ call.FindsBlocks s ∧ call.KeepsApart .uncached s)
    (h : Reaches (Call.run .uncached) ok s t) (hi : Intact .uncached s)
    (hs : Sound .uncached s.store) : Intact .uncached t ∧ Sound .uncached t.store := by
  refine Reaches.invariant (fun s ↦ Intact .uncached s ∧ Sound .uncached s.store)
    (fun call s _ _ hinv hcall hrun ↦ ?_) h ⟨hi, hs⟩
  obtain ⟨hallowed, hfinds, hapart⟩ := hok call s hcall
  exact ⟨intact_step hinv.1 hallowed (safe_of_sound hinv.2 hfinds) hrun,
    sound_step hinv.1 hinv.2 hallowed hfinds hapart hrun⟩

theorem sound_start {d : Device} (hd : Blank d) (bld : Build) : Sound bld (objstoreInit d) :=
  sound_of_no_live (fun _ ↦ not_live_blank hd) (buildOk_objstoreInit bld d)

/-- As long as no destroyed object has a block 574 below a block of another object, the blocks of
live objects are distinct, their bits are set, and the allocator hands out none of them. -/
theorem no_block_sharing (d : Device) (hd : Blank d) (s : Session)
    (hrun : Reaches (Call.run .uncached)
      (fun call s ↦ call.Allowed s ∧ call.FindsBlocks s ∧ call.KeepsApart .uncached s)
      (.start d) s) :
    Exclusive (own .uncached s.store) ∧ Backed (own .uncached s.store) (allocatedBlocks s.store) ∧
      ∀ q, own .uncached s.store q ≠ some (freeDataBlock s.store).1 := by
  obtain ⟨-, hs⟩ := sound_run (fun _ _ h ↦ h) hrun (intact_start .uncached hd)
    (sound_start hd .uncached)
  refine ⟨hs.exclusive, hs.bits, fun q hq ↦ ?_⟩
  by_cases hfree : ∃ k < 8388608, s.store.dataBit k = false
  · obtain ⟨k, -, hclear, -, heq⟩ := freeDataBlock_spec hfree
    rw [heq] at hq
    exact hs.fresh hclear q hq
  · have hfull : ∀ k < 8388608, s.store.dataBit k = true := fun k hk ↦ by
      by_contra hclear
      exact hfree ⟨k, hk, by simpa using hclear⟩
    rw [freeDataBlock_full hfull] at hq
    have := hs.pos (k := q.1) (p := q.2) hq
    omega

/-! ### Runs with two objects -/

/-- The bits set are exactly the first `c`. -/
def Filled (s : Store) (c : ℕ) : Prop := ∀ i < 8388608, s.dataBit i = decide (i < c)

theorem firstClear_of_filled {st : Store} {c : ℕ} (h : Filled st c) (hc : c < 8388608) :
    FirstClear st c where
  lt := hc
  clear := by rw [h c hc, decide_eq_false (lt_irrefl c)]
  least := fun j hj ↦ by rw [h j (by omega), decide_eq_true hj]

theorem filled_allocated {st : Store} {c : ℕ} (h : Filled st c) :
    Filled (st.allocated c) (c + 1) := by
  intro i hi
  rw [dataBit_allocated, h i hi, ← Bool.decide_or]
  refine decide_eq_decide.mpr ?_
  rw [List.mem_singleton]
  omega

/-- First fit takes the next bits of a filled bitmap. -/
theorem takes_of_filled {st : Store} {c n : ℕ} (h : Filled st c)
    (hc : c + blocksNeeded n ≤ 8388608) : Takes st n (List.range' c (blocksNeeded n)) := by
  unfold blocksNeeded at hc ⊢
  split_ifs at hc ⊢ with hfirst
  · exact ⟨firstClear_of_filled h (by omega),
      firstClear_of_filled (filled_allocated h) (by omega), first_index_iff.mpr hfirst⟩
  · exact ⟨firstClear_of_filled h (by omega), fun r hr ↦ hfirst (first_index_iff.mp ⟨r, hr⟩)⟩

theorem findsBlocks_of_filled {k c n : ℕ} {buff : List UInt8} (h : Filled s.store c)
    (hn : s.written k = n) (hc : c + blocksNeeded n ≤ 8388608) :
    (Call.append k buff).FindsBlocks s := by
  have hsub : Finset.Ico c (c + blocksNeeded n) ⊆ Bitmap.clearBits s.store.dataBitmap 8388608 := by
    intro i hi
    rw [Finset.mem_Ico] at hi
    refine Bitmap.mem_clearBits.mpr ⟨by omega, ?_⟩
    rw [← Store.dataBit, h i (by omega), decide_eq_false (by omega)]
  have hcard := Finset.card_le_card hsub
  rw [Nat.card_Ico] at hcard
  show blocksNeeded (s.written k) ≤ _
  rw [hn]
  omega

/-- An append to a filled store takes the next bits. -/
theorem append_filled {k c n : ℕ} (buff : List UInt8) (hi : Intact .uncached s)
    (hs : Sound .uncached s.store) (hlive : Live s.store k) (hn : s.written k = n) (hlt : n < 4100)
    (h : Filled s.store c) (hc : c + blocksNeeded n ≤ 8388608) :
    ∃ st, (Call.append k buff).run .uncached s =
        .ok (.value buff.length, ⟨st, Function.update s.written k (n + 1)⟩) ∧
      Stored .uncached k n buff (List.range' c (blocksNeeded n)) s.store st ∧
      Filled st (c + blocksNeeded n) := by
  subst hn
  have htakes := takes_of_filled h hc
  obtain ⟨st, hrun, hst⟩ := hi.append buff hlive hlt htakes
    fun j hj q ↦ hs.fresh (htakes.clear j hj).2 q
  refine ⟨st, by rw [Call.run, hrun]; rfl, hst, fun i hi ↦ ?_⟩
  obtain ⟨target, calls, hw, -⟩ := hst.written
  rw [hw.dataBit, h i hi, ← Bool.decide_or]
  refine decide_eq_decide.mpr ?_
  rw [List.mem_range'_1]
  omega

/-- The guard of the runs without a condition on `destroy_object`. -/
def Unguarded (call : Call) (s : Session) : Prop := call.Allowed s ∧ call.FindsBlocks s

/-- The guard of the runs in which no block comes to be shared. -/
def Guarded (call : Call) (s : Session) : Prop :=
  call.Allowed s ∧ call.FindsBlocks s ∧ call.KeepsApart .uncached s

/-- A state of such a run. -/
structure Ran (s : Session) : Prop where
  reached : Reaches (Call.run .uncached) Guarded (.start zeroDevice) s
  intact : Intact .uncached s
  sound : Sound .uncached s.store

theorem Ran.unguarded (h : Ran s) : Reaches (Call.run .uncached) Unguarded (.start zeroDevice) s :=
  h.reached.mono fun _ _ hok ↦ ⟨hok.1, hok.2.1⟩

theorem ran_start : Ran (.start zeroDevice) :=
  ⟨.refl _ _ _, intact_start .uncached blank_zeroDevice, sound_start blank_zeroDevice .uncached⟩

theorem Ran.step (h : Ran s) (hallowed : call.Allowed s) (hfinds : call.FindsBlocks s)
    (hapart : call.KeepsApart .uncached s) (hrun : call.run .uncached s = .ok (reply, t)) :
    Ran t where
  reached := h.reached.step ⟨hallowed, hfinds, hapart⟩ hrun
  intact := intact_step h.intact hallowed (safe_of_sound h.sound hfinds) hrun
  sound := sound_step h.intact h.sound hallowed hfinds hapart hrun

/-- A create of a fresh key in a run, with the slot that is the lowest clear one. -/
theorem Ran.create (h : Ran s) {key : Key} {k : ℕ} (hallowed : (Call.create key).Allowed s)
    (hk : k < 1015808) (hclear : s.store.inodeBit k = false)
    (hleast : ∀ j < k, s.store.inodeBit j = true) :
    ∃ st, Ran ⟨st, s.kept⟩ ∧ Created key k s.store st := by
  obtain ⟨st, hcreate, hc⟩ := createObject_lowest hallowed.1 hk hclear hleast
  have hrun : (Call.create key).run .uncached s = .ok (.value (k + 2), ⟨st, s.kept⟩) := by
    rw [Call.run, hcreate]
  exact ⟨st, h.step hallowed trivial trivial hrun, hc⟩

/-- An append to a filled store in a run. -/
theorem Ran.append (h : Ran s) {k c n : ℕ} (hlive : Live s.store k) (hn : s.written k = n)
    (hlt : n < 4100) (hfilled : Filled s.store c) (hc : c + blocksNeeded n ≤ 8388608) :
    ∃ st, Ran ⟨st, Function.update s.written k (n + 1)⟩ ∧
      Stored .uncached k n [7] (List.range' c (blocksNeeded n)) s.store st ∧
      Filled st (c + blocksNeeded n) := by
  have hallowed : (Call.append k [7]).Allowed s :=
    ⟨hlive, by omega, by decide, by decide⟩
  obtain ⟨st, hrun, hst, hfilled'⟩ :=
    append_filled [7] h.intact h.sound hlive hn hlt hfilled hc
  exact ⟨st, h.step hallowed (findsBlocks_of_filled hfilled hn hc) trivial hrun, hst, hfilled'⟩

/-- An object in slot 0 holds the first block, and nothing else is in use. -/
theorem ran_first_block : ∃ s, Ran s ∧ Live s.store 0 ∧ s.written 0 = 1 ∧
    s.store.field 0 (.direct 0) = 22815 ∧ Filled s.store 1 ∧
    (∀ k < 1015808, s.store.inodeBit k = decide (k = 0)) ∧
    ∀ key : Key, key.Short → keyEq s.store.a 0 key = decide (key = keyA) := by
  have hallowed : (Call.create keyA).Allowed (.start zeroDevice) :=
    ⟨by decide, fun _ hlive ↦ absurd hlive (not_live_blank blank_zeroDevice)⟩
  obtain ⟨s₁, hran₁, hc⟩ := ran_start.create hallowed (k := 0) (by norm_num)
    (inodeBit_blank blank_zeroDevice (by norm_num)) (by omega)
  have hlive₁ : Live s₁ 0 := (hc.live (by norm_num) 0).mpr (Or.inr rfl)
  have hwritten : (Session.start zeroDevice).kept 0 = 0 := ite_self 0
  have hfilled₁ : Filled s₁ 0 := fun i hi ↦ by
    rw [Store.dataBit, hc.dataBitmap]
    exact dataBit_blank blank_zeroDevice hi
  obtain ⟨s₂, hran₂, hst, hfilled₂⟩ :=
    hran₁.append (c := 0) hlive₁ hwritten (by norm_num) hfilled₁ (by decide)
  obtain ⟨target, calls, hw, htarget, -⟩ := hst.written
  have hlive₂ : Live s₂ 0 := (hw.live htarget 0).mpr hlive₁
  have hwritten₂ : Function.update (Session.start zeroDevice).kept 0 (0 + 1) 0 = 1 :=
    Function.update_self ..
  refine ⟨_, hran₂, hlive₂, hwritten₂, ?_, hfilled₂, fun k hk ↦ ?_,
    fun key hkey ↦ ?_⟩
  · have hholds : Holds .uncached s₂ 0 1 := hran₂.intact.holds 0 hlive₂
    have hmapped : own .uncached s₂ (0, .ofIndex 0) ≠ none :=
      (hholds.mapped 0 (by norm_num)).mpr (by norm_num)
    obtain ⟨b, hb⟩ := Option.ne_none_iff_exists'.mp hmapped
    rcases hst.taken _ b hb with hold | ⟨j, hj, rfl⟩
    · have hnot : own .uncached s₁ (0, .ofIndex 0) = none := by
        rw [own_created hc (tidy_blank blank_zeroDevice) (by norm_num)
          (inodeBit_blank blank_zeroDevice (by norm_num))]
        exact own_of_not_live (not_live_blank blank_zeroDevice)
      exact absurd (hold.symm.trans hnot) (Option.some_ne_none b)
    · obtain rfl : j = 0 := by simpa [blocksNeeded] using hj
      exact (own_eq_some.mp hb).2.1
  · show s₂.inodeBit k = _
    rw [hw.inodeBit, hc.inodeBit]
    by_cases hzero : k = 0
    · rw [if_pos hzero, decide_eq_true hzero]
    · rw [if_neg hzero, decide_eq_false hzero]
      exact inodeBit_blank blank_zeroDevice hk
  · show keyEq s₂.a 0 key = _
    rw [keyEq_of_bytes hw.bytes hkey]
    exact (hc.key 0 key hkey).trans (if_pos rfl)

/-- What the run keeps while blocks are appended to the second object: the first object has one
block, the first one, and the bits set are those of the blocks appended so far. -/
structure Appending (m : ℕ) (s : Session) : Prop where
  ran : Ran s
  first : Live s.store 0 ∧ s.written 0 = 1 ∧ s.store.field 0 (.direct 0) = 22815
  key : keyEq s.store.a 0 keyA = true
  second : Live s.store 1 ∧ s.written 1 = m
  key' : keyEq s.store.a 1 keyB = true
  filled : Filled s.store (if m ≤ 4 then m + 1 else m + 2)

theorem appending_zero : ∃ s, Appending 0 s := by
  obtain ⟨s, hran, hlive, hwritten, hfirst, hfilled, hbit, hkey⟩ := ran_first_block
  have hallowed : (Call.create keyB).Allowed s := by
    refine ⟨by decide, fun j hj ↦ ?_⟩
    have hzero := hj.bit
    rw [hbit j hj.slot, decide_eq_true_iff] at hzero
    rw [hzero, hkey _ (by decide)]
    decide
  obtain ⟨st, hran', hc⟩ := hran.create hallowed (k := 1) (by norm_num)
    (by rw [hbit 1 (by norm_num)]; rfl)
    (fun j hj ↦ by rw [hbit j (by omega), decide_eq_true (by omega)])
  have hnew : ¬ Live s.store 1 := fun hl ↦ by
    have hset := hl.bit
    rw [hbit 1 (by norm_num)] at hset
    cases hset
  have hkept₀ : s.kept 0 = 1 := (if_pos hlive).trans hwritten
  have hkept₁ : s.kept 1 = 0 := if_neg hnew
  refine ⟨_, hran', ⟨(hc.live (by norm_num) 0).mpr (Or.inl hlive), hkept₀, ?_⟩, ?_,
    ⟨(hc.live (by norm_num) 1).mpr (Or.inr rfl), hkept₁⟩, ?_, fun i hi ↦ ?_⟩
  · exact (hc.field 0 _).trans ((if_neg (by norm_num)).trans hfirst)
  · exact (hc.key 0 keyA (by decide)).trans ((if_neg (by norm_num)).trans (hkey keyA (by decide)))
  · exact (hc.key 1 keyB (by decide)).trans (if_pos rfl)
  · have hsame : st.dataBit i = s.store.dataBit i := by
      rw [Store.dataBit, Store.dataBit, hc.dataBitmap]
    exact hsame.trans (hfilled i hi)

theorem appending_succ {m : ℕ} (h : Appending m s) (hm : m < 1000) :
    ∃ t, Appending (m + 1) t ∧
      Stored .uncached 1 m [7] (List.range' (if m ≤ 4 then m + 1 else m + 2) (blocksNeeded m))
        s.store t.store := by
  have hneeded : (if m ≤ 4 then m + 1 else m + 2) + blocksNeeded m =
      if m + 1 ≤ 4 then m + 1 + 1 else m + 1 + 2 := by
    unfold blocksNeeded
    split_ifs <;> omega
  have hroom : (if m ≤ 4 then m + 1 else m + 2) + blocksNeeded m ≤ 8388608 := by
    rw [hneeded]
    split_ifs <;> omega
  obtain ⟨st, hran, hst, hfilled⟩ :=
    h.ran.append h.second.1 h.second.2 (by omega) h.filled hroom
  obtain ⟨target, calls, hw, htarget, -⟩ := hst.written
  have hlive := hw.live htarget
  have hwritten₀ : Function.update s.written 1 (m + 1) 0 = 1 :=
    (Function.update_of_ne (by norm_num) ..).trans h.first.2.1
  refine ⟨_, ⟨hran, ⟨(hlive 0).mpr h.first.1, hwritten₀, ?_⟩, ?_, ⟨(hlive 1).mpr h.second.1,
    Function.update_self (1 : ℕ) (m + 1) s.written⟩, ?_, hneeded ▸ hfilled⟩, hst⟩
  · rw [← h.first.2.2]
    exact hw.pointer rfl fun hk ↦ absurd hk (by norm_num)
  · exact (keyEq_of_bytes hw.bytes (by decide) 0).trans h.key
  · exact (keyEq_of_bytes hw.bytes (by decide) 1).trans h.key'

theorem exists_appending {m : ℕ} (hm : m ≤ 1000) : ∃ s, Appending m s := by
  induction m with
  | zero => exact appending_zero
  | succ m ih =>
    obtain ⟨s, hs⟩ := ih (by omega)
    obtain ⟨t, ht, -⟩ := appending_succ hs (by omega)
    exact ⟨t, ht⟩

theorem Appending.opened {m : ℕ} {t : Session} (ht : Appending m t) (hm : 5 ≤ m) :
    t.store.field 1 (.indirect 0) ≠ 0 := by
  intro hzero
  have hholds := ht.ran.intact.holds 1 ht.second.1
  rw [ht.second.2] at hholds
  refine (hholds.opened 0).mpr ?_ (own_of_eq_zero hzero)
  show 4 + 1024 * 0 < m
  omega

/-- While fewer than 574 bits are set no block has another one 574 places past it. -/
theorem apart_of_filled {bld : Build} {st : Store} {c : ℕ} (hs : Sound bld st) (h : Filled st c)
    (hc : c ≤ 574) (k : ℕ) : Apart bld st k := by
  intro p b hb q _ hq
  obtain ⟨i, -, rfl, -⟩ := hs.bits _ b hb
  obtain ⟨j, hj, heq, hset⟩ := hs.bits q _ hq
  rw [h j hj, decide_eq_true_iff] at hset
  omega

/-- Two objects with a block each, the first of which is destroyed. -/
theorem no_block_sharing_two_objects : ∃ s st : Session,
    Appending 1 s ∧ (Call.destroy keyA).run .uncached s = .ok (.value 0, st) ∧
      own .uncached s.store (0, .ofIndex 0) = some 22815 ∧
      own .uncached st.store (1, .ofIndex 0) ≠ none ∧ ¬Live st.store 0 ∧
      Exclusive (own .uncached st.store) ∧
      Backed (own .uncached st.store) (allocatedBlocks st.store) ∧
      ∀ q, own .uncached st.store q ≠ some (freeDataBlock st.store).1 := by
  obtain ⟨s, hs⟩ := exists_appending (m := 1) (by norm_num)
  obtain ⟨hlive, -, hfirst⟩ := hs.first
  have hallowed : (Call.destroy keyA).Allowed s := ⟨by decide, 0, hlive, hs.key⟩
  have hapart : (Call.destroy keyA).KeepsApart .uncached s := fun k _ _ ↦
    apart_of_filled hs.ran.sound hs.filled (by norm_num) k
  obtain ⟨st, hrun, hd⟩ :=
    destroyObject_live hs.ran.intact.consistent.keys (by decide) hlive hs.key
  have hstep : (Call.destroy keyA).run .uncached s = .ok (.value 0, ⟨st, s.written⟩) := by
    rw [Call.run, hrun]
    rfl
  have hown : own .uncached s.store (0, .ofIndex 0) = some 22815 :=
    own_eq_some.mpr ⟨hlive, hfirst, by norm_num⟩
  have hsecond : own .uncached st (1, .ofIndex 0) ≠ none := by
    rw [own_destroyed hd hs.ran.intact.owned hlive (current_uncached _ _), if_neg (by norm_num)]
    exact ((hs.ran.intact.holds 1 hs.second.1).mapped 0 (by norm_num)).mpr
      (by rw [hs.second.2]; norm_num)
  have hdead : ¬Live st 0 := fun hold ↦ ((hd.live 0).mp hold).2 rfl
  exact ⟨s, _, hs, hstep, hown, hsecond, hdead, no_block_sharing zeroDevice blank_zeroDevice _
    (hs.ran.reached.step ⟨hallowed, trivial, hapart⟩ hstep)⟩

/-- An object with a single direct block releases that block, and four zero pointers. -/
theorem released_single {st : Store} {k : ℕ} {b : ℤ} (hb : b ≠ 0)
    (hdirect : ∀ i, st.field k (.direct i) = if i = 0 then b else 0)
    (hindirect : ∀ r, st.field k (.indirect r) = 0) : released st k = [b, 0, 0, 0, 0] := by
  have hloop : List.finRange 4 = [0, 1, 2, 3] := rfl
  simp [released, releasedDirect, releasedIndirect, hloop, hdirect, hindirect, hb]

/-- Without the condition on destroys blocks come to be shared: create two objects, append one
block to the first and 573 to the second, and destroy the first. The bit of block 23389 is clear
although the second object refers to it at block index 572. -/
theorem shared_after_destroy : ∃ s,
    Reaches (Call.run .uncached) (fun call s ↦ call.Allowed s ∧ call.FindsBlocks s)
      (.start zeroDevice) s ∧
    own .uncached s.store (1, .ofIndex 572) = some 23389 ∧
    (23389 : ℤ) ∉ allocatedBlocks s.store := by
  obtain ⟨s, hs⟩ := exists_appending (m := 572) (by norm_num)
  obtain ⟨t, ht, hst⟩ := appending_succ hs (by norm_num)
  have hholds := ht.ran.intact.holds 1 ht.second.1
  rw [ht.second.2] at hholds
  have hown : own .uncached t.store (1, .ofIndex 572) = some 23389 := by
    obtain ⟨b, hb⟩ := Option.ne_none_iff_exists'.mp
      ((hholds.mapped 572 (by norm_num)).mpr (by norm_num))
    rcases hst.taken _ b hb with hold | ⟨j, hj, rfl⟩
    · have hnot := (hs.ran.intact.holds 1 hs.second.1).mapped 572 (by norm_num)
      rw [hs.second.2, hold] at hnot
      exact absurd (hnot.mp (Option.some_ne_none _)) (lt_irrefl 572)
    · obtain rfl : j = 574 := by simpa [blocksNeeded] using hj
      exact hb
  have hfirst := ht.ran.intact.holds 0 ht.first.1
  rw [ht.first.2.1] at hfirst
  have hreleased : released t.store 0 = [22815, 0, 0, 0, 0] := by
    refine released_single (by norm_num) (fun i ↦ ?_) fun r ↦ ?_
    · split_ifs with hi
      · rw [hi, ht.first.2.2]
      · by_contra hne
        have hmapped := hfirst.mapped i (by omega)
        rw [Place.ofIndex_direct i.isLt, own_of_ne_zero (p := .direct i) ht.first.1 hne] at hmapped
        have hlt := hmapped.mp (Option.some_ne_none _)
        exact hi (Fin.ext (show (i : ℕ) = 0 by omega))
    · by_contra hne
      have hopened := hfirst.opened r
      rw [own_of_ne_zero (p := .indirect r) ht.first.1 hne] at hopened
      have hlt := hopened.mp (Option.some_ne_none _)
      omega
  obtain ⟨st, hrun, hd⟩ := destroyObject_live ht.ran.intact.consistent.keys (by decide)
    ht.first.1 ht.key
  have hallowed : (Call.destroy keyA).Allowed t := ⟨by decide, 0, ht.first.1, ht.key⟩
  have hstep : (Call.destroy keyA).run .uncached t = .ok (.value 0, ⟨st, t.written⟩) := by
    rw [Call.run, hrun]
    rfl
  refine ⟨_, ht.ran.unguarded.step ⟨hallowed, trivial⟩ hstep, ?_, ?_⟩
  · exact (own_destroyed hd ht.ran.intact.owned ht.first.1 (current_uncached _ _) _).trans hown
  · rintro ⟨j, hj, hblk, hset⟩
    obtain rfl : j = 574 := by omega
    have hbit : st.dataBit 574 = (t.store.dataBit 574 ^^ true) := by
      rw [Store.dataBit, hd.dataBitmap, hreleased, bit_toggleDataBits (by simp) hj]
      rfl
    have hold : t.store.dataBit 574 = true := (ht.filled 574 hj).trans (by simp)
    rw [hbit, hold] at hset
    cases hset

end OsAssignments.Objstore
