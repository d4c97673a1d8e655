import OsAssignments.Objstore.Sharing
import OsAssignments.Objstore.Writers

/-!
# Lost updates

`no_update_lost` is what the writers of one range leave behind when their steps meet the guard
`Unlost`: each block is read as written and the others as before. `update_lost` is a run of two
writers, both of which read the indirect block before either writes it back: the block of the first
one to write it back is not entered afterwards.
-/

set_option autoImplicit false
set_option relaxedAutoImplicit false

namespace OsAssignments.Objstore

open Library Library.Ownership

variable {ι : Type*} {bld : Build} {w : Writers ι} {k n : ℕ} {s : Store} {i : ι}
  {phase : ι → WritePhase}

/-! ### Steps of one thread in a row -/

section Turns

variable [DecidableEq ι] {ok : ι → Pool ι WritePhase Store → Prop} {p₀ : Pool ι WritePhase Store}
  (hrun : Reaches (Pool.turn fun i ↦ (w.call i).next bld) ok p₀ ⟨phase, s⟩)

include hrun

/-- The first three steps at a later index: the thread has a copy of the indirect block. -/
theorem reaches_loaded (hcalled : phase i = .called) (hlive : Live s k)
    (hid : s.field k .id = w.objid) (huniq : ∀ j, Live s j → s.field j .id = w.objid → j = k)
    (hn : FirstClear s n) (hdev : BuildOk bld s.dev) (hptr : 0 ≤ s.field k (.indirect w.range))
    (hlater : w.entry i ≠ 0) (hok₁ : ok i ⟨phase, s⟩)
    (hok₂ : ok i ⟨Function.update phase i (.found k), s.markDirty k⟩)
    (hok₃ : ok i ⟨Function.update phase i (.allocated k (22815 + n : ℕ)),
      (s.markDirty k).allocated n⟩) :
    Reaches (Pool.turn fun i ↦ (w.call i).next bld) ok p₀
      ⟨Function.update phase i (.loaded k w.range (w.entry i : ℕ) (22815 + n : ℕ)
        (logical bld s.dev (s.field k (.indirect w.range)).toNat)),
        { prepared s k n 4096 with
          dev :=
            runCalls bld [.read (s.field k (.indirect w.range)).toNat Block.zero] s.dev }⟩ := by
  have hpos : 0 < (w.entry i : ℕ) := Nat.pos_of_ne_zero fun hzero ↦ hlater (Fin.ext hzero)
  have hsize : (w.call i).buff.length = 4096 := w.size i
  have hfound := hrun.turn hok₁ (i := i) (l := .found k) (s := s.markDirty k)
    (by simp only [hcalled]; exact WriteCall.next_called hlive hid huniq)
  have hn' : FirstClear (s.markDirty k) n := ⟨hn.lt, hn.clear, hn.least⟩
  have hallocated := hfound.turn hok₂ (i := i) (l := .allocated k (22815 + n : ℕ))
    (s := (s.markDirty k).allocated n)
    (by simp only [Function.update_self]; exact WriteCall.next_found hn')
  rw [Function.update_idem] at hallocated
  have hptr' : (prepared s k n 4096).field k (.indirect w.range) = s.field k (.indirect w.range) :=
    getField_setField_of_ne (Or.inr (by simp))
  have hstep : indirectStep bld k w.range (4 + 1024 * (w.range : ℕ) : ℕ)
      (4 + 1024 * (w.range : ℕ) + (w.entry i : ℕ) : ℕ) (22815 + n : ℕ) (prepared s k n 4096) = _ :=
    WriteCall.indirectStep_next hpos hdev (hptr'.symm ▸ hptr)
  rw [hptr'] at hstep
  have hfield : ((s.markDirty k).allocated n).field k .size = s.field k .size := rfl
  have hsized : ((s.markDirty k).allocated n).assign k .size
      (((s.markDirty k).allocated n).field k .size + (4096 : ℕ)) = prepared s k n 4096 := by
    rw [prepared, hfield]
  have hdev' : (prepared s k n 4096).dev = s.dev := rfl
  have hnext : (w.call i).next bld (.allocated k (22815 + n : ℕ)) ((s.markDirty k).allocated n) =
      .ok (.loaded k w.range (w.entry i : ℕ) (22815 + n : ℕ)
        (logical bld s.dev (s.field k (.indirect w.range)).toNat),
        { prepared s k n 4096 with
          dev :=
            runCalls bld [.read (s.field k (.indirect w.range)).toNat Block.zero] s.dev }) := by
    rw [WriteCall.next_allocated (w.entry i).isLt rfl, hsize, hsized, hstep]
    simp only [hdev']
  have hloaded := hallocated.turn hok₃ (i := i) (by simp only [Function.update_self]; exact hnext)
  rw [Function.update_idem] at hloaded
  exact hloaded

/-- The last two steps at a later index. -/
theorem reaches_returned {block : Block}
    (hloaded : phase i = .loaded k w.range (w.entry i : ℕ) (22815 + n : ℕ) block)
    (hptr : 0 ≤ s.field k (.indirect w.range)) (hok₁ : ok i ⟨phase, s⟩)
    (hok₂ : ∀ s, ok i ⟨Function.update phase i (.storing (22815 + n : ℕ)), s⟩) :
    Reaches (Pool.turn fun i ↦ (w.call i).next bld) ok p₀
      ⟨Function.update phase i (.returned 4096),
        { s with dev := runCalls bld ([.write (s.field k (.indirect w.range)).toNat
            (block.setInt (w.entry i) (22815 + n : ℕ))] ++
          [.write (22815 + n) (Block.ofList (w.buff i))]) s.dev }⟩ := by
  have hsize : (w.call i).buff.length = 4096 := w.size i
  have hstoring := hrun.turn hok₁ (i := i) (l := .storing (22815 + n : ℕ))
    (by
      simp only [hloaded]
      rw [WriteCall.next, blkWrite_eq bld _ hptr, Int.toNat_natCast])
  have hreturned := hstoring.turn (hok₂ _) (i := i) (l := .returned 4096)
    (by
      simp only [Function.update_self]
      rw [WriteCall.next, blkWrite_eq bld _ (Int.natCast_nonneg _), hsize, Int.toNat_natCast,
        Nat.cast_ofNat])
  rw [Function.update_idem] at hreturned
  rw [runCalls_append]
  exact hreturned

end Turns

/-- What the first three steps of a thread do to the store. -/
theorem Kept.prepared {r : Fin 4} {s₀ : Store} (h : Kept bld k r s₀ s) (n len : ℕ)
    (calls : List BlockCall) :
    Kept bld k r s₀ { prepared s k n len with dev := runCalls bld calls s.dev } where
  inodeBitmap := h.inodeBitmap
  field := fun k' f hf ↦ by
    refine Eq.trans (getField_setField_of_ne ?_) (h.field k' f hf)
    by_cases hk : k' = k
    · exact .inr (hf hk).1
    · exact .inl hk
  bits := fun i hi ↦ (dataBit_prepared s k n len i).trans (by rw [h.bits i hi, Bool.or_true])
  dev := buildOk_runCalls h.dev calls

theorem Kept.calls {r : Fin 4} {s₀ : Store} (h : Kept bld k r s₀ s) (calls : List BlockCall) :
    Kept bld k r s₀ { s with dev := runCalls bld calls s.dev } where
  inodeBitmap := h.inodeBitmap
  field := h.field
  bits := h.bits
  dev := buildOk_runCalls h.dev calls

theorem filled_prepared {c : ℕ} (h : Filled s c) (k len : ℕ) (dev : Device) :
    Filled { prepared s k c len with dev := dev } (c + 1) := fun i hi ↦ by
  rw [← filled_allocated h i hi]
  rfl

/-! ### Reads after a run -/

/-- One block, read by a thread that no other disturbs. -/
theorem read_block {objid : ℤ} {a : ℕ} (hdev : BuildOk bld s.dev) (hlive : Live s k)
    (hid : s.field k .id = objid) (huniq : ∀ j, Live s j → s.field j .id = objid → j = k)
    (ha : a < 4100) (hnonneg : ∀ blk ∈ touched bld s k a, 0 ≤ blk) :
    ∃ t, objstoreRead bld objid 4096 (4096 * a : ℕ) s =
      .ok ((4096, bytesOf [logical bld s.dev (followed bld s k a).toNat] 4096), t) := by
  have hdiv : 4096 * a / 4096 = a := by omega
  obtain ⟨calls, -, hread⟩ := objstoreRead_spec hdev hlive hid huniq
    (by omega : 4096 * a < 2147483648)
    (by omega : 1 = min ((4096 + 4095) / 4096) (4100 - 4096 * a / 4096)) fun i hi ↦ by
      rw [hdiv, show a + i = a by omega]
      exact hnonneg
  rw [hdiv] at hread
  exact ⟨_, hread⟩

/-- After a run under the guard in which all writers have returned, each block is read as written,
and every other block of the object reads as before. -/
theorem no_update_lost [DecidableEq ι] (bld : Build) (w : Writers ι) (s₀ : Store)
    (hs : Sound bld s₀) (k : ℕ) (hlive : Live s₀ k) (hid : s₀.field k .id = w.objid)
    (hopened : s₀.field k (.indirect w.range) ≠ 0) (p : Pool ι WritePhase Store)
    (hrun : Reaches (Pool.turn fun i ↦ (w.call i).next bld) (Unlost bld w)
      ⟨fun _ ↦ .called, s₀⟩ p) (hreturned : ∀ i, ∃ reply, p.phase i = .returned reply) :
    (∀ i, p.phase i = .returned 4096 ∧ ∃ t, objstoreRead bld w.objid 4096 (4096 * w.index i : ℕ)
      p.shared = .ok ((4096, w.buff i), t)) ∧
    ∀ a < 4100, Opened s₀ k a → (∀ i, a ≠ w.index i) →
      ∃ out t t', objstoreRead bld w.objid 4096 (4096 * a : ℕ) s₀ = .ok (out, t) ∧
        objstoreRead bld w.objid 4096 (4096 * a : ℕ) p.shared = .ok (out, t') := by
  obtain ⟨hold, h⟩ := progress_run hs hlive hid hopened hrun
  have hlive' : Live p.shared k := (h.kept.live_iff k).mpr hlive
  have hid' : p.shared.field k .id = w.objid := (h.kept.id k).trans hid
  have huniq := h.kept.unique hs hlive hid
  refine ⟨fun i ↦ ?_, fun a ha hopen hne ↦ ?_⟩
  · obtain ⟨reply, hi⟩ := hreturned i
    obtain ⟨hblock, hnonneg⟩ := h.mine hs hlive hopened hi
    have hfits := h.fits i
    rw [hi] at hfits
    have hr := w.range.isLt
    have he := (w.entry i).isLt
    obtain ⟨t, hread⟩ := read_block h.kept.dev hlive' hid' huniq
      (a := w.index i) (by rw [Writers.index]; omega) hnonneg
    have hbytes : bytesOf [Block.ofList (w.buff i)] (w.buff i).length = w.buff i :=
      bytesOf_ofList (by rw [w.size i])
    rw [w.size i] at hbytes
    rw [hblock, hbytes] at hread
    exact ⟨by rw [hi, hfits], t, hread⟩
  · obtain ⟨hblock, hnonneg⟩ := h.other hs hlive hopened ha hopen hne
    obtain ⟨t, hread⟩ := read_block hs.dev hlive hid (fun j hj heq ↦
      hs.ids j k hj hlive (heq.trans hid.symm)) ha (hs.touched_nonneg hlive ha hopen)
    obtain ⟨t', hread'⟩ := read_block h.kept.dev hlive' hid' huniq ha hnonneg
    rw [hblock] at hread'
    exact ⟨_, t, t', hread, hread'⟩

/-! ### Two writers -/

/-- Writers at block indices 5 and 6. -/
def twoWriters (objid : ℤ) : Writers (Fin 2) where
  objid := objid
  range := 0
  entry := fun i ↦ ⟨i + 1, by omega⟩
  buff := fun i ↦ List.replicate 4096 (if i = 0 then 1 else 2)
  distinct := fun i j h ↦ by
    simp only [Fin.mk.injEq] at h
    omega
  size := fun _ ↦ List.length_replicate

/-- An object with six blocks, the last of which has `[7]` in it. -/
theorem six_blocks : ∃ t : Session, Appending 6 t ∧ ∃ b,
    own .uncached t.store (1, .ofIndex 5) = some b ∧
      logical .uncached t.store.dev b.toNat = Block.ofList [7] := by
  obtain ⟨s, hs⟩ := exists_appending (m := 5) (by norm_num)
  obtain ⟨t, ht, hst⟩ := appending_succ hs (by norm_num)
  have hholds := hs.ran.intact.holds 1 hs.second.1
  rw [hs.second.2] at hholds
  have hcontent := hst.content (hholds.unopened hs.second.1) (1, .ofIndex 5)
    (Place.isData_ofIndex 5)
  rw [Function.update_self, content, Option.map_eq_some_iff] at hcontent
  obtain ⟨b, hb, hblock⟩ := hcontent
  exact ⟨t, ht, b, hb, hblock⟩

theorem objid_twoWriters (objid : ℤ) : (twoWriters objid).objid = objid := rfl

theorem range_twoWriters (objid : ℤ) : (twoWriters objid).range = 0 := rfl

theorem twoWriters_later (objid : ℤ) (i : Fin 2) : (twoWriters objid).entry i ≠ 0 := fun h ↦ by
  have hval : (i : ℕ) + 1 = 0 := congrArg Fin.val h
  omega

/-- A store in a run of two writers: `c` bits are set, and the blocks have the contents `m`. -/
structure Stage (w : Writers (Fin 2)) (s₀ : Store) (c : ℕ) (m : ℕ → Block) (s : Store) : Prop where
  kept : Kept .uncached 1 w.range s₀ s
  ptr : s.field 1 (.indirect w.range) = s₀.field 1 (.indirect w.range)
  filled : Filled s c
  logical : logical .uncached s.dev = m

section Stages

variable {w : Writers (Fin 2)} {s₀ s : Store} {c : ℕ} {m : ℕ → Block} {i : Fin 2}
  {phase : Fin 2 → WritePhase} {ok : Fin 2 → Pool (Fin 2) WritePhase Store → Prop}
  {p₀ : Pool (Fin 2) WritePhase Store} (st : Stage w s₀ c m s)
  (hrun : Reaches (Pool.turn fun i ↦ (w.call i).next .uncached) ok p₀ ⟨phase, s⟩)
  (hptr : 0 ≤ s₀.field 1 (.indirect w.range)) (hok : ok i ⟨phase, s⟩)

include st hrun hptr hok

theorem Stage.loads (hs : Sound .uncached s₀) (hlive : Live s₀ 1) (hid : s₀.field 1 .id = w.objid)
    (hc : c < 8388608) (hcalled : phase i = .called) (hlater : w.entry i ≠ 0)
    (hok₂ : ∀ t, HasClear t → ok i ⟨Function.update phase i (.found 1), t⟩)
    (hok₃ : ∀ t, ok i ⟨Function.update phase i (.allocated 1 (22815 + c : ℕ)), t⟩) :
    ∃ s', Stage w s₀ (c + 1) m s' ∧ Reaches (Pool.turn fun i ↦ (w.call i).next .uncached) ok p₀
      ⟨Function.update phase i (.loaded 1 w.range (w.entry i : ℕ) (22815 + c : ℕ)
        (m (s₀.field 1 (.indirect w.range)).toNat)), s'⟩ := by
  have hclear := firstClear_of_filled st.filled hc
  have hloaded := reaches_loaded hrun hcalled ((st.kept.live_iff 1).mpr hlive)
    ((st.kept.id 1).trans hid) (st.kept.unique hs hlive hid) hclear st.kept.dev (st.ptr ▸ hptr)
    hlater hok (hok₂ _ ⟨c, hc, hclear.clear⟩) (hok₃ _)
  rw [st.logical, st.ptr] at hloaded
  exact ⟨_, ⟨st.kept.prepared c 4096 _, (getField_setField_of_ne (.inr (by simp))).trans st.ptr,
    filled_prepared st.filled 1 4096 _, (logical_runCalls st.kept.dev [.read _ Block.zero]).trans
      st.logical⟩, hloaded⟩

theorem Stage.lands {n : ℕ} {block : Block}
    (hloaded : phase i = .loaded 1 w.range (w.entry i : ℕ) (22815 + n : ℕ) block)
    (hok₂ : ∀ t, ok i ⟨Function.update phase i (.storing (22815 + n : ℕ)), t⟩) :
    ∃ s', Stage w s₀ c (applyCalls ([.write (s₀.field 1 (.indirect w.range)).toNat
        (block.setInt (w.entry i) (22815 + n : ℕ))] ++
          [.write (22815 + n) (Block.ofList (w.buff i))]) m) s' ∧
      Reaches (Pool.turn fun i ↦ (w.call i).next .uncached) ok p₀
        ⟨Function.update phase i (.returned 4096), s'⟩ := by
  have hreturned := reaches_returned hrun hloaded (st.ptr ▸ hptr) hok hok₂
  rw [st.ptr] at hreturned
  exact ⟨_, ⟨st.kept.calls _, st.ptr, st.filled,
    (logical_runCalls st.kept.dev _).trans (by rw [st.logical])⟩, hreturned⟩

end Stages

theorem stage_start (w : Writers (Fin 2)) {s₀ : Store} {c : ℕ} (hs : Sound .uncached s₀)
    (hfilled : Filled s₀ c) : Stage w s₀ c (logical .uncached s₀.dev) s₀ where
  kept := ⟨rfl, fun _ _ _ ↦ rfl, fun _ h ↦ h, hs.dev⟩
  ptr := rfl
  filled := hfilled
  logical := rfl

/-- One thread after the other, in an object with six blocks. -/
theorem no_update_lost_in_turn : ∃ (s : Store) (p : Pool (Fin 2) WritePhase Store),
    Reaches (Pool.turn fun i ↦ ((twoWriters (s.field 1 .id)).call i).next .uncached)
      (fun _ _ ↦ True)
      ⟨fun _ ↦ .called, s⟩ p ∧
    ∀ i, p.phase i = .returned 4096 ∧ ∃ t, objstoreRead .uncached (s.field 1 .id) 4096
      (4096 * (twoWriters (s.field 1 .id)).index i : ℕ) p.shared =
        .ok ((4096, (twoWriters (s.field 1 .id)).buff i), t) := by
  obtain ⟨t, ht, -⟩ := six_blocks
  have hs := ht.ran.sound
  have hlive := ht.second.1
  have hopened := ht.opened (by norm_num)
  have hfilled : Filled t.store 8 := ht.filled
  have hptr : 0 ≤ t.store.field 1 (.indirect 0) :=
    (hs.pos (own_of_ne_zero (p := .indirect 0) hlive hopened)).trans' (by norm_num)
  generalize t.store = s₀ at hs hlive hopened hfilled hptr
  generalize hw : twoWriters (s₀.field 1 .id) = w
  have hid : s₀.field 1 .id = w.objid := by rw [← hw, objid_twoWriters]
  have hrange : w.range = 0 := by rw [← hw, range_twoWriters]
  have hlater : ∀ i, w.entry i ≠ 0 := by rw [← hw]; exact twoWriters_later _
  rw [← hrange] at hopened hptr
  have hfound : ∀ (phase : Fin 2 → WritePhase) (i : Fin 2) (s : Store), HasClear s →
      Unlost .uncached w i ⟨Function.update phase i (.found 1), s⟩ := fun phase i s hclear ↦
    unlost_found (k := 1) (Function.update_self ..) hclear
  have hallocated : ∀ (phase : Fin 2 → WritePhase) (i : Fin 2) (d : ℤ) (s : Store),
      (∀ j ≠ i, ¬ (phase j).Loaded) →
        Unlost .uncached w i ⟨Function.update phase i (.allocated 1 d), s⟩ := by
    intro phase i d s hnone
    refine unlost_allocated (Function.update_self i (WritePhase.allocated 1 d) phase) (hlater i)
      fun j hj ↦ ?_
    by_cases hji : j = i
    · simp only [hji, Function.update_self] at hj
      exact hj
    · simp only [Function.update_of_ne hji] at hj
      exact hnone j hji hj
  have hstoring : ∀ (phase : Fin 2 → WritePhase) (i : Fin 2) (d : ℤ) (s : Store),
      Unlost .uncached w i ⟨Function.update phase i (.storing d), s⟩ := fun phase i d s ↦
    unlost_storing (Function.update_self i (WritePhase.storing d) phase)
  have hloaded : ∀ (phase : Fin 2 → WritePhase) (i : Fin 2) (d : ℤ) (x : Block) (s : Store),
      Unlost .uncached w i
        ⟨Function.update phase i (.loaded 1 w.range (w.entry i : ℕ) d x), s⟩ :=
    fun phase i d x s ↦ unlost_loaded
      (Function.update_self i (WritePhase.loaded 1 w.range (w.entry i : ℕ) d x) phase)
  have hone : (1 : Fin 2) ≠ 0 := by decide
  have hrun₀ : Reaches (Pool.turn fun i ↦ (w.call i).next .uncached) (Unlost .uncached w)
    ⟨fun _ ↦ .called, s₀⟩ ⟨fun _ ↦ .called, s₀⟩ := .refl _ _ _
  obtain ⟨s₁, st₁, hrun₁⟩ := (stage_start w hs hfilled).loads (i := 0) hrun₀ hptr
    (unlost_called rfl) hs hlive hid (by norm_num) rfl (hlater 0) (hfound _ 0)
    fun s ↦ hallocated _ 0 _ s fun _ _ h ↦ h
  obtain ⟨s₂, st₂, hrun₂⟩ := st₁.lands (i := 0) hrun₁ hptr
    (hloaded _ 0 _ _ _) (Function.update_self ..) (hstoring _ 0 _)
  rw [Function.update_idem] at hrun₂
  obtain ⟨s₃, st₃, hrun₃⟩ := st₂.loads (i := 1) hrun₂ hptr
    (unlost_called (by simp only [Function.update_of_ne hone])) hs hlive hid (by norm_num)
    (Function.update_of_ne hone ..) (hlater 1) (hfound _ 1)
    fun s ↦ hallocated _ 1 _ s fun j hj h ↦ by
      obtain rfl : j = 0 := by omega
      rw [Function.update_self] at h
      exact h
  obtain ⟨s₄, st₄, hrun₄⟩ := st₃.lands (i := 1) hrun₃ hptr
    (hloaded _ 1 _ _ _) (Function.update_self ..) (hstoring _ 1 _)
  rw [Function.update_idem] at hrun₄
  refine ⟨s₀, ?_⟩
  rw [hw, hid]
  have hreturned : ∀ i : Fin 2, Function.update (Function.update
      (fun _ ↦ WritePhase.called) 0 (.returned 4096)) 1 (.returned 4096) i = .returned 4096 := by
    refine Fin.forall_fin_two.mpr ⟨?_, Function.update_self ..⟩
    exact (Function.update_of_ne hone.symm ..).trans (Function.update_self ..)
  exact ⟨_, hrun₄.mono fun _ _ _ ↦ trivial, (no_update_lost .uncached w s₀ hs 1 hlive hid hopened _
    hrun₄ fun i ↦ ⟨4096, hreturned i⟩).1⟩

/-- The first byte of a read is the first byte of the first page. -/
theorem head?_bytesOf (temp : List Block) {size : ℕ} (hsize : 0 < size) :
    (bytesOf temp size).head? = some ((temp.getD 0 Block.zero).byte 0) := by
  obtain ⟨n, rfl⟩ : ∃ n, size = n + 1 := ⟨size - 1, by omega⟩
  rw [bytesOf, List.range_succ_eq_map]
  rfl

theorem head?_replicate_pos {size : ℕ} {x : UInt8} (hsize : 0 < size) :
    (List.replicate size x).head? = some x := by
  rw [List.head?_replicate, if_neg (Nat.pos_iff_ne_zero.mp hsize)]

theorem bytes_of_ok {n n' : ℤ} {xs xs' : List UInt8} {t t' : Store}
    (h : (.ok ((n, xs), t) : Outcome (ℤ × List UInt8)) = .ok ((n', xs'), t')) : xs = xs' := by
  cases h
  rfl

section Fifth

variable {w : Writers (Fin 2)} {s₀ s : Store} {c : ℕ} {m : ℕ → Block} {b : ℤ} {x : Block}
  {u v : Block} (st : Stage w s₀ c m s) (hs : Sound .uncached s₀) (hfilled : Filled s₀ 8)
  (hlive : Live s₀ 1) (hrange : w.range = 0) (hopened : s₀.field 1 (.indirect 0) ≠ 0)
  (hb : own .uncached s₀ (1, .ofIndex 5) = some b)
  (hm : m = Function.update (Function.update (Function.update (Function.update
    (logical .uncached s₀.dev) (s₀.field 1 (.indirect 0)).toNat x) (22815 + 8) u)
    (s₀.field 1 (.indirect 0)).toNat ((logical .uncached s₀.dev
      (s₀.field 1 (.indirect 0)).toNat).setInt 2 ((22815 + 9 : ℕ) : ℤ))) (22815 + 9) v)

include st hs hfilled hlive hrange hopened hb hm

/-- When the indirect block that was read first lands last, with a new entry for block index 6,
block index 5 refers to the block it had, and that block is as it was. -/
theorem followed_fifth : followed .uncached s 1 5 = b ∧
    logical .uncached s.dev b.toNat = logical .uncached s₀.dev b.toNat := by
  have hind : own .uncached s₀ (1, .indirect 0) = some (ptr .uncached s₀ 1 (.indirect 0)) :=
    own_of_ne_zero hlive hopened
  have hfresh : ∀ n, n < 8388608 → 8 ≤ n → ∀ q, own .uncached s₀ q ≠ some ((22815 + n : ℕ) : ℤ) :=
    fun n hn hle q ↦ hs.fresh ((hfilled n hn).trans (decide_eq_false (by omega))) q
  have hptr : ∀ n, n < 8388608 → 8 ≤ n → (s₀.field 1 (.indirect 0)).toNat ≠ 22815 + n :=
    fun n hn hle ↦ hs.ne_of_fresh (hfresh n hn hle) hind
  have hblk : ∀ n, n < 8388608 → 8 ≤ n → b.toNat ≠ 22815 + n :=
    fun n hn hle ↦ hs.ne_of_fresh (hfresh n hn hle) hb
  have hfive : Place.ofIndex 5 = .entry 0 1 := Place.ofIndex_entry (r := 0) (i := 1) (by norm_num)
    (by norm_num)
  have hne : b.toNat ≠ (s₀.field 1 (.indirect 0)).toNat := fun heq ↦ by
    have hplace := hs.toNat_inj hb hind heq
    rw [hfive] at hplace
    cases hplace
  have hold : (logical .uncached s₀.dev (s₀.field 1 (.indirect 0)).toNat).int 1 = b := by
    have heq := (own_eq_some.mp hb).2.1
    rw [hfive, ptr, if_neg hopened] at heq
    exact heq
  have hentry : (logical .uncached s.dev (s₀.field 1 (.indirect 0)).toNat).int 1 = b := by
    rw [st.logical, hm, Function.update_of_ne (hptr 9 (by norm_num) (by norm_num)),
      Function.update_self, Block.int_setInt _ _ (by norm_num), if_neg (by norm_num), hold]
  refine ⟨?_, ?_⟩
  · have heq := followed_indirect .uncached s 1 (r := 0) (i := 1) (by norm_num) (by norm_num)
    have hsame : s.field 1 (.indirect 0) = s₀.field 1 (.indirect 0) := hrange ▸ st.ptr
    exact heq.trans ((congrArg (fun v : ℤ ↦ (logical .uncached s.dev v.toNat).int 1) hsame).trans
      hentry)
  · rw [st.logical, hm, Function.update_of_ne (hblk 9 (by norm_num) (by norm_num)),
      Function.update_of_ne hne, Function.update_of_ne (hblk 8 (by norm_num) (by norm_num)),
      Function.update_of_ne hne]

/-- A read of block index 5 then returns what was there before. -/
theorem read_fifth (hid : s₀.field 1 .id = w.objid) :
    ∃ t, objstoreRead .uncached w.objid 4096 (4096 * 5 : ℕ) s =
      .ok ((4096, bytesOf [logical .uncached s₀.dev b.toNat] 4096), t) := by
  obtain ⟨hfollowed, hblock⟩ := followed_fifth st hs hfilled hlive hrange hopened hb hm
  have hptr : s.field 1 (.indirect 0) = s₀.field 1 (.indirect 0) := hrange ▸ st.ptr
  have hind : own .uncached s₀ (1, .indirect 0) = some (s₀.field 1 (.indirect 0)) :=
    own_of_ne_zero hlive hopened
  have hpos := hs.pos hind
  have hbpos := hs.pos hb
  have hnonneg : ∀ blk ∈ touched .uncached s 1 5, 0 ≤ blk := fun blk hblk ↦ by
    have htouched := touched_indirect .uncached s 1 (r := 0) (i := 1) (by norm_num) (by norm_num)
    rw [← followed_indirect .uncached s 1 (by norm_num) (by norm_num), hfollowed] at htouched
    rw [htouched, List.mem_pair] at hblk
    rcases hblk with hblk | hblk
    · have heq : blk = s₀.field 1 (.indirect 0) := hblk.trans hptr
      rw [heq]
      exact le_trans (by norm_num) hpos
    · rw [hblk]
      exact le_trans (by norm_num) hbpos
  obtain ⟨t, hread⟩ := read_block (a := 5) st.kept.dev ((st.kept.live_iff 1).mpr hlive)
    ((st.kept.id 1).trans hid) (st.kept.unique hs hlive hid) (by norm_num) hnonneg
  rw [hfollowed, hblock] at hread
  exact ⟨t, hread⟩

end Fifth

/-- Both threads read the indirect block before either writes it back: block index 5 keeps the block
it had, and the data of the thread that returned is not read. -/
theorem update_lost : ∃ (s : Session) (p : Pool (Fin 2) WritePhase Store),
    Reaches (Call.run .uncached) Unguarded (.start zeroDevice) s ∧ Live s.store 1 ∧
    s.store.field 1 (.indirect 0) ≠ 0 ∧
    Reaches (Pool.turn fun i ↦ ((twoWriters (s.store.field 1 .id)).call i).next .uncached)
      (fun _ _ ↦ True) ⟨fun _ ↦ .called, s.store⟩ p ∧ (∀ i, p.phase i = .returned 4096) ∧
    (twoWriters (s.store.field 1 .id)).index 0 = 5 ∧
    ¬ ∃ t, objstoreRead .uncached (s.store.field 1 .id) 4096 (4096 * 5 : ℕ) p.shared =
      .ok ((4096, (twoWriters (s.store.field 1 .id)).buff 0), t) := by
  obtain ⟨t, ht, b, hb, hblock⟩ := six_blocks
  have hs := ht.ran.sound
  have hlive := ht.second.1
  have hopened := ht.opened (by norm_num)
  have hfilled : Filled t.store 8 := ht.filled
  refine ⟨t, ?_⟩
  have hreached := ht.ran.unguarded
  generalize t.store = s₀ at *
  have hindex : (twoWriters (s₀.field 1 .id)).index 0 = 5 := rfl
  have hbuff : (twoWriters (s₀.field 1 .id)).buff 0 = List.replicate 4096 1 := rfl
  have hentry : ((twoWriters (s₀.field 1 .id)).entry 1 : ℕ) = 2 := rfl
  generalize hw : twoWriters (s₀.field 1 .id) = w at *
  have hid : s₀.field 1 .id = w.objid := by rw [← hw, objid_twoWriters]
  have hrange : w.range = 0 := by rw [← hw, range_twoWriters]
  have hlater : ∀ i, w.entry i ≠ 0 := by rw [← hw]; exact twoWriters_later _
  have hind : own .uncached s₀ (1, .indirect 0) = some (ptr .uncached s₀ 1 (.indirect 0)) :=
    own_of_ne_zero hlive hopened
  have hpos : 22815 ≤ s₀.field 1 (.indirect 0) := hs.pos hind
  have hptr : 0 ≤ s₀.field 1 (.indirect w.range) := by rw [hrange]; omega
  have hrun₀ : Reaches (Pool.turn fun i ↦ (w.call i).next .uncached) (fun _ _ ↦ True)
    ⟨fun _ ↦ .called, s₀⟩ ⟨fun _ ↦ .called, s₀⟩ := .refl _ _ _
  obtain ⟨s₁, st₁, hrun₁⟩ := (stage_start w hs hfilled).loads (i := 0) hrun₀ hptr trivial hs hlive
    hid (by norm_num) rfl (hlater 0) (fun _ _ ↦ trivial) fun _ ↦ trivial
  obtain ⟨s₂, st₂, hrun₂⟩ := st₁.loads (i := 1) hrun₁ hptr trivial hs hlive hid (by norm_num)
    (Function.update_of_ne (by decide) ..) (hlater 1) (fun _ _ ↦ trivial) fun _ ↦ trivial
  obtain ⟨s₃, st₃, hrun₃⟩ := st₂.lands (i := 0) hrun₂ hptr trivial
    ((Function.update_of_ne (by decide) ..).trans (Function.update_self ..)) fun _ ↦ trivial
  obtain ⟨s₄, st₄, hrun₄⟩ := st₃.lands (i := 1) hrun₃ hptr trivial
    ((Function.update_of_ne (by decide) ..).trans (Function.update_self ..)) fun _ ↦ trivial
  have hreturned : ∀ i : Fin 2, Function.update (Function.update (Function.update (Function.update
      (fun _ ↦ WritePhase.called) 0 (.loaded 1 w.range (w.entry 0 : ℕ) (22815 + 8 : ℕ)
        (logical .uncached s₀.dev (s₀.field 1 (.indirect w.range)).toNat))) 1
      (.loaded 1 w.range (w.entry 1 : ℕ) (22815 + 9 : ℕ)
        (logical .uncached s₀.dev (s₀.field 1 (.indirect w.range)).toNat))) 0
      (.returned 4096)) 1 (.returned 4096) i = .returned 4096 := by
    refine Fin.forall_fin_two.mpr ⟨?_, Function.update_self ..⟩
    exact (Function.update_of_ne (by decide) ..).trans (Function.update_self ..)
  refine ⟨_, hreached, hlive, hopened, hrun₄, hreturned, hindex, ?_⟩
  have hcontents := st₄.logical
  rw [hrange] at hcontents
  simp only [applyCalls, List.foldl_append, List.foldl_cons, List.foldl_nil, BlockCall.apply,
    hentry]
    at hcontents
  have hlast : Stage w s₀ 10 _ s₄ := ⟨st₄.kept, st₄.ptr, st₄.filled, hcontents⟩
  obtain ⟨t', hread⟩ := read_fifth hlast hs hfilled hlive hrange hopened hb rfl hid
  rintro ⟨t'', hlost⟩
  rw [hid, hread, hblock, hbuff] at hlost
  have hbytes := congrArg List.head? (bytes_of_ok hlost)
  rw [head?_bytesOf _ (by norm_num), head?_replicate_pos (by norm_num)] at hbytes
  have hseven : (Block.ofList [7]).byte 0 = 1 := Option.some.inj hbytes
  rw [Block.byte_ofList _ (by norm_num)] at hseven
  exact absurd hseven (by decide)

end OsAssignments.Objstore
