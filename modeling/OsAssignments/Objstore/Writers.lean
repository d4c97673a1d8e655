import OsAssignments.Objstore.WriteSteps

/-!
# Writers in one indirect range

Threads write one block each, at different block indices of one indirect range. A write at a later
index reads the indirect block in one step and writes it back in another, so the entry of a thread
is lost when two threads read before either writes; a write at the first index replaces the
indirect block and with it all other entries. `Unlost` is the guard that leaves these steps out.

`Progress` is the invariant of the runs under the guard. Its ghost map `hold` has the blocks that
each thread has allocated: the block for its data and, at the first index, the one that becomes
the indirect block.
-/

set_option autoImplicit false
set_option relaxedAutoImplicit false

namespace OsAssignments.Objstore

open Library Library.Ownership

/-! ### The writers -/

/-- Writers of one block each, at different block indices of one range of an object. -/
structure Writers (ι : Type*) where
  objid : ℤ
  range : Fin 4
  entry : ι → Fin 1024
  buff : ι → List UInt8
  distinct : Function.Injective entry
  size : ∀ i, (buff i).length = 4096

/-- Block index of a writer. -/
def Writers.index {ι : Type*} (w : Writers ι) (i : ι) : ℕ := 4 + 1024 * w.range + w.entry i

/-- The call of a writer. -/
def Writers.call {ι : Type*} (w : Writers ι) (i : ι) : WriteCall where
  objid := w.objid
  buff := w.buff i
  offset := (4096 * w.index i : ℕ)

namespace WritePhase

/-- The thread has a copy of the indirect block that it has not written back. -/
def Loaded : WritePhase → Prop
  | loaded .. => True
  | _ => False

/-- The block of the thread is entered in the indirect block. -/
def Entered : WritePhase → Prop
  | storing _ => True
  | returned _ => True
  | _ => False

end WritePhase

/-- Entry `e` of the indirect block of a range. -/
def entryOf (bld : Build) (s : Store) (k : ℕ) (r : Fin 4) (e : Fin 1024) : ℤ :=
  (logical bld s.dev (s.field k (.indirect r)).toNat).int e

/-- The allocator finds a block. -/
def HasClear (s : Store) : Prop := ∃ i < 8388608, s.dataBit i = false

/-- The step of a writer finds a block if it allocates one, reads the indirect block only while no
other thread has a copy of it, and replaces it only when no thread has a copy and the range holds no
other block. -/
def Unlost {ι : Type*} (bld : Build) (w : Writers ι) (i : ι) (p : Pool ι WritePhase Store) :
    Prop :=
  match p.phase i with
  | .found _ => HasClear p.shared
  | .allocated _ _ =>
    if w.entry i = 0 then HasClear p.shared else ∀ j, ¬ (p.phase j).Loaded
  | .second k r _ _ =>
    (∀ j, ¬ (p.phase j).Loaded) ∧ ∀ e ≠ 0, entryOf bld p.shared k r e = 0
  | _ => True

section Guard

variable {ι : Type*} {bld : Build} {w : Writers ι} {i : ι} {p : Pool ι WritePhase Store} {k : ℕ}

theorem unlost_called (hi : p.phase i = .called) : Unlost bld w i p := by
  rw [Unlost, hi]
  trivial

theorem unlost_found (hi : p.phase i = .found k) (h : HasClear p.shared) : Unlost bld w i p := by
  rw [Unlost, hi]
  exact h

theorem unlost_allocated {data1 : ℤ} (hi : p.phase i = .allocated k data1) (hlater : w.entry i ≠ 0)
    (h : ∀ j, ¬ (p.phase j).Loaded) : Unlost bld w i p := by
  rw [Unlost, hi]
  exact (if_neg hlater).symm ▸ h

theorem unlost_loaded {r : Fin 4} {e data1 : ℤ} {block : Block}
    (hi : p.phase i = .loaded k r e data1 block) : Unlost bld w i p := by
  rw [Unlost, hi]
  trivial

theorem unlost_storing {data : ℤ} (hi : p.phase i = .storing data) : Unlost bld w i p := by
  rw [Unlost, hi]
  trivial

end Guard

/-! ### The invariant -/

/-- The steps of the writers keep everything but the bits they set, the size and the pointer to the
indirect block. -/
structure Kept (bld : Build) (k : ℕ) (r : Fin 4) (s₀ s : Store) : Prop where
  inodeBitmap : s.inodeBitmap = s₀.inodeBitmap
  field : ∀ k' f, (k' = k → f ≠ .size ∧ f ≠ .indirect r) → s.field k' f = s₀.field k' f
  bits : ∀ i, s₀.dataBit i = true → s.dataBit i = true
  dev : BuildOk bld s.dev

variable {ι : Type*} {bld : Build} {w : Writers ι} {k : ℕ} {s₀ s s' : Store} {i j : ι}
  {hold hold' : ι × Bool → Option ℤ} {phase : ι → WritePhase} {l : WritePhase}

namespace Kept

variable {r : Fin 4} (h : Kept bld k r s₀ s)

include h

theorem id (k' : ℕ) : s.field k' .id = s₀.field k' .id :=
  h.field k' .id fun _ ↦ ⟨by simp, by simp⟩

theorem live_iff (k' : ℕ) : Live s k' ↔ Live s₀ k' := by
  have hbit : s.inodeBit k' = s₀.inodeBit k' := by
    rw [Store.inodeBit, Store.inodeBit, h.inodeBitmap]
  exact ⟨fun hl ↦ ⟨hl.slot, hbit ▸ hl.bit, h.id k' ▸ hl.id⟩,
    fun hl ↦ ⟨hl.slot, hbit.symm ▸ hl.bit, (h.id k').symm ▸ hl.id⟩⟩

/-- The object of the writers is found where it was. -/
theorem unique (hs : Sound bld s₀) (hlive : Live s₀ k) (hid : s₀.field k .id = w.objid) (j : ℕ)
    (hj : Live s j) (heq : s.field j .id = w.objid) : j = k := by
  rw [h.id, ← hid] at heq
  exact hs.ids j k ((h.live_iff j).mp hj) hlive heq

end Kept

/-- The local variables of a writer agree with the blocks it holds. -/
def Fits (w : Writers ι) (k : ℕ) (hold : ι × Bool → Option ℤ) (j : ι) : WritePhase → Prop
  | .called => ∀ b, hold (j, b) = none
  | .found k' => k' = k ∧ ∀ b, hold (j, b) = none
  | .allocated k' data1 => k' = k ∧
    if w.entry j = 0 then hold (j, true) = some data1 ∧ hold (j, false) = none
    else hold (j, false) = some data1
  | .second k' r data1 data2 => k' = k ∧ r = w.range ∧ w.entry j = 0 ∧
    hold (j, true) = some data1 ∧ hold (j, false) = some data2
  | .loaded k' r e data1 _ => k' = k ∧ r = w.range ∧ e = (w.entry j : ℕ) ∧
    hold (j, false) = some data1
  | .storing data => hold (j, false) = some data
  | .returned reply => reply = 4096

/-- A block that was free at the start and is allocated now. -/
def Taken (s₀ s : Store) (b : ℤ) : Prop :=
  ∃ i < 8388608, b = ((22815 + i : ℕ) : ℤ) ∧ s₀.dataBit i = false ∧ s.dataBit i = true

/-- What holds between two steps of the writers, with the blocks they have allocated. -/
structure Progress (bld : Build) (w : Writers ι) (k : ℕ) (s₀ : Store)
    (hold : ι × Bool → Option ℤ) (phase : ι → WritePhase) (s : Store) : Prop where
  kept : Kept bld k w.range s₀ s
  exclusive : Exclusive hold
  taken : ∀ h b, hold h = some b → Taken s₀ s b
  fits : ∀ j, Fits w k hold j (phase j)
  pointer : s.field k (.indirect w.range) = s₀.field k (.indirect w.range) ∨
    ∃ j, hold (j, true) = some (s.field k (.indirect w.range))
  others : ∀ n : ℕ, (n : ℤ) ≠ s₀.field k (.indirect w.range) → (∀ h, hold h ≠ some (n : ℤ)) →
    logical bld s.dev n = logical bld s₀.dev n
  entered : ∀ j, (phase j).Entered →
    hold (j, false) = some (entryOf bld s k w.range (w.entry j))
  entries : ∀ e, (∀ j, (phase j).Entered → w.entry j ≠ e) →
    entryOf bld s k w.range e = entryOf bld s₀ k w.range e
  stored : ∀ j reply b, phase j = .returned reply → hold (j, false) = some b →
    logical bld s.dev b.toNat = Block.ofList (w.buff j)
  loaded : ∀ j k' r e data block, phase j = .loaded k' r e data block →
    (∀ e : Fin 1024, block.int e = entryOf bld s k w.range e) ∧
      ∀ j', (phase j').Loaded → j' = j

theorem Fits.congr (hhold : ∀ b, hold' (j, b) = hold (j, b)) (h : Fits w k hold j l) :
    Fits w k hold' j l := by
  cases l <;> simpa only [Fits, hhold] using h

theorem Taken.mono {b : ℤ} (hbits : ∀ i, s.dataBit i = true → s'.dataBit i = true)
    (h : Taken s₀ s b) : Taken s₀ s' b := by
  obtain ⟨i, hi, hb, hold, hnew⟩ := h
  exact ⟨i, hi, hb, hold, hbits i hnew⟩

theorem Taken.pos {b : ℤ} (h : Taken s₀ s b) : 22815 ≤ b := by
  obtain ⟨i, -, rfl, -⟩ := h
  omega

namespace Progress

theorem start (hs : Sound bld s₀) :
    Progress bld w k s₀ (fun _ ↦ none) (fun _ ↦ .called) s₀ where
  kept := ⟨rfl, fun _ _ _ ↦ rfl, fun _ h ↦ h, hs.dev⟩
  exclusive := fun _ _ _ h ↦ nomatch h
  taken := fun _ _ h ↦ nomatch h
  fits := fun _ _ ↦ rfl
  pointer := .inl rfl
  others := fun _ _ _ ↦ rfl
  entered := fun _ h ↦ h.elim
  entries := fun _ _ ↦ rfl
  stored := fun _ _ _ h ↦ nomatch h
  loaded := fun _ _ _ _ _ _ h ↦ nomatch h

section Facts

variable (h : Progress bld w k s₀ hold phase s) (hs : Sound bld s₀) (hlive : Live s₀ k)
  (hopened : s₀.field k (.indirect w.range) ≠ 0)

include h

include hs in
/-- No thread holds a block that an object referred to at the start. -/
theorem ne_of_own {q : ℕ × Place} {b : ℤ} (hq : own bld s₀ q = some b) (x : ι × Bool) :
    hold x ≠ some b := by
  intro hx
  obtain ⟨i, -, rfl, hclear, -⟩ := h.taken x b hx
  exact hs.fresh hclear q hq

include hs hlive hopened

theorem ptr_not_held (x : ι × Bool) : hold x ≠ some (s₀.field k (.indirect w.range)) :=
  h.ne_of_own hs (own_of_ne_zero (p := .indirect w.range) hlive hopened) x

theorem ptr_pos : 22815 ≤ s.field k (.indirect w.range) := by
  rcases h.pointer with heq | ⟨j, hj⟩
  · rw [heq]
    exact hs.pos (own_of_ne_zero (p := .indirect w.range) hlive hopened)
  · exact (h.taken _ _ hj).pos

/-- The block for the data of a thread is not the indirect block. -/
theorem data_ne_ptr {b : ℤ} (hb : hold (j, false) = some b) :
    b ≠ s.field k (.indirect w.range) := by
  rintro rfl
  rcases h.pointer with heq | ⟨j', hj'⟩
  · exact h.ptr_not_held hs hlive hopened _ (heq ▸ hb)
  · cases h.exclusive _ _ _ hb hj'

theorem ne_ptr_of_not_held {n : ℕ} (hn : (n : ℤ) ≠ s₀.field k (.indirect w.range))
    (hnone : ∀ x, hold x ≠ some (n : ℤ)) : n ≠ (s.field k (.indirect w.range)).toNat := by
  intro heq
  have hpos := h.ptr_pos hs hlive hopened
  have hptr : s.field k (.indirect w.range) = n := by omega
  rcases h.pointer with hold | ⟨j, hj⟩
  · exact hn (hptr.symm.trans hold)
  · exact hnone _ (hptr ▸ hj)

end Facts

/-! ### Steps that enter nothing -/

/-- A change of the store that keeps the contents and the pointer. -/
theorem frame (h : Progress bld w k s₀ hold phase s) (hkept : Kept bld k w.range s₀ s')
    (hptr : s'.field k (.indirect w.range) = s.field k (.indirect w.range))
    (hsame : logical bld s'.dev = logical bld s.dev)
    (hbits : ∀ n, s.dataBit n = true → s'.dataBit n = true) :
    Progress bld w k s₀ hold phase s' := by
  have hentry : ∀ e, entryOf bld s' k w.range e = entryOf bld s k w.range e := fun e ↦ by
    rw [entryOf, entryOf, hsame, hptr]
  refine ⟨hkept, h.exclusive, fun x b hx ↦ (h.taken x b hx).mono hbits, h.fits, ?_, ?_, ?_, ?_, ?_,
    ?_⟩
  · rw [hptr]
    exact h.pointer
  · rw [hsame]
    exact h.others
  · simp only [hentry]
    exact h.entered
  · simp only [hentry]
    exact h.entries
  · rw [hsame]
    exact h.stored
  · simp only [hentry]
    exact h.loaded

theorem markDirty (h : Progress bld w k s₀ hold phase s) :
    Progress bld w k s₀ hold phase (s.markDirty k) :=
  h.frame ⟨h.kept.inodeBitmap, h.kept.field, h.kept.bits, h.kept.dev⟩ rfl rfl fun _ hn ↦ hn

theorem resize (h : Progress bld w k s₀ hold phase s) (size : ℤ) :
    Progress bld w k s₀ hold phase (s.assign k .size size) := by
  refine h.frame ⟨h.kept.inodeBitmap, fun k' f hf ↦ ?_, h.kept.bits, h.kept.dev⟩ ?_ rfl
    fun _ hn ↦ hn
  · rw [field_assign, if_neg fun hsize ↦ (hf hsize.1).1 hsize.2]
    exact h.kept.field k' f hf
  · rw [field_assign, if_neg fun hsize ↦ by cases hsize.2]

theorem allocated (h : Progress bld w k s₀ hold phase s) (n : ℕ) :
    Progress bld w k s₀ hold phase (s.allocated n) := by
  have hbits : ∀ m, s.dataBit m = true → (s.allocated n).dataBit m = true := fun m hm ↦ by
    rw [dataBit_allocated, hm, Bool.or_true]
  exact h.frame ⟨h.kept.inodeBitmap, h.kept.field, fun m hm ↦ hbits m (h.kept.bits m hm),
    h.kept.dev⟩ rfl rfl hbits

theorem read (h : Progress bld w k s₀ hold phase s) (b : ℕ) :
    Progress bld w k s₀ hold phase
      { s with dev := runCalls bld [.read b Block.zero] s.dev } :=
  h.frame ⟨h.kept.inodeBitmap, h.kept.field, h.kept.bits, buildOk_runCalls h.kept.dev _⟩ rfl
    (logical_runCalls h.kept.dev _) fun _ hn ↦ hn

section Quiet

variable [DecidableEq ι] (h : Progress bld w k s₀ hold phase s) (hi : ¬ (phase i).Entered)
  (hl : ¬ l.Entered)

include h hi hl

/-- A thread that has entered nothing goes on, with the blocks it holds then. -/
theorem quiet (hbelow : Below hold hold') (hexclusive : Exclusive hold')
    (htaken : ∀ x b, hold' x = some b → Taken s₀ s b)
    (hrest : ∀ j, j ≠ i → ∀ b, hold' (j, b) = hold (j, b)) (hfits : Fits w k hold' i l)
    (hloaded : ∀ k' r e data block, l = .loaded k' r e data block →
      (∀ e : Fin 1024, block.int e = entryOf bld s k w.range e) ∧ ∀ j, ¬ (phase j).Loaded) :
    Progress bld w k s₀ hold' (Function.update phase i l) s := by
  refine ⟨h.kept, hexclusive, htaken, fun j ↦ ?_, ?_, fun n hn hnone ↦ ?_, fun j hj ↦ ?_,
    fun e he ↦ ?_, fun j reply b hj hb ↦ ?_, fun j k' r e data block hj ↦ ?_⟩
  · by_cases hji : j = i
    · rw [hji, Function.update_self]
      exact hfits
    · rw [Function.update_of_ne hji]
      exact (h.fits j).congr (hrest j hji)
  · exact h.pointer.imp_right fun ⟨j, hj⟩ ↦ ⟨j, hbelow _ _ hj⟩
  · exact h.others n hn fun x hx ↦ hnone x (hbelow x _ hx)
  · have hji : j ≠ i := by
      rintro rfl
      rw [Function.update_self] at hj
      exact hl hj
    rw [Function.update_of_ne hji] at hj
    rw [hrest j hji]
    exact h.entered j hj
  · refine h.entries e fun j hj ↦ he j ?_
    have hji : j ≠ i := by
      rintro rfl
      exact hi hj
    rwa [Function.update_of_ne hji]
  · obtain ⟨hji, hj⟩ := of_update_eq hj (by rintro rfl; exact hl trivial)
    rw [hrest j hji] at hb
    exact h.stored j reply b hj hb
  · rcases update_cases hj with ⟨rfl, hl'⟩ | ⟨hji, hj⟩
    · obtain ⟨hblock, hnone⟩ := hloaded k' r e data block hl'
      refine ⟨hblock, fun j' hj' ↦ ?_⟩
      by_contra hne
      rw [Function.update_of_ne hne] at hj'
      exact hnone j' hj'
    · obtain ⟨hblock, honly⟩ := h.loaded j k' r e data block hj
      have hmine : (phase j).Loaded := by
        rw [hj]
        trivial
      refine ⟨hblock, fun j' hj' ↦ ?_⟩
      by_cases hne : j' = i
      · rw [hne, Function.update_self] at hj'
        cases l with
        | loaded k'' r' e' data' block' =>
          exact absurd hmine ((hloaded _ _ _ _ _ rfl).2 j)
        | _ => exact hj'.elim
      · rw [Function.update_of_ne hne] at hj'
        exact honly j' hj'

/-- A thread goes on with the blocks it had. -/
theorem keep (hfits : Fits w k hold i l)
    (hloaded : ∀ k' r e data block, l = .loaded k' r e data block →
      (∀ e : Fin 1024, block.int e = entryOf bld s k w.range e) ∧ ∀ j, ¬ (phase j).Loaded) :
    Progress bld w k s₀ hold (Function.update phase i l) s :=
  h.quiet hi hl (fun _ _ hx ↦ hx) h.exclusive h.taken (fun _ _ _ ↦ rfl) hfits hloaded

/-- A thread goes on with one more block, the one of a clear bit. -/
theorem take {n : ℕ} {b : Bool} (hn : FirstClear s n) (hnone : hold (i, b) = none)
    (hloaded : ¬ l.Loaded)
    (hfits : Fits w k (Function.update hold (i, b) (some ((22815 + n : ℕ) : ℤ))) i l) :
    Progress bld w k s₀ (Function.update hold (i, b) (some ((22815 + n : ℕ) : ℤ)))
      (Function.update phase i l) (s.allocated n) := by
  have hheld : ∀ x, hold x ≠ some ((22815 + n : ℕ) : ℤ) := fun x hx ↦ by
    obtain ⟨m, -, hm, -, hset⟩ := h.taken x _ hx
    obtain rfl : n = m := by omega
    rw [hn.clear] at hset
    cases hset
  have hstart : s₀.dataBit n = false := by
    by_contra hset
    have hnow := h.kept.bits n (by simpa using hset)
    rw [hn.clear] at hnow
    cases hnow
  have hset : (s.allocated n).dataBit n = true := by
    rw [dataBit_allocated, decide_eq_true (List.mem_singleton_self n), Bool.true_or]
  refine (h.allocated n).quiet hi hl (below_update_some _ hnone) (h.exclusive.update hheld)
    (fun x d hx ↦ ?_) (fun j hji d ↦ ?_) hfits ?_
  · by_cases hxi : x = (i, b)
    · rw [hxi, Function.update_self] at hx
      exact ⟨n, hn.lt, (Option.some.inj hx).symm, hstart, hset⟩
    · rw [Function.update_of_ne hxi] at hx
      exact (h.allocated n).taken x d hx
  · exact Function.update_of_ne (fun heq ↦ hji (Prod.mk.inj heq).1) ..
  · rintro k' r e data block rfl
    exact absurd trivial hloaded

end Quiet

/-! ### Steps that enter a block -/

section Enter

variable [DecidableEq ι] (h : Progress bld w k s₀ hold phase s) (hs : Sound bld s₀)
  (hlive : Live s₀ k) (hopened : s₀.field k (.indirect w.range) ≠ 0)

include h hs hlive hopened

/-- The block of the data is stored. -/
theorem stores {data : ℤ} {x : Block} (hi : phase i = .storing data)
    (hx : x = Block.ofList (w.buff i)) :
    Progress bld w k s₀ hold (Function.update phase i (.returned 4096))
      { s with dev := runCalls bld [.write data.toNat x] s.dev } := by
  have hdata : hold (i, false) = some data := by
    have hfits := h.fits i
    rwa [hi] at hfits
  have hpos := (h.taken _ _ hdata).pos
  have hlogical : logical bld (runCalls bld [.write data.toNat x] s.dev) =
      Function.update (logical bld s.dev) data.toNat x := logical_runCalls h.kept.dev _
  have hentry : ∀ e, entryOf bld { s with dev := runCalls bld [.write data.toNat x] s.dev } k
      w.range e = entryOf bld s k w.range e := fun e ↦ by
    have hne := h.data_ne_ptr hs hlive hopened hdata
    have hptr := h.ptr_pos hs hlive hopened
    rw [entryOf, entryOf, hlogical]
    exact congrArg (Block.int · e) (Function.update_of_ne
      (show (s.field k (.indirect w.range)).toNat ≠ data.toNat by omega) ..)
  have hphase : ∀ j, (Function.update phase i (.returned 4096) j).Entered ↔ (phase j).Entered := by
    intro j
    by_cases hji : j = i
    · rw [hji, Function.update_self, hi]
      exact Iff.rfl
    · rw [Function.update_of_ne hji]
  refine ⟨⟨h.kept.inodeBitmap, h.kept.field, h.kept.bits, buildOk_runCalls h.kept.dev _⟩,
    h.exclusive, h.taken, fun j ↦ ?_, h.pointer, fun n hn hnone ↦ ?_, fun j hj ↦ ?_,
    fun e he ↦ ?_, fun j reply b hj hb ↦ ?_, fun j k' r e data' block hj ↦ ?_⟩
  · by_cases hji : j = i
    · rw [hji, Function.update_self]
      rfl
    · rw [Function.update_of_ne hji]
      exact h.fits j
  · have hne : n ≠ data.toNat := by
      rintro rfl
      exact hnone (i, false) (by rw [hdata, Int.toNat_of_nonneg (by omega)])
    exact (congrFun hlogical n).trans ((Function.update_of_ne hne ..).trans (h.others n hn hnone))
  · rw [hentry]
    exact h.entered j ((hphase j).mp hj)
  · rw [hentry]
    exact h.entries e fun j hj ↦ he j ((hphase j).mpr hj)
  · rcases update_cases hj with ⟨rfl, -⟩ | ⟨hji, hj⟩
    · rw [hdata] at hb
      cases hb
      exact (congrFun hlogical _).trans ((Function.update_self ..).trans hx)
    · have hne : b.toNat ≠ data.toNat := fun heq ↦ by
        have hbpos := (h.taken _ _ hb).pos
        obtain rfl : b = data := by omega
        exact hji (Prod.mk.inj (h.exclusive _ _ _ hb hdata)).1
      exact (congrFun hlogical _).trans
        ((Function.update_of_ne hne ..).trans (h.stored j reply b hj hb))
  · obtain ⟨hji, hj⟩ := of_update_eq hj (by simp)
    simp only [hentry]
    obtain ⟨hblock, honly⟩ := h.loaded j k' r e data' block hj
    refine ⟨hblock, fun j' hj' ↦ honly j' ?_⟩
    by_cases hne : j' = i
    · rw [hne, Function.update_self] at hj'
      exact hj'.elim
    · rwa [Function.update_of_ne hne] at hj'

/-- The block is entered in the indirect block, by the only thread with a copy of it. -/
theorem enters {k' : ℕ} {r : Fin 4} {e data : ℤ} {block : Block}
    (hi : phase i = .loaded k' r e data block) :
    Progress bld w k s₀ hold (Function.update phase i (.storing data))
      { s with dev := runCalls bld [.write (s.field k (.indirect w.range)).toNat
        (block.setInt (w.entry i) data)] s.dev } := by
  have hdata : hold (i, false) = some data := by
    have hfits := h.fits i
    rw [hi] at hfits
    exact hfits.2.2.2
  obtain ⟨hblock, honly⟩ := h.loaded i k' r e data block hi
  have hptr := h.ptr_pos hs hlive hopened
  have hlogical : logical bld (runCalls bld [.write (s.field k (.indirect w.range)).toNat
      (block.setInt (w.entry i) data)] s.dev) = Function.update (logical bld s.dev)
        (s.field k (.indirect w.range)).toNat (block.setInt (w.entry i) data) :=
    logical_runCalls h.kept.dev _
  have hentry : ∀ e, entryOf bld { s with dev := runCalls bld [.write
      (s.field k (.indirect w.range)).toNat (block.setInt (w.entry i) data)] s.dev } k w.range e =
        if e = w.entry i then data else entryOf bld s k w.range e := fun e ↦ by
    obtain ⟨n, hn, rfl, -⟩ := h.taken _ _ hdata
    have hself : entryOf bld { s with dev := runCalls bld [.write
        (s.field k (.indirect w.range)).toNat
        (block.setInt (w.entry i) ((22815 + n : ℕ) : ℤ))] s.dev } k w.range e =
          (block.setInt (w.entry i) ((22815 + n : ℕ) : ℤ)).int e := by
      rw [entryOf, hlogical]
      exact congrArg (Block.int · e) (Function.update_self ..)
    rw [hself, Block.int_setInt _ _ e.isLt, wrap_blk (by omega), hblock]
    exact if_congr Fin.ext_iff.symm rfl rfl
  have hphase : ∀ j, j ≠ i → ((Function.update phase i (.storing data) j) = phase j) :=
    fun j hji ↦ Function.update_of_ne hji ..
  refine ⟨⟨h.kept.inodeBitmap, h.kept.field, h.kept.bits, buildOk_runCalls h.kept.dev _⟩,
    h.exclusive, h.taken, fun j ↦ ?_, h.pointer, fun n hn hnone ↦ ?_, fun j hj ↦ ?_,
    fun e he ↦ ?_, fun j reply b hj hb ↦ ?_, fun j k' r e data' block' hj ↦ ?_⟩
  · by_cases hji : j = i
    · rw [hji, Function.update_self]
      exact hdata
    · rw [Function.update_of_ne hji]
      exact h.fits j
  · have hne := h.ne_ptr_of_not_held hs hlive hopened hn hnone
    exact (congrFun hlogical n).trans ((Function.update_of_ne hne ..).trans (h.others n hn hnone))
  · rw [hentry]
    by_cases hji : j = i
    · rw [hji, if_pos rfl]
      exact hdata
    · rw [if_neg fun heq ↦ hji (w.distinct heq)]
      rw [hphase j hji] at hj
      exact h.entered j hj
  · have hmine : e ≠ w.entry i := fun heq ↦ he i (by rw [Function.update_self]; trivial) heq.symm
    rw [hentry, if_neg hmine]
    refine h.entries e fun j hj ↦ he j ?_
    by_cases hji : j = i
    · rw [hji, hi] at hj
      exact hj.elim
    · rwa [hphase j hji]
  · obtain ⟨hji, hj⟩ := of_update_eq hj (by simp)
    have hne : b.toNat ≠ (s.field k (.indirect w.range)).toNat := fun heq ↦ by
      have hbpos := (h.taken _ _ hb).pos
      exact h.data_ne_ptr hs hlive hopened hb (by omega)
    exact (congrFun hlogical _).trans
      ((Function.update_of_ne hne ..).trans (h.stored j reply b hj hb))
  · obtain ⟨hji, hj⟩ := of_update_eq hj (by simp)
    exact absurd (honly j (by rw [hj]; trivial)) hji

omit hs hlive hopened in
/-- The indirect block is replaced, with the block entered in it, when no thread has a copy and the
range holds no other block. -/
theorem replaces {k' : ℕ} {r : Fin 4} {data1 data2 : ℤ} (hi : phase i = .second k' r data1 data2)
    (hnone : ∀ j, ¬ (phase j).Loaded) (hzero : ∀ e ≠ 0, entryOf bld s k w.range e = 0) :
    Progress bld w k s₀ hold (Function.update phase i (.storing data2))
      { s.assign k (.indirect w.range) data1 with
        dev := runCalls bld [.write data1.toNat (Block.zero.setInt 0 data2)] s.dev } := by
  have hfits := h.fits i
  rw [hi] at hfits
  obtain ⟨-, -, hfirst, hone, htwo⟩ := hfits
  have honepos := (h.taken _ _ hone).pos
  have htwopos := (h.taken _ _ htwo).pos
  have hlogical :
      logical bld (runCalls bld [.write data1.toNat (Block.zero.setInt 0 data2)] s.dev) =
      Function.update (logical bld s.dev) data1.toNat (Block.zero.setInt 0 data2) :=
    logical_runCalls h.kept.dev _
  have hptr : (s.assign k (.indirect w.range) data1).field k (.indirect w.range) = data1 := by
    obtain ⟨n, hn, rfl, -⟩ := h.taken _ _ hone
    rw [field_assign, if_pos ⟨rfl, rfl⟩]
    exact wrap_blk (by omega)
  generalize hs' : ({ s.assign k (.indirect w.range) data1 with
    dev := runCalls bld [.write data1.toNat (Block.zero.setInt 0 data2)] s.dev } : Store) = s'
  have hptr' : s'.field k (.indirect w.range) = data1 := hs' ▸ hptr
  have hlogical' : logical bld s'.dev =
      Function.update (logical bld s.dev) data1.toNat (Block.zero.setInt 0 data2) := hs' ▸ hlogical
  have hentry : ∀ e, entryOf bld s' k w.range e = if e = 0 then data2 else 0 := fun e ↦ by
    obtain ⟨n, hn, rfl, -⟩ := h.taken _ _ htwo
    rw [entryOf, hlogical', hptr', Function.update_self, Block.int_setInt _ _ e.isLt,
      wrap_blk (by omega), Block.int_zero]
    exact if_congr (Fin.ext_iff (b := (0 : Fin 1024))).symm rfl rfl
  -- An entry other than the first one would be a block that the range holds.
  have halone : ∀ j, (phase j).Entered → w.entry j = 0 := fun j hj ↦ by
    by_contra hne
    have hheld := (h.taken _ _ (h.entered j hj)).pos
    rw [hzero _ hne] at hheld
    omega
  have hother : ∀ j, ¬ (phase j).Entered := fun j hj ↦ by
    obtain rfl : j = i := w.distinct ((halone j hj).trans hfirst.symm)
    rw [hi] at hj
    exact hj
  have hphase : ∀ j, (Function.update phase i (.storing data2) j).Entered → j = i := fun j hj ↦ by
    by_contra hji
    rw [Function.update_of_ne hji] at hj
    exact hother j hj
  refine ⟨⟨hs' ▸ h.kept.inodeBitmap, fun k' f hf ↦ ?_, hs' ▸ h.kept.bits,
    hs' ▸ buildOk_runCalls h.kept.dev _⟩, h.exclusive, hs' ▸ h.taken, fun j ↦ ?_, ?_,
    fun n hn hfree ↦ ?_, fun j hj ↦ ?_, fun e he ↦ ?_, fun j reply b hj hb ↦ ?_,
    fun j k' r e data' block' hj ↦ ?_⟩
  · have hfield : s'.field k' f = (s.assign k (.indirect w.range) data1).field k' f := hs' ▸ rfl
    rw [hfield, field_assign, if_neg fun heq ↦ (hf heq.1).2 heq.2]
    exact h.kept.field k' f hf
  · by_cases hji : j = i
    · rw [hji, Function.update_self]
      exact htwo
    · rw [Function.update_of_ne hji]
      exact h.fits j
  · exact .inr ⟨i, by rw [hptr', hone]⟩
  · have hne : n ≠ data1.toNat := by
      rintro rfl
      exact hfree (i, true) (by rw [hone, Int.toNat_of_nonneg (by omega)])
    rw [hlogical', Function.update_of_ne hne]
    exact h.others n hn hfree
  · rw [hphase j hj, hfirst, hentry, if_pos rfl]
    exact htwo
  · have hmine : e ≠ 0 := fun heq ↦
      he i (by rw [Function.update_self]; trivial) (hfirst.trans heq.symm)
    rw [hentry, if_neg hmine, ← hzero e hmine]
    exact h.entries e fun j hj ↦ absurd hj (hother j)
  · obtain ⟨-, hj⟩ := of_update_eq hj (by simp)
    exact absurd (by rw [hj]; trivial) (hother j)
  · obtain ⟨-, hj⟩ := of_update_eq hj (by simp)
    exact absurd (by rw [hj]; trivial) (hnone j)

end Enter

end Progress

/-! ### Runs -/

theorem HasClear.firstClear (h : HasClear s) : ∃ n, FirstClear s n := by
  obtain ⟨n, hn, hclear, hleast, -⟩ := freeDataBlock_spec h
  exact ⟨n, hn, hclear, hleast⟩

/-- One call of `cache_blk_write` with a block number that is not negative. -/
theorem blkWrite_eq (bld : Build) (s : Store) {blk : ℤ} (hblk : 0 ≤ blk) (x : Block) :
    s.blkWrite bld blk x = { s with dev := runCalls bld [.write blk.toNat x] s.dev } := by
  obtain ⟨b, rfl⟩ := Int.eq_ofNat_of_zero_le hblk
  rfl

section Run

variable [DecidableEq ι] (hs : Sound bld s₀) (hlive : Live s₀ k)
  (hid : s₀.field k .id = w.objid) (hopened : s₀.field k (.indirect w.range) ≠ 0)

include hs hlive hid hopened

/-- Each step under the guard keeps the invariant. -/
theorem progress_step {p : Pool ι WritePhase Store} (h : Progress bld w k s₀ hold p.phase p.shared)
    (hok : Unlost bld w i p) (hnext : (w.call i).next bld (p.phase i) p.shared = .ok (l, s)) :
    ∃ hold', Progress bld w k s₀ hold' (Function.update p.phase i l) s := by
  have hfits := h.fits i
  have hoffset : (w.call i).offset = (4096 * (4 + 1024 * (w.range : ℕ) + w.entry i) : ℕ) := rfl
  have hsize : (w.call i).buff.length = 4096 := w.size i
  rw [Unlost] at hok
  cases hi : p.phase i with
  | called =>
    rw [hi] at hnext
    rw [WriteCall.next_called ((h.kept.live_iff k).mpr hlive) ((h.kept.id k).trans hid)
      (h.kept.unique hs hlive hid)] at hnext
    cases hnext
    rw [hi] at hfits
    exact ⟨hold, h.markDirty.keep (by rw [hi]; exact not_false) not_false ⟨rfl, hfits⟩ nofun⟩
  | found k' =>
    rw [hi] at hnext hok hfits
    obtain ⟨rfl, hempty⟩ := hfits
    obtain ⟨n, hn⟩ := HasClear.firstClear hok
    rw [WriteCall.next_found hn] at hnext
    cases hnext
    by_cases hfirst : w.entry i = 0
    · refine ⟨_, h.take (b := true) (by rw [hi]; exact not_false) (by exact not_false) hn
        (hempty true) (by exact not_false) ⟨rfl, ?_⟩⟩
      rw [if_pos hfirst, Function.update_self, Function.update_of_ne (by simp)]
      exact ⟨rfl, hempty false⟩
    · refine ⟨_, h.take (b := false) (by rw [hi]; exact not_false) (by exact not_false) hn
        (hempty false) (by exact not_false) ⟨rfl, ?_⟩⟩
      rw [if_neg hfirst, Function.update_self]
  | allocated k' data1 =>
    rw [hi] at hnext hok hfits
    obtain ⟨rfl, hheld⟩ := hfits
    rw [WriteCall.next_allocated (w.entry i).isLt hoffset, hsize] at hnext
    generalize p.shared.field k' .size + ((4096 : ℕ) : ℤ) = size at hnext
    have hresize := h.resize size
    by_cases hfirst : w.entry i = 0
    · simp only [hfirst, if_true] at hok hheld hnext
      obtain ⟨n, hn⟩ := HasClear.firstClear hok
      have hn' : FirstClear (p.shared.assign k' .size size) n := ⟨hn.lt, hn.clear, hn.least⟩
      rw [show 4 + 1024 * (w.range : ℕ) + ((0 : Fin 1024) : ℕ) = 4 + 1024 * (w.range : ℕ) from rfl,
        WriteCall.indirectStep_first hn'] at hnext
      cases hnext
      refine ⟨_, hresize.take (b := false) (by rw [hi]; exact not_false) (by exact not_false) hn'
        hheld.2 (by exact not_false) ⟨rfl, rfl, hfirst, ?_, ?_⟩⟩
      · rw [Function.update_of_ne (by simp)]
        exact hheld.1
      · rw [Function.update_self]
    · simp only [hfirst, if_false] at hok hheld
      have hpos : 0 < (w.entry i : ℕ) := Nat.pos_of_ne_zero fun hzero ↦ hfirst (Fin.ext hzero)
      have hptr := hresize.ptr_pos hs hlive hopened
      rw [WriteCall.indirectStep_next hpos hresize.kept.dev (by omega)] at hnext
      cases hnext
      refine ⟨hold, (hresize.read _).keep (by rw [hi]; exact not_false) not_false
        ⟨rfl, rfl, rfl, hheld⟩ ?_⟩
      rintro k' r e data block heq
      cases heq
      refine ⟨fun e ↦ ?_, hok⟩
      rw [entryOf, logical_runCalls hresize.kept.dev]
      rfl
  | second k' r data1 data2 =>
    rw [hi] at hnext hok hfits
    obtain ⟨rfl, rfl, -, hone, -⟩ := hfits
    have hpos := (h.taken _ _ hone).pos
    rw [WriteCall.next, blkWrite_eq bld _ (by omega)] at hnext
    cases hnext
    exact ⟨hold, h.replaces hi hok.1 hok.2⟩
  | loaded k' r e data1 block =>
    rw [hi] at hnext hfits
    obtain ⟨rfl, rfl, rfl, -⟩ := hfits
    have hptr := h.ptr_pos hs hlive hopened
    rw [WriteCall.next, blkWrite_eq bld _ (by omega)] at hnext
    cases hnext
    exact ⟨hold, h.enters hs hlive hopened hi⟩
  | storing data =>
    rw [hi] at hnext hfits
    have hpos := (h.taken _ _ hfits).pos
    rw [WriteCall.next, blkWrite_eq bld _ (by omega), hsize] at hnext
    cases hnext
    exact ⟨hold, h.stores hs hlive hopened hi rfl⟩
  | returned reply =>
    rw [hi] at hnext
    cases hnext
    rw [← hi, Function.update_eq_self]
    exact ⟨hold, h⟩

theorem progress_run {p : Pool ι WritePhase Store}
    (hrun : Reaches (Pool.turn fun i ↦ (w.call i).next bld) (Unlost bld w)
      ⟨fun _ ↦ .called, s₀⟩ p) : ∃ hold, Progress bld w k s₀ hold p.phase p.shared := by
  refine hrun.invariant (fun p ↦ ∃ hold, Progress bld w k s₀ hold p.phase p.shared)
    (fun i p u q hp hok hturn ↦ ?_) ⟨_, .start hs⟩
  obtain ⟨hold, hp⟩ := hp
  obtain ⟨l, s, hnext, rfl⟩ := Pool.ok_of_turn hturn
  exact progress_step hs hlive hid hopened hp hok hnext

omit [DecidableEq ι] hid in
/-- What an object referred to at the start, but for the indirect block of the writers. -/
theorem Progress.kept_block (h : Progress bld w k s₀ hold phase s) {q : ℕ × Place} {b : ℤ}
    (hq : own bld s₀ q = some b) (hne : q ≠ (k, .indirect w.range)) :
    logical bld s.dev b.toNat = logical bld s₀.dev b.toNat := by
  have hcast : ((b.toNat : ℕ) : ℤ) = b := hs.eq_natCast (k := q.1) (p := q.2) hq
  refine h.others _ (fun heq ↦ hne ?_) fun x hx ↦ h.ne_of_own hs hq x (hcast ▸ hx)
  refine hs.exclusive _ _ b hq ?_
  rw [← hcast, heq]
  exact own_of_ne_zero (p := .indirect w.range) hlive hopened

omit [DecidableEq ι] hid in
/-- The block of a writer that has returned. -/
theorem Progress.mine (h : Progress bld w k s₀ hold phase s) {reply : ℤ}
    (hj : phase j = .returned reply) :
    logical bld s.dev (followed bld s k (w.index j)).toNat = Block.ofList (w.buff j) ∧
      ∀ blk ∈ touched bld s k (w.index j), 0 ≤ blk := by
  have hentered := h.entered j (by rw [hj]; trivial)
  have hptr := h.ptr_pos hs hlive hopened
  have hpos := (h.taken _ _ hentered).pos
  have hfollowed : followed bld s k (w.index j) = entryOf bld s k w.range (w.entry j) :=
    followed_indirect bld s k w.range.isLt (w.entry j).isLt
  refine ⟨?_, fun blk hblk ↦ ?_⟩
  · rw [hfollowed]
    exact h.stored j reply _ hj hentered
  · rw [Writers.index, touched_indirect bld s k w.range.isLt (w.entry j).isLt, List.mem_pair,
      Fin.eta] at hblk
    rw [entryOf] at hpos
    rcases hblk with hblk | hblk
    · omega
    · omega

omit [DecidableEq ι] hid in
/-- A block index of no writer. -/
theorem Progress.other (h : Progress bld w k s₀ hold phase s) {a : ℕ} (ha : a < 4100)
    (hopen : Opened s₀ k a) (hne : ∀ j, a ≠ w.index j) :
    logical bld s.dev (followed bld s k a).toNat =
        logical bld s₀.dev (followed bld s₀ k a).toNat ∧
      ∀ blk ∈ touched bld s k a, 0 ≤ blk := by
  have hptr := h.ptr_pos hs hlive hopened
  have hnonneg := hs.touched_nonneg hlive ha hopen
  have hsame : followed bld s k a = followed bld s₀ k a ∧ ∀ blk ∈ touched bld s k a, 0 ≤ blk := by
    rcases Place.index_cases ha with hdirect | ⟨r, e, hr, he, rfl⟩
    · have hfield : s.field k (.direct ⟨a, hdirect⟩) = s₀.field k (.direct ⟨a, hdirect⟩) :=
        h.kept.field k _ fun _ ↦ ⟨by simp, by simp⟩
      rw [touched_direct bld s k hdirect, followed_direct bld s k hdirect, hfield,
        followed_direct bld s₀ k hdirect]
      rw [touched_direct bld s₀ k hdirect] at hnonneg
      exact ⟨rfl, hnonneg⟩
    · rw [touched_indirect bld s₀ k hr he] at hnonneg
      rw [touched_indirect bld s k hr he, followed_indirect bld s k hr he,
        followed_indirect bld s₀ k hr he]
      by_cases hrange : (⟨r, hr⟩ : Fin 4) = w.range
      · have hentry : entryOf bld s k w.range ⟨e, he⟩ = entryOf bld s₀ k w.range ⟨e, he⟩ :=
          h.entries _ fun j _ heq ↦ hne j (by rw [Writers.index, heq, ← hrange])
        simp only [hrange, entryOf] at hentry hnonneg ⊢
        refine ⟨hentry, fun blk hblk ↦ ?_⟩
        rw [hentry, List.mem_pair] at hblk
        have hent := hnonneg _ (List.mem_cons_of_mem _ (List.mem_singleton_self _))
        rcases hblk with hblk | hblk
        · omega
        · omega
      · have hfield : s.field k (.indirect ⟨r, hr⟩) = s₀.field k (.indirect ⟨r, hr⟩) :=
          h.kept.field k _ fun _ ↦ ⟨by simp, fun heq ↦ hrange (Field.indirect.inj heq)⟩
        have hblock := h.kept_block hs hlive hopened (q := (k, .indirect ⟨r, hr⟩))
          (own_of_ne_zero (p := .indirect ⟨r, hr⟩) hlive (hopen ⟨r, hr⟩ e he rfl))
          fun heq ↦ hrange (Place.indirect.inj (Prod.mk.inj heq).2)
        rw [ptr] at hblock
        rw [hfield, hblock]
        exact ⟨rfl, hnonneg⟩
  refine ⟨?_, hsame.2⟩
  rw [hsame.1, followed_eq_ptr ha hopen]
  by_cases hzero : ptr bld s₀ k (.ofIndex a) = 0
  · rw [hzero]
    refine h.others 0 (fun heq ↦ hopened heq.symm) fun x hx ↦ ?_
    have hpos := (h.taken x _ hx).pos
    omega
  · refine h.kept_block hs hlive hopened (own_of_ne_zero hlive hzero) fun heq ↦ ?_
    have hdata := Place.isData_ofIndex a
    rw [(Prod.mk.inj heq).2] at hdata
    exact hdata

end Run

end OsAssignments.Objstore
