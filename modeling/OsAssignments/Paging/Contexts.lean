import OsAssignments.Library.Runs
import OsAssignments.Paging.Surroundings

/-!
# Contexts side by side

A `System` has one memory with the contexts that are there; `Op.run` prepares another context in it,
or cleans one up. A frame that has been freed may be allocated again, for any context.
`contexts_separate` is what holds in every state reached: each context has its own three pages and
nothing else, no frame belongs to two contexts, and a cleanup gives back what the context has.
-/

set_option autoImplicit false
set_option relaxedAutoImplicit false

namespace OsAssignments.Paging.ContextMm

open OsAssignments.Library

variable {frames : ℕ → Pfn} {f : Pfn}

/-! ### Contexts that have been prepared -/

/-- A context and the machine in which it was prepared. -/
structure Launch where
  origin : ExecContext
  start : Machine

namespace Launch

variable (frames) (l : Launch)

/-- The context and the machine after the preparation. -/
def prepared : ExecContext × Machine := prepareContextMm frames l.origin l.start

/-- What the preparation adds to the log. -/
def ownLog : List (FrameEvent Region Pfn) :=
  (prepareContextMm (fun n ↦ frames (l.start.calls + n)) l.origin ⟨l.start.tables, 0, []⟩).2.log

/-- The frame of the arguments and the frames that the preparation allocated. -/
def Owns (f : Pfn) : Prop := f = l.origin.argPfn ∨ ∃ r, (r, f) ∈ allocated (l.ownLog frames)

/-- The three pages are different, and the frames served were small and not in use. -/
structure Fits : Prop where
  separate : l.origin.Separate
  small : l.origin.argPfn.toNat < 2 ^ 20
  supplied : Supplied (fun n ↦ frames (l.start.calls + n)) l.origin.argPfn
    ((l.prepared frames).2.calls - l.start.calls)

/-- The tables of the context are as the preparation left them. -/
def Intact (tables : Tables) : Prop :=
  ∀ f, (Region.osPt, f) ∈ allocated (l.ownLog frames) → tables f = (l.prepared frames).2.tables f

theorem prepared_eq : l.prepared frames =
    ((prepareContextMm (fun n ↦ frames (l.start.calls + n)) l.origin ⟨l.start.tables, 0, []⟩).1,
      resumed l.start.calls l.start.log
        (prepareContextMm (fun n ↦ frames (l.start.calls + n)) l.origin
          ⟨l.start.tables, 0, []⟩).2) := by
  have hstart : l.start = resumed l.start.calls l.start.log ⟨l.start.tables, 0, []⟩ := rfl
  rw [prepared]
  conv_lhs => rw [hstart]
  exact prepareContextMm_resumed l.origin ⟨l.start.tables, 0, []⟩

theorem pgd_prepared : (l.prepared frames).1.pgd = frames l.start.calls := by
  rw [prepared_eq]
  rfl

theorem calls_prepared : (l.prepared frames).2.calls = l.start.calls +
    (prepareContextMm (fun n ↦ frames (l.start.calls + n)) l.origin
      ⟨l.start.tables, 0, []⟩).2.calls := by
  rw [prepared_eq]
  rfl

/-- The hardware finds the three pages of the context and no other: code and stack at two user
frames that the preparation allocated, data at the frame of the arguments. -/
def HasPages (tables : Tables) : Prop :=
  ∃ code stack, code ≠ stack ∧ code ≠ l.origin.argPfn ∧ stack ≠ l.origin.argPfn ∧
    (Region.user, code) ∈ allocated (l.ownLog frames) ∧
    (Region.user, stack) ∈ allocated (l.ownLog frames) ∧
    (∀ c f, (c, f) ∈ [(MmSeg.code, code), (.data, l.origin.argPfn), (.stack, stack)] →
      MapsTo tables (l.prepared frames).1.pgd (virutalAdd c (l.origin.mms c))
        ((l.origin.mms c).accessFlags &&& 0x2 = 2) f) ∧
    ∀ va : BitVec 64, va.toNat < 2 ^ 48 →
      (∀ c, c ≠ .rodata → va >>> 12 ≠ virutalAdd c (l.origin.mms c) >>> 12) →
      hardwareWalk tables (l.prepared frames).1.pgd va = none

variable {frames l}

namespace Fits

theorem supplied_base (h : l.Fits frames) : Supplied (fun n ↦ frames (l.start.calls + n))
    l.origin.argPfn (prepareContextMm (fun n ↦ frames (l.start.calls + n)) l.origin
      ⟨l.start.tables, 0, []⟩).2.calls := by
  have hsupplied := h.supplied
  rwa [calls_prepared, Nat.add_sub_cancel_left] at hsupplied

/-- A frame of the context is the one of the arguments or comes from a call of its preparation. -/
theorem exists_call (h : l.Fits frames) (hown : l.Owns frames f) : f = l.origin.argPfn ∨
    ∃ n, l.start.calls ≤ n ∧ n < (l.prepared frames).2.calls ∧ frames n = f := by
  rcases hown with harg | ⟨r, hr⟩
  · exact .inl harg
  · obtain ⟨T, code, stack, -, hbuilt, -⟩ :=
      ContextMm.prepared l.start.tables h.separate h.supplied_base
    obtain ⟨m, hm, heq⟩ := hbuilt.exists_call hr
    refine .inr ⟨l.start.calls + m, Nat.le_add_right _ _, ?_, heq⟩
    rw [calls_prepared]
    omega

/-- Preparing a context changes no other table. -/
theorem tables_eq (h : l.Fits frames) (hf : (Region.osPt, f) ∉ allocated (l.ownLog frames)) :
    (l.prepared frames).2.tables f = l.start.tables f := by
  rw [prepared_eq]
  exact (prepareContextMm_own l.start.tables h.separate h.supplied_base).2 f hf

theorem intact_base {tables : Tables} (hintact : l.Intact frames tables) :
    ∀ f, (Region.osPt, f) ∈ allocated (l.ownLog frames) → tables f =
      (prepareContextMm (fun n ↦ frames (l.start.calls + n)) l.origin
        ⟨l.start.tables, 0, []⟩).2.tables f := by
  intro f hf
  rw [hintact f hf, prepared_eq]
  rfl

/-- The address space of a context whose tables are intact. -/
theorem address_space (h : l.Fits frames) {tables : Tables} (hintact : l.Intact frames tables) :
    l.HasPages frames tables := by
  have hwalk : ∀ va : BitVec 64, va.toNat < 2 ^ 48 →
      hardwareWalk tables (frames l.start.calls) va =
        hardwareWalk (prepareContextMm (fun n ↦ frames (l.start.calls + n)) l.origin
          ⟨l.start.tables, 0, []⟩).2.tables (frames l.start.calls) va := fun va hva ↦
    hardwareWalk_survives l.start.tables h.separate h.supplied_base (intact_base hintact) hva
  obtain ⟨code, stack, hne, hcode, hstack, hcode', hstack', hmaps, hother⟩ :=
    prepared_walks l.start.tables h.separate h.supplied_base
  have hpfn : (shifted l.origin.argPfn).pfn = l.origin.argPfn := Entry.pfn_shift _ h.small
  rw [hpfn] at hmaps
  rw [HasPages, pgd_prepared]
  refine ⟨code, stack, hne, hcode, hstack, hcode', hstack', fun c f hf ↦ ?_, fun va hva hout ↦ ?_⟩
  · have hc : c ≠ .rodata := by
      simp only [List.mem_cons, Prod.mk.injEq, List.not_mem_nil, or_false] at hf
      rcases hf with ⟨rfl, -⟩ | ⟨rfl, -⟩ | ⟨rfl, -⟩ <;> decide
    obtain ⟨es, hes, hrest⟩ := hmaps c f hf
    exact ⟨es, (hwalk _ (h.separate.low c hc)).trans hes, hrest⟩
  · exact (hwalk va hva).trans (hother va hva hout)

/-- The cleanup of a context whose tables are intact. -/
theorem cleanup (h : l.Fits frames) {q : Machine} (hintact : l.Intact frames q.tables) :
    ∃ last, (cleanupContextMm (l.prepared frames).1 q).log = last ++ q.log ∧
      (freed last).Perm ((.user, l.origin.argPfn) :: allocated (l.ownLog frames)) ∧
      ((freed last).map Prod.snd).Nodup ∧ SafeLog last ∧
      ∀ f, ¬l.Owns frames f → (cleanupContextMm (l.prepared frames).1 q).tables f = q.tables f := by
  obtain ⟨hperm, hnodup, hsafe, hkept⟩ := cleanup_survives l.start.tables h.separate h.supplied_base
    (intact_base hintact) rfl
  have hq : q = resumed q.calls q.log ⟨q.tables, 0, []⟩ := rfl
  have hcleanup : cleanupContextMm (l.prepared frames).1 (resumed q.calls q.log ⟨q.tables, 0, []⟩) =
      resumed q.calls q.log (cleanupContextMm (l.prepared frames).1 ⟨q.tables, 0, []⟩) :=
    cleanupContextMm_resumed ..
  rw [← hq, prepared_eq] at hcleanup
  rw [prepared_eq]
  refine ⟨_, congrArg Machine.log hcleanup, hperm, hnodup, hsafe, fun f hf ↦ ?_⟩
  rw [Owns, not_or, not_exists] at hf
  exact (congrFun (congrArg Machine.tables hcleanup) f).trans (hkept f hf.1 hf.2)

end Fits

end Launch

/-! ### A memory with several contexts -/

/-- The memory and the contexts that are there. -/
structure System (ι : Type*) where
  machine : Machine
  live : ι → Option Launch

/-- A context is prepared or cleaned up. -/
inductive Op (ι : Type*)
  | prepare (i : ι) (ctx : ExecContext)
  | cleanup (i : ι)

section System

variable {ι : Type*} [DecidableEq ι]

/-- The system after an operation. -/
def Op.run (frames : ℕ → Pfn) : Op ι → System ι → Except Empty (Unit × System ι)
  | prepare i ctx, s =>
    .ok ((), ⟨(prepareContextMm frames ctx s.machine).2,
      Function.update s.live i (some ⟨ctx, s.machine⟩)⟩)
  | cleanup i, s =>
    .ok ((), (s.live i).elim s fun l ↦
      ⟨cleanupContextMm (l.prepared frames).1 s.machine, Function.update s.live i none⟩)

/-- A context is prepared in a free slot, with frames that belong to no other context. -/
def Op.Served (frames : ℕ → Pfn) : Op ι → System ι → Prop
  | prepare i ctx, s =>
    s.live i = none ∧ Launch.Fits frames ⟨ctx, s.machine⟩ ∧
      ∀ j l, s.live j = some l → ∀ f, Launch.Owns frames ⟨ctx, s.machine⟩ f → ¬l.Owns frames f
  | cleanup _, _ => True

/-- Each context has its tables, and no frame belongs to two. -/
structure System.Separate (frames : ℕ → Pfn) (s : System ι) : Prop where
  fits : ∀ i l, s.live i = some l → l.Fits frames
  intact : ∀ i l, s.live i = some l → l.Intact frames s.machine.tables
  disjoint : ∀ i j l l', i ≠ j → s.live i = some l → s.live j = some l' →
    ∀ f, l.Owns frames f → ¬l'.Owns frames f

variable {s s' : System ι}

theorem System.Separate.prepare {i : ι} {ctx : ExecContext} (h : s.Separate frames)
    (hserved : (Op.prepare i ctx).Served frames s) :
    System.Separate frames ⟨(prepareContextMm frames ctx s.machine).2,
      Function.update s.live i (some ⟨ctx, s.machine⟩)⟩ := by
  obtain ⟨-, hfits, hnew⟩ := hserved
  have hlive : ∀ j l, Function.update s.live i (some ⟨ctx, s.machine⟩) j = some l →
      j = i ∧ l = ⟨ctx, s.machine⟩ ∨ j ≠ i ∧ s.live j = some l := by
    intro j l hl
    rw [Function.update_apply] at hl
    split_ifs at hl with hj
    · exact .inl ⟨hj, (Option.some.inj hl).symm⟩
    · exact .inr ⟨hj, hl⟩
  refine ⟨fun j l hl ↦ ?_, fun j l hl ↦ ?_, fun j k l l' hjk hl hl' f hf hf' ↦ ?_⟩
  · rcases hlive j l hl with ⟨-, rfl⟩ | ⟨-, hl⟩
    · exact hfits
    · exact h.fits j l hl
  · rcases hlive j l hl with ⟨-, rfl⟩ | ⟨-, hl⟩
    · exact fun f _ ↦ rfl
    · intro f hf
      have hown : ¬Launch.Owns frames ⟨ctx, s.machine⟩ f := fun hown ↦
        hnew j l hl f hown (.inr ⟨_, hf⟩)
      exact (hfits.tables_eq fun hmem ↦ hown (.inr ⟨_, hmem⟩)).trans (h.intact j l hl f hf)
  · rcases hlive j l hl with ⟨rfl, rfl⟩ | ⟨hj, hl⟩
    · rcases hlive k l' hl' with ⟨rfl, -⟩ | ⟨-, hl'⟩
      · exact hjk rfl
      · exact hnew k l' hl' f hf hf'
    · rcases hlive k l' hl' with ⟨-, rfl⟩ | ⟨-, hl'⟩
      · exact hnew j l hl f hf' hf
      · exact h.disjoint j k l l' hjk hl hl' f hf hf'

theorem System.Separate.cleanup {i : ι} {l : Launch} (h : s.Separate frames)
    (hl : s.live i = some l) :
    System.Separate frames ⟨cleanupContextMm (l.prepared frames).1 s.machine,
      Function.update s.live i none⟩ := by
  obtain ⟨-, -, -, -, -, hkept⟩ := (h.fits i l hl).cleanup (h.intact i l hl)
  have hlive : ∀ j l', Function.update s.live i none j = some l' → i ≠ j ∧ s.live j = some l' := by
    intro j l' hl'
    rw [Function.update_apply] at hl'
    split_ifs at hl' with hj
    exact ⟨Ne.symm hj, hl'⟩
  refine ⟨fun j l' hl' ↦ h.fits j l' (hlive j l' hl').2, fun j l' hl' f hf ↦ ?_,
    fun j k l₁ l₂ hjk hl₁ hl₂ ↦ h.disjoint j k l₁ l₂ hjk (hlive j l₁ hl₁).2 (hlive k l₂ hl₂).2⟩
  obtain ⟨hij, hl'⟩ := hlive j l' hl'
  exact (hkept f fun hown ↦ h.disjoint i j l l' hij hl hl' f hown (.inr ⟨_, hf⟩)).trans
    (h.intact j l' hl' f hf)

/-- Every operation keeps the contexts separate. -/
theorem System.Separate.run {op : Op ι} {reply : Unit} (h : s.Separate frames)
    (hserved : op.Served frames s) (hrun : op.run frames s = .ok (reply, s')) :
    s'.Separate frames := by
  cases op with
  | prepare i ctx =>
    obtain ⟨-, rfl⟩ := Prod.mk.inj (Except.ok.inj hrun)
    exact h.prepare hserved
  | cleanup i =>
    obtain ⟨-, rfl⟩ := Prod.mk.inj (Except.ok.inj hrun)
    cases hl : s.live i with
    | none => exact h
    | some l => exact h.cleanup hl

/-- In every run, whatever is prepared and cleaned up in between and however frames are used again,
each context has its pages and no other, and a cleanup of it frees exactly what it has, once, and
accesses nothing that it has freed; and no frame belongs to two contexts. -/
theorem contexts_separate (frames : ℕ → Pfn) (s s' : System ι) (hstart : ∀ i, s.live i = none)
    (hrun : Reaches (Op.run frames) (Op.Served frames) s s') :
    (∀ i l, s'.live i = some l → l.HasPages frames s'.machine.tables ∧
      ∃ last s'', Op.run frames (.cleanup i) s' = .ok ((), s'') ∧
        s''.machine.log = last ++ s'.machine.log ∧
        (freed last).Perm ((.user, l.origin.argPfn) :: allocated (l.ownLog frames)) ∧
        ((freed last).map Prod.snd).Nodup ∧ SafeLog last) ∧
      ∀ i j l l', i ≠ j → s'.live i = some l → s'.live j = some l' →
        ∀ f, l.Owns frames f → ¬l'.Owns frames f := by
  have hempty : s.Separate frames := by
    refine ⟨fun i l hl ↦ ?_, fun i l hl ↦ ?_, fun i j l l' hij hl ↦ ?_⟩
    all_goals
      rw [hstart] at hl
      cases hl
  have hseparate : s'.Separate frames := Reaches.invariant (System.Separate frames)
    (fun _ _ _ _ hs hserved hop ↦ hs.run hserved hop) hrun hempty
  refine ⟨fun i l hl ↦ ⟨(hseparate.fits i l hl).address_space (hseparate.intact i l hl), ?_⟩,
    hseparate.disjoint⟩
  obtain ⟨last, hlog, hperm, hnodup, hsafe, -⟩ :=
    (hseparate.fits i l hl).cleanup (hseparate.intact i l hl)
  refine ⟨last, _, rfl, ?_, hperm, hnodup, hsafe⟩
  rw [hl]
  exact hlog

/-- A context may be prepared where its frames are no other context's. -/
theorem reaches_prepare {live : ι → Option Launch} (i : ι) (l : Launch)
    (h : Reaches (Op.run frames) (Op.Served frames) s ⟨l.start, live⟩) (hfree : live i = none)
    (hfits : l.Fits frames)
    (hapart : ∀ j l', live j = some l' → ∀ f, l.Owns frames f → ¬l'.Owns frames f) :
    Reaches (Op.run frames) (Op.Served frames) s
      ⟨(l.prepared frames).2, Function.update live i (some l)⟩ := by
  have hserved : (Op.prepare i l.origin).Served frames ⟨l.start, live⟩ := ⟨hfree, hfits, hapart⟩
  exact h.step hserved rfl

theorem reaches_cleanup {live : ι → Option Launch} {machine : Machine} (i : ι) (l : Launch)
    (h : Reaches (Op.run frames) (Op.Served frames) s ⟨machine, live⟩) (hl : live i = some l) :
    Reaches (Op.run frames) (Op.Served frames) s
      ⟨cleanupContextMm (l.prepared frames).1 machine, Function.update live i none⟩ := by
  have hserved : (Op.cleanup i).Served frames ⟨machine, live⟩ := trivial
  have hrun : (Op.cleanup i).run frames ⟨machine, live⟩ = .ok ((),
      ⟨cleanupContextMm (l.prepared frames).1 machine, Function.update live i none⟩) := by
    change Except.ok ((), (live i).elim _ _) = _
    rw [hl]
    rfl
  exact h.step hserved hrun

end System

/-- The memory before the first context. -/
def noContext : System Bool := ⟨⟨fun _ _ ↦ 0, 0, []⟩, fun _ ↦ none⟩

/-- Eighteen frames that are handed out again and again. -/
def inTurn (n : ℕ) : Pfn := BitVec.ofNat 32 (n % 18 + 1)

/-- The context of `sharing` with its arguments in another frame. -/
def otherArguments : ExecContext := { sharing with argPfn := 0x1001 }

/-- A first context. -/
def early : Launch := ⟨sharing, noContext.machine⟩

/-- A second one. -/
def beside : Launch := ⟨otherArguments, (early.prepared inTurn).2⟩

/-- The first one again, after its cleanup. -/
def again : Launch :=
  ⟨sharing, cleanupContextMm (early.prepared inTurn).1 (beside.prepared inTurn).2⟩

section InTurn

variable {l : Launch}

theorem toNat_inTurn (n : ℕ) : (inTurn n).toNat = n % 18 + 1 := by
  rw [inTurn, BitVec.toNat_ofNat]
  omega

theorem calls_early : (early.prepared inTurn).2.calls = 9 := by decide +kernel

theorem calls_beside : (beside.prepared inTurn).2.calls = 18 := by
  have hstart : beside.start.calls = 9 := calls_early
  have hown : (prepareContextMm (fun n ↦ inTurn (9 + n)) otherArguments
      ⟨beside.start.tables, 0, []⟩).2.calls = 9 := by decide +kernel
  rw [Launch.calls_prepared, hstart]
  exact congrArg (9 + ·) hown

theorem calls_start_again : again.start.calls = 18 :=
  (calls_cleanupContextMm _ _).trans calls_beside

theorem calls_again : (again.prepared inTurn).2.calls = 27 := by
  have hown : (prepareContextMm (fun n ↦ inTurn (18 + n)) sharing
      ⟨again.start.tables, 0, []⟩).2.calls = 9 := by decide +kernel
  rw [Launch.calls_prepared, calls_start_again]
  exact congrArg (18 + ·) hown

theorem fits_inTurn (hseparate : l.origin.Separate)
    (harg : 18 < l.origin.argPfn.toNat ∧ l.origin.argPfn.toNat < 2 ^ 20)
    (hcalls : (l.prepared inTurn).2.calls = l.start.calls + 9) : l.Fits inTurn := by
  refine ⟨hseparate, harg.2, ?_⟩
  rw [hcalls, Nat.add_sub_cancel_left]
  refine ⟨fun i hi ↦ ?_, fun i j hij hj heq ↦ ?_, fun i hi heq ↦ ?_⟩
  · rw [toNat_inTurn]
    omega
  · have htoNat := congrArg BitVec.toNat heq
    rw [toNat_inTurn, toNat_inTurn] at htoNat
    omega
  · have htoNat := congrArg BitVec.toNat heq
    rw [toNat_inTurn] at htoNat
    omega

theorem fits_early : early.Fits inTurn :=
  fits_inTurn sharing_separate (by decide) calls_early

theorem fits_beside : beside.Fits inTurn :=
  fits_inTurn ⟨sharing_separate.low, sharing_separate.distinct⟩ (by decide)
    (calls_beside.trans (congrArg (· + 9) calls_early).symm)

theorem fits_again : again.Fits inTurn :=
  fits_inTurn sharing_separate (by decide)
    (calls_again.trans (congrArg (· + 9) calls_start_again).symm)

/-- The frames of the second context are the upper nine. -/
theorem owns_beside (hown : beside.Owns inTurn f) :
    f.toNat = 0x1001 ∨ 10 ≤ f.toNat ∧ f.toNat ≤ 18 := by
  rcases fits_beside.exists_call hown with rfl | ⟨n, hn, hlt, rfl⟩
  · exact .inl rfl
  · have hstart : beside.start.calls = 9 := calls_early
    rw [calls_beside] at hlt
    rw [toNat_inTurn]
    omega

/-- A context of `sharing` that starts with the lower nine has none of them. -/
theorem apart_beside (hfits : l.Fits inTurn) (horigin : l.origin = sharing)
    (hstart : l.start.calls % 18 = 0) (hcalls : (l.prepared inTurn).2.calls = l.start.calls + 9)
    (hown : l.Owns inTurn f) : ¬beside.Owns inTurn f := by
  intro hbeside
  have hupper := owns_beside hbeside
  rcases hfits.exists_call hown with rfl | ⟨n, hn, hlt, rfl⟩
  · have harg : l.origin.argPfn.toNat = 0x1000 := by
      rw [horigin]
      rfl
    omega
  · rw [toNat_inTurn] at hupper
    omega

theorem early_apart_beside (hown : early.Owns inTurn f) : ¬beside.Owns inTurn f :=
  apart_beside fits_early rfl rfl calls_early hown

theorem again_apart_beside (hown : again.Owns inTurn f) : ¬beside.Owns inTurn f :=
  apart_beside fits_again rfl (by rw [calls_start_again])
    (calls_again.trans (congrArg (· + 9) calls_start_again).symm) hown

/-- A context beside another one that was cleaned up and prepared again. -/
theorem reaches_again {first second third : Launch} {frames : ℕ → Pfn}
    (hsecond : second.start = (first.prepared frames).2)
    (hthird : third.start =
      cleanupContextMm (first.prepared frames).1 (second.prepared frames).2)
    (hfits : first.Fits frames ∧ second.Fits frames ∧ third.Fits frames)
    (hfirst : ∀ f, first.Owns frames f → ¬second.Owns frames f)
    (hagain : ∀ f, third.Owns frames f → ¬second.Owns frames f) :
    Reaches (Op.run frames) (Op.Served frames) ⟨first.start, fun _ ↦ none⟩
      ⟨(third.prepared frames).2, fun i : Bool ↦ if i then some third else some second⟩ := by
  have hprepared := reaches_prepare true first
    (Reaches.refl (Op.run frames) (Op.Served frames) ⟨first.start, fun _ ↦ none⟩) rfl hfits.1
    fun j l hl ↦ by cases hl
  rw [← hsecond] at hprepared
  have hbeside := reaches_prepare false second hprepared rfl hfits.2.1 fun j l hl f hown ↦ by
    cases j
    · cases hl
    · exact fun hearly ↦ hfirst f (Option.some.inj hl ▸ hearly) hown
  have hcleanup := reaches_cleanup true first hbeside rfl
  rw [← hthird] at hcleanup
  have hthird := reaches_prepare true third hcleanup rfl hfits.2.2 fun j l hl f hown ↦ by
    cases j
    · exact Option.some.inj hl ▸ hagain f hown
    · cases hl
  have hlive : Function.update (Function.update (Function.update (Function.update
      (fun _ ↦ none) true (some first)) false (some second)) true none) true (some third) =
      fun i : Bool ↦ if i then some third else some second := by
    funext i
    cases i
    · rfl
    · rfl
  exact hlive ▸ hthird

end InTurn

/-- Two contexts are there, one of them in the frames of a third that was cleaned up. -/
theorem contexts_separate_again : ∃ s, Reaches (Op.run inTurn) (Op.Served inTurn) noContext s ∧
    s.live true = some again ∧ s.live false = some beside ∧
    (again.prepared inTurn).1.pgd = (early.prepared inTurn).1.pgd ∧
    again.HasPages inTurn s.machine.tables ∧ beside.HasPages inTurn s.machine.tables ∧
    ∀ f, again.Owns inTurn f → ¬beside.Owns inTurn f := by
  have hreaches := reaches_again (by rw [beside]) (by rw [again])
    ⟨fits_early, fits_beside, fits_again⟩ (fun _ ↦ early_apart_beside) fun _ ↦ again_apart_beside
  obtain ⟨hpages, hdisjoint⟩ := contexts_separate inTurn noContext _ (fun _ ↦ rfl) hreaches
  refine ⟨_, hreaches, rfl, rfl, ?_, (hpages true again rfl).1, (hpages false beside rfl).1,
    hdisjoint true false again beside (by decide) rfl rfl⟩
  rw [Launch.pgd_prepared, Launch.pgd_prepared, calls_start_again]
  decide

end OsAssignments.Paging.ContextMm
