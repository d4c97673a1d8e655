import OsAssignments.Paging.AddressSpace

/-!
# A context and the rest of memory

Other processes have page tables in the same memory, and allocate and free frames while a context is
there. `prepareContextMm` and `cleanupContextMm` do the same wherever they start, but for the place
in the sequence of frames and in the log (`prepareContextMm_resumed`), and they change only tables
that they access (`Keeps`). A preparation accesses only tables that it has allocated
(`AccessesOwn`). A cleanup does not access a frame that had been freed before it starts; so it
accesses none but those of its context, since any other might have been (`cleanup_accesses`).

So a context keeps the others as they are, and needs nothing from memory but its own tables
(`prepareContextMm_own`, `hardwareWalk_survives`, `cleanup_survives`).
-/

set_option autoImplicit false
set_option relaxedAutoImplicit false

namespace OsAssignments.Paging.ContextMm

open OsAssignments.Library

variable {frames : ℕ → Pfn} {pgd argPfn table : Pfn} {pages users all : List Pfn} {c : MmSeg}
  {flag : BitVec 32} {T : TablePath → Option Pfn} {s s' s'' : Machine} {π : TablePath}
    {i n lower : ℕ}
  {f g : Pfn} {ctx : ExecContext} {code stack : Pfn} {log : List (FrameEvent Region Pfn)}
    {calls : ℕ}

/-! ### Starting elsewhere -/

/-- The machine after earlier calls of `os_pfn_alloc`, and with an earlier log. -/
def resumed (calls : ℕ) (log : List (FrameEvent Region Pfn)) (s : Machine) : Machine :=
  ⟨s.tables, calls + s.calls, s.log ++ log⟩

theorem permit_resumed : permit flag table i (resumed calls log s) =
    resumed calls log (permit flag table i s) := by
  unfold permit
  split_ifs <;> rfl

theorem below_resumed : below frames table i (resumed calls log s) =
    ((below (fun n ↦ frames (calls + n)) table i s).1,
      resumed calls log (below (fun n ↦ frames (calls + n)) table i s).2) := by
  by_cases hentry : s.tables table i &&& 1 = 0
  · have hentry' : (resumed calls log s).tables table i &&& 1 = 0 := hentry
    rw [below, below, if_pos hentry, if_pos hentry']
    rfl
  · have hentry' : ¬(resumed calls log s).tables table i &&& 1 = 0 := hentry
    rw [below, below, if_neg hentry, if_neg hentry']
    rfl

theorem page_resumed : page frames c argPfn (resumed calls log s) =
    ((page (fun n ↦ frames (calls + n)) c argPfn s).1,
      resumed calls log (page (fun n ↦ frames (calls + n)) c argPfn s).2) := by
  unfold page
  split_ifs <;> rfl

theorem mapPage_resumed : mapPage frames c flag argPfn table i (resumed calls log s) =
    resumed calls log (mapPage (fun n ↦ frames (calls + n)) c flag argPfn table i s) := by
  by_cases hentry : (s.tables table i).Present
  · have hentry' : ((resumed calls log s).tables table i).Present := hentry
    rw [mapPage_present hentry, mapPage_present hentry']
    rfl
  · have hentry' : ¬((resumed calls log s).tables table i).Present := hentry
    have hload : ((resumed calls log s).load table i).2 = resumed calls log (s.load table i).2 :=
      rfl
    rw [mapPage_absent hentry, mapPage_absent hentry', hload, page_resumed, ← permit_resumed]
    rfl

theorem allocateLevels_resumed (rest : List ℕ) (table : Pfn) (s : Machine) :
    allocateLevels frames c flag argPfn rest table (resumed calls log s) =
      resumed calls log
        (allocateLevels (fun n ↦ frames (calls + n)) c flag argPfn rest table s) := by
  induction rest generalizing table s with
  | nil => rfl
  | cons i rest ih =>
    cases rest with
    | nil => exact mapPage_resumed
    | cons j rest =>
      change allocateLevels frames c flag argPfn (j :: rest)
        (below frames table i (resumed calls log s)).1
          (permit flag table i (below frames table i (resumed calls log s)).2) =
        resumed calls log (allocateLevels _ c flag argPfn (j :: rest) (below _ table i s).1
          (permit flag table i (below _ table i s).2))
      rw [below_resumed, permit_resumed, ih]

/-- The three calls of `allocate` in `prepare_context_mm`. -/
def segmentsAllocated (frames : ℕ → Pfn) (ctx : ExecContext) (pgd : Pfn) (s : Machine) : Machine :=
  allocate frames .stack pgd (ctx.mms .stack) ctx.argPfn
    (allocate frames .data pgd (ctx.mms .data) ctx.argPfn
      (allocate frames .code pgd (ctx.mms .code) ctx.argPfn s))

/-- A preparation does the same after earlier calls. -/
theorem prepareContextMm_resumed (ctx : ExecContext) (s : Machine) :
    prepareContextMm frames ctx (resumed calls log s) =
      ((prepareContextMm (fun n ↦ frames (calls + n)) ctx s).1,
        resumed calls log (prepareContextMm (fun n ↦ frames (calls + n)) ctx s).2) := by
  have hroot : (osPfnAlloc frames .osPt (resumed calls log s)).2.zero (frames (calls + s.calls)) =
      resumed calls log ((osPfnAlloc (fun n ↦ frames (calls + n)) .osPt s).2.zero
        (frames (calls + s.calls))) := rfl
  refine Prod.ext rfl ?_
  change segmentsAllocated frames ctx (frames (calls + s.calls))
      ((osPfnAlloc frames .osPt (resumed calls log s)).2.zero (frames (calls + s.calls))) =
    resumed calls log (segmentsAllocated (fun n ↦ frames (calls + n)) ctx (frames (calls + s.calls))
      ((osPfnAlloc (fun n ↦ frames (calls + n)) .osPt s).2.zero (frames (calls + s.calls))))
  unfold segmentsAllocated allocate
  rw [hroot, allocateLevels_resumed, allocateLevels_resumed, allocateLevels_resumed]

theorem freeLevels_resumed (rest : List ℕ) (table : Pfn) (s : Machine) :
    freeLevels c lower argPfn rest table (resumed calls log s) =
      resumed calls log (freeLevels c lower argPfn rest table s) := by
  induction rest generalizing table s with
  | nil => rfl
  | cons i rest ih =>
    have hload : ∀ s : Machine, (resumed calls log s).load table i =
        ((s.load table i).1, resumed calls log (s.load table i).2) := fun _ ↦ rfl
    have hfree : ∀ (r : Region) (f : Pfn) (s : Machine),
        osPfnFree r f (resumed calls log s) = resumed calls log (osPfnFree r f s) := fun _ _ _ ↦ rfl
    have hand : ∀ s : Machine, (resumed calls log s).and table i 0 =
        resumed calls log (s.and table i 0) :=
      fun _ ↦ rfl
    rw [freeLevels, freeLevels]
    simp only [hload, hfree, hand]
    split_ifs
    · rfl
    · rfl
    · rfl
    · exact ih _ _
    · exact ih _ _
    · exact ih _ _

/-- A cleanup does the same after earlier calls. -/
theorem cleanupContextMm_resumed (ctx : ExecContext) (s : Machine) :
    cleanupContextMm ctx (resumed calls log s) = resumed calls log (cleanupContextMm ctx s) := by
  have hlevel : ∀ i s, cleanupLevel ctx i (resumed calls log s) =
      resumed calls log (cleanupLevel ctx i s) := by
    intro i s
    unfold cleanupLevel freeMemory
    simp only [freeLevels_resumed]
  unfold cleanupContextMm
  simp only [hlevel]
  rfl

theorem calls_freeLevels (rest : List ℕ) (table : Pfn) (s : Machine) :
    (freeLevels c lower argPfn rest table s).calls = s.calls := by
  induction rest generalizing table s with
  | nil => rfl
  | cons i rest ih =>
    simp only [freeLevels]
    split_ifs
    · rfl
    · rfl
    · rfl
    · exact ih _ _
    · exact ih _ _
    · exact ih _ _

/-- A cleanup does not call `os_pfn_alloc`. -/
theorem calls_cleanupContextMm (ctx : ExecContext) (s : Machine) :
    (cleanupContextMm ctx s).calls = s.calls := by
  have hlevel : ∀ i s, (cleanupLevel ctx i s).calls = s.calls := by
    intro i s
    unfold cleanupLevel freeMemory
    simp only [calls_freeLevels]
  unfold cleanupContextMm
  change (cleanupLevel ctx 4 _).calls = _
  simp only [hlevel]

/-! ### Tables that are not accessed -/

/-- The log goes on, and tables that are not accessed stay as they are. -/
def Keeps (s s' : Machine) : Prop :=
  ∃ log, s'.log = log ++ s.log ∧ ∀ g, FrameEvent.access g ∉ log → s'.tables g = s.tables g

namespace Keeps

theorem refl (s : Machine) : Keeps s s := ⟨[], rfl, fun _ _ ↦ rfl⟩

theorem trans (h : Keeps s s') (h' : Keeps s' s'') : Keeps s s'' := by
  obtain ⟨log, hlog, hsame⟩ := h
  obtain ⟨log', hlog', hsame'⟩ := h'
  refine ⟨log' ++ log, by rw [hlog', hlog, List.append_assoc], fun g hg ↦ ?_⟩
  rw [List.mem_append, not_or] at hg
  exact (hsame' g hg.1).trans (hsame g hg.2)

theorem load (table : Pfn) (i : ℕ) (s : Machine) : Keeps s (s.load table i).2 :=
  ⟨[.access table], rfl, fun _ _ ↦ rfl⟩

theorem store (table : Pfn) (i : ℕ) (e : Entry) (s : Machine) : Keeps s (s.store table i e) :=
  ⟨[.access table], rfl, fun _ hg ↦ Tables.set_of_ne fun heq ↦ hg (heq ▸ List.mem_singleton_self _)⟩

theorem or (table : Pfn) (i : ℕ) (bits : Entry) (s : Machine) : Keeps s (s.or table i bits) :=
  (load table i s).trans (store table i _ _)

theorem and (table : Pfn) (i : ℕ) (bits : Entry) (s : Machine) : Keeps s (s.and table i bits) :=
  (load table i s).trans (store table i _ _)

theorem zero (table : Pfn) (s : Machine) : Keeps s (s.zero table) :=
  ⟨[.access table], rfl, fun _ hg ↦ Tables.zero_of_ne fun heq ↦
    hg (heq ▸ List.mem_singleton_self _)⟩

theorem alloc (frames : ℕ → Pfn) (region : Region) (s : Machine) :
    Keeps s (osPfnAlloc frames region s).2 :=
  ⟨[.alloc region (frames s.calls)], rfl, fun _ _ ↦ rfl⟩

theorem free (region : Region) (f : Pfn) (s : Machine) : Keeps s (osPfnFree region f s) :=
  ⟨[.free region f], rfl, fun _ _ ↦ rfl⟩

theorem permit (flag : BitVec 32) (table : Pfn) (i : ℕ) (s : Machine) :
    Keeps s (ContextMm.permit flag table i s) := by
  unfold ContextMm.permit
  split_ifs
  · exact or table i 0x2 s
  · exact refl s

theorem below (frames : ℕ → Pfn) (table : Pfn) (i : ℕ) (s : Machine) :
    Keeps s (ContextMm.below frames table i s).2 := by
  unfold ContextMm.below
  split_ifs
  · exact (load table i s).trans ((alloc frames .osPt _).trans
      ((zero _ _).trans ((or table i _ _).trans (or table i _ _))))
  · exact (load table i s).trans (load table i _)

theorem mapPage (frames : ℕ → Pfn) (c : MmSeg) (flag : BitVec 32) (argPfn table : Pfn) (i : ℕ)
    (s : Machine) : Keeps s (ContextMm.mapPage frames c flag argPfn table i s) := by
  by_cases hentry : (s.tables table i).Present
  · rw [mapPage_present hentry]
    exact load table i s
  · rw [mapPage_absent hentry]
    have hpage : Keeps (s.load table i).2 (page frames c argPfn (s.load table i).2).2 := by
      unfold page
      split_ifs
      · exact refl _
      · exact alloc frames .user _
    exact (load table i s).trans (hpage.trans
      ((or table i _ _).trans ((or table i _ _).trans (permit flag table i _))))

theorem allocateLevels (frames : ℕ → Pfn) (c : MmSeg) (flag : BitVec 32) (argPfn : Pfn)
    (rest : List ℕ) (table : Pfn) (s : Machine) :
    Keeps s (ContextMm.allocateLevels frames c flag argPfn rest table s) := by
  induction rest generalizing table s with
  | nil => exact refl s
  | cons i rest ih =>
    cases rest with
    | nil => exact mapPage frames c flag argPfn table i s
    | cons j rest => exact (below frames table i s).trans ((permit flag table i _).trans (ih _ _))

theorem prepareContextMm (frames : ℕ → Pfn) (ctx : ExecContext) (s : Machine) :
    Keeps s (ContextMm.prepareContextMm frames ctx s).2 :=
  (alloc frames .osPt s).trans ((zero _ _).trans ((allocateLevels ..).trans
    ((allocateLevels ..).trans (allocateLevels ..))))

theorem freeLevels (c : MmSeg) (lower : ℕ) (argPfn : Pfn) (rest : List ℕ) (table : Pfn)
    (s : Machine) : Keeps s (ContextMm.freeLevels c lower argPfn rest table s) := by
  induction rest generalizing table s with
  | nil => exact refl s
  | cons i rest ih =>
    rw [ContextMm.freeLevels]
    dsimp only
    split_ifs
    · exact refl s
    · exact (load table i s).trans (free .user _ _)
    · exact free .user argPfn s
    · exact (load table i s).trans ((load table i _).trans
        ((free .osPt _ _).trans ((and table i 0 _).trans (ih _ _))))
    · exact (load table i s).trans ((load table i _).trans (ih _ _))
    · exact (load table i s).trans (ih _ _)

theorem cleanupContextMm (ctx : ExecContext) (s : Machine) :
    Keeps s (ContextMm.cleanupContextMm ctx s) := by
  have hlevel : ∀ i s, Keeps s (cleanupLevel ctx i s) := fun i s ↦
    (freeLevels ..).trans ((freeLevels ..).trans (freeLevels ..))
  exact (hlevel 1 s).trans ((hlevel 2 _).trans ((hlevel 3 _).trans ((hlevel 4 _).trans
    (free .osPt ctx.pgd _))))

end Keeps

/-! ### A preparation accesses its own tables -/

/-- The tables that were accessed had been allocated. -/
def AccessesOwn (s : Machine) : Prop :=
  ∀ f, FrameEvent.access f ∈ s.log → (Region.osPt, f) ∈ allocated s.log

namespace AccessesOwn

/-- Events that are allocations and accesses to tables that have been allocated. -/
theorem append (h : AccessesOwn s) (log : List (FrameEvent Region Pfn))
    (hlog : s'.log = log ++ s.log)
    (hown : ∀ f, FrameEvent.access f ∈ log → (Region.osPt, f) ∈ allocated s'.log)
    (hgrows : allocated s.log ⊆ allocated s'.log) : AccessesOwn s' := by
  intro f hf
  rw [hlog, List.mem_append] at hf
  exact hf.elim (hown f) fun hmem ↦ hgrows (h f hmem)

theorem permit (h : AccessesOwn s) (ht : (Region.osPt, table) ∈ allocated s.log) (flag : BitVec 32)
    (i : ℕ) : AccessesOwn (ContextMm.permit flag table i s) := by
  unfold ContextMm.permit
  split_ifs
  · refine h.append [.access table, .access table] rfl (fun f hf ↦ ?_) (List.Subset.refl _)
    have hf : f = table := by simpa using hf
    exact hf ▸ ht
  · exact h

theorem below (h : AccessesOwn s) (ht : (Region.osPt, table) ∈ allocated s.log) (frames : ℕ → Pfn)
    (i : ℕ) : AccessesOwn (ContextMm.below frames table i s).2 ∧
      allocated s.log ⊆ allocated (ContextMm.below frames table i s).2.log := by
  unfold ContextMm.below
  split_ifs
  · have hgrows : allocated s.log ⊆
        allocated (ContextMm.newTable frames table i (s.load table i).2).2.log :=
      List.subset_cons_self (Region.osPt, frames s.calls) (allocated s.log)
    refine ⟨h.append [.access table, .access table, .access table, .access table,
      .access (frames s.calls), .alloc .osPt (frames s.calls), .access table] rfl (fun f hf ↦ ?_)
      hgrows, hgrows⟩
    have hf : f = table ∨ f = frames s.calls := by
      simp only [List.mem_cons, FrameEvent.access.injEq, reduceCtorEq, List.not_mem_nil, false_or,
        or_false] at hf
      tauto
    rcases hf with rfl | rfl
    · exact hgrows ht
    · exact List.mem_cons_self
  · refine ⟨h.append [.access table, .access table] rfl (fun f hf ↦ ?_) (List.Subset.refl _),
      List.Subset.refl _⟩
    have hf : f = table := by simpa using hf
    exact hf ▸ ht

theorem mapPage (h : AccessesOwn s) (ht : (Region.osPt, table) ∈ allocated s.log)
    (frames : ℕ → Pfn) (c : MmSeg) (flag : BitVec 32) (argPfn : Pfn) (i : ℕ) :
    AccessesOwn (ContextMm.mapPage frames c flag argPfn table i s) := by
  have hload : AccessesOwn (s.load table i).2 := by
    refine h.append [.access table] rfl (fun f hf ↦ ?_) (List.Subset.refl _)
    have hf : f = table := by simpa using hf
    exact hf ▸ ht
  by_cases hentry : (s.tables table i).Present
  · rw [mapPage_present hentry]
    exact hload
  · rw [mapPage_absent hentry]
    have hpage : AccessesOwn (page frames c argPfn (s.load table i).2).2 ∧
        (Region.osPt, table) ∈ allocated (page frames c argPfn (s.load table i).2).2.log := by
      unfold page
      split_ifs
      · exact ⟨hload, ht⟩
      · refine ⟨hload.append [.alloc .user (frames s.calls)] rfl (fun f hf ↦ ?_)
          (List.subset_cons_self _ _), List.mem_cons_of_mem _ ht⟩
        simp at hf
    have hset : AccessesOwn (((page frames c argPfn (s.load table i).2).2.or table i
        (shifted (page frames c argPfn (s.load table i).2).1)).or table i 0x5) := by
      refine hpage.1.append [.access table, .access table, .access table, .access table] rfl
        (fun f hf ↦ ?_) (List.Subset.refl _)
      have hf : f = table := by simpa using hf
      exact hf ▸ hpage.2
    exact hset.permit hpage.2 flag i

/-- A walk accesses the tables on its way. -/
theorem allocateLevels {rest : List ℕ} (h : AccessesOwn s) (hbuilt : Built frames pgd pages T s)
    (hsupplied : Supplied frames argPfn n)
    (hn : (ContextMm.allocateLevels frames c flag argPfn rest table s).calls ≤ n)
    (hlen : rest.length + π.length = 4) (hidx : ∀ i ∈ rest, i < 512) (ht : T π = some table) :
    AccessesOwn (ContextMm.allocateLevels frames c flag argPfn rest table s) := by
  induction rest generalizing T s π table with
  | nil => exact h
  | cons i rest ih =>
    have hi : i < 512 := hidx i List.mem_cons_self
    rw [List.length_cons] at hlen
    have htable := (hbuilt.tables table).mpr ⟨π, by omega, ht⟩
    cases rest with
    | nil => exact h.mapPage htable frames c flag argPfn i
    | cons j rest =>
      rw [List.length_cons] at hlen
      have hcalls : (descend frames flag table i s).2.calls ≤ n :=
        (calls_le_allocateLevels frames c flag argPfn (j :: rest) _ _).trans hn
      have hdescend := (hbuilt.descend hsupplied hcalls (by omega) hi ht).1
      obtain ⟨hbelow, hgrows⟩ := h.below htable frames i
      exact ih (hbelow.permit (hgrows htable) flag i) hdescend hn
        (by simp only [List.length_cons] at *; omega)
          (fun m hm ↦ hidx m (List.mem_cons_of_mem i hm))
        (Function.update_self ..)

end AccessesOwn

/-- A preparation accesses only tables that it has allocated. -/
theorem accessesOwn_prepareContextMm (tables : Tables) (hseparate : ctx.Separate)
    (hsupplied : Supplied frames ctx.argPfn
      (prepareContextMm frames ctx ⟨tables, 0, []⟩).2.calls) :
    AccessesOwn (prepareContextMm frames ctx ⟨tables, 0, []⟩).2 := by
  set s₀ := ((osPfnAlloc frames .osPt ⟨tables, 0, []⟩).2.zero (frames 0)) with hs₀
  set s₁ := allocate frames .code (frames 0) (ctx.mms .code) ctx.argPfn s₀ with hs₁
  set s₂ := allocate frames .data (frames 0) (ctx.mms .data) ctx.argPfn s₁ with hs₂
  set s₃ := allocate frames .stack (frames 0) (ctx.mms .stack) ctx.argPfn s₂ with hs₃
  have hcalls₁ : s₁.calls ≤ s₂.calls := calls_le_allocateLevels ..
  have hcalls₂ : s₂.calls ≤ s₃.calls := calls_le_allocateLevels ..
  have hroot := built_root frames tables
  obtain ⟨T₁, pages₁, hbuilt₁, hwalked₁, -⟩ := hroot.allocate
    (c := .code) hsupplied (hcalls₁.trans hcalls₂) (hseparate.low _ (by decide))
    (if_neg (List.cons_ne_nil _ _))
  have hnone₁ : T₁ (ctx.place .data) = none := by
    by_contra hne
    rcases (hwalked₁.dom _).mp hne with hroot | hsuffix
    · exact hroot (if_neg (List.cons_ne_nil _ _))
    · exact hseparate.not_suffix (by decide) (by decide) (by decide) hsuffix
  obtain ⟨T₂, pages₂, hbuilt₂, -⟩ := hbuilt₁.allocate (c := .data) hsupplied
    hcalls₂ (hseparate.low _ (by decide)) hnone₁
  have hstart : AccessesOwn s₀ := by
    intro f hf
    have hf : f = frames 0 := by simpa [hs₀, Machine.zero, osPfnAlloc] using hf
    rw [hf]
    exact List.mem_cons_self
  have hcode : AccessesOwn s₁ := AccessesOwn.allocateLevels (π := []) hstart hroot hsupplied
    (hcalls₁.trans hcalls₂) rfl (indices_lt (hseparate.low _ (by decide))) hroot.root
  have hdata : AccessesOwn s₂ := AccessesOwn.allocateLevels (π := []) hcode hbuilt₁ hsupplied
    hcalls₂ rfl (indices_lt (hseparate.low _ (by decide))) hbuilt₁.root
  exact AccessesOwn.allocateLevels (π := []) hdata hbuilt₂ hsupplied le_rfl rfl
    (indices_lt (hseparate.low _ (by decide))) hbuilt₂.root

/-! ### A cleanup anywhere -/

/-- The first turn of a cleanup frees the pages, whatever had been freed before. -/
theorem Dismantled.freePages (h : Dismantled T [] users s) (hprepared : Prepared ctx T code stack)
    (hseparate : ctx.Separate) (hroot : T [] = some ctx.pgd)
    (hapart : Apart T (ctx.argPfn :: stack :: code :: users))
    (hnodup : (ctx.argPfn :: stack :: code :: users).Nodup) :
    Dismantled T [] (ctx.argPfn :: code :: stack :: users) (ContextMm.cleanupLevel ctx 1 s) := by
  have hdom := hprepared.dom
  obtain ⟨harg, hnodup⟩ := List.nodup_cons.mp hnodup
  obtain ⟨hstack, hnodup⟩ := List.nodup_cons.mp hnodup
  have hcode := (List.nodup_cons.mp hnodup).1
  have hstack' : stack ∉ users := fun hmem ↦ hstack (List.mem_cons_of_mem code hmem)
  have hcode' : code ∉ stack :: users := by
    rw [List.mem_cons, not_or]
    exact ⟨fun heq ↦ hstack (heq ▸ List.mem_cons_self), hcode⟩
  have harg' : ctx.argPfn ∉ code :: stack :: users := fun hmem ↦
    harg ((List.Perm.swap stack code users).mem_iff.mp hmem)
  have hsub₂ : code :: stack :: users ⊆ ctx.argPfn :: stack :: code :: users := fun g hg ↦
    List.mem_cons_of_mem _ ((List.Perm.swap stack code users).mem_iff.mp hg)
  have hsub₁ : stack :: users ⊆ ctx.argPfn :: stack :: code :: users := fun g hg ↦
    hsub₂ (List.mem_cons_of_mem code hg)
  have hsub₀ : users ⊆ ctx.argPfn :: stack :: code :: users := fun g hg ↦
    hsub₁ (List.mem_cons_of_mem stack hg)
  obtain ⟨f, hf⟩ := Option.ne_none_iff_exists'.mp
    ((hdom (ctx.place .data)).mpr (.inr (.inl List.suffix_rfl)))
  have hfirst := h.freePage (c := .stack) (fun ρ hρ ↦ (hdom ρ).mpr (.inr (.inr hρ)))
    (hseparate.low _ (by decide)) hroot hapart hsub₀ hprepared.stack hstack'
  have hsecond := hfirst.freePage (c := .code) (fun ρ hρ ↦ (hdom ρ).mpr (.inl hρ))
    (hseparate.low _ (by decide)) hroot hapart hsub₁ hprepared.code hcode'
  exact hsecond.freePage (c := .data) (fun ρ hρ ↦ (hdom ρ).mpr (.inr (.inl hρ)))
    (hseparate.low _ (by decide)) hroot hapart hsub₂ hf harg'

/-- The other turns free every table below the root. -/
theorem Dismantled.freeTables (h : Dismantled T [] users s) (hprepared : Prepared ctx T code stack)
    (hseparate : ctx.Separate) (hroot : T [] = some ctx.pgd) (hapart : Apart T all)
    (hsub : users ⊆ all) :
    ∃ R, Dismantled T R users (ContextMm.cleanupLevel ctx 4 (ContextMm.cleanupLevel ctx 3
        (ContextMm.cleanupLevel ctx 2 s))) ∧
      ∀ π, T π ≠ none → (π ∈ R ↔ π.length ≤ 3 ∧ π ≠ []) := by
  have hlevel₂ := h.cleanupLevel hprepared hseparate hroot hapart hsub le_rfl (by decide)
    (fun ρ hρ ↦ absurd hρ List.not_mem_nil)
  have hlevel₃ := hlevel₂.cleanupLevel hprepared hseparate hroot hapart hsub
    (Nat.le_succ 2) (by decide) fun ρ hρ ↦ by
      rw [List.append_nil] at hρ
      have := ctx.length_of_mem_tablesAt le_rfl (by decide) hρ
      omega
  have hlevel₄ := hlevel₃.cleanupLevel hprepared hseparate hroot hapart hsub
    (by decide : 2 ≤ 4) le_rfl fun ρ hρ ↦ by
      rw [List.append_nil, List.mem_append] at hρ
      rcases hρ with hρ | hρ
      · have := ctx.length_of_mem_tablesAt (by decide) (by decide) hρ
        omega
      · have := ctx.length_of_mem_tablesAt le_rfl (by decide) hρ
        omega
  refine ⟨_, hlevel₄, fun π hπ ↦ ?_⟩
  simp only [List.append_nil, List.mem_append]
  constructor
  · rintro (hρ | hρ | hρ) <;>
    · have := ctx.length_of_mem_tablesAt (by decide) (by decide) hρ
      exact ⟨by omega, List.ne_nil_of_length_pos (by omega)⟩
  · rintro ⟨hlen, hne⟩
    have hpos := List.length_pos_of_ne_nil hne
    have hmem := hprepared.mem_tablesAt hlen hπ
    obtain hlen | hlen | hlen : π.length = 1 ∨ π.length = 2 ∨ π.length = 3 := by omega
    all_goals
      rw [hlen] at hmem
      tauto

/-- The turns of a cleanup, whatever had been freed before. -/
theorem Dismantled.cleanup (h : Dismantled T [] users s) (hprepared : Prepared ctx T code stack)
    (hseparate : ctx.Separate) (hroot : T [] = some ctx.pgd)
    (hapart : Apart T (ctx.argPfn :: stack :: code :: users))
    (hnodup : (ctx.argPfn :: stack :: code :: users).Nodup) :
    ∃ R, Dismantled T R (ctx.argPfn :: code :: stack :: users)
        (ContextMm.cleanupLevel ctx 4 (ContextMm.cleanupLevel ctx 3
          (ContextMm.cleanupLevel ctx 2 (ContextMm.cleanupLevel ctx 1 s)))) ∧
      ∀ π, T π ≠ none → (π ∈ R ↔ π.length ≤ 3 ∧ π ≠ []) := by
  have hsub : ctx.argPfn :: code :: stack :: users ⊆ ctx.argPfn :: stack :: code :: users :=
    ((List.Perm.swap stack code users).cons ctx.argPfn).subset
  exact (h.freePages hprepared hseparate hroot hapart hnodup).freeTables hprepared hseparate hroot
    hapart hsub

/-- A cleanup accesses no frame but those of its context. -/
theorem cleanup_accesses (tables : Tables) (hdescribes : Describes 3 tables T)
    (hprepared : Prepared ctx T code stack) (hseparate : ctx.Separate) (hroot : T [] = some ctx.pgd)
    (hapart : Apart T [ctx.argPfn, stack, code]) (hnodup : [ctx.argPfn, stack, code].Nodup)
    (htable : ∀ π, π.length ≤ 3 → T π ≠ some g) (huser : g ∉ [ctx.argPfn, stack, code]) :
    FrameEvent.access g ∉ (cleanupContextMm ctx ⟨tables, 0, []⟩).log := by
  -- the frame might have been freed before
  have hpruned : pruned T [] = T := funext fun π ↦ pruned_of_notMem List.not_mem_nil
  have hstart : Dismantled T [] [g] (resumed 0 [.free .user g] ⟨tables, 0, []⟩) := by
    refine ⟨hpruned.symm ▸ hdescribes, by simp, fun f ↦ ?_, fun f ↦ ?_, fun f ↦ ?_,
      List.nodup_singleton g, trivial⟩
    all_goals simp [resumed, freed]
  have hperm : (ctx.argPfn :: stack :: code :: [g]).Perm (g :: [ctx.argPfn, stack, code]) :=
    List.perm_append_singleton g [ctx.argPfn, stack, code]
  have hapart' : Apart T (ctx.argPfn :: stack :: code :: [g]) := by
    refine ⟨hapart.inj, fun π f hπ hf hmem ↦ ?_⟩
    rcases List.mem_cons.mp (hperm.mem_iff.mp hmem) with rfl | hmem
    · exact htable π hπ hf
    · exact hapart.user π f hπ hf hmem
  obtain ⟨R, hdismantled, -⟩ := hstart.cleanup hprepared hseparate hroot hapart'
    (hperm.nodup_iff.mpr (List.nodup_cons.mpr ⟨huser, hnodup⟩))
  have hsafe : SafeLog (cleanupContextMm ctx (resumed 0 [.free .user g] ⟨tables, 0, []⟩)).log :=
    hdismantled.safe
  rw [cleanupContextMm_resumed] at hsafe
  exact fun hmem ↦ hsafe.notMem_freed hmem .user List.mem_cons_self

section Base

variable (tables : Tables) (hseparate : ctx.Separate)
  (hsupplied : Supplied frames ctx.argPfn (prepareContextMm frames ctx ⟨tables, 0, []⟩).2.calls)

include hseparate hsupplied

/-- A preparation frees nothing and changes only the tables that it allocates. -/
theorem prepareContextMm_own :
    freed (prepareContextMm frames ctx ⟨tables, 0, []⟩).2.log = [] ∧
      ∀ f, (Region.osPt, f) ∉ allocated (prepareContextMm frames ctx ⟨tables, 0, []⟩).2.log →
        (prepareContextMm frames ctx ⟨tables, 0, []⟩).2.tables f = tables f := by
  obtain ⟨T, code, stack, -, hbuilt, -⟩ := prepared tables hseparate hsupplied
  obtain ⟨log, hlog, hsame⟩ := Keeps.prepareContextMm frames ctx ⟨tables, 0, []⟩
  rw [List.append_nil] at hlog
  refine ⟨hbuilt.unfreed, fun f hf ↦ hsame f fun hmem ↦ hf ?_⟩
  exact accessesOwn_prepareContextMm tables hseparate hsupplied f (hlog.symm ▸ hmem)

variable {tables' : Tables}
  (hagree : ∀ f, (Region.osPt, f) ∈ allocated (prepareContextMm frames ctx ⟨tables, 0, []⟩).2.log →
    tables' f = (prepareContextMm frames ctx ⟨tables, 0, []⟩).2.tables f)

include hagree

/-- The hardware needs the tables of the context only. -/
theorem hardwareWalk_survives {va : BitVec 64} (hva : va.toNat < 2 ^ 48) :
    hardwareWalk tables' (frames 0) va =
      hardwareWalk (prepareContextMm frames ctx ⟨tables, 0, []⟩).2.tables (frames 0) va := by
  obtain ⟨T, code, stack, -, hbuilt, -⟩ := prepared tables hseparate hsupplied
  rw [hardwareWalk, hardwareWalk, hardwareIndices_eq hva]
  refine hbuilt.describes.walk_congr (R := []) (fun ρ hρ ↦ absurd hρ List.not_mem_nil)
    (fun {ρ u j} hρ _ hu _ ↦ ?_) hbuilt.root le_rfl (indices_lt hva) List.not_mem_nil
  rw [hagree u ((hbuilt.tables u).mpr ⟨ρ, hρ, hu⟩)]

/-- So does a cleanup. -/
theorem cleanup_survives {ctx' : ExecContext}
    (hctx' : ctx' = (prepareContextMm frames ctx ⟨tables, 0, []⟩).1) :
    (freed (cleanupContextMm ctx' ⟨tables', 0, []⟩).log).Perm
        ((.user, ctx.argPfn) :: allocated (prepareContextMm frames ctx ⟨tables, 0, []⟩).2.log) ∧
      ((freed (cleanupContextMm ctx' ⟨tables', 0, []⟩).log).map Prod.snd).Nodup ∧
      SafeLog (cleanupContextMm ctx' ⟨tables', 0, []⟩).log ∧
      ∀ f, f ≠ ctx.argPfn →
        (∀ r, (r, f) ∉ allocated (prepareContextMm frames ctx ⟨tables, 0, []⟩).2.log) →
          (cleanupContextMm ctx' ⟨tables', 0, []⟩).tables f = tables' f := by
  subst hctx'
  obtain ⟨T, code, stack, hprepared, hbuilt, -⟩ := prepared tables hseparate hsupplied
  obtain ⟨hapart, hnodup⟩ := hbuilt.apart hsupplied le_rfl
  have hdescribes : Describes 3 tables' T := hbuilt.describes.congr fun π f hπ hf ↦
    hagree f ((hbuilt.tables f).mpr ⟨π, hπ, hf⟩)
  have hroot : T [] = some (prepareContextMm frames ctx ⟨tables, 0, []⟩).1.pgd := hbuilt.root
  have hprepared' : Prepared (prepareContextMm frames ctx ⟨tables, 0, []⟩).1 T code stack :=
    ⟨hprepared.dom, hprepared.code, hprepared.stack⟩
  have hseparate' : (prepareContextMm frames ctx ⟨tables, 0, []⟩).1.Separate :=
    ⟨hseparate.low, hseparate.distinct⟩
  have hpruned : pruned T [] = T := funext fun π ↦ pruned_of_notMem List.not_mem_nil
  have hstart : Dismantled T [] [] ⟨tables', 0, []⟩ := by
    refine ⟨hpruned.symm ▸ hdescribes, by simp, ?_, ?_, ?_, ?_, trivial⟩
    all_goals simp [freed]
  obtain ⟨R, hdismantled, hR⟩ := hstart.cleanup hprepared' hseparate' hroot hapart hnodup
  obtain ⟨hperm, hfreed⟩ := hbuilt.balanced hsupplied le_rfl hdismantled hR
  refine ⟨hperm, hfreed, hdismantled.safe, fun f harg hf ↦ ?_⟩
  obtain ⟨log, hlog, hsame⟩ := Keeps.cleanupContextMm
    (prepareContextMm frames ctx ⟨tables, 0, []⟩).1 ⟨tables', 0, []⟩
  rw [List.append_nil] at hlog
  refine hsame f
    (hlog ▸ cleanup_accesses tables' hdescribes hprepared' hseparate' hroot hapart hnodup
    (fun π hπ heq ↦ hf .osPt ((hbuilt.tables f).mpr ⟨π, hπ, heq⟩)) fun hmem ↦ ?_)
  rcases List.mem_cons.mp hmem with heq | hmem
  · exact harg heq
  · exact hf .user ((hbuilt.user f).mpr hmem)

end Base

end OsAssignments.Paging.ContextMm
