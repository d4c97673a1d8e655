import OsAssignments.Paging.Accesses

/-!
# The memory of a process

What a process does to its space through the kernel: `SYSCALL_EXPAND` and `SYSCALL_SHRINK` move the
end of a segment, `SYSCALL_SHRINK` gives pages back, and `SYSCALL_WRITE` prints a buffer and goes on
with `SYSCALL_EXPAND`. Each does to the process what it does to its space, in exact numbers.

The loop of `SYSCALL_SHRINK` executes `invlpg` for every page that it unmaps
(`mem_shrinkLoopInvlpg`), so the processor has kept none of their translations
(`Process.Holds.shrink`).
-/

set_option autoImplicit false
set_option relaxedAutoImplicit false

namespace OsAssignments.Paging.Syscalls

open OsAssignments.Library
open ContextMm (MmSeg indices indices_lt pruned pruned_of_notMem pruned_eq_some hardwareWalk
  hardwareIndices_eq)

variable {frames : ℕ → Pfn} {p p' : Process} {s s₀ : Machine} {d : Space}
    {T : TablePath → Option Pfn}
  {R : List TablePath} {pgd : Pfn} {va nextFree param1 param2 value : BitVec 64}
  {size number length : BitVec 32} {n k : ℕ} {seg : MmSeg}

/-! ### `invlpg` -/

/-- The walk of a page that is there succeeds. -/
theorem walk_isSome (h : Accounted pgd T s) (hva : va.toNat < 2 ^ 48) (hne : T (place va) ≠ none) :
    (walk s.tables (indices va) pgd).isSome := by
  have hlast := h.describes.walk_last h.closed h.root le_rfl (indices_lt hva) (List.cons_ne_nil _ _)
  rw [List.append_nil] at hlast
  rw [Option.isSome_iff_ne_none]
  intro hnone
  rw [hnone, Option.bind_none] at hlast
  exact hne hlast.symm

/-- The loop executes `invlpg` for every page that it takes out. -/
theorem mem_shrinkLoopInvlpg (haccount : Accounted pgd T s₀) (h : Unmapped T R s₀ s)
    (hR : ∀ ρ ∈ R, ρ.length = 4) (hlow : 2 ^ 32 ≤ nextFree.toNat) (hhigh : nextFree.toNat ≤ 2 ^ 47)
    {turns fuel : ℕ} (hn : n + turns = size.toNat + 1)
    (hfuel : turns < fuel) (hk : n ≤ k) (hlt : k < n + turns)
    (hpage : T (place (shrinkAdd nextFree (BitVec.ofNat 32 k))) ≠ none)
    (hout : place (shrinkAdd nextFree (BitVec.ofNat 32 k)) ∉ R) :
    ∃ a ∈ shrinkLoopInvlpg pgd nextFree size fuel (BitVec.ofNat 32 n) s, a.toNat < 2 ^ 48 ∧
      place a = place (shrinkAdd nextFree (BitVec.ofNat 32 k)) := by
  induction turns generalizing n s R fuel with
  | zero => omega
  | succ turns ih =>
    obtain ⟨fuel, rfl⟩ := Nat.exists_eq_succ_of_ne_zero (Nat.ne_zero_of_lt hfuel)
    have hle : BitVec.ofNat 32 n ≤ size := by
      rw [BitVec.le_def, BitVec.toNat_ofNat]
      omega
    have hadd := shrinkAdd_lt hlow hhigh (BitVec.ofNat 32 n)
    rw [shrinkLoopInvlpg, if_pos hle]
    by_cases hsame : place (shrinkAdd nextFree (BitVec.ofNat 32 n)) =
        place (shrinkAdd nextFree (BitVec.ofNat 32 k))
    · -- this turn is for the page, which is still there
      have hthere : pruned T R (place (shrinkAdd nextFree (BitVec.ofNat 32 n))) ≠ none := by
        rwa [hsame, pruned_of_notMem hout]
      rw [if_pos (walk_isSome (haccount.unmap h hR) hadd hthere)]
      exact ⟨_, List.mem_append_left _ List.mem_cons_self, hadd, hsame⟩
    · have hturn := h.shrinkLevels (π := []) hR haccount.closed rfl (List.cons_ne_nil _ _)
        (indices_lt hadd) haccount.root
      rw [List.append_nil] at hturn
      have hlater : n + 1 ≤ k := by
        rcases hk.eq_or_lt with heq | hlt'
        · exact absurd (heq ▸ rfl) hsame
        · exact hlt'
      obtain ⟨a, ha, hplace⟩ := ih hturn (List.forall_mem_cons.mpr ⟨rfl, hR⟩)
        (by omega : n + 1 + turns = size.toNat + 1) (by omega : turns < fuel) hlater (by omega)
        (List.not_mem_cons_of_ne_of_not_mem (fun heq ↦ hsame heq.symm) hout)
      rw [BitVec.ofNat_add] at ha
      exact ⟨a, List.mem_append_right _ ha, hplace⟩

/-! ### Giving pages back -/

/-- Taking pages out keeps the tree permissive. -/
theorem Accounted.permissive_unmap (h : Accounted pgd T s₀) (hpermissive : Permissive 3 s₀.tables T)
    (hunmapped : Unmapped T R s₀ s) (hR : ∀ ρ ∈ R, ρ.length = 4) :
    Permissive 3 s.tables (pruned T R) := by
  have haccount := h.unmap hunmapped hR
  refine hpermissive.of_kept haccount.closed (fun π hne ↦ (haccount.inside π hne).2)
    (fun π f hf ↦ (pruned_eq_some hf).1) fun {π t i} hπ hi ht hne ↦ ?_
  refine hunmapped.entry hπ hi (pruned_eq_some ht).1 fun hmem ↦ hne ?_
  exact pruned_eq_none.mpr (.inl hmem)

/-- Where a segment is page-aligned, its addresses are those of its pages. -/
theorem between_iff_pageOf {first last : BitVec 64} (hfirst : first.toNat % 4096 = 0)
    (hlast : last.toNat % 4096 = 0) : first.toNat ≤ va.toNat ∧ va.toNat < last.toNat ↔
      pageOf first ≤ pageOf va ∧ pageOf va < pageOf last := by
  simp only [pageOf]
  omega

/-- The page map after `SYSCALL_SHRINK`. -/
theorem pageMap_shrunk {p q : State} (h : ShrunkBy p seg n value q)
    (hvalue : value.toNat % 4096 = 0) (haligned : (p.current.mms seg).nextFree.toNat % 4096 = 0) :
    pageMap q = VirtualMemory.drop
      (fun k ↦ pageOf value ≤ k ∧ k < pageOf (p.current.mms seg).nextFree) (pageMap p) := by
  have hpgd : q.current.pgd = p.current.pgd := by
    rw [h.context]
    rfl
  refine pageMap_ext (fun va hva ↦ ?_) fun k hk ↦ ?_
  · rw [VirtualMemory.drop, walked, hpgd, h.walks va hva, pageMap_pageOf p hva]
    simp only [between_iff_pageOf hvalue haligned]
    split_ifs
    · rfl
    · rfl
  · rw [VirtualMemory.drop, pageMap_out p hk, ite_self]

/-- A shrink that is granted. -/
theorem Process.Holds.shrink_granted (h : p.Holds T)
    (hsize : (param1.setWidth 32 : BitVec 32).toNat < 2 ^ 19)
    (hgranted : ¬(p.state.current.mms (selected (param2.setWidth 32))).nextFree -
      ((param1.setWidth 32 : BitVec 32) * 4096).setWidth 64 <
        (p.state.current.mms (selected (param2.setWidth 32))).start) :
    ∃ value q, Syscalls.shrink param1 param2 p.state = .ok (value, q) ∧
      ShrunkBy p.state (selected (param2.setWidth 32))
        (param1.setWidth 32 : BitVec 32).toNat value q ∧
      ∃ T', ((p.setState q).forget fun n ↦
        n ∈ (invlpg syscallShrink param1 param2 p.state).map pageOf).Holds T' := by
  have hlies := h.kept.lies (param2.setWidth 32)
  have hm := hlies.placed
  have hroom := mt (hm.guard_iff (param1.setWidth 32)).mpr hgranted
  have hhigh := hlies.high
  have hbounded := hlies.bounded
  have hexact := (exact_iff_of_small h.kept.tree hm (hsize.trans (by norm_num)) hroom).mpr
    (.inl hsize)
  rw [Nat.mod_eq_of_lt (hsize.trans (by norm_num))] at hroom
  rw [ShrinksExactly, if_neg hroom] at hexact
  obtain ⟨value, q, hok, hshrunk⟩ := hexact
  obtain ⟨value', q', hok', T', hkept⟩ := h.kept.shrink param1 param2
  obtain ⟨-, rfl⟩ := Prod.mk.inj (Except.ok.inj (hok.symm.trans hok'))
  obtain ⟨machine, hunmapped, hok''⟩ := shrink_runs h.kept.tree hm hgranted (by omega)
  obtain ⟨-, hq⟩ := Prod.mk.inj (Except.ok.inj (hok.symm.trans hok''))
  have hmachine : q.machine = machine := congrArg State.machine hq
  have hpgd : q.current.pgd = p.state.current.pgd := congrArg (fun q ↦ q.current.pgd) hq
  have hR : ∀ ρ ∈ turnPlaces (p.state.current.mms (selected (param2.setWidth 32))).nextFree 1
      (param1.setWidth 32 : BitVec 32).toNat, ρ.length = 4 := fun ρ ↦ length_of_mem_turnPlaces
  have haccount := h.kept.account.unmap hunmapped hR
  -- the tree that is kept is the one that is in memory
  have htree :
      T' = pruned T (turnPlaces (p.state.current.mms (selected (param2.setWidth 32))).nextFree 1
      (param1.setWidth 32 : BitVec 32).toNat) := by
    rw [← frameAt_eq hkept.account.describes hkept.account.root hkept.account.closed
      hkept.account.inside, hmachine, hpgd]
    exact frameAt_eq haccount.describes haccount.root haccount.closed haccount.inside
  have hvalue : value.toNat % 4096 = 0 := by
    have hlowered := hshrunk.lowered
    have haligned := hm.aligned
    omega
  have hmap := pageMap_shrunk hshrunk hvalue hm.aligned
  refine ⟨value, q, hok, hshrunk, T', hkept, ?_, fun n e he ↦ ?_, ?_⟩
  · rw [htree]
    exact hmachine ▸ h.kept.account.permissive_unmap h.permissive hunmapped hR
  · have he : pageMap q n = some e := he
    rw [hmap, VirtualMemory.drop] at he
    split_ifs at he
    exact h.user n e he
  · change VirtualMemory.Coherent (VirtualMemory.drop _ p.tlb) (pageMap q)
    refine h.coherent.remove fun n hchanged hne ↦ ?_
    have hin : pageOf value ≤ n ∧
        n < pageOf (p.state.current.mms (selected (param2.setWidth 32))).nextFree := by
      by_contra hout
      exact hchanged (by rw [hmap, VirtualMemory.drop, if_neg hout])
    have hn : n < 2 ^ 36 := by
      by_contra hout
      exact hne (pageMap_out p.state (Nat.le_of_not_lt hout))
    obtain ⟨va, hva, rfl⟩ := exists_pageOf hn
    rw [Ne, h.map_eq_none_iff hva] at hne
    obtain ⟨hfirst, hlast⟩ := (between_iff_pageOf hvalue hm.aligned).mpr hin
    have hlowered := hshrunk.lowered
    -- a turn of the loop was for the page
    obtain ⟨i, hi, hle, hplace⟩ := hm.exists_pageBelow
      (by omega : (p.state.current.mms (selected (param2.setWidth 32))).nextFree.toNat ≤
        va.toNat + 4096 * (param1.setWidth 32 : BitVec 32).toNat) (by omega) hlast
    rw [← hm.turn_eq (by omega)] at hplace
    obtain ⟨a, ha, halow, haplace⟩ := mem_shrinkLoopInvlpg h.kept.account
      (Unmapped.refl h.kept.account.describes) (fun ρ hρ ↦ absurd hρ List.not_mem_nil)
      (hm.low.trans hm.ordered) hm.high (Nat.add_comm 1 _) (by omega :
        (param1.setWidth 32 : BitVec 32).toNat < 2 ^ 32) hi (by omega)
          (hplace ▸ hne) List.not_mem_nil
    rw [invlpg, if_pos ⟨rfl, hgranted⟩]
    exact List.mem_map.mpr ⟨a, ha, (place_eq_iff halow hva).mp (haplace.trans hplace.symm)⟩

/-- The processor may drop its translations. -/
theorem Process.Holds.forget (h : p.Holds T) (D : ℕ → Prop) [DecidablePred D] :
    (p.forget D).Holds T :=
  ⟨h.kept, h.permissive, h.user, h.coherent.drop D⟩

/-- Setting a `next_free` does the same to a space as to a process. -/
theorem Space.setNextFree_current {q : State} (h : d.current = q.current) (seg : MmSeg)
    (nextFree : BitVec 64) :
    (d.setNextFree seg nextFree).current = (q.setNextFree seg nextFree).current := by
  simp only [Space.setNextFree, State.setNextFree, h]

/-- `SYSCALL_SHRINK` gives the last pages of a segment back, and the processor keeps none of their
translations. -/
theorem Process.Holds.shrink (h : p.Holds T) (hshows : p.Shows d) (param2 : BitVec 64)
    (hsize : (param1.setWidth 32 : BitVec 32).toNat < 2 ^ 19) :
    ∃ q, Syscalls.shrink param1 param2 p.state =
        .ok ((d.shrink (param1.setWidth 32 : BitVec 32).toNat
          (selected (param2.setWidth 32))).1, q) ∧
      (Session.on ((p.setState q).forget fun n ↦
          n ∈ (invlpg syscallShrink param1 param2 p.state).map pageOf)).Shows
        (some (d.shrink (param1.setWidth 32 : BitVec 32).toNat
          (selected (param2.setWidth 32))).2) := by
  have hlies := h.kept.lies (param2.setWidth 32)
  have hm := hlies.placed
  have hguard := hm.guard_iff (param1.setWidth 32)
  rw [Nat.mod_eq_of_lt (hsize.trans (by norm_num))] at hguard
  have hordered := hlies.ordered
  have hmms : d.current.mms = p.state.current.mms := congrArg ExecContext.mms hshows.current
  rw [Space.shrink, hmms]
  by_cases hrefused : (p.state.current.mms (selected (param2.setWidth 32))).nextFree -
      ((param1.setWidth 32 : BitVec 32) * 4096).setWidth 64 <
        (p.state.current.mms (selected (param2.setWidth 32))).start
  · have hmore := hguard.mp hrefused
    rw [if_pos (by omega)]
    exact ⟨p.state, shrink_refused hrefused,
      Session.shows_on (h.forget _) ⟨hshows.current, hshows.output, hshows.page⟩⟩
  · have hless := mt hguard.mpr hrefused
    rw [if_neg (by omega)]
    obtain ⟨value, q, hok, hshrunk, T', hholds⟩ := h.shrink_granted hsize hrefused
    have hlowered := hshrunk.lowered
    have hvalue : value = (p.state.current.mms (selected (param2.setWidth 32))).nextFree -
        BitVec.ofNat 64 (4096 * (param1.setWidth 32 : BitVec 32).toNat) := by
      refine BitVec.eq_of_toNat_eq ?_
      rw [BitVec.toNat_sub, BitVec.toNat_ofNat]
      have hlt := (p.state.current.mms (selected (param2.setWidth 32))).nextFree.isLt
      omega
    have haligned := hm.aligned
    have hmap := pageMap_shrunk hshrunk (by omega) haligned
    rw [← hvalue]
    refine ⟨q, hok, Session.shows_on hholds ⟨?_, hshows.output.trans hshrunk.output.symm, ?_⟩⟩
    · refine Eq.trans ?_ hshrunk.context.symm
      exact Space.setNextFree_current hshows.current _ _
    · change _ = VirtualMemory.contents (pageMap q) p.ram
      rw [hmap, VirtualMemory.contents_remove, ← hshows.page]
      rfl

/-! ### Growing and printing -/

/-- The account depends on the moves of the log alone. -/
theorem Accounted.of_moves (h : Accounted pgd T s₀) (htables : s.tables = s₀.tables)
    (hmoves : moves s.log = moves s₀.log) : Accounted pgd T s := by
  have hinUse : ∀ r f, InUse s.log r f ↔ InUse s₀.log r f := fun r f ↦ by
    rw [← inUse_moves, hmoves, inUse_moves]
  refine ⟨h.root, htables ▸ h.describes, h.closed, h.inside, fun π f hπ hf ↦ ?_, fun f ↦ ?_,
    h.distinct, ?_⟩
  · exact (hinUse .osPt f).mpr (h.tables π f hπ hf)
  · exact (hinUse .user f).trans (h.user f)
  · rw [← freesInUse_moves, hmoves, freesInUse_moves]
    exact h.frees

/-- Entries that are loaded change nothing but the log, and so does what is printed. -/
theorem Process.Holds.loaded (h : p.Holds T) (entries : List (Pfn × ℕ)) (output : List Printed) :
    (p.setState { p.state.setMachine (Machine.loaded entries p.state.machine) with
      output := output }).Holds T := by
  have hmoves : moves (Machine.loaded entries p.state.machine).log = moves p.state.machine.log := by
    refine moves_append_accesses (fun event hevent ↦ ?_) _
    obtain ⟨e, -, rfl⟩ := List.mem_map.mp (List.mem_reverse.mp hevent)
    exact ⟨e.1, rfl⟩
  have haccount := h.kept.account.of_moves (s := Machine.loaded entries p.state.machine) rfl hmoves
  exact ⟨⟨haccount, h.kept.data, h.kept.rodata, h.kept.stack, h.kept.placed⟩, h.permissive, h.user,
    h.coherent⟩

/-- The product of a size in 32 bits, where it does not wrap. -/
theorem setWidth_product (hsize : size.toNat < 2 ^ 20) :
    (size * 4096).setWidth 64 = BitVec.ofNat 64 (4096 * size.toNat) := by
  refine BitVec.eq_of_toNat_eq ?_
  rw [BitVec.toNat_setWidth, toNat_product, BitVec.toNat_ofNat, Nat.mod_eq_of_lt hsize]

/-- The checks of `SYSCALL_EXPAND`, in exact numbers. -/
theorem MmSegment.Lies.refused_iff {m : MmSegment} (h : m.Lies) (size : BitVec 32) :
    512 < size ∨ m.stop < m.nextFree + (size * 4096).setWidth 64 - 1 ↔
      512 < size.toNat ∨ m.stop.toNat + 1 < m.nextFree.toNat + 4096 * size.toNat := by
  have hordered := h.ordered
  have hlow := h.low
  have hhigh := h.high
  have hbounded := h.bounded
  have hone : (1 : BitVec 64).toNat = 1 := rfl
  have hmax : (512 : BitVec 32).toNat = 512 := rfl
  rw [BitVec.lt_def, BitVec.lt_def, hmax]
  by_cases hsize : 512 < size.toNat
  · exact iff_of_true (.inl hsize) (.inl hsize)
  · rw [setWidth_product (by omega), BitVec.toNat_sub, BitVec.toNat_add, BitVec.toNat_ofNat, hone]
    omega

/-- `SYSCALL_EXPAND` moves the end of a segment. -/
theorem Process.Holds.expand (h : p.Holds T) (hshows : p.Shows d) (param1 param2 : BitVec 64) :
    ∃ q, Syscalls.expand param1 param2 p.state =
        .ok ((d.expand (param1.setWidth 32 : BitVec 32).toNat
          (selected (param2.setWidth 32))).1, q) ∧
      (Session.on (p.setState q)).Shows
        (some (d.expand (param1.setWidth 32 : BitVec 32).toNat
          (selected (param2.setWidth 32))).2) := by
  have hmms : d.current.mms = p.state.current.mms := congrArg ExecContext.mms hshows.current
  have hrefused : Refused p.state (param1.setWidth 32) (param2.setWidth 32) ↔ _ :=
    (h.kept.lies (param2.setWidth 32)).refused_iff (param1.setWidth 32)
  obtain ⟨value, q, hok, hmachine, hkept⟩ := h.kept.expand param1 param2
  rw [Space.expand, hmms]
  by_cases hno : Refused p.state (param1.setWidth 32) (param2.setWidth 32)
  · rw [if_pos (hrefused.mp hno)]
    exact ⟨p.state, expand_refused hno, Session.shows_on h hshows⟩
  · have hgranted := expand_granted hno
    obtain ⟨-, rfl⟩ := Prod.mk.inj (Except.ok.inj (hok.symm.trans hgranted))
    have hsize : (param1.setWidth 32 : BitVec 32).toNat ≤ 512 := by
      have hnot := mt hrefused.mpr hno
      omega
    rw [if_neg (mt hrefused.mpr hno), ← setWidth_product (hsize.trans_lt (by norm_num))]
    refine ⟨_, hgranted, Session.shows_on (T := T) ⟨hkept, h.permissive, h.user, h.coherent⟩
      ⟨?_, ?_, ?_⟩⟩
    · exact Space.setNextFree_current hshows.current _ _
    · exact hshows.output
    · exact hshows.page

/-- The check of an address succeeds when its page is there. -/
theorem Process.Holds.reached_iff (h : p.Holds T) (hva : va.toNat < 2 ^ 48) :
    Reached p.state va ↔ pageMap p.state (pageOf va) ≠ none := by
  rw [Ne, h.map_eq_none_iff hva]
  constructor
  · intro hreached hnone
    exact (Syscalls.reached_iff hva).mp hreached (h.kept.tree.walk_none hva hnone)
  · exact walk_isSome h.kept.account hva

/-- The kernel reads the bytes that the process sees. -/
theorem Process.Holds.memory_eq (h : p.Holds T) (hshows : p.Shows d) (hva : va.toNat < 2 ^ 48) :
    p.memory va = d.memory va := by
  rw [Process.memory, Space.memory, h.translation_eq hva, hshows.page, VirtualMemory.contents]
  cases pageMap p.state (pageOf va) with
  | none => rfl
  | some e => rfl

/-- The kernel prints a buffer exactly when its first and last pages are there. -/
theorem Process.Holds.accepted_iff (h : p.Holds T) (hshows : p.Shows d)
    (hlow : param1.toNat < 2 ^ 48) (hend : param1.toNat + length.toNat ≤ 2 ^ 48)
    (hempty : length.toNat = 0 → param1.toNat ≠ 0) :
    Accepted p.state param1 length ↔ d.Prints param1 length := by
  have hmax : (1024 : BitVec 32).toNat = 1024 := rfl
  have hpage : ∀ va : BitVec 64, va.toNat < 2 ^ 48 →
      (Reached p.state va ↔ d.page (pageOf va) ≠ none) := fun va hva ↦ by
    rw [h.reached_iff hva, hshows.page, Ne, Ne, VirtualMemory.contents_eq_none_iff]
  have hlast := toNat_lastAdd param1 length
  rw [Accepted, Space.Prints, BitVec.lt_def, hmax, not_lt, hpage param1 hlow, later_iff]
  refine and_congr_right fun hshort ↦ and_congr_right fun hfirst ↦ ?_
  by_cases hzero : length.toNat = 0
  · have hpos := hempty hzero
    exact iff_of_true (fun hlater ↦ absurd hlater (by omega)) fun hne ↦ absurd hzero hne
  · have hlastAdd : (lastAdd param1 length).toNat = param1.toNat + length.toNat - 1 := by omega
    rw [hpage _ (by omega), pageOf, hlastAdd, imp_iff_right hzero]
    refine ⟨fun hlater ↦ ?_, fun hthere _ ↦ hthere⟩
    by_cases hsame : param1.toNat / 4096 < (param1.toNat + length.toNat - 1) / 4096
    · exact hlater hsame
    · -- the last byte is on the first page
      rwa [show (param1.toNat + length.toNat - 1) / 4096 = pageOf param1 by rw [pageOf]; omega]

/-- `SYSCALL_WRITE` prints what the process sees, and expands a segment. -/
theorem Process.Holds.write (h : p.Holds T) (hshows : p.Shows d) (param1 param2 : BitVec 64)
    (hallowed : (param2.setWidth 32 : BitVec 32).toNat ≤ 1024 → param1.toNat < 2 ^ 48 ∧
      param1.toNat + (param2.setWidth 32 : BitVec 32).toNat ≤ 2 ^ 48 ∧
        ((param2.setWidth 32 : BitVec 32).toNat = 0 → param1.toNat ≠ 0)) :
    ∃ answer q, Syscalls.write p.memory param1 param2 p.state = .ok (answer.1, q) ∧
      (d.Prints param1 (param2.setWidth 32) ∧ answer = (d.print param1 (param2.setWidth 32)).expand
          (param1.setWidth 32 : BitVec 32).toNat (selected (param2.setWidth 32)) ∨
        ¬d.Prints param1 (param2.setWidth 32) ∧ answer = (-1, d)) ∧
      (Session.on (p.setState q)).Shows (some answer.2) := by
  have hshort : ∀ length : BitVec 32, ¬1024 < length → length.toNat ≤ 1024 := fun length h ↦
    Nat.le_of_not_lt h
  rcases write_eq p.memory param1 param2 p.state with ⟨hok, heq⟩ | ⟨hno, heq⟩
  · obtain ⟨hlow, hend, hempty⟩ := hallowed (hshort _ hok.1)
    have hprints := (h.accepted_iff hshows hlow hend hempty).mp hok
    have hchars : printedChars p.memory param1 (param2.setWidth 32) =
        printedChars d.memory param1 (param2.setWidth 32) := by
      rw [printedChars, printedChars]
      refine congrArg List.reverse (List.map_congr_left fun i hi ↦ ?_)
      rw [h.memory_eq hshows]
      rw [List.mem_range] at hi
      rw [BitVec.toNat_add, BitVec.toNat_ofNat]
      omega
    have hprinted : (p.setState { p.state.checked param1 (param2.setWidth 32) with
        output := printedChars p.memory param1 (param2.setWidth 32) ++ p.state.output }).Shows
          (d.print param1 (param2.setWidth 32)) :=
      ⟨hshows.current, by rw [hchars, ← hshows.output]; rfl, hshows.page⟩
    obtain ⟨q, hexpand, hlast⟩ :=
      (h.loaded (writeLoads p.state param1 (param2.setWidth 32)) _).expand
      hprinted param1 param2
    exact ⟨_, q, heq.trans hexpand, .inl ⟨hprints, rfl⟩, hlast⟩
  · refine ⟨(-1, d), _, heq, .inr ⟨fun hprints ↦ hno ?_, rfl⟩, Session.shows_on
      (h.loaded (writeLoads p.state param1 (param2.setWidth 32)) p.state.output)
      ⟨hshows.current, hshows.output, hshows.page⟩⟩
    obtain ⟨hlow, hend, hempty⟩ := hallowed hprints.1
    exact (h.accepted_iff hshows hlow hend hempty).mpr hprints

end OsAssignments.Paging.Syscalls
