import OsAssignments.Paging.Faults
import OsAssignments.Paging.Processor

/-!
# Translations of a process

`pageMap` gives the translation of every page by the page tables. `Process.Holds` is what every
operation of a process keeps: its memory is accounted for, its page tables are permissive, each of
its pages is for user access, and the translations that the processor has kept are those of the page
tables. The bottom of it is the tree of tables, but what a process can see of it is only `pageMap`.

`Process.Holds.touch_new` is a page fault seen from there: the page gets a frame that was not in
use, every other translation is as it was, and the second attempt finds the page.
-/

set_option autoImplicit false
set_option relaxedAutoImplicit false

namespace OsAssignments.Paging.Syscalls

open OsAssignments.Library
open ContextMm (MmSeg indices indices_lt hardwareWalk MapsTo descend below descend_eq calls_permit
  below_of_none below_of_some Walked)

/-! ### Pages and their translations -/

section Pages

variable {va vb : BitVec 64} {n : ℕ} {m : Tables} {pgd : Pfn} {p p' : State} {e : Translation Pfn}

theorem pageOf_lt (hva : va.toNat < 2 ^ 48) : pageOf va < 2 ^ 36 := by
  rw [pageOf]
  omega

theorem toNat_pageStart (hn : n < 2 ^ 36) : (BitVec.ofNat 64 (4096 * n)).toNat = 4096 * n := by
  rw [BitVec.toNat_ofNat]
  exact Nat.mod_eq_of_lt (by omega)

/-- Every page has an address. -/
theorem exists_pageOf (hn : n < 2 ^ 36) : ∃ va : BitVec 64, va.toNat < 2 ^ 48 ∧ pageOf va = n := by
  refine ⟨BitVec.ofNat 64 (4096 * n), ?_, ?_⟩
  · rw [toNat_pageStart hn]
    omega
  · rw [pageOf, toNat_pageStart hn]
    omega

theorem walked_congr (h : pageOf va = pageOf vb) : walked m pgd va = walked m pgd vb := by
  rw [walked, walked, hardwareWalk_congr h]

/-- The translation of a page by the page tables. -/
def pageMap (p : State) (n : ℕ) : Option (Translation Pfn) :=
  if n < 2 ^ 36 then walked p.machine.tables p.current.pgd (BitVec.ofNat 64 (4096 * n)) else none

theorem pageMap_pageOf (p : State) (hva : va.toNat < 2 ^ 48) :
    pageMap p (pageOf va) = walked p.machine.tables p.current.pgd va := by
  have hn := pageOf_lt hva
  rw [pageMap, if_pos hn]
  refine walked_congr ?_
  rw [pageOf, toNat_pageStart hn]
  omega

/-- Page maps that agree at every address are the same. -/
theorem pageMap_ext {f : ℕ → Option (Translation Pfn)}
    (h : ∀ va : BitVec 64, va.toNat < 2 ^ 48 →
      walked p.machine.tables p.current.pgd va = f (pageOf va))
    (hout : ∀ n, 2 ^ 36 ≤ n → f n = none) : pageMap p = f := by
  ext1 n
  by_cases hn : n < 2 ^ 36
  · obtain ⟨va, hva, rfl⟩ := exists_pageOf hn
    rw [pageMap_pageOf p hva, h va hva]
  · rw [pageMap, if_neg hn, hout n (Nat.le_of_not_lt hn)]

theorem pageMap_out (p : State) (hn : 2 ^ 36 ≤ n) : pageMap p n = none := if_neg (Nat.not_lt.mpr hn)

/-- A translation is the frame and what is permitted at it. -/
theorem walked_eq_some_iff : walked p.machine.tables p.current.pgd va = some e ↔
    translate p va = some e.frame ∧ (e.user = true ↔ UserAt p va) ∧
      (e.writable = true ↔ WritableAt p va) := by
  rw [walked, translate, UserAt, WritableAt]
  cases hwalk : hardwareWalk p.machine.tables p.current.pgd va with
  | none => simp
  | some es =>
    rw [Option.bind_some, Option.bind_some]
    cases hlast : es.getLast? with
    | none => simp
    | some last =>
      obtain ⟨frame, user, writable⟩ := e
      have hes : ∀ P : Entry → Prop,
          (∃ es', some es = some es' ∧ ∀ e ∈ es', P e) ↔ ∀ e ∈ es, P e := by
        intro P
        constructor
        · rintro ⟨es', heq, h⟩
          rwa [Option.some.inj heq]
        · intro h
          exact ⟨es, rfl, h⟩
      have hall : ∀ (P : Entry → Prop) [DecidablePred P] (b : Bool),
          (es.all fun e ↦ decide (P e)) = b ↔ (b = true ↔ ∀ e ∈ es, P e) := by
        intro P _ b
        rw [Bool.eq_iff_iff, List.all_eq_true]
        simp only [decide_eq_true_iff]
        exact Iff.comm
      rw [Option.map_some, Option.map_some, hes, hes, Option.some.injEq, Option.some.injEq,
        Translation.mk.injEq, hall, hall]

/-- Addresses that translate alike have the same translation. -/
theorem walked_eq (hframe : translate p' vb = translate p va) (huser : UserAt p' vb ↔ UserAt p va)
    (hwritable : WritableAt p' vb ↔ WritableAt p va) :
    walked p'.machine.tables p'.current.pgd vb = walked p.machine.tables p.current.pgd va := by
  refine Option.ext fun e ↦ ?_
  rw [walked_eq_some_iff, walked_eq_some_iff, hframe, huser, hwritable]

/-- A page that is mapped to a frame. -/
theorem walked_of_mapsTo {flag : BitVec 32} {f : Pfn}
    (h : MapsTo p.machine.tables p.current.pgd va (flag &&& 0x2 = 2) f) :
    walked p.machine.tables p.current.pgd va = some ⟨f, true, decide (flag &&& 0x2 = 2)⟩ := by
  obtain ⟨es, hwalk, hlength, huser, hwritable, hframe⟩ := h
  have hne : es ≠ [] := List.ne_nil_of_length_pos (by omega)
  have hlast := List.getLast?_eq_some_getLast hne
  have huser' : (es.all fun e ↦ decide e.User) = true :=
    List.all_eq_true.mpr fun e he ↦ decide_eq_true (huser e he)
  have hwritable' : (es.all fun e ↦ decide e.Writable) = decide (flag &&& 0x2 = 2) := by
    rw [Bool.eq_iff_iff, List.all_eq_true, decide_eq_true_iff, ← hwritable]
    simp only [decide_eq_true_iff]
  rw [walked, hwalk, Option.bind_some, hlast, Option.map_some, hframe _ hlast, huser', hwritable']

end Pages

/-! ### Frames that are served -/

section Served

variable {frames : ℕ → Pfn} {table pgd : Pfn} {flag : BitVec 32} {i : ℕ} {s : Machine}
  {used : Pfn → Prop} {first mid last : ℕ} {rest : List ℕ}

/-- The frames in use, whatever for. -/
def UsedIn (log : List (FrameEvent Region Pfn)) (f : Pfn) : Prop := ∃ r, InUse log r f

/-- What was served before and after a call. -/
theorem Supplies.trans (h : Supplies frames used first mid)
    (h' : Supplies frames (usedAfter frames used first mid) mid last) :
    Supplies frames used first last where
  small := fun n hn hlt ↦ by
    by_cases hmid : n < mid
    · exact h.small n hn hmid
    · exact h'.small n (Nat.le_of_not_lt hmid) hlt
  unused := fun n hn hlt hused ↦ by
    by_cases hmid : n < mid
    · exact h.unused n hn hmid hused
    · exact h'.unused n (Nat.le_of_not_lt hmid) hlt (.inl hused)
  distinct := fun n k hn hnk hk heq ↦ by
    by_cases hmid : k < mid
    · exact h.distinct n k hn hnk hmid heq
    by_cases hmid' : n < mid
    · exact h'.unused k (Nat.le_of_not_lt hmid) hk (.inr ⟨n, hn, hmid', heq⟩)
    · exact h'.distinct n k (Nat.le_of_not_lt hmid') hnk hk heq

/-- The calls of `os_pfn_alloc` between two states were served with small frames that were not in
use, and only these came into use. -/
structure Served (frames : ℕ → Pfn) (s s' : Machine) : Prop where
  supplies : Supplies frames (UsedIn s.log) s.calls s'.calls
  used : ∀ f, UsedIn s'.log f ↔ usedAfter frames (UsedIn s.log) s.calls s'.calls f
  calls : s.calls ≤ s'.calls

variable {s' s'' : Machine}

/-- No call. -/
theorem Served.of_same (hcalls : s'.calls = s.calls)
    (hused : ∀ f, UsedIn s'.log f ↔ UsedIn s.log f) :
    Served frames s s' where
  supplies := ⟨fun n hn hlt ↦ by omega, fun n hn hlt ↦ by omega, fun n k hn hnk hk ↦ by omega⟩
  used := fun f ↦ by
    rw [hused, hcalls]
    refine ⟨.inl, fun h ↦ h.resolve_right ?_⟩
    rintro ⟨n, hn, hlt, -⟩
    omega
  calls := hcalls.ge

/-- One call. -/
theorem Served.of_alloc {r : Region} (hcalls : s'.calls = s.calls + 1)
    (hused : ∀ f, UsedIn s'.log f ↔ UsedIn (.alloc r (frames s.calls) :: s.log) f)
    (hsmall : Small (frames s.calls)) (hunused : ∀ r, ¬InUse s.log r (frames s.calls)) :
    Served frames s s' where
  supplies := by
    refine ⟨fun n hn hlt ↦ ?_, fun n hn hlt ↦ ?_, fun n k hn hnk hk ↦ by omega⟩
    all_goals
      obtain rfl : n = s.calls := by omega
    · exact hsmall
    · exact fun ⟨r, hr⟩ ↦ hunused r hr
  used := fun f ↦ by
    rw [hused, hcalls]
    constructor
    · rintro ⟨r', heq | hold⟩
      · exact .inr ⟨s.calls, le_rfl, Nat.lt_succ_self _, (Prod.mk.inj heq).2.symm⟩
      · exact .inl ⟨r', hold⟩
    · rintro (⟨r', hold⟩ | ⟨n, hn, hlt, rfl⟩)
      · exact ⟨r', .inr hold⟩
      · obtain rfl : n = s.calls := by omega
        exact ⟨r, .inl rfl⟩
  calls := by omega

theorem Served.trans (h : Served frames s s') (h' : Served frames s' s'') :
    Served frames s s'' where
  supplies := by
    have hused : UsedIn s'.log = usedAfter frames (UsedIn s.log) s.calls s'.calls :=
      funext fun f ↦ propext (h.used f)
    exact h.supplies.trans (hused ▸ h'.supplies)
  used := fun f ↦ by
    rw [h'.used, usedAfter, usedAfter, h.used, usedAfter, or_assoc]
    refine or_congr_right ⟨?_, ?_⟩
    · rintro (⟨n, hn, hlt, hf⟩ | ⟨n, hn, hlt, hf⟩)
      · exact ⟨n, hn, hlt.trans_le h'.calls, hf⟩
      · exact ⟨n, h.calls.trans hn, hlt, hf⟩
    · rintro ⟨n, hn, hlt, hf⟩
      by_cases hmid : n < s'.calls
      · exact .inl ⟨n, hn, hmid, hf⟩
      · exact .inr ⟨n, Nat.le_of_not_lt hmid, hlt, hf⟩
  calls := h.calls.trans h'.calls

/-- The write bit needs no frame. -/
theorem served_permit (frames : ℕ → Pfn) (flag : BitVec 32) (table : Pfn) (i : ℕ) (s : Machine) :
    Served frames s (ContextMm.permit flag table i s) := by
  unfold ContextMm.permit
  split_ifs
  · exact .of_same rfl fun _ ↦ Iff.rfl
  · exact .of_same rfl fun _ ↦ Iff.rfl

/-- A level of the walk of `allocate`. -/
theorem served_descend (hunused : AllocsUnused Small (descend frames flag table i s).2.log) :
    Served frames s (descend frames flag table i s).2 := by
  rw [descend_eq] at hunused ⊢
  refine Served.trans ?_ (served_permit frames flag table i _)
  have hbelow := allocsUnused_of_suffix (log_permit flag table i _) hunused
  unfold ContextMm.below at hbelow ⊢
  split_ifs at hbelow ⊢
  · have hfresh : (Small (frames s.calls) ∧ ∀ r, ¬InUse s.log r (frames s.calls)) ∧ _ := hbelow
    exact .of_alloc rfl (fun _ ↦ Iff.rfl) hfresh.1.1 hfresh.1.2
  · exact .of_same rfl fun _ ↦ Iff.rfl

/-- The first level. -/
theorem served_mapPage (hunused : AllocsUnused Small (mapPage frames flag table i s).log) :
    Served frames s (mapPage frames flag table i s) := by
  by_cases hpresent : (s.tables table i).Present
  · rw [mapPage_present hpresent]
    exact .of_same rfl fun _ ↦ Iff.rfl
  · rw [mapPage_absent hpresent] at hunused ⊢
    have hfresh : (Small (frames s.calls) ∧ ∀ r, ¬InUse s.log r (frames s.calls)) ∧ _ :=
      allocsUnused_of_suffix (log_permit flag table i _) hunused
    refine Served.trans ?_ (served_permit frames flag table i _)
    exact .of_alloc rfl (fun _ ↦ Iff.rfl) hfresh.1.1 hfresh.1.2

/-- A log whose allocations are of small frames that were not in use says so of the frames that
`allocate` was served with. -/
theorem served_allocateLevels
    (hunused : AllocsUnused Small (allocateLevels frames flag rest table s).log) :
    Served frames s (allocateLevels frames flag rest table s) := by
  induction rest generalizing table s with
  | nil => exact .of_same rfl fun _ ↦ Iff.rfl
  | cons i rest ih =>
    cases rest with
    | nil => exact served_mapPage hunused
    | cons j rest =>
      have hdescend := allocsUnused_of_suffix
        (log_allocateLevels frames flag (j :: rest) _ _) hunused
      exact (served_descend hdescend).trans (ih hunused)

end Served

/-! ### What every operation keeps -/

/-- The page tables of a process are a permissive tree whose frames are accounted for, its pages are
for user access, and the processor has kept none but their translations. -/
structure Process.Holds (p : Process) (T : TablePath → Option Pfn) : Prop where
  kept : Kept p.state T
  permissive : Permissive 3 p.state.machine.tables T
  user : ∀ n e, pageMap p.state n = some e → e.user = true
  coherent : VirtualMemory.Coherent p.tlb (pageMap p.state)

section Holds

variable {frames : ℕ → Pfn} {p p' : Process} {s : State} {T T' : TablePath → Option Pfn}
  {va vb rip errorCode : BitVec 64} {n : ℕ} {e : Translation Pfn} {write : Bool} {seg : MmSeg}
  {m : MmSegment} {f : Pfn}

theorem translate_eq_map : translate s va =
    (walked s.machine.tables s.current.pgd va).map Translation.frame := by
  rw [translate, walked, Option.map_bind]
  refine Option.bind_congr fun es _ ↦ ?_
  rw [Function.comp_apply, Option.map_map]
  rfl

/-- Memory outside the tables, and what is not an allocation or a free, does not matter. -/
theorem Process.Holds.congr (h : p.Holds T) (hkept : Kept p'.state T)
    (htables : p'.state.machine.tables = p.state.machine.tables)
    (hpgd : p'.state.current.pgd = p.state.current.pgd)
    (hcoherent : VirtualMemory.Coherent p'.tlb (pageMap p.state)) :
    p'.Holds T ∧ pageMap p'.state = pageMap p.state := by
  have hmap : pageMap p'.state = pageMap p.state := by
    ext1 n
    rw [pageMap, pageMap, htables, hpgd]
  exact ⟨⟨hkept, htables ▸ h.permissive, hmap.symm ▸ h.user, hmap.symm ▸ hcoherent⟩, hmap⟩

namespace Process.Holds

theorem tree (h : p.Holds T) : PermissiveTree p.state.current.pgd T (UsedIn p.state.machine.log)
    p.state.machine where
  root := h.kept.account.root
  describes := h.kept.account.describes
  closed := h.kept.account.closed
  inside := h.kept.account.inside
  used := fun π f hπ hf ↦ ⟨.osPt, h.kept.account.tables π f hπ hf⟩
  permissive := h.permissive

/-- The page map has the pages of the tree. -/
theorem map_eq_none_iff (h : p.Holds T) (hva : va.toNat < 2 ^ 48) :
    pageMap p.state (pageOf va) = none ↔ T (place va) = none := by
  rw [pageMap_pageOf p.state hva, ← h.kept.tree.translate_eq hva, translate_eq_map,
    Option.map_eq_none_iff]

/-- No two pages have one frame. -/
theorem apart (h : p.Holds T) : VirtualMemory.Apart (pageMap p.state) := by
  have hframe : ∀ n e, pageMap p.state n = some e →
      ∃ va : BitVec 64, va.toNat < 2 ^ 48 ∧ pageOf va = n ∧
        translate p.state va = some e.frame := by
    intro n e he
    by_cases hn : n < 2 ^ 36
    · obtain ⟨va, hva, rfl⟩ := exists_pageOf hn
      rw [pageMap_pageOf p.state hva, walked_eq_some_iff] at he
      exact ⟨va, hva, rfl, he.1⟩
    · rw [pageMap_out p.state (Nat.le_of_not_lt hn)] at he
      cases he
  intro n k e e' he he' heq
  obtain ⟨va, hva, rfl, hf⟩ := hframe n e he
  obtain ⟨vb, hvb, rfl, hf'⟩ := hframe k e' he'
  exact h.kept.accounts.distinct va vb e.frame hva hvb hf (heq ▸ hf')

/-- The processor uses the translation of the page tables. -/
theorem translation_eq (h : p.Holds T) (hva : va.toNat < 2 ^ 48) :
    p.translation va = pageMap p.state (pageOf va) := by
  rw [Process.translation, ← pageMap_pageOf p.state hva]
  exact VirtualMemory.lookup_of_coherent h.coherent (pageOf va)

/-! ### Attempts -/

theorem attempt_of_none (h : p.Holds T) (write : Bool) (hva : va.toNat < 2 ^ 48)
    (hnone : pageMap p.state (pageOf va) = none) :
    p.attempt write va = .error (faultCode false write) := by
  rw [Process.attempt, h.translation_eq hva, hnone, Option.elim_none]

theorem attempt_of_some (h : p.Holds T) (write : Bool) (hva : va.toNat < 2 ^ 48)
    (he : pageMap p.state (pageOf va) = some e) :
    p.attempt write va =
      if write → e.writable then .ok e.frame else .error (faultCode true write) := by
  rw [Process.attempt, h.translation_eq hva, he, Option.elim_some]
  simp only [h.user _ e he, true_and]

end Process.Holds

/-! ### Faults -/

theorem faultCode_present (write : Bool) : faultCode true write &&& 0x1 = 1 := by
  cases write <;> decide

theorem faultCode_absent (write : Bool) : ¬faultCode false write &&& 0x1 = 1 := by
  cases write <;> decide

theorem faultCode_write_iff : faultCode false write &&& 0x2 = 2 ↔ write := by
  cases write <;> decide

theorem checkPresent_ne_code {c : ExecContext} (h : checkPresent va c = some seg) :
    seg ≠ .code := by
  simp only [checkPresent] at h
  split_ifs at h
  all_goals
    rw [← Option.some.inj h]
    decide

/-- The handler exits on a violation of a protection. -/
theorem handlePageFault_present (frames : ℕ → Pfn) (rip va : BitVec 64) (write : Bool) (s : State) :
    ∃ q, q.machine = s.machine ∧
      handlePageFault frames rip va (faultCode true write) s = .error (.exit q) :=
  ⟨{ s with output := .fault rip va (faultCode true write) :: s.output }, rfl,
    if_pos (faultCode_present write)⟩

/-- Where there is no page the handler maps one when the address is in a segment, and the access is
no store to read-only data. -/
theorem handlePageFault_absent (frames : ℕ → Pfn) (rip va : BitVec 64) (write : Bool) (s : State) :
    (∃ seg, checkPresent va s.current = some seg ∧ (write → seg ≠ .rodata) ∧
        handlePageFault frames rip va (faultCode false write) s =
          .ok (allocate frames va (s.current.mms seg) s)) ∨
      (¬∃ seg, checkPresent va s.current = some seg ∧ (write → seg ≠ .rodata)) ∧
        ∃ q, q.machine = s.machine ∧
          handlePageFault frames rip va (faultCode false write) s = .error (.exit q) := by
  simp only [handlePageFault, if_neg (faultCode_absent write), faultCode_write_iff, refuse]
  cases hseg : checkPresent va s.current with
  | none =>
    refine .inr
      ⟨?_, { s with output := .fault rip va (faultCode false write) :: s.output }, rfl, rfl⟩
    rintro ⟨seg, h, -⟩
    cases h
  | some seg =>
    cases seg with
    | code => exact absurd rfl (checkPresent_ne_code hseg)
    | data => exact .inl ⟨.data, rfl, fun _ ↦ by decide, rfl⟩
    | stack => exact .inl ⟨.stack, rfl, fun _ ↦ by decide, rfl⟩
    | rodata =>
      cases write with
      | false => exact .inl ⟨.rodata, rfl, fun h ↦ absurd h Bool.false_ne_true, rfl⟩
      | true =>
        refine .inr
          ⟨?_, { s with output := .fault rip va (faultCode false true) :: s.output }, rfl, rfl⟩
        rintro ⟨seg, h, hne⟩
        exact hne rfl (Option.some.inj h).symm

namespace Process.Holds

/-- `allocate` for a page that is not there gives it a frame that was not in use and the permission
of its segment, and leaves the other translations as they are. -/
theorem allocate (h : p.Holds T) (hva : va.toNat < 2 ^ 48)
    (hseg : checkPresent va p.state.current = some seg)
    (hnone : pageMap p.state (pageOf va) = none)
    (hunused : AllocsUnused Small (allocate frames va m p.state).machine.log) :
    ∃ f T', (p.setState (Syscalls.allocate frames va m p.state)).Holds T' ∧
      pageMap (Syscalls.allocate frames va m p.state) =
        Function.update (pageMap p.state) (pageOf va)
          (some ⟨f, true, decide (m.accessFlags &&& 0x2 = 2)⟩) := by
  have hplace : T (place va) = none := (h.map_eq_none_iff hva).mp hnone
  have hserved : Served frames p.state.machine (Syscalls.allocate frames va m p.state).machine :=
    served_allocateLevels hunused
  obtain ⟨T', hkept⟩ := h.kept.allocate hva (h.kept.covers hseg).2 m hunused
  obtain ⟨T'', htree, hadded⟩ := h.tree.allocate_absent hva hplace hserved.supplies
  -- both are the tree that is in memory
  obtain rfl : T' = T'' :=
    (frameAt_eq hkept.account.describes hkept.account.root hkept.account.closed
      hkept.account.inside).symm.trans
        (frameAt_eq htree.describes htree.root htree.closed htree.inside)
  obtain ⟨f, -, hmaps⟩ : ∃ f, ¬UsedIn p.state.machine.log f ∧
      MapsTo (Syscalls.allocate frames va m p.state).machine.tables
        (Syscalls.allocate frames va m p.state).current.pgd va (m.accessFlags &&& 0x2 = 2) f :=
    hadded.mapsTo htree hva
  have hmap : pageMap (Syscalls.allocate frames va m p.state) =
      Function.update (pageMap p.state) (pageOf va)
        (some ⟨f, true, decide (m.accessFlags &&& 0x2 = 2)⟩) := by
    refine pageMap_ext (fun vb hvb ↦ ?_) fun k hk ↦ ?_
    · rw [Function.update_apply]
      split_ifs with hpage
      · rw [walked_congr hpage]
        exact walked_of_mapsTo hmaps
      · obtain ⟨hframe, huser, hwritable⟩ := hadded.other h.tree htree hva hvb hpage
        rw [pageMap_pageOf p.state hvb]
        exact walked_eq hframe huser hwritable
    · rw [Function.update_of_ne, pageMap_out p.state hk]
      have := pageOf_lt hva
      omega
  refine ⟨f, T', ⟨hkept, htree.permissive, fun k e he ↦ ?_, hmap.symm ▸ h.coherent.add hnone _⟩,
    hmap⟩
  have he : pageMap (Syscalls.allocate frames va m p.state) k = some e := he
  rw [hmap, Function.update_apply] at he
  split_ifs at he
  · rw [← Option.some.inj he]
  · exact h.user k e he

end Process.Holds

end Holds

end OsAssignments.Paging.Syscalls
