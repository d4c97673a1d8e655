import OsAssignments.Paging.UserMemory

/-!
# Runs of a process

Whatever a process does, and whenever the processor keeps and drops translations, it sees a memory
of pages with bytes: every operation is answered as it is without page tables, frames and faults
(`paging_transparent`). It exits at the first access that its segments do not permit and at no
other, no access faults for ever, and no call hangs in the kernel.

So a byte that has been stored is loaded again, however often its page has been looked up, its
translation dropped and other pages mapped and unmapped in between (`stored_byte_stays`).
-/

set_option autoImplicit false
set_option relaxedAutoImplicit false

namespace OsAssignments.Paging.Syscalls

open OsAssignments.Library
open ContextMm (MmSeg)

variable {frames : ℕ → Pfn} {p : Process} {d : Space} {T : TablePath → Option Pfn} {op : Op} {n : ℕ}
  {va : BitVec 64} {reply : Reply} {t : Session} {b : BitVec 8}

/-! ### One operation -/

theorem Session.Shows.forget (h : (Session.on p).Shows (some d)) (D : ℕ → Prop) [DecidablePred D] :
    (Session.on (p.forget D)).Shows (some d) := by
  obtain ⟨-, ⟨T, hholds⟩, hshows⟩ := h
  exact Session.shows_on (hholds.forget D) ⟨hshows.current, hshows.output, hshows.page⟩

/-- A system call that returns. -/
theorem act_syscall {number : BitVec 32} {param1 param2 value : BitVec 64} {q : State}
    (h : doSyscall p.memory number param1 param2 p.state = .ok (value, q)) :
    (Op.syscall number param1 param2).act frames n p =
      (.value value, .on ((p.setState q).forget fun k ↦
      k ∈ (invlpg number param1 param2 p.state).map pageOf)) := by
  rw [Op.act, h]

/-- A system call does to a process what it does to its space. -/
theorem syscall_answers {number : BitVec 32} {param1 param2 : BitVec 64} (h : p.Holds T)
    (hshows : p.Shows d) (hallowed : (Op.syscall number param1 param2).Allowed)
    (hact : (Op.syscall number param1 param2).act frames n p = (reply, t)) :
    ∃ d', Op.answersCall number param1 param2 d reply d' ∧ t.Shows d' := by
  have hreturns : ∀ value q d', doSyscall p.memory number param1 param2 p.state = .ok (value, q) →
      (Session.on (p.setState q)).Shows (some d') →
        reply = .value value ∧ t.Shows (some d') := by
    intro value q d' hcall hshows'
    obtain ⟨rfl, rfl⟩ := Prod.mk.inj ((act_syscall hcall).symm.trans hact)
    exact ⟨rfl, hshows'.forget _⟩
  by_cases hexit : number = syscallExit
  · subst hexit
    obtain ⟨rfl, rfl⟩ := Prod.mk.inj hact
    exact ⟨none, ⟨rfl, rfl⟩, rfl⟩
  by_cases hgetpid : number = syscallGetpid
  · subst hgetpid
    obtain ⟨hreply, ht⟩ := hreturns _ p.state d rfl (Session.shows_on h hshows)
    rw [← hshows.current] at hreply
    exact ⟨_, ⟨hreply, rfl⟩, ht⟩
  by_cases hwrite : number = syscallWrite
  · subst hwrite
    obtain ⟨answer, q, hcall, hprints, hq⟩ := h.write hshows param1 param2 (hallowed.2 rfl)
    obtain ⟨hreply, ht⟩ := hreturns _ q answer.2 hcall hq
    rcases hprints with ⟨hprints, rfl⟩ | ⟨hprints, rfl⟩
    · exact ⟨_, .inl ⟨hprints, hreply, rfl⟩, ht⟩
    · exact ⟨_, .inr ⟨hprints, hreply, rfl⟩, ht⟩
  by_cases hexpand : number = syscallExpand
  · subst hexpand
    obtain ⟨q, hcall, hq⟩ := h.expand hshows param1 param2
    obtain ⟨hreply, ht⟩ := hreturns _ q _ hcall hq
    exact ⟨_, ⟨hreply, rfl⟩, ht⟩
  by_cases hshrink : number = syscallShrink
  · subst hshrink
    obtain ⟨q, hok, hq⟩ := h.shrink hshows param2 (hallowed.1 rfl)
    have hcall : doSyscall p.memory syscallShrink param1 param2 p.state = .ok (_, q) := hok
    obtain ⟨rfl, rfl⟩ := Prod.mk.inj ((act_syscall hcall).symm.trans hact)
    exact ⟨_, ⟨rfl, rfl⟩, hq⟩
  · have hcall : doSyscall p.memory number param1 param2 p.state = .ok (-1, p.state) := by
      rw [doSyscall, if_neg hexit, if_neg hgetpid, if_neg hwrite, if_neg hexpand, if_neg hshrink]
    obtain ⟨hreply, ht⟩ := hreturns _ p.state d hcall (Session.shows_on h hshows)
    refine ⟨some d, ?_, ht⟩
    unfold Op.answersCall
    rw [if_neg hexit, if_neg hgetpid, if_neg hwrite, if_neg hexpand, if_neg hshrink]
    exact ⟨hreply, rfl⟩

/-- An operation does to a process what it does to its space. -/
theorem act_answers (h : p.Holds T) (hshows : p.Shows d) (hallowed : op.Allowed)
    (hact : op.act frames (n + 2) p = (reply, t)) (hunused : AllocsUnused Small t.process.log) :
    ∃ d', op.answers d reply d' ∧ t.Shows d' := by
  cases op with
  | load rip va =>
    exact access_answers h hshows hallowed (usesAlike_load va) (fun _ _ ↦ rfl) hact hunused
  | store rip va b =>
    exact access_answers h hshows hallowed (usesAlike_store va b) (fun _ _ ↦ rfl) hact hunused
  | syscall number param1 param2 => exact syscall_answers h hshows hallowed hact
  | keep va =>
    obtain ⟨rfl, rfl⟩ := Prod.mk.inj hact
    refine ⟨some d, ⟨rfl, rfl⟩, Session.shows_on (T := T) ⟨h.kept, h.permissive, h.user, ?_⟩
      ⟨hshows.current, hshows.output, hshows.page⟩⟩
    have hkeep := h.coherent.keep (pageOf va)
    rwa [pageMap_pageOf p.state hallowed] at hkeep
  | drop va =>
    obtain ⟨rfl, rfl⟩ := Prod.mk.inj hact
    exact ⟨some d, ⟨rfl, rfl⟩, (Session.shows_on h hshows).forget _⟩

/-! ### Runs -/

theorem log_run_op {s s' : Session} (h : op.run frames n s = .ok (reply, s')) :
    s.process.log <:+ s'.process.log := by
  rw [Op.run] at h
  split_ifs at h
  · obtain ⟨-, rfl⟩ := Prod.mk.inj (Except.ok.inj h)
    exact List.suffix_rfl
  · exact log_act (Except.ok.inj h)

/-- The same when the process may be gone. -/
theorem run_answers {s s' : Session} {d : Option Space} (hshows : s.Shows d) (hallowed : op.Allowed)
    (hrun : op.run frames (n + 2) s = .ok (reply, s'))
    (hunused : AllocsUnused Small s'.process.log) : ∃ d', op.spec d reply d' ∧ s'.Shows d' := by
  rw [Op.run] at hrun
  cases d with
  | none =>
    have hgone : s.gone = true := hshows
    rw [if_pos hgone] at hrun
    obtain ⟨rfl, rfl⟩ := Prod.mk.inj (Except.ok.inj hrun)
    exact ⟨none, ⟨rfl, rfl⟩, hgone⟩
  | some d =>
    obtain ⟨hthere, ⟨T, hholds⟩, hshows⟩ := hshows
    rw [hthere, if_neg Bool.false_ne_true] at hrun
    exact act_answers hholds hshows hallowed (Except.ok.inj hrun) hunused

/-- What a process sees. -/
def Process.space (p : Process) : Space :=
  ⟨p.state.current, p.state.output, VirtualMemory.contents (pageMap p.state) p.ram⟩

/-- Every run that ends is answered as it is for the space. -/
theorem conforms_of_run {attempts : ℕ} (hattempts : 2 ≤ attempts) (h : p.Holds T) {ops : List Op}
    (hops : ∀ op ∈ ops, op.Allowed) {rs : List Reply}
    (hrun : replies (Op.run frames attempts) ops (.on p) = .ok (rs, t))
    (hunused : AllocsUnused Small t.process.log) :
    ∃ d, Conforms Op.spec ops (some p.space) rs d ∧ t.Shows d := by
  obtain ⟨n, rfl⟩ := Nat.exists_eq_add_of_le' hattempts
  have hback : ∀ op s r s', Op.run frames (n + 2) op s = .ok (r, s') →
      AllocsUnused Small s'.process.log → AllocsUnused Small s.process.log :=
    fun op s r s' hrun hunused ↦ allocsUnused_of_suffix (log_run_op hrun) hunused
  have hstep : ∀ op s d r s', s.Shows d → op.Allowed → Op.run frames (n + 2) op s = .ok (r, s') →
      AllocsUnused Small s'.process.log → ∃ d', op.spec d r d' ∧ s'.Shows d' :=
    fun op s d r s' ↦ run_answers
  exact Conforms.of_replies hback hstep (promised_of_forall hops) hrun hunused
    (Session.shows_on h ⟨rfl, rfl, rfl⟩)

/-- Every run of a process is answered as it is without page tables, frames and faults. -/
theorem paging_transparent (frames : ℕ → Pfn) (attempts : ℕ) (hattempts : 2 ≤ attempts)
    (p : Process)
    (T : TablePath → Option Pfn) (h : p.Holds T) (ops : List Op) (hops : ∀ op ∈ ops, op.Allowed) :
    ∃ rs t, replies (Op.run frames attempts) ops (.on p) = .ok (rs, t) ∧
      (AllocsUnused Small t.process.log →
        ∃ d, Conforms Op.spec ops (some p.space) rs d ∧ t.Shows d) := by
  have htotal : ∀ op s, ∃ r s', Op.run frames attempts op s = .ok (r, s') := fun op s ↦ ⟨_, _, rfl⟩
  obtain ⟨rs, t, hrun⟩ := exists_replies htotal ops (.on p)
  exact ⟨rs, t, hrun, conforms_of_run hattempts h hops hrun⟩

/-! ### A process that starts -/

/-- A process that has touched no page. -/
def fresh : Process := ⟨started, fun _ _ ↦ 0, fun _ ↦ none⟩

theorem fresh_holds : fresh.Holds (rootOnly 0x2000) := by
  have hdata : (started.current.mms .data).Lies :=
    ⟨by decide, by decide, by decide, by decide, by decide, by decide, by decide, by decide⟩
  have hrodata : (started.current.mms .rodata).Lies :=
    ⟨by decide, by decide, by decide, by decide, by decide, by decide, by decide, by decide⟩
  have hkept := started_accounts.kept started_tree hdata hrodata (by decide)
  have hbelow : ∀ (π : TablePath) (i : ℕ), rootOnly 0x2000 (i :: π) = none := fun π i ↦
    if_neg (List.cons_ne_nil i π)
  have hempty : pageMap started = fun _ ↦ none := by
    refine pageMap_ext (fun va hva ↦ ?_) fun _ _ ↦ rfl
    rw [← Option.map_eq_none_iff (f := Translation.frame), ← translate_eq_map,
      started_tree.translate_eq hva]
    exact hbelow _ _
  refine ⟨hkept, ⟨fun _ _ _ hne ↦ absurd (hbelow _ _) hne, fun _ _ _ hne ↦ absurd (hbelow _ _) hne⟩,
    fun n e he ↦ ?_, fun n e he ↦ ?_⟩
  · rw [show pageMap fresh.state n = none from congrFun hempty n] at he
    cases he
  · cases he

/-- The translation of a byte that has been stored is dropped, the segment expanded, the byte
printed, another page touched and the translation kept again. -/
def betweenOps : List Op :=
  [.drop 0x180002010, .syscall syscallExpand 3 2, .syscall syscallWrite 0x180002010 1,
    .load 0x8008 0x180009000, .keep 0x180002010]

/-- The byte is loaded after these operations. -/
theorem replies_betweenOps : ∃ t,
    replies (Op.run ContextMm.upwards 2)
      (.store 0x8000 0x180002010 7 :: (betweenOps ++ [.load 0x8010 0x180002010])) (.on fresh) =
      .ok ([.done, .done, .value 0x180008000, .value 0, .byte 0, .done, .byte 7], t) ∧
        AllocsUnused Small t.process.log := by
  have htotal : ∀ op s, ∃ r s', Op.run ContextMm.upwards 2 op s = .ok (r, s') := fun op s ↦
    ⟨_, _, rfl⟩
  obtain ⟨rs, t, hrun⟩ := exists_replies htotal
    (.store 0x8000 0x180002010 7 :: (betweenOps ++ [.load 0x8010 0x180002010])) (.on fresh)
  have hreplies : (replies (Op.run ContextMm.upwards 2)
      (.store 0x8000 0x180002010 7 :: (betweenOps ++ [.load 0x8010 0x180002010]))
      (.on fresh)).toOption.map Prod.fst =
      some [.done, .done, .value 0x180008000, .value 0, .byte 0, .done, .byte 7] := by
    decide +kernel
  have hunused : ∀ q ∈ (replies (Op.run ContextMm.upwards 2)
      (.store 0x8000 0x180002010 7 :: (betweenOps ++ [.load 0x8010 0x180002010]))
      (.on fresh)).toOption, AllocsUnused Small q.2.process.log := by
    decide +kernel
  rw [hrun] at hreplies hunused
  obtain rfl := Option.some.inj hreplies
  exact ⟨t, hrun, hunused _ rfl⟩

theorem paging_transparent_first : ∃ d, Conforms Op.spec
    (.store 0x8000 0x180002010 7 :: (betweenOps ++ [.load 0x8010 0x180002010])) (some fresh.space)
    [.done, .done, .value 0x180008000, .value 0, .byte 0, .done, .byte 7] d := by
  obtain ⟨rs, t, hrun, hconforms⟩ := paging_transparent ContextMm.upwards 2 le_rfl fresh
    (rootOnly 0x2000) fresh_holds
      (.store 0x8000 0x180002010 7 :: (betweenOps ++ [.load 0x8010 0x180002010]))
    (by decide)
  obtain ⟨t', hrun', hunused⟩ := replies_betweenOps
  obtain ⟨rfl, rfl⟩ := Prod.mk.inj (Except.ok.inj (hrun.symm.trans hrun'))
  obtain ⟨d, hd, -⟩ := hconforms hunused
  exact ⟨d, hd⟩

/-! ### Bytes that stay -/

/-- The operation neither stores to an address nor shrinks the segment that it lies in. -/
def Op.Spares (c : ExecContext) (va : BitVec 64) : Op → Prop
  | store _ vb _ => vb ≠ va
  | syscall number _ param2 => number = syscallShrink →
      va.toNat < (c.mms (selected (param2.setWidth 32))).start.toNat ∨
        (c.mms (selected (param2.setWidth 32))).stop.toNat ≤ va.toNat
  | _ => True

/-- The segments are those of a context but for their `next_free`, and an address has a byte. -/
structure Space.HasByte (c : ExecContext) (va : BitVec 64) (b : BitVec 8) (d : Space) : Prop where
  lies : ∀ flags, (d.current.mms (selected flags)).Lies
  start : ∀ seg, (d.current.mms seg).start = (c.mms seg).start
  stop : ∀ seg, (d.current.mms seg).stop = (c.mms seg).stop
  byte : ∃ pg, d.page (pageOf va) = some pg ∧ pg.bytes (offsetOf va) = b

section Bytes

variable {c : ExecContext} {vb value : BitVec 64} {seg : MmSeg} {size : ℕ}
    {param1 param2 : BitVec 64}
  {number : BitVec 32} {d' : Option Space} {pg : SeenPage ℕ (BitVec 8)}

theorem address_eq (hpage : pageOf va = pageOf vb) (hoffset : offsetOf va = offsetOf vb) :
    va = vb := by
  refine BitVec.eq_of_toNat_eq ?_
  rw [pageOf, pageOf] at hpage
  rw [offsetOf, offsetOf] at hoffset
  omega

/-- Another `next_free` in the segment. -/
theorem MmSegment.Lies.setNextFree {m : MmSegment} (h : m.Lies) (haligned : value.toNat % 4096 = 0)
    (hlow : m.start.toNat ≤ value.toNat) (hhigh : value.toNat ≤ m.stop.toNat) :
    (m.setNextFree value).Lies :=
  ⟨h.start_aligned, h.stop_aligned, haligned, h.low, hlow, hhigh, h.short, h.high⟩

namespace Space.HasByte

/-- A new `next_free` of a data segment leaves the byte. -/
theorem setNextFree (h : d.HasByte c va b) {flags : BitVec 32}
    (haligned : value.toNat % 4096 = 0)
    (hlow : (d.current.mms (selected flags)).start.toNat ≤ value.toNat)
    (hhigh : value.toNat ≤ (d.current.mms (selected flags)).stop.toNat) :
    (d.setNextFree (selected flags) value).HasByte c va b := by
  have hmms : ∀ seg, (d.setNextFree (selected flags) value).current.mms seg =
      if seg = selected flags then (d.current.mms (selected flags)).setNextFree value
      else d.current.mms seg := fun seg ↦ Function.update_apply ..
  refine ⟨fun flags' ↦ ?_, fun seg ↦ ?_, fun seg ↦ ?_, h.byte⟩
  · rw [hmms]
    split_ifs
    · exact (h.lies flags).setNextFree haligned hlow hhigh
    · exact h.lies flags'
  · rw [hmms]
    split_ifs with hseg
    · exact hseg ▸ h.start (selected flags)
    · exact h.start seg
  · rw [hmms]
    split_ifs with hseg
    · exact hseg ▸ h.stop (selected flags)
    · exact h.stop seg

/-- Giving other pages back leaves the byte. -/
theorem giveBack {first last : ℕ} (h : d.HasByte c va b)
    (hstays : ¬(first ≤ pageOf va ∧ pageOf va < last)) :
    (d.giveBack first last).HasByte c va b := by
  obtain ⟨pg, hpg, hb⟩ := h.byte
  exact ⟨h.lies, h.start, h.stop, pg, (if_neg hstays).trans hpg, hb⟩

theorem expand (h : d.HasByte c va b) (size : ℕ) (flags : BitVec 32) :
    (d.expand size (selected flags)).2.HasByte c va b := by
  have hlies := h.lies flags
  have haligned := hlies.aligned
  have hstop := hlies.stop_aligned
  have hordered := hlies.ordered
  have hhigh := hlies.high
  have hlow := hlies.low
  rw [Space.expand]
  split_ifs with hrefused
  · exact h
  · have hgrown :
        ((d.current.mms (selected flags)).nextFree + BitVec.ofNat 64 (4096 * size)).toNat =
        (d.current.mms (selected flags)).nextFree.toNat + 4096 * size := by
      rw [BitVec.toNat_add, BitVec.toNat_ofNat]
      omega
    exact h.setNextFree (by omega) (by omega) (by omega)

/-- A shrink of a segment that the address is not in leaves the byte. -/
theorem shrink (h : d.HasByte c va b) (size : ℕ) (flags : BitVec 32)
    (hout : va.toNat < (c.mms (selected flags)).start.toNat ∨
      (c.mms (selected flags)).stop.toNat ≤ va.toNat) :
    (d.shrink size (selected flags)).2.HasByte c va b := by
  have hlies := h.lies flags
  have haligned := hlies.aligned
  have hstart := hlies.start_aligned
  have hbounded := hlies.bounded
  rw [← h.start, ← h.stop] at hout
  rw [Space.shrink]
  split_ifs with hrefused
  · exact h
  · have hlowered :
        ((d.current.mms (selected flags)).nextFree - BitVec.ofNat 64 (4096 * size)).toNat =
        (d.current.mms (selected flags)).nextFree.toNat - 4096 * size := by
      have hlt := (d.current.mms (selected flags)).nextFree.isLt
      rw [BitVec.toNat_sub, BitVec.toNat_ofNat]
      omega
    have hstays :
        ¬(pageOf ((d.current.mms (selected flags)).nextFree - BitVec.ofNat 64 (4096 * size)) ≤
        pageOf va ∧ pageOf va < pageOf (d.current.mms (selected flags)).nextFree) := by
      rw [← between_iff_pageOf (by omega) haligned]
      omega
    have hfirst : (d.current.mms (selected flags)).start.toNat ≤
        ((d.current.mms (selected flags)).nextFree - BitVec.ofNat 64 (4096 * size)).toNat := by
          omega
    have hlast : ((d.current.mms (selected flags)).nextFree - BitVec.ofNat 64 (4096 * size)).toNat ≤
        (d.current.mms (selected flags)).stop.toNat := by omega
    exact (h.giveBack hstays).setNextFree (by omega) hfirst hlast

/-- What is found at the page of an address, and kept there but for another byte, keeps the byte. -/
theorem setPage (h : d.HasByte c va b) (hfinds : d.Finds vb pg) {pg' : SeenPage ℕ (BitVec 8)}
    (hsame : pageOf vb = pageOf va → pg'.bytes (offsetOf va) = pg.bytes (offsetOf va)) :
    (d.setPage (pageOf vb) pg').HasByte c va b := by
  obtain ⟨pg₀, hpg₀, hb⟩ := h.byte
  refine ⟨h.lies, h.start, h.stop, ?_⟩
  by_cases hpage : pageOf vb = pageOf va
  · refine ⟨pg', ?_, ?_⟩
    · rw [← hpage]
      exact Function.update_self ..
    · rw [hsame hpage]
      rw [Finds, hpage, hpg₀] at hfinds
      rcases hfinds with hpg | ⟨hnone, -⟩
      · rw [← Option.some.inj hpg, hb]
      · cases hnone
  · exact ⟨pg₀, (Function.update_of_ne (Ne.symm hpage) ..).trans hpg₀, hb⟩

/-- A system call that spares the address. -/
theorem syscall (h : d.HasByte c va b) (hspares : (Op.syscall number param1 param2).Spares c va)
    (hanswers : Op.answersCall number param1 param2 d reply d') :
    d'.elim (reply = .exited) (HasByte c va b) := by
  unfold Op.answersCall at hanswers
  split_ifs at hanswers with hexit hgetpid hwrite hexpand hshrink
  · obtain ⟨hreply, rfl⟩ := hanswers
    exact hreply
  · obtain ⟨-, rfl⟩ := hanswers
    exact h
  · rcases hanswers with ⟨-, -, rfl⟩ | ⟨-, -, rfl⟩
    · have hprinted : (d.print param1 (param2.setWidth 32)).HasByte c va b :=
        ⟨h.lies, h.start, h.stop, h.byte⟩
      exact hprinted.expand _ _
    · exact h
  · obtain ⟨-, rfl⟩ := hanswers
    exact h.expand _ _
  · obtain ⟨-, rfl⟩ := hanswers
    exact h.shrink _ _ (hspares hshrink)
  · obtain ⟨-, rfl⟩ := hanswers
    exact h

/-- Any other operation that spares the address. -/
theorem answers (h : d.HasByte c va b) (hspares : op.Spares c va)
    (hanswers : op.answers d reply d') :
    d'.elim (reply = .exited) (HasByte c va b) := by
  cases op with
  | load rip vb =>
    rcases hanswers with ⟨-, pg, hfinds, -, rfl⟩ | ⟨-, hreply, rfl⟩
    · exact h.setPage hfinds fun _ ↦ rfl
    · exact hreply
  | store rip vb b' =>
    rcases hanswers with ⟨-, pg, hfinds, -, rfl⟩ | ⟨-, hreply, rfl⟩
    · exact h.setPage hfinds fun hpage ↦
        Function.update_of_ne (fun hoffset ↦ hspares (address_eq hpage hoffset.symm)) ..
    · exact hreply
  | syscall number param1 param2 => exact h.syscall hspares hanswers
  | keep vb =>
    obtain ⟨-, rfl⟩ := hanswers
    exact h
  | drop vb =>
    obtain ⟨-, rfl⟩ := hanswers
    exact h

end Space.HasByte

/-- Operations that spare an address leave its byte, unless the process exits. -/
theorem conforms_hasByte {ops : List Op} {rs : List Reply} {d₀ d₁ : Option Space}
    (hops : ∀ op ∈ ops, op.Spares c va) (h : Conforms Op.spec ops d₀ rs d₁)
    (hd : d₀.elim False (Space.HasByte c va b)) :
    .exited ∈ rs ∨ d₁.elim False (Space.HasByte c va b) := by
  induction h with
  | nil d => exact .inr hd
  | @cons op ops d d' d'' reply rest hstep hrest ih =>
    have hlater := fun op' hop' ↦ hops op' (List.mem_cons_of_mem op hop')
    cases d with
    | none => exact hd.elim
    | some d =>
      have hkept := Space.HasByte.answers hd (hops op List.mem_cons_self) hstep
      cases d' with
      | none => exact .inl (hkept ▸ List.mem_cons_self)
      | some d' => exact (ih hlater hkept).imp_left (List.mem_cons_of_mem reply)

/-- The byte of an address that has one is loaded. -/
theorem Space.HasByte.load (h : d.HasByte c va b) (rip : BitVec 64)
    (hanswers : (Op.load rip va).answers d reply d') : reply = .byte b := by
  obtain ⟨pg, hpg, hb⟩ := h.byte
  rcases hanswers with ⟨-, pg', hfinds, hreply, -⟩ | ⟨hno, -⟩
  · rw [Finds, hpg] at hfinds
    rcases hfinds with heq | ⟨hnone, -⟩
    · obtain rfl := Option.some.inj heq
      exact hreply.trans (congrArg Reply.byte hb)
    · cases hnone
  · exact absurd (.inl ⟨pg, hpg, fun hwrite ↦ absurd hwrite Bool.false_ne_true⟩) hno

/-- An address has the byte that has been stored to it. -/
theorem Process.Holds.stored (h : p.Holds T) (rip : BitVec 64)
    (hanswers : (Op.store rip va b).answers p.space reply d') :
    reply = .exited ∨ d'.elim False (Space.HasByte p.state.current va b) := by
  rcases hanswers with ⟨-, pg, -, -, rfl⟩ | ⟨-, hreply, -⟩
  · refine .inr ⟨h.kept.lies, fun _ ↦ rfl, fun _ ↦ rfl, _, Function.update_self .., ?_⟩
    exact Function.update_self ..
  · exact .inl hreply

end Bytes

/-- A byte that has been stored is loaded again after any operations that neither store to its
address nor shrink its segment, as long as the process is there. -/
theorem stored_byte_stays (frames : ℕ → Pfn) (attempts : ℕ) (hattempts : 2 ≤ attempts) (p : Process)
    (T : TablePath → Option Pfn) (h : p.Holds T) (rip rip' va : BitVec 64) (b : BitVec 8)
    (hva : va.toNat < 2 ^ 48) (ops : List Op)
    (hops : ∀ op ∈ ops, op.Allowed ∧ op.Spares p.state.current va) (rs : List Reply) (t : Session)
    (hrun : replies (Op.run frames attempts) (.store rip va b :: (ops ++ [.load rip' va])) (.on p) =
      .ok (rs, t))
    (hunused : AllocsUnused Small t.process.log) (hthere : .exited ∉ rs) :
    rs.getLast? = some (.byte b) := by
  have hallowed : ∀ op ∈ .store rip va b :: (ops ++ [.load rip' va]), op.Allowed := by
    intro op hop
    rcases List.mem_cons.mp hop with rfl | hop
    · exact hva
    rcases List.mem_append.mp hop with hop | hop
    · exact (hops op hop).1
    · obtain rfl := List.mem_singleton.mp hop
      exact hva
  obtain ⟨d, hconforms, -⟩ := conforms_of_run hattempts h hallowed hrun hunused
  rcases hconforms with _ | ⟨hstore, hconforms⟩
  obtain ⟨rest, d₁, r, hrest, hload, rfl⟩ := hconforms.last
  rw [List.mem_cons, List.mem_append, List.mem_singleton, not_or, not_or] at hthere
  obtain ⟨hfirst, hmiddle, hlast⟩ := hthere
  have hstored := (h.stored rip hstore).resolve_left fun heq ↦ hfirst heq.symm
  have hkept := (conforms_hasByte (fun op hop ↦ (hops op hop).2) hrest hstored).resolve_left hmiddle
  cases d₁ with
  | none => exact hkept.elim
  | some d₁ =>
    rw [← List.cons_append, List.getLast?_concat]
    exact congrArg some (Space.HasByte.load hkept rip' hload)

theorem stored_byte_stays_first : ∃ rs t,
    replies (Op.run ContextMm.upwards 2)
      (.store 0x8000 0x180002010 7 :: (betweenOps ++ [.load 0x8010 0x180002010])) (.on fresh) =
      .ok (rs, t) ∧ rs.getLast? = some (.byte 7) := by
  have hops : ∀ op ∈ betweenOps, op.Allowed ∧ op.Spares fresh.state.current 0x180002010 := by
    intro op hop
    refine ⟨(by decide : ∀ op ∈ betweenOps, op.Allowed) op hop, ?_⟩
    simp only [betweenOps, List.mem_cons, List.not_mem_nil, or_false] at hop
    rcases hop with rfl | rfl | rfl | rfl | rfl
    · trivial
    · exact fun hshrink ↦ absurd hshrink (by decide)
    · exact fun hshrink ↦ absurd hshrink (by decide)
    · trivial
    · trivial
  obtain ⟨t, hrun, hunused⟩ := replies_betweenOps
  exact ⟨_, t, hrun, stored_byte_stays ContextMm.upwards 2 le_rfl fresh
    (rootOnly 0x2000) fresh_holds
    0x8000 0x8010 0x180002010 7 (by decide) betweenOps hops _ t hrun hunused (by decide)⟩

end OsAssignments.Paging.Syscalls
