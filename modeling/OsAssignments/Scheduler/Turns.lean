import OsAssignments.Scheduler.Schedule

/-!
# What a turn of the scheduler does

The pick is specified by an order: `distance` tells how far a pid stands behind the current one,
counting round and skipping the swapper. `pickNextContext` returns the nearest `READY` pid, or what
`fallback` says when there is none (`picked`).

Every event that picks first brings the kernel to the state `beforePick`, in which the current
context has given up the processor, and then hands it to the picked context (`Dispatched`). The
three kinds of event share this form (`step_dispatches`), so the results about runs are proved for
an event and its pick once. `accountTick_ctx` says what one tick does to a context (`ticked`).
-/

set_option autoImplicit false
set_option relaxedAutoImplicit false

namespace OsAssignments.Scheduler

/-! ### The order of the pick -/

/-- The pids the pick looks at, in its order. -/
def scanned (curr : Fin 16) : List (Fin 16) := pidsAbove curr ++ pidsBelow curr

/-- How far a pid stands behind the current one, counting from 15 on to 1. -/
def distance (curr i : Fin 16) : ℕ :=
  if curr < i then (i : ℕ) - curr else (i : ℕ) + 15 - curr

theorem mem_scanned {curr i : Fin 16} : i ∈ scanned curr ↔ 1 ≤ i ∧ i ≠ curr := by
  simp only [scanned, pidsAbove, pidsBelow, List.mem_append, List.mem_filter, List.mem_finRange,
    true_and, decide_eq_true_eq]
  omega

theorem scanned_pairwise (curr : Fin 16) :
    (scanned curr).Pairwise fun i j ↦ distance curr i < distance curr j := by
  revert curr
  decide

/-- Passing over a nearer pid brings the later one nearer. -/
theorem distance_lt {curr new i : Fin 16} (hpos : 1 ≤ new) (hi : 1 ≤ i)
    (h : distance curr new < distance curr i) : distance new i < distance curr i := by
  unfold distance at *
  split_ifs at * <;> omega

section Scan

variable {ctx : Fin 16 → ExecContext} {l l' : List (Fin 16)} {isWait isWait' : Bool} {i : Fin 16}

theorem scan_append : scan ctx (l ++ l') isWait =
    match scan ctx l isWait with
    | .error i => .error i
    | .ok isWait => scan ctx l' isWait := by
  induction l generalizing isWait with
  | nil => rfl
  | cons j rest ih =>
    simp only [List.cons_append, scan]
    split_ifs with hready
    · rfl
    · exact ih
    · exact ih

/-- A scan that leaves early leaves at the first `READY` context. -/
theorem scan_error {key : Fin 16 → ℕ} (hl : l.Pairwise fun i j ↦ key i < key j)
    (h : scan ctx l isWait = .error i) :
    i ∈ l ∧ (ctx i).state = .ready ∧ ∀ j ∈ l, (ctx j).state = .ready → key i ≤ key j := by
  induction l generalizing isWait with
  | nil => cases h
  | cons j rest ih =>
    obtain ⟨hfirst, hrest⟩ := List.pairwise_cons.mp hl
    rw [scan] at h
    by_cases hready : (ctx j).state = .ready
    · rw [if_pos hready] at h
      cases h
      refine ⟨List.mem_cons_self, hready, fun m hm _ ↦ ?_⟩
      rcases List.mem_cons.mp hm with rfl | hm
      · exact le_rfl
      · exact (hfirst m hm).le
    · rw [if_neg hready] at h
      obtain ⟨hmem, hfound, hleast⟩ := ih hrest h
      refine ⟨List.mem_cons_of_mem j hmem, hfound, fun m hm hm' ↦ ?_⟩
      rcases List.mem_cons.mp hm with rfl | hm
      · exact absurd hm' hready
      · exact hleast m hm hm'

/-- A scan that runs to its end met no `READY` context and noted the `WAITING` ones. -/
theorem scan_ok (h : scan ctx l isWait = .ok isWait') :
    (∀ j ∈ l, (ctx j).state ≠ .ready) ∧
      (isWait' = true ↔ isWait = true ∨ ∃ j ∈ l, (ctx j).state = .waiting) := by
  induction l generalizing isWait with
  | nil =>
    cases h
    simp
  | cons j rest ih =>
    rw [scan] at h
    by_cases hready : (ctx j).state = .ready
    · rw [if_pos hready] at h
      cases h
    · rw [if_neg hready] at h
      obtain ⟨hnone, hwait⟩ := ih h
      refine ⟨List.forall_mem_cons.mpr ⟨hready, hnone⟩, hwait.trans ?_⟩
      rw [List.exists_mem_cons_iff]
      by_cases hwaiting : (ctx j).state = .waiting <;> simp [hwaiting]

end Scan

/-- What a pick can come to: the nearest `READY` pid, or the fallback when there is none. -/
inductive Picked (type : PickType) (k : Kernel) : Option (Fin 16) → Prop
  | ready (i : Fin 16) (hpos : 1 ≤ i) (hne : i ≠ k.current) (hready : (k.ctx i).state = .ready)
    (hleast : ∀ j, 1 ≤ j → j ≠ k.current → (k.ctx j).state = .ready →
      distance k.current i ≤ distance k.current j) : Picked type k (some i)
  | fallback (isWait : Bool) (hnone : ∀ j, 1 ≤ j → j ≠ k.current → (k.ctx j).state ≠ .ready)
    (hwait : isWait = true ↔ ∃ j, 1 ≤ j ∧ j ≠ k.current ∧ (k.ctx j).state = .waiting) :
    Picked type k (fallback type k.current isWait)

theorem pickNextContext_eq (type : PickType) (k : Kernel) : pickNextContext type k =
    match scan k.ctx (scanned k.current) false with
    | .error i => some i
    | .ok isWait => fallback type k.current isWait := by
  rw [pickNextContext, scanned, scan_append]
  cases scan k.ctx (pidsAbove k.current) false <;> rfl

theorem picked (type : PickType) (k : Kernel) : Picked type k (pickNextContext type k) := by
  rw [pickNextContext_eq]
  cases hscan : scan k.ctx (scanned k.current) false with
  | error i =>
    obtain ⟨hmem, hready, hleast⟩ := scan_error (scanned_pairwise k.current) hscan
    obtain ⟨hpos, hne⟩ := mem_scanned.mp hmem
    exact .ready i hpos hne hready fun j hj hjne ↦ hleast j (mem_scanned.mpr ⟨hj, hjne⟩)
  | ok isWait =>
    obtain ⟨hnone, hwait⟩ := scan_ok hscan
    refine .fallback isWait (fun j hj hjne ↦ hnone j (mem_scanned.mpr ⟨hj, hjne⟩)) ?_
    simpa [mem_scanned, and_assoc] using hwait

/-! ### The state before the pick -/

/-- What is left of the alarm of the init process after one tick. -/
def alarmLeft (init : ExecContext) : ℕ :=
  if init.ticksToAlarm = 1 then init.alarmConfigTime else init.ticksToAlarm - 1

/-- A context after the accounting of one tick. -/
def ticked (k : Kernel) (i : Fin 16) : ExecContext :=
  { k.ctx i with
    state :=
      if i = k.current then .ready
      else if (k.ctx i).ticksToSleep = 1 then .ready
      else (k.ctx i).state
    ticksToSleep := (k.ctx i).ticksToSleep - 1
    ticksToAlarm := if i = 1 then alarmLeft (k.ctx 1) else (k.ctx i).ticksToAlarm }

section Accounting

variable (k : Kernel) (ustackp urip : BitVec 64) (i : Fin 16) (user : UserRegs) (sp locals : ℕ)

theorem invokeSyncSignal_alrm : ∃ ustackp' urip' userMem,
    invokeSyncSignal .alrm ustackp urip k = some (ustackp', urip',
      { k with signals := k.signals + 1, userMem := userMem }) := by
  unfold invokeSyncSignal
  by_cases hhandler : (k.ctx k.current).sighandlers .alrm = 0
  · exact ⟨_, _, _, by simp only [if_pos hhandler]; rfl⟩
  · exact ⟨_, _, _, by simp only [if_neg hhandler]; rfl⟩

/-- A context after the alarm part. -/
def alarmed : ExecContext :=
  { k.ctx i with
    ticksToAlarm := if i = 1 then alarmLeft (k.ctx 1) else (k.ctx i).ticksToAlarm }

theorem alarmed_eq :
    alarmed k = Function.update k.ctx 1 { k.ctx 1 with ticksToAlarm := alarmLeft (k.ctx 1) } := by
  funext i
  by_cases hi : i = 1
  · subst hi
    rw [Function.update_self, alarmed, if_pos rfl]
  · rw [Function.update_of_ne hi, alarmed, if_neg hi]

/-- The alarm part counts the alarm of the init process down and raises at most one signal. -/
theorem alarmTick_spec : ∃ ustackp' urip' userMem,
    alarmTick ustackp urip k = (ustackp', urip',
      { k with
        ctx := alarmed k
        signals := k.signals + if (k.ctx 1).ticksToAlarm = 1 then 1 else 0
        userMem := userMem }) := by
  rw [alarmed_eq]
  unfold alarmTick alarmLeft
  by_cases hone : (k.ctx 1).ticksToAlarm = 1
  · obtain ⟨ustackp', urip', userMem, h⟩ := invokeSyncSignal_alrm
      (k.setCtx 1 { k.ctx 1 with ticksToAlarm := (k.ctx 1).alarmConfigTime }) ustackp urip
    refine ⟨ustackp', urip', userMem, ?_⟩
    simp only [hone, le_refl, if_true, Nat.sub_self]
    rw [h]
    rfl
  · refine ⟨ustackp, urip, k.userMem, ?_⟩
    simp only [if_neg hone]
    split_ifs with hpos hzero
    · omega
    · rfl
    · rw [show (k.ctx 1).ticksToAlarm - 1 = (k.ctx 1).ticksToAlarm by omega,
        Function.update_eq_self]
      rfl

/-- A context after one turn of the loop that wakes sleepers. -/
def wakened (c : ExecContext) : ExecContext :=
  { c with
    state := if c.ticksToSleep = 1 then .ready else c.state
    ticksToSleep := c.ticksToSleep - 1 }

theorem wakeOne_eq : wakeOne k i = k.setCtx i (wakened (k.ctx i)) := by
  unfold wakeOne wakened
  by_cases hone : (k.ctx i).ticksToSleep = 1
  · simp only [hone, le_refl, if_true, Nat.sub_self]
  · simp only [if_neg hone]
    split_ifs with hpos hzero
    · omega
    · rfl
    · rw [show (k.ctx i).ticksToSleep - 1 = (k.ctx i).ticksToSleep by omega, Kernel.setCtx,
        Function.update_eq_self]

theorem wake_loop (l : List (Fin 16)) (hl : l.Nodup) : l.foldl wakeOne k =
    { k with ctx := fun i ↦ if i ∈ l then wakened (k.ctx i) else k.ctx i } := by
  induction l generalizing k with
  | nil => rfl
  | cons j rest ih =>
    obtain ⟨hj, hrest⟩ := List.nodup_cons.mp hl
    rw [List.foldl_cons, ih _ hrest, wakeOne_eq, Kernel.setCtx]
    congr 1
    funext i
    by_cases hij : i = j
    · subst hij
      simp [hj]
    · simp [hij]

/-- The whole loop over the contexts. -/
theorem wake_all : (List.finRange 16).foldl wakeOne k =
    { k with ctx := fun i ↦ wakened (k.ctx i) } := by
  rw [wake_loop k _ (List.nodup_finRange 16)]
  simp only [List.mem_finRange, if_true]

/-- The words of the handler's stack page at the pick. -/
def tickStack : Stack :=
  let st := pushRegisters user (sp + 6 + locals) (interruptFrame user sp k.stack)
  let alarm := alarmTick (above st (sp + 5) 4) (above st (sp + 5) 1)
    { k with numticks := k.numticks + 1 }
  Function.update (Function.update st (sp + 4) alarm.2.1) (sp + 1) alarm.1

/-- One tick up to its pick. -/
theorem accountTick_spec : ∃ userMem, accountTick user sp locals k =
    { k with
      ctx := ticked k
      numticks := k.numticks + 1
      osMem := Function.update k.osMem (k.ctx k.current).osStackPfn (tickStack k user sp locals)
      signals := k.signals + if (k.ctx 1).ticksToAlarm = 1 then 1 else 0
      userMem := userMem } := by
  obtain ⟨ustackp, urip, userMem, halarm⟩ := alarmTick_spec
    { k with numticks := k.numticks + 1 }
    (above (pushRegisters user (sp + 6 + locals) (interruptFrame user sp k.stack)) (sp + 5) 4)
    (above (pushRegisters user (sp + 6 + locals) (interruptFrame user sp k.stack)) (sp + 5) 1)
  have hctx : ticked k = Function.update (fun i ↦ wakened (alarmed k i)) k.current
      { wakened (alarmed k k.current) with state := .ready } := by
    funext i
    by_cases hi : i = k.current
    · rw [hi, Function.update_self]
      simp only [ticked, wakened, alarmed, if_true]
    · rw [Function.update_of_ne hi]
      simp only [ticked, wakened, alarmed, if_neg hi]
      rfl
  refine ⟨userMem, ?_⟩
  rw [hctx]
  simp only [accountTick, tickStack, show sp + 5 + 1 + locals = sp + 6 + locals by omega]
  rw [halarm, wake_all]
  rfl

end Accounting

/-! ### Picking and switching -/

variable {e : Event} {k b k' : Kernel} {type : PickType} {new : Fin 16}

/-- The pick an event makes and the kernel it makes it in. -/
def beforePick : Event → Kernel → Option (PickType × Kernel)
  | .tick user sp locals, k => some (.timer, accountTick user sp locals k)
  | .sleep ticks frame _, k => some (.sleeping, beforeSleep ticks frame k)
  | .exit frame _, k => some (.doExit, beforeExit frame k)
  | .clone .., _ => none
  | .signal .., _ => none
  | .alarm .., _ => none

/-- What the rest of an event does to the kernel of its pick: the picked context is `RUNNING` and
the current one. Registers are saved on leaving through a tick only. -/
structure Dispatched (new : Fin 16) (b k' : Kernel) : Prop where
  current : k'.current = new
  ctx : ∀ i, k'.ctx i = { b.ctx i with
    state := if i = new then .running else (b.ctx i).state
    regs := (k'.ctx i).regs }
  regs : ∀ i, i ≠ b.current → (k'.ctx i).regs = (b.ctx i).regs
  signals : k'.signals = b.signals
  numticks : k'.numticks = b.numticks

theorem dispatched_of_ctx (regs : Fin 16 → UserRegs) (hcurrent : k'.current = new)
    (hctx : ∀ i, k'.ctx i =
      { b.ctx i with state := if i = new then .running else (b.ctx i).state, regs := regs i })
    (hregs : ∀ i, i ≠ b.current → regs i = (b.ctx i).regs) (hsignals : k'.signals = b.signals)
    (hnumticks : k'.numticks = b.numticks) : Dispatched new b k' where
  current := hcurrent
  ctx := fun i ↦ by rw [hctx i]
  regs := fun i hi ↦ by rw [hctx i, hregs i hi]
  signals := hsignals
  numticks := hnumticks

theorem dispatched_setState (hcurrent : k'.current = new)
    (hctx : k'.ctx = (b.setState new .running).ctx) (hsignals : k'.signals = b.signals)
    (hnumticks : k'.numticks = b.numticks) : Dispatched new b k' :=
  dispatched_of_ctx _ hcurrent (fun i ↦ by rw [hctx, Kernel.setState_ctx]) (fun _ _ ↦ rfl) hsignals
    hnumticks

theorem endTick_of_ne (rbp saveRsp : ℕ) (hnew : new ≠ b.current) : endTick rbp saveRsp new b =
    switchTo new rbp
      ((b.setState new .running).setRegs b.current (saveContext b.stack rbp saveRsp)) :=
  if_pos hnew

theorem endTick_of_eq (rbp saveRsp : ℕ) (hnew : new = b.current) :
    endTick rbp saveRsp new b = (saveContext b.stack rbp saveRsp, b.setState new .running) :=
  if_neg (not_not.mpr hnew)

theorem switchTo_ctx (rbp : ℕ) (k : Kernel) : (switchTo new rbp k).2.ctx = k.ctx := rfl

theorem endTick_dispatches (rbp saveRsp : ℕ) :
    Dispatched new b (endTick rbp saveRsp new b).2 := by
  by_cases hnew : new = b.current
  · rw [endTick_of_eq rbp saveRsp hnew]
    exact dispatched_setState hnew.symm rfl rfl rfl
  · rw [endTick_of_ne rbp saveRsp hnew]
    refine dispatched_of_ctx
      (fun i ↦ if i = b.current then saveContext b.stack rbp saveRsp else (b.ctx i).regs) rfl
      (fun i ↦ ?_) (fun i hi ↦ if_neg hi) rfl rfl
    rw [switchTo_ctx, Kernel.setRegs_ctx, Kernel.setState_ctx]

/-- How an event goes on after its pick. -/
def afterPick : Event → Fin 16 → Kernel → UserRegs × Kernel
  | .tick _ sp locals => endTick (sp + 5) (sp + 19 + locals)
  | .sleep _ _ sp => endSleep (sp + 5)
  | .exit _ sp => endExit (sp + 5)
  | _ => fun _ k ↦ (fun _ ↦ 0, k)

theorem step_eq_dispatch (h : beforePick e k = some (type, b)) :
    step e k = (dispatch type (afterPick e) b).map fun (regs, k) ↦ (some regs, k) := by
  cases e <;> cases h <;> rfl

theorem afterPick_dispatches (h : beforePick e k = some (type, b)) :
    Dispatched new b (afterPick e new b).2 := by
  cases e <;> cases h
  · exact endTick_dispatches _ _
  · exact dispatched_setState rfl rfl rfl rfl
  · exact dispatched_setState rfl rfl rfl rfl

theorem step_of_pick (h : beforePick e k = some (type, b))
    (hnew : pickNextContext type b = some new) :
    step e k = .ok (some (afterPick e new b).1, (afterPick e new b).2) := by
  rw [step_eq_dispatch h, dispatch, hnew]
  rfl

/-- A pick whose event goes on goes on with what was picked. -/
theorem step_ok {reply : Option UserRegs} (h : beforePick e k = some (type, b))
    (hstep : step e k = .ok (reply, k')) : ∃ new, pickNextContext type b = some new ∧
      reply = some (afterPick e new b).1 ∧ k' = (afterPick e new b).2 := by
  rw [step_eq_dispatch h, dispatch] at hstep
  cases hpick : pickNextContext type b with
  | none =>
    rw [hpick] at hstep
    cases hstep
  | some new =>
    rw [hpick] at hstep
    cases hstep
    exact ⟨new, rfl, rfl, rfl⟩

/-- An event that picks either shuts down, and then its pick found nothing, or dispatches what it
picked. -/
theorem step_dispatches (h : beforePick e k = some (type, b)) :
    (pickNextContext type b = none ∧ step e k = .error .cleanup) ∨
      ∃ new reply k', pickNextContext type b = some new ∧ step e k = .ok (reply, k') ∧
        Dispatched new b k' := by
  rw [step_eq_dispatch h, dispatch]
  cases hpick : pickNextContext type b with
  | none => exact .inl ⟨rfl, rfl⟩
  | some new => exact .inr ⟨new, _, _, rfl, rfl, afterPick_dispatches h⟩

end OsAssignments.Scheduler
