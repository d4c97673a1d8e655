import OsAssignments.Library.Countdown
import OsAssignments.Scheduler.Shutdown

/-!
# Tick accounting is exact

The alarm of the init process is a periodic countdown (`alarm`): a tick is one tick of the
countdown, and every other event leaves it alone, unless it sets the alarm of init or reuses slot 1
(`alarm_step`). So an alarm of `n` ticks raises its signals at the multiples of `n`.

A sleeper is never the current context, and no pick returns it while it waits, so its counter falls
by one at each tick and it wakes when the counter runs out (`sleeper_step`). `ticks_exact` states
both over any run; the ticks that have passed are read off `numticks`. It speaks of processes: the
swapper is switched in again at once when it asks to sleep (`swapper_does_not_sleep`).
-/

set_option autoImplicit false
set_option relaxedAutoImplicit false

namespace OsAssignments.Scheduler

open OsAssignments.Library

variable {e : Event} {k b k' : Kernel} {type : PickType} {new i p : Fin 16}
  {reply : Option UserRegs}

/-! ### The alarm of the init process -/

/-- The alarm of the init process, with the signals raised so far. -/
def alarm (k : Kernel) : Countdown where
  left := (k.ctx 1).ticksToAlarm
  period := (k.ctx 1).alarmConfigTime
  fired := k.signals

theorem alarm_fired : (alarm k).fired = k.signals := rfl

/-- The number of ticks of an event. -/
def Event.ticks : Event → ℕ
  | .tick .. => 1
  | _ => 0

/-- The event does not set the alarm of init, and does not reuse its slot. -/
def Event.KeepsAlarm : Event → Kernel → Prop
  | .alarm _, k => k.current ≠ 1
  | .clone new _ _ _, _ => new ≠ 1
  | _, _ => True

theorem accountTick_alarm (user : UserRegs) (sp locals : ℕ) (k : Kernel) :
    alarm (accountTick user sp locals k) = (alarm k).tick := by
  obtain ⟨userMem, heq⟩ := accountTick_spec k user sp locals
  rw [heq]
  rfl

theorem beforePick_alarm (h : beforePick e k = some (type, b)) :
    alarm b = Countdown.tick^[e.ticks] (alarm k) := by
  cases e <;> cases h
  · exact accountTick_alarm _ _ _ k
  · simp only [alarm, beforeSleep, Kernel.setCtx_ctx, Function.update_apply]
    split_ifs with hcurr
    · rw [hcurr]
      rfl
    · rfl
  · simp only [alarm, beforeExit, Kernel.setState_ctx]
    rfl

theorem beforePick_numticks (h : beforePick e k = some (type, b)) :
    b.numticks = k.numticks + e.ticks := by
  cases e <;> cases h
  · rename_i user sp locals
    obtain ⟨userMem, heq⟩ := accountTick_spec k user sp locals
    rw [heq]
    rfl
  · rfl
  · rfl

/-- The clock counts the ticks. -/
theorem step_numticks (hstep : step e k = .ok (reply, k')) :
    k'.numticks = k.numticks + e.ticks := by
  cases hpick : beforePick e k with
  | none => cases e <;> cases hpick <;> cases hstep <;> rfl
  | some p =>
    obtain ⟨type, b⟩ := p
    rcases step_dispatches hpick with ⟨-, hhalt⟩ | ⟨new, reply', k'', -, hok, hd⟩
    · rw [hhalt] at hstep
      cases hstep
    · rw [hok] at hstep
      cases hstep
      exact hd.numticks.trans (beforePick_numticks hpick)

theorem Dispatched.alarm (hd : Dispatched new b k') : alarm k' = alarm b := by
  unfold Scheduler.alarm
  rw [hd.ctx 1, hd.signals]

/-- One event on the alarm of init. -/
theorem alarm_step (hkeeps : e.KeepsAlarm k) (hstep : step e k = .ok (reply, k')) :
    alarm k' = Countdown.tick^[e.ticks] (alarm k) := by
  cases hpick : beforePick e k with
  | none =>
    cases e <;> cases hpick <;> cases hstep
    · simp only [alarm, doClone, Kernel.setCtx_ctx, Function.update_of_ne (Ne.symm hkeeps)]
      rfl
    · simp only [alarm, doSignal, Kernel.setCtx_ctx, Function.update_apply]
      split_ifs with hcurr
      · rw [hcurr]
        rfl
      · rfl
    · simp only [alarm, doAlarm, Kernel.setCtx_ctx, Function.update_of_ne (Ne.symm hkeeps)]
      rfl
  | some p =>
    obtain ⟨type, b⟩ := p
    rcases step_dispatches hpick with ⟨-, hhalt⟩ | ⟨new, reply', k'', -, hok, hd⟩
    · rw [hhalt] at hstep
      cases hstep
    · rw [hok] at hstep
      cases hstep
      exact hd.alarm.trans (beforePick_alarm hpick)

/-- The alarm of init over a run is its countdown, ticked as often as the clock. -/
theorem alarm_run {ok : Event → Kernel → Prop} (hok : ∀ e k, ok e k → e.KeepsAlarm k)
    (h : Reaches step ok k k') :
    ∃ m, alarm k' = Countdown.tick^[m] (alarm k) ∧ k'.numticks = k.numticks + m := by
  induction h with
  | refl => exact ⟨0, rfl, rfl⟩
  | tail _ hlast ih =>
    obtain ⟨m, halarm, hnumticks⟩ := ih
    obtain ⟨e, reply, he, hstep⟩ := hlast
    have hclock := step_numticks hstep
    refine ⟨e.ticks + m, ?_, by omega⟩
    rw [alarm_step (hok e _ he) hstep, halarm, Function.iterate_add_apply]

theorem alarm_doAlarm (n : ℕ) (hinit : k.current = 1) :
    alarm (doAlarm n k) = ⟨n, n, k.signals⟩ := by
  simp only [alarm, doAlarm, hinit, Kernel.setCtx_ctx, Function.update_self]
  rfl

/-! ### Sleepers -/

/-- A process that waits, with `t` ticks left to sleep. -/
def SleepsOn (p : Fin 16) (t : ℕ) (k : Kernel) : Prop :=
  (k.ctx p).state = .waiting ∧ (k.ctx p).ticksToSleep = t

/-- No pick returns a waiting process. -/
theorem waiting_not_picked (hp : p ≠ 0) (hcurr : type = .timer → p ≠ b.current)
    (hwaiting : (b.ctx p).state = .waiting) (hnew : pickNextContext type b = some new) :
    p ≠ new := by
  rintro rfl
  have hpicked := picked type b
  rw [hnew] at hpicked
  generalize hresult : some p = result at hpicked
  cases hpicked with
  | ready i _ _ hready _ =>
    cases hresult
    rw [hwaiting] at hready
    cases hready
  | fallback isWait _ _ =>
    cases type <;> rw [fallback] at hresult
    · split_ifs at hresult
      · exact hcurr rfl (Option.some.inj hresult)
      · exact hp (Option.some.inj hresult)
    · exact hp (Option.some.inj hresult)
    · split_ifs at hresult
      exact hp (Option.some.inj hresult)

theorem OneRunning.ne_current (hone : OneRunning k) (hwaiting : (k.ctx p).state = .waiting) :
    p ≠ k.current := by
  intro heq
  rw [(hone p).mpr heq] at hwaiting
  cases hwaiting

/-- A sleeper with more ticks left than an event counts sleeps on. -/
theorem sleeper_step {t : ℕ} (hone : OneRunning k) (hlegal : e.Legal k) (hp : p ≠ 0)
    (hsleeps : SleepsOn p t k) (ht : e.ticks < t) (hstep : step e k = .ok (reply, k')) :
    SleepsOn p (t - e.ticks) k' := by
  obtain ⟨hwaiting, hticks⟩ := hsleeps
  have hcurr := hone.ne_current hwaiting
  cases hpick : beforePick e k with
  | none =>
    have hstate : (k'.ctx p).state = .waiting := by
      rcases (step_quiet hpick hlegal hstep).2 p with hsame | ⟨hunused, -⟩
      · rw [hsame, hwaiting]
      · rw [hwaiting] at hunused
        cases hunused
    refine ⟨hstate, ?_⟩
    rcases step_quiet_ticksToSleep hpick hstep p with hsame | ⟨-, pfn, thFunc, userStack, rfl⟩
    · rw [hsame, hticks]
      cases e <;> cases hpick <;> rfl
    · have hunused : (k.ctx p).state = .unused := hlegal
      rw [hwaiting] at hunused
      cases hunused
  | some pick =>
    obtain ⟨type, b⟩ := pick
    have hleft : (b.ctx p).ticksToSleep = t - e.ticks := by
      rw [beforePick_ticksToSleep hpick]
      cases e <;> cases hpick
      · rw [sleepLeft, hticks]; rfl
      · rw [sleepLeft, if_neg hcurr, hticks]; rfl
      · rw [sleepLeft, hticks]; rfl
    have hstate : (b.ctx p).state = .waiting := by
      cases e <;> cases hpick
      · rename_i user sp locals
        obtain ⟨userMem, heq⟩ := accountTick_spec k user sp locals
        rw [heq]
        simp only [Event.ticks] at ht
        simp only [ticked, if_neg hcurr, show (k.ctx p).ticksToSleep ≠ 1 by omega, if_false]
        exact hwaiting
      · simp only [beforeSleep, Kernel.setCtx_ctx, Function.update_of_ne hcurr]
        exact hwaiting
      · simp only [beforeExit, Kernel.setState_ctx]
        rw [if_neg hcurr]
        exact hwaiting
    rcases step_dispatches hpick with ⟨-, hhalt⟩ | ⟨new, reply', k'', hnew, hok, hd⟩
    · rw [hhalt] at hstep
      cases hstep
    · rw [hok] at hstep
      cases hstep
      have hne := waiting_not_picked hp (fun _ ↦ beforePick_current hpick ▸ hcurr) hstate
        hnew
      exact ⟨by rw [hd.state, if_neg hne, hstate], by rw [hd.ticksToSleep, hleft]⟩

/-- A process that asks to sleep sleeps. -/
theorem sleeps_after_doSleep {n rbp : ℕ} {frame : Stack} (hp : k.current ≠ 0)
    (hstep : step (.sleep n frame rbp) k = .ok (reply, k')) : SleepsOn k.current n k' := by
  have hpick : beforePick (.sleep n frame rbp) k = some (.sleeping, beforeSleep n frame k) := rfl
  have hwaiting := beforePick_state_current hpick
  have hleft := beforePick_ticksToSleep hpick k.current
  rw [sleepLeft, if_pos rfl] at hleft
  rcases step_dispatches hpick with ⟨-, hhalt⟩ | ⟨new, reply', k'', hnew, hok, hd⟩
  · rw [hhalt] at hstep
    cases hstep
  · rw [hok] at hstep
    cases hstep
    have hne := waiting_not_picked hp (fun htimer ↦ by cases htimer) hwaiting hnew
    exact ⟨by rw [hd.state, if_neg hne, hwaiting]; rfl, by rw [hd.ticksToSleep, hleft]⟩

/-- A sleeper over a run that counts fewer ticks than it has left. -/
theorem sleeper_run {t : ℕ} (hone : OneRunning k) (hp : p ≠ 0) (hsleeps : SleepsOn p t k)
    (h : Reaches step Event.Legal k k') (ht : k'.numticks < k.numticks + t) :
    SleepsOn p (k.numticks + t - k'.numticks) k' := by
  induction h with
  | refl =>
    rw [Nat.add_sub_cancel_left]
    exact hsleeps
  | tail hrun hlast ih =>
    obtain ⟨e, reply, hlegal, hstep⟩ := hlast
    have hclock := step_numticks hstep
    have hstep' := sleeper_step (oneRunning_run (fun _ _ h ↦ h) hrun hone) hlegal hp
      (ih (by omega)) (by omega) hstep
    rw [hclock, ← Nat.sub_sub]
    exact hstep'

/-- A sleeper with one tick left is `READY` or dispatched after the next tick. -/
theorem sleeper_wakes (hone : OneRunning k) (hp : p ≠ 0) (hsleeps : SleepsOn p 1 k)
    (user : UserRegs) (sp locals : ℕ) : ∃ reply k',
      step (.tick user sp locals) k = .ok (reply, k') ∧
        ((k'.ctx p).state = .ready ∨ (k'.ctx p).state = .running ∧ k'.current = p) := by
  obtain ⟨hwaiting, hticks⟩ := hsleeps
  have hpick : beforePick (.tick user sp locals) k = some (.timer, accountTick user sp locals k) :=
    rfl
  have hcurr : p ≠ (accountTick user sp locals k).current := by
    rw [beforePick_current hpick]
    exact hone.ne_current hwaiting
  have hready : ((accountTick user sp locals k).ctx p).state = .ready := by
    obtain ⟨userMem, heq⟩ := accountTick_spec k user sp locals
    rw [heq]
    simp only [ticked, hticks, if_true, ite_self]
  rcases step_dispatches hpick with ⟨hnone, -⟩ | ⟨new, reply, k', -, hok, hd⟩
  · have hpicked := picked .timer (accountTick user sp locals k)
    rw [hnone] at hpicked
    generalize hresult : none = result at hpicked
    cases hpicked with
    | ready => cases hresult
    | fallback isWait hnotReady _ => exact absurd hready (hnotReady p (by omega) hcurr)
  · refine ⟨reply, k', hok, ?_⟩
    rw [hd.state, hd.current]
    split_ifs with hnew
    · exact .inr ⟨rfl, hnew.symm⟩
    · exact .inl hready

/-- In every run a process that sleeps `n` ticks waits until the `n`-th tick and wakes at it, and an
alarm of `n` ticks raises its signals at the multiples of `n`. -/
theorem ticks_exact (k₀ k : Kernel) (hone : OneRunning k₀)
    (hrun : Reaches step Event.Legal k₀ k) :
    (∀ n frame rbp reply k₁, 1 ≤ n → k.current ≠ 0 →
      step (.sleep n frame rbp) k = .ok (reply, k₁) →
      ∀ k', Reaches step Event.Legal k₁ k' →
        (k'.numticks < k₁.numticks + n → (k'.ctx k.current).state = .waiting) ∧
        (k'.numticks + 1 = k₁.numticks + n → ∀ user sp locals, ∃ reply k'',
          step (.tick user sp locals) k' = .ok (reply, k'') ∧
            ((k''.ctx k.current).state = .ready ∨
              (k''.ctx k.current).state = .running ∧ k''.current = k.current))) ∧
    (k.current = 1 → ∀ n reply k₁, step (.alarm n) k = .ok (reply, k₁) →
      ∀ k', Reaches step (fun e k ↦ e.Legal k ∧ e.KeepsAlarm k) k₁ k' →
        k'.signals = k₁.signals + (k'.numticks - k₁.numticks) / n ∧
        ∀ user sp locals, (accountTick user sp locals k').signals =
          k'.signals + if n ∣ k'.numticks - k₁.numticks + 1 then 1 else 0) := by
  have hone' := oneRunning_run (fun _ _ h ↦ h) hrun hone
  refine ⟨fun n frame rbp reply k₁ hn hcurr hsleep k' hrun' ↦ ?_,
    fun hinit n reply k₁ halarm k' hrun' ↦ ?_⟩
  · have hone₁ := oneRunning_step (e := .sleep n frame rbp) hone' trivial hsleep
    have hsleeps := sleeps_after_doSleep hcurr hsleep
    refine ⟨fun hbefore ↦ (sleeper_run hone₁ hcurr hsleeps hrun' hbefore).1, fun hat ↦ ?_⟩
    have hlast := sleeper_run hone₁ hcurr hsleeps hrun' (by omega)
    rw [← hat, Nat.add_sub_cancel_left] at hlast
    exact sleeper_wakes (oneRunning_run (fun _ _ h ↦ h) hrun' hone₁) hcurr hlast
  · cases halarm
    obtain ⟨m, hcount, hclock⟩ := alarm_run (fun _ _ h ↦ h.2) hrun'
    have hset := alarm_doAlarm n hinit
    have hfresh : (alarm (doAlarm n k)).Fresh := by
      rw [hset]
      rfl
    have hperiod : (alarm (doAlarm n k)).period = n := by rw [hset]
    rw [hclock, Nat.add_sub_cancel_left]
    refine ⟨?_, fun user sp locals ↦ ?_⟩
    · have hfired := Countdown.fired_iterate (m := m) hfresh
      rw [← hcount, hperiod, alarm_fired, alarm_fired] at hfired
      exact hfired
    · have htick := congrArg Countdown.fired (accountTick_alarm user sp locals k')
      have hfires := Countdown.fires_iff (m := m) hfresh
      rw [← hcount, hperiod] at hfires
      rw [alarm_fired, Countdown.tick, alarm_fired] at htick
      rw [htick]
      simp only [hfires]

/-- Process 2 runs and the init process is ready. -/
def twoProcesses : Kernel :=
  zeroKernel (fun i ↦ zeroContext (if i = 2 then .running else if i = 1 then .ready else .unused)) 2

/-- Process 2 sleeps for one tick, and wakes at it. -/
theorem ticks_exact_two : ∃ reply k, step (.sleep 1 (fun _ ↦ 0) 5) twoProcesses = .ok (reply, k) ∧
    (k.ctx 2).state = .waiting ∧ ∃ reply' k',
      step (.tick (fun _ ↦ 0) 0 0) k = .ok (reply', k') ∧
        ((k'.ctx 2).state = .ready ∨ (k'.ctx 2).state = .running ∧ k'.current = 2) := by
  have hone : OneRunning twoProcesses := by
    intro i
    revert i
    decide
  have hpick : pickNextContext .sleeping (beforeSleep 1 (fun _ ↦ 0) twoProcesses) = some 1 := by
    decide
  rcases step_dispatches (e := .sleep 1 (fun _ ↦ 0) 5) (k := twoProcesses) rfl with
    ⟨hnone, -⟩ | ⟨new, reply, k, -, hstep, -⟩
  · rw [hpick] at hnone
    cases hnone
  · obtain ⟨hbefore, hat⟩ := (ticks_exact twoProcesses twoProcesses hone (Reaches.refl _ _ _)).1 1
      _ _ reply k le_rfl (by decide) hstep k (Reaches.refl _ _ _)
    exact ⟨reply, k, hstep, hbefore (Nat.lt_succ_self _), hat rfl _ _ _⟩

/-- The swapper runs, and there is no process. -/
def swapperOnly : Kernel :=
  zeroKernel (fun i ↦ zeroContext (if i = 0 then .running else .unused)) 0

/-- The swapper does not sleep: asking for a tick it is switched in again at once. -/
theorem swapper_does_not_sleep : OneRunning swapperOnly ∧
    (∀ i, (swapperOnly.ctx i).ticksToSleep = 0) ∧
    ∃ reply k, step (.sleep 1 (fun _ ↦ 0) 5) swapperOnly = .ok (reply, k) ∧
      (k.ctx swapperOnly.current).state ≠ .waiting := by
  have hone : OneRunning swapperOnly := by
    intro i
    revert i
    decide
  have hpick : pickNextContext .sleeping (beforeSleep 1 (fun _ ↦ 0) swapperOnly) = some 0 := by
    decide
  refine ⟨hone, fun i ↦ rfl, ?_⟩
  rcases step_dispatches (e := .sleep 1 (fun _ ↦ 0) 5) (k := swapperOnly) rfl with
    ⟨hnone, -⟩ | ⟨new, reply, k, hnew, hstep, hd⟩
  · rw [hpick] at hnone
    cases hnone
  · rw [hpick] at hnew
    cases hnew
    refine ⟨reply, k, hstep, ?_⟩
    rw [hd.state]
    decide

end OsAssignments.Scheduler
