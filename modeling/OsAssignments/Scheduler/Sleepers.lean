import OsAssignments.Scheduler.Ticks

/-!
# No sleeper is lost

`do_sleep` sets the state of a context and its counter, and the tick handler wakes a context when
its counter runs out. The two are linked as long as no process asks to sleep zero ticks: then every
`WAITING` context has ticks left, and while it waits each tick takes one of them
(`no_sleeper_lost`). After `do_sleep(0)` the counter is zero already, and the handler skips it
(`zero_sleeper_lost`).
-/

set_option autoImplicit false
set_option relaxedAutoImplicit false

namespace OsAssignments.Scheduler

open OsAssignments.Library

variable {e : Event} {k b k' : Kernel} {type : PickType} {new i : Fin 16}
  {reply : Option UserRegs}

/-- A process that asks to sleep asks for at least one tick. -/
def Event.SleepsPositive : Event → Prop
  | .sleep ticks _ _ => 1 ≤ ticks
  | _ => True

/-- The current context does not wait. -/
def CurrentAwake (k : Kernel) : Prop := (k.ctx k.current).state ≠ .waiting

/-- An event without a pick keeps the current context, and what waits after it waited before. -/
theorem quiet_waiting (hquiet : beforePick e k = none) (hstep : step e k = .ok (reply, k')) :
    k'.current = k.current ∧ ((k'.ctx i).state = .waiting →
      (k.ctx i).state = .waiting ∧ (k'.ctx i).ticksToSleep = (k.ctx i).ticksToSleep) := by
  cases e <;> cases hquiet <;> cases hstep <;> refine ⟨rfl, fun hwaiting ↦ ?_⟩
  · rename_i new pfn thFunc userStack
    rw [doClone, Kernel.setCtx_ctx] at hwaiting ⊢
    by_cases hi : i = new
    · rw [hi, Function.update_self] at hwaiting
      cases hwaiting
    · rw [Function.update_of_ne hi] at hwaiting ⊢
      exact ⟨hwaiting, rfl⟩
  all_goals
    first | rw [doSignal, Kernel.setCtx_ctx] at hwaiting ⊢
          | rw [doAlarm, Kernel.setCtx_ctx] at hwaiting ⊢
    by_cases hi : i = k.current
    · subst hi
      rw [Function.update_self] at hwaiting ⊢
      exact ⟨hwaiting, rfl⟩
    · rw [Function.update_of_ne hi] at hwaiting ⊢
      exact ⟨hwaiting, rfl⟩

theorem currentAwake_step (h : CurrentAwake k) (hstep : step e k = .ok (reply, k')) :
    CurrentAwake k' := by
  cases hpick : beforePick e k with
  | none =>
    obtain ⟨hcurrent, hwaiting⟩ := quiet_waiting (i := k.current) hpick hstep
    rw [CurrentAwake, hcurrent]
    exact fun hnow ↦ h (hwaiting hnow).1
  | some pick =>
    obtain ⟨type, b⟩ := pick
    obtain ⟨new, hnew, -, rfl⟩ := step_ok hpick hstep
    have hd : Dispatched new b (afterPick e new b).2 := afterPick_dispatches hpick
    rw [CurrentAwake, hd.current, hd.state, if_pos rfl]
    simp

/-- A context that waits when an event makes its pick is the one that goes to sleep, or it waited
before and has ticks left. -/
theorem beforePick_waiting (hpos : (k.ctx i).state = .waiting → 1 ≤ (k.ctx i).ticksToSleep)
    (hpick : beforePick e k = some (type, b)) (hwaiting : (b.ctx i).state = .waiting) :
    (i = k.current ∧ ∃ n frame sp, e = .sleep n frame sp ∧ (b.ctx i).ticksToSleep = n) ∨
      (k.ctx i).state = .waiting ∧ 1 ≤ (b.ctx i).ticksToSleep ∧
        (b.ctx i).ticksToSleep + e.ticks = (k.ctx i).ticksToSleep := by
  have hleft := beforePick_ticksToSleep hpick i
  by_cases hi : i = k.current
  · rw [hi, beforePick_state_current hpick] at hwaiting
    cases e <;> cases hpick
    · cases hwaiting
    · exact .inl ⟨hi, _, _, _, rfl, hleft.trans (if_pos hi)⟩
    · cases hwaiting
  · refine .inr ?_
    cases e <;> cases hpick
    · rename_i user sp locals
      have hstate : ((accountTick user sp locals k).ctx i).state =
          if (k.ctx i).ticksToSleep = 1 then .ready else (k.ctx i).state := by
        obtain ⟨userMem, heq⟩ := accountTick_spec k user sp locals
        rw [heq]
        exact if_neg hi
      rw [hstate] at hwaiting
      split_ifs at hwaiting with hone
      have hle := hpos hwaiting
      rw [hleft, sleepLeft]
      refine ⟨hwaiting, by omega, ?_⟩
      rw [Event.ticks]
      omega
    · rw [sleepLeft, if_neg hi] at hleft
      simp only [beforeSleep, Kernel.setCtx_ctx, Function.update_of_ne hi] at hwaiting
      exact ⟨hwaiting, hleft ▸ hpos hwaiting, hleft⟩
    · simp only [beforeExit, Kernel.setState_ctx, if_neg hi] at hwaiting
      exact ⟨hwaiting, hleft ▸ hpos hwaiting, hleft⟩

/-- A context that waits after an event has just gone to sleep, or it waited before and each tick
has taken one of its ticks. -/
theorem waiting_step (hpos : (k.ctx i).state = .waiting → 1 ≤ (k.ctx i).ticksToSleep)
    (hstep : step e k = .ok (reply, k')) (hwaiting : (k'.ctx i).state = .waiting) :
    (i = k.current ∧ ∃ n frame sp, e = .sleep n frame sp ∧ (k'.ctx i).ticksToSleep = n) ∨
      (k.ctx i).state = .waiting ∧ 1 ≤ (k'.ctx i).ticksToSleep ∧
        (k'.ctx i).ticksToSleep + e.ticks = (k.ctx i).ticksToSleep := by
  cases hpick : beforePick e k with
  | none =>
    obtain ⟨hbefore, hsame⟩ := (quiet_waiting hpick hstep).2 hwaiting
    have hticks : e.ticks = 0 := by cases e <;> cases hpick <;> rfl
    rw [hsame, hticks]
    exact .inr ⟨hbefore, hpos hbefore, rfl⟩
  | some pick =>
    obtain ⟨type, b⟩ := pick
    obtain ⟨new, hnew, -, rfl⟩ := step_ok hpick hstep
    have hd : Dispatched new b (afterPick e new b).2 := afterPick_dispatches hpick
    rw [hd.state] at hwaiting
    split_ifs at hwaiting
    rw [hd.ticksToSleep]
    exact beforePick_waiting hpos hpick hwaiting

/-! ### Runs -/

/-- Every `WAITING` context has ticks left. -/
def NoneLost (k : Kernel) : Prop :=
  ∀ i, (k.ctx i).state = .waiting → 1 ≤ (k.ctx i).ticksToSleep

theorem noneLost_step (h : NoneLost k) (hsleeps : e.SleepsPositive)
    (hstep : step e k = .ok (reply, k')) : NoneLost k' := by
  intro i hwaiting
  rcases waiting_step (h i) hstep hwaiting with ⟨-, n, frame, sp, rfl, hn⟩ | ⟨-, hpos, -⟩
  · rw [hn]
    exact hsleeps
  · exact hpos

/-- While a context waits, the ticks that pass are taken from its counter. -/
theorem waits_run (hpos : 1 ≤ (k.ctx i).ticksToSleep) (hawake : CurrentAwake k)
    (hrun : Reaches step (fun _ k ↦ (k.ctx i).state = .waiting) k k')
    (hwaiting : (k'.ctx i).state = .waiting) : 1 ≤ (k'.ctx i).ticksToSleep ∧
      k'.numticks + (k'.ctx i).ticksToSleep = k.numticks + (k.ctx i).ticksToSleep := by
  have hawakes : ∀ {k'}, Reaches step (fun _ k ↦ (k.ctx i).state = .waiting) k k' →
      CurrentAwake k' := fun hrun ↦ Reaches.invariant CurrentAwake
    (fun _ _ _ _ hk _ hstep ↦ currentAwake_step hk hstep) hrun hawake
  induction hrun with
  | refl => exact ⟨hpos, rfl⟩
  | tail hbefore hlast ih =>
    obtain ⟨e, reply, hwaited, hstep⟩ := hlast
    obtain ⟨hpos', hsum⟩ := ih hwaited
    rcases waiting_step (fun _ ↦ hpos') hstep hwaiting with ⟨heq, -⟩ | ⟨-, hleft, htaken⟩
    · rw [heq] at hwaited
      exact absurd hwaited (hawakes hbefore)
    · have hclock := step_numticks hstep
      exact ⟨hleft, by omega⟩

/-- In every run without a sleep of zero ticks from a state in which nobody waits, each `WAITING`
context has ticks left, fewer ticks pass while it waits, and the last of them makes it `READY`. -/
theorem no_sleeper_lost (k₀ k : Kernel) (hnone : ∀ i, (k₀.ctx i).state ≠ .waiting)
    (hrun : Reaches step (fun e _ ↦ e.SleepsPositive) k₀ k) (i : Fin 16)
    (hwaiting : (k.ctx i).state = .waiting) :
    1 ≤ (k.ctx i).ticksToSleep ∧
    (∀ k', Reaches step (fun _ k ↦ (k.ctx i).state = .waiting) k k' →
      (k'.ctx i).state = .waiting → k'.numticks < k.numticks + (k.ctx i).ticksToSleep) ∧
    ((k.ctx i).ticksToSleep = 1 → ∀ user sp locals,
      ((accountTick user sp locals k).ctx i).state = .ready) := by
  have hinv : NoneLost k ∧ CurrentAwake k := Reaches.invariant
    (fun k ↦ NoneLost k ∧ CurrentAwake k)
    (fun _ _ _ _ hk he hstep ↦ ⟨noneLost_step hk.1 he hstep, currentAwake_step hk.2 hstep⟩)
    hrun ⟨fun i hi ↦ absurd hi (hnone i), hnone _⟩
  have hpos := hinv.1 i hwaiting
  refine ⟨hpos, fun k' hrun' hwaiting' ↦ ?_, fun hone user sp locals ↦ ?_⟩
  · obtain ⟨hleft, hsum⟩ := waits_run hpos hinv.2 hrun' hwaiting'
    omega
  · obtain ⟨userMem, heq⟩ := accountTick_spec k user sp locals
    rw [heq]
    simp only [ticked, hone, if_true, ite_self]

/-- Process 2 goes to sleep for one tick and has one tick left. -/
theorem no_sleeper_lost_two : ∃ reply k,
    step (.sleep 1 (fun _ ↦ 0) 5) twoProcesses = .ok (reply, k) ∧ (k.ctx 2).state = .waiting ∧
      1 ≤ (k.ctx 2).ticksToSleep := by
  have hnone : ∀ i, (twoProcesses.ctx i).state ≠ .waiting := by decide
  have hpick : pickNextContext .sleeping (beforeSleep 1 (fun _ ↦ 0) twoProcesses) = some 1 := by
    decide
  have hstep := step_of_pick (e := .sleep 1 (fun _ ↦ 0) 5) rfl hpick
  have hsleeps : Event.SleepsPositive (.sleep 1 (fun _ ↦ 0) 5) := le_rfl
  have hwaiting := (sleeps_after_doSleep (by decide) hstep).1
  exact ⟨_, _, hstep, hwaiting, (no_sleeper_lost twoProcesses _ hnone
    ((Reaches.refl _ _ _).step hsleeps hstep) 2 hwaiting).1⟩

/-- Process 2 asks to sleep zero ticks: it waits, and no tick is left that would wake it. -/
theorem zero_sleeper_lost : ∃ reply k, (∀ i, (twoProcesses.ctx i).state ≠ .waiting) ∧
    step (.sleep 0 (fun _ ↦ 0) 5) twoProcesses = .ok (reply, k) ∧ (k.ctx 2).state = .waiting ∧
      (k.ctx 2).ticksToSleep = 0 := by
  have hpick : pickNextContext .sleeping (beforeSleep 0 (fun _ ↦ 0) twoProcesses) = some 1 := by
    decide
  have hstep := step_of_pick (e := .sleep 0 (fun _ ↦ 0) 5) rfl hpick
  exact ⟨_, _, by decide, hstep, sleeps_after_doSleep (by decide) hstep⟩

end OsAssignments.Scheduler
