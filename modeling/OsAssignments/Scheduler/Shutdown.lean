import OsAssignments.Scheduler.Rounds

/-!
# Sleepers and shutdown

`Orderly` is the state invariant of the scheduler: one running context, every context with ticks
left to sleep `WAITING`, and no ticks left to sleep for the swapper. It holds in the kernel of every
pick (`Orderly.beforePick`) and is kept by every event issued by a process (`orderly_step`). In such
a kernel the flag gathered by the scan is right, so the scheduler shuts down exactly when no process
is left (`cleanup_iff`).

The condition on the swapper is needed: a swapper that has ticks left is picked all the same when
nothing else is `READY` (`sleeping_swapper_runs`).
-/

set_option autoImplicit false
set_option relaxedAutoImplicit false

namespace OsAssignments.Scheduler

open OsAssignments.Library

variable {e : Event} {k b k' : Kernel} {type : PickType} {new i : Fin 16}
  {reply : Option UserRegs}

/-! ### Sleep counters -/

/-- The ticks a context has left to sleep when an event makes its pick. -/
def sleepLeft : Event → Kernel → Fin 16 → ℕ
  | .tick .., k, i => (k.ctx i).ticksToSleep - 1
  | .sleep ticks _ _, k, i => if i = k.current then ticks else (k.ctx i).ticksToSleep
  | .exit .., k, i | .clone .., k, i | .signal .., k, i | .alarm .., k, i =>
    (k.ctx i).ticksToSleep

theorem beforePick_ticksToSleep (h : beforePick e k = some (type, b)) (i : Fin 16) :
    (b.ctx i).ticksToSleep = sleepLeft e k i := by
  cases e <;> cases h
  · rename_i user sp locals
    obtain ⟨userMem, heq⟩ := accountTick_spec k user sp locals
    rw [heq]
    rfl
  · simp only [beforeSleep, Kernel.setCtx_ctx, Function.update_apply, sleepLeft]
    split_ifs <;> rfl
  · simp only [beforeExit, Kernel.setState_ctx]
    rfl

theorem Dispatched.ticksToSleep (hd : Dispatched new b k') (i : Fin 16) :
    (k'.ctx i).ticksToSleep = (b.ctx i).ticksToSleep := by
  rw [hd.ctx i]

/-- The ticks left to sleep after an event without a pick. -/
theorem step_quiet_ticksToSleep (hquiet : beforePick e k = none)
    (hstep : step e k = .ok (reply, k')) (i : Fin 16) :
    (k'.ctx i).ticksToSleep = (k.ctx i).ticksToSleep ∨
      (k'.ctx i).ticksToSleep = 0 ∧ ∃ pfn thFunc userStack, e = .clone i pfn thFunc userStack := by
  cases e <;> cases hquiet <;> cases hstep
  · rename_i new pfn thFunc userStack
    by_cases hi : i = new
    · subst hi
      exact .inr ⟨by simp [doClone], pfn, thFunc, userStack, rfl⟩
    · exact .inl (by simp [doClone, Function.update_of_ne hi])
  all_goals
    refine .inl ?_
    by_cases hi : i = k.current
    · subst hi
      simp [doSignal, doAlarm]
    · simp [doSignal, doAlarm, Function.update_of_ne hi]

/-! ### The invariant -/

/-- Every context with ticks left to sleep is `WAITING`. -/
def SleepersWait (k : Kernel) : Prop :=
  ∀ i, 1 ≤ (k.ctx i).ticksToSleep → (k.ctx i).state = .waiting

/-- The scheduler invariant. -/
structure Orderly (k : Kernel) : Prop where
  one : OneRunning k
  sleepers : SleepersWait k
  swapper : (k.ctx 0).ticksToSleep = 0

/-- Sleeps, exits and clones are issued by a process, and `get_new_ctx` returns an `UNUSED`
context. -/
def Event.ByProcess : Event → Kernel → Prop
  | .sleep .., k => k.current ≠ 0
  | .exit .., k => k.current ≠ 0
  | .clone new _ _ _, k => k.current ≠ 0 ∧ (k.ctx new).state = .unused
  | _, _ => True

theorem Event.ByProcess.legal (h : e.ByProcess k) : e.Legal k := by
  cases e
  case clone => exact h.2
  all_goals trivial

theorem OneRunning.sleep_current (hone : OneRunning k) (hsleep : SleepersWait k) :
    (k.ctx k.current).ticksToSleep = 0 := by
  by_contra hne
  have hwaiting := hsleep k.current (Nat.one_le_iff_ne_zero.mpr hne)
  rw [(hone _).mpr rfl] at hwaiting
  cases hwaiting

/-- In the kernel of a pick every sleeper waits. -/
theorem beforePick_sleepersWait (hone : OneRunning k) (hsleep : SleepersWait k)
    (hpick : beforePick e k = some (type, b)) : SleepersWait b := by
  intro i hi
  rw [beforePick_ticksToSleep hpick] at hi
  have hcurr := hone.sleep_current hsleep
  by_cases hicurr : i = k.current
  · rw [hicurr, beforePick_state_current hpick]
    rw [hicurr] at hi
    cases e <;> cases hpick
    · rw [sleepLeft, hcurr] at hi
      omega
    · rfl
    · rw [sleepLeft, hcurr] at hi
      omega
  · cases e <;> cases hpick
    · rename_i user sp locals
      obtain ⟨userMem, heq⟩ := accountTick_spec k user sp locals
      rw [heq]
      simp only [sleepLeft] at hi
      simp only [ticked, if_neg hicurr, show (k.ctx i).ticksToSleep ≠ 1 by omega, if_false]
      exact hsleep i (by omega)
    · rw [sleepLeft, if_neg hicurr] at hi
      simp only [beforeSleep, Kernel.setCtx_ctx, Function.update_of_ne hicurr]
      exact hsleep i hi
    · simp only [beforeExit, Kernel.setState_ctx]
      rw [if_neg hicurr]
      exact hsleep i hi

theorem beforePick_swapper (hbyProcess : e.ByProcess k) (hswapper : (k.ctx 0).ticksToSleep = 0)
    (hpick : beforePick e k = some (type, b)) : (b.ctx 0).ticksToSleep = 0 := by
  rw [beforePick_ticksToSleep hpick]
  cases e with
  | tick => rw [sleepLeft, hswapper]
  | sleep => rw [sleepLeft, if_neg (Ne.symm hbyProcess), hswapper]
  | _ => exact hswapper

/-- A context that a pick returns has no ticks left to sleep. -/
theorem picked_awake (hsleep : SleepersWait b) (hswapper : (b.ctx 0).ticksToSleep = 0)
    (hcurr : (b.ctx b.current).state = type.leaves) (hnew : pickNextContext type b = some new) :
    (b.ctx new).ticksToSleep = 0 := by
  have hpicked := picked type b
  have hready : ∀ i, (b.ctx i).state = .ready → (b.ctx i).ticksToSleep = 0 := by
    intro i hi
    by_contra hne
    have hwaiting := hsleep i (Nat.one_le_iff_ne_zero.mpr hne)
    rw [hi] at hwaiting
    cases hwaiting
  rw [hnew] at hpicked
  generalize hresult : some new = result at hpicked
  cases hpicked with
  | ready i _ _ hi _ =>
    cases hresult
    exact hready _ hi
  | fallback isWait _ _ =>
    cases type with
    | timer =>
      rw [fallback] at hresult
      split_ifs at hresult
      · cases hresult
        exact hready _ hcurr
      · cases hresult
        exact hswapper
    | sleeping =>
      cases hresult
      exact hswapper
    | doExit =>
      rw [fallback] at hresult
      split_ifs at hresult
      cases hresult
      exact hswapper

/-- Every event issued by a process keeps the invariant. -/
theorem orderly_step (h : Orderly k) (hbyProcess : e.ByProcess k)
    (hstep : step e k = .ok (reply, k')) : Orderly k' := by
  have hone := oneRunning_step h.one hbyProcess.legal hstep
  cases hpick : beforePick e k with
  | none =>
    have hquiet := step_quiet_ticksToSleep hpick hstep
    refine ⟨hone, fun i hi ↦ ?_, ?_⟩
    · rcases hquiet i with hsame | ⟨hzero, -⟩
      · rw [hsame] at hi
        rcases (step_quiet hpick hbyProcess.legal hstep).2 i with hstate | ⟨hunused, -⟩
        · rw [hstate]
          exact h.sleepers i hi
        · rw [h.sleepers i hi] at hunused
          cases hunused
      · omega
    · rcases hquiet 0 with hsame | ⟨hzero, -⟩
      · rw [hsame, h.swapper]
      · exact hzero
  | some p =>
    obtain ⟨type, b⟩ := p
    rcases step_dispatches hpick with ⟨-, hhalt⟩ | ⟨new, reply', k'', hnew, hok, hd⟩
    · rw [hhalt] at hstep
      cases hstep
    · rw [hok] at hstep
      cases hstep
      have hsleep := beforePick_sleepersWait h.one h.sleepers hpick
      have hswapper := beforePick_swapper hbyProcess h.swapper hpick
      refine ⟨hone, fun i hi ↦ ?_, ?_⟩
      · rw [hd.ticksToSleep] at hi
        rw [hd.state, if_neg]
        · exact hsleep i hi
        · rintro rfl
          have hcurr := beforePick_current hpick ▸ beforePick_state_current hpick
          rw [picked_awake hsleep hswapper hcurr hnew] at hi
          omega
      · rw [hd.ticksToSleep, hswapper]

/-! ### Shutdown -/

/-- A process that may still run: `READY`, `RUNNING` or `WAITING`. -/
def Alive (k : Kernel) (i : Fin 16) : Prop :=
  (k.ctx i).state = .ready ∨ (k.ctx i).state = .running ∨ (k.ctx i).state = .waiting

instance (k : Kernel) (i : Fin 16) : Decidable (Alive k i) :=
  inferInstanceAs (Decidable (_ ∨ _ ∨ _))

/-- The flag of a scan that met no `READY` context tells whether a process is left. -/
theorem flag_iff {isWait : Bool} (hone : ∀ i, (b.ctx i).state ≠ .running)
    (hnone : ∀ j, 1 ≤ j → j ≠ b.current → (b.ctx j).state ≠ .ready)
    (hwait : isWait = true ↔ ∃ j, 1 ≤ j ∧ j ≠ b.current ∧ (b.ctx j).state = .waiting)
    (hcurr : b.current = 0 ∨ ¬Alive b b.current) :
    (if isWait then some 0 else none) = (none : Option (Fin 16)) ↔ ∀ i, i ≠ 0 → ¬Alive b i := by
  have hflag : (if isWait then some 0 else none) = (none : Option (Fin 16)) ↔ ¬isWait = true := by
    cases isWait <;> simp
  rw [hflag, hwait]
  constructor
  · rintro hnot i hi halive
    have hne : i ≠ b.current := by
      rintro rfl
      exact hcurr.elim hi fun hdead ↦ hdead halive
    have hpos : 1 ≤ i := by omega
    rcases halive with hready | hrun | hwaiting
    · exact hnone i hpos hne hready
    · exact hone i hrun
    · exact hnot ⟨i, hpos, hne, hwaiting⟩
  · rintro hdead ⟨i, hpos, -, hwaiting⟩
    exact hdead i (by rintro rfl; exact absurd hpos (by decide)) (.inr (.inr hwaiting))

/-- A pick finds nothing exactly when no process is alive. -/
theorem pick_none_iff (hone : ∀ i, (b.ctx i).state ≠ .running)
    (hcurr : (b.ctx b.current).state = type.leaves)
    (hprocess : type = .sleeping → b.current ≠ 0) :
    pickNextContext type b = none ↔ ∀ i, i ≠ 0 → ¬Alive b i := by
  have hpicked := picked type b
  generalize pickNextContext type b = result at hpicked
  cases hpicked with
  | ready i hpos hne hready hleast =>
    refine iff_of_false (Option.some_ne_none i) fun hdead ↦ ?_
    exact hdead i (by rintro rfl; exact absurd hpos (by decide)) (.inl hready)
  | fallback isWait hnone hwait =>
    cases type with
    | timer =>
      by_cases hzero : b.current = 0
      · rw [fallback, if_neg (not_not.mpr hzero)]
        exact flag_iff hone hnone hwait (.inl hzero)
      · rw [fallback, if_pos hzero]
        exact iff_of_false (Option.some_ne_none _) fun hdead ↦ hdead _ hzero (.inl hcurr)
    | sleeping =>
      exact iff_of_false (Option.some_ne_none _) fun hdead ↦
        hdead _ (hprocess rfl) (.inr (.inr hcurr))
    | doExit =>
      refine flag_iff hone hnone hwait (.inr ?_)
      rw [Alive, hcurr]
      simp [PickType.leaves]

/-- An event shuts the system down exactly when it makes a pick and no process is alive. -/
theorem cleanup_iff (hone : OneRunning k) (hbyProcess : e.ByProcess k) :
    step e k = .error .cleanup ↔
      ∃ type b, beforePick e k = some (type, b) ∧ ∀ i, i ≠ 0 → ¬Alive b i := by
  cases hpick : beforePick e k with
  | none =>
    refine iff_of_false (fun hhalt ↦ ?_) fun ⟨type, b, hsome, _⟩ ↦ by cases hsome
    cases e <;> cases hpick <;> cases hhalt
  | some p =>
    obtain ⟨type, b⟩ := p
    have hcurrent := beforePick_current hpick
    have hcurr : (b.ctx b.current).state = type.leaves :=
      hcurrent ▸ beforePick_state_current hpick
    have hnone := pick_none_iff (beforePick_not_running hone hpick) hcurr (by
        rintro rfl
        rw [hcurrent]
        cases e <;> cases hpick
        exact hbyProcess)
    rcases step_dispatches hpick with ⟨hno, hhalt⟩ | ⟨new, reply, k', hnew, hok, -⟩
    · exact iff_of_true hhalt ⟨type, b, rfl, hnone.mp hno⟩
    · refine iff_of_false (by rw [hok]; exact fun h ↦ by cases h) ?_
      rintro ⟨type', b', hsame, hdead⟩
      cases hsame
      rw [hnone.mpr hdead] at hnew
      cases hnew

/-- In every run the running context is the current one, sleepers wait, and the system shuts down
exactly when no process is left. -/
theorem orderly_run (k₀ k : Kernel) (hone : OneRunning k₀) (hsleep : SleepersWait k₀)
    (hswapper : (k₀.ctx 0).ticksToSleep = 0) (hrun : Reaches step Event.ByProcess k₀ k) :
    OneRunning k ∧ SleepersWait k ∧ ∀ e : Event, e.ByProcess k →
      (step e k = .error .cleanup ↔
        ∃ type b, beforePick e k = some (type, b) ∧ ∀ i, i ≠ 0 → ¬Alive b i) := by
  have h : Orderly k := Reaches.invariant Orderly
    (fun _ _ _ _ hk he hstep ↦ orderly_step hk he hstep) hrun ⟨hone, hsleep, hswapper⟩
  exact ⟨h.one, h.sleepers, fun e he ↦ cleanup_iff h.one he⟩

/-- Process 1 runs, and there is no other. -/
def oneProcess : Kernel :=
  zeroKernel (fun i ↦ zeroContext (if i = 1 then .running else .unused)) 1

/-- The only process sleeps for a tick, the swapper runs meanwhile, and the exit that follows shuts
the system down. -/
theorem orderly_sleep_and_exit : ∃ reply k₁ reply' k₂,
    step (.sleep 1 (fun _ ↦ 0) 5) oneProcess = .ok (reply, k₁) ∧ k₁.current = 0 ∧
      (k₁.ctx 1).state = .waiting ∧ step (.tick (fun _ ↦ 0) 0 0) k₁ = .ok (reply', k₂) ∧
      k₂.current = 1 ∧ OneRunning k₂ ∧ SleepersWait k₂ ∧
      step (.exit (fun _ ↦ 0) 5) k₂ = .error .cleanup := by
  have hone : OneRunning oneProcess := by
    intro i
    revert i
    decide
  have hsleep : SleepersWait oneProcess := by
    intro i
    revert i
    decide
  have hsleeping : pickNextContext .sleeping (beforeSleep 1 (fun _ ↦ 0) oneProcess) = some 0 := by
    decide
  have hwaking : pickNextContext .timer (accountTick (fun _ ↦ 0) 0 0
      (endSleep 10 0 (beforeSleep 1 (fun _ ↦ 0) oneProcess)).2) = some 1 := by decide
  have hrun₁ := step_of_pick (e := .sleep 1 (fun _ ↦ 0) 5) rfl hsleeping
  have hrun₂ := step_of_pick (e := .tick (fun _ ↦ 0) 0 0) rfl hwaking
  have hasleep : (Event.sleep 1 (fun _ ↦ 0) 5).ByProcess oneProcess := by
    change (1 : Fin 16) ≠ 0
    decide
  have htick : (Event.tick (fun _ ↦ 0) 0 0).ByProcess
      (afterPick (.sleep 1 (fun _ ↦ 0) 5) 0 (beforeSleep 1 (fun _ ↦ 0) oneProcess)).2 := trivial
  have hreaches :=
    ((Reaches.refl step Event.ByProcess oneProcess).step hasleep hrun₁).step htick hrun₂
  obtain ⟨hone', hsleep', hcleanup⟩ := orderly_run oneProcess _ hone hsleep rfl hreaches
  refine ⟨_, _, _, _, hrun₁, rfl, by decide, hrun₂, rfl, hone', hsleep', ?_⟩
  refine (hcleanup (.exit (fun _ ↦ 0) 5) ?_).mpr ⟨_, _, rfl, fun i ↦ ?_⟩
  · change (1 : Fin 16) ≠ 0
    decide
  · revert i
    decide

/-- Process 1 runs, and the swapper is asleep for five ticks. -/
def sleepingSwapper : Kernel :=
  zeroKernel (fun i ↦ if i = 0 then { zeroContext .waiting with ticksToSleep := 5 }
    else zeroContext (if i = 1 then .running else .unused)) 1

/-- Without the condition on the swapper a sleeper can run: process 1 sleeps, nothing is `READY`,
and the swapper is switched in with five ticks left. -/
theorem sleeping_swapper_runs : OneRunning sleepingSwapper ∧ SleepersWait sleepingSwapper ∧
    ∃ e reply k, Event.ByProcess e sleepingSwapper ∧ step e sleepingSwapper = .ok (reply, k) ∧
      ¬SleepersWait k := by
  have hone : OneRunning sleepingSwapper := by
    intro i
    revert i
    decide
  have hsleep : SleepersWait sleepingSwapper := by
    intro i
    revert i
    decide
  have hpick : pickNextContext .sleeping (beforeSleep 1 (fun _ ↦ 0) sleepingSwapper) = some 0 := by
    decide
  refine ⟨hone, hsleep, .sleep 1 (fun _ ↦ 0) 5, ?_⟩
  rcases step_dispatches (e := .sleep 1 (fun _ ↦ 0) 5) (k := sleepingSwapper) rfl with
    ⟨hnone, -⟩ | ⟨new, reply, k, hnew, hstep, hd⟩
  · rw [hpick] at hnone
    cases hnone
  · rw [hpick] at hnew
    cases hnew
    refine ⟨reply, k, ?_, hstep, fun hwait ↦ ?_⟩
    · change (1 : Fin 16) ≠ 0
      decide
    · have hrunning := hd.state 0
      rw [hwait 0 (by rw [hd.ticksToSleep]; decide)] at hrunning
      exact absurd hrunning (by decide)

end OsAssignments.Scheduler
