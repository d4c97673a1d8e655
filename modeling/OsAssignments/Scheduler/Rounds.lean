import OsAssignments.Library.Runs
import OsAssignments.Scheduler.Turns

/-!
# Round robin does not starve

`OneRunning`, that the current context is the only `RUNNING` one, is kept by every event
(`oneRunning_step`). While a process stays `READY` it is never the current one, and every pick
either returns it or brings the current pid nearer to it in the order of the pick
(`distance_step`). A pid picked twice would bring it back to the same distance, so no process is
overtaken twice by another (`no_starvation`); the swapper is picked only when no process is `READY`.
-/

set_option autoImplicit false
set_option relaxedAutoImplicit false

namespace OsAssignments.Scheduler

open OsAssignments.Library

variable {e : Event} {k b k' : Kernel} {type : PickType} {new i : Fin 16}
  {reply : Option UserRegs}

/-! ### One running context -/

/-- `get_new_ctx` returns an `UNUSED` context. -/
def Event.Legal : Event → Kernel → Prop
  | .clone new _ _ _, k => (k.ctx new).state = .unused
  | _, _ => True

/-- The current context is the only `RUNNING` one. -/
def OneRunning (k : Kernel) : Prop := ∀ i, (k.ctx i).state = .running ↔ i = k.current

theorem beforePick_current (h : beforePick e k = some (type, b)) : b.current = k.current := by
  cases e <;> cases h
  · rename_i user sp locals
    obtain ⟨userMem, heq⟩ := accountTick_spec k user sp locals
    rw [heq]
  · rfl
  · rfl

/-- The state in which a caller of the pick leaves the current context. -/
def PickType.leaves : PickType → ProcessState
  | .timer => .ready
  | .sleeping => .waiting
  | .doExit => .unused

/-- Before the pick the current context has given up the processor. -/
theorem beforePick_state_current (h : beforePick e k = some (type, b)) :
    (b.ctx k.current).state = type.leaves := by
  cases e <;> cases h
  · rename_i user sp locals
    obtain ⟨userMem, heq⟩ := accountTick_spec k user sp locals
    rw [heq]
    simp [ticked, PickType.leaves]
  · simp [beforeSleep, PickType.leaves]
  · simp [beforeExit, Kernel.setState_ctx, PickType.leaves]

/-- Before the pick the other contexts are as they were, but for sleepers that wake. -/
theorem beforePick_state (h : beforePick e k = some (type, b)) (hi : i ≠ k.current) :
    (b.ctx i).state = (k.ctx i).state ∨ (b.ctx i).state = .ready := by
  cases e <;> cases h
  · rename_i user sp locals
    obtain ⟨userMem, heq⟩ := accountTick_spec k user sp locals
    rw [heq]
    simp only [ticked, if_neg hi]
    split_ifs
    · exact .inr rfl
    · exact .inl rfl
  · exact .inl (by simp [beforeSleep, Function.update_of_ne hi])
  · exact .inl (by simp [beforeExit, Kernel.setState_ctx, hi])

theorem beforePick_not_running (hone : OneRunning k) (h : beforePick e k = some (type, b))
    (i : Fin 16) : (b.ctx i).state ≠ .running := by
  by_cases hi : i = k.current
  · rw [hi, beforePick_state_current h]
    cases type <;> simp [PickType.leaves]
  · rcases beforePick_state h hi with hsame | hready
    · exact fun hrun ↦ hi ((hone i).mp (hsame.symm.trans hrun))
    · rw [hready]
      exact fun hrun ↦ by cases hrun

/-- The state of a context after a dispatch. -/
theorem Dispatched.state (hd : Dispatched new b k') (i : Fin 16) :
    (k'.ctx i).state = if i = new then .running else (b.ctx i).state := by
  rw [hd.ctx i]

theorem Dispatched.oneRunning (hd : Dispatched new b k')
    (hnone : ∀ i, (b.ctx i).state ≠ .running) : OneRunning k' := by
  intro i
  rw [hd.state, hd.current]
  split_ifs with hi
  · exact iff_of_true rfl hi
  · exact iff_of_false (hnone i) hi

/-- An event without a pick keeps the current context and the states, but for a cloned slot. -/
theorem step_quiet (hquiet : beforePick e k = none) (hlegal : e.Legal k)
    (hstep : step e k = .ok (reply, k')) : k'.current = k.current ∧ ∀ i,
      (k'.ctx i).state = (k.ctx i).state ∨
        (k.ctx i).state = .unused ∧ (k'.ctx i).state = .ready := by
  cases e <;> cases hquiet <;> cases hstep
  · rename_i new pfn thFunc userStack
    refine ⟨rfl, fun i ↦ ?_⟩
    by_cases hi : i = new
    · subst hi
      exact .inr ⟨hlegal, by simp [doClone]⟩
    · exact .inl (by simp [doClone, Function.update_of_ne hi])
  all_goals
    refine ⟨rfl, fun i ↦ .inl ?_⟩
    by_cases hi : i = k.current
    · subst hi
      simp [doSignal, doAlarm]
    · simp [doSignal, doAlarm, Function.update_of_ne hi]

/-- Every legal event leaves exactly one context `RUNNING`, the current one. -/
theorem oneRunning_step (hone : OneRunning k) (hlegal : e.Legal k)
    (hstep : step e k = .ok (reply, k')) : OneRunning k' := by
  cases hpick : beforePick e k with
  | none =>
    obtain ⟨hcurrent, hstate⟩ := step_quiet hpick hlegal hstep
    intro i
    rw [hcurrent, ← hone i]
    rcases hstate i with hsame | ⟨hunused, hready⟩
    · rw [hsame]
    · rw [hunused, hready]
      exact iff_of_false (by simp) (by simp)
  | some p =>
    obtain ⟨type, b⟩ := p
    rcases step_dispatches hpick with ⟨-, hhalt⟩ | ⟨new, reply', k'', -, hok, hd⟩
    · rw [hhalt] at hstep
      cases hstep
    · rw [hok] at hstep
      cases hstep
      exact hd.oneRunning (beforePick_not_running hone hpick)

theorem oneRunning_run {ok : Event → Kernel → Prop} (hok : ∀ e k, ok e k → e.Legal k)
    (h : Reaches step ok k k') (hone : OneRunning k) : OneRunning k' :=
  Reaches.invariant OneRunning (fun e k _ _ hk he hstep ↦ oneRunning_step hk (hok e k he) hstep)
    h hone

/-! ### Overtaking -/

/-- A legal event whose pick switches a context in. -/
def SwitchesIn (new : Fin 16) (k k' : Kernel) : Prop :=
  ∃ e reply type b, e.Legal k ∧ beforePick e k = some (type, b) ∧
    pickNextContext type b = some new ∧ step e k = .ok (reply, k')

/-- What `step` returns after a pick. -/
theorem switchesIn_dispatched (hpick : beforePick e k = some (type, b))
    (hnew : pickNextContext type b = some new) (hstep : step e k = .ok (reply, k')) :
    Dispatched new b k' := by
  rcases step_dispatches hpick with ⟨hnone, -⟩ | ⟨new', reply', k'', hnew', hok, hd⟩
  · rw [hnone] at hnew
    cases hnew
  · rw [hok] at hstep
    cases hstep
    rw [hnew'] at hnew
    cases hnew
    exact hd

/-- A pick that passes over a `READY` process picks one that stands before it. -/
theorem pick_before {p : Fin 16} (hpos : 1 ≤ p) (hp : p ≠ b.current)
    (hready : (b.ctx p).state = .ready) (hpick : pickNextContext type b = some new) :
    1 ≤ new ∧ new ≠ b.current ∧ distance b.current new ≤ distance b.current p := by
  have hpicked := picked type b
  rw [hpick] at hpicked
  generalize hresult : some new = result at hpicked
  cases hpicked with
  | ready i hi hne _ hleast =>
    cases hresult
    exact ⟨hi, hne, hleast p hpos hp hready⟩
  | fallback isWait hnone _ => exact absurd hready (hnone p hpos hp)

/-- A tick does not take the processor away in favour of the swapper. -/
theorem swapper_not_picked (hcurr : b.current ≠ 0) (hleaves : .ready = type.leaves) :
    pickNextContext type b ≠ some 0 := by
  cases type with
  | timer =>
    have hpicked := picked .timer b
    intro hnew
    rw [hnew] at hpicked
    generalize hresult : some (0 : Fin 16) = result at hpicked
    cases hpicked with
    | ready i hi _ _ _ =>
      cases hresult
      exact absurd hi (by decide)
    | fallback isWait _ _ =>
      rw [fallback, if_pos hcurr] at hresult
      exact hcurr (Option.some.inj hresult).symm
  | sleeping => cases hleaves
  | doExit => cases hleaves

theorem distance_injective {curr p q : Fin 16} (hp : 1 ≤ p) (hq : 1 ≤ q)
    (h : distance curr p = distance curr q) : p = q := by
  unfold distance at h
  split_ifs at h <;> omega

/-- A `READY` process passed over by a pick: the context switched in stands strictly before it,
and is strictly nearer to it than the one switched out. -/
theorem SwitchesIn.before {p : Fin 16} (hs : SwitchesIn new k k') (hone : OneRunning k)
    (hpos : 1 ≤ p) (hready : (k.ctx p).state = .ready) (hne : p ≠ new) :
    k'.current = new ∧ distance new p < distance k.current p := by
  obtain ⟨e, reply, type, b, -, hpick, hnew, hstep⟩ := hs
  have hcurrent := beforePick_current hpick
  have hp : p ≠ k.current := by
    intro heq
    rw [(hone p).mpr heq] at hready
    cases hready
  have hb : (b.ctx p).state = .ready := by
    rcases beforePick_state hpick hp with hsame | hb
    · exact hsame.trans hready
    · exact hb
  obtain ⟨hnewpos, -, hle⟩ := pick_before hpos (hcurrent ▸ hp) hb hnew
  rw [hcurrent] at hle
  have hlt : distance k.current new < distance k.current p :=
    hle.lt_of_ne fun heq ↦ hne (distance_injective hnewpos hpos heq).symm
  exact ⟨(switchesIn_dispatched hpick hnew hstep).current, distance_lt hnewpos hpos hlt⟩

/-- While a process stays `READY` no step takes the current pid farther from it. -/
theorem distance_step {p : Fin 16} (hone : OneRunning k) (hlegal : e.Legal k) (hpos : 1 ≤ p)
    (hready : (k.ctx p).state = .ready) (hready' : (k'.ctx p).state = .ready)
    (hstep : step e k = .ok (reply, k')) :
    distance k'.current p ≤ distance k.current p := by
  cases hpick : beforePick e k with
  | none => rw [(step_quiet hpick hlegal hstep).1]
  | some p' =>
    obtain ⟨type, b⟩ := p'
    rcases step_dispatches hpick with ⟨-, hhalt⟩ | ⟨new, reply', k'', hnew, hok, hd⟩
    · rw [hhalt] at hstep
      cases hstep
    · rw [hok] at hstep
      cases hstep
      have hne : p ≠ new := by
        intro heq
        rw [hd.state, if_pos heq] at hready'
        cases hready'
      have hs : SwitchesIn new k k' := ⟨e, reply, type, b, hlegal, hpick, hnew, hok⟩
      obtain ⟨hcurrent, hlt⟩ := hs.before hone hpos hready hne
      rw [hcurrent]
      exact hlt.le

/-- Over a stretch in which a process stays `READY` the current pid comes no farther from it. -/
theorem distance_run {p : Fin 16} (hone : OneRunning k) (hpos : 1 ≤ p)
    (h : Reaches step (fun e k ↦ e.Legal k ∧ (k.ctx p).state = .ready) k k')
    (hready' : (k'.ctx p).state = .ready) : distance k'.current p ≤ distance k.current p := by
  induction h with
  | refl => exact le_rfl
  | @tail k₁ k₂ hrun hlast ih =>
    obtain ⟨e, reply, ⟨hlegal, hready⟩, hstep⟩ := hlast
    have hone₁ := oneRunning_run (fun _ _ h ↦ h.1) hrun hone
    exact (distance_step hone₁ hlegal hpos hready hready' hstep).trans (ih hready)

/-- No process stays `READY` while another one is switched in twice, and the swapper is switched
in only when no other process is `READY`. -/
theorem no_starvation (k₀ k : Kernel) (hone : OneRunning k₀)
    (hrun : Reaches step Event.Legal k₀ k) :
    (∀ p q : Fin 16, 1 ≤ p → 1 ≤ q → p ≠ q → ∀ k₁ k₂ k₃, SwitchesIn q k k₁ →
      Reaches step (fun e k ↦ e.Legal k ∧ (k.ctx p).state = .ready) k₁ k₂ →
      (k₂.ctx p).state = .ready → ¬SwitchesIn q k₂ k₃) ∧
    ∀ k₁, SwitchesIn 0 k k₁ → ∀ p, p ≠ 0 → (k₁.ctx p).state ≠ .ready := by
  have hone' := oneRunning_run (fun _ _ h ↦ h) hrun hone
  refine ⟨fun p q hp hq hpq k₁ k₂ k₃ hfirst hstretch hready hsecond ↦ ?_, fun k₁ hs p hp ↦ ?_⟩
  · obtain ⟨e, reply, type, b, hlegal, hpick, hnew, hstep⟩ := hfirst
    have hone₁ := oneRunning_step hone' hlegal hstep
    have hone₂ := oneRunning_run (fun _ _ h ↦ h.1) hstretch hone₁
    have hle := distance_run hone₁ hp hstretch hready
    rw [(switchesIn_dispatched hpick hnew hstep).current] at hle
    have hlt := (hsecond.before hone₂ hp hready hpq).2
    omega
  · obtain ⟨e, reply, type, b, -, hpick, hnew, hstep⟩ := hs
    have hd := switchesIn_dispatched hpick hnew hstep
    rw [hd.state, if_neg hp]
    intro hready
    by_cases hcurr : p = b.current
    · have hleaves := beforePick_state_current hpick
      rw [← beforePick_current hpick, ← hcurr, hready] at hleaves
      exact swapper_not_picked (hcurr ▸ hp) hleaves hnew
    · obtain ⟨hpos, -, -⟩ := pick_before (by omega) hcurr hready hnew
      exact absurd hpos (by decide)

/-- Process 1 runs, and 2 and 3 are ready. -/
def threeProcesses : Kernel :=
  zeroKernel (fun i ↦ zeroContext (if i = 1 then .running else if i ≤ 3 then .ready else .unused)) 1

theorem oneRunning_threeProcesses : OneRunning threeProcesses := by
  intro i
  revert i
  decide

/-- With three processes a tick of the first switches to the second, and the next pick does not
return the second while the third is ready. -/
theorem no_starvation_three : ∃ k, SwitchesIn 2 threeProcesses k ∧ ∀ k', ¬SwitchesIn 2 k k' := by
  have hpick : pickNextContext .timer (accountTick (fun _ ↦ 0) 0 0 threeProcesses) = some 2 := by
    decide
  rcases step_dispatches (e := .tick (fun _ ↦ 0) 0 0) (k := threeProcesses) rfl with
    ⟨hnone, -⟩ | ⟨new, reply, k, hnew, hstep, hd⟩
  · rw [hpick] at hnone
    cases hnone
  · obtain rfl : new = 2 := by
      rw [hpick] at hnew
      exact (Option.some.inj hnew).symm
    have hswitch : SwitchesIn 2 threeProcesses k :=
      ⟨.tick (fun _ ↦ 0) 0 0, reply, _, _, trivial, rfl, hnew, hstep⟩
    have hready : (k.ctx 3).state = .ready := by
      rw [hd.state]
      decide
    exact ⟨k, hswitch, fun k' ↦ (no_starvation _ _ oneRunning_threeProcesses (Reaches.refl _ _ _)).1
      3 2 (by decide) (by decide) (by decide) k k k' hswitch (Reaches.refl _ _ _) hready⟩

end OsAssignments.Scheduler
