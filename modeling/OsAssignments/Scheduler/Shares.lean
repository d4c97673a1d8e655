import OsAssignments.Library.Rotation
import OsAssignments.Library.Traces
import OsAssignments.Scheduler.Shutdown

/-!
# Shares of the processor

The order of the pick is a circle of the pids 1 to 15. `queue` is the part of it that can run, from
the pid after the current one to the current one. A tick at which nobody wakes lets the head of the
queue run and sends it to the end (`tick_rotates`), whatever it does to alarms and registers. So as
long as nobody wakes the runs of the processes are the turns of the queue, and each has its exact
share of the ticks (`round_robin`).
-/

set_option autoImplicit false
set_option relaxedAutoImplicit false

namespace OsAssignments.Scheduler

open OsAssignments.Library

variable {e : Event} {k b k' : Kernel} {type : PickType} {curr new i : Fin 16}

/-! ### The circle -/

/-- The pids from the one after the current one to the current one. -/
def circle (curr : Fin 16) : List (Fin 16) := scanned curr ++ [curr]

/-- A context that is `READY` or `RUNNING`. -/
def Runnable (k : Kernel) (i : Fin 16) : Prop :=
  (k.ctx i).state = .ready ∨ (k.ctx i).state = .running

instance decidableRunnable (k : Kernel) : DecidablePred (Runnable k) := fun _ ↦
  inferInstanceAs (Decidable (_ ∨ _))

/-- The processes that can run, in the order in which ticks let them. -/
def queue (k : Kernel) : List (Fin 16) := (circle k.current).filter fun i ↦ decide (Runnable k i)

theorem mem_circle (hcurr : curr ≠ 0) : i ∈ circle curr ↔ i ≠ 0 := by
  rw [circle, List.mem_append, List.mem_singleton, mem_scanned]
  omega

theorem nodup_circle (curr : Fin 16) : (circle curr).Nodup := by
  rw [circle, ← List.concat_eq_append, List.nodup_concat, mem_scanned]
  refine ⟨fun h ↦ h.2 rfl, (scanned_pairwise curr).imp fun hlt heq ↦ ?_⟩
  rw [heq] at hlt
  exact lt_irrefl _ hlt

theorem nodup_queue (k : Kernel) : (queue k).Nodup := (nodup_circle k.current).filter _

theorem mem_queue (hcurr : k.current ≠ 0) : i ∈ queue k ↔ i ≠ 0 ∧ Runnable k i := by
  rw [queue, List.mem_filter, mem_circle hcurr, decide_eq_true_iff]

/-- The circle from a later pid on. -/
theorem circle_eq {l₁ l₂ : List (Fin 16)} (hcurr : curr ≠ 0) (h : circle curr = l₁ ++ new :: l₂) :
    circle new = l₂ ++ (l₁ ++ [new]) := by
  have hturned : ∀ curr new : Fin 16, curr ≠ 0 → new ≠ 0 → circle new =
      ((circle curr).drop ((circle curr).idxOf new + 1)) ++
        ((circle curr).take ((circle curr).idxOf new) ++ [new]) := by
    decide +kernel
  have hnew : new ∈ circle curr := by
    rw [h]
    exact List.mem_append_right _ List.mem_cons_self
  have hnodup := nodup_circle curr
  rw [h, List.nodup_append] at hnodup
  have hnot : new ∉ l₁ := fun hmem ↦ hnodup.2.2 new hmem new List.mem_cons_self rfl
  have hidx : (circle curr).idxOf new = l₁.length := by
    rw [h, List.idxOf_append_of_notMem hnot, List.idxOf_cons_self]
    rfl
  rw [hturned curr new hcurr ((mem_circle hcurr).mp hnew), hidx, h, List.take_left',
    List.drop_append, List.drop_eq_nil_of_le (Nat.le_succ _)]
  · simp
  · rfl

/-! ### The pick of a tick -/

/-- The two outcomes of a scan as a search. -/
theorem scan_find {ctx : Fin 16 → ExecContext} {l : List (Fin 16)} {isWait : Bool} :
    (∀ i, scan ctx l isWait = .error i →
      l.find? (fun i ↦ decide ((ctx i).state = .ready)) = some i) ∧
      ∀ isWait', scan ctx l isWait = .ok isWait' →
        l.find? (fun i ↦ decide ((ctx i).state = .ready)) = none := by
  induction l generalizing isWait with
  | nil =>
    refine ⟨fun i h ↦ ?_, fun _ _ ↦ rfl⟩
    cases h
  | cons j rest ih =>
    rw [scan, List.find?_cons]
    by_cases hready : (ctx j).state = .ready
    · rw [if_pos hready, decide_eq_true hready]
      refine ⟨fun i h ↦ ?_, fun _ h ↦ ?_⟩
      · rw [Except.error.inj h]
      · cases h
    · rw [if_neg hready, decide_eq_false hready]
      exact ih

/-- A tick picks the first `READY` pid of the circle. -/
theorem pick_first (hcurr : b.current ≠ 0) (hready : (b.ctx b.current).state = .ready) :
    pickNextContext .timer b =
      (circle b.current).find? fun i ↦ decide ((b.ctx i).state = .ready) := by
  rw [pickNextContext_eq, circle, List.find?_append]
  cases hscan : scan b.ctx (scanned b.current) false with
  | error i => rw [scan_find.1 i hscan, Option.some_or]
  | ok isWait =>
    rw [scan_find.2 isWait hscan, Option.none_or, List.find?_singleton, decide_eq_true hready,
      if_pos rfl]
    exact if_pos hcurr

/-- A tick at which nobody wakes lets the head of the queue run and sends it to the end. -/
theorem tick_rotates (hone : OneRunning k) (hcurr : k.current ≠ 0)
    (hawake : ∀ i, (k.ctx i).ticksToSleep ≠ 1) (user : UserRegs) (sp locals : ℕ) :
    ∃ new rest reply k', step (.tick user sp locals) k = .ok (reply, k') ∧ k'.current = new ∧
      new ≠ 0 ∧ queue k = new :: rest ∧ queue k' = rest ++ [new] ∧
      ∀ i, (k'.ctx i).ticksToSleep = (k.ctx i).ticksToSleep - 1 := by
  have hpick : beforePick (.tick user sp locals) k = some (.timer, accountTick user sp locals k) :=
    rfl
  obtain ⟨userMem, hb⟩ := accountTick_spec k user sp locals
  have hcurrent := beforePick_current hpick
  -- before the pick exactly the contexts that can run are `READY`
  have hready : ∀ i, ((accountTick user sp locals k).ctx i).state = .ready ↔ Runnable k i := by
    intro i
    rw [hb]
    by_cases hi : i = k.current
    · simp only [ticked, if_pos hi]
      exact iff_of_true trivial (.inr ((hone i).mpr hi))
    · simp only [ticked, if_neg hi, if_neg (hawake i)]
      exact ⟨.inl, fun h ↦ h.resolve_right fun hrun ↦ hi ((hone i).mp hrun)⟩
  have hfind : pickNextContext .timer (accountTick user sp locals k) =
      (circle k.current).find? fun i ↦ decide (Runnable k i) := by
    rw [pick_first (hcurrent.symm ▸ hcurr), hcurrent]
    · simp only [hready]
    · rw [hcurrent]
      exact (hready _).mpr (.inr ((hone _).mpr rfl))
  rcases step_dispatches hpick with ⟨hnone, -⟩ | ⟨new, reply, k', hnew, hok, hd⟩
  · rw [hfind, List.find?_eq_none] at hnone
    have hmem : k.current ∈ circle k.current := (mem_circle hcurr).mpr hcurr
    exact absurd (decide_eq_true (Or.inr ((hone _).mpr rfl))) (hnone _ hmem)
  · rw [hfind, List.find?_eq_some_iff_append] at hnew
    obtain ⟨hrunnable, l₁, l₂, hcircle, hbefore⟩ := hnew
    have hmem : new ∈ circle k.current := by
      rw [hcircle]
      exact List.mem_append_right _ List.mem_cons_self
    have hsame : ∀ i, Runnable k' i ↔ Runnable k i := by
      intro i
      rw [Runnable, hd.state]
      split_ifs with hi
      · exact iff_of_true (.inr rfl) (hi ▸ of_decide_eq_true hrunnable)
      · rw [hready]
        exact or_iff_left (beforePick_not_running hone hpick i)
    have hnone : l₁.filter (fun i ↦ decide (Runnable k i)) = [] :=
      List.filter_eq_nil_iff.mpr fun i hi hrun ↦ by simpa [hrun] using hbefore i hi
    refine ⟨new, l₂.filter fun i ↦ decide (Runnable k i), reply, k', hok, hd.current,
      (mem_circle hcurr).mp hmem, ?_, ?_, fun i ↦ ?_⟩
    · rw [queue, hcircle, List.filter_append, hnone, List.nil_append]
      exact List.filter_cons_of_pos hrunnable
    · rw [queue, hd.current, circle_eq hcurr hcircle]
      simp only [hsame, List.filter_append, hnone, List.nil_append]
      rw [List.filter_singleton, hrunnable]
      rfl
    · rw [hd.ticksToSleep, beforePick_ticksToSleep hpick]
      rfl

/-! ### Runs of ticks -/

/-- An event and the process that runs after it. -/
def turn (e : Event) (k : Kernel) : Except Halt (Fin 16 × Kernel) :=
  (step e k).map fun (_, k) ↦ (k.current, k)

theorem turn_of_step {reply : Option UserRegs} (h : step e k = .ok (reply, k')) :
    turn e k = .ok (k'.current, k') := by
  rw [turn, h]
  rfl

/-- The processes that run after ticks at which nobody wakes. -/
theorem replies_ticks (hone : OneRunning k) (hcurr : k.current ≠ 0) {ticks : List Event}
    (hticks : ∀ e ∈ ticks, ∃ user sp locals, e = .tick user sp locals)
    (hawake : ∀ i, (k.ctx i).ticksToSleep = 0 ∨ ticks.length < (k.ctx i).ticksToSleep) :
    ∃ k', replies turn ticks k = .ok (takeTurns ticks.length (queue k), k') := by
  induction ticks generalizing k with
  | nil => exact ⟨k, rfl⟩
  | cons e ticks ih =>
    obtain ⟨user, sp, locals, rfl⟩ := hticks e List.mem_cons_self
    rw [List.length_cons] at hawake
    have hnot : ∀ i, (k.ctx i).ticksToSleep ≠ 1 := by
      intro i
      have hi := hawake i
      omega
    obtain ⟨new, rest, reply, k₁, hstep, hcurrent, hnew, hqueue, hqueue', hsleep⟩ :=
      tick_rotates hone hcurr hnot user sp locals
    have hone₁ := oneRunning_step (e := .tick user sp locals) hone trivial hstep
    have hawake₁ : ∀ i, (k₁.ctx i).ticksToSleep = 0 ∨ ticks.length < (k₁.ctx i).ticksToSleep := by
      intro i
      have hi := hawake i
      rw [hsleep]
      omega
    obtain ⟨k', hk'⟩ := ih hone₁ (hcurrent ▸ hnew)
      (fun e he ↦ hticks e (List.mem_cons_of_mem _ he)) hawake₁
    refine ⟨k', ?_⟩
    rw [replies, turn_of_step hstep, hcurrent]
    dsimp only
    rw [hk', List.length_cons, hqueue, hqueue']
    rfl

/-- As long as nobody wakes, ticks let the processes that can run take turns in the order of the
circle, and each has its share of the ticks; nobody else runs. -/
theorem round_robin (k₀ k : Kernel) (hone : OneRunning k₀) (hrun : Reaches step Event.Legal k₀ k)
    (hcurr : k.current ≠ 0) (ticks : List Event)
    (hticks : ∀ e ∈ ticks, ∃ user sp locals, e = .tick user sp locals)
    (hawake : ∀ i, (k.ctx i).ticksToSleep = 0 ∨ ticks.length < (k.ctx i).ticksToSleep) :
    ∃ turns k', replies turn ticks k = .ok (turns, k') ∧ turns = takeTurns ticks.length (queue k) ∧
      ∀ i, turns.count i =
        if i ≠ 0 ∧ Runnable k i then
          (ticks.length + ((queue k).length - 1 - (queue k).idxOf i)) / (queue k).length
        else 0 := by
  have hone' := oneRunning_run (fun _ _ h ↦ h) hrun hone
  obtain ⟨k', hk'⟩ := replies_ticks hone' hcurr hticks hawake
  refine ⟨_, k', hk', rfl, fun i ↦ ?_⟩
  split_ifs with hi
  · exact count_takeTurns ticks.length (nodup_queue k) ((mem_queue hcurr).mpr hi)
  · exact List.count_eq_zero_of_not_mem fun hmem ↦
      hi ((mem_queue hcurr).mp (mem_of_mem_takeTurns hmem))

theorem round_robin_three :
    ∃ k', replies turn (List.replicate 7 (.tick (fun _ ↦ 0) 0 0)) threeProcesses =
    .ok ([2, 3, 1, 2, 3, 1, 2], k') := by
  obtain ⟨turns, k', hturns, heq, -⟩ :=
    round_robin threeProcesses threeProcesses oneRunning_threeProcesses
    (Reaches.refl _ _ _) (by decide) (List.replicate 7 (.tick (fun _ ↦ 0) 0 0))
    (fun e he ↦ ⟨_, _, _, List.eq_of_mem_replicate he⟩) fun _ ↦ .inl rfl
  have hqueue : queue threeProcesses = [2, 3, 1] := by decide
  rw [hqueue] at heq
  have hlist : turns = [2, 3, 1, 2, 3, 1, 2] := heq
  exact ⟨k', hlist ▸ hturns⟩

end OsAssignments.Scheduler
