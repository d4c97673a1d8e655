import OsAssignments.Library.Runs

/-!
# Threads and serial orders

A pool of threads shares a state. Each thread makes one call, in several atomic steps, and its phase
says how far it is; `Pool.turn` is one step of one thread, so a run of the pool is an interleaving
of the calls. `Serial` answers the same calls one after the other. `Commits.serialises` is the rule
of linearisation points: when every call takes effect in one of its steps, and the other steps
change nothing that a relation to the serial state can see, the calls of a run answer as in a serial
order.
-/

set_option autoImplicit false
set_option relaxedAutoImplicit false

namespace OsAssignments.Library

variable {ι π ρ σ τ ε : Type*}

/-! ### Phases -/

section

variable [DecidableEq ι] {phase : ι → π} {i j : ι} {l x : π}

theorem update_cases (h : Function.update phase i l j = x) :
    j = i ∧ l = x ∨ j ≠ i ∧ phase j = x := by
  by_cases hj : j = i
  · rw [hj, Function.update_self] at h
    exact .inl ⟨hj, h⟩
  · rw [Function.update_of_ne hj] at h
    exact .inr ⟨hj, h⟩

theorem of_update_eq (h : Function.update phase i l j = x) (hl : l ≠ x) : j ≠ i ∧ phase j = x :=
  (update_cases h).resolve_left fun heq ↦ hl heq.2

theorem forall_ne_of_update (h : ∀ j, Function.update phase i l j ≠ x) (hi : phase i ≠ x) :
    ∀ j, phase j ≠ x := by
  intro j
  by_cases hj : j = i
  · exact hj ▸ hi
  · have hne := h j
    rwa [Function.update_of_ne hj] at hne

end

/-! ### Pools -/

/-- Threads in their phases, and the state they share. -/
@[ext]
structure Pool (ι π σ : Type*) where
  phase : ι → π
  shared : σ

section

variable [DecidableEq ι]

/-- Thread `i` takes its next step. -/
def Pool.turn (next : ι → π → σ → Except ε (π × σ)) (i : ι) (p : Pool ι π σ) :
    Except ε (Unit × Pool ι π σ) :=
  match next i (p.phase i) p.shared with
  | .error e => .error e
  | .ok (l, s) => .ok ((), ⟨Function.update p.phase i l, s⟩)

theorem Pool.turn_of_ok {next : ι → π → σ → Except ε (π × σ)} {i : ι} {p : Pool ι π σ} {l : π}
    {s : σ} (h : next i (p.phase i) p.shared = .ok (l, s)) :
    p.turn next i = .ok ((), ⟨Function.update p.phase i l, s⟩) := by
  rw [turn, h]

/-- One more step of a run. -/
theorem Reaches.turn {next : ι → π → σ → Except ε (π × σ)} {ok : ι → Pool ι π σ → Prop} {i : ι}
    {p q : Pool ι π σ} {l : π} {s : σ} (h : Reaches (Pool.turn next) ok p q) (hok : ok i q)
    (hnext : next i (q.phase i) q.shared = .ok (l, s)) :
    Reaches (Pool.turn next) ok p ⟨Function.update q.phase i l, s⟩ :=
  h.step hok (Pool.turn_of_ok hnext)

/-- A step of a thread changes its phase and the shared state. -/
theorem Pool.ok_of_turn {next : ι → π → σ → Except ε (π × σ)} {i : ι} {p q : Pool ι π σ} {u : Unit}
    (h : p.turn next i = .ok (u, q)) : ∃ l s, next i (p.phase i) p.shared = .ok (l, s) ∧
      q = ⟨Function.update p.phase i l, s⟩ := by
  rw [turn] at h
  cases hnext : next i (p.phase i) p.shared with
  | error e =>
    rw [hnext] at h
    cases h
  | ok result =>
    rw [hnext] at h
    cases h
    exact ⟨result.1, result.2, rfl, rfl⟩

end

/-! ### Serial orders -/

/-- Calls answered one after the other, with their replies, the last call first. -/
inductive Serial (answer : ι → τ → Except ε (ρ × τ)) (t₀ : τ) : List (ι × ρ) → τ → Prop
  | start : Serial answer t₀ [] t₀
  | call {trace : List (ι × ρ)} {t t' : τ} {i : ι} {reply : ρ} (h : Serial answer t₀ trace t)
      (hcall : answer i t = .ok (reply, t')) : Serial answer t₀ ((i, reply) :: trace) t'

/-- What every call keeps holds after a serial order. -/
theorem Serial.invariant {answer : ι → τ → Except ε (ρ × τ)} {t₀ t : τ} {trace : List (ι × ρ)}
    (Inv : τ → Prop) (hstep : ∀ i t reply t', Inv t → answer i t = .ok (reply, t') → Inv t')
    (h : Serial answer t₀ trace t) (h₀ : Inv t₀) : Inv t := by
  induction h with
  | start => exact h₀
  | call _ hcall ih => exact hstep _ _ _ _ ih hcall

/-- The steps of a thread, in a relation to the serial state: a step of a call that has not taken
effect either answers it there, or leaves the serial state; a step of a call that has, leaves it and
keeps the answer. -/
structure Commits (next : ι → π → σ → Except ε (π × σ)) (answer : ι → τ → Except ε (ρ × τ))
    (ok : ι → Pool ι π σ → Prop) (reply : π → Option ρ) (Rel : Pool ι π σ → τ → Prop)
    [DecidableEq ι] : Prop where
  step : ∀ i p t l s, Rel p t → ok i p → next i (p.phase i) p.shared = .ok (l, s) →
    (reply (p.phase i) = none ∧ ∃ r t', answer i t = .ok (r, t') ∧ reply l = some r ∧
      Rel ⟨Function.update p.phase i l, s⟩ t') ∨
    (reply l = reply (p.phase i) ∧ Rel ⟨Function.update p.phase i l, s⟩ t)

/-- Each answered call stands once in a trace, with the reply it has committed to. -/
structure Answers (reply : π → Option ρ) (phase : ι → π) (trace : List (ι × ρ)) : Prop where
  once : (trace.map Prod.fst).Nodup
  mem : ∀ i r, (i, r) ∈ trace ↔ reply (phase i) = some r

section

variable [DecidableEq ι] {reply : π → Option ρ} {phase : ι → π} {trace : List (ι × ρ)} {i : ι}
    {l : π}

theorem Answers.keep (h : Answers reply phase trace) (hl : reply l = reply (phase i)) :
    Answers reply (Function.update phase i l) trace where
  once := h.once
  mem := fun j r ↦ by
    rw [h.mem]
    by_cases hj : j = i
    · rw [hj, Function.update_self, hl]
    · rw [Function.update_of_ne hj]

theorem Answers.add {r : ρ} (h : Answers reply phase trace) (hnone : reply (phase i) = none)
    (hl : reply l = some r) : Answers reply (Function.update phase i l) ((i, r) :: trace) where
  once := by
    refine List.nodup_cons.mpr ⟨fun hmem ↦ ?_, h.once⟩
    obtain ⟨⟨j, r'⟩, hanswered, rfl⟩ := List.mem_map.mp hmem
    have hsome := (h.mem j r').mp hanswered
    rw [hnone] at hsome
    cases hsome
  mem := fun j r' ↦ by
    rw [List.mem_cons, h.mem]
    by_cases hj : j = i
    · rw [hj, Function.update_self, hl, hnone]
      simp [eq_comm]
    · rw [Function.update_of_ne hj]
      simp [hj]

/-- Every reachable pool is related to a state reached by the answered calls in some serial order.
-/
theorem Commits.serialises {next : ι → π → σ → Except ε (π × σ)}
    {answer : ι → τ → Except ε (ρ × τ)} {ok : ι → Pool ι π σ → Prop}
    {Rel : Pool ι π σ → τ → Prop} (h : Commits next answer ok reply Rel) {p q : Pool ι π σ} {t₀ : τ}
    (hrun : Reaches (Pool.turn next) ok p q) (hstart : ∀ i, reply (p.phase i) = none)
    (hrel : Rel p t₀) :
    ∃ trace t, Serial answer t₀ trace t ∧ Answers reply q.phase trace ∧ Rel q t := by
  refine hrun.invariant
    (fun q ↦ ∃ trace t, Serial answer t₀ trace t ∧ Answers reply q.phase trace ∧ Rel q t)
    (fun i q u q' hq hok hturn ↦ ?_) ⟨[], t₀, .start, ⟨List.nodup_nil, fun i r ↦ ?_⟩, hrel⟩
  · obtain ⟨trace, t, hserial, hanswers, hrel⟩ := hq
    obtain ⟨l, s, hnext, rfl⟩ := Pool.ok_of_turn hturn
    rcases h.step i q t l s hrel hok hnext with ⟨hnone, r, t', hcall, hl, hrel'⟩ | ⟨hl, hrel'⟩
    · exact ⟨_, t', hserial.call hcall, hanswers.add hnone hl, hrel'⟩
    · exact ⟨trace, t, hserial, hanswers.keep hl, hrel'⟩
  · simp [hstart i]

end

end OsAssignments.Library
