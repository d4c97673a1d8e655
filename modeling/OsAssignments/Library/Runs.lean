import Mathlib

/-!
# Guarded runs

A machine answers calls: `run call s` fails or gives a reply and the next state. `Reaches run ok`
relates the states joined by calls that meet a guard `ok` and do not fail. An invariant that every
such call keeps holds of every state reached (`Reaches.invariant`). `Together` runs two machines
side by side on the same calls, and `Together.invariant` is the rule for a relation between them.
-/

set_option autoImplicit false
set_option relaxedAutoImplicit false

namespace OsAssignments.Library

variable {κ ρ ε σ τ : Type*}

/-- One call that meets the guard and does not fail. -/
def Steps (run : κ → σ → Except ε (ρ × σ)) (ok : κ → σ → Prop) (s t : σ) : Prop :=
  ∃ call reply, ok call s ∧ run call s = .ok (reply, t)

/-- A sequence of calls that meet the guard and do not fail. -/
def Reaches (run : κ → σ → Except ε (ρ × σ)) (ok : κ → σ → Prop) : σ → σ → Prop :=
  Relation.ReflTransGen (Steps run ok)

namespace Reaches

variable {run : κ → σ → Except ε (ρ × σ)} {ok ok' : κ → σ → Prop} {s t u : σ}

theorem refl (run : κ → σ → Except ε (ρ × σ)) (ok : κ → σ → Prop) (s : σ) : Reaches run ok s s :=
  Relation.ReflTransGen.refl

theorem step {call : κ} {reply : ρ} (h : Reaches run ok s t) (hok : ok call t)
    (hrun : run call t = .ok (reply, u)) : Reaches run ok s u :=
  Relation.ReflTransGen.tail h ⟨call, reply, hok, hrun⟩

/-- A run under a guard is a run under a weaker one. -/
theorem mono (hok : ∀ call s, ok call s → ok' call s) (h : Reaches run ok s t) :
    Reaches run ok' s t := by
  refine Relation.ReflTransGen.mono (fun u v huv ↦ ?_) s t h
  obtain ⟨call, reply, hcall, hrun⟩ := huv
  exact ⟨call, reply, hok call u hcall, hrun⟩

/-- What every call keeps holds in every state reached. -/
theorem invariant (Inv : σ → Prop)
    (hstep : ∀ call s reply t, Inv s → ok call s → run call s = .ok (reply, t) → Inv t)
    (h : Reaches run ok s t) (hs : Inv s) : Inv t := by
  induction h with
  | refl => exact hs
  | tail _ hlast ih =>
    obtain ⟨call, reply, hok, hrun⟩ := hlast
    exact hstep call _ reply _ ih hok hrun

end Reaches

/-- One call on two machines. -/
def StepsTogether (run₁ : κ → σ → Except ε (ρ × σ)) (run₂ : κ → τ → Except ε (ρ × τ))
    (ok : κ → σ × τ → Prop) (s t : σ × τ) : Prop :=
  ∃ call reply₁ reply₂, ok call s ∧ run₁ call s.1 = .ok (reply₁, t.1) ∧
    run₂ call s.2 = .ok (reply₂, t.2)

/-- A sequence of calls on two machines. -/
def Together (run₁ : κ → σ → Except ε (ρ × σ)) (run₂ : κ → τ → Except ε (ρ × τ))
    (ok : κ → σ × τ → Prop) : σ × τ → σ × τ → Prop :=
  Relation.ReflTransGen (StepsTogether run₁ run₂ ok)

/-- A common run under a guard is one under a weaker one. -/
theorem Together.mono {run₁ : κ → σ → Except ε (ρ × σ)} {run₂ : κ → τ → Except ε (ρ × τ)}
    {ok ok' : κ → σ × τ → Prop} {s t : σ × τ} (hok : ∀ call s, ok call s → ok' call s)
    (h : Together run₁ run₂ ok s t) : Together run₁ run₂ ok' s t := by
  refine Relation.ReflTransGen.mono (fun u v huv ↦ ?_) s t h
  obtain ⟨call, reply₁, reply₂, hcall, hrun⟩ := huv
  exact ⟨call, reply₁, reply₂, hok call u hcall, hrun⟩

/-- A relation that every common call keeps holds of every pair of states reached. -/
theorem Together.invariant {run₁ : κ → σ → Except ε (ρ × σ)} {run₂ : κ → τ → Except ε (ρ × τ)}
    {ok : κ → σ × τ → Prop} {s t : σ × τ} (Rel : σ × τ → Prop)
    (hstep : ∀ call s reply₁ reply₂ t, Rel s → ok call s → run₁ call s.1 = .ok (reply₁, t.1) →
      run₂ call s.2 = .ok (reply₂, t.2) → Rel t)
    (h : Together run₁ run₂ ok s t) (hs : Rel s) : Rel t := by
  induction h with
  | refl => exact hs
  | tail _ hlast ih =>
    obtain ⟨call, reply₁, reply₂, hok, hrun₁, hrun₂⟩ := hlast
    exact hstep call _ reply₁ reply₂ _ ih hok hrun₁ hrun₂

end OsAssignments.Library
