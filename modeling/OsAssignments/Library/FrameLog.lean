import Mathlib

/-!
# Logs of allocations, frees and accesses

A machine that allocates and frees frames from several regions keeps a log of what it does, newest
event first. `allocated` and `freed` read off what was taken and given back, and `SafeLog` says that
no access in the log is to a frame that had been freed by then.

A frame is in use after its allocation until it is freed (`InUse`). `FreesInUse` says that only
frames in use were freed, and `AllocsUnused` that the frames allocated were not in use. The first
two depend on the `moves` of the log, the events that are not accesses.
-/

set_option autoImplicit false
set_option relaxedAutoImplicit false

namespace OsAssignments.Library

variable {ρ φ : Type*}

/-- An event of a log. -/
inductive FrameEvent (ρ φ : Type*)
  | alloc (region : ρ) (frame : φ)
  | free (region : ρ) (frame : φ)
  | access (frame : φ)

/-- The frames allocated, with their regions. -/
def allocated : List (FrameEvent ρ φ) → List (ρ × φ)
  | [] => []
  | .alloc r f :: log => (r, f) :: allocated log
  | _ :: log => allocated log

/-- The frames freed, with the regions they were freed to. -/
def freed : List (FrameEvent ρ φ) → List (ρ × φ)
  | [] => []
  | .free r f :: log => (r, f) :: freed log
  | _ :: log => freed log

/-- No access to a frame after a free of it. -/
def SafeLog : List (FrameEvent ρ φ) → Prop
  | [] => True
  | .access f :: log => (∀ r, (r, f) ∉ freed log) ∧ SafeLog log
  | _ :: log => SafeLog log

section

variable (r : ρ) (f : φ) (log : List (FrameEvent ρ φ))

@[simp] theorem allocated_alloc : allocated (.alloc r f :: log) = (r, f) :: allocated log := rfl

@[simp] theorem allocated_free : allocated (.free r f :: log) = allocated log := rfl

@[simp] theorem allocated_access : allocated (.access f :: log) = allocated log := rfl

@[simp] theorem freed_alloc : freed (.alloc r f :: log) = freed log := rfl

@[simp] theorem freed_free : freed (.free r f :: log) = (r, f) :: freed log := rfl

@[simp] theorem freed_access : freed (.access f :: log) = freed log := rfl

@[simp] theorem safeLog_alloc : SafeLog (.alloc r f :: log) ↔ SafeLog log := Iff.rfl

@[simp] theorem safeLog_free : SafeLog (.free r f :: log) ↔ SafeLog log := Iff.rfl

@[simp] theorem safeLog_access :
    SafeLog (.access f :: log) ↔ (∀ r, (r, f) ∉ freed log) ∧ SafeLog log := Iff.rfl

end

/-- A log without frees is safe. -/
theorem safeLog_of_freed_nil {log : List (FrameEvent ρ φ)} (h : freed log = []) : SafeLog log := by
  induction log with
  | nil => trivial
  | cons event log ih =>
    cases event with
    | alloc r f => exact ih h
    | free r f => cases h
    | access f =>
      have hlog : freed log = [] := h
      refine ⟨fun r hr ↦ ?_, ih hlog⟩
      rw [hlog] at hr
      cases hr

theorem mem_freed_append {log log' : List (FrameEvent ρ φ)} {move : ρ × φ} (h : move ∈ freed log') :
    move ∈ freed (log ++ log') := by
  induction log with
  | nil => exact h
  | cons event log ih =>
    cases event with
    | alloc r f => exact ih
    | free r f => exact List.mem_cons_of_mem _ ih
    | access f => exact ih

/-- What is accessed in a safe log had not been freed before. -/
theorem SafeLog.notMem_freed {log log' : List (FrameEvent ρ φ)} {f : φ} (h : SafeLog (log ++ log'))
    (hf : .access f ∈ log) (r : ρ) : (r, f) ∉ freed log' := by
  induction log with
  | nil => cases hf
  | cons event log ih =>
    cases event with
    | alloc r f' => exact ih h ((List.mem_cons.mp hf).resolve_left fun heq ↦ by cases heq)
    | free r f' => exact ih h ((List.mem_cons.mp hf).resolve_left fun heq ↦ by cases heq)
    | access f' =>
      rcases List.mem_cons.mp hf with heq | hf
      · cases heq
        exact fun hmem ↦ h.1 r (mem_freed_append hmem)
      · exact ih h.2 hf

/-! ### Frames in use -/

/-- A frame that was allocated in a region and has not been freed since. -/
def InUse : List (FrameEvent ρ φ) → ρ → φ → Prop
  | [], _, _ => False
  | .alloc r f :: log, r', f' => (r', f') = (r, f) ∨ InUse log r' f'
  | .free r f :: log, r', f' => (r', f') ≠ (r, f) ∧ InUse log r' f'
  | .access _ :: log, r', f' => InUse log r' f'

/-- Every frame that was freed was in use. -/
def FreesInUse : List (FrameEvent ρ φ) → Prop
  | [] => True
  | .free r f :: log => InUse log r f ∧ FreesInUse log
  | _ :: log => FreesInUse log

/-- Every frame that was allocated is one that `ok` admits and was not in use. -/
def AllocsUnused (ok : φ → Prop) : List (FrameEvent ρ φ) → Prop
  | [] => True
  | .alloc _ f :: log => (ok f ∧ ∀ r, ¬InUse log r f) ∧ AllocsUnused ok log
  | _ :: log => AllocsUnused ok log

instance decidableInUse [DecidableEq ρ] [DecidableEq φ] :
    (log : List (FrameEvent ρ φ)) → (r : ρ) → (f : φ) → Decidable (InUse log r f)
  | [], _, _ => inferInstanceAs (Decidable False)
  | .alloc _ _ :: log, r, f =>
    have := decidableInUse log r f
    inferInstanceAs (Decidable (_ ∨ InUse log r f))
  | .free _ _ :: log, r, f =>
    have := decidableInUse log r f
    inferInstanceAs (Decidable (_ ∧ InUse log r f))
  | .access _ :: log, r, f => decidableInUse log r f

instance decidableAllocsUnused [Fintype ρ] [DecidableEq ρ] [DecidableEq φ] (ok : φ → Prop)
    [DecidablePred ok] : (log : List (FrameEvent ρ φ)) → Decidable (AllocsUnused ok log)
  | [] => inferInstanceAs (Decidable True)
  | .alloc _ f :: log =>
    have := decidableAllocsUnused ok log
    inferInstanceAs (Decidable ((ok f ∧ ∀ r, ¬InUse log r f) ∧ AllocsUnused ok log))
  | .free _ _ :: log => decidableAllocsUnused ok log
  | .access _ :: log => decidableAllocsUnused ok log

/-- The events that are not accesses. -/
def moves : List (FrameEvent ρ φ) → List (FrameEvent ρ φ)
  | [] => []
  | .access _ :: log => moves log
  | event :: log => event :: moves log

section

variable {r r' : ρ} {f f' : φ} {log log' : List (FrameEvent ρ φ)} {ok : φ → Prop}

@[simp] theorem inUse_alloc :
    InUse (.alloc r f :: log) r' f' ↔ (r', f') = (r, f) ∨ InUse log r' f' := Iff.rfl

@[simp] theorem inUse_free :
    InUse (.free r f :: log) r' f' ↔ (r', f') ≠ (r, f) ∧ InUse log r' f' := Iff.rfl

@[simp] theorem moves_access : moves (.access f :: log) = moves log := rfl

@[simp] theorem moves_alloc : moves (.alloc r f :: log) = .alloc r f :: moves log := rfl

@[simp] theorem moves_free : moves (.free r f :: log) = .free r f :: moves log := rfl

theorem inUse_moves : InUse (moves log) r f ↔ InUse log r f := by
  induction log with
  | nil => exact Iff.rfl
  | cons event log ih =>
    cases event with
    | alloc r' f' => exact or_congr_right ih
    | free r' f' => exact and_congr_right' ih
    | access f' => exact ih

/-- Accesses are no moves. -/
theorem moves_append_accesses {accesses : List (FrameEvent ρ φ)}
    (h : ∀ event ∈ accesses, ∃ f, event = .access f) (log : List (FrameEvent ρ φ)) :
    moves (accesses ++ log) = moves log := by
  induction accesses with
  | nil => rfl
  | cons event accesses ih =>
    obtain ⟨f, rfl⟩ := h event List.mem_cons_self
    exact ih fun event' hevent ↦ h event' (List.mem_cons_of_mem _ hevent)

theorem freesInUse_moves : FreesInUse (moves log) ↔ FreesInUse log := by
  induction log with
  | nil => exact Iff.rfl
  | cons event log ih =>
    cases event with
    | alloc r f => exact ih
    | free r f => exact and_congr inUse_moves ih
    | access f => exact ih

/-- The allocations before an event were of unused frames as well. -/
theorem AllocsUnused.of_append (h : AllocsUnused ok (log' ++ log)) : AllocsUnused ok log := by
  induction log' with
  | nil => exact h
  | cons event log' ih =>
    cases event with
    | alloc r f => exact ih h.2
    | free r f => exact ih h
    | access f => exact ih h

end

end OsAssignments.Library
