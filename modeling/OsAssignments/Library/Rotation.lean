import Mathlib

/-!
# Turns in a circle

The head of a queue takes a turn and goes to the end of the queue. `takeTurns` lists who takes the
first `n` turns; each member of a queue of `m` takes one in every `m` turns, the first of them after
those that stand before it (`count_takeTurns`).
-/

set_option autoImplicit false
set_option relaxedAutoImplicit false

namespace OsAssignments.Library

variable {α : Type*}

/-- The first turns of a queue. -/
def takeTurns : ℕ → List α → List α
  | 0, _ => []
  | _ + 1, [] => []
  | n + 1, x :: rest => x :: takeTurns n (rest ++ [x])

theorem mem_of_mem_takeTurns {n : ℕ} {q : List α} {x : α} (h : x ∈ takeTurns n q) : x ∈ q := by
  induction n generalizing q with
  | zero => cases h
  | succ n ih =>
    cases q with
    | nil => cases h
    | cons y rest =>
      rcases List.mem_cons.mp h with rfl | h
      · exact List.mem_cons_self
      · have hrotated := ih h
        rwa [List.mem_append, List.mem_singleton, or_comm, ← List.mem_cons] at hrotated

variable [DecidableEq α]

/-- The turns of a member of the queue. -/
theorem count_takeTurns (n : ℕ) {q : List α} {x : α} (hq : q.Nodup) (hx : x ∈ q) :
    (takeTurns n q).count x = (n + (q.length - 1 - q.idxOf x)) / q.length := by
  induction n generalizing q with
  | zero =>
    have hpos := List.length_pos_of_mem hx
    rw [takeTurns, List.count_nil, Nat.div_eq_of_lt (by omega)]
  | succ n ih =>
    obtain - | ⟨y, rest⟩ := q
    · cases hx
    have hrotated : (rest ++ [y]).Nodup :=
      (List.perm_append_singleton y rest).nodup_iff.mpr hq
    have hmem : x ∈ rest ++ [y] := by
      rwa [List.mem_append, List.mem_singleton, or_comm, ← List.mem_cons]
    have hlength : (rest ++ [y]).length = (y :: rest).length := by
      rw [List.length_append, List.length_singleton, List.length_cons]
    rw [takeTurns, List.count_cons, ih hrotated hmem, hlength]
    have hy : y ∉ rest := (List.nodup_cons.mp hq).1
    by_cases hxy : x = y
    · -- the head is at the end of the next queue
      subst hxy
      rw [List.idxOf_cons_self, List.idxOf_append_of_notMem hy, List.idxOf_cons_self,
        List.length_cons, if_pos (beq_self_eq_true x), ← Nat.add_div_right _ (Nat.succ_pos _)]
      congr 1
      omega
    · have hxrest : x ∈ rest := (List.mem_cons.mp hx).resolve_left hxy
      have hlt := List.idxOf_lt_length_of_mem hxrest
      rw [List.idxOf_cons_ne _ (Ne.symm hxy), List.idxOf_append_of_mem hxrest, List.length_cons,
        if_neg (by simpa using Ne.symm hxy), add_zero]
      congr 1
      omega

end OsAssignments.Library
