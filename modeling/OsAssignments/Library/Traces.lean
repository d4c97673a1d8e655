import Mathlib

/-!
# Replies of whole runs

`replies run calls s` is what a machine answers to a list of calls, or the fault at which it dies. A
specification is a relation `spec call d reply d'` on abstract states, and `Conforms spec` is the
same for a list of calls. If every call that meets a promise is answered as the specification says
and keeps a relation between the states, so is every list of calls that meet it
(`Simulates.replies`). Calls that change no abstract state can be left out (`Conforms.filter`).
-/

set_option autoImplicit false
set_option relaxedAutoImplicit false

namespace OsAssignments.Library

variable {κ ρ ε σ δ : Type*}

/-- The replies to a list of calls, one after the other. -/
def replies (run : κ → σ → Except ε (ρ × σ)) : List κ → σ → Except ε (List ρ × σ)
  | [], s => .ok ([], s)
  | call :: calls, s =>
    match run call s with
    | .error fault => .error fault
    | .ok (reply, s) => (replies run calls s).map fun (rest, s) ↦ (reply :: rest, s)

/-- Replies that a specification allows, with the abstract states in between. -/
inductive Conforms (spec : κ → δ → ρ → δ → Prop) : List κ → δ → List ρ → δ → Prop
  | nil (d : δ) : Conforms spec [] d [] d
  | cons {call : κ} {calls : List κ} {d d' d'' : δ} {reply : ρ} {rest : List ρ}
    (hstep : spec call d reply d') (hrest : Conforms spec calls d' rest d'') :
    Conforms spec (call :: calls) d (reply :: rest) d''

/-- The calls of a list keep their promises along every allowed way through the specification. -/
inductive Promised (spec : κ → δ → ρ → δ → Prop) (ok : κ → δ → Prop) : List κ → δ → Prop
  | nil (d : δ) : Promised spec ok [] d
  | cons {call : κ} {calls : List κ} {d : δ} (hok : ok call d)
    (hrest : ∀ reply d', spec call d reply d' → Promised spec ok calls d') :
    Promised spec ok (call :: calls) d

/-- Each promised call is answered as specified, and the states stay related. -/
def Simulates (run : κ → σ → Except ε (ρ × σ)) (spec : κ → δ → ρ → δ → Prop) (ok : κ → δ → Prop)
    (Rel : σ → δ → Prop) : Prop :=
  ∀ call s d, Rel s d → ok call d →
    ∃ reply s' d', run call s = .ok (reply, s') ∧ spec call d reply d' ∧ Rel s' d'

variable {run : κ → σ → Except ε (ρ × σ)} {spec : κ → δ → ρ → δ → Prop} {ok : κ → δ → Prop}
  {Rel : σ → δ → Prop} {calls : List κ} {s : σ} {d : δ}

/-- A simulation answers every list of promised calls as specified, and dies in none. -/
theorem Simulates.replies (h : Simulates run spec ok Rel) (hcalls : Promised spec ok calls d)
    (hrel : Rel s d) :
    ∃ rs s' d', replies run calls s = .ok (rs, s') ∧ Conforms spec calls d rs d' ∧
      Rel s' d' := by
  induction hcalls generalizing s with
  | nil d => exact ⟨[], s, d, rfl, .nil d, hrel⟩
  | cons hok _ ih =>
    obtain ⟨reply, s', d', hrun, hspec, hrel'⟩ := h _ _ _ hrel hok
    obtain ⟨rest, s'', d'', hrest, hconforms, hrel''⟩ := ih reply d' hspec hrel'
    refine ⟨reply :: rest, s'', d'', ?_, .cons hspec hconforms, hrel''⟩
    simp only [Library.replies, hrun, hrest]
    rfl

/-- A machine that never dies answers every list of calls. -/
theorem exists_replies (htotal : ∀ call s, ∃ r s', run call s = .ok (r, s')) (calls : List κ)
    (s : σ) :
    ∃ rs s', replies run calls s = .ok (rs, s') := by
  induction calls generalizing s with
  | nil => exact ⟨[], s, rfl⟩
  | cons call calls ih =>
    obtain ⟨r, t, hcall⟩ := htotal call s
    obtain ⟨rs, s', hrest⟩ := ih t
    refine ⟨r :: rs, s', ?_⟩
    simp only [Library.replies, hcall, hrest]
    rfl

/-- A state from which calls lead to a good one is good, when each call has this property. -/
theorem good_of_replies {Good : σ → Prop}
    (hback : ∀ call s r s', run call s = .ok (r, s') → Good s' → Good s) {rs : List ρ} {s' : σ}
    (hrun : replies run calls s = .ok (rs, s')) (hgood : Good s') : Good s := by
  induction calls generalizing s rs with
  | nil =>
    cases hrun
    exact hgood
  | cons call calls ih =>
    rw [Library.replies] at hrun
    split at hrun
    · cases hrun
    · rename_i reply t hcall
      cases hrest : Library.replies run calls t with
      | error fault =>
        rw [hrest] at hrun
        cases hrun
      | ok last =>
        rw [hrest] at hrun
        obtain ⟨rfl, rfl⟩ := Prod.mk.inj (Except.ok.inj hrun)
        exact hback call s reply t hcall (ih hrest)

/-- A list of calls is answered as specified when each call is that ends in a good state, and a
state from which a good one is reached is good. -/
theorem Conforms.of_replies {Good : σ → Prop}
    (hback : ∀ call s r s', run call s = .ok (r, s') → Good s' → Good s)
    (hstep : ∀ call s d r s', Rel s d → ok call d → run call s = .ok (r, s') → Good s' →
      ∃ d', spec call d r d' ∧ Rel s' d')
    (hcalls : Promised spec ok calls d) {rs : List ρ} {s' : σ}
    (hrun : replies run calls s = .ok (rs, s')) (hgood : Good s') (hrel : Rel s d) :
    ∃ d', Conforms spec calls d rs d' ∧ Rel s' d' := by
  induction calls generalizing s d rs with
  | nil =>
    cases hrun
    exact ⟨d, .nil d, hrel⟩
  | cons call calls ih =>
    rw [Library.replies] at hrun
    split at hrun
    · cases hrun
    · rename_i reply t hcall
      cases hrest : Library.replies run calls t with
      | error fault =>
        rw [hrest] at hrun
        cases hrun
      | ok last =>
        rw [hrest] at hrun
        obtain ⟨rfl, rfl⟩ := Prod.mk.inj (Except.ok.inj hrun)
        -- the state in between is good, whatever the specification says of it
        have ht : Good t := good_of_replies hback hrest hgood
        cases hcalls with
        | cons hok hpromised =>
          obtain ⟨d₁, hspec, hrel'⟩ := hstep call s d reply t hrel hok hcall ht
          obtain ⟨d', hconforms, hlast⟩ := ih (hpromised reply d₁ hspec) hrest hrel'
          exact ⟨d', .cons hspec hconforms, hlast⟩

/-- What every call of a list keeps holds at its end. -/
theorem replies_invariant {Inv : σ → Prop} {rs : List ρ} {s' : σ}
    (hstep : ∀ call ∈ calls, ∀ s r s', Inv s → run call s = .ok (r, s') → Inv s')
    (hrun : replies run calls s = .ok (rs, s')) (hs : Inv s) : Inv s' := by
  induction calls generalizing s rs with
  | nil =>
    cases hrun
    exact hs
  | cons call calls ih =>
    rw [Library.replies] at hrun
    split at hrun
    · cases hrun
    · rename_i reply t hcall
      have ht : Inv t := hstep call List.mem_cons_self s reply t hs hcall
      cases hrest : Library.replies run calls t with
      | error fault =>
        rw [hrest] at hrun
        cases hrun
      | ok last =>
        rw [hrest] at hrun
        obtain rfl : last.2 = s' := (Prod.mk.inj (Except.ok.inj hrun)).2
        exact ih (fun call' hcall' ↦ hstep call' (List.mem_cons_of_mem call hcall')) hrest ht

/-- Calls that a function takes to calls with the same answers have the same answers. -/
theorem conforms_map_iff {f : κ → κ}
    (hf : ∀ call, spec (f call) = spec call) {rs : List ρ} {d' : δ} :
    Conforms spec (calls.map f) d rs d' ↔ Conforms spec calls d rs d' := by
  induction calls generalizing d rs with
  | nil => exact Iff.rfl
  | cons call calls ih =>
    rw [List.map_cons]
    constructor
    · rintro (_ | ⟨hstep, hrest⟩)
      exact .cons (hf call ▸ hstep) (ih.mp hrest)
    · rintro (_ | ⟨hstep, hrest⟩)
      exact .cons ((hf call).symm ▸ hstep) (ih.mpr hrest)

theorem promised_map_iff {f : κ → κ} (hf : ∀ call, spec (f call) = spec call)
    (hok : ∀ call, ok (f call) = ok call) :
    Promised spec ok (calls.map f) d ↔ Promised spec ok calls d := by
  induction calls generalizing d with
  | nil => exact ⟨fun _ ↦ .nil d, fun _ ↦ .nil d⟩
  | cons call calls ih =>
    rw [List.map_cons]
    constructor
    · rintro (_ | ⟨hcall, hrest⟩)
      exact .cons (hok call ▸ hcall) fun reply d' hstep ↦
        ih.mp (hrest reply d' ((hf call).symm ▸ hstep))
    · rintro (_ | ⟨hcall, hrest⟩)
      exact .cons ((hok call).symm ▸ hcall) fun reply d' hstep ↦
        ih.mpr (hrest reply d' (hf call ▸ hstep))

/-- The replies to the calls that `p` keeps. -/
def keptReplies (p : κ → Bool) (calls : List κ) (rs : List ρ) : List ρ :=
  ((calls.zip rs).filter fun answer ↦ p answer.1).map Prod.snd

/-- Calls that change nothing can be left out, with their replies. -/
theorem Conforms.filter {p : κ → Bool}
    (hskip : ∀ call d r d', p call = false → spec call d r d' → d' = d) {rs : List ρ} {d' : δ}
    (h : Conforms spec calls d rs d') :
    Conforms spec (calls.filter p) d (keptReplies p calls rs) d' := by
  induction h with
  | nil d => exact .nil d
  | @cons call calls d d' d'' reply rest hstep _ ih =>
    cases hp : p call with
    | true =>
      have hkept : keptReplies p (call :: calls) (reply :: rest) =
          reply :: keptReplies p calls rest := by
        simp only [keptReplies, List.zip_cons_cons, List.filter_cons, hp, if_true, List.map_cons]
      rw [List.filter_cons_of_pos hp, hkept]
      exact .cons hstep ih
    | false =>
      have hkept : keptReplies p (call :: calls) (reply :: rest) = keptReplies p calls rest := by
        simp only [keptReplies, List.zip_cons_cons, List.filter_cons, hp, if_false,
          Bool.false_eq_true]
      rw [List.filter_cons_of_neg (by rw [hp]; exact Bool.false_ne_true), hkept]
      exact hskip call d reply d' hp hstep ▸ ih

theorem Promised.filter {p : κ → Bool} (hskip : ∀ call d, p call = false → ∃ r, spec call d r d)
    (h : Promised spec ok calls d) : Promised spec ok (calls.filter p) d := by
  induction h with
  | nil d => exact .nil d
  | @cons call calls d hok _ ih =>
    cases hp : p call with
    | true =>
      rw [List.filter_cons_of_pos hp]
      exact .cons hok ih
    | false =>
      rw [List.filter_cons_of_neg (by rw [hp]; exact Bool.false_ne_true)]
      obtain ⟨r, hstep⟩ := hskip call d hp
      exact ih r d hstep

/-- Calls that each keep a promise which no state decides. -/
theorem promised_of_forall {ok : κ → Prop} (h : ∀ call ∈ calls, ok call) :
    Promised spec (fun call _ ↦ ok call) calls d := by
  induction calls generalizing d with
  | nil => exact .nil d
  | cons call calls ih =>
    exact .cons (h call List.mem_cons_self) fun _ _ _ ↦
      ih fun call' hcall' ↦ h call' (List.mem_cons_of_mem call hcall')

/-- The last call of a list is answered after the others. -/
theorem Conforms.last {call : κ} {rs : List ρ} {d' : δ}
    (h : Conforms spec (calls ++ [call]) d rs d') :
    ∃ rest d₁ r, Conforms spec calls d rest d₁ ∧ spec call d₁ r d' ∧ rs = rest ++ [r] := by
  induction calls generalizing d rs with
  | nil =>
    rcases h with _ | ⟨hstep, hrest⟩
    cases hrest
    exact ⟨[], d, _, .nil d, hstep, rfl⟩
  | cons first calls ih =>
    rcases h with _ | ⟨hstep, hrest⟩
    obtain ⟨rest, d₁, r, hconforms, hlast, rfl⟩ := ih hrest
    exact ⟨_ :: rest, d₁, r, .cons hstep hconforms, hlast, rfl⟩

/-- Weaker promises are kept as well. -/
theorem Promised.mono {ok' : κ → δ → Prop} (hok : ∀ call d, ok call d → ok' call d)
    (h : Promised spec ok calls d) : Promised spec ok' calls d := by
  induction h with
  | nil d => exact .nil d
  | cons hcall _ ih => exact .cons (hok _ _ hcall) ih

/-- Where a promised call has one answer, promised calls have one list of answers. -/
theorem Conforms.unique
    (huniq : ∀ call d r d' r' d'', ok call d → spec call d r d' → spec call d r' d'' →
      r = r' ∧ d' = d'') (hcalls : Promised spec ok calls d) {rs rs' : List ρ} {d' d'' : δ}
    (h : Conforms spec calls d rs d') (h' : Conforms spec calls d rs' d'') :
    rs = rs' ∧ d' = d'' := by
  induction h generalizing rs' with
  | nil d =>
    cases h'
    exact ⟨rfl, rfl⟩
  | cons hstep _ ih =>
    cases h' with
    | cons hstep' hrest' =>
      cases hcalls with
      | cons hok hpromised =>
        obtain ⟨rfl, rfl⟩ := huniq _ _ _ _ _ _ hok hstep hstep'
        obtain ⟨rfl, rfl⟩ := ih (hpromised _ _ hstep) hrest'
        exact ⟨rfl, rfl⟩

/-- What every promised answer keeps holds at the end. -/
theorem Conforms.invariant (Inv : δ → Prop)
    (hstep : ∀ call d reply d', Inv d → ok call d → spec call d reply d' → Inv d')
    (hcalls : Promised spec ok calls d) {rs : List ρ} {d' : δ} (h : Conforms spec calls d rs d')
    (hd : Inv d) : Inv d' := by
  induction h with
  | nil d => exact hd
  | cons hspec _ ih =>
    cases hcalls with
    | cons hok hpromised => exact ih (hpromised _ _ hspec) (hstep _ _ _ _ hd hok hspec)

end OsAssignments.Library
