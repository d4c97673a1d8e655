import OsAssignments.Objstore.Halves

/-!
# Creates, destroys and lookups in a serial order

A call takes effect in its first step, the section under `i_lock`. `Follows` relates the store that
the threads share to the store that the calls would have left, one after the other in the order of
their first steps: a slot whose destruction is not finished still has its old record, and a slot
whose creation is not finished still has its old key. As long as no creation claims a slot of the
first kind and no search ends at a slot of the second kind (`Undisturbed`), a first step does what
the whole call does to the serial store, and a second step brings the two stores together.
-/

set_option autoImplicit false
set_option relaxedAutoImplicit false

namespace OsAssignments.Objstore

open Library

/-! ### What is claimed -/

/-- The reply of a call that has returned. -/
def Phase.result : Phase → Option ℤ
  | .returned reply => some reply
  | _ => none

/-- The same live objects, with the same records and keys. -/
structure SameObjects (s s' : Store) : Prop where
  bit : ∀ k < 1015808, s.inodeBit k = s'.inodeBit k
  live : ∀ k, Live s k ↔ Live s' k
  field : ∀ k f, Live s' k → s.field k f = s'.field k f
  key : ∀ k (key : Key), key.Short → Live s' k → keyEq s.a k key = keyEq s'.a k key

variable {ι : Type*}

/-- The calls returned as in a serial order, which leaves the same objects. -/
def Serialisable (requests : ι → Request) (s₀ : Store) (p : Pool ι Phase Store) : Prop :=
  ∃ trace s, Serial (fun i ↦ (requests i).answer) s₀ trace s ∧
    Answers Phase.result p.phase trace ∧ SameObjects p.shared s

/-- The step is none of the bad ones: no creation claims a slot whose record is still to be reset,
and no search ends at a slot that still has the key it had when it was claimed. -/
def Undisturbed (requests : ι → Request) (i : ι) (p : Pool ι Phase Store) : Prop :=
  match requests i, p.phase i with
  | .create _, .called => ∀ k j, LowestClear p.shared k → p.phase j ≠ .unlinked k
  | .destroy key, .called => ∀ k j, Finds key p.shared k → p.phase j ≠ .claimed k
  | .lookup key, .called => ∀ k j, Finds key p.shared k → p.phase j ≠ .claimed k
  | _, _ => True

/-! ### The serial store -/

/-- The reply of a call that has taken effect. -/
def Phase.reply : Phase → Option ℤ
  | .called => none
  | .claimed k => some (k + 2)
  | .unlinked _ => some 0
  | .returned reply => some reply

/-- The threads with the store they share, and the store after the calls that have taken effect. -/
structure Follows (requests : ι → Request) (p : Pool ι Phase Store) (s : Store) : Prop where
  bit : ∀ k, p.shared.inodeBit k = s.inodeBit k
  field : ∀ k f, (∀ j, p.phase j ≠ .unlinked k) → p.shared.field k f = s.field k f
  key : ∀ k (key : Key), key.Short → (∀ j, p.phase j ≠ .claimed k) →
    keyEq p.shared.a k key = keyEq s.a k key
  taken : ∀ j k, p.phase j = .claimed k → Live s k ∧ s.field k .id = k + 2 ∧
    ∀ key : Key, key.Short → keyEq s.a k key = decide (key = (requests j).key)
  gone : ∀ j k, p.phase j = .unlinked k → s.inodeBit k = false ∧
    ∀ f : Field, if f.reset = true then s.field k f = 0 else p.shared.field k f = s.field k f
  found : ∀ j reply, (∀ key, requests j ≠ .destroy key) → (p.phase j).reply = some reply →
    reply = -1 ∨ ∃ k, Live s k ∧ keyEq s.a k (requests j).key = true ∧ s.field k .id = reply
  target : ∀ j key, requests j = .destroy key → p.phase j = .called →
    ∃ k, Live s k ∧ keyEq s.a k key = true

variable {requests : ι → Request} {p : Pool ι Phase Store} {s t : Store} {i : ι} {k : ℕ} {key : Key}

namespace Follows

theorem live_iff (h : Follows requests p s) : Live p.shared k ↔ Live s k := by
  have hfield : s.inodeBit k = true → p.shared.field k .id = s.field k .id := fun hbit ↦ by
    refine h.field k .id fun j hj ↦ ?_
    have hclear := (h.gone j k hj).1
    rw [hbit] at hclear
    cases hclear
  constructor
  · intro hl
    have hbit := (h.bit k).symm.trans hl.bit
    exact ⟨hl.slot, hbit, hfield hbit ▸ hl.id⟩
  · intro hl
    exact ⟨hl.slot, (h.bit k).trans hl.bit, (hfield hl.bit).symm ▸ hl.id⟩

/-- A slot found in the serial store is found in the shared one. -/
theorem match_shared (h : Follows requests p s) (hkey : key.Short)
    (hdistinct : ∀ j l, p.phase j = .claimed l → (requests j).key ≠ key)
    (hfound : Live s k ∧ keyEq s.a k key = true) :
    Live p.shared k ∧ keyEq p.shared.a k key = true := by
  refine ⟨h.live_iff.mpr hfound.1, ?_⟩
  rw [h.key k key hkey, hfound.2]
  intro j hj
  have heq := hfound.2
  rw [(h.taken j k hj).2.2 key hkey, decide_eq_true_iff] at heq
  exact hdistinct j k hj heq.symm

/-- A search of the shared store that does not end at a claimed slot ends as in the serial store. -/
theorem finds (h : Follows requests p s) (hkey : key.Short)
    (hdistinct : ∀ j l, p.phase j = .claimed l → (requests j).key ≠ key)
    (hfinds : Finds key p.shared k) (hclaimed : ∀ j, p.phase j ≠ .claimed k) : Finds key s k where
  live := h.live_iff.mp hfinds.live
  found := (h.key k key hkey hclaimed).symm.trans hfinds.found
  least := fun j hj hfound ↦ hfinds.least j hj (h.match_shared hkey hdistinct hfound)

/-- No step dies: the object that a destruction looks for is there. -/
theorem next_ok (h : Follows requests p s) (hshort : ∀ j, (requests j).key.Short)
    (hdistinct : ∀ j l, (requests j).key = (requests l).key → j = l) (i : ι) :
    ∃ result, (requests i).next (p.phase i) p.shared = .ok result := by
  cases hi : requests i with
  | create key =>
    cases hphase : p.phase i with
    | called =>
      rw [Request.next]
      rcases createClaim_cases p.shared with ⟨-, hclaim⟩ | ⟨k, -, hclaim⟩ <;>
        exact hclaim ▸ ⟨_, rfl⟩
    | claimed k => exact ⟨_, Request.next_claimed ..⟩
    | unlinked k | returned reply => exact ⟨_, rfl⟩
  | destroy key =>
    cases hphase : p.phase i with
    | called =>
      rw [Request.next]
      rcases destroyUnlink_cases key p.shared with ⟨-, hnone⟩ | ⟨k, -, hunlink⟩
      · obtain ⟨k, hfound⟩ := h.target i key hi hphase
        have hkey : (requests i).key = key := by rw [hi]; rfl
        refine absurd (h.match_shared (hkey ▸ hshort i) (fun j l hj heq ↦ ?_) hfound) (hnone k)
        rw [hdistinct j i (heq.trans hkey.symm), hphase] at hj
        cases hj
      · exact hunlink ▸ ⟨_, rfl⟩
    | unlinked k => exact ⟨_, Request.next_unlinked ..⟩
    | claimed k | returned reply => exact ⟨_, rfl⟩
  | lookup key =>
    cases hphase : p.phase i with
    | called => exact ⟨_, Request.next_lookup ..⟩
    | claimed k | unlinked k | returned reply => exact ⟨_, rfl⟩

/-- When all calls have returned the two stores hold the same objects. -/
theorem sameObjects (h : Follows requests p s)
    (hreturned : ∀ j, ∃ reply, p.phase j = .returned reply) : SameObjects p.shared s := by
  have hphase : ∀ j x, (∀ reply, x ≠ Phase.returned reply) → p.phase j ≠ x := fun j x hx heq ↦ by
    obtain ⟨reply, hreply⟩ := hreturned j
    exact hx reply (heq.symm.trans hreply)
  exact ⟨fun k _ ↦ h.bit k, fun k ↦ h.live_iff, fun k f _ ↦ h.field k f fun j ↦
    hphase j _ (by simp), fun k key hkey _ ↦ h.key k key hkey fun j ↦ hphase j _ (by simp)⟩

/-! ### First steps -/

variable [DecidableEq ι]

/-- What the other calls have found or still have to find is kept by the call that takes effect. -/
theorem others {reply : ℤ} {l : Phase} (h : Follows requests p s)
    (hshort : ∀ j, (requests j).key.Short)
    (hdistinct : ∀ j l, (requests j).key = (requests l).key → j = l)
    (hrun : (requests i).answer s = .ok (reply, t)) (hl : l.reply = some reply)
    (hmine : (∀ key, requests i ≠ .destroy key) → reply = -1 ∨
      ∃ k, Live t k ∧ keyEq t.a k (requests i).key = true ∧ t.field k .id = reply) :
    (∀ j reply, (∀ key, requests j ≠ .destroy key) →
      (Function.update p.phase i l j).reply = some reply →
      reply = -1 ∨ ∃ k, Live t k ∧ keyEq t.a k (requests j).key = true ∧ t.field k .id = reply) ∧
    ∀ j key, requests j = .destroy key → Function.update p.phase i l j = .called →
      ∃ k, Live t k ∧ keyEq t.a k key = true := by
  have hkeeps : ∀ j k, j ≠ i → Live s k → keyEq s.a k (requests j).key = true →
      Live t k ∧ keyEq t.a k (requests j).key = true ∧ t.field k .id = s.field k .id :=
    fun j k hj hlive heq ↦ Request.answer_keeps (hshort i) (hshort j)
      (fun hsame ↦ hj (hdistinct j i hsame.symm)) hlive heq hrun
  refine ⟨fun j r hj hr ↦ ?_, fun j key hj hcalled ↦ ?_⟩
  · by_cases hji : j = i
    · rw [hji, Function.update_self, hl] at hr
      rw [hji] at hj ⊢
      exact Option.some.inj hr ▸ hmine hj
    · rw [Function.update_of_ne hji] at hr
      rcases h.found j r hj hr with hnone | ⟨k, hlive, heq, hid⟩
      · exact .inl hnone
      · obtain ⟨hlive', heq', hid'⟩ := hkeeps j k hji hlive heq
        exact .inr ⟨k, hlive', heq', hid'.trans hid⟩
  · obtain ⟨hji, hcalled⟩ := of_update_eq hcalled fun heq ↦ by
      rw [heq] at hl
      cases hl
    obtain ⟨k, hlive, heq⟩ := h.target j key hj hcalled
    have hkey : (requests j).key = key := by rw [hj]; rfl
    obtain ⟨hlive', heq', -⟩ := hkeeps j k hji hlive (hkey.symm ▸ heq)
    exact ⟨k, hlive', hkey ▸ heq'⟩

/-- The first step of a creation that claims a slot. -/
theorem claim (h : Follows requests p s) (hshort : ∀ j, (requests j).key.Short)
    (hdistinct : ∀ j l, (requests j).key = (requests l).key → j = l)
    (hi : requests i = .create key) (hcalled : p.phase i = .called)
    (hlowest : LowestClear p.shared k) (hapart : ∀ j, p.phase j ≠ .unlinked k) :
    ∃ t, (requests i).answer s = .ok ((k : ℤ) + 2, t) ∧
      Follows requests ⟨Function.update p.phase i (.claimed k), claimed k p.shared⟩ t := by
  have hkey : (requests i).key = key := by rw [hi]; rfl
  have hlow : LowestClear s k := hlowest.congr fun j ↦ (h.bit j).symm
  have hnew : ∀ j, Live s j → j ≠ k := by
    rintro j hlive rfl
    have hbit := hlive.bit
    rw [hlow.clear] at hbit
    cases hbit
  have hc := created_claimed (s := s) hlow.slot (hkey ▸ hshort i)
  obtain ⟨t, hrun, hc⟩ : ∃ t, (requests i).answer s = .ok ((k : ℤ) + 2, t) ∧ Created key k s t := by
    refine ⟨_, ?_, hc⟩
    rw [hi, Request.answer, createObject_spec key hlow.slot hlow.clear hlow.least]
    have hid := hc.field k .id
    rw [if_pos ⟨rfl, rfl⟩] at hid
    exact congrArg Except.ok (congrArg₂ Prod.mk hid rfl)
  have hsh := created_claimed (s := p.shared) hlow.slot (hkey ▸ hshort i)
  have hfield : ∀ k' f, (claimed k p.shared).field k' f =
      if k' = k ∧ f = .id then (k : ℤ) + 2 else p.shared.field k' f := fun k' f ↦ by
    rw [← hsh.field]
    exact (getField_setKey _ _ _ _ (hkey ▸ hshort i)).symm
  have hmine : Live t k ∧ keyEq t.a k key = true ∧ t.field k .id = (k : ℤ) + 2 := by
    refine ⟨(hc.live hlow.slot k).mpr (.inr rfl), ?_, ?_⟩
    · rw [hc.key k key (hkey ▸ hshort i), if_pos rfl, decide_eq_true rfl]
    · rw [hc.field, if_pos ⟨rfl, rfl⟩]
  obtain ⟨hfound, htarget⟩ := h.others (l := .claimed k) hshort hdistinct hrun rfl
    fun _ ↦ .inr ⟨k, hkey ▸ hmine⟩
  refine ⟨t, hrun, fun j ↦ ?_, fun j f hj ↦ ?_, fun j key' hkey' hj ↦ ?_, fun j l hj ↦ ?_,
    fun j l hj ↦ ?_, hfound, htarget⟩
  · rw [hc.inodeBit, ← h.bit]
    exact hsh.inodeBit j
  · have hold := h.field j f (forall_ne_of_update hj (by rw [hcalled]; simp))
    rw [hc.field, ← hold]
    exact hfield j f
  · have hjk : j ≠ k := by
      rintro rfl
      exact hj i (Function.update_self ..)
    have hold := h.key j key' hkey' (forall_ne_of_update hj (by rw [hcalled]; simp))
    rw [hc.key j key' hkey', if_neg hjk, ← hold]
    exact keyEq_setField _ _ _ _ _ hkey'
  · rcases update_cases hj with ⟨hji, hl⟩ | ⟨hji, hj⟩
    · cases hl
      refine ⟨hmine.1, hmine.2.2, fun key' hkey' ↦ ?_⟩
      rw [hc.key k key' hkey', if_pos rfl, hji, hkey]
    · obtain ⟨hlive, hid, hkeys⟩ := h.taken j l hj
      refine ⟨(hc.live hlow.slot l).mpr (.inl hlive), ?_, fun key' hkey' ↦ ?_⟩
      · rw [hc.field, if_neg fun hor ↦ hnew l hlive hor.1, hid]
      · rw [hc.key l key' hkey', if_neg (hnew l hlive), hkeys key' hkey']
  · obtain ⟨-, hold⟩ := of_update_eq hj (by simp)
    have hlk : l ≠ k := by
      rintro rfl
      exact hapart j hold
    obtain ⟨hclear, hreset⟩ := h.gone j l hold
    refine ⟨?_, fun f ↦ ?_⟩
    · rw [hc.inodeBit, if_neg hlk, hclear]
    · have hserial : t.field l f = s.field l f := by rw [hc.field, if_neg fun hor ↦ hlk hor.1]
      have hshared : (claimed k p.shared).field l f = p.shared.field l f := by
        rw [hfield, if_neg fun hor ↦ hlk hor.1]
      rw [hserial, hshared]
      exact hreset f

/-- The first step of a destruction. -/
theorem unlink (h : Follows requests p s) (hshort : ∀ j, (requests j).key.Short)
    (hdistinct : ∀ j l, (requests j).key = (requests l).key → j = l)
    (hi : requests i = .destroy key) (hcalled : p.phase i = .called)
    (hfinds : Finds key p.shared k) (hnamed : ∀ j, p.phase j ≠ .claimed k) :
    ∃ t, (requests i).answer s = .ok (0, t) ∧
      Follows requests ⟨Function.update p.phase i (.unlinked k), cleared k p.shared⟩ t := by
  have hkey : (requests i).key = key := by rw [hi]; rfl
  have hother : ∀ j l, p.phase j = .claimed l → (requests j).key ≠ key := by
    rintro j l hj heq
    rw [hdistinct j i (heq.trans hkey.symm), hcalled] at hj
    cases hj
  have hserial := h.finds (hkey ▸ hshort i) hother hfinds hnamed
  obtain ⟨t, hrun, hd⟩ : ∃ t, (requests i).answer s = .ok (0, t) ∧ Destroyed k s t := by
    rw [hi, Request.answer]
    rcases destroyObject_spec key s with
      ⟨-, hnone⟩ | ⟨j, hj, ⟨hbit, hid, hfound⟩, hleast, t, hrun, hd⟩
    · exact absurd ⟨hserial.live.bit, hserial.live.id, hserial.found⟩ (hnone k hserial.live.slot)
    · obtain rfl : j = k := hserial.unique ⟨⟨hj, hbit, hid⟩, hfound, fun l hl hor ↦
        hleast l hl ⟨hor.1.bit, hor.1.id, hor.2⟩⟩
      exact ⟨t, hrun, hd⟩
  have hgone : ∀ j, p.phase j ≠ .unlinked k := fun j hj ↦ by
    have hclear := (h.gone j k hj).1
    rw [hserial.live.bit] at hclear
    cases hclear
  have hfield : ∀ l f, l ≠ k ∨ f.reset = false → t.field l f = s.field l f := fun l f hlf ↦ by
    rw [hd.field, if_neg]
    rintro ⟨hl, hf⟩
    rcases hlf with hlf | hlf
    · exact hlf hl
    · rw [hf] at hlf
      cases hlf
  obtain ⟨hfound, htarget⟩ := h.others (l := .unlinked k) hshort hdistinct hrun rfl
    fun hne ↦ absurd hi (hne key)
  refine ⟨t, hrun, fun j ↦ ?_, fun j f hj ↦ ?_, fun j key' hkey' hj ↦ ?_, fun j l hj ↦ ?_,
    fun j l hj ↦ ?_, hfound, htarget⟩
  · rw [hd.inodeBit, inodeBit_cleared hfinds.live.bit, h.bit]
  · have hjk : j ≠ k := by
      rintro rfl
      exact hj i (Function.update_self ..)
    rw [hfield j f (.inl hjk)]
    exact h.field j f (forall_ne_of_update hj (by rw [hcalled]; simp))
  · rw [keyEq_of_bytes hd.bytes hkey']
    exact h.key j key' hkey' (forall_ne_of_update hj (by rw [hcalled]; simp))
  · obtain ⟨-, hold⟩ := of_update_eq hj (by simp)
    have hlk : l ≠ k := by
      rintro rfl
      exact hnamed j hold
    obtain ⟨hlive, hid, hkeys⟩ := h.taken j l hold
    refine ⟨(hd.live l).mpr ⟨hlive, hlk⟩, (hfield l .id (.inl hlk)).trans hid, fun key' hkey' ↦ ?_⟩
    rw [keyEq_of_bytes hd.bytes hkey', hkeys key' hkey']
  · have hreset : ∀ f : Field, l = k → f.reset = true → t.field l f = 0 := fun f hl hf ↦ by
      rw [hd.field, if_pos ⟨hl, hf⟩]
    rcases update_cases hj with ⟨-, hl⟩ | ⟨-, hold⟩
    · cases hl
      refine ⟨by rw [hd.inodeBit, if_pos rfl], fun f ↦ ?_⟩
      split_ifs with hf
      · exact hreset f rfl hf
      · rw [hfield k f (.inr (Bool.not_eq_true _ ▸ hf))]
        exact h.field k f hgone
    · have hlk : l ≠ k := by
        rintro rfl
        exact hgone j hold
      obtain ⟨hclear, hfields⟩ := h.gone j l hold
      refine ⟨by rw [hd.inodeBit, if_neg hlk, hclear], fun f ↦ ?_⟩
      rw [hfield l f (.inl hlk)]
      exact hfields f

/-- A first step that changes neither the table nor the bits, and answers. -/
theorem answered {reply : ℤ} {shared : Store} (h : Follows requests p s)
    (hshort : ∀ j, (requests j).key.Short)
    (hdistinct : ∀ j l, (requests j).key = (requests l).key → j = l)
    (hcalled : p.phase i = .called) (hrun : (requests i).answer s = .ok (reply, t))
    (ht : t.inodeBitmap = s.inodeBitmap ∧ t.a = s.a)
    (hshared : shared.inodeBitmap = p.shared.inodeBitmap ∧ shared.a = p.shared.a)
    (hmine : reply = -1 ∨
      ∃ k, Live t k ∧ keyEq t.a k (requests i).key = true ∧ t.field k .id = reply) :
    Follows requests ⟨Function.update p.phase i (.returned reply), shared⟩ t := by
  obtain ⟨hfound, htarget⟩ := h.others (l := .returned reply) hshort hdistinct hrun rfl
    fun _ ↦ hmine
  have hfield : ∀ k f, t.field k f = s.field k f := fun k f ↦ by
    rw [Store.field, Store.field, ht.2]
  have hfield' : ∀ k f, shared.field k f = p.shared.field k f := fun k f ↦ by
    rw [Store.field, Store.field, hshared.2]
  have hbit : ∀ k, t.inodeBit k = s.inodeBit k := fun k ↦ by
    rw [Store.inodeBit, Store.inodeBit, ht.1]
  refine ⟨fun j ↦ ?_, fun j f hj ↦ ?_, fun j key' hkey' hj ↦ ?_, fun j l hj ↦ ?_, fun j l hj ↦ ?_,
    hfound, htarget⟩
  · rw [hbit, ← h.bit, Store.inodeBit, Store.inodeBit, hshared.1]
  · rw [hfield, ← h.field j f (forall_ne_of_update hj (by rw [hcalled]; simp))]
    exact hfield' j f
  · rw [ht.2, ← h.key j key' hkey' (forall_ne_of_update hj (by rw [hcalled]; simp))]
    exact congrArg (fun a ↦ keyEq a j key') hshared.2
  · obtain ⟨-, hold⟩ := of_update_eq hj (by simp)
    obtain ⟨hlive, hid, hkeys⟩ := h.taken j l hold
    exact ⟨⟨hlive.slot, (hbit l).trans hlive.bit, (hfield l .id).symm ▸ hlive.id⟩,
      (hfield l .id).trans hid, fun key' hkey' ↦ by rw [ht.2, hkeys key' hkey']⟩
  · obtain ⟨-, hold⟩ := of_update_eq hj (by simp)
    obtain ⟨hclear, hfields⟩ := h.gone j l hold
    refine ⟨(hbit l).trans hclear, fun f ↦ ?_⟩
    rw [hfield, hfield']
    exact hfields f

/-- The only step of a lookup. -/
theorem look (h : Follows requests p s) (hshort : ∀ j, (requests j).key.Short)
    (hdistinct : ∀ j l, (requests j).key = (requests l).key → j = l)
    (hi : requests i = .lookup key) (hcalled : p.phase i = .called)
    (hnamed : ∀ k j, Finds key p.shared k → p.phase j ≠ .claimed k) :
    ∃ t, (requests i).answer s = .ok ((findObjectId key p.shared).1, t) ∧
      Follows requests ⟨Function.update p.phase i (.returned (findObjectId key p.shared).1),
        (findObjectId key p.shared).2⟩ t := by
  have hkey : (requests i).key = key := by rw [hi]; rfl
  have hother : ∀ j l, p.phase j = .claimed l → (requests j).key ≠ key := by
    rintro j l hj heq
    rw [hdistinct j i (heq.trans hkey.symm), hcalled] at hj
    cases hj
  rcases findObjectId_cases key p.shared with ⟨hshared, hnone⟩ | ⟨k, hfinds, hshared⟩
  · rcases findObjectId_cases key s with ⟨hserial, -⟩ | ⟨k, hfound, -⟩
    · have hrun : (requests i).answer s = .ok (-1, s) := by rw [hi, Request.answer, hserial]
      rw [hshared]
      exact ⟨s, hrun, h.answered hshort hdistinct hcalled hrun ⟨rfl, rfl⟩ ⟨rfl, rfl⟩ (.inl rfl)⟩
    · exact absurd (h.match_shared (hkey ▸ hshort i) hother ⟨hfound.live, hfound.found⟩) (hnone k)
  · have hfound := h.finds (hkey ▸ hshort i) hother hfinds fun j ↦ hnamed k j hfinds
    have hid : p.shared.field k .id = s.field k .id := h.field k .id fun j hj ↦ by
      have hclear := (h.gone j k hj).1
      rw [hfound.live.bit] at hclear
      cases hclear
    rcases findObjectId_cases key s with ⟨-, hnone⟩ | ⟨l, hl, hserial⟩
    · exact absurd ⟨hfound.live, hfound.found⟩ (hnone k)
    · obtain rfl : l = k := hfound.unique hl
      have hrun : (requests i).answer s = .ok (s.field l .id, { s with backup := some l }) := by
        rw [hi, Request.answer, hserial]
      have hlive : Live { s with backup := some l } l := ⟨hl.live.slot, hl.live.bit, hl.live.id⟩
      have hback : ({ s with backup := some l } : Store).field l .id = s.field l .id := rfl
      simp only [hshared, hid]
      exact ⟨_, hrun, h.answered hshort hdistinct hcalled hrun ⟨rfl, rfl⟩ ⟨rfl, rfl⟩
        (.inr ⟨l, hlive, hkey.symm ▸ hl.found, hback⟩)⟩

/-! ### Second steps -/

/-- The second step of a creation returns the id of the slot, and the two stores agree on its key.
-/
theorem copy (h : Follows requests p s) (hshort : ∀ j, (requests j).key.Short)
    (hi : requests i = .create key) (hclaimed : p.phase i = .claimed k) :
    (createCopy key k p.shared).1 = k + 2 ∧
      Follows requests ⟨Function.update p.phase i (.returned (k + 2)),
        (createCopy key k p.shared).2⟩ s := by
  have hkey : (requests i).key = key := by rw [hi]; rfl
  have hcopy : key.Short := hkey ▸ hshort i
  obtain ⟨hlive, hid, hkeys⟩ := h.taken i k hclaimed
  have hfield : ∀ j f, (createCopy key k p.shared).2.field j f = p.shared.field j f :=
    fun j f ↦ getField_setKey _ _ _ _ hcopy
  refine ⟨?_, fun j ↦ h.bit j, fun j f hj ↦ ?_, fun j key' hkey' hj ↦ ?_, fun j l hj ↦ ?_,
    fun j l hj ↦ ?_, fun j reply hj hreply ↦ ?_, fun j key' hj hcalled ↦ ?_⟩
  · rw [createCopy_reply, hfield, h.field k .id fun j hj ↦ ?_, hid]
    have hclear := (h.gone j k hj).1
    rw [hlive.bit] at hclear
    cases hclear
  · exact (hfield j f).trans (h.field j f (forall_ne_of_update hj (by rw [hclaimed]; simp)))
  · refine (keyEq_setKey p.shared.a k j hcopy hkey').trans ?_
    by_cases hjk : j = k
    · rw [if_pos hjk, hjk, hkeys key' hkey', hkey]
    · rw [if_neg hjk]
      refine h.key j key' hkey' (forall_ne_of_update hj fun heq ↦ hjk ?_)
      rw [hclaimed] at heq
      cases heq
      rfl
  · exact h.taken j l (of_update_eq hj (by simp)).2
  · obtain ⟨hclear, hfields⟩ := h.gone j l (of_update_eq hj (by simp)).2
    refine ⟨hclear, fun f ↦ ?_⟩
    rw [hfield]
    exact hfields f
  · refine h.found j reply hj ?_
    change (Function.update p.phase i (.returned (k + 2)) j).reply = some reply at hreply
    by_cases hji : j = i
    · rw [hji, Function.update_self] at hreply
      rw [hji, hclaimed]
      exact hreply
    · rwa [Function.update_of_ne hji] at hreply
  · exact h.target j key' hj (of_update_eq hcalled (by simp)).2

/-- The second step of a destruction resets the record as it is in the serial store. -/
theorem reset (h : Follows requests p s) (hi : requests i = .destroy key)
    (hunlinked : p.phase i = .unlinked k) :
    Follows requests ⟨Function.update p.phase i (.returned 0), (destroyReset k p.shared).2⟩ s := by
  obtain ⟨hclear, hfields⟩ := h.gone i k hunlinked
  have hr := resets_destroyReset k p.shared
  refine ⟨fun j ↦ ?_, fun j f hj ↦ ?_, fun j key' hkey' hj ↦ ?_, fun j l hj ↦ ?_, fun j l hj ↦ ?_,
    fun j reply hj hreply ↦ ?_, fun j key' hj hcalled ↦ ?_⟩
  · rw [Store.inodeBit, hr.inodeBitmap]
    exact h.bit j
  · refine (hr.field j f).trans ?_
    by_cases hjk : j = k
    · have hf := hfields f
      rw [hjk]
      by_cases hreset : f.reset = true
      · rw [if_pos hreset] at hf
        rw [if_pos ⟨rfl, hreset⟩, hf]
      · rw [if_neg hreset] at hf
        rw [if_neg fun hor ↦ hreset hor.2, hf]
    · rw [if_neg fun hor ↦ hjk hor.1]
      refine h.field j f (forall_ne_of_update hj fun heq ↦ hjk ?_)
      rw [hunlinked] at heq
      cases heq
      rfl
  · refine (keyEq_of_bytes hr.bytes hkey' j).trans ?_
    exact h.key j key' hkey' (forall_ne_of_update hj (by rw [hunlinked]; simp))
  · exact h.taken j l (of_update_eq hj (by simp)).2
  · obtain ⟨hclear', hfields'⟩ := h.gone j l (of_update_eq hj (by simp)).2
    refine ⟨hclear', fun f ↦ ?_⟩
    have hf := hfields' f
    split_ifs at hf ⊢ with hreset
    · exact hf
    · rw [hr.field, if_neg fun hor ↦ hreset hor.2]
      exact hf
  · refine h.found j reply hj ?_
    by_cases hji : j = i
    · exact absurd (hji ▸ hi) (hj key)
    · exact (congrArg Phase.reply (Function.update_of_ne hji ..).symm).trans hreply
  · exact h.target j key' hj (of_update_eq hcalled (by simp)).2

end Follows

/-! ### Runs -/

section Runs

variable [DecidableEq ι]

/-- A thread whose call has nothing more to do changes nothing. -/
theorem Follows.idle (h : Follows requests p s) {l : Phase} {shared : Store}
    (hnext : (Except.ok (p.phase i, p.shared) : Except Fault (Phase × Store)) = .ok (l, shared)) :
    l.reply = (p.phase i).reply ∧ Follows requests ⟨Function.update p.phase i l, shared⟩ s := by
  obtain ⟨rfl, rfl⟩ := Prod.mk.inj (Except.ok.inj hnext)
  rw [Function.update_eq_self]
  exact ⟨rfl, h⟩

/-- Every call takes effect in its first step. -/
theorem commits (hshort : ∀ j, (requests j).key.Short)
    (hdistinct : ∀ j l, (requests j).key = (requests l).key → j = l) :
    Commits (fun i ↦ (requests i).next) (fun i ↦ (requests i).answer) (Undisturbed requests)
      Phase.reply (Follows requests) := by
  refine ⟨fun i p s l shared h hok hnext ↦ ?_⟩
  change (requests i).next (p.phase i) p.shared = _ at hnext
  have hidle : (Except.ok (p.phase i, p.shared) : Except Fault (Phase × Store)) = .ok (l, shared) →
      l.reply = (p.phase i).reply ∧ Follows requests ⟨Function.update p.phase i l, shared⟩ s :=
        h.idle
  unfold Undisturbed at hok
  cases hi : requests i with
  | create key =>
    cases hphase : p.phase i with
    | called =>
      rw [hi, hphase] at hok hnext
      refine .inl ⟨rfl, ?_⟩
      rw [Request.next] at hnext
      rcases createClaim_cases p.shared with ⟨hfull, hclaim⟩ | ⟨k, hlowest, hclaim⟩
      · rw [hclaim] at hnext
        obtain ⟨rfl, rfl⟩ := Prod.mk.inj (Except.ok.inj hnext)
        have hrun : (requests i).answer s = .ok (-1, { s with iLock := false }) := by
          rw [hi, Request.answer, createObject_full key fun k hk ↦
            (h.bit k).symm.trans (hfull k hk)]
        exact ⟨-1, _, hi ▸ hrun, rfl, h.answered hshort hdistinct hphase hrun ⟨rfl, rfl⟩ ⟨rfl, rfl⟩
          (.inl rfl)⟩
      · rw [hclaim] at hnext
        obtain ⟨rfl, rfl⟩ := Prod.mk.inj (Except.ok.inj hnext)
        obtain ⟨t, hrun, hfollows⟩ := h.claim hshort hdistinct hi hphase hlowest
          fun j ↦ hok k j hlowest
        exact ⟨_, t, hi ▸ hrun, rfl, hfollows⟩
    | claimed k =>
      rw [hi, hphase, Request.next_claimed] at hnext
      obtain ⟨rfl, rfl⟩ := Prod.mk.inj (Except.ok.inj hnext)
      obtain ⟨hreply, hfollows⟩ := h.copy hshort hi hphase
      refine .inr ⟨congrArg some hreply, ?_⟩
      rw [hreply]
      exact hfollows
    | unlinked k | returned reply =>
      rw [hi, hphase] at hnext
      rw [hphase] at hidle
      exact .inr (hidle hnext)
  | destroy key =>
    cases hphase : p.phase i with
    | called =>
      rw [hi, hphase] at hok hnext
      refine .inl ⟨rfl, ?_⟩
      rw [Request.next] at hnext
      rcases destroyUnlink_cases key p.shared with ⟨hdies, -⟩ | ⟨k, hfinds, hunlink⟩
      · rw [hdies] at hnext
        cases hnext
      · rw [hunlink] at hnext
        obtain ⟨rfl, rfl⟩ := Prod.mk.inj (Except.ok.inj hnext)
        obtain ⟨t, hrun, hfollows⟩ := h.unlink hshort hdistinct hi hphase hfinds
          fun j ↦ hok k j hfinds
        exact ⟨0, t, hi ▸ hrun, rfl, hfollows⟩
    | unlinked k =>
      rw [hi, hphase, Request.next_unlinked] at hnext
      obtain ⟨rfl, rfl⟩ := Prod.mk.inj (Except.ok.inj hnext)
      rw [destroyReset_reply]
      exact .inr ⟨rfl, h.reset hi hphase⟩
    | claimed k | returned reply =>
      rw [hi, hphase] at hnext
      rw [hphase] at hidle
      exact .inr (hidle hnext)
  | lookup key =>
    cases hphase : p.phase i with
    | called =>
      rw [hi, hphase] at hok hnext
      refine .inl ⟨rfl, ?_⟩
      rw [Request.next_lookup] at hnext
      obtain ⟨rfl, rfl⟩ := Prod.mk.inj (Except.ok.inj hnext)
      obtain ⟨t, hrun, hfollows⟩ := h.look hshort hdistinct hi hphase fun k j ↦ hok k j
      exact ⟨_, t, hi ▸ hrun, rfl, hfollows⟩
    | claimed k | unlinked k | returned reply =>
      rw [hi, hphase] at hnext
      rw [hphase] at hidle
      exact .inr (hidle hnext)

/-- The threads before their first steps. -/
def started (s₀ : Store) : Pool ι Phase Store := ⟨fun _ ↦ .called, s₀⟩

/-- Creates, destroys and lookups of different keys, in any interleaving whose steps are
undisturbed: no call dies, and when all have returned, they returned as in a serial order that
leaves the same objects; what a creation or a lookup returned is the id of a live object with its
key. -/
theorem serialisable_runs (requests : ι → Request) (s₀ : Store)
    (hshort : ∀ j, (requests j).key.Short)
    (hdistinct : ∀ j l, (requests j).key = (requests l).key → j = l)
    (hlive : ∀ j key, requests j = .destroy key → ∃ k, Live s₀ k ∧ keyEq s₀.a k key = true)
    (p : Pool ι Phase Store)
    (hrun : Reaches (Pool.turn fun i ↦ (requests i).next) (Undisturbed requests) (started s₀) p) :
    (∀ i, ∃ q, p.turn (fun i ↦ (requests i).next) i = .ok ((), q)) ∧
    ((∀ j, ∃ reply, p.phase j = .returned reply) →
      Serialisable requests s₀ p ∧
      ∀ j reply, (∀ key, requests j ≠ .destroy key) → p.phase j = .returned reply →
        reply = -1 ∨ ∃ k, Live p.shared k ∧ keyEq p.shared.a k (requests j).key = true ∧
          p.shared.field k .id = reply) := by
  have hstart : Follows requests (started s₀) s₀ := by
    refine ⟨fun _ ↦ rfl, fun _ _ _ ↦ rfl, fun _ _ _ _ ↦ rfl, fun j k hj ↦ ?_, fun j k hj ↦ ?_,
      fun j reply _ hreply ↦ ?_, fun j key hj _ ↦ hlive j key hj⟩
    · cases hj
    · cases hj
    · cases hreply
  obtain ⟨trace, s, hserial, hanswers, hfollows⟩ :=
    (commits hshort hdistinct).serialises hrun (fun _ ↦ rfl) hstart
  refine ⟨fun i ↦ ?_, fun hreturned ↦ ?_⟩
  · obtain ⟨⟨l, shared⟩, hnext⟩ := hfollows.next_ok hshort hdistinct i
    exact ⟨_, Pool.turn_of_ok hnext⟩
  · have hsame := hfollows.sameObjects hreturned
    refine ⟨⟨trace, s, hserial, ⟨hanswers.once, fun j reply ↦ ?_⟩, hsame⟩,
      fun j reply hj hreply ↦ ?_⟩
    · rw [hanswers.mem]
      obtain ⟨reply', hreply'⟩ := hreturned j
      rw [hreply']
      rfl
    · rcases hfollows.found j reply hj (by rw [hreply]; rfl) with hnone | ⟨k, hlive, heq, hid⟩
      · exact .inl hnone
      · refine .inr ⟨k, (hsame.live k).mpr hlive, ?_, (hsame.field k .id hlive).trans hid⟩
        rw [hsame.key k _ (hshort j) hlive, heq]

end Runs

/-! ### Two threads -/

/-- A creation and a lookup of another key. -/
def createAndLookup : Fin 2 → Request
  | 0 => .create keyA
  | 1 => .lookup keyB

/-- On a blank disk the lookup runs between the halves of the creation. -/
theorem lookup_between_halves : ∃ p : Pool (Fin 2) Phase Store,
    Reaches (Pool.turn fun i ↦ (createAndLookup i).next) (Undisturbed createAndLookup)
      (started (objstoreInit zeroDevice)) p ∧ ∀ j, ∃ reply, p.phase j = .returned reply := by
  obtain ⟨k, -, hclaim⟩ := (createClaim_cases (objstoreInit zeroDevice)).resolve_left fun h ↦ by
    have hset := h.1 0 (by norm_num)
    rw [inodeBit_blank blank_zeroDevice (by norm_num)] at hset
    cases hset
  have hnone : ∀ j, ¬(Live (claimed k (objstoreInit zeroDevice)) j ∧
      keyEq (claimed k (objstoreInit zeroDevice)).a j keyB = true) := by
    rintro j ⟨hlive, hfound⟩
    have hslot := hlive.slot
    have hkey : keyEq (objstoreInit zeroDevice).a j keyB = true :=
      (keyEq_setField _ k j .id (k + 2) (by decide)).symm.trans hfound
    simp only [keyEq, keyB, Bytes.strcmpEq, keyAddr] at hkey
    rw [byte_blank blank_zeroDevice (by omega)] at hkey
    cases hkey
  have hlook := ((findObjectId_cases keyB (claimed k (objstoreInit zeroDevice))).resolve_right (by
    rintro ⟨j, hfinds, -⟩
    exact hnone j ⟨hfinds.live, hfinds.found⟩)).1
  have hnext₁ : (createAndLookup 0).next .called (objstoreInit zeroDevice) =
      .ok (.claimed k, claimed k (objstoreInit zeroDevice)) := by
    rw [createAndLookup, Request.next, hclaim]
  have hnext₂ : (createAndLookup 1).next .called (claimed k (objstoreInit zeroDevice)) =
      .ok (.returned (-1), claimed k (objstoreInit zeroDevice)) := by
    rw [createAndLookup, Request.next_lookup, hlook]
  have hnext₃ : (createAndLookup 0).next (.claimed k) (claimed k (objstoreInit zeroDevice)) =
      .ok (.returned (createCopy keyA k (claimed k (objstoreInit zeroDevice))).1,
        (createCopy keyA k (claimed k (objstoreInit zeroDevice))).2) := Request.next_claimed ..
  have hrun₀ := Reaches.refl (Pool.turn fun i ↦ (createAndLookup i).next)
    (Undisturbed createAndLookup) (started (objstoreInit zeroDevice))
  have hrun₁ := hrun₀.turn (i := 0) (fun l j _ h ↦ by cases h) hnext₁
  have hrun₂ := hrun₁.turn (i := 1) (by
    intro l j hfinds
    exact absurd ⟨hfinds.live, hfinds.found⟩ (hnone l)) hnext₂
  have hrun₃ := hrun₂.turn (i := 0) (by exact trivial) hnext₃
  exact ⟨_, hrun₃, Fin.forall_fin_two.mpr ⟨⟨_, rfl⟩, ⟨_, rfl⟩⟩⟩

theorem serialisable_two : ∃ p : Pool (Fin 2) Phase Store,
    (∀ j, ∃ reply, p.phase j = .returned reply) ∧
      Serialisable createAndLookup (objstoreInit zeroDevice) p := by
  obtain ⟨p, hrun, hreturned⟩ := lookup_between_halves
  refine ⟨p, hreturned, ((serialisable_runs createAndLookup (objstoreInit zeroDevice) ?_ ?_ ?_ p
    hrun).2 hreturned).1⟩
  · exact Fin.forall_fin_two.mpr ⟨by decide, by decide⟩
  · decide
  · exact Fin.forall_fin_two.mpr ⟨nofun, nofun⟩

/-! ### A creation between the halves of a destruction -/

/-- Calls of keys that fit keep the slots tidy. -/
theorem tidy_answer {request : Request} {reply : ℤ} (hshort : request.key.Short) (htidy : Tidy s)
    (hrun : request.answer s = .ok (reply, t)) : Tidy t := by
  cases request with
  | create key' =>
    rcases createObject_cases s hshort with ⟨-, hfull⟩ | ⟨j, hj, -, -, s', hcreate, hc⟩
    · obtain ⟨-, rfl⟩ := Prod.mk.inj (hfull.symm.trans (Except.ok.inj hrun))
      exact ⟨htidy.id, htidy.clear⟩
    · obtain ⟨-, rfl⟩ := Prod.mk.inj (hcreate.symm.trans (Except.ok.inj hrun))
      exact hc.tidy htidy
  | destroy key' =>
    rcases destroyObject_spec key' s with ⟨hdies, -⟩ | ⟨j, -, -, -, s', hdestroy, hd⟩
    · cases hdies.symm.trans hrun
    · obtain ⟨-, rfl⟩ := Prod.mk.inj (Except.ok.inj (hdestroy.symm.trans hrun))
      exact hd.tidy htidy
  | lookup key' =>
    rcases findObjectId_cases key' s with ⟨hnone, -⟩ | ⟨j, -, hfind⟩
    · obtain ⟨-, rfl⟩ := Prod.mk.inj (hnone.symm.trans (Except.ok.inj hrun))
      exact htidy
    · obtain ⟨-, rfl⟩ := Prod.mk.inj (hfind.symm.trans (Except.ok.inj hrun))
      exact ⟨htidy.id, htidy.clear⟩

/-- A destruction of one key and a creation of another. -/
def destroyAndCreate : Fin 2 → Request
  | 0 => .destroy keyA
  | 1 => .create keyB

/-- Without the condition on the steps: a store with the object of key `a` only; its destruction
clears the bit of slot 0, a creation claims the slot and returns its id, and the destruction resets
the record. The new object is not live, and no serial order ends like this. -/
theorem reset_after_claim : ∃ (s₀ : Store) (p : Pool (Fin 2) Phase Store),
    createObject keyA (objstoreInit zeroDevice) = (2, s₀) ∧
      (∃ k, Live s₀ k ∧ keyEq s₀.a k keyA = true) ∧
      Reaches (Pool.turn fun i ↦ (destroyAndCreate i).next) (fun _ _ ↦ True) (started s₀) p ∧
      p.phase 0 = .returned 0 ∧ p.phase 1 = .returned 2 ∧ ¬Live p.shared 0 ∧
      ¬Serialisable destroyAndCreate s₀ p := by
  obtain ⟨s₀, hcreate, hc⟩ := created_blank blank_zeroDevice keyA (by decide)
  have hlive₀ : ∀ j, Live s₀ j ↔ j = 0 := fun j ↦
    (hc.live (by norm_num) j).trans (or_iff_right (not_live_blank blank_zeroDevice))
  have htidy := hc.tidy (tidy_blank blank_zeroDevice)
  have hkey : keyEq s₀.a 0 keyA = true := by
    rw [hc.key 0 keyA (by decide), if_pos rfl, decide_eq_true rfl]
  obtain ⟨hunlink, hbit₁⟩ : destroyUnlink keyA s₀ = .ok (0, cleared 0 s₀) ∧
      ∀ j, (cleared 0 s₀).inodeBit j = if j = 0 then false else s₀.inodeBit j := by
    rcases destroyUnlink_cases keyA s₀ with ⟨-, hnone⟩ | ⟨k, hfinds, hunlink⟩
    · exact absurd ⟨(hlive₀ 0).mpr rfl, hkey⟩ (hnone 0)
    · obtain rfl := (hlive₀ k).mp hfinds.live
      exact ⟨hunlink, inodeBit_cleared hfinds.live.bit⟩
  have hclaim : createClaim (cleared 0 s₀) = (some 0, claimed 0 (cleared 0 s₀)) := by
    rcases createClaim_cases (cleared 0 s₀) with ⟨hfull, -⟩ | ⟨k, hlowest, hclaim⟩
    · have hset := hfull 0 (by norm_num)
      rw [hbit₁, if_pos rfl] at hset
      cases hset
    · obtain rfl : k = 0 := by
        by_contra hpos
        have hset := hlowest.least 0 (Nat.pos_of_ne_zero hpos)
        rw [hbit₁, if_pos rfl] at hset
        cases hset
      exact hclaim
  have hshort : keyB.Short := by decide
  have hsh := created_claimed (s := cleared 0 s₀) (k := 0) (by norm_num) hshort
  have hreply : (createCopy keyB 0 (claimed 0 (cleared 0 s₀))).1 = 2 := by
    rw [createCopy_reply]
    exact (hsh.field 0 .id).trans (if_pos ⟨rfl, rfl⟩)
  have hbit₂ : (createCopy keyB 0 (claimed 0 (cleared 0 s₀))).2.inodeBit 0 = true :=
    (hsh.inodeBit 0).trans (if_pos rfl)
  generalize hs₂ : (createCopy keyB 0 (claimed 0 (cleared 0 s₀))).2 = s₂ at hbit₂
  have hr := resets_destroyReset 0 s₂
  generalize hs₃ : (destroyReset 0 s₂).2 = s₃ at hr
  have hnext₁ : (destroyAndCreate 0).next .called s₀ = .ok (.unlinked 0, cleared 0 s₀) := by
    rw [destroyAndCreate, Request.next, hunlink]
  have hnext₂ : (destroyAndCreate 1).next .called (cleared 0 s₀) =
      .ok (.claimed 0, claimed 0 (cleared 0 s₀)) := by
    rw [destroyAndCreate, Request.next, hclaim]
  have hnext₃ : (destroyAndCreate 1).next (.claimed 0) (claimed 0 (cleared 0 s₀)) =
      .ok (.returned 2, s₂) := by
    rw [destroyAndCreate, Request.next_claimed, hreply, hs₂]
  have hnext₄ : (destroyAndCreate 0).next (.unlinked 0) s₂ = .ok (.returned 0, s₃) := by
    rw [destroyAndCreate, Request.next_unlinked, destroyReset_reply, hs₃]
  have hbit₃ : s₃.inodeBit 0 = true := by
    rw [Store.inodeBit, hr.inodeBitmap]
    exact hbit₂
  have hdead : ¬Live s₃ 0 := fun hlive ↦ hlive.id ((hr.field 0 .id).trans (if_pos ⟨rfl, rfl⟩))
  have hrun₀ := Reaches.refl (Pool.turn fun i ↦ (destroyAndCreate i).next) (fun _ _ ↦ True)
    (started s₀)
  have hrun₁ := hrun₀.turn (i := 0) trivial hnext₁
  have hrun₂ := hrun₁.turn (i := 1) trivial hnext₂
  have hrun₃ := hrun₂.turn (i := 1) trivial hnext₃
  have hrun₄ := hrun₃.turn (i := 0) trivial hnext₄
  refine ⟨s₀, _, hcreate, ⟨0, (hlive₀ 0).mpr rfl, hkey⟩, hrun₄, rfl, rfl, hdead, ?_⟩
  rintro ⟨trace, s, hserial, -, hsame⟩
  have hshort : ∀ j, (destroyAndCreate j).key.Short :=
    Fin.forall_fin_two.mpr ⟨by decide, by decide⟩
  have htidy' : Tidy s := hserial.invariant Tidy
    (fun j t reply t' ht hanswer ↦ tidy_answer (hshort j) ht hanswer) htidy
  have hbit : s.inodeBit 0 = true := (hsame.bit 0 (by norm_num)).symm.trans hbit₃
  exact hdead ((hsame.live 0).mpr ((htidy'.live_iff (by norm_num)).mpr hbit))

end OsAssignments.Objstore
