import OsAssignments.Objstore.Halves

/-!
# Concurrent `stat`

`objfs_getattr` is two steps: `find_object_id`, which leaves the object it found in the global
`backup`, and `fillup_size_details`, which takes the size from there. `objfs_open` is one step, with
the same lookup. `getattr_right_iff` says when every call of `objfs_getattr` returns the numbers of
its own object, whatever the other threads look up: exactly when no fill-up runs after a lookup of
another object.

Scope. A path is a slash and a name; the root directory is the empty name. Of `struct stat` only the
fields that the store fills up are kept.
-/

set_option autoImplicit false
set_option relaxedAutoImplicit false

namespace OsAssignments.Objstore

open Library

/-! ### The calls -/

/-- `struct stat`, as far as the store fills it up. -/
structure Stat where
  ino : ℤ
  size : ℤ
  blocks : ℤ
  deriving DecidableEq

/-- A field of `*backup`; before the first lookup it is a page of zeros. -/
def backupField (s : Store) (f : Field) : ℤ :=
  match s.backup with
  | some k => s.field k f
  | none => 0

/-- `st_blocks` for a size. -/
def statBlocks (size : ℤ) : ℤ :=
  if (size >>> 9) <<< 9 ≠ size then (size >>> 9) + 1 else size >>> 9

/-- `fillup_size_details`. The id is compared as an unsigned number. -/
def fillupSizeDetails (buf : Stat) (s : Store) : ℤ × Stat :=
  if buf.ino < 2 ∨ backupField s .id % 2 ^ 64 ≠ buf.ino then (-1, buf)
  else (0, { buf with
    size := backupField s .size
    blocks := statBlocks (backupField s .size) })

/-- A call that a thread makes, with the name of its path. -/
inductive AttrCall
  | objfsGetattr (name : Key)
  | objfsOpen (name : Key)

/-- The name in the path of a call. -/
def AttrCall.name : AttrCall → Key
  | .objfsGetattr name => name
  | .objfsOpen name => name

/-- How far a call is. -/
inductive AttrPhase
  | called
  | found (buf : Stat)
  | returned (reply : ℤ) (buf : Stat)
  | opened (reply : ℤ) (fh : Option ℤ)

/-- The next step of a call. The results of the lookup are narrowed to an `int`. -/
def AttrCall.next (defFstat defDirstat : Stat) :
    AttrCall → AttrPhase → Store → Except Fault (AttrPhase × Store)
  | .objfsGetattr name, .called, s =>
    if name.chars = [] then .ok (.returned 0 { defDirstat with ino := 1 }, s)
    else
      let (id, s) := findObjectId name s
      let retval := Int.bmod id (2 ^ 32)
      if retval < 0 then .ok (.returned (-2) defFstat, s)
      else .ok (.found { defFstat with ino := retval }, s)
  | .objfsGetattr _, .found buf, s =>
    let (retval, buf) := fillupSizeDetails buf s
    if retval < 0 then .ok (.returned (-9) buf, s) else .ok (.returned 0 buf, s)
  | .objfsOpen name, .called, s =>
    let (id, s) := findObjectId name s
    let retval := Int.bmod id (2 ^ 32)
    if retval < 0 then .ok (.opened (-2) none, s) else .ok (.opened 0 (some retval), s)
  | _, phase, s => .ok (phase, s)

/-- The numbers of the object in a slot. -/
def statOf (s : Store) (k : ℕ) : Stat :=
  ⟨s.field k .id, s.field k .size, statBlocks (s.field k .size)⟩

/-! ### Lookups change only the pointer -/

variable {ι : Type*} {calls : ι → AttrCall} {s s₀ : Store} {name : Key} {i : ι} {k : ℕ}
  {defFstat defDirstat : Stat} {p : Pool ι AttrPhase Store}

/-- The table and the bits decide which slot is found. -/
theorem Finds.congr {s' : Store} (h : Finds name s k) (hbits : s'.inodeBitmap = s.inodeBitmap)
    (ha : s'.a = s.a) : Finds name s' k := by
  have hlive : ∀ j, Live s' j ↔ Live s j := fun j ↦ by
    have hbit : s'.inodeBit j = s.inodeBit j := congrArg (fun words ↦ Bitmap.bit words j) hbits
    have hid : s'.field j .id = s.field j .id := congrArg (fun a ↦ getField a j .id) ha
    exact ⟨fun hl ↦ ⟨hl.slot, hbit ▸ hl.bit, hid ▸ hl.id⟩,
      fun hl ↦ ⟨hl.slot, hbit.symm ▸ hl.bit, hid.symm ▸ hl.id⟩⟩
  exact ⟨(hlive k).mpr h.live, ha.symm ▸ h.found,
    fun j hj hfound ↦ h.least j hj ⟨(hlive j).mp hfound.1, ha ▸ hfound.2⟩⟩

/-- The store differs from the one at the start in the pointer only; a thread that has looked an
object up has its id, and some live object was the last one found. -/
structure Looked (calls : ι → AttrCall) (s₀ : Store) (p : Pool ι AttrPhase Store) : Prop where
  bits : p.shared.inodeBitmap = s₀.inodeBitmap
  table : p.shared.a = s₀.a
  found : ∀ i buf, p.phase i = .found buf →
    ∃ name k, calls i = .objfsGetattr name ∧ Finds name s₀ k ∧ buf.ino = k + 2
  backup : ∀ i buf, p.phase i = .found buf → ∃ j, Live s₀ j ∧ p.shared.backup = some j

/-- What a lookup of a live name returns and leaves. -/
theorem Looked.lookup (h : Looked calls s₀ p) (htidy : Tidy s₀) (hfinds : Finds name s₀ k) :
    findObjectId name p.shared = ((k : ℤ) + 2, { p.shared with backup := some k }) ∧
      Int.bmod ((k : ℤ) + 2) (2 ^ 32) = k + 2 := by
  have hslot := hfinds.live.slot
  refine ⟨?_, wrap_of_range (by omega) (by omega)⟩
  have hshared := hfinds.congr h.bits h.table
  rcases findObjectId_cases name p.shared with ⟨-, hnone⟩ | ⟨j, hj, hfound⟩
  · exact absurd ⟨hshared.live, hshared.found⟩ (hnone k)
  · obtain rfl := hshared.unique hj
    have hid : p.shared.field j .id = j + 2 := by
      rw [Store.field, h.table]
      exact htidy.id_of_live hfinds.live
    rw [hfound, hid]

/-- The fill-up returns the numbers of the object if the pointer is still on it, and fails
otherwise. -/
theorem Looked.fillup (h : Looked calls s₀ p) (htidy : Tidy s₀) {buf : Stat}
    (hphase : p.phase i = .found buf) (hcall : calls i = .objfsGetattr name)
    (hfinds : Finds name s₀ k) :
    fillupSizeDetails buf p.shared =
      if p.shared.backup = some k then (0, statOf s₀ k) else (-1, buf) := by
  obtain ⟨name', k', hcall', hfinds', hino⟩ := h.found i buf hphase
  obtain rfl : name = name' := by
    rw [hcall] at hcall'
    cases hcall'
    rfl
  obtain rfl := hfinds.unique hfinds'
  obtain ⟨j, hlive, hbackup⟩ := h.backup i buf hphase
  have hfield : ∀ f, backupField p.shared f = s₀.field j f := fun f ↦ by
    rw [backupField, hbackup]
    exact congrArg (fun a ↦ getField a j f) h.table
  have hslot := hlive.slot
  rw [fillupSizeDetails, hfield, hfield, htidy.id_of_live hlive, hino, hbackup]
  by_cases hjk : j = k'
  · subst hjk
    rw [if_neg (by omega), if_pos rfl, statOf, htidy.id_of_live hlive, ← hino]
  · rw [if_pos (by omega), if_neg fun heq ↦ hjk (Option.some.inj heq)]

/-! ### Runs -/

/-- Every `objfs_getattr` that has returned returned 0 and the numbers of its own object. -/
def Right (calls : ι → AttrCall) (s₀ : Store) (p : Pool ι AttrPhase Store) : Prop :=
  ∀ i name reply buf k, calls i = .objfsGetattr name → Finds name s₀ k →
    p.phase i = .returned reply buf → reply = 0 ∧ buf = statOf s₀ k

/-- The step is no fill-up, or the last lookup was of the object that the call is about. -/
def OwnBackup (calls : ι → AttrCall) (i : ι) (p : Pool ι AttrPhase Store) : Prop :=
  match calls i, p.phase i with
  | .objfsGetattr name, .found _ => ∀ k, Finds name p.shared k → p.shared.backup = some k
  | _, _ => True

/-- The threads before their first steps. -/
def attrStart (s₀ : Store) : Pool ι AttrPhase Store := ⟨fun _ ↦ .called, s₀⟩

theorem Looked.next_getattr (h : Looked calls s₀ p) (htidy : Tidy s₀) (hname : name.chars ≠ [])
    (hfinds : Finds name s₀ k) :
    (AttrCall.objfsGetattr name).next defFstat defDirstat .called p.shared =
      .ok (.found { defFstat with ino := k + 2 }, { p.shared with backup := some k }) := by
  obtain ⟨hlookup, hnarrow⟩ := h.lookup htidy hfinds
  rw [AttrCall.next, if_neg hname, hlookup]
  simp only [hnarrow, if_neg (show ¬(k : ℤ) + 2 < 0 by omega)]

theorem Looked.next_open (h : Looked calls s₀ p) (htidy : Tidy s₀) (hfinds : Finds name s₀ k) :
    (AttrCall.objfsOpen name).next defFstat defDirstat .called p.shared =
      .ok (.opened 0 (some (k + 2)), { p.shared with backup := some k }) := by
  obtain ⟨hlookup, hnarrow⟩ := h.lookup htidy hfinds
  rw [AttrCall.next, hlookup]
  simp only [hnarrow, if_neg (show ¬(k : ℤ) + 2 < 0 by omega)]

theorem Looked.next_fillup (h : Looked calls s₀ p) (htidy : Tidy s₀) {buf : Stat}
    (hphase : p.phase i = .found buf) (hcall : calls i = .objfsGetattr name)
    (hfinds : Finds name s₀ k) :
    (AttrCall.objfsGetattr name).next defFstat defDirstat (.found buf) p.shared =
      .ok (if p.shared.backup = some k then .returned 0 (statOf s₀ k) else .returned (-9) buf,
        p.shared) := by
  rw [AttrCall.next, h.fillup htidy hphase hcall hfinds]
  by_cases hown : p.shared.backup = some k
  · rw [if_pos hown, if_pos hown]
    rfl
  · rw [if_neg hown, if_neg hown]
    rfl

/-- A step of a thread is a lookup, a fill-up or nothing. -/
theorem Looked.next_cases (h : Looked calls s₀ p) (htidy : Tidy s₀)
    (hlive : ∀ i, ∃ k, Finds (calls i).name s₀ k) (hname : ∀ i, (calls i).name.chars ≠ [])
    {l : AttrPhase} {shared : Store}
    (hnext : (calls i).next defFstat defDirstat (p.phase i) p.shared = .ok (l, shared)) :
    (p.phase i = .called ∧ ∃ k, Finds (calls i).name s₀ k ∧
      shared = { p.shared with backup := some k } ∧
      (l = .found { defFstat with ino := k + 2 } ∧ calls i = .objfsGetattr (calls i).name ∨
        l = .opened 0 (some (k + 2)))) ∨
    (∃ name buf k, calls i = .objfsGetattr name ∧ p.phase i = .found buf ∧ Finds name s₀ k ∧
      shared = p.shared ∧
      l = if p.shared.backup = some k then .returned 0 (statOf s₀ k) else .returned (-9) buf) ∨
    (l = p.phase i ∧ shared = p.shared ∧
      ¬∃ name buf, calls i = .objfsGetattr name ∧ p.phase i = .found buf) := by
  obtain ⟨k, hfinds⟩ := hlive i
  have hne := hname i
  cases hcall : calls i with
  | objfsGetattr name =>
    rw [hcall] at hfinds hne hnext
    change Finds name s₀ k at hfinds
    change name.chars ≠ [] at hne
    cases hphase : p.phase i with
    | called =>
      rw [hphase, h.next_getattr htidy hne hfinds] at hnext
      obtain ⟨rfl, rfl⟩ := Prod.mk.inj (Except.ok.inj hnext)
      exact .inl ⟨rfl, k, hfinds, rfl, .inl ⟨rfl, rfl⟩⟩
    | found buf =>
      rw [hphase, h.next_fillup htidy hphase hcall hfinds] at hnext
      obtain ⟨rfl, rfl⟩ := Prod.mk.inj (Except.ok.inj hnext)
      exact .inr (.inl ⟨name, buf, k, rfl, rfl, hfinds, rfl, rfl⟩)
    | returned reply buf | opened reply fh =>
      rw [hphase, AttrCall.next] at hnext
      · obtain ⟨rfl, rfl⟩ := Prod.mk.inj (Except.ok.inj hnext)
        exact .inr (.inr ⟨rfl, rfl, fun ⟨_, _, _, hfound⟩ ↦ by cases hfound⟩)
      all_goals simp
  | objfsOpen name =>
    rw [hcall] at hfinds hnext
    change Finds name s₀ k at hfinds
    cases hphase : p.phase i with
    | called =>
      rw [hphase, h.next_open htidy hfinds] at hnext
      obtain ⟨rfl, rfl⟩ := Prod.mk.inj (Except.ok.inj hnext)
      exact .inl ⟨rfl, k, hfinds, rfl, .inr rfl⟩
    | found buf | returned reply buf | opened reply fh =>
      rw [hphase, AttrCall.next] at hnext
      · obtain ⟨rfl, rfl⟩ := Prod.mk.inj (Except.ok.inj hnext)
        exact .inr (.inr ⟨rfl, rfl, fun ⟨_, _, hget, _⟩ ↦ by cases hget⟩)
      all_goals simp

theorem looked_start : Looked calls s₀ (attrStart s₀) := by
  refine ⟨rfl, rfl, fun i buf hi ↦ ?_, fun i buf hi ↦ ?_⟩ <;> cases hi

section Steps

variable [DecidableEq ι] (htidy : Tidy s₀) (hlive : ∀ i, ∃ k, Finds (calls i).name s₀ k)
  (hname : ∀ i, (calls i).name.chars ≠ []) {l : AttrPhase} {shared : Store}
  (hnext : (calls i).next defFstat defDirstat (p.phase i) p.shared = .ok (l, shared))

include htidy hlive hname hnext

theorem Looked.step (h : Looked calls s₀ p) :
    Looked calls s₀ ⟨Function.update p.phase i l, shared⟩ := by
  rcases h.next_cases htidy hlive hname hnext with
    ⟨-, k, hfinds, rfl, hl⟩ | ⟨name, buf, k, -, -, -, rfl, rfl⟩ | ⟨rfl, rfl, -⟩
  · refine ⟨h.bits, h.table, fun j buf hj ↦ ?_, fun _ _ _ ↦ ⟨k, hfinds.live, rfl⟩⟩
    rcases update_cases hj with ⟨rfl, hbuf⟩ | ⟨-, hj⟩
    · rcases hl with ⟨rfl, hcall⟩ | rfl
      · cases hbuf
        exact ⟨_, k, hcall, hfinds, rfl⟩
      · cases hbuf
    · exact h.found j buf hj
  · have hkeep : ∀ j buf', Function.update p.phase i (if p.shared.backup = some k then
        .returned 0 (statOf s₀ k) else .returned (-9) buf) j = .found buf' →
        p.phase j = .found buf' := fun j buf' hj ↦
      (of_update_eq hj (by split_ifs <;> simp)).2
    exact ⟨h.bits, h.table, fun j buf' hj ↦ h.found j buf' (hkeep j buf' hj),
      fun j buf' hj ↦ h.backup j buf' (hkeep j buf' hj)⟩
  · rw [Function.update_eq_self]
    exact h

/-- What is right after a step was right before it, and the step was no fill-up from another
object; and the other way round. -/
theorem Looked.right_step (h : Looked calls s₀ p) :
    Right calls s₀ ⟨Function.update p.phase i l, shared⟩ ↔
      Right calls s₀ p ∧ OwnBackup calls i p := by
  rcases h.next_cases htidy hlive hname hnext with
    ⟨hphase, k, hfinds, rfl, hl⟩ | ⟨name, buf, k, hcall, hphase, hfinds, rfl, rfl⟩ |
      ⟨rfl, rfl, hidle⟩
  · have hown : OwnBackup calls i p := by
      unfold OwnBackup
      rw [hphase]
      cases calls i <;> trivial
    have hsame : ∀ j reply buf, Function.update p.phase i l j = .returned reply buf ↔
        p.phase j = .returned reply buf := fun j reply buf ↦ by
      by_cases hj : j = i
      · rw [hj, Function.update_self, hphase]
        rcases hl with ⟨rfl, -⟩ | rfl <;> simp
      · rw [Function.update_of_ne hj]
    refine (iff_of_eq ?_).trans (and_iff_left hown).symm
    simp only [Right, hsame]
  · have hown : OwnBackup calls i p ↔ p.shared.backup = some k := by
      unfold OwnBackup
      rw [hcall, hphase]
      exact ⟨fun hall ↦ hall k (hfinds.congr h.bits h.table), fun heq k' hk' ↦
        (hfinds.unique (hk'.congr h.bits.symm h.table.symm)).symm ▸ heq⟩
    rw [hown]
    constructor
    · intro hright
      have hmine : p.shared.backup = some k := by
        by_contra hne
        have hbad := (hright i name (-9) buf k hcall hfinds (by simp [hne])).1
        cases hbad
      refine ⟨fun j name' reply buf' k' hj hfinds' hreturned ↦ hright j name' reply buf' k' hj
        hfinds' ?_, hmine⟩
      have hji : j ≠ i := by
        rintro rfl
        rw [hphase] at hreturned
        cases hreturned
      exact (Function.update_of_ne hji ..).trans hreturned
    · rintro ⟨hright, hmine⟩ j name' reply buf' k' hj hfinds' hreturned
      rw [if_pos hmine] at hreturned
      rcases update_cases hreturned with ⟨rfl, hstat⟩ | ⟨-, hold⟩
      · rw [hcall] at hj
        cases hj
        cases hstat
        exact ⟨rfl, hfinds'.unique hfinds ▸ rfl⟩
      · exact hright j name' reply buf' k' hj hfinds' hold
  · have hown : OwnBackup calls i p := by
      unfold OwnBackup
      split
      · rename_i hcall hphase
        exact absurd ⟨_, _, hcall, hphase⟩ hidle
      · trivial
    rw [Function.update_eq_self]
    exact (and_iff_left hown).symm

end Steps

/-- For any number of concurrent calls of `objfs_getattr` and `objfs_open` on live objects, in any
interleaving: every `objfs_getattr` that has returned returned what it returns alone if and only if
every fill-up ran with the pointer on its own object. -/
theorem getattr_right_iff [DecidableEq ι] (defFstat defDirstat : Stat) (calls : ι → AttrCall)
    (s₀ : Store) (htidy : Tidy s₀) (hlive : ∀ i, ∃ k, Finds (calls i).name s₀ k)
    (hname : ∀ i, (calls i).name.chars ≠ []) (p : Pool ι AttrPhase Store)
    (hrun : Reaches (Pool.turn fun i ↦ (calls i).next defFstat defDirstat) (fun _ _ ↦ True)
      (attrStart s₀) p) :
    Right calls s₀ p ↔ Reaches (Pool.turn fun i ↦ (calls i).next defFstat defDirstat)
      (OwnBackup calls) (attrStart s₀) p := by
  have hright : Right calls s₀ (attrStart s₀) := fun i name reply buf k _ _ hi ↦ by cases hi
  constructor
  · refine (hrun.invariant (fun q ↦ Looked calls s₀ q ∧ (Right calls s₀ q → Reaches
      (Pool.turn fun i ↦ (calls i).next defFstat defDirstat) (OwnBackup calls) (attrStart s₀) q))
      (fun i q u q' hq _ hturn ↦ ?_) ⟨looked_start, fun _ ↦ .refl _ _ _⟩).2
    obtain ⟨l, shared, hnext, rfl⟩ := Pool.ok_of_turn hturn
    refine ⟨hq.1.step htidy hlive hname hnext, fun hafter ↦ ?_⟩
    obtain ⟨hbefore, hown⟩ := (hq.1.right_step htidy hlive hname hnext).mp hafter
    exact (hq.2 hbefore).turn hown hnext
  · intro hown
    refine (hown.invariant (fun q ↦ Looked calls s₀ q ∧ Right calls s₀ q)
      (fun i q u q' hq hok hturn ↦ ?_) ⟨looked_start, hright⟩).2
    obtain ⟨l, shared, hnext, rfl⟩ := Pool.ok_of_turn hturn
    exact ⟨hq.1.step htidy hlive hname hnext,
      (hq.1.right_step htidy hlive hname hnext).mpr ⟨hq.2, hok⟩⟩

/-! ### Two objects -/

/-- Two objects are created on a blank disk. -/
theorem two_objects : ∃ s₁ s₀, createObject keyA (objstoreInit zeroDevice) = (2, s₁) ∧
    createObject keyB s₁ = (3, s₀) ∧ Tidy s₀ ∧ Finds keyA s₀ 0 ∧ Finds keyB s₀ 1 := by
  obtain ⟨s₁, hcreate₁, hc₁⟩ := created_blank blank_zeroDevice keyA (by decide)
  have hbit₁ : ∀ j < 1015808, s₁.inodeBit j = decide (j = 0) := fun j hj ↦ by
    rw [hc₁.inodeBit, inodeBit_blank blank_zeroDevice hj]
    by_cases hzero : j = 0 <;> simp [hzero]
  have hleast : ∀ j < 1, s₁.inodeBit j = true := fun j hj ↦ by
    rw [hbit₁ j (by omega), decide_eq_true (by omega)]
  obtain ⟨s₀, hcreate, hc⟩ := createObject_lowest (by decide : keyB.Short) (k := 1)
    (by norm_num)
    ((hbit₁ 1 (by norm_num)).trans (decide_eq_false one_ne_zero)) hleast
  have hlive₁ : Live s₁ 0 := (hc₁.live (by norm_num) 0).mpr (.inr rfl)
  have hlive : ∀ j, Live s₀ j ↔ Live s₁ j ∨ j = 1 := hc.live (by norm_num)
  have hkey₀ : ∀ key : Key, key.Short → keyEq s₀.a 0 key = decide (key = keyA) := fun key hkey ↦ by
    rw [hc.key 0 key hkey, if_neg (by norm_num), hc₁.key 0 key hkey, if_pos rfl]
  have hkey₁ : keyEq s₀.a 1 keyB = true := by
    rw [hc.key 1 keyB (by decide), if_pos rfl, decide_eq_true rfl]
  refine ⟨s₁, s₀, hcreate₁, hcreate, hc.tidy (hc₁.tidy (tidy_blank blank_zeroDevice)),
    ⟨(hlive 0).mpr (.inl hlive₁), ?_, fun j hj ↦ absurd hj (Nat.not_lt_zero j)⟩,
    ⟨(hlive 1).mpr (.inr rfl), hkey₁, fun j hj hfound ↦ ?_⟩⟩
  · rw [hkey₀ keyA (by decide), decide_eq_true rfl]
  · obtain rfl : j = 0 := by omega
    have hother := hfound.2
    rw [hkey₀ keyB (by decide)] at hother
    revert hother
    decide

/-- A `stat` of one object while another one is opened. -/
def statAndOpen : Fin 2 → AttrCall
  | 0 => .objfsGetattr keyA
  | 1 => .objfsOpen keyB

theorem statAndOpen_live (ha : Finds keyA s₀ 0) (hb : Finds keyB s₀ 1) (i : Fin 2) :
    ∃ k, Finds (statAndOpen i).name s₀ k := by
  revert i
  exact Fin.forall_fin_two.mpr ⟨⟨0, ha⟩, ⟨1, hb⟩⟩

theorem statAndOpen_name : ∀ i, (statAndOpen i).name.chars ≠ [] := by
  decide

section

variable (htidy : Tidy s₀) (ha : Finds keyA s₀ 0) (hb : Finds keyB s₀ 1)

include htidy ha

/-- The first step of the `stat`. -/
theorem stat_next : (statAndOpen 0).next ⟨0, 0, 0⟩ ⟨0, 0, 0⟩ .called s₀ =
    .ok (.found ⟨(0 : ℕ) + 2, 0, 0⟩, { s₀ with backup := some 0 }) :=
  have hlooked : Looked statAndOpen s₀ (attrStart s₀) := looked_start
  hlooked.next_getattr htidy (by decide) ha

include hb

theorem stat_looked : Looked statAndOpen s₀
    ⟨Function.update (fun _ ↦ .called) 0 (.found ⟨(0 : ℕ) + 2, 0, 0⟩),
      { s₀ with backup := some 0 }⟩ :=
  looked_start.step htidy (statAndOpen_live ha hb) statAndOpen_name (stat_next htidy ha)

end

/-- The `stat` runs to its end before the other object is opened. -/
theorem getattr_right_two : ∃ (s₀ : Store) (p : Pool (Fin 2) AttrPhase Store),
    p.phase 0 = .returned 0 (statOf s₀ 0) ∧ Right statAndOpen s₀ p := by
  obtain ⟨s₁, s₀, -, -, htidy, ha, hb⟩ := two_objects
  have hnext : (statAndOpen 0).next ⟨0, 0, 0⟩ ⟨0, 0, 0⟩ (.found ⟨(0 : ℕ) + 2, 0, 0⟩)
      { s₀ with backup := some 0 } =
      .ok (.returned 0 (statOf s₀ 0), { s₀ with backup := some 0 }) :=
    (stat_looked htidy ha hb).next_fillup (i := 0) htidy rfl rfl ha
  have hrun₁ := (Reaches.refl (Pool.turn fun i ↦ (statAndOpen i).next ⟨0, 0, 0⟩ ⟨0, 0, 0⟩)
    (OwnBackup statAndOpen) (attrStart s₀)).turn (i := 0) (by exact trivial) (stat_next htidy ha)
  have hrun₂ := hrun₁.turn (i := 0) (by
    intro k hk
    rw [ha.unique (hk.congr rfl rfl)]) hnext
  exact ⟨s₀, _, rfl, (getattr_right_iff _ _ statAndOpen s₀ htidy (statAndOpen_live ha hb)
    statAndOpen_name _ (hrun₂.mono fun _ _ _ ↦ trivial)).mpr hrun₂⟩

/-- The other object is opened between the steps of the `stat`, which then fails with `-EBADF`. -/
theorem stat_fails : ∃ (s₁ s₀ : Store) (p : Pool (Fin 2) AttrPhase Store) (buf : Stat),
    createObject keyA (objstoreInit zeroDevice) = (2, s₁) ∧ createObject keyB s₁ = (3, s₀) ∧
      Reaches (Pool.turn fun i ↦ (statAndOpen i).next ⟨0, 0, 0⟩ ⟨0, 0, 0⟩) (fun _ _ ↦ True)
        (attrStart s₀) p ∧
      p.phase 0 = .returned (-9) buf ∧ ¬Right statAndOpen s₀ p := by
  obtain ⟨s₁, s₀, hcreate₁, hcreate₀, htidy, ha, hb⟩ := two_objects
  have hopen : (statAndOpen 1).next ⟨0, 0, 0⟩ ⟨0, 0, 0⟩ .called { s₀ with backup := some 0 } =
      .ok (.opened 0 (some ((1 : ℕ) + 2)), { s₀ with backup := some 1 }) :=
    (stat_looked htidy ha hb).next_open htidy hb
  have hlooked := (stat_looked htidy ha hb).step (i := 1) htidy (statAndOpen_live ha hb)
    statAndOpen_name hopen
  have hfill : (statAndOpen 0).next ⟨0, 0, 0⟩ ⟨0, 0, 0⟩ (.found ⟨(0 : ℕ) + 2, 0, 0⟩)
      { s₀ with backup := some 1 } =
      .ok (.returned (-9) ⟨(0 : ℕ) + 2, 0, 0⟩, { s₀ with backup := some 1 }) :=
    hlooked.next_fillup (i := 0) htidy rfl rfl ha
  have hrun₁ := (Reaches.refl (Pool.turn fun i ↦ (statAndOpen i).next ⟨0, 0, 0⟩ ⟨0, 0, 0⟩)
    (fun _ _ ↦ True) (attrStart s₀)).turn (i := 0) trivial (stat_next htidy ha)
  have hrun₂ := hrun₁.turn (i := 1) trivial hopen
  have hrun₃ := hrun₂.turn (i := 0) trivial hfill
  refine ⟨s₁, s₀, _, _, hcreate₁, hcreate₀, hrun₃, rfl, fun hright ↦ ?_⟩
  have hbad := (hright 0 keyA (-9) _ 0 rfl ha rfl).1
  cases hbad

end OsAssignments.Objstore
