import OsAssignments.Example.Calls

/-!
# Runs of the example file system

Every list of calls through handles that were given out is answered as the directory says and dies
nowhere, whatever else is on the disk and however often it is mounted again by either build
(`example_files`). The build shows in no reply as long as reads stay within the objects
(`example_builds_agree`).

`create_object` looks for the name behind the record that it has already claimed. As long as no
creation names an object in use, names stay distinct, each object is found by its name, and a
creation fails only when all 16 records are in use (`example_names_distinct`). A refused creation,
though, can bring the last name of a freed record back: `example_refused_creation` says when it does
not.
-/

set_option autoImplicit false
set_option relaxedAutoImplicit false

namespace OsAssignments.Example

open Library
open Objstore (Block Build Fault Key Stat statBlocks)

variable {defFstat defDirstat : Stat} {d d' : View} {op : Op} {reply reply' : Reply} {name : Key}

/-! ### Replies -/

/-- Whatever the disk holds outside block 0, the calls are answered as the files say. -/
theorem example_files (defFstat defDirstat : Stat) (bld : Build) (disk : ℕ → Block)
    (hdisk : disk 0 = Block.zero) (calls : List Op)
    (hcalls : Promised (Op.spec defFstat defDirstat) Op.Allowed calls .start) :
    ∃ rs s d, replies (Op.run defFstat defDirstat) calls (.start bld disk) = .ok (rs, s) ∧
      Conforms (Op.spec defFstat defDirstat) calls .start rs d ∧
      Represents s.build s.store d.files ∧
      ∀ fh ∈ d.handles, ∃ k : Fin 16, fh = (k : ℕ) + 2 := by
  obtain ⟨rs, s, d, hrun, hconforms, hshows⟩ :=
    (simulates_spec defFstat defDirstat).replies hcalls (shows_start bld hdisk)
  exact ⟨rs, s, d, hrun, hconforms, hshows.files, hshows.handles⟩

/-! ### The two builds -/

/-- The call without the build that is mounted. -/
def Op.forget : Op → Op
  | .remount _ => .remount .cached
  | op => op

/-- Promises, with reads that stay within the objects. -/
def Op.Within (op : Op) (d : View) : Prop :=
  op.Allowed d ∧ ∀ fh size, op = .objfsRead fh size →
    ∀ (k : Fin 16) v, fh = (k : ℕ) + 2 → d.files.value k = some v → size ≤ v.length

theorem spec_forget (op : Op) :
    op.forget.spec defFstat defDirstat = op.spec defFstat defDirstat := by
  cases op <;> rfl

theorem within_forget (op : Op) : op.forget.Within = op.Within := by
  cases op with
  | remount bld =>
    funext d
    simp [Op.forget, Op.Within, Op.Allowed]
  | _ => rfl

theorem handle_inj {k l : Fin 16} (h : ((k : ℕ) : ℤ) + 2 = (l : ℕ) + 2) : k = l :=
  Fin.ext (by omega)

/-- A call whose read stays within the object has one answer. -/
theorem spec_unique (hok : op.Within d) (h : op.spec defFstat defDirstat d reply d')
    {d'' : View} (h' : op.spec defFstat defDirstat d reply' d'') : reply = reply' ∧ d' = d'' := by
  cases op with
  | objfsRead fh size =>
    obtain ⟨rfl, k, rfl, hreply⟩ := h
    obtain ⟨rfl, l, hl, hreply'⟩ := h'
    obtain rfl := handle_inj hl
    cases hk : d''.files.value k with
    | none =>
      rw [hk] at hreply hreply'
      exact ⟨hreply.trans hreply'.symm, rfl⟩
    | some v =>
      have hsize := hok.2 _ size rfl k v rfl hk
      rw [hk] at hreply hreply'
      obtain ⟨out, rfl, hout⟩ := hreply
      obtain ⟨out', rfl, hout'⟩ := hreply'
      rw [hout.eq hsize, hout'.eq hsize]
      exact ⟨rfl, rfl⟩
  | objfsWrite fh buf =>
    obtain ⟨k, rfl, rfl, rfl⟩ := h
    obtain ⟨l, hl, rfl, rfl⟩ := h'
    obtain rfl := handle_inj hl
    exact ⟨rfl, rfl⟩
  | objfsUnlink name | objfsCreate name | objfsOpen name =>
    exact ⟨h.1.trans h'.1.symm, h.2.trans h'.2.symm⟩
  | objfsGetattr name | objfsRelease fh | remount bld =>
    exact ⟨h.2.trans h'.2.symm, h.1.trans h'.1.symm⟩

/-- Two runs of the same calls, each with builds of its own from mount to mount and a disk of its
own, have the same replies. -/
theorem example_builds_agree (defFstat defDirstat : Stat) (bld bld' : Build)
    (disk disk' : ℕ → Block)
    (hdisk : disk 0 = Block.zero) (hdisk' : disk' 0 = Block.zero) (calls calls' : List Op)
    (hsame : calls.map Op.forget = calls'.map Op.forget)
    (hcalls : Promised (Op.spec defFstat defDirstat) Op.Within calls .start) :
    ∃ rs s s', replies (Op.run defFstat defDirstat) calls (.start bld disk) = .ok (rs, s) ∧
      replies (Op.run defFstat defDirstat) calls' (.start bld' disk') = .ok (rs, s') := by
  have hforgot : Promised (Op.spec defFstat defDirstat) Op.Within (calls'.map Op.forget) .start :=
    hsame ▸ (promised_map_iff spec_forget within_forget).mpr hcalls
  have hcalls' := (promised_map_iff spec_forget within_forget).mp hforgot
  obtain ⟨rs, s, e, hrun, hconforms, -⟩ := (simulates_spec defFstat defDirstat).replies
    (hcalls.mono fun _ _ hok ↦ hok.1) (shows_start bld hdisk)
  obtain ⟨rs', s', e', hrun', hconforms', -⟩ := (simulates_spec defFstat defDirstat).replies
    (hcalls'.mono fun _ _ hok ↦ hok.1) (shows_start bld' hdisk')
  have hforgot' := (conforms_map_iff spec_forget).mpr hconforms
  rw [hsame] at hforgot'
  obtain ⟨rfl, -⟩ := Conforms.unique (fun op d r d' r' d'' hok h h' ↦ spec_unique hok h h') hcalls'
    ((conforms_map_iff spec_forget).mp hforgot') hconforms'
  exact ⟨rs, s, s', hrun, hrun'⟩

/-! ### A first file -/

/-- The name of a first file. -/
def nameA : Key := ⟨[97], fun hzero ↦ absurd (List.mem_singleton.mp hzero) (by decide)⟩

/-- The first creation. -/
theorem create_blank (name : Key) : create blank name = (some 0, blank.occupy 0 name []) :=
  create_fresh (by decide) (Directory.lookup_eq_none_iff.mpr fun _ h ↦ h.1 rfl)

theorem spec_first_create (h : (Op.objfsCreate nameA).spec defFstat defDirstat .start reply d) :
    reply = .handle 0 (some 2) ∧ d = ⟨blank.occupy 0 nameA [], [2]⟩ := by
  obtain ⟨rfl, rfl⟩ := h
  rw [View.start, create_blank]
  exact ⟨rfl, rfl⟩

theorem spec_first_write (h : (Op.objfsWrite 2 [7]).spec defFstat defDirstat
    ⟨blank.occupy 0 nameA [], [2]⟩ reply d) :
    reply = .status 1 ∧ d = ⟨(blank.occupy 0 nameA []).assign 0 (some [7]), [2]⟩ := by
  obtain ⟨k, hk, rfl, rfl⟩ := h
  obtain rfl : k = 0 := Fin.ext (by simp only [Fin.val_zero]; omega)
  have hlive : ((blank.occupy 0 nameA []).value 0).isSome := by
    rw [Directory.occupy_value_self]
    rfl
  have hwrite : write (blank.occupy 0 nameA []) 0 [7] =
      (1, (blank.occupy 0 nameA []).assign 0 (some [7])) := if_pos ⟨hlive, by decide⟩
  rw [hwrite]
  exact ⟨rfl, rfl⟩

theorem spec_first_read (h : (Op.objfsRead 2 1).spec defFstat defDirstat
    ⟨(blank.occupy 0 nameA []).assign 0 (some [7]), [2]⟩ reply d) : reply = .data 1 [7] := by
  obtain ⟨rfl, k, hk, hread⟩ := h
  obtain rfl : k = 0 := Fin.ext (by simp only [Fin.val_zero]; omega)
  rw [Directory.assign_value_self] at hread
  obtain ⟨out, rfl, hout⟩ := hread
  rw [hout.eq (by decide)]
  rfl
/-- A file that is written, and read after a remount. -/
def firstCalls (bld : Build) : List Op :=
  [.objfsCreate nameA, .objfsWrite 2 [7], .remount bld, .objfsRead 2 1]

theorem promised_first (bld : Build) :
    Promised (Op.spec defFstat defDirstat) Op.Within (firstCalls bld) .start := by
  refine .cons ⟨show Fits nameA by decide, nofun⟩ fun reply d h ↦ ?_
  obtain ⟨-, rfl⟩ := spec_first_create h
  refine .cons ⟨⟨List.mem_singleton_self 2, by decide⟩, nofun⟩ fun reply d h ↦ ?_
  obtain ⟨-, rfl⟩ := spec_first_write h
  refine .cons ⟨trivial, nofun⟩ fun reply d h ↦ ?_
  obtain ⟨rfl, -⟩ := h
  refine .cons ⟨⟨List.mem_singleton_self 2, by decide⟩, fun fh size hop k v hk hv ↦ ?_⟩
    fun reply d _ ↦ .nil d
  cases hop
  obtain rfl : k = 0 := Fin.ext (by simp only [Fin.val_zero]; omega)
  rw [Directory.assign_value_self] at hv
  cases hv
  decide

theorem conforms_first {bld : Build} {rs : List Reply}
    (h : Conforms (Op.spec defFstat defDirstat) (firstCalls bld) .start rs d) :
    rs = [.handle 0 (some 2), .status 1, .status 0, .data 1 [7]] := by
  rcases h with _ | ⟨h₁, h⟩
  obtain ⟨rfl, rfl⟩ := spec_first_create h₁
  rcases h with _ | ⟨h₂, h⟩
  obtain ⟨rfl, rfl⟩ := spec_first_write h₂
  rcases h with _ | ⟨h₃, h⟩
  obtain ⟨rfl, rfl⟩ := h₃
  rcases h with _ | ⟨h₄, h⟩
  obtain rfl := spec_first_read h₄
  cases h
  rfl

/-- The replies on the zero disk. -/
theorem example_files_first : ∃ s, replies (Op.run ⟨0, 0, 0⟩ ⟨0, 0, 0⟩) (firstCalls .uncached)
    (.start .cached fun _ ↦ Block.zero) =
      .ok ([.handle 0 (some 2), .status 1, .status 0, .data 1 [7]], s) := by
  obtain ⟨rs, s, d, hrun, hconforms, -⟩ := example_files ⟨0, 0, 0⟩ ⟨0, 0, 0⟩ .cached
    (fun _ ↦ Block.zero) rfl (firstCalls .uncached)
    ((promised_first .uncached).mono fun _ _ h ↦ h.1)
  exact ⟨s, conforms_first hconforms ▸ hrun⟩

/-- The same file in both builds. -/
theorem example_builds_agree_first : ∃ rs s s',
    replies (Op.run ⟨0, 0, 0⟩ ⟨0, 0, 0⟩) (firstCalls .cached) (.start .cached fun _ ↦ Block.zero) =
        .ok (rs, s) ∧
      replies (Op.run ⟨0, 0, 0⟩ ⟨0, 0, 0⟩) (firstCalls .uncached)
        (.start .uncached fun _ ↦ Block.zero) = .ok (rs, s') :=
  example_builds_agree ⟨0, 0, 0⟩ ⟨0, 0, 0⟩ .cached .uncached _ _ rfl rfl (firstCalls .cached)
    (firstCalls .uncached) rfl (promised_first .cached)

/-! ### Names -/

/-- Promises, with creations under names that no object in use has. -/
def Op.Fresh (op : Op) (d : View) : Prop :=
  op.Allowed d ∧ ∀ name, op = .objfsCreate name → ∀ k, ¬ d.files.Has k name

theorem lookup_used {e : Files} {k : Fin 16} (h : e.lookup name = some k) : e.value k ≠ none :=
  (Directory.lookup_eq_some_iff.mp h).1.1

/-- Fresh creations, and all other calls, keep the names distinct. -/
theorem distinct_spec (hd : d.files.Distinct) (hok : op.Fresh d)
    (h : op.spec defFstat defDirstat d reply d') : d'.files.Distinct := by
  cases op with
  | objfsUnlink name =>
    obtain ⟨-, rfl⟩ := h
    cases hlookup : d.files.lookup name with
    | none => exact hd
    | some k => exact hd.assign (lookup_used hlookup) none
  | objfsCreate name =>
    obtain ⟨-, rfl⟩ := h
    have hfresh := hok.2 name rfl
    cases hfirst : d.files.firstFree with
    | none =>
      rw [create_full hfirst]
      exact hd
    | some k =>
      rw [create_fresh hfirst (Directory.lookup_eq_none_iff.mpr hfresh)]
      exact hd.occupy (Directory.firstFree_eq_some_iff.mp hfirst).1 hfresh
  | objfsOpen name =>
    obtain ⟨-, rfl⟩ := h
    exact hd
  | objfsWrite fh buf =>
    obtain ⟨k, -, rfl, -⟩ := h
    rw [write]
    split_ifs with hlive
    · exact hd.assign (Option.isSome_iff_ne_none.mp hlive.1) (some buf)
    · exact hd
  | objfsGetattr name | objfsRead fh size | objfsRelease fh | remount bld =>
    obtain ⟨rfl, -⟩ := h
    exact hd

theorem distinct_blank : blank.Distinct := fun _ _ h _ _ ↦ absurd rfl h

/-- In every run whose creations are fresh each object in use is found by its name, and a creation
under a name not in use fails exactly when all records are in use. -/
theorem example_names_distinct (defFstat defDirstat : Stat) (bld : Build) (disk : ℕ → Block)
    (hdisk : disk 0 = Block.zero) (calls : List Op)
    (hcalls : Promised (Op.spec defFstat defDirstat) Op.Fresh calls .start) :
    ∃ rs s d, replies (Op.run defFstat defDirstat) calls (.start bld disk) = .ok (rs, s) ∧
      Conforms (Op.spec defFstat defDirstat) calls .start rs d ∧ d.files.Distinct ∧
      (∀ k, d.files.value k ≠ none → findObjectId (d.files.name k) s.store = (k : ℕ) + 2) ∧
      ∀ name, Fits name → (∀ k, ¬ d.files.Has k name) →
        ((createObject s.build name s.store).1 = -1 ↔ d.files.used.card = 16) := by
  obtain ⟨rs, s, d, hrun, hconforms, hshows⟩ := (simulates_spec defFstat defDirstat).replies
    (hcalls.mono fun _ _ hok ↦ hok.1) (shows_start bld hdisk)
  have hdistinct : d.files.Distinct := hconforms.invariant (fun d ↦ d.files.Distinct)
    (fun _ _ _ _ hd hok h ↦ distinct_spec hd hok h) hcalls distinct_blank
  refine ⟨rs, s, d, hrun, hconforms, hdistinct, fun k hk ↦ ?_, fun name hname hfresh ↦ ?_⟩
  · have hhas : d.files.Has k (d.files.name k) := ⟨hk, rfl⟩
    rw [findObjectId_eq hshows.files, hdistinct.lookup hhas, handle]
  · obtain ⟨t, hcreate, -⟩ := represents_create hshows.files hname
    rw [hcreate, ← Directory.firstFree_eq_none_iff_card]
    cases hfirst : d.files.firstFree with
    | none =>
      rw [create_full hfirst, handle]
      exact iff_of_true rfl rfl
    | some k =>
      rw [create_fresh hfirst (Directory.lookup_eq_none_iff.mpr hfresh), handle]
      refine iff_of_false ?_ (Option.some_ne_none k)
      dsimp only
      omega

/-- The first file is found by its name. -/
theorem example_names_distinct_first : ∃ s,
    replies (Op.run ⟨0, 0, 0⟩ ⟨0, 0, 0⟩) [.objfsCreate nameA] (.start .cached fun _ ↦ Block.zero) =
        .ok ([.handle 0 (some 2)], s) ∧ findObjectId nameA s.store = 2 := by
  have hcalls : Promised (Op.spec ⟨0, 0, 0⟩ ⟨0, 0, 0⟩) Op.Fresh [.objfsCreate nameA] .start :=
    .cons ⟨show Fits nameA by decide, fun _ _ k hhas ↦ hhas.1 rfl⟩ fun _ d _ ↦ .nil d
  obtain ⟨rs, s, d, hrun, hconforms, -, hfind, -⟩ := example_names_distinct ⟨0, 0, 0⟩ ⟨0, 0, 0⟩
    .cached (fun _ ↦ Block.zero) rfl [.objfsCreate nameA] hcalls
  rcases hconforms with _ | ⟨h₁, h⟩
  obtain ⟨rfl, rfl⟩ := spec_first_create h₁
  cases h
  refine ⟨s, hrun, ?_⟩
  have hid := hfind 0 (by rw [Directory.occupy_value_self]; exact Option.some_ne_none [])
  rwa [Directory.occupy_name_self] at hid

/-! ### Refused creations -/

theorem handle_injective : Function.Injective handle := by
  intro r r' h
  cases r with
  | none =>
    cases r' with
    | none => rfl
    | some k =>
      simp only [handle] at h
      omega
  | some k =>
    cases r' with
    | none =>
      simp only [handle] at h
      omega
    | some l => rw [handle_inj h]

/-- An entry that is taken into use under its last name changes no lookup exactly when an entry
before it has that name. -/
theorem lookup_assign_iff {e : Files} {k : Fin 16} (hfree : e.value k = none) (v : List UInt8) :
    (∀ other, (e.assign k (some v)).lookup other = e.lookup other) ↔
      ∃ j < k, e.Has j (e.name k) := by
  have hhas : ∀ j other, (e.assign k (some v)).Has j other ↔
      (j = k ∧ e.name k = other) ∨ e.Has j other := fun j other ↦ by
    rw [Directory.has_assign]
    split_ifs with hj
    · subst hj
      simp [Directory.Has, hfree]
    · simp [hj]
  constructor
  · intro h
    obtain ⟨j, hlookup, hle⟩ := Directory.exists_lookup ((hhas k _).mpr (.inl ⟨rfl, rfl⟩))
    rw [h] at hlookup
    have hj := (Directory.lookup_eq_some_iff.mp hlookup).1
    exact ⟨j, lt_of_le_of_ne hle fun heq ↦ hj.1 (heq ▸ hfree), hj⟩
  · rintro ⟨j, hj, hname⟩ other
    cases hlookup : e.lookup other with
    | none =>
      rw [Directory.lookup_eq_none_iff] at hlookup ⊢
      rintro i hi
      rcases (hhas i other).mp hi with ⟨rfl, rfl⟩ | hold
      · exact hlookup j hname
      · exact hlookup i hold
    | some i =>
      obtain ⟨hi, hbefore⟩ := Directory.lookup_eq_some_iff.mp hlookup
      refine Directory.lookup_eq_some_iff.mpr ⟨(hhas i other).mpr (.inr hi), fun l hl hnew ↦ ?_⟩
      rcases (hhas l other).mp hnew with ⟨rfl, rfl⟩ | hold
      · -- The entry before it is found first.
        exact hbefore j (hj.trans hl) hname
      · exact hbefore l hl hold

/-- After every run a refused creation leaves every lookup as it was exactly when no record is free,
or before the first free one there is an object with the name or with the last name of that record.
-/
theorem example_refused_creation (defFstat defDirstat : Stat) (bld : Build) (disk : ℕ → Block)
    (hdisk : disk 0 = Block.zero) (calls : List Op)
    (hcalls : Promised (Op.spec defFstat defDirstat) Op.Allowed calls .start) :
    ∃ rs s d, replies (Op.run defFstat defDirstat) calls (.start bld disk) = .ok (rs, s) ∧
      Conforms (Op.spec defFstat defDirstat) calls .start rs d ∧
      ∀ name, Fits name →
        ((createObject s.build name s.store).1 = -1 ↔ (create d.files name).1 = none) ∧
        ((createObject s.build name s.store).1 = -1 →
          ((∀ other, findObjectId other (createObject s.build name s.store).2 =
            findObjectId other s.store) ↔
          ∀ k, d.files.firstFree = some k →
            ∃ j < k, d.files.Has j name ∨ d.files.Has j (d.files.name k))) := by
  obtain ⟨rs, s, d, hrun, hconforms, hshows⟩ :=
    (simulates_spec defFstat defDirstat).replies hcalls (shows_start bld hdisk)
  refine ⟨rs, s, d, hrun, hconforms, fun name hname ↦ ?_⟩
  obtain ⟨t, hcreate, hrep⟩ := represents_create hshows.files hname
  have hvalue : (createObject s.build name s.store).1 = -1 ↔ (create d.files name).1 = none := by
    rw [hcreate]
    exact handle_injective.eq_iff (b := none)
  refine ⟨hvalue, fun hrefused ↦ ?_⟩
  have hlookups : (∀ other, findObjectId other t = findObjectId other s.store) ↔
      ∀ other, (create d.files name).2.lookup other = d.files.lookup other := by
    refine forall_congr' fun other ↦ ?_
    rw [findObjectId_eq hrep, findObjectId_eq hshows.files, handle_injective.eq_iff]
  have hnone := hvalue.mp hrefused
  rw [hcreate]
  dsimp only
  rw [hlookups]
  cases hfirst : d.files.firstFree with
  | none =>
    rw [create_full hfirst]
    exact iff_of_true (fun _ ↦ rfl) fun k hk ↦ absurd hk.symm (Option.some_ne_none k)
  | some k =>
    cases hlookup : d.files.lookup name with
    | none =>
      rw [create_fresh hfirst hlookup] at hnone
      exact absurd hnone (Option.some_ne_none k)
    | some i =>
      obtain ⟨hi, hbefore⟩ := Directory.lookup_eq_some_iff.mp hlookup
      rw [create_taken hfirst hlookup]
      by_cases hik : i < k
      · rw [if_pos hik]
        refine iff_of_true (fun _ ↦ rfl) fun l hl ↦ ?_
        obtain rfl := Option.some.inj hl
        exact ⟨i, hik, .inl hi⟩
      · rw [if_neg hik, lookup_assign_iff (Directory.firstFree_eq_some_iff.mp hfirst).1]
        constructor
        · rintro ⟨j, hj, hname⟩ l hl
          obtain rfl := Option.some.inj hl
          exact ⟨j, hj, .inr hname⟩
        · intro h
          obtain ⟨j, hj, hname | hname⟩ := h k rfl
          · exact absurd hname (hbefore j (hj.trans_le (not_lt.mp hik)))
          · exact ⟨j, hj, hname⟩

/-- The name of a second file. -/
def nameB : Key := ⟨[98], fun hzero ↦ absurd (List.mem_singleton.mp hzero) (by decide)⟩

/-- Two files, the first of which is removed. -/
def filesB : Files := ((blank.occupy 0 nameA []).occupy 1 nameB []).assign 0 none

/-- The calls that lead there. -/
def unlinkCalls : List Op := [.objfsCreate nameA, .objfsCreate nameB, .objfsUnlink nameA]

theorem spec_second_create (h : (Op.objfsCreate nameB).spec defFstat defDirstat
    ⟨blank.occupy 0 nameA [], [2]⟩ reply d) :
    d = ⟨(blank.occupy 0 nameA []).occupy 1 nameB [], [3, 2]⟩ := by
  obtain ⟨-, rfl⟩ := h
  have hcreate : create (blank.occupy 0 nameA []) nameB =
      (some 1, (blank.occupy 0 nameA []).occupy 1 nameB []) :=
    create_fresh (by decide) (by decide)
  rw [hcreate]
  rfl

theorem promised_unlink :
    Promised (Op.spec defFstat defDirstat) Op.Allowed unlinkCalls .start := by
  refine .cons (show Fits nameA by decide) fun reply d h ↦ ?_
  refine .cons (show Fits nameB by decide) fun reply d h ↦ ?_
  exact .cons trivial fun reply d _ ↦ .nil d

theorem conforms_unlink {rs : List Reply}
    (h : Conforms (Op.spec defFstat defDirstat) unlinkCalls .start rs d) : d.files = filesB := by
  rcases h with _ | ⟨h₁, h⟩
  obtain ⟨rfl, rfl⟩ := spec_first_create h₁
  rcases h with _ | ⟨h₂, h⟩
  obtain rfl := spec_second_create h₂
  rcases h with _ | ⟨h₃, h⟩
  obtain ⟨rfl, rfl⟩ := h₃
  cases h
  have hlookup : ((blank.occupy 0 nameA []).occupy 1 nameB []).lookup nameA = some 0 := by decide
  rw [hlookup]
  rfl

/-- The second file is created again: that is refused, and some lookup has changed. -/
theorem example_refused_creation_first : ∃ rs s,
    replies (Op.run ⟨0, 0, 0⟩ ⟨0, 0, 0⟩) unlinkCalls (.start .cached fun _ ↦ Block.zero) =
        .ok (rs, s) ∧ (createObject s.build nameB s.store).1 = -1 ∧
      ∃ other, findObjectId other (createObject s.build nameB s.store).2 ≠
        findObjectId other s.store := by
  obtain ⟨rs, s, d, hrun, hconforms, hrefused⟩ := example_refused_creation ⟨0, 0, 0⟩ ⟨0, 0, 0⟩
    .cached (fun _ ↦ Block.zero) rfl unlinkCalls promised_unlink
  have hfiles := conforms_unlink hconforms
  obtain ⟨hvalue, hiff⟩ := hrefused nameB (by decide)
  have hfirst : filesB.firstFree = some 0 := by decide
  have hcreate : create filesB nameB = (none, filesB.assign 0 (some [])) :=
    create_taken hfirst (show filesB.lookup nameB = some 1 by decide)
  have hminus : (createObject s.build nameB s.store).1 = -1 := by
    rw [hvalue, hfiles, hcreate]
  refine ⟨rs, s, hrun, hminus, not_forall.mp fun hall ↦ ?_⟩
  obtain ⟨j, hj, -⟩ := (hiff hminus).mp hall 0 (hfiles ▸ hfirst)
  exact absurd hj (Fin.not_lt_zero j)

end OsAssignments.Example
