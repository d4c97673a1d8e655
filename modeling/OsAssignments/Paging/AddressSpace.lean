import OsAssignments.Paging.Cleanup

/-!
# The address space that has been prepared

What the hardware finds when it walks the tables that `prepare_context_mm` leaves. The tree of
`prepared` says which walks succeed and where they end, and its marks say which entries on the way
permit writing: those above a writable segment. A segment's own entry is above no other page, so its
page is writable exactly when the segment is (`address_space_built`).

The frame of the arguments is shifted as a 32-bit number. From `2 ^ 20` on its upper bits are lost
(`argument_frame_truncated`).
-/

set_option autoImplicit false
set_option relaxedAutoImplicit false

namespace OsAssignments.Paging.ContextMm

open OsAssignments.Library

variable {frames : ℕ → Pfn} {pgd : Pfn} {pages : List Pfn} {T : TablePath → Option Pfn}
    {s : Machine}
  {ctx : ExecContext} {c : MmSeg} {f : Pfn} {va : BitVec 64}

/-! ### Walks of the hardware -/

/-- The indices by which the hardware walks: nine bits of the address for each level. -/
def hardwareIndices (va : BitVec 64) : List ℕ :=
  [va.toNat / 2 ^ 39 % 512, va.toNat / 2 ^ 30 % 512, va.toNat / 2 ^ 21 % 512,
    va.toNat / 2 ^ 12 % 512]

/-- The walk of the hardware from a root table. -/
def hardwareWalk (tables : Tables) (pgd : Pfn) (va : BitVec 64) : Option (List Entry) :=
  walk tables (hardwareIndices va) pgd

theorem hardwareIndices_eq (hva : va.toNat < 2 ^ 48) : hardwareIndices va = indices va := by
  have htop : va.toNat / 2 ^ 39 % 512 = va.toNat / 2 ^ 39 := Nat.mod_eq_of_lt (by omega)
  rw [hardwareIndices, indices, l4Index_eq hva, l3Index, l2Index, l1Index, masked_index,
    masked_index, masked_index, htop]

/-- The walk of an address ends at a frame: four entries, all for user access, all writable exactly
when `writable` says so. -/
def MapsTo (tables : Tables) (pgd : Pfn) (va : BitVec 64) (writable : Prop) (f : Pfn) : Prop :=
  ∃ es, hardwareWalk tables pgd va = some es ∧ es.length = 4 ∧ (∀ e ∈ es, e.User) ∧
    ((∀ e ∈ es, e.Writable) ↔ writable) ∧ ∀ e ∈ es.getLast?, e.pfn = f

/-- The marks of the three segments. -/
def SegmentMarks (ctx : ExecContext) (ρ : TablePath) : Prop :=
  ∃ c, c ≠ .rodata ∧ OnWay [] (ctx.place c) ρ ∧ (ctx.mms c).accessFlags &&& 0x2 = 2

/-- The page of a segment is found where the tree has it, with the permission of the segment. -/
theorem segment_mapped (hbuilt : Built frames pgd pages T s)
    (hmarked : Marked 3 s.tables T (SegmentMarks ctx)) (hseparate : ctx.Separate) (hc : c ≠ .rodata)
    (hf : T (ctx.place c) = some f) : MapsTo s.tables pgd (virutalAdd c (ctx.mms c))
      ((ctx.mms c).accessFlags &&& 0x2 = 2) f := by
  have hlow := hseparate.low c hc
  have hplace : (indices (virutalAdd c (ctx.mms c))).reverse ++ [] = ctx.place c :=
    List.append_nil _
  obtain ⟨es, hwalk, hlength, huser, hwritable, hlast⟩ := hmarked.walk_eq hbuilt.describes
    hbuilt.closed hbuilt.root le_rfl (indices_lt hlow) (hplace.symm ▸ hf)
  rw [hplace] at hwritable
  refine ⟨es, ?_, hlength, huser, hwritable.trans ⟨fun hall ↦ ?_, fun hflag ρ hρ hlt ↦ ?_⟩, hlast⟩
  · rw [hardwareWalk, hardwareIndices_eq hlow, hwalk]
  · obtain ⟨d, hd, hway, hflag⟩ := hall _ List.suffix_rfl (by rw [ctx.length_place]; norm_num)
    obtain rfl : c = d := by
      by_contra hne
      exact hseparate.not_suffix hc hd hne hway.1
    exact hflag
  · exact ⟨c, hc, ⟨hρ, hlt⟩, hflag⟩

/-- No other page is found. -/
theorem other_unmapped {code stack : Pfn} (hbuilt : Built frames pgd pages T s)
    (hprepared : Prepared ctx T code stack) (hseparate : ctx.Separate) (hva : va.toNat < 2 ^ 48)
    (hother : ∀ c, c ≠ .rodata → va >>> 12 ≠ virutalAdd c (ctx.mms c) >>> 12) :
    hardwareWalk s.tables pgd va = none := by
  have hnot : ∀ c, c ≠ .rodata → ¬(indices va).reverse <:+ ctx.place c := fun c hc hsuffix ↦
    hother c hc (page_eq_of_indices hva (hseparate.low c hc)
      (List.reverse_injective (hsuffix.eq_of_length rfl)))
  have hnone : T ((indices va).reverse ++ []) = none := by
    rw [List.append_nil]
    by_contra hne
    rcases (hprepared.dom _).mp hne with hsuffix | hsuffix | hsuffix
    · exact hnot .code (by decide) hsuffix
    · exact hnot .data (by decide) hsuffix
    · exact hnot .stack (by decide) hsuffix
  rw [hardwareWalk, hardwareIndices_eq hva]
  exact hbuilt.describes.walk_none hbuilt.root le_rfl (indices_lt hva) hnone

/-- The hardware finds the pages of the three segments and no other: code and stack at two fresh
user frames, data at the frame of the arguments as it is shifted into place. -/
theorem prepared_walks {ctx : ExecContext} (tables : Tables) (hseparate : ctx.Separate)
    (hsupplied : Supplied frames ctx.argPfn
      (prepareContextMm frames ctx ⟨tables, 0, []⟩).2.calls) :
    let prepared := prepareContextMm frames ctx ⟨tables, 0, []⟩
    ∃ code stack, code ≠ stack ∧ code ≠ ctx.argPfn ∧ stack ≠ ctx.argPfn ∧
      (Region.user, code) ∈ allocated prepared.2.log ∧
      (Region.user, stack) ∈ allocated prepared.2.log ∧
      (∀ c f, (c, f) ∈ [(MmSeg.code, code), (.data, (shifted ctx.argPfn).pfn), (.stack, stack)] →
        MapsTo prepared.2.tables prepared.1.pgd (virutalAdd c (ctx.mms c))
          ((ctx.mms c).accessFlags &&& 0x2 = 2) f) ∧
      ∀ va : BitVec 64, va.toNat < 2 ^ 48 →
        (∀ c, c ≠ .rodata → va >>> 12 ≠ virutalAdd c (ctx.mms c) >>> 12) →
        hardwareWalk prepared.2.tables prepared.1.pgd va = none := by
  obtain ⟨T, code, stack, hprepared, hbuilt, hdata, hmarked⟩ := prepared tables hseparate hsupplied
  intro prepared
  have hfresh :
      ∀ f ∈ [stack, code], f ≠ ctx.argPfn ∧ (Region.user, f) ∈ allocated prepared.2.log := by
    intro f hf
    have hmem := (hbuilt.user f).mpr hf
    obtain ⟨m, hm, rfl⟩ := hbuilt.exists_call hmem
    exact ⟨hsupplied.arg m hm, hmem⟩
  have hdistinct : stack ≠ code := by
    have hnodup := hbuilt.distinct
    simpa using hnodup
  have harg : Entry.pfn (0 ||| shifted ctx.argPfn ||| 0x5) = (shifted ctx.argPfn).pfn := by
    rw [Entry.pfn_or _ _ (by decide), show (0 : Entry) = 0#64 from rfl, BitVec.zero_or]
  rw [harg] at hdata
  refine ⟨code, stack, hdistinct.symm, (hfresh code (by simp)).1, (hfresh stack (by simp)).1,
    (hfresh code (by simp)).2, (hfresh stack (by simp)).2, fun c f hf ↦ ?_, fun va hva hother ↦ ?_⟩
  · simp only [List.mem_cons, Prod.mk.injEq, List.not_mem_nil, or_false] at hf
    rcases hf with ⟨rfl, rfl⟩ | ⟨rfl, rfl⟩ | ⟨rfl, rfl⟩
    · exact segment_mapped hbuilt hmarked hseparate (by decide) hprepared.code
    · exact segment_mapped hbuilt hmarked hseparate (by decide) hdata
    · exact segment_mapped hbuilt hmarked hseparate (by decide) hprepared.stack
  · exact other_unmapped hbuilt hprepared hseparate hva hother

/-- With a frame of the arguments below `2 ^ 20` the hardware finds exactly the required pages. -/
theorem address_space_built (frames : ℕ → Pfn) (ctx : ExecContext) (tables : Tables)
    (hseparate : ctx.Separate) (harg : ctx.argPfn.toNat < 2 ^ 20)
    (hsupplied : Supplied frames ctx.argPfn
      (prepareContextMm frames ctx ⟨tables, 0, []⟩).2.calls) :
    let prepared := prepareContextMm frames ctx ⟨tables, 0, []⟩
    ∃ code stack, code ≠ stack ∧ code ≠ ctx.argPfn ∧ stack ≠ ctx.argPfn ∧
      (Region.user, code) ∈ allocated prepared.2.log ∧
      (Region.user, stack) ∈ allocated prepared.2.log ∧
      (∀ c f, (c, f) ∈ [(MmSeg.code, code), (.data, ctx.argPfn), (.stack, stack)] →
        MapsTo prepared.2.tables prepared.1.pgd (virutalAdd c (ctx.mms c))
          ((ctx.mms c).accessFlags &&& 0x2 = 2) f) ∧
      ∀ va : BitVec 64, va.toNat < 2 ^ 48 →
        (∀ c, c ≠ .rodata → va >>> 12 ≠ virutalAdd c (ctx.mms c) >>> 12) →
        hardwareWalk prepared.2.tables prepared.1.pgd va = none := by
  have hwalks := prepared_walks tables hseparate hsupplied
  have hpfn : (shifted ctx.argPfn).pfn = ctx.argPfn := Entry.pfn_shift _ harg
  rwa [hpfn] at hwalks

theorem address_space_built_sharing :
    let prepared := prepareContextMm upwards sharing ⟨fun _ _ ↦ 0, 0, []⟩
    ∃ code stack, code ≠ stack ∧ code ≠ sharing.argPfn ∧ stack ≠ sharing.argPfn ∧
      (Region.user, code) ∈ allocated prepared.2.log ∧
      (Region.user, stack) ∈ allocated prepared.2.log ∧
      (∀ c f, (c, f) ∈ [(MmSeg.code, code), (.data, sharing.argPfn), (.stack, stack)] →
        MapsTo prepared.2.tables prepared.1.pgd (virutalAdd c (sharing.mms c))
          ((sharing.mms c).accessFlags &&& 0x2 = 2) f) ∧
      ∀ va : BitVec 64, va.toNat < 2 ^ 48 →
        (∀ c, c ≠ .rodata → va >>> 12 ≠ virutalAdd c (sharing.mms c) >>> 12) →
        hardwareWalk prepared.2.tables prepared.1.pgd va = none :=
  address_space_built upwards sharing (fun _ _ ↦ 0) sharing_separate (by decide) sharing_supplied

/-- The context with arguments in the first frame that a 32-bit shift loses. -/
def highArgument : ExecContext := { sharing with argPfn := 0x100000 }

/-- The page of the data segment is then not the frame of the arguments. -/
theorem argument_frame_truncated :
    let prepared := prepareContextMm upwards highArgument ⟨fun _ _ ↦ 0, 0, []⟩
    highArgument.Separate ∧ Supplied upwards highArgument.argPfn prepared.2.calls ∧
      ¬MapsTo prepared.2.tables prepared.1.pgd (virutalAdd .data (highArgument.mms .data))
        ((highArgument.mms .data).accessFlags &&& 0x2 = 2) highArgument.argPfn := by
  intro prepared
  have hcalls : prepared.2.calls = 9 := by
    decide +kernel
  have hunused : ∀ j < 9, ∀ i < j, upwards i ≠ upwards j := by decide
  have hseparate : highArgument.Separate := ⟨sharing_separate.low, sharing_separate.distinct⟩
  have hsupplied : Supplied upwards highArgument.argPfn prepared.2.calls :=
    hcalls ▸ ⟨by decide, fun i j hij hj ↦ hunused j hj i hij, by decide⟩
  refine ⟨hseparate, hsupplied, ?_⟩
  rintro ⟨es, hwalk, hlength, -, -, hlast⟩
  have hwalks := prepared_walks (fun _ _ ↦ 0) hseparate hsupplied
  obtain ⟨_, _, -, -, -, -, -, hmapped, -⟩ := hwalks
  obtain ⟨es', hwalk', -, -, -, hlast'⟩ := hmapped .data (shifted highArgument.argPfn).pfn (by simp)
  obtain rfl : es = es' := Option.some.inj (hwalk.symm.trans hwalk')
  obtain ⟨e, he⟩ : ∃ e, e ∈ es.getLast? :=
    ⟨_, List.getLast?_eq_some_getLast (List.ne_nil_of_length_pos (by omega))⟩
  have hframe : (shifted highArgument.argPfn).pfn = highArgument.argPfn :=
    (hlast' e he).symm.trans (hlast e he)
  exact absurd hframe (by decide)

end OsAssignments.Paging.ContextMm
