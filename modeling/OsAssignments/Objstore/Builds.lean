import OsAssignments.Objstore.Remount

/-!
# Images

`Image` is a session that has just been mounted: from a blank disk, or from what an earlier session
of either build left behind. Whatever the history, as long as its calls were safe, what is mounted
is in order for both builds (`intact_image`).
-/

set_option autoImplicit false
set_option relaxedAutoImplicit false

namespace OsAssignments.Objstore

open Library Library.Ownership

variable {bld : Build} {s t : Session} {st : Store} {call : Call} {reply : Reply}

theorem Durable.reads (h : Durable bld st) {calls : List BlockCall}
    (hcalls : ∀ call ∈ calls, 22815 ≤ call.blk) :
    Durable bld { st with dev := runCalls bld calls st.dev } :=
  h.calls calls hcalls rfl fun hdisk n hn hflag ↦ by
    rw [hdisk _ (by omega)]
    exact h.faithful n hn hflag

/-- A safe call keeps the conditions under which an unmount loses nothing. -/
theorem durable_step (hi : Intact bld s) (hd : Durable bld s.store) (hallowed : call.Allowed s)
    (hsafe : call.Safe bld s) (hrun : call.run bld s = .ok (reply, t)) :
    Durable bld t.store := by
  cases turn_of_run hi.consistent hallowed hrun with
  | full key hfull => exact ⟨hd.dev, hd.dirty, hd.quiet, hd.faithful⟩
  | created key k st hk hclear hcreated =>
    exact hd.calls [] (by simp) hcreated.dev
      (faithful_of_change hd.faithful hcreated.bytes hcreated.dirtyArray)
  | appended k buff st hwrite hkeeps =>
    obtain ⟨bits, htakes, hfresh⟩ := hsafe
    obtain ⟨st', hrun', hst⟩ := hi.append buff hallowed.1 hallowed.2.1 htakes hfresh
    rw [hwrite] at hrun'
    obtain rfl : st = st' := (Prod.mk.inj (Except.ok.inj hrun')).2
    obtain ⟨target, calls, hw, -, hcalls⟩ := hst.written
    exact hd.calls calls hcalls hw.dev
      (faithful_of_change hd.faithful (fun n hn ↦ hw.bytes n (by omega)) hw.dirtyArray)
  | read k size offset out dev hread =>
    obtain ⟨calls, blks, hcalls, hregion, hrun'⟩ :=
      (hi.holds k hallowed.1).read hi.owned hallowed.1 size offset hallowed.2
    rw [hread] at hrun'
    obtain rfl : dev = runCalls bld calls s.store.dev :=
      congrArg Store.dev (Prod.mk.inj (Except.ok.inj hrun')).2
    exact hd.reads fun call hcall ↦ by exact_mod_cast hregion _ (hcalls call hcall).2
  | destroyed key k st hlive hkey hdestroyed =>
    refine hd.destroyed hdestroyed fun b hb ↦ ?_
    have hcases := released_cases hi.owned hlive (hsafe k hlive hkey) hb
    omega

/-- A session mounted from a blank disk, or from what an earlier session left behind. -/
inductive Image : Session → Prop
  | blank {d : Device} (hd : Blank d) : Image (.start d)
  | unmounted {bld : Build} {s₀ s : Session} (himage : Image s₀)
    (hrun : Reaches (Call.run bld) (fun call s ↦ call.Allowed s ∧ call.Safe bld s) s₀ s) :
    Image ⟨remount s.store, s.written⟩

theorem Image.store (h : Image s) : ∃ d, s.store = objstoreInit d := by
  cases h with
  | blank hd => exact ⟨_, rfl⟩
  | unmounted himage hrun => exact ⟨_, rfl⟩

/-- What an earlier session leaves behind is in order for either build. -/
theorem intact_image (h : Image s) (bld : Build) : Intact bld s ∧ Durable bld s.store := by
  induction h generalizing bld with
  | blank hd => exact ⟨intact_start bld hd, durable_objstoreInit bld _⟩
  | @unmounted bld₀ s₀ s himage hrun ih =>
    obtain ⟨hi, hd⟩ := Reaches.invariant (fun s ↦ Intact bld₀ s ∧ Durable bld₀ s.store)
      (fun call s _ _ hs hok hcall ↦ ⟨intact_step hs.1 hok.1 hok.2 hcall,
        durable_step hs.1 hs.2 hok.1 hok.2 hcall⟩) hrun (ih bld₀)
    refine ⟨hi.frame hd.sameSlots (fun q b hq ↦ ?_) (buildOk_objstoreInit bld _) fun _ _ ↦ rfl,
      durable_objstoreInit bld _⟩
    have hpos := hi.owned.pos (k := q.1) (p := q.2) hq
    exact logical_remount hd.dev hd.quiet bld (by omega)

end OsAssignments.Objstore
