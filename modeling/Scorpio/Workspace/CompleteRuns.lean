import Scorpio.Workspace.DestroyRetry
import Scorpio.Workspace.Teardown

/-!
# Complete operations on a workspace

The operations run to their end, which may be a failure at any step. Between them the
private paths are as the runtime has recorded them, as far as the `lstat` of every new
directory has worked.
-/

set_option autoImplicit false

namespace Scorpio.Workspace

open CrashLogic

variable {υ : Type} {w : World υ Owner} {s t m : Machine υ Owner} {fault : ℕ → Stage → Option String}

/-! ## Steps that keep the workspace whole -/

/-- Only the fence of the mount has changed. -/
theorem Whole.fence (hm : Whole m) (hkept : Kept m t) (hkernel : t.kernel = m.kernel)
    (hmount : ∀ mount', t.runtime.mount = some mount' → ∃ mount, m.runtime.mount = some mount ∧
      mount'.bare = mount.bare) (hnone : t.runtime.mount = none → m.runtime.mount = none) :
    Whole t := by
  refine hm.change hkept (fun h => hkernel.trans (hm.plain (hnone h))) fun mount' h => ?_
  obtain ⟨mount,hsome,hbare⟩ := hmount mount' h
  obtain ⟨-,-,howed,hretired⟩ := hm.mounted mount hsome
  have hplain : mount'.bare.plainIdentity = mount.bare.plainIdentity := by rw [hbare]
  have hretire : mount'.bare.retired = mount.bare.retired := by rw [hbare]
  have hhandle : mount'.bare.handle = mount.bare.handle := by rw [hbare]
  have hretry : mount'.bare.retryUnmount = mount.bare.retryUnmount := by rw [hbare]
  refine ⟨mount,hsome,hplain,fun hthere => ?_,fun hgone => hretire.trans (hretired hgone)⟩
  have hold := howed (hkernel ▸ hthere)
  exact ⟨hretire.trans hold.1,hold.2.imp hhandle.trans hretry.trans⟩

theorem whole_along (paused : Bool) : Along w paused Whole Whole := by
  refine ⟨fun m hm => ?_,fun m n hm => ?_,fun _ hm => hm⟩
  · have hkept : Kept m (disturb w paused m) := disturb_kept paused
    cases hmount : m.runtime.mount with
    | none =>
      rw [disturb, hmount]
      exact hm
    | some mount =>
      refine hm.fence hkept ?_ ?_ ?_
      · rw [disturb, hmount]
        rfl
      · intro mount' h
        rw [disturb, hmount] at h
        cases h
        exact ⟨mount,hmount,rfl⟩
      · intro h
        rw [disturb, hmount] at h
        cases h
  · exact hm.fence (by constructor <;> rfl) rfl
      (fun mount h => ⟨mount,h,rfl⟩) fun h => h

theorem close_whole (hm : Whole m) : Whole (closeFence m).2 := by
  have hkept : Kept m (closeFence m).2 := close_kept
  cases hmount : m.runtime.mount with
  | none =>
    simp only [closeFence, hmount]
    exact hm
  | some mount =>
    simp only [closeFence, hmount] at hkept ⊢
    split_ifs at hkept ⊢
    · exact hm
    · refine hm.fence hkept rfl ?_ fun hnone => by cases hnone
      rintro _ ⟨⟩
      exact ⟨mount,hmount,rfl⟩

theorem scan_whole (hm : Whole m) : Whole (scanUpper w m).2 := by
  have hkept : Kept m (scanUpper w m).2 := scan_kept
  unfold scanUpper at hkept ⊢
  split at hkept
  · exact hm.fence hkept rfl (fun mount h => ⟨mount,h,rfl⟩) fun h => h
  · exact hm
  · exact hm

theorem recovery_whole (hm : Whole m) : Whole (recoverCopyups w m).2 :=
  hm.fence (by constructor <;> rfl) rfl (fun mount h => ⟨mount,h,rfl⟩)
    fun h => h

/-- The flags that are only shown. -/
theorem set_whole {g : Runtime → Runtime} {P : Machine υ Owner → Prop}
    (hP : ∀ m, P m → Whole m) (hkept : ∀ m : Machine υ Owner, Kept m {m with runtime := g m.runtime})
    (hmount : ∀ r, (g r).mount = r.mount) :
    Triple P (setRuntime g : Op υ Owner Unit) (fun _ => Whole) Whole := by
  refine set_runtime_triple (fun m hm => ?_) fun _ h => h
  refine (hP m hm).fence (hkept m) rfl (fun mount h => ⟨mount,?_,rfl⟩) fun h => ?_
  · rw [← hmount]
    exact h
  · rw [← hmount]
    exact h

/-! ## The unmount -/

def AllRetired (m : Machine υ Owner) : Prop :=
  ∀ mount, m.runtime.mount = some mount → mount.retired = true

theorem Whole.is_owed (hm : Whole m) {mount : WorkspaceMount} (hmount : m.runtime.mount = some mount)
    (hthere : m.runtime.mountpointRemoved = false) : Is Owed m := by
  obtain ⟨hidentity,-,howed,-⟩ := hm.mounted mount hmount
  have hfits := hm.mountpoint
  rw [hthere, hidentity] at hfits
  exact ⟨mount,hmount,hfits,howed⟩

/-- The mount was replaced by one that still owes its teardown, over the same directory. -/
theorem Whole.of_is (hm : Whole m) (hkept : Kept m t) {mount : WorkspaceMount}
    (hmount : m.runtime.mount = some mount) (hthere : m.runtime.mountpointRemoved = false)
    (ht : Is Owed t) : Whole t := by
  obtain ⟨mount',hmount',hpoint',howed'⟩ := ht
  obtain ⟨_,hfirst,hpoint,-⟩ := hm.is_owed hmount hthere
  cases hmount.symm.trans hfirst
  refine hm.change hkept (fun h => by cases h.symm.trans hmount') fun other hother => ?_
  cases hmount'.symm.trans hother
  have hsame := (hkept.mountpoint.symm.trans hpoint').symm.trans hpoint
  refine ⟨mount,hmount,?_,howed',fun hgone => ?_⟩
  · exact Entry.directory.inj (Option.some.inj hsame)
  · cases hthere.symm.trans hgone

theorem recover_whole : Triple (Whole (υ := υ)) (recover w) (fun _ => Whole) Whole :=
  recover_kept whole_along (fun _ h => close_whole h) fun _ h => recovery_whole h

theorem unmount_whole (hs : Whole s) (ht : Passes (unmount w) s t) : Whole t := by
  have hkept : Kept s t := (unmount_kept s (Kept.refl s)).2 t ht
  cases hmount : s.runtime.mount with
  | none =>
    rcases passes_bind ht with ht | ⟨r,u,⟨hr,rfl⟩,ht⟩
    · rw [passes_ask.mp ht]
      exact hs
    · cases hr
      rw [hmount] at ht
      rw [passes_pure.mp ht]
      exact hs
  | some mount =>
    cases hgone : s.runtime.mountpointRemoved with
    | false => exact hs.of_is hkept hmount hgone (unmount_keeps stable_owed (hs.is_owed hmount hgone) ht)
    | true =>
      have hretired := (hs.mounted mount hmount).2.2.2 hgone
      rcases passes_bind ht with ht | ⟨r,u,⟨hr,rfl⟩,ht⟩
      · rw [passes_ask.mp ht]
        exact hs
      · cases hr
        rw [hmount] at ht
        dsimp only at ht
        rw [if_pos hretired] at ht
        exact (recover_whole s hs).2 t ht

theorem all_retired_along (paused : Bool) : Along w paused AllRetired fun _ => True := by
  refine ⟨fun m hm => ?_,fun _ _ hm => hm,fun _ _ => trivial⟩
  intro mount h
  unfold disturb at h
  split at h
  · exact hm mount h
  · next found hfound =>
    cases h
    exact hm found hfound

theorem close_all_retired (hm : AllRetired m) : AllRetired (closeFence m).2 := by
  unfold closeFence
  split
  · next mount hmount =>
    split_ifs
    · exact hm
    · rintro _ ⟨⟩
      exact hm mount hmount
  · exact hm

theorem unmount_retires (h : Returns (unmount w) s () t) : AllRetired t := by
  have hany : ∀ {α : Type} (p : Op υ Owner α),
      Triple (fun _ => True) p (fun _ _ => True) (fun _ => True) :=
    fun p s _ => ⟨fun _ _ _ => trivial,fun _ _ => trivial⟩
  have htriple : Triple (fun _ => True) (unmount w) (fun _ => AllRetired) (fun _ => True) := by
    refine triple_bind (runtime_triple fun _ _ => trivial) fun r => ?_
    cases hmount : r.mount with
    | none =>
      refine triple_pure ?_ fun _ _ => trivial
      rintro m ⟨-,rfl⟩ mount h
      cases hmount.symm.trans h
    | some current =>
      dsimp only
      split_ifs with hretired
      · refine triple_mono (recover_kept all_retired_along (fun _ h => close_all_retired h) fun _ h => h)
          ?_ fun _ _ h => h
        rintro m ⟨-,rfl⟩ mount h
        cases hmount.symm.trans h
        exact hretired
      · refine triple_mono ?_ (fun _ _ => trivial) fun _ _ h => h
        refine triple_bind (hany _) fun _ => triple_bind (hany _) fun _ => triple_bind (hany _) fun _ => ?_
        refine triple_bind (hany _) fun _ => triple_bind (hany _) fun _ => triple_bind (hany _) fun _ => ?_
        refine triple_bind (hany _) fun _ => fun m _ => ⟨?_,fun _ _ => trivial⟩
        rintro a t ⟨-,rfl⟩ mount h
        unfold markRetired at h
        split at h
        · cases h
          rfl
        · next hnone => cases hnone.symm.trans h
  exact (htriple s trivial).1 () t h

/-! ## A destruction to its end -/

/-- Whole, with every native owner retired. -/
def Settling (m : Machine υ Owner) : Prop := Whole m ∧ AllRetired m

theorem settling_along (paused : Bool) : Along w paused Settling Whole :=
  ⟨fun m hm => ⟨(whole_along paused).disturbed m hm.1,(all_retired_along paused).disturbed m hm.2⟩,
    fun m n hm => ⟨(whole_along (w := w) paused).ticked m n hm.1,hm.2⟩,fun _ hm => hm.1⟩

theorem unmount_observed_whole :
    Triple Whole (unmountObserved w) (fun _ => Settling) Whole := by
  have hunmount : Triple Whole (unmount w) (fun _ => Settling) Whole := fun s hs =>
    ⟨fun _ t ht => ⟨unmount_whole hs ht.passes,unmount_retires ht⟩,fun t ht => unmount_whole hs ht⟩
  refine triple_bind (triple_attempt hunmount) ?_
  rintro (e | _)
  · refine triple_bind (set_whole (fun _ h => h)
      (fun _ => by constructor <;> rfl) fun _ => rfl) fun _ => ?_
    exact triple_lift (fun _ _ h => by cases h) fun _ h => h
  · exact pure_kept fun _ hs => hs.1

theorem reconcile_whole : Keeps Whole (reconcileHydrate w) :=
  triple_bind (await_kept (whole_along false)) fun _ => set_whole (fun _ h => h)
    (fun _ => by constructor <;> rfl) fun _ => rfl

theorem take_down_whole {discard : Bool} :
    Triple Whole (takeDown w discard) (fun _ => Settling) Whole := by
  refine triple_bind (check_private_paths_kept (whole_along false)) fun _ => ?_
  refine triple_bind (first_check_kept whole_along (fun _ h => scan_whole h) fun _ h => close_whole h)
    fun _ => ?_
  refine triple_bind reconcile_whole fun _ => ?_
  refine triple_bind (set_whole (fun _ h => h)
    (fun _ => by constructor <;> rfl) fun _ => rfl) fun _ => ?_
  refine triple_bind unmount_observed_whole fun _ => set_runtime_triple (fun m hm => ?_) fun _ h => h.1
  exact ⟨hm.1.fence (by constructor <;> rfl) rfl
    (fun mount h => ⟨mount,h,rfl⟩) fun h => h,hm.2⟩

/-- A call to the owner keeps a complete binding. -/
theorem cache_call_whole {f : ℕ → Owner → Except String Unit × Owner}
    (hf : ∀ n o, Bound o → Bound (f n o).2) (hm : Whole m) : Whole (cacheCall f m).2 :=
  {hm with owner := fun h => hf _ _ (hm.owner h)}

theorem served_release (hw : Served w fault) (n : ℕ) (o : Owner) (ho : Bound o) :
    Bound (w.release n o).2 := by
  rw [hw.release]
  exact (release_keeps_bound o ho).2 _ (.inr rfl)

theorem served_retire (hw : Served w fault) (n : ℕ) (o : Owner) (ho : Bound o) :
    Bound (w.retire n o).2 := by
  rw [hw.retire]
  exact (retire_keeps_bound o ho).2 _ (.inr rfl)

theorem scan_settling (hm : Settling m) : Settling (scanUpper w m).2 := by
  refine ⟨scan_whole hm.1,?_⟩
  unfold scanUpper
  split <;> exact hm.2

theorem last_check_whole (hw : Served w fault) {discard : Bool} :
    Triple Settling (lastCheck w discard) (fun _ => Settling) Whole := by
  refine triple_bind (dirty_kept settling_along fun _ h => scan_settling h) fun state => ?_
  refine triple_bind (lift_kept fun _ h => h.1) fun _ => ?_
  refine triple_bind (check_retired_mountpoint_kept (settling_along false)) fun _ => ?_
  refine triple_bind (Q := fun _ => Settling) (triple_bind (triple_mono
    (runtime_triple fun _ hs => hs.1) (fun _ hs => hs) fun _ _ h => h.1) fun r => ?_) fun _ => ?_
  · split_ifs
    · exact conclude_kept (settling_along false) fun _ hd =>
        ⟨cache_call_whole (served_release hw) hd.1,hd.2⟩
    · exact pure_kept fun _ hs => hs.1
  · exact triple_bind (check_private_paths_kept (settling_along false)) fun _ =>
      check_retired_mountpoint_kept (settling_along false)

/-- The upper is gone; its flag follows. -/
theorem remove_upper_whole : Ends Settling (conclude w (removeUpper w))
    (fun _ m => Settling {m with runtime := {m.runtime with upperRemoved := true}}) Whole := by
  intro s hs
  have hd : Settling (disturb w false s) := (settling_along false).disturbed s hs
  have hw := hd.1
  constructor
  · rintro a t ⟨hr,rfl⟩
    cases hfault : w.fault (disturb w false s).tick with
    | some e => simp [conclude, removeUpper, hfault] at hr
    | none =>
      simp only [conclude, removeUpper, hfault]
      exact ⟨{hw with upper := rfl},hd.2⟩
  · rintro e t ⟨hr,rfl⟩
    cases hfault : w.fault (disturb w false s).tick with
    | none => simp [conclude, removeUpper, hfault] at hr
    | some e =>
      simp only [conclude, removeUpper, hfault]
      exact {hw with}

/-- A step that either fails without a trace or does `f`. -/
theorem perform_ends {α : Type} {paused : Bool} {P E : Machine υ Owner → Prop}
    {Q : α → Machine υ Owner → Prop}
    {f : Machine υ Owner → Except WorkspaceError α × Machine υ Owner} (hP : Along w paused P E)
    (hf : ∀ d n, P d → (∀ a, (f d).1 = .ok a → Q a {(f d).2 with tick := n}) ∧
      ∀ e, (f d).1 = .error e → E {(f d).2 with tick := n}) :
    Ends P (perform w paused f) Q E := by
  intro s hs
  have hd := hP.disturbed s hs
  cases hfault : w.fault s.tick with
  | some e =>
    constructor
    · rintro a t ⟨hr,-⟩
      simp [perform, hfault] at hr
    · rintro e t ⟨-,rfl⟩
      simp only [perform, hfault]
      exact hP.cut _ (hP.ticked _ _ hd)
  | none =>
    constructor
    · rintro a t ⟨hr,rfl⟩
      simp only [perform, hfault] at hr ⊢
      exact (hf _ _ hd).1 a hr
    · rintro e t ⟨hr,rfl⟩
      simp only [perform, hfault] at hr ⊢
      exact (hf _ _ hd).2 e hr

theorem set_ends {P Q E : Machine υ Owner → Prop} {g : Runtime → Runtime}
    (hg : ∀ m, P m → Q {m with runtime := g m.runtime}) :
    Ends P (setRuntime g : Op υ Owner Unit) (fun _ => Q) E := by
  intro s hs
  refine ⟨?_,fun e t h => ?_⟩
  · rintro a t ⟨-,rfl⟩
    exact hg s hs
  · cases h.1

theorem remove_paths_whole {expected : Identity} :
    Ends Settling (removePaths w expected) (fun _ => Whole) Whole := by
  refine ends_bind (Q := fun _ => Settling) (ends_of_triple (triple_bind (lstat_kept
    (settling_along false)) fun _ => lift_kept fun _ h => h.1) fun _ h => h) fun _ => ?_
  refine ends_bind (Q := fun _ => Settling) (ends_of_triple (demand_kept fun _ h => h.1) fun _ h => h)
    fun _ => ?_
  refine ends_bind remove_upper_whole fun _ => ?_
  refine ends_bind (Q := fun _ => Settling) (set_ends fun _ hm => hm) fun _ => ?_
  refine ends_bind (Q := fun _ m => Whole {m with runtime := {m.runtime with mountpointRemoved := true}})
    (perform_ends (settling_along false) fun d n hd => ⟨fun _ _ => ?_,nofun⟩) fun _ =>
      set_ends fun _ hm => hm
  have hw := hd.1
  refine {hw with mountpoint := rfl, mounted := fun mount hmount => ?_}
  obtain ⟨hidentity,hlower,howed,-⟩ := hw.mounted mount hmount
  exact ⟨hidentity,hlower,howed,fun _ => hd.2 mount hmount⟩

theorem remove_private_whole : Ends Settling (removePrivate w) (fun _ => Whole) Whole := by
  refine ends_bind (ends_of_triple (runtime_triple fun _ hs => hs.1) fun _ h => h) fun r => ?_
  cases hdirectory : r.directoryIdentity with
  | some expected => exact ends_mono remove_paths_whole (fun _ hs => hs.1) fun _ _ h => h
  | none =>
    refine ends_bind (Q := fun _ m => Settling m ∧ m.runtime = r)
      (ends_of_triple (demand_kept fun _ hs => hs.1.1) fun _ h => h) fun _ => ?_
    refine set_ends ?_
    rintro m ⟨⟨hw,hretired⟩,rfl⟩
    obtain ⟨hupper,hpoint⟩ := hw.nested hdirectory
    have hfits := hw.upper
    have hfits' := hw.mountpoint
    rw [hupper] at hfits
    rw [hpoint] at hfits'
    refine {hw with
      upper := fits_none hfits
      mountpoint := fits_none hfits'
      mounted := fun mount hmount => ?_}
    obtain ⟨hidentity,hlower,howed,-⟩ := hw.mounted mount hmount
    exact ⟨hidentity,hlower,howed,fun _ => hretired mount hmount⟩

theorem remove_workspace_whole : Ends Whole (removeWorkspace w)
    (fun _ m => Whole {m with listed := false}) Whole := by
  refine ends_bind (Q := fun _ => Whole) (ends_of_triple (runtime_kept fun _ hs => hs) fun _ h => h) fun r => ?_
  have hunlist : ∀ m : Machine υ Owner, Whole m → Whole {m with listed := false} := fun m hm =>
    {hm with directory := nofun}
  split_ifs
  · refine perform_ends (whole_along false) fun d n hd => ⟨fun _ _ => ?_,nofun⟩
    exact {hd with directory := nofun}
  · exact ends_of_triple (triple_pure (fun _ hs => hunlist _ hs) fun _ hs => hs) fun _ h => h

theorem destroy_whole (hw : Served w fault) {discard : Bool} :
    Ends Whole (destroy w discard) (fun _ => Whole) Whole := by
  have hself : ∀ m : Machine υ Owner, Whole m → Whole m := fun _ h => h
  refine ends_bind (Q := fun _ => Whole) (fun s hs => ⟨?_,?_⟩) fun _ => ?_
  · rintro a t ⟨-,rfl⟩
    exact hs
  · rintro e t ⟨-,rfl⟩
    exact hs
  refine ends_bind (ends_of_triple take_down_whole hself) fun _ => ?_
  refine ends_bind (ends_of_triple (last_check_whole hw) hself) fun _ => ?_
  refine ends_bind remove_private_whole fun _ => ?_
  refine ends_bind (ends_of_triple (check_private_paths_kept (whole_along false)) hself) fun _ => ?_
  refine ends_bind (ends_of_triple (check_retired_mountpoint_kept (whole_along false)) hself)
    fun _ => ?_
  refine ends_bind (Q := fun _ => Whole) (ends_of_triple (triple_bind (triple_mono
    (runtime_triple hself) (fun _ hs => hs) fun _ _ h => h.1) fun r => ?_) hself) fun _ => ?_
  · split_ifs
    · exact conclude_kept (whole_along false) fun _ hd => cache_call_whole (served_retire hw) hd
    · exact pure_kept hself
  refine ends_bind remove_workspace_whole fun _ => fun s hs => ⟨?_,fun e t h => ?_⟩
  · rintro a t ⟨-,rfl⟩
    exact hs
  · cases h.1

end Scorpio.Workspace
