import Scorpio.Workspace.CacheOwner
import Scorpio.Workspace.Rules

/-!
# What a finished destruction leaves

A destruction that returns has removed the three private paths and the entry of the
workspace. The owner in the cache is settled when the store was bound. An owner that a
failed binding has left behind is not touched at all.
-/

set_option autoImplicit false

namespace Scorpio.Workspace

open CrashLogic

/-! ## Bindings of the private paths -/

/-- The path is as the runtime has recorded it. -/
def Fits (found : Option Entry) (expected : Option Identity) (removed : Bool) : Prop :=
  found = if removed then none else expected.map .directory

theorem check_binding_iff {found : Option Entry} {expected : Option Identity} {removed : Bool} :
    checkBinding (.ok found) expected removed = .ok () ↔ Fits found expected removed := by
  unfold checkBinding Fits
  cases found with
  | none => cases removed <;> cases expected <;> simp
  | some entry =>
    cases entry with
    | other => cases removed <;> cases expected <;> simp
    | directory identity =>
      cases removed <;> cases expected with
      | none => simp
      | some recorded => simp [eq_comm]

theorem check_binding_ok {found : Except String (Option Entry)} {expected : Option Identity}
    {removed : Bool} {a : Unit} (h : checkBinding found expected removed = .ok a) :
    ∃ entry, found = .ok entry ∧ Fits entry expected removed := by
  cases found with
  | error e => cases h
  | ok entry => exact ⟨entry,rfl,check_binding_iff.mp h⟩

variable {υ κ : Type} {w : World υ κ} {s t m : Machine υ κ} {paused : Bool}
  {P : Machine υ κ → Prop}

/-- The directory and the upper are as recorded. -/
def PathsFit (m : Machine υ κ) : Prop :=
  Fits m.directory m.runtime.directoryIdentity false ∧
    Fits m.upper m.runtime.upperIdentity m.runtime.upperRemoved

theorem check_private_paths_returns (h : Returns (checkPrivatePaths w paused) s () t) :
    Kept s t ∧ PathsFit s := by
  have hkept := (check_private_paths_kept (kept_along s paused) s (Kept.refl s)).1 () t h
  refine ⟨hkept,?_⟩
  obtain ⟨r,_,⟨hr,rfl⟩,h⟩ := returns_bind.mp h
  cases hr
  obtain ⟨found,a,ha,h⟩ := returns_bind.mp h
  obtain ⟨hkepta,hfound⟩ := (lstat_triple (kept_along s paused) s (Kept.refl s)).1 found a ha
  obtain ⟨_,_,⟨hdirectory,rfl⟩,h⟩ := returns_bind.mp h
  obtain ⟨found',b,hb,h⟩ := returns_bind.mp h
  obtain ⟨hkeptb,hfound'⟩ := (lstat_triple (kept_along s paused) a hkepta).1 found' b hb
  obtain ⟨hupper,rfl⟩ := returns_lift.mp h
  obtain ⟨entry,rfl,hfits⟩ := check_binding_ok hdirectory
  obtain ⟨entry',rfl,hfits'⟩ := check_binding_ok hupper
  have hsame : a.directory = entry := hfound entry rfl
  have hsame' : b.upper = entry' := hfound' entry' rfl
  constructor
  · rw [← hkepta.directory, hsame]
    exact hfits
  · rw [← hkeptb.upper, hsame']
    exact hfits'

theorem check_retired_mountpoint_returns (h : Returns (checkRetiredMountpoint w) s () t) :
    Kept s t ∧ Fits t.shown s.runtime.mountpointIdentity s.runtime.mountpointRemoved := by
  obtain ⟨r,_,⟨hr,rfl⟩,h⟩ := returns_bind.mp h
  cases hr
  obtain ⟨found,a,ha,h⟩ := returns_bind.mp h
  obtain ⟨hkept,hfound⟩ := (lstat_triple (kept_along s false) s (Kept.refl s)).1 found a ha
  obtain ⟨hok,rfl⟩ := returns_lift.mp h
  obtain ⟨entry,rfl,hfits⟩ := check_binding_ok hok
  have hsame : a.shown = entry := hfound entry rfl
  rw [hsame]
  exact ⟨hkept,hfits⟩

/-! ## Removal -/

/-- The recorded directory, the store and the cache are the same. -/
def Rest (s m : Machine υ κ) : Prop :=
  m.runtime.directoryIdentity = s.runtime.directoryIdentity ∧
    m.runtime.store = s.runtime.store ∧ m.cache = s.cache

theorem rest_along (s : Machine υ κ) (paused : Bool) : Along w paused (Rest s) fun _ => True := by
  refine ⟨fun m h => ?_,fun _ _ h => h,fun _ _ => trivial⟩
  have hkept : Kept m (disturb w paused m) := disturb_kept paused
  exact ⟨hkept.directoryIdentity.trans h.1,hkept.store.trans h.2.1,hkept.cache.trans h.2.2⟩

theorem remove_upper_rest (h : Rest s m) : Rest s (removeUpper w m).2 := by
  unfold removeUpper
  split <;> exact h

/-- Both flags are set when the removal of the paths returns. -/
theorem remove_private_returns (h : Returns (removePrivate w) s () t) :
    Rest s t ∧ t.runtime.upperRemoved = true ∧ t.runtime.mountpointRemoved = true := by
  have hany : ∀ (P : Machine υ κ → Prop) m, P m → True := fun _ _ _ => trivial
  have hgone : ∀ paused, Along w paused
      (fun m => Rest s m ∧ m.runtime.upperRemoved = true) fun _ => True := by
    refine fun paused => ⟨fun m hm => ?_,fun _ _ hm => hm,hany _⟩
    have hkept : Kept m (disturb w paused m) := disturb_kept paused
    exact ⟨(rest_along s paused).disturbed m hm.1,hkept.upperRemoved.trans hm.2⟩
  have htriple : Triple (Rest s) (removePrivate w) (fun _ m => Rest s m ∧
      m.runtime.upperRemoved = true ∧ m.runtime.mountpointRemoved = true) (fun _ => True) := by
    refine triple_bind (runtime_kept (hany _)) fun r => ?_
    cases r.directoryIdentity with
    | none =>
      exact triple_bind (demand_kept (hany _)) fun _ =>
        set_runtime_triple (fun m hm => ⟨hm,rfl,rfl⟩) (hany _)
    | some expected =>
      refine triple_bind (triple_bind (lstat_kept (rest_along s false)) fun _ => lift_kept (hany _))
        fun _ => triple_bind (demand_kept (hany _)) fun _ => ?_
      refine triple_bind (conclude_kept (rest_along s false) fun _ hd => remove_upper_rest hd)
        fun _ => ?_
      refine triple_bind (set_runtime_triple (R := fun m => Rest s m ∧ m.runtime.upperRemoved = true)
        (fun m hm => ⟨hm,rfl⟩) (hany _)) fun _ => ?_
      refine triple_bind (perform_kept (hgone false) fun _ hd => hd) fun _ => ?_
      exact set_runtime_triple (fun m hm => ⟨hm.1,hm.2,rfl⟩) (hany _)
  exact (htriple s ⟨rfl,rfl,rfl⟩).1 () t h

/-- Nothing of the workspace is left outside the cache. -/
structure Cleared (m : Machine υ κ) : Prop where
  upper : m.upper = none
  mountpoint : m.mountpoint = none
  directory : m.directory = none
  listed : m.listed = false

theorem retire_owner_returns (h : Returns (retireOwner w) s () t) :
    KeptBut s t ∧ (s.runtime.store = true → ∃ n c, (w.retire n c).1 = .ok () ∧
      t.cache = (w.retire n c).2) := by
  refine ⟨(owner_call_kept s (Kept.refl s).but).1 () t h,fun hstore => ?_⟩
  obtain ⟨r,_,⟨hr,rfl⟩,h⟩ := returns_bind.mp h
  cases hr
  rw [if_pos hstore] at h
  obtain ⟨hok,rfl⟩ := h
  refine ⟨_,_,?_,rfl⟩
  simp only [conclude, cacheCall] at hok
  revert hok
  generalize (w.retire _ _).1 = result
  cases result with
  | error e =>
    intro hok
    cases hok
  | ok a => exact fun _ => rfl

theorem remove_workspace_returns (h : Returns (removeWorkspace w) s () t)
    (hfits : Fits s.directory s.runtime.directoryIdentity false) :
    t.directory = none ∧ t.upper = s.upper ∧ t.mountpoint = s.mountpoint ∧ t.cache = s.cache := by
  obtain ⟨r,_,⟨hr,rfl⟩,h⟩ := returns_bind.mp h
  cases hr
  split_ifs at h with hsome
  · have htriple : Triple (Kept s) (perform w false removeDirectory) (fun _ m => m.directory = none ∧
        m.upper = s.upper ∧ m.mountpoint = s.mountpoint ∧ m.cache = s.cache) (fun _ => True) :=
      perform_triple ⟨(kept_along s false).disturbed,(kept_along (w := w) s false).ticked,
        fun _ _ => trivial⟩ fun d n hd => ⟨trivial,fun _ _ =>
          ⟨rfl,hd.upper,hd.mountpoint,hd.cache⟩⟩
    exact (htriple s (Kept.refl s)).1 () t h
  · obtain ⟨-,rfl⟩ := returns_pure.mp h
    refine ⟨?_,rfl,rfl,rfl⟩
    rw [Option.not_isSome_iff_eq_none.mp hsome] at hfits
    exact hfits

theorem destroy_returns {discard : Bool} (h : Returns (destroy w discard) s () t) :
    Cleared t ∧ (s.runtime.store = false → t.cache = s.cache) ∧
      (s.runtime.store = true → ∃ n c, (w.retire n c).1 = .ok () ∧ t.cache = (w.retire n c).2) := by
  obtain ⟨_,_,⟨-,rfl⟩,h⟩ := returns_bind.mp h
  obtain ⟨_,a,ha,h⟩ := returns_bind.mp h
  obtain ⟨_,b,hb,h⟩ := returns_bind.mp h
  obtain ⟨_,c,hc,h⟩ := returns_bind.mp h
  obtain ⟨_,d,hd,h⟩ := returns_bind.mp h
  obtain ⟨_,e,he,h⟩ := returns_bind.mp h
  obtain ⟨_,f,hf,h⟩ := returns_bind.mp h
  obtain ⟨_,g,hg,h⟩ := returns_bind.mp h
  obtain ⟨-,rfl⟩ := h
  have hka : Kept s a := (take_down_kept s (Kept.refl s)).1 () a ha
  obtain ⟨cache,hkb,hcache⟩ := (last_check_kept a (Kept.refl a)).1 () b hb
  obtain ⟨hrest,hupper,hmountpoint⟩ := remove_private_returns hc
  obtain ⟨hkd,hfits⟩ := check_private_paths_returns hd
  obtain ⟨hke,hshown⟩ := check_retired_mountpoint_returns he
  obtain ⟨⟨cache',hkf,hcache'⟩,hretired⟩ := retire_owner_returns hf
  have hfitsf : Fits f.directory f.runtime.directoryIdentity false := by
    rw [hkf.directory, hkf.directoryIdentity]
    rw [hke.directory, hke.directoryIdentity, hkd.directory, hkd.directoryIdentity]
    exact hfits.1
  obtain ⟨hdirectory,hupperg,hpointg,hcacheg⟩ := remove_workspace_returns hg hfitsf
  have hstoree : e.runtime.store = s.runtime.store := by
    rw [hke.store, hkd.store, hrest.2.1, hkb.store]
    exact hka.store
  refine ⟨⟨?_,?_,hdirectory,rfl⟩,fun hnone => ?_,fun hstore => ?_⟩
  · change g.upper = none
    rw [hupperg, hkf.upper]
    change e.upper = none
    rw [hke.upper, hkd.upper]
    have hgone := hfits.2
    rw [hupper] at hgone
    exact hgone
  · change g.mountpoint = none
    rw [hpointg, hkf.mountpoint]
    change e.mountpoint = none
    rw [hkd.mountpointRemoved, hmountpoint] at hshown
    exact (Option.or_eq_none_iff.mp hshown).2
  · change g.cache = s.cache
    rw [hcacheg, hkf.cache]
    change cache' = s.cache
    rw [hcache' (hstoree.trans hnone), hke.cache, hkd.cache, hrest.2.2, hkb.cache]
    change cache = s.cache
    rw [hcache (hka.store.trans hnone)]
    exact hka.cache
  · obtain ⟨n,c',hok,hcache⟩ := hretired (hstoree.trans hstore)
    exact ⟨n,c',hok,hcacheg.trans hcache⟩

end Scorpio.Workspace
