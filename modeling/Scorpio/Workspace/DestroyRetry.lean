import Scorpio.Workspace.CalmSteps
import Scorpio.Workspace.DestroyComplete

/-!
# Destruction without further failures

From every state in which the private paths are as recorded, a destruction with
discard goes through when nothing fails any more, provided that the mountpoint shows
an identity that the mount knows.
-/

set_option autoImplicit false

namespace Scorpio.Workspace

open CrashLogic

variable {υ : Type}

/-- What holds of a workspace after every complete operation. -/
structure Whole (m : Machine υ Owner) : Prop where
  directory : m.listed = true → Fits m.directory m.runtime.directoryIdentity false
  upper : Fits m.upper m.runtime.upperIdentity m.runtime.upperRemoved
  mountpoint : Fits m.mountpoint m.runtime.mountpointIdentity m.runtime.mountpointRemoved
  nested : m.runtime.directoryIdentity = none →
    m.runtime.upperIdentity = none ∧ m.runtime.mountpointIdentity = none
  lower : m.runtime.upperIdentity ≠ none → m.runtime.lower = true
  plain : m.runtime.mount = none → m.kernel = none
  mounted : ∀ mount, m.runtime.mount = some mount →
    m.runtime.mountpointIdentity = some mount.plainIdentity ∧ m.runtime.lower = true ∧
      Owed mount m.kernel ∧ (m.runtime.mountpointRemoved = true → mount.retired = true)
  owner : m.runtime.store = true → Bound m.cache

/-- Nothing fails any more, in the cache and in the scans either. -/
structure Working (w : World υ Owner) : Prop where
  calm : Calm w
  scan : ∀ n u, ∃ clean, w.scan n u = .ok clean
  cache : Served w fun _ _ => none

section Steps

variable {w : World υ Owner} {x m : Machine υ Owner} {paused : Bool}

theorem check_private_paths_calm (hw : Calm w) (hfits : PathsFit x) (hm : Like x m) :
    Yields (checkPrivatePaths w paused) m fun _ => Like x := by
  refine yields_bind (runtime_calm hm) fun r t ht => ?_
  obtain ⟨rfl,ht⟩ := ht
  refine yields_bind (lstat_calm hw ht .directory) fun r t ht => ?_
  obtain ⟨rfl,ht⟩ := ht
  refine yields_bind (Q := fun _ => Like x) (yields_lift (check_binding_iff.mpr hfits.1) ht)
    fun _ t ht => ?_
  refine yields_bind (lstat_calm hw ht .upper) fun r t ht => ?_
  obtain ⟨rfl,ht⟩ := ht
  exact yields_lift (check_binding_iff.mpr hfits.2) ht

theorem check_retired_mountpoint_calm (hw : Calm w)
    (hfits : Fits x.shown x.runtime.mountpointIdentity x.runtime.mountpointRemoved) (hm : Like x m) :
    Yields (checkRetiredMountpoint w) m fun _ => Like x := by
  refine yields_bind (runtime_calm hm) fun r t ht => ?_
  obtain ⟨rfl,ht⟩ := ht
  refine yields_bind (lstat_calm hw ht .mountpoint) fun r t ht => ?_
  obtain ⟨rfl,ht⟩ := ht
  exact yields_lift (check_binding_iff.mpr hfits) ht

theorem scan_like (hm : Like x m) : Like x (scanUpper w m).2 := by
  unfold scanUpper
  split
  · exact {hm with}
  · exact hm
  · exact hm

theorem scan_ok (hw : Working w) : ∃ clean, (scanUpper w m).1 = .ok clean := by
  obtain ⟨clean,hscan⟩ := hw.scan m.tick m.layer
  refine ⟨clean,?_⟩
  unfold scanUpper
  rw [hscan]
  cases clean <;> rfl

theorem scan_upper_calm (hw : Working w) (hm : Like x m) :
    Yields (perform w paused (scanUpper w)) m fun _ => Like x := by
  refine perform_calm hw.calm hm fun d n hd => ?_
  obtain ⟨clean,hok⟩ := scan_ok (m := d) hw
  exact ⟨clean,hok,(scan_like hd).tick n⟩

theorem dirty_of_known (clean : Bool) : dirtyOf clean ≠ .unknown := by
  cases clean <;> decide

theorem removed_upper_calm (hw : Calm w) (hnone : x.upper = none) (hm : Like x m) :
    Yields (removedUpper w paused) m fun state t => state ≠ .unknown ∧ Like x t := by
  refine yields_bind (lstat_calm hw hm .upper) fun r t ht => ?_
  obtain ⟨rfl,ht⟩ := ht
  rw [show x.entry .upper = none from hnone]
  exact yields_pure ⟨by decide,ht⟩

theorem scan_paused_calm (hw : Working w) (hcertain : Certain x) (hm : Like x m) :
    Yields (scanPaused w) m fun state t => state ≠ .unknown ∧ Like x t := by
  refine yields_bind (scan_upper_calm hw hm) fun clean t ht => ?_
  refine yields_bind (perform_certain_calm hw.calm hcertain ht) fun _ t ht => ?_
  exact yields_pure ⟨dirty_of_known clean,ht⟩

theorem Whole.upper_none (hx : Whole x) (hgone : x.runtime.upperRemoved = true) : x.upper = none := by
  have hfits := hx.upper
  rw [hgone] at hfits
  exact hfits

theorem dirty_inner_calm (hw : Working w) (hx : Whole x) (hcertain : Certain x) (hm : Like x m) :
    Yields (dirtyInner w) m fun state t => state ≠ .unknown ∧ Like x t := by
  refine yields_bind (runtime_calm hm) fun r t ht => ?_
  obtain ⟨rfl,ht⟩ := ht
  split_ifs with hgone hboth
  · exact removed_upper_calm hw.calm (hx.upper_none hgone) ht
  · exact yields_bind (perform_certain_calm hw.calm hcertain ht) fun _ t ht =>
      scan_paused_calm hw hcertain ht
  · refine yields_bind (lstat_calm hw.calm ht .upper) fun r t ht => ?_
    obtain ⟨rfl,ht⟩ := ht
    have hfits : x.upper = x.runtime.upperIdentity.map .directory := by
      have hfits := hx.upper
      rw [Bool.eq_false_iff.mpr hgone] at hfits
      exact hfits
    rw [show x.entry .upper = x.upper from rfl]
    cases hidentity : x.runtime.upperIdentity with
    | none =>
      rw [hidentity] at hfits
      rw [hfits]
      exact yields_pure ⟨by decide,ht⟩
    | some identity =>
      rw [hidentity] at hfits
      rw [hfits, hx.lower (by rw [hidentity]; exact Option.some_ne_none _)]
      exact scan_paused_calm hw hcertain ht

theorem dirty_calm (hw : Working w) (hx : Whole x) (hfits : PathsFit x) (hcertain : Certain x)
    (hm : Like x m) : Yields (dirty w) m fun state t => state ≠ .unknown ∧ Like x t := by
  refine yields_bind (check_private_paths_calm hw.calm hfits hm) fun _ t ht => ?_
  refine yields_bind (dirty_inner_calm hw hx hcertain ht) fun state t ht => ?_
  refine yields_bind (check_private_paths_calm hw.calm hfits ht.2) fun _ u hu => ?_
  exact yields_pure ⟨ht.1,hu⟩

theorem refuse_discarded {state : DirtyState} (h : state ≠ .unknown) :
    refuseDirty state true = .ok () := by
  cases state with
  | clean => rfl
  | dirty => rfl
  | unknown => exact absurd rfl h

theorem scan_fenced_calm (hw : Working w) (hx : Whole x) (hfits : PathsFit x) (hm : Like x m) :
    Yields (scanFenced w x.runtime) m fun state t => state ≠ .unknown ∧ Like x t := by
  unfold scanFenced
  split_ifs with hgone
  · exact removed_upper_calm hw.calm (hx.upper_none hgone) hm
  · refine yields_bind (scan_upper_calm hw hm) fun clean t ht => ?_
    refine yields_bind (check_private_paths_calm hw.calm hfits ht) fun _ t ht => ?_
    exact yields_pure ⟨dirty_of_known clean,ht⟩

theorem first_check_calm (hw : Working w) (hx : Whole x) (hfits : PathsFit x) (hcertain : Certain x)
    (hm : Like x m) : Yields (firstCheck w true) m fun _ => Like x.sealedUp := by
  refine yields_bind (runtime_calm hm) fun r t ht => ?_
  obtain ⟨rfl,ht⟩ := ht
  split_ifs with hboth
  · refine yields_bind (perform_certain_calm hw.calm hcertain ht) fun _ t ht => ?_
    refine yields_bind (scan_fenced_calm hw hx hfits ht) fun state t ht => ?_
    refine yields_bind (Q := fun _ => Like x) (yields_lift (refuse_discarded ht.1) ht.2)
      fun _ t ht => ?_
    exact seal_pause_calm hw.calm hcertain ht
  · have hsame : x.sealedUp = x := by
      refine on_mount_fix fun mount hmount => absurd ?_ hboth
      simp [hmount, (hx.mounted mount hmount).2.1]
    refine yields_bind (dirty_calm hw hx hfits hcertain ht) fun state t ht => ?_
    rw [hsame]
    exact yields_lift (refuse_discarded ht.1) ht.2

/-! ## The complete destruction -/

/-- The native owners have retired and the kernel mount is gone. -/
def Down (m : Machine υ Owner) : Prop :=
  m.kernel = none ∧ ∀ mount, m.runtime.mount = some mount → mount.retired = true

/-- The mount changes, the rest is kept. -/
theorem Whole.change {y : Machine υ Owner} (hx : Whole x) (hkept : Kept x y)
    (hplain : y.runtime.mount = none → y.kernel = none)
    (hmounted : ∀ mount', y.runtime.mount = some mount' → ∃ mount, x.runtime.mount = some mount ∧
      mount'.plainIdentity = mount.plainIdentity ∧ Owed mount' y.kernel ∧
      (x.runtime.mountpointRemoved = true → mount'.retired = true)) : Whole y where
  directory := by
    rw [hkept.listed, hkept.directory, hkept.directoryIdentity]
    exact hx.directory
  upper := by
    rw [hkept.upper, hkept.upperIdentity, hkept.upperRemoved]
    exact hx.upper
  mountpoint := by
    rw [hkept.mountpoint, hkept.mountpointIdentity, hkept.mountpointRemoved]
    exact hx.mountpoint
  nested := by
    rw [hkept.directoryIdentity, hkept.upperIdentity, hkept.mountpointIdentity]
    exact hx.nested
  lower := by
    rw [hkept.upperIdentity, hkept.lower]
    exact hx.lower
  plain := hplain
  mounted := by
    intro mount' hmount'
    obtain ⟨mount,hmount,hsame,howed,hretired⟩ := hmounted mount' hmount'
    obtain ⟨hidentity,hlower,-,-⟩ := hx.mounted mount hmount
    rw [hkept.mountpointIdentity, hkept.lower, hkept.mountpointRemoved, hsame]
    exact ⟨hidentity,hlower,howed,hretired⟩
  owner := by
    rw [hkept.store, hkept.cache]
    exact hx.owner

theorem PathsFit.of_whole (hx : Whole x) (hlisted : x.listed = true) : PathsFit x :=
  ⟨hx.directory hlisted,hx.upper⟩

/-- What `unmount` leaves when it goes through. -/
def Unmounted (x t : Machine υ Owner) : Prop :=
  t.kernel = none ∧ Certain t ∧ ∀ mount', t.runtime.mount = some mount' → mount'.retired = true ∧
    ∃ mount, x.runtime.mount = some mount ∧ mount'.plainIdentity = mount.plainIdentity

theorem unmount_whole_calm (hw : Calm w) (hx : Whole x) (hcertain : Certain x) (hshown : Shown x)
    (hm : Like x m) : Yields (unmount w) m fun _ => Unmounted x := by
  cases hmount : x.runtime.mount with
  | none =>
    refine yields_bind (runtime_calm hm) fun r t ht => ?_
    obtain ⟨rfl,ht⟩ := ht
    rw [hmount]
    refine yields_pure ⟨ht.kernel.trans (hx.plain hmount),ht.certain hcertain,fun mount' h => ?_⟩
    rw [ht.runtime, hmount] at h
    cases h
  | some mount =>
    obtain ⟨hidentity,hlower,howed,hgone⟩ := hx.mounted mount hmount
    cases hretired : mount.retired with
    | true =>
      have hnone : x.kernel = none := by
        by_contra hsome
        have hactive := (howed hsome).1
        rw [hretired] at hactive
        cases hactive
      refine yields_mono (unmount_retired_calm hw hmount hcertain hretired hm) fun _ t ht => ?_
      refine ⟨ht.kernel.trans hnone,ht.certain (certain_sealed hcertain),fun mount' h => ?_⟩
      rw [ht.runtime, Machine.sealedUp, on_mount_some hmount] at h
      cases h
      exact ⟨hretired,mount,hmount,rfl⟩
    | false =>
      have hplain : x.mountpoint = some (.directory mount.plainIdentity) := by
        have hfits := hx.mountpoint
        have hthere : x.runtime.mountpointRemoved = false := by
          by_contra h
          rw [hgone (Bool.not_eq_false _ ▸ h)] at hretired
          cases hretired
        rw [hthere, hidentity] at hfits
        exact hfits
      have hready : Unmountable x mount := ⟨hmount,hcertain,hplain,hshown mount hmount,howed⟩
      refine yields_mono (unmount_calm hw hready hretired hm) fun _ t ht => ?_
      have hover : Certain x.unmounted := certain_on_mount (x := x) (fun _ => rfl) hcertain
      refine ⟨ht.kernel,ht.certain hover,fun mount' h => ?_⟩
      rw [ht.runtime] at h
      have hsome : x.unmounted.runtime.mount = some mount.over := on_mount_some hmount
      rw [hsome] at h
      cases h
      exact ⟨rfl,mount,hmount,rfl⟩

/-- The state after the unmount of a destruction. -/
structure Quieted (m : Machine υ Owner) : Prop where
  whole : Whole m
  listed : m.listed = true
  certain : Certain m
  down : Down m

theorem unmount_observed_yields {Q : Machine υ Owner → Prop} (h : Yields (unmount w) m fun _ => Q) :
    Yields (unmountObserved w) m fun _ => Q := by
  refine yields_bind (yields_attempt h) fun r t ht => ?_
  obtain ⟨_,rfl,ht⟩ := ht
  exact yields_pure ht

theorem Whole.set (hx : Whole x) {f : Runtime → Runtime} (hkept : Kept x (x.withRuntime f))
    (hmount : (f x.runtime).mount = x.runtime.mount) : Whole (x.withRuntime f) := by
  refine hx.change hkept (fun hnone => hx.plain (hmount ▸ hnone)) fun mount h => ?_
  have hsome : x.runtime.mount = some mount := hmount ▸ h
  exact ⟨mount,hsome,rfl,(hx.mounted mount hsome).2.2⟩

theorem Whole.sealed (hx : Whole x) : Whole x.sealedUp := by
  refine hx.change (by constructor <;> rfl) ?_ ?_
  · intro hnone
    exact hx.plain (Option.map_eq_none_iff.mp hnone)
  · intro mount' hmount'
    obtain ⟨mount,hmount,rfl⟩ := Option.map_eq_some_iff.mp hmount'
    exact ⟨mount,hmount,rfl,(hx.mounted mount hmount).2.2⟩

theorem Shown.sealed (hx : Shown x) : Shown x.sealedUp := by
  intro mount' hmount'
  obtain ⟨mount,hmount,rfl⟩ := Option.map_eq_some_iff.mp hmount'
  exact hx mount hmount

/-- The machine in which the unmount of a destruction starts. -/
def Machine.retiring (x : Machine υ Owner) : Machine υ Owner :=
  (x.sealedUp.withRuntime fun r => {r with hydrate := false}).withRuntime fun r =>
    {r with mountState := .retiring}

theorem Whole.retiring (hx : Whole x) : Whole x.retiring := by
  have hidle : Whole (x.sealedUp.withRuntime fun r => {r with hydrate := false}) :=
    hx.sealed.set (by constructor <;> rfl) rfl
  exact hidle.set (by constructor <;> rfl) rfl

theorem take_down_unmounted (hw : Working w) (hm : Whole m) (hlisted : m.listed = true)
    (hcertain : Certain m) (hshown : Shown m) :
    Yields (takeDown w true) m fun _ => Unmounted m.retiring := by
  have hfits := PathsFit.of_whole hm hlisted
  refine yields_bind (check_private_paths_calm hw.calm hfits (Like.refl m)) fun _ t ht => ?_
  refine yields_bind (first_check_calm hw hm hfits hcertain ht) fun _ t ht => ?_
  refine yields_bind (yields_bind (await_calm hw.calm ht) fun _ t ht => set_runtime_calm _ ht)
    fun _ t ht => ?_
  refine yields_bind (set_runtime_calm _ ht) fun _ t ht => ?_
  have hunmount : Yields (unmount w) t fun _ => Unmounted m.retiring :=
    unmount_whole_calm hw.calm hm.retiring (certain_sealed hcertain) hshown.sealed ht
  refine yields_bind (unmount_observed_yields hunmount) fun _ t ht => ?_
  exact ⟨(),_,⟨rfl,rfl⟩,ht⟩

theorem take_down_calm (hw : Working w) (hm : Whole m) (hlisted : m.listed = true)
    (hcertain : Certain m) (hshown : Shown m) :
    Yields (takeDown w true) m fun _ => Quieted := by
  obtain ⟨a,t,ht,hkernel,hcertain',hmounts⟩ := take_down_unmounted hw hm hlisted hcertain hshown
  have hkept : Kept m t := (take_down_kept m (Kept.refl m)).1 a t ht
  refine ⟨a,t,ht,⟨hm.change hkept (fun _ => hkernel) fun mount' h => ?_,hkept.listed.trans hlisted,
    hcertain',hkernel,fun mount' h => (hmounts mount' h).1⟩⟩
  obtain ⟨hretired,mount,hmount,hplain⟩ := hmounts mount' h
  obtain ⟨first,hfirst,rfl⟩ := Option.map_eq_some_iff.mp hmount
  refine ⟨first,hfirst,hplain,fun hsome => absurd hkernel hsome,fun _ => hretired⟩

theorem Quieted.shown_fits (hx : Quieted x) :
    Fits x.shown x.runtime.mountpointIdentity x.runtime.mountpointRemoved := by
  have hshown : x.shown = x.mountpoint := by simp [Machine.shown, hx.down.1]
  rw [hshown]
  exact hx.whole.mountpoint

/-- A call to the owner that goes through. -/
theorem owner_call_calm (hw : Calm w) {p : OwnerOp Unit} {f : ℕ → Owner → Except String Unit × Owner}
    {R : Owner → Prop} (hf : ∀ n, f n = ran p) (hp : Yields p x.cache fun _ => R) (hm : Like x m) :
    Yields (conclude w (cacheCall f)) m fun _ t => ∃ c, R c ∧ Like {x with cache := c} t := by
  obtain ⟨a,c,⟨hok,hlast⟩,hR⟩ := hp
  refine conclude_calm hw hm fun d n hd => ⟨(),?_,c,hR,?_⟩
  · simp only [cacheCall, hf, ran, hd.cache, hok]
    rfl
  · refine {hd with cache := ?_}
    simp only [cacheCall, hf, ran, hd.cache, hlast]

/-- The owner is released, when there is a store. -/
def Freed (x m : Machine υ Owner) : Prop :=
  ∃ c, (x.runtime.store = true → Revoked c) ∧ Like {x with cache := c} m

theorem release_owner_calm (hw : Working w) (hx : Whole x) (hm : Like x m) :
    Yields (releaseOwner w) m fun _ => Freed x := by
  refine yields_bind (runtime_calm hm) fun r t ht => ?_
  obtain ⟨rfl,ht⟩ := ht
  split_ifs with hstore
  · refine yields_mono (owner_call_calm hw.calm (fun n => congrFun hw.cache.release n)
      (release_yields (hx.owner hstore)) ht) fun _ u hu => ?_
    obtain ⟨c,hc,hu⟩ := hu
    exact ⟨c,fun _ => hc,hu⟩
  · exact yields_pure ⟨x.cache,fun h => absurd h hstore,ht⟩

theorem last_check_calm (hw : Working w) (hm : Quieted m) :
    Yields (lastCheck w true) m fun _ => Freed m := by
  have hfits := PathsFit.of_whole hm.whole hm.listed
  refine yields_bind (dirty_calm hw hm.whole hfits hm.certain (Like.refl m)) fun state t ht => ?_
  refine yields_bind (Q := fun _ => Like m) (yields_lift (refuse_discarded ht.1) ht.2) fun _ t ht => ?_
  refine yields_bind (check_retired_mountpoint_calm hw.calm hm.shown_fits ht) fun _ t ht => ?_
  refine yields_bind (release_owner_calm hw hm.whole ht) fun _ t ht => ?_
  obtain ⟨c,hc,ht⟩ := ht
  refine yields_bind (check_private_paths_calm hw.calm (x := {m with cache := c}) hfits ht)
    fun _ t ht => ?_
  refine yields_mono (check_retired_mountpoint_calm hw.calm (x := {m with cache := c})
    hm.shown_fits ht) fun _ t ht => ?_
  exact ⟨c,hc,ht⟩

/-- The machine without its upper and its mountpoint. -/
def Machine.emptied (x : Machine υ Owner) : Machine υ Owner :=
  {x with
    upper := none
    mountpoint := none
    runtime := {x.runtime with upperRemoved := true, mountpointRemoved := true}}

theorem fits_none {found : Option Entry} {removed : Bool} (h : Fits found none removed) :
    found = none := by
  cases removed <;> exact h

theorem remove_private_calm (hw : Calm w) (hx : Quieted x) (hm : Like x m) :
    Yields (removePrivate w) m fun _ => Like x.emptied := by
  refine yields_bind (runtime_calm hm) fun r t ht => ?_
  obtain ⟨rfl,ht⟩ := ht
  cases hdirectory : x.runtime.directoryIdentity with
  | none =>
    obtain ⟨hupper,hpoint⟩ := hx.whole.nested hdirectory
    have hnone : x.runtime.mount = none := by
      cases hmount : x.runtime.mount with
      | none => rfl
      | some mount =>
        have hidentity := (hx.whole.mounted mount hmount).1
        rw [hpoint] at hidentity
        cases hidentity
    refine yields_bind (Q := fun _ => Like x) (yields_lift (a := ()) (by simp [hnone]) ht) fun _ t ht => ?_
    refine ⟨(),_,⟨rfl,rfl⟩,?_⟩
    have hset := ht.set fun r => {r with upperRemoved := true, mountpointRemoved := true}
    have hfits := hx.whole.upper
    have hfits' := hx.whole.mountpoint
    rw [hupper] at hfits
    rw [hpoint] at hfits'
    exact {hset with
      upper := ht.upper.trans (fits_none hfits)
      mountpoint := ht.mountpoint.trans (fits_none hfits')}
  | some expected =>
    have hthere : x.entry .directory = some (.directory expected) := by
      have hfits := hx.whole.directory hx.listed
      rw [hdirectory] at hfits
      exact hfits
    refine yields_bind (Q := fun identity t => identity = expected ∧ Like x t)
      (yields_bind (lstat_calm hw ht .directory) fun r t ht => ?_) fun identity t ht => ?_
    · obtain ⟨rfl,ht⟩ := ht
      rw [hthere]
      exact yields_lift rfl ⟨rfl,ht⟩
    obtain ⟨rfl,ht⟩ := ht
    refine yields_bind (Q := fun _ => Like x) (yields_lift (a := ()) (by simp) ht) fun _ t ht => ?_
    refine yields_bind (Q := fun _ => Like {x with upper := none})
      (conclude_calm hw ht fun d n hd => ⟨(),?_,?_⟩) fun _ t ht => ?_
    · simp [removeUpper, hw.fault]
    · simp only [removeUpper, hw.fault]
      exact {hd with upper := rfl}
    refine yields_bind (set_runtime_calm _ ht) fun _ t ht => ?_
    refine yields_bind (Q := fun _ => Like {x with
      upper := none
      mountpoint := none
      runtime := {x.runtime with upperRemoved := true}}) (perform_calm hw ht fun d n hd =>
        ⟨(),rfl,{hd with mountpoint := rfl}⟩) fun _ t ht => ?_
    exact set_runtime_calm _ ht

theorem destroy_calm (hw : Working w) (hm : Whole m) (hlisted : m.listed = true)
    (hcertain : Certain m) (hshown : Shown m) :
    Yields (destroy w true) m fun _ _ => True := by
  refine yields_bind (Q := fun _ t => t = m) ⟨(),m,⟨by simp [find, ask, hlisted],rfl⟩,rfl⟩
    fun _ t ht => ?_
  subst ht
  refine yields_bind (take_down_calm hw hm hlisted hcertain hshown) fun _ x hx => ?_
  refine yields_bind (last_check_calm hw hx) fun _ t ht => ?_
  obtain ⟨c,hc,ht⟩ := ht
  have hfreed : Quieted {x with cache := c} := by
    exact {hx with whole := {hx.whole with owner := fun h => (hc h).1}}
  refine yields_bind (remove_private_calm hw.calm hfreed ht) fun _ t ht => ?_
  have hfits : PathsFit (Machine.emptied {x with cache := c}) := ⟨hx.whole.directory hx.listed,rfl⟩
  refine yields_bind (check_private_paths_calm hw.calm hfits ht) fun _ t ht => ?_
  have hshown' : Fits (Machine.emptied {x with cache := c}).shown
      (Machine.emptied {x with cache := c}).runtime.mountpointIdentity
      (Machine.emptied {x with cache := c}).runtime.mountpointRemoved := by
    simp [Machine.shown, Machine.emptied, Fits, hx.down.1]
  refine yields_bind (check_retired_mountpoint_calm hw.calm hshown' ht) fun _ t ht => ?_
  refine yields_bind (Q := fun _ t => ∃ c', Like {Machine.emptied {x with cache := c} with
    cache := c'} t) (yields_bind (runtime_calm ht) fun r u hu => ?_) fun _ u hu => ?_
  · obtain ⟨rfl,hu⟩ := hu
    split_ifs with hstore
    · refine yields_mono (owner_call_calm hw.calm (fun n => congrFun hw.cache.retire n)
        (retire_yields (hc hstore)) hu) fun _ v hv => ?_
      obtain ⟨c',-,hv⟩ := hv
      exact ⟨c',hv⟩
    · exact yields_pure ⟨c,hu⟩
  obtain ⟨c',hu⟩ := hu
  refine yields_bind (Q := fun _ _ => True) (yields_bind (runtime_calm hu) fun r v hv => ?_)
    fun _ v _ => ⟨(),_,⟨rfl,rfl⟩,trivial⟩
  obtain ⟨rfl,hv⟩ := hv
  split_ifs
  · exact perform_calm hw.calm hv fun d n hd => ⟨(),rfl,trivial⟩
  · exact yields_pure trivial

end Steps

end Scorpio.Workspace
