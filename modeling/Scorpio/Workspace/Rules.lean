import Scorpio.Workspace.Service

/-!
# Rules for the steps of a workspace

A step waits, and mutations go on while it waits; then it acts, and the clock moves.
An assertion that both leave alone is carried through a step, whatever its failure.
Until the private paths are removed a destruction changes the mount, the state that
is shown and the log. The paths, their recorded identities and the owner in the cache
stay, but for the release of the owner.
-/

set_option autoImplicit false

namespace Scorpio.Workspace

open CrashLogic

variable {υ κ α : Type} {w : World υ κ} {paused : Bool} {P C : Machine υ κ → Prop}
  {Q : α → Machine υ κ → Prop} {f : Machine υ κ → Except WorkspaceError α × Machine υ κ}

/-- `P` is left alone while a step waits, and it suffices where the step is cut. -/
structure Along (w : World υ κ) (paused : Bool) (P C : Machine υ κ → Prop) : Prop where
  disturbed : ∀ m, P m → P (disturb w paused m)
  ticked : ∀ m n, P m → P {m with tick := n}
  cut : ∀ m, P m → C m

theorem conclude_triple (hP : Along w false P C)
    (hf : ∀ d n, P d → C {(f d).2 with tick := n} ∧
      ∀ a, (f d).1 = .ok a → Q a {(f d).2 with tick := n}) :
    Triple P (conclude w f) Q C := by
  intro s hs
  have hd := hP.disturbed s hs
  constructor
  · rintro a t ⟨hr,rfl⟩
    exact (hf _ _ hd).2 a hr
  · intro t ht
    simp only [Passes, conclude, List.mem_cons, List.not_mem_nil, or_false] at ht
    rcases ht with (rfl | rfl) | rfl
    · exact hP.cut _ hs
    · exact hP.cut _ hd
    · exact (hf _ _ hd).1

theorem perform_triple (hP : Along w paused P C)
    (hf : ∀ d n, P d → C {(f d).2 with tick := n} ∧
      ∀ a, (f d).1 = .ok a → Q a {(f d).2 with tick := n}) :
    Triple P (perform w paused f) Q C := by
  intro s hs
  have hd := hP.disturbed s hs
  cases hfault : w.fault s.tick with
  | some e =>
    constructor
    · rintro a t ⟨hr,-⟩
      simp [perform, hfault] at hr
    · intro t ht
      simp only [Passes, perform, hfault, List.mem_cons, List.not_mem_nil, or_false] at ht
      rcases ht with (rfl | rfl) | rfl
      · exact hP.cut _ hs
      · exact hP.cut _ hd
      · exact hP.cut _ (hP.ticked _ _ hd)
  | none =>
    constructor
    · rintro a t ⟨hr,ht⟩
      simp only [perform, hfault] at hr ht
      rw [← ht]
      exact (hf _ _ hd).2 a hr
    · intro t ht
      simp only [Passes, perform, hfault, List.mem_cons, List.not_mem_nil, or_false] at ht
      rcases ht with (rfl | rfl) | rfl
      · exact hP.cut _ hs
      · exact hP.cut _ hd
      · exact (hf _ _ hd).1

theorem perform_kept (hP : Along w paused P C) (hf : ∀ d, P d → P (f d).2) :
    Triple P (perform w paused f) (fun _ => P) C :=
  perform_triple hP fun d n hd =>
    have hafter := hP.ticked _ n (hf d hd)
    ⟨hP.cut _ hafter,fun _ _ => hafter⟩

theorem conclude_kept (hP : Along w false P C) (hf : ∀ d, P d → P (f d).2) :
    Triple P (conclude w f) (fun _ => P) C :=
  conclude_triple hP fun d n hd =>
    have hafter := hP.ticked _ n (hf d hd)
    ⟨hP.cut _ hafter,fun _ _ => hafter⟩

theorem await_kept (hP : Along w false P C) : Triple P (await w) (fun _ => P) C :=
  perform_kept hP fun _ hd => hd

/-- What `lstat` has shown is still there when it returns. -/
theorem lstat_triple {place : Place} (hP : Along w paused P C) :
    Triple P (lstat w paused place)
      (fun r t => P t ∧ ∀ found, r = .ok found → t.entry place = found) C := by
  intro s hs
  have hd := hP.disturbed s hs
  constructor
  · rintro r t ⟨hr,rfl⟩
    refine ⟨hP.ticked _ _ hd,?_⟩
    rintro found rfl
    simp only [lstat, Except.ok.injEq] at hr
    cases hfault : w.fault s.tick with
    | none =>
      rw [hfault] at hr
      exact Except.ok.inj hr
    | some e =>
      rw [hfault] at hr
      cases hr
  · intro t ht
    simp only [Passes, lstat, List.mem_cons, List.not_mem_nil, or_false] at ht
    rcases ht with (rfl | rfl) | rfl
    · exact hP.cut _ hs
    · exact hP.cut _ hd
    · exact hP.cut _ (hP.ticked _ _ hd)

theorem lstat_kept {place : Place} (hP : Along w paused P C) :
    Triple P (lstat w paused place) (fun _ => P) C :=
  triple_mono (lstat_triple hP) (fun _ hs => hs) fun _ _ h => h.1

theorem runtime_triple (hC : ∀ m, P m → C m) :
    Triple P (runtime : Op υ κ Runtime) (fun r t => P t ∧ t.runtime = r) C := by
  intro s hs
  constructor
  · rintro r t ⟨hr,rfl⟩
    exact ⟨hs,Except.ok.inj hr⟩
  · intro t ht
    rw [passes_ask.mp ht]
    exact hC s hs

theorem runtime_kept (hC : ∀ m, P m → C m) :
    Triple P (runtime : Op υ κ Runtime) (fun _ => P) C :=
  triple_mono (runtime_triple hC) (fun _ hs => hs) fun _ _ h => h.1

theorem set_runtime_triple {R : Machine υ κ → Prop} {g : Runtime → Runtime}
    (hg : ∀ m, P m → R {m with runtime := g m.runtime}) (hC : ∀ m, R m → C m) :
    Triple P (setRuntime g : Op υ κ Unit) (fun _ => R) C := by
  intro s hs
  constructor
  · rintro a t ⟨-,rfl⟩
    exact hg s hs
  · intro t ht
    simp only [Passes, setRuntime, List.not_mem_nil, false_or] at ht
    rw [ht]
    exact hC _ (hg s hs)

theorem lift_kept {x : Except WorkspaceError α} (hC : ∀ m, P m → C m) :
    Triple P (lift x : Op υ κ α) (fun _ => P) C :=
  triple_lift (fun _ _ _ hs => hs) hC

theorem demand_kept {b : Bool} {e : WorkspaceError} (hC : ∀ m, P m → C m) :
    Triple P (demand b e : Op υ κ Unit) (fun _ => P) C := lift_kept hC

theorem check_private_paths_kept (hP : Along w paused P C) :
    Triple P (checkPrivatePaths w paused) (fun _ => P) C := by
  refine triple_bind (runtime_triple hP.cut) fun r => ?_
  refine triple_bind (triple_mono (lstat_kept hP) (fun _ hs => hs.1) fun _ _ h => h) fun _ => ?_
  refine triple_bind (lift_kept hP.cut) fun _ => ?_
  exact triple_bind (lstat_kept hP) fun _ => lift_kept hP.cut

theorem check_retired_mountpoint_kept (hP : Along w false P C) :
    Triple P (checkRetiredMountpoint w) (fun _ => P) C := by
  refine triple_bind (runtime_triple hP.cut) fun r => ?_
  refine triple_bind (triple_mono (lstat_kept hP) (fun _ hs => hs.1) fun _ _ h => h) fun _ => ?_
  exact lift_kept hP.cut

/-- The fence has not been latched. -/
def Certain (m : Machine υ κ) : Prop :=
  ∀ mount, m.runtime.mount = some mount → mount.fence.uncertain = false

theorem certain_kept {message : String} (hP : Along w paused P C) :
    Triple P (perform w paused (certain message)) (fun _ => P) C := by
  refine perform_kept hP fun d hd => ?_
  unfold certain
  split <;> exact hd

theorem seal_fence_kept (hP : ∀ paused, Along w paused P C) (hclose : ∀ d, P d → P (closeFence d).2) :
    Triple P (sealFence w) (fun _ => P) C :=
  triple_bind (certain_kept (hP false)) fun _ => perform_kept (hP true) hclose

theorem recover_kept (hP : ∀ paused, Along w paused P C) (hclose : ∀ d, P d → P (closeFence d).2)
    (hrecover : ∀ d, P d → P (recoverCopyups w d).2) : Triple P (recover w) (fun _ => P) C :=
  triple_bind (seal_fence_kept hP hclose) fun _ =>
    triple_bind (perform_kept (hP false) hrecover) fun _ => seal_fence_kept hP hclose

theorem unmount_observed_returns {s t : Machine υ κ} (h : Returns (unmountObserved w) s () t) :
    Returns (unmount w) s () t := by
  obtain ⟨r,u,hr,h⟩ := returns_bind.mp h
  obtain ⟨hresult,rfl⟩ := returns_attempt.mp hr
  cases r with
  | error e =>
    obtain ⟨_,_,_,h⟩ := returns_bind.mp h
    cases h.1
  | ok a =>
    obtain ⟨-,rfl⟩ := returns_pure.mp h
    exact ⟨hresult,rfl⟩

/-! ## Scans -/

section Scans

variable (hP : ∀ paused, Along w paused P C) (hscan : ∀ d, P d → P (scanUpper w d).2)

include hP

theorem removed_upper_kept : Triple P (removedUpper w paused) (fun _ => P) C := by
  refine triple_bind (lstat_kept (hP paused)) fun found => ?_
  split
  · exact pure_kept (hP false).cut
  · exact lift_kept (hP false).cut

include hscan

theorem scan_paused_kept : Triple P (scanPaused w) (fun _ => P) C := by
  refine triple_bind (perform_kept (hP true) hscan) fun clean => ?_
  exact triple_bind (certain_kept (hP true)) fun _ => pure_kept (hP false).cut

theorem dirty_inner_kept : Triple P (dirtyInner w) (fun _ => P) C := by
  refine triple_bind (runtime_kept (hP false).cut) fun r => ?_
  split_ifs
  · exact removed_upper_kept hP
  · exact triple_bind (certain_kept (hP false)) fun _ => scan_paused_kept hP hscan
  · refine triple_bind (lstat_kept (hP false)) fun found => ?_
    split
    · exact pure_kept (hP false).cut
    · split_ifs
      · exact scan_paused_kept hP hscan
      · exact pure_kept (hP false).cut
    · exact pure_kept (hP false).cut

theorem dirty_kept : Triple P (dirty w) (fun _ => P) C := by
  refine triple_bind (check_private_paths_kept (hP false)) fun _ => ?_
  refine triple_bind (dirty_inner_kept hP hscan) fun state => ?_
  exact triple_bind (check_private_paths_kept (hP false)) fun _ =>
    pure_kept (hP false).cut

theorem scan_fenced_kept {r : Runtime} : Triple P (scanFenced w r) (fun _ => P) C := by
  unfold scanFenced
  split_ifs
  · exact removed_upper_kept hP
  · refine triple_bind (perform_kept (hP true) hscan) fun clean => ?_
    exact triple_bind (check_private_paths_kept (hP true)) fun _ =>
      pure_kept (hP false).cut

theorem first_check_kept (hclose : ∀ d, P d → P (closeFence d).2) {discard : Bool} :
    Triple P (firstCheck w discard) (fun _ => P) C := by
  refine triple_bind (runtime_kept (hP false).cut) fun r => ?_
  split_ifs
  · refine triple_bind (certain_kept (hP false)) fun _ => ?_
    refine triple_bind (scan_fenced_kept hP hscan) fun state => ?_
    exact triple_bind (lift_kept (hP false).cut) fun _ => perform_kept (hP true) hclose
  · exact triple_bind (dirty_kept hP hscan) fun state => lift_kept (hP false).cut

end Scans

/-! ## What the checks and the unmount leave alone -/

variable {s m : Machine υ κ}

structure Kept (s m : Machine υ κ) : Prop where
  listed : m.listed = s.listed
  store : m.runtime.store = s.runtime.store
  lower : m.runtime.lower = s.runtime.lower
  directoryIdentity : m.runtime.directoryIdentity = s.runtime.directoryIdentity
  upperIdentity : m.runtime.upperIdentity = s.runtime.upperIdentity
  mountpointIdentity : m.runtime.mountpointIdentity = s.runtime.mountpointIdentity
  upperRemoved : m.runtime.upperRemoved = s.runtime.upperRemoved
  mountpointRemoved : m.runtime.mountpointRemoved = s.runtime.mountpointRemoved
  directory : m.directory = s.directory
  upper : m.upper = s.upper
  mountpoint : m.mountpoint = s.mountpoint
  cache : m.cache = s.cache
  discarded : m.discarded = s.discarded

theorem Kept.refl (s : Machine υ κ) : Kept s s := by constructor <;> rfl

theorem Kept.trans {a b c : Machine υ κ} (h : Kept a b) (h' : Kept b c) : Kept a c :=
  ⟨h'.listed.trans h.listed,h'.store.trans h.store,h'.lower.trans h.lower,
    h'.directoryIdentity.trans h.directoryIdentity,h'.upperIdentity.trans h.upperIdentity,
    h'.mountpointIdentity.trans h.mountpointIdentity,h'.upperRemoved.trans h.upperRemoved,
    h'.mountpointRemoved.trans h.mountpointRemoved,h'.directory.trans h.directory,
    h'.upper.trans h.upper,h'.mountpoint.trans h.mountpoint,h'.cache.trans h.cache,
    h'.discarded.trans h.discarded⟩

theorem disturb_kept (paused : Bool) : Kept m (disturb w paused m) := by
  unfold disturb
  split
  · exact Kept.refl m
  · constructor <;> rfl

theorem kept_along (s : Machine υ κ) (paused : Bool) : Along w paused (Kept s) (Kept s) :=
  ⟨fun _ h => h.trans (disturb_kept paused),
    fun _ _ h => h.trans (by constructor <;> rfl),fun _ h => h⟩

theorem close_kept : Kept m (closeFence m).2 := by
  unfold closeFence
  split
  · split_ifs
    · exact Kept.refl m
    · constructor <;> rfl
  · exact Kept.refl m

theorem scan_kept : Kept m (scanUpper w m).2 := by
  unfold scanUpper
  split
  · constructor <;> rfl
  · exact Kept.refl m
  · exact Kept.refl m

theorem native_unmount_kept : Kept m (nativeUnmount w m).2 := by
  unfold nativeUnmount
  split
  · dsimp only
    split_ifs
    · constructor <;> rfl
    · exact Kept.refl m
  · constructor <;> rfl

/-- Only the mount, the hydration and what is shown of the workspace are set. -/
theorem set_kept {g : Runtime → Runtime}
    (hg : ∀ m : Machine υ κ, Kept m {m with runtime := g m.runtime}) :
    Keeps (Kept s) (setRuntime g : Op υ κ Unit) :=
  set_runtime_triple (fun m h => h.trans (hg m)) fun _ h => h

theorem set_mount_kept {f : WorkspaceMount → WorkspaceMount} :
    Keeps (Kept s) (setMountField f : Op υ κ Unit) :=
  set_kept fun _ => by constructor <;> rfl

theorem recovery_kept : Keeps (Kept s) (recover w) :=
  recover_kept (kept_along s) (fun _ h => h.trans close_kept) fun _ h =>
    h.trans (by constructor <;> rfl)

theorem unmount_native_kept (current : WorkspaceMount) :
    Keeps (Kept s) (unmountNative w current) := by
  have hnative : Keeps (Kept s) (conclude w (nativeUnmount w)) :=
    conclude_kept (kept_along s false) fun _ h => h.trans native_unmount_kept
  unfold unmountNative
  split_ifs
  · refine triple_bind set_mount_kept fun _ => triple_bind (triple_attempt hnative) ?_
    rintro (e | _)
    · exact hnative
    · exact pure_kept fun _ hs => hs
  · exact hnative
  · exact pure_kept fun _ hs => hs

theorem mark_retired_kept : Keeps (Kept s) (markRetired : Op υ κ Unit) := by
  intro m hm
  have hafter : Kept m (markRetired m).last ∧ (markRetired m).visited = [] := by
    unfold markRetired
    split
    · exact ⟨by constructor <;> rfl,rfl⟩
    · exact ⟨Kept.refl m,rfl⟩
  constructor
  · rintro a t ⟨-,rfl⟩
    exact hm.trans hafter.1
  · rintro t (ht | rfl)
    · rw [hafter.2] at ht
      cases ht
    · exact hm.trans hafter.1

theorem unmount_kept : Keeps (Kept s) (unmount w) := by
  refine triple_bind (runtime_kept fun _ hs => hs) fun r => ?_
  cases r.mount with
  | none => exact pure_kept fun _ hs => hs
  | some current =>
    dsimp only
    split_ifs
    · exact recovery_kept
    · refine triple_bind (lstat_kept (kept_along s false)) fun _ => ?_
      refine triple_bind (lift_kept fun _ hs => hs) fun _ => triple_bind recovery_kept fun _ => ?_
      refine triple_bind (unmount_native_kept current) fun _ => triple_bind set_mount_kept fun _ => ?_
      refine triple_bind (await_kept (kept_along s false)) fun _ => ?_
      exact triple_bind recovery_kept fun _ => mark_retired_kept

theorem unmount_observed_kept : Keeps (Kept s) (unmountObserved w) := by
  refine triple_bind (triple_attempt unmount_kept) ?_
  rintro (e | _)
  · exact triple_bind (set_kept fun _ => by constructor <;> rfl) fun _ =>
      lift_kept fun _ hs => hs
  · exact pure_kept fun _ hs => hs

theorem reconcile_kept : Keeps (Kept s) (reconcileHydrate w) :=
  triple_bind (await_kept (kept_along s false)) fun _ =>
    set_kept fun _ => by constructor <;> rfl

theorem take_down_kept {discard : Bool} : Keeps (Kept s) (takeDown w discard) := by
  have hstate : ∀ state : MountState, Keeps (Kept s)
      (setRuntime fun r => {r with mountState := state} : Op υ κ Unit) :=
    fun state => set_kept fun _ => by constructor <;> rfl
  refine triple_bind (check_private_paths_kept (kept_along s false)) fun _ => ?_
  refine triple_bind (first_check_kept (kept_along s) (fun _ h => h.trans scan_kept)
    fun _ h => h.trans close_kept) fun _ => ?_
  refine triple_bind reconcile_kept fun _ => triple_bind (hstate .retiring) fun _ => ?_
  exact triple_bind unmount_observed_kept fun _ => hstate .unmounted

/-- As before, but for the cache of a bound store. -/
def KeptBut (s m : Machine υ κ) : Prop :=
  ∃ cache, Kept {s with cache := cache} m ∧ (s.runtime.store = false → cache = s.cache)

theorem Kept.but (h : Kept s m) : KeptBut s m := ⟨s.cache,h,fun _ => rfl⟩

theorem kept_but_along (s : Machine υ κ) (paused : Bool) : Along w paused (KeptBut s) (KeptBut s) := by
  refine ⟨fun m h => ?_,fun m n h => ?_,fun _ h => h⟩
  · obtain ⟨cache,hkept,hsame⟩ := h
    exact ⟨cache,(kept_along _ paused).disturbed m hkept,hsame⟩
  · obtain ⟨cache,hkept,hsame⟩ := h
    exact ⟨cache,(kept_along (w := w) _ paused).ticked m n hkept,hsame⟩

/-- Only an owner with a store is called. -/
theorem cache_call_kept {f : ℕ → κ → Except String Unit × κ} (hstore : s.runtime.store = true)
    (h : KeptBut s m) : KeptBut s (cacheCall f m).2 := by
  obtain ⟨cache,hkept,-⟩ := h
  refine ⟨(f m.tick m.cache).2,?_,fun hnone => by cases hstore.symm.trans hnone⟩
  exact {hkept with cache := rfl}

/-- A call to the owner, when the store is bound. -/
theorem owner_call_kept {f : ℕ → κ → Except String Unit × κ} : Keeps (KeptBut s) (do
      let r ← runtime
      if r.store then conclude w (cacheCall f) else pure () : Op υ κ Unit) := by
  refine triple_bind (runtime_triple fun _ hs => hs) fun r => ?_
  split_ifs with hstore
  · have hbound : ∀ m : Machine υ κ, KeptBut s m ∧ m.runtime = r → s.runtime.store = true := by
      rintro m ⟨⟨cache,hkept,-⟩,rfl⟩
      exact hkept.store.symm.trans hstore
    intro m hm
    have hcall : Keeps (KeptBut s) (conclude w (cacheCall f)) :=
      conclude_kept (kept_but_along s false) fun _ h => cache_call_kept (hbound m hm) h
    exact hcall m hm.1
  · exact triple_pure (fun _ hs => hs.1) fun _ hs => hs.1

theorem last_check_kept {discard : Bool} :
    Triple (Kept s) (lastCheck w discard) (fun _ => KeptBut s) (KeptBut s) := by
  have halong : ∀ paused, Along w paused (Kept s) (KeptBut s) := fun paused =>
    ⟨(kept_along s paused).disturbed,(kept_along (w := w) s paused).ticked,fun _ h => h.but⟩
  refine triple_bind (dirty_kept halong fun _ h => h.trans scan_kept) fun state => ?_
  refine triple_bind (lift_kept (halong false).cut) fun _ => ?_
  refine triple_bind (triple_mono (check_retired_mountpoint_kept (halong false)) (fun _ hs => hs)
    fun _ _ h => h.but) fun _ => ?_
  refine triple_bind owner_call_kept fun _ => ?_
  exact triple_bind (check_private_paths_kept (kept_but_along s false)) fun _ =>
    check_retired_mountpoint_kept (kept_but_along s false)

end Scorpio.Workspace
