import Scorpio.Workspace.Rules

/-!
# Steps in a calm world

When no call fails and the fence stays certain, the mutations that go on beside an
operation reach only the contents of the upper and the log. The rest of the machine
is known after every step.
-/

set_option autoImplicit false

namespace Scorpio.Workspace

open CrashLogic

variable {υ κ α : Type}

/-- From here on every call works and the fence stays certain. -/
structure Calm (w : World υ κ) : Prop where
  fault : ∀ n, w.fault n = none
  unknown : ∀ n, w.unknown n = false

/-- The machines agree on everything but the contents of the upper, the clock and the log. -/
structure Like (x m : Machine υ κ) : Prop where
  listed : m.listed = x.listed
  runtime : m.runtime = x.runtime
  directory : m.directory = x.directory
  upper : m.upper = x.upper
  mountpoint : m.mountpoint = x.mountpoint
  kernel : m.kernel = x.kernel
  cache : m.cache = x.cache

theorem Like.refl (m : Machine υ κ) : Like m m := ⟨rfl,rfl,rfl,rfl,rfl,rfl,rfl⟩

namespace Machine

def withRuntime (m : Machine υ κ) (f : Runtime → Runtime) : Machine υ κ :=
  {m with runtime := f m.runtime}

def onMount (m : Machine υ κ) (f : WorkspaceMount → WorkspaceMount) : Machine υ κ :=
  m.withRuntime fun r => {r with mount := r.mount.map f}

/-- The fence is closed for good. -/
def sealedUp (m : Machine υ κ) : Machine υ κ :=
  m.onMount fun mount => {mount with fence := {mount.fence with isSealed := true}}

end Machine

section Mounts

variable {x : Machine υ κ} {f g : WorkspaceMount → WorkspaceMount}

theorem on_mount_fix (hfix : ∀ mount, x.runtime.mount = some mount → f mount = mount) :
    x.onMount f = x := by
  have hmap : x.runtime.mount.map f = x.runtime.mount := by
    cases hmount : x.runtime.mount with
    | none => rfl
    | some mount => exact congrArg some (hfix mount hmount)
  dsimp only [Machine.onMount, Machine.withRuntime]
  rw [hmap]

theorem on_mount_on_mount : (x.onMount f).onMount g = x.onMount (g ∘ f) := by
  simp only [Machine.onMount, Machine.withRuntime, Option.map_map]

theorem on_mount_some {mount : WorkspaceMount} (hmount : x.runtime.mount = some mount) :
    (x.onMount f).runtime.mount = some (f mount) := by
  simp [Machine.onMount, Machine.withRuntime, hmount]

theorem close_fence_certain (hx : Certain x) :
    ∃ log, closeFence x = (.ok (),{x.sealedUp with log := log}) := by
  cases hmount : x.runtime.mount with
  | none =>
    have hsame : x.sealedUp = x := on_mount_fix fun mount h => by cases hmount.symm.trans h
    exact ⟨x.log,by simp [closeFence, hmount, hsame]⟩
  | some mount =>
    refine ⟨.fenced :: x.log,?_⟩
    simp [closeFence, hmount, hx mount hmount, Machine.sealedUp, Machine.onMount,
      Machine.withRuntime, Machine.setMount]

end Mounts

section Like

variable {w : World υ κ} {x m : Machine υ κ} {paused : Bool}

theorem Like.tick (hm : Like x m) (n : ℕ) : Like x {m with tick := n} :=
  {hm with}

theorem Like.set (hm : Like x m) (f : Runtime → Runtime) :
    Like (x.withRuntime f) {m with runtime := f m.runtime} :=
  {hm with runtime := congrArg f hm.runtime}

theorem Like.entry (hm : Like x m) (place : Place) : m.entry place = x.entry place := by
  cases place with
  | directory => exact hm.directory
  | upper => exact hm.upper
  | mountpoint => simp only [Machine.entry, Machine.shown, hm.kernel, hm.mountpoint]

theorem disturb_like (hw : Calm w) (hm : Like x m) : Like x (disturb w paused m) := by
  unfold disturb
  split
  · exact hm
  · next mount hmount =>
    refine {hm with runtime := ?_}
    rw [← hm.runtime]
    simp [Machine.setMount, Machine.mutate, hw.unknown, ← hmount]

theorem perform_calm (hw : Calm w) {f : Machine υ κ → Except WorkspaceError α × Machine υ κ}
    {Q : α → Machine υ κ → Prop} (hm : Like x m)
    (hf : ∀ d n, Like x d → ∃ a, (f d).1 = .ok a ∧ Q a {(f d).2 with tick := n}) :
    Yields (perform w paused f) m Q := by
  obtain ⟨a,hok,hQ⟩ := hf (disturb w paused m) (m.tick+1) (disturb_like hw hm)
  refine ⟨a,_,⟨?_,rfl⟩,?_⟩
  · simp only [perform, hw.fault]
    exact hok
  · simp only [perform, hw.fault]
    exact hQ

theorem conclude_calm (hw : Calm w) {f : Machine υ κ → Except WorkspaceError α × Machine υ κ}
    {Q : α → Machine υ κ → Prop} (hm : Like x m)
    (hf : ∀ d n, Like x d → ∃ a, (f d).1 = .ok a ∧ Q a {(f d).2 with tick := n}) :
    Yields (conclude w f) m Q := by
  obtain ⟨a,hok,hQ⟩ := hf (disturb w false m) (m.tick+1) (disturb_like hw hm)
  exact ⟨a,_,⟨hok,rfl⟩,hQ⟩

theorem await_calm (hw : Calm w) (hm : Like x m) : Yields (await w) m fun _ => Like x :=
  perform_calm hw hm fun _ n hd => ⟨(),rfl,hd.tick n⟩

theorem runtime_calm (hm : Like x m) :
    Yields (runtime : Op υ κ Runtime) m fun r t => r = x.runtime ∧ Like x t :=
  ⟨m.runtime,m,⟨rfl,rfl⟩,hm.runtime,hm⟩

theorem set_runtime_calm (f : Runtime → Runtime) (hm : Like x m) :
    Yields (setRuntime f : Op υ κ Unit) m fun _ => Like (x.withRuntime f) :=
  ⟨(),_,⟨rfl,rfl⟩,hm.set f⟩

theorem lstat_calm (hw : Calm w) (hm : Like x m) (place : Place) :
    Yields (lstat w paused place) m fun r t => r = .ok (x.entry place) ∧ Like x t := by
  have hd : Like x (disturb w paused m) := disturb_like hw hm
  refine ⟨_,_,⟨rfl,rfl⟩,?_,hd.tick _⟩
  simp only [hw.fault, Option.elim_none, hd.entry]

theorem certain_calm (hx : Certain x) {message : String} (hm : Like x m) :
    certain message m = (.ok (),m) := by
  cases hmount : x.runtime.mount with
  | none => simp [certain, hm.runtime, hmount]
  | some mount => simp [certain, hm.runtime, hmount, hx mount hmount]

theorem perform_certain_calm (hw : Calm w) (hx : Certain x) {message : String} (hm : Like x m) :
    Yields (perform w paused (certain message)) m fun _ => Like x := by
  refine perform_calm hw hm fun d n hd => ⟨(),?_,?_⟩
  · rw [certain_calm hx hd]
  · rw [certain_calm hx hd]
    exact hd.tick n

theorem Like.certain (hx : Certain x) (hm : Like x m) : Certain m := by
  intro mount hmount
  rw [hm.runtime] at hmount
  exact hx mount hmount

theorem seal_pause_calm (hw : Calm w) (hx : Certain x) (hm : Like x m) :
    Yields (sealPause w) m fun _ => Like x.sealedUp := by
  refine perform_calm hw hm fun d n hd => ⟨(),?_,?_⟩
  · obtain ⟨log,hclose⟩ := close_fence_certain (hd.certain hx)
    rw [hclose]
  · obtain ⟨log,hclose⟩ := close_fence_certain (hd.certain hx)
    rw [hclose]
    have hset := hd.set fun r => {r with mount := r.mount.map fun mount =>
      {mount with fence := {mount.fence with isSealed := true}}}
    exact {hset with}

theorem certain_on_mount {f : WorkspaceMount → WorkspaceMount}
    (hf : ∀ mount, (f mount).fence.uncertain = mount.fence.uncertain) (hx : Certain x) :
    Certain (x.onMount f) := by
  intro mount hmount
  obtain ⟨found,hfound,rfl⟩ := Option.map_eq_some_iff.mp hmount
  rw [hf]
  exact hx found hfound

theorem certain_sealed (hx : Certain x) : Certain x.sealedUp := certain_on_mount (fun _ => rfl) hx

theorem sealed_idem : x.sealedUp.sealedUp = x.sealedUp := on_mount_on_mount

theorem seal_fence_calm (hw : Calm w) (hx : Certain x) (hm : Like x m) :
    Yields (sealFence w) m fun _ => Like x.sealedUp :=
  yields_bind (perform_certain_calm hw hx hm) fun _ _ ht => seal_pause_calm hw hx ht

theorem recover_calm (hw : Calm w) (hx : Certain x) (hm : Like x m) :
    Yields (recover w) m fun _ => Like x.sealedUp := by
  refine yields_bind (seal_fence_calm hw hx hm) fun _ t ht => ?_
  refine yields_bind (Q := fun _ => Like x.sealedUp) (perform_calm hw ht fun d n hd =>
    ⟨(),rfl,{hd with}⟩) fun _ u hu => ?_
  have hseal := seal_fence_calm hw (certain_sealed hx) hu
  rwa [sealed_idem] at hseal

theorem native_unmount_calm (hw : Calm w) (hm : Like x m) :
    Yields (conclude w (nativeUnmount w)) m fun _ => Like {x with kernel := none} := by
  refine conclude_calm hw hm fun d n hd => ⟨(),?_,?_⟩
  · simp [nativeUnmount, hw.fault]
  · simp only [nativeUnmount, hw.fault]
    exact {hd with kernel := rfl}

theorem set_mount_calm (f : WorkspaceMount → WorkspaceMount) (hm : Like x m) :
    Yields (setMountField f : Op υ κ Unit) m fun _ => Like (x.onMount f) :=
  set_runtime_calm _ hm

end Like

/-! ## The complete unmount -/

section Unmount

variable {w : World υ κ} {x m : Machine υ κ} {mount : WorkspaceMount}

/-- The mountpoint shows what the mount knows. -/
def Known (mount : WorkspaceMount) (kernel : Option Identity) : Prop :=
  ∀ identity, kernel = some identity →
    identity = mount.plainIdentity ∨ some identity = mount.mountedIdentity

/-- The mountpoint shows the plain directory or the recorded root. -/
def Shown (m : Machine υ κ) : Prop :=
  ∀ mount, m.runtime.mount = some mount → Known mount m.kernel

/-- A kernel mount is there only while somebody still has to take it away. -/
def Owed (mount : WorkspaceMount) (kernel : Option Identity) : Prop :=
  kernel ≠ none → mount.retired = false ∧ (mount.handle = true ∨ mount.retryUnmount = true)

/-- The mount after its retirement. -/
def WorkspaceMount.over (mount : WorkspaceMount) : WorkspaceMount :=
  {mount with
    handle := false
    retryUnmount := false
    retired := true
    fence := {mount.fence with isSealed := true}}

/-- The machine after a complete unmount. -/
def Machine.unmounted (x : Machine υ κ) : Machine υ κ := {x.onMount .over with kernel := none}

theorem with_handle_retry {handle retry : Bool} (hhandle : mount.handle = handle)
    (hretry : mount.retryUnmount = retry) :
    {mount with handle := handle, retryUnmount := retry} = mount := by
  subst hhandle hretry
  rfl

/-- The native mount is gone, and only the handle and the retry may have changed. -/
theorem unmount_native_calm (hw : Calm w) (howed : Owed mount x.kernel) {fenced : WorkspaceMount}
    (hx : x.runtime.mount = some fenced) (hhandle : fenced.handle = mount.handle)
    (hretry : fenced.retryUnmount = mount.retryUnmount) (hm : Like x m) :
    Yields (unmountNative w mount) m fun _ t => ∃ retry, Like {x.onMount (fun mount =>
      {mount with handle := false, retryUnmount := retry}) with kernel := none} t := by
  unfold unmountNative
  split_ifs with hhas hagain
  · refine yields_bind (set_mount_calm _ hm) fun _ t ht => ?_
    refine yields_bind (yields_attempt (native_unmount_calm hw ht)) fun r u hu => ?_
    obtain ⟨_,rfl,hu⟩ := hu
    exact yields_pure ⟨true,hu⟩
  · refine yields_mono (native_unmount_calm hw hm) fun _ t ht => ⟨true,?_⟩
    rw [on_mount_fix]
    · exact ht
    · intro found hfound
      cases hx.symm.trans hfound
      exact with_handle_retry (hhandle.trans (Bool.not_eq_true _ ▸ hhas)) (hretry.trans hagain)
  · refine yields_pure ⟨false,?_⟩
    have hnone : x.kernel = none := by
      by_contra hsome
      rcases (howed hsome).2 with hh | hh
      · exact hhas hh
      · exact hagain hh
    rw [on_mount_fix]
    · rw [← hnone]
      exact hm
    · intro found hfound
      cases hx.symm.trans hfound
      rw [Bool.not_eq_true] at hhas hagain
      exact with_handle_retry (hhandle.trans hhas) (hretry.trans hagain)

theorem mark_retired_calm (hm : Like x m) : Yields (markRetired : Op υ κ Unit) m fun _ =>
    Like (x.onMount fun mount => {mount with retired := true, retryUnmount := false}) := by
  have hset := hm.set fun r => {r with mount := r.mount.map fun mount =>
    {mount with retired := true, retryUnmount := false}}
  cases hmount : m.runtime.mount with
  | none =>
    refine ⟨(),m,⟨by simp [markRetired, hmount],by simp [markRetired, hmount]⟩,?_⟩
    rw [on_mount_fix]
    · exact hm
    · intro mount h
      rw [← hm.runtime, hmount] at h
      cases h
  | some mount =>
    refine ⟨(),_,⟨by simp [markRetired, hmount],rfl⟩,?_⟩
    simp only [markRetired, hmount]
    refine {hset with runtime := ?_}
    have hruntime := hset.runtime
    simp only [hmount, Option.map_some] at hruntime
    exact hruntime

/-- What a complete unmount needs: a certain fence, the plain directory below, and a mountpoint
that shows a known identity. -/
structure Unmountable (x : Machine υ κ) (mount : WorkspaceMount) : Prop where
  has : x.runtime.mount = some mount
  certain : Certain x
  plain : x.mountpoint = some (.directory mount.plainIdentity)
  known : Known mount x.kernel
  owed : Owed mount x.kernel

theorem check_shown_ok (hx : Unmountable x mount) :
    checkShown (.ok (x.entry .mountpoint)) mount = .ok () := by
  cases hkernel : x.kernel with
  | none => simp [checkShown, Machine.entry, Machine.shown, hkernel, hx.plain]
  | some identity => simp [checkShown, Machine.entry, Machine.shown, hkernel, hx.known identity hkernel]

theorem retire_mount_calm (hw : Calm w) (hx : Unmountable x mount) (hm : Like x m) :
    Yields (retireMount w mount) m fun _ => Like x.unmounted := by
  have hfenced : x.sealedUp.runtime.mount =
      some {mount with fence := {mount.fence with isSealed := true}} := on_mount_some hx.has
  refine yields_bind (lstat_calm hw hm .mountpoint) fun r t ht => ?_
  obtain ⟨rfl,ht⟩ := ht
  refine yields_bind (Q := fun _ => Like x) (yields_lift (check_shown_ok hx) ht) fun _ t ht => ?_
  refine yields_bind (recover_calm hw hx.certain ht) fun _ t ht => ?_
  refine yields_bind (unmount_native_calm (x := x.sealedUp) hw hx.owed hfenced rfl rfl ht)
    fun _ t ht => ?_
  obtain ⟨retry,ht⟩ := ht
  refine yields_bind (set_mount_calm _ ht) fun _ t ht => ?_
  refine yields_bind (await_calm hw ht) fun _ t ht => ?_
  refine yields_bind (recover_calm hw ?_ ht) fun _ t ht => ?_
  · have hcertain : Certain (x.sealedUp.onMount fun mount =>
        {mount with handle := false, retryUnmount := retry}) :=
      certain_on_mount (fun _ => rfl) (certain_sealed hx.certain)
    exact certain_on_mount (fun _ => rfl) hcertain
  refine yields_mono (mark_retired_calm ht) fun _ t ht => ?_
  refine {ht with runtime := ?_}
  rw [ht.runtime]
  simp [Machine.unmounted, Machine.sealedUp, Machine.onMount, Machine.withRuntime, hx.has,
    WorkspaceMount.over]

/-- A complete unmount ends in the retired mount. -/
theorem unmount_calm (hw : Calm w) (hx : Unmountable x mount) (hretired : mount.retired = false)
    (hm : Like x m) : Yields (unmount w) m fun _ => Like x.unmounted := by
  refine yields_bind (runtime_calm hm) fun r t ht => ?_
  obtain ⟨rfl,ht⟩ := ht
  rw [hx.has]
  dsimp only
  rw [if_neg (by simp [hretired])]
  exact retire_mount_calm hw hx ht

/-- A retired mount is only recovered again. -/
theorem unmount_retired_calm (hw : Calm w) (hx : x.runtime.mount = some mount) (hcertain : Certain x)
    (hretired : mount.retired = true) (hm : Like x m) :
    Yields (unmount w) m fun _ => Like x.sealedUp := by
  refine yields_bind (runtime_calm hm) fun r t ht => ?_
  obtain ⟨rfl,ht⟩ := ht
  rw [hx]
  dsimp only
  rw [if_pos hretired]
  exact recover_calm hw hcertain ht

end Unmount

end Scorpio.Workspace
