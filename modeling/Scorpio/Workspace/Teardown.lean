import Scorpio.Workspace.CalmSteps

/-!
# Teardown of a mount

A mount owes its teardown from the moment its native handle is there. `unmount`
goes on only where the mountpoint shows the plain directory or the identity that the
readiness loop has recorded. A mount whose readiness loop failed, or was cut, shows
an identity that nobody recorded: every later `unmount` refuses it.
-/

set_option autoImplicit false

namespace Scorpio.Workspace

open CrashLogic

variable {υ κ : Type}

def Gone (m : Machine υ κ) : Prop :=
  m.kernel = none ∧ ∃ mount, m.runtime.mount = some mount ∧ mount.retired = true

/-! ## Refused calls -/

section Refused

variable {w : World υ κ} {m : Machine υ κ}

/-- The mountpoint shows an identity that was never recorded. -/
def Unrecorded (m : Machine υ κ) : Prop :=
  ∃ mount identity, m.runtime.mount = some mount ∧ m.kernel = some identity ∧
    mount.retired = false ∧ identity ≠ mount.plainIdentity ∧ some identity ≠ mount.mountedIdentity

theorem unmount_refused (hw : Calm w) (hm : Unrecorded m) :
    Fails (unmount w) m mountReplaced (unmount w m).last ∧ Unrecorded (unmount w m).last := by
  obtain ⟨mount,identity,hmount,hkernel,hretired,hplain,hmounted⟩ := hm
  obtain ⟨r,t,ht,rfl,hafter⟩ := lstat_calm hw (Like.refl m) .mountpoint
  have hfails : Fails (unmount w) m mountReplaced t := by
    refine fails_bind.mpr (.inr ⟨m.runtime,m,⟨rfl,rfl⟩,?_⟩)
    rw [hmount]
    dsimp only
    rw [if_neg (by simp [hretired])]
    refine fails_bind.mpr (.inr ⟨_,t,ht,fails_bind.mpr (.inl (fails_lift.mpr ⟨?_,rfl⟩))⟩)
    simp [checkShown, Machine.entry, Machine.shown, hkernel, hplain, hmounted]
  rw [hfails.2]
  refine ⟨hfails,mount,identity,?_,?_,hretired,hplain,hmounted⟩
  · rw [hafter.runtime]
    exact hmount
  · rw [hafter.kernel]
    exact hkernel

/-- So many complete calls of `unmount`, whatever they answer. -/
def calls (w : World υ κ) : ℕ → Machine υ κ → Machine υ κ
  | 0, m => m
  | n+1, m => calls w n (unmount w m).last

theorem calls_succ (n : ℕ) (m : Machine υ κ) : calls w (n+1) m = (unmount w (calls w n m)).last := by
  induction n generalizing m with
  | zero => rfl
  | succ n ih => exact ih (unmount w m).last

theorem calls_refused (hw : Calm w) (hm : Unrecorded m) (n : ℕ) : Unrecorded (calls w n m) := by
  induction n generalizing m with
  | zero => exact hm
  | succ n ih => exact ih (unmount_refused hw hm).2

theorem not_gone_of_unrecorded (hm : Unrecorded m) : ¬ Gone m := by
  obtain ⟨mount,identity,-,hkernel,-⟩ := hm
  rintro ⟨hnone,-⟩
  rw [hkernel] at hnone
  cases hnone

end Refused

/-! ## Runs -/

section Runs

/-- A new mount over its plain directory. -/
def Started (m : Machine υ κ) : Prop :=
  ∃ identity, m.runtime.mount = some (newMount identity) ∧ m.kernel = none ∧
    m.mountpoint = some (.directory identity)

/-- A call of `mount` or `unmount` in some world, ended or cut. -/
inductive Act : Machine υ κ → Machine υ κ → Prop where
  | mounted {w : World υ κ} {s t : Machine υ κ} (ht : Passes (mount w) s t) : Act s t
  | unmounted {w : World υ κ} {s t : Machine υ κ} (ht : Passes (unmount w) s t) : Act s t

/-! ## What every cut keeps -/

def WorkspaceMount.bare (mount : WorkspaceMount) : WorkspaceMount :=
  {mount with fence := ⟨false,false⟩}

/-- An assertion about the mount and the kernel, over the plain directory. -/
def Is (φ : WorkspaceMount → Option Identity → Prop) (m : Machine υ κ) : Prop :=
  ∃ mount, m.runtime.mount = some mount ∧ m.mountpoint = some (.directory mount.plainIdentity) ∧
    φ mount.bare m.kernel

variable {w : World υ κ} {α : Type} {φ ψ χ : WorkspaceMount → Option Identity → Prop}

theorem Is.mono (hle : ∀ mount kernel, φ mount kernel → ψ mount kernel) {m : Machine υ κ}
    (hm : Is φ m) : Is ψ m := by
  obtain ⟨mount,hmount,hpoint,hφ⟩ := hm
  exact ⟨mount,hmount,hpoint,hle _ _ hφ⟩

theorem disturb_is {paused : Bool} {m : Machine υ κ} (hm : Is φ m) : Is φ (disturb w paused m) := by
  obtain ⟨mount,hmount,hpoint,hφ⟩ := hm
  unfold disturb
  rw [hmount]
  exact ⟨_,rfl,hpoint,hφ⟩

theorem is_along {paused : Bool} (hφ : ∀ mount kernel, φ mount kernel → χ mount kernel) :
    Along w paused (Is φ) (Is χ) :=
  ⟨fun _ hm => disturb_is hm,fun _ _ hm => hm,fun _ hm => hm.mono hφ⟩

theorem close_fence_is {m : Machine υ κ} (hm : Is φ m) : Is φ (closeFence m).2 := by
  obtain ⟨mount,hmount,hpoint,hφ⟩ := id hm
  simp only [closeFence, hmount]
  split_ifs
  · exact hm
  · exact ⟨_,rfl,hpoint,hφ⟩

theorem recover_keeps (hφ : ∀ mount kernel, φ mount kernel → χ mount kernel) :
    Triple (Is φ) (recover w) (fun _ => Is φ) (Is χ) :=
  recover_kept (fun _ => is_along hφ) (fun _ hd => close_fence_is hd) fun _ hd => hd

/-- What may be assumed at every cut: it obliges somebody while the kernel mount is there, it
survives the loss of the handle, and it asks nothing of a plain directory. -/
structure Stable (χ : WorkspaceMount → Option Identity → Prop) : Prop where
  owed : ∀ mount kernel, χ mount kernel → Owed mount kernel
  handed : ∀ mount kernel, χ mount kernel → mount.handle = true →
    χ {mount with handle := false, retryUnmount := true} kernel
  plain : ∀ mount, χ mount none

theorem native_unmount_is (hχ : Stable χ) {d : Machine υ κ} (hd : Is χ d) :
    Is χ (nativeUnmount w d).2 ∧ ∀ a, (nativeUnmount w d).1 = .ok a →
      Is (fun _ kernel => kernel = none) (nativeUnmount w d).2 := by
  obtain ⟨mount,hmount,hpoint,_⟩ := id hd
  have hgone : Is χ {d with kernel := none} := ⟨mount,hmount,hpoint,hχ.plain _⟩
  unfold nativeUnmount
  split
  · refine ⟨?_,fun a h => by cases h⟩
    dsimp only
    split_ifs
    · exact hgone
    · exact hd
  · exact ⟨hgone,fun _ _ => ⟨mount,hmount,hpoint,rfl⟩⟩

theorem native_unmount_triple (hχ : Stable χ) :
    Triple (Is χ) (conclude w (nativeUnmount w)) (fun _ => Is fun _ kernel => kernel = none) (Is χ) :=
  conclude_triple (is_along fun _ _ h => h) fun _ _ hd => native_unmount_is hχ hd

theorem set_mount_triple {f : WorkspaceMount → WorkspaceMount}
    (hf : ∀ fence mount, f {mount with fence := fence} = {f mount with fence := fence})
    (hplain : ∀ mount, (f mount).plainIdentity = mount.plainIdentity)
    (hφ : ∀ mount kernel, φ mount kernel → ψ (f mount) kernel)
    (hψ : ∀ mount kernel, ψ mount kernel → χ mount kernel) :
    Triple (Is φ) (setMountField f : Op υ κ Unit) (fun _ => Is ψ) (Is χ) := by
  intro s hs
  obtain ⟨mount,hmount,hpoint,h⟩ := hs
  have hafter : Is ψ {s with runtime := {s.runtime with mount := s.runtime.mount.map f}} := by
    refine ⟨f mount,?_,?_,?_⟩
    · simp [hmount]
    · rw [hplain]
      exact hpoint
    · have hbare : (f mount).bare = f mount.bare := (hf _ mount).symm
      rw [hbare]
      exact hφ _ _ h
  constructor
  · rintro a t ⟨-,rfl⟩
    exact hafter
  · intro t ht
    simp only [Passes, setMountField, setRuntime, List.not_mem_nil, false_or] at ht
    rw [ht]
    exact hafter.mono hψ

theorem unmount_native_triple (hχ : Stable χ) (current : WorkspaceMount) :
    Triple (Is fun mount kernel => mount = current.bare ∧ χ mount kernel) (unmountNative w current)
      (fun _ => Is fun _ kernel => kernel = none) (Is χ) := by
  unfold unmountNative
  split_ifs with hhandle hretry
  · have hset : Triple (Is fun mount kernel => mount = current.bare ∧ χ mount kernel)
        (setMountField fun mount => {mount with handle := false, retryUnmount := true} : Op υ κ Unit)
        (fun _ => Is χ) (Is χ) := by
      refine set_mount_triple (fun _ _ => rfl) (fun _ => rfl) ?_ fun _ _ h => h
      rintro _ kernel ⟨rfl,h⟩
      exact hχ.handed _ _ h hhandle
    refine triple_bind hset fun _ => triple_bind (triple_attempt (native_unmount_triple hχ)) ?_
    rintro (e | _)
    · exact native_unmount_triple hχ
    · exact triple_pure (fun _ hs => hs) fun _ hs => hs.mono fun _ _ h => h ▸ hχ.plain _
  · exact triple_mono (native_unmount_triple hχ) (fun _ hs => hs.mono fun _ _ h => h.2) fun _ _ h => h
  · refine triple_pure (fun s hs => hs.mono ?_) fun s hs => hs.mono fun _ _ h => h.2
    rintro _ kernel ⟨rfl,h⟩
    by_contra hsome
    rcases (hχ.owed _ _ h hsome).2 with hh | hh
    · exact hhandle hh
    · exact hretry hh

theorem mark_retired_triple (hχ : Stable χ) :
    Triple (Is fun _ kernel => kernel = none) (markRetired : Op υ κ Unit) (fun _ => Is χ) (Is χ) := by
  rintro s ⟨mount,hmount,hpoint,hnone⟩
  have hafter : Is χ (markRetired s).last := by
    simp only [markRetired, hmount]
    refine ⟨_,rfl,hpoint,?_⟩
    dsimp only [Machine.setMount]
    rw [hnone]
    exact hχ.plain _
  constructor
  · rintro a t ⟨-,rfl⟩
    exact hafter
  · intro t ht
    simp only [Passes, markRetired, hmount, List.not_mem_nil, false_or] at ht
    simp only [markRetired, hmount] at hafter
    rw [ht]
    exact hafter

theorem retire_mount_triple (hχ : Stable χ) (current : WorkspaceMount) :
    Triple (Is fun mount kernel => mount = current.bare ∧ χ mount kernel) (retireMount w current)
      (fun _ => Is χ) (Is χ) := by
  have hnow : ∀ mount kernel, (mount = current.bare ∧ χ mount kernel) → χ mount kernel :=
    fun _ _ h => h.2
  have hnone : ∀ (mount : WorkspaceMount) (kernel : Option Identity), kernel = none →
      χ mount kernel := fun mount _ h => h ▸ hχ.plain mount
  refine triple_bind (lstat_kept (is_along hnow)) fun _ => ?_
  refine triple_bind (lift_kept fun _ hs => hs.mono hnow) fun _ => ?_
  refine triple_bind (recover_keeps hnow) fun _ => ?_
  refine triple_bind (unmount_native_triple hχ current) fun _ => ?_
  refine triple_bind (set_mount_triple (ψ := fun _ kernel => kernel = none) (fun _ _ => rfl)
    (fun _ => rfl) (fun _ _ h => h) hnone) fun _ => ?_
  refine triple_bind (await_kept (is_along hnone)) fun _ => triple_bind (recover_keeps hnone) fun _ => ?_
  exact mark_retired_triple hχ

theorem unmount_keeps (hχ : Stable χ) {s t : Machine υ κ} (hs : Is χ s)
    (ht : Passes (unmount w) s t) : Is χ t := by
  obtain ⟨mount,hmount,hpoint,h⟩ := id hs
  rcases passes_bind ht with ht | ⟨r,u,⟨hr,rfl⟩,ht⟩
  · rw [passes_ask.mp ht]
    exact hs
  cases hr
  rw [hmount] at ht
  dsimp only at ht
  split_ifs at ht with hretired
  · exact (recover_keeps (fun _ _ h => h) s hs).2 t ht
  · exact (retire_mount_triple hχ mount s ⟨mount,hmount,hpoint,rfl,h⟩).2 t ht

theorem native_mount_is {d : Machine υ κ} (hd : Is (fun mount _ => mount.retired = false) d) :
    Is (fun mount _ => mount.retired = false ∧ mount.handle = true) (nativeMount w d).2 := by
  obtain ⟨mount,hmount,hpoint,hretired⟩ := hd
  simp only [nativeMount, hmount]
  exact ⟨_,rfl,hpoint,hretired,rfl⟩

theorem record_identity_is {d : Machine υ κ}
    (hd : Is (fun mount _ => mount.retired = false ∧ mount.handle = true) d) :
    Is Owed (recordIdentity d).2 ∧ ∀ a, (recordIdentity d).1 = .ok a →
      Is (fun mount kernel => Owed mount kernel ∧ Known mount kernel) (recordIdentity d).2 := by
  obtain ⟨mount,hmount,hpoint,hretired,hhandle⟩ := id hd
  have howed : Is Owed d := hd.mono fun _ _ h _ => ⟨h.1,.inl h.2⟩
  cases hkernel : d.kernel with
  | none =>
    simp only [recordIdentity, hmount, hkernel]
    exact ⟨howed,fun a h => by cases h⟩
  | some identity =>
    simp only [recordIdentity, hmount, hkernel]
    refine ⟨⟨_,rfl,hpoint,fun _ => ⟨hretired,.inl hhandle⟩⟩,fun _ _ => ⟨_,rfl,hpoint,?_,?_⟩⟩
    · exact fun _ => ⟨hretired,.inl hhandle⟩
    · intro shown hshown
      exact .inr (hshown.symm.trans hkernel)

/-- The two steps that follow when nothing is mounted yet. -/
theorem mount_steps_triple :
    Triple (Is fun mount kernel => mount.retired = false ∧ kernel = none)
      (do perform w false (nativeMount w); perform w false recordIdentity : Op υ κ Unit)
      (fun _ => Is fun mount kernel => Owed mount kernel ∧ Known mount kernel) (Is Owed) := by
  refine triple_bind (Q := fun _ => Is fun mount _ => mount.retired = false ∧ mount.handle = true)
    (perform_triple (is_along fun _ _ h hsome => absurd h.2 hsome) fun d n hd => ?_) fun _ => ?_
  · have hmounted := native_mount_is (w := w) (hd.mono fun _ _ h => h.1)
    exact ⟨hmounted.mono fun _ _ h _ => ⟨h.1,.inl h.2⟩,fun _ _ => hmounted⟩
  · exact perform_triple (is_along fun _ _ h _ => ⟨h.1,.inl h.2⟩) fun d n hd => record_identity_is hd

/-- A call of `mount` leaves the state, or it starts without a kernel mount. -/
theorem runtime_bind {α : Type} {k : Runtime → Op υ κ α} {s : Machine υ κ} :
    (runtime >>= k) s = k s.runtime s := rfl

theorem mount_cases {s : Machine υ κ} (hs : Is Owed s) :
    (∀ t, Passes (mount w) s t → t = s) ∨
      s.kernel = none ∧ (∀ t, Passes (mount w) s t → Is Owed t) ∧
        ∀ t, Returns (mount w) s () t →
          Is (fun mount kernel => Owed mount kernel ∧ Known mount kernel) t := by
  obtain ⟨current,hmount,hpoint,howed⟩ := id hs
  have hrun : mount w s = (if current.retired || current.retryUnmount then
      fail (ioError "workspace generation cannot be remounted")
    else if current.handle then pure ()
    else do perform w false (nativeMount w); perform w false recordIdentity : Op υ κ Unit) s := by
    rw [mount, runtime_bind, hmount]
  simp only [Passes, Returns, hrun]
  split_ifs with hover hhandle
  · exact .inl fun t ht => passes_lift.mp ht
  · exact .inl fun t ht => passes_pure.mp ht
  · simp only [Bool.or_eq_true, not_or, Bool.not_eq_true] at hover hhandle
    have hnone : s.kernel = none := by
      by_contra hsome
      rcases (howed hsome).2 with hh | hh
      · exact absurd hh (by simp [WorkspaceMount.bare, hhandle])
      · exact absurd hh (by simp [WorkspaceMount.bare, hover.2])
    obtain ⟨hreturns,hpasses⟩ := mount_steps_triple (w := w) s ⟨current,hmount,hpoint,hover.1,hnone⟩
    exact .inr ⟨hnone,hpasses,fun t ht => hreturns () t ht⟩

theorem stable_owed : Stable Owed where
  owed := fun _ _ h => h
  handed := fun _ _ h _ hsome => ⟨(h hsome).1,.inr rfl⟩
  plain := fun _ hsome => absurd rfl hsome

theorem stable_known : Stable fun mount kernel => Owed mount kernel ∧ Known mount kernel where
  owed := fun _ _ h => h.1
  handed := fun _ _ h hhandle => ⟨stable_owed.handed _ _ h.1 hhandle,h.2⟩
  plain := fun _ => ⟨stable_owed.plain _,fun _ h => by cases h⟩

theorem started_is {s : Machine υ κ} (hs : Started s) :
    Is (fun mount kernel => Owed mount kernel ∧ Known mount kernel) s := by
  obtain ⟨identity,hmount,hkernel,hpoint⟩ := hs
  refine ⟨_,hmount,hpoint,?_⟩
  rw [hkernel]
  exact stable_known.plain _

theorem act_owed {s t : Machine υ κ} (hs : Is Owed s) (hact : Act s t) : Is Owed t := by
  cases hact with
  | mounted ht =>
    rcases mount_cases hs with hsame | ⟨-,hpasses,-⟩
    · rw [hsame t ht]
      exact hs
    · exact hpasses t ht
  | unmounted ht => exact unmount_keeps stable_owed hs ht

theorem run_owed {s t : Machine υ κ} (hs : Started s) (hrun : Relation.ReflTransGen Act s t) :
    Is Owed t := by
  induction hrun with
  | refl => exact (started_is hs).mono fun _ _ h => h.1
  | tail _ hact ih => exact act_owed ih hact

end Runs

/-! ## The teardown -/

section Teardown

variable {w : World υ κ} {s t : Machine υ κ}

/-- As `Act`, with every call of `mount` either answered or without a kernel mount. -/
inductive Recorded : Machine υ κ → Machine υ κ → Prop where
  | mounted {w : World υ κ} {s t : Machine υ κ} (ht : Passes (mount w) s t)
      (hdone : Returns (mount w) s () t ∨ t.kernel = none) : Recorded s t
  | unmounted {w : World υ κ} {s t : Machine υ κ} (ht : Passes (unmount w) s t) : Recorded s t

theorem recorded_known (hs : Is (fun mount kernel => Owed mount kernel ∧ Known mount kernel) s)
    (hact : Recorded s t) : Is (fun mount kernel => Owed mount kernel ∧ Known mount kernel) t := by
  cases hact with
  | unmounted ht => exact unmount_keeps stable_known hs ht
  | mounted ht hdone =>
    rcases mount_cases (hs.mono fun _ _ h => h.1) with hsame | ⟨-,hpasses,hreturns⟩
    · rw [hsame t ht]
      exact hs
    · rcases hdone with hdone | hnone
      · exact hreturns t hdone
      · obtain ⟨mount,hmount,hpoint,-⟩ := hpasses t ht
        refine ⟨mount,hmount,hpoint,?_⟩
        rw [hnone]
        exact stable_known.plain _

theorem recorded_shown (hs : Started s) (hrun : Relation.ReflTransGen Recorded s t) : Shown t := by
  have hknown : Is (fun mount kernel => Owed mount kernel ∧ Known mount kernel) t := by
    induction hrun with
    | refl => exact started_is hs
    | tail _ hact ih => exact recorded_known ih hact
  obtain ⟨mount,hmount,-,-,hknown⟩ := hknown
  intro mount' hmount'
  cases hmount.symm.trans hmount'
  exact hknown

/-- Wherever a run is cut, complete calls of `unmount` take the mount away exactly when the
mountpoint shows the plain directory or the recorded root. It does so in every run whose calls of
`mount` are answered. -/
theorem teardown_dischargeable_iff (hs : Started s) (hrun : Relation.ReflTransGen Act s t)
    (hcertain : Certain t) (hw : Calm w) :
    ((∃ n, Gone (calls w n t)) ↔ Shown t) ∧
      (Relation.ReflTransGen Recorded s t → Shown t) := by
  obtain ⟨mount,hmount,hpoint,howed⟩ := run_owed hs hrun
  refine ⟨⟨?_,?_⟩,recorded_shown hs⟩
  · rintro ⟨n,hgone⟩ mount' hmount' identity hkernel
    cases hmount.symm.trans hmount'
    by_contra hunknown
    rw [not_or] at hunknown
    have hretired := (howed (by rw [hkernel]; exact Option.some_ne_none _)).1
    have hlost : Unrecorded t := ⟨mount,identity,hmount,hkernel,hretired,hunknown.1,hunknown.2⟩
    exact not_gone_of_unrecorded (calls_refused hw hlost n) hgone
  · intro hshown
    refine ⟨1,?_⟩
    change Gone (unmount w t).last
    cases hretired : mount.retired with
    | false =>
      have hready : Unmountable t mount := ⟨hmount,hcertain,hpoint,hshown mount hmount,howed⟩
      obtain ⟨_,u,hu,hlike⟩ := unmount_calm hw hready hretired (Like.refl t)
      rw [hu.2]
      refine ⟨hlike.kernel,mount.over,?_,rfl⟩
      rw [hlike.runtime]
      exact on_mount_some hmount
    | true =>
      obtain ⟨_,u,hu,hlike⟩ := unmount_retired_calm hw hmount hcertain hretired (Like.refl t)
      rw [hu.2]
      refine ⟨?_,{mount with fence := {mount.fence with isSealed := true}},?_,hretired⟩
      · rw [hlike.kernel]
        by_contra hsome
        have hactive : mount.retired = false := (howed hsome).1
        rw [hretired] at hactive
        cases hactive
      · rw [hlike.runtime]
        exact on_mount_some hmount

end Teardown

/-! ## A readiness timeout -/

def plainRoot : Identity := ⟨1,40⟩

def mountedRoot : Identity := ⟨52,1⟩

/-- A world in which the given steps fail. -/
def failing (fault : ℕ → Option String) : World Unit Unit where
  fault := fault
  fresh := fun _ => plainRoot
  session := fun _ => mountedRoot
  mutations := fun _ => []
  unknown := fun _ => false
  recovery := fun _ layer => layer
  gone := fun _ => false
  scan := fun _ _ => .ok true
  remains := fun _ layer => layer
  bind := fun _ cache => (.ok (),cache)
  release := fun _ cache => (.ok (),cache)
  retire := fun _ cache => (.ok (),cache)

def prepared : Machine Unit Unit where
  listed := true
  runtime := {Runtime.new with lower := true, mount := some (newMount plainRoot)}
  directory := some (.directory ⟨1,38⟩)
  upper := some (.directory ⟨1,39⟩)
  mountpoint := some (.directory plainRoot)
  kernel := none
  layer := ()
  cache := ()
  tick := 0
  log := []
  discarded := []

theorem prepared_started : Started prepared := ⟨plainRoot,rfl,rfl,rfl⟩

theorem failing_calm : Calm (failing fun _ => none) := ⟨fun _ => rfl,fun _ => rfl⟩

/-- The readiness loop, which is the second step of `mount`, runs out of its time. -/
def timedOut : World Unit Unit :=
  failing fun n => if n = 1 then some "workspace mount was not ready" else none

def stranded : Machine Unit Unit := (mount timedOut prepared).last

theorem stranded_unrecorded : Unrecorded stranded :=
  ⟨{newMount plainRoot with handle := true},mountedRoot,rfl,rfl,rfl,by decide,by decide⟩

/-- After the timeout the root of the mount is there, and no later call takes it away. -/
theorem readiness_timeout_strands_mount :
    Started prepared ∧ Fails (mount timedOut) prepared notReady stranded ∧
      Relation.ReflTransGen Act prepared stranded ∧ Certain stranded ∧
      stranded.kernel = some mountedRoot ∧ Calm (failing fun _ => none) ∧
      ∀ n, Fails (unmount (failing fun _ => none)) (calls (failing fun _ => none) n stranded)
          mountReplaced (calls (failing fun _ => none) (n+1) stranded) ∧
        ¬ Gone (calls (failing fun _ => none) n stranded) := by
  refine ⟨prepared_started,⟨rfl,rfl⟩,.single (.mounted (.inr rfl)),?_,rfl,failing_calm,fun n => ?_⟩
  · rintro mount ⟨⟩
    rfl
  · have hlost := calls_refused failing_calm stranded_unrecorded n
    refine ⟨⟨(unmount_refused failing_calm hlost).1.1,?_⟩,not_gone_of_unrecorded hlost⟩
    exact (calls_succ n stranded).symm

theorem teardown_after_complete_mount :
    let s := (mount (failing fun _ => none) prepared).last
    Started prepared ∧ Relation.ReflTransGen Act prepared s ∧ Certain s ∧ Shown s ∧
      ∃ n, Gone (calls (failing fun _ => none) n s) := by
  intro s
  have hrun : Relation.ReflTransGen Act prepared s :=
    .single (.mounted (w := failing fun _ => none) (.inr rfl))
  have hrecorded : Relation.ReflTransGen Recorded prepared s :=
    .single (.mounted (w := failing fun _ => none) (.inr rfl) (.inl ⟨rfl,rfl⟩))
  have hcertain : Certain s := by
    rintro mount ⟨⟩
    rfl
  obtain ⟨hiff,hshown⟩ := teardown_dischargeable_iff prepared_started hrun hcertain failing_calm
  exact ⟨prepared_started,hrun,hcertain,hshown hrecorded,hiff.mpr (hshown hrecorded)⟩

end Scorpio.Workspace
