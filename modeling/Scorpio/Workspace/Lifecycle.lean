import Scorpio.Workspace.CompleteRuns

/-!
# From creation to destruction

A creation that fails leaves a workspace to be destroyed. The destruction is complete
for what the runtime knows: the paths, the entry and a bound store. It can be repeated
until it goes through, provided that the mountpoint shows a known identity.
-/

set_option autoImplicit false

namespace Scorpio.Workspace

open CrashLogic

variable {υ : Type} {w : World υ Owner} {s t m : Machine υ Owner} {fault : ℕ → Stage → Option String}

/-! ## Creation -/

/-- An id that was never used. -/
structure Unused (m : Machine υ Owner) : Prop where
  directory : m.directory = none
  upper : m.upper = none
  mountpoint : m.mountpoint = none
  kernel : m.kernel = none
  cache : m.cache = .none

/-- The identity of every directory that is there was seen. -/
def Seen (m : Machine υ Owner) : Prop :=
  (m.directory ≠ none → m.runtime.directoryIdentity ≠ none) ∧
    (m.upper ≠ none → m.runtime.upperIdentity ≠ none) ∧
    (m.mountpoint ≠ none → m.runtime.mountpointIdentity ≠ none)

/-- The preparation before the mount; the flags say which directories are recorded. -/
structure Building (lower directory upper mountpoint : Bool) (m : Machine υ Owner) : Prop where
  whole : Whole m
  listed : m.listed = true
  unmounted : m.runtime.mount = none
  kept : m.runtime.upperRemoved = false
  standing : m.runtime.mountpointRemoved = false
  lower : lower = true → m.runtime.lower = true
  directory : m.runtime.directoryIdentity.isSome = directory
  upper : m.runtime.upperIdentity.isSome = upper
  mountpoint : m.runtime.mountpointIdentity.isSome = mountpoint

section Building

variable {lower directory upper mountpoint : Bool}

theorem building_along (paused : Bool) :
    Along w paused (Building lower directory upper mountpoint) fun m => Seen m → Whole m := by
  refine ⟨fun m hm => ?_,fun m n hm => ?_,fun _ hm _ => hm.whole⟩
  · rw [disturb, hm.unmounted]
    exact hm
  · exact {hm with whole := (whole_along (w := w) paused).ticked m n hm.whole}

/-- The new directory is there and not yet recorded. -/
structure Made (place : Place) (R : Machine υ Owner → Prop) (m : Machine υ Owner) : Prop where
  unmounted : m.runtime.mount = none
  unseen : ¬ Seen m
  bound : ∃ identity, m.entry place = some (.directory identity) ∧
    ∀ n, R {m with runtime := bindIdentity place identity m.runtime, tick := n}

theorem made_along (place : Place) (R : Machine υ Owner → Prop) :
    Along w false (Made place R) fun m => Seen m → Whole m := by
  refine ⟨fun m hm => ?_,fun m n hm => {hm with},
    fun _ hm hseen => absurd hseen hm.unseen⟩
  rw [disturb, hm.unmounted]
  exact hm

theorem prepare_place_ends {place : Place} {P R : Machine υ Owner → Prop}
    (hP : Along w false P fun m => Seen m → Whole m) (hR : Along w false R fun m => Seen m → Whole m)
    (hmade : ∀ d n, P d → d.entry place = none →
      Made place R {(makeDirectory w place d).2 with tick := n}) :
    Ends P (preparePlace w place) (fun _ => R) fun m => Seen m → Whole m := by
  refine ends_bind (Q := fun _ => Made place R) (perform_ends hP fun d n hd => ?_) fun _ => ?_
  · cases hentry : d.entry place with
    | none =>
      refine ⟨fun _ _ => hmade d n hd hentry,fun e he => ?_⟩
      simp [makeDirectory, hentry] at he
    | some entry =>
      refine ⟨fun a ha => ?_,fun _ _ => ?_⟩
      · simp [makeDirectory, hentry] at ha
      · simp only [makeDirectory, hentry]
        exact hP.cut _ (hP.ticked d n hd)
  refine ends_bind (Q := fun identity m => R {m with runtime := bindIdentity place identity m.runtime})
    (ends_of_triple (triple_bind (lstat_triple (made_along place R)) fun found => ?_) fun _ h => h)
    fun identity => ?_
  · refine triple_lift (fun identity m hok hm => ?_) fun m hm => (made_along (w := w) place R).cut m hm.1
    obtain ⟨first,hfirst,hbound⟩ := hm.1.bound
    cases found with
    | error e => cases hok
    | ok entry =>
      cases (hm.2 entry rfl).symm.trans hfirst
      cases hok
      exact hbound m.tick
  · exact ends_bind (Q := fun _ => R) (set_ends fun _ hm => hm) fun _ =>
      ends_of_triple (await_kept hR) fun _ h => h

theorem not_some_of_is_some {identity : Option Identity} (h : identity.isSome = false) :
    identity = none := by
  cases identity with
  | none => rfl
  | some _ => cases h

theorem ne_none_of_is_some {identity : Option Identity} (h : identity.isSome = true) :
    identity ≠ none := Option.isSome_iff_ne_none.mp h

theorem make_directory_made {d : Machine υ Owner} (n : ℕ) (hd : Building true false false false d)
    (hentry : d.entry .directory = none) : Made .directory (Building true true false false)
      {(makeDirectory w .directory d).2 with tick := n} := by
  have hw := hd.whole
  simp only [makeDirectory, hentry]
  refine ⟨hd.unmounted,fun hseen => hseen.1 nofun (not_some_of_is_some hd.directory),_,rfl,fun k => ?_⟩
  exact {hd with whole := {hw with directory := fun _ => rfl, nested := nofun}, directory := rfl}

theorem make_upper_made {d : Machine υ Owner} (n : ℕ) (hd : Building true true false false d)
    (hentry : d.entry .upper = none) : Made .upper (Building true true true false)
      {(makeDirectory w .upper d).2 with tick := n} := by
  have hw := hd.whole
  simp only [makeDirectory, hentry]
  refine ⟨hd.unmounted,fun hseen => hseen.2.1 nofun (not_some_of_is_some hd.upper),_,rfl,fun k => ?_⟩
  refine {hd with upper := rfl, whole := {hw with
    upper := ?_
    nested := fun h => absurd h (ne_none_of_is_some hd.directory)
    lower := fun _ => hd.lower rfl}}
  have hkept : d.runtime.upperRemoved = false := hd.kept
  simp [Fits, bindIdentity, hkept]

theorem make_mountpoint_made {d : Machine υ Owner} (n : ℕ) (hd : Building true true true false d)
    (hentry : d.entry .mountpoint = none) : Made .mountpoint (Building true true true true)
      {(makeDirectory w .mountpoint d).2 with tick := n} := by
  have hw := hd.whole
  have hkernel : d.kernel = none := hw.plain hd.unmounted
  simp only [makeDirectory, hentry]
  refine ⟨hd.unmounted,fun hseen => hseen.2.2 nofun (not_some_of_is_some hd.mountpoint),
    w.fresh d.tick,?_,fun k => ?_⟩
  · simp [Machine.entry, Machine.shown, hkernel]
  refine {hd with mountpoint := rfl, whole := {hw with
    mountpoint := ?_
    nested := fun h => absurd h (ne_none_of_is_some hd.directory)
    mounted := fun mount h => ?_}}
  · have hstanding : d.runtime.mountpointRemoved = false := hd.standing
    simp [Fits, bindIdentity, hstanding]
  · cases hd.unmounted.symm.trans h

theorem prepare_paths_ends : Ends (Building true false false false) (preparePaths w)
    (fun _ => Building true true true true) fun m => Seen m → Whole m := by
  refine ends_bind (prepare_place_ends (building_along false) (building_along false)
    fun d n hd => make_directory_made n hd) fun _ => ?_
  refine ends_bind (prepare_place_ends (building_along false) (building_along false)
    fun d n hd => make_upper_made n hd) fun _ => ?_
  refine ends_bind (prepare_place_ends (building_along false) (building_along false)
    fun d n hd => make_mountpoint_made n hd) fun _ => ?_
  exact ends_of_triple (triple_bind (check_private_paths_kept (building_along false)) fun _ =>
    check_retired_mountpoint_kept (building_along false)) fun _ h => h

/-- The mount stands over the recorded mountpoint. -/
def Standing (m : Machine υ Owner) : Prop :=
  Whole m ∧ m.runtime.mountpointRemoved = false ∧ m.runtime.mount ≠ none

theorem standing_along (paused : Bool) : Along w paused Standing fun m => Seen m → Whole m := by
  refine ⟨fun m hm => ⟨(whole_along paused).disturbed m hm.1,?_,?_⟩,
    fun m n hm => ⟨(whole_along (w := w) paused).ticked m n hm.1,hm.2⟩,fun _ hm _ => hm.1⟩
  · have hkept : Kept m (disturb w paused m) := disturb_kept paused
    exact hkept.mountpointRemoved.trans hm.2.1
  · obtain ⟨mount,hmount⟩ := Option.ne_none_iff_exists'.mp hm.2.2
    rw [disturb, hmount]
    exact Option.some_ne_none _

theorem prepare_mount_ends : Ends (Building true true true true) (prepareMount w)
    (fun _ => Standing) fun m => Seen m → Whole m := by
  have halong : Along w false (Building true true true true) fun m => Seen m → Whole m :=
    building_along false
  refine ends_of_triple (triple_bind (await_kept halong) fun _ => ?_) fun _ h => h
  refine triple_bind (Q := fun identity m => Building true true true true m ∧
    m.runtime.mountpointIdentity = some identity) (triple_bind (lstat_triple halong) fun found => ?_)
    fun identity => ?_
  · refine triple_lift (fun identity m hok hm => ⟨hm.1,?_⟩) fun m hm => halong.cut m hm.1
    have hw := hm.1.whole
    have hfits := hw.mountpoint
    rw [hm.1.standing] at hfits
    cases found with
    | error e => cases hok
    | ok entry =>
      have hentry : m.mountpoint = entry := by
        have hshown := hm.2 entry rfl
        rw [Machine.entry, Machine.shown, hw.plain hm.1.unmounted] at hshown
        exact hshown
      rw [← hentry, hfits] at hok
      cases hidentity : m.runtime.mountpointIdentity with
      | none =>
        rw [hidentity] at hok
        cases hok
      | some first =>
        rw [hidentity] at hok
        cases hok
        rfl
  · have hboth : Along w false (fun m => Building true true true true m ∧
        m.runtime.mountpointIdentity = some identity) fun m => Seen m → Whole m := by
      refine ⟨fun m hm => ⟨halong.disturbed m hm.1,?_⟩,fun m n hm => ⟨halong.ticked m n hm.1,hm.2⟩,
        fun m hm => halong.cut m hm.1⟩
      rw [disturb, hm.1.unmounted]
      exact hm.2
    refine triple_bind (await_kept hboth) fun _ => set_runtime_triple (fun m hm => ?_)
      (standing_along (w := w) false).cut
    have hw := hm.1.whole
    refine ⟨{hw with plain := fun hnone => (by cases hnone), mounted := ?_},hm.1.standing,
      Option.some_ne_none _⟩
    rintro _ ⟨⟩
    refine ⟨hm.2,hm.1.lower rfl,fun hsome => ?_,fun hgone => ?_⟩
    · exact absurd (hw.plain hm.1.unmounted) hsome
    · cases hm.1.standing.symm.trans hgone

theorem mount_kept : Keeps (Kept s) (mount w) := by
  refine triple_bind (runtime_kept fun _ hs => hs) fun r => ?_
  cases r.mount with
  | none => exact pure_kept fun _ hs => hs
  | some current =>
    dsimp only
    split_ifs
    · exact lift_kept fun _ hs => hs
    · exact pure_kept fun _ hs => hs
    · refine triple_bind (perform_kept (kept_along s false) fun d hd => ?_) fun _ =>
        perform_kept (kept_along s false) fun d hd => ?_
      · unfold nativeMount
        split
        · exact hd.trans (by constructor <;> rfl)
        · exact hd
      · unfold recordIdentity
        split
        · exact hd.trans (by constructor <;> rfl)
        · exact hd

theorem mount_whole : Triple Standing (mount w) (fun _ => Whole) Whole := by
  have hpasses : ∀ s t, Standing s → Passes (mount w) s t → Whole t := by
    intro s t hs ht
    obtain ⟨mount,hmount⟩ := Option.ne_none_iff_exists'.mp hs.2.2
    have howed : Is Owed s := hs.1.is_owed hmount hs.2.1
    rcases mount_cases howed with hsame | ⟨-,hall,-⟩
    · rw [hsame t ht]
      exact hs.1
    · have hkept : Kept s t := (mount_kept s (Kept.refl s)).2 t ht
      exact hs.1.of_is hkept hmount hs.2.1 (hall t ht)
  exact fun s hs => ⟨fun _ t ht => hpasses s t hs ht.passes,fun t ht => hpasses s t hs ht⟩

theorem unused_building (hs : Unused s) :
    Building false false false false {s with listed := true, runtime := Runtime.new} :=
  ⟨⟨fun _ => hs.directory,hs.upper,hs.mountpoint,fun _ => ⟨rfl,rfl⟩,fun h => absurd rfl h,
    fun _ => hs.kernel,nofun,nofun⟩,rfl,rfl,rfl,rfl,nofun,rfl,rfl,rfl⟩

/-- Before the store is bound the cache holds nothing. -/
def Unbound (m : Machine υ Owner) : Prop :=
  Building false false false false m ∧ m.cache = .none ∧ m.runtime.store = false

theorem Building.set {lower' : Bool} (hm : Building lower false false false m) {r : Runtime}
    (hmount : r.mount = m.runtime.mount) (hremoved : r.upperRemoved = m.runtime.upperRemoved)
    (hstanding : r.mountpointRemoved = m.runtime.mountpointRemoved)
    (hdirectory : r.directoryIdentity = m.runtime.directoryIdentity)
    (hupper : r.upperIdentity = m.runtime.upperIdentity)
    (hpoint : r.mountpointIdentity = m.runtime.mountpointIdentity)
    (hlower : lower' = true → r.lower = true) (howner : r.store = true → Bound m.cache) :
    Building lower' false false false {m with runtime := r} := by
  have hw := hm.whole
  refine ⟨⟨?_,?_,?_,?_,?_,?_,?_,howner⟩,hm.listed,?_,?_,?_,hlower,?_,?_,?_⟩
  · rw [hdirectory]
    exact hw.directory
  · rw [hupper, hremoved]
    exact hw.upper
  · rw [hpoint, hstanding]
    exact hw.mountpoint
  · rw [hdirectory, hupper, hpoint]
    exact hw.nested
  · rw [hupper]
    exact fun h => absurd (not_some_of_is_some hm.upper) h
  · exact fun _ => hw.plain hm.unmounted
  · intro mount h
    cases (hmount.trans hm.unmounted).symm.trans h
  · exact hmount.trans hm.unmounted
  · exact hremoved.trans hm.kept
  · exact hstanding.trans hm.standing
  · rw [hdirectory]
    exact hm.directory
  · rw [hupper]
    exact hm.upper
  · rw [hpoint]
    exact hm.mountpoint

theorem unbound_along : Along w false Unbound fun m => Seen m → Whole m := by
  have hb : Along w false (Building false false false false) fun m => Seen m → Whole m :=
    building_along false
  refine ⟨fun m hm => ?_,fun m n hm => ⟨hb.ticked m n hm.1,hm.2⟩,fun m hm => hb.cut m hm.1⟩
  rw [disturb, hm.1.unmounted]
  exact hm

theorem prepare_store_ends (hw : Served w fault) : Ends Unbound (prepareStore w)
    (fun _ => Building false false false false) fun m => Seen m → Whole m := by
  refine ends_of_triple (triple_bind (Q := fun _ m => Building false false false false m ∧
    Bound m.cache) (conclude_triple unbound_along fun d n hd => ?_) fun _ => ?_) fun _ h => h
  · have hwhole : Whole {(cacheCall w.bind d).2 with tick := n} := by
      have hold := hd.1.whole
      refine {hold with owner := fun hstore => ?_}
      cases hd.2.2.symm.trans hstore
    refine ⟨fun _ => hwhole,fun a hok => ⟨{hd.1 with whole := hwhole},?_⟩⟩
    simp only [cacheCall, hw.bind, hd.2.1, ran] at hok ⊢
    cases hresult : (openWorkspace (fault d.tick) .none).result with
    | error e =>
      rw [hresult] at hok
      cases hok
    | ok b => exact open_bound ⟨hresult,rfl⟩
  · refine set_runtime_triple (fun m hm => ?_) (building_along (w := w) false).cut
    exact hm.1.set rfl rfl rfl rfl rfl rfl (fun h => by cases h) fun _ => hm.2

theorem prepare_ends (hw : Served w fault) {full : Bool} :
    Ends Unbound (prepare w full) (fun _ => Whole) fun m => Seen m → Whole m := by
  have hself : ∀ m : Machine υ Owner, (Seen m → Whole m) → Seen m → Whole m := fun _ h => h
  have hlate : ∀ m : Machine υ Owner, Whole m → Seen m → Whole m := fun _ h _ => h
  refine ends_bind (ends_of_triple (await_kept unbound_along) hself) fun _ => ?_
  refine ends_bind (ends_of_triple (await_kept unbound_along) hself) fun _ => ?_
  refine ends_bind (Q := fun _ => Unbound) (set_ends fun m hm => ⟨?_,hm.2⟩) fun _ => ?_
  · refine hm.1.set rfl rfl rfl rfl rfl rfl (fun h => by cases h) fun hstore => ?_
    cases hm.2.2.symm.trans hstore
  refine ends_bind (prepare_store_ends hw) fun _ => ?_
  refine ends_bind (ends_of_triple (await_kept (building_along false)) hself) fun _ => ?_
  refine ends_bind (Q := fun _ => Building true false false false) (set_ends fun m hm =>
    hm.set rfl rfl rfl rfl rfl rfl (fun _ => rfl) hm.whole.owner) fun _ => ?_
  refine ends_bind prepare_paths_ends fun _ => ends_bind prepare_mount_ends fun _ => ?_
  refine ends_bind (ends_of_triple (check_private_paths_kept (standing_along false)) hself) fun _ => ?_
  refine ends_bind (ends_of_triple (check_retired_mountpoint_kept (standing_along false)) hself)
    fun _ => ?_
  refine ends_bind (ends_of_triple mount_whole hlate) fun _ => ?_
  refine ends_bind (ends_of_triple (check_private_paths_kept (whole_along false)) hlate) fun _ => ?_
  exact ends_of_triple (set_whole (fun _ h => h)
    (fun _ => by constructor <;> rfl) fun _ => rfl) hlate

/-- A creation that has ended, well or badly. -/
theorem create_whole (hw : Served w fault) (hs : Unused s) {full : Bool}
    (hseen : Seen (create w full s).last) : Whole (create w full s).last := by
  have hinsert : Ends Unused (insertEntry : Op υ Owner Unit) (fun _ => Unbound)
      fun m => Seen m → Whole m := by
    intro m hm
    refine ⟨?_,fun e t h => ?_⟩
    · rintro _ t ⟨-,rfl⟩
      exact ⟨unused_building hm,hm.cache,rfl⟩
    · cases h.1
  refine ends_last (m := create w full)
    (ends_bind hinsert fun _ => ends_bind (ends_attempt (prepare_ends hw)) ?_) hs hseen
  rintro (e | _)
  · refine ends_bind (Q := fun _ m => Seen m → Whole m) (set_ends fun m hm hseen => ?_) fun _ => ?_
    · exact (hm hseen).fence (by constructor <;> rfl) rfl
        (fun mount h => ⟨mount,h,rfl⟩) fun h => h
    · exact ends_of_triple (lift_kept fun _ h => h) fun _ h => h
  · exact ends_of_triple (C := Whole) (triple_pure (fun _ hs _ => hs) fun _ hs => hs) fun _ h _ => h

end Building

/-! ## Runs of complete operations -/

/-- Mutations, a hydration with its pin, and calls that run to their end. -/
inductive Turn : Machine υ Owner → Machine υ Owner → Prop where
  | mutated {w : World υ Owner} {s : Machine υ Owner} : Turn s (disturb w false s)
  | hydrated {s : Machine υ Owner} (b pinned : Bool) : Turn s {s with
      runtime := {s.runtime with hydrate := b}
      cache := {s.cache with pinned := pinned}}
  | observed {w : World υ Owner} {s : Machine υ Owner} : Turn s (observe w s).last
  | shut {w : World υ Owner} {s : Machine υ Owner} : Turn s (shutdown w s).last
  | destroyed {w : World υ Owner} {fault : ℕ → Stage → Option String} {s : Machine υ Owner}
      {discard : Bool} (hw : Served w fault) : Turn s (destroy w discard s).last

theorem observe_whole : Triple (Whole (υ := υ)) (observe w) (fun _ => Whole) Whole := by
  refine triple_bind (Q := fun _ => Whole) (fun s hs => ⟨?_,fun t ht => ?_⟩) fun _ => ?_
  · rintro a t ⟨-,rfl⟩
    exact hs
  · rw [passes_ask.mp ht]
    exact hs
  refine triple_bind (runtime_kept fun _ hs => hs) fun r => ?_
  split_ifs
  · exact pure_kept fun _ hs => hs
  · refine triple_bind (triple_attempt (dirty_kept whole_along fun _ h => scan_whole h)) ?_
    rintro (e | state)
    · exact triple_bind (set_whole (fun _ h => h)
        (fun _ => by constructor <;> rfl) fun _ => rfl) fun _ =>
          pure_kept fun _ hs => hs
    · exact pure_kept fun _ hs => hs

theorem shutdown_whole : Triple (Whole (υ := υ)) (shutdown w) (fun _ => Whole) Whole := by
  refine triple_bind reconcile_whole fun _ => ?_
  refine triple_bind (check_private_paths_kept (whole_along false)) fun _ => ?_
  refine triple_bind unmount_observed_whole fun _ => ?_
  exact set_whole (fun _ h => h.1)
    (fun _ => by constructor <;> rfl) fun _ => rfl

theorem turn_whole (hs : Whole s) (hturn : Turn s t) : Whole t := by
  cases hturn with
  | mutated => exact (whole_along false).disturbed s hs
  | hydrated b pinned =>
    exact ⟨hs.directory,hs.upper,hs.mountpoint,hs.nested,hs.lower,hs.plain,hs.mounted,fun hstore =>
      ⟨(hs.owner hstore).record,(hs.owner hstore).registration,(hs.owner hstore).revocation,
        (hs.owner hstore).use⟩⟩
  | observed => exact (observe_whole s hs).2 _ (.inr rfl)
  | shut => exact (shutdown_whole s hs).2 _ (.inr rfl)
  | destroyed hw => exact ends_last (destroy_whole hw) hs

/-- What a creation and complete operations after it can reach. -/
structure Reached (s : Machine υ Owner) : Prop where
  run : ∃ (w : World υ Owner) (fault : ℕ → Stage → Option String) (full : Bool) (b : Machine υ Owner),
    Unused b ∧ Served w fault ∧ Seen (create w full b).last ∧
      Relation.ReflTransGen Turn (create w full b).last s

theorem Reached.whole (hs : Reached s) : Whole s := by
  obtain ⟨w,fault,full,b,hb,hw,hseen,hrun⟩ := hs.run
  clear hs
  induction hrun with
  | refl => exact create_whole hw hb hseen
  | tail _ hturn ih => exact turn_whole ih hturn

/-! ## Stranded mounts -/

theorem unrecorded_of_not_shown (hs : Whole s) (h : ¬ Shown s) : Unrecorded s := by
  simp only [Shown, Known, not_forall, not_or] at h
  obtain ⟨mount,hmount,identity,hkernel,hplain,hmounted⟩ := h
  have howed := (hs.mounted mount hmount).2.2.1
  exact ⟨mount,identity,hmount,hkernel,(howed (by rw [hkernel]; exact Option.some_ne_none _)).1,
    hplain,hmounted⟩

/-- Nothing before the unmount changes what the mountpoint shows or the mount knows. -/
theorem Unrecorded.of_bare (hs : Unrecorded s) (hkernel : t.kernel = s.kernel)
    (hmount : ∀ mount, s.runtime.mount = some mount → ∃ mount', t.runtime.mount = some mount' ∧
      mount'.bare = mount.bare) : Unrecorded t := by
  obtain ⟨mount,identity,hsome,hshown,hretired,hplain,hmounted⟩ := hs
  obtain ⟨mount',hsome',hbare⟩ := hmount mount hsome
  have hr : mount'.bare.retired = mount.bare.retired := by rw [hbare]
  have hp : mount'.bare.plainIdentity = mount.bare.plainIdentity := by rw [hbare]
  have hm : mount'.bare.mountedIdentity = mount.bare.mountedIdentity := by rw [hbare]
  exact ⟨mount',identity,hsome',hkernel.trans hshown,hr.trans hretired,fun h => hplain (h.trans hp),
    fun h => hmounted (h.trans hm)⟩

theorem unrecorded_along (paused : Bool) :
    Along w paused (Unrecorded (κ := Owner)) fun _ => True := by
  refine ⟨fun m hm => ?_,fun m n hm => hm,fun _ _ => trivial⟩
  obtain ⟨mount,_,hmount,-⟩ := id hm
  refine hm.of_bare ?_ fun other hother => ?_
  · rw [disturb, hmount]
    rfl
  · cases hmount.symm.trans hother
    rw [disturb, hmount]
    exact ⟨_,rfl,rfl⟩

theorem close_unrecorded (hm : Unrecorded m) : Unrecorded (closeFence m).2 := by
  unfold closeFence
  split
  · next mount hmount =>
    split_ifs
    · exact hm
    · refine hm.of_bare rfl fun other hother => ?_
      cases hmount.symm.trans hother
      exact ⟨_,rfl,rfl⟩
  · exact hm

theorem scan_unrecorded (hm : Unrecorded m) : Unrecorded (scanUpper w m).2 := by
  unfold scanUpper
  split <;> exact hm

theorem not_returns_of_unrecorded (hw : Calm w) (hs : Unrecorded s) {discard : Bool} :
    ¬ Returns (destroy w discard) s () t := by
  intro h
  have hset : ∀ g : Runtime → Runtime, (∀ r, (g r).mount = r.mount) →
      ∀ m : Machine υ Owner, Unrecorded m → Unrecorded {m with runtime := g m.runtime} := by
    intro g hg m hm
    exact hm.of_bare rfl fun mount hmount => ⟨mount,(hg _).trans hmount,rfl⟩
  obtain ⟨_,_,⟨-,rfl⟩,h⟩ := returns_bind.mp h
  obtain ⟨_,_,h,-⟩ := returns_bind.mp h
  obtain ⟨_,a,ha,h⟩ := returns_bind.mp h
  have hsa := (check_private_paths_kept (unrecorded_along false) s hs).1 _ a ha
  obtain ⟨_,b,hb,h⟩ := returns_bind.mp h
  have hsb := (first_check_kept unrecorded_along (fun _ h => scan_unrecorded h)
    (fun _ h => close_unrecorded h) a hsa).1 _ b hb
  obtain ⟨_,c,hc,h⟩ := returns_bind.mp h
  have hsc : Unrecorded c := by
    obtain ⟨_,_,hawait,hflag⟩ := returns_bind.mp hc
    obtain ⟨-,rfl⟩ := hflag
    exact hset _ (fun _ => rfl) _ ((await_kept (unrecorded_along false) b hsb).1 _ _ hawait)
  obtain ⟨_,e,he,h⟩ := returns_bind.mp h
  have hse : Unrecorded e := by
    obtain ⟨-,rfl⟩ := he
    exact hset (fun r => {r with mountState := .retiring}) (fun _ => rfl) c hsc
  obtain ⟨_,d,hd,-⟩ := returns_bind.mp h
  exact (unmount_observed_returns hd).not_fails (unmount_refused hw hse).1

/-! ## The destruction of a workspace -/

theorem destroy_settles_iff (hw : Served w fault) {discard : Bool}
    (h : Returns (destroy w discard) s () t) :
    Settled t.cache ↔ s.runtime.store = true ∨ Settled s.cache := by
  obtain ⟨-,hnone,hsome⟩ := destroy_returns h
  cases hstore : s.runtime.store with
  | false =>
    rw [hnone hstore]
    simp
  | true =>
    obtain ⟨n,c,hok,hcache⟩ := hsome hstore
    rw [hcache]
    rw [hw.retire] at hok ⊢
    simp only [true_or, iff_true]
    exact retire_settles ⟨hok,rfl⟩

/-- A world whose steps work, with failures in the cache. -/
def storing (fault : Stage → Option String) : World Unit Owner where
  fault := fun _ => none
  fresh := fun n => ⟨1,n⟩
  session := fun _ => ⟨52,1⟩
  mutations := fun _ => []
  unknown := fun _ => false
  recovery := fun _ layer => layer
  gone := fun _ => false
  scan := fun _ _ => .ok true
  remains := fun _ layer => layer
  bind := fun _ => ran (openWorkspace fault)
  release := fun _ => ran (releaseLocalPin fault)
  retire := fun _ => ran (retireCacheUse fault)

theorem storing_served (fault : Stage → Option String) : Served (storing fault) fun _ => fault :=
  ⟨rfl,rfl,rfl⟩

theorem storing_working : Working (storing fun _ => none) :=
  ⟨⟨fun _ => rfl,fun _ => rfl⟩,fun _ _ => ⟨true,rfl⟩,storing_served _⟩

def unused : Machine Unit Owner where
  listed := false
  runtime := Runtime.new
  directory := none
  upper := none
  mountpoint := none
  kernel := none
  layer := ()
  cache := .none
  tick := 0
  log := []
  discarded := []

theorem unused_unused : Unused unused := ⟨rfl,rfl,rfl,rfl,rfl⟩

/-- The use record of the owner cannot be written. -/
def exhausted (stage : Stage) : Option String :=
  if stage = .use then some "managed cache byte capacity exhausted" else none

def halfBound : Machine Unit Owner := (create (storing exhausted) false unused).last

def abandoned : Machine Unit Owner := (destroy (storing fun _ => none) true halfBound).last

def established : Machine Unit Owner := (create (storing fun _ => none) false unused).last

theorem established_reached : Reached established := by
  refine ⟨storing fun _ => none,_,false,unused,unused_unused,storing_served _,?_,.refl⟩
  exact ⟨fun _ => nofun,fun _ => nofun,fun _ => nofun⟩

end Scorpio.Workspace
