import Scorpio.Workspace.DestroySafe

/-!
# Runs of a workspace

A workspace is created once under a new id. After that its status is asked for, it is
destroyed without discard, again and again, or shut down, and native mutations go on
between the calls. Every call can fail or be cut at every step. What a removal starts
on adds nothing to the lower, and a call that finds edits, or cannot tell, leaves the
upper where it is.
-/

set_option autoImplicit false

namespace Scorpio.Workspace

open CrashLogic

variable {υ κ : Type} {Clean : υ → Prop} {w : World υ κ} {s t m : Machine υ κ}

/-! ## Creation -/

/-- Nothing is there yet. -/
structure Blank (m : Machine υ κ) : Prop where
  runtime : m.runtime = Runtime.new
  upper : m.upper = none
  log : m.log = []
  discarded : m.discarded = []

/-- The preparation before the native mount. -/
def Preparing (Clean : υ → Prop) (lower bound : Bool) (m : Machine υ κ) : Prop :=
  Safe Clean m ∧ m.runtime.mount = none ∧ m.runtime.upperRemoved = false ∧
    (lower = true → m.runtime.lower = true) ∧
    (bound = true → m.runtime.directoryIdentity ≠ none)

theorem preparing_along (lower bound paused : Bool) :
    Along w paused (Preparing Clean lower bound) (Safe Clean) := by
  refine ⟨fun m h => ?_,fun _ n h => ⟨h.1.tick n,h.2⟩,fun _ h => h.1⟩
  rw [disturb, h.2.1]
  exact h

theorem blank_preparing (hs : Blank s) :
    Preparing Clean false false {s with listed := true, runtime := Runtime.new} := by
  refine ⟨?_,rfl,rfl,nofun,nofun⟩
  exact {
    unmounted := fun _ => by simp [hs.log]
    lower := fun h => absurd rfl h
    fenced := fun _ h => by cases h
    retired := fun _ h => by cases h
    removed := fun h => by cases h
    absent := fun _ => hs.upper
    ordered := fun a b h => by simp [hs.log] at h
    discarded := fun u hu => by simp [hs.discarded] at hu}

/-- What the preparation writes into the runtime before there is a mount. -/
theorem Preparing.set {lower bound lower' bound' : Bool} (hm : Preparing Clean lower bound m)
    {r : Runtime} (hmount : r.mount = none) (hremoved : r.upperRemoved = false)
    (hdirectory : r.directoryIdentity = none → m.runtime.directoryIdentity = none)
    (hlower : lower' = true → r.lower = true)
    (hbound : bound' = true → r.directoryIdentity ≠ none) :
    Preparing Clean lower' bound' {m with runtime := r} := by
  have hs := hm.1
  refine ⟨⟨fun _ => hs.unmounted hm.2.1,fun h => absurd hmount h,fun mount h => ?_,fun mount h => ?_,
    fun h => ?_,fun h => hs.absent (hdirectory h),hs.ordered,hs.discarded⟩,hmount,hremoved,hlower,hbound⟩
  · cases hmount.symm.trans h
  · cases hmount.symm.trans h
  · cases hremoved.symm.trans h

theorem prepare_place_triple {P P' : Machine υ κ → Prop} {place : Place}
    (hP : Along w false P (Safe Clean)) (hP' : Along w false P' (Safe Clean))
    (hmake : ∀ d, P d → P (makeDirectory w place d).2)
    (hbind : ∀ m identity, P m → P' {m with runtime := bindIdentity place identity m.runtime}) :
    Triple P (preparePlace w place) (fun _ => P') (Safe Clean) := by
  refine triple_bind (perform_kept hP hmake) fun _ => ?_
  refine triple_bind (triple_bind (lstat_kept hP) fun _ => lift_kept hP.cut) fun identity => ?_
  exact triple_bind (set_runtime_triple (fun m hm => hbind m identity hm) hP'.cut) fun _ =>
    await_kept hP'

/-- A new directory elsewhere is not looked at; a new upper needs the recorded directory. -/
theorem make_directory_preparing {lower bound : Bool} {place : Place}
    (hplace : place = .upper → bound = true) (hm : Preparing Clean lower bound m) :
    Preparing Clean lower bound (makeDirectory w place m).2 := by
  obtain ⟨hs,hmount,hremoved,hlower,hbound⟩ := id hm
  unfold makeDirectory
  split
  · exact hm
  · cases place with
    | directory => exact ⟨hs.same rfl rfl rfl rfl rfl rfl rfl,hmount,hremoved,hlower,hbound⟩
    | mountpoint => exact ⟨hs.same rfl rfl rfl rfl rfl rfl rfl,hmount,hremoved,hlower,hbound⟩
    | upper =>
      refine ⟨⟨hs.unmounted,hs.lower,hs.fenced,hs.retired,fun h => ?_,fun h => ?_,hs.ordered,
        hs.discarded⟩,hmount,hremoved,hlower,hbound⟩
      · cases hremoved.symm.trans h
      · exact absurd h (hbound (hplace rfl))

theorem prepare_paths_triple : Triple (Preparing Clean true false) (preparePaths w)
    (fun _ => Preparing Clean true true) (Safe Clean) := by
  have hkeep : ∀ (place : Place), place ≠ .directory → ∀ (m : Machine υ κ) identity,
      Preparing Clean true true m →
      Preparing Clean true true {m with runtime := bindIdentity place identity m.runtime} := by
    intro place hplace m identity hm
    cases place with
    | directory => exact absurd rfl hplace
    | upper => exact hm.set hm.2.1 hm.2.2.1 (fun h => h) hm.2.2.2.1 hm.2.2.2.2
    | mountpoint => exact hm.set hm.2.1 hm.2.2.1 (fun h => h) hm.2.2.2.1 hm.2.2.2.2
  refine triple_bind (prepare_place_triple (preparing_along true false false)
    (preparing_along true true false) (fun _ hd => make_directory_preparing (fun h => by cases h) hd)
    fun m identity hm => ?_) fun _ => ?_
  · exact hm.set hm.2.1 hm.2.2.1 (fun h => by cases h) hm.2.2.2.1 fun _ h => by cases h
  refine triple_bind (prepare_place_triple (preparing_along true true false)
    (preparing_along true true false) (fun _ hd => make_directory_preparing (fun _ => rfl) hd)
    (hkeep .upper (by decide))) fun _ => ?_
  refine triple_bind (prepare_place_triple (preparing_along true true false)
    (preparing_along true true false) (fun _ hd => make_directory_preparing (fun _ => rfl) hd)
    (hkeep .mountpoint (by decide))) fun _ => ?_
  exact triple_bind (check_private_paths_kept (preparing_along true true false)) fun _ =>
    check_retired_mountpoint_kept (preparing_along true true false)

theorem prepare_mount_triple :
    Triple (Preparing Clean true true) (prepareMount w) (fun _ => Safe Clean) (Safe Clean) := by
  have hP : Along w false (Preparing Clean true true) (Safe Clean) := preparing_along true true false
  refine triple_bind (await_kept hP) fun _ => ?_
  refine triple_bind (triple_bind (lstat_kept hP) fun _ => lift_kept hP.cut) fun identity => ?_
  refine triple_bind (await_kept hP) fun _ => ?_
  refine set_runtime_triple ?_ fun _ h => h
  rintro m ⟨hs,hnone,hremoved,hlower,hbound⟩
  refine ⟨nofun,fun _ => hlower rfl,?_,?_,fun h => ?_,hs.absent,hs.ordered,hs.discarded⟩
  · rintro _ ⟨⟩ h
    cases h
  · rintro _ ⟨⟩ h
    cases h
  · cases hremoved.symm.trans h

theorem native_mount_safe (hm : Safe Clean m) : Safe Clean (nativeMount w m).2 := by
  unfold nativeMount
  split
  · next mount hmount =>
    have hhandle : Safe Clean (m.setMount {mount with handle := true}) := hm.remount hmount rfl rfl
    exact hhandle.same rfl rfl rfl rfl rfl rfl rfl
  · exact hm

theorem record_identity_safe (hm : Safe Clean m) : Safe Clean (recordIdentity m).2 := by
  unfold recordIdentity
  split
  · next mount identity hmount _ => exact hm.remount hmount rfl rfl
  · exact hm

theorem mount_safe : Keeps (Safe Clean) (mount w) := by
  refine triple_bind (runtime_kept fun _ hs => hs) fun r => ?_
  cases r.mount with
  | none => exact pure_kept fun _ hs => hs
  | some current =>
    dsimp only
    split_ifs
    · exact lift_kept fun _ hs => hs
    · exact pure_kept fun _ hs => hs
    · exact triple_bind (perform_kept (safe_along false) fun _ hd => native_mount_safe hd) fun _ =>
        perform_kept (safe_along false) fun _ hd => record_identity_safe hd

theorem prepare_triple {full : Bool} :
    Triple (Preparing Clean false false) (prepare w full) (fun _ => Safe Clean) (Safe Clean) := by
  have hP : Along w false (Preparing Clean false false) (Safe Clean) := preparing_along false false false
  have hset : ∀ g : Runtime → Runtime, (∀ r, (g r).mount = r.mount) →
      (∀ r, (g r).upperRemoved = r.upperRemoved) →
      (∀ r, (g r).directoryIdentity = r.directoryIdentity) →
      Triple (Preparing Clean false false) (setRuntime g : Op υ κ Unit)
        (fun _ => Preparing Clean false false) (Safe Clean) := by
    intro g hmount hremoved hdirectory
    refine set_runtime_triple (fun m hm => hm.set ?_ ?_ ?_ (fun h => by cases h) fun h => by cases h)
      hP.cut
    · rw [hmount]
      exact hm.2.1
    · rw [hremoved]
      exact hm.2.2.1
    · rw [hdirectory]
      exact fun h => h
  refine triple_bind (await_kept hP) fun _ => triple_bind (await_kept hP) fun _ => ?_
  refine triple_bind (hset _ (fun _ => rfl) (fun _ => rfl) fun _ => rfl) fun _ => ?_
  refine triple_bind (triple_bind (conclude_kept hP fun d hd =>
    ⟨hd.1.same rfl rfl rfl rfl rfl rfl rfl,hd.2⟩) fun _ =>
      hset _ (fun _ => rfl) (fun _ => rfl) fun _ => rfl) fun _ => ?_
  refine triple_bind (await_kept hP) fun _ => ?_
  refine triple_bind (set_runtime_triple (R := Preparing Clean true false) (fun m hm =>
    hm.set hm.2.1 hm.2.2.1 (fun h => h) (fun _ => rfl) fun h => by cases h) fun _ h => h.1) fun _ => ?_
  refine triple_bind prepare_paths_triple fun _ => triple_bind prepare_mount_triple fun _ => ?_
  refine triple_bind (check_private_paths_kept (safe_along false)) fun _ => ?_
  refine triple_bind (check_retired_mountpoint_kept (safe_along false)) fun _ => ?_
  refine triple_bind mount_safe fun _ => ?_
  refine triple_bind (check_private_paths_kept (safe_along false)) fun _ => ?_
  exact set_runtime_triple (fun _ hm => hm.same rfl rfl rfl rfl rfl rfl rfl) fun _ h => h

theorem create_safe {full : Bool} (hs : Blank s) (ht : Passes (create w full) s t) : Safe Clean t := by
  have hlisted : Preparing Clean false false _ := blank_preparing hs
  rcases passes_bind ht with ht | ⟨a,u,⟨-,rfl⟩,ht⟩
  · rcases ht with ht | rfl
    · cases ht
    · exact hlisted.1
  · refine ((triple_bind (triple_attempt prepare_triple) ?_ :
      Triple (Preparing Clean false false) _ (fun _ => Safe Clean) (Safe Clean)) _ hlisted).2 t ht
    rintro (e | _)
    · refine triple_bind (set_runtime_triple (R := Safe Clean)
        (fun _ hm => hm.same rfl rfl rfl rfl rfl rfl rfl) fun _ h => h) fun _ => ?_
      exact lift_kept fun _ hs => hs
    · exact pure_kept fun _ hs => hs

/-! ## What allows a removal -/

/-- The first scan was clean, inside a pause that ended in the sealing when there is a mount. -/
def FirstClean (w : World υ κ) (a b : Machine υ κ) : Prop :=
  if a.runtime.lower && a.runtime.mount.isSome then
    ∃ c d, Returns (pause w) a () c ∧ Returns (scanFenced w a.runtime) c .clean d ∧
      Returns (sealPause w) d () b
  else Returns (dirty w) a .clean b

/-- One call has found no edit before and after a complete unmount, and the fence was certain to
the end of the last scan. -/
def Permitted (w : World υ κ) (s : Machine υ κ) : Prop :=
  ∃ a b c d e f, Returns (checkPrivatePaths w false) s () a ∧ FirstClean w a b ∧
    Returns (reconcileHydrate w) b () c ∧
    Returns (unmount w) {c with runtime := {c.runtime with mountState := .retiring}} () d ∧
    Returns (checkPrivatePaths w false)
      {d with runtime := {d.runtime with mountState := .unmounted}} () e ∧
    Returns (dirtyInner w) e .clean f ∧ (e.runtime.upperRemoved = false → Certain f)

theorem refuse_dirty_ok {state : DirtyState} {a : Unit} (h : refuseDirty state false = .ok a) :
    state = .clean := by
  cases state with
  | clean => rfl
  | dirty => cases h
  | unknown => cases h

theorem certain_ok {message : String} {a : Unit} (hok : (certain message m).1 = .ok a) :
    (certain message m).2 = m ∧ Certain m := by
  unfold certain at hok ⊢
  cases hmount : m.runtime.mount with
  | none =>
    refine ⟨rfl,fun mount h => ?_⟩
    cases hmount.symm.trans h
  | some found =>
    refine ⟨rfl,fun mount h => ?_⟩
    cases hmount.symm.trans h
    simp only [hmount] at hok
    split_ifs at hok with huncertain
    simpa using huncertain

theorem certain_returns {paused : Bool} {message : String} {a : Unit}
    (h : Returns (perform w paused (certain message)) s a t) : Certain t := by
  have htriple : Triple (fun _ => True) (perform w paused (certain message)) (fun _ => Certain)
      (fun _ => True) := by
    refine perform_triple ⟨fun _ h => h,fun _ _ h => h,fun _ h => h⟩ fun d n _ => ⟨trivial,?_⟩
    intro a hok
    obtain ⟨hsame,hcertain⟩ := certain_ok hok
    rw [hsame]
    exact hcertain
  exact (htriple s trivial).1 a t h

theorem first_check_returns (h : Returns (firstCheck w false) s () t) : FirstClean w s t := by
  obtain ⟨r,u,⟨hr,rfl⟩,h⟩ := returns_bind.mp h
  cases hr
  unfold FirstClean
  split_ifs at h ⊢
  · obtain ⟨_,c,hc,h⟩ := returns_bind.mp h
    obtain ⟨state,d,hd,h⟩ := returns_bind.mp h
    obtain ⟨_,_,⟨hok,rfl⟩,h⟩ := returns_bind.mp h
    cases refuse_dirty_ok hok
    exact ⟨c,d,hc,hd,h⟩
  · obtain ⟨state,d,hd,h⟩ := returns_bind.mp h
    obtain ⟨hok,rfl⟩ := returns_lift.mp h
    cases refuse_dirty_ok hok
    exact hd

theorem scan_paused_certain {state : DirtyState} (h : Returns (scanPaused w) s state t) :
    Certain t := by
  obtain ⟨clean,u,-,h⟩ := returns_bind.mp h
  obtain ⟨_,v,hv,h⟩ := returns_bind.mp h
  obtain ⟨-,rfl⟩ := returns_pure.mp h
  exact certain_returns hv

theorem dirty_inner_certain (hs : Safe Clean s) (hkept : s.runtime.upperRemoved = false)
    (h : Returns (dirtyInner w) s .clean t) : Certain t := by
  obtain ⟨r,u,⟨hr,rfl⟩,h⟩ := returns_bind.mp h
  cases hr
  rw [hkept, if_neg (by decide)] at h
  split_ifs at h with hboth
  · obtain ⟨_,u,-,h⟩ := returns_bind.mp h
    exact scan_paused_certain h
  · have hnone : s.runtime.mount = none := by
      by_contra hsome
      exact hboth (by simp [hs.lower hsome, Option.isSome_iff_ne_none, hsome])
    obtain ⟨found,u,⟨-,rfl⟩,h⟩ := returns_bind.mp h
    have hafter : (disturb w false s).runtime.mount = none := by
      rw [disturb, hnone]
      exact hnone
    have hfirst : ∀ n, Certain {disturb w false s with tick := n} := by
      intro n mount hmount
      cases hafter.symm.trans hmount
    split at h
    · obtain ⟨-,rfl⟩ := returns_pure.mp h
      exact hfirst _
    · split_ifs at h
      · exact scan_paused_certain h
      · cases h.1
    · cases h.1

theorem permitted_of_returns (hs : Safe Clean s) (htake : Returns (takeDown w false) s () t)
    (hlast : Returns (lastCheck w false) t () m) : Permitted w s := by
  have hended : Ended Clean t := (take_down_ended s hs).1 () t htake
  obtain ⟨_,a,ha,htake⟩ := returns_bind.mp htake
  obtain ⟨_,b,hb,htake⟩ := returns_bind.mp htake
  obtain ⟨_,c,hc,htake⟩ := returns_bind.mp htake
  obtain ⟨_,_,⟨-,rfl⟩,htake⟩ := returns_bind.mp htake
  obtain ⟨_,d,hd,htake⟩ := returns_bind.mp htake
  obtain ⟨-,rfl⟩ := htake
  obtain ⟨state,_,hdirty,hlast⟩ := returns_bind.mp hlast
  obtain ⟨_,_,⟨hok,rfl⟩,-⟩ := returns_bind.mp hlast
  cases refuse_dirty_ok hok
  obtain ⟨_,e,he,hdirty⟩ := returns_bind.mp hdirty
  obtain ⟨state,f,hf,hdirty⟩ := returns_bind.mp hdirty
  obtain ⟨_,_,-,hdirty⟩ := returns_bind.mp hdirty
  obtain ⟨rfl,-⟩ := returns_pure.mp hdirty
  refine ⟨a,b,c,d,e,f,ha,first_check_returns hb,hc,unmount_observed_returns hd,he,hf,fun hkept => ?_⟩
  have hsafe : Safe Clean e := (check_private_paths_kept (safe_along false) _ hended.1).1 () e he
  exact dirty_inner_certain hsafe hkept hf

theorem destroy_permitted (hs : Safe Clean s) (ht : Passes (destroy w false) s t) :
    t.upper = s.upper ∧ t.discarded = s.discarded ∨ Permitted w s := by
  rcases passes_bind ht with ht | ⟨_,u,⟨-,rfl⟩,ht⟩
  · rw [passes_ask.mp ht]
    exact .inl ⟨rfl,rfl⟩
  rcases passes_bind ht with ht | ⟨_,u,hu,ht⟩
  · have hkept := (take_down_kept s (Kept.refl s)).2 t ht
    exact .inl ⟨hkept.upper,hkept.discarded⟩
  rcases passes_bind ht with ht | ⟨_,v,hv,-⟩
  · have hbefore := (take_down_kept s (Kept.refl s)).1 _ u hu
    obtain ⟨cache,hkept,-⟩ := (last_check_kept u hbefore).2 t ht
    exact .inl ⟨hkept.upper,hkept.discarded⟩
  · exact .inr (permitted_of_returns hs hu hv)

/-! ## Runs -/

/-- A clean scan finds nothing that the lower does not have. -/
def Honest (Clean : υ → Prop) (w : World υ κ) : Prop := ∀ n u, w.scan n u = .ok true → Clean u

/-- What can happen to a workspace: mutations, a hydration, and calls that end or are cut. -/
inductive Deed (Clean : υ → Prop) : Machine υ κ → Machine υ κ → Prop where
  | mutated {w : World υ κ} {s : Machine υ κ} : Deed Clean s (disturb w false s)
  | hydrated {s : Machine υ κ} (b : Bool) :
      Deed Clean s {s with runtime := {s.runtime with hydrate := b}}
  | observed {w : World υ κ} {s t : Machine υ κ} (ht : Passes (observe w) s t) : Deed Clean s t
  | shut {w : World υ κ} {s t : Machine υ κ} (ht : Passes (shutdown w) s t) : Deed Clean s t
  | destroyed {w : World υ κ} {s t : Machine υ κ} (hw : Honest Clean w)
      (ht : Passes (destroy w false) s t) : Deed Clean s t

theorem deed_safe (hs : Safe Clean s) (hdeed : Deed Clean s t) : Safe Clean t := by
  cases hdeed with
  | mutated => exact hs.disturb false
  | hydrated b => exact hs.same rfl rfl rfl rfl rfl rfl rfl
  | observed ht => exact (observe_safe s hs).2 t ht
  | shut ht => exact (shutdown_safe s hs).2 t ht
  | destroyed hw ht => exact (destroy_safe hw s hs).2 t ht

theorem run_safe {full : Bool} {b : Machine υ κ} (hb : Blank b) (hs : Passes (create w full) b s)
    (hrun : Relation.ReflTransGen (Deed Clean) s t) : Safe Clean t := by
  induction hrun with
  | refl => exact create_safe hb hs
  | tail _ hdeed ih => exact deed_safe ih hdeed

/-- In every run a removal starts only on contents that add nothing to the lower, with the clean
scan after the last mutation and the sealing and the retirement in between. A call that does not
find the upper clean twice around a complete unmount, under a certain fence, leaves it. -/
theorem destroy_never_loses_edits {full : Bool} {b : Machine υ κ} (hb : Blank b)
    (hs : Passes (create w full) b s) (hrun : Relation.ReflTransGen (Deed Clean) s t) :
    (∀ u ∈ t.discarded, Clean u) ∧
      (∀ after before, t.log = after ++ .removed :: before → Ordered before) ∧
      ∀ w' t', Passes (destroy w' false) t t' →
        t'.upper = t.upper ∧ t'.discarded = t.discarded ∨ Permitted w' t := by
  have hsafe := run_safe hb hs hrun
  exact ⟨hsafe.discarded,hsafe.ordered,fun _ _ ht => destroy_permitted hsafe ht⟩

/-! ## An edit that is undone -/

/-- A world without failures, whose uppers are lists of edits. -/
def editing (changes : List (List ℕ → List ℕ)) : World (List ℕ) Unit where
  fault := fun _ => none
  fresh := fun n => ⟨1,n⟩
  session := fun _ => ⟨52,1⟩
  mutations := fun _ => changes
  unknown := fun _ => false
  recovery := fun _ layer => layer
  gone := fun _ => false
  scan := fun _ layer => .ok layer.isEmpty
  remains := fun _ layer => layer
  bind := fun _ cache => (.ok (),cache)
  release := fun _ cache => (.ok (),cache)
  retire := fun _ cache => (.ok (),cache)

def emptyMachine : Machine (List ℕ) Unit where
  listed := false
  runtime := Runtime.new
  directory := none
  upper := none
  mountpoint := none
  kernel := none
  layer := []
  cache := ()
  tick := 0
  log := []
  discarded := []

def edited : Machine (List ℕ) Unit :=
  disturb (editing [List.cons 7]) false (create (editing []) false emptyMachine).last

def refused : Machine (List ℕ) Unit := (destroy (editing []) false edited).last

def undone : Machine (List ℕ) Unit :=
  (destroy (editing []) false (disturb (editing [List.tail]) false refused)).last

/-- The edit is refused; when it is undone the workspace goes, and nothing is lost. -/
theorem destroy_refuses_then_removes :
    (destroy (editing []) false edited).result =
        .error ⟨"WORKSPACE_DIRTY","explicit discard_dirty is required"⟩ ∧
      refused.upper = edited.upper ∧ edited.upper ≠ none ∧
      undone.upper = none ∧ undone.discarded = [[]] ∧
      ∀ u ∈ undone.discarded, u = [] := by
  have hw : Honest (fun u => u = []) (editing []) := by
    intro n u h
    exact List.isEmpty_iff.mp (Except.ok.inj h)
  have hrun : Relation.ReflTransGen (Deed fun u => u = [])
      (create (editing []) false emptyMachine).last undone :=
    (((Relation.ReflTransGen.single .mutated).tail (.destroyed hw (.inr rfl))).tail .mutated).tail
      (.destroyed hw (.inr rfl))
  refine ⟨rfl,rfl,by decide,rfl,rfl,?_⟩
  exact (destroy_never_loses_edits ⟨rfl,rfl,rfl,rfl⟩ (.inr rfl) hrun).1

end Scorpio.Workspace
