import Scorpio.Base.Traces
import Scorpio.Retention.Disk

/-!
# A cancelled hydration and a release

A workspace has at most one hydration task. The task starts blocking jobs and waits for
them, and an abort drops it where it waits, while its jobs go on to their end. A release,
by itself or in `destroy`, holds the runtime of the workspace: it aborts and joins the
task, takes the transaction of the owner, removes the completion marker and then the pin.

A move of the disk is taken by what it does to the records of the owner. Only the commit
of a hydration, which never waits, can make the marker or the pin appear. All other
writes of the code let them fade, so their moves are events here.
-/

set_option autoImplicit false

namespace Scorpio.Retention

open Traces

/-! ## The records of an owner -/

inductive Slot where
  | owner
  | registry
  | revoke
  | complete
  | pin
  deriving DecidableEq, Repr

abbrev Files := Slot → Option Node

/-- The marker and the pin stay as they are or go. -/
def Fades (v v' : Files) : Prop :=
  (v' .complete = v .complete ∨ v' .complete = none) ∧ (v' .pin = v .pin ∨ v' .pin = none)

instance (v v' : Files) : Decidable (Fades v v') := inferInstanceAs (Decidable (_ ∧ _))

/-- What the code does to the records outside of a commit. -/
inductive Write where
  | bindOwner (record : Node)
  | register (record : Node)
  | releaseIntent (record : Node)
  | takeBack
  | invalidateComplete
  | removePin
  /-- Content, pages, journals, locks and temporaries. -/
  | elsewhere

def Write.apply (v : Files) : Write → Files
  | .bindOwner record => Function.update v .owner (some record)
  | .register record => Function.update v .registry (some record)
  | .releaseIntent record => Function.update v .revoke (some record)
  | .takeBack => Function.update v .revoke none
  | .invalidateComplete => Function.update v .complete none
  | .removePin => Function.update v .pin none
  | .elsewhere => v

section Fades

variable {v v' : Files}

theorem Fades.refl (v : Files) : Fades v v := ⟨.inl rfl,.inl rfl⟩

theorem Fades.complete (hf : Fades v v') (hnone : v .complete = none) : v' .complete = none :=
  hf.1.elim (fun heq => heq.trans hnone) id

theorem Fades.pin (hf : Fades v v') (hnone : v .pin = none) : v' .pin = none :=
  hf.2.elim (fun heq => heq.trans hnone) id

theorem write_fades (v : Files) (w : Write) : Fades v (w.apply v) := by
  cases w <;> first | exact ⟨.inl rfl,.inl rfl⟩ | exact ⟨.inr rfl,.inl rfl⟩ |
    exact ⟨.inl rfl,.inr rfl⟩

end Fades

namespace Cancellation

/-! ## Tasks, jobs and releases -/

/-- Where a hydration task stands. -/
inductive Phase where
  /-- The closure is fetched, its root is retained and the cache is collected. -/
  | metadata
  | preparing
  /-- The lanes fetch and write the content under the transaction. -/
  | fetching
  | committing
  deriving DecidableEq, Repr

/-- The phases with suspension points. -/
def Phase.suspends : Phase → Bool
  | .metadata => true
  | .fetching => true
  | _ => false

/-- Who holds the file lock of the transaction. -/
inductive Holder where
  | task
  | job (id : ℕ)
  | release
  deriving DecidableEq, Repr

inductive Release where
  | idle
  /-- The runtime is held; a running task is aborted and joined. -/
  | reconciling
  | locked
  | unmarked
  | unpinned
  deriving DecidableEq, Repr

def Release.holds : Release → Bool
  | .idle => false
  | .reconciling => false
  | _ => true

structure State where
  files : Files
  lock : Option Holder
  task : Option Phase
  jobs : List ℕ
  release : Release

def start (files : Files) : State := ⟨files,none,none,[],.idle⟩

inductive Event where
  | spawnHydrate
  | hydrate (v : Files)
  | spawnBlocking (id : ℕ)
  | prepare
  | lockTask
  | unlockTask
  | prepared
  | finish
  | commit (v : Files)
  | returnTask
  | abort (v : Files)
  | lockJob (id : ℕ)
  | job (id : ℕ) (v : Files)
  | returnJob (id : ℕ) (v : Files)
  | other (v : Files)
  | enterRelease
  | transaction
  | release (v : Files)
  | invalidateComplete (v : Files)
  | removePin (v : Files)
  | releaseOk
  | releaseErr

/-- A dropped handle unlocks the file. -/
def State.unlock (s : State) (holder : Holder) : State :=
  if s.lock = some holder then { s with lock := none } else s

def State.suspended (s : State) : Bool := s.task.any Phase.suspends

def step (s : State) : Event → Option State
  -- The runtime is locked to start a hydration.
  | .spawnHydrate => guarded (s.task = none ∧ s.release = .idle) { s with task := some .metadata }
  | .hydrate v => guarded (s.task ≠ none ∧ s.task ≠ some .committing ∧ Fades s.files v)
      { s with files := v }
  | .spawnBlocking id => guarded (s.suspended ∧ id ∉ s.jobs) { s with jobs := id :: s.jobs }
  | .prepare => guarded (s.task = some .metadata) { s with task := some .preparing }
  -- The retained root has a transaction of its own before that of the hydration.
  | .lockTask => guarded (s.task = some .preparing ∧ s.lock = none) { s with lock := some .task }
  | .unlockTask => guarded (s.task = some .preparing ∧ s.lock = some .task) { s with lock := none }
  | .prepared => guarded (s.task = some .preparing ∧ s.lock = some .task)
      { s with task := some .fetching }
  | .finish => guarded (s.task = some .fetching) { s with task := some .committing }
  | .commit v => guarded (s.task = some .committing) { s with files := v }
  | .returnTask => guarded (s.task ≠ none) (State.unlock { s with task := none } .task)
  -- What the task owns is dropped with it: buffered records, temporaries, intents.
  | .abort v => guarded (s.suspended ∧ Fades s.files v)
      (State.unlock { s with task := none, files := v } .task)
  | .lockJob id => guarded (id ∈ s.jobs ∧ s.lock = none) { s with lock := some (.job id) }
  | .job id v => guarded (id ∈ s.jobs ∧ Fades s.files v) { s with files := v }
  | .returnJob id v => guarded (id ∈ s.jobs ∧ Fades s.files v)
      (State.unlock { s with jobs := s.jobs.erase id, files := v } (.job id))
  | .other v => guarded (Fades s.files v) { s with files := v }
  | .enterRelease => guarded (s.release = .idle) { s with release := .reconciling }
  | .transaction => guarded (s.release = .reconciling ∧ s.task = none ∧ s.lock = none)
      { s with lock := some .release, release := .locked }
  | .release v => guarded (s.release.holds ∧ Fades s.files v) { s with files := v }
  | .invalidateComplete v => guarded (s.release = .locked ∧ Fades s.files v ∧ v .complete = none)
      { s with files := v, release := .unmarked }
  | .removePin v => guarded (s.release = .unmarked ∧ Fades s.files v ∧ v .pin = none)
      { s with files := v, release := .unpinned }
  | .releaseOk => guarded (s.release = .unpinned)
      (State.unlock { s with release := .idle } .release)
  | .releaseErr => guarded (s.release ≠ .idle) (State.unlock { s with release := .idle } .release)

/-! ## The writes behind the moves -/

section Writes

variable {s : State} (w : Write)

/-- A write of the task before its commit. -/
theorem hydrate_event (hrunning : s.task ≠ none) (hbefore : s.task ≠ some .committing) :
    step s (.hydrate (w.apply s.files)) = some { s with files := w.apply s.files } :=
  guarded_eq_some.mpr ⟨⟨hrunning,hbefore,write_fades _ w⟩,rfl⟩

theorem job_event {id : ℕ} (hjob : id ∈ s.jobs) :
    step s (.job id (w.apply s.files)) = some { s with files := w.apply s.files } :=
  guarded_eq_some.mpr ⟨⟨hjob,write_fades _ w⟩,rfl⟩

theorem release_event (hholds : s.release.holds = true) :
    step s (.release (w.apply s.files)) = some { s with files := w.apply s.files } :=
  guarded_eq_some.mpr ⟨⟨hholds,write_fades _ w⟩,rfl⟩

end Writes

/-! ## Unlocking -/

section Unlock

variable (s : State) (holder : Holder)

@[simp] theorem unlock_files : (s.unlock holder).files = s.files := by
  unfold State.unlock
  split_ifs <;> rfl

@[simp] theorem unlock_task : (s.unlock holder).task = s.task := by
  unfold State.unlock
  split_ifs <;> rfl

@[simp] theorem unlock_release : (s.unlock holder).release = s.release := by
  unfold State.unlock
  split_ifs <;> rfl

end Unlock

/-! ## Steps that leave the release where it is -/

/-- The events that neither start a task or a release nor move one of them to its end. -/
def Event.plain : Event → Bool
  | .spawnHydrate => false
  | .commit _ => false
  | .enterRelease => false
  | .transaction => false
  | .invalidateComplete _ => false
  | .removePin _ => false
  | .releaseOk => false
  | .releaseErr => false
  | _ => true

structure Shift (s t : State) : Prop where
  files : Fades s.files t.files
  release : t.release = s.release
  task : s.task = none → t.task = none

variable {s t : State} {v : Files} {e : Event}

theorem step_shift (hplain : e.plain = true) (hstep : step s e = some t) : Shift s t := by
  cases e with
  | hydrate v =>
    obtain ⟨⟨-,-,hf⟩,rfl⟩ := guarded_eq_some.mp hstep
    exact ⟨hf,rfl,id⟩
  | spawnBlocking id =>
    obtain ⟨-,rfl⟩ := guarded_eq_some.mp hstep
    exact ⟨Fades.refl _,rfl,fun hnone => hnone⟩
  | prepare =>
    obtain ⟨htask,rfl⟩ := guarded_eq_some.mp hstep
    exact ⟨Fades.refl _,rfl,fun hnone => nomatch htask.symm.trans hnone⟩
  | lockTask =>
    obtain ⟨-,rfl⟩ := guarded_eq_some.mp hstep
    exact ⟨Fades.refl _,rfl,id⟩
  | unlockTask =>
    obtain ⟨-,rfl⟩ := guarded_eq_some.mp hstep
    exact ⟨Fades.refl _,rfl,id⟩
  | prepared =>
    obtain ⟨⟨htask,-⟩,rfl⟩ := guarded_eq_some.mp hstep
    exact ⟨Fades.refl _,rfl,fun hnone => nomatch htask.symm.trans hnone⟩
  | finish =>
    obtain ⟨htask,rfl⟩ := guarded_eq_some.mp hstep
    exact ⟨Fades.refl _,rfl,fun hnone => nomatch htask.symm.trans hnone⟩
  | returnTask =>
    obtain ⟨-,rfl⟩ := guarded_eq_some.mp hstep
    exact ⟨by simpa using Fades.refl _,by simp,fun _ => by simp⟩
  | abort v =>
    obtain ⟨⟨-,hf⟩,rfl⟩ := guarded_eq_some.mp hstep
    exact ⟨by simpa using hf,by simp,fun _ => by simp⟩
  | lockJob id =>
    obtain ⟨-,rfl⟩ := guarded_eq_some.mp hstep
    exact ⟨Fades.refl _,rfl,fun hnone => hnone⟩
  | job id v =>
    obtain ⟨⟨-,hf⟩,rfl⟩ := guarded_eq_some.mp hstep
    exact ⟨hf,rfl,fun hnone => hnone⟩
  | returnJob id v =>
    obtain ⟨⟨-,hf⟩,rfl⟩ := guarded_eq_some.mp hstep
    exact ⟨by simpa using hf,by simp,fun hnone => by simpa using hnone⟩
  | other v =>
    obtain ⟨hf,rfl⟩ := guarded_eq_some.mp hstep
    exact ⟨hf,rfl,id⟩
  | release v =>
    obtain ⟨⟨-,hf⟩,rfl⟩ := guarded_eq_some.mp hstep
    exact ⟨hf,rfl,id⟩
  | _ => cases hplain

/-! ## While a release runs -/

/-- What a release has reached when it has got that far. -/
structure Standing (s : State) : Prop where
  joined : s.release.holds = true → s.task = none
  unmarked : s.release = .unmarked ∨ s.release = .unpinned → s.files .complete = none
  unpinned : s.release = .unpinned → s.files .pin = none

theorem Standing.shift (hs : Standing s) (hshift : Shift s t) : Standing t := by
  obtain ⟨hf,hrelease,htask⟩ := hshift
  refine ⟨?_,?_,?_⟩
  · intro hholds
    rw [hrelease] at hholds
    exact htask (hs.joined hholds)
  · intro hphase
    rw [hrelease] at hphase
    exact hf.complete (hs.unmarked hphase)
  · intro hphase
    rw [hrelease] at hphase
    exact hf.pin (hs.unpinned hphase)

/-- A release without the lock has reached nothing. -/
theorem standing_of_free (hfree : s.release.holds = false) : Standing s := by
  refine ⟨?_,?_,?_⟩
  · intro hholds
    rw [hfree] at hholds
    cases hholds
  · rintro (hphase | hphase)
    all_goals
      rw [hphase] at hfree
      cases hfree
  · intro hphase
    rw [hphase] at hfree
    cases hfree

theorem step_standing (hs : Standing s) (hstep : step s e = some t) : Standing t := by
  by_cases hplain : e.plain = true
  · exact hs.shift (step_shift hplain hstep)
  cases e with
  | spawnHydrate =>
    obtain ⟨⟨-,hidle⟩,rfl⟩ := guarded_eq_some.mp hstep
    apply standing_of_free
    show s.release.holds = false
    rw [hidle]
    rfl
  | commit v =>
    -- A task that commits has not been joined, so no release holds the lock.
    obtain ⟨htask,rfl⟩ := guarded_eq_some.mp hstep
    apply standing_of_free
    show s.release.holds = false
    apply Bool.eq_false_iff.mpr
    intro hholds
    cases htask.symm.trans (hs.joined hholds)
  | enterRelease =>
    obtain ⟨-,rfl⟩ := guarded_eq_some.mp hstep
    exact standing_of_free rfl
  | transaction =>
    obtain ⟨⟨-,htask,-⟩,rfl⟩ := guarded_eq_some.mp hstep
    exact ⟨fun _ => htask,fun hphase => by simp at hphase,fun hphase => nomatch hphase⟩
  | invalidateComplete v =>
    obtain ⟨⟨hlocked,-,hnone⟩,rfl⟩ := guarded_eq_some.mp hstep
    have htask : s.task = none := hs.joined (by rw [hlocked]; rfl)
    exact ⟨fun _ => htask,fun _ => hnone,fun hphase => nomatch hphase⟩
  | removePin v =>
    obtain ⟨⟨hunmarked,hf,hnone⟩,rfl⟩ := guarded_eq_some.mp hstep
    have htask : s.task = none := hs.joined (by rw [hunmarked]; rfl)
    have hcomplete := hf.complete (hs.unmarked (.inl hunmarked))
    exact ⟨fun _ => htask,fun _ => hcomplete,fun _ => hnone⟩
  | releaseOk =>
    obtain ⟨-,rfl⟩ := guarded_eq_some.mp hstep
    exact standing_of_free (by simp [Release.holds])
  | releaseErr =>
    obtain ⟨-,rfl⟩ := guarded_eq_some.mp hstep
    exact standing_of_free (by simp [Release.holds])
  | _ => exact absurd rfl hplain

/-! ## After a release -/

/-- No task is left, and neither record is visible. -/
structure Gone (s : State) : Prop where
  task : s.task = none
  complete : s.files .complete = none
  pin : s.files .pin = none

theorem release_ok_gone (hs : Standing s) (hstep : step s .releaseOk = some t) : Gone t := by
  obtain ⟨hunpinned,rfl⟩ := guarded_eq_some.mp hstep
  have htask : s.task = none := hs.joined (by rw [hunpinned]; rfl)
  refine ⟨?_,?_,?_⟩
  · simpa using htask
  · simpa using hs.unmarked (.inr hunpinned)
  · simpa using hs.unpinned hunpinned

/-- Only a new task can end what a release has reached. -/
theorem step_gone (hs : Gone s) (hspawn : e ≠ .spawnHydrate) (hstep : step s e = some t) :
    Gone t := by
  have hfade : Fades s.files t.files → t.task = none → Gone t := fun hf htask =>
    ⟨htask,hf.complete hs.complete,hf.pin hs.pin⟩
  by_cases hplain : e.plain = true
  · obtain ⟨hf,-,htask⟩ := step_shift hplain hstep
    exact hfade hf (htask hs.task)
  cases e with
  | spawnHydrate => exact absurd rfl hspawn
  | commit v =>
    obtain ⟨htask,-⟩ := guarded_eq_some.mp hstep
    cases htask.symm.trans hs.task
  | enterRelease =>
    obtain ⟨-,rfl⟩ := guarded_eq_some.mp hstep
    exact hfade (Fades.refl _) hs.task
  | transaction =>
    obtain ⟨-,rfl⟩ := guarded_eq_some.mp hstep
    exact hfade (Fades.refl _) hs.task
  | invalidateComplete v =>
    obtain ⟨⟨-,hf,-⟩,rfl⟩ := guarded_eq_some.mp hstep
    exact hfade hf hs.task
  | removePin v =>
    obtain ⟨⟨-,hf,-⟩,rfl⟩ := guarded_eq_some.mp hstep
    exact hfade hf hs.task
  | releaseOk =>
    obtain ⟨-,rfl⟩ := guarded_eq_some.mp hstep
    exact hfade (by simpa using Fades.refl _) (by simpa using hs.task)
  | releaseErr =>
    obtain ⟨-,rfl⟩ := guarded_eq_some.mp hstep
    exact hfade (by simpa using Fades.refl _) (by simpa using hs.task)
  | _ => exact absurd rfl hplain

theorem run_gone {es : List Event} (hs : Gone s) (hspawn : Event.spawnHydrate ∉ es)
    (hrun : run step s es = some t) : Gone t := by
  induction es generalizing s with
  | nil =>
    cases hrun
    exact hs
  | cons e es ih =>
    obtain ⟨u,hu,hrest⟩ := run_cons.mp hrun
    have hfirst : e ≠ .spawnHydrate := fun heq => hspawn (heq ▸ List.mem_cons_self)
    have hlater : Event.spawnHydrate ∉ es := fun hmem => hspawn (List.mem_cons_of_mem _ hmem)
    exact ih (step_gone hs hfirst hu) hlater hrest

def published : Files := fun x => if x = .complete ∨ x = .pin then some .special else none

def unpublished : Files := fun _ => none

/-- A hydration aborted in its lanes, with one blocking write still running, and a release. -/
def aborted : List Event :=
  [.spawnHydrate,.spawnBlocking 0,.returnJob 0 published,.prepare,.lockTask,
    .hydrate (Function.update published .complete none),.prepared,.spawnBlocking 1,.enterRelease,
    .abort (Function.update published .complete none),.transaction,
    .invalidateComplete (Function.update published .complete none),.removePin unpublished]

end Cancellation

end Scorpio.Retention
