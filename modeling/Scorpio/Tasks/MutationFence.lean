import Scorpio.Base.Traces

/-!
# The mutation fence

Native mutations hold the shared side of one lock from their admission to their
end; a pause holds the exclusive side. A mutation that ends without `complete`
stores the uncertain flag before it gives the lock back. The lock and the two
semaphores are taken as correct: an event that they would keep waiting is not
enabled. Each call that loads the flag is one event, placed at that load; the
seal that `MutationPause::seal` then writes is read under the lock only.
-/

set_option autoImplicit false

namespace Scorpio.MutationFence

open Traces

structure Admission where
  id : ℕ
  cleanup : Bool
  deriving DecidableEq, Repr

/-- The pause that holds the exclusive lock, and whether `pause` has returned it. -/
structure Pause where
  id : ℕ
  returned : Bool
  deriving DecidableEq, Repr

structure State where
  sealed : Bool
  uncertain : Bool
  capacity : ℕ
  cleanupCapacity : ℕ
  queued : List Admission
  admitted : List Admission
  /-- Dropped without `complete`: the flag is stored, the shared lock is still held. -/
  dropped : List Admission
  writer : Option Pause
  issued : List ℕ
  deriving DecidableEq, Repr

def new (maxInFlight : ℕ) : State := ⟨false,false,maxInFlight,maxInFlight,[],[],[],none,[]⟩

inductive Event where
  | acquire (a : Admission)
  | again (id : ℕ)
  | grant (a : Admission)
  | refuse (a : Admission)
  | cancel (a : Admission)
  | complete (a : Admission)
  | drop (a : Admission)
  | unlock (a : Admission)
  | lockPause (id : ℕ)
  | pause (id : ℕ) (ok : Bool)
  | ensureCertain (id : ℕ) (ok : Bool)
  | sealPause (id : ℕ) (ok : Bool)
  | dropPause (id : ℕ)
  | markUncertain
  deriving DecidableEq, Repr

def State.permits (s : State) (cleanup : Bool) : ℕ :=
  if cleanup then s.cleanupCapacity else s.capacity

def State.take (s : State) (cleanup : Bool) : State :=
  if cleanup then {s with cleanupCapacity := s.cleanupCapacity-1}
  else {s with capacity := s.capacity-1}

def State.give (s : State) (cleanup : Bool) : State :=
  if cleanup then {s with cleanupCapacity := s.cleanupCapacity+1}
  else {s with capacity := s.capacity+1}

def step (s : State) : Event → Option State
  -- The call takes its permit before it queues for the lock.
  | .acquire a => guarded (a.id ∉ s.issued ∧ 0 < s.permits a.cleanup)
      {s.take a.cleanup with queued := a :: s.queued, issued := a.id :: s.issued}
  | .again id => guarded (id ∉ s.issued ∧ s.capacity = 0) {s with issued := id :: s.issued}
  | .grant a => guarded (a ∈ s.queued ∧ s.writer = none ∧ (s.sealed = false ∨ a.cleanup = true))
      {s with queued := s.queued.erase a, admitted := a :: s.admitted}
  | .refuse a => guarded (a ∈ s.queued ∧ s.writer = none ∧ s.sealed = true ∧ a.cleanup = false)
      {s.give a.cleanup with queued := s.queued.erase a}
  | .cancel a => guarded (a ∈ s.queued) {s.give a.cleanup with queued := s.queued.erase a}
  | .complete a => guarded (a ∈ s.admitted)
      {s.give a.cleanup with admitted := s.admitted.erase a}
  | .drop a => guarded (a ∈ s.admitted)
      {s with uncertain := true, admitted := s.admitted.erase a, dropped := a :: s.dropped}
  | .unlock a => guarded (a ∈ s.dropped) {s.give a.cleanup with dropped := s.dropped.erase a}
  | .lockPause id => guarded (id ∉ s.issued ∧ s.writer = none ∧ s.admitted = [] ∧ s.dropped = [])
      {s with writer := some ⟨id,false⟩, issued := id :: s.issued}
  | .pause id ok => guarded (s.writer = some ⟨id,false⟩ ∧ ok = !s.uncertain)
      {s with writer := if ok then some ⟨id,true⟩ else none}
  | .ensureCertain id ok => guarded (s.writer = some ⟨id,true⟩ ∧ ok = !s.uncertain) s
  | .sealPause id ok => guarded (s.writer = some ⟨id,true⟩ ∧ ok = !s.uncertain)
      {s with sealed := s.sealed || ok}
  | .dropPause id => guarded (s.writer = some ⟨id,true⟩) {s with writer := none}
  | .markUncertain => guarded True {s with uncertain := true}

/-- The events that set the uncertain flag. -/
def Event.setsUncertain : Event → Prop
  | .drop _ => True
  | .markUncertain => True
  | _ => False

/-- The calls that report a certain outcome. -/
def Event.certifies : Event → Prop
  | .pause _ ok => ok = true
  | .ensureCertain _ ok => ok = true
  | .sealPause _ ok => ok = true
  | _ => False

section Permits

variable (s : State) (c : Bool)

@[simp] theorem take_uncertain : (s.take c).uncertain = s.uncertain := by cases c <;> rfl
@[simp] theorem take_sealed : (s.take c).sealed = s.sealed := by cases c <;> rfl
@[simp] theorem take_admitted : (s.take c).admitted = s.admitted := by cases c <;> rfl
@[simp] theorem take_dropped : (s.take c).dropped = s.dropped := by cases c <;> rfl
@[simp] theorem take_writer : (s.take c).writer = s.writer := by cases c <;> rfl
@[simp] theorem take_issued : (s.take c).issued = s.issued := by cases c <;> rfl
@[simp] theorem give_issued : (s.give c).issued = s.issued := by cases c <;> rfl
@[simp] theorem give_uncertain : (s.give c).uncertain = s.uncertain := by cases c <;> rfl
@[simp] theorem give_sealed : (s.give c).sealed = s.sealed := by cases c <;> rfl
@[simp] theorem give_admitted : (s.give c).admitted = s.admitted := by cases c <;> rfl
@[simp] theorem give_dropped : (s.give c).dropped = s.dropped := by cases c <;> rfl
@[simp] theorem give_queued : (s.give c).queued = s.queued := by cases c <;> rfl
@[simp] theorem give_writer : (s.give c).writer = s.writer := by cases c <;> rfl

end Permits

/-- The exclusive lock excludes the shared one, and every admitted mutation is still
admitted, has completed, or has left the outcome uncertain. -/
structure Accounted (past : List Event) (s : State) : Prop where
  exclusive : s.writer ≠ none → s.admitted = [] ∧ s.dropped = []
  outcome : ∀ a, .grant a ∈ past →
    a ∈ s.admitted ∨ .complete a ∈ past ∨ s.uncertain = true

variable {t : State} {e : Event} {id : ℕ}

theorem step_exclusive {s : State} (h : step s e = some t)
    (hs : s.writer ≠ none → s.admitted = [] ∧ s.dropped = []) :
    t.writer ≠ none → t.admitted = [] ∧ t.dropped = [] := by
  intro hw
  cases e with
  | grant a =>
    obtain ⟨⟨_,hfree,_⟩,rfl⟩ := guarded_eq_some.mp h
    exact absurd hfree hw
  | complete a =>
    obtain ⟨ha,rfl⟩ := guarded_eq_some.mp h
    have hnone := (hs (by simpa using hw)).1
    simp [hnone] at ha
  | drop a =>
    obtain ⟨ha,rfl⟩ := guarded_eq_some.mp h
    have hnone := (hs hw).1
    simp [hnone] at ha
  | unlock a =>
    obtain ⟨ha,rfl⟩ := guarded_eq_some.mp h
    have hnone := (hs (by simpa using hw)).2
    simp [hnone] at ha
  | lockPause id =>
    obtain ⟨⟨_,_,hread⟩,rfl⟩ := guarded_eq_some.mp h
    exact hread
  | pause id ok =>
    obtain ⟨⟨hheld,_⟩,rfl⟩ := guarded_eq_some.mp h
    exact hs (by simp [hheld])
  | dropPause id =>
    obtain ⟨_,rfl⟩ := guarded_eq_some.mp h
    exact absurd rfl hw
  | _ =>
    obtain ⟨_,rfl⟩ := guarded_eq_some.mp h
    simpa using hs (by simpa using hw)

theorem step_uncertain {s : State} (h : step s e = some t)
    (hs : s.uncertain = true ∨ e.setsUncertain) : t.uncertain = true := by
  cases e with
  | drop a => obtain ⟨_,rfl⟩ := guarded_eq_some.mp h; rfl
  | markUncertain => obtain ⟨_,rfl⟩ := guarded_eq_some.mp h; rfl
  | _ =>
    obtain ⟨_,rfl⟩ := guarded_eq_some.mp h
    simpa [Event.setsUncertain] using hs

theorem step_sealed {s : State} (h : step s e = some t) (hs : s.sealed = true) :
    t.sealed = true := by
  cases e <;> obtain ⟨_,rfl⟩ := guarded_eq_some.mp h <;> simp [hs]

theorem sealed_refuses {s : State} {a : Admission} (hs : s.sealed = true)
    (h : step s (.grant a) = some t) : a.cleanup = true := by
  obtain ⟨⟨_,_,hopen⟩,_⟩ := guarded_eq_some.mp h
  exact hopen.resolve_left (by simp [hs])

theorem uncertain_certifies {s : State} (hs : s.uncertain = true) (h : step s e = some t) :
    ¬ e.certifies := by
  cases e with
  | pause id ok => obtain ⟨⟨_,rfl⟩,_⟩ := guarded_eq_some.mp h; simp [Event.certifies, hs]
  | ensureCertain id ok => obtain ⟨⟨_,rfl⟩,_⟩ := guarded_eq_some.mp h; simp [Event.certifies, hs]
  | sealPause id ok => obtain ⟨⟨_,rfl⟩,_⟩ := guarded_eq_some.mp h; simp [Event.certifies, hs]
  | _ => exact id

/-- An admitted mutation stays admitted, completes, or leaves the flag set. -/
theorem step_admitted {s : State} (h : step s e = some t) {a : Admission} (ha : a ∈ s.admitted) :
    a ∈ t.admitted ∨ e = .complete a ∨ t.uncertain = true := by
  cases e with
  | complete b =>
    obtain ⟨_,rfl⟩ := guarded_eq_some.mp h
    by_cases hab : a = b
    · exact .inr (.inl (by rw [hab]))
    · exact .inl ((List.mem_erase_of_ne hab).mpr ha)
  | drop b => obtain ⟨_,rfl⟩ := guarded_eq_some.mp h; exact .inr (.inr rfl)
  | grant b => obtain ⟨_,rfl⟩ := guarded_eq_some.mp h; exact .inl (List.mem_cons_of_mem _ ha)
  | _ => obtain ⟨_,rfl⟩ := guarded_eq_some.mp h; exact .inl (by simpa using ha)

theorem step_accounted (past : List Event) (s : State) (e : Event) (t : State)
    (hs : Accounted past s) (h : step s e = some t) : Accounted (past ++ [e]) t := by
  refine ⟨step_exclusive h hs.exclusive,fun a ha => ?_⟩
  rcases List.mem_append.mp ha with ha | ha
  · rcases hs.outcome a ha with hin | hdone | hun
    · rcases step_admitted h hin with hin | rfl | hun
      · exact .inl hin
      · exact .inr (.inl (by simp))
      · exact .inr (.inr hun)
    · exact .inr (.inl (List.mem_append_left _ hdone))
    · exact .inr (.inr (step_uncertain h (.inl hun)))
  · obtain rfl := List.mem_singleton.mp ha
    obtain ⟨_,rfl⟩ := guarded_eq_some.mp h
    exact .inl List.mem_cons_self

theorem run_accounted {n : ℕ} {trace : List Event} {s : State}
    (h : run step (new n) trace = some s) : Accounted trace s :=
  run_history Accounted ⟨by simp [new],by simp⟩ step_accounted h

/-- The admission that an event takes on. -/
def Event.about : Event → Option Admission
  | .acquire a | .grant a | .refuse a | .cancel a | .complete a | .drop a | .unlock a => some a
  | _ => none

/-- The other admissions keep their place. -/
theorem step_keeps {s : State} {b : Admission} (h : step s e = some t) (hb : e.about ≠ some b) :
    (b ∈ s.queued → b ∈ t.queued) ∧
      (b ∈ s.admitted → b ∈ t.admitted) ∧ (b ∈ s.dropped → b ∈ t.dropped) := by
  have herase : ∀ (a : Admission) (l : List Admission), a ≠ b → b ∈ l → b ∈ l.erase a :=
    fun a l hne hmem => (List.mem_erase_of_ne hne.symm).mpr hmem
  cases e with
  | acquire a =>
    obtain ⟨_,rfl⟩ := guarded_eq_some.mp h
    exact ⟨fun hq => by simpa using .inr hq,by simp,by simp⟩
  | grant a =>
    obtain ⟨_,rfl⟩ := guarded_eq_some.mp h
    have hne : a ≠ b := fun heq => hb (congrArg some heq)
    exact ⟨herase a _ hne,List.mem_cons_of_mem _,id⟩
  | refuse a =>
    obtain ⟨_,rfl⟩ := guarded_eq_some.mp h
    have hne : a ≠ b := fun heq => hb (congrArg some heq)
    exact ⟨herase a _ hne,by simp,by simp⟩
  | cancel a =>
    obtain ⟨_,rfl⟩ := guarded_eq_some.mp h
    have hne : a ≠ b := fun heq => hb (congrArg some heq)
    exact ⟨herase a _ hne,by simp,by simp⟩
  | complete a =>
    obtain ⟨_,rfl⟩ := guarded_eq_some.mp h
    have hne : a ≠ b := fun heq => hb (congrArg some heq)
    exact ⟨by simp,herase a _ hne,by simp⟩
  | drop a =>
    obtain ⟨_,rfl⟩ := guarded_eq_some.mp h
    have hne : a ≠ b := fun heq => hb (congrArg some heq)
    exact ⟨id,herase a _ hne,List.mem_cons_of_mem _⟩
  | unlock a =>
    obtain ⟨_,rfl⟩ := guarded_eq_some.mp h
    have hne : a ≠ b := fun heq => hb (congrArg some heq)
    exact ⟨by simp,by simp,herase a _ hne⟩
  | _ =>
    obtain ⟨_,rfl⟩ := guarded_eq_some.mp h
    exact ⟨id,id,id⟩

/-- Until its pause is dropped, the exclusive lock stays with it. -/
theorem held_step {s : State} (hs : s.writer = some ⟨id,true⟩) (he : e ≠ .dropPause id)
    (h : step s e = some t) :
    t.writer = some ⟨id,true⟩ ∧ ∀ a, e ≠ .grant a := by
  cases e with
  | grant a =>
    obtain ⟨⟨_,hfree,_⟩,_⟩ := guarded_eq_some.mp h
    simp [hs] at hfree
  | lockPause p =>
    obtain ⟨⟨_,hfree,_⟩,_⟩ := guarded_eq_some.mp h
    simp [hs] at hfree
  | pause p ok =>
    obtain ⟨⟨hw,_⟩,_⟩ := guarded_eq_some.mp h
    simp [hs] at hw
  | dropPause p =>
    obtain ⟨hw,_⟩ := guarded_eq_some.mp h
    rw [hs] at hw
    simp only [Option.some.injEq, Pause.mk.injEq, and_true] at hw
    exact absurd (by rw [hw]) he
  | _ =>
    obtain ⟨_,rfl⟩ := guarded_eq_some.mp h
    exact ⟨by simpa using hs,by simp⟩

theorem held_run {s : State} {mid : List Event} (hs : s.writer = some ⟨id,true⟩)
    (hmid : .dropPause id ∉ mid) (h : run step s mid = some t) : ∀ a, .grant a ∉ mid := by
  induction mid generalizing s with
  | nil => simp
  | cons e mid ih =>
    obtain ⟨u,hu,hrest⟩ := run_cons.mp h
    obtain ⟨hheld,hno⟩ := held_step hs (fun heq => hmid (by simp [heq])) hu
    intro a ha
    rcases List.mem_cons.mp ha with ha | ha
    · exact hno a ha.symm
    · exact ih hheld (fun hd => hmid (List.mem_cons_of_mem _ hd)) hrest a ha

/-- A pause that has been dropped never has the lock again. -/
def Retired (id : ℕ) (s : State) : Prop := id ∈ s.issued ∧ ∀ r, s.writer ≠ some ⟨id,r⟩

theorem held_issued {s : State} (h : step s e = some t)
    (hs : ∀ p, s.writer = some p → p.id ∈ s.issued) : ∀ p, t.writer = some p → p.id ∈ t.issued := by
  intro p hp
  cases e with
  | acquire a =>
    obtain ⟨_,rfl⟩ := guarded_eq_some.mp h
    exact List.mem_cons_of_mem _ (hs p (by simpa using hp))
  | again id =>
    obtain ⟨_,rfl⟩ := guarded_eq_some.mp h
    exact List.mem_cons_of_mem _ (hs p hp)
  | lockPause id =>
    obtain ⟨_,rfl⟩ := guarded_eq_some.mp h
    cases hp
    exact List.mem_cons_self
  | pause id ok =>
    obtain ⟨⟨hw,_⟩,rfl⟩ := guarded_eq_some.mp h
    have hin := hs _ hw
    cases ok with
    | false => simp at hp
    | true =>
      cases hp
      exact hin
  | dropPause id =>
    obtain ⟨_,rfl⟩ := guarded_eq_some.mp h
    cases hp
  | _ =>
    obtain ⟨_,rfl⟩ := guarded_eq_some.mp h
    simpa using hs p (by simpa using hp)

theorem retired_step {s : State} (hs : Retired id s) (h : step s e = some t) :
    Retired id t ∧ e ≠ .ensureCertain id true := by
  obtain ⟨hin,hw⟩ := hs
  cases e with
  | acquire a =>
    obtain ⟨_,rfl⟩ := guarded_eq_some.mp h
    exact ⟨⟨List.mem_cons_of_mem _ hin,by simpa using hw⟩,by simp⟩
  | again p =>
    obtain ⟨_,rfl⟩ := guarded_eq_some.mp h
    exact ⟨⟨List.mem_cons_of_mem _ hin,hw⟩,by simp⟩
  | lockPause p =>
    obtain ⟨⟨hnew,_⟩,rfl⟩ := guarded_eq_some.mp h
    refine ⟨⟨List.mem_cons_of_mem _ hin,fun r hr => ?_⟩,by simp⟩
    simp only [Option.some.injEq, Pause.mk.injEq] at hr
    exact hnew (hr.1 ▸ hin)
  | pause p ok =>
    obtain ⟨⟨hp,_⟩,rfl⟩ := guarded_eq_some.mp h
    refine ⟨⟨hin,fun r hr => ?_⟩,by simp⟩
    cases ok with
    | false => simp at hr
    | true =>
      simp only [if_true, Option.some.injEq, Pause.mk.injEq] at hr
      exact hw false (hr.1 ▸ hp)
  | ensureCertain p ok =>
    obtain ⟨⟨hp,_⟩,rfl⟩ := guarded_eq_some.mp h
    refine ⟨⟨hin,hw⟩,fun heq => ?_⟩
    simp only [Event.ensureCertain.injEq] at heq
    exact hw true (heq.1 ▸ hp)
  | dropPause p =>
    obtain ⟨_,rfl⟩ := guarded_eq_some.mp h
    exact ⟨⟨hin,by simp⟩,by simp⟩
  | _ =>
    obtain ⟨_,rfl⟩ := guarded_eq_some.mp h
    exact ⟨⟨by simpa using hin,by simpa using hw⟩,by simp⟩

/-- A pause that is rechecked has not been dropped in between. -/
theorem rechecked_held {s : State} {mid rest : List Event} (hin : id ∈ s.issued)
    (h : run step s (mid ++ .ensureCertain id true :: rest) = some t) : .dropPause id ∉ mid := by
  intro hdrop
  obtain ⟨before,between,rfl⟩ := List.append_of_mem hdrop
  rw [List.append_assoc, List.cons_append] at h
  obtain ⟨u,v,hu,hv,hrest⟩ := run_split h
  have hin' : id ∈ u.issued :=
    run_invariant (fun s => id ∈ s.issued) hin
      (fun x e y hx hy => by
        cases e <;> obtain ⟨_,rfl⟩ := guarded_eq_some.mp hy <;> simp [hx]) hu
  have hretired : Retired id v := by
    obtain ⟨_,rfl⟩ := guarded_eq_some.mp hv
    exact ⟨hin',by simp⟩
  exact never_after (Retired id) (· = .ensureCertain id true) hretired
    (fun x e y hx hy => retired_step hx hy) hrest _ (by simp) rfl

/-- In every interleaving: what was admitted before a pause has completed and nothing is
admitted until the pause is rechecked; a sealed fence admits cleanup only; and an uncertain
fence certifies nothing again. -/
theorem mutation_fence_safe (maxInFlight : ℕ) (trace : List Event) (s : State)
    (h : run step (new maxInFlight) trace = some s) :
    (∀ past id mid rest,
      trace = past ++ .pause id true :: (mid ++ .ensureCertain id true :: rest) →
      (∀ a, .grant a ∈ past → .complete a ∈ past) ∧ ∀ a, .grant a ∉ mid) ∧
    (∀ past id rest, trace = past ++ .sealPause id true :: rest →
      ∀ a, .grant a ∈ rest → a.cleanup = true) ∧
    (∀ past e rest, trace = past ++ e :: rest → e.setsUncertain →
      ∀ later ∈ rest, ¬ later.certifies) := by
  refine ⟨?_,?_,?_⟩
  · rintro past id mid rest rfl
    obtain ⟨u,v,hu,hv,hrest⟩ := run_split h
    have hacc := run_accounted hu
    have hissued : ∀ p, u.writer = some p → p.id ∈ u.issued :=
      run_invariant (fun s => ∀ p, s.writer = some p → p.id ∈ s.issued) (by simp [new])
        (fun x e y hx hy => held_issued hy hx) hu
    obtain ⟨⟨hw,hcert⟩,rfl⟩ := guarded_eq_some.mp hv
    have hsure : u.uncertain = false := by simpa using hcert.symm
    have hin : id ∈ u.issued := hissued _ hw
    have hheld := rechecked_held (by simpa using hin) hrest
    obtain ⟨w,hmid,_⟩ := run_append.mp hrest
    refine ⟨fun a ha => ?_,held_run rfl hheld hmid⟩
    have hnone := (hacc.exclusive (by simp [hw])).1
    simpa [hnone, hsure] using hacc.outcome a ha
  · rintro past id rest rfl a ha
    obtain ⟨u,v,hu,hv,hrest⟩ := run_split h
    have hsealed : v.sealed = true := by
      obtain ⟨_,rfl⟩ := guarded_eq_some.mp hv
      simp
    have hnever := never_after (fun s => s.sealed = true)
      (fun e => ∃ a : Admission, e = .grant a ∧ a.cleanup = false) hsealed
      (fun x e y hx hy => ⟨step_sealed hy hx,?_⟩) hrest
    · by_contra hc
      exact hnever _ ha ⟨a,rfl,by simpa using hc⟩
    · rintro ⟨b,rfl,hb⟩
      simp [sealed_refuses hx hy] at hb
  · rintro past e rest rfl he
    obtain ⟨u,v,hu,hv,hrest⟩ := run_split h
    exact never_after (fun s => s.uncertain = true) Event.certifies
      (step_uncertain hv (.inr he))
      (fun x e y hx hy => ⟨step_uncertain hy (.inl hx),uncertain_certifies hx hy⟩) hrest

/-- A mutation completes, a pause is rechecked and sealed, and a cleanup then ends unknown. -/
def sealedTrace : List Event :=
  [.acquire ⟨0,false⟩,.grant ⟨0,false⟩,.complete ⟨0,false⟩,.lockPause 1,.pause 1 true,
    .ensureCertain 1 true,.sealPause 1 true,.dropPause 1,.acquire ⟨2,false⟩,.refuse ⟨2,false⟩,
    .acquire ⟨3,true⟩,.grant ⟨3,true⟩,.drop ⟨3,true⟩,.unlock ⟨3,true⟩,.lockPause 4,.pause 4 false]

theorem mutation_fence_safe_sealed : ∃ s, run step (new 1) sealedTrace = some s ∧
    (∀ past id mid rest,
      sealedTrace = past ++ .pause id true :: (mid ++ .ensureCertain id true :: rest) →
      (∀ a, .grant a ∈ past → .complete a ∈ past) ∧ ∀ a, .grant a ∉ mid) ∧
    (∀ past id rest, sealedTrace = past ++ .sealPause id true :: rest →
      ∀ a, .grant a ∈ rest → a.cleanup = true) ∧
    (∀ past e rest, sealedTrace = past ++ e :: rest → e.setsUncertain →
      ∀ later ∈ rest, ¬ later.certifies) := by
  have hrun : (run step (new 1) sealedTrace).isSome = true := by decide
  obtain ⟨s,hs⟩ := Option.isSome_iff_exists.mp hrun
  exact ⟨s,hs,mutation_fence_safe 1 sealedTrace s hs⟩

end Scorpio.MutationFence
