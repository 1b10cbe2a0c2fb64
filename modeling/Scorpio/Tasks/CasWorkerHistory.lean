import Scorpio.Tasks.CasWorker

/-!
# Histories of local CAS work

One invariant says for each stage of a job what its atomic state, its guard, its
permits and its counts are. It is kept by every act of the job, whatever other jobs
do in between. With the balance of the semaphores it gives the promises of the
admission for every history.
-/

set_option autoImplicit false

namespace Scorpio.CasWorker

open Traces Credits

namespace Job

variable {σ : Type}

def endings (j : Job σ) : List Metric := j.metrics.filter Metric.ending

/-- The counts of a job that has nothing behind it but its checks. -/
def Fresh (j : Job σ) (checks : ℕ) : Prop :=
  j.checks = checks ∧ j.runs = 0 ∧ j.enters = j.tally ∧ j.leaves = 0

def Open (j : Job σ) : Prop := j.endings = [] ∧ j.withdrawn = false

/-- How it ended is counted once. -/
def Counted (j : Job σ) : Prop := j.endings.length = j.tally ∧ j.atom ≠ .pending ∧ j.atom ≠ .running

/-- Its work has not run, or once after both checks and with its waiter or detached from it. -/
def Ran (j : Job σ) : Prop := j.runs = 0 ∨ j.runs = 1 ∧ j.checks = 2 ∧ j.withdrawn = false

/-- The exchange between a pending job and its guard. -/
def Contested (j : Job σ) : Prop :=
  j.guard = true ∧ j.atom = .pending ∧ j.Open ∨
    j.guard = false ∧ j.atom = .cancelled ∧ j.endings.length = j.tally

/-- Nothing is left to do but to count, leave and give back. -/
def Settling (j : Job σ) : Prop := j.runs = 0 ∧ j.Contested ∨ j.Ran ∧ j.Counted

def Sound (j : Job σ) : Prop :=
  match j.stage with
  | .admitting => j.held = {.localOutstanding} ∧ j.guard = false ∧ j.atom = .pending ∧ j.Open ∧
      j.checks = 0 ∧ j.runs = 0 ∧ j.enters = 0 ∧ j.leaves = 0
  | .refused => j.guard = false ∧ j.Open ∧ j.runs = 0 ∧ j.enters = 0 ∧ j.leaves = 0
  | .waitingLocal => j.held = {.processOutstanding,.localOutstanding} ∧ j.guard = true ∧
      j.atom = .pending ∧ j.Open ∧ j.Fresh 0
  | .waitingProcess => j.held = {.localRunning,.processOutstanding,.localOutstanding} ∧
      j.guard = true ∧ j.atom = .pending ∧ j.Open ∧ j.Fresh 0
  | .checking => (∀ p, p ∈ j.held) ∧ j.guard = true ∧ j.atom = .pending ∧ j.Open ∧ j.Fresh 0
  | .dropping => j.guard = true ∧ j.Fresh 0 ∧ j.withdrawn = false ∧
      (j.atom = .pending ∧ j.Open ∨ j.Counted)
  | .queued | .started => (∀ p, p ∈ j.held) ∧ j.Fresh 1 ∧ j.Contested
  | .rechecking => (∀ p, p ∈ j.held) ∧ j.Fresh 1 ∧ j.atom = .running ∧ j.Open
  | .working => (∀ p, p ∈ j.held) ∧ j.checks = 2 ∧ j.runs = 1 ∧ j.enters = j.tally ∧
      j.leaves = 0 ∧ j.atom = .running ∧ j.Open
  | .finishing outcome => (∀ p, p ∈ j.held) ∧ j.Ran ∧ j.enters = j.tally ∧ j.leaves = 0 ∧
      (outcome = .cancelledBeforeStart ∧ j.guard = false ∧ j.atom = .cancelled ∧
          j.endings.length = j.tally ∨
        outcome ≠ .cancelledBeforeStart ∧ j.atom = .running ∧ j.Open)
  | .leaving => j.enters = j.tally ∧ j.leaves = 0 ∧ j.Settling
  | .freeing => j.enters = j.tally ∧ j.leaves = j.tally ∧ j.Settling

variable {j j' : Job σ} {a : Act}

theorem note_endings (m : Metric) : (j.note m).endings =
    if m.ending = true ∧ j.profiled = true then m :: j.endings else j.endings := by
  unfold note endings
  cases j.profiled <;> cases hm : m.ending <;> simp [hm]

@[simp] theorem note_tally (m : Metric) : (j.note m).tally = j.tally := rfl

theorem note_open {m : Metric} (hm : m.ending = true) (hj : j.Open) :
    (j.note m).endings.length = j.tally := by
  rw [note_endings, hj.1]
  unfold tally
  cases j.profiled <;> simp [hm]

theorem note_aside {m : Metric} (hm : m.ending = false) : (j.note m).endings = j.endings := by
  rw [note_endings, hm, if_neg (by simp)]

/-- `j` without its guard, in another stage. -/
def unguarded (j : Job σ) (stage : Stage) : Job σ := {j.exchange with guard := false, stage := stage}

variable {stage : Stage}

theorem unguarded_pending (h : j.atom = .pending) : j.unguarded stage =
    {j.note .workerCancelledPending with
      atom := .cancelled, withdrawn := true, guard := false, stage := stage} := by
  simp only [unguarded, exchange, h]

theorem unguarded_running (h : j.atom = .running) :
    j.unguarded stage = {j.note .workerDetached with guard := false, stage := stage} := by
  simp only [unguarded, exchange, h]

theorem unguarded_counted (h : j.Counted) :
    j.unguarded stage = {j with guard := false, stage := stage} := by
  obtain ⟨-,hpending,hrunning⟩ := h
  unfold unguarded exchange
  split
  · contradiction
  · contradiction
  · rfl

theorem Contested.unguarded (h : j.Contested) (hg : j.guard = true) :
    (j.unguarded stage).Contested := by
  rcases h with ⟨-,hatom,hopen⟩ | ⟨hno,-⟩
  · rw [unguarded_pending hatom]
    exact .inr ⟨rfl,rfl,note_open rfl hopen⟩
  · rw [hg] at hno
    cases hno

theorem Open.detached (h : j.Open) :
    Open {j.note .workerDetached with guard := false, stage := stage} :=
  ⟨(note_aside rfl).trans h.1,h.2⟩

theorem Fresh.unguarded {n : ℕ} (h : j.Fresh n) : (j.unguarded stage).Fresh n := by
  unfold Job.unguarded exchange
  split <;> exact h

theorem unguarded_held (stage : Stage) : (j.unguarded stage).held = j.held := by
  unfold Job.unguarded exchange
  split <;> rfl

theorem unguarded_counts (stage : Stage) : (j.unguarded stage).runs = j.runs ∧
    (j.unguarded stage).enters = j.enters ∧ (j.unguarded stage).leaves = j.leaves ∧
    (j.unguarded stage).tally = j.tally := by
  unfold Job.unguarded exchange
  split <;> exact ⟨rfl,rfl,rfl,rfl⟩

theorem Settling.unguarded (h : j.Settling) (hg : j.guard = true) :
    (j.unguarded stage).Settling := by
  rcases h with ⟨hruns,hcontested⟩ | ⟨hran,hcounted⟩
  · exact .inl ⟨(unguarded_counts stage).1.trans hruns,hcontested.unguarded hg⟩
  · rw [unguarded_counted hcounted]
    exact .inr ⟨hran,hcounted⟩

theorem waits_sound (hj : j.Sound) (hw : j.waits = true) :
    j.guard = true ∧ j.atom = .pending ∧ j.Open ∧ j.Fresh 0 := by
  rw [waits, Bool.or_eq_true, decide_eq_true_eq, decide_eq_true_eq] at hw
  rcases hw with hstage | hstage <;> simp only [Sound, hstage] at hj <;> exact hj.2

theorem outcome_metric {outcome : Outcome} (h : outcome ≠ .cancelledBeforeStart) :
    ∃ m, outcome.metric = some m ∧ m.ending = true := by
  cases outcome <;> first | exact ⟨_,rfl,rfl⟩ | contradiction

theorem drop_guard_sound (hj : j.Sound) (h : j.act .dropGuard = some j') : j'.Sound := by
  obtain ⟨hgoes,hj'⟩ := guarded_eq_some.mp h
  have hunguarded : j' = j.unguarded (if j.stage = .dropping then .leaving else j.stage) := hj'.symm
  rw [hunguarded]
  cases hstage : j.stage <;> simp only [guardGoes, hstage, Bool.false_eq_true] at hgoes <;>
    simp only [Sound, hstage] at hj
  case dropping =>
    obtain ⟨-,⟨-,hruns,henters,hleaves⟩,-,⟨hatom,hopen⟩ | hcounted⟩ := hj
    · rw [unguarded_pending hatom]
      exact ⟨henters,hleaves,.inr ⟨.inl hruns,note_open rfl hopen,nofun,nofun⟩⟩
    · rw [unguarded_counted hcounted]
      exact ⟨henters,hleaves,.inr ⟨.inl hruns,hcounted⟩⟩
  case queued | started =>
    obtain ⟨hheld,hfresh,hcontested⟩ := hj
    refine ⟨fun p => ?_,hfresh.unguarded,hcontested.unguarded hgoes⟩
    exact (unguarded_held _).symm ▸ hheld p
  case rechecking =>
    obtain ⟨hheld,hfresh,hatom,hopen⟩ := hj
    rw [unguarded_running hatom]
    exact ⟨hheld,hfresh,hatom,hopen.detached⟩
  case working =>
    obtain ⟨hheld,hchecks,hruns,henters,hleaves,hatom,hopen⟩ := hj
    rw [unguarded_running hatom]
    exact ⟨hheld,hchecks,hruns,henters,hleaves,hatom,hopen.detached⟩
  case finishing outcome =>
    obtain ⟨hheld,hran,henters,hleaves,⟨-,hno,-⟩ | ⟨houtcome,hatom,hopen⟩⟩ := hj
    · rw [hgoes] at hno
      cases hno
    · rw [unguarded_running hatom]
      exact ⟨hheld,hran,henters,hleaves,.inr ⟨houtcome,hatom,hopen.detached⟩⟩
  case leaving =>
    obtain ⟨henters,hleaves,hsettling⟩ := hj
    obtain ⟨-,henters',hleaves',htally⟩ := unguarded_counts (j := j) .leaving
    exact ⟨henters'.trans (henters.trans htally.symm),hleaves'.trans hleaves,
      hsettling.unguarded hgoes⟩
  case freeing =>
    obtain ⟨henters,hleaves,hsettling⟩ := hj
    obtain ⟨-,henters',hleaves',htally⟩ := unguarded_counts (j := j) .freeing
    exact ⟨henters'.trans (henters.trans htally.symm),hleaves'.trans (hleaves.trans htally.symm),
      hsettling.unguarded hgoes⟩

/-- An act that one stage allows. -/
theorem staged {x : Job σ} (hj : j.Sound) (h : guarded (j.stage = stage) x = some j') :
    Sound {j with stage := stage} ∧ x = j' := by
  obtain ⟨rfl,rfl⟩ := guarded_eq_some.mp h
  exact ⟨hj,rfl⟩

theorem act_sound (hj : j.Sound) (h : j.act a = some j') : j'.Sound := by
  cases a with
  | admitProcess =>
    obtain ⟨⟨hheld,-,hatom,hopen,hchecks,hruns,henters,hleaves⟩,rfl⟩ := staged hj h
    exact ⟨by rw [hheld],rfl,hatom,hopen,hchecks,hruns,
      (congrArg (·+j.tally) henters).trans (Nat.zero_add _),hleaves⟩
  | refuse =>
    obtain ⟨⟨-,hguard,-,hopen,-,hruns,henters,hleaves⟩,rfl⟩ := staged hj h
    exact ⟨hguard,⟨(note_aside rfl).trans hopen.1,hopen.2⟩,hruns,henters,hleaves⟩
  | runLocal =>
    obtain ⟨⟨hheld,hguard,hatom,hopen,hfresh⟩,rfl⟩ := staged hj h
    exact ⟨by rw [hheld],hguard,hatom,hopen,hfresh⟩
  | runProcess =>
    obtain ⟨⟨hheld,hguard,hatom,hopen,hfresh⟩,rfl⟩ := staged hj h
    refine ⟨fun p => ?_,hguard,hatom,hopen,hfresh⟩
    show p ∈ insert .processRunning j.held
    rw [hheld]
    cases p <;> decide
  | closed =>
    obtain ⟨hwaits,rfl⟩ := guarded_eq_some.mp h
    obtain ⟨hguard,-,hopen,hfresh⟩ := waits_sound hj hwaits
    exact ⟨hguard,hfresh,hopen.2,.inr ⟨note_open rfl hopen,nofun,nofun⟩⟩
  | drop =>
    obtain ⟨hwaits,rfl⟩ := guarded_eq_some.mp h
    obtain ⟨hguard,hatom,hopen,hfresh⟩ := waits_sound hj hwaits
    exact ⟨hguard,hfresh,hopen.2,.inl ⟨hatom,hopen⟩⟩
  | dispatch check =>
    obtain ⟨⟨hheld,hguard,hatom,hopen,hfresh⟩,rfl⟩ := staged hj h
    cases check with
    | passes =>
      obtain ⟨hchecks,hrest⟩ := hfresh
      exact ⟨hheld,⟨congrArg (·+1) hchecks,hrest⟩,.inl ⟨hguard,hatom,hopen⟩⟩
    | fails => exact ⟨hguard,hfresh,hopen.2,.inr ⟨note_open rfl hopen,nofun,nofun⟩⟩
    | panics => exact ⟨hguard,hfresh,hopen.2,.inl ⟨hatom,hopen⟩⟩
  | start =>
    obtain ⟨hat,rfl⟩ := staged hj h
    exact hat
  | abort =>
    obtain ⟨⟨-,⟨-,hruns,henters,hleaves⟩,hcontested⟩,rfl⟩ := staged hj h
    exact ⟨henters,hleaves,.inl ⟨hruns,hcontested⟩⟩
  | claim =>
    obtain ⟨⟨hheld,hfresh,⟨-,hatom,hopen⟩ | ⟨hguard,hatom,hended⟩⟩,rfl⟩ := staged hj h
    · rw [show j.atom = .pending from hatom]
      exact ⟨hheld,hfresh,rfl,hopen⟩
    · rw [show j.atom = .cancelled from hatom]
      exact ⟨hheld,.inl hfresh.2.1,hfresh.2.2.1,hfresh.2.2.2,.inl ⟨rfl,hguard,rfl,hended⟩⟩
  | recheck check =>
    obtain ⟨⟨hheld,⟨hchecks,hruns,henters,hleaves⟩,hatom,hopen⟩,rfl⟩ := staged hj h
    cases check with
    | passes =>
      exact ⟨hheld,congrArg (·+1) hchecks,congrArg (·+1) hruns,henters,hleaves,hatom,hopen⟩
    | fails => exact ⟨hheld,.inl hruns,henters,hleaves,.inr ⟨nofun,hatom,hopen⟩⟩
    | panics => exact ⟨hheld,.inl hruns,henters,hleaves,.inr ⟨nofun,hatom,hopen⟩⟩
  | finish outcome =>
    obtain ⟨⟨hstage,houtcome⟩,rfl⟩ := guarded_eq_some.mp h
    simp only [Sound, hstage] at hj
    obtain ⟨hheld,hchecks,hruns,henters,hleaves,hatom,hopen⟩ := hj
    exact ⟨hheld,.inr ⟨hruns,hchecks,hopen.2⟩,henters,hleaves,.inr ⟨houtcome,hatom,hopen⟩⟩
  | trace =>
    rw [act] at h
    split at h
    · rename_i outcome hstage
      cases h
      simp only [Sound, hstage] at hj
      obtain ⟨-,hran,henters,hleaves,⟨rfl,-,-,hended⟩ | ⟨houtcome,-,hopen⟩⟩ := hj
      · exact ⟨henters,hleaves,.inr ⟨hran,hended,nofun,nofun⟩⟩
      · obtain ⟨m,hm,hending⟩ := outcome_metric houtcome
        rw [hm]
        exact ⟨henters,hleaves,.inr ⟨hran,note_open hending hopen,nofun,nofun⟩⟩
    · cases h
  | leave =>
    obtain ⟨⟨henters,hleaves,hsettling⟩,rfl⟩ := staged hj h
    exact ⟨henters,(congrArg (·+j.tally) hleaves).trans (Nat.zero_add _),hsettling⟩
  | release p =>
    obtain ⟨⟨hgives,-⟩,rfl⟩ := guarded_eq_some.mp h
    cases hstage : j.stage <;> simp only [givesBack, hstage, Bool.false_eq_true] at hgives <;>
      simp only [Sound, hstage] at hj ⊢ <;> exact hj
  | dropGuard => exact drop_guard_sound hj h

end Job

/-! ## Permits and semaphores -/

section Permits

variable {σ : Type} [DecidableEq σ] {j j' : Job σ} {a : Act} {p : Permit}

theorem weight_insert (hp : p ∉ j.held) (i : Semaphore σ) :
    Job.weight {j with held := insert p j.held} i =
      j.weight i+if i = p.semaphore j.scope then 1 else 0 := by
  cases i <;> cases p <;> simp [Job.weight, Permit.semaphore, hp, eq_comm]

theorem weight_erase (hp : p ∈ j.held) (i : Semaphore σ) :
    j.weight i = Job.weight {j with held := j.held.erase p} i+
      if i = p.semaphore j.scope then 1 else 0 := by
  cases i <;> cases p <;> simp [Job.weight, Permit.semaphore, hp, eq_comm]

/-- The acts that take or give back a permit. -/
def Act.moves : Act → Bool
  | .admitProcess | .runLocal | .runProcess | .release _ => true
  | _ => false

omit [DecidableEq σ] in
/-- A job keeps its identity, and its permits except where it takes or gives one. -/
theorem act_frame (h : j.act a = some j') :
    j'.id = j.id ∧ j'.scope = j.scope ∧ (a.moves = false → j'.held = j.held) := by
  cases a
  case admitProcess | runLocal | runProcess | release =>
    obtain ⟨-,rfl⟩ := guarded_eq_some.mp h
    exact ⟨rfl,rfl,nofun⟩
  case refuse | closed | drop | start | abort | finish | leave =>
    obtain ⟨-,rfl⟩ := guarded_eq_some.mp h
    exact ⟨rfl,rfl,fun _ => rfl⟩
  case dispatch | recheck | claim =>
    obtain ⟨-,rfl⟩ := guarded_eq_some.mp h
    split <;> exact ⟨rfl,rfl,fun _ => rfl⟩
  case trace =>
    rw [Job.act] at h
    split at h
    · rename_i outcome _
      cases h
      cases outcome <;> exact ⟨rfl,rfl,fun _ => rfl⟩
    · cases h
  case dropGuard =>
    obtain ⟨-,rfl⟩ := guarded_eq_some.mp h
    unfold Job.exchange
    split <;> exact ⟨rfl,rfl,fun _ => rfl⟩

theorem weight_same (hscope : j'.scope = j.scope) (hheld : j'.held = j.held) :
    j'.weight = j.weight := by
  ext i
  cases i <;> simp only [Job.weight, hscope, hheld]

/-- An act changes the job's weight by what it moves. -/
theorem act_balanced {free free' : Semaphore σ → ℕ} {jobs : Multiset (Job σ)}
    (hb : Balanced capacity free Job.weight jobs) (hj : j.Sound) (hmem : j ∈ jobs)
    (h : j.act a = some j') (hp : a.permits j.scope free = some free') :
    Balanced capacity free' Job.weight (j' ::ₘ jobs.erase j) := by
  have hsum := total_exchange Job.weight j' hmem
  have htake : ∀ p, p ∉ j.held → j'.weight = Job.weight {j with held := insert p j.held} →
      tryAcquire free (p.semaphore j.scope) 1 = some free' →
      Balanced capacity free' Job.weight (j' ::ₘ jobs.erase j) := by
    intro p hout hweight hfree
    refine hb.acquire hfree fun i => ?_
    have hi := hsum i
    rw [hweight, weight_insert hout] at hi
    omega
  have hsame : a.moves = false → free' = free →
      Balanced capacity free' Job.weight (j' ::ₘ jobs.erase j) := by
    rintro hmoves rfl
    refine hb.same fun i => ?_
    have hi := hsum i
    rw [weight_same (act_frame h).2.1 ((act_frame h).2.2 hmoves)] at hi
    omega
  cases a with
  | admitProcess =>
    obtain ⟨hstage,rfl⟩ := guarded_eq_some.mp h
    simp only [Job.Sound, hstage] at hj
    exact htake .processOutstanding (by rw [hj.1]; decide) rfl hp
  | runLocal =>
    obtain ⟨hstage,rfl⟩ := guarded_eq_some.mp h
    simp only [Job.Sound, hstage] at hj
    exact htake .localRunning (by rw [hj.1]; decide) rfl hp
  | runProcess =>
    obtain ⟨hstage,rfl⟩ := guarded_eq_some.mp h
    simp only [Job.Sound, hstage] at hj
    exact htake .processRunning (by rw [hj.1]; decide) rfl hp
  | release p =>
    obtain ⟨⟨-,hin⟩,rfl⟩ := guarded_eq_some.mp h
    cases hp
    refine hb.release fun i => ?_
    have hi := hsum i
    rw [weight_erase hin i] at hi
    omega
  | refuse => exact hsame rfl (guarded_eq_some.mp hp).2.symm
  | closed => exact hsame rfl (Option.some.inj hp).symm
  | drop => exact hsame rfl (Option.some.inj hp).symm
  | dispatch => exact hsame rfl (Option.some.inj hp).symm
  | start => exact hsame rfl (Option.some.inj hp).symm
  | abort => exact hsame rfl (Option.some.inj hp).symm
  | claim => exact hsame rfl (Option.some.inj hp).symm
  | recheck => exact hsame rfl (Option.some.inj hp).symm
  | finish => exact hsame rfl (Option.some.inj hp).symm
  | trace => exact hsame rfl (Option.some.inj hp).symm
  | leave => exact hsame rfl (Option.some.inj hp).symm
  | dropGuard => exact hsame rfl (Option.some.inj hp).symm

end Permits

/-! ## Histories -/

structure Kept {σ : Type} [DecidableEq σ] (s : State σ) : Prop where
  balanced : Balanced capacity s.free Job.weight s.jobs
  sound : ∀ j ∈ s.jobs, j.Sound
  fresh : ∀ j ∈ s.jobs, j.id < s.next
  distinct : (s.jobs.map Job.id).Nodup

section Histories

variable {σ : Type} [DecidableEq σ] {s s' : State σ} {e : Event σ}

theorem start_kept : Kept (start : State σ) :=
  ⟨fun _ => rfl,by simp [start],by simp [start],by simp [start]⟩

theorem step_kept (hs : Kept s) (h : step s e = some s') : Kept s' := by
  cases e with
  | admitLocal scope profiled =>
    obtain ⟨free,hfree,rfl⟩ := Option.map_eq_some_iff.mp h
    refine ⟨hs.balanced.acquire hfree fun i => ?_,fun j hj => ?_,fun j hj => ?_,?_⟩
    · rw [total_cons, Nat.add_comm]
      cases i <;> simp [Job.weight, Job.admitted, eq_comm]
    · rcases Multiset.mem_cons.mp hj with rfl | hj
      · exact ⟨rfl,rfl,rfl,⟨rfl,rfl⟩,rfl,rfl,rfl,rfl⟩
      · exact hs.sound j hj
    · rcases Multiset.mem_cons.mp hj with rfl | hj
      · exact Nat.lt_succ_self _
      · exact Nat.lt_succ_of_lt (hs.fresh j hj)
    · rw [Multiset.map_cons, Multiset.nodup_cons]
      refine ⟨fun hin => ?_,hs.distinct⟩
      obtain ⟨j,hj,hid⟩ := Multiset.mem_map.mp hin
      exact absurd hid (hs.fresh j hj).ne
  | act j a =>
    obtain ⟨_,hguard,hbind⟩ := Option.bind_eq_some_iff.mp h
    obtain ⟨hmem,-⟩ := guarded_eq_some.mp hguard
    obtain ⟨j',hact,hmap⟩ := Option.bind_eq_some_iff.mp hbind
    obtain ⟨free,hfree,rfl⟩ := Option.map_eq_some_iff.mp hmap
    have hsound := hs.sound j hmem
    obtain ⟨hid,-⟩ := act_frame hact
    refine ⟨act_balanced hs.balanced hsound hmem hact hfree,
      forall_exchange hs.sound (Job.act_sound hsound hact),
      forall_exchange hs.fresh (hid ▸ hs.fresh j hmem),?_⟩
    have hperm : (j' ::ₘ s.jobs.erase j).map Job.id = s.jobs.map Job.id := by
      rw [Multiset.map_cons, hid, ← Multiset.map_cons, Multiset.cons_erase hmem]
    exact hperm ▸ hs.distinct

end Histories

/-! ## What the stages promise -/

/-- The job and its waiter are gone, and so are the permits. -/
def Job.over {σ : Type} (j : Job σ) : Bool :=
  (j.stage = .freeing || j.stage = .refused) && !j.guard && j.held = ∅

section Promises

variable {σ : Type} {j : Job σ}

theorem tally_le (j : Job σ) : j.tally ≤ 1 := by
  unfold Job.tally
  split
  · exact Nat.le_refl _
  · exact Nat.zero_le _

theorem ran_runs (h : j.Ran) :
    j.runs ≤ 1 ∧ (1 ≤ j.runs → j.checks = 2) ∧ (j.withdrawn = true → j.runs = 0) := by
  rcases h with hruns | ⟨hruns,hchecks,hwithdrawn⟩
  · exact ⟨by omega,fun h => by omega,fun _ => hruns⟩
  · refine ⟨by omega,fun _ => hchecks,fun h => ?_⟩
    rw [hwithdrawn] at h
    cases h

theorem sound_ran (hj : j.Sound) : j.Ran := by
  cases hstage : j.stage <;> simp only [Job.Sound, hstage] at hj
  case admitting => exact .inl hj.2.2.2.2.2.1
  case refused => exact .inl hj.2.2.1
  case waitingLocal | waitingProcess | checking => exact .inl hj.2.2.2.2.2.1
  case dropping => exact .inl hj.2.1.2.1
  case queued | started | rechecking => exact .inl hj.2.1.2.1
  case working => exact .inr ⟨hj.2.2.1,hj.2.1,hj.2.2.2.2.2.2.2⟩
  case finishing => exact hj.2.1
  case leaving | freeing =>
    rcases hj.2.2 with ⟨hruns,-⟩ | ⟨hran,-⟩
    · exact .inl hruns
    · exact hran

theorem settling_endings (hj : j.Settling) : j.endings.length ≤ j.tally := by
  rcases hj with ⟨-,⟨-,-,hopen⟩ | ⟨-,-,hended⟩⟩ | ⟨-,hcounted⟩
  · rw [hopen.1]
    exact Nat.zero_le _
  · exact hended.le
  · exact hcounted.1.le

theorem sound_counts (hj : j.Sound) :
    j.enters ≤ 1 ∧ j.leaves ≤ j.enters ∧ j.endings.length ≤ j.enters := by
  have htally := tally_le j
  have hnone : j.Open → j.endings.length = 0 := fun h => by rw [h.1]; rfl
  cases hstage : j.stage <;> simp only [Job.Sound, hstage] at hj
  case admitting =>
    obtain ⟨-,-,-,hopen,-,-,henters,hleaves⟩ := hj
    have hzero := hnone hopen
    omega
  case refused =>
    obtain ⟨-,hopen,-,henters,hleaves⟩ := hj
    have hzero := hnone hopen
    omega
  case waitingLocal | waitingProcess | checking =>
    obtain ⟨-,-,-,hopen,-,-,henters,hleaves⟩ := hj
    have hzero := hnone hopen
    omega
  case dropping =>
    obtain ⟨-,⟨-,-,henters,hleaves⟩,-,⟨-,hopen⟩ | hcounted⟩ := hj
    · have hzero := hnone hopen
      omega
    · have hended := hcounted.1
      omega
  case queued | started =>
    obtain ⟨-,⟨-,-,henters,hleaves⟩,⟨-,-,hopen⟩ | ⟨-,-,hended⟩⟩ := hj
    · have hzero := hnone hopen
      omega
    · omega
  case rechecking =>
    obtain ⟨-,⟨-,-,henters,hleaves⟩,-,hopen⟩ := hj
    have hzero := hnone hopen
    omega
  case working =>
    obtain ⟨-,-,-,henters,hleaves,-,hopen⟩ := hj
    have hzero := hnone hopen
    omega
  case finishing outcome =>
    obtain ⟨-,-,henters,hleaves,⟨-,-,-,hended⟩ | ⟨-,-,hopen⟩⟩ := hj
    · omega
    · have hzero := hnone hopen
      omega
  case leaving | freeing =>
    obtain ⟨henters,hleaves,hsettling⟩ := hj
    have hended := settling_endings hsettling
    omega

theorem over_counts (hj : j.Sound) (ho : j.over = true) :
    j.leaves = j.enters ∧ j.endings.length = j.enters := by
  simp only [Job.over, Bool.and_eq_true, Bool.or_eq_true, decide_eq_true_eq, Bool.not_eq_true'] at ho
  obtain ⟨⟨hstage | hstage,hguard⟩,-⟩ := ho <;> simp only [Job.Sound, hstage] at hj
  · obtain ⟨henters,hleaves,⟨-,⟨hyes,-⟩ | ⟨-,-,hended⟩⟩ | ⟨-,hcounted⟩⟩ := hj
    · rw [hguard] at hyes
      cases hyes
    · exact ⟨hleaves.trans henters.symm,hended.trans henters.symm⟩
    · exact ⟨hleaves.trans henters.symm,hcounted.1.trans henters.symm⟩
  · obtain ⟨-,hopen,-,henters,hleaves⟩ := hj
    exact ⟨hleaves.trans henters.symm,by rw [hopen.1, henters]; rfl⟩

theorem working_held (hj : j.Sound) (hstage : j.stage = .working) (p : Permit) : p ∈ j.held := by
  simp only [Job.Sound, hstage] at hj
  exact hj.1 p

variable [DecidableEq σ] {s : State σ}

theorem act_enabled {a : Act} (hmem : j ∈ s.jobs) (hact : (j.act a).isSome = true)
    (hp : (a.permits j.scope s.free).isSome = true) : ∃ s', step s (.act j a) = some s' := by
  obtain ⟨j',hj'⟩ := Option.isSome_iff_exists.mp hact
  obtain ⟨free,hfree⟩ := Option.isSome_iff_exists.mp hp
  simp [step, guarded, hmem, hj', hfree]

/-- No job is stuck before it is over. -/
theorem Kept.goes_on (hs : Kept s) (hmem : j ∈ s.jobs) (ho : j.over = false) :
    ∃ a s', step s (.act j a) = some s' := by
  have hj := hs.sound j hmem
  have hgive : j.givesBack = true → j.held ≠ ∅ → ∃ a s', step s (.act j a) = some s' := by
    intro hgives hheld
    obtain ⟨p,hp⟩ := Finset.nonempty_iff_ne_empty.mpr hheld
    exact ⟨.release p,act_enabled hmem (by simp [Job.act, guarded, hgives, hp]) rfl⟩
  cases hstage : j.stage
  case admitting =>
    by_cases hfree : s.free .processOutstanding = 0
    · exact ⟨.refuse,act_enabled hmem (by simp [Job.act, guarded, hstage])
        (by simp [Act.permits, guarded, hfree])⟩
    · refine ⟨.admitProcess,act_enabled hmem (by simp [Job.act, guarded, hstage]) ?_⟩
      simp [Act.permits, tryAcquire, guarded, Nat.one_le_iff_ne_zero.mpr hfree]
  case refused =>
    refine hgive (by simp [Job.givesBack, hstage]) fun hheld => ?_
    simp only [Job.Sound, hstage] at hj
    simp [Job.over, hstage, hheld, hj.1] at ho
  case waitingLocal | waitingProcess =>
    exact ⟨.drop,act_enabled hmem (by simp [Job.act, guarded, Job.waits, hstage]) rfl⟩
  case checking =>
    exact ⟨.dispatch .passes,act_enabled hmem (by simp [Job.act, guarded, hstage]) rfl⟩
  case dropping =>
    simp only [Job.Sound, hstage] at hj
    exact ⟨.dropGuard,act_enabled hmem (by simp [Job.act, guarded, Job.guardGoes, hstage, hj.1]) rfl⟩
  case queued => exact ⟨.start,act_enabled hmem (by simp [Job.act, guarded, hstage]) rfl⟩
  case started => exact ⟨.claim,act_enabled hmem (by simp [Job.act, guarded, hstage]) rfl⟩
  case rechecking =>
    exact ⟨.recheck .passes,act_enabled hmem (by simp [Job.act, guarded, hstage]) rfl⟩
  case working => exact ⟨.finish .hit,act_enabled hmem (by simp [Job.act, guarded, hstage]) rfl⟩
  case finishing => exact ⟨.trace,act_enabled hmem (by simp [Job.act, hstage]) rfl⟩
  case leaving => exact ⟨.leave,act_enabled hmem (by simp [Job.act, guarded, hstage]) rfl⟩
  case freeing =>
    by_cases hguard : j.guard = true
    · exact ⟨.dropGuard,
        act_enabled hmem (by simp [Job.act, guarded, Job.guardGoes, hstage, hguard]) rfl⟩
    · refine hgive (by simp [Job.givesBack, hstage]) fun hheld => ?_
      simp [Job.over, hstage, hheld, hguard] at ho

/-- The permits belong to the jobs that are not over. -/
theorem Kept.permits (hs : Kept s) (k : Semaphore σ) :
    s.free k+total Job.weight (s.jobs.filter fun j => j.over = false) k = capacity k := by
  rw [total_holders]
  · exact hs.balanced k
  · intro j _ hover
    rw [Bool.not_eq_false, Job.over, Bool.and_eq_true, decide_eq_true_eq] at hover
    cases k <;> simp [Job.weight, hover.2]

theorem Kept.running_le (hs : Kept s) {p : Job σ → Prop} [DecidablePred p] {k : Semaphore σ}
    {n : ℕ} (hk : capacity k = n) (hp : ∀ j ∈ s.jobs, p j → 1 ≤ j.weight k) :
    (s.jobs.filter p).card ≤ n :=
  (card_le_total hp).trans (hk ▸ hs.balanced.le k)

end Promises

end Scorpio.CasWorker
