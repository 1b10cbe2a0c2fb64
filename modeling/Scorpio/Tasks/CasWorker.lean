import Scorpio.Base.Credits

/-!
# Admission of local CAS work

A call takes a place among the outstanding jobs of its scope and of the process,
waits for a running slot of both, and moves its four permits into a blocking job.
The job and the guard that its waiter holds decide between running and cancelled by
one atomic exchange. The acts of one job are separate from the semaphores, so that a
history interleaves any number of jobs of any number of scopes, with waiters dropped
wherever they await.
-/

set_option autoImplicit false

namespace Scorpio.CasWorker

open Traces Credits

def localOutstanding : ℕ := 16
def localRunning : ℕ := 2
def processOutstanding : ℕ := 64
def processRunning : ℕ := 4

/-- The fields of `JobPermits`. -/
inductive Permit where
  | localOutstanding
  | processOutstanding
  | localRunning
  | processRunning
  deriving DecidableEq

inductive Semaphore (σ : Type) where
  | outstanding (scope : σ)
  | running (scope : σ)
  | processOutstanding
  | processRunning
  deriving DecidableEq

def capacity {σ : Type} : Semaphore σ → ℕ
  | .outstanding _ => localOutstanding
  | .running _ => localRunning
  | .processOutstanding => processOutstanding
  | .processRunning => processRunning

def Permit.semaphore {σ : Type} (scope : σ) : Permit → Semaphore σ
  | .localOutstanding => .outstanding scope
  | .processOutstanding => .processOutstanding
  | .localRunning => .running scope
  | .processRunning => .processRunning

inductive Metric where
  | workerRejected
  | workerCancelledPending
  | workerDetached
  | workerPanic
  | workerBackingHit
  | workerBackingMiss
  | workerLeaseRejected
  | workerError
  deriving DecidableEq

/-- The metrics that say how an admitted job ended. -/
def Metric.ending : Metric → Bool
  | workerRejected | workerDetached => false
  | _ => true

/-- The values of the atomic state. -/
inductive Atom where
  | pending
  | running
  | cancelled
  | finished
  deriving DecidableEq

inductive Check where
  | passes
  | fails
  | panics

/-- The outcome a `JobTrace` is dropped with, or that it is dropped by a panic. -/
inductive Outcome where
  | hit
  | miss
  | error
  | leaseError
  | cancelledBeforeStart
  | panic
  deriving DecidableEq

def Outcome.metric : Outcome → Option Metric
  | hit => some .workerBackingHit
  | miss => some .workerBackingMiss
  | error => some .workerError
  | leaseError => some .workerLeaseRejected
  | cancelledBeforeStart => none
  | panic => some .workerPanic

/-- Where the owner of the permits is: the call up to `dropping`, then the blocking job. -/
inductive Stage where
  | admitting
  | refused
  | waitingLocal
  | waitingProcess
  | checking
  | dropping
  | queued
  | started
  | rechecking
  | working
  | finishing (outcome : Outcome)
  | leaving
  | freeing
  deriving DecidableEq

/-- `guard` is the waiter's `CancelOnDrop`. The counts are of what the job has done so far:
access checks that passed, calls of its work, and of its profile; `withdrawn` is set when its
waiter goes while it is pending. -/
structure Job (σ : Type) where
  id : ℕ
  scope : σ
  profiled : Bool
  stage : Stage
  atom : Atom
  guard : Bool
  held : Finset Permit
  checks : ℕ
  runs : ℕ
  enters : ℕ
  leaves : ℕ
  metrics : List Metric
  withdrawn : Bool
  deriving DecidableEq

/-- The acts of one job, in the order of the source. -/
inductive Act where
  | admitProcess
  | refuse
  | runLocal
  | runProcess
  | closed
  | drop
  | dispatch (check : Check)
  | start
  | abort
  | claim
  | recheck (check : Check)
  | finish (outcome : Outcome)
  | trace
  | leave
  | release (p : Permit)
  | dropGuard

namespace Job

variable {σ : Type}

/-- Without a profile nothing is counted. -/
def tally (j : Job σ) : ℕ := if j.profiled then 1 else 0

def note (j : Job σ) (m : Metric) : Job σ :=
  {j with metrics := if j.profiled then m :: j.metrics else j.metrics}

/-- Drop for CancelOnDrop. -/
def exchange (j : Job σ) : Job σ :=
  match j.atom with
  | .pending => {j.note .workerCancelledPending with atom := .cancelled, withdrawn := true}
  | .running => j.note .workerDetached
  | _ => j

def waits (j : Job σ) : Bool := j.stage = .waitingLocal || j.stage = .waitingProcess

/-- The waiter can go once its call has been left, and whenever it awaits the blocking job. -/
def guardGoes (j : Job σ) : Bool :=
  match j.stage with
  | .dropping | .queued | .started | .rechecking | .working | .finishing _ | .leaving
  | .freeing => j.guard
  | _ => false

def givesBack (j : Job σ) : Bool :=
  match j.stage with
  | .dropping | .leaving | .freeing | .refused => true
  | _ => false

def act (j : Job σ) : Act → Option (Job σ)
  | .admitProcess => guarded (j.stage = .admitting) {j with
      stage := .waitingLocal
      guard := true
      held := insert .processOutstanding j.held
      enters := j.enters+j.tally}
  | .refuse => guarded (j.stage = .admitting) {j.note .workerRejected with stage := .refused}
  | .runLocal => guarded (j.stage = .waitingLocal) {j with
      stage := .waitingProcess
      held := insert .localRunning j.held}
  | .runProcess => guarded (j.stage = .waitingProcess) {j with
      stage := .checking
      held := insert .processRunning j.held}
  | .closed => guarded (j.waits = true) {j.note .workerError with
      stage := .dropping
      atom := .finished}
  | .drop => guarded (j.waits = true) {j with stage := .dropping}
  | .dispatch check => guarded (j.stage = .checking) (match check with
    | .passes => {j with stage := .queued, checks := j.checks+1}
    | .fails => {j.note .workerLeaseRejected with stage := .dropping, atom := .finished}
    | .panics => {j with stage := .dropping})
  | .start => guarded (j.stage = .queued) {j with stage := .started}
  -- A runtime that shuts down drops the closure of a job that has not started.
  | .abort => guarded (j.stage = .queued) {j with stage := .leaving}
  | .claim => guarded (j.stage = .started) (match j.atom with
    | .pending => {j with stage := .rechecking, atom := .running}
    | _ => {j with stage := .finishing .cancelledBeforeStart})
  | .recheck check => guarded (j.stage = .rechecking) (match check with
    | .passes => {j with stage := .working, checks := j.checks+1, runs := j.runs+1}
    | .fails => {j with stage := .finishing .leaseError}
    | .panics => {j with stage := .finishing .panic})
  | .finish outcome => guarded (j.stage = .working ∧ outcome ≠ .cancelledBeforeStart)
      {j with stage := .finishing outcome}
  | .trace =>
    match j.stage with
    | .finishing outcome => some {outcome.metric.elim j j.note with
        stage := .leaving
        atom := .finished}
    | _ => none
  | .leave => guarded (j.stage = .leaving) {j with
      stage := .freeing
      leaves := j.leaves+j.tally}
  | .release p => guarded (j.givesBack = true ∧ p ∈ j.held) {j with held := j.held.erase p}
  | .dropGuard => guarded (j.guardGoes = true) {j.exchange with
      guard := false
      stage := if j.stage = .dropping then .leaving else j.stage}

def weight [DecidableEq σ] (j : Job σ) : Semaphore σ → ℕ
  | .outstanding a => if j.scope = a ∧ .localOutstanding ∈ j.held then 1 else 0
  | .running a => if j.scope = a ∧ .localRunning ∈ j.held then 1 else 0
  | .processOutstanding => if .processOutstanding ∈ j.held then 1 else 0
  | .processRunning => if .processRunning ∈ j.held then 1 else 0

end Job

/-- What an act does to the semaphores. -/
def Act.permits {σ : Type} [DecidableEq σ] (scope : σ) (free : Semaphore σ → ℕ) :
    Act → Option (Semaphore σ → ℕ)
  | .admitProcess => tryAcquire free .processOutstanding 1
  | .runLocal => tryAcquire free (.running scope) 1
  | .runProcess => tryAcquire free .processRunning 1
  | .release p => some (Credits.release free (p.semaphore scope) 1)
  | .refuse => guarded (free .processOutstanding = 0) free
  | _ => some free

structure State (σ : Type) where
  free : Semaphore σ → ℕ
  next : ℕ
  jobs : Multiset (Job σ)

def start {σ : Type} : State σ := ⟨capacity,0,0⟩

inductive Event (σ : Type) where
  | admitLocal (scope : σ) (profiled : Bool)
  | act (j : Job σ) (a : Act)

def Job.admitted {σ : Type} (id : ℕ) (scope : σ) (profiled : Bool) : Job σ :=
  ⟨id,scope,profiled,.admitting,.pending,false,{.localOutstanding},0,0,0,0,[],false⟩

def step {σ : Type} [DecidableEq σ] (s : State σ) : Event σ → Option (State σ)
  | .admitLocal scope profiled =>
    (tryAcquire s.free (.outstanding scope) 1).map fun free =>
      ⟨free,s.next+1,.admitted s.next scope profiled ::ₘ s.jobs⟩
  | .act j a =>
    (guarded (j ∈ s.jobs) ()).bind fun _ =>
      (j.act a).bind fun j' =>
        (a.permits j.scope s.free).map fun free =>
          {s with free := free, jobs := j' ::ₘ s.jobs.erase j}

end Scorpio.CasWorker
