import Scorpio.Base.Traces

/-!
# The single-flight fetch coordinator

Callers of one content key share a flight. All flight state is changed under one
mutex, so each locked section is one event: joining or leading, the drop of a
waiter's registration, and taking the waiters of a job that ends. Sends happen
after the lock is released, one event each. A flight is identified by its
generation; `same_flight` also compares the allocation, which the generation
determines. A semaphore is the list of those that hold its permits, and other
coordinators of the process take part in the global ones.
-/

set_option autoImplicit false

namespace Scorpio.FetchCoordinator

open Traces

/-- What a flight answers: the content, an error of the fetch, the cancellation of a
flight without live waiters, or the error of a job that ended without a result. -/
inductive FetchResult (ν ε : Type) where
  | content (v : ν)
  | error (e : ε)
  | noLiveWaiters
  | noResult
  deriving DecidableEq, Repr

structure Waiter where
  id : ℕ
  call : ℕ
  deriving DecidableEq, Repr

structure PendingFlight where
  flight : ℕ
  waiters : List Waiter
  deriving DecidableEq, Repr

inductive Job (ν ε : Type) where
  | running
  | delivering (r : FetchResult ν ε) (outbox : List Waiter)
  | ended (r : FetchResult ν ε)
  deriving DecidableEq, Repr

structure Flight (κ ν ε : Type) where
  key : κ
  cancel : Bool
  job : Job ν ε
  deriving DecidableEq, Repr

/-- A call before, in and after its registration. `ended` has no flight's result: the call
was refused, answered without the coordinator, or dropped. -/
inductive Call (κ ν ε : Type) where
  | idle
  | admitted
  | direct
  | waiting (id : ℕ) (key : κ) (flight : ℕ) (inbox : List (FetchResult ν ε))
  | returned (flight : ℕ) (r : FetchResult ν ε)
  | ended
  deriving DecidableEq, Repr

def Call.live {κ ν ε : Type} : Call κ ν ε → Bool
  | .admitted => true
  | .direct => true
  | .waiting _ _ _ _ => true
  | _ => false

def Job.unfinished {ν ε : Type} : Job ν ε → Bool
  | .ended _ => false
  | _ => true

/-- The owner of a job permit. -/
inductive Holder where
  | call (c : ℕ)
  | flight (f : ℕ)
  deriving DecidableEq, Repr

structure Limits where
  maxPendingJobs : ℕ
  maxActiveCallers : ℕ

def maxProcessPendingJobs : ℕ := 256
def maxProcessActiveCallers : ℕ := 1024
def u64Max : ℕ := 2^64-1

structure State (κ ν ε : Type) where
  entries : κ → Option PendingFlight
  nextId : ℕ
  flights : ℕ → Option (Flight κ ν ε)
  calls : ℕ → Call κ ν ε
  callers : List ℕ
  jobs : List Holder
  otherCallers : ℕ
  otherJobs : ℕ

def new (κ ν ε : Type) : State κ ν ε := ⟨fun _ => none,0,fun _ => none,fun _ => .idle,[],[],0,0⟩

inductive Event (κ ν ε : Type) where
  | enter (c : ℕ)
  | reject (c : ℕ)
  | leave (c : ℕ)
  | leadAlone (c : ℕ)
  | endAlone (c : ℕ)
  | register (c : ℕ) (key : κ)
  | observeCancel (f : ℕ)
  | complete (f : ℕ) (r : FetchResult ν ε)
  | panic (f : ℕ)
  | send (f : ℕ) (w : Waiter)
  | dropGuard (f : ℕ)
  | receive (c : ℕ)
  | dropCall (c : ℕ)
  | others (callers jobs : ℕ)

section Machine

variable {κ ν ε : Type} [DecidableEq κ] [DecidableEq ν] [DecidableEq ε] (limits : Limits)

/-- `CountAdmission::acquire` on the two caller semaphores would succeed. -/
def State.callerFree (s : State κ ν ε) : Prop :=
  s.callers.length < limits.maxActiveCallers ∧
    s.callers.length+s.otherCallers < maxProcessActiveCallers

def State.jobFree (s : State κ ν ε) : Prop :=
  s.jobs.length < limits.maxPendingJobs ∧ s.jobs.length+s.otherJobs < maxProcessPendingJobs

instance (s : State κ ν ε) : Decidable (s.callerFree limits) :=
  inferInstanceAs (Decidable (_ ∧ _))

instance (s : State κ ν ε) : Decidable (s.jobFree limits) :=
  inferInstanceAs (Decidable (_ ∧ _))

/-- The call is over and its caller permit is given back. -/
def State.finish (s : State κ ν ε) (c : ℕ) (phase : Call κ ν ε) : State κ ν ε :=
  {s with calls := Function.update s.calls c phase, callers := s.callers.erase c}

def State.setJob (s : State κ ν ε) (f : ℕ) (fl : Flight κ ν ε) (job : Job ν ε) : State κ ν ε :=
  {s with flights := Function.update s.flights f (some {fl with job := job})}

/-- The caller becomes one more waiter of the flight that is attached to its key. -/
def join (s : State κ ν ε) (c : ℕ) (key : κ) (p : PendingFlight) : State κ ν ε :=
  {s with
    nextId := s.nextId+1
    entries := Function.update s.entries key (some {p with waiters := ⟨s.nextId+1,c⟩ :: p.waiters})
    calls := Function.update s.calls c (.waiting (s.nextId+1) key p.flight [])}

/-- The caller is the first waiter of a new flight, whose job is spawned. -/
def lead (s : State κ ν ε) (c : ℕ) (key : κ) : State κ ν ε :=
  {s with
    nextId := s.nextId+2
    entries := Function.update s.entries key (some ⟨s.nextId+2,[⟨s.nextId+1,c⟩]⟩)
    flights := Function.update s.flights (s.nextId+2) (some ⟨key,false,.running⟩)
    calls := Function.update s.calls c (.waiting (s.nextId+1) key (s.nextId+2) [])
    jobs := .flight (s.nextId+2) :: s.jobs}

/-- The locked section of `fetch_owned`. -/
def register (s : State κ ν ε) (c : ℕ) (key : κ) : State κ ν ε :=
  if s.nextId = u64Max then s.finish c .ended else
  match s.entries key with
  | some p => join s c key p
  | none =>
    if ¬ s.jobFree limits ∨ s.nextId+1 = u64Max then {s with nextId := s.nextId+1}.finish c .ended
    else lead s c key

/-- `WaiterRegistration::drop`: only the flight that the waiter registered with is touched. -/
def dropRegistration (s : State κ ν ε) (id : ℕ) (key : κ) (f : ℕ) : State κ ν ε :=
  match s.entries key with
  | none => s
  | some p =>
    if p.flight ≠ f then s else
    let rest := p.waiters.filter (·.id ≠ id)
    if rest = [] then
      {s with
        entries := Function.update s.entries key none
        flights := Function.update s.flights f ((s.flights f).map ({· with cancel := true}))}
    else {s with entries := Function.update s.entries key (some {p with waiters := rest})}

/-- `JobGuard::take_waiters`. -/
def takeWaiters (s : State κ ν ε) (key : κ) (f : ℕ) : List Waiter × State κ ν ε :=
  match s.entries key with
  | none => ([],s)
  | some p => if p.flight = f then
      (p.waiters,{s with entries := Function.update s.entries key none})
    else ([],s)

/-- A job that ends takes its waiters and goes on to answer them. -/
def deliver (s : State κ ν ε) (f : ℕ) (fl : Flight κ ν ε) (r : FetchResult ν ε) : State κ ν ε :=
  (takeWaiters s fl.key f).2.setJob f fl (.delivering r (takeWaiters s fl.key f).1)

def step (s : State κ ν ε) : Event κ ν ε → Option (State κ ν ε)
  | .enter c => guarded (s.calls c = .idle ∧ s.callerFree limits)
      {s with calls := Function.update s.calls c .admitted, callers := c :: s.callers}
  | .reject c => guarded (s.calls c = .idle)
      {s with calls := Function.update s.calls c .ended}
  -- A failed membership or lease check, or the drop of the call before it registers.
  | .leave c => guarded (s.calls c = .admitted) (s.finish c .ended)
  | .leadAlone c => guarded (s.calls c = .admitted ∧ s.jobFree limits)
      {s with calls := Function.update s.calls c .direct, jobs := .call c :: s.jobs}
  | .endAlone c => guarded (s.calls c = .direct)
      {s.finish c .ended with jobs := s.jobs.erase (.call c)}
  | .register c key => guarded (s.calls c = .admitted) (register limits s c key)
  | .observeCancel f => (s.flights f).bind fun fl =>
      guarded (fl.job = .running ∧ fl.cancel = true) (deliver s f fl .noLiveWaiters)
  -- `lead` itself answers with the cancellation only after it has seen the latch.
  | .complete f r => (s.flights f).bind fun fl =>
      guarded (fl.job = .running ∧ (r = .noLiveWaiters → fl.cancel = true))
        (deliver s f fl r)
  | .panic f => (s.flights f).bind fun fl =>
      guarded (fl.job = .running) (deliver s f fl .noResult)
  | .send f w => (s.flights f).bind fun fl => match fl.job with
      | .delivering r outbox => guarded (w ∈ outbox) (
          let s' := s.setJob f fl (.delivering r (outbox.erase w))
          match s.calls w.call with
          | .waiting id key g inbox =>
            {s' with calls := Function.update s.calls w.call (.waiting id key g (r :: inbox))}
          | _ => s')
      | _ => none
  | .dropGuard f => (s.flights f).bind fun fl => match fl.job with
      | .delivering r [] => some
          {s.setJob f fl (.ended r) with jobs := s.jobs.erase (.flight f)}
      | _ => none
  | .receive c => match s.calls c with
      | .waiting id key f (r :: _) => some ((dropRegistration s id key f).finish c (.returned f r))
      | _ => none
  | .dropCall c => match s.calls c with
      | .waiting id key f _ => some ((dropRegistration s id key f).finish c .ended)
      | _ => none
  | .others callers jobs =>
      guarded (s.callers.length+callers ≤ maxProcessActiveCallers ∧
          s.jobs.length+jobs ≤ maxProcessPendingJobs)
        {s with otherCallers := callers, otherJobs := jobs}

end Machine

end Scorpio.FetchCoordinator
