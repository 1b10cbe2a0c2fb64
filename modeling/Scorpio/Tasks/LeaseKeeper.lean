import Scorpio.Base.JsonText
import Scorpio.Base.Traces
import Scorpio.Snapshot.ProvenFile

/-!
# The retention lease of a fixed view

Readers and one background renewer keep the lease of a view alive. They share a
window under one lock and take turns at renewing under another. Each event below is
a section of the window's lock, a read of the clock, or what happens at an await
point; the clock moves on between any two of them, and a call may be dropped
wherever it awaits.
-/

set_option autoImplicit false

namespace Scorpio.LeaseKeeper

open ByteText Fallible PageCodec JsonText ProvenFile Traces

def u32Max : ℕ := 2^32-1

def u64Max : ℕ := 2^64-1

def made (code : SnapshotErrorCode) (message : Text) : StatusError := ⟨⟨code,message⟩,0⟩

/-! ## Windows -/

/-- Instants are nanoseconds of the monotone clock. -/
structure LeaseWindow where
  deadline : ℕ
  renewAt : ℕ
  failure : Option StatusError
  transientError : Option StatusError
  renewalFailures : ℕ
  deriving DecidableEq

def recoverableRenewalError (e : StatusError) : Bool :=
  match e.error.code with
  | .metadataNotReady => e.httpStatus = 503
  | .temporaryUnavailable => e.httpStatus = 0 || [429,500,502,503,504].contains e.httpStatus
  | .internal => [429,500,502,503,504].contains e.httpStatus
  | .snapshotNotReady => [429,500,502,503,504].contains e.httpStatus
  | _ => false

/-- `100 << (renewal_failures - 1).min(3)` milliseconds. -/
def retryDelay (failures : ℕ) : ℕ := 100*2^min (failures-1) 3*1000000

def fail (now : ℕ) (error : StatusError) (w : LeaseWindow) : StatusError × LeaseWindow :=
  match w.failure with
  | some failure => (failure,w)
  | none =>
    if recoverableRenewalError error && now < w.deadline then
      let failures := min (w.renewalFailures+1) u32Max
      (error,{w with
        renewalFailures := failures
        renewAt := min (now+retryDelay failures) w.deadline
        transientError := some error})
    else
      let failure :=
        if recoverableRenewalError error then
          made .leaseExpired "snapshot retention lease expired during renewal"
        else error
      (failure,{w with failure := some failure})

def needsRenewal (now : ℕ) (w : LeaseWindow) : Except StatusError Bool :=
  match w.failure with
  | some error => .error error
  | none =>
    if w.deadline ≤ now then .error (made .leaseExpired "snapshot retention lease expired")
    else if now < w.renewAt then w.transientError.elim (.ok false) .error
    else .ok true

def localLeaseStatus (now : ℕ) (w : LeaseWindow) : Except StatusError Unit :=
  match w.failure with
  | some error => .error error
  | none =>
    if w.deadline ≤ now then .error (made .leaseExpired "snapshot retention lease expired")
    else .ok ()

/-- The reading of timestamps, two thirds of a duration in floating point, and the largest
instant of the platform. -/
structure Clocks where
  parseTimestamp : Text → Option ℤ
  twoThirds : ℕ → ℕ
  lastInstant : ℕ

/-- `instant` and `wall` are the two clocks as they are read; the second one may precede 1970. -/
def leaseWindow (x : Clocks) (expiry : Text) (instant : ℕ) (wall : Option ℕ) :
    Except StatusError LeaseWindow := do
  let expires ← okOr (x.parseTimestamp expiry)
    (made .integrityError "lease expiry is not a valid RFC3339 timestamp")
  let now ← okOr wall (made .internal "system clock precedes the Unix epoch")
  require (0 < expires-now) (made .leaseExpired "server returned an expired snapshot lease")
  let remaining := (expires-now).toNat
  require (remaining/1000000000 ≤ u64Max)
    (made .integrityError "lease expiry exceeds the clock range")
  require (instant+remaining ≤ x.lastInstant)
    (made .integrityError "lease expiry exceeds the clock range")
  pure ⟨instant+remaining,instant+x.twoThirds remaining,none,none,0⟩

/-! ## Answers to a renewal -/

/-- The fields that are read of an answer; one that is not a text is `none` under its key. -/
structure Renewal where
  leaseId : Option Text
  snapshotId : Option Text
  authorizationEpoch : Option (Option Text)
  leaseExpiresAt : Option Text
  deriving DecidableEq

/-- What never changes in a `LeaseState`. -/
structure Lease where
  leaseId : Text
  snapshotId : Text
  authorizationEpoch : Text

/-- The checks up to the expiry, and the value of `authorization_epoch_reported` after them. -/
def readRenewal (lease : Lease) (late reported : Bool) (r : Renewal) :
    Except StatusError Text × Bool :=
  if late then (.error (made .leaseExpired "renewal arrived after the granted deadline"),reported)
  else if r.leaseId ≠ some lease.leaseId ∨ r.snapshotId ≠ some lease.snapshotId then
    (.error (made .integrityError "lease renewal returned a different lease or snapshot"),reported)
  else
    let same := r.authorizationEpoch = some (some lease.authorizationEpoch)
    if same ∨ (r.authorizationEpoch = none ∧ reported = false) then
      (okOr r.leaseExpiresAt (made .integrityError "lease renewal omitted its expiry"),
        reported || same)
    else
      (.error (made .integrityError
        "lease renewal changed or invalidated its authorization epoch"),reported)

/-! ## Callers -/

inductive Caller where
  | renewer
  | reader (n : ℕ)
  deriving DecidableEq

/-- Where a caller of `ensure` is; an outcome is the error it returns, if any. -/
inductive Phase where
  | idle
  | asleep (wake : ℕ)
  | calling
  | waiting
  | holding
  | starting
  | inFlight (deadline : ℕ)
  | arrived (deadline : ℕ) (r : Renewal)
  | granting (deadline : ℕ) (expiry : Text)
  | granted (deadline : ℕ) (w : LeaseWindow)
  | storing (w : LeaseWindow)
  | failing (e : StatusError)
  | leaving (outcome : Option StatusError)
  | stopped
  deriving DecidableEq

structure State where
  clock : ℕ
  window : LeaseWindow
  reported : Bool
  holder : Option Caller
  phase : Caller → Phase

def State.goto (s : State) (c : Caller) (p : Phase) : State :=
  {s with phase := Function.update s.phase c p}

/-- The renewer goes on after a success or a recoverable error. -/
def afterCall : Caller → Option StatusError → Phase
  | .renewer, some e => if recoverableRenewalError e then .idle else .stopped
  | _, _ => .idle

inductive Event where
  | tick (n : ℕ)
  | status
  | sleep
  | wake
  | call (n : ℕ)
  | check (c : Caller)
  | lock (c : Caller)
  | recheck (c : Caller)
  | send (c : Caller)
  | timeout (c : Caller)
  | answer (c : Caller) (r : Renewal)
  | refuse (c : Caller) (e : StatusError)
  | arrive (c : Caller) (r : Renewal)
  | sample (c : Caller) (wall : Option ℕ)
  | confirm (c : Caller)
  | store (c : Caller) (w : LeaseWindow)
  | retry (c : Caller)
  | latch (c : Caller)
  | leave (c : Caller)
  | cancel (c : Caller)
  deriving DecidableEq

/-- `fail` will try again within the window. -/
def State.recovers (s : State) (e : StatusError) : Bool :=
  s.window.failure.isNone && recoverableRenewalError e && s.clock < s.window.deadline

def State.failed (s : State) (c : Caller) (e : StatusError) : State :=
  {s.goto c (.leaving (some (fail s.clock e s.window).1)) with
    window := (fail s.clock e s.window).2}

section Machine

variable (x : Clocks) (lease : Lease)

def step (s : State) : Event → Option State
  | .tick n => some {s with clock := s.clock+n}
  | .status => some s
  | .sleep => guarded (s.phase .renewer = .idle) (s.goto .renewer (.asleep s.window.renewAt))
  | .wake =>
    match s.phase .renewer with
    | .asleep t => guarded (t ≤ s.clock) (s.goto .renewer .calling)
    | _ => none
  | .call n => guarded (s.phase (.reader n) = .idle) (s.goto (.reader n) .calling)
  | .check c => guarded (s.phase c = .calling) (match needsRenewal s.clock s.window with
    | .error e => s.goto c (afterCall c (some e))
    | .ok false => s.goto c (afterCall c none)
    | .ok true => s.goto c .waiting)
  | .lock c => guarded (s.phase c = .waiting ∧ s.holder = none)
      {s.goto c .holding with holder := some c}
  | .recheck c => guarded (s.phase c = .holding) (match needsRenewal s.clock s.window with
    | .error e => s.goto c (.leaving (some e))
    | .ok false => s.goto c (.leaving none)
    | .ok true => s.goto c .starting)
  | .send c => guarded (s.phase c = .starting) (s.goto c (.inFlight s.window.deadline))
  | .timeout c =>
    match s.phase c with
    | .inFlight d => guarded (d ≤ s.clock) (s.goto c (.failing
        (made .leaseExpired "renewal did not finish before the granted deadline")))
    | _ => none
  | .answer c r =>
    match s.phase c with
    | .inFlight d => some (s.goto c (.arrived d r))
    | _ => none
  | .refuse c e =>
    match s.phase c with
    | .inFlight _ => some (s.goto c (.failing e))
    | _ => none
  | .arrive c r =>
    match s.phase c with
    | .arrived d r' => guarded (r = r')
        {s.goto c (match (readRenewal lease (d ≤ s.clock) s.reported r).1 with
          | .ok expiry => .granting d expiry
          | .error e => .failing e) with
          reported := (readRenewal lease (d ≤ s.clock) s.reported r).2}
    | _ => none
  | .sample c wall =>
    match s.phase c with
    | .granting d expiry => some (match leaseWindow x expiry s.clock wall with
      | .ok w => s.goto c (.granted d w)
      | .error e => s.goto c (.failing e))
    | _ => none
  | .confirm c =>
    match s.phase c with
    | .granted d w => some (if d ≤ s.clock then
        s.goto c (.failing (made .leaseExpired "renewal validation exceeded the granted deadline"))
      else s.goto c (.storing w))
    | _ => none
  | .store c w => guarded (s.phase c = .storing w) {s.goto c (.leaving none) with window := w}
  | .retry c =>
    match s.phase c with
    | .failing e => guarded (s.recovers e = true) (s.failed c e)
    | _ => none
  | .latch c =>
    match s.phase c with
    | .failing e => guarded (s.recovers e = false) (s.failed c e)
    | _ => none
  | .leave c =>
    match s.phase c with
    | .leaving outcome => some {s.goto c (afterCall c outcome) with holder := none}
    | _ => none
  -- The request of a dropped call is dropped before its turn is given up.
  | .cancel c =>
    let next := if c = .renewer then .stopped else .idle
    match s.phase c with
    | .asleep _ => some (s.goto c next)
    | .waiting => some (s.goto c next)
    | .inFlight _ => some {s.goto c next with holder := none}
    | _ => none

/-- `LeaseKeeper::new` on a resolved lease, with no call yet. -/
def start (leaseId snapshotId expiry : Text) (authorizationEpoch now : ℕ) (wall : Option ℕ) :
    Except StatusError (Lease × State) := do
  require (leaseId ≠ []) (made .integrityError "resolve omitted its lease identity")
  let window ← leaseWindow x expiry now wall
  pure (⟨leaseId,snapshotId,decimal authorizationEpoch⟩,⟨now,window,false,none,fun _ => .idle⟩)

end Machine

/-- What a call returns at an event. -/
def returned (s : State) : Event → Option (Option StatusError)
  | .status => some (match localLeaseStatus s.clock s.window with
    | .ok () => none
    | .error e => some e)
  | .check c =>
    if s.phase c = .calling then
      match needsRenewal s.clock s.window with
      | .error e => some (some e)
      | .ok false => some none
      | .ok true => none
    else none
  | .leave c =>
    match s.phase c with
    | .leaving outcome => some outcome
    | _ => none
  | _ => none

/-! ## What a history has granted -/

/-- The deadline of the last accepted grant. -/
def lastGrant : ℕ → List Event → ℕ
  | d, [] => d
  | _, .store _ w :: es => lastGrant w.deadline es
  | d, _ :: es => lastGrant d es

/-- The recoverable errors since then. -/
def streak : ℕ → List Event → ℕ
  | n, [] => n
  | _, .store _ _ :: es => streak 0 es
  | n, .retry _ :: es => streak (n+1) es
  | n, _ :: es => streak n es

end Scorpio.LeaseKeeper
