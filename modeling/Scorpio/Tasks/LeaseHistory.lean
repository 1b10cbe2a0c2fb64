import Scorpio.Tasks.LeaseTurns

/-!
# Histories of a retention lease

Every interleaving of calls, answers and clock steps keeps the lease within its
last accepted grant. A renewal that has failed for good, or whose answer has come
in too late, lets no renewal follow it, and a failure that is recorded stays.
-/

set_option autoImplicit false

namespace Scorpio.LeaseKeeper

open ByteText Fallible JsonText ProvenFile Traces

/-! ## What one event touches -/

namespace Event

def actor : Event → Option Caller
  | tick _ | status => none
  | sleep | wake => some .renewer
  | call n => some (.reader n)
  | check c | lock c | recheck c | send c | timeout c | answer c _ | refuse c _ | arrive c _
  | sample c _ | confirm c | store c _ | retry c | latch c | leave c | cancel c => some c

/-- A step of a renewal that is not failing for good. -/
def renews : Event → Bool
  | send _ | timeout _ | answer .. | refuse .. | arrive .. | sample .. | confirm _ | store ..
  | retry _ => true
  | _ => false

def writes : Event → Bool
  | store .. | retry _ | latch _ => true
  | _ => false

end Event

section Touches

variable {x : Clocks} {lease : Lease} {s s' : State} {e : Event} {c : Caller}

theorem goto_other {p : Phase} {c' : Caller} (h : some c ≠ some c') :
    (s.goto c p).phase c' = s.phase c' :=
  Function.update_of_ne (fun heq => h (congrArg some heq.symm)) _ _

/-- A caller moves by its own events only, and time does not go back. -/
structure Touches (s : State) (e : Event) (s' : State) : Prop where
  phase : ∀ c, e.actor ≠ some c → s'.phase c = s.phase c
  window : e.writes = false → s'.window = s.window
  clock : s.clock ≤ s'.clock
  reported : s.reported = true → s'.reported = true

theorem read_renewal_reported {late reported : Bool} {r : Renewal} (h : reported = true) :
    (readRenewal lease late reported r).2 = true := by
  unfold readRenewal
  dsimp only
  split_ifs
  · exact h
  · exact h
  · rw [h, Bool.true_or]
  · exact h

theorem goto_touches {p : Phase} (he : e.actor = some c) : Touches s e (s.goto c p) :=
  ⟨fun _ hne => goto_other (he ▸ hne),fun _ => rfl,Nat.le_refl _,id⟩

theorem step_touches (h : step x lease s e = some s') : Touches s e s' := by
  cases e <;> rw [step] at h
  case tick =>
    cases h
    exact ⟨fun _ _ => rfl,fun _ => rfl,Nat.le_add_right _ _,id⟩
  case status =>
    cases h
    exact ⟨fun _ _ => rfl,fun _ => rfl,Nat.le_refl _,id⟩
  case sleep | call | send =>
    obtain ⟨-,rfl⟩ := guarded_eq_some.mp h
    exact goto_touches rfl
  case lock =>
    obtain ⟨-,rfl⟩ := guarded_eq_some.mp h
    exact ⟨fun _ hne => goto_other hne,fun _ => rfl,Nat.le_refl _,id⟩
  case store =>
    obtain ⟨-,rfl⟩ := guarded_eq_some.mp h
    exact ⟨fun _ hne => goto_other hne,fun hw => Bool.noConfusion hw,Nat.le_refl _,id⟩
  case check | recheck =>
    obtain ⟨-,rfl⟩ := guarded_eq_some.mp h
    split <;> exact goto_touches rfl
  case wake | timeout =>
    split at h
    · obtain ⟨-,rfl⟩ := guarded_eq_some.mp h
      exact goto_touches rfl
    · cases h
  case arrive =>
    split at h
    · obtain ⟨-,rfl⟩ := guarded_eq_some.mp h
      exact ⟨fun _ hne => goto_other hne,fun _ => rfl,Nat.le_refl _,read_renewal_reported⟩
    · cases h
  case retry | latch =>
    split at h
    · obtain ⟨-,rfl⟩ := guarded_eq_some.mp h
      exact ⟨fun _ hne => goto_other hne,fun hw => Bool.noConfusion hw,Nat.le_refl _,id⟩
    · cases h
  case answer | refuse =>
    split at h
    · cases h
      exact goto_touches rfl
    · cases h
  case leave =>
    split at h
    · cases h
      exact ⟨fun _ hne => goto_other hne,fun _ => rfl,Nat.le_refl _,id⟩
    · cases h
  case sample | confirm =>
    split at h
    · cases h
      split <;> exact goto_touches rfl
    · cases h
  case cancel =>
    dsimp only at h
    split at h
    · cases h
      exact goto_touches rfl
    · cases h
      exact goto_touches rfl
    · cases h
      exact ⟨fun _ hne => goto_other hne,fun _ => rfl,Nat.le_refl _,id⟩
    · cases h

/-- The events of a renewal are those of a caller that has found it due. -/
theorem step_renewing (h : step x lease s e = some s')
    (he : e.renews = true ∨ e.writes = true) :
    ∃ c, e.actor = some c ∧ (s.phase c).renewing = true := by
  cases e <;> rw [step] at h
  case tick | status | sleep | call | lock | check | recheck | wake | leave | cancel =>
    rcases he with he | he <;> cases he
  case send c | store c w =>
    obtain ⟨hphase,-⟩ := guarded_eq_some.mp h
    exact ⟨c,rfl,by rw [hphase]; rfl⟩
  case timeout c | answer c r | refuse c e | arrive c r | sample c wall | confirm c | retry c | latch c =>
    split at h
    · rename_i hphase
      exact ⟨c,rfl,by rw [hphase]; rfl⟩
    · cases h

/-- A caller that fails can only end its renewal. -/
theorem step_failing (h : step x lease s e = some s') (he : e.actor = some c) {error : StatusError}
    (hphase : s.phase c = .failing error) : e = .retry c ∨ e = .latch c := by
  cases e <;> cases he <;> rw [step] at h <;> try simp only [hphase] at h
  case retry => exact .inl rfl
  case latch => exact .inr rfl
  all_goals simp [guarded] at h

end Touches

/-! ## Renewals that cannot succeed -/

/-- A failure is recorded, or about to be. -/
def Fatal (s : State) : Prop :=
  s.window.failure.isSome = true ∨ ∃ c e, s.phase c = .failing e ∧ s.recovers e = false

/-- An answer has come in too late. -/
def Late (s : State) : Prop := ∃ c d r, s.phase c = .arrived d r ∧ d ≤ s.clock

section Fatal

variable {x : Clocks} {lease : Lease} {s₀ s s' : State} {past : List Event} {e : Event}

theorem Kept.no_renewal (hk : Kept x lease s₀ past s) {f : StatusError}
    (hf : s.window.failure = some f) (h : step x lease s e = some s') :
    e.renews = false ∧ e.writes = false := by
  have hnone : ∀ c, ¬ (s.phase c).renewing = true := by
    intro c hc
    have hquiet := (hk.each c).quiet hc
    rw [hf] at hquiet
    cases hquiet
  constructor
  · apply Bool.eq_false_iff.mpr
    intro he
    obtain ⟨c,-,hc⟩ := step_renewing h (.inl he)
    exact hnone c hc
  · apply Bool.eq_false_iff.mpr
    intro he
    obtain ⟨c,-,hc⟩ := step_renewing h (.inr he)
    exact hnone c hc

/-- Once a failure is recorded nothing replaces it. -/
theorem Kept.failure_kept (hk : Kept x lease s₀ past s) {f : StatusError}
    (hf : s.window.failure = some f) (h : step x lease s e = some s') :
    s'.window.failure = some f := by
  rw [(step_touches h).window (hk.no_renewal hf h).2]
  exact hf

variable {error : StatusError} {r : Renewal}

theorem recovers_later (hw : s'.window = s.window) (hc : s.clock ≤ s'.clock)
    (h : s.recovers error = false) : s'.recovers error = false := by
  apply Bool.eq_false_iff.mpr
  intro hs
  obtain ⟨hfailure,hrecoverable,htime⟩ := recovers_iff.mp hs
  rw [hw] at hfailure htime
  rw [recovers_iff.mpr ⟨hfailure,hrecoverable,Nat.lt_of_le_of_lt hc htime⟩] at h
  cases h

theorem Kept.same_turn (hk : Kept x lease s₀ past s) {c c' : Caller}
    (hc : (s.phase c).holds = true) (hc' : (s.phase c').holds = true) : c = c' := by
  have hturn := (hk.each c).turn.mp hc
  rw [(hk.each c').turn.mp hc'] at hturn
  exact (Option.some.inj hturn).symm

theorem Kept.fatal_step (hk : Kept x lease s₀ past s) (hs : Fatal s)
    (h : step x lease s e = some s') : Fatal s' ∧ e.renews = false := by
  have htouch := step_touches h
  rcases hs with hf | ⟨c,error,hphase,hrecovers⟩
  · obtain ⟨f,hf⟩ := Option.isSome_iff_exists.mp hf
    exact ⟨.inl (by rw [hk.failure_kept hf h]; rfl),(hk.no_renewal hf h).1⟩
  · by_cases hactor : e.actor = some c
    · rcases step_failing h hactor hphase with rfl | rfl
      · simp only [step, hphase] at h
        rw [(guarded_eq_some.mp h).1] at hrecovers
        cases hrecovers
      · simp only [step, hphase] at h
        obtain ⟨-,rfl⟩ := guarded_eq_some.mp h
        obtain ⟨f,hfail⟩ := fail_latches ((hk.each c).quiet (by rw [hphase]; rfl)) hrecovers
        refine ⟨.inl ?_,rfl⟩
        show (fail s.clock error s.window).2.failure.isSome = true
        rw [hfail]
        rfl
    · -- Another caller cannot be in a renewal while this one has its turn.
      have hother : ¬ (e.renews = true ∨ e.writes = true) := by
        intro he
        obtain ⟨c',hc',hrenewing⟩ := step_renewing h he
        have hsame := hk.same_turn (Phase.renewing_holds hrenewing)
          (show (s.phase c).holds = true by rw [hphase]; rfl)
        exact hactor (hsame ▸ hc')
      rw [not_or, Bool.not_eq_true, Bool.not_eq_true] at hother
      refine ⟨.inr ⟨c,error,?_,?_⟩,hother.1⟩
      · rw [htouch.phase c hactor, hphase]
      · exact recovers_later (htouch.window hother.2) htouch.clock hrecovers

/-- A caller with an answer can only read it. -/
theorem step_arrived (h : step x lease s e = some s') {c : Caller} {d : ℕ} (he : e.actor = some c)
    (hphase : s.phase c = .arrived d r) : e = .arrive c r := by
  cases e <;> cases he <;> rw [step] at h <;> try simp only [hphase] at h
  case arrive =>
    obtain ⟨rfl,-⟩ := guarded_eq_some.mp h
    rfl
  all_goals simp [guarded] at h

theorem read_renewal_error {late reported : Bool}
    (h : (readRenewal lease late reported r).1 = .error error) :
    recoverableRenewalError error = false := by
  unfold readRenewal at h
  dsimp only at h
  split_ifs at h
  · cases h
    rfl
  · cases h
    rfl
  · cases hexpiry : r.leaseExpiresAt with
    | none =>
      rw [hexpiry] at h
      cases h
      rfl
    | some expiry =>
      rw [hexpiry] at h
      cases h
  · cases h
    rfl

/-- An answer that is read with an error ends every renewal. -/
theorem arrive_fatal {c : Caller} {d : ℕ} (hphase : s.phase c = .arrived d r)
    (h : step x lease s (.arrive c r) = some s')
    (herror : (readRenewal lease (d ≤ s.clock) s.reported r).1 = .error error) : Fatal s' := by
  simp only [step, hphase] at h
  obtain ⟨-,rfl⟩ := guarded_eq_some.mp h
  refine .inr ⟨c,error,?_,?_⟩
  · simp only [herror]
    exact Function.update_self _ _ _
  · simp [State.recovers, read_renewal_error herror]

theorem Kept.late_step (hk : Kept x lease s₀ past s) (hs : Late s)
    (h : step x lease s e = some s') : (Late s' ∨ Fatal s') ∧ e.writes = false := by
  have htouch := step_touches h
  obtain ⟨c,d,r,hphase,hlate⟩ := hs
  by_cases hactor : e.actor = some c
  · obtain rfl := step_arrived h hactor hphase
    have hread : (readRenewal lease (d ≤ s.clock) s.reported r).1 =
        .error (made .leaseExpired "renewal arrived after the granted deadline") := by
      simp [readRenewal, hlate]
    exact ⟨.inr (arrive_fatal hphase h hread),rfl⟩
  · refine ⟨.inl ⟨c,d,r,?_,hlate.trans htouch.clock⟩,Bool.eq_false_iff.mpr fun he => ?_⟩
    · rw [htouch.phase c hactor, hphase]
    · obtain ⟨c',hc',hrenewing⟩ := step_renewing h (.inr he)
      have hsame := hk.same_turn (Phase.renewing_holds hrenewing)
        (show (s.phase c).holds = true by rw [hphase]; rfl)
      exact hactor (hsame ▸ hc')

/-- From there on no renewal goes on. -/
theorem Kept.fatal_run {es : List Event} (hk : Kept x lease s₀ past s) (hs : Fatal s)
    (h : run (step x lease) s es = some s') : Fatal s' ∧ ∀ e ∈ es, e.renews = false := by
  have hstep : ∀ u e v, (∃ past, Kept x lease s₀ past u) ∧ Fatal u → step x lease u e = some v →
      ((∃ past, Kept x lease s₀ past v) ∧ Fatal v) ∧ ¬ e.renews = true := by
    rintro u e v ⟨⟨past,hu⟩,hfatal⟩ huv
    obtain ⟨hv,he⟩ := hu.fatal_step hfatal huv
    exact ⟨⟨⟨_,step_kept hu huv⟩,hv⟩,Bool.eq_false_iff.mp he⟩
  refine ⟨?_,fun e he => Bool.eq_false_iff.mpr ?_⟩
  · exact (run_invariant _ ⟨⟨past,hk⟩,hs⟩ (fun u e v hu huv => (hstep u e v hu huv).1) h).2
  · exact never_after _ (fun e => e.renews = true) ⟨⟨past,hk⟩,hs⟩ hstep h e he

theorem Kept.late_run {es : List Event} (hk : Kept x lease s₀ past s) (hs : Late s)
    (h : run (step x lease) s es = some s') : ∀ c w, .store c w ∉ es := by
  have hnever := never_after (fun u => (∃ past, Kept x lease s₀ past u) ∧ (Late u ∨ Fatal u))
    (fun e => ∃ c w, e = .store c w) ⟨⟨past,hk⟩,.inl hs⟩ ?_ h
  · exact fun c w hmem => hnever _ hmem ⟨c,w,rfl⟩
  · rintro u e v ⟨⟨past,hu⟩,hlate | hfatal⟩ huv
    · obtain ⟨hv,he⟩ := hu.late_step hlate huv
      refine ⟨⟨⟨_,step_kept hu huv⟩,hv⟩,?_⟩
      rintro ⟨c,w,rfl⟩
      cases he
    · obtain ⟨hv,he⟩ := hu.fatal_step hfatal huv
      refine ⟨⟨⟨_,step_kept hu huv⟩,.inr hv⟩,?_⟩
      rintro ⟨c,w,rfl⟩
      cases he

/-! ## The reported epoch -/

/-- An answer that names the resolved epoch, if it is not fatal, is remembered. -/
theorem reporting_arrival {c : Caller}
    (hr : r.authorizationEpoch = some (some lease.authorizationEpoch))
    (h : step x lease s (.arrive c r) = some s') : s'.reported = true ∨ Fatal s' := by
  have hstep := h
  rw [step] at h
  split at h
  · rename_i d r' hphase
    obtain ⟨rfl,hs'⟩ := guarded_eq_some.mp h
    cases hread : (readRenewal lease (d ≤ s.clock) s.reported r).1 with
    | error error => exact .inr (arrive_fatal hphase hstep hread)
    | ok expiry =>
      left
      rw [← hs']
      show (readRenewal lease (d ≤ s.clock) s.reported r).2 = true
      unfold readRenewal at hread ⊢
      dsimp only at hread ⊢
      split_ifs at hread ⊢
      rw [decide_eq_true hr, Bool.or_true]
  · cases h

/-- Once it is reported, an answer without it is fatal. -/
theorem unreported_arrival {c : Caller} (hs : s.reported = true)
    (hr : r.authorizationEpoch ≠ some (some lease.authorizationEpoch))
    (h : step x lease s (.arrive c r) = some s') : Fatal s' := by
  have hstep := h
  rw [step] at h
  split at h
  · rename_i d r' hphase
    obtain ⟨rfl,-⟩ := guarded_eq_some.mp h
    cases hread : (readRenewal lease (d ≤ s.clock) s.reported r).1 with
    | error error => exact arrive_fatal hphase hstep hread
    | ok expiry =>
      unfold readRenewal at hread
      simp only [hs, hr, Bool.true_eq_false, and_false, or_self, if_false] at hread
      split_ifs at hread
  · cases h

theorem Kept.epoch_run {es : List Event} {c : Caller} (hk : Kept x lease s₀ past s)
    (hs : s.reported = true ∨ Fatal s)
    (hr : r.authorizationEpoch ≠ some (some lease.authorizationEpoch)) {t : State}
    (h : run (step x lease) s es = some s') (harrive : step x lease s' (.arrive c r) = some t) :
    Fatal t := by
  rcases hs with hs | hs
  · refine unreported_arrival ?_ hr harrive
    exact run_invariant (fun u => u.reported = true) hs
      (fun u e v hu huv => (step_touches huv).reported hu) h
  · have hlonger : run (step x lease) s (es ++ [.arrive c r]) = some t :=
      run_append.mpr ⟨s',h,run_cons.mpr ⟨t,harrive,rfl⟩⟩
    cases (hk.fatal_run hs hlonger).2 (.arrive c r) (by simp)

end Fatal

/-! ## Every history -/

theorem start_kept {x : Clocks} {lease : Lease} {s₀ : State}
    (hwindow : s₀.window.failure = none ∧ s₀.window.transientError = none ∧
      s₀.window.renewalFailures = 0) (hphase : ∀ c, s₀.phase c = .idle) (hholder : s₀.holder = none) :
    Kept x lease s₀ [] s₀ := by
  refine ⟨rfl,⟨rfl,hwindow.2.2,?_⟩,fun c => ?_⟩
  · rw [hwindow.2.1]
    exact nofun
  · rw [hphase]
    exact Local.outside rfl (by rw [hholder]; exact nofun)

theorem run_kept {x : Clocks} {lease : Lease} {s₀ s : State} {es : List Event}
    (h0 : Kept x lease s₀ [] s₀) (h : run (step x lease) s₀ es = some s) : Kept x lease s₀ es s :=
  run_history (Kept x lease s₀) h0 (fun _ _ _ _ hu huv => step_kept hu huv) h

theorem start_initial {x : Clocks} {leaseId snapshotId expiry : Text} {epoch now : ℕ}
    {wall : Option ℕ} {lease : Lease} {s₀ : State}
    (h : start x leaseId snapshotId expiry epoch now wall = .ok (lease,s₀)) :
    Kept x lease s₀ [] s₀ := by
  unfold start at h
  obtain ⟨_,-,hafter⟩ := bind_ok.mp h
  obtain ⟨w,hw,hpure⟩ := bind_ok.mp hafter
  cases pure_ok.mp hpure
  obtain ⟨hfailure,htransient,hfailures,-⟩ := lease_window_fresh hw
  exact start_kept ⟨hfailure,htransient,hfailures⟩ (fun _ => rfl) rfl

section Results

variable {x : Clocks} {lease : Lease} {s₀ s s' : State} {es : List Event} {e : Event}

/-- A call returns without an error after a check within the grant of that time. -/
theorem Kept.ok_checked (hk : Kept x lease s₀ es s) (h : returned s e = some none) :
    ((e = .status ∨ ∃ c, e = .check c) ∧ s.clock < lastGrant s₀.window.deadline es) ∨
      ∃ c, e = .leave c ∧ Checked x lease s₀ es c := by
  rw [← hk.windowed.grant]
  cases e <;> simp only [returned] at h
  case status =>
    cases hstatus : localLeaseStatus s.clock s.window with
    | ok u => exact .inl ⟨.inl rfl,(local_lease_status_ok hstatus).2⟩
    | error error =>
      rw [hstatus] at h
      cases h
  case check c =>
    split_ifs at h
    split at h
    · cases h
    · rename_i hneeds
      exact .inl ⟨.inr ⟨c,rfl⟩,(needs_renewal_ok hneeds).2⟩
    · cases h
  case leave c =>
    split at h
    · rename_i outcome hleaving
      cases h
      exact .inr ⟨c,rfl,(hk.each c).passed (by rw [hleaving]; rfl)⟩
    · cases h
  all_goals cases h

/-- A recorded failure is what every call returns. -/
theorem Kept.returns_failure (hk : Kept x lease s₀ es s) {f : StatusError}
    (hf : s.window.failure = some f) {outcome : Option StatusError}
    (h : returned s e = some outcome) : outcome = some f := by
  cases e <;> simp only [returned] at h
  case status =>
    rw [local_lease_status_failed hf] at h
    exact (Option.some.inj h).symm
  case check c =>
    rw [needs_renewal_failed hf] at h
    split_ifs at h
    exact (Option.some.inj h).symm
  case leave c =>
    split at h
    · rename_i left hleaving
      cases h
      exact (hk.each c).latched outcome f hleaving hf
    · cases h
  all_goals cases h

theorem Kept.failure_run (hk : Kept x lease s₀ es s) {f : StatusError}
    (hf : s.window.failure = some f) {fs : List Event} (h : run (step x lease) s fs = some s') :
    s'.window.failure = some f := by
  have hinv := run_invariant
    (fun u => (∃ past, Kept x lease s₀ past u) ∧ u.window.failure = some f) ⟨⟨es,hk⟩,hf⟩ ?_ h
  · exact hinv.2
  · rintro u e v ⟨⟨past,hu⟩,hfailure⟩ huv
    exact ⟨⟨_,step_kept hu huv⟩,hu.failure_kept hfailure huv⟩

theorem retry_delay_saturated (n : ℕ) :
    retryDelay (min (min n u32Max+1) u32Max) = retryDelay (n+1) := by
  have hexponent : min (min (min n u32Max+1) u32Max-1) 3 = min (n+1-1) 3 := by
    unfold u32Max
    omega
  unfold retryDelay
  rw [hexponent]

theorem Kept.retry_delay (hk : Kept x lease s₀ es s) {c : Caller}
    (h : step x lease s (.retry c) = some s') :
    s'.window.deadline = s.window.deadline ∧ s'.window.renewAt =
      s.clock+min (retryDelay (streak 0 (es ++ [.retry c]))) (s.window.deadline-s.clock) := by
  rw [step] at h
  split at h
  · rename_i error hfailing
    obtain ⟨hrecovers,rfl⟩ := guarded_eq_some.mp h
    obtain ⟨-,-,htime⟩ := recovers_iff.mp hrecovers
    obtain ⟨renewAt,hrenew,hwindow⟩ := failed_recovers c hrecovers
    rw [hwindow]
    refine ⟨rfl,?_⟩
    show renewAt = _
    rw [hrenew, hk.windowed.failures, retry_delay_saturated, streak_append]
    show _ = s.clock+min (retryDelay (streak 0 es+1)) _
    omega
  · cases h

theorem Kept.late_answer (hk : Kept x lease s₀ es s) {c : Caller} {r : Renewal}
    (h : step x lease s (.answer c r) = some s')
    (hlate : lastGrant s₀.window.deadline es ≤ s.clock) : Late s' := by
  rw [step] at h
  split at h
  · rename_i d hflight
    cases h
    have hd := (hk.each c).captured d (by rw [hflight]; rfl)
    refine ⟨c,d,r,Function.update_self _ _ _,?_⟩
    rw [hd, hk.windowed.grant]
    exact hlate
  · cases h

end Results

end Scorpio.LeaseKeeper
