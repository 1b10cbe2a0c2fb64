import Scorpio.Tasks.LeaseKeeper

/-!
# Turns at renewing a lease

Only the caller whose turn it is stores a window or records a failure, and it holds
the deadline of the window it is about to replace. Each event of a history keeps
this, together with what the window says about the history: its last accepted
grant, and the recoverable errors since then.
-/

set_option autoImplicit false

namespace Scorpio.LeaseKeeper

open ByteText Fallible ProvenFile Traces

/-! ## Clock readings -/

section Readings

variable {now : ℕ} {w : LeaseWindow} {e : StatusError}

theorem needs_renewal_ok {b : Bool} (h : needsRenewal now w = .ok b) :
    w.failure = none ∧ now < w.deadline := by
  unfold needsRenewal at h
  cases hfailure : w.failure with
  | some failure =>
    rw [hfailure] at h
    cases h
  | none =>
    simp only [hfailure] at h
    by_cases hlate : w.deadline ≤ now
    · rw [if_pos hlate] at h
      cases h
    · exact ⟨rfl,Nat.lt_of_not_le hlate⟩

theorem needs_renewal_failed (h : w.failure = some e) : needsRenewal now w = .error e := by
  simp only [needsRenewal, h]

theorem local_lease_status_ok (h : localLeaseStatus now w = .ok ()) :
    w.failure = none ∧ now < w.deadline := by
  unfold localLeaseStatus at h
  cases hfailure : w.failure with
  | some failure =>
    rw [hfailure] at h
    cases h
  | none =>
    simp only [hfailure] at h
    by_cases hlate : w.deadline ≤ now
    · rw [if_pos hlate] at h
      cases h
    · exact ⟨rfl,Nat.lt_of_not_le hlate⟩

theorem local_lease_status_failed (h : w.failure = some e) :
    localLeaseStatus now w = .error e := by
  simp only [localLeaseStatus, h]

theorem lease_window_fresh {x : Clocks} {expiry : Text} {wall : Option ℕ}
    (h : leaseWindow x expiry now wall = .ok w) :
    w.failure = none ∧ w.transientError = none ∧ w.renewalFailures = 0 ∧ now < w.deadline := by
  unfold leaseWindow at h
  obtain ⟨expires,-,hafter⟩ := bind_ok.mp h
  obtain ⟨wallNow,-,hthen⟩ := bind_ok.mp hafter
  obtain ⟨_,hpositive,hrest⟩ := bind_ok.mp hthen
  obtain ⟨_,-,hlast⟩ := bind_ok.mp hrest
  obtain ⟨_,-,hwindow⟩ := bind_ok.mp hlast
  cases pure_ok.mp hwindow
  rw [require_ok, decide_eq_true_eq] at hpositive
  exact ⟨rfl,rfl,rfl,by dsimp only; omega⟩

end Readings

/-! ## The two ways a renewal can fail -/

section Failures

variable {s : State} {e : StatusError}

theorem recovers_iff : s.recovers e = true ↔ s.window.failure = none ∧
    recoverableRenewalError e = true ∧ s.clock < s.window.deadline := by
  simp [State.recovers, and_assoc]

theorem failed_recovers (c : Caller) (h : s.recovers e = true) : ∃ renewAt,
    renewAt =
      min (s.clock+retryDelay (min (s.window.renewalFailures+1) u32Max)) s.window.deadline ∧
    (s.failed c e).window = {s.window with
      renewalFailures := min (s.window.renewalFailures+1) u32Max
      renewAt := renewAt
      transientError := some e} := by
  obtain ⟨hfailure,hrecoverable,htime⟩ := recovers_iff.mp h
  exact ⟨_,rfl,by simp [State.failed, fail, hfailure, hrecoverable, htime]⟩

theorem fail_latches (hfailure : s.window.failure = none) (h : s.recovers e = false) :
    ∃ failure, fail s.clock e s.window = (failure,{s.window with failure := some failure}) := by
  have hnot : (recoverableRenewalError e && decide (s.clock < s.window.deadline)) = false := by
    simpa [State.recovers, hfailure] using h
  simp only [fail, hfailure, hnot, Bool.false_eq_true, ↓reduceIte]
  exact ⟨_,rfl⟩

end Failures

/-! ## Callers and their turns -/

namespace Phase

/-- It is this caller's turn to renew. -/
def holds : Phase → Bool
  | idle | asleep _ | calling | waiting | stopped => false
  | _ => true

/-- It has found that a renewal is due. -/
def renewing : Phase → Bool
  | starting | inFlight _ | arrived .. | granting .. | granted .. | storing _ | failing _ => true
  | _ => false

def captured : Phase → Option ℕ
  | inFlight d | arrived d _ | granting d _ | granted d _ => some d
  | _ => none

def fresh : Phase → Option LeaseWindow
  | granted _ w | storing w => some w
  | _ => none

/-- It will return without an error. -/
def passed : Phase → Bool
  | storing _ | leaving none => true
  | _ => false

theorem renewing_holds {p : Phase} (h : p.renewing = true) : p.holds = true := by
  cases p <;> first | rfl | cases h

theorem captured_holds {p : Phase} {d : ℕ} (h : d ∈ p.captured) : p.holds = true := by
  cases p <;> first | rfl | cases h

theorem fresh_holds {p : Phase} {w : LeaseWindow} (h : w ∈ p.fresh) : p.holds = true := by
  cases p <;> first | rfl | cases h

theorem passed_holds {p : Phase} (h : p.passed = true) : p.holds = true := by
  cases p <;> first | rfl | cases h

end Phase

theorem after_call_holds (c : Caller) (outcome : Option StatusError) :
    (afterCall c outcome).holds = false := by
  unfold afterCall
  split
  · split <;> rfl
  · rfl

/-- The check of a call that lets it return without an error. -/
def Passing (s : State) (c : Caller) : Event → Prop
  | .check c' => c' = c ∧ needsRenewal s.clock s.window = .ok false
  | .recheck c' => c' = c ∧ needsRenewal s.clock s.window = .ok false
  | .confirm c' => c' = c ∧ ∃ d w, s.phase c = .granted d w ∧ s.clock < d
  | _ => False

section Machine

variable (x : Clocks) (lease : Lease) (s₀ : State)

/-- This call has passed a check within the grant of that time. -/
def Checked (past : List Event) (c : Caller) : Prop :=
  ∃ pre e post u, past = pre ++ e :: post ∧ run (step x lease) s₀ pre = some u ∧ Passing u c e ∧
    u.clock < lastGrant s₀.window.deadline pre ∧ ∀ e' ∈ post, e' ≠ .leave c

structure Local (past : List Event) (s : State) (c : Caller) (p : Phase) : Prop where
  turn : p.holds = true ↔ s.holder = some c
  quiet : p.renewing = true → s.window.failure = none
  captured : ∀ d ∈ p.captured, d = s.window.deadline
  fresh : ∀ w ∈ p.fresh, w.failure = none ∧ w.transientError = none ∧ w.renewalFailures = 0
  passed : p.passed = true → Checked x lease s₀ past c
  latched : ∀ outcome f, p = .leaving outcome → s.window.failure = some f → outcome = some f

structure Windowed (past : List Event) (w : LeaseWindow) : Prop where
  grant : w.deadline = lastGrant s₀.window.deadline past
  failures : w.renewalFailures = min (streak 0 past) u32Max
  retried : w.transientError.isSome = true → w.renewAt ≤ w.deadline

structure Kept (past : List Event) (s : State) : Prop where
  reached : run (step x lease) s₀ past = some s
  windowed : Windowed s₀ past s.window
  each : ∀ c, Local x lease s₀ past s c (s.phase c)

end Machine

section Steps

variable {x : Clocks} {lease : Lease} {s₀ s s' : State} {past : List Event} {e : Event}
  {c : Caller} {p : Phase}

theorem last_grant_append (d : ℕ) (es fs : List Event) :
    lastGrant d (es ++ fs) = lastGrant (lastGrant d es) fs := by
  induction es generalizing d with
  | nil => rfl
  | cons e es ih => cases e <;> exact ih _

theorem streak_append (n : ℕ) (es fs : List Event) :
    streak n (es ++ fs) = streak (streak n es) fs := by
  induction es generalizing n with
  | nil => rfl
  | cons e es ih => cases e <;> exact ih _

/-- An event that neither changes the grant nor ends a turn. -/
def Event.plain : Event → Bool
  | .store .. | .retry _ | .leave _ => false
  | _ => true

theorem plain_leave (he : e.plain = true) (c : Caller) : e ≠ .leave c := by
  rintro rfl
  cases he

theorem plain_grant (he : e.plain = true) (d : ℕ) : lastGrant d (past ++ [e]) = lastGrant d past := by
  rw [last_grant_append]
  cases e <;> first | rfl | cases he

theorem plain_streak (he : e.plain = true) (n : ℕ) : streak n (past ++ [e]) = streak n past := by
  rw [streak_append]
  cases e <;> first | rfl | cases he

/-- A caller without its turn knows nothing of the window. -/
theorem Local.outside (hp : p.holds = false) (hh : s.holder ≠ some c) :
    Local x lease s₀ past s c p := by
  have hnot : ¬ p.holds = true := Bool.not_eq_true _ ▸ hp
  refine ⟨⟨fun h => absurd h hnot,fun h => absurd h hh⟩,fun h => absurd (Phase.renewing_holds h) hnot,
    fun d h => absurd (Phase.captured_holds h) hnot,fun w h => absurd (Phase.fresh_holds h) hnot,
    fun h => absurd (Phase.passed_holds h) hnot,?_⟩
  rintro outcome f rfl
  cases hp

theorem Checked.later (h : Checked x lease s₀ past c) (he : e ≠ .leave c) :
    Checked x lease s₀ (past ++ [e]) c := by
  obtain ⟨pre,e',post,u,rfl,hrun,hpass,hclock,hpost⟩ := h
  refine ⟨pre,e',post++[e],u,by simp,hrun,hpass,hclock,?_⟩
  intro y hy
  rcases List.mem_append.mp hy with hy | hy
  · exact hpost y hy
  · rw [List.mem_singleton.mp hy]
    exact he

theorem Local.later (hl : Local x lease s₀ past s c p) (hw : s'.window = s.window)
    (hh : s'.holder = s.holder) (he : e ≠ .leave c) :
    Local x lease s₀ (past ++ [e]) s' c p := by
  refine ⟨hh ▸ hl.turn,hw ▸ hl.quiet,hw ▸ hl.captured,hl.fresh,fun h => (hl.passed h).later he,?_⟩
  rw [hw]
  exact hl.latched

/-- Nobody but the holder has a turn. -/
theorem Kept.alone (hk : Kept x lease s₀ past s) {c' : Caller} (hne : c' ≠ c)
    (hh : s.holder = some c ∨ s.holder = none) : (s.phase c').holds = false := by
  apply Bool.eq_false_iff.mpr
  intro hholds
  have hturn := (hk.each c').turn.mp hholds
  rcases hh with hh | hh
  · rw [hh] at hturn
    exact hne (Option.some.inj hturn).symm
  · rw [hh] at hturn
    cases hturn

theorem Windowed.later {w : LeaseWindow} (hw : Windowed s₀ past w) (he : e.plain = true) :
    Windowed s₀ (past ++ [e]) w := by
  refine ⟨?_,?_,hw.retried⟩
  · rw [plain_grant he, hw.grant]
  · rw [plain_streak he, hw.failures]

/-- A caller moves on; the window and the turn stay. -/
theorem Kept.moved (hk : Kept x lease s₀ past s) (hstep : step x lease s e = some s')
    (hphase : s'.phase = Function.update s.phase c p) (hw : s'.window = s.window)
    (hh : s'.holder = s.holder) (he : e.plain = true)
    (hlocal : Local x lease s₀ (past ++ [e]) s' c p) : Kept x lease s₀ (past ++ [e]) s' := by
  refine ⟨run_append.mpr ⟨s,hk.reached,run_cons.mpr ⟨s',hstep,rfl⟩⟩,?_,fun c' => ?_⟩
  · rw [hw]
    exact hk.windowed.later he
  · rw [hphase]
    by_cases hc : c' = c
    · subst hc
      rw [Function.update_self]
      exact hlocal
    · rw [Function.update_of_ne hc]
      exact (hk.each c').later hw hh (plain_leave he c')

/-- A caller moves on during its turn, or takes or gives it up. -/
theorem Kept.turned (hk : Kept x lease s₀ past s) (hstep : step x lease s e = some s')
    (hphase : s'.phase = Function.update s.phase c p) (hs : s.holder = some c ∨ s.holder = none)
    (hs' : s'.holder = some c ∨ s'.holder = none) (hwindow : Windowed s₀ (past ++ [e]) s'.window)
    (hlocal : Local x lease s₀ (past ++ [e]) s' c p) : Kept x lease s₀ (past ++ [e]) s' := by
  refine ⟨run_append.mpr ⟨s,hk.reached,run_cons.mpr ⟨s',hstep,rfl⟩⟩,hwindow,fun c' => ?_⟩
  rw [hphase]
  by_cases hc : c' = c
  · subst hc
    rw [Function.update_self]
    exact hlocal
  · rw [Function.update_of_ne hc]
    apply Local.outside (hk.alone hc hs)
    rcases hs' with hs' | hs'
    · rw [hs']
      exact fun h => hc (Option.some.inj h).symm
    · rw [hs']
      exact nofun

/-- No caller moves. -/
theorem Kept.still (hk : Kept x lease s₀ past s) (hstep : step x lease s e = some s')
    (hphase : s'.phase = s.phase) (hw : s'.window = s.window) (hh : s'.holder = s.holder)
    (he : e.plain = true) : Kept x lease s₀ (past ++ [e]) s' := by
  refine hk.moved (c := .renewer) hstep ?_ hw hh he ((hk.each _).later hw hh (plain_leave he _))
  rw [hphase, Function.update_eq_self]

/-- A caller in its turn, while no failure is recorded. -/
theorem Local.inside (hp : p.holds = true) (hh : s.holder = some c)
    (hquiet : s.window.failure = none) (hcaptured : ∀ d ∈ p.captured, d = s.window.deadline)
    (hfresh : ∀ w ∈ p.fresh, w.failure = none ∧ w.transientError = none ∧ w.renewalFailures = 0)
    (hpassed : p.passed = true → Checked x lease s₀ past c) : Local x lease s₀ past s c p := by
  refine ⟨⟨fun _ => hh,fun _ => hp⟩,fun _ => hquiet,hcaptured,hfresh,hpassed,?_⟩
  intro outcome f _ hf
  rw [hquiet] at hf
  cases hf

variable (hk : Kept x lease s₀ past s)

include hk

/-- The next phase of a renewal. -/
theorem Kept.renewed (hstep : step x lease s e = some s')
    {q : Phase} (hfrom : s.phase c = q) (hq : q.renewing = true)
    (hphase : s'.phase = Function.update s.phase c p) (hw : s'.window = s.window)
    (hh : s'.holder = s.holder) (he : e.plain = true) (hp : p.holds = true)
    (hcaptured : ∀ d ∈ p.captured, d ∈ q.captured ∨ d = s.window.deadline)
    (hfresh : ∀ w ∈ p.fresh,
      w ∈ q.fresh ∨ w.failure = none ∧ w.transientError = none ∧ w.renewalFailures = 0)
    (hpassed : p.passed = true → Checked x lease s₀ (past ++ [e]) c) :
    Kept x lease s₀ (past ++ [e]) s' := by
  have hlocal := hk.each c
  rw [hfrom] at hlocal
  refine hk.moved hstep hphase hw hh he ?_
  refine Local.inside hp (hh ▸ hlocal.turn.mp (Phase.renewing_holds hq)) (hw ▸ hlocal.quiet hq)
    (fun d hd => ?_) (fun w hw' => ?_) hpassed
  · rw [hw]
    exact (hcaptured d hd).elim (hlocal.captured d) id
  · exact (hfresh w hw').elim (hlocal.fresh w) id

/-- A check that passes now. -/
theorem Kept.checked (hpass : Passing s c e) (hclock : s.clock < s.window.deadline) :
    Checked x lease s₀ (past ++ [e]) c :=
  ⟨past,e,[],s,rfl,hk.reached,hpass,hclock.trans_eq hk.windowed.grant,List.forall_mem_nil _⟩

/-- A caller without its turn stays without it. -/
theorem Kept.outside {q : Phase}
    (hstep : step x lease s e = some (s.goto c p)) (he : e.plain = true) (hfrom : s.phase c = q)
    (hq : q.holds = false) (hp : p.holds = false) : Kept x lease s₀ (past ++ [e]) (s.goto c p) := by
  refine hk.moved hstep rfl rfl rfl he (Local.outside hp fun hholder => ?_)
  have hturn := (hk.each c).turn.mpr hholder
  rw [hfrom, hq] at hturn
  cases hturn

theorem recheck_kept (h : step x lease s (.recheck c) = some s') :
    Kept x lease s₀ (past ++ [.recheck c]) s' := by
  have hstep := h
  obtain ⟨hholding,rfl⟩ := guarded_eq_some.mp h
  have hturn : s.holder = some c := (hk.each c).turn.mp (by rw [hholding]; rfl)
  cases hneeds : needsRenewal s.clock s.window with
  | error error =>
    simp only [hneeds] at hstep ⊢
    refine hk.moved hstep rfl rfl rfl rfl ?_
    refine ⟨⟨fun _ => hturn,fun _ => rfl⟩,nofun,nofun,nofun,nofun,?_⟩
    rintro outcome f ⟨⟩ hf
    rw [needs_renewal_failed (show s.window.failure = some f from hf)] at hneeds
    cases hneeds
    rfl
  | ok due =>
    obtain ⟨hfailure,hclock⟩ := needs_renewal_ok hneeds
    cases due with
    | false =>
      simp only [hneeds] at hstep ⊢
      refine hk.moved hstep rfl rfl rfl rfl ?_
      exact Local.inside rfl hturn hfailure nofun nofun fun _ => hk.checked ⟨rfl,hneeds⟩ hclock
    | true =>
      simp only [hneeds] at hstep ⊢
      refine hk.moved hstep rfl rfl rfl rfl ?_
      exact Local.inside rfl hturn hfailure nofun nofun nofun

theorem store_kept {w : LeaseWindow}
    (h : step x lease s (.store c w) = some s') : Kept x lease s₀ (past ++ [.store c w]) s' := by
  have hstep := h
  obtain ⟨hstoring,rfl⟩ := guarded_eq_some.mp h
  have hlocal := hk.each c
  rw [hstoring] at hlocal
  have hturn : s.holder = some c := hlocal.turn.mp rfl
  obtain ⟨hfailure,htransient,hfailures⟩ := hlocal.fresh w rfl
  refine hk.turned hstep rfl (.inl hturn) (.inl hturn) ⟨?_,?_,?_⟩ ?_
  · rw [last_grant_append]
    rfl
  · rw [streak_append]
    exact hfailures
  · intro hsome
    rw [show w.transientError.isSome = false by rw [htransient]; rfl] at hsome
    cases hsome
  · exact Local.inside rfl hturn hfailure nofun nofun fun _ => (hlocal.passed rfl).later nofun

theorem retry_kept (h : step x lease s (.retry c) = some s') :
    Kept x lease s₀ (past ++ [.retry c]) s' := by
  have hstep := h
  rw [step] at h
  split at h
  · rename_i error hfailing
    obtain ⟨hrecovers,rfl⟩ := guarded_eq_some.mp h
    have hlocal := hk.each c
    rw [hfailing] at hlocal
    have hturn : s.holder = some c := hlocal.turn.mp rfl
    obtain ⟨renewAt,hrenew,hnext⟩ := failed_recovers c hrecovers
    refine hk.turned hstep rfl (.inl hturn) (.inl hturn) ⟨?_,?_,?_⟩ ?_
    · rw [last_grant_append, hnext]
      exact hk.windowed.grant
    · rw [streak_append, hnext]
      show min (s.window.renewalFailures+1) u32Max = min (streak 0 past+1) u32Max
      rw [hk.windowed.failures]
      omega
    · rw [hnext]
      exact fun _ => hrenew.trans_le (Nat.min_le_right _ _)
    · refine Local.inside rfl hturn ?_ nofun nofun nofun
      rw [hnext]
      exact hlocal.quiet rfl
  · cases h

theorem latch_kept (h : step x lease s (.latch c) = some s') :
    Kept x lease s₀ (past ++ [.latch c]) s' := by
  have hstep := h
  rw [step] at h
  split at h
  · rename_i error hfailing
    obtain ⟨hrecovers,rfl⟩ := guarded_eq_some.mp h
    have hlocal := hk.each c
    rw [hfailing] at hlocal
    have hturn : s.holder = some c := hlocal.turn.mp rfl
    obtain ⟨failure,hfail⟩ := fail_latches (hlocal.quiet rfl) hrecovers
    have hwindow : (s.failed c error).window = {s.window with failure := some failure} :=
      congrArg Prod.snd hfail
    refine hk.turned hstep rfl (.inl hturn) (.inl hturn) ⟨?_,?_,?_⟩ ?_
    · rw [last_grant_append, hwindow]
      exact hk.windowed.grant
    · rw [streak_append, hwindow]
      exact hk.windowed.failures
    · rw [hwindow]
      exact hk.windowed.retried
    · refine ⟨⟨fun _ => hturn,fun _ => rfl⟩,nofun,nofun,nofun,nofun,?_⟩
      rintro outcome f ⟨⟩ hf
      rw [hwindow] at hf
      rw [hfail]
      exact hf
  · cases h

theorem step_kept (h : step x lease s e = some s') : Kept x lease s₀ (past ++ [e]) s' := by
  have hstep := h
  cases e with
  | tick n =>
    cases h
    exact hk.still hstep rfl rfl rfl rfl
  | status =>
    cases h
    exact hk.still hstep rfl rfl rfl rfl
  | sleep =>
    obtain ⟨hidle,rfl⟩ := guarded_eq_some.mp h
    exact hk.outside hstep rfl hidle rfl rfl
  | wake =>
    rw [step] at h
    split at h
    · rename_i t hasleep
      obtain ⟨-,rfl⟩ := guarded_eq_some.mp h
      exact hk.outside hstep rfl hasleep rfl rfl
    · cases h
  | call n =>
    obtain ⟨hidle,rfl⟩ := guarded_eq_some.mp h
    exact hk.outside hstep rfl hidle rfl rfl
  | check c =>
    obtain ⟨hcalling,rfl⟩ := guarded_eq_some.mp h
    cases hneeds : needsRenewal s.clock s.window with
    | error error =>
      simp only [hneeds] at hstep ⊢
      exact hk.outside hstep rfl hcalling rfl (after_call_holds _ _)
    | ok due =>
      cases due <;> simp only [hneeds] at hstep ⊢
      · exact hk.outside hstep rfl hcalling rfl (after_call_holds _ _)
      · exact hk.outside hstep rfl hcalling rfl rfl
  | lock c =>
    obtain ⟨⟨hwaiting,hfree⟩,rfl⟩ := guarded_eq_some.mp h
    refine hk.turned hstep rfl (.inr hfree) (.inl rfl) (hk.windowed.later rfl) ?_
    refine ⟨⟨fun _ => rfl,fun _ => rfl⟩,nofun,nofun,nofun,nofun,nofun⟩
  | recheck c => exact recheck_kept hk h
  | send c =>
    obtain ⟨hstarting,rfl⟩ := guarded_eq_some.mp h
    refine hk.renewed hstep hstarting rfl rfl rfl rfl rfl rfl ?_
      nofun nofun
    exact fun d hd => .inr (Option.some.inj hd).symm
  | timeout c =>
    rw [step] at h
    split at h
    · rename_i d hflight
      obtain ⟨-,rfl⟩ := guarded_eq_some.mp h
      exact hk.renewed hstep hflight rfl rfl rfl rfl rfl rfl nofun
        nofun nofun
    · cases h
  | answer c r =>
    rw [step] at h
    split at h
    · rename_i d hflight
      cases h
      exact hk.renewed hstep hflight rfl rfl rfl rfl rfl rfl
        (fun _ hd => .inl hd) nofun nofun
    · cases h
  | refuse c error =>
    rw [step] at h
    split at h
    · rename_i d hflight
      cases h
      exact hk.renewed hstep hflight rfl rfl rfl rfl rfl rfl nofun
        nofun nofun
    · cases h
  | arrive c r =>
    rw [step] at h
    split at h
    · rename_i d r' harrived
      obtain ⟨rfl,rfl⟩ := guarded_eq_some.mp h
      cases hread : (readRenewal lease (d ≤ s.clock) s.reported r).1 with
      | error error =>
        simp only [hread] at hstep ⊢
        exact hk.renewed hstep harrived rfl rfl rfl rfl rfl rfl nofun nofun nofun
      | ok expiry =>
        simp only [hread] at hstep ⊢
        exact hk.renewed hstep harrived rfl rfl rfl rfl rfl rfl (fun _ hd => .inl hd) nofun nofun
    · cases h
  | sample c wall =>
    rw [step] at h
    split at h
    · rename_i d expiry hgranting
      cases h
      cases hwindow : leaseWindow x expiry s.clock wall with
      | error error =>
        simp only [hwindow] at hstep ⊢
        exact hk.renewed hstep hgranting rfl rfl rfl rfl rfl rfl nofun
          nofun nofun
      | ok w =>
        simp only [hwindow] at hstep ⊢
        obtain ⟨hfailure,htransient,hfailures,-⟩ := lease_window_fresh hwindow
        refine hk.renewed hstep hgranting rfl rfl rfl rfl rfl rfl
          (fun _ hd => .inl hd) ?_ nofun
        rintro w' ⟨⟩
        exact .inr ⟨hfailure,htransient,hfailures⟩
    · cases h
  | confirm c =>
    rw [step] at h
    split at h
    · rename_i d w hgranted
      cases h
      by_cases hlate : d ≤ s.clock
      · simp only [if_pos hlate] at hstep ⊢
        exact hk.renewed hstep hgranted rfl rfl rfl rfl rfl rfl nofun
          nofun nofun
      · simp only [if_neg hlate] at hstep ⊢
        have hlocal := hk.each c
        rw [hgranted] at hlocal
        have hclock : s.clock < d := Nat.lt_of_not_le hlate
        refine hk.renewed hstep hgranted rfl rfl rfl rfl rfl rfl nofun
          (fun _ hw => .inl hw) fun _ => ?_
        exact hk.checked ⟨rfl,d,w,hgranted,hclock⟩ (hlocal.captured d rfl ▸ hclock)
    · cases h
  | store c w => exact store_kept hk h
  | retry c => exact retry_kept hk h
  | latch c => exact latch_kept hk h
  | leave c =>
    rw [step] at h
    split at h
    · rename_i outcome hleaving
      cases h
      have hturn : s.holder = some c := (hk.each c).turn.mp (by rw [hleaving]; rfl)
      refine hk.turned hstep rfl (.inl hturn) (.inr rfl) ⟨?_,?_,hk.windowed.retried⟩
        (Local.outside (after_call_holds _ _) nofun)
      · rw [last_grant_append]
        exact hk.windowed.grant
      · rw [streak_append]
        exact hk.windowed.failures
    · cases h
  | cancel c =>
    have hnext : (if c = .renewer then Phase.stopped else .idle).holds = false := by
      split <;> rfl
    rw [step] at h
    dsimp only at h
    split at h
    · rename_i hasleep
      cases h
      exact hk.outside hstep rfl hasleep rfl hnext
    · rename_i hwaiting
      cases h
      exact hk.outside hstep rfl hwaiting rfl hnext
    · rename_i hflight
      cases h
      have hturn : s.holder = some c := (hk.each c).turn.mp (by rw [hflight]; rfl)
      refine hk.turned hstep rfl (.inl hturn) (.inr rfl) (hk.windowed.later rfl) ?_
      exact Local.outside hnext nofun
    · cases h

end Steps

end Scorpio.LeaseKeeper
