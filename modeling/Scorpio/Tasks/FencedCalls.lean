import Scorpio.Tasks.MutationFence

/-!
# One call of the fenced filesystem

A mutating call waits for its admission, runs the inner operation inside
`NativeOperation` and completes the admission with the reply. A caller that is
dropped after the start leaves the operation to a spawned task, whose result is
handed to a cleanup task; a handle without an owner is released there. The
admission moves along and is completed or dropped exactly where its last owner
ends.

A call starts with its first poll. `permit` is the wait for the cleanup lane,
`start` the grant of the shared lock, with which the inner operation begins in
the same poll. Dropping a task counts as a panic of what it runs.
-/

set_option autoImplicit false

namespace Scorpio.FencedFilesystem

open Traces
open MutationFence (Admission)

/-- The fenced entry points. -/
inductive Entry where
  | setattr | symlink | mknod | mkdir | unlink | rmdir | rename | link | «open» | write | release
  | fsync | setxattr | removexattr | flush | opendir | releasedir | fsyncdir | setlk | create
  | ioctl | fallocate | rename2 | copyFileRange | setvolname | exchange
  deriving DecidableEq, Repr

/-- Handle retirement is admitted through `admit_cleanup`, also after a seal. -/
def Entry.cleanup : Entry → Bool
  | .release | .releasedir => true
  | _ => false

/-- What releases a handle that the entry point returned to nobody. -/
def Entry.releasedBy : Entry → Option Entry
  | .open | .create => some .release
  | .opendir => some .releasedir
  | _ => none

/-- The result of an inner operation; only an opening one returns a handle. -/
inductive Reply where
  | ok (fh : ℕ)
  | error
  deriving DecidableEq, Repr

/-- The handle that the cleanup of a result releases. -/
def Entry.orphan (entry : Entry) : Reply → Option ℕ
  | .ok fh => if entry.releasedBy.isSome then some fh else none
  | .error => none

inductive Phase where
  /-- `WaitingCleanup` is set up, the permit is not taken. -/
  | waiting
  | queued
  /-- The caller polls the operation. -/
  | inline
  /-- A spawned task polls it. -/
  | orphaned
  /-- The cleanup task is spawned with the handle it has to release. -/
  | cleaning (handle : Option ℕ)
  | releasing (fh : ℕ)
  /-- A release call dropped before its admission; the flag is not stored yet. -/
  | abandoned
  /-- The admission was dropped; the shared lock is still held. -/
  | dropped
  | ended
  deriving DecidableEq, Repr

inductive Action where
  | permit
  | start
  | refuse
  /-- The caller is dropped while it waits. -/
  | abandon
  | mark
  | reply (r : Reply)
  /-- The caller is dropped while the operation runs. -/
  | detach
  | finish (r : Reply)
  | complete
  | release (fh : ℕ)
  | released (ok : Bool)
  | panic
  | unlock
  deriving DecidableEq, Repr

/-- A failed inner release stores the flag before it returns. -/
def failure (entry : Entry) (r : Reply) : List MutationFence.Event :=
  if entry.cleanup = true ∧ r = .error then [.markUncertain] else []

/-- What a call does to the fence, and where it stands then. -/
def next (id : ℕ) (entry : Entry) : Phase → Action → Option (List MutationFence.Event × Phase)
  | .waiting, .permit => some ([.acquire ⟨id,entry.cleanup⟩],.queued)
  | .waiting, .abandon => some ([],.abandoned)
  | .queued, .start => some ([.grant ⟨id,entry.cleanup⟩],.inline)
  | .queued, .refuse => some ([.refuse ⟨id,entry.cleanup⟩],.ended)
  -- The wait is given up before `WaitingCleanup` is dropped.
  | .queued, .abandon => some ([.cancel ⟨id,entry.cleanup⟩],
      if entry.cleanup then .abandoned else .ended)
  | .abandoned, .mark => some ([.markUncertain],.ended)
  | .inline, .reply r => some (failure entry r ++ [.complete ⟨id,entry.cleanup⟩],.ended)
  | .inline, .detach => some ([],.orphaned)
  | .inline, .panic => some ([.drop ⟨id,entry.cleanup⟩],.dropped)
  | .orphaned, .finish r => some (failure entry r,.cleaning (entry.orphan r))
  | .orphaned, .panic => some ([.drop ⟨id,entry.cleanup⟩],.dropped)
  | .cleaning none, .complete => some ([.complete ⟨id,entry.cleanup⟩],.ended)
  | .cleaning (some handle), .release fh =>
      if fh = handle then some ([],.releasing fh) else none
  | .cleaning _, .panic => some ([.drop ⟨id,entry.cleanup⟩],.dropped)
  | .releasing _, .released true => some ([.complete ⟨id,entry.cleanup⟩],.ended)
  | .releasing _, .released false => some ([.drop ⟨id,entry.cleanup⟩],.dropped)
  | .releasing _, .panic => some ([.drop ⟨id,entry.cleanup⟩],.dropped)
  | .dropped, .unlock => some ([.unlock ⟨id,entry.cleanup⟩],.ended)
  | _, _ => none

/-! ## What a call has done -/

/-- The actions before the start. -/
def asked (entry : Entry) : List Action := if entry.cleanup then [.permit] else []

/-- The actions of a call whose admission was dropped. -/
inductive Failed (entry : Entry) : List Action → Prop
  | inline : Failed entry (asked entry ++ [.start,.panic])
  | orphaned : Failed entry (asked entry ++ [.start,.detach,.panic])
  | cleaning (r : Reply) : Failed entry (asked entry ++ [.start,.detach,.finish r,.panic])
  | releasing (r : Reply) (fh : ℕ) (h : entry.orphan r = some fh) :
      Failed entry (asked entry ++ [.start,.detach,.finish r,.release fh,.panic])
  | released (r : Reply) (fh : ℕ) (h : entry.orphan r = some fh) :
      Failed entry (asked entry ++ [.start,.detach,.finish r,.release fh,.released false])

/-- The actions of a call that has ended. -/
inductive Finished (entry : Entry) : List Action → Prop
  | busy : Finished entry []
  | refused : Finished entry (asked entry ++ [.refuse])
  | cancelled (h : entry.cleanup = false) : Finished entry [.abandon]
  | unasked (h : entry.cleanup = true) : Finished entry [.abandon,.mark]
  | unadmitted (h : entry.cleanup = true) : Finished entry [.permit,.abandon,.mark]
  | replied (r : Reply) : Finished entry (asked entry ++ [.start,.reply r])
  | completed (r : Reply) (h : entry.orphan r = none) :
      Finished entry (asked entry ++ [.start,.detach,.finish r,.complete])
  | released (r : Reply) (fh : ℕ) (h : entry.orphan r = some fh) :
      Finished entry (asked entry ++ [.start,.detach,.finish r,.release fh,.released true])
  | failed (past : List Action) (h : Failed entry past) : Finished entry (past ++ [.unlock])

/-- The actions of a call, by where it stands. -/
def Shape (entry : Entry) : Phase → List Action → Prop
  | .waiting, past => entry.cleanup = true ∧ past = []
  | .queued, past => past = asked entry
  | .inline, past => past = asked entry ++ [.start]
  | .orphaned, past => past = asked entry ++ [.start,.detach]
  | .cleaning handle, past => ∃ r, past = asked entry ++ [.start,.detach,.finish r] ∧
      handle = entry.orphan r
  | .releasing fh, past => ∃ r, past = asked entry ++ [.start,.detach,.finish r,.release fh] ∧
      entry.orphan r = some fh
  | .abandoned, past => entry.cleanup = true ∧ (past = [.abandon] ∨ past = [.permit,.abandon])
  | .dropped, past => Failed entry past
  | .ended, past => Finished entry past

theorem next_shape {id : ℕ} {entry : Entry} {phase phase' : Phase} {action : Action}
    {es : List MutationFence.Event} {past : List Action}
    (h : next id entry phase action = some (es,phase')) (hpast : Shape entry phase past) :
    Shape entry phase' (past ++ [action]) := by
  unfold next at h
  split at h
  -- waiting, permit
  case h_1 =>
    cases h
    obtain ⟨hcleanup,rfl⟩ := hpast
    simp [Shape, asked, hcleanup]
  -- waiting, abandon
  case h_2 =>
    cases h
    obtain ⟨hcleanup,rfl⟩ := hpast
    exact ⟨hcleanup,.inl rfl⟩
  -- queued, start
  case h_3 =>
    cases h
    exact congrArg (· ++ _) hpast
  -- queued, refuse
  case h_4 =>
    cases h
    obtain rfl : past = _ := hpast
    exact .refused
  -- queued, abandon
  case h_5 =>
    cases h
    obtain rfl : past = _ := hpast
    cases hcleanup : entry.cleanup with
    | true =>
      rw [if_pos rfl]
      exact ⟨hcleanup,.inr (by simp [asked, hcleanup])⟩
    | false =>
      rw [if_neg Bool.false_ne_true]
      simpa [Shape, asked, hcleanup] using Finished.cancelled hcleanup
  -- abandoned, mark
  case h_6 =>
    cases h
    obtain ⟨hcleanup,rfl | rfl⟩ := hpast
    · exact .unasked hcleanup
    · exact .unadmitted hcleanup
  -- inline, reply
  case h_7 r =>
    cases h
    obtain rfl : past = _ := hpast
    simpa [Shape] using (Finished.replied r : Finished entry _)
  -- inline, detach
  case h_8 =>
    cases h
    obtain rfl : past = _ := hpast
    simp [Shape]
  -- inline, panic
  case h_9 =>
    cases h
    obtain rfl : past = _ := hpast
    simpa [Shape] using (Failed.inline : Failed entry _)
  -- orphaned, finish
  case h_10 r =>
    cases h
    obtain rfl : past = _ := hpast
    exact ⟨r,by simp,rfl⟩
  -- orphaned, panic
  case h_11 =>
    cases h
    obtain rfl : past = _ := hpast
    simpa [Shape] using (Failed.orphaned : Failed entry _)
  -- cleaning nothing, complete
  case h_12 =>
    cases h
    obtain ⟨r,rfl,hnone⟩ := hpast
    simpa [Shape] using Finished.completed r hnone.symm
  -- cleaning a handle, release
  case h_13 handle fh =>
    split at h
    · rename_i hfh
      cases h
      obtain ⟨r,rfl,hsome⟩ := hpast
      exact ⟨r,by simp,by rw [hfh, hsome]⟩
    · cases h
  -- cleaning, panic
  case h_14 =>
    cases h
    obtain ⟨r,rfl,_⟩ := hpast
    simpa [Shape] using (Failed.cleaning r : Failed entry _)
  -- releasing, released
  case h_15 fh =>
    cases h
    obtain ⟨r,rfl,hsome⟩ := hpast
    simpa [Shape] using Finished.released r fh hsome
  -- releasing, not released
  case h_16 fh =>
    cases h
    obtain ⟨r,rfl,hsome⟩ := hpast
    simpa [Shape] using Failed.released r fh hsome
  -- releasing, panic
  case h_17 fh =>
    cases h
    obtain ⟨r,rfl,hsome⟩ := hpast
    simpa [Shape] using Failed.releasing r fh hsome
  -- dropped, unlock
  case h_18 =>
    cases h
    exact .failed past hpast
  case h_19 => cases h

/-- The handles that the cleanup of a call released. -/
def releases (past : List Action) : List ℕ :=
  past.filterMap fun action => match action with
    | .release fh => some fh
    | _ => none

section Outcomes

variable {entry : Entry} {phase : Phase} {past : List Action}

theorem asked_cases (entry : Entry) : asked entry = [] ∨ asked entry = [.permit] := by
  unfold asked
  split
  · exact .inr rfl
  · exact .inl rfl

@[simp] theorem releases_asked (rest : List Action) :
    releases (asked entry ++ rest) = releases rest := by
  rcases asked_cases entry with hasked | hasked <;> rw [hasked] <;> rfl

theorem asked_only {action : Action} (hne : action ≠ .permit) : action ∉ asked entry := by
  rcases asked_cases entry with hasked | hasked <;> simp [hasked, hne]

theorem Failed.started (h : Failed entry past) :
    (∃ r, .reply r ∈ past ∨ .finish r ∈ past) ∨ .panic ∈ past := by
  cases h with
  | released r fh _ => exact .inl ⟨r,.inr (by simp)⟩
  | _ => exact .inr (by simp)

/-- An operation that began has an owner, has come to its end, or was dropped. -/
theorem shape_started (h : Shape entry phase past) (hstart : .start ∈ past) :
    phase = .inline ∨ phase = .orphaned ∨ (∃ r, .reply r ∈ past ∨ .finish r ∈ past) ∨
      .panic ∈ past := by
  have hasked : Action.start ∉ asked entry := asked_only (by simp)
  cases phase with
  | waiting => simp [h.2] at hstart
  | queued =>
    rw [show past = asked entry from h] at hstart
    exact absurd hstart hasked
  | inline => exact .inl rfl
  | orphaned => exact .inr (.inl rfl)
  | cleaning handle =>
    obtain ⟨r,rfl,_⟩ := h
    exact .inr (.inr (.inl ⟨r,.inr (by simp)⟩))
  | releasing fh =>
    obtain ⟨r,rfl,_⟩ := h
    exact .inr (.inr (.inl ⟨r,.inr (by simp)⟩))
  | abandoned => rcases h.2 with rfl | rfl <;> simp at hstart
  | dropped => exact .inr (.inr (Failed.started h))
  | ended =>
    cases (show Finished entry past from h) with
    | replied r => exact .inr (.inr (.inl ⟨r,.inl (by simp)⟩))
    | completed r _ => exact .inr (.inr (.inl ⟨r,.inr (by simp)⟩))
    | released r _ _ => exact .inr (.inr (.inl ⟨r,.inr (by simp)⟩))
    | failed past hfailed =>
      rcases hfailed.started with ⟨r,hr⟩ | hpanic
      · exact .inr (.inr (.inl ⟨r,by simpa using hr⟩))
      · exact .inr (.inr (.inr (by simp [hpanic])))
    | _ => simp [hasked] at hstart

theorem Failed.unsure (h : Failed entry past) : .panic ∈ past ∨ .released false ∈ past := by
  cases h with
  | released r fh _ => exact .inr (by simp)
  | _ => exact .inl (by simp)

/-- A handle left without an owner waits for its release, is being released, was released once,
or the release did not come to its end. -/
theorem shape_orphan (h : Shape entry phase past) {r : Reply} {fh : ℕ} (hfinish : .finish r ∈ past)
    (horphan : entry.orphan r = some fh) :
    (phase = .cleaning (some fh) ∧ releases past = []) ∨
    (phase = .releasing fh ∧ releases past = [fh]) ∨
    (releases past = [fh] ∧ .released true ∈ past) ∨ .panic ∈ past ∨ .released false ∈ past := by
  have hasked : Action.finish r ∉ asked entry := asked_only (by simp)
  cases phase with
  | waiting => simp [h.2] at hfinish
  | queued =>
    rw [show past = asked entry from h] at hfinish
    exact absurd hfinish hasked
  | inline =>
    rw [show past = asked entry ++ [.start] from h] at hfinish
    simp [hasked] at hfinish
  | orphaned =>
    rw [show past = asked entry ++ [.start,.detach] from h] at hfinish
    simp [hasked] at hfinish
  | cleaning handle =>
    obtain ⟨r',rfl,rfl⟩ := h
    have hr : r = r' := by simpa [hasked] using hfinish
    rw [← hr, horphan]
    exact .inl ⟨rfl,releases_asked _⟩
  | releasing fh' =>
    obtain ⟨r',rfl,hsome⟩ := h
    have hr : r = r' := by simpa [hasked] using hfinish
    rw [← hr, horphan] at hsome
    cases hsome
    exact .inr (.inl ⟨rfl,releases_asked _⟩)
  | abandoned => rcases h.2 with rfl | rfl <;> simp at hfinish
  | dropped => exact .inr (.inr (.inr (Failed.unsure h)))
  | ended =>
    cases (show Finished entry past from h) with
    | completed r' hnone =>
      have hr : r = r' := by simpa [hasked] using hfinish
      rw [← hr, horphan] at hnone
      cases hnone
    | released r' fh' hsome =>
      have hr : r = r' := by simpa [hasked] using hfinish
      rw [← hr, horphan] at hsome
      cases hsome
      exact .inr (.inr (.inl ⟨releases_asked _,by simp⟩))
    | failed past hfailed => exact .inr (.inr (.inr (by simpa using hfailed.unsure)))
    | _ => simp [hasked] at hfinish

theorem Failed.releases_le (h : Failed entry past) : (releases past).length ≤ 1 := by
  cases h <;> rw [releases_asked] <;> simp [releases]

/-- No cleanup releases twice. -/
theorem shape_releases (h : Shape entry phase past) : (releases past).length ≤ 1 := by
  cases phase with
  | waiting => simp [h.2, releases]
  | queued =>
    rw [show past = asked entry from h, ← List.append_nil (asked entry), releases_asked]
    exact Nat.zero_le 1
  | inline =>
    rw [show past = asked entry ++ [.start] from h, releases_asked]
    exact Nat.zero_le 1
  | orphaned =>
    rw [show past = asked entry ++ [.start,.detach] from h, releases_asked]
    exact Nat.zero_le 1
  | cleaning handle =>
    obtain ⟨r,rfl,_⟩ := h
    rw [releases_asked]
    exact Nat.zero_le 1
  | releasing fh =>
    obtain ⟨r,rfl,_⟩ := h
    rw [releases_asked]
    exact Nat.le_refl 1
  | abandoned => rcases h.2 with rfl | rfl <;> exact Nat.zero_le 1
  | dropped => exact Failed.releases_le h
  | ended =>
    cases (show Finished entry past from h) with
    | failed past hfailed =>
      have hlength := hfailed.releases_le
      simpa [releases] using hlength
    | busy => exact Nat.zero_le 1
    | cancelled _ => exact Nat.zero_le 1
    | unasked _ => exact Nat.zero_le 1
    | unadmitted _ => exact Nat.zero_le 1
    | _ =>
      rw [releases_asked]
      simp [releases]

/-- A release call that was dropped while it waited stores the flag. -/
theorem shape_abandoned (h : Shape entry phase past) (hcleanup : entry.cleanup = true)
    (habandon : .abandon ∈ past) : phase = .abandoned ∨ .mark ∈ past := by
  have hasked : Action.abandon ∉ asked entry := asked_only (by simp)
  cases phase with
  | waiting => simp [h.2] at habandon
  | queued =>
    rw [show past = asked entry from h] at habandon
    exact absurd habandon hasked
  | inline =>
    rw [show past = asked entry ++ [.start] from h] at habandon
    simp [hasked] at habandon
  | orphaned =>
    rw [show past = asked entry ++ [.start,.detach] from h] at habandon
    simp [hasked] at habandon
  | cleaning handle =>
    obtain ⟨r,rfl,_⟩ := h
    simp [hasked] at habandon
  | releasing fh =>
    obtain ⟨r,rfl,_⟩ := h
    simp [hasked] at habandon
  | abandoned => exact .inl rfl
  | dropped =>
    cases (show Failed entry past from h) <;> simp [hasked] at habandon
  | ended =>
    cases (show Finished entry past from h) with
    | cancelled hcontent =>
      rw [hcleanup] at hcontent
      cases hcontent
    | unasked _ => exact .inr (by simp)
    | unadmitted _ => exact .inr (by simp)
    | failed past hfailed => cases hfailed <;> simp [hasked] at habandon
    | _ => simp [hasked] at habandon

end Outcomes

/-! ## The admission of a call -/

/-- Where the admission stands in the fence. -/
def Standing (f : MutationFence.State) (a : Admission) : Phase → Prop
  | .queued => a ∈ f.queued
  | .inline | .orphaned | .cleaning _ | .releasing _ => a ∈ f.admitted
  | .dropped => a ∈ f.dropped
  | _ => True

/-- A failed inner release changes the flag only. -/
theorem failure_standing {entry : Entry} {r : Reply} {f f' : MutationFence.State}
    (hrun : run MutationFence.step f (failure entry r) = some f') : f'.admitted = f.admitted := by
  unfold failure at hrun
  split at hrun
  · rw [run_singleton] at hrun
    obtain ⟨_,rfl⟩ := guarded_eq_some.mp hrun
    rfl
  · cases hrun
    rfl

theorem drop_standing {f f' : MutationFence.State} {a : Admission}
    (hrun : run MutationFence.step f [.drop a] = some f') : a ∈ f'.dropped := by
  rw [run_singleton] at hrun
  obtain ⟨_,rfl⟩ := guarded_eq_some.mp hrun
  exact List.mem_cons_self

section Steps

variable {id : ℕ} {entry : Entry} {phase phase' : Phase} {action : Action}
  {es : List MutationFence.Event}

theorem next_standing {f f' : MutationFence.State}
    (h : next id entry phase action = some (es,phase')) (hrun : run MutationFence.step f es = some f')
    (hstanding : Standing f ⟨id,entry.cleanup⟩ phase) : Standing f' ⟨id,entry.cleanup⟩ phase' := by
  unfold next at h
  split at h
  case h_1 =>
    cases h
    rw [run_singleton] at hrun
    obtain ⟨_,rfl⟩ := guarded_eq_some.mp hrun
    exact List.mem_cons_self
  case h_3 =>
    cases h
    rw [run_singleton] at hrun
    obtain ⟨_,rfl⟩ := guarded_eq_some.mp hrun
    exact List.mem_cons_self
  case h_5 =>
    cases h
    cases entry.cleanup <;> trivial
  case h_8 =>
    cases h
    cases hrun
    exact hstanding
  case h_10 r =>
    cases h
    change _ ∈ f'.admitted
    rw [failure_standing hrun]
    exact hstanding
  case h_13 =>
    split at h
    · cases h
      cases hrun
      exact hstanding
    · cases h
  case h_9 | h_11 | h_14 | h_16 | h_17 =>
    cases h
    exact drop_standing hrun
  case h_19 => cases h
  all_goals
    cases h
    trivial

/-- A call acts on its own admission and on the flag. -/
theorem next_about (h : next id entry phase action = some (es,phase')) :
    ∀ e ∈ es, e.about = some ⟨id,entry.cleanup⟩ ∨ e = .markUncertain := by
  have hfailure : ∀ r, ∀ e ∈ failure entry r, e = .markUncertain := by
    intro r e he
    unfold failure at he
    split at he
    · exact List.mem_singleton.mp he
    · cases he
  unfold next at h
  split at h
  case h_7 r =>
    cases h
    intro e he
    rcases List.mem_append.mp he with he | he
    · exact .inr (hfailure r e he)
    · exact .inl (by rw [List.mem_singleton.mp he]; rfl)
  case h_10 r =>
    cases h
    exact fun e he => .inr (hfailure r e he)
  case h_13 =>
    split at h <;> cases h
    exact fun e he => (List.not_mem_nil he).elim
  case h_19 => cases h
  all_goals
    cases h
    simp [MutationFence.Event.about]

/-- A call that fails leaves the fence uncertain. -/
theorem next_unsure (h : next id entry phase action = some (es,phase'))
    (haction : action = .panic ∨ action = .mark ∨ action = .released false) :
    ∃ e ∈ es, e.setsUncertain := by
  unfold next at h
  split at h
  case h_13 => simp at haction
  case h_19 => cases h
  all_goals
    cases h
    simp_all [MutationFence.Event.setsUncertain]

end Steps

end Scorpio.FencedFilesystem
