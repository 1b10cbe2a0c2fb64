import Scorpio.Tasks.FencedCalls

/-!
# The fenced filesystem

Any number of fenced calls and pauses over one mutation fence. A trace is one
interleaving of their polls, drops and panics and of the pauses. Each call keeps
its own table of what it did; what the fence sees of it is its admission, so the
exclusive lock of a pause says that no call is between its start and its end.
-/

set_option autoImplicit false

namespace Scorpio.FencedFilesystem

open Traces
open MutationFence (Admission)

structure Call where
  entry : Entry
  phase : Phase
  deriving DecidableEq, Repr

structure State where
  fence : MutationFence.State
  calls : ℕ → Option Call

def new (maxInFlight : ℕ) : State := ⟨MutationFence.new maxInFlight,fun _ => none⟩

inductive Event where
  | call (id : ℕ) (entry : Entry)
  /-- A content call that finds no permit. -/
  | busy (id : ℕ) (entry : Entry)
  | act (id : ℕ) (action : Action)
  | control (e : MutationFence.Event)
  deriving DecidableEq, Repr

/-- What the owner of a pause does. -/
def isControl : MutationFence.Event → Bool
  | .lockPause _ | .pause _ _ | .ensureCertain _ _ | .sealPause _ _ | .dropPause _
  | .markUncertain => true
  | _ => false

/-- The number of a pause is not that of a call. -/
def State.fresh (s : State) : MutationFence.Event → Bool
  | .lockPause id => (s.calls id).isNone
  | _ => true

def State.put (s : State) (id : ℕ) (call : Call) (fence : MutationFence.State) : State :=
  ⟨fence,Function.update s.calls id (some call)⟩

def step (s : State) : Event → Option State
  | .call id entry =>
    if s.calls id = none ∧ id ∉ s.fence.issued then
      if entry.cleanup then some (s.put id ⟨entry,.waiting⟩ s.fence)
      else (MutationFence.step s.fence (.acquire ⟨id,entry.cleanup⟩)).map
        (s.put id ⟨entry,.queued⟩)
    else none
  | .busy id entry =>
    if s.calls id = none ∧ entry.cleanup = false then
      (MutationFence.step s.fence (.again id)).map (s.put id ⟨entry,.ended⟩)
    else none
  | .act id action =>
    (s.calls id).bind fun call => (next id call.entry call.phase action).bind fun moved =>
      (run MutationFence.step s.fence moved.1).map (s.put id ⟨call.entry,moved.2⟩)
  | .control e =>
    if isControl e && s.fresh e then (MutationFence.step s.fence e).map fun fence => ⟨fence,s.calls⟩
    else none

/-- The actions of one call in a trace. -/
def actions (id : ℕ) (trace : List Event) : List Action :=
  trace.filterMap fun e => match e with
    | .act other action => if other = id then some action else none
    | _ => none

/-! ## What a step does -/

section Steps

variable {s t : State} {id : ℕ} {entry : Entry} {action : Action}

theorem call_inv (h : step s (.call id entry) = some t) : s.calls id = none ∧
    ((entry.cleanup = true ∧ t = s.put id ⟨entry,.waiting⟩ s.fence) ∨
      (entry.cleanup = false ∧ ∃ fence,
        MutationFence.step s.fence (.acquire ⟨id,entry.cleanup⟩) = some fence ∧
          t = s.put id ⟨entry,.queued⟩ fence)) := by
  unfold step at h
  dsimp only at h
  split at h
  · rename_i hnew
    refine ⟨hnew.1,?_⟩
    split at h
    · rename_i hcleanup
      exact .inl ⟨hcleanup,(Option.some.inj h).symm⟩
    · rename_i hcleanup
      obtain ⟨fence,hfence,rfl⟩ := Option.map_eq_some_iff.mp h
      exact .inr ⟨Bool.eq_false_iff.mpr hcleanup,fence,hfence,rfl⟩
  · cases h

theorem busy_inv (h : step s (.busy id entry) = some t) : s.calls id = none ∧
    ∃ fence, MutationFence.step s.fence (.again id) = some fence ∧
      t = s.put id ⟨entry,.ended⟩ fence := by
  unfold step at h
  dsimp only at h
  split at h
  · rename_i hnew
    obtain ⟨fence,hfence,rfl⟩ := Option.map_eq_some_iff.mp h
    exact ⟨hnew.1,fence,hfence,rfl⟩
  · cases h

theorem act_inv (h : step s (.act id action) = some t) : ∃ call es phase fence,
    s.calls id = some call ∧ next id call.entry call.phase action = some (es,phase) ∧
      run MutationFence.step s.fence es = some fence ∧ t = s.put id ⟨call.entry,phase⟩ fence := by
  unfold step at h
  dsimp only at h
  obtain ⟨call,hcall,h⟩ := Option.bind_eq_some_iff.mp h
  obtain ⟨⟨es,phase⟩,hnext,h⟩ := Option.bind_eq_some_iff.mp h
  obtain ⟨fence,hfence,rfl⟩ := Option.map_eq_some_iff.mp h
  exact ⟨call,es,phase,fence,hcall,hnext,hfence,rfl⟩

theorem control_inv {e : MutationFence.Event} (h : step s (.control e) = some t) :
    isControl e = true ∧ ∃ fence, MutationFence.step s.fence e = some fence ∧
      t = ⟨fence,s.calls⟩ := by
  unfold step at h
  dsimp only at h
  split at h
  · rename_i hcontrol
    obtain ⟨fence,hfence,rfl⟩ := Option.map_eq_some_iff.mp h
    exact ⟨(Bool.and_eq_true_iff.mp hcontrol).1,fence,hfence,rfl⟩
  · cases h

end Steps

/-! ## Actions of a trace -/

section Actions

variable {id : ℕ} {past : List Event}

theorem actions_append (rest : List Event) :
    actions id (past ++ rest) = actions id past ++ actions id rest :=
  List.filterMap_append

theorem actions_act (action : Action) :
    actions id (past ++ [.act id action]) = actions id past ++ [action] := by
  rw [actions_append]
  simp [actions]

theorem actions_other {e : Event} (he : ∀ action, e ≠ .act id action) :
    actions id (past ++ [e]) = actions id past := by
  rw [actions_append]
  cases e with
  | act other action =>
    have hne : other ≠ id := fun heq => he action (by rw [heq])
    simp [actions, hne]
  | _ => simp [actions]

theorem mem_actions {action : Action} : action ∈ actions id past ↔ .act id action ∈ past := by
  unfold actions
  rw [List.mem_filterMap]
  constructor
  · rintro ⟨e,he,heq⟩
    cases e with
    | act other action' =>
      by_cases hid : other = id
      · subst hid
        simp only [if_true, Option.some.injEq] at heq
        exact heq ▸ he
      · simp [hid] at heq
    | _ => simp at heq
  · intro h
    exact ⟨_,h,by simp⟩

end Actions

/-! ## The invariant -/

/-- The actions after which the fence is uncertain. -/
def Failing (action : Action) : Prop :=
  action = .panic ∨ action = .mark ∨ action = .released false

structure Accounts (past : List Event) (s : State) : Prop where
  shape : ∀ id call, s.calls id = some call → Shape call.entry call.phase (actions id past)
  standing : ∀ id call, s.calls id = some call →
    Standing s.fence ⟨id,call.entry.cleanup⟩ call.phase
  unknown : ∀ id, s.calls id = none → actions id past = []
  called : ∀ id entry, .call id entry ∈ past → ∃ phase, s.calls id = some ⟨entry,phase⟩
  unsure : ∀ id action, .act id action ∈ past → Failing action → s.fence.uncertain = true
  exclusive : s.fence.writer ≠ none → s.fence.admitted = [] ∧ s.fence.dropped = []

/-- What an event of the fence leaves as it is. -/
structure Framed (f f' : MutationFence.State) (id : ℕ) : Prop where
  standing : ∀ b phase, b.id ≠ id → Standing f b phase → Standing f' b phase
  unsure : f.uncertain = true → f'.uncertain = true
  exclusive : (f.writer ≠ none → f.admitted = [] ∧ f.dropped = []) →
    f'.writer ≠ none → f'.admitted = [] ∧ f'.dropped = []

theorem Framed.refl (f : MutationFence.State) (id : ℕ) : Framed f f id :=
  ⟨fun _ _ _ h => h,fun h => h,fun h => h⟩

variable {f f' : MutationFence.State} {e : Event}

theorem Framed.trans {g k : MutationFence.State} {id : ℕ} (h : Framed f g id) (h' : Framed g k id) :
    Framed f k id :=
  ⟨fun b phase hb hs => h'.standing b phase hb (h.standing b phase hb hs),
    fun hu => h'.unsure (h.unsure hu),fun hx => h'.exclusive (h.exclusive hx)⟩

theorem keeps_standing {e : MutationFence.Event} {b : Admission}
    (h : MutationFence.step f e = some f') (hb : e.about ≠ some b) (phase : Phase)
    (hs : Standing f b phase) : Standing f' b phase := by
  have hkeeps := MutationFence.step_keeps h hb
  cases phase with
  | queued => exact hkeeps.1 hs
  | inline => exact hkeeps.2.1 hs
  | orphaned => exact hkeeps.2.1 hs
  | cleaning handle => exact hkeeps.2.1 hs
  | releasing fh => exact hkeeps.2.1 hs
  | dropped => exact hkeeps.2.2 hs
  | _ => trivial

theorem step_framed {e : MutationFence.Event} {id : ℕ} (h : MutationFence.step f e = some f')
    (hid : ∀ a, e.about = some a → a.id = id) :
    Framed f f' id :=
  ⟨fun b phase hb => keeps_standing h (fun heq => hb (hid b heq)) phase,
    fun hu => MutationFence.step_uncertain h (.inl hu),MutationFence.step_exclusive h⟩

theorem run_framed {es : List MutationFence.Event} {id : ℕ}
    (h : run MutationFence.step f es = some f')
    (hid : ∀ e ∈ es, ∀ a, e.about = some a → a.id = id) : Framed f f' id := by
  induction es generalizing f with
  | nil =>
    cases h
    exact .refl _ id
  | cons e es ih =>
    obtain ⟨g,hg,hrest⟩ := run_cons.mp h
    exact (step_framed hg (hid e (by simp))).trans (ih hrest fun e' he' => hid e' (by simp [he']))

/-- An event that stores the flag leaves it stored. -/
theorem run_unsure {es : List MutationFence.Event} (h : run MutationFence.step f es = some f')
    (hunsure : ∃ e ∈ es, e.setsUncertain) :
    f'.uncertain = true := by
  obtain ⟨e,he,hsets⟩ := hunsure
  obtain ⟨before,after,rfl⟩ := List.append_of_mem he
  obtain ⟨u,v,_,hv,hafter⟩ := run_split h
  exact run_invariant (fun g => g.uncertain = true) (MutationFence.step_uncertain hv (.inr hsets))
    (fun _ _ _ hu hstep => MutationFence.step_uncertain hstep (.inl hu)) hafter

/-- One call moves: the others keep their table and their admission. -/
theorem Accounts.put {past : List Event} {s : State} (hs : Accounts past s) {id : ℕ} {call : Call}
    {fence : MutationFence.State} (hframed : Framed s.fence fence id)
    (hothers : ∀ other, other ≠ id → ∀ action, e ≠ .act other action)
    (hcalled : ∀ other entry, e = .call other entry → other = id ∧ entry = call.entry)
    (hkept : ∀ old, s.calls id = some old → old.entry = call.entry)
    (hshape : Shape call.entry call.phase (actions id (past ++ [e])))
    (hstanding : Standing fence ⟨id,call.entry.cleanup⟩ call.phase)
    (hunsure : ∀ action, e = .act id action → Failing action → fence.uncertain = true) :
    Accounts (past ++ [e]) (s.put id call fence) := by
  have hold : ∀ other, other ≠ id → (s.put id call fence).calls other = s.calls other :=
    fun other hne => Function.update_of_ne hne _ _
  have hnew : (s.put id call fence).calls id = some call := Function.update_self _ _ _
  refine ⟨?_,?_,?_,?_,?_,hframed.exclusive hs.exclusive⟩
  · intro other found hfound
    by_cases hid : other = id
    · rw [hid] at hfound ⊢
      cases hnew.symm.trans hfound
      exact hshape
    · rw [hold other hid] at hfound
      rw [actions_other (hothers other hid)]
      exact hs.shape other found hfound
  · intro other found hfound
    by_cases hid : other = id
    · rw [hid] at hfound ⊢
      cases hnew.symm.trans hfound
      exact hstanding
    · rw [hold other hid] at hfound
      exact hframed.standing _ _ hid (hs.standing other found hfound)
  · intro other hnone
    by_cases hid : other = id
    · rw [hid, hnew] at hnone
      cases hnone
    · rw [hold other hid] at hnone
      rw [actions_other (hothers other hid)]
      exact hs.unknown other hnone
  · intro other entry hmem
    rcases List.mem_append.mp hmem with hmem | hmem
    · obtain ⟨phase,hphase⟩ := hs.called other entry hmem
      by_cases hid : other = id
      · rw [hid] at hphase ⊢
        rw [hnew, show entry = call.entry from hkept _ hphase]
        exact ⟨call.phase,rfl⟩
      · rw [hold other hid]
        exact ⟨phase,hphase⟩
    · obtain ⟨rfl,rfl⟩ := hcalled other entry (List.mem_singleton.mp hmem).symm
      exact ⟨call.phase,hnew⟩
  · intro other action hmem hfailing
    rcases List.mem_append.mp hmem with hmem | hmem
    · exact hframed.unsure (hs.unsure other action hmem hfailing)
    · have heq := (List.mem_singleton.mp hmem).symm
      by_cases hid : other = id
      · exact hunsure action (hid ▸ heq) hfailing
      · exact absurd heq (hothers other hid action)

theorem step_accounts (past : List Event) (s : State) (e : Event) (t : State)
    (hs : Accounts past s) (h : step s e = some t) : Accounts (past ++ [e]) t := by
  cases e with
  | call id entry =>
    obtain ⟨hnone,⟨hcleanup,rfl⟩ | ⟨hcontent,fence,hfence,rfl⟩⟩ := call_inv h
    · apply hs.put (.refl _ id)
      · simp
      · simp
      · simp [hnone]
      · rw [actions_other (by simp), hs.unknown id hnone]
        exact ⟨hcleanup,rfl⟩
      · trivial
      · simp
    · apply hs.put (step_framed hfence fun a ha => by cases ha; rfl)
      · simp
      · simp
      · simp [hnone]
      · rw [actions_other (by simp), hs.unknown id hnone]
        simp [Shape, asked, hcontent]
      · obtain ⟨_,rfl⟩ := guarded_eq_some.mp hfence
        exact List.mem_cons_self
      · simp
  | busy id entry =>
    obtain ⟨hnone,fence,hfence,rfl⟩ := busy_inv h
    apply hs.put (step_framed hfence fun a ha => by cases ha)
    · simp
    · simp
    · simp [hnone]
    · rw [actions_other (by simp), hs.unknown id hnone]
      exact .busy
    · trivial
    · simp
  | act id action =>
    obtain ⟨call,es,phase,fence,hcall,hnext,hfence,rfl⟩ := act_inv h
    have habout : ∀ e ∈ es, ∀ a, e.about = some a → a.id = id := by
      intro e he a ha
      rcases next_about hnext e he with hown | rfl
      · rw [hown] at ha
        cases ha
        rfl
      · cases ha
    apply hs.put (run_framed hfence habout)
    · intro other hne action' heq
      cases heq
      exact hne rfl
    · simp
    · simp [hcall]
    · rw [actions_act]
      exact next_shape hnext (hs.shape id call hcall)
    · exact next_standing hnext hfence (hs.standing id call hcall)
    · intro action' heq hfailing
      cases heq
      exact run_unsure hfence (next_unsure hnext hfailing)
  | control e =>
    obtain ⟨hcontrol,fence,hfence,rfl⟩ := control_inv h
    have habout : e.about = none := by
      cases e <;> first | rfl | cases hcontrol
    refine ⟨fun id call hcall => ?_,fun id call hcall => ?_,fun id hnone => ?_,
      fun id entry hmem => ?_,fun id action hmem hfailing => ?_,
      MutationFence.step_exclusive hfence hs.exclusive⟩
    · rw [actions_other (by simp)]
      exact hs.shape id call hcall
    · exact keeps_standing hfence (by simp [habout]) _ (hs.standing id call hcall)
    · rw [actions_other (by simp)]
      exact hs.unknown id hnone
    · exact hs.called id entry (by simpa using hmem)
    · have hunsure := hs.unsure id action (by simpa using hmem) hfailing
      exact MutationFence.step_uncertain hfence (.inl hunsure)

theorem run_accounts {maxInFlight : ℕ} {trace : List Event} {s : State}
    (h : run step (new maxInFlight) trace = some s) : Accounts trace s := by
  apply run_history Accounts _ step_accounts h
  refine ⟨?_,?_,?_,?_,?_,?_⟩ <;> simp [new, MutationFence.new, actions]

/-! ## Outcomes -/

section Outcomes

variable {trace : List Event} {s : State} {id : ℕ} {entry : Entry}

theorem acted_known (hs : Accounts trace s) {action : Action} (hact : .act id action ∈ trace) :
    ∃ call, s.calls id = some call := by
  cases hcall : s.calls id with
  | some call => exact ⟨call,rfl⟩
  | none =>
    have hmem := mem_actions.mpr hact
    rw [hs.unknown id hcall] at hmem
    exact (List.not_mem_nil hmem).elim

/-- The caller or a task polls the inner operation, and nothing keeps it from its end. -/
def State.Owned (s : State) (id : ℕ) : Prop :=
  ∃ call, s.calls id = some call ∧
    ((call.phase = .inline ∧ ∀ r, (step s (.act id (.reply r))).isSome) ∨
      (call.phase = .orphaned ∧ ∀ r, (step s (.act id (.finish r))).isSome))

theorem failure_enabled (entry : Entry) (r : Reply) (f : MutationFence.State) :
    ∃ f', run MutationFence.step f (failure entry r) = some f' ∧ f'.admitted = f.admitted := by
  have hrun : ∃ f', run MutationFence.step f (failure entry r) = some f' := by
    unfold failure
    split
    · exact ⟨_,rfl⟩
    · exact ⟨f,rfl⟩
  obtain ⟨f',hf'⟩ := hrun
  exact ⟨f',hf',failure_standing hf'⟩

theorem inline_owned (hs : Accounts trace s) {call : Call} (hcall : s.calls id = some call)
    (hphase : call.phase = .inline) : s.Owned id := by
  refine ⟨call,hcall,.inl ⟨hphase,fun r => ?_⟩⟩
  have hstanding := hs.standing id call hcall
  rw [hphase] at hstanding
  obtain ⟨f,hf,hadmitted⟩ := failure_enabled call.entry r s.fence
  have hcomplete : ∃ f', MutationFence.step f (.complete ⟨id,call.entry.cleanup⟩) = some f' :=
    ⟨_,guarded_eq_some.mpr ⟨by rw [hadmitted]; exact hstanding,rfl⟩⟩
  obtain ⟨f',hf'⟩ := hcomplete
  have hrun := run_append.mpr ⟨f,hf,run_singleton.trans hf'⟩
  simp [step, hcall, hphase, next, hrun]

theorem orphaned_owned {call : Call} (hcall : s.calls id = some call)
    (hphase : call.phase = .orphaned) : s.Owned id := by
  refine ⟨call,hcall,.inr ⟨hphase,fun r => ?_⟩⟩
  obtain ⟨f,hf,_⟩ := failure_enabled call.entry r s.fence
  simp [step, hcall, hphase, next, hf]

theorem started_outcome (hs : Accounts trace s) (hstart : .act id .start ∈ trace) :
    s.Owned id ∨
    (∃ r, .act id (.reply r) ∈ trace ∨ .act id (.finish r) ∈ trace) ∨
    s.fence.uncertain = true := by
  obtain ⟨call,hcall⟩ := acted_known hs hstart
  rcases shape_started (hs.shape id call hcall) (mem_actions.mpr hstart) with
    hinline | horphaned | ⟨r,hr⟩ | hpanic
  · exact .inl (inline_owned hs hcall hinline)
  · exact .inl (orphaned_owned hcall horphaned)
  · exact .inr (.inl ⟨r,by simpa only [mem_actions] using hr⟩)
  · exact .inr (.inr (hs.unsure id .panic (mem_actions.mp hpanic) (.inl rfl)))

variable {fh p : ℕ}

theorem orphan_outcome (hs : Accounts trace s) (hcalled : .call id entry ∈ trace) {r : Reply}
    (hfinish : .act id (.finish r) ∈ trace) (horphan : entry.orphan r = some fh) :
    (∃ phase, s.calls id = some ⟨entry,phase⟩ ∧
      (phase = .cleaning (some fh) ∨ phase = .releasing fh) ∧
      ⟨id,entry.cleanup⟩ ∈ s.fence.admitted) ∨
    (releases (actions id trace) = [fh] ∧ .act id (.released true) ∈ trace) ∨
    s.fence.uncertain = true := by
  obtain ⟨phase,hphase⟩ := hs.called id entry hcalled
  have hstanding := hs.standing id _ hphase
  rcases shape_orphan (hs.shape id _ hphase) (mem_actions.mpr hfinish) horphan with
    ⟨hcleaning,_⟩ | ⟨hreleasing,_⟩ | ⟨honce,hreleased⟩ | hpanic | hfailed
  · dsimp only at hcleaning hstanding
    rw [hcleaning] at hstanding
    exact .inl ⟨phase,hphase,.inl hcleaning,hstanding⟩
  · dsimp only at hreleasing hstanding
    rw [hreleasing] at hstanding
    exact .inl ⟨phase,hphase,.inr hreleasing,hstanding⟩
  · exact .inr (.inl ⟨honce,mem_actions.mp hreleased⟩)
  · exact .inr (.inr (hs.unsure id .panic (mem_actions.mp hpanic) (.inl rfl)))
  · exact .inr (.inr (hs.unsure id _ (mem_actions.mp hfailed) (.inr (.inr rfl))))

theorem abandoned_outcome (hs : Accounts trace s) (hcalled : .call id entry ∈ trace)
    (hcleanup : entry.cleanup = true) (habandon : .act id .abandon ∈ trace) :
    s.calls id = some ⟨entry,.abandoned⟩ ∨ s.fence.uncertain = true := by
  obtain ⟨phase,hphase⟩ := hs.called id entry hcalled
  rcases shape_abandoned (hs.shape id _ hphase) hcleanup (mem_actions.mpr habandon) with
    habandoned | hmark
  · dsimp only at habandoned
    rw [habandoned] at hphase
    exact .inl hphase
  · exact .inr (hs.unsure id .mark (mem_actions.mp hmark) (.inr (.inl rfl)))

theorem releases_once (hs : Accounts trace s) (id : ℕ) :
    (releases (actions id trace)).length ≤ 1 := by
  cases hcall : s.calls id with
  | some call => exact shape_releases (hs.shape id call hcall)
  | none => simp [hs.unknown id hcall, releases]

/-- A handle is released under the admission of its call. -/
theorem release_admitted (hs : Accounts trace s) {t : State}
    (h : step s (.act id (.release fh)) = some t) : ∃ call, s.calls id = some call ∧
      ⟨id,call.entry.cleanup⟩ ∈ s.fence.admitted := by
  obtain ⟨call,es,phase,fence,hcall,hnext,_⟩ := act_inv h
  have hstanding := hs.standing id call hcall
  refine ⟨call,hcall,?_⟩
  cases hphase : call.phase with
  | cleaning handle =>
    rw [hphase] at hstanding
    exact hstanding
  | _ => simp [hphase, next] at hnext

/-- When a pause returns, no admission is held and the flag is not stored. -/
theorem pause_quiet (hs : Accounts trace s) {t : State}
    (h : step s (.control (.pause p true)) = some t) :
    s.fence.admitted = [] ∧ s.fence.uncertain = false := by
  obtain ⟨_,fence,hfence,_⟩ := control_inv h
  obtain ⟨⟨hwriter,hcertain⟩,_⟩ := guarded_eq_some.mp hfence
  exact ⟨(hs.exclusive (by simp [hwriter])).1,by simpa using hcertain.symm⟩

theorem pause_started (hs : Accounts trace s) {t : State}
    (h : step s (.control (.pause p true)) = some t) (hstart : .act id .start ∈ trace) :
    ∃ r, .act id (.reply r) ∈ trace ∨ .act id (.finish r) ∈ trace := by
  obtain ⟨hadmitted,hcertain⟩ := pause_quiet hs h
  rcases started_outcome hs hstart with ⟨call,hcall,hphase⟩ | hended | hunsure
  · have hstanding := hs.standing id call hcall
    rcases hphase with ⟨hphase,_⟩ | ⟨hphase,_⟩ <;> rw [hphase] at hstanding <;>
      simp [Standing, hadmitted] at hstanding
  · exact hended
  · rw [hcertain] at hunsure
    cases hunsure

theorem pause_released (hs : Accounts trace s) {t : State}
    (h : step s (.control (.pause p true)) = some t) (hcalled : .call id entry ∈ trace)
    {r : Reply} (hfinish : .act id (.finish r) ∈ trace) (horphan : entry.orphan r = some fh) :
    releases (actions id trace) = [fh] ∧ .act id (.released true) ∈ trace := by
  obtain ⟨hadmitted,hcertain⟩ := pause_quiet hs h
  rcases orphan_outcome hs hcalled hfinish horphan with ⟨_,_,_,hheld⟩ | hreleased | hunsure
  · rw [hadmitted] at hheld
    exact (List.not_mem_nil hheld).elim
  · exact hreleased
  · rw [hcertain] at hunsure
    cases hunsure

end Outcomes

/-! ## The seal -/

/-- The fence moves by its own events. -/
theorem step_fence {s t : State} (h : step s e = some t) :
    ∃ es, run MutationFence.step s.fence es = some t.fence := by
  cases e with
  | call id entry =>
    obtain ⟨_,⟨_,rfl⟩ | ⟨_,fence,hfence,rfl⟩⟩ := call_inv h
    · exact ⟨[],rfl⟩
    · exact ⟨[_],run_singleton.trans hfence⟩
  | busy id entry =>
    obtain ⟨_,fence,hfence,rfl⟩ := busy_inv h
    exact ⟨[_],run_singleton.trans hfence⟩
  | act id action =>
    obtain ⟨_,es,_,fence,_,_,hfence,rfl⟩ := act_inv h
    exact ⟨es,hfence⟩
  | control e =>
    obtain ⟨_,fence,hfence,rfl⟩ := control_inv h
    exact ⟨[e],run_singleton.trans hfence⟩

theorem step_sealed {s t : State} (h : step s e = some t) (hs : s.fence.sealed = true) :
    t.fence.sealed = true := by
  obtain ⟨es,hes⟩ := step_fence h
  exact run_invariant (fun f => f.sealed = true) hs
    (fun _ _ _ hf hstep => MutationFence.step_sealed hstep hf) hes

/-- The entry point of a call is fixed. -/
theorem step_entry {s t : State} {id : ℕ} {entry : Entry} (h : step s e = some t)
    (hs : ∃ phase, s.calls id = some ⟨entry,phase⟩) :
    ∃ phase, t.calls id = some ⟨entry,phase⟩ := by
  obtain ⟨phase,hphase⟩ := hs
  have hput : ∀ other call fence, other ≠ id →
      (s.put other call fence).calls id = some ⟨entry,phase⟩ := by
    intro other call fence hne
    exact (Function.update_of_ne hne.symm _ _).trans hphase
  have hnew : ∀ other, s.calls other = none → other ≠ id := by
    rintro other hnone rfl
    rw [hphase] at hnone
    cases hnone
  cases e with
  | call other entry' =>
    obtain ⟨hnone,⟨_,rfl⟩ | ⟨_,fence,_,rfl⟩⟩ := call_inv h
    · exact ⟨phase,hput other _ _ (hnew other hnone)⟩
    · exact ⟨phase,hput other _ _ (hnew other hnone)⟩
  | busy other entry' =>
    obtain ⟨hnone,fence,_,rfl⟩ := busy_inv h
    exact ⟨phase,hput other _ _ (hnew other hnone)⟩
  | act other action =>
    obtain ⟨call,es,phase',fence,hcall,_,_,rfl⟩ := act_inv h
    by_cases hid : other = id
    · subst hid
      rw [hphase] at hcall
      cases hcall
      exact ⟨phase',Function.update_self _ _ _⟩
    · exact ⟨phase,hput other _ _ hid⟩
  | control e =>
    obtain ⟨_,fence,_,rfl⟩ := control_inv h
    exact ⟨phase,hphase⟩

/-- A sealed fence starts handle retirement only. -/
theorem start_sealed {s t : State} {id : ℕ} (hs : s.fence.sealed = true)
    (h : step s (.act id .start) = some t) :
    ∃ call, s.calls id = some call ∧ call.entry.cleanup = true := by
  obtain ⟨call,es,phase,fence,hcall,hnext,hfence,_⟩ := act_inv h
  refine ⟨call,hcall,?_⟩
  cases hphase : call.phase with
  | queued =>
    rw [hphase] at hnext
    cases hnext
    rw [run_singleton] at hfence
    exact MutationFence.sealed_refuses hs hfence
  | _ => simp [hphase, next] at hnext

theorem seal_refuses {s t : State} {p id : ℕ} {entry : Entry} {rest : List Event}
    (h : run step s (.control (.sealPause p true) :: rest) = some t)
    (hentry : ∃ phase, t.calls id = some ⟨entry,phase⟩) (hcontent : entry.cleanup = false) :
    .act id .start ∉ rest := by
  intro hstart
  obtain ⟨before,after,rfl⟩ := List.append_of_mem hstart
  obtain ⟨u,hu,hrest⟩ := run_cons.mp h
  obtain ⟨v,w,hv,hw,hafter⟩ := run_split hrest
  have hsealed : u.fence.sealed = true := by
    obtain ⟨_,fence,hfence,rfl⟩ := control_inv hu
    obtain ⟨_,rfl⟩ := guarded_eq_some.mp hfence
    simp
  have hv' := run_invariant (fun x => x.fence.sealed = true) hsealed
    (fun _ _ _ hx hstep => step_sealed hstep hx) hv
  obtain ⟨call,hcall,hcleanup⟩ := start_sealed hv' hw
  -- the call that starts is the one the trace ends with
  obtain ⟨phase,hphase⟩ := hentry
  have hkept := run_invariant (fun x => ∃ phase, x.calls id = some ⟨call.entry,phase⟩)
    (step_entry hw ⟨call.phase,hcall⟩) (fun _ _ _ hx hstep => step_entry hstep hx) hafter
  obtain ⟨phase',hphase'⟩ := hkept
  rw [hphase] at hphase'
  cases hphase'
  rw [hcontent] at hcleanup
  cases hcleanup

/-! ## Cancellation -/

/-- In every interleaving: an inner operation that began is still owned by its caller or a task,
has come to its end, or has left the fence uncertain; a handle left without an owner is released
once, under the admission that opened it and before a pause returns, or the fence is uncertain; a
release call dropped before its admission leaves the fence uncertain; and nothing but handle
retirement starts after a seal. -/
theorem cancellation_contained (maxInFlight : ℕ) (trace : List Event) (s : State)
    (h : run step (new maxInFlight) trace = some s) :
    (∀ id, .act id .start ∈ trace → s.Owned id ∨
      (∃ r, .act id (.reply r) ∈ trace ∨ .act id (.finish r) ∈ trace) ∨
      s.fence.uncertain = true) ∧
    (∀ id entry r fh, .call id entry ∈ trace → .act id (.finish r) ∈ trace →
      entry.orphan r = some fh →
      (∃ phase, s.calls id = some ⟨entry,phase⟩ ∧
        (phase = .cleaning (some fh) ∨ phase = .releasing fh) ∧
        ⟨id,entry.cleanup⟩ ∈ s.fence.admitted) ∨
      (releases (actions id trace) = [fh] ∧ .act id (.released true) ∈ trace) ∨
      s.fence.uncertain = true) ∧
    (∀ id, (releases (actions id trace)).length ≤ 1) ∧
    (∀ past id fh rest, trace = past ++ .act id (.release fh) :: rest →
      ∃ u call, run step (new maxInFlight) past = some u ∧ u.calls id = some call ∧
        ⟨id,call.entry.cleanup⟩ ∈ u.fence.admitted) ∧
    (∀ past p rest, trace = past ++ .control (.pause p true) :: rest →
      (∀ id, .act id .start ∈ past →
        ∃ r, .act id (.reply r) ∈ past ∨ .act id (.finish r) ∈ past) ∧
      ∀ id entry r fh, .call id entry ∈ past → .act id (.finish r) ∈ past →
        entry.orphan r = some fh →
        releases (actions id past) = [fh] ∧ .act id (.released true) ∈ past) ∧
    (∀ id entry, .call id entry ∈ trace → entry.cleanup = true → .act id .abandon ∈ trace →
      s.calls id = some ⟨entry,.abandoned⟩ ∨ s.fence.uncertain = true) ∧
    ∀ past p rest, trace = past ++ .control (.sealPause p true) :: rest →
      ∀ id entry, .call id entry ∈ trace → entry.cleanup = false → .act id .start ∉ rest := by
  have hs := run_accounts h
  refine ⟨fun id => started_outcome hs,fun id entry r fh hcalled => orphan_outcome hs hcalled,
    releases_once hs,?_,?_,fun id entry => abandoned_outcome hs,?_⟩
  · rintro past id fh rest rfl
    obtain ⟨u,v,hu,hv,_⟩ := run_split h
    obtain ⟨call,hcall,hadmitted⟩ := release_admitted (run_accounts hu) hv
    exact ⟨u,call,hu,hcall,hadmitted⟩
  · rintro past p rest rfl
    obtain ⟨u,v,hu,hv,_⟩ := run_split h
    have hus := run_accounts hu
    exact ⟨fun id => pause_started hus hv,
      fun id entry r fh hcalled => pause_released hus hv hcalled⟩
  · rintro past p rest rfl id entry hcalled hcontent
    obtain ⟨u,_,hrest⟩ := run_append.mp h
    exact seal_refuses hrest (hs.called id entry hcalled) hcontent

/-- An open is dropped while it runs and its handle released. -/
def orphanTrace : List Event :=
  [.call 0 .open,.act 0 .start,.act 0 .detach,.act 0 (.finish (.ok 7)),.act 0 (.release 7),
    .act 0 (.released true),.control (.lockPause 1)]

/-- A write waits for the sealed fence, and a release is dropped while it waits. -/
def sealedTrace : List Event :=
  [.call 2 .write,.call 3 .release,.act 3 .permit,.act 3 .abandon,.act 3 .mark,
    .control (.dropPause 1),.act 2 .refuse]

def droppedTrace : List Event :=
  orphanTrace ++ .control (.pause 1 true) :: .control (.sealPause 1 true) :: sealedTrace

theorem cancellation_contained_dropped :
    releases (actions 0 orphanTrace) = [7] ∧ .act 2 .start ∉ sealedTrace ∧
      ∃ s, run step (new 64) droppedTrace = some s ∧ s.fence.uncertain = true := by
  have hended : (run step (new 64) droppedTrace).bind (fun s => s.calls 3) =
      some ⟨.release,.ended⟩ := by decide
  obtain ⟨s,hs,hthird⟩ := Option.bind_eq_some_iff.mp hended
  obtain ⟨_,_,_,_,hpause,hdropped,hsealed⟩ := cancellation_contained 64 droppedTrace s hs
  refine ⟨?_,?_,s,hs,?_⟩
  · exact ((hpause orphanTrace 1 _ rfl).2 0 .open (.ok 7) 7 (by decide) (by decide) rfl).1
  · exact hsealed (orphanTrace ++ [.control (.pause 1 true)]) 1 sealedTrace rfl 2 .write
      (by decide) rfl
  · have houtcome := hdropped 3 .release (by decide) rfl (by decide)
    rw [hthird] at houtcome
    exact houtcome.resolve_left (by decide)

end Scorpio.FencedFilesystem
