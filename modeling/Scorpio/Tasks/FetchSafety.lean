import Scorpio.Tasks.FetchLinks

/-!
# What every interleaving of the coordinator keeps

The permits follow the calls and jobs that own them. With the links between
entries, flights and calls this gives the coordinator's promises: one attached
flight for a key, one answer for a waiter and from its own flight, no
cancellation for a live waiter, and no event of one flight that reaches another.
A job permit belongs to the spawned job and not to the calls that wait for it.
-/

set_option autoImplicit false

namespace Scorpio.FetchCoordinator

open Traces

variable {κ ν ε : Type}

structure Counted (s : State κ ν ε) : Prop where
  callers_nodup : s.callers.Nodup
  callers : ∀ c, c ∈ s.callers ↔ (s.calls c).live = true
  jobs_nodup : s.jobs.Nodup
  flights : ∀ f, .flight f ∈ s.jobs ↔
    ∃ fl, s.flights f = some fl ∧ fl.job.unfinished = true
  alone : ∀ c, .call c ∈ s.jobs ↔ s.calls c = .direct

theorem counted_new : Counted (new κ ν ε) :=
  ⟨by simp [new],by simp [new, Call.live],by simp [new],by simp [new],by simp [new]⟩

variable {s t : State κ ν ε} {c f : ℕ} {y : Call κ ν ε} {fl : Flight κ ν ε} {limits : Limits}
  {e : Event κ ν ε}

/-- A live call that is not alone ends, and its permit goes back. -/
theorem Counted.finish (h : Counted s) (hy : y.live = false) (hc : s.calls c ≠ .direct)
    (hcalls : t.calls = Function.update s.calls c y) (hcallers : t.callers = s.callers.erase c)
    (hjobs : t.jobs = s.jobs)
    (hflights : ∀ f, (∃ fl, t.flights f = some fl ∧ fl.job.unfinished = true) ↔
      ∃ fl, s.flights f = some fl ∧ fl.job.unfinished = true) : Counted t := by
  refine ⟨?_,?_,?_,?_,?_⟩
  · rw [hcallers]
    exact h.callers_nodup.erase c
  · intro c'
    rw [hcallers, h.callers_nodup.mem_erase_iff, h.callers, hcalls]
    by_cases hcc : c' = c
    · simp [hcc, hy]
    · simp [hcc]
  · rw [hjobs]
    exact h.jobs_nodup
  · intro f
    rw [hjobs, h.flights, hflights]
  · intro c'
    rw [hjobs, h.alone, hcalls]
    by_cases hcc : c' = c
    · subst hcc
      rw [Function.update_self]
      refine ⟨fun hd => absurd hd hc,?_⟩
      rintro rfl
      cases hy
    · rw [Function.update_of_ne hcc]

/-- A live call moves on and stays live; nobody becomes or stops being alone. -/
theorem Counted.move (h : Counted s) (hc : (s.calls c).live = true) (hy : y.live = true)
    (hold : s.calls c ≠ .direct) (hnew : y ≠ .direct)
    (hcalls : t.calls = Function.update s.calls c y) (hcallers : t.callers = s.callers)
    (hjobs : t.jobs.Nodup) (halone : ∀ c', .call c' ∈ t.jobs ↔ .call c' ∈ s.jobs)
    (hflights : ∀ f, .flight f ∈ t.jobs ↔ ∃ fl, t.flights f = some fl ∧ fl.job.unfinished = true) :
    Counted t := by
  refine ⟨by rw [hcallers]; exact h.callers_nodup,fun c' => ?_,hjobs,hflights,fun c' => ?_⟩
  · rw [hcallers, h.callers, hcalls]
    by_cases hcc : c' = c
    · rw [hcc, Function.update_self, hc, hy]
    · rw [Function.update_of_ne hcc]
  · rw [halone, h.alone, hcalls]
    by_cases hcc : c' = c
    · rw [hcc, Function.update_self]
      exact ⟨fun hd => absurd hd hold,fun hd => absurd hd hnew⟩
    · rw [Function.update_of_ne hcc]

/-- A job of the same stage has its permit or not as before. -/
theorem unfinished_update {flights : ℕ → Option (Flight κ ν ε)} {fl' : Flight κ ν ε}
    (hfl : flights f = some fl) (hjob : fl'.job.unfinished = fl.job.unfinished) (g : ℕ) :
    (∃ x, Function.update flights f (some fl') g = some x ∧ x.job.unfinished = true) ↔
      ∃ x, flights g = some x ∧ x.job.unfinished = true := by
  by_cases hg : g = f
  · subst hg
    rw [Function.update_self, hfl]
    simp [hjob]
  · rw [Function.update_of_ne hg]

/-- The jobs' stages change, with their permits, and no call does. -/
theorem Counted.stage (h : Counted s) (hcalls : t.calls = s.calls)
    (hcallers : t.callers = s.callers) (hjobs : t.jobs = s.jobs)
    (hflights : ∀ f, (∃ fl, t.flights f = some fl ∧ fl.job.unfinished = true) ↔
      ∃ fl, s.flights f = some fl ∧ fl.job.unfinished = true) : Counted t := by
  refine ⟨by rw [hcallers]; exact h.callers_nodup,?_,by rw [hjobs]; exact h.jobs_nodup,?_,?_⟩
  · rw [hcallers, hcalls]
    exact h.callers
  · intro f
    rw [hjobs, h.flights, hflights]
  · rw [hjobs, hcalls]
    exact h.alone

/-- A waiter has nothing or one answer, that of its own flight, and has it once the flight
has ended. -/
theorem Linked.inbox (h : Linked s) {id : ℕ} {key : κ} {inbox : List (FetchResult ν ε)}
    (hc : s.calls c = .waiting id key f inbox) :
    .noLiveWaiters ∉ inbox ∧ ∃ fl, s.flights f = some fl ∧ fl.key = key ∧
      (inbox = [] ∨ ∃ r, inbox = [r] ∧ fl.job.answer = some r) ∧
      ∀ r, fl.job = .ended r → inbox = [r] := by
  obtain ⟨fl,hfl,hkey,hserved⟩ := h.waiting c id key f inbox hc
  unfold Served at hserved
  cases hjob : fl.job with
  | running =>
    rw [hjob] at hserved
    obtain ⟨rfl,_⟩ := hserved
    exact ⟨by simp,fl,hfl,hkey,.inl rfl,by simp [hjob]⟩
  | delivering r out =>
    rw [hjob] at hserved
    obtain ⟨hr,⟨rfl,_⟩ | rfl⟩ := hserved
    · exact ⟨by simp,fl,hfl,hkey,.inl rfl,by simp [hjob]⟩
    · exact ⟨by simpa using hr.symm,fl,hfl,hkey,.inr ⟨r,rfl,by simp [hjob, Job.answer]⟩,
        by simp [hjob]⟩
  | ended r =>
    rw [hjob] at hserved
    obtain ⟨hr,rfl⟩ := hserved
    exact ⟨by simpa using hr.symm,fl,hfl,hkey,.inr ⟨r,rfl,by simp [hjob, Job.answer]⟩,
      by simp [hjob]⟩

/-- Without a live call there is no entry and no caller permit, and the job permits are
those of the spawned jobs that have not ended. -/
theorem released (hl : Linked s) (hc : Counted s) (hend : ∀ c, (s.calls c).live = false) :
    (∀ key, s.entries key = none) ∧ s.callers = [] ∧
    ∀ x, x ∈ s.jobs ↔ ∃ f fl, x = .flight f ∧ s.flights f = some fl ∧
      fl.job.unfinished = true := by
  refine ⟨fun key => ?_,?_,fun x => ?_⟩
  · by_contra hne
    obtain ⟨p,hp⟩ := Option.ne_none_iff_exists'.mp hne
    obtain ⟨w,hw⟩ := List.exists_mem_of_ne_nil _ (hl.entry key p hp).1
    have hwait := ((hl.waiters key p hp).2 w hw).2
    have hlive := hend w.call
    rw [hwait] at hlive
    cases hlive
  · refine List.eq_nil_iff_forall_not_mem.mpr fun c hmem => ?_
    have hlive := (hc.callers c).mp hmem
    rw [hend c] at hlive
    cases hlive
  · cases x with
    | call c =>
      rw [hc.alone]
      refine ⟨fun hd => ?_,by simp⟩
      have hlive := hend c
      rw [hd] at hlive
      cases hlive
    | flight f => simp [hc.flights]

variable [DecidableEq κ]

theorem deliver_fields (s : State κ ν ε) (f : ℕ) (fl : Flight κ ν ε) (r : FetchResult ν ε) :
    (deliver s f fl r).calls = s.calls ∧ (deliver s f fl r).callers = s.callers ∧
    (deliver s f fl r).jobs = s.jobs ∧ ∃ out, (deliver s f fl r).flights =
      Function.update s.flights f (some {fl with job := .delivering r out}) := by
  unfold deliver
  rcases take_waiters_cases s fl.key f with ⟨p,_,_,heq⟩ | ⟨_,heq⟩ <;>
  · rw [heq]
    exact ⟨rfl,rfl,rfl,_,rfl⟩

theorem Counted.deliver (h : Counted s) (r : FetchResult ν ε) (hfl : s.flights f = some fl)
    (hrun : fl.job = .running) :
    Counted (deliver s f fl r) := by
  obtain ⟨hcalls,hcallers,hjobs,out,hf⟩ := deliver_fields s f fl r
  refine h.stage hcalls hcallers hjobs fun g => ?_
  rw [hf]
  exact unfinished_update hfl (by simp [hrun, Job.unfinished]) g

theorem drop_registration_fields (s : State κ ν ε) (id : ℕ) (key : κ) (f : ℕ) :
    (dropRegistration s id key f).calls = s.calls ∧
    (dropRegistration s id key f).callers = s.callers ∧
    (dropRegistration s id key f).jobs = s.jobs ∧
    ((dropRegistration s id key f).flights = s.flights ∨
      (dropRegistration s id key f).flights =
        Function.update s.flights f ((s.flights f).map ({· with cancel := true}))) := by
  rcases drop_registration_cases s id key f with ⟨p,_,_,_,heq⟩ | ⟨p,_,_,_,heq⟩ | ⟨_,heq⟩
  · rw [heq]
    exact ⟨rfl,rfl,rfl,.inr rfl⟩
  · rw [heq]
    exact ⟨rfl,rfl,rfl,.inl rfl⟩
  · rw [heq]
    exact ⟨rfl,rfl,rfl,.inl rfl⟩

theorem Counted.dropRegistration (h : Counted s) {id : ℕ} {key : κ}
    {inbox : List (FetchResult ν ε)} (hc : s.calls c = .waiting id key f inbox)
    (hy : y.live = false) : Counted ((dropRegistration s id key f).finish c y) := by
  obtain ⟨hcalls,hcallers,hjobs,hflights⟩ := drop_registration_fields s id key f
  refine h.finish hy (by rw [hc]; simp) (by simp [State.finish, hcalls])
    (by simp [State.finish, hcallers]) hjobs fun g => ?_
  change (∃ fl, (FetchCoordinator.dropRegistration s id key f).flights g = some fl ∧ _) ↔ _
  rcases hflights with heq | heq
  · rw [heq]
  · rw [heq]
    cases hfl : s.flights f with
    | none => rw [Option.map_none, ← hfl, Function.update_eq_self]
    | some fl =>
      rw [Option.map_some]
      refine unfinished_update hfl ?_ g
      rfl

theorem Counted.register (h : Counted s) (hl : Linked s) (limits : Limits)
    (hc : s.calls c = .admitted) (key : κ) : Counted (register limits s c key) := by
  have hlive : (s.calls c).live = true := by rw [hc]; rfl
  have hnd : s.calls c ≠ .direct := by rw [hc]; simp
  rcases register_cases limits s c key with ⟨n,_,heq⟩ | ⟨p,_,heq⟩ | ⟨_,heq⟩
  · rw [heq]
    exact h.finish rfl hnd rfl rfl rfl fun _ => Iff.rfl
  · rw [heq]
    exact h.move hlive rfl hnd (by simp) rfl rfl h.jobs_nodup (fun _ => Iff.rfl) h.flights
  · rw [heq]
    -- The generation is new, so it has no permit yet.
    have hnew : s.flights (s.nextId+2) = none := by
      by_contra hne
      obtain ⟨fl,hfl⟩ := Option.ne_none_iff_exists'.mp hne
      have hle := hl.issued _ fl hfl
      omega
    refine h.move hlive rfl hnd (by simp) rfl rfl ?_ (by simp [lead]) fun f => ?_
    · refine List.nodup_cons.mpr ⟨fun hmem => ?_,h.jobs_nodup⟩
      obtain ⟨fl,hfl,_⟩ := (h.flights _).mp hmem
      rw [hnew] at hfl
      cases hfl
    · by_cases hf : f = s.nextId+2
      · simp [lead, hf, Job.unfinished]
      · simp [lead, h.flights, hf]

/-! ## Events of one flight -/

/-- The event completes, answers or drops on behalf of flight `f`. -/
def Event.actsFor (s : State κ ν ε) (f : ℕ) : Event κ ν ε → Prop
  | .observeCancel g => g = f
  | .complete g _ => g = f
  | .panic g => g = f
  | .send g _ => g = f
  | .dropGuard g => g = f
  | .receive c => ∃ id key inbox, s.calls c = .waiting id key f inbox
  | .dropCall c => ∃ id key inbox, s.calls c = .waiting id key f inbox
  | _ => False

/-- Another flight's entry and record are left as they are. -/
def Untouched (s t : State κ ν ε) (f : ℕ) : Prop :=
  ∀ key p, s.entries key = some p → p.flight ≠ f →
    t.entries key = some p ∧ t.flights p.flight = s.flights p.flight

theorem deliver_untouched (s : State κ ν ε) (f : ℕ) (fl : Flight κ ν ε) (r : FetchResult ν ε) :
    Untouched s (deliver s f fl r) f := by
  intro key p hp hne
  unfold deliver
  rcases take_waiters_cases s fl.key f with ⟨q,hq,hqf,heq⟩ | ⟨_,heq⟩
  · rw [heq]
    have hk : key ≠ fl.key := by
      rintro rfl
      rw [hp] at hq
      cases hq
      exact hne hqf
    simp [State.setJob, hk, hne, hp]
  · rw [heq]
    simp [State.setJob, hne, hp]

theorem drop_registration_untouched (s : State κ ν ε) (id : ℕ) (key : κ) (f c : ℕ)
    (y : Call κ ν ε) : Untouched s ((dropRegistration s id key f).finish c y) f := by
  intro key' p hp hne
  have hk : ∀ q, s.entries key = some q → q.flight = f → key' ≠ key := by
    rintro q hq hqf rfl
    rw [hp] at hq
    cases hq
    exact hne hqf
  rcases drop_registration_cases s id key f with ⟨q,hq,hqf,_,heq⟩ | ⟨q,hq,hqf,_,heq⟩ | ⟨_,heq⟩
  · rw [heq]
    simp [State.finish, hk q hq hqf, hne, hp]
  · rw [heq]
    simp [State.finish, hk q hq hqf, hp]
  · rw [heq]
    exact ⟨hp,rfl⟩

variable [DecidableEq ν] [DecidableEq ε]

theorem step_counted (hl : Linked s) (h : Counted s) (hstep : step limits s e = some t) :
    Counted t := by
  cases step_does hl hstep with
  | enter c hc =>
    have hnew : c ∉ s.callers := by
      rw [h.callers, hc]
      simp [Call.live]
    refine ⟨List.nodup_cons.mpr ⟨hnew,h.callers_nodup⟩,fun c' => ?_,h.jobs_nodup,h.flights,
      fun c' => ?_⟩
    · by_cases hcc : c' = c
      · simp [hcc, Call.live]
      · simp [hcc, h.callers]
    · by_cases hcc : c' = c
      · simp [hcc, h.alone, hc]
      · simp [hcc, h.alone]
  | reject c hc =>
    refine ⟨h.callers_nodup,fun c' => ?_,h.jobs_nodup,h.flights,fun c' => ?_⟩
    · by_cases hcc : c' = c
      · simp [hcc, h.callers, hc, Call.live]
      · simp [hcc, h.callers]
    · by_cases hcc : c' = c
      · simp [hcc, h.alone, hc]
      · simp [hcc, h.alone]
  | leave c hc => exact h.finish rfl (by rw [hc]; simp) rfl rfl rfl fun _ => Iff.rfl
  | leadAlone c hc =>
    have hnew : .call c ∉ s.jobs := by
      rw [h.alone, hc]
      simp
    refine ⟨h.callers_nodup,fun c' => ?_,List.nodup_cons.mpr ⟨hnew,h.jobs_nodup⟩,?_,fun c' => ?_⟩
    · by_cases hcc : c' = c
      · simp [hcc, h.callers, hc, Call.live]
      · simp [hcc, h.callers]
    · simp [h.flights]
    · by_cases hcc : c' = c
      · simp [hcc]
      · simp [hcc, h.alone]
  | endAlone c hc =>
    refine ⟨h.callers_nodup.erase c,fun c' => ?_,h.jobs_nodup.erase _,fun f => ?_,fun c' => ?_⟩
    · by_cases hcc : c' = c
      · simp [State.finish, hcc, h.callers_nodup.mem_erase_iff, Call.live]
      · simp [State.finish, hcc, h.callers_nodup.mem_erase_iff, h.callers]
    · simp [State.finish, h.jobs_nodup.mem_erase_iff, h.flights]
    · by_cases hcc : c' = c
      · simp [State.finish, hcc, h.jobs_nodup.mem_erase_iff]
      · simp [State.finish, hcc, h.jobs_nodup.mem_erase_iff, h.alone]
  | others => exact ⟨h.callers_nodup,h.callers,h.jobs_nodup,h.flights,h.alone⟩
  | register c key hc => exact h.register hl limits hc key
  | deliver f fl r hfl hrun _ => exact h.deliver r hfl hrun
  | send f fl r out w hfl hjob hw hc =>
    refine h.move (by rw [hc]; rfl) rfl (by rw [hc]; simp) (by simp) rfl rfl h.jobs_nodup
      (fun _ => Iff.rfl) fun g => (h.flights g).trans ?_
    exact (unfinished_update hfl (by simp [hjob, Job.unfinished]) g).symm
  | lose f fl r out w hfl hjob hw hc =>
    exact h.stage rfl rfl rfl (unfinished_update hfl (by simp [hjob, Job.unfinished]))
  | dropGuard f fl r hfl hjob =>
    refine ⟨h.callers_nodup,h.callers,h.jobs_nodup.erase _,fun g => ?_,fun c => ?_⟩
    · by_cases hg : g = f
      · simp [State.setJob, hg, h.jobs_nodup.mem_erase_iff, Job.unfinished]
      · simp [State.setJob, hg, h.jobs_nodup.mem_erase_iff, h.flights]
    · simp [State.setJob, h.jobs_nodup.mem_erase_iff, h.alone]
  | depart c id key f inbox y hc hy =>
    refine h.dropRegistration hc ?_
    rcases hy with rfl | ⟨_,_,_,rfl⟩ <;> rfl

theorem step_untouched (hstep : step limits s e = some t) (he : e.actsFor s f) :
    Untouched s t f := by
  cases e with
  | observeCancel g =>
    obtain rfl : g = f := he
    obtain ⟨fl,hfl,hstep⟩ := Option.bind_eq_some_iff.mp hstep
    obtain ⟨_,rfl⟩ := guarded_eq_some.mp hstep
    exact deliver_untouched s g fl _
  | complete g r =>
    obtain rfl : g = f := he
    obtain ⟨fl,hfl,hstep⟩ := Option.bind_eq_some_iff.mp hstep
    obtain ⟨_,rfl⟩ := guarded_eq_some.mp hstep
    exact deliver_untouched s g fl _
  | panic g =>
    obtain rfl : g = f := he
    obtain ⟨fl,hfl,hstep⟩ := Option.bind_eq_some_iff.mp hstep
    obtain ⟨_,rfl⟩ := guarded_eq_some.mp hstep
    exact deliver_untouched s g fl _
  | send g w =>
    obtain rfl : g = f := he
    obtain ⟨fl,hfl,hstep⟩ := Option.bind_eq_some_iff.mp hstep
    cases hjob : fl.job with
    | delivering r out =>
      rw [hjob] at hstep
      obtain ⟨_,rfl⟩ := guarded_eq_some.mp hstep
      intro key p hp hne
      cases s.calls w.call <;> exact ⟨hp,Function.update_of_ne hne _ _⟩
    | _ => simp [hjob] at hstep
  | dropGuard g =>
    obtain rfl : g = f := he
    obtain ⟨fl,hfl,hstep⟩ := Option.bind_eq_some_iff.mp hstep
    split at hstep
    · cases hstep
      exact fun key p hp hne => ⟨hp,Function.update_of_ne hne _ _⟩
    · cases hstep
  | receive c =>
    obtain ⟨id,key,inbox,hc⟩ := he
    cases inbox with
    | nil => simp [step, hc] at hstep
    | cons r rest =>
      simp only [step, hc, Option.some.injEq] at hstep
      subst hstep
      exact drop_registration_untouched s id key f c _
  | dropCall c =>
    obtain ⟨id,key,inbox,hc⟩ := he
    simp only [step, hc, Option.some.injEq] at hstep
    subst hstep
    exact drop_registration_untouched s id key f c _
  | _ => exact he.elim

/-- A flight that has an answer keeps it. -/
theorem step_answer (hl : Linked s) (hstep : step limits s e = some t) {r : FetchResult ν ε}
    (hfl : s.flights f = some fl) (hr : fl.job.answer = some r) :
    ∃ fl', t.flights f = some fl' ∧ fl'.job.answer = some r := by
  -- One flight changes, and its new record has the answer that it had.
  have hupdate : ∀ g gl gl', s.flights g = some gl →
      (gl.job.answer = some r → gl'.job.answer = some r) →
      ∃ fl', Function.update s.flights g (some gl') f = some fl' ∧ fl'.job.answer = some r := by
    intro g gl gl' hgl hkeep
    by_cases hg : f = g
    · subst hg
      rw [hfl] at hgl
      cases hgl
      exact ⟨gl',Function.update_self _ _ _,hkeep hr⟩
    · exact ⟨fl,(Function.update_of_ne hg _ _).trans hfl,hr⟩
  cases step_does hl hstep with
  | register c key hc =>
    refine ⟨fl,?_,hr⟩
    have hle := hl.issued f fl hfl
    rcases register_cases limits s c key with ⟨n,_,heq⟩ | ⟨p,_,heq⟩ | ⟨_,heq⟩
    · rw [heq]
      exact hfl
    · rw [heq]
      exact hfl
    · rw [heq]
      exact (Function.update_of_ne (by omega) _ _).trans hfl
  | deliver g gl r' hgl hrun _ =>
    obtain ⟨_,_,_,out,hflights⟩ := deliver_fields s g gl r'
    rw [hflights]
    exact hupdate g gl _ hgl fun hans => by simp [hrun, Job.answer] at hans
  | send g gl r' out w hgl hjob _ _ =>
    exact hupdate g gl _ hgl fun hans => by simpa [hjob, Job.answer] using hans
  | lose g gl r' out w hgl hjob _ _ =>
    exact hupdate g gl _ hgl fun hans => by simpa [hjob, Job.answer] using hans
  | dropGuard g gl r' hgl hjob =>
    exact hupdate g gl _ hgl fun hans => by simpa [hjob, Job.answer] using hans
  | depart c id key g inbox y hc _ =>
    change ∃ fl', (dropRegistration s id key g).flights f = some fl' ∧ _
    obtain ⟨gl,hgl,_⟩ := hl.waiting c id key g inbox hc
    obtain ⟨_,_,_,heq | heq⟩ := drop_registration_fields s id key g
    · exact ⟨fl,by rw [heq, hfl],hr⟩
    · rw [heq, hgl]
      exact hupdate g gl _ hgl fun hans => hans
  | _ => exact ⟨fl,hfl,hr⟩

/-- A call that has returned is over. -/
theorem step_returned (hl : Linked s) (hstep : step limits s e = some t) {r : FetchResult ν ε}
    (hc : s.calls c = .returned f r) : t.calls c = .returned f r := by
  have hupdate : ∀ c' x y, s.calls c' = x → x ≠ .returned f r →
      Function.update s.calls c' y c = .returned f r := by
    rintro c' x y rfl hne
    rw [Function.update_of_ne, hc]
    rintro rfl
    exact hne hc
  cases step_does hl hstep with
  | enter c' hc' => exact hupdate c' _ _ hc' nofun
  | reject c' hc' => exact hupdate c' _ _ hc' nofun
  | leave c' hc' => exact hupdate c' _ _ hc' nofun
  | leadAlone c' hc' => exact hupdate c' _ _ hc' nofun
  | endAlone c' hc' => exact hupdate c' _ _ hc' nofun
  | others => exact hc
  | register c' key hc' =>
    rcases register_cases limits s c' key with ⟨n,_,heq⟩ | ⟨p,_,heq⟩ | ⟨_,heq⟩ <;>
    · rw [heq]
      exact hupdate c' _ _ hc' nofun
  | deliver g gl r' _ _ _ => rw [(deliver_fields s g gl r').1, hc]
  | send g gl r' out w _ _ _ hw => exact hupdate w.call _ _ hw nofun
  | lose => exact hc
  | dropGuard => exact hc
  | depart c' id key g inbox y hc' _ =>
    change Function.update (dropRegistration s id key g).calls c' y c = _
    rw [(drop_registration_fields s id key g).1]
    exact hupdate c' _ y hc' nofun

theorem run_linked {trace : List (Event κ ν ε)} (h : run (step limits) (new κ ν ε) trace = some s) :
    Linked s ∧ Counted s :=
  run_invariant (fun s => Linked s ∧ Counted s) ⟨linked_new,counted_new⟩
    (fun _ _ _ hs hstep => ⟨step_linked hs.1 hstep,step_counted hs.1 hs.2 hstep⟩) h

/-- The coordinator's promises in every interleaving. -/
theorem single_flight_kept (limits : Limits) (trace : List (Event κ ν ε)) (s : State κ ν ε)
    (h : run (step limits) (new κ ν ε) trace = some s) :
    (∀ key key' p p' fl fl', s.entries key = some p → s.entries key' = some p' →
      s.flights p.flight = some fl → s.flights p'.flight = some fl' → fl.key = fl'.key →
      p.flight = p'.flight) ∧
    (∀ c id key f inbox, s.calls c = .waiting id key f inbox →
      .noLiveWaiters ∉ inbox ∧ ∃ fl, s.flights f = some fl ∧ fl.key = key ∧
        (inbox = [] ∨ ∃ r, inbox = [r] ∧ fl.job.answer = some r) ∧
        ∀ r, fl.job = .ended r → inbox = [r]) ∧
    (∀ c f r, s.calls c = .returned f r →
      r ≠ .noLiveWaiters ∧ ∃ fl, s.flights f = some fl ∧ fl.job.answer = some r) ∧
    (∀ e t, step limits s e = some t →
      (∀ f, e.actsFor s f → Untouched s t f) ∧
      (∀ c f r, s.calls c = .returned f r → t.calls c = .returned f r) ∧
      ∀ f fl r, s.flights f = some fl → fl.job.answer = some r →
        ∃ fl', t.flights f = some fl' ∧ fl'.job.answer = some r) ∧
    ((∀ c, (s.calls c).live = false) →
      (∀ key, s.entries key = none) ∧ s.callers = [] ∧
      ∀ x, x ∈ s.jobs ↔ ∃ f fl, x = .flight f ∧ s.flights f = some fl ∧
        fl.job.unfinished = true) := by
  obtain ⟨hl,hc⟩ := run_linked h
  refine ⟨?_,fun c id key f inbox hw => hl.inbox hw,hl.returned,?_,released hl hc⟩
  · intro key key' p p' fl fl' hp hp' hfl hfl' hkey
    obtain ⟨_,gl,hgl,hk,_⟩ := hl.entry key p hp
    obtain ⟨_,gl',hgl',hk',_⟩ := hl.entry key' p' hp'
    rw [hfl] at hgl
    rw [hfl'] at hgl'
    cases hgl
    cases hgl'
    rw [← hk, hkey, hk', hp'] at hp
    cases hp
    rfl
  · exact fun e t hstep => ⟨fun f he => step_untouched hstep he,
      fun c f r hr => step_returned hl hstep hr,fun f fl r hfl hr => step_answer hl hstep hfl hr⟩

/-- Two callers share a flight; one is dropped, the other gets the content, and a third call
is the last waiter of the next flight of the key when it is dropped. -/
def sharedTrace : List (Event ℕ ℕ ℕ) :=
  [.enter 0,.register 0 7,.enter 1,.register 1 7,.dropCall 0,.complete 2 (.content 5),
    .enter 2,.register 2 7,.send 2 ⟨3,1⟩,.receive 1,.dropGuard 2,.dropCall 2,.observeCancel 5,
    .dropGuard 5]

theorem single_flight_kept_shared :
    ∃ s, run (step ⟨64,256⟩) (new ℕ ℕ ℕ) sharedTrace = some s ∧ s.calls 1 = .returned 2 (.content 5) ∧
      s.jobs = [] ∧
      ((∀ c, (s.calls c).live = false) →
        (∀ key, s.entries key = none) ∧ s.callers = [] ∧
        ∀ x, x ∈ s.jobs ↔ ∃ f fl, x = .flight f ∧ s.flights f = some fl ∧
          fl.job.unfinished = true) := by
  have hrun : ((run (step ⟨64,256⟩) (new ℕ ℕ ℕ) sharedTrace).map fun s => (s.calls 1,s.jobs)) =
      some (.returned 2 (.content 5),[]) := by decide
  obtain ⟨s,hs,heq⟩ := Option.map_eq_some_iff.mp hrun
  simp only [Prod.mk.injEq] at heq
  exact ⟨s,hs,heq.1,heq.2,(single_flight_kept ⟨64,256⟩ sharedTrace s hs).2.2.2.2⟩

/-- The only call is dropped, and the job it started has not yet seen the cancellation. -/
def abandonedTrace : List (Event ℕ ℕ ℕ) := [.enter 0,.register 0 7,.dropCall 0]

theorem job_permit_outlives_calls :
    ∃ s, run (step ⟨64,256⟩) (new ℕ ℕ ℕ) abandonedTrace = some s ∧
      (∀ c, (s.calls c).live = false) ∧ s.jobs ≠ [] := by
  have hrun : ((run (step ⟨64,256⟩) (new ℕ ℕ ℕ) abandonedTrace).map fun s =>
      (s.callers,s.jobs)) = some ([],[.flight 2]) := by decide
  obtain ⟨s,hs,heq⟩ := Option.map_eq_some_iff.mp hrun
  simp only [Prod.mk.injEq] at heq
  refine ⟨s,hs,fun c => ?_,by simp [heq.2]⟩
  have hcallers := (run_linked hs).2.callers c
  simpa [heq.1] using hcallers

/-! ## Permits in use -/

def Within (limits : Limits) (s : State κ ν ε) : Prop :=
  s.callers.length ≤ limits.maxActiveCallers ∧ s.jobs.length ≤ limits.maxPendingJobs

theorem step_within (h : Within limits s) (hstep : step limits s e = some t) : Within limits t := by
  -- Three events take a permit, and their guards leave room for it.
  have hdeliver (f) (fl : Flight κ ν ε) (r) := deliver_fields s f fl r
  have hdrop (id key f) := drop_registration_fields s id key f
  cases e <;> simp only [step, guarded_eq_some, Option.bind_eq_some_iff, register] at hstep <;>
    grind [Within, State.finish, State.setJob, State.callerFree, State.jobFree, join, lead, guarded,
      List.length_erase_le]

/-- The limits hold for the live calls and for the unfinished jobs. -/
theorem admissions_bounded (limits : Limits) (trace : List (Event κ ν ε)) (s : State κ ν ε)
    (h : run (step limits) (new κ ν ε) trace = some s) (xs : List ℕ) (hxs : xs.Nodup) :
    ((∀ c ∈ xs, (s.calls c).live = true) → xs.length ≤ limits.maxActiveCallers) ∧
    ((∀ f ∈ xs, ∃ fl, s.flights f = some fl ∧ fl.job.unfinished = true) →
      xs.length ≤ limits.maxPendingJobs) := by
  obtain ⟨hcallers,hjobs⟩ := run_invariant (Within limits) ⟨Nat.zero_le _,Nat.zero_le _⟩
    (fun _ _ _ => step_within) h
  have hc := (run_linked h).2
  refine ⟨fun hlive => ?_,fun hrun => ?_⟩
  · exact (hxs.subperm fun c hmem => (hc.callers c).mpr (hlive c hmem)).length_le.trans hcallers
  · have hsub : xs.map Holder.flight ⊆ s.jobs := by
      simpa [List.subset_def, hc.flights] using hrun
    simpa using ((hxs.map fun _ _ => Holder.flight.inj).subperm hsub).length_le.trans hjobs

theorem admissions_bounded_abandoned :
    ∃ s, run (step ⟨64,256⟩) (new ℕ ℕ ℕ) abandonedTrace = some s ∧ [2].length ≤ 64 :=
  ⟨_,rfl,(admissions_bounded ⟨64,256⟩ abandonedTrace _ rfl [2] (by decide)).2
    (by simpa using ⟨_,rfl,rfl⟩)⟩

end Scorpio.FetchCoordinator
