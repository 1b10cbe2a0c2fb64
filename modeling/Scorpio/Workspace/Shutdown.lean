import Scorpio.Base.Traces

/-!
# Shutdown of the workspace service

Control operations, the background cache worker and one `shutdown_cleanup` share
the operation semaphore and the `shutting_down` flag. Each flag access and each
semaphore operation is one event. `try_acquire_owned` never waits, so the drain
is the only waiter: its first poll takes what is available and permits given
back go to it until it holds them all.

`owned` takes its permit and then loads the flag; the worker loads the flag and
then takes its permit.
-/

set_option autoImplicit false

namespace Scorpio.Shutdown

open Traces

/-- Where the loop of `start_cache_worker` stands. -/
inductive Worker where
  | absent
  | ticking
  /-- The flag was loaded and is not set. -/
  | checked
  /-- The permit is held; the scopes are collected. -/
  | holding
  /-- `maintain_cache_scope` runs. -/
  | maintaining
  | ended
  deriving DecidableEq, Repr

inductive Drain where
  | idle
  | stored
  /-- In the semaphore's queue with the permits it was given. -/
  | waiting (taken : ℕ)
  | drained
  | returned
  deriving DecidableEq, Repr

structure State where
  shuttingDown : Bool
  available : ℕ
  /-- The calls of `owned` that hold a permit and have not loaded the flag. -/
  acquired : List ℕ
  /-- The spawned operations. -/
  running : List ℕ
  worker : Worker
  drain : Drain
  deriving DecidableEq, Repr

def new (maxOperations : ℕ) : State := ⟨false,maxOperations,[],[],.absent,.idle⟩

inductive Event where
  | acquire (id : ℕ)
  | busy (id : ℕ)
  | load (id : ℕ)
  | finish (id : ℕ)
  | startWorker
  | workerLoad
  | workerAcquire
  | maintain
  | workerDrop
  | storeFlag
  | pollDrain
  | wakeDrain
  | returnDrain
  deriving DecidableEq, Repr

variable (maxOperations : ℕ)

/-- A dropped permit goes to the drain while it waits. -/
def State.release (s : State) : State :=
  match s.drain with
  | .waiting taken =>
    if taken < maxOperations then { s with drain := .waiting (taken+1) }
    else { s with available := s.available+1 }
  | _ => { s with available := s.available+1 }

def step (s : State) : Event → Option State
  | .acquire id => guarded (0 < s.available)
      { s with available := s.available-1, acquired := id :: s.acquired }
  | .busy _ => guarded (s.available = 0) s
  | .load id => guarded (id ∈ s.acquired)
      (let s := { s with acquired := s.acquired.erase id }
      if s.shuttingDown then s.release maxOperations else { s with running := id :: s.running })
  | .finish id => guarded (id ∈ s.running)
      (State.release maxOperations { s with running := s.running.erase id })
  | .startWorker => guarded (s.worker = .absent) { s with worker := .ticking }
  | .workerLoad => guarded (s.worker = .ticking)
      { s with worker := if s.shuttingDown then .ended else .checked }
  | .workerAcquire => guarded (s.worker = .checked)
      (if 0 < s.available then { s with available := s.available-1, worker := .holding }
      else { s with worker := .ticking })
  | .maintain => guarded (s.worker = .holding) { s with worker := .maintaining }
  -- A pass without a scope drops its permit at once.
  | .workerDrop => guarded (s.worker = .holding ∨ s.worker = .maintaining)
      (State.release maxOperations { s with worker := .ticking })
  | .storeFlag => guarded (s.drain = .idle) { s with shuttingDown := true, drain := .stored }
  | .pollDrain => guarded (s.drain = .stored)
      { s with available := s.available-maxOperations,
               drain := .waiting (min s.available maxOperations) }
  | .wakeDrain => guarded (s.drain = .waiting maxOperations) { s with drain := .drained }
  | .returnDrain => guarded (s.drain = .drained)
      { s with available := s.available+maxOperations, drain := .returned }

/-- No control operation and no maintenance pass is running. -/
def State.Quiet (s : State) : Prop := s.running = [] ∧ s.worker ≠ .maintaining

/-! ## Permits -/

def Worker.permits : Worker → ℕ
  | .holding => 1
  | .maintaining => 1
  | _ => 0

def Drain.permits : Drain → ℕ
  | .waiting taken => taken
  | .drained => maxOperations
  | _ => 0

/-- Every permit is available or has one owner, and the flag is set from the store on. -/
structure Accounted (s : State) : Prop where
  total : s.available+s.drain.permits maxOperations+s.acquired.length+s.running.length+
    s.worker.permits = maxOperations
  flag : s.drain ≠ .idle → s.shuttingDown = true

variable {maxOperations}

variable {s t : State}

theorem release_accounted (hflag : s.drain ≠ .idle → s.shuttingDown = true)
    (htotal : s.available+1+s.drain.permits maxOperations+s.acquired.length+s.running.length+
      s.worker.permits = maxOperations) : Accounted maxOperations (s.release maxOperations) := by
  unfold State.release
  split
  · rename_i taken hdrain
    rw [hdrain] at htotal hflag
    have hset := hflag (by simp)
    change s.available+1+taken+_+_+_ = _ at htotal
    split
    · refine ⟨?_,fun _ => hset⟩
      change s.available+(taken+1)+s.acquired.length+s.running.length+s.worker.permits = _
      omega
    · refine ⟨?_,fun _ => hset⟩
      rw [hdrain]
      exact htotal
  · exact ⟨htotal,hflag⟩

theorem step_accounted {e : Event} (hs : Accounted maxOperations s)
    (h : step maxOperations s e = some t) : Accounted maxOperations t := by
  have htotal := hs.total
  cases e with
  | acquire id =>
    obtain ⟨hsome,rfl⟩ := guarded_eq_some.mp h
    refine ⟨?_,hs.flag⟩
    simp only [List.length_cons]
    omega
  | busy id =>
    obtain ⟨_,rfl⟩ := guarded_eq_some.mp h
    exact hs
  | load id =>
    obtain ⟨hmem,rfl⟩ := guarded_eq_some.mp h
    have hlength := List.length_erase_of_mem hmem
    have hpos := List.length_pos_of_mem hmem
    dsimp only
    split
    · apply release_accounted
      · exact hs.flag
      · dsimp only
        omega
    · refine ⟨?_,hs.flag⟩
      simp only [List.length_cons]
      omega
  | finish id =>
    obtain ⟨hmem,rfl⟩ := guarded_eq_some.mp h
    have hlength := List.length_erase_of_mem hmem
    have hpos := List.length_pos_of_mem hmem
    apply release_accounted
    · exact hs.flag
    · dsimp only
      omega
  | startWorker =>
    obtain ⟨hworker,rfl⟩ := guarded_eq_some.mp h
    rw [hworker] at htotal
    exact ⟨htotal,hs.flag⟩
  | workerLoad =>
    obtain ⟨hworker,rfl⟩ := guarded_eq_some.mp h
    rw [hworker] at htotal
    refine ⟨?_,hs.flag⟩
    cases s.shuttingDown <;> exact htotal
  | workerAcquire =>
    obtain ⟨hworker,rfl⟩ := guarded_eq_some.mp h
    rw [hworker] at htotal
    split
    · refine ⟨?_,hs.flag⟩
      dsimp only [Worker.permits] at htotal ⊢
      omega
    · exact ⟨htotal,hs.flag⟩
  | maintain =>
    obtain ⟨hworker,rfl⟩ := guarded_eq_some.mp h
    rw [hworker] at htotal
    exact ⟨htotal,hs.flag⟩
  | workerDrop =>
    obtain ⟨hworker,rfl⟩ := guarded_eq_some.mp h
    have hpermit : s.worker.permits = 1 := by
      rcases hworker with hworker | hworker <;> rw [hworker] <;> rfl
    apply release_accounted
    · exact hs.flag
    · dsimp only [Worker.permits]
      omega
  | storeFlag =>
    obtain ⟨hdrain,rfl⟩ := guarded_eq_some.mp h
    rw [hdrain] at htotal
    exact ⟨htotal,fun _ => rfl⟩
  | pollDrain =>
    obtain ⟨hdrain,rfl⟩ := guarded_eq_some.mp h
    rw [hdrain] at htotal
    refine ⟨?_,fun _ => hs.flag (by simp [hdrain])⟩
    dsimp only [Drain.permits] at htotal ⊢
    omega
  | wakeDrain =>
    obtain ⟨hdrain,rfl⟩ := guarded_eq_some.mp h
    rw [hdrain] at htotal
    exact ⟨htotal,fun _ => hs.flag (by simp [hdrain])⟩
  | returnDrain =>
    obtain ⟨hdrain,rfl⟩ := guarded_eq_some.mp h
    rw [hdrain] at htotal
    exact ⟨htotal,fun _ => hs.flag (by simp [hdrain])⟩

theorem run_accounted {es : List Event}
    (h : run (step maxOperations) (new maxOperations) es = some s) : Accounted maxOperations s := by
  apply run_invariant (Accounted maxOperations) _ (fun _ _ _ => step_accounted) h
  exact ⟨rfl,fun hne => absurd rfl hne⟩

/-! ## After the drain -/

/-- The drain holds every permit, so nobody else holds one. -/
theorem drained_idle (hs : Accounted maxOperations s) (hdrain : s.drain = .drained) :
    s.available = 0 ∧ s.running = [] ∧ s.worker.permits = 0 := by
  have htotal := hs.total
  rw [hdrain] at htotal
  change s.available+maxOperations+_+_+_ = _ at htotal
  have hlength : s.running.length = 0 := by omega
  exact ⟨by omega,List.length_eq_zero_iff.mp hlength,by omega⟩

/-- The flag is set, no operation runs, and the worker has yet to load the flag. -/
structure Final (s : State) : Prop where
  flag : s.shuttingDown = true
  drain : s.drain = .returned
  running : s.running = []
  worker : s.worker = .absent ∨ s.worker = .ticking ∨ s.worker = .ended

theorem Final.quiet (h : Final s) : s.Quiet := by
  refine ⟨h.running,?_⟩
  rcases h.worker with hworker | hworker | hworker <;> rw [hworker] <;> decide

theorem Final.release (h : Final s) : Final (s.release maxOperations) := by
  have hgiven : s.release maxOperations = { s with available := s.available+1 } := by
    simp [State.release, h.drain]
  rw [hgiven]
  exact {h with}

theorem step_final {e : Event} (hs : Final s) (h : step maxOperations s e = some t) : Final t := by
  cases e with
  | acquire id =>
    obtain ⟨_,rfl⟩ := guarded_eq_some.mp h
    exact {hs with}
  | busy id =>
    obtain ⟨_,rfl⟩ := guarded_eq_some.mp h
    exact hs
  | load id =>
    obtain ⟨_,rfl⟩ := guarded_eq_some.mp h
    dsimp only
    rw [if_pos hs.flag]
    apply Final.release
    exact {hs with}
  | finish id =>
    obtain ⟨hmem,_⟩ := guarded_eq_some.mp h
    rw [hs.running] at hmem
    exact (List.not_mem_nil hmem).elim
  | startWorker =>
    obtain ⟨_,rfl⟩ := guarded_eq_some.mp h
    exact {hs with worker := .inr (.inl rfl)}
  | workerLoad =>
    obtain ⟨_,rfl⟩ := guarded_eq_some.mp h
    refine {hs with worker := .inr (.inr ?_)}
    dsimp only
    rw [if_pos hs.flag]
  | workerAcquire =>
    obtain ⟨hworker,_⟩ := guarded_eq_some.mp h
    have hnot := hs.worker
    simp [hworker] at hnot
  | maintain =>
    obtain ⟨hworker,_⟩ := guarded_eq_some.mp h
    have hnot := hs.worker
    simp [hworker] at hnot
  | workerDrop =>
    obtain ⟨hworker,_⟩ := guarded_eq_some.mp h
    have hnot := hs.worker
    rcases hworker with hworker | hworker <;> simp [hworker] at hnot
  | storeFlag =>
    obtain ⟨hdrain,_⟩ := guarded_eq_some.mp h
    simp [hs.drain] at hdrain
  | pollDrain =>
    obtain ⟨hdrain,_⟩ := guarded_eq_some.mp h
    simp [hs.drain] at hdrain
  | wakeDrain =>
    obtain ⟨hdrain,_⟩ := guarded_eq_some.mp h
    simp [hs.drain] at hdrain
  | returnDrain =>
    obtain ⟨hdrain,_⟩ := guarded_eq_some.mp h
    simp [hs.drain] at hdrain

theorem return_final (hs : Accounted maxOperations s) (hworker : s.worker ≠ .checked)
    (h : step maxOperations s .returnDrain = some t) : Final t := by
  obtain ⟨hdrain,rfl⟩ := guarded_eq_some.mp h
  obtain ⟨_,hrunning,hpermits⟩ := drained_idle hs hdrain
  refine ⟨hs.flag (by simp [hdrain]),rfl,hrunning,?_⟩
  change s.worker = _ ∨ s.worker = _ ∨ s.worker = _
  cases hphase : s.worker with
  | absent => exact .inl rfl
  | ticking => exact .inr (.inl rfl)
  | checked => exact absurd hphase hworker
  | holding => simp [hphase, Worker.permits] at hpermits
  | maintaining => simp [hphase, Worker.permits] at hpermits
  | ended => exact .inr (.inr rfl)

/-- A worker between its load and its acquisition finds a permit after the return. -/
theorem checked_maintains (hmax : 0 < maxOperations) (hdrain : s.drain = .drained)
    (hworker : s.worker = .checked) : ∃ t,
      run (step maxOperations) s [.returnDrain,.workerAcquire,.maintain] = some t ∧
        t.worker = .maintaining := by
  have havailable : 0 < s.available+maxOperations := by omega
  have hreturn : step maxOperations s .returnDrain =
      some { s with available := s.available+maxOperations, drain := .returned } :=
    guarded_eq_some.mpr ⟨hdrain,rfl⟩
  have hacquire : step maxOperations
      { s with available := s.available+maxOperations, drain := .returned } .workerAcquire =
      some { s with available := s.available+maxOperations-1, drain := .returned,
                    worker := .holding } := by
    apply guarded_eq_some.mpr
    exact ⟨hworker,if_pos havailable⟩
  refine ⟨{ s with available := s.available+maxOperations-1, drain := .returned,
                   worker := .maintaining },?_,rfl⟩
  exact run_cons.mpr ⟨_,hreturn,run_cons.mpr ⟨_,hacquire,rfl⟩⟩

/-- When `shutdown_cleanup` returns nothing runs, and nothing ever runs afterwards exactly if the
worker does not stand between its load of the flag and its acquisition. -/
theorem shutdown_final_iff (hmax : 0 < maxOperations) (es : List Event) (s : State)
    (h : run (step maxOperations) (new maxOperations) es = some s) (hdrain : s.drain = .drained) :
    s.Quiet ∧ ((∀ fs t, run (step maxOperations) s (.returnDrain :: fs) = some t → t.Quiet) ↔
      s.worker ≠ .checked) := by
  have hs := run_accounted h
  obtain ⟨_,hrunning,hpermits⟩ := drained_idle hs hdrain
  refine ⟨⟨hrunning,fun hworker => by simp [hworker, Worker.permits] at hpermits⟩,?_,?_⟩
  · intro hquiet hworker
    obtain ⟨t,hrun,hmaintains⟩ := checked_maintains hmax hdrain hworker
    exact (hquiet _ t hrun).2 hmaintains
  · intro hworker fs t hrun
    obtain ⟨u,hreturn,hrest⟩ := run_cons.mp hrun
    have hfinal := return_final hs hworker hreturn
    exact (run_invariant Final hfinal (fun _ _ _ => step_final) hrest).quiet

/-- One permit, a running operation and a ticking worker: the drain waits for the operation. -/
theorem shutdown_final_iff_waiting : run (step 1) (new 1)
    [.startWorker,.acquire 0,.load 0,.storeFlag,.pollDrain,.finish 0,.wakeDrain] =
      some ⟨true,0,[],[],.ticking,.drained⟩ ∧
    ∀ fs t, run (step 1) ⟨true,0,[],[],.ticking,.drained⟩ (.returnDrain :: fs) = some t → t.Quiet := by
  have hrun : run (step 1) (new 1)
      [.startWorker,.acquire 0,.load 0,.storeFlag,.pollDrain,.finish 0,.wakeDrain] =
        some ⟨true,0,[],[],.ticking,.drained⟩ := by decide
  exact ⟨hrun,(shutdown_final_iff (by decide) _ _ hrun rfl).2.mpr (by decide)⟩

/-- The worker loads the flag before it is set and takes its permit after the drain has returned
them: a maintenance pass runs after shutdown. -/
theorem maintains_after_shutdown : run (step 1) (new 1)
    [.startWorker,.workerLoad,.storeFlag,.pollDrain,.wakeDrain,.returnDrain,.workerAcquire,
      .maintain] = some ⟨true,0,[],[],.maintaining,.returned⟩ := by
  decide

end Scorpio.Shutdown
