import Scorpio.Base.Credits
import Scorpio.Transport.OwnedTransport

/-!
# Budgets of output and construction buffers

Every reservation takes whole credits of its own budget and then of the process,
and gives both back when it is dropped. The machine below takes each of the two
semaphore operations as an event of its own, so that reservations and drops of any
number of budgets interleave; a whole call is such a run with nothing in between.
-/

set_option autoImplicit false

namespace Scorpio.ContentBudget

open ByteText Fallible PageCodec OwnedTransport Traces Credits

def credit : ℕ := 1024

inductive BudgetClass where
  | output
  | construction
  deriving DecidableEq, Repr

def processBytes : BudgetClass → ℕ
  | .output => 512*1024*1024
  | .construction => 64*1024*1024

def coordinatorBytes : BudgetClass → ℕ
  | .output => 128*1024*1024
  | .construction => 32*1024*1024

structure ContentBudgetLimits where
  bytes : BudgetClass → ℕ
  positive : ∀ c, 0 < bytes c
  capped : ∀ c, bytes c ≤ coordinatorBytes c
  whole : ∀ c, credit ∣ bytes c

def ContentBudgetLimits.new (outputBytes constructionBytes : ℕ) : Result ContentBudgetLimits :=
  let bytes : BudgetClass → ℕ
    | .output => outputBytes
    | .construction => constructionBytes
  if h : (0 < outputBytes ∧ 0 < constructionBytes) ∧
      (outputBytes ≤ coordinatorBytes .output ∧ constructionBytes ≤ coordinatorBytes .construction) ∧
      credit ∣ outputBytes ∧ credit ∣ constructionBytes then
    .ok {
      bytes := bytes
      positive := fun c => by cases c; exacts [h.1.1,h.1.2]
      capped := fun c => by cases c; exacts [h.2.1.1,h.2.1.2]
      whole := fun c => by cases c; exacts [h.2.2.1,h.2.2.2] }
  else .error ⟨.invalidRequest,
    "content budgets must use positive 1-KiB credits within coordinator caps"⟩

def ContentBudgetLimits.standard : ContentBudgetLimits where
  bytes := coordinatorBytes
  positive c := by cases c <;> decide
  capped _ := Nat.le_refl _
  whole c := by cases c <;> decide

inductive Semaphore (β : Type) where
  | budget (b : β) (c : BudgetClass)
  | process (c : BudgetClass)
  deriving DecidableEq

section Machine

variable {β : Type} [DecidableEq β] (limits : β → ContentBudgetLimits)

/-- The credits each semaphore starts with. -/
def capacity : Semaphore β → ℕ
  | .budget b c => (limits b).bytes c/credit
  | .process c => processBytes c/credit

def credits (bytes : ℕ) : Option ℕ :=
  (checkedAdd bytes (credit-1)).bind fun n => if n/credit ≤ u32Max then some (n/credit) else none

/-! ## Buffers -/

/-- The vector of an `AccountedBuffer`, with the capacity it was allocated with. -/
structure Buffer where
  capacity : ℕ
  bytes : Bytes
  deriving DecidableEq

namespace Buffer

def append (b : Buffer) (bytes : Bytes) : Result Buffer := do
  require (bytes.length ≤ b.capacity-b.bytes.length)
    (invalid "body exceeds its fixed expected size")
  pure {b with bytes := b.bytes ++ bytes}

/-- `Vec::resize` to the capacity. -/
def initializeBytes (b : Buffer) : Buffer :=
  {b with bytes := b.bytes.take b.capacity ++ List.replicate (b.capacity-b.bytes.length) 0}

def writeAt (b : Buffer) (offset : ℕ) (bytes : Bytes) : Result Buffer := do
  let stop ← okOr (checkedAdd offset bytes.length) capacityLimit
  require (stop ≤ b.bytes.length) (invalid "chunk exceeds its fixed output range")
  pure {b with bytes := b.bytes.take offset ++ bytes ++ b.bytes.drop stop}

end Buffer

inductive Edit where
  | append (bytes : Bytes)
  | initializeBytes
  | writeAt (offset : ℕ) (bytes : Bytes)

def Edit.apply (b : Buffer) : Edit → Result Buffer
  | .append bytes => b.append bytes
  | .initializeBytes => .ok b.initializeBytes
  | .writeAt offset bytes => b.writeAt offset bytes

/-! ## Reservations -/

/-- Between the two semaphores of an acquisition, held, or between the two of a drop. -/
inductive Stage where
  | acquiring
  | live
  | releasing
  deriving DecidableEq

/-- A reservation, with the buffer that owns it when there is one. -/
structure Reservation (β : Type) where
  budget : β
  cls : BudgetClass
  bytes : ℕ
  permits : ℕ
  stage : Stage
  buffer : Option Buffer
  deriving DecidableEq

def Reservation.weight (r : Reservation β) : Semaphore β → ℕ
  | .budget b c => if r.budget = b ∧ r.cls = c ∧ r.stage ≠ .releasing then r.permits else 0
  | .process c => if r.cls = c ∧ r.stage ≠ .acquiring then r.permits else 0

structure State (β : Type) where
  free : Semaphore β → ℕ
  reservations : Multiset (Reservation β)

def start : State β := ⟨capacity limits,0⟩

namespace State

def exchange (s : State β) (r r' : Reservation β) : State β :=
  {s with reservations := r' ::ₘ s.reservations.erase r}

def usage (s : State β) (b : β) (c : BudgetClass) : ℕ :=
  (limits b).bytes c-s.free (.budget b c)*credit

def processUsage (s : State β) (c : BudgetClass) : ℕ :=
  processBytes c-s.free (.process c)*credit

end State

/-- The charge of `AccountedBuffer::new`; `header` is the size of the buffer and its counters. -/
def bufferCharge (header size extra : ℕ) : Option ℕ :=
  (checkedAdd size extra).bind fun n => checkedAdd n header

inductive Event (β : Type) where
  | takeBudget (b : β) (c : BudgetClass) (bytes : ℕ)
  | takeProcess (r : Reservation β)
  | refuseProcess (r : Reservation β)
  | allocate (r : Reservation β) (size extra : ℕ)
  | edit (r : Reservation β) (e : Edit)
  | free (r : Reservation β)
  | dropBudget (r : Reservation β)
  | dropProcess (r : Reservation β)

def step (header : ℕ) (s : State β) : Event β → Option (State β)
  | .takeBudget b c bytes =>
    (credits bytes).bind fun n => (tryAcquire s.free (.budget b c) n).map fun free =>
      ⟨free,⟨b,c,bytes,n,.acquiring,none⟩ ::ₘ s.reservations⟩
  | .takeProcess r =>
    (guarded (r ∈ s.reservations ∧ r.stage = .acquiring) ()).bind fun _ =>
      (tryAcquire s.free (.process r.cls) r.permits).map fun free =>
        {s.exchange r {r with stage := .live} with free := free}
  -- The process is short of credits, and the permit of the budget is dropped.
  | .refuseProcess r => guarded (r ∈ s.reservations ∧ r.stage = .acquiring ∧
        tryAcquire s.free (.process r.cls) r.permits = none)
      ⟨release s.free (.budget r.budget r.cls) r.permits,s.reservations.erase r⟩
  | .allocate r size extra => guarded (r ∈ s.reservations ∧ r.stage = .live ∧ r.buffer = none ∧
        bufferCharge header size extra = some r.bytes)
      (s.exchange r {r with buffer := some ⟨size,[]⟩})
  | .edit r e => r.buffer.bind fun b => guarded (r ∈ s.reservations)
      (match e.apply b with
        | .ok b' => s.exchange r {r with buffer := some b'}
        | .error _ => s)
  | .free r => guarded (r ∈ s.reservations) (s.exchange r {r with buffer := none})
  | .dropBudget r => guarded (r ∈ s.reservations ∧ r.stage = .live ∧ r.buffer = none)
      {s.exchange r {r with stage := .releasing} with
        free := release s.free (.budget r.budget r.cls) r.permits}
  | .dropProcess r => guarded (r ∈ s.reservations ∧ r.stage = .releasing)
      ⟨release s.free (.process r.cls) r.permits,s.reservations.erase r⟩

/-! ## Whole calls -/

namespace State

/-- `Reservation::acquire`: the permit of the budget is dropped when the process refuses. -/
def acquire (free : Semaphore β → ℕ) (b : β) (c : BudgetClass) (n : ℕ) :
    Result Unit × (Semaphore β → ℕ) :=
  match tryAcquire free (.budget b c) n with
  | none => (.error capacityLimit,free)
  | some taken =>
    match tryAcquire taken (.process c) n with
    | none => (.error capacityLimit,release taken (.budget b c) n)
    | some taken => (.ok (),taken)

def reserve (s : State β) (b : β) (c : BudgetClass) (bytes : ℕ) :
    Result (Reservation β) × State β :=
  match credits bytes with
  | none => (.error capacityLimit,s)
  | some n =>
    match acquire s.free b c n with
    | (.error e,free) => (.error e,{s with free := free})
    | (.ok (),free) =>
      let r := ⟨b,c,bytes,n,.live,none⟩
      (.ok r,⟨free,r ::ₘ s.reservations⟩)

/-- Drop for Reservation: its two permits in the order of its fields. -/
def drop (s : State β) (r : Reservation β) : State β :=
  ⟨release (release s.free (.budget r.budget r.cls) r.permits) (.process r.cls) r.permits,
    s.reservations.erase r⟩

/-- `AccountedBuffer::new`; `heap` is the capacity the allocator gives, if any. -/
def newBuffer (header : ℕ) (heap : ℕ → Option ℕ) (s : State β) (b : β) (c : BudgetClass)
    (size extra : ℕ) : Result (Reservation β) × State β :=
  match bufferCharge header size extra with
  | none => (.error capacityLimit,s)
  | some charge =>
    match s.reserve b c charge with
    | (.error e,s) => (.error e,s)
    | (.ok r,s) =>
      match heap size with
      | none => (.error capacityLimit,s.drop r)
      | some given =>
        if given ≠ size then
          (.error ⟨.internal,"unexpected fixed buffer capacity"⟩,s.drop r)
        else
          let r' := {r with buffer := some ⟨size,[]⟩}
          (.ok r',s.exchange r r')

end State

end Machine

/-! ## Calls that fail -/

section Failures

variable {β : Type} [DecidableEq β] {s s' : State β} {b : β} {c : BudgetClass} {n bytes : ℕ}
  {free free' : Semaphore β → ℕ} {e : SnapshotError} {r : Reservation β}

theorem acquire_failed (h : State.acquire free b c n = (.error e,free')) :
    free' = free := by
  unfold State.acquire at h
  split at h
  · cases h
    rfl
  · rename_i taken hbudget
    split at h
    · cases h
      exact release_acquired hbudget
    · cases h

theorem acquire_granted (h : State.acquire free b c n = (.ok (),free')) : ∃ taken,
    tryAcquire free (.budget b c) n = some taken ∧ tryAcquire taken (.process c) n = some free' := by
  unfold State.acquire at h
  split at h
  · cases h
  · rename_i taken hbudget
    split at h
    · cases h
    · rename_i free'' hprocess
      cases h
      exact ⟨taken,hbudget,hprocess⟩

theorem reserve_failed (h : s.reserve b c bytes = (.error e,s')) : s' = s := by
  unfold State.reserve at h
  split at h
  · cases h
    rfl
  · split at h
    · rename_i hacquire
      cases h
      rw [acquire_failed hacquire]
    · cases h

theorem reserve_granted (h : s.reserve b c bytes = (.ok r,s')) : ∃ n taken free',
    credits bytes = some n ∧ tryAcquire s.free (.budget b c) n = some taken ∧
      tryAcquire taken (.process c) n = some free' ∧ r = ⟨b,c,bytes,n,.live,none⟩ ∧
      s' = ⟨free',r ::ₘ s.reservations⟩ := by
  unfold State.reserve at h
  split at h
  · cases h
  · rename_i n hn
    split at h
    · cases h
    · rename_i free' hacquire
      obtain ⟨taken,hbudget,hprocess⟩ := acquire_granted hacquire
      cases h
      exact ⟨n,taken,free',hn,hbudget,hprocess,rfl,rfl⟩

/-- A reservation that is dropped at once leaves nothing. -/
theorem reserve_dropped (h : s.reserve b c bytes = (.ok r,s')) : s'.drop r = s := by
  obtain ⟨n,taken,free',-,hbudget,hprocess,rfl,rfl⟩ := reserve_granted h
  unfold State.drop
  rw [Multiset.erase_cons_head]
  show (⟨release (release free' (.budget b c) n) (.process c) n,s.reservations⟩ : State β) = s
  have hne : Semaphore.budget b c ≠ .process c := nofun
  rw [release_comm hne, release_acquired hprocess, release_acquired hbudget]

theorem new_buffer_failed {header size extra : ℕ} {heap : ℕ → Option ℕ}
    (h : s.newBuffer header heap b c size extra = (.error e,s')) : s' = s := by
  unfold State.newBuffer at h
  split at h
  · cases h
    rfl
  · split at h
    · rename_i hreserve
      cases h
      exact reserve_failed hreserve
    · rename_i r mid hreserve
      split at h
      · cases h
        exact reserve_dropped hreserve
      · split_ifs at h
        · cases h
          exact reserve_dropped hreserve
        · cases h

end Failures

/-! ## Calls are runs of the machine -/

section Runs

variable {β : Type} [DecidableEq β] {header : ℕ} {s s' : State β} {b : β} {c : BudgetClass}
  {bytes : ℕ} {r : Reservation β}

theorem reserve_history (header : ℕ) (h : s.reserve b c bytes = (.ok r,s')) :
    ∃ es, run (step header) s es = some s' := by
  obtain ⟨n,taken,free',hn,hbudget,hprocess,rfl,rfl⟩ := reserve_granted h
  let r : Reservation β := ⟨b,c,bytes,n,.acquiring,none⟩
  have htake : step header s (.takeBudget b c bytes) = some ⟨taken,r ::ₘ s.reservations⟩ := by
    simp [step, hn, hbudget, r]
  have hthen : step header ⟨taken,r ::ₘ s.reservations⟩ (.takeProcess r) =
      some ⟨free',{r with stage := .live} ::ₘ s.reservations⟩ := by
    simp [step, guarded, State.exchange, hprocess, r]
  exact ⟨[.takeBudget b c bytes,.takeProcess r],
    run_cons.mpr ⟨_,htake,run_cons.mpr ⟨_,hthen,rfl⟩⟩⟩

theorem drop_history (header : ℕ) (hr : r ∈ s.reservations) (hstage : r.stage = .live)
    (hbuffer : r.buffer = none) : ∃ es, run (step header) s es = some (s.drop r) := by
  have hfirst : step header s (.dropBudget r) = some
      ⟨release s.free (.budget r.budget r.cls) r.permits,
        {r with stage := .releasing} ::ₘ s.reservations.erase r⟩ := by
    simp [step, guarded, State.exchange, hr, hstage, hbuffer]
  refine ⟨[.dropBudget r,.dropProcess {r with stage := .releasing}],run_cons.mpr ⟨_,hfirst,?_⟩⟩
  simp [run, step, guarded, State.drop]

theorem new_buffer_history {size extra : ℕ} {heap : ℕ → Option ℕ}
    (h : s.newBuffer header heap b c size extra = (.ok r,s')) :
    ∃ es, run (step header) s es = some s' := by
  unfold State.newBuffer at h
  split at h
  · cases h
  · rename_i charge hcharge
    split at h
    · cases h
    · rename_i held mid hreserve
      split at h
      · cases h
      · split_ifs at h
        · cases h
        · obtain ⟨es,hes⟩ := reserve_history header hreserve
          obtain ⟨n,taken,free',-,-,-,rfl,rfl⟩ := reserve_granted hreserve
          cases h
          refine ⟨es++[.allocate ⟨b,c,charge,n,.live,none⟩ size extra],run_append.mpr ⟨_,hes,?_⟩⟩
          simp [run, step, guarded, hcharge]

end Runs

/-! ## The accounts -/

def roundUp (bytes : ℕ) : ℕ := (bytes+(credit-1))/credit*credit

theorem credits_some {bytes n : ℕ} (h : credits bytes = some n) : n*credit = roundUp bytes := by
  unfold credits at h
  obtain ⟨m,hm,hn⟩ := Option.bind_eq_some_iff.mp h
  obtain ⟨-,rfl⟩ := checked_add_some.mp hm
  split_ifs at hn
  cases hn
  rfl

theorem le_round_up (bytes : ℕ) : bytes ≤ roundUp bytes := by
  unfold roundUp credit
  omega

theorem edit_bounded {b b' : Buffer} {e : Edit} (hb : b.bytes.length ≤ b.capacity)
    (h : e.apply b = .ok b') : b'.bytes.length ≤ b'.capacity ∧ b'.capacity = b.capacity := by
  cases e with
  | append bytes =>
    unfold Edit.apply Buffer.append at h
    obtain ⟨_,hroom,hafter⟩ := bind_ok.mp h
    cases pure_ok.mp hafter
    rw [require_ok, decide_eq_true_eq] at hroom
    refine ⟨?_,rfl⟩
    show (b.bytes ++ bytes).length ≤ b.capacity
    rw [List.length_append]
    omega
  | initializeBytes =>
    cases h
    refine ⟨?_,rfl⟩
    show (b.bytes.take b.capacity ++ List.replicate _ 0).length ≤ b.capacity
    rw [List.length_append, List.length_take, List.length_replicate]
    omega
  | writeAt offset bytes =>
    unfold Edit.apply Buffer.writeAt at h
    obtain ⟨stop,hstop,hafter⟩ := bind_ok.mp h
    obtain ⟨_,hroom,hthen⟩ := bind_ok.mp hafter
    cases pure_ok.mp hthen
    obtain ⟨-,rfl⟩ := checked_add_some.mp (ok_or_ok.mp hstop)
    rw [require_ok, decide_eq_true_eq] at hroom
    refine ⟨?_,rfl⟩
    show (b.bytes.take offset ++ bytes ++ b.bytes.drop _).length ≤ b.capacity
    simp only [List.length_append, List.length_take, List.length_drop]
    omega

/-- A reservation has the credits of its bytes, and the room of its buffer is among them. -/
structure Reservation.Sound {β : Type} (r : Reservation β) : Prop where
  charged : credits r.bytes = some r.permits
  buffered : ∀ b ∈ r.buffer, b.bytes.length ≤ b.capacity ∧ b.capacity ≤ r.bytes
  owned : r.buffer.isSome → r.stage = .live

structure Accounted {β : Type} [DecidableEq β] (limits : β → ContentBudgetLimits) (s : State β) :
    Prop where
  balanced : Balanced (capacity limits) s.free Reservation.weight s.reservations
  sound : ∀ r ∈ s.reservations, r.Sound

section Steps

variable {β : Type} [DecidableEq β] {limits : β → ContentBudgetLimits} {header : ℕ}
  {s s' : State β}

theorem accounted_start : Accounted limits (start limits) :=
  ⟨fun _ => rfl,by simp [start]⟩

/-- The same permits with another buffer. -/
theorem Accounted.exchange (hs : Accounted limits s) {r r' : Reservation β}
    (hr : r ∈ s.reservations) (hweight : r'.weight = r.weight) (hsound : r'.Sound) :
    Accounted limits (s.exchange r r') := by
  refine ⟨hs.balanced.same fun i => ?_,forall_exchange hs.sound hsound⟩
  have hsum := total_exchange Reservation.weight r' hr i
  rw [hweight] at hsum
  exact Nat.add_left_cancel hsum

theorem weight_live {r : Reservation β} (i : Semaphore β) (h : r.stage = .acquiring) :
    {r with stage := .live}.weight i = r.weight i+if i = .process r.cls then r.permits else 0 := by
  cases i <;> simp [Reservation.weight, h, eq_comm]

theorem weight_releasing {r : Reservation β} (i : Semaphore β) (h : r.stage = .live) :
    r.weight i = {r with stage := .releasing}.weight i+
      if i = .budget r.budget r.cls then r.permits else 0 := by
  cases i <;> simp [Reservation.weight, h, eq_comm]

theorem step_accounted {e : Event β} (hs : Accounted limits s)
    (h : step header s e = some s') : Accounted limits s' := by
  cases e with
  | takeBudget b c bytes =>
    rw [step] at h
    obtain ⟨n,hn,hmap⟩ := Option.bind_eq_some_iff.mp h
    obtain ⟨free,hfree,rfl⟩ := Option.map_eq_some_iff.mp hmap
    refine ⟨hs.balanced.acquire hfree fun i => ?_,fun r hr => ?_⟩
    · rw [total_cons, Nat.add_comm]
      cases i <;> simp [Reservation.weight, eq_comm]
    · rcases Multiset.mem_cons.mp hr with rfl | hr
      · exact ⟨hn,nofun,nofun⟩
      · exact hs.sound r hr
  | takeProcess r =>
    obtain ⟨_,hguard,hmap⟩ := Option.bind_eq_some_iff.mp h
    obtain ⟨⟨hr,hstage⟩,-⟩ := guarded_eq_some.mp hguard
    obtain ⟨free,hfree,rfl⟩ := Option.map_eq_some_iff.mp hmap
    have hsound := hs.sound r hr
    refine ⟨hs.balanced.acquire hfree fun i => ?_,forall_exchange hs.sound ?_⟩
    · have hsum := total_exchange Reservation.weight {r with stage := .live} hr i
      have hgain := weight_live i hstage
      show total _ (_ ::ₘ s.reservations.erase r) i = _
      omega
    · exact ⟨hsound.charged,hsound.buffered,fun _ => rfl⟩
  | refuseProcess r =>
    obtain ⟨⟨hr,hstage,-⟩,rfl⟩ := guarded_eq_some.mp h
    refine ⟨hs.balanced.release fun i => ?_,fun x hx => hs.sound x (Multiset.mem_of_mem_erase hx)⟩
    rw [← total_erase hr, Nat.add_comm]
    cases i <;> simp [Reservation.weight, hstage, eq_comm]
  | allocate r size extra =>
    obtain ⟨⟨hr,hstage,-,hcharge⟩,rfl⟩ := guarded_eq_some.mp h
    refine hs.exchange hr rfl ⟨(hs.sound r hr).charged,?_,fun _ => hstage⟩
    rintro b ⟨⟩
    obtain ⟨m,hm,hbytes⟩ := Option.bind_eq_some_iff.mp hcharge
    rw [checked_add_some] at hm hbytes
    exact ⟨Nat.zero_le _,by dsimp only; omega⟩
  | edit r e =>
    obtain ⟨b,hb,hguard⟩ := Option.bind_eq_some_iff.mp h
    obtain ⟨hr,rfl⟩ := guarded_eq_some.mp hguard
    have hsound := hs.sound r hr
    split
    · rename_i b' happly
      have hroom := hsound.buffered b hb
      have hedit := edit_bounded hroom.1 happly
      refine hs.exchange hr rfl ⟨hsound.charged,?_,fun _ => hsound.owned (by simp [hb])⟩
      rintro x ⟨⟩
      exact ⟨hedit.1,hedit.2 ▸ hroom.2⟩
    · exact hs
  | free r =>
    obtain ⟨hr,rfl⟩ := guarded_eq_some.mp h
    exact hs.exchange hr rfl ⟨(hs.sound r hr).charged,nofun,nofun⟩
  | dropBudget r =>
    obtain ⟨⟨hr,hstage,hbuffer⟩,rfl⟩ := guarded_eq_some.mp h
    refine ⟨hs.balanced.release fun i => ?_,forall_exchange hs.sound ?_⟩
    · have hsum := total_exchange Reservation.weight {r with stage := .releasing} hr i
      have hloss := weight_releasing i hstage
      show _ = total _ (_ ::ₘ s.reservations.erase r) i+_
      omega
    · exact ⟨(hs.sound r hr).charged,(hs.sound r hr).buffered,by simp [hbuffer]⟩
  | dropProcess r =>
    obtain ⟨⟨hr,hstage⟩,rfl⟩ := guarded_eq_some.mp h
    refine ⟨hs.balanced.release fun i => ?_,fun x hx => hs.sound x (Multiset.mem_of_mem_erase hx)⟩
    rw [← total_erase hr, Nat.add_comm]
    cases i <;> simp [Reservation.weight, hstage, eq_comm]

end Steps

/-! ## Histories -/

/-- The bytes of some of the reservations, each rounded to whole credits. -/
def State.reserved {β : Type} (s : State β) (p : Reservation β → Prop) [DecidablePred p] : ℕ :=
  ((s.reservations.filter p).map fun r => roundUp r.bytes).sum

section Histories

variable {β : Type} [DecidableEq β] {limits : β → ContentBudgetLimits} {s : State β}

theorem Accounted.usage (hs : Accounted limits s) (b : β) (c : BudgetClass) :
    s.usage limits b c = s.reserved (fun r => r.budget = b ∧ r.cls = c ∧ r.stage ≠ .releasing) ∧
      s.usage limits b c+s.free (.budget b c)*credit = (limits b).bytes c := by
  have hsum : total Reservation.weight s.reservations (.budget b c)*credit =
      s.reserved fun r => r.budget = b ∧ r.cls = c ∧ r.stage ≠ .releasing := by
    apply total_filter
    intro r hr
    rw [Reservation.weight, ite_mul, Nat.zero_mul, credits_some (hs.sound r hr).charged]
  have hbalance := congrArg (·*credit) (hs.balanced (.budget b c))
  dsimp only [capacity] at hbalance
  rw [Nat.div_mul_cancel ((limits b).whole c), Nat.add_mul, hsum] at hbalance
  unfold State.usage
  omega

theorem process_whole (c : BudgetClass) : credit ∣ processBytes c := by
  cases c <;> decide

theorem Accounted.process_usage (hs : Accounted limits s) (c : BudgetClass) :
    s.processUsage c = s.reserved (fun r => r.cls = c ∧ r.stage ≠ .acquiring) ∧
      s.processUsage c+s.free (.process c)*credit = processBytes c := by
  have hsum : total Reservation.weight s.reservations (.process c)*credit =
      s.reserved fun r => r.cls = c ∧ r.stage ≠ .acquiring := by
    apply total_filter
    intro r hr
    rw [Reservation.weight, ite_mul, Nat.zero_mul, credits_some (hs.sound r hr).charged]
  have hbalance := congrArg (·*credit) (hs.balanced (.process c))
  dsimp only [capacity] at hbalance
  rw [Nat.div_mul_cancel (process_whole c), Nat.add_mul, hsum] at hbalance
  unfold State.processUsage
  omega

omit [DecidableEq β] in
theorem reserved_congr {p q : Reservation β → Prop} [DecidablePred p] [DecidablePred q]
    (h : ∀ r ∈ s.reservations, p r ↔ q r) : s.reserved p = s.reserved q := by
  unfold State.reserved
  rw [Multiset.filter_congr h]

/-- A call of `reserve`, of `AccountedBuffer::new` or of a drop with nothing in between. -/
inductive Call (β : Type) where
  | reserve (b : β) (c : BudgetClass) (bytes : ℕ)
  | newBuffer (heap : ℕ → Option ℕ) (b : β) (c : BudgetClass) (size extra : ℕ)
  | drop (r : Reservation β)

def Call.apply (header : ℕ) (s : State β) : Call β → Result (Option (Reservation β)) × State β
  | .reserve b c bytes => ((s.reserve b c bytes).1.map some,(s.reserve b c bytes).2)
  | .newBuffer heap b c size extra =>
    ((s.newBuffer header heap b c size extra).1.map some,
      (s.newBuffer header heap b c size extra).2)
  | .drop r =>
    let bare := {r with buffer := none}
    (.ok none,(s.exchange r bare).drop bare)

/-- Only what is live is dropped. -/
def Call.allowed (s : State β) : Call β → Prop
  | .drop r => r ∈ s.reservations ∧ r.stage = .live
  | _ => True

theorem call_failed {header : ℕ} {call : Call β} {e : SnapshotError}
    (h : (call.apply header s).1 = .error e) : (call.apply header s).2 = s := by
  cases call with
  | reserve b c bytes =>
    simp only [Call.apply]
    cases hcall : s.reserve b c bytes with
    | mk result s' =>
      cases result with
      | error e => exact reserve_failed hcall
      | ok r =>
        rw [Call.apply, hcall] at h
        cases h
  | newBuffer heap b c size extra =>
    simp only [Call.apply]
    cases hcall : s.newBuffer header heap b c size extra with
    | mk result s' =>
      cases result with
      | error e => exact new_buffer_failed hcall
      | ok r =>
        rw [Call.apply, hcall] at h
        cases h
  | drop r => cases h

theorem call_history (header : ℕ) {call : Call β} (hallowed : call.allowed s) :
    ∃ es, run (step header) s es = some (call.apply header s).2 := by
  cases call with
  | reserve b c bytes =>
    simp only [Call.apply]
    cases hcall : s.reserve b c bytes with
    | mk result s' =>
      cases result with
      | error e => exact ⟨[],congrArg some (reserve_failed hcall).symm⟩
      | ok r => exact reserve_history header hcall
  | newBuffer heap b c size extra =>
    simp only [Call.apply]
    cases hcall : s.newBuffer header heap b c size extra with
    | mk result s' =>
      cases result with
      | error e => exact ⟨[],congrArg some (new_buffer_failed hcall).symm⟩
      | ok r => exact new_buffer_history hcall
  | drop r =>
    obtain ⟨hr,hstage⟩ := hallowed
    -- The vector of a buffer goes before its reservation.
    have hfree : step header s (.free r) = some (s.exchange r {r with buffer := none}) :=
      guarded_eq_some.mpr ⟨hr,rfl⟩
    obtain ⟨es,hes⟩ := drop_history (s := s.exchange r {r with buffer := none}) header
      (Multiset.mem_cons_self _ _) hstage rfl
    exact ⟨.free r :: es,run_cons.mpr ⟨_,hfree,hes⟩⟩

end Histories

/-- In every interleaving of reservations, buffers and drops the usage of a budget and of the
process is that of the permits taken from it, within its cap. When no call is between its two
semaphores these are the live reservations. A buffer stays within the capacity that its
reservation was charged for. A call that fails leaves both levels as they were, and every call is
itself such a history. -/
theorem content_budgets_accounted {β : Type} [DecidableEq β] (limits : β → ContentBudgetLimits)
    (header : ℕ) (es : List (Event β)) (s : State β)
    (hrun : run (step header) (start limits) es = some s) :
    (∀ b c,
      s.usage limits b c =
        s.reserved (fun r => r.budget = b ∧ r.cls = c ∧ r.stage ≠ .releasing) ∧
      s.usage limits b c+s.free (.budget b c)*credit = (limits b).bytes c) ∧
    (∀ c,
      s.processUsage c = s.reserved (fun r => r.cls = c ∧ r.stage ≠ .acquiring) ∧
      s.processUsage c+s.free (.process c)*credit = processBytes c) ∧
    ((∀ r ∈ s.reservations, r.stage = .live) → ∀ c,
      (∀ b, s.usage limits b c = s.reserved fun r => r.budget = b ∧ r.cls = c) ∧
      s.processUsage c = s.reserved fun r => r.cls = c) ∧
    (∀ r ∈ s.reservations, ∀ b ∈ r.buffer,
      b.bytes.length ≤ b.capacity ∧ b.capacity ≤ roundUp r.bytes ∧ r.stage = .live) ∧
    ∀ call : Call β,
      (∀ e, (call.apply header s).1 = .error e → (call.apply header s).2 = s) ∧
      (call.allowed s →
        ∃ fs, run (step header) (start limits) (es++fs) = some (call.apply header s).2) := by
  have hs : Accounted limits s :=
    run_invariant (Accounted limits) accounted_start (fun _ _ _ hu hv => step_accounted hu hv) hrun
  refine ⟨hs.usage,hs.process_usage,fun hlive c => ⟨fun b => ?_,?_⟩,fun r hr b hb => ?_,fun call => ?_⟩
  · rw [(hs.usage b c).1]
    apply reserved_congr
    intro r hr
    simp [hlive r hr]
  · rw [(hs.process_usage c).1]
    apply reserved_congr
    intro r hr
    simp [hlive r hr]
  · have hsound := hs.sound r hr
    obtain ⟨hroom,hcharged⟩ := hsound.buffered b hb
    exact ⟨hroom,hcharged.trans (le_round_up _),hsound.owned (Option.isSome_of_mem hb)⟩
  · refine ⟨fun e => call_failed,fun hallowed => ?_⟩
    obtain ⟨fs,hfs⟩ := call_history header hallowed
    exact ⟨fs,run_append.mpr ⟨s,hrun,hfs⟩⟩

/-- One reservation of twenty bytes takes one credit of its budget and of the process. -/
theorem content_budget_one_credit :
    ∃ s : State Unit,
      run (step 72) (start fun _ => .standard) [.takeBudget () .output 20,
        .takeProcess ⟨(),.output,20,1,.acquiring,none⟩] = some s ∧
      s.processUsage .output = s.reserved (fun r => r.cls = .output ∧ r.stage ≠ .acquiring) ∧
      s.reserved (fun r => r.cls = .output ∧ r.stage ≠ .acquiring) = 1024 := by
  have hrun : ∃ s, run (step 72) (start fun _ => .standard) [.takeBudget () .output 20,
      .takeProcess ⟨(),.output,20,1,.acquiring,none⟩] = some s ∧
      s.reservations = ⟨(),.output,20,1,.live,none⟩ ::ₘ 0 := by
    refine ⟨_,rfl,?_⟩
    decide
  obtain ⟨s,hs,hreservations⟩ := hrun
  have hall := content_budgets_accounted (fun _ => .standard) 72 _ s hs
  refine ⟨s,hs,(hall.2.1 .output).1,?_⟩
  rw [State.reserved, hreservations]
  rfl

/-- The bytes in the buffers of one class, over all budgets. -/
def State.buffered {β : Type} (s : State β) (c : BudgetClass) : ℕ :=
  (s.reservations.map fun r => if r.cls = c then (r.buffer.map (·.bytes.length)).getD 0 else 0).sum

end Scorpio.ContentBudget
