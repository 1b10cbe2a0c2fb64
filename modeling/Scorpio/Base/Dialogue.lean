import Mathlib

/-!
# Programs in dialogue with their environment

A program asks operations and continues with the answers. What it asks and what
it is answered is left to a contract: the operations the program may ask, and
the answers it may rely on. Programs that fail and keep local state are built
over dialogues, and one judgement says what holds when such a program returns
a value. An interleaving answers one pending question at a time, so the same
judgement is the invariant of every program in it.
-/

set_option autoImplicit false

namespace Scorpio.Dialogues

inductive Dialogue {ι : Type} (ρ : ι → Type) (α : Type) : Type
  | done (a : α)
  | ask (i : ι) (k : ρ i → Dialogue ρ α)

/-- The operations a program may ask, and the answers it may rely on. -/
structure Contract {ι : Type} (ρ : ι → Type) where
  asks : ι → Prop
  answers : (i : ι) → ρ i → Prop

section Dialogues

variable {ι : Type} {ρ : ι → Type} {α β : Type}

def Dialogue.bind (m : Dialogue ρ α) (f : α → Dialogue ρ β) : Dialogue ρ β :=
  match m with
  | .done a => f a
  | .ask i k => .ask i fun r => (k r).bind f

/-- Under the contract's answers the program asks only what it may, and ends with `Q`. -/
def Meets (C : Contract ρ) : Dialogue ρ α → (α → Prop) → Prop
  | .done a, Q => Q a
  | .ask i k, Q => C.asks i ∧ ∀ r, C.answers i r → Meets C (k r) Q

variable {C : Contract ρ} {m : Dialogue ρ α} {f : α → Dialogue ρ β} {P Q : α → Prop}

theorem Meets.mono (h : Meets C m P) (hPQ : ∀ a, P a → Q a) : Meets C m Q := by
  induction m with
  | done a => exact hPQ a h
  | ask i k ih => exact ⟨h.1,fun r hr => ih r (h.2 r hr)⟩

theorem Meets.bind {R : β → Prop} (h : Meets C m P) (hf : ∀ a, P a → Meets C (f a) R) :
    Meets C (m.bind f) R := by
  induction m with
  | done a => exact hf a h
  | ask i k ih => exact ⟨h.1,fun r hr => ih r (h.2 r hr)⟩

/-- The end of a program whose questions all have a fixed answer. -/
def Dialogue.answered (reply : (i : ι) → ρ i) : Dialogue ρ α → α
  | .done a => a
  | .ask i k => (k (reply i)).answered reply

theorem Meets.answered {reply : (i : ι) → ρ i} (h : Meets C m Q)
    (hreply : ∀ i, C.asks i → C.answers i (reply i)) : Q (m.answered reply) := by
  induction m with
  | done a => exact h
  | ask i k ih => exact ih (reply i) (h.2 (reply i) (hreply i h.1))

end Dialogues

/-! ## Failure and local state -/

/-- What is left of the local state after a failure is kept. -/
def Task {ι : Type} (ρ : ι → Type) (ε σ α : Type) : Type := σ → Dialogue ρ (Except ε α × σ)

section Tasks

variable {ι : Type} {ρ : ι → Type} {ε σ α β : Type}

instance : Monad (Task ρ ε σ) where
  pure a := fun s => .done (.ok a,s)
  bind m f := fun s => (m s).bind fun r =>
    match r.1 with
    | .ok a => f a r.2
    | .error e => .done (.error e,r.2)

def call (i : ι) : Task ρ ε σ (ρ i) := fun s => .ask i fun r => .done (.ok r,s)

def fail (e : ε) : Task ρ ε σ α := fun s => .done (.error e,s)

def lift (x : Except ε α) : Task ρ ε σ α := fun s => .done (x,s)

def state : Task ρ ε σ σ := fun s => .done (.ok s,s)

def update (f : σ → Except ε Unit × σ) : Task ρ ε σ Unit := fun s => .done (f s)

/-- The cleanup runs after `m` in every case; a failure of the cleanup itself is dropped. -/
def ensuring (m : Task ρ ε σ α) (cleanup : Task ρ ε σ Unit) : Task ρ ε σ α := fun s =>
  (m s).bind fun r => (cleanup r.2).bind fun c => .done (r.1,c.2)

/-- If the task returns a value, then `Q` holds of it and of the local state. -/
def Ensures (C : Contract ρ) (m : Task ρ ε σ α) (s : σ) (Q : α → σ → Prop) : Prop :=
  Meets C (m s) fun r => ∀ a, r.1 = .ok a → Q a r.2

variable {C : Contract ρ} {m : Task ρ ε σ α} {f : α → Task ρ ε σ β} {s : σ} {P Q : α → σ → Prop}

theorem Ensures.mono (h : Ensures C m s P) (hPQ : ∀ a t, P a t → Q a t) : Ensures C m s Q :=
  Meets.mono h fun _ hr a ha => hPQ a _ (hr a ha)

theorem ensures_pure {a : α} (h : Q a s) : Ensures C (pure a : Task ρ ε σ α) s Q := by
  rintro _ ⟨⟩
  exact h

variable {R : β → σ → Prop} {i : ι}

theorem Ensures.bind (h : Ensures C m s P) (hf : ∀ a t, P a t → Ensures C (f a) t R) :
    Ensures C (m >>= f) s R := by
  refine Meets.bind h fun r hr => ?_
  obtain ⟨x,t⟩ := r
  cases x with
  | ok a => exact hf a t (hr a rfl)
  | error e => exact fun _ h => nomatch h

theorem ensures_call {Q : ρ i → σ → Prop} (hi : C.asks i) (h : ∀ r, C.answers i r → Q r s) :
    Ensures C (call i : Task ρ ε σ (ρ i)) s Q :=
  ⟨hi,fun r hr a ha => by cases ha; exact h r hr⟩

@[simp] theorem ensures_fail {e : ε} : Ensures C (fail e : Task ρ ε σ α) s Q :=
  fun _ h => nomatch h

theorem ensures_lift {x : Except ε α} (h : ∀ a, x = .ok a → Q a s) :
    Ensures C (lift x : Task ρ ε σ α) s Q := h

theorem ensures_update {g : σ → Except ε Unit × σ} {Q : Unit → σ → Prop}
    (h : (g s).1 = .ok () → Q () (g s).2) : Ensures C (update g : Task ρ ε σ Unit) s Q :=
  fun _ ha => h ha

/-- A question leaves the local state as it is. -/
theorem ensures_call_bind {g : ρ i → Task ρ ε σ β} (hi : C.asks i)
    (h : ∀ r, C.answers i r → Ensures C (g r) s R) :
    Ensures C ((call i : Task ρ ε σ (ρ i)) >>= g) s R :=
  ⟨hi,fun r hr => h r hr⟩

theorem ensures_state_bind {g : σ → Task ρ ε σ β} (h : Ensures C (g s) s R) :
    Ensures C ((state : Task ρ ε σ σ) >>= g) s R := h

theorem Ensures.ensuring {cleanup : Task ρ ε σ Unit} (h : Ensures C m s Q)
    (hc : ∀ t, Meets C (cleanup t) fun c => c.2 = t) :
    Ensures C (Dialogues.ensuring m cleanup) s Q :=
  Meets.bind h fun r hr => Meets.bind (hc r.2) fun _ hc a ha => hc ▸ hr a ha

/-- If the task returns a value then `Q` holds of it and of the local state, and if it fails then
`E` holds of the error. -/
def Settles (C : Contract ρ) (m : Task ρ ε σ α) (s : σ) (Q : α → σ → Prop) (E : ε → Prop) : Prop :=
  Meets C (m s) fun r => (∀ a, r.1 = .ok a → Q a r.2) ∧ ∀ e, r.1 = .error e → E e

variable {E : ε → Prop}

theorem Settles.mono {E' : ε → Prop} (h : Settles C m s P E) (hQ : ∀ a t, P a t → Q a t)
    (hE : ∀ e, E e → E' e) : Settles C m s Q E' :=
  Meets.mono h fun _ hr => ⟨fun a ha => hQ a _ (hr.1 a ha),fun e he => hE e (hr.2 e he)⟩

theorem Settles.bind (h : Settles C m s P E) (hf : ∀ a t, P a t → Settles C (f a) t R E) :
    Settles C (m >>= f) s R E := by
  refine Meets.bind h fun r hr => ?_
  obtain ⟨x,t⟩ := r
  cases x with
  | ok a => exact hf a t (hr.1 a rfl)
  | error e => exact ⟨nofun,fun e' he => by cases he; exact hr.2 e rfl⟩

theorem settles_pure {a : α} (h : Q a s) : Settles C (pure a : Task ρ ε σ α) s Q E :=
  ⟨fun a' ha => by cases ha; exact h,nofun⟩

theorem settles_fail {e : ε} (h : E e) : Settles C (fail e : Task ρ ε σ α) s Q E :=
  ⟨nofun,fun e' he => by cases he; exact h⟩

theorem settles_lift {x : Except ε α} (hok : ∀ a, x = .ok a → Q a s) (herr : ∀ e, x = .error e → E e) :
    Settles C (lift x : Task ρ ε σ α) s Q E := ⟨hok,herr⟩

theorem settles_update {g : σ → Except ε Unit × σ} {Q : Unit → σ → Prop}
    (hok : (g s).1 = .ok () → Q () (g s).2) (herr : ∀ e, (g s).1 = .error e → E e) :
    Settles C (update g : Task ρ ε σ Unit) s Q E := ⟨fun _ ha => hok ha,herr⟩

theorem settles_state_bind {g : σ → Task ρ ε σ β} (h : Settles C (g s) s R E) :
    Settles C ((state : Task ρ ε σ σ) >>= g) s R E := h

theorem settles_call {Q : ρ i → σ → Prop} (hi : C.asks i) (h : ∀ r, C.answers i r → Q r s) :
    Settles C (call i : Task ρ ε σ (ρ i)) s Q E :=
  ⟨hi,fun r hr => ⟨fun a ha => by cases ha; exact h r hr,nofun⟩⟩

theorem settles_call_bind {g : ρ i → Task ρ ε σ β} (hi : C.asks i)
    (h : ∀ r, C.answers i r → Settles C (g r) s R E) :
    Settles C ((call i : Task ρ ε σ (ρ i)) >>= g) s R E :=
  ⟨hi,fun r hr => h r hr⟩

end Tasks

end Scorpio.Dialogues
