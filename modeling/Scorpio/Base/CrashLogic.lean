import Mathlib

/-!
# Programs that can be cut

A program on a state returns or fails, and it may be cut at every state that it
passes through. Three relations say what a run does: the states it passes, the
value and state it returns with, and the error and state it fails with. Each of
them is taken apart along sequencing. A preorder on states that every part of a
program moves along holds between its start and every state where it is cut.
-/

set_option autoImplicit false

namespace Scorpio.CrashLogic

/-- One run: the states passed through, the last state, and the result. -/
structure Ran (σ ε α : Type) where
  visited : List σ
  last : σ
  result : Except ε α

def Prog (σ ε α : Type) : Type := σ → Ran σ ε α

section Programs

variable {σ ε α β : Type}

def Ran.next (r : Ran σ ε α) (f : α → Prog σ ε β) : Ran σ ε β :=
  match r.result with
  | .error e => ⟨r.visited,r.last,.error e⟩
  | .ok a => ⟨r.visited ++ (f a r.last).visited,(f a r.last).last,(f a r.last).result⟩

instance : Monad (Prog σ ε) where
  pure a := fun s => ⟨[],s,.ok a⟩
  bind m f := fun s => (m s).next f

/-- A computation that does not touch the state. -/
def lift (x : Except ε α) : Prog σ ε α := fun s => ⟨[],s,x⟩

/-- A computation that reads the state. -/
def ask (f : σ → Except ε α) : Prog σ ε α := fun s => ⟨[],s,f s⟩

/-- The result of a program as a value; what was done stays done. -/
def attempt (m : Prog σ ε α) : Prog σ ε (Except ε α) := fun s =>
  ⟨(m s).visited,(m s).last,.ok (m s).result⟩

/-- `cleanup` runs only after `m` has failed. -/
def onError (m : Prog σ ε α) (cleanup : Prog σ ε Unit) : Prog σ ε α := do
  let result ← attempt m
  match result with
  | .ok a => pure a
  | .error e => do
    let _ ← attempt cleanup
    lift (.error e)

/-! ## What a run does -/

/-- The program may be cut in this state. -/
def Passes (m : Prog σ ε α) (s t : σ) : Prop := t ∈ (m s).visited ∨ t = (m s).last

def Returns (m : Prog σ ε α) (s : σ) (a : α) (t : σ) : Prop :=
  (m s).result = .ok a ∧ (m s).last = t

def Fails (m : Prog σ ε α) (s : σ) (e : ε) (t : σ) : Prop :=
  (m s).result = .error e ∧ (m s).last = t

variable {m : Prog σ ε α} {f : α → Prog σ ε β} {s t : σ}

variable {a : α} {e : ε} {x : Except ε α}

theorem Returns.passes (h : Returns m s a t) : Passes m s t := .inr h.2.symm

theorem Fails.passes (h : Fails m s e t) : Passes m s t := .inr h.2.symm

theorem Returns.not_fails {t' : σ} (h : Returns m s a t) : ¬ Fails m s e t' := by
  rintro ⟨hr,_⟩
  rw [h.1] at hr
  cases hr

theorem bind_run : (m >>= f) s = (m s).next f := rfl

theorem returns_bind {b : β} : Returns (m >>= f) s b t ↔
    ∃ a u, Returns m s a u ∧ Returns (f a) u b t := by
  unfold Returns
  rw [bind_run, Ran.next]
  cases h : (m s).result with
  | error e => simp
  | ok a => simp

theorem fails_bind : Fails (m >>= f) s e t ↔
    Fails m s e t ∨ ∃ a u, Returns m s a u ∧ Fails (f a) u e t := by
  unfold Fails Returns
  rw [bind_run, Ran.next]
  cases h : (m s).result with
  | error e => simp
  | ok a => simp

theorem passes_bind (h : Passes (m >>= f) s t) :
    Passes m s t ∨ ∃ a u, Returns m s a u ∧ Passes (f a) u t := by
  unfold Passes at h
  rw [bind_run, Ran.next] at h
  cases hr : (m s).result with
  | error e =>
    rw [hr] at h
    exact .inl h
  | ok a =>
    rw [hr] at h
    rcases h with h | h
    · rcases List.mem_append.mp h with h | h
      · exact .inl (.inl h)
      · exact .inr ⟨a,_,⟨hr,rfl⟩,.inl h⟩
    · exact .inr ⟨a,_,⟨hr,rfl⟩,.inr h⟩

@[simp] theorem returns_pure {b : α} :
    Returns (pure a : Prog σ ε α) s b t ↔ a = b ∧ s = t := by
  change Except.ok a = Except.ok b ∧ s = t ↔ _
  simp

@[simp] theorem passes_pure : Passes (pure a : Prog σ ε α) s t ↔ t = s := by
  change t ∈ [] ∨ t = s ↔ _
  simp

@[simp] theorem returns_lift :
    Returns (lift x : Prog σ ε α) s a t ↔ x = .ok a ∧ s = t := Iff.rfl

@[simp] theorem fails_lift :
    Fails (lift x : Prog σ ε α) s e t ↔ x = .error e ∧ s = t := Iff.rfl

@[simp] theorem passes_lift : Passes (lift x : Prog σ ε α) s t ↔ t = s := by
  simp [Passes, lift]

@[simp] theorem returns_ask {g : σ → Except ε α} :
    Returns (ask g) s a t ↔ g s = .ok a ∧ s = t := Iff.rfl

@[simp] theorem passes_ask {g : σ → Except ε α} : Passes (ask g) s t ↔ t = s := by
  simp [Passes, ask]

theorem returns_attempt {r : Except ε α} :
    Returns (attempt m) s r t ↔ (m s).result = r ∧ (m s).last = t := by
  simp [Returns, attempt]

@[simp] theorem not_fails_attempt : ¬ Fails (attempt m) s e t := by
  simp [Fails, attempt]

end Programs

/-! ## Moving along a preorder -/

section Moves

variable {σ ε α β : Type} (R : σ → σ → Prop)

/-- Wherever the program is cut, it has moved along `R`. -/
def Moves (m : Prog σ ε α) : Prop := ∀ s t, Passes m s t → R s t

variable {R} {m : Prog σ ε α} {f : α → Prog σ ε β}

theorem moves_pure [Std.Refl R] (a : α) : Moves R (pure a : Prog σ ε α) := by
  intro s t h
  rw [passes_pure.mp h]
  exact refl_of R s

theorem moves_lift [Std.Refl R] (x : Except ε α) : Moves R (lift x : Prog σ ε α) := by
  intro s t h
  rw [passes_lift.mp h]
  exact refl_of R s

theorem moves_bind [IsTrans σ R] (hm : Moves R m) (hf : ∀ a, Moves R (f a)) : Moves R (m >>= f) := by
  intro s t h
  rcases passes_bind h with h | ⟨a,u,hu,h⟩
  · exact hm s t h
  · exact trans_of R (hm s u hu.passes) (hf a u t h)

theorem moves_on_error [Std.Refl R] [IsTrans σ R] {cleanup : Prog σ ε Unit}
    (hm : Moves R m) (hc : Moves R cleanup) :
    Moves R (onError m cleanup) := by
  refine moves_bind hm fun r => ?_
  cases r with
  | ok a => exact moves_pure a
  | error e => exact moves_bind hc fun _ => moves_lift _

end Moves

/-! ## Triples with a crash condition -/

section Triples

variable {σ ε α β : Type}

/-- Started in `P`, the program returns in `Q`, and wherever it is cut `C` holds. -/
def Triple (P : σ → Prop) (m : Prog σ ε α) (Q : α → σ → Prop) (C : σ → Prop) : Prop :=
  ∀ s, P s → (∀ a t, Returns m s a t → Q a t) ∧ ∀ t, Passes m s t → C t

/-- `P` holds wherever the program is cut, and when it returns. -/
abbrev Keeps (P : σ → Prop) (m : Prog σ ε α) : Prop := Triple P m (fun _ => P) P

variable {P P' : σ → Prop} {Q Q' : α → σ → Prop} {C : σ → Prop} {m : Prog σ ε α}

theorem triple_bind {f : α → Prog σ ε β} {Q' : β → σ → Prop} (hm : Triple P m Q C)
    (hf : ∀ a, Triple (Q a) (f a) Q' C) : Triple P (m >>= f) Q' C := by
  intro s hs
  obtain ⟨hreturns,hpasses⟩ := hm s hs
  constructor
  · intro b t h
    obtain ⟨a,u,hu,h⟩ := returns_bind.mp h
    exact (hf a u (hreturns a u hu)).1 b t h
  · intro t h
    rcases passes_bind h with h | ⟨a,u,hu,h⟩
    · exact hpasses t h
    · exact (hf a u (hreturns a u hu)).2 t h

theorem triple_mono (hm : Triple P m Q C) (hP : ∀ s, P' s → P s) (hQ : ∀ a t, Q a t → Q' a t) :
    Triple P' m Q' C := by
  intro s hs
  obtain ⟨hreturns,hpasses⟩ := hm s (hP s hs)
  exact ⟨fun a t h => hQ a t (hreturns a t h),hpasses⟩

theorem triple_pure {a : α} (hQ : ∀ s, P s → Q a s) (hC : ∀ s, P s → C s) :
    Triple P (pure a : Prog σ ε α) Q C := by
  intro s hs
  constructor
  · intro b t h
    obtain ⟨rfl,rfl⟩ := returns_pure.mp h
    exact hQ s hs
  · intro t h
    rw [passes_pure.mp h]
    exact hC s hs

theorem pure_kept {a : α} (hC : ∀ s, P s → C s) : Triple P (pure a : Prog σ ε α) (fun _ => P) C :=
  triple_pure (fun _ hs => hs) hC

theorem triple_lift {x : Except ε α} (hQ : ∀ a s, x = .ok a → P s → Q a s)
    (hC : ∀ s, P s → C s) : Triple P (lift x : Prog σ ε α) Q C := by
  intro s hs
  constructor
  · rintro a t ⟨hx,rfl⟩
    exact hQ a s hx hs
  · intro t h
    rw [passes_lift.mp h]
    exact hC s hs

/-- After a failure the crash condition is what is known. -/
theorem triple_attempt (hm : Triple P m Q C) :
    Triple P (attempt m) (fun r t => match r with | .ok a => Q a t | .error _ => C t) C := by
  intro s hs
  obtain ⟨hreturns,hpasses⟩ := hm s hs
  refine ⟨fun r t h => ?_,hpasses⟩
  obtain ⟨rfl,rfl⟩ := returns_attempt.mp h
  cases hr : (m s).result with
  | ok a => exact hreturns a _ ⟨hr,rfl⟩
  | error e => exact hpasses _ (.inr rfl)

end Triples

/-! ## Runs that end -/

section Ends

variable {σ ε α β : Type}

/-- Started in `P`, the program ends by itself: it returns in `Q` or fails in `E`. -/
def Ends (P : σ → Prop) (m : Prog σ ε α) (Q : α → σ → Prop) (E : σ → Prop) : Prop :=
  ∀ s, P s → (∀ a t, Returns m s a t → Q a t) ∧ ∀ e t, Fails m s e t → E t

variable {P P' : σ → Prop} {Q Q' : α → σ → Prop} {E : σ → Prop} {m : Prog σ ε α}

theorem ends_bind {f : α → Prog σ ε β} {Q' : β → σ → Prop} (hm : Ends P m Q E)
    (hf : ∀ a, Ends (Q a) (f a) Q' E) : Ends P (m >>= f) Q' E := by
  intro s hs
  obtain ⟨hreturns,hfails⟩ := hm s hs
  constructor
  · intro b t h
    obtain ⟨a,u,hu,h⟩ := returns_bind.mp h
    exact (hf a u (hreturns a u hu)).1 b t h
  · intro e t h
    rcases fails_bind.mp h with h | ⟨a,u,hu,h⟩
    · exact hfails e t h
    · exact (hf a u (hreturns a u hu)).2 e t h

theorem ends_mono (hm : Ends P m Q E) (hP : ∀ s, P' s → P s) (hQ : ∀ a t, Q a t → Q' a t) :
    Ends P' m Q' E := by
  intro s hs
  obtain ⟨hreturns,hfails⟩ := hm s (hP s hs)
  exact ⟨fun a t h => hQ a t (hreturns a t h),hfails⟩

theorem ends_of_triple {C : σ → Prop} (hm : Triple P m Q C) (hC : ∀ s, C s → E s) : Ends P m Q E := by
  intro s hs
  obtain ⟨hreturns,hpasses⟩ := hm s hs
  exact ⟨hreturns,fun e t h => hC t (hpasses t h.passes)⟩

theorem ends_attempt (hm : Ends P m Q E) :
    Ends P (attempt m) (fun r t => match r with | .ok a => Q a t | .error _ => E t) E := by
  intro s hs
  obtain ⟨hreturns,hfails⟩ := hm s hs
  refine ⟨fun r t h => ?_,fun e t h => absurd h not_fails_attempt⟩
  obtain ⟨rfl,rfl⟩ := returns_attempt.mp h
  cases hr : (m s).result with
  | ok a => exact hreturns a _ ⟨hr,rfl⟩
  | error e => exact hfails e _ ⟨hr,rfl⟩

/-- Where a program ends by itself. -/
theorem ends_last (hm : Ends P m (fun _ => E) E) {s : σ} (hs : P s) : E (m s).last := by
  cases hr : (m s).result with
  | ok a => exact (hm s hs).1 a _ ⟨hr,rfl⟩
  | error e => exact (hm s hs).2 e _ ⟨hr,rfl⟩

end Ends

/-! ## Runs that return -/

section Yields

variable {σ ε α β : Type} {s : σ}

/-- The program returns, and `Q` holds of how it does. -/
def Yields (m : Prog σ ε α) (s : σ) (Q : α → σ → Prop) : Prop := ∃ a t, Returns m s a t ∧ Q a t

variable {m : Prog σ ε α} {Q : α → σ → Prop}

theorem yields_bind {f : α → Prog σ ε β} {Q' : β → σ → Prop} (hm : Yields m s Q)
    (hf : ∀ a t, Q a t → Yields (f a) t Q') : Yields (m >>= f) s Q' := by
  obtain ⟨a,t,ht,hQ⟩ := hm
  obtain ⟨b,u,hu,hQ'⟩ := hf a t hQ
  exact ⟨b,u,returns_bind.mpr ⟨a,t,ht,hu⟩,hQ'⟩

theorem yields_pure {a : α} (hQ : Q a s) : Yields (pure a : Prog σ ε α) s Q :=
  ⟨a,s,returns_pure.mpr ⟨rfl,rfl⟩,hQ⟩

theorem yields_lift {x : Except ε α} {a : α} (hx : x = .ok a) (hQ : Q a s) :
    Yields (lift x : Prog σ ε α) s Q := ⟨a,s,returns_lift.mpr ⟨hx,rfl⟩,hQ⟩

theorem yields_attempt (hm : Yields m s Q) :
    Yields (attempt m) s fun r t => ∃ a, r = .ok a ∧ Q a t := by
  obtain ⟨a,t,ht,hQ⟩ := hm
  exact ⟨.ok a,t,returns_attempt.mpr ht,a,rfl,hQ⟩

theorem yields_mono {Q' : α → σ → Prop} (hm : Yields m s Q) (hQ : ∀ a t, Q a t → Q' a t) :
    Yields m s Q' := by
  obtain ⟨a,t,ht,h⟩ := hm
  exact ⟨a,t,ht,hQ a t h⟩

end Yields

end Scorpio.CrashLogic
