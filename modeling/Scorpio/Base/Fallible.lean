import Mathlib

/-!
# Fallible steps

Inversion and invariant rules for programs in `Except`. A successful run is
taken apart with `bind_ok`; a successful loop carries an invariant from its
start to its end.
-/

set_option autoImplicit false

namespace Scorpio.Fallible

section Except

universe u

variable {ε : Type*} {α β σ : Type u}

variable {x : Except ε α} {a : α} {e : ε} {s : σ}

theorem bind_ok {f : α → Except ε β} {b : β} :
    (x >>= f) = .ok b ↔ ∃ a, x = .ok a ∧ f a = .ok b := by
  cases x with
  | error e => simp [bind, Except.bind]
  | ok a => simp [bind, Except.bind]

@[simp] theorem ok_bind (a : α) (f : α → Except ε β) : (Except.ok a >>= f) = f a := rfl

@[simp] theorem error_bind (e : ε) (f : α → Except ε β) : (Except.error e >>= f) = .error e := rfl

@[simp] theorem pure_ok {b : α} : (pure a : Except ε α) = .ok b ↔ a = b := by
  simp [pure, Except.pure]

/-- The early return `if … { return Err(…) }`. -/
def require (b : Bool) (e : ε) : Except ε Unit := if b then .ok () else .error e

@[simp] theorem require_ok {b : Bool} {u : Unit} : require b e = .ok u ↔ b = true := by
  cases b <;> simp [require]

/-- `ok_or_else` on an option. -/
def okOr (o : Option α) (e : ε) : Except ε α := o.elim (.error e) .ok

@[simp] theorem ok_or_ok {o : Option α} : okOr o e = .ok a ↔ o = some a := by
  cases o <;> simp [okOr]

theorem map_error_ok {ε' : Type*} {f : ε → ε'} :
    x.mapError f = .ok a ↔ x = .ok a := by
  cases x <;> simp [Except.mapError]

theorem map_ok {f : α → β} {b : β} :
    x.map f = .ok b ↔ ∃ a, x = .ok a ∧ f a = b := by
  cases x <;> simp [Except.map]

theorem to_option_ok : x.toOption = some a ↔ x = .ok a := by
  cases x <;> simp [Except.toOption]

/-- A loop that succeeds preserves what each of its successful steps preserves. -/
theorem foldlM_invariant (step : σ → α → Except ε σ) (I : σ → List α → Prop)
    (hstep : ∀ s x rest s', I s (x :: rest) → step s x = .ok s' → I s' rest) (xs : List α)
    {s' : σ} (h0 : I s xs) (hrun : xs.foldlM step s = .ok s') : I s' [] := by
  induction xs generalizing s with
  | nil =>
    rw [List.foldlM_nil, pure_ok] at hrun
    exact hrun ▸ h0
  | cons x xs ih =>
    rw [List.foldlM_cons] at hrun
    obtain ⟨t,ht,hrest⟩ := bind_ok.mp hrun
    exact ih (hstep s x xs t h0 ht) hrest

/-- What each successful step establishes for its element, and keeps for the others, holds for
every element at the end. -/
theorem foldlM_each (step : σ → α → Except ε σ) (I : σ → List α → Prop) (P : α → σ → Prop)
    (hstep : ∀ s x rest s', I s (x :: rest) → step s x = .ok s' →
      I s' rest ∧ P x s' ∧ ∀ y, P y s → P y s') (xs : List α) {s' : σ} (h0 : I s xs)
    (hrun : xs.foldlM step s = .ok s') :
    I s' [] ∧ (∀ x ∈ xs, P x s') ∧ ∀ y, P y s → P y s' := by
  induction xs generalizing s with
  | nil =>
    rw [List.foldlM_nil, pure_ok] at hrun
    subst hrun
    exact ⟨h0,by simp,fun _ h => h⟩
  | cons x xs ih =>
    rw [List.foldlM_cons] at hrun
    obtain ⟨t,ht,hrest⟩ := bind_ok.mp hrun
    obtain ⟨hI,hx,hkeep⟩ := hstep s x xs t h0 ht
    obtain ⟨hend,hall,hkeep'⟩ := ih hI hrest
    refine ⟨hend,fun y hy => ?_,fun y hy => hkeep' y (hkeep y hy)⟩
    rcases List.mem_cons.mp hy with rfl | hy
    · exact hkeep' y hx
    · exact hall y hy

/-- A fold succeeds when every step from a state with the invariant does. -/
theorem foldlM_total (step : σ → α → Except ε σ) (I : σ → List α → Prop)
    (hstep : ∀ s x rest, I s (x :: rest) → ∃ s', step s x = .ok s' ∧ I s' rest) (xs : List α)
    (h0 : I s xs) : ∃ s', xs.foldlM step s = .ok s' ∧ I s' [] := by
  induction xs generalizing s with
  | nil => exact ⟨s,rfl,h0⟩
  | cons x xs ih =>
    obtain ⟨s₁,hs₁,h₁⟩ := hstep s x xs h0
    obtain ⟨s',hs',h'⟩ := ih h₁
    exact ⟨s',by rw [List.foldlM_cons, hs₁, ok_bind, hs'],h'⟩

/-- A loop of checks passes when each of them does. -/
theorem forM_ok {ε : Type*} {α : Type*} {f : α → Except ε Unit} {xs : List α} {u : Unit} :
    xs.forM f = .ok u ↔ ∀ x ∈ xs, f x = .ok () := by
  induction xs with
  | nil => simp [pure, Except.pure]
  | cons x xs ih =>
    rw [List.forM, List.forall_mem_cons, ← ih, bind_ok]
    exact ⟨fun ⟨_,hx,hxs⟩ => ⟨hx,hxs⟩,fun ⟨hx,hxs⟩ => ⟨(),hx,hxs⟩⟩

/-! ### Errors -/

/-- If the program fails, then with an error that satisfies `P`. -/
def ErrorsIn (P : ε → Prop) (x : Except ε α) : Prop := ∀ e, x = .error e → P e

variable {P : ε → Prop}

theorem errors_ok (a : α) : ErrorsIn P (.ok a : Except ε α) := nofun

theorem errors_error (h : P e) : ErrorsIn P (.error e : Except ε α) := by
  rintro _ ⟨⟩
  exact h

theorem ErrorsIn.bind {f : α → Except ε β} (h : ErrorsIn P x)
    (hf : ∀ a, x = .ok a → ErrorsIn P (f a)) : ErrorsIn P (x >>= f) := by
  cases x with
  | error e => exact errors_error (h e rfl)
  | ok a => exact hf a rfl

theorem errors_require {b : Bool} (h : P e) : ErrorsIn P (require b e) := by
  cases b
  · exact errors_error h
  · exact errors_ok ()

theorem errors_ok_or {o : Option α} (h : P e) : ErrorsIn P (okOr o e) := by
  cases o
  · exact errors_error h
  · exact errors_ok _

theorem errors_map_error {ε' : Type*} {f : ε' → ε} {x : Except ε' α} (h : ∀ e, P (f e)) :
    ErrorsIn P (x.mapError f) := by
  cases x with
  | error e => exact errors_error (h e)
  | ok a => exact errors_ok a

theorem errors_foldlM {step : σ → α → Except ε σ} (h : ∀ s x, ErrorsIn P (step s x)) (xs : List α)
    (s : σ) : ErrorsIn P (xs.foldlM step s) := by
  induction xs generalizing s with
  | nil => exact errors_ok s
  | cons x xs ih =>
    rw [List.foldlM_cons]
    exact (h s x).bind fun t _ => ih t

end Except

end Scorpio.Fallible
