import Scorpio.Base.Fallible

/-!
# Two runs side by side

Two programs in `Except` run from related states. Whenever the first succeeds,
the second succeeds with a related result, or fails where it is allowed to.
With failure allowed this compares two successful runs; with failure forbidden
it says that the second run follows the first.
-/

set_option autoImplicit false

namespace Scorpio.TwoRuns

open Fallible

section Rules

universe u

variable {ε : Type*} {α β γ δ : Type u} {mayFail : Prop}

/-- What a successful first run says about the second. -/
def Coupled (mayFail : Prop) (R : α → β → Prop) (x : Except ε α) (y : Except ε β) : Prop :=
  ∀ a, x = .ok a → (∃ b, y = .ok b ∧ R a b) ∨ (mayFail ∧ ∃ e, y = .error e)

variable {R : α → β → Prop} {S : γ → δ → Prop}

variable {a : α} {x : Except ε α} {y : Except ε β}

theorem coupled_ok {b : β} (h : R a b) :
    Coupled mayFail R (.ok a : Except ε α) (.ok b) := by
  rintro _ ⟨⟩
  exact .inl ⟨b,rfl,h⟩

theorem coupled_error (e : ε) (y : Except ε β) : Coupled mayFail R (.error e) y := nofun

/-- A second run that may fail is only compared when it succeeds. -/
theorem coupled_of_ok (hp : mayFail) (h : ∀ a b, x = .ok a → y = .ok b → R a b) :
    Coupled mayFail R x y := by
  intro a ha
  cases hy : y with
  | error e => exact .inr ⟨hp,e,rfl⟩
  | ok b => exact .inl ⟨b,rfl,h a b ha hy⟩

theorem Coupled.bind {f : α → Except ε γ} {g : β → Except ε δ} (h : Coupled mayFail R x y)
    (hf : ∀ a b, R a b → Coupled mayFail S (f a) (g b)) :
    Coupled mayFail S (x >>= f) (y >>= g) := by
  intro c hc
  obtain ⟨a,ha,hc⟩ := bind_ok.mp hc
  rcases h a ha with ⟨b,hb,hr⟩ | ⟨hp,e,he⟩
  · rw [hb, ok_bind]
    exact hf a b hr c hc
  · rw [he, error_bind]
    exact .inr ⟨hp,e,rfl⟩

/-- The same computation on both sides. -/
theorem coupled_same (x : Except ε α) : Coupled mayFail (fun a b => a = b) x x :=
  fun a ha => .inl ⟨a,ha,rfl⟩

theorem coupled_require {b b' : Bool} {e e' : ε} (h : b = true → mayFail ∨ b' = true) :
    Coupled mayFail (fun _ _ => True) (require b e) (require b' e') := by
  rintro ⟨⟩ ha
  cases b' with
  | true => exact .inl ⟨(),rfl,trivial⟩
  | false => exact .inr ⟨(h (require_ok.mp ha)).resolve_right nofun,e',rfl⟩

theorem coupled_ok_or {o : Option α} {o' : Option β} {e e' : ε}
    (h : ∀ a, o = some a → (∃ b, o' = some b ∧ R a b) ∨ (mayFail ∧ o' = none)) :
    Coupled mayFail R (okOr o e) (okOr o' e') := by
  intro a ha
  rcases h a (ok_or_ok.mp ha) with ⟨b,rfl,hr⟩ | ⟨hp,rfl⟩
  · exact .inl ⟨b,rfl,hr⟩
  · exact .inr ⟨hp,e',rfl⟩

/-- Loops over one list whose steps are coupled. -/
theorem coupled_foldlM {σ τ : Type u} {T : σ → τ → Prop} {f : σ → α → Except ε σ}
    {g : τ → α → Except ε τ} (xs : List α)
    (hstep : ∀ s t, ∀ x ∈ xs, T s t → Coupled mayFail T (f s x) (g t x)) {s : σ} {t : τ}
    (h : T s t) : Coupled mayFail T (xs.foldlM f s) (xs.foldlM g t) := by
  induction xs generalizing s t with
  | nil => exact coupled_ok h
  | cons x xs ih =>
    rw [List.foldlM_cons, List.foldlM_cons]
    refine (hstep s t x List.mem_cons_self h).bind fun s' t' h' => ?_
    exact ih (fun s t y hy => hstep s t y (List.mem_cons_of_mem _ hy)) h'

/-- Two successful runs are related. -/
theorem Coupled.both (h : Coupled mayFail R x y) {b : β} (hx : x = .ok a) (hy : y = .ok b) :
    R a b := by
  rcases h a hx with ⟨b',hb',hr⟩ | ⟨_,e,he⟩
  · rw [hy] at hb'
    cases hb'
    exact hr
  · rw [hy] at he
    cases he

/-- A second run that may not fail follows the first. -/
theorem Coupled.follow (h : Coupled False R x y) (hx : x = .ok a) : ∃ b, y = .ok b ∧ R a b :=
  (h a hx).resolve_right fun hfail => hfail.1

/-! ## The same outcome -/

/-- Both runs succeed with related results, or both fail in the same way. -/
def Matched (R : α → β → Prop) : Except ε α → Except ε β → Prop
  | .ok a, .ok b => R a b
  | .error e, .error e' => e = e'
  | _, _ => False

theorem matched_same (x : Except ε α) : Matched Eq x x := by
  cases x with
  | error e => rfl
  | ok a => rfl

theorem eq_of_matched {y : Except ε α} (h : Matched Eq x y) : x = y := by
  cases x <;> cases y
  · exact congrArg Except.error h
  · exact h.elim
  · exact h.elim
  · exact congrArg Except.ok h

theorem Matched.bind {f : α → Except ε γ} {g : β → Except ε δ} (h : Matched R x y)
    (hf : ∀ a b, R a b → Matched S (f a) (g b)) :
    Matched S (x >>= f) (y >>= g) := by
  cases x with
  | error e =>
    cases y with
    | error e' => exact h
    | ok b => exact h.elim
  | ok a =>
    cases y with
    | error e' => exact h.elim
    | ok b => exact hf a b h

end Rules

end Scorpio.TwoRuns
