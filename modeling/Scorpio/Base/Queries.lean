import Mathlib

/-!
# Programs that only look

A query reads a fixed state and draws numbered outside events, such as clock
readings and failures. It cannot change the state, so what it has found stays
true while it goes on. `Answers` and `Refuses` say what a query can report in
some course of the outside events, `Always` what it reports in every course.
-/

set_option autoImplicit false

namespace Scorpio.Queries

def Query (δ ε α : Type) : Type := δ → ℕ → Except ε α × ℕ

section Rules

variable {δ ε α β : Type}

def Query.next (r : Except ε α × ℕ) (f : α → Query δ ε β) (d : δ) : Except ε β × ℕ :=
  match r.1 with
  | .ok a => f a d r.2
  | .error e => (.error e,r.2)

instance : Monad (Query δ ε) where
  pure a := fun _ n => (.ok a,n)
  bind m f := fun d n => Query.next (m d n) f d

/-- A computation that does not look at the state. -/
def lift (x : Except ε α) : Query δ ε α := fun _ n => (x,n)

def Answers (m : Query δ ε α) (d : δ) (a : α) : Prop := ∃ n, (m d n).1 = .ok a

variable {m : Query δ ε α} {f : α → Query δ ε β} {d : δ} {a : α} {b : β} {e : ε}

theorem bind_run (n : ℕ) : (m >>= f) d n = Query.next (m d n) f d := rfl

theorem answers_bind (h : Answers (m >>= f) d b) : ∃ a, Answers m d a ∧ Answers (f a) d b := by
  obtain ⟨n,h⟩ := h
  rw [bind_run, Query.next] at h
  cases hm : (m d n).1 with
  | error e =>
    rw [hm] at h
    cases h
  | ok a =>
    rw [hm] at h
    exact ⟨a,⟨n,hm⟩,⟨_,h⟩⟩

@[simp] theorem answers_pure {a' : α} : Answers (pure a : Query δ ε α) d a' ↔ a = a' := by
  refine ⟨fun ⟨_,h⟩ => Except.ok.inj h,?_⟩
  rintro rfl
  exact ⟨0,rfl⟩

@[simp] theorem answers_lift {x : Except ε α} :
    Answers (lift x : Query δ ε α) d a ↔ x = .ok a := ⟨fun ⟨_,h⟩ => h,fun h => ⟨0,h⟩⟩

end Rules

section Loops

variable {δ ε α σ : Type} {d : δ} {step : σ → α → Query δ ε σ}

/-- A loop that answers preserves what each of its answering steps preserves. -/
theorem foldlM_invariant (I : σ → List α → Prop)
    (hstep : ∀ s x rest s', I s (x :: rest) → Answers (step s x) d s' → I s' rest) (xs : List α)
    {s s' : σ} (h0 : I s xs) (hrun : Answers (xs.foldlM step s) d s') : I s' [] := by
  induction xs generalizing s with
  | nil =>
    rw [List.foldlM_nil, answers_pure] at hrun
    exact hrun ▸ h0
  | cons x xs ih =>
    rw [List.foldlM_cons] at hrun
    obtain ⟨t,ht,hrest⟩ := answers_bind hrun
    exact ih (hstep s x xs t h0 ht) hrest

end Loops

end Scorpio.Queries
