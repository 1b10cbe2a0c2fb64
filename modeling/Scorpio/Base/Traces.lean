import Mathlib

/-!
# Traces of a guarded machine

A machine refuses an event or moves to its next state. The traces it accepts are
the interleavings of its actors, so a property of every interleaving is a property
of every trace. An invariant may speak of the events so far; what holds after one
event and is kept by every other excludes events from the rest of the trace.
-/

set_option autoImplicit false

namespace Scorpio.Traces

/-- The next state of an event that is refused unless its condition holds. -/
def guarded {σ : Type*} (c : Prop) [Decidable c] (s : σ) : Option σ := if c then some s else none

@[simp] theorem guarded_eq_some {σ : Type*} {c : Prop} [Decidable c] {s t : σ} :
    guarded c s = some t ↔ c ∧ s = t := by
  simp [guarded]

variable {σ ε : Type*} (step : σ → ε → Option σ)

def run : σ → List ε → Option σ
  | s, [] => some s
  | s, e :: es => (step s e).bind fun s' => run s' es

variable {step} {s t : σ} {e : ε} {es fs : List ε}

theorem run_cons : run step s (e :: es) = some t ↔
    ∃ u, step s e = some u ∧ run step u es = some t := Option.bind_eq_some_iff

theorem run_singleton : run step s [e] = step s e := Option.bind_fun_some _

theorem run_append : run step s (es ++ fs) = some t ↔
    ∃ u, run step s es = some u ∧ run step u fs = some t := by
  induction es generalizing s with
  | nil => simp [run]
  | cons e es ih =>
    simp only [List.cons_append, run_cons, ih]
    constructor
    · rintro ⟨u,hu,v,hv,ht⟩
      exact ⟨v,⟨u,hu,hv⟩,ht⟩
    · rintro ⟨v,⟨u,hu,hv⟩,ht⟩
      exact ⟨u,hu,v,hv,ht⟩

/-- The states around one event of an accepted trace. -/
theorem run_split (h : run step s (es ++ e :: fs) = some t) :
    ∃ u v, run step s es = some u ∧ step u e = some v ∧ run step v fs = some t := by
  obtain ⟨u,hu,hrest⟩ := run_append.mp h
  obtain ⟨v,hv,ht⟩ := run_cons.mp hrest
  exact ⟨u,v,hu,hv,ht⟩

/-- An invariant of the state and of the events that led to it. -/
theorem run_history (I : List ε → σ → Prop) (h0 : I [] s)
    (hstep : ∀ past u e v, I past u → step u e = some v → I (past ++ [e]) v)
    (h : run step s es = some t) : I es t := by
  have hgen : ∀ es past u, I past u → run step u es = some t → I (past ++ es) t := by
    intro es
    induction es with
    | nil =>
      intro past u hu hrun
      cases hrun
      simpa using hu
    | cons e es ih =>
      intro past u hu hrun
      obtain ⟨v,hv,hrest⟩ := run_cons.mp hrun
      simpa using ih _ v (hstep past u e v hu hv) hrest
  simpa using hgen es [] s h0 h

theorem run_invariant (I : σ → Prop) (h0 : I s) (hstep : ∀ u e v, I u → step u e = some v → I v)
    (h : run step s es = some t) : I t :=
  run_history (fun _ => I) h0 (fun _ u e v => hstep u e v) h

/-- What is kept by every event and refuses some of them is never followed by one of those. -/
theorem never_after (I : σ → Prop) (Q : ε → Prop) (h0 : I s)
    (hstep : ∀ u e v, I u → step u e = some v → I v ∧ ¬ Q e)
    (h : run step s es = some t) : ∀ e ∈ es, ¬ Q e := by
  induction es generalizing s with
  | nil => simp
  | cons e es ih =>
    obtain ⟨u,hu,hrest⟩ := run_cons.mp h
    obtain ⟨hI,hQ⟩ := hstep s e u h0 hu
    intro e' he'
    rcases List.mem_cons.mp he' with rfl | he'
    · exact hQ
    · exact ih hI hrest e' he'

end Scorpio.Traces
