import Scorpio.Base.Dialogue

/-!
# Programs over a shared state

Programs that ask operations of one shared state run interleaved, may start at
any time, and may be cut off between two operations. A program is judged alone:
it relies on what others do to the state between its operations, and guarantees
what its own operations do. When every guarantee is within what the others rely
on, the judgement of each program is kept by every step of the whole system.
-/

set_option autoImplicit false

namespace Scorpio.RelyGuarantee

open Dialogues

variable {ι : Type} {ρ : ι → Type} {S ε α β : Type}

/-- What an operation can do to the state, with which answer. An operation that waits has no
effect yet. -/
abbrev Effect (ρ : ι → Type) (S : Type) := (i : ι) → S → ρ i → S → Prop

/-- The terms one program works under. -/
structure Terms (ρ : ι → Type) (S : Type) where
  effect : Effect ρ S
  rely : S → S → Prop
  guarantee : S → S → Prop
  refl : ∀ s, rely s s
  trans : ∀ s s' s'', rely s s' → rely s' s'' → rely s s''

def Safe (T : Terms ρ S) (Q : α → S → Prop) : Dialogue ρ α → S → Prop
  | .done a, s => ∀ s', T.rely s s' → Q a s'
  | .ask i k, s => ∀ s', T.rely s s' → ∀ r s'', T.effect i s' r s'' →
      T.guarantee s' s'' ∧ Safe T Q (k r) s''

/-- What others do cannot spoil the assertion. -/
def Stable (T : Terms ρ S) (P : S → Prop) : Prop := ∀ s s', T.rely s s' → P s → P s'

section Judgement

variable {T : Terms ρ S} {P : S → Prop} {m : Dialogue ρ α} {Q : α → S → Prop} {s s' : S}

theorem Safe.rely (h : Safe T Q m s) (hs : T.rely s s') : Safe T Q m s' := by
  cases m with
  | done a => exact fun s'' h' => h s'' (T.trans s s' s'' hs h')
  | ask i k => exact fun s'' h' => h s'' (T.trans s s' s'' hs h')

theorem Safe.mono {R : α → S → Prop} (h : Safe T Q m s) (hQR : ∀ a s, Q a s → R a s) :
    Safe T R m s := by
  induction m generalizing s with
  | done a => exact fun s' hs => hQR a s' (h s' hs)
  | ask i k ih =>
    intro s' hs r s'' he
    obtain ⟨hg,hk⟩ := h s' hs r s'' he
    exact ⟨hg,ih r hk⟩

theorem Safe.bind {R : β → S → Prop} {f : α → Dialogue ρ β} (h : Safe T Q m s)
    (hf : ∀ a s, Q a s → Safe T R (f a) s) : Safe T R (m.bind f) s := by
  induction m generalizing s with
  | done a => exact hf a s (h s (T.refl s))
  | ask i k ih =>
    intro s' hs r s'' he
    obtain ⟨hg,hk⟩ := h s' hs r s'' he
    exact ⟨hg,ih r hk⟩

end Judgement

/-! ## Programs that fail -/

section Tasks

variable (T : Terms ρ S)

def Outcome (Q : α → S → Prop) (E : S → Prop) (r : Except ε α × Unit) (s : S) : Prop :=
  match r.1 with
  | .ok a => Q a s
  | .error _ => E s

/-- From `P` the program is safe; it ends with `Q` of its value, or fails with `E`. -/
def Runs (P : S → Prop) (m : Task ρ ε Unit α) (Q : α → S → Prop) (E : S → Prop) : Prop :=
  ∀ s, P s → Safe T (Outcome Q E) (m ()) s

variable {T} {P : S → Prop} {m : Task ρ ε Unit α} {Q : α → S → Prop} {E : S → Prop}

theorem Runs.bind {f : α → Task ρ ε Unit β} {R : β → S → Prop} (hE : Stable T E)
    (h : Runs T P m Q E) (hf : ∀ a, Runs T (Q a) (f a) R E) : Runs T P (m >>= f) R E := by
  intro s hP
  refine Safe.bind (h s hP) ?_
  rintro ⟨x,⟨⟩⟩ s' hx
  cases x with
  | ok a => exact hf a s' hx
  | error e => exact fun s'' hs => hE s' s'' hs hx

theorem Runs.mono {P' : S → Prop} {Q' : α → S → Prop} {E' : S → Prop} (h : Runs T P m Q E)
    (hP : ∀ s, P' s → P s) (hQ : ∀ a s, Q a s → Q' a s) (hE : ∀ s, E s → E' s) :
    Runs T P' m Q' E' := by
  intro s hs
  refine (h s (hP s hs)).mono ?_
  rintro ⟨x,⟨⟩⟩ s' hx
  cases x with
  | ok a => exact hQ a s' hx
  | error e => exact hE s' hx

theorem runs_call {i : ι} {Q : ρ i → S → Prop} (hP : Stable T P) (hQ : ∀ r, Stable T (Q r))
    (h : ∀ s r s', P s → T.effect i s r s' → T.guarantee s s' ∧ Q r s') :
    Runs T P (call i : Task ρ ε Unit (ρ i)) Q E := by
  intro s hs s' hrely r s'' he
  obtain ⟨hg,hq⟩ := h s' r s'' (hP s s' hrely hs) he
  exact ⟨hg,fun t ht => hQ r s'' t ht hq⟩

theorem runs_pure {a : α} (hP : Stable T P) (h : ∀ s, P s → Q a s) :
    Runs T P (pure a : Task ρ ε Unit α) Q E :=
  fun s hs s' hrely => h s' (hP s s' hrely hs)

theorem runs_fail {e : ε} (hP : Stable T P) (h : ∀ s, P s → E s) :
    Runs T P (fail e : Task ρ ε Unit α) Q E :=
  fun s hs s' hrely => h s' (hP s s' hrely hs)

theorem runs_lift {x : Except ε α} (hP : Stable T P) (hok : ∀ a s, x = .ok a → P s → Q a s)
    (herr : ∀ s, P s → E s) : Runs T P (lift x : Task ρ ε Unit α) Q E := by
  cases x with
  | ok a => exact runs_pure hP (hok a · rfl)
  | error e => exact runs_fail hP herr

/-- The cleanup runs in every case. -/
theorem runs_ensuring {cleanup : Task ρ ε Unit Unit} {Q' : α → S → Prop} {E' : S → Prop}
    (hQ' : ∀ a, Stable T (Q' a)) (hE' : Stable T E') (h : Runs T P m Q E)
    (hok : ∀ a, Runs T (Q a) cleanup (fun _ => Q' a) (Q' a))
    (herr : Runs T E cleanup (fun _ => E') E') : Runs T P (ensuring m cleanup) Q' E' := by
  intro s hP
  refine Safe.bind (h s hP) ?_
  rintro ⟨x,⟨⟩⟩ s' hx
  cases x with
  | ok a =>
    refine Safe.bind (hok a s' hx) ?_
    rintro ⟨y,⟨⟩⟩ s'' hy s₃ hs₃
    cases y with
    | ok _ => exact hQ' a s'' s₃ hs₃ hy
    | error _ => exact hQ' a s'' s₃ hs₃ hy
  | error e =>
    refine Safe.bind (herr s' hx) ?_
    rintro ⟨y,⟨⟩⟩ s'' hy s₃ hs₃
    cases y with
    | ok _ => exact hE' s'' s₃ hs₃ hy
    | error _ => exact hE' s'' s₃ hs₃ hy

end Tasks

/-! ## The whole system -/

section Pools

variable {κ π : Type} [DecidableEq κ]

/-- Calls by many processes: each has its argument and what is left of its program, which a crash
takes away. -/
structure Pool (ρ : ι → Type) (S κ π α : Type) where
  shared : S
  calls : κ → Option (π × Option (Dialogue ρ α))

/-- What a call runs, what its operations do, and what a crash does to the shared state. -/
structure System (ρ : ι → Type) (S κ π α : Type) where
  program : π → Dialogue ρ α
  effect : κ → Effect ρ S
  crash : κ → S → S

def Pool.set (p : Pool ρ S κ π α) (s : S) (k : κ) (c : π × Option (Dialogue ρ α)) :
    Pool ρ S κ π α :=
  ⟨s,Function.update p.calls k (some c)⟩

inductive Step (Y : System ρ S κ π α) : Pool ρ S κ π α → Pool ρ S κ π α → Prop
  | start {p : Pool ρ S κ π α} (k : κ) (x : π) (h : p.calls k = none) :
    Step Y p (p.set p.shared k (x,some (Y.program x)))
  | act {p : Pool ρ S κ π α} (k : κ) (x : π) (i : ι) (f : ρ i → Dialogue ρ α) (r : ρ i) (s : S)
    (h : p.calls k = some (x,some (.ask i f))) (he : Y.effect k i p.shared r s) :
    Step Y p (p.set s k (x,some (f r)))
  | crash {p : Pool ρ S κ π α} (k : κ) (x : π) (i : ι) (f : ρ i → Dialogue ρ α)
    (h : p.calls k = some (x,some (.ask i f))) :
    Step Y p (p.set (Y.crash k p.shared) k (x,none))

/-- Terms for every call under which each is safe and none disturbs the others. `always` is what
every step does to the shared state. -/
structure Harmony (Y : System ρ S κ π α) (Q : π → α → S → Prop) where
  terms : κ → Terms ρ S
  effect : ∀ k, (terms k).effect = Y.effect k
  safe : ∀ k x s, Safe (terms k) (Q x) (Y.program x) s
  others : ∀ k j s s', k ≠ j → (terms k).guarantee s s' → (terms j).rely s s'
  crash : ∀ k j s, k ≠ j → (terms j).rely s (Y.crash k s)
  always : S → S → Prop
  always_refl : ∀ s, always s s
  always_trans : ∀ s s' s'', always s s' → always s' s'' → always s s''
  always_act : ∀ k s s', (terms k).guarantee s s' → always s s'
  always_crash : ∀ k s, always s (Y.crash k s)

variable {Y : System ρ S κ π α} {Q : π → α → S → Prop} {p p' : Pool ρ S κ π α}

/-- Every call that was not cut off is still safe. -/
def Harmonious (H : Harmony Y Q) (p : Pool ρ S κ π α) : Prop :=
  ∀ k x m, p.calls k = some (x,some m) → Safe (H.terms k) (Q x) m p.shared

theorem Harmonious.set (H : Harmony Y Q) (h : Harmonious H p) {s : S} {k : κ} {x : π}
    {left : Option (Dialogue ρ α)} (hleft : ∀ m, left = some m → Safe (H.terms k) (Q x) m s)
    (hothers : ∀ j, k ≠ j → (H.terms j).rely p.shared s) : Harmonious H (p.set s k (x,left)) := by
  intro j y m hj
  by_cases hjk : j = k
  · subst hjk
    simp only [Pool.set, Function.update_self, Option.some.injEq, Prod.mk.injEq] at hj
    obtain ⟨rfl,hm⟩ := hj
    exact hleft m hm
  · simp only [Pool.set, Function.update_of_ne hjk] at hj
    exact (h j y m hj).rely (hothers j (Ne.symm hjk))

theorem step_harmonious (H : Harmony Y Q) (h : Harmonious H p) (hstep : Step Y p p') :
    Harmonious H p' ∧ H.always p.shared p'.shared := by
  cases hstep with
  | start k x hk =>
    refine ⟨h.set H (fun m hm => ?_) fun j _ => (H.terms j).refl _,H.always_refl _⟩
    cases hm
    exact H.safe k x _
  | act k x i f r s hk he =>
    have hsafe := h k x _ hk p.shared ((H.terms k).refl _) r s (by rw [H.effect]; exact he)
    refine ⟨h.set H (fun m hm => ?_) fun j hj => H.others k j _ _ hj hsafe.1,
      H.always_act k _ _ hsafe.1⟩
    cases hm
    exact hsafe.2
  | crash k x i f hk =>
    exact ⟨h.set H nofun fun j hj => H.crash k j _ hj,H.always_crash k _⟩

/-- Every run keeps all calls safe, and what every step does. -/
theorem run_harmonious (H : Harmony Y Q) (h : Harmonious H p)
    (hrun : Relation.ReflTransGen (Step Y) p p') :
    Harmonious H p' ∧ H.always p.shared p'.shared := by
  induction hrun with
  | refl => exact ⟨h,H.always_refl _⟩
  | tail _ hstep ih =>
    obtain ⟨hsafe,halways⟩ := step_harmonious H ih.1 hstep
    exact ⟨hsafe,H.always_trans _ _ _ ih.2 halways⟩

omit [DecidableEq κ] in
/-- A call that has returned has what its judgement promises. -/
theorem returned_promise (H : Harmony Y Q) (h : Harmonious H p) {k : κ} {x : π} {a : α}
    (hk : p.calls k = some (x,some (.done a))) : Q x a p.shared :=
  h k x _ hk p.shared ((H.terms k).refl _)

/-! ### One contract for all calls -/

/-- The shared state has the invariant, and every call that was not cut off still meets the
contract. -/
structure Abiding (C : Contract ρ) (I : S → Prop) (Q : π → α → Prop) (p : Pool ρ S κ π α) :
    Prop where
  shared : I p.shared
  calls : ∀ k x m, p.calls k = some (x,some m) → Meets C m (Q x)

variable {C : Contract ρ} {I : S → Prop} {Q : π → α → Prop}

theorem Abiding.set (h : Abiding C I Q p) {s : S} (hs : I s) {k : κ} {x : π}
    {left : Option (Dialogue ρ α)} (hleft : ∀ m, left = some m → Meets C m (Q x)) :
    Abiding C I Q (p.set s k (x,left)) := by
  refine ⟨hs,fun j y m hj => ?_⟩
  by_cases hjk : j = k
  · subst hjk
    simp only [Pool.set, Function.update_self, Option.some.injEq, Prod.mk.injEq] at hj
    obtain ⟨rfl,hm⟩ := hj
    exact hleft m hm
  · simp only [Pool.set, Function.update_of_ne hjk] at hj
    exact h.calls j y m hj

/-- If operations that may be asked answer by the contract and keep the invariant, then every run
of programs that meet the contract does. -/
theorem run_abiding (hprogram : ∀ x, Meets C (Y.program x) (Q x))
    (heffect : ∀ k i s r s', C.asks i → I s → Y.effect k i s r s' → C.answers i r ∧ I s')
    (hcrash : ∀ k s, I s → I (Y.crash k s)) (h : Abiding C I Q p)
    (hrun : Relation.ReflTransGen (Step Y) p p') : Abiding C I Q p' := by
  induction hrun with
  | refl => exact h
  | tail _ hstep ih =>
    cases hstep with
    | start k x hk =>
      refine ih.set ih.shared fun m hm => ?_
      cases hm
      exact hprogram x
    | act k x i f r s hk he =>
      have hmeets := ih.calls k x _ hk
      obtain ⟨hr,hs⟩ := heffect k i _ r s hmeets.1 ih.shared he
      refine ih.set hs fun m hm => ?_
      cases hm
      exact hmeets.2 r hr
    | crash k x i f hk => exact ih.set (hcrash k _ ih.shared) nofun

end Pools

end Scorpio.RelyGuarantee
