import Scorpio.Base.Traces

/-!
# Credits of counting semaphores

A family of semaphores starts with a number of credits for each key. Owners take
credits and give them back. When each semaphore's free credits and the credits of
its owners add up to what it started with, no semaphore is ever overdrawn.
-/

set_option autoImplicit false

namespace Scorpio.Credits

open Traces

variable {κ ε : Type*} [DecidableEq κ]

def tryAcquire (free : κ → ℕ) (k : κ) (n : ℕ) : Option (κ → ℕ) :=
  guarded (n ≤ free k) (Function.update free k (free k-n))

def release (free : κ → ℕ) (k : κ) (n : ℕ) : κ → ℕ := Function.update free k (free k+n)

/-- The credits that the owners hold on one semaphore. -/
def total (weight : ε → κ → ℕ) (owners : Multiset ε) (k : κ) : ℕ := (owners.map (weight · k)).sum

def Balanced (capacity free : κ → ℕ) (weight : ε → κ → ℕ) (owners : Multiset ε) : Prop :=
  ∀ k, free k+total weight owners k = capacity k

variable {capacity free free' : κ → ℕ} {weight : ε → κ → ℕ} {owners owners' : Multiset ε}
  {k : κ} {n : ℕ}

theorem release_acquired (h : tryAcquire free k n = some free') : release free' k n = free := by
  obtain ⟨hle,rfl⟩ := guarded_eq_some.mp h
  ext i
  by_cases hi : i = k
  · subst hi
    simp [release, Nat.sub_add_cancel hle]
  · simp [release, hi]

theorem release_comm {l : κ} {m : ℕ} (h : k ≠ l) :
    release (release free k n) l m = release (release free l m) k n := by
  unfold release
  rw [Function.update_of_ne h.symm, Function.update_of_ne h, Function.update_comm h.symm]

omit [DecidableEq κ] in
@[simp] theorem total_zero : total weight 0 k = 0 := rfl

omit [DecidableEq κ] in
@[simp] theorem total_cons (e : ε) :
    total weight (e ::ₘ owners) k = weight e k+total weight owners k := by
  simp [total]

omit [DecidableEq κ] in
theorem total_erase [DecidableEq ε] {e : ε} (he : e ∈ owners) :
    weight e k+total weight (owners.erase e) k = total weight owners k := by
  rw [← total_cons, Multiset.cons_erase he]

omit [DecidableEq κ] in
/-- One owner changes what it holds. -/
theorem total_exchange [DecidableEq ε] (weight : ε → κ → ℕ) {e : ε} (e' : ε) (he : e ∈ owners)
    (k : κ) :
    weight e k+total weight (e' ::ₘ owners.erase e) k = weight e' k+total weight owners k := by
  rw [total_cons, ← total_erase he, Nat.add_left_comm]

theorem forall_exchange [DecidableEq ε] {P : ε → Prop} {e e' : ε} (h : ∀ x ∈ owners, P x)
    (he : P e') : ∀ x ∈ e' ::ₘ owners.erase e, P x := by
  intro x hx
  rcases Multiset.mem_cons.mp hx with rfl | hx
  · exact he
  · exact h x (Multiset.mem_of_mem_erase hx)

omit [DecidableEq κ] in
/-- The holders of credits, in another unit. -/
theorem total_filter {p : ε → Prop} [DecidablePred p] {value : ε → ℕ} {unit : ℕ}
    (h : ∀ e ∈ owners, weight e k*unit = if p e then value e else 0) :
    total weight owners k*unit = ((owners.filter p).map value).sum := by
  induction owners using Multiset.induction_on with
  | empty => simp
  | cons e owners ih =>
    have hrest := ih fun x hx => h x (Multiset.mem_cons_of_mem hx)
    have hfirst := h e (Multiset.mem_cons_self _ _)
    rw [total_cons, Nat.add_mul, hrest, hfirst]
    by_cases hp : p e
    · rw [if_pos hp, Multiset.filter_cons_of_pos _ hp, Multiset.map_cons, Multiset.sum_cons]
    · rw [if_neg hp, Multiset.filter_cons_of_neg _ hp, Nat.zero_add]

omit [DecidableEq κ] in
/-- Owners without credits do not count. -/
theorem total_holders {p : ε → Prop} [DecidablePred p]
    (h : ∀ e ∈ owners, ¬ p e → weight e k = 0) :
    total weight (owners.filter p) k = total weight owners k := by
  induction owners using Multiset.induction_on with
  | empty => rfl
  | cons e owners ih =>
    have hrest := ih fun x hx => h x (Multiset.mem_cons_of_mem hx)
    by_cases hp : p e
    · rw [Multiset.filter_cons_of_pos _ hp, total_cons, total_cons, hrest]
    · rw [Multiset.filter_cons_of_neg _ hp, total_cons, hrest, h e (Multiset.mem_cons_self _ _) hp,
        Nat.zero_add]

omit [DecidableEq κ] in
theorem card_le_total {p : ε → Prop} [DecidablePred p] (h : ∀ e ∈ owners, p e → 1 ≤ weight e k) :
    (owners.filter p).card ≤ total weight owners k := by
  induction owners using Multiset.induction_on with
  | empty => exact Nat.zero_le _
  | cons e owners ih =>
    have hrest := ih fun x hx => h x (Multiset.mem_cons_of_mem hx)
    rw [total_cons]
    by_cases hp : p e
    · have hfirst := h e (Multiset.mem_cons_self _ _) hp
      rw [Multiset.filter_cons_of_pos _ hp, Multiset.card_cons]
      omega
    · rw [Multiset.filter_cons_of_neg _ hp]
      omega

omit [DecidableEq κ] in
theorem Balanced.le (hb : Balanced capacity free weight owners) (k : κ) :
    total weight owners k ≤ capacity k := by
  rw [← hb k]
  exact Nat.le_add_left _ _

omit [DecidableEq κ] in
theorem Balanced.same (hb : Balanced capacity free weight owners)
    (hw : ∀ i, total weight owners' i = total weight owners i) :
    Balanced capacity free weight owners' :=
  fun i => (congrArg _ (hw i)).trans (hb i)

theorem Balanced.acquire (hb : Balanced capacity free weight owners)
    (h : tryAcquire free k n = some free')
    (hw : ∀ i, total weight owners' i = total weight owners i+if i = k then n else 0) :
    Balanced capacity free' weight owners' := by
  obtain ⟨hle,rfl⟩ := guarded_eq_some.mp h
  intro i
  have hi := hb i
  rw [hw]
  by_cases hk : i = k
  · subst hk
    rw [Function.update_self, if_pos rfl]
    omega
  · rw [Function.update_of_ne hk, if_neg hk]
    exact hi

theorem Balanced.release (hb : Balanced capacity free weight owners)
    (hw : ∀ i, total weight owners i = total weight owners' i+if i = k then n else 0) :
    Balanced capacity (release free k n) weight owners' := by
  intro i
  have hi := hb i
  rw [hw] at hi
  unfold Credits.release
  by_cases hk : i = k
  · subst hk
    rw [if_pos rfl] at hi
    rw [Function.update_self]
    omega
  · rw [if_neg hk] at hi
    rw [Function.update_of_ne hk]
    exact hi

end Scorpio.Credits
