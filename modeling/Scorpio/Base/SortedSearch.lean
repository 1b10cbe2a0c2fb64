import Mathlib

/-!
# Search in a sorted list

The halving search of the standard library over a list in strict order: it
finds exactly the members of the list.
-/

set_option autoImplicit false

namespace Scorpio.SortedSearch

variable {α : Type*} [LinearOrder α]

/-- The candidate that is left when `size` candidates from `base` were halved to one. -/
def narrow (xs : List α) (x : α) : ℕ → ℕ → ℕ → ℕ
  | 0, base, _ => base
  | turns+1, base, size =>
    if size ≤ 1 then base
    else narrow xs x turns (if xs[base+size/2]?.any (x < ·) then base else base+size/2) (size-size/2)

def binarySearch (xs : List α) (x : α) : Bool :=
  xs[narrow xs x xs.length 0 xs.length]? = some x

variable {xs : List α} {x : α}

theorem lt_of_index_lt (hsorted : xs.Pairwise (· < ·)) {i j : ℕ} {a b : α}
    (ha : xs[i]? = some a) (hb : xs[j]? = some b) (hij : i < j) : a < b := by
  obtain ⟨hi,rfl⟩ := List.getElem?_eq_some_iff.mp ha
  obtain ⟨hj,rfl⟩ := List.getElem?_eq_some_iff.mp hb
  exact List.pairwise_iff_getElem.mp hsorted i j hi hj hij

/-- A member among the candidates is the one that is left. -/
theorem narrow_member (hsorted : xs.Pairwise (· < ·)) {i turns base size : ℕ}
    (hi : xs[i]? = some x) (hbase : base ≤ i) (hlt : i < base+size) (hend : base+size ≤ xs.length)
    (hturns : size ≤ turns+1) : narrow xs x turns base size = i := by
  induction turns generalizing base size with
  | zero =>
    rw [narrow]
    omega
  | succ turns ih =>
    rw [narrow]
    split
    · omega
    · obtain ⟨y,hget⟩ : ∃ y, xs[base+size/2]? = some y :=
        ⟨_,List.getElem?_eq_getElem (by omega)⟩
      rw [hget, Option.any_some]
      split
      · rename_i hless
        have hbefore : i < base+size/2 := by
          by_contra hle
          rcases Nat.lt_or_eq_of_le (Nat.le_of_not_lt hle) with hlater | heq
          · exact lt_asymm (of_decide_eq_true hless) (lt_of_index_lt hsorted hget hi hlater)
          · rw [heq, hi] at hget
            cases hget
            exact lt_irrefl _ (of_decide_eq_true hless)
        exact ih hbase (by omega) (by omega) (by omega)
      · rename_i hless
        have hafter : base+size/2 ≤ i := by
          by_contra hle
          exact hless (decide_eq_true (lt_of_index_lt hsorted hi hget (Nat.lt_of_not_le hle)))
        exact ih hafter (by omega) (by omega) (by omega)

theorem binary_search_iff (hsorted : xs.Pairwise (· < ·)) : binarySearch xs x ↔ x ∈ xs := by
  rw [binarySearch, decide_eq_true_iff]
  constructor
  · exact List.mem_of_getElem?
  · intro hx
    obtain ⟨i,hi⟩ := List.getElem?_of_mem hx
    have hlen := (List.getElem?_eq_some_iff.mp hi).1
    rw [narrow_member hsorted hi (Nat.zero_le i) (by omega) (by omega) (Nat.le_succ _)]
    exact hi

end Scorpio.SortedSearch
