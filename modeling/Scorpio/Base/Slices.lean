import Mathlib

/-!
# Slices of a list

The part of a list between two positions. A slice does not see positions past
the end of the list, slices that meet are joined, and a slice of a slice is a
slice of the list.
-/

set_option autoImplicit false

namespace Scorpio.Slices

variable {α : Type*}

def slice (x : List α) (a b : ℕ) : List α := (x.take b).drop a

@[simp] theorem slice_get (x : List α) (a b i : ℕ) :
    (slice x a b)[i]? = if a+i < b then x[a+i]? else none := by
  simp only [slice, List.getElem?_drop, List.getElem?_take]

@[simp] theorem slice_length (x : List α) (a b : ℕ) : (slice x a b).length = min b x.length-a := by
  simp [slice]

theorem slice_congr {x y : List α} {a b b' : ℕ}
    (h : ∀ i, (if a+i < b then x[a+i]? else none) = if a+i < b' then y[a+i]? else none) :
    slice x a b = slice y a b' := by
  apply List.ext_getElem?
  intro i
  simpa using h i

/-- A later end changes nothing where it is past the content or before the start. -/
theorem slice_stop {x : List α} {a b b' : ℕ} (h : max a (min b x.length) = max a (min b' x.length)) :
    slice x a b = slice x a b' := by
  apply slice_congr
  intro i
  by_cases hi : a+i < x.length
  · rw [if_congr (show a+i < b ↔ a+i < b' by omega) rfl rfl]
  · simp [List.getElem?_eq_none (show x.length ≤ a+i by omega)]

theorem slice_append_left {x y : List α} {a b : ℕ} (h : b ≤ x.length) :
    slice (x ++ y) a b = slice x a b := by
  apply slice_congr
  intro i
  split
  · rw [List.getElem?_append_left (by omega)]
  · rfl

theorem slice_append_right (x y : List α) : slice (x ++ y) x.length (x.length+y.length) = y := by
  rw [slice, List.take_of_length_le (by simp), List.drop_left]

theorem slice_join {x : List α} {a b d : ℕ} (hab : a ≤ b) (hbd : b ≤ d) (hb : b ≤ x.length) :
    slice x a b ++ slice x b d = slice x a d := by
  apply List.ext_getElem?
  intro i
  rw [List.getElem?_append, slice_length]
  by_cases hi : i < min b x.length-a
  · rw [if_pos hi, slice_get, slice_get, if_pos (by omega), if_pos (by omega)]
  · rw [if_neg hi, slice_get, slice_get]
    have hpos : b+(i-(min b x.length-a)) = a+i := by omega
    rw [hpos]

theorem slice_slice {x : List α} {a b lo hi : ℕ} (ha : a ≤ lo) (hb : hi ≤ b) :
    ((slice x a b).take (hi-a)).drop (lo-a) = slice x lo hi := by
  apply List.ext_getElem?
  intro i
  rw [slice_get, List.getElem?_drop, List.getElem?_take, slice_get]
  have hpos : a+(lo-a+i) = lo+i := by omega
  rw [hpos]
  by_cases h : lo+i < hi
  · rw [if_pos (by omega), if_pos (by omega), if_pos h]
  · rw [if_neg (by omega), if_neg h]

end Scorpio.Slices
