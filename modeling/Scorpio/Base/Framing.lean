import Mathlib

/-!
# Framed byte strings

A number as a fixed count of big-endian bytes, and a list of byte strings as
one string, each part behind its length. Numbers below the width are read back
from their bytes, so the parts can be read off one after the other.
-/

set_option autoImplicit false

namespace Scorpio.Framing

def leBytes : ℕ → ℕ → List UInt8
  | 0, _ => []
  | width+1, n => UInt8.ofNat n :: leBytes width (n/256)

def beBytes (width n : ℕ) : List UInt8 := (leBytes width n).reverse

@[simp] theorem le_bytes_length (width n : ℕ) : (leBytes width n).length = width := by
  induction width generalizing n with
  | zero => rfl
  | succ width ih => simp [leBytes, ih]

@[simp] theorem be_bytes_length (width n : ℕ) : (beBytes width n).length = width := by
  simp [beBytes]

theorem le_bytes_inj {width a b : ℕ} (ha : a < 256^width) (hb : b < 256^width)
    (h : leBytes width a = leBytes width b) : a = b := by
  induction width generalizing a b with
  | zero =>
    rw [pow_zero] at ha hb
    omega
  | succ width ih =>
    rw [pow_succ] at ha hb
    obtain ⟨hlow,hhigh⟩ := List.cons.inj h
    have hlow : a%256 = b%256 := by simpa using congrArg UInt8.toNat hlow
    have hhigh := ih (Nat.div_lt_of_lt_mul (by omega)) (Nat.div_lt_of_lt_mul (by omega)) hhigh
    omega

theorem be_bytes_inj {width a b : ℕ} (ha : a < 256^width) (hb : b < 256^width)
    (h : beBytes width a = beBytes width b) : a = b :=
  le_bytes_inj ha hb (List.reverse_injective h)

/-- Each part behind its length in `width` bytes. -/
def framed (width : ℕ) (parts : List (List UInt8)) : List UInt8 :=
  parts.flatMap fun part => beBytes width part.length ++ part

/-- The parts are read off one after the other. -/
theorem framed_inj {width : ℕ} {xs ys : List (List UInt8)} (hxs : ∀ x ∈ xs, x.length < 256^width)
    (hys : ∀ y ∈ ys, y.length < 256^width) (hwidth : 0 < width)
    (h : framed width xs = framed width ys) : xs = ys := by
  induction xs generalizing ys with
  | nil =>
    cases ys with
    | nil => rfl
    | cons y ys =>
      have hlen := congrArg List.length h
      simp [framed] at hlen
      omega
  | cons x xs ih =>
    cases ys with
    | nil =>
      have hlen := congrArg List.length h
      simp [framed] at hlen
      omega
    | cons y ys =>
      simp only [framed, List.flatMap_cons, List.append_assoc] at h
      obtain ⟨hlen,hrest⟩ := List.append_inj h (by simp)
      have hsame := be_bytes_inj (hxs x (by simp)) (hys y (by simp)) hlen
      obtain ⟨rfl,htail⟩ := List.append_inj hrest hsame
      rw [ih (fun z hz => hxs z (by simp [hz])) (fun z hz => hys z (by simp [hz])) htail]

end Scorpio.Framing
