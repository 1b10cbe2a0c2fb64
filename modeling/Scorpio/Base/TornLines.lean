import Scorpio.Base.ByteText

/-!
# Lines of an append-only file

A file of newline-terminated lines, cut anywhere, is some of its lines and a
torn tail without a newline. Which lines are whole depends on the cut alone, so
what a reader finds and where a repair cuts can be said in terms of the lines.
-/

set_option autoImplicit false

namespace Scorpio.TornLines

open ByteText

def newline : UInt8 := 10

/-- No newline inside. -/
def Unbroken (b : Bytes) : Prop := newline ∉ b

instance (b : Bytes) : Decidable (Unbroken b) := inferInstanceAs (Decidable (newline ∉ b))

theorem unbroken_cons {a : UInt8} {b : Bytes} (ha : a ≠ newline) (hb : Unbroken b) :
    Unbroken (a :: b) := by
  intro h
  rcases List.mem_cons.mp h with h | h
  · exact ha h.symm
  · exact hb h

theorem unbroken_append {a b : Bytes} (ha : Unbroken a) (hb : Unbroken b) : Unbroken (a ++ b) := by
  intro h
  rcases List.mem_append.mp h with h | h
  · exact ha h
  · exact hb h

def unlines (xs : List Bytes) : Bytes := xs.flatMap (· ++ [newline])

theorem unlines_cons (x : Bytes) (xs : List Bytes) :
    unlines (x :: xs) = x ++ newline :: unlines xs := by
  simp [unlines]

theorem unlines_append (xs ys : List Bytes) : unlines (xs ++ ys) = unlines xs ++ unlines ys :=
  List.flatMap_append

/-- The lines of a cut file that are whole. -/
def whole : List Bytes → ℕ → List Bytes
  | [], _ => []
  | x :: xs, n => if x.length+1 ≤ n then x :: whole xs (n-(x.length+1)) else []

/-- A cut leaves the whole lines and a torn tail. -/
theorem take_unlines (xs : List Bytes) (hxs : ∀ x ∈ xs, Unbroken x) (torn : Bytes)
    (htorn : Unbroken torn) (n : ℕ) : ∃ tail, Unbroken tail ∧
      (unlines xs ++ torn).take n = unlines (whole xs n) ++ tail := by
  induction xs generalizing n with
  | nil => exact ⟨torn.take n,fun h => htorn (List.mem_of_mem_take h),rfl⟩
  | cons x xs ih =>
    rw [unlines_cons, whole, List.append_assoc, List.cons_append]
    split
    · rename_i hfits
      obtain ⟨tail,htail,htake⟩ := ih (fun y hy => hxs y (by simp [hy])) (n-(x.length+1))
      refine ⟨tail,htail,?_⟩
      obtain ⟨m,rfl⟩ := Nat.exists_eq_add_of_le hfits
      rw [Nat.add_sub_cancel_left] at htake ⊢
      rw [unlines_cons, List.append_assoc, List.cons_append, ← htake, Nat.add_assoc,
        List.take_append, Nat.add_sub_cancel_left, List.take_of_length_le (by omega),
        Nat.add_comm 1 m, List.take_succ_cons]
    · rename_i hshort
      refine ⟨x.take n,fun h => hxs x (by simp) (List.mem_of_mem_take h),?_⟩
      rw [List.take_append_of_le_length (by omega)]
      rfl

/-! ## Splitting -/

theorem split_tail (tail : Bytes) (h : Unbroken tail) : tail.splitOn newline = [tail] := by
  apply List.splitOnP_eq_singleton
  intro x hx
  have hne : x ≠ newline := fun heq => h (heq ▸ hx)
  simpa using hne

theorem split_line (x rest : Bytes) (h : Unbroken x) :
    (x ++ newline :: rest).splitOn newline = x :: rest.splitOn newline := by
  apply List.splitOnP_append_cons_of_forall_mem
  · intro y hy
    have hne : y ≠ newline := fun heq => h (heq ▸ hy)
    simpa using hne
  · simp

theorem split_unlines (xs : List Bytes) (hxs : ∀ x ∈ xs, Unbroken x) (tail : Bytes)
    (htail : Unbroken tail) : (unlines xs ++ tail).splitOn newline = xs ++ [tail] := by
  induction xs with
  | nil => exact split_tail tail htail
  | cons x xs ih =>
    rw [unlines_cons, List.append_assoc, List.cons_append, split_line x _ (hxs x (by simp)),
      ih fun y hy => hxs y (by simp [hy])]
    rfl

/-! ## The last line -/

/-- `ends_with` a newline. -/
def endsLine (b : Bytes) : Bool := b.getLast? = some newline

/-- What stands before the torn tail. -/
def upToLine (b : Bytes) : Bytes := b.take (b.reverse.dropWhile (· ≠ newline)).length

theorem unlines_snoc (xs : List Bytes) (x : Bytes) :
    unlines (xs ++ [x]) = unlines xs ++ x ++ [newline] := by
  rw [unlines_append, List.append_assoc]
  simp [unlines]

theorem ends_line_iff (xs : List Bytes) (tail : Bytes) (htail : Unbroken tail) :
    endsLine (unlines xs ++ tail) = true ↔ tail = [] ∧ xs ≠ [] := by
  rw [endsLine, decide_eq_true_eq]
  rcases List.eq_nil_or_concat' tail with rfl | ⟨front,a,rfl⟩
  · rw [List.append_nil]
    rcases List.eq_nil_or_concat' xs with rfl | ⟨ys,y,rfl⟩
    · simp [unlines]
    · rw [unlines_snoc]
      simp
  · have ha : a ≠ newline := fun heq => htail (by simp [heq])
    rw [← List.append_assoc, List.getLast?_concat]
    simp [ha]

theorem up_to_line (xs : List Bytes) (tail : Bytes) (htail : Unbroken tail) :
    upToLine (unlines xs ++ tail) = unlines xs := by
  have hdrop : ∀ b : Bytes, (tail.reverse ++ b).dropWhile (· ≠ newline) =
      b.dropWhile (· ≠ newline) := by
    intro b
    apply List.dropWhile_append_of_pos
    intro a ha
    exact decide_eq_true fun heq => htail (heq ▸ List.mem_reverse.mp ha)
  have hkept : (unlines xs).reverse.dropWhile (· ≠ newline) = (unlines xs).reverse := by
    rcases List.eq_nil_or_concat' xs with rfl | ⟨ys,y,rfl⟩
    · rfl
    · rw [unlines_snoc, List.reverse_append]
      rfl
  rw [upToLine, List.reverse_append, hdrop, hkept, List.length_reverse, List.take_left]

end Scorpio.TornLines
