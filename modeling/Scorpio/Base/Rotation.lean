import Mathlib

/-!
# Turns around a sorted list

A cursor keeps the last member that was served. A turn serves a bounded number of members
after the cursor, around the end of the list. Turns that together could serve the whole list
leave nobody out, wherever the cursor stood.
-/

set_option autoImplicit false

namespace Scorpio.Rotation

variable {α : Type*} [LinearOrder α]

/-- The members after the cursor, then the others. -/
def around (l : List α) : Option α → List α
  | none => l
  | some c => l.filter (c < ·) ++ l.filter (· ≤ c)

/-- Each turn serves at most `b` members and leaves the cursor at the last of them. -/
def Turns (l : List α) (b : ℕ) : Option α → List (List α) → Prop
  | _, [] => True
  | c, served :: rest => served = (around l c).take b ∧ Turns l b (served.getLast?.or c) rest

variable {l : List α} {c : Option α} {a : α}

theorem filter_split {β : Type*} {f : β → α} {l : List β} (hl : (l.map f).Pairwise (· < ·)) (a : α) :
    l.takeWhile (f · ≤ a) = l.filter (f · ≤ a) ∧ l.dropWhile (f · ≤ a) = l.filter (a < f ·) := by
  induction l with
  | nil => exact ⟨rfl,rfl⟩
  | cons x l ih =>
    obtain ⟨hx,hl⟩ := List.pairwise_cons.mp hl
    by_cases hle : f x ≤ a
    · simp [hle, ih hl]
    · have hlater : ∀ y ∈ l, a < f y := fun y hy => (not_le.mp hle).trans (hx _ (List.mem_map_of_mem hy))
      have hall : l.filter (a < f ·) = l := List.filter_eq_self.mpr (by simpa using hlater)
      simpa [hle, not_le.mp hle, hall] using hlater

theorem around_split (hl : l.Pairwise (· < ·)) (c : Option α) :
    ∃ x y, l = x ++ y ∧ around l c = y ++ x := by
  cases c with
  | none => exact ⟨[],l,rfl,(List.append_nil l).symm⟩
  | some a =>
    obtain ⟨htake,hdrop⟩ := filter_split (f := fun x => x) (by simpa using hl) a
    exact ⟨_,_,(List.takeWhile_append_dropWhile).symm,by rw [htake, hdrop]; rfl⟩

theorem around_perm (hl : l.Pairwise (· < ·)) (c : Option α) : (around l c).Perm l := by
  obtain ⟨x,y,rfl,hr⟩ := around_split hl c
  rw [hr]
  exact List.perm_append_comm

theorem around_at {u v : List α} (hl : (u ++ a :: v).Pairwise (· < ·)) :
    around (u ++ a :: v) (some a) = v ++ (u ++ [a]) := by
  obtain ⟨-,hv,hu⟩ := List.pairwise_append.mp hl
  have hbefore : ∀ x ∈ u, x < a := fun x hx => hu x hx a (by simp)
  have hafter := (List.pairwise_cons.mp hv).1
  have h₁ : u.filter (a < ·) = [] := by simpa using fun x hx => (hbefore x hx).le
  have h₂ : v.filter (a < ·) = v := List.filter_eq_self.mpr (by simpa using hafter)
  have h₃ : u.filter (· ≤ a) = u := List.filter_eq_self.mpr (by simpa using fun x hx => (hbefore x hx).le)
  have h₄ : v.filter (· ≤ a) = [] := by simpa using hafter
  simp [around, h₁, h₂, h₃, h₄]

/-- What was served comes last in the next turn. -/
theorem around_next {before after : List α} (hl : l.Pairwise (· < ·))
    (h : around l c = before ++ a :: after) :
    around l (some a) = after ++ (before ++ [a]) := by
  obtain ⟨x,y,rfl,hr⟩ := around_split hl c
  rw [hr] at h
  rcases List.append_eq_append_iff.mp h with ⟨z,rfl,rfl⟩ | ⟨z,rfl,hz⟩
  · rw [List.append_assoc, List.cons_append] at hl ⊢
    rw [around_at hl]
    simp
  · cases z with
    | nil =>
      rw [List.nil_append] at hz
      subst hz
      rw [List.append_nil, List.cons_append] at hl ⊢
      exact (around_at (u := []) hl).trans (by simp)
    | cons b z =>
      obtain ⟨rfl,rfl⟩ := List.cons.inj hz
      rw [← List.append_assoc] at hl ⊢
      rw [around_at hl]
      simp

theorem turns_cover {b : ℕ} {served : List (List α)} (hl : l.Pairwise (· < ·))
    (h : Turns l b c served) (hlen : l.length ≤ b*served.length) :
    ∀ x ∈ l, ∃ s ∈ served, x ∈ s := by
  -- the part of the list that is not yet served gets shorter by a whole turn
  have hgen : ∀ first rest, around l c = first ++ rest → first.length ≤ b*served.length →
      ∀ x ∈ first, ∃ s ∈ served, x ∈ s := by
    clear hlen
    induction served generalizing c with
    | nil =>
      intro first rest _ hfirst x hx
      rw [List.length_nil, Nat.mul_zero, Nat.le_zero, List.length_eq_zero_iff] at hfirst
      exact absurd (hfirst ▸ hx) List.not_mem_nil
    | cons s served ih =>
      intro first rest hr hfirst x hx
      obtain ⟨rfl,hnext⟩ := h
      rw [List.length_cons, Nat.mul_succ] at hfirst
      rcases List.mem_append.mp (List.take_append_drop b first ▸ hx) with hmem | hmem
      · refine ⟨_,List.mem_cons_self,?_⟩
        rw [hr, List.take_append]
        exact List.mem_append_left _ hmem
      · have hlong : b < first.length := by
          by_contra hle
          rw [List.drop_eq_nil_of_le (not_lt.mp hle)] at hmem
          cases hmem
        have hpos : b ≠ 0 := by
          rintro rfl
          omega
        obtain ⟨init,a,hinit⟩ := (List.eq_nil_or_concat' (first.take b)).resolve_left fun hnil =>
          (List.take_eq_nil_iff.mp hnil).elim hpos (List.ne_nil_of_mem hx)
        have hserved : (around l c).take b = init ++ [a] := by
          rw [hr, List.take_append_of_le_length hlong.le, hinit]
        have hsplit : around l c = init ++ a :: (first.drop b ++ rest) := by
          rw [← List.take_append_drop b (around l c), hserved, hr,
            List.drop_append_of_le_length hlong.le]
          simp
        rw [hserved, List.getLast?_concat, Option.some_or] at hnext
        obtain ⟨t,ht,hx⟩ := ih hnext (first.drop b) (rest ++ (init ++ [a]))
          (by rw [around_next hl hsplit, List.append_assoc])
          (by rw [List.length_drop]; omega) x hmem
        exact ⟨t,List.mem_cons_of_mem _ ht,hx⟩
  intro z hz
  have hperm := around_perm hl c
  exact hgen _ [] (List.append_nil _).symm (hperm.length_eq.trans_le hlen) z (hperm.symm.subset hz)

end Scorpio.Rotation
