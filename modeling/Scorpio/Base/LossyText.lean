import Scorpio.Base.TornLines

/-!
# Lossy decoding

`String::from_utf8_lossy`: every maximal part of the bytes that cannot continue
a UTF-8 sequence becomes one replacement character. Valid text is kept, and a
newline is never part of what is replaced, so the lines of a damaged file are
decoded one by one.
-/

set_option autoImplicit false

namespace Scorpio.LossyText

open ByteText TornLines

/-- U+FFFD. -/
def replacement : Bytes := [0xEF,0xBF,0xBD]

/-- The length of the sequence a byte leads; 0 if it leads none. -/
def width (a : UInt8) : ℕ :=
  if a < 0x80 then 1
  else if 0xC2 ≤ a && a ≤ 0xDF then 2
  else if 0xE0 ≤ a && a ≤ 0xEF then 3
  else if 0xF0 ≤ a && a ≤ 0xF4 then 4
  else 0

/-- The byte continues the sequence begun; the second byte of some sequences is restricted. -/
def continues : Bytes → UInt8 → Bool
  | [], _ => false
  | [a], b => isContinuation b && (a != 0xE0 || 0xA0 ≤ b) && (a != 0xED || b ≤ 0x9F) &&
      (a != 0xF0 || 0x90 ≤ b) && (a != 0xF4 || b ≤ 0x8F)
  | _, b => isContinuation b

/-- What is written for a sequence that breaks off. -/
def broken (begun : Bytes) : Bytes := if begun = [] then [] else replacement

/-- The text of the bytes after the sequence `begun`. -/
def lossyFrom : Bytes → Bytes → Text
  | begun, [] => broken begun
  | begun, b :: rest =>
    if continues begun b then
      if width (begun.headD 0) ≤ begun.length+1 then begun ++ b :: lossyFrom [] rest
      else lossyFrom (begun ++ [b]) rest
    else broken begun ++
      if b < 0x80 then b :: lossyFrom [] rest
      else if width b = 0 then replacement ++ lossyFrom [] rest
      else lossyFrom [b] rest

def utf8Lossy (bytes : Bytes) : Text := lossyFrom [] bytes

/-- `trim().is_empty()`: the white space of Unicode. -/
def isBlank : Text → Bool
  | [] => true
  | a :: rest =>
    if (9 ≤ a && a ≤ 13) || a == 32 then isBlank rest
    else match rest with
      | [] => false
      | b :: rest =>
        if a == 0xC2 && (b == 0x85 || b == 0xA0) then isBlank rest
        else match rest with
          | [] => false
          | c :: rest =>
            ((a == 0xE1 && b == 0x9A && c == 0x80) ||
              (a == 0xE2 && b == 0x80 &&
                ((0x80 ≤ c && c ≤ 0x8A) || c == 0xA8 || c == 0xA9 || c == 0xAF)) ||
              (a == 0xE2 && b == 0x81 && c == 0x9F) || (a == 0xE3 && b == 0x80 && c == 0x80)) &&
              isBlank rest

variable {begun rest : Bytes} {b : UInt8}

theorem continues_high (h : continues begun b = true) : 0x80 ≤ b := by
  have hcontinuation : isContinuation b = true := by
    match begun, h with
    | [_], h =>
      simp only [continues, Bool.and_eq_true] at h
      exact h.1.1.1.1
    | _ :: _ :: _, h => exact h
  simp only [isContinuation, Bool.and_eq_true, decide_eq_true_eq] at hcontinuation
  exact hcontinuation.1

theorem newline_ends (begun : Bytes) : continues begun newline = false := by
  by_contra h
  have hhigh := continues_high (Bool.of_not_eq_false h)
  exact absurd hhigh (by decide)

theorem lossy_from_newline (begun x rest : Bytes) : lossyFrom begun (x ++ newline :: rest) =
    lossyFrom begun x ++ newline :: lossyFrom [] rest := by
  induction x generalizing begun with
  | nil =>
    have hlow : newline < 0x80 := by decide
    simp only [List.nil_append, lossyFrom, newline_ends, if_pos hlow, Bool.false_eq_true, if_false]
  | cons b x ih =>
    simp only [List.cons_append, lossyFrom]
    split
    · split
      · rw [ih]
        simp
      · exact ih _
    · split
      · rw [ih]
        simp
      · split
        · rw [ih]
          simp
        · rw [ih]
          simp

/-- Lines are decoded one by one. -/
theorem lossy_newline (x rest : Bytes) :
    utf8Lossy (x ++ newline :: rest) = utf8Lossy x ++ newline :: utf8Lossy rest :=
  lossy_from_newline [] x rest

theorem lossy_from_unbroken (begun x : Bytes) (hbegun : Unbroken begun) (hx : Unbroken x) :
    Unbroken (lossyFrom begun x) := by
  have hbroken : ∀ b : Bytes, Unbroken (broken b) := fun b => by
    unfold broken
    split <;> decide
  have hreplacement : Unbroken replacement := by decide
  have hnil : Unbroken [] := by decide
  induction x generalizing begun with
  | nil => exact hbroken begun
  | cons b x ih =>
    have hb : b ≠ newline := fun heq => hx (by simp [heq])
    have hrest : Unbroken x := fun h => hx (List.mem_cons_of_mem b h)
    rw [lossyFrom]
    split
    · split
      · exact unbroken_append hbegun (unbroken_cons hb (ih [] hnil hrest))
      · exact ih _ (unbroken_append hbegun (unbroken_cons hb hnil)) hrest
    · apply unbroken_append (hbroken begun)
      split
      · exact unbroken_cons hb (ih [] hnil hrest)
      · split
        · exact unbroken_append hreplacement (ih [] hnil hrest)
        · exact ih [b] (unbroken_cons hb hnil) hrest

theorem lossy_unbroken (x : Bytes) (hx : Unbroken x) : Unbroken (utf8Lossy x) :=
  lossy_from_unbroken [] x (by simp [Unbroken]) hx

theorem lossy_lead {a : UInt8} (ha : ¬a < 0x80) (hwidth : width a ≠ 0) :
    lossyFrom [] (a :: rest) = lossyFrom [a] rest := by
  rw [lossyFrom, continues, if_neg Bool.false_ne_true, if_neg ha, if_neg hwidth]
  rfl

theorem lossy_more (h : continues begun b = true)
    (hwidth : begun.length+1 < width (begun.headD 0)) :
    lossyFrom begun (b :: rest) = lossyFrom (begun ++ [b]) rest := by
  rw [lossyFrom, if_pos h, if_neg (by omega)]

theorem lossy_done (h : continues begun b = true)
    (hwidth : width (begun.headD 0) = begun.length+1) :
    lossyFrom begun (b :: rest) = begun ++ b :: lossyFrom [] rest := by
  rw [lossyFrom, if_pos h, if_pos (by omega)]

/-- Valid text is kept. -/
theorem lossy_valid (x : Bytes) (hx : validUtf8 x = true) : utf8Lossy x = x := by
  fun_induction validUtf8 x with
  | case1 => rfl
  | case2 a rest ha ih =>
    rw [utf8Lossy, lossyFrom, continues, if_neg Bool.false_ne_true, if_pos ha]
    exact congrArg (a :: ·) (ih hx)
  | case3 => cases hx
  | case4 a ha b rest htwo ih =>
    obtain ⟨hb,hrest⟩ := Bool.and_eq_true_iff.mp hx
    have hwidth : width a = 2 := by rw [width, if_neg ha, if_pos htwo]
    have hsecond : continues [a] b = true := by
      have hle : a ≤ 0xDF := by simpa using (Bool.and_eq_true_iff.mp htwo).2
      have hne : ∀ c : UInt8, 0xE0 ≤ c → a ≠ c := by
        rintro c hc rfl
        exact absurd (hc.trans hle) (by decide)
      simp [continues, hb, hne]
    rw [utf8Lossy, lossy_lead ha (by omega), lossy_done hsecond (by simpa using hwidth)]
    exact congrArg (fun t => a :: b :: t) (ih hrest)
  | case5 => cases hx
  | case6 a ha b htwo c rest hthree ih =>
    simp only [Bool.and_eq_true] at hx
    obtain ⟨⟨⟨⟨hb,hc⟩,he0⟩,hed⟩,hrest⟩ := hx
    have hwidth : width a = 3 := by rw [width, if_neg ha, if_neg htwo, if_pos hthree]
    have hsecond : continues [a] b = true := by
      have hle : a ≤ 0xEF := by simpa using (Bool.and_eq_true_iff.mp hthree).2
      have hne : ∀ c : UInt8, 0xF0 ≤ c → a ≠ c := by
        rintro c hc rfl
        exact absurd (hc.trans hle) (by decide)
      simp [continues, hb, he0, hed, hne]
    rw [utf8Lossy, lossy_lead ha (by omega), lossy_more hsecond (by simp [hwidth]),
      lossy_done (by exact hc) (by simpa using hwidth)]
    exact congrArg (fun t => a :: b :: c :: t) (ih hrest)
  | case7 => cases hx
  | case8 a ha b htwo c hthree d rest ih =>
    simp only [Bool.and_eq_true] at hx
    obtain ⟨⟨⟨⟨⟨⟨⟨hlow,hhigh⟩,hb⟩,hc⟩,hd⟩,hf0⟩,hf4⟩,hrest⟩ := hx
    have hwidth : width a = 4 := by
      rw [width, if_neg ha, if_neg htwo, if_neg hthree, if_pos (by rw [hlow, hhigh]; rfl)]
    have hsecond : continues [a] b = true := by
      have hle : 0xF0 ≤ a := by simpa using hlow
      have hne : ∀ c : UInt8, c ≤ 0xEF → a ≠ c := by
        rintro c hc rfl
        exact absurd (hle.trans hc) (by decide)
      simp [continues, hb, hf0, hf4, hne]
    rw [utf8Lossy, lossy_lead ha (by omega), lossy_more hsecond (by simp [hwidth]),
      lossy_more (by exact hc) (by simp [hwidth]), lossy_done (by exact hd) (by simpa using hwidth)]
    exact congrArg (fun t => a :: b :: c :: d :: t) (ih hrest)

end Scorpio.LossyText
