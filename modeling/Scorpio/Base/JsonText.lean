import Scorpio.Base.TornLines

/-!
# Compact JSON text

The bytes that `serde_json::to_vec` writes for a value: no blanks, the fields of
an object in the order of the list, strings escaped byte by byte. Every byte
written is printable or part of a UTF-8 sequence, so a value never spans a line.
-/

set_option autoImplicit false

namespace Scorpio.JsonText

open ByteText TornLines

inductive Json where
  | null
  | bool (b : Bool)
  | number (n : ℤ)
  | string (s : Text)
  | array (items : List Json)
  | object (fields : List (Text × Json))

def comma : UInt8 := 44

/-- The digits of a natural number, most significant first. -/
def decimal (n : ℕ) : Text := (Nat.toDigits 10 n).map fun c => UInt8.ofNat c.toNat

def signedDecimal : ℤ → Text
  | .ofNat n => decimal n
  | .negSucc n => 45 :: decimal (n+1)

def escapeByte (b : UInt8) : Bytes :=
  if b = 34 then [92,34]
  else if b = 92 then [92,92]
  else if b = 8 then [92,98]
  else if b = 9 then [92,116]
  else if b = 10 then [92,110]
  else if b = 12 then [92,102]
  else if b = 13 then [92,114]
  else if b < 32 then [92,117,48,48,hexDigit (b.toNat/16),hexDigit (b.toNat%16)]
  else [b]

def quote (s : Text) : Bytes := 34 :: s.flatMap escapeByte ++ [34]

/-- The parts of an array or an object with commas between them. -/
def separated : List Bytes → Bytes
  | [] => []
  | x :: xs => x ++ xs.flatMap (comma :: ·)

mutual

def Json.toVec : Json → Bytes
  | .null => txt "null"
  | .bool b => if b then txt "true" else txt "false"
  | .number n => signedDecimal n
  | .string s => quote s
  | .array items => 91 :: separated (itemVecs items) ++ [93]
  | .object fields => 123 :: separated (fieldVecs fields) ++ [125]

def itemVecs : List Json → List Bytes
  | [] => []
  | x :: xs => x.toVec :: itemVecs xs

def fieldVecs : List (Text × Json) → List Bytes
  | [] => []
  | x :: xs => fieldVec x :: fieldVecs xs

def fieldVec : Text × Json → Bytes
  | (key,value) => quote key ++ 58 :: value.toVec

end

theorem item_vecs_map (items : List Json) : itemVecs items = items.map Json.toVec := by
  induction items with
  | nil => rfl
  | cons x xs ih => rw [itemVecs, ih, List.map_cons]

theorem field_vecs_map (fields : List (Text × Json)) : fieldVecs fields = fields.map fieldVec := by
  induction fields with
  | nil => rfl
  | cons x xs ih => rw [fieldVecs, ih, List.map_cons]

/-! ## Lengths -/

/-- The bytes of the parts and one comma between any two of them. -/
theorem separated_length (xs : List Bytes) :
    (separated xs).length = (xs.map List.length).sum+(xs.length-1) := by
  cases xs with
  | nil => rfl
  | cons x xs =>
    have hrest : (xs.flatMap (comma :: ·)).length = (xs.map List.length).sum+xs.length := by
      induction xs with
      | nil => rfl
      | cons y ys ih =>
        rw [List.flatMap_cons, List.length_append, ih]
        simp only [List.length_cons, List.map_cons, List.sum_cons]
        omega
    rw [separated, List.length_append, hrest]
    simp only [List.map_cons, List.sum_cons, List.length_cons]
    omega

theorem array_length (items : List Json) : (Json.array items).toVec.length =
    (items.map fun x => x.toVec.length).sum+(items.length-1)+2 := by
  rw [Json.toVec, List.length_append, List.length_cons, separated_length, item_vecs_map]
  simp only [List.map_map, List.length_map, List.length_cons, List.length_nil, Function.comp_def]

theorem object_length (fields : List (Text × Json)) : (Json.object fields).toVec.length =
    (fields.map fun x => (fieldVec x).length).sum+(fields.length-1)+2 := by
  rw [Json.toVec, List.length_append, List.length_cons, separated_length, field_vecs_map]
  simp only [List.map_map, List.length_map, List.length_cons, List.length_nil, Function.comp_def]

theorem field_length (key : Text) (value : Json) :
    (fieldVec (key,value)).length = (quote key).length+1+value.toVec.length := by
  rw [fieldVec, List.length_append, List.length_cons]
  omega

/-! ## Text on one line -/

/-- Valid text without a newline. -/
structure Clean (b : Bytes) : Prop where
  valid : validUtf8 b = true
  unbroken : Unbroken b

/-- The bytes of one character. -/
inductive IsChar : Bytes → Prop
  | one {a : UInt8} (ha : a < 0x80) : IsChar [a]
  | two {a b : UInt8} (ha : ¬a < 0x80) (hlead : (0xC2 ≤ a && a ≤ 0xDF) = true)
      (hb : isContinuation b = true) : IsChar [a,b]
  | three {a b c : UInt8} (ha : ¬a < 0x80) (htwo : ¬(0xC2 ≤ a && a ≤ 0xDF) = true)
      (hlead : (0xE0 ≤ a && a ≤ 0xEF) = true) (h : (isContinuation b && isContinuation c &&
        (a != 0xE0 || 0xA0 ≤ b) && (a != 0xED || b ≤ 0x9F)) = true) : IsChar [a,b,c]
  | four {a b c d : UInt8} (ha : ¬a < 0x80) (htwo : ¬(0xC2 ≤ a && a ≤ 0xDF) = true)
      (hthree : ¬(0xE0 ≤ a && a ≤ 0xEF) = true) (h : (0xF0 ≤ a && a ≤ 0xF4 &&
        isContinuation b && isContinuation c && isContinuation d && (a != 0xF0 || 0x90 ≤ b) &&
        (a != 0xF4 || b ≤ 0x8F)) = true) : IsChar [a,b,c,d]

theorem valid_char {c : Bytes} (hc : IsChar c) (rest : Bytes) :
    validUtf8 (c ++ rest) = validUtf8 rest := by
  cases hc with
  | one ha =>
    rw [List.singleton_append, validUtf8.eq_def]
    exact if_pos ha
  | two ha hlead hb =>
    rw [List.cons_append, List.singleton_append, validUtf8.eq_def]
    simp only [if_neg ha, if_pos hlead, hb, Bool.true_and]
  | three ha htwo hlead h =>
    rw [List.cons_append, List.cons_append, List.singleton_append, validUtf8.eq_def]
    simp only [if_neg ha, if_neg htwo, if_pos hlead, h, Bool.true_and]
  | four ha htwo hthree h =>
    rw [List.cons_append, List.cons_append, List.cons_append, List.singleton_append,
      validUtf8.eq_def]
    simp only [if_neg ha, if_neg htwo, if_neg hthree, h, Bool.true_and]

/-- Valid text is read one character at a time. -/
theorem valid_induction {P : Bytes → Prop} (hnil : P [])
    (hchar : ∀ c rest, IsChar c → validUtf8 rest = true → P rest → P (c ++ rest)) (s : Bytes)
    (h : validUtf8 s = true) : P s := by
  fun_induction validUtf8 s with
  | case1 => exact hnil
  | case2 a rest ha ih => exact hchar [a] rest (.one ha) h (ih h)
  | case3 => cases h
  | case4 a ha b rest hlead ih =>
    obtain ⟨hb,hrest⟩ := Bool.and_eq_true_iff.mp h
    exact hchar [a,b] rest (.two ha hlead hb) hrest (ih hrest)
  | case5 => cases h
  | case6 a ha b htwo c rest hlead ih =>
    obtain ⟨hseq,hrest⟩ := Bool.and_eq_true_iff.mp h
    exact hchar [a,b,c] rest (.three ha htwo hlead hseq) hrest (ih hrest)
  | case7 => cases h
  | case8 a ha b htwo c hthree d rest ih =>
    obtain ⟨hseq,hrest⟩ := Bool.and_eq_true_iff.mp h
    exact hchar [a,b,c,d] rest (.four ha htwo hthree hseq) hrest (ih hrest)

theorem valid_append {a b : Bytes} (ha : validUtf8 a = true) (hb : validUtf8 b = true) :
    validUtf8 (a ++ b) = true := by
  apply valid_induction _ _ a ha
  · exact hb
  · intro c rest hc _ ih
    rwa [List.append_assoc, valid_char hc]

theorem Clean.append {a b : Bytes} (ha : Clean a) (hb : Clean b) : Clean (a ++ b) :=
  ⟨valid_append ha.valid hb.valid,unbroken_append ha.unbroken hb.unbroken⟩

theorem clean_ascii {b : Bytes} (h : ∀ x ∈ b, x < 0x80 ∧ x ≠ newline) : Clean b := by
  induction b with
  | nil => exact ⟨rfl,by decide⟩
  | cons x b ih =>
    obtain ⟨hx,hne⟩ := h x (by simp)
    obtain ⟨hvalid,hunbroken⟩ := ih fun y hy => h y (by simp [hy])
    exact ⟨(valid_char (.one hx) b).trans hvalid,unbroken_cons hne hunbroken⟩

theorem hex_digit_ascii (n : ℕ) (hn : n < 16) : hexDigit n < 0x80 ∧ hexDigit n ≠ newline := by
  interval_cases n <;> decide

/-- An escaped byte is printable ASCII or the byte itself. -/
theorem escape_cases (b : UInt8) : (∀ x ∈ escapeByte b, x < 0x80 ∧ x ≠ newline) ∨
    (escapeByte b = [b] ∧ ¬b < 0x80) := by
  have hfixed : ∀ y : UInt8, y < 0x80 ∧ y ≠ newline → ∀ x ∈ [92,y], x < 0x80 ∧ x ≠ newline := by
    intro y hy x hx
    rcases List.mem_pair.mp hx with rfl | rfl
    · decide
    · exact hy
  unfold escapeByte
  split_ifs with h₁ h₂ h₃ h₄ h₅ h₆ h₇ h₈
  · exact .inl (hfixed 34 (by decide))
  · exact .inl (hfixed 92 (by decide))
  · exact .inl (hfixed 98 (by decide))
  · exact .inl (hfixed 116 (by decide))
  · exact .inl (hfixed 110 (by decide))
  · exact .inl (hfixed 102 (by decide))
  · exact .inl (hfixed 114 (by decide))
  · left
    have hlt : b.toNat < 256 := b.toNat_lt
    simp only [List.forall_mem_cons, List.not_mem_nil, false_implies, implies_true, and_true]
    exact ⟨by decide,by decide,by decide,by decide,hex_digit_ascii _ (by omega),
      hex_digit_ascii _ (by omega)⟩
  · by_cases hb : b < 0x80
    · left
      intro x hx
      obtain rfl := List.mem_singleton.mp hx
      exact ⟨hb,h₅⟩
    · exact .inr ⟨rfl,hb⟩

theorem escape_high {b : UInt8} (hb : ¬b < 0x80) : escapeByte b = [b] := by
  have hne : ∀ c : UInt8, c < 0x80 → b ≠ c := by
    rintro c hc rfl
    exact hb hc
  have hlow : ¬b < 32 := fun h => hb (h.trans (by decide))
  simp only [escapeByte, hne 34 (by decide), hne 92 (by decide), hne 8 (by decide),
    hne 9 (by decide), hne 10 (by decide), hne 12 (by decide), hne 13 (by decide), hlow, if_false]

/-- The bytes of a longer character are not escaped. -/
theorem clean_high {c : Bytes} (hc : IsChar c) (hhigh : ∀ b ∈ c, ¬b < 0x80) :
    Clean (c.flatMap escapeByte) := by
  have hsame : c.flatMap escapeByte = c := by
    rw [List.flatMap_congr fun b hb => escape_high (hhigh b hb), List.flatMap_singleton']
  rw [hsame]
  refine ⟨?_,fun h => hhigh newline h (by decide)⟩
  have hvalid := valid_char hc []
  rwa [List.append_nil] at hvalid

theorem continuation_high {b : UInt8} (h : isContinuation b = true) : ¬b < 0x80 := by
  simp only [isContinuation, Bool.and_eq_true, decide_eq_true_eq] at h
  exact not_lt.mpr h.1

theorem clean_char {c : Bytes} (hc : IsChar c) : Clean (c.flatMap escapeByte) := by
  cases hc with
  | @one a ha =>
    rw [List.flatMap_singleton]
    rcases escape_cases a with h | h
    · exact clean_ascii h
    · exact absurd ha h.2
  | @two a b ha hlead hb =>
    apply clean_high (.two ha hlead hb)
    exact List.forall_mem_cons.mpr ⟨ha,List.forall_mem_singleton.mpr (continuation_high hb)⟩
  | @three a b c ha htwo hlead h =>
    apply clean_high (.three ha htwo hlead h)
    simp only [Bool.and_eq_true] at h
    exact List.forall_mem_cons.mpr ⟨ha,List.forall_mem_cons.mpr
      ⟨continuation_high h.1.1.1,List.forall_mem_singleton.mpr (continuation_high h.1.1.2)⟩⟩
  | @four a b c d ha htwo hthree h =>
    apply clean_high (.four ha htwo hthree h)
    simp only [Bool.and_eq_true] at h
    exact List.forall_mem_cons.mpr ⟨ha,List.forall_mem_cons.mpr
      ⟨continuation_high h.1.1.1.1.2,List.forall_mem_cons.mpr ⟨continuation_high h.1.1.1.2,
        List.forall_mem_singleton.mpr (continuation_high h.1.1.2)⟩⟩⟩

theorem clean_escaped {s : Text} (h : validUtf8 s = true) : Clean (s.flatMap escapeByte) := by
  apply valid_induction _ _ s h
  · exact ⟨rfl,by decide⟩
  · intro c rest hc _ ih
    rw [List.flatMap_append]
    exact (clean_char hc).append ih

theorem clean_quote {s : Text} (h : validUtf8 s = true) : Clean (quote s) := by
  have hmark : Clean [34] := clean_ascii fun x hx => by
    obtain rfl := List.mem_singleton.mp hx
    decide
  exact (hmark.append (clean_escaped h)).append hmark

theorem clean_decimal (n : ℕ) : Clean (decimal n) := by
  apply clean_ascii
  intro x hx
  obtain ⟨c,hc,rfl⟩ := List.mem_map.mp hx
  have hdigit := Nat.isDigit_of_mem_toDigits (by decide) (by decide) hc
  have hrange : 48 ≤ c.toNat ∧ c.toNat ≤ 57 := by
    simpa [Char.isDigit, UInt32.le_iff_toNat_le] using hdigit
  obtain ⟨hlow,hhigh⟩ := hrange
  generalize c.toNat = m at hlow hhigh
  interval_cases m <;> decide

theorem clean_separated {xs : List Bytes} (h : ∀ x ∈ xs, Clean x) : Clean (separated xs) := by
  have hcomma : Clean [comma] := clean_ascii fun x hx => by
    obtain rfl := List.mem_singleton.mp hx
    decide
  have hrest : ∀ ys : List Bytes, (∀ y ∈ ys, Clean y) → Clean (ys.flatMap (comma :: ·)) := by
    intro ys hys
    induction ys with
    | nil => exact ⟨rfl,by decide⟩
    | cons y ys ih =>
      obtain ⟨hy,hys⟩ := List.forall_mem_cons.mp hys
      rw [List.flatMap_cons]
      exact (hcomma.append hy).append (ih hys)
  cases xs with
  | nil => exact ⟨rfl,by decide⟩
  | cons x xs =>
    obtain ⟨hx,hxs⟩ := List.forall_mem_cons.mp h
    exact hx.append (hrest xs hxs)

example : (Json.object [("items",.array [.number 12,.string "a\"b"])]).toVec =
    txt "\x7b\"items\":[12,\"a\\\"b\"]\x7d" := by decide +kernel

theorem clean_object {fields : List (Text × Json)}
    (h : ∀ f ∈ fields, validUtf8 f.1 = true ∧ Clean f.2.toVec) :
    Clean (Json.object fields).toVec := by
  have hmark : ∀ a : UInt8, a < 0x80 ∧ a ≠ newline → Clean [a] := by
    intro a ha
    apply clean_ascii
    intro x hx
    rw [List.mem_singleton.mp hx]
    exact ha
  have hfields : Clean (separated (fieldVecs fields)) := by
    apply clean_separated
    intro x hx
    rw [field_vecs_map] at hx
    obtain ⟨f,hf,rfl⟩ := List.mem_map.mp hx
    rw [fieldVec]
    exact (clean_quote (h f hf).1).append ((hmark 58 (by decide)).append (h f hf).2)
  rw [Json.toVec]
  exact ((hmark 123 (by decide)).append hfields).append (hmark 125 (by decide))

end Scorpio.JsonText
