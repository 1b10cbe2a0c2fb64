import Mathlib

/-!
# Byte texts

Rust strings are compared, measured, split and hashed as UTF-8 bytes, so a
text is its byte list. Ordering is the bytewise lexicographic order of
`str::cmp`. Nothing here assumes that a text is well formed; `validUtf8` is
the check that `std::str::from_utf8` makes on untrusted bytes.
-/

set_option autoImplicit false

namespace Scorpio.ByteText

instance byteOrder : LinearOrder UInt8 where
  le_refl := UInt8.le_refl
  le_trans _ _ _ := UInt8.le_trans
  le_antisymm _ _ := UInt8.le_antisymm
  lt_iff_le_not_ge a b := by
    rw [UInt8.lt_iff_toNat_lt, UInt8.le_iff_toNat_le, UInt8.le_iff_toNat_le]
    omega
  le_total := UInt8.le_total
  toDecidableLE := inferInstance
  toDecidableLT := inferInstance
  toDecidableEq := inferInstance

abbrev Bytes := List UInt8
abbrev Text := List UInt8

instance byteLawful : LawfulBEq UInt8 := inferInstance

instance textLawful : LawfulBEq (List UInt8) := inferInstance

instance pathLawful : LawfulBEq (List Text) := inferInstance

def txt (s : String) : Text := s.toList.flatMap String.utf8EncodeChar

instance : Coe String Text := ⟨txt⟩

@[simp] theorem txt_inj {s t : String} : txt s = txt t ↔ s = t := by
  constructor
  · intro h
    apply String.toByteArray_inj.mp
    rw [← String.utf8Encode_toList, ← String.utf8Encode_toList]
    exact congrArg List.toByteArray h
  · exact congrArg txt

def slash : UInt8 := 47

/-- The two-bit continuation marker of UTF-8. -/
def isContinuation (b : UInt8) : Bool := 0x80 ≤ b && b ≤ 0xBF

def validUtf8 : Bytes → Bool
  | [] => true
  | a :: rest =>
    if a < 0x80 then validUtf8 rest else
    match rest with
    | [] => false
    | b :: rest =>
      if 0xC2 ≤ a && a ≤ 0xDF then isContinuation b && validUtf8 rest else
      match rest with
      | [] => false
      | c :: rest =>
        if 0xE0 ≤ a && a ≤ 0xEF then
          isContinuation b && isContinuation c && (a != 0xE0 || 0xA0 ≤ b) &&
            (a != 0xED || b ≤ 0x9F) && validUtf8 rest
        else
        match rest with
        | [] => false
        | d :: rest =>
          0xF0 ≤ a && a ≤ 0xF4 && isContinuation b && isContinuation c && isContinuation d &&
            (a != 0xF0 || 0x90 ≤ b) && (a != 0xF4 || b ≤ 0x8F) && validUtf8 rest

def fromUtf8 (b : Bytes) : Option Text := if validUtf8 b then some b else none

theorem fromUtf8_some {b : Bytes} {t : Text} (h : fromUtf8 b = some t) :
    t = b ∧ validUtf8 b = true := by
  unfold fromUtf8 at h
  split at h
  · exact ⟨(Option.some.inj h).symm,by assumption⟩
  · simp at h

/-! ## Hexadecimal digits -/

def hexDigit (n : ℕ) : UInt8 := UInt8.ofNat (if n < 10 then 48+n else 87+n)

def hexValue (c : UInt8) : ℕ := if c ≤ 57 then c.toNat-48 else c.toNat-87

def isLowerHex (c : UInt8) : Bool := (48 ≤ c && c ≤ 57) || (97 ≤ c && c ≤ 102)

def hexEncode : Bytes → Text
  | [] => []
  | b :: rest => hexDigit (b.toNat / 16) :: hexDigit (b.toNat % 16) :: hexEncode rest

def hexDecode : Text → Bytes
  | a :: b :: rest => UInt8.ofNat (16*hexValue a+hexValue b) :: hexDecode rest
  | _ => []

theorem hex_digit_value (n : ℕ) (hn : n < 16) : hexValue (hexDigit n) = n := by
  interval_cases n <;> decide

theorem hex_digit_lower (n : ℕ) (hn : n < 16) : isLowerHex (hexDigit n) = true := by
  interval_cases n <;> decide

theorem lower_hex_cases (c : UInt8) (hc : isLowerHex c = true) :
    (48 ≤ c.toNat ∧ c.toNat ≤ 57) ∨ (97 ≤ c.toNat ∧ c.toNat ≤ 102) := by
  simpa [isLowerHex, UInt8.le_iff_toNat_le] using hc

theorem hex_value_lt (c : UInt8) (hc : isLowerHex c = true) : hexValue c < 16 := by
  have h := lower_hex_cases c hc
  simp only [hexValue, UInt8.le_iff_toNat_le, UInt8.reduceToNat]
  split <;> omega

theorem hex_value_digit (c : UInt8) (hc : isLowerHex c = true) : hexDigit (hexValue c) = c := by
  have h := lower_hex_cases c hc
  apply UInt8.toNat_inj.mp
  simp only [hexDigit, hexValue, UInt8.le_iff_toNat_le, UInt8.reduceToNat, UInt8.toNat_ofNat']
  split <;> split <;> omega

@[simp] theorem hex_encode_length (b : Bytes) : (hexEncode b).length = 2*b.length := by
  induction b with
  | nil => rfl
  | cons x b ih =>
    simp only [hexEncode, List.length_cons, ih]
    omega

theorem hex_encode_lower (b : Bytes) : (hexEncode b).all isLowerHex = true := by
  induction b with
  | nil => rfl
  | cons x b ih =>
    have hx : x.toNat < 256 := x.toNat_lt
    simp only [hexEncode, List.all_cons, ih, hex_digit_lower _ (show x.toNat/16 < 16 by omega),
      hex_digit_lower _ (Nat.mod_lt _ (by decide)), Bool.and_self]

theorem hex_decode_encode (b : Bytes) : hexDecode (hexEncode b) = b := by
  induction b with
  | nil => rfl
  | cons x b ih =>
    have hx : x.toNat < 256 := x.toNat_lt
    simp only [hexEncode, hexDecode, ih, hex_digit_value _ (show x.toNat/16 < 16 by omega),
      hex_digit_value _ (Nat.mod_lt _ (by decide)), Nat.div_add_mod, UInt8.ofNat_toNat]

theorem hex_encode_injective : Function.Injective hexEncode :=
  Function.LeftInverse.injective hex_decode_encode

theorem hex_encode_decode (s : Text) (n : ℕ) (hn : s.length = 2*n)
    (hs : s.all isLowerHex = true) : hexEncode (hexDecode s) = s ∧ (hexDecode s).length = n := by
  induction n generalizing s with
  | zero =>
    obtain rfl : s = [] := List.length_eq_zero_iff.mp (by omega)
    exact ⟨rfl,rfl⟩
  | succ n ih =>
    match s, hn, hs with
    | a :: b :: rest, hn, hs =>
      simp only [List.all_cons, Bool.and_eq_true] at hs
      obtain ⟨ha,hb,hr⟩ := hs
      obtain ⟨he,hl⟩ := ih rest (by simp only [List.length_cons] at hn; omega) hr
      have hav := hex_value_lt a ha
      have hbv := hex_value_lt b hb
      have hm : (UInt8.ofNat (16*hexValue a+hexValue b)).toNat = 16*hexValue a+hexValue b := by
        rw [UInt8.toNat_ofNat']
        omega
      constructor
      · simp only [hexDecode, hexEncode, hm, he]
        rw [show (16*hexValue a+hexValue b)/16 = hexValue a by omega,
          show (16*hexValue a+hexValue b)%16 = hexValue b by omega,
          hex_value_digit a ha, hex_value_digit b hb]
      · simp [hexDecode, hl]

end Scorpio.ByteText
