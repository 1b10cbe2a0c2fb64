import Scorpio.Authority.CacheDomains
import Scorpio.Base.JsonText
import Scorpio.Snapshot.DirectoryPages

/-!
# Scalars on the wire

The texts of digests and counters in `snapshot::frames`, the second decimal
parser in `snapshot::auth`, and the percent encoding of paths in URLs. Every
parser accepts one notation of each value and nothing else.
-/

set_option autoImplicit false

namespace Scorpio.WireScalars

open ByteText Fallible PageCodec
open DirectoryPages (isDigit decimalValue parseCount)
open JsonText (decimal)

def hex32 (b : Digest) : Text := hexEncode b.val

/-! ## Decimal counters -/

/-- What both decimal parsers ask of a text before they read its value. -/
def Canonical (s : Text) : Prop :=
  s ≠ [] ∧ s.all isDigit = true ∧ (1 < s.length → s.head? ≠ some 48)

def digitByte (d : ℕ) : UInt8 := UInt8.ofNat (48+d)

theorem digit_byte_char {d : ℕ} (hd : d < 10) : UInt8.ofNat d.digitChar.toNat = digitByte d := by
  interval_cases d <;> decide

theorem digit_byte_value {d : ℕ} (hd : d < 10) :
    isDigit (digitByte d) = true ∧ (digitByte d).toNat-48 = d := by
  interval_cases d <;> decide

theorem digit_byte_of {b : UInt8} (hb : isDigit b = true) :
    b.toNat-48 < 10 ∧ digitByte (b.toNat-48) = b := by
  have hrange : 48 ≤ b.toNat ∧ b.toNat ≤ 57 := by
    simpa [isDigit, UInt8.le_iff_toNat_le] using hb
  refine ⟨by omega,UInt8.toNat_inj.mp ?_⟩
  rw [digitByte, UInt8.toNat_ofNat']
  omega

theorem decimal_digit {d : ℕ} (hd : d < 10) : decimal d = [digitByte d] := by
  rw [decimal, Nat.toDigits_of_lt_base hd, List.map_singleton, digit_byte_char hd]

theorem decimal_snoc {n d : ℕ} (hn : 0 < n) (hd : d < 10) :
    decimal (10*n+d) = decimal n ++ [digitByte d] := by
  rw [decimal, Nat.toDigits_of_base_le (by decide) (by omega),
    show (10*n+d)/10 = n by omega, show (10*n+d)%10 = d by omega, List.map_append,
    List.map_singleton, digit_byte_char hd, decimal]

theorem value_snoc (s : Text) (b : UInt8) :
    decimalValue (s ++ [b]) = 10*decimalValue s+(b.toNat-48) := by
  simp [decimalValue]

theorem canonical_decimal (n : ℕ) :
    Canonical (decimal n) ∧ decimalValue (decimal n) = n ∧
      (0 < n → (decimal n).head? ≠ some 48) := by
  induction n using Nat.strong_induction_on with
  | _ n ih =>
    by_cases hn : n < 10
    · unfold Canonical
      interval_cases n <;> decide
    · obtain ⟨m,d,hm,hd,rfl⟩ : ∃ m d, 0 < m ∧ d < 10 ∧ n = 10*m+d :=
        ⟨n/10,n%10,by omega,by omega,by omega⟩
      obtain ⟨⟨hne,hdigits,_⟩,hvalue,hhead⟩ := ih m (by omega)
      rw [decimal_snoc hm hd, value_snoc, hvalue, (digit_byte_value hd).2, Canonical,
        List.head?_append_of_ne_nil _ hne, List.all_append, hdigits]
      simp [hhead hm, (digit_byte_value hd).1]

theorem decimal_value {s : Text} (h : Canonical s) :
    decimal (decimalValue s) = s := by
  -- on the last digit: what stands before it is canonical again
  induction s using List.reverseRecOn with
  | nil => exact absurd rfl h.1
  | append_singleton t b ih =>
    obtain ⟨_,hall,hzero⟩ := h
    rw [List.all_append, Bool.and_eq_true] at hall
    obtain ⟨hd,hbyte⟩ := digit_byte_of (by simpa using hall.2)
    rw [value_snoc]
    by_cases hne : t = []
    · subst hne
      rw [show decimalValue [] = 0 from rfl, Nat.mul_zero, Nat.zero_add,
        decimal_digit hd, hbyte, List.nil_append]
    · have hlen := List.length_pos_of_ne_nil hne
      have hhead : t.head? ≠ some 48 := by
        have := hzero (by rw [List.length_append, List.length_singleton]; omega)
        rwa [List.head?_append_of_ne_nil _ hne] at this
      have hprev := ih ⟨hne,hall.1,fun _ => hhead⟩
      have hpos : 0 < decimalValue t := by
        by_contra hnot
        rw [Nat.eq_zero_of_not_pos hnot] at hprev
        exact hhead (by rw [← hprev]; decide)
      rw [decimal_snoc hpos hd, hprev, hbyte]

theorem parse_count_iff {s field : Text} {n : ℕ} :
    parseCount s field = .ok n ↔ s = decimal n ∧ n ≤ i64Max := by
  have hparse : parseCount s field = .ok n ↔
      Canonical s ∧ decimalValue s ≤ i64Max ∧ decimalValue s = n := by
    simp only [parseCount, bind_ok, require_ok, pure_ok, decide_eq_true_eq, Canonical]
    simp
  rw [hparse]
  constructor
  · rintro ⟨hcanonical,hle,rfl⟩
    exact ⟨(decimal_value hcanonical).symm,hle⟩
  · rintro ⟨rfl,hle⟩
    obtain ⟨hcanonical,hvalue,_⟩ := canonical_decimal n
    exact ⟨hcanonical,hvalue.symm ▸ hle,hvalue⟩

/-- The two parsers differ in their errors only. -/
theorem decimal_iff {s field field' : Text} {n : ℕ} :
    Authority.decimal s field = .ok n ↔ parseCount s field' = .ok n := by
  have hroom : i64Max ≤ usizeMax := by decide
  have hsame : Authority.decimalValue s = decimalValue s := rfl
  have hdigit : Authority.isDigit = isDigit := rfl
  simp only [Authority.decimal, parseCount, bind_ok, require_ok, pure_ok, hsame,
    hdigit, decide_eq_true_eq]
  constructor
  · rintro ⟨_,hs,_,_,_,hle,hn⟩
    exact ⟨(),hs,(),hle,hn⟩
  · rintro ⟨_,hs,_,hle,hn⟩
    exact ⟨(),hs,(),hle.trans hroom,(),hle,hn⟩

/-! ## Percent encoding -/

def unreserved (b : UInt8) : Bool :=
  (65 ≤ b && b ≤ 90) || (97 ≤ b && b ≤ 122) || (48 ≤ b && b ≤ 57) || b ∈ [45,95,46,126,47]

def upperHexDigit (n : ℕ) : UInt8 := UInt8.ofNat (if n < 10 then 48+n else 55+n)

def urlencodeByte (b : UInt8) : Bytes :=
  if unreserved b then [b] else [37,upperHexDigit (b.toNat/16),upperHexDigit (b.toNat%16)]

def urlencode (s : Bytes) : Bytes := s.flatMap urlencodeByte

theorem upper_hex_digit_inj : ∀ m < 16, ∀ n < 16, upperHexDigit m = upperHexDigit n → m = n := by
  decide

theorem urlencode_byte_inj {a b : UInt8} {s t : Bytes}
    (h : urlencodeByte a ++ s = urlencodeByte b ++ t) : a = b ∧ s = t := by
  have hpercent : unreserved 37 = false := by decide
  unfold urlencodeByte at h
  split at h <;> split at h
  · simpa using h
  · rename_i ha _
    rw [(List.cons.inj h).1, hpercent] at ha
    cases ha
  · rename_i _ hb
    rw [← (List.cons.inj h).1, hpercent] at hb
    cases hb
  · simp only [List.cons_append, List.nil_append, List.cons.injEq, true_and] at h
    obtain ⟨hhigh,hlow,hrest⟩ := h
    have ha : a.toNat < 256 := a.toNat_lt
    have hb : b.toNat < 256 := b.toNat_lt
    have hhigh := upper_hex_digit_inj _ (by omega) _ (by omega) hhigh
    have hlow := upper_hex_digit_inj _ (by omega) _ (by omega) hlow
    exact ⟨UInt8.toNat_inj.mp (by omega),hrest⟩

theorem urlencode_byte_ne_nil (b : UInt8) (s : Bytes) : urlencodeByte b ++ s ≠ [] := by
  unfold urlencodeByte
  split <;> simp

theorem urlencode_injective : Function.Injective urlencode := by
  intro s
  induction s with
  | nil =>
    intro t h
    cases t with
    | nil => rfl
    | cons b t => exact absurd h.symm (urlencode_byte_ne_nil b _)
  | cons a s ih =>
    intro t h
    cases t with
    | nil => exact absurd h (urlencode_byte_ne_nil a _)
    | cons b t =>
      obtain ⟨rfl,hrest⟩ := urlencode_byte_inj h
      rw [ih hrest]

/-- Digests and counters have one text each, both decimal parsers agree, and different byte
strings have different percent encodings. -/
theorem wire_scalars_canonical :
    (∀ s b, parseDigest s = .ok b ↔ s = txt "sha256:" ++ hex32 b) ∧
    (∀ s field n, parseCount s field = .ok n ↔
      s = decimal n ∧ n ≤ i64Max) ∧
    (∀ s field field' n, Authority.decimal s field = .ok n ↔
      parseCount s field' = .ok n) ∧
    Function.Injective urlencode := by
  refine ⟨fun s b => ⟨fun h => parse_digest_ok h,?_⟩,fun _ _ _ => parse_count_iff,
    fun _ _ _ _ => decimal_iff,urlencode_injective⟩
  rintro rfl
  exact parse_digest_digest b

end Scorpio.WireScalars
