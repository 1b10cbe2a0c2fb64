import Scorpio.Snapshot.PageCodec

/-!
# Strict base64

`b64_decode` of `snapshot::frames` reads the standard alphabet with padding. What
it accepts is compared with the canonical encoding, which is written here with
the numbers that the digits stand for. A text that is accepted is the encoding of
the bytes it stands for, so no two texts stand for the same bytes.
-/

set_option autoImplicit false

namespace Scorpio.StrictBase64

open ByteText Fallible PageCodec

/-! ## The decoder -/

def dec (c : UInt8) : Option UInt8 :=
  if 65 ≤ c ∧ c ≤ 90 then some (c-65)
  else if 97 ≤ c ∧ c ≤ 122 then some (c-97+26)
  else if 48 ≤ c ∧ c ≤ 57 then some (c-48+52)
  else if c = 43 then some 62
  else if c = 47 then some 63
  else none

def invalid : SnapshotError := integrity "invalid canonical padded base64"

def pad : UInt8 := 61

/-- The bytes of one group of four characters. -/
def decodeGroup (finalGroup : Bool) (c0 c1 c2 c3 : UInt8) : Result Bytes := do
  let a ← okOr (dec c0) invalid
  let b ← okOr (dec c1) invalid
  if c2 = pad then
    if !finalGroup || c3 ≠ pad || b &&& 0x0f ≠ 0 then .error invalid
    else pure [(a <<< 2) ||| (b >>> 4)]
  else do
    let c ← okOr (dec c2) invalid
    if c3 = pad then
      if !finalGroup || c &&& 0x03 ≠ 0 then .error invalid
      else pure [(a <<< 2) ||| (b >>> 4),((b &&& 0x0f) <<< 4) ||| (c >>> 2)]
    else do
      let d ← okOr (dec c3) invalid
      pure [(a <<< 2) ||| (b >>> 4),((b &&& 0x0f) <<< 4) ||| (c >>> 2),((c &&& 0x03) <<< 6) ||| d]

/-- The loop over the groups; the last group is the one that nothing follows. -/
def decodeGroups : Bytes → Bytes → Result Bytes
  | c0 :: c1 :: c2 :: c3 :: rest, out => do
    let bytes ← decodeGroup rest.isEmpty c0 c1 c2 c3
    decodeGroups rest (out ++ bytes)
  | _, out => pure out

def b64Decode (s : Text) : Result Bytes :=
  if s.length % 4 ≠ 0 then .error invalid else decodeGroups s []

/-! ## The canonical encoding -/

/-- The character of a digit. -/
def symbol (n : ℕ) : UInt8 :=
  if n < 26 then UInt8.ofNat (65+n)
  else if n < 52 then UInt8.ofNat (97+(n-26))
  else if n < 62 then UInt8.ofNat (48+(n-52))
  else if n = 62 then 43
  else 47

/-- Three bytes are four digits; a rest of one or two bytes is padded, and its unused bits are
zero. -/
def encode : Bytes → Text
  | [] => []
  | [x] => [symbol (x.toNat/4),symbol (x.toNat%4*16),pad,pad]
  | [x,y] => [symbol (x.toNat/4),symbol (x.toNat%4*16+y.toNat/16),symbol (y.toNat%16*4),pad]
  | x :: y :: z :: rest => symbol (x.toNat/4) :: symbol (x.toNat%4*16+y.toNat/16) ::
      symbol (y.toNat%16*4+z.toNat/64) :: symbol (z.toNat%64) :: encode rest

/-! ## Digits -/

theorem symbol_digit : ∀ n < 64, dec (symbol n) = some (UInt8.ofNat n) ∧ symbol n ≠ pad := by
  decide

theorem dec_symbol (n : ℕ) (hn : n < 64) : dec (symbol n) = some (UInt8.ofNat n) :=
  (symbol_digit n hn).1

theorem symbol_ne_pad (n : ℕ) (hn : n < 64) : symbol n ≠ pad := (symbol_digit n hn).2

set_option maxRecDepth 5000 in
theorem dec_inverse {c v : UInt8} (hv : dec c = some v) : v.toNat < 64 ∧ symbol v.toNat = c := by
  have hall : ∀ n < 256, (dec (UInt8.ofNat n)).all fun v =>
      v.toNat < 64 ∧ symbol v.toNat = UInt8.ofNat n := by decide
  have hc := hall c.toNat c.toNat_lt
  rw [UInt8.ofNat_toNat, hv] at hc
  simpa using hc

theorem dec_some {c v : UInt8} : dec c = some v ↔ v.toNat < 64 ∧ c = symbol v.toNat := by
  constructor
  · intro hv
    obtain ⟨hlt,hsymbol⟩ := dec_inverse hv
    exact ⟨hlt,hsymbol.symm⟩
  · rintro ⟨hlt,rfl⟩
    rw [dec_symbol _ hlt, UInt8.ofNat_toNat]

/-! ## Bits as numbers -/

section Bits

variable (a b : UInt8)

/-- The upper digit is moved past the bits of the lower one. -/
theorem bits_joined {m n k : ℕ} (hm : m*2^k < 2^8) (hn : n < 2^k) :
    m <<< k % 2^8 ||| n = m*2^k+n := by
  rw [Nat.shiftLeft_eq, Nat.mod_eq_of_lt hm, ← Nat.shiftLeft_eq,
    ← Nat.shiftLeft_add_eq_or_of_lt hn, Nat.shiftLeft_eq]

theorem first_byte (ha : a.toNat < 64) (hb : b.toNat < 64) :
    ((a <<< 2) ||| (b >>> 4)).toNat = a.toNat*4+b.toNat/16 := by
  rw [UInt8.toNat_or, UInt8.toNat_shiftLeft, UInt8.toNat_shiftRight, Nat.shiftRight_eq_div_pow]
  exact bits_joined (n := b.toNat/16) (k := 2) (by omega) (by omega)

theorem second_byte (hb : b.toNat < 64) :
    (((a &&& 0x0f) <<< 4) ||| (b >>> 2)).toNat = a.toNat%16*16+b.toNat/4 := by
  have hlow : (a &&& 0x0f).toNat = a.toNat%16 := Nat.and_two_pow_sub_one_eq_mod a.toNat 4
  rw [UInt8.toNat_or, UInt8.toNat_shiftLeft, UInt8.toNat_shiftRight, Nat.shiftRight_eq_div_pow,
    hlow]
  exact bits_joined (n := b.toNat/4) (k := 4) (by omega) (by omega)

theorem third_byte (hb : b.toNat < 64) :
    (((a &&& 0x03) <<< 6) ||| b).toNat = a.toNat%4*64+b.toNat := by
  have hlow : (a &&& 0x03).toNat = a.toNat%4 := Nat.and_two_pow_sub_one_eq_mod a.toNat 2
  rw [UInt8.toNat_or, UInt8.toNat_shiftLeft, hlow]
  exact bits_joined (k := 6) (by omega) hb

theorem low_four : a &&& 0x0f = 0 ↔ a.toNat%16 = 0 := by
  rw [← UInt8.toNat_inj, UInt8.toNat_and]
  exact Eq.congr_left (Nat.and_two_pow_sub_one_eq_mod a.toNat 4)

theorem low_two : a &&& 0x03 = 0 ↔ a.toNat%4 = 0 := by
  rw [← UInt8.toNat_inj, UInt8.toNat_and]
  exact Eq.congr_left (Nat.and_two_pow_sub_one_eq_mod a.toNat 2)

end Bits

/-! ## One group -/

/-- The digits of the bytes that two digits, three digits and four digits stand for. -/
theorem encode_one {a b x : UInt8} (ha : a.toNat < 64) (hb : b.toNat < 64)
    (hx : x = (a <<< 2) ||| (b >>> 4)) (hzero : b.toNat%16 = 0) :
    encode [x] = [symbol a.toNat,symbol b.toNat,pad,pad] := by
  have hfirst := first_byte a b ha hb
  rw [← hx] at hfirst
  rw [encode, show x.toNat/4 = a.toNat by omega, show x.toNat%4*16 = b.toNat by omega]

theorem encode_two {a b c x y : UInt8} (ha : a.toNat < 64) (hb : b.toNat < 64) (hc : c.toNat < 64)
    (hx : x = (a <<< 2) ||| (b >>> 4)) (hy : y = ((b &&& 0x0f) <<< 4) ||| (c >>> 2))
    (hzero : c.toNat%4 = 0) :
    encode [x,y] = [symbol a.toNat,symbol b.toNat,symbol c.toNat,pad] := by
  have hfirst := first_byte a b ha hb
  have hsecond := second_byte b c hc
  rw [← hx] at hfirst
  rw [← hy] at hsecond
  rw [encode, show x.toNat/4 = a.toNat by omega,
    show x.toNat%4*16+y.toNat/16 = b.toNat by omega, show y.toNat%16*4 = c.toNat by omega]

theorem encode_three {a b c d x y z : UInt8} (ha : a.toNat < 64) (hb : b.toNat < 64)
    (hc : c.toNat < 64) (hd : d.toNat < 64) (hx : x = (a <<< 2) ||| (b >>> 4))
    (hy : y = ((b &&& 0x0f) <<< 4) ||| (c >>> 2)) (hz : z = ((c &&& 0x03) <<< 6) ||| d)
    (rest : Bytes) : encode (x :: y :: z :: rest) =
      symbol a.toNat :: symbol b.toNat :: symbol c.toNat :: symbol d.toNat :: encode rest := by
  have hfirst := first_byte a b ha hb
  have hsecond := second_byte b c hc
  have hthird := third_byte c d hd
  rw [← hx] at hfirst
  rw [← hy] at hsecond
  rw [← hz] at hthird
  rw [encode, show x.toNat/4 = a.toNat by omega,
    show x.toNat%4*16+y.toNat/16 = b.toNat by omega,
    show y.toNat%16*4+z.toNat/64 = c.toNat by omega, show z.toNat%64 = d.toNat by omega]

/-- An accepted group is the encoding of its bytes; only the last group has fewer than three. -/
theorem decode_group_sound {final : Bool} {c0 c1 c2 c3 : UInt8} {bytes : Bytes}
    (hok : decodeGroup final c0 c1 c2 c3 = .ok bytes) (rest : Bytes)
    (hlast : final = true → rest = []) :
    encode (bytes ++ rest) = c0 :: c1 :: c2 :: c3 :: encode rest := by
  obtain ⟨a,hfirst,hafter⟩ := bind_ok.mp hok
  obtain ⟨b,hsecond,hthen⟩ := bind_ok.mp hafter
  obtain ⟨ha,rfl⟩ := dec_some.mp (ok_or_ok.mp hfirst)
  obtain ⟨hb,rfl⟩ := dec_some.mp (ok_or_ok.mp hsecond)
  by_cases hpad : c2 = pad
  · rw [if_pos hpad] at hthen
    split_ifs at hthen with hbad
    cases pure_ok.mp hthen
    simp only [Bool.or_eq_true, Bool.not_eq_true', decide_eq_true_eq, not_or, ne_eq,
      Bool.not_eq_false, Decidable.not_not] at hbad
    obtain ⟨⟨hfinal,rfl⟩,hzero⟩ := hbad
    rw [hlast hfinal, hpad]
    exact encode_one ha hb rfl ((low_four b).mp hzero)
  · rw [if_neg hpad] at hthen
    obtain ⟨c,hthird,hrest⟩ := bind_ok.mp hthen
    obtain ⟨hc,rfl⟩ := dec_some.mp (ok_or_ok.mp hthird)
    by_cases hpad : c3 = pad
    · rw [if_pos hpad] at hrest
      split_ifs at hrest with hbad
      cases pure_ok.mp hrest
      simp only [Bool.or_eq_true, Bool.not_eq_true', decide_eq_true_eq, not_or, ne_eq,
        Bool.not_eq_false, Decidable.not_not] at hbad
      rw [hlast hbad.1, hpad]
      exact encode_two ha hb hc rfl rfl ((low_two c).mp hbad.2)
    · rw [if_neg hpad] at hrest
      obtain ⟨d,hfourth,hbytes⟩ := bind_ok.mp hrest
      obtain ⟨hd,rfl⟩ := dec_some.mp (ok_or_ok.mp hfourth)
      cases pure_ok.mp hbytes
      exact encode_three ha hb hc hd rfl rfl rfl rest

/-- The character of a small number is the one of a digit, and is no padding. -/
theorem digit {n : ℕ} (hn : n < 64) :
    ∃ a : UInt8, a.toNat = n ∧ dec (symbol n) = some a ∧ symbol n ≠ pad := by
  refine ⟨UInt8.ofNat n,?_,dec_symbol n hn,symbol_ne_pad n hn⟩
  rw [UInt8.toNat_ofNat']
  omega

theorem decode_group_one (x : UInt8) :
    decodeGroup true (symbol (x.toNat/4)) (symbol (x.toNat%4*16)) pad pad = .ok [x] := by
  have hx := x.toNat_lt
  obtain ⟨a,ha,hdeca,-⟩ := digit (show x.toNat/4 < 64 by omega)
  obtain ⟨b,hb,hdecb,-⟩ := digit (show x.toNat%4*16 < 64 by omega)
  have hbyte : (a <<< 2) ||| (b >>> 4) = x := by
    rw [← UInt8.toNat_inj, first_byte a b (by omega) (by omega)]
    omega
  have hzero : b &&& 0x0f = 0 := (low_four b).mpr (by omega)
  simp [decodeGroup, hdeca, hdecb, hzero, hbyte, okOr, pure, Except.pure]

theorem decode_group_two (x y : UInt8) :
    decodeGroup true (symbol (x.toNat/4)) (symbol (x.toNat%4*16+y.toNat/16))
      (symbol (y.toNat%16*4)) pad = .ok [x,y] := by
  have hx := x.toNat_lt
  have hy := y.toNat_lt
  obtain ⟨a,ha,hdeca,-⟩ := digit (show x.toNat/4 < 64 by omega)
  obtain ⟨b,hb,hdecb,-⟩ := digit (show x.toNat%4*16+y.toNat/16 < 64 by omega)
  obtain ⟨c,hc,hdecc,hne⟩ := digit (show y.toNat%16*4 < 64 by omega)
  have hfirst : (a <<< 2) ||| (b >>> 4) = x := by
    rw [← UInt8.toNat_inj, first_byte a b (by omega) (by omega)]
    omega
  have hsecond : ((b &&& 0x0f) <<< 4) ||| (c >>> 2) = y := by
    rw [← UInt8.toNat_inj, second_byte b c (by omega)]
    omega
  have hzero : c &&& 0x03 = 0 := (low_two c).mpr (by omega)
  simp [decodeGroup, hdeca, hdecb, hdecc, hne, hzero, hfirst, hsecond, okOr, pure, Except.pure]

theorem decode_group_three (final : Bool) (x y z : UInt8) :
    decodeGroup final (symbol (x.toNat/4)) (symbol (x.toNat%4*16+y.toNat/16))
      (symbol (y.toNat%16*4+z.toNat/64)) (symbol (z.toNat%64)) = .ok [x,y,z] := by
  have hx := x.toNat_lt
  have hy := y.toNat_lt
  have hz := z.toNat_lt
  obtain ⟨a,ha,hdeca,-⟩ := digit (show x.toNat/4 < 64 by omega)
  obtain ⟨b,hb,hdecb,-⟩ := digit (show x.toNat%4*16+y.toNat/16 < 64 by omega)
  obtain ⟨c,hc,hdecc,hnec⟩ := digit (show y.toNat%16*4+z.toNat/64 < 64 by omega)
  obtain ⟨d,hd,hdecd,hned⟩ := digit (show z.toNat%64 < 64 by omega)
  have hfirst : (a <<< 2) ||| (b >>> 4) = x := by
    rw [← UInt8.toNat_inj, first_byte a b (by omega) (by omega)]
    omega
  have hsecond : ((b &&& 0x0f) <<< 4) ||| (c >>> 2) = y := by
    rw [← UInt8.toNat_inj, second_byte b c (by omega)]
    omega
  have hthird : ((c &&& 0x03) <<< 6) ||| d = z := by
    rw [← UInt8.toNat_inj, third_byte c d (by omega)]
    omega
  simp [decodeGroup, hdeca, hdecb, hdecc, hdecd, hnec, hned, hfirst, hsecond, hthird, okOr, pure,
    Except.pure]

/-! ## The loop -/

theorem encode_length (b : Bytes) : (encode b).length % 4 = 0 := by
  induction b using encode.induct with
  | case1 => rfl
  | case2 x => rw [encode, List.length_cons, List.length_cons, List.length_cons, List.length_singleton]
  | case3 x y =>
    rw [encode, List.length_cons, List.length_cons, List.length_cons, List.length_singleton]
  | case4 x y z rest ih =>
    simp only [encode, List.length_cons]
    omega

/-- The loop puts the bytes of an encoding behind what it has. -/
theorem decode_groups_encode (b out : Bytes) : decodeGroups (encode b) out = .ok (out ++ b) := by
  induction b using encode.induct generalizing out with
  | case1 => simp [encode, decodeGroups, pure, Except.pure]
  | case2 x =>
    rw [encode, decodeGroups, List.isEmpty_nil, decode_group_one]
    rfl
  | case3 x y =>
    rw [encode, decodeGroups, List.isEmpty_nil, decode_group_two]
    rfl
  | case4 x y z rest ih =>
    rw [encode, decodeGroups, decode_group_three, ok_bind, ih]
    simp

/-- What the loop accepts is the encoding of what it has added. -/
theorem decode_groups_ok {s out b : Bytes} (hlen : s.length % 4 = 0)
    (hok : decodeGroups s out = .ok b) : ∃ more, b = out ++ more ∧ s = encode more := by
  induction s, out using decodeGroups.induct generalizing b with
  | case1 c0 c1 c2 c3 rest out ih =>
    rw [decodeGroups] at hok
    obtain ⟨bytes,hbytes,hrest⟩ := bind_ok.mp hok
    have hmod : rest.length % 4 = 0 := by
      simp only [List.length_cons] at hlen
      omega
    obtain ⟨more,rfl,hmore⟩ := ih bytes hmod hrest
    refine ⟨bytes ++ more,by simp,?_⟩
    have hlast : rest.isEmpty = true → more = [] := by
      intro hempty
      rw [List.isEmpty_iff.mp hempty] at hmore
      cases more with
      | nil => rfl
      | cons x more =>
        have hzero := congrArg List.length hmore
        cases more with
        | nil => simp [encode] at hzero
        | cons y more => cases more <;> simp [encode] at hzero
    rw [decode_group_sound hbytes more hlast, ← hmore]
  | case2 s out hshort =>
    have hnil : s = [] := by
      rcases s with _ | ⟨c0,_ | ⟨c1,_ | ⟨c2,_ | ⟨c3,rest⟩⟩⟩⟩
      · rfl
      · simp at hlen
      · simp at hlen
      · simp at hlen
      · exact absurd rfl (hshort c0 c1 c2 c3 rest)
    subst hnil
    rw [decodeGroups] at hok
    · cases pure_ok.mp hok
      exact ⟨[],by simp,rfl⟩
    · exact hshort

/-- A text is accepted with the bytes of which it is the canonical encoding, and with no others:
decoding inverts encoding, and no two texts are decoded to the same bytes. -/
theorem strict_base64_exact : (∀ s b, b64Decode s = .ok b ↔ s = encode b) ∧
    (∀ b, b64Decode (encode b) = .ok b) ∧
    ∀ s t b, b64Decode s = .ok b → b64Decode t = .ok b → s = t := by
  have hiff : ∀ s b, b64Decode s = .ok b ↔ s = encode b := by
    intro s b
    constructor
    · intro hok
      unfold b64Decode at hok
      split_ifs at hok with hlen
      obtain ⟨more,rfl,hs⟩ := decode_groups_ok (Decidable.not_not.mp hlen) hok
      exact hs
    · rintro rfl
      unfold b64Decode
      rw [if_neg (by simp [encode_length]), decode_groups_encode]
      rfl
  refine ⟨hiff,fun b => (hiff _ b).mpr rfl,fun s t b hs ht => ?_⟩
  rw [(hiff s b).mp hs, (hiff t b).mp ht]

end Scorpio.StrictBase64
