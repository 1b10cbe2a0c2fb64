import Scorpio.Base.ByteText

/-!
# Self-delimiting codes

A code writes a value as bytes and reads it back from the front of any byte
string. Numbers are written in groups of seven bits, a text after its length, a
list after its number of items. Codes of parts make up the code of a record.
-/

set_option autoImplicit false

namespace Scorpio.SelfDelimiting

open ByteText

structure Code (α : Type) where
  put : α → Bytes
  take : Bytes → Option (α × Bytes)
  law : ∀ a rest, take (put a ++ rest) = some (a,rest)

/-! ## Numbers -/

def putNat : ℕ → ℕ → Bytes
  | 0, n => [UInt8.ofNat (n%128)]
  | fuel+1, n =>
    if n < 128 then [UInt8.ofNat n] else UInt8.ofNat (n%128+128) :: putNat fuel (n/128)

def takeNat : Bytes → Option (ℕ × Bytes)
  | [] => none
  | b :: rest =>
    if b.toNat < 128 then some (b.toNat,rest)
    else (takeNat rest).map fun r => (b.toNat-128+128*r.1,r.2)

theorem take_put_nat (fuel n : ℕ) (hn : n < 128^(fuel+1)) (rest : Bytes) :
    takeNat (putNat fuel n ++ rest) = some (n,rest) := by
  induction fuel generalizing n with
  | zero =>
    have hsmall : n < 128 := by simpa using hn
    have hbyte : (UInt8.ofNat (n%128)).toNat = n := by
      rw [UInt8.toNat_ofNat']
      omega
    simp [putNat, takeNat, hbyte, hsmall]
  | succ fuel ih =>
    rw [putNat]
    split_ifs with hsmall
    · have hbyte : (UInt8.ofNat n).toNat = n := by
        rw [UInt8.toNat_ofNat']
        omega
      simp [takeNat, hbyte, hsmall]
    · have hbyte : (UInt8.ofNat (n%128+128)).toNat = n%128+128 := by
        rw [UInt8.toNat_ofNat']
        omega
      have hrest : n/128 < 128^(fuel+1) := by
        rw [Nat.div_lt_iff_lt_mul (by decide), ← pow_succ]
        exact hn
      rw [List.cons_append, takeNat, hbyte, if_neg (by omega), ih _ hrest, Option.map_some]
      congr 2
      omega

theorem lt_pow_log (n : ℕ) : n < 128^(Nat.log2 n+1) :=
  calc n < 2^(Nat.log2 n+1) := Nat.lt_log2_self
    _ ≤ 128^(Nat.log2 n+1) := Nat.pow_le_pow_left (by decide) _

def nat : Code ℕ where
  put n := putNat (Nat.log2 n) n
  take := takeNat
  law n rest := take_put_nat _ n (lt_pow_log n) rest

/-! ## Combinations -/

section Combinations

variable {α β : Type}

/-- A code carried over to another type. -/
def Code.map (c : Code α) (f : α → β) (g : β → α) (hfg : ∀ b, f (g b) = b) : Code β where
  put b := c.put (g b)
  take bytes := (c.take bytes).map fun r => (f r.1,r.2)
  law b rest := by rw [c.law, Option.map_some, hfg]

def Code.pair (c : Code α) (c' : Code β) : Code (α × β) where
  put r := c.put r.1 ++ c'.put r.2
  take bytes := (c.take bytes).bind fun r => (c'.take r.2).map fun r' => ((r.1,r'.1),r'.2)
  law r rest := by rw [List.append_assoc, c.law, Option.bind_some, c'.law, Option.map_some]

def takeMany (c : Code α) : ℕ → Bytes → Option (List α × Bytes)
  | 0, bytes => some ([],bytes)
  | n+1, bytes => (c.take bytes).bind fun r =>
    (takeMany c n r.2).map fun r' => (r.1 :: r'.1,r'.2)

theorem take_many_put (c : Code α) (xs : List α) (rest : Bytes) :
    takeMany c xs.length (xs.flatMap c.put ++ rest) = some (xs,rest) := by
  induction xs with
  | nil => rfl
  | cons x xs ih =>
    rw [List.flatMap_cons, List.append_assoc, List.length_cons, takeMany, c.law, Option.bind_some,
      ih, Option.map_some]

def Code.list (c : Code α) : Code (List α) where
  put xs := nat.put xs.length ++ xs.flatMap c.put
  take bytes := (nat.take bytes).bind fun r => takeMany c r.1 r.2
  law xs rest := by rw [List.append_assoc, nat.law, Option.bind_some, take_many_put]

def text : Code Text where
  put t := nat.put t.length ++ t
  take bytes := (nat.take bytes).bind fun r =>
    if r.1 ≤ r.2.length then some (r.2.take r.1,r.2.drop r.1) else none
  law t rest := by
    rw [List.append_assoc, nat.law, Option.bind_some, if_pos (by simp), List.take_left,
      List.drop_left]

def bool : Code Bool where
  put b := [if b then 1 else 0]
  take
    | [] => none
    | b :: rest => some (b = 1,rest)
  law b rest := by cases b <;> rfl

def Code.option (c : Code α) : Code (Option α) where
  put
    | none => [0]
    | some a => 1 :: c.put a
  take
    | [] => none
    | b :: rest => if b = 0 then some (none,rest) else (c.take rest).map fun r => (some r.1,r.2)
  law a rest := by
    cases a with
    | none => rfl
    | some a =>
      show (if (1 : UInt8) = 0 then _ else (c.take (c.put a ++ rest)).map _) = _
      rw [if_neg (by decide), c.law, Option.map_some]

/-- The value of bytes that hold nothing else. -/
def Code.read (c : Code α) (bytes : Bytes) : Option α :=
  match c.take bytes with
  | some (a,[]) => some a
  | _ => none

theorem Code.read_put (c : Code α) (a : α) : c.read (c.put a) = some a := by
  have hlaw := c.law a []
  rw [List.append_nil] at hlaw
  rw [Code.read, hlaw]

end Combinations

end Scorpio.SelfDelimiting
