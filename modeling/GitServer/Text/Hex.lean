import GitServer.Bytes

/-!
# Hexadecimal text

Object ids, pkt-line lengths and reports write bytes as lowercase hexadecimal. Reading
accepts either case. `decode_encode` says that reading gives back what was written.
-/

namespace GitServer.Hex

/-- The lowercase digit for a value below sixteen. -/
def digitChar (n : Nat) : Char :=
  if n < 10 then Char.ofNat (48 + n) else Char.ofNat (87 + n)

/-- The value of a hexadecimal digit of either case. -/
def digitValue? (c : Char) : Option Nat :=
  if '0' ≤ c ∧ c ≤ '9' then some (c.toNat - 48)
  else if 'a' ≤ c ∧ c ≤ 'f' then some (c.toNat - 87)
  else if 'A' ≤ c ∧ c ≤ 'F' then some (c.toNat - 55)
  else none

/-- Two lowercase digits for one byte. -/
def byteChars (b : UInt8) : List Char := [digitChar (b.toNat / 16), digitChar (b.toNat % 16)]

/-- The lowercase hexadecimal text of a byte string, two digits a byte. -/
def encode (bs : Bytes) : String := String.ofList (bs.flatMap byteChars)

/-- A number in lowercase hexadecimal with at least `width` digits, zeros in front. -/
def ofNatPadded (width n : Nat) : String :=
  let ds := (Nat.toDigits 16 n)
  String.ofList (List.replicate (width - ds.length) '0' ++ ds)

/-- Reads pairs of digits into bytes; `none` at an odd count or a non-digit. -/
def decode? : List Char → Option Bytes
  | [] => some []
  | [_] => none
  | hi :: lo :: rest => do
    let h ← digitValue? hi
    let l ← digitValue? lo
    let r ← decode? rest
    pure (UInt8.ofNat (h * 16 + l) :: r)

theorem digitValue?_digitChar (n : Nat) (h : n < 16) : digitValue? (digitChar n) = some n := by
  have : n < 16 := h
  revert this
  revert n
  decide

theorem decode_encode (bs : Bytes) : decode? (bs.flatMap byteChars) = some bs := by
  induction bs with
  | nil => rfl
  | cons b bs ih =>
    have h1 := digitValue?_digitChar (b.toNat / 16) (by have := b.toNat_lt; omega)
    have h2 := digitValue?_digitChar (b.toNat % 16) (by omega)
    have hb : UInt8.ofNat (b.toNat / 16 * 16 + b.toNat % 16) = b := by
      rw [Nat.div_add_mod']; exact UInt8.ofNat_toNat
    simp only [List.flatMap_cons, byteChars, List.cons_append, List.nil_append, decode?, h1, h2,
      ih, Option.bind_eq_bind, Option.bind_some, Option.pure_def, hb]

end GitServer.Hex
