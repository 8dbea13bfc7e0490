import GitServer.Bytes

/-!
# Reading UTF-8

Names, messages and pkt-line words arrive as bytes that are usually, but not always, UTF-8.
`pieces` reads a byte string into characters and invalid parts: an invalid part is the
longest prefix of a well-formed sequence that cannot be completed, or else a single byte (the
"maximal subpart" rule of the Unicode standard). From it come the strict reading `decode?`,
which refuses any invalid part, and the lossy reading `decodeLossy`, which writes U+FFFD for
each.
-/

namespace GitServer.Utf8

/-- Whether a byte continues a multi-byte sequence. -/
def isContinuation (b : UInt8) : Bool := 0x80 ≤ b && b < 0xC0

/-- For a lead byte of a multi-byte sequence: the range allowed for the second byte and the
length of the sequence. The ranges leave out overlong forms, surrogates and code points past
U+10FFFF. -/
def leadRange (b : UInt8) : Option (UInt8 × UInt8 × Nat) :=
  if 0xC2 ≤ b ∧ b ≤ 0xDF then some (0x80, 0xBF, 2)
  else if b = 0xE0 then some (0xA0, 0xBF, 3)
  else if 0xE1 ≤ b ∧ b ≤ 0xEC then some (0x80, 0xBF, 3)
  else if b = 0xED then some (0x80, 0x9F, 3)
  else if 0xEE ≤ b ∧ b ≤ 0xEF then some (0x80, 0xBF, 3)
  else if b = 0xF0 then some (0x90, 0xBF, 4)
  else if 0xF1 ≤ b ∧ b ≤ 0xF3 then some (0x80, 0xBF, 4)
  else if b = 0xF4 then some (0x80, 0x8F, 4)
  else none

/-- The low `k` bits of a byte. -/
def low (b : UInt8) (k : Nat) : Nat := b.toNat % Nat.pow 2 k

/-- Characters of the byte string, `none` standing for each maximal invalid part. -/
def pieces : Bytes → List (Option Char)
  | [] => []
  | b0 :: rest =>
    if b0 < 0x80 then some (Char.ofNat b0.toNat) :: pieces rest
    else
      match leadRange b0 with
      | none => none :: pieces rest
      | some (lo, hi, n) =>
        match rest with
        | [] => [none]
        | b1 :: rest1 =>
          if lo ≤ b1 ∧ b1 ≤ hi then
            if n = 2 then
              some (Char.ofNat (low b0 5 * 64 + low b1 6)) :: pieces rest1
            else
              match rest1 with
              | [] => [none]
              | b2 :: rest2 =>
                if isContinuation b2 then
                  if n = 3 then
                    some (Char.ofNat (low b0 4 * 4096 + low b1 6 * 64 + low b2 6)) :: pieces rest2
                  else
                    match h : rest2 with
                    | [] => [none]
                    | b3 :: rest3 =>
                      if isContinuation b3 then
                        some (Char.ofNat (low b0 3 * 262144 + low b1 6 * 4096 + low b2 6 * 64 +
                          low b3 6)) :: pieces rest3
                      else none :: pieces (b3 :: rest3)
                else none :: pieces (b2 :: rest2)
          else none :: pieces (b1 :: rest1)
termination_by bs => bs.length

/-- The text of a byte string that is entirely UTF-8, else `none`. -/
def decode? (bs : Bytes) : Option String :=
  (pieces bs).mapM id |>.map String.ofList

/-- Whether a byte string is entirely UTF-8. -/
def isValid (bs : Bytes) : Bool := (decode? bs).isSome

/-- The text of a byte string, each invalid part read as U+FFFD. -/
def decodeLossy (bs : Bytes) : String :=
  String.ofList ((pieces bs).map fun p => p.getD '�')

theorem pieces_ascii {b : UInt8} (h : b < 0x80) (rest : Bytes) :
    pieces (b :: rest) = some (Char.ofNat b.toNat) :: pieces rest := by
  rw [pieces.eq_def]; simp [h]

end GitServer.Utf8
