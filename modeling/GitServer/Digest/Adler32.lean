import GitServer.Bytes

/-!
# Adler-32

The checksum that closes a zlib stream (RFC 1950): two running sums modulo 65521, the sum of
the bytes plus one and the sum of those partial sums, packed as `b * 65536 + a`.
-/

namespace GitServer.Adler32

/-- The largest prime below 65536. -/
def modulus : Nat := 65521

/-- Feeds one byte to the two sums. -/
def step (acc : Nat × Nat) (byte : UInt8) : Nat × Nat :=
  let a := (acc.1 + byte.toNat) % modulus
  (a, (acc.2 + a) % modulus)

/-- The checksum of the bytes. -/
def checksum (bs : Array UInt8) : Nat :=
  let r := bs.foldl step (1, 0)
  r.2 * 65536 + r.1

end GitServer.Adler32
