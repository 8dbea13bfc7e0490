import GitServer.Bytes

/-!
# CRC-32

The checksum that closes a gzip member (RFC 1952): the reflected CRC with polynomial
`0xEDB88320`, started from all ones and inverted at the end. Each byte is folded in bit by
bit, least significant bit first.
-/

namespace GitServer.Crc32

/-- The reflected polynomial. -/
def polynomial : UInt32 := 0xEDB88320

/-- Folds one bit of the register. -/
def shift (c : UInt32) : UInt32 :=
  if c &&& 1 = 1 then (c >>> 1) ^^^ polynomial else c >>> 1

/-- Folds one byte into the register. -/
def step (c : UInt32) (byte : UInt8) : UInt32 :=
  (List.range 8).foldl (fun c _ => shift c) (c ^^^ byte.toUInt32)

/-- The checksum of the bytes. -/
def checksum (bs : Array UInt8) : UInt32 :=
  bs.foldl step 0xFFFFFFFF ^^^ 0xFFFFFFFF

end GitServer.Crc32
