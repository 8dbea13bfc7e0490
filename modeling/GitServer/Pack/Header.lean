import GitServer.CodecError
import GitServer.Object.Kind
import GitServer.Text.Utf8

/-!
# Pack headers

A pack starts with `PACK`, a big-endian version (2 or 3) and the big-endian number of
entries. Each entry starts with its own header: the kind number in bits 4 to 6 of the first
byte, and the content size in its low four bits and then seven bits more in each following
byte, for as long as the high bit of a byte is set.
-/

namespace GitServer.Pack

/-- The fixed part at the start of a pack. -/
structure Header where
  version : Nat
  count : Nat
deriving DecidableEq, Repr

/-- The length of the fixed part. -/
def headerLength : Nat := 12

/-- Reads the fixed part at the start of a pack. -/
def Header.parse (data : Bytes) : Except CodecError Header :=
  if data.length < headerLength then .error (.invalidPackHeader s!"{data.length} bytes")
  else if data.take 4 ≠ Bytes.ofString "PACK" then
    .error (.invalidPackHeader (Utf8.decodeLossy (data.take 4)))
  else
    let version := Bytes.toNatBE ((data.drop 4).take 4)
    if version ≠ 2 ∧ version ≠ 3 then .error (.invalidPackHeader s!"version {version}")
    else .ok ⟨version, Bytes.toNatBE ((data.drop 8).take 4)⟩

/-- The fixed part of a version 2 pack of `count` entries; the count must fit in 32 bits. -/
def Header.encode (count : Nat) : Except CodecError Bytes :=
  if count < Nat.pow 2 32 then .ok (Bytes.ofString "PACK" ++ Bytes.ofNatBE 4 2 ++ Bytes.ofNatBE 4 count)
  else .error (.packEncode s!"too many objects: {count}")

/-- The groups of seven bits above the low four bits of a size, each but the last with the
high bit set. -/
def sizeGroups (rest : Nat) : Bytes :=
  if rest < 128 then [UInt8.ofNat rest]
  else UInt8.ofNat (rest % 128 + 128) :: sizeGroups (rest / 128)
termination_by rest
decreasing_by omega

/-- The header of an entry with kind number `typeId` (only its low four bits are kept in the
first byte, above the size bits) and content size `size`. -/
def entryHeader (typeId : UInt8) (size : Nat) : Bytes :=
  let first := (typeId <<< 4) ||| UInt8.ofNat (size % 16)
  if size / 16 = 0 then [first] else (first ||| 0x80) :: sizeGroups (size / 16)

/-- Reads an entry header: the kind number, the size and the length of the header, or `none`
when the bytes end inside it. A size wider than 60 bits is refused. -/
def readEntryHeader (data : Bytes) : Except CodecError (Option (Nat × Nat × Nat)) :=
  match data with
  | [] => .ok none
  | first :: rest =>
    let typeId := first.toNat / 16 % 8
    if first < 0x80 then .ok (some (typeId, first.toNat % 16, 1))
    else go typeId (first.toNat % 16) 4 1 rest
where
  /-- Reads the following size bytes; `shift` is the position of the next group. -/
  go (typeId size shift len : Nat) : Bytes → Except CodecError (Option (Nat × Nat × Nat))
    | [] => .ok none
    | b :: rest =>
      if 57 ≤ shift then .error (.invalidPack "entry size overflow")
      else
        let size := size + b.toNat % 128 * Nat.pow 2 shift
        if b < 0x80 then .ok (some (typeId, size, len + 1))
        else go typeId size (shift + 7) (len + 1) rest

/-- Reads the distance to the base of an offset delta: seven bits a byte, most significant
first, each continuation adding one before the shift so that every distance has one
spelling. A distance of 64 bits or more is refused. -/
def readBaseDistance (data : Bytes) : Except CodecError (Option (Nat × Nat)) :=
  match data with
  | [] => .ok none
  | first :: rest =>
    if first < 0x80 then .ok (some (first.toNat, 1))
    else go (first.toNat % 128) 1 rest
where
  /-- Reads the following bytes into `value`. -/
  go (value len : Nat) : Bytes → Except CodecError (Option (Nat × Nat))
    | [] => .ok none
    | b :: rest =>
      if (value + 1) * 128 ≥ Nat.pow 2 64 then .error (.invalidPack "delta offset overflow")
      else
        let value := (value + 1) * 128 + b.toNat % 128
        if b < 0x80 then .ok (some (value, len + 1)) else go value (len + 1) rest

end GitServer.Pack
