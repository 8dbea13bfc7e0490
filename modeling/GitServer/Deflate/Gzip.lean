import GitServer.Deflate.Inflate
import GitServer.Digest.Crc32

/-!
# Gzip

A gzip member (RFC 1952) is a ten-byte header, optional fields the flags announce, a raw
deflate stream, and a trailer with the CRC-32 and the length of the data. Only the first
member is read; what follows it is ignored. A reader fails in one of five ways:

* the header is not gzip, or sets a reserved flag: `invalid gzip header`;
* the input ends inside the header or the trailer: `unexpected end of file`;
* the input ends inside the deflate stream: `incomplete deflate stream`;
* the deflate stream is faulty: `corrupt deflate stream`;
* the header's own CRC, when it has one, does not match the header, or the trailer does not
  match the data: `corrupt gzip stream does not have a matching checksum`.
-/

namespace GitServer.Gzip

open Deflate

/-- Why a gzip member could not be read. -/
inductive GzipError where
  | badHeader
  | truncated
  | incomplete
  | corrupt
  | checksum
deriving DecidableEq, Repr

/-- The message of a gzip error. -/
def GzipError.message : GzipError → String
  | .badHeader => "invalid gzip header"
  | .truncated => "unexpected end of file"
  | .incomplete => "incomplete deflate stream"
  | .corrupt => "corrupt deflate stream"
  | .checksum => "corrupt gzip stream does not have a matching checksum"

/-- The position after a zero-terminated field that starts at `pos`. -/
def skipString (bs : Array UInt8) (pos : Nat) : Except GzipError Nat :=
  match ((bs.toList.drop pos).findIdx? (· == 0)) with
  | some i => .ok (pos + i + 1)
  | none => .error .truncated

/-- A little-endian number of `n` bytes at `pos`. -/
def readLE (bs : Array UInt8) (pos n : Nat) : Except GzipError Nat :=
  if bs.size < pos + n then .error .truncated
  else .ok ((List.range n).foldr (fun i acc => acc * 256 + (bs.getD (pos + i) 0).toNat) 0)

/-- Where the deflate stream of a member starts, after the header and its optional fields. -/
def bodyStart (bs : Array UInt8) : Except GzipError Nat := do
  if bs.size < 10 then throw .truncated
  if bs.getD 0 0 ≠ 0x1f || bs.getD 1 0 ≠ 0x8b || bs.getD 2 0 ≠ 8 then throw .badHeader
  let flags := (bs.getD 3 0).toNat
  if flags ≥ 32 then throw .badHeader
  let pos := 10
  let pos ← if flags / 4 % 2 = 1 then do pure (pos + 2 + (← readLE bs pos 2)) else pure pos
  if bs.size < pos then throw .truncated
  let pos ← if flags / 8 % 2 = 1 then skipString bs pos else pure pos
  let pos ← if flags / 16 % 2 = 1 then skipString bs pos else pure pos
  if flags / 2 % 2 = 1 then
    let stored ← readLE bs pos 2
    if stored ≠ (Crc32.checksum (bs.extract 0 pos)).toNat % 65536 then throw .checksum
    pure (pos + 2)
  else pure pos

/-- The data of the first gzip member of the input. -/
def decompress (input : Bytes) : Except GzipError Bytes := do
  let bs := input.toArray
  let start ← bodyStart bs
  let t := Inflate.traceRaw bs start
  match t.stop with
  | .finished consumed =>
    let crc ← readLE bs consumed 4
    let size ← readLE bs (consumed + 4) 4
    if crc ≠ (Crc32.checksum t.output).toNat || size ≠ t.output.size % Nat.pow 2 32 then
      throw .checksum
    pure t.output.toList
  | .starved => throw .incomplete
  | _ => throw .corrupt

end GitServer.Gzip
