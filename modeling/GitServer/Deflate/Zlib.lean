import GitServer.Deflate.Inflate
import GitServer.Bytes

/-!
# Compressed entries

Loose objects and pack entries are zlib streams. Two readers are used:

* `readEntry` reads one stream whose data size is known in advance, as pack entries are,
  and reports how many input bytes the stream took, so that the next entry can follow it.
  It reads into a buffer of the declared size (at least 64 bytes) and grows the buffer by
  doubling, or by 4096 bytes if that is more, whenever it fills up. Data beyond the declared
  size, a stream that ends at another size, and a faulty stream are errors; a stream whose
  input runs out asks for more input.
* `decompress` reads one whole stream and ignores what follows it.

Since the buffer only fills up, `readEntry` is decided by the trace of the stream: how much
data it holds before it stops, and why it stops. A fault is met when the buffer has room for
all the data before it, and a copy from too far back only when there is room for one more
byte.

Writing (`compress`) stores the data in uncompressed blocks; any zlib encoding is a valid one.
-/

namespace GitServer.Zlib

open Deflate

/-- Why a compressed entry could not be read. -/
inductive InflateError where
  /-- The stream itself is faulty. -/
  | decoder (reason : String)
  /-- The stream ended with another size than declared. -/
  | sizeMismatch (actual declared : Nat)
  /-- The stream holds more data than declared. -/
  | oversized
  /-- A whole-stream read met a fault. -/
  | corrupt
  /-- A whole-stream read ran out of input. -/
  | incomplete
deriving DecidableEq, Repr

/-- The message of an inflate error. -/
def InflateError.message : InflateError → String
  | .decoder r => "deflate decompression error: " ++ r
  | .sizeMismatch a d => s!"inflated size {a} does not match header size {d}"
  | .oversized => "inflated data exceeds header size"
  | .corrupt => "corrupt deflate stream"
  | .incomplete => "incomplete deflate stream"

/-- A compressed entry read in full, or the news that its input is cut short. -/
inductive Entry where
  /-- The data and the number of input bytes the stream took. -/
  | complete (data : Bytes) (consumed : Nat)
  | needMore
deriving DecidableEq, Repr

/-- Whether a buffer of `cap` bytes lets the reader get to where the trace stops. -/
def reaches (t : Trace) (cap : Nat) : Bool :=
  match t.stop with
  | .farBack => t.output.size < cap
  | _ => t.output.size ≤ cap

/-- The outcome once the reader gets to where the trace of a stream that started at `start`
stops. -/
def settle (t : Trace) (start declared : Nat) : Except InflateError Entry :=
  match t.stop with
  | .finished next =>
    if t.output.size = declared then .ok (.complete t.output.toList (next - start))
    else .error (.sizeMismatch t.output.size declared)
  | .failed r => .error (.decoder r)
  | .farBack => .error (.decoder "invalid distance too far back")
  | .needsDictionary => .error (.decoder "requires a dictionary")
  | .starved => if t.output.size > declared then .error .oversized else .ok .needMore

/-- The buffer size after the first one fills up. -/
def grown (cap : Nat) : Nat := max (2 * cap) (cap + 4096)

/-- Reads the compressed entry that starts at byte `start` of `input` and should hold
`declared` bytes. -/
def readEntryAt (input : Array UInt8) (start declared : Nat) : Except InflateError Entry :=
  let t := Inflate.traceAt input start
  let cap := max declared 64
  if reaches t cap then settle t start declared
  else if cap > declared then .error .oversized
  else if reaches t (grown cap) then settle t start declared
  else .error .oversized

/-- Reads one compressed entry that should hold `declared` bytes. -/
def readEntry (input : Bytes) (declared : Nat) : Except InflateError Entry :=
  readEntryAt input.toArray 0 declared

/-- Reads a whole compressed stream; what follows it is ignored. -/
def decompress (input : Bytes) : Except InflateError Bytes :=
  let t := Inflate.trace input.toArray
  match t.stop with
  | .finished _ => .ok t.output.toList
  | .starved => .error .incomplete
  | _ => .error .corrupt

/-- The largest data size of one stored block. -/
def storedMax : Nat := 65535

/-- Stored blocks for the data, the last one marked final. -/
def storedBlocks (data : Bytes) : Bytes :=
  if data.length ≤ storedMax then
    [1, UInt8.ofNat data.length, UInt8.ofNat (data.length / 256),
      UInt8.ofNat (0xFFFF - data.length), UInt8.ofNat ((0xFFFF - data.length) / 256)] ++ data
  else
    [0, 0xFF, 0xFF, 0, 0] ++ data.take storedMax ++ storedBlocks (data.drop storedMax)
termination_by data.length
decreasing_by simp; unfold storedMax at *; omega

/-- A zlib stream of the data. -/
def compress (data : Bytes) : Bytes :=
  [0x78, 0x01] ++ storedBlocks data ++ Bytes.ofNatBE 4 (Adler32.checksum data.toArray)

end GitServer.Zlib
