import GitServer.Deflate.Huffman
import GitServer.Digest.Adler32

/-!
# Reading a zlib stream

A zlib stream (RFC 1950) is a two-byte header, DEFLATE blocks (RFC 1951) and the Adler-32
checksum of the data, big-endian. `Inflate.trace` reads a stream as far as it goes and
records the bytes it produced and how it stopped: at the end of the stream, at a fault, or
because the input ran out. The faults and their order follow the reference decoder of
zlib: each is noticed as soon as the bits that show it have been read, and a copy from
before the start of the data is noticed only when the copy is about to be made.

Reading a stream with a bounded output buffer (`Zlib`) is worked out from this trace.
-/

namespace GitServer.Deflate

/-- How reading a stream stopped. -/
inductive Stop where
  /-- The stream ended after this many input bytes. -/
  | finished (consumed : Nat)
  /-- The stream is faulty; the text says how. -/
  | failed (reason : String)
  /-- A copy reaches back before the first byte of the data. -/
  | farBack
  /-- The header asks for a preset dictionary. -/
  | needsDictionary
  /-- The input ended before the stream did. -/
  | starved
deriving DecidableEq, Repr

/-- The bytes a stream produced before it stopped, and how it stopped. -/
structure Trace where
  output : Array UInt8
  stop : Stop

namespace Inflate

/-- The number of input bits at or after bit `pos`. -/
def remaining (input : Array UInt8) (pos : Nat) : Nat := 8 * input.size - pos

/-- The bits of the four bytes from the one that holds bit `pos` on, from bit `pos`, the
first bit least significant: at least 25 bits, zeros past the end of the input. Every field
of a stream and every code is shorter, so one window serves to read any of them. -/
def window (input : Array UInt8) (pos : Nat) : Nat :=
  let i := pos / 8
  ((input.getD i 0).toNat + (input.getD (i + 1) 0).toNat * 256 +
    (input.getD (i + 2) 0).toNat * 65536 + (input.getD (i + 3) 0).toNat * 16777216) >>> (pos % 8)

/-- `n` bits from `pos` as a number, the first bit least significant, for `n` up to 25;
`none` when the input ends first. -/
def bits? (input : Array UInt8) (pos n : Nat) : Option Nat :=
  if n ≤ remaining input pos then some (window input pos % Nat.pow 2 n) else none

/-- The next byte boundary at or after `pos`. -/
def align (pos : Nat) : Nat := (pos + 7) / 8 * 8

/-- Base lengths of the length symbols 257 to 285. -/
def lengthBase : Array Nat :=
  #[3, 4, 5, 6, 7, 8, 9, 10, 11, 13, 15, 17, 19, 23, 27, 31, 35, 43, 51, 59, 67, 83, 99, 115,
    131, 163, 195, 227, 258]

/-- Extra bits of the length symbols 257 to 285. -/
def lengthExtra : Array Nat :=
  #[0, 0, 0, 0, 0, 0, 0, 0, 1, 1, 1, 1, 2, 2, 2, 2, 3, 3, 3, 3, 4, 4, 4, 4, 5, 5, 5, 5, 0]

/-- Base distances of the distance symbols 0 to 29. -/
def distBase : Array Nat :=
  #[1, 2, 3, 4, 5, 7, 9, 13, 17, 25, 33, 49, 65, 97, 129, 193, 257, 385, 513, 769, 1025, 1537,
    2049, 3073, 4097, 6145, 8193, 12289, 16385, 24577]

/-- Extra bits of the distance symbols 0 to 29. -/
def distExtra : Array Nat :=
  #[0, 0, 0, 0, 1, 1, 2, 2, 3, 3, 4, 4, 5, 5, 6, 6, 7, 7, 8, 8, 9, 9, 10, 10, 11, 11, 12, 12,
    13, 13]

/-- The fixed literal code of RFC 1951, with its two unused symbols 286 and 287. -/
def fixedLiterals : Huffman :=
  Huffman.ofLengths ((List.range 288).map fun s =>
    if s < 144 then 8 else if s < 256 then 9 else if s < 280 then 7 else 8)

/-- The fixed distance code, with its two unused symbols 30 and 31. -/
def fixedDistances : Huffman := Huffman.ofLengths (List.replicate 32 5)

/-- The order in which the code length code's lengths are sent. -/
def lengthOrder : List Nat := [16, 17, 18, 0, 8, 7, 9, 6, 10, 5, 11, 4, 12, 3, 13, 2, 14, 1, 15]

/-- Reads a symbol at `pos`: the symbol, or `none` for a bit string that starts no code, and
the position after it. -/
def symbol? (input : Array UInt8) (h : Huffman) (pos : Nat) : Except Stop (Option Nat × Nat) :=
  match h.decode (window input pos) (remaining input pos) with
  | none => .error .starved
  | some (s, n) => .ok (s, pos + n)

/-- Reads `n` bits at `pos`. -/
def take (input : Array UInt8) (pos n : Nat) : Except Stop Nat :=
  match bits? input pos n with
  | none => .error .starved
  | some v => .ok v

/-- Reads the code lengths of a dynamic block, `total` of them, after the `acc` read so far.
The code length code turns a bit string that starts no code into length 0. -/
def readLengths (input : Array UInt8) (h : Huffman) (total : Nat) (pos : Nat) (acc : Array Nat) :
    Except Stop (Array Nat × Nat) :=
  if acc.size < total then do
    let (s, pos) ← symbol? input h pos
    let s := s.getD 0
    if s < 16 then readLengths input h total pos (acc.push s)
    else
      let extra := if s = 16 then 2 else if s = 17 then 3 else 7
      let r ← take input pos extra
      if s = 16 ∧ acc.size = 0 then throw (.failed "invalid bit length repeat")
      let copies := r + 3 + (if s = 18 then 8 else 0)
      if acc.size + copies > total then throw (.failed "invalid bit length repeat")
      let len := if s = 16 then acc.back?.getD 0 else 0
      readLengths input h total (pos + extra) (acc ++ Array.replicate copies len)
  else .ok (acc, pos)
termination_by total - acc.size
decreasing_by
  · simp only [Array.size_push]; omega
  · simp only [Array.size_append, Array.size_replicate]
    omega

/-- Reads the code tables of a dynamic block at `pos`. -/
def readTables (input : Array UInt8) (pos : Nat) : Except Stop (Huffman × Huffman × Nat) := do
  let nlen := (← take input pos 5) + 257
  let ndist := (← take input (pos + 5) 5) + 1
  let ncode := (← take input (pos + 10) 4) + 4
  if nlen > 286 ∨ ndist > 30 then throw (.failed "too many length or distance symbols")
  let pos := pos + 14
  let sent ← (List.range ncode).mapM fun i => take input (pos + 3 * i) 3
  let pos := pos + 3 * ncode
  let clens := (List.range 19).map fun s =>
    match lengthOrder.idxOf? s with
    | some i => sent.getD i 0
    | none => 0
  let codeLengths := Huffman.ofLengths clens
  if !codeLengths.usable .codeLengths then throw (.failed "invalid code lengths set")
  let (lens, pos) ← readLengths input codeLengths (nlen + ndist) pos #[]
  if lens.getD 256 0 = 0 then throw (.failed "invalid code -- missing end-of-block")
  let lit := Huffman.ofLengths (lens.toList.take nlen)
  if !lit.usable .literals then throw (.failed "invalid literal/lengths set")
  let dist := Huffman.ofLengths (lens.toList.drop nlen)
  if !dist.usable .distances then throw (.failed "invalid distances set")
  pure (lit, dist, pos)

/-- Appends `n` bytes copied from `dist` bytes back, a byte at a time, so that a copy may
overlap the bytes it produces. -/
def copyBack (out : Array UInt8) (dist : Nat) : Nat → Array UInt8
  | 0 => out
  | n + 1 => copyBack (out.push (out.getD (out.size - dist) 0)) dist n

/-- Reads the rest of a copy whose length symbol `s` (257 to 285) ends before `pos`: the extra
length bits, the distance code and its extra bits. The answer is the length, the distance and
the position after them. -/
def readCopy (input : Array UInt8) (dist : Huffman) (s pos : Nat) :
    Except Stop (Nat × Nat × Nat) := do
  let i := s - 257
  let e ← take input pos (lengthExtra.getD i 0)
  let length := lengthBase.getD i 0 + e
  let pos := pos + lengthExtra.getD i 0
  let (d, pos) ← symbol? input dist pos
  let some d := d | throw (.failed "invalid distance code")
  if d > 29 then throw (.failed "invalid distance code")
  let e ← take input pos (distExtra.getD d 0)
  pure (length, distBase.getD d 0 + e, pos + distExtra.getD d 0)

/-- What comes next in a stream. -/
inductive Phase where
  /-- A block header. -/
  | header
  /-- The symbols of a block coded with these tables. -/
  | symbols (last : Bool) (lit dist : Huffman)

/-- Reads the checksum at the next byte boundary and ends the stream. -/
def trailer (input : Array UInt8) (pos : Nat) (out : Array UInt8) : Trace :=
  let at_ := align pos / 8
  if input.size < at_ + 4 then ⟨out, .starved⟩
  else
    let stored := (input.extract at_ (at_ + 4)).foldl (fun acc b => acc * 256 + b.toNat) 0
    if stored = Adler32.checksum out then ⟨out, .finished (at_ + 4)⟩
    else ⟨out, .failed "incorrect data check"⟩

/-- Ends the stream after its last block: a raw stream ends at the next byte boundary, a zlib
stream with its checksum. -/
def finish (raw : Bool) (input : Array UInt8) (pos : Nat) (out : Array UInt8) : Trace :=
  if raw then ⟨out, .finished (align pos / 8)⟩ else trailer input pos out

/-- Where one step of the reader leaves it: stopped, with the trace of the stream, or in a
phase at a position with the output so far. -/
inductive Step where
  | stop (t : Trace)
  | next (phase : Phase) (pos : Nat) (out : Array UInt8)

/-- Reads a block header at `pos`, and a stored block whole. A raw stream has no checksum after
its blocks. -/
def headerStep (raw : Bool) (input : Array UInt8) (pos : Nat) (out : Array UInt8) : Step :=
  match bits? input pos 3 with
  | none => .stop ⟨out, .starved⟩
  | some hdr =>
    let last := hdr % 2 = 1
    let kind := hdr / 2
    let pos := pos + 3
    if kind = 0 then
      let at_ := align pos / 8
      if input.size < at_ + 4 then .stop ⟨out, .starved⟩
      else
        let len := (input.getD at_ 0).toNat + 256 * (input.getD (at_ + 1) 0).toNat
        let nlen := (input.getD (at_ + 2) 0).toNat + 256 * (input.getD (at_ + 3) 0).toNat
        if len + nlen ≠ 0xFFFF then .stop ⟨out, .failed "invalid stored block lengths"⟩
        else
          let start := at_ + 4
          let out := out ++ input.extract start (start + len)
          if input.size < start + len then .stop ⟨out, .starved⟩
          else if last then .stop (finish raw input ((start + len) * 8) out)
          else .next .header ((start + len) * 8) out
    else if kind = 1 then .next (.symbols last fixedLiterals fixedDistances) pos out
    else if kind = 2 then
      match readTables input pos with
      | .error stop => .stop ⟨out, stop⟩
      | .ok (lit, dist, pos) => .next (.symbols last lit dist) pos out
    else .stop ⟨out, .failed "invalid block type"⟩

/-- Reads one symbol of a block coded with `lit` and `dist` at `pos`: a literal, the end of
the block, or a copy. -/
def symbolStep (raw : Bool) (input : Array UInt8) (last : Bool) (lit dist : Huffman) (pos : Nat)
    (out : Array UInt8) : Step :=
  match symbol? input lit pos with
  | .error stop => .stop ⟨out, stop⟩
  | .ok (none, _) => .stop ⟨out, .failed "invalid literal/length code"⟩
  | .ok (some s, pos) =>
    if s < 256 then .next (.symbols last lit dist) pos (out.push (UInt8.ofNat s))
    else if s = 256 then
      if last then .stop (finish raw input pos out) else .next .header pos out
    else if s > 285 then .stop ⟨out, .failed "invalid literal/length code"⟩
    else
      match readCopy input dist s pos with
      | .error stop => .stop ⟨out, stop⟩
      | .ok (length, distance, pos) =>
        if distance > out.size then .stop ⟨out, .farBack⟩
        else .next (.symbols last lit dist) pos (copyBack out distance length)

/-- One step of the reader in a phase. -/
def step (raw : Bool) (input : Array UInt8) : Phase → Nat → Array UInt8 → Step
  | .header, pos, out => headerStep raw input pos out
  | .symbols last lit dist, pos, out => symbolStep raw input last lit dist pos out

/-- Runs the blocks from `pos` for at most `fuel` steps; every step reads at least one bit,
so eight steps per input byte are enough. -/
def run (raw : Bool) (input : Array UInt8) : Nat → Phase → Nat → Array UInt8 → Trace
  | 0, _, _, out => ⟨out, .starved⟩
  | fuel + 1, phase, pos, out =>
    match step raw input phase pos out with
    | .stop t => t
    | .next phase pos out => run raw input fuel phase pos out

/-- Reads a zlib stream that starts at byte `start` as far as it goes; where it finishes is
a position in the whole input. -/
def traceAt (input : Array UInt8) (start : Nat) : Trace :=
  match input[start]?, input[start + 1]? with
  | some cmf, some flg =>
    if (cmf.toNat * 256 + flg.toNat) % 31 ≠ 0 then ⟨#[], .failed "incorrect header check"⟩
    else if cmf.toNat % 16 ≠ 8 then ⟨#[], .failed "unknown compression method"⟩
    else if cmf.toNat / 16 + 8 > 15 then ⟨#[], .failed "invalid window size"⟩
    else if flg.toNat / 32 % 2 = 1 then
      if input.size < start + 6 then ⟨#[], .starved⟩ else ⟨#[], .needsDictionary⟩
    else run false input (8 * input.size + 8) .header (8 * start + 16) #[]
  | _, _ => ⟨#[], .starved⟩

/-- Reads a zlib stream as far as it goes. -/
def trace (input : Array UInt8) : Trace := traceAt input 0

/-- Reads a raw deflate stream that starts at byte `start`, as far as it goes. -/
def traceRaw (input : Array UInt8) (start : Nat) : Trace :=
  run true input (8 * input.size + 8) .header (8 * start) #[]

end Inflate

end GitServer.Deflate
