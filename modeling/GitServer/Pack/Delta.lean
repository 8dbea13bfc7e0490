import GitServer.CodecError
import GitServer.Bytes

/-!
# Deltas

A delta rebuilds an object from a base. It starts with the sizes of the base and of the
result, each a little-endian number in groups of seven bits, and goes on with instructions:
a byte below 128 (and not zero) inserts that many following bytes; a byte with the high bit
set copies a range of the base, whose offset (four bytes) and length (three bytes) are given
by the bytes that the low seven bits say are present. A copy of length zero copies 65536
bytes.

The result must have the size that the header declares, and the base the size it declares.
-/

namespace GitServer.Delta

/-- Why a delta cannot be applied. -/
inductive DeltaError where
  /-- A size in the header ends early. -/
  | truncatedSize
  /-- A size in the header has more than ten groups. -/
  | sizeOverflow
  /-- The base does not have the size the header declares. -/
  | baseSize (actual declared : Nat)
  /-- An insert of zero bytes. -/
  | zeroInsert
  /-- An insert runs past the end of the delta. -/
  | truncatedInsert
  /-- A copy's offset or length runs past the end of the delta. -/
  | truncatedCopy
  /-- A copy reaches past the end of the base. -/
  | copyOutOfRange
  /-- The result does not have the size the header declares. -/
  | resultSize (actual declared : Nat)
deriving DecidableEq, Repr

/-- The text that a delta error shows. -/
def DeltaError.detail : DeltaError → String
  | .truncatedSize => "truncated size header"
  | .sizeOverflow => "size header overflow"
  | .baseSize a d => s!"base object len {a} does not match delta header {d}"
  | .zeroInsert => "Invalid data instruction"
  | .truncatedInsert => "truncated insert instruction"
  | .truncatedCopy => "truncated copy instruction"
  | .copyOutOfRange => "Invalid copy instruction"
  | .resultSize a d => s!"delta produced {a} bytes, header declared {d}"

/-- A delta error as a codec error. -/
def DeltaError.toCodec (e : DeltaError) : CodecError := .delta e.detail

/-- Reads a size: groups of seven bits, least significant first, while the high bit is set,
kept to 64 bits. -/
def readSize (shift acc : Nat) : Bytes → Except DeltaError (Nat × Bytes)
  | [] => .error .truncatedSize
  | b :: rest =>
    if 64 ≤ shift then .error .sizeOverflow
    else
      let acc := acc + b.toNat % 128 * Nat.pow 2 shift
      if b < 128 then .ok (acc % Nat.pow 2 64, rest) else readSize (shift + 7) acc rest

/-- One byte position `k` of a partial number read from what is left of the stream `s`: when
its bit is set in `mask`, the next byte is the byte at that position. -/
def partialByte (mask : Nat) (s : Bytes) (acc : Nat × { r : Bytes // r.length ≤ s.length })
    (k : Nat) : Except DeltaError (Nat × { r : Bytes // r.length ≤ s.length }) :=
  if mask.testBit k then
    match h : acc.2.1 with
    | b :: rest => .ok (acc.1 + b.toNat * Nat.pow 256 k,
        ⟨rest, by have := acc.2.2; rw [h] at this; simp at this; omega⟩)
    | [] => .error .truncatedCopy
  else .ok acc

/-- Reads the bytes of a little-endian number of `width` bytes of which only those whose bit
is set in `mask` are present; the rest of the stream is no longer than before. -/
def readPartial (mask width : Nat) (s : Bytes) :
    Except DeltaError (Nat × { r : Bytes // r.length ≤ s.length }) :=
  List.foldlM (partialByte mask s) (0, ⟨s, Nat.le_refl _⟩) (List.range width)

/-- Runs the instructions, collecting the pieces of the result in reverse order. -/
def run (base : Bytes) (stream : Bytes) (pieces : List Bytes) : Except DeltaError (List Bytes) :=
  match stream with
  | [] => .ok pieces
  | instr :: rest =>
    if instr < 128 then
      if instr = 0 then .error .zeroInsert
      else
        let piece := rest.take instr.toNat
        if piece.length < instr.toNat then .error .truncatedInsert
        else run base (rest.drop instr.toNat) (piece :: pieces)
    else
      match readPartial instr.toNat 4 rest with
      | .error e => .error e
      | .ok (offset, r1) =>
        match readPartial (instr.toNat / 16) 3 r1.1 with
        | .error e => .error e
        | .ok (size, r2) =>
          let size := if size = 0 then 0x10000 else size
          if offset + size ≤ base.length then
            run base r2.1 ((base.drop offset).take size :: pieces)
          else .error .copyOutOfRange
termination_by stream.length
decreasing_by
  · simp only [List.length_drop, List.length_cons]; omega
  · have := r1.2; have := r2.2; simp only [List.length_cons]; omega

/-- The object that a delta rebuilds from a base. -/
def apply (base delta : Bytes) : Except DeltaError Bytes := do
  let (baseSize, rest) ← readSize 0 0 delta
  if base.length ≠ baseSize then throw (.baseSize base.length baseSize)
  let (resultSize, rest) ← readSize 0 0 rest
  let result := (← run base rest []).reverse.flatten
  if result.length ≠ resultSize then throw (.resultSize result.length resultSize)
  pure result

end GitServer.Delta
