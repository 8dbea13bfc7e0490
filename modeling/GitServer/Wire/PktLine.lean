import GitServer.Wire.Error
import GitServer.Text.Hex
import GitServer.Text.Numeral
import GitServer.Text.Quoted
import GitServer.Text.Utf8

/-!
# Pkt-lines

The smart protocol frames its messages as pkt-lines: four hexadecimal digits giving the
length of the line including those four, then the payload. The length `0000` is a flush,
which ends a section; lengths 1 to 3 are refused, and no line is longer than 65520 bytes.

Lines are read in two ways: from a buffer that holds the whole request (`readBuffered`),
which leaves a bad line in the buffer, and from a connection (`readStream`), which has
consumed what it read when it fails.
-/

namespace GitServer.Wire

/-- A pkt-line: a payload or a flush. -/
inductive PktLine where
  | data (payload : Bytes)
  | flush
deriving DecidableEq, Repr

/-- The longest pkt-line, its four length digits included. -/
def maxPktLength : Nat := 65520

/-- The bytes of a flush. -/
def flushBytes : Bytes := Bytes.ofString "0000"

/-- The four length digits of a line with this payload length. -/
def lengthPrefix (payload : Nat) : Bytes := Bytes.ofString (Hex.ofNatPadded 4 (payload + 4))

/-- The bytes of a line. -/
def PktLine.encode : PktLine → Bytes
  | .data p => lengthPrefix p.length ++ p
  | .flush => flushBytes

/-- The bytes of a sequence of lines. -/
def writeLines (ls : List PktLine) : Bytes := ls.flatMap PktLine.encode

/-- Reads the four length digits, hexadecimal with an optional plus sign: `none` for a flush,
else the length of the payload. -/
def parseLength (digits : Bytes) : Except ProtocolError (Option Nat) :=
  match Utf8.decode? digits with
  | none => .error (.decode ("invalid pkt-line length " ++ Quoted.byteList digits))
  | some text =>
    match Numeral.parseNat? 16 (Nat.pow 2 64) text with
    | none => .error (.decode ("invalid pkt-line length " ++ Quoted.string text))
    | some n =>
      if n = 0 then .ok none
      else if n < 4 then .error (.decode s!"invalid pkt-line length {n} (must be 0 or >= 4)")
      else if n > maxPktLength then .error (.decode s!"pkt-line length {n} exceeds {maxPktLength}")
      else .ok (some (n - 4))

/-- Reads one line from the front of a buffer: `none` at the end of the buffer, else the line
and the shorter rest. A line whose payload is cut short is refused with the length of the
whole buffer. -/
def readOne (buf : Bytes) :
    Except ProtocolError (Option (PktLine × { r : Bytes // r.length < buf.length })) :=
  match buf with
  | [] => .ok none
  | b0 :: b1 :: b2 :: b3 :: rest => do
    match ← parseLength [b0, b1, b2, b3] with
    | none => return some (.flush, ⟨rest, by simp only [List.length_cons]; omega⟩)
    | some k =>
      let payload := rest.take k
      if payload.length < k then
        throw (.decode s!"truncated pkt-line: need {k + 4} bytes, have {rest.length + 4}")
      else
        return some (.data payload,
          ⟨rest.drop k, by simp only [List.length_drop, List.length_cons]; omega⟩)
  | _ => .error (.decode "truncated pkt-line length")

/-- How reading lines ended: at the end of the input, or at an error with the bytes left. -/
inductive ReadEnd where
  | eof
  | failed (e : ProtocolError) (rest : Bytes)
deriving DecidableEq, Repr

/-- Reads lines from a buffer until it is empty or a line is bad; a bad line stays in the
buffer. -/
def readBuffered (buf : Bytes) : List PktLine × ReadEnd :=
  match readOne buf with
  | .ok none => ([], .eof)
  | .error e => ([], .failed e buf)
  | .ok (some (l, rest)) =>
    let r := readBuffered rest.1
    (l :: r.1, r.2)
termination_by buf.length
decreasing_by exact rest.2

/-- Reads lines from a connection that delivers `input` and then closes. A length that does
not parse has consumed its four digits, and a line cut short by the close has consumed
everything. -/
def readStream : Bytes → List PktLine × ReadEnd
  | [] => ([], .eof)
  | b0 :: b1 :: b2 :: b3 :: rest =>
    match parseLength [b0, b1, b2, b3] with
    | .error e => ([], .failed e rest)
    | .ok none =>
      let r := readStream rest
      (.flush :: r.1, r.2)
    | .ok (some k) =>
      let payload := rest.take k
      if payload.length < k then ([], .failed (.decode "connection closed inside pkt-line") [])
      else
        let r := readStream (rest.drop k)
        (.data payload :: r.1, r.2)
  | _ => ([], .failed (.decode "connection closed inside pkt-line length") [])
termination_by input => input.length
decreasing_by all_goals simp only [List.length_drop, List.length_cons]; omega

/-- Reads a word: the bytes up to the first ASCII blank (space, tab, line feed, form feed or
carriage return) or NUL, as text, and the bytes after that delimiter. -/
def readWord (bs : Bytes) : String × Bytes :=
  let isDelim := fun (b : UInt8) => b == 32 || b == 9 || b == 10 || b == 12 || b == 13 || b == 0
  let word := bs.takeWhile (fun b => !isDelim b)
  (Utf8.decodeLossy word, bs.drop (word.length + 1))

end GitServer.Wire
