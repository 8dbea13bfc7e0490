import GitServer.Pack.RawEntry

/-!
# Finding the end of a pack

A pack that arrives over a connection has no length in front of it. The scanner is fed the
bytes received so far, again and again, and reads one entry after another as the bytes
allow, remembering where the next entry starts. Once every entry announced in the header
has been read and the twenty trailer bytes have arrived, it answers the length of the pack.
-/

namespace GitServer.Pack

/-- What the scanner has learnt so far: nothing yet, or how many entries are still to be read
and where the next one starts. -/
inductive Scanner where
  | fresh
  | reading (remaining next : Nat)
deriving DecidableEq, Repr

namespace Scanner

/-- Reads `n` entries from `next` on, as far as the bytes go. -/
def advance (buffer : Array UInt8) : Nat → Nat → Except CodecError Scanner
  | 0, next => .ok (.reading 0 next)
  | n + 1, next => do
    match ← RawEntry.read buffer next with
    | none => return .reading (n + 1) next
    | some raw => advance buffer n raw.next

/-- Feeds the bytes received so far: the new scanner state, and the length of the pack once
it is all there. -/
def feed (s : Scanner) (buffer : Bytes) : Except CodecError (Scanner × Option Nat) := do
  let (remaining, next) ← match s with
    | .fresh =>
      if buffer.length < headerLength then return (.fresh, none)
      else do
        let h ← Header.parse buffer
        pure (h.count, headerLength)
    | .reading remaining next => pure (remaining, next)
  let s ← advance buffer.toArray remaining next
  match s with
  | .reading 0 next =>
    let total := next + idLength
    return (s, if buffer.length ≥ total then some total else none)
  | _ => return (s, none)

end Scanner

end GitServer.Pack
