import GitServer.Wire.PktLine
import GitServer.Pack.Scanner

/-!
# Reading a server's output

What a server sends is a sequence of pkt-lines, except where a pack follows the negotiation
of a fetch. A client reading an upload-pack answer finds the pack in one of two ways: raw,
starting with `PACK` where a pkt-line would start, its end found by the pack scanner; or
multiplexed, as consecutive data lines on band 1, whose payloads without the band byte join
into the pack. Other output, and every answer of other services, is plain pkt-lines, and a
line that does not parse ends the reading with the rest of the stream.
-/

namespace GitServer.Wire

/-- One item of a server's output. -/
inductive TranscriptItem where
  | line (payload : Bytes)
  | flush
  /-- A pack sent raw. -/
  | pack (data : Bytes)
  /-- A pack sent on band 1, its payloads joined. -/
  | sideBandPack (data : Bytes)
  /-- The rest of the stream from a line that does not parse. -/
  | garbage (rest : Bytes)
deriving DecidableEq, Repr

/-- Collects the payloads of the band-1 data lines at the front of a stream, last first; the
answer is the payloads and the stream after them. -/
def bandRun (buf : Bytes) (acc : List Bytes) : List Bytes × { r : Bytes // r.length ≤ buf.length } :=
  match readOne buf with
  | .ok (some (.data (1 :: p), rest)) =>
    let (pieces, r) := bandRun rest.1 (p :: acc)
    (pieces, ⟨r.1, Nat.le_trans r.2 (Nat.le_of_lt rest.2)⟩)
  | _ => (acc, ⟨buf, Nat.le_refl _⟩)
termination_by buf.length
decreasing_by exact rest.2

/-- The bytes of `PACK`. -/
def packMagic : Bytes := Bytes.ofString "PACK"

/-- Splits a server's output into items; `upload` reads it as an upload-pack answer, where
packs may appear. -/
def transcript (upload : Bool) (bs : Bytes) : List TranscriptItem :=
  if bs.isEmpty then []
  else if upload && packMagic.isPrefixOf bs then
    match Pack.Scanner.fresh.feed bs with
    | .ok (_, some total) =>
      if _h : 0 < total ∧ total ≤ bs.length then
        .pack (bs.take total) :: transcript upload (bs.drop total)
      else [.pack bs]
    | _ => [.pack bs]
  else
    match readOne bs with
    | .error _ => [.garbage bs]
    | .ok none => []
    | .ok (some (.flush, rest)) => .flush :: transcript upload rest.1
    | .ok (some (.data p, rest)) =>
      match p with
      | 1 :: payload =>
        if upload then
          let (pieces, r) := bandRun rest.1 [payload]
          .sideBandPack pieces.reverse.flatten :: transcript upload r.1
        else .line p :: transcript upload rest.1
      | _ => .line p :: transcript upload rest.1
termination_by bs.length
decreasing_by
  · simp only [List.length_drop]; omega
  · exact rest.2
  · exact Nat.lt_of_le_of_lt r.2 rest.2
  · exact rest.2
  · exact rest.2

end GitServer.Wire
