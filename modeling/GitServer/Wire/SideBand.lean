import GitServer.Wire.PktLine

/-!
# Side-band

When the client asks for side-band, the server multiplexes its output over pkt-lines whose
first payload byte names a band: 1 for pack data, 2 for progress, 3 for a fatal error. Data
is cut into frames of at most the negotiated size: 995 bytes for `side-band`, 65515 for
`side-band-64k`.
-/

namespace GitServer.Wire

/-- The channel of a side-band frame. -/
inductive Band where
  | data
  | progress
  | error
deriving DecidableEq, Repr

/-- The byte that names a band. -/
def Band.code : Band → UInt8
  | .data => 1
  | .progress => 2
  | .error => 3

/-- The largest payload of a frame under `side-band-64k`. -/
def sideBand64kMax : Nat := 65515

/-- The largest payload of a frame under `side-band`. -/
def sideBandMax : Nat := 995

/-- Cuts data into chunks of at most `max` bytes, in order; a limit of 0 is taken as 1. -/
def chunks (max : Nat) : Bytes → List Bytes
  | [] => []
  | b :: bs =>
    let data := b :: bs
    data.take (Nat.max max 1) :: chunks max (data.drop (Nat.max max 1))
termination_by data => data.length
decreasing_by
  simp only [List.length_drop, List.length_cons]
  have : 1 ≤ Nat.max max 1 := Nat.le_max_right _ _
  omega

/-- The data as frames on a band, each at most `max` bytes of payload. -/
def frames (band : Band) (data : Bytes) (max : Nat) : Bytes :=
  (chunks max data).flatMap fun c => lengthPrefix (c.length + 1) ++ band.code :: c

end GitServer.Wire
