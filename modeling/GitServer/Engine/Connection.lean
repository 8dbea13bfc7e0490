import GitServer.Engine.Advertise
import GitServer.Engine.Receive
import GitServer.Pack.Scanner
import GitServer.Wire.Chunks

/-!
# Exchanges over a connection

Over SSH one connection carries the whole exchange: the advertisement, then the client's
lines read one at a time, the server writing as it goes. The connection is modelled as a
`Channel`: the bytes the client sends, in the chunks the network delivers them in, which reads
consume, and the bytes the server has written. An exchange that fails keeps what it wrote
before the failure, so the client sees the output up to the error.

A line is read exactly, over as many chunks as it spans (`Wire.readLineFrom`); the pack is
read a chunk at a time, as much of the chunk at hand as the read has room for.

Upload-pack answers each flush of the negotiation at once, and after `done` sends what it
kept back and the pack. When the pack cannot be built and the client asked for side-band,
the error goes out on band 3 first.

Receive-pack reads the commands, then, unless every command deletes, the pack up to its
trailer: the connection has no length for it, so the pack scanner is fed what has arrived
until it knows where the pack ends.
-/

namespace GitServer

namespace Engine

open Wire

/-- A connection: the bytes the client sent that are still unread, in the chunks that are
still to be delivered, and what the server wrote. An empty chunk closes the connection. -/
structure Channel where
  input : List Bytes
  output : Bytes := []
deriving DecidableEq, Repr

/-- The client's bytes delivered at once, in one chunk. -/
def atOnce (bs : Bytes) : List Bytes := if bs = [] then [] else [bs]

/-- An exchange over a connection: it changes storage and the channel, and a failure keeps
both. -/
abbrev SessionM := ExceptT ProtocolError (StateM (Storage × Channel))

/-- Runs an engine operation against the storage of the exchange. -/
def engine {α} (m : EngineM α) : SessionM α :=
  ExceptT.mk fun (s, ch) =>
    let (x, s') := (m.run).run s
    (x, (s', ch))

/-- Fails the exchange. -/
def abort {α} (e : ProtocolError) : SessionM α := throw e

/-- Runs a check that may fail. -/
def verify {α} : Except ProtocolError α → SessionM α
  | .ok a => pure a
  | .error e => throw e

/-- Writes bytes to the client. -/
def write (bs : Bytes) : SessionM Unit :=
  modify fun (s, ch) => (s, { ch with output := ch.output ++ bs })

/-- The chunks still to be delivered. -/
def pending : SessionM (List Bytes) := do pure (← get).2.input

/-- Consumes input: the chunks left are `rest`. -/
def consume (rest : List Bytes) : SessionM Unit :=
  modify fun (s, ch) => (s, { ch with input := rest })

/-- Reads one pkt-line; none when the client has closed. A failed read has consumed what it
read. -/
def readLine : SessionM (Option PktLine) := do
  let (line, rest) := readLineFrom (← pending)
  consume rest
  match line with
  | .ok l => pure l
  | .error e => abort e

/-- How many reads a channel allows: each read that returns a line consumes bytes. -/
def readBound : SessionM Nat := do pure ((← pending).flatten.length + 1)

/-- Reads the want list up to its flush, for at most `fuel` lines. -/
def readWantList : Nat → List ObjectId → List Capability →
    SessionM (List ObjectId × List Capability)
  | 0, wants, caps => pure (wants, caps)
  | fuel + 1, wants, caps => do
    match ← readLine with
    | some (.data line) =>
      let (w, c) ← verify (wantLine line wants.isEmpty)
      readWantList fuel (wants ++ w.toList) (caps ++ c)
    | some .flush => pure (wants, caps)
    | none =>
      if wants.isEmpty then pure (wants, caps)
      else abort (.decode "connection closed inside want list")

/-- Reads the negotiation up to `done`, for at most `fuel` lines. Each flush is answered at
once; `held` is what is kept back until the next flush or `done`. -/
def readHaves (n : RepoName) : Nat → Common → Bytes → SessionM (Common × Bytes)
  | 0, common, held => pure (common, held)
  | fuel + 1, common, held => do
    match ← readLine with
    | none => abort (.decode "connection closed before done")
    | some .flush =>
      write (held ++ closing common)
      readHaves n fuel common []
    | some (.data line) =>
      match ← verify (NegotiationLine.parse line) with
      | .have id =>
        let (common', sent) ← engine (takeHave n common id)
        readHaves n fuel common' (held ++ sent)
      | .done => pure (common, held ++ closing common)
      | .other _ => readHaves n fuel common held

/-- The whole upload-pack exchange. -/
def serveUpload (n : RepoName) : SessionM Unit := do
  write (← engine (infoRefs n .uploadPack .ssh))
  let (wants, caps) ← readWantList (← readBound) [] []
  if wants.isEmpty then return
  engine (checkWants n wants)
  let (common, held) ← readHaves n (← readBound) [] []
  write held
  let pack ← tryCatch (engine (preparePack n caps wants common)) fun e => do
    if (sideBandLimit caps).isSome then
      write (frames .error (Bytes.ofString ("error: " ++ e.message ++ "\n")) sideBandMax)
    abort e
  write (packResponse caps pack)

/-- Reads the command list up to its flush, for at most `fuel` lines. -/
def readCommandList : Nat → PushRequest → SessionM PushRequest
  | 0, req => pure req
  | fuel + 1, req => do
    match ← readLine with
    | some (.data line) => readCommandList fuel (← verify (commandLine req line))
    | some .flush => pure req
    | none =>
      if req.commands.isEmpty then pure req
      else abort (.decode "connection closed inside command list")

/-- The most bytes one read from the connection returns. -/
def readChunk : Nat := 65536

/-- Reads a pack: feeds the scanner what has arrived, reading more while it cannot tell
where the pack ends. A read returns the front of the chunk at hand, at most `readChunk` bytes.
A scan failure or the end of input stops the reading, and the bytes read so far are the
pack. -/
def readPackFrom : Nat → Pack.Scanner → Bytes → SessionM Bytes
  | 0, _, buffer => pure buffer
  | fuel + 1, scanner, buffer => do
    match scanner.feed buffer with
    | .ok (_, some total) => pure (buffer.take total)
    | .error _ => pure buffer
    | .ok (scanner', none) =>
      let (more, rest) := readSome readChunk (← pending)
      if more.isEmpty then return buffer
      consume rest
      readPackFrom fuel scanner' (buffer ++ more)

/-- The whole receive-pack exchange. -/
def serveReceive (n : RepoName) : SessionM Unit := do
  write (← engine (infoRefs n .receivePack .ssh))
  let req ← readCommandList (← readBound) {}
  if req.commands.isEmpty then return
  let needsPack := req.commands.any (·.kind != .delete)
  let pack ← if needsPack then
      some <$> readPackFrom ((← pending).flatten.length + 1) .fresh []
    else pure none
  write (← engine (applyPush n req pack))

/-- The exchange of a service over a connection. -/
def serve (n : RepoName) : Service → SessionM Unit
  | .uploadPack => serveUpload n
  | .receivePack => serveReceive n

end Engine

end GitServer
