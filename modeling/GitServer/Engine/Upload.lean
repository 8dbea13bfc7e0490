import GitServer.Engine.Walk
import GitServer.Pack.Stream
import GitServer.Wire.PktLine
import GitServer.Wire.SideBand
import GitServer.Wire.Capability

/-!
# Upload-pack: sending objects

A fetch names the commits it wants, one `want` line each, the first one followed by the
client's capabilities, then a flush. Then it names commits it has, one `have` line each, and
ends with `done`. Without multi-ack only the first common commit is acknowledged (`ACK`);
a flush or `done` with nothing in common is answered `NAK`. After `done` the server sends a
pack of everything reachable from the wants and not from the common commits, cut into
side-band frames on band 1 when the client asked for side-band, with a flush after the
last frame.

Over HTTP the whole request arrives at once (`uploadPack`): a request without wants is
answered with nothing, and a request that ends in a flush without `done` only gets the
acknowledgements.
-/

namespace GitServer

namespace Engine

open Wire

/-- Reads an object id sent by the client. -/
def parseId (text : String) : Except ProtocolError ObjectId :=
  match ObjectId.parse text with
  | .ok id => .ok id
  | .error e => .error (.decode ("bad object id `" ++ text ++ "`: " ++ e.message))

/-- The capabilities in a text, as the client lists them. -/
def parseCapabilities (text : String) : List Capability := Capability.parseList text

/-- Reads a line of the want list: a `want` gives an id, and on the first want the
capabilities after it; the shallow and filter requests are ignored. -/
def wantLine (line : Bytes) (first : Bool) :
    Except ProtocolError (Option ObjectId × List Capability) := do
  let (command, rest) := readWord line
  match command with
  | "want" =>
    let (hex, caps) := readWord rest
    let id ← parseId hex
    pure (some id, if first then parseCapabilities (Utf8.decodeLossy caps) else [])
  | "shallow" | "deepen" | "deepen-since" | "deepen-not" | "filter" => pure (none, [])
  | _ => .error (.decode ("unexpected upload-pack line `" ++ command ++ "`"))

/-- A line of the negotiation. -/
inductive NegotiationLine where
  | have (id : ObjectId)
  | done
  | other (command : String)

/-- Reads a line of the negotiation. -/
def NegotiationLine.parse (line : Bytes) : Except ProtocolError NegotiationLine := do
  let (command, rest) := readWord line
  match command with
  | "have" => pure (.have (← parseId (readWord rest).1))
  | "done" => pure .done
  | _ => pure (.other command)

/-- A data pkt-line carrying a text. -/
def textLine (s : String) : Bytes := (PktLine.data (Bytes.ofString s)).encode

/-- The commits found in common so far, in the order the client named them. -/
abbrev Common := List ObjectId

/-- Takes a `have`: a stored commit not seen yet becomes common, and the first one is
acknowledged. The answer is the new common list and what to send. -/
def takeHave (n : RepoName) (common : Common) (id : ObjectId) : EngineM (Common × Bytes) := do
  if common.contains id then return (common, [])
  if !(← hasObject n id) then return (common, [])
  let common := common ++ [id]
  pure (common, if common.length = 1 then textLine ("ACK " ++ id.toHex ++ "\n") else [])

/-- The answer to a flush or to `done`: `NAK` when nothing is in common. -/
def closing (common : Common) : Bytes := if common.isEmpty then textLine "NAK\n" else []

/-- Every wanted object must be stored. -/
def checkWants (n : RepoName) (wants : List ObjectId) : EngineM Unit := do
  for w in wants do
    if !(← hasObject n w) then fail (.invalidRequest ("not our ref " ++ w.toHex))

/-- The payload size of side-band frames, when the client asked for side-band. -/
def sideBandLimit (caps : List Capability) : Option Nat :=
  if caps.contains .sideBand64k then some sideBand64kMax
  else if caps.contains .sideBand then some sideBandMax
  else none

/-- The annotated tags that references under `refs/tags/` point at directly. -/
def tagCandidates (n : RepoName) : EngineM (List ObjectId) := do
  let mut found := []
  for r in ← refs n do
    if !r.name.startsWith "refs/tags/" then continue
    let some id := r.target.id? | continue
    let o? ← tryCatch (do pure (some (← getObject n id))) fun e =>
      match e with
      | .storage (.notFound _) => pure none
      | _ => throw e
    if let some o := o? then
      if o.kind = .tag then found := found ++ [id]
  pure found

/-- The pack for the wants, given the common commits: the chunks the streaming encoder sends
for the objects collected, announcing all of them. An encoder that stops leaves the chunks it
sent before it stopped. -/
def preparePack (n : RepoName) (caps : List Capability) (wants : List ObjectId) (common : Common) :
    EngineM (List Bytes) := do
  let tags ← if caps.contains .includeTag then tagCandidates n else pure []
  let objects ← collect n wants common tags
  pure (Pack.streamPack objects.length (fun _ => true) objects).2

/-- What follows the negotiation: the pack's chunks as they come. Under side-band each chunk is
framed on band 1 by itself, and a flush closes them all. -/
def packResponse (caps : List Capability) (pack : List Bytes) : Bytes :=
  match sideBandLimit caps with
  | some max => (pack.flatMap fun c => frames .data c max) ++ flushBytes
  | none => pack.flatten

/-- Reads the want list from the front of a request, up to its flush or end. A request cut
short before any want asks for nothing. -/
def readWants (buf : Bytes) (wants : List ObjectId) (caps : List Capability) :
    Except ProtocolError (List ObjectId × List Capability × Bytes) :=
  match readOne buf with
  | .ok none => .ok (wants, caps, buf)
  | .ok (some (.flush, rest)) => .ok (wants, caps, rest.1)
  | .ok (some (.data line, rest)) =>
    match wantLine line wants.isEmpty with
    | .ok (w, c) => readWants rest.1 (wants ++ w.toList) (caps ++ c)
    | .error e => .error e
  | .error e => if wants.isEmpty then .ok (wants, caps, buf) else .error e
termination_by buf.length
decreasing_by all_goals exact rest.2

/-- Reads the negotiation of a request and answers it; `out` is what is answered so far. -/
def negotiate (n : RepoName) (caps : List Capability) (wants : List ObjectId) (buf : Bytes)
    (common : Common) (out : Bytes) : EngineM Bytes :=
  match readOne buf with
  | .error e => fail e
  | .ok none => pure out
  | .ok (some (.flush, _)) => pure (out ++ closing common)
  | .ok (some (.data line, rest)) => do
    match ← check (NegotiationLine.parse line) with
    | .have id =>
      let (common', sent) ← takeHave n common id
      negotiate n caps wants rest.1 common' (out ++ sent)
    | .done =>
      let pack ← preparePack n caps wants common
      pure (out ++ closing common ++ packResponse caps pack)
    | .other _ => negotiate n caps wants rest.1 common out
termination_by buf.length
decreasing_by all_goals exact rest.2

/-- Answers a whole upload-pack request over HTTP; an empty answer sends nothing. -/
def uploadPack (n : RepoName) (request : Bytes) : EngineM Bytes := do
  let (wants, caps, rest) ← check (readWants request [] [])
  if wants.isEmpty then return []
  checkWants n wants
  negotiate n caps wants rest [] []

end Engine

end GitServer
