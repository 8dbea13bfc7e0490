import GitServer.Engine.Upload
import GitServer.Pack.Decoded
import GitServer.Wire.RefCommand

/-!
# Receive-pack: taking a push

A push sends one command a line, `<old> <new> <name>`, the first one followed by a NUL and
the client's capabilities, then a flush and, unless every command deletes, a pack. The pack
may be thin: deltas against objects the repository already has are completed from storage.

The server unpacks and stores the pack first. When that fails, every command fails with
`unpacker error`; otherwise each command is applied on its own and records its outcome, so
one refused reference never stops the others:

* `HEAD` and names that are not valid references are a `funny refname`;
* a command that does not delete needs its new object stored (`missing object`);
* a reference that moved meanwhile is a `stale old value`.

The report lists the unpack outcome and one line per command, and is sent only when the
client asked for `report-status`, on band 1 under side-band.
-/

namespace GitServer

namespace Engine

open Wire

/-- What a push asks for: its commands and the client's capabilities. -/
structure PushRequest where
  commands : List RefCommand := []
  caps : List Capability := []
deriving DecidableEq

/-- Reads one command line. A `shallow` line is ignored; capabilities are taken from the
first command only. -/
def commandLine (req : PushRequest) (line : Bytes) : Except ProtocolError PushRequest := do
  let line := (Bytes.dropSuffix? line [10]).getD line
  let (command, caps) := match Bytes.splitFirst? line 0 with
    | some (c, rest) => (c, some rest)
    | none => (line, none)
  if (Bytes.dropPrefix? command (Bytes.ofString "shallow ")).isSome then return req
  let req := match caps with
    | some c => if req.commands.isEmpty then
        { req with caps := req.caps ++ parseCapabilities (Utf8.decodeLossy c) } else req
    | none => req
  let some text := Utf8.decode? command | .error (.decode "push command is not UTF-8")
  match (text.toList.splitOn ' ').map String.ofList with
  | [old, new, name] =>
    pure { req with commands := req.commands ++ [⟨← parseId old, ← parseId new, name, .pending⟩] }
  | _ => .error (.decode ("malformed push command `" ++ text ++ "`"))

/-- A message on one line: line breaks become spaces. -/
def singleLine (s : String) : String :=
  String.ofList (s.toList.map fun c => if c = '\n' ∨ c = '\r' then ' ' else c)

/-- Fetches one missing base from storage and supplies it, when storage has it; the flag
records whether any base was supplied. -/
def supplyBase (n : RepoName) (acc : Pack.Decoded × Bool) (base : ObjectId) :
    EngineM (Pack.Decoded × Bool) := do
  let o? ← tryCatch (do pure (some (← getObject n base))) fun e =>
    match e with
    | .storage (.notFound _) => pure none
    | _ => throw e
  match o? with
  | none => pure acc
  | some o =>
    match acc.1.addExternal o with
    | .ok p' => pure (p', true)
    | .error e => fail (.decode e.message)

/-- Adds the bases a thin pack needs from storage, round after round, until nothing more is
missing or storage has none of what is. Each round resolves at least one delta, so one round
per delta suffices. -/
def completeFrom (n : RepoName) : Nat → Pack.Decoded → EngineM Pack.Decoded
  | 0, p => pure p
  | fuel + 1, p => do
    let missing := p.missingBases
    if missing.isEmpty then return p
    let (p, added) ← missing.foldlM (supplyBase n) (p, false)
    if added then completeFrom n fuel p else pure p

/-- Decodes a pushed pack and completes it from storage; fails unless every delta is then
resolved. -/
def unpack (n : RepoName) (data : Bytes) : EngineM Pack.Decoded := do
  let p ← match Pack.decode data with
    | .ok p => pure p
    | .error e => fail (.decode e.message)
  let p ← completeFrom n (p.pending.length + 1) p
  match p.ensureComplete with
  | .ok () => pure ()
  | .error e => fail (.decode e.message)
  pure p

/-- Stores every object of a decoded pack, in order, and answers how many it stored. -/
def storeEntries (n : RepoName) (p : Pack.Decoded) : EngineM Nat := do
  p.entries.toList.forM fun e => do
    let _ ← putObject n e.object.kind e.object.data
  pure p.entries.size

/-- Decodes a pushed pack, completes it from storage and stores every object in it. -/
def unpackAndStore (n : RepoName) (data : Bytes) : EngineM Unit := do
  let p ← unpack n data
  let _ ← storeEntries n p
  pure ()

/-- Moves the reference a command names from its old id to its new one, recording the
outcome: a reference that holds something else is a `stale old value`. -/
def moveReference (n : RepoName) (c : RefCommand) : EngineM RefCommand := do
  let old := if c.old.isZero then none else some c.old
  let new := if c.kind = .delete then none else some c.new
  let outcome ← tryCatch (do updateReference n c.name old new; pure none) fun e => pure (some e)
  match outcome with
  | none => pure { c with status := .success }
  | some e =>
    let why := match e with
      | .storage (.referenceConflict ..) => "stale old value"
      | .storage (.notFound _) => if old.isSome then "stale old value" else singleLine e.message
      | _ => singleLine e.message
    pure { c with status := .failed why }

/-- Applies one command, recording its outcome in it. -/
def applyCommand (n : RepoName) (c : RefCommand) : EngineM RefCommand := do
  let failed := fun (why : String) => pure { c with status := .failed why }
  if c.name = headName || (validateRefName c.name).toBool = false then return ← failed "funny refname"
  if c.kind ≠ .delete then
    let stored ← tryCatch (do pure (Sum.inl (← hasObject n c.new))) fun e => pure (Sum.inr e)
    match stored with
    | .inl true => pure ()
    | .inl false => return ← failed "missing object"
    | .inr e => return ← failed (singleLine e.message)
  moveReference n c

/-- Unpacks the pack of a push when there is one, keeping the failure to report it. -/
def unpackPushed (n : RepoName) : Option Bytes → EngineM (Except ProtocolError Unit)
  | some data =>
    if data.isEmpty then pure (.ok ())
    else tryCatch (do unpackAndStore n data; pure (.ok ())) fun e => pure (.error e)
  | none => pure (.ok ())

/-- Unpacks the pack when there is one, applies the commands and builds the report. -/
def applyPush (n : RepoName) (req : PushRequest) (pack : Option Bytes) : EngineM Bytes := do
  let unpacked ← unpackPushed n pack
  let commands ← match unpacked with
    | .ok () => req.commands.mapM (applyCommand n)
    | .error _ => pure (req.commands.map fun c => { c with status := .failed "unpacker error" })
  let head := match unpacked with
    | .ok () => "unpack ok\n"
    | .error e => "unpack " ++ singleLine e.message ++ "\n"
  let report := textLine head ++ (commands.map fun c => textLine c.statusLine).flatten ++ flushBytes
  if !req.caps.contains .reportStatus then return []
  pure <| match sideBandLimit req.caps with
    | some max => frames .data report max ++ flushBytes
    | none => report

/-- Reads the command list from the front of a request: the commands, whether a flush ended
them, and the bytes after it. -/
def readCommands (buf : Bytes) (req : PushRequest) :
    Except ProtocolError (PushRequest × Bool × Bytes) :=
  match readOne buf with
  | .error e => .error e
  | .ok none => .ok (req, false, buf)
  | .ok (some (.flush, rest)) => .ok (req, true, rest.1)
  | .ok (some (.data line, rest)) =>
    match commandLine req line with
    | .ok req' => readCommands rest.1 req'
    | .error e => .error e
termination_by buf.length
decreasing_by exact rest.2

/-- Answers a whole receive-pack request over HTTP: commands, flush, then the pack. -/
def receivePack (n : RepoName) (request : Bytes) : EngineM Bytes := do
  let (req, flushed, rest) ← check (readCommands request {})
  if req.commands.isEmpty then return []
  if !flushed then fail (.decode "missing flush after push commands")
  applyPush n req (if rest.isEmpty then none else some rest)

end Engine

end GitServer
