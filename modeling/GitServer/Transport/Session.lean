import GitServer.Engine.Connection

/-!
# Sessions

A session binds one request to a repository named by the client and runs the matching
exchange. Names go through the same normalisation as everywhere else, so `demo`,
`/demo.git/` and ` demo ` are one repository. Pushing over SSH creates a repository that does
not exist yet; every other exchange needs the repository to exist.
-/

namespace GitServer

namespace Transport

open Wire Engine

/-- The reference advertisement of a repository for a service. -/
def advertise (raw : String) (service : Service) (binding : Binding) : EngineM Bytes := do
  let n ← store (Storage.openNamed raw)
  infoRefs n service binding

/-- Answers an upload-pack request over HTTP. -/
def uploadPack (raw : String) (request : Bytes) : EngineM Bytes := do
  let n ← store (Storage.openNamed raw)
  Engine.uploadPack n request

/-- Answers a receive-pack request over HTTP. -/
def receivePack (raw : String) (request : Bytes) : EngineM Bytes := do
  let n ← store (Storage.openNamed raw)
  Engine.receivePack n request

/-- Runs a service over an SSH channel; a push creates a missing repository. -/
def serveSsh (service : Service) (raw : String) : SessionM Unit := do
  let n ← engine (store (match service with
    | .receivePack => Storage.openOrCreate raw
    | .uploadPack => Storage.openNamed raw))
  serve n service

/-- Runs a service over an SSH channel the client writes `input` to and then closes: the
outcome, the storage afterwards and everything the server wrote. -/
def runSsh (s : Storage) (service : Service) (raw : String) (input : Bytes) :
    Except ProtocolError Unit × Storage × Bytes :=
  let (r, s', ch) := ((serveSsh service raw).run).run (s, { input := Engine.atOnce input })
  (r, s', ch.output)

end Transport

end GitServer
