import GitServer.Storage.Error

/-!
# Protocol errors

The smart protocol fails on a malformed request, an unknown service, a request it refuses, a
broken connection, a pack it cannot build or read, or an error of the storage below it. Each
maps to an HTTP status (`ProtocolError.status`).
-/

namespace GitServer

/-- Why a protocol exchange failed. -/
inductive ProtocolError where
  /-- The request bytes do not parse. -/
  | decode (why : String)
  /-- The service named is not one the server offers. -/
  | invalidService (name : String)
  /-- The request is well formed but refused. -/
  | invalidRequest (why : String)
  /-- The storage failed. -/
  | storage (e : StorageError)
  /-- The connection failed. -/
  | io (message : String)
  /-- A pack could not be built or read. -/
  | pack (why : String)
deriving DecidableEq, Repr

namespace ProtocolError

/-- The message of a protocol error; a storage error shows its own. -/
def message : ProtocolError → String
  | .decode s => "protocol decode error: " ++ s
  | .invalidService s => "invalid service: " ++ s
  | .invalidRequest s => "invalid request: " ++ s
  | .storage e => e.message
  | .io s => "IO error: " ++ s
  | .pack s => "pack error: " ++ s

/-- The HTTP status for an error: 404 for an absent thing, 409 for a conflict, 400 for a bad
request, 501 for an operation not offered, 500 otherwise. -/
def status : ProtocolError → Nat
  | .storage (.notFound _) => 404
  | .storage (.alreadyExists _) | .storage (.referenceConflict ..) => 409
  | .storage (.invalidRequest _) | .invalidRequest _ | .decode _ | .invalidService _ => 400
  | .storage (.unsupported _) => 501
  | _ => 500

end ProtocolError

end GitServer
