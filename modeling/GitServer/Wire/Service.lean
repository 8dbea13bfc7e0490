import GitServer.Wire.Error

/-!
# Services

A client asks for one of two services: `git-upload-pack` to fetch, `git-receive-pack` to
push. Over HTTP each has a content type for its advertisement and one for its result.
-/

namespace GitServer.Wire

/-- A smart-protocol service. -/
inductive Service where
  /-- Fetching: the server sends objects. -/
  | uploadPack
  /-- Pushing: the server receives objects and updates references. -/
  | receivePack
deriving DecidableEq, Repr

namespace Service

/-- The name of a service on the wire. -/
def name : Service → String
  | .uploadPack => "git-upload-pack"
  | .receivePack => "git-receive-pack"

/-- The service with this exact name. -/
def parse (s : String) : Except ProtocolError Service :=
  if s = "git-upload-pack" then .ok .uploadPack
  else if s = "git-receive-pack" then .ok .receivePack
  else .error (.invalidService s)

/-- The content type of a service's result over HTTP. -/
def resultType (s : Service) : String := "application/x-" ++ s.name ++ "-result"

/-- The content type of a service's advertisement over HTTP. -/
def advertisementType (s : Service) : String := "application/x-" ++ s.name ++ "-advertisement"

theorem parse_name (s : Service) : parse s.name = .ok s := by
  cases s <;> rfl

end Service

/-- The transport a request came by; over HTTP an advertisement starts with the service
name. -/
inductive Binding where
  | http
  | ssh
deriving DecidableEq, Repr

end GitServer.Wire
