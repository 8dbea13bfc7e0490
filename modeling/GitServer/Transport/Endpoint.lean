import GitServer.Wire.Service

/-!
# Smart HTTP endpoints

A smart HTTP request path is a repository path followed by one of three endpoints:
`/info/refs` for the advertisement, `/git-upload-pack` and `/git-receive-pack` for the
services. The advertisement needs the service as a query parameter; without it the client is
asking for the dumb protocol, which is not served.
-/

namespace GitServer.Transport

open Wire

/-- A smart HTTP endpoint. -/
inductive Endpoint where
  | infoRefs
  | uploadPack
  | receivePack
deriving DecidableEq, Repr

/-- The path suffix of each endpoint, in the order they are tried. -/
def Endpoint.suffixes : List (String × Endpoint) :=
  [("/info/refs", .infoRefs), ("/git-upload-pack", .uploadPack),
   ("/git-receive-pack", .receivePack)]

/-- The repository path and endpoint of a request path, if it is a smart HTTP request. -/
def extractRepoPath (path : String) : Option (String × Endpoint) :=
  Endpoint.suffixes.findSome? fun (suffix, e) =>
    if path.endsWith suffix then
      let repo := String.ofList ((path.toList.take (path.length - suffix.length)).dropWhile (· = '/'))
      if repo.isEmpty then none else some (repo, e)
    else none

/-- The service an advertisement request asks for. -/
def infoRefsService : Option String → Except ProtocolError Service
  | some s => Service.parse s
  | none => .error (.invalidRequest "missing service parameter (dumb HTTP is not supported)")

end GitServer.Transport
