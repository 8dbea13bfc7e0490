import GitServer.Wire.Service
import GitServer.Wire.Capability

/-!
# SSH exec commands

An SSH client runs the service as a command: the service name and the repository path,
often quoted and sometimes with the host in front, as in `git-upload-pack 'host:/team/p.git'`.
Quotes around the path, anything up to the first colon, and leading slashes are dropped;
words after the path are ignored.
-/

namespace GitServer.Transport

open Wire

/-- A parsed exec command: the service and the repository path. -/
structure ExecCommand where
  service : Service
  repo : String
deriving DecidableEq, Repr

/-- Parses an exec command. -/
def ExecCommand.parse (raw : String) : Except ProtocolError ExecCommand := do
  let words := Capability.words raw
  let some first := words.head? | throw (.invalidRequest "empty exec command")
  let service ← Service.parse first
  let needsPath := ProtocolError.invalidRequest (service.name ++ " needs a repository path")
  let some path := (words.drop 1).head? | throw needsPath
  let isQuote := fun (c : Char) => c = '\'' ∨ c = '"'
  let unquoted := (path.toList.dropWhile isQuote).reverse.dropWhile isQuote |>.reverse
  let afterHost := match unquoted.splitOn ':' with
    | [whole] => whole
    | _ :: rest => String.intercalate ":" (rest.map String.ofList) |>.toList
    | [] => unquoted
  let repo := String.ofList (afterHost.dropWhile (· = '/'))
  if repo.isEmpty then throw needsPath
  pure ⟨service, repo⟩

end GitServer.Transport
