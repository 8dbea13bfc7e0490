import GitServer.Config.Startup
import GitServer.Http.Framing
import GitServer.Http.Router
import Std.Time.DateTime.Timestamp

/-!
# The server program

Reads the command line, the environment and the configuration file, settles the settings
and chooses the storage, as the server does when it starts. It then serves the Git smart
HTTP protocol and the repository API on one connection carried by standard input and output,
the way a server started by inetd does, answering requests until the client closes the
connection or asks to. Repositories live as long as the connection.

Exit codes: 0 after serving, 1 when the server cannot start, 2 for a command line it cannot
read. Log lines go to standard error.
-/

namespace GitServer.Program

open Config Http

/-- Seconds since the Unix epoch. -/
def clock : IO Int := do
  return (← Std.Time.Timestamp.now).toSecondsSinceUnixEpoch.val

/-- Reads one line of a request head without its line end; `none` at the end of the input. -/
def readHeadLine (input : IO.FS.Stream) : IO (Option String) := do
  let raw ← input.getLine
  return if raw.isEmpty then none else some (headLine raw)

/-- Reads `n` bytes, or fewer when the input ends first. -/
partial def readExactly (input : IO.FS.Stream) (n : Nat) (acc : ByteArray) : IO ByteArray := do
  if acc.size ≥ n then return acc
  let chunk ← input.read (n - acc.size).toUSize
  if chunk.isEmpty then return acc
  readExactly input n (acc ++ chunk)

/-- Reads header lines up to the empty line that ends the head. -/
partial def readHeaders (input : IO.FS.Stream) (acc : Array (String × String)) :
    IO (Except String (List (String × String))) := do
  match ← readHeadLine input with
  | none => return .error "truncated request head"
  | some "" => return .ok acc.toList
  | some line =>
    match parseHeaderLine line with
    | .ok h => readHeaders input (acc.push h)
    | .error why => return .error why

/-- Reads trailer lines up to the empty line after the last chunk. -/
partial def skipTrailers (input : IO.FS.Stream) : IO Unit := do
  match ← readHeadLine input with
  | none | some "" => pure ()
  | some _ => skipTrailers input

/-- Reads the chunks of a chunked body. -/
partial def readChunks (input : IO.FS.Stream) (acc : ByteArray) : IO (Except String ByteArray) := do
  match ← readHeadLine input with
  | none => return .error "truncated chunked body"
  | some line =>
    match chunkSize line with
    | .error why => return .error why
    | .ok 0 => skipTrailers input; return .ok acc
    | .ok n =>
      let data ← readExactly input n .empty
      if data.size < n then return .error "truncated chunked body"
      let _ ← readHeadLine input
      readChunks input (acc ++ data)

/-- Reads the body a request's headers announce. -/
def readBody (input : IO.FS.Stream) (headers : List (String × String)) :
    IO (Except String ByteArray) := do
  match bodyFraming headers with
  | .error why => return .error why
  | .ok .empty => return .ok .empty
  | .ok (.length n) =>
    let data ← readExactly input n .empty
    return if data.size < n then .error "truncated request body" else .ok data
  | .ok .chunked => readChunks input .empty

/-- Reads the next request and whether the connection stays open after it; `none` at the
end of the input. -/
partial def readRequest (input : IO.FS.Stream) : IO (Option (Except String (Request × Bool))) := do
  let some line ← readHeadLine input | return none
  if line.isEmpty then return ← readRequest input
  match parseRequestLine line with
  | .error why => return some (.error why)
  | .ok start =>
    match ← readHeaders input #[] with
    | .error why => return some (.error why)
    | .ok headers =>
      match ← readBody input headers with
      | .error why => return some (.error why)
      | .ok body =>
        let request := Request.make start.method start.target headers body.toList
        return some (.ok (request, keepsAlive start headers))

/-- Writes a response. -/
def send (output : IO.FS.Stream) (bytes : Bytes) : IO Unit := do
  output.write ⟨bytes.toArray⟩
  output.flush

/-- Answers requests until the connection ends. -/
partial def serve (input output : IO.FS.Stream) (storage : Storage) : IO Unit := do
  match ← readRequest input with
  | none => pure ()
  | some (.error why) => send output ((malformed why).encode false false)
  | some (.ok (request, keep)) =>
    let (response, storage) := (dispatch request).run { storage with now := ← clock }
    send output (response.encode (request.method == "HEAD") keep)
    if keep then serve input output storage

/-- How a failure to read a file is reported. -/
def readFailure : IO.Error → String
  | .noFileOrDirectory .. => "No such file or directory (os error 2)"
  | .permissionDenied .. => "Permission denied (os error 13)"
  | .userError msg => msg
  | e => toString e

/-- Reads the configuration file named on the command line, if one is. -/
def readConfigFile (o : Overrides) : IO (Option (String × Except String String)) := do
  match o.configPath with
  | none => return none
  | some path =>
    try
      return some (path, .ok (← IO.FS.readFile path))
    catch e =>
      return some (path, .error (readFailure e))

/-- Starts the server with the given changes to its settings. -/
def run (o : Overrides) : IO UInt32 := do
  let file ← readConfigFile o
  let started := do
    let s ← startSettings o file
    let address ← httpAddress s
    pure (s, address)
  match started with
  | .error e =>
    IO.eprint e.render
    return 1
  | .ok (s, address) =>
    IO.eprintln ("starting " ++ programName ++ " storage=" ++ s.storage.kind.name ++
      " http=" ++ address)
    if !s.ssh.enabled then IO.eprintln "ssh server disabled"
    serve (← IO.getStdin) (← IO.getStdout) (s.emptyStorage (← clock))
    IO.eprintln (programName ++ " stopped")
    return 0

/-- The values of the environment variables the options fall back on. -/
def environment : IO (List (String × String)) := do
  let mut found := []
  for f in Flag.all do
    if let some v ← IO.getEnv f.env then found := (f.env, v) :: found
  return found

end GitServer.Program

open GitServer GitServer.Config GitServer.Program in
/-- Runs the server program. -/
def main (args : List String) : IO UInt32 := do
  let env ← environment
  match Command.parse args (fun name => List.lookup name env) with
  | .error text =>
    IO.eprint text
    return 2
  | .ok .help =>
    IO.print helpText
    return 0
  | .ok .version =>
    IO.print versionText
    return 0
  | .ok (.run o) => run o
