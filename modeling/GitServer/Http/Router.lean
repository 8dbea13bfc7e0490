import GitServer.Http.Message
import GitServer.Http.JsonBody
import GitServer.Transport.Session
import GitServer.Transport.Endpoint
import GitServer.Deflate.Gzip

/-!
# The HTTP surface

Requests reach either the repository API or the smart HTTP endpoints:

* `POST /api/repo` creates the repository a JSON body names: `201`;
* `GET /api/repos` lists the repositories as a JSON array of names;
* `DELETE /api/repo/<name>` deletes one, the name percent-decoded: `204`;
* any other path ending in `/info/refs`, `/git-upload-pack` or `/git-receive-pack` is a smart
  HTTP request for the repository the path starts with.

A path of the API answered with another method gets `405` and nothing else; a smart HTTP
path with the wrong method gets `405` with a message, and any other path `404`. The query of
a smart HTTP request is read before its path, so a repeated `service` is refused even where
the path would not be found.

A request body sent with `Content-Encoding: gzip` (or `x-gzip`) is inflated first. Failures
of the engine or the storage answer with the error's status and its message on a line; a
`HEAD` request gets the answer of the same request without its body.
-/

namespace GitServer.Http

open Wire Engine Transport

/-- Runs a handler; a failure becomes a plain text answer with the error's status. -/
def answer (m : EngineM Response) : StateM Storage Response := do
  match ← m.run with
  | .ok r => pure r
  | .error e => pure (Response.text e.status (e.message ++ "\n"))

/-- A smart HTTP answer: its content type, never cached. -/
def gitAnswer (contentType : String) (body : Bytes) : Response :=
  ⟨200, some contentType, some "no-cache", body⟩

/-- Whether a request body is gzip-compressed. -/
def isGzip (encoding : Option String) : Bool :=
  match encoding with
  | some e => lowerAscii e == "gzip" || lowerAscii e == "x-gzip"
  | none => false

/-- The body of a request, inflated when it is compressed. -/
def readBody (r : Request) : Except ProtocolError Bytes :=
  if isGzip (r.header "content-encoding") then
    (Gzip.decompress r.body).mapError fun e => .decode ("invalid gzip request body: " ++ e.message)
  else .ok r.body

/-- A character of a JSON string, escaped where JSON needs it. -/
def jsonChar (c : Char) : String :=
  if c == '"' then "\\\""
  else if c == '\\' then "\\\\"
  else if c == '\n' then "\\n"
  else if c == '\r' then "\\r"
  else if c == '\t' then "\\t"
  else if c.toNat == 8 then "\\b"
  else if c.toNat == 12 then "\\f"
  else if c.toNat < 32 then
    "\\u00" ++ String.ofList [Hex.digitChar (c.toNat / 16), Hex.digitChar (c.toNat % 16)]
  else String.singleton c

/-- A JSON array of strings, without blanks. -/
def jsonStrings (xs : List String) : String :=
  "[" ++ ",".intercalate (xs.map fun s => "\"" ++ String.join (s.toList.map jsonChar) ++ "\"") ++
    "]"

/-! ## The repository API -/

/-- Creates the repository a JSON body names. -/
def createRepo (r : Request) : StateM Storage Response := answer do
  if !isJsonType (r.header "content-type") then
    throw (.invalidRequest "Expected request with `Content-Type: application/json`")
  let name ← match JsonBody.readName r.body with
    | .ok n => pure n
    | .error f => throw (.invalidRequest (f.rejection r.body.toArray))
  let _ ← store (Storage.createNamed name)
  pure (Response.text 201 "repository created")

/-- Lists the repositories by name. -/
def listRepos : StateM Storage Response := answer do
  let names ← store Storage.list
  pure ⟨200, some "application/json", none, Bytes.ofString (jsonStrings (names.map (·.path)))⟩

/-- Deletes the repository a percent-encoded path segment names. -/
def deleteRepo (encoded : String) : StateM Storage Response :=
  match Utf8.decode? (percentDecode (Bytes.ofString encoded)) with
  | none => pure (Response.text 400 "Invalid URL: Invalid UTF-8 in `name`")
  | some raw => answer do
    store (do Storage.delete (← Storage.normalize raw))
    pure (Response.bare 204)

/-- The repository part of a deletion path, when the path is one. -/
def deletionName (path : String) : Option String :=
  let pfx := "/api/repo/"
  if path.startsWith pfx && pfx.length < path.length then some (path.drop pfx.length).toString
  else none

/-! ## Smart HTTP -/

/-- Answers a request for one of the smart HTTP endpoints. -/
def smartHttp (r : Request) : StateM Storage Response :=
  match serviceParameter r.query with
  | .error why => pure (Response.text 400 ("Failed to deserialize query string: " ++ why))
  | .ok service =>
    match extractRepoPath r.path with
    | none => pure (Response.text 404 "not found")
    | some (repo, endpoint) => answer do
      match endpoint, r.method with
      | .infoRefs, "GET" =>
        let s ← check (infoRefsService service)
        pure (gitAnswer s.advertisementType (← advertise repo s .http))
      | .uploadPack, "POST" =>
        let body ← check (readBody r)
        pure (gitAnswer Service.uploadPack.resultType (← uploadPack repo body))
      | .receivePack, "POST" =>
        let body ← check (readBody r)
        pure (gitAnswer Service.receivePack.resultType (← receivePack repo body))
      | _, _ => pure (Response.text 405 "method not allowed")

/-- Answers a request by its path and method. -/
def dispatch (r : Request) : StateM Storage Response :=
  if r.path == "/api/repo" then
    if r.method == "POST" then createRepo r else pure (Response.bare 405)
  else if r.path == "/api/repos" then
    if r.method == "GET" || r.method == "HEAD" then listRepos else pure (Response.bare 405)
  else match deletionName r.path with
    | some encoded => if r.method == "DELETE" then deleteRepo encoded else pure (Response.bare 405)
    | none => smartHttp r

/-- Answers a request; a `HEAD` request gets no body. -/
def handle (r : Request) : StateM Storage Response := do
  let resp ← dispatch r
  pure (if r.method == "HEAD" then { resp with body := [] } else resp)

end GitServer.Http
