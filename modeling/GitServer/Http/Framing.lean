import GitServer.Http.Message

/-!
# HTTP/1.1 framing

A connection carries requests one after another. A request is a head, lines ending in CRLF
(a bare LF is accepted) up to an empty line, and then a body: as long as its
`Content-Length` says, or, with `Transfer-Encoding: chunked`, a series of chunks each led by
its size in hexadecimal and closed by a chunk of size zero and optional trailer lines.

A response is written with its status line, its content type and cache policy when it has
them, and the length of its body. The answer to a `HEAD` request is the answer to `GET`
without its body, so the length it announces is that of the body it does not send.

The connection stays open after a response unless the client asked to close it, which
HTTP/1.0 clients do unless they ask to keep it.
-/

namespace GitServer.Http

/-- A line of the head without its line end. -/
def headLine (raw : String) : String :=
  let s := if raw.endsWith "\n" then (raw.dropEnd 1).toString else raw
  if s.endsWith "\r" then (s.dropEnd 1).toString else s

/-- Removes spaces and tabs from both ends. -/
def trimBlanks (s : String) : String :=
  let blank (c : Char) := c == ' ' || c == '\t'
  String.ofList ((s.toList.dropWhile blank).reverse.dropWhile blank).reverse

/-- The start of a request: method, target and whether the client speaks HTTP/1.1. -/
structure RequestLine where
  method : String
  target : String
  modern : Bool
deriving DecidableEq, Repr

/-- Reads a request line: method, target and version separated by single spaces. -/
def parseRequestLine (line : String) : Except String RequestLine :=
  match line.splitOn " " with
  | [method, target, version] =>
    if method.isEmpty || target.isEmpty then .error "malformed request line"
    else if version == "HTTP/1.1" then .ok ⟨method, target, true⟩
    else if version == "HTTP/1.0" then .ok ⟨method, target, false⟩
    else .error "unsupported HTTP version"
  | _ => .error "malformed request line"

/-- Reads a header line: a name without blanks, a colon, and the value with the blanks
around it removed. -/
def parseHeaderLine (line : String) : Except String (String × String) :=
  match line.splitOn ":" with
  | name :: rest@(_ :: _) =>
    if name.isEmpty || name.any (fun c => c == ' ' || c == '\t') then .error "malformed header"
    else .ok (name, trimBlanks (":".intercalate rest))
  | _ => .error "malformed header"

/-- How the body of a request is delimited. -/
inductive BodyFraming where
  | empty
  | length (n : Nat)
  | chunked
deriving DecidableEq, Repr

/-- The value of the first header of a name, in any case. -/
def headerValue (headers : List (String × String)) (name : String) : Option String :=
  (headers.find? (fun h => lowerAscii h.1 == name)).map (·.2)

/-- How a request with these headers delimits its body. -/
def bodyFraming (headers : List (String × String)) : Except String BodyFraming :=
  match headerValue headers "transfer-encoding" with
  | some te =>
    if lowerAscii (trimBlanks te) == "chunked" then .ok .chunked
    else .error "unsupported transfer encoding"
  | none =>
    match headerValue headers "content-length" with
    | some v =>
      let v := trimBlanks v
      if !v.isEmpty && v.all Char.isDigit then .ok (.length v.toNat!)
      else .error "invalid content length"
    | none => .ok .empty

/-- The size that leads a chunk: hexadecimal digits, then optional extensions after `;`. -/
def chunkSize (line : String) : Except String Nat :=
  let digits := trimBlanks ((line.splitOn ";").headD "")
  if digits.isEmpty then .error "invalid chunk size"
  else digits.toList.foldlM (fun acc c =>
    match Hex.digitValue? c with
    | some d => .ok (acc * 16 + d)
    | none => .error "invalid chunk size") 0

/-- Whether the connection stays open after the response. -/
def keepsAlive (line : RequestLine) (headers : List (String × String)) : Bool :=
  let tokens := match headerValue headers "connection" with
    | some v => (v.splitOn ",").map (lowerAscii ∘ trimBlanks)
    | none => []
  if line.modern then !tokens.contains "close" else tokens.contains "keep-alive"

/-- The reason phrase of a status. -/
def reasonPhrase : Nat → String
  | 200 => "OK"
  | 201 => "Created"
  | 204 => "No Content"
  | 400 => "Bad Request"
  | 404 => "Not Found"
  | 405 => "Method Not Allowed"
  | 409 => "Conflict"
  | 500 => "Internal Server Error"
  | 501 => "Not Implemented"
  | _ => "Unknown"

/-- The head of a response, with the length of its body. -/
def Response.head (r : Response) (bodyLength : Nat) (keep : Bool) : String :=
  let line (name value : String) := name ++ ": " ++ value ++ "\r\n"
  "HTTP/1.1 " ++ toString r.status ++ " " ++ reasonPhrase r.status ++ "\r\n" ++
    (match r.contentType with
      | some t => line "content-type" t
      | none => "") ++
    (match r.cacheControl with
      | some c => line "cache-control" c
      | none => "") ++
    (if r.status == 204 then "" else line "content-length" (toString bodyLength)) ++
    (if keep then "" else line "connection" "close") ++ "\r\n"

/-- A response as written on the connection; the answer to a `HEAD` request announces the
length of its body but does not send it. -/
def Response.encode (r : Response) (isHead keep : Bool) : Bytes :=
  Bytes.ofString (r.head r.body.length keep) ++ (if isHead then [] else r.body)

/-- The answer to a request that cannot be read. -/
def malformed (why : String) : Response := Response.text 400 (why ++ "\n")

end GitServer.Http
