import GitServer.Bytes
import GitServer.Text.Utf8
import GitServer.Text.Hex

/-!
# Requests and responses

A request is a method, a target split into its path and query, headers and a body; a
response is a status, the two headers a client of this server looks at (the content type and
the cache policy) and a body.

Header names are compared without regard to ASCII case, and a header's value is only read as
text when every byte of it is visible ASCII. Percent escapes are decoded as in URLs: `%` and
two hexadecimal digits stand for a byte, any other `%` for itself; a query string also reads
`+` as a space and decodes its text leniently.
-/

namespace GitServer.Http

/-- A request: method, path, query (absent without a `?`), headers in order, body. -/
structure Request where
  method : String
  path : String
  query : Option String
  headers : List (String × String)
  body : Bytes
deriving DecidableEq, Repr

/-- A response: status, content type, cache policy and body. -/
structure Response where
  status : Nat
  contentType : Option String
  cacheControl : Option String
  body : Bytes
deriving DecidableEq, Repr

/-- The content type of plain text answers. -/
def textType : String := "text/plain; charset=utf-8"

/-- A plain text answer. -/
def Response.text (status : Nat) (message : String) : Response :=
  ⟨status, some textType, none, Bytes.ofString message⟩

/-- An answer with a status and nothing else. -/
def Response.bare (status : Nat) : Response := ⟨status, none, none, []⟩

/-- ASCII lower case of a text. -/
def lowerAscii (s : String) : String := s.map Char.toLower

/-- Splits a path and query at the first `?`, after dropping a fragment from the first `#`
on; an empty path is `/`. -/
def splitPathQuery (s : String) : String × Option String :=
  let kept := (s.splitOn "#").headD ""
  let orRoot (p : String) : String := if p.isEmpty then "/" else p
  match kept.splitOn "?" with
  | p :: q :: rest => (orRoot p, some ("?".intercalate (q :: rest)))
  | _ => (orRoot kept, none)

/-- Whether a character may appear in the name of a URI scheme. -/
def isSchemeChar (c : Char) : Bool := (c.isAlphanum && c.toNat < 128) || c == '+' || c == '-' || c == '.'

/-- The length of a target's scheme with its `://`, when it starts with one. -/
def schemePrefix (target : String) : Option Nat :=
  let lower := lowerAscii target
  if lower.startsWith "http://" then some 7
  else if lower.startsWith "https://" then some 8
  else if target.length ≤ 3 then none
  else
    let name := target.toList.takeWhile isSchemeChar
    if ((target.drop name.length).toString).startsWith "://" then some (name.length + 3) else none

/-- The path and query of a request target. The usual form starts with the path, `/a?b`; the
absolute form `http://host/a?b` names a scheme and an authority first, which are dropped, its
path being `/` when it has none; `*` is its own path; any other target has an empty path. -/
def splitTarget (target : String) : String × Option String :=
  if target.startsWith "/" then splitPathQuery target
  else if target == "*" then ("*", none)
  else
    match schemePrefix target with
    | some n =>
      let rest := (target.drop n).toString
      let authority := rest.toList.takeWhile fun c => c != '/' && c != '?' && c != '#'
      splitPathQuery (rest.drop authority.length).toString
    | none => ("", none)

/-- A request to a target. -/
def Request.make (method target : String) (headers : List (String × String)) (body : Bytes) :
    Request :=
  let (path, query) := splitTarget target
  ⟨method, path, query, headers, body⟩

/-- Whether a header value can be read as text: visible ASCII and tabs only. -/
def isVisible (s : String) : Bool :=
  s.toList.all fun c => (32 ≤ c.toNat && c.toNat < 127) || c == '\t'

/-- The value of the first header of a name, as text when it reads as text. -/
def Request.header (r : Request) (name : String) : Option String :=
  match r.headers.find? (fun h => lowerAscii h.1 == lowerAscii name) with
  | some (_, v) => if isVisible v then some v else none
  | none => none

/-! ## Media types -/

/-- Whether a character may appear in a token of a media type. -/
def isTokenChar (c : Char) : Bool :=
  c.isAlphanum && c.toNat < 128 || "!#$%&'*+-.^_`|~".toList.contains c

/-- Whether the parameters after a media type's `;` are well formed: `name=value` pairs
separated by `;`, values plain or quoted, blanks allowed before a name and after a quoted
value. A quoted value ends at the first quote that does not directly follow the opening one,
so a quote right after the opening quote belongs to the value. -/
def paramsValid : Nat → List Char → Bool
  | 0, _ => true
  | _, [] => true
  | fuel + 1, ' ' :: rest => paramsValid fuel rest
  | fuel + 1, cs =>
    let name := cs.takeWhile isTokenChar
    match cs.drop name.length with
    | '=' :: afterEq =>
      if name.isEmpty then false
      else match afterEq with
        | '"' :: quoted =>
          let body := match quoted with
            | '"' :: more => more
            | more => more
          let inner := body.takeWhile fun c => c != '"' && c.toNat > 31 && c.toNat != 127
          match body.drop inner.length with
          | '"' :: after =>
            match after.dropWhile (· == ' ') with
            | [] => true
            | ';' :: more => paramsValid fuel more
            | _ => false
          | _ => false
        | _ =>
          let value := afterEq.takeWhile isTokenChar
          match afterEq.drop value.length with
          | [] => true
          | ';' :: more => !value.isEmpty && paramsValid fuel more
          | _ => false
    | _ => false

/-- The type, subtype and suffix of a media type, in lower case, when it is well formed. -/
def mediaType (s : String) : Option (String × String × Option String) :=
  let cs := s.toList
  let top := cs.takeWhile isTokenChar
  match cs.drop top.length with
  | '/' :: rest =>
    if top.isEmpty then none
    else
      let sub := rest.takeWhile isTokenChar
      let paramsOk := match rest.drop sub.length with
        | [] => true
        | ';' :: params => !sub.isEmpty && paramsValid (params.length + 1) params
        | _ => false
      if !paramsOk then none
      else
        let plus := (sub.drop 1).reverse.findIdx? (· == '+') |>.map (sub.length - 1 - ·)
        let lower (xs : List Char) := lowerAscii (String.ofList xs)
        match plus with
        | some k => some (lower top, lower (sub.take k), some (lower (sub.drop (k + 1))))
        | none => some (lower top, lower sub, none)
  | _ => none

/-- Whether a content type announces JSON: `application/json`, or an application type with
the `+json` suffix. -/
def isJsonType (contentType : Option String) : Bool :=
  match contentType.bind mediaType with
  | some (top, sub, suffix) => top == "application" && (sub == "json" || suffix == some "json")
  | none => false

/-! ## Percent escapes and queries -/

/-- Decodes percent escapes; a `%` without two hexadecimal digits after it stands for itself. -/
def percentDecode : Bytes → Bytes
  | [] => []
  | 37 :: h :: l :: rest =>
    match Hex.digitValue? (Char.ofNat h.toNat), Hex.digitValue? (Char.ofNat l.toNat) with
    | some a, some b => UInt8.ofNat (a * 16 + b) :: percentDecode rest
    | _, _ => 37 :: percentDecode (h :: l :: rest)
  | b :: rest => b :: percentDecode rest

/-- Decodes one side of a query pair: `+` is a space, then percent escapes, then the bytes as
text with invalid parts replaced. -/
def decodeQueryPart (s : String) : String :=
  Utf8.decodeLossy (percentDecode ((Bytes.ofString s).map fun b => if b == 43 then 32 else b))

/-- The name and value pairs of a query, in order; empty pieces are skipped and a piece
without `=` has an empty value. -/
def queryPairs (query : String) : List (String × String) :=
  (query.splitOn "&").filterMap fun piece =>
    if piece.isEmpty then none
    else match piece.splitOn "=" with
      | [] => none
      | name :: rest => some (decodeQueryPart name, decodeQueryPart ("=".intercalate rest))

/-- The `service` parameter of a query: absent, present once, or refused when given twice. -/
def serviceParameter (query : Option String) : Except String (Option String) :=
  match (queryPairs (query.getD "")).filter (·.1 == "service") with
  | [] => .ok none
  | [(_, v)] => .ok (some v)
  | _ => .error "duplicate field `service`"

end GitServer.Http
