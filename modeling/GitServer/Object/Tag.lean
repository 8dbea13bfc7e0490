import GitServer.CodecError
import GitServer.Object.Kind
import GitServer.Text.Utf8

/-!
# Annotated tags

A tag body starts with headers naming the tagged object, its kind and the tag's name. Only
those three are read; the body is kept as it came, since a tag is stored and sent back byte
for byte.
-/

namespace GitServer

/-- An annotated tag. -/
structure Tag where
  object : ObjectId
  kind : ObjectKind
  name : String
  /-- The body exactly as read. -/
  raw : Bytes
deriving DecidableEq

namespace Tag

/-- The bytes of a tag: the body it was read from. -/
def encode (t : Tag) : Bytes := t.raw

/-- A one-line summary. -/
def render (t : Tag) : String := "tag " ++ t.name ++ " -> " ++ t.kind.name ++ " " ++ t.object.toHex

/-- The headers read so far. -/
structure Headers where
  object : Option ObjectId := none
  kind : Option ObjectKind := none
  name : Option String := none

/-- Takes one header line into account; every header value must be UTF-8. -/
def readHeader (h : Headers) (line : Bytes) : Except CodecError Headers := do
  let some (key, raw) := Bytes.splitFirst? line 32 | return h
  let some value := Utf8.decode? raw | throw (.invalidTag "non-utf8 header")
  if key == Bytes.ofString "object" then
    match ObjectId.parse value with
    | .ok id => return { h with object := some id }
    | .error e => throw (.invalidHash e.message)
  if key == Bytes.ofString "type" then
    match ObjectKind.ofName? value with
    | some k => return { h with kind := some k }
    | none => throw (.invalidObjectType value)
  if key == Bytes.ofString "tag" then
    return { h with name := some value }
  return h

/-- Reads a tag body. -/
def parse (data : Bytes) : Except CodecError Tag := do
  let headers := match Bytes.findInfix? data [10, 10] with
    | some pos => data.take pos
    | none => data
  let h ← (Bytes.lines headers).foldlM readHeader {}
  let some object := h.object | throw (.invalidTag "missing object")
  let some kind := h.kind | throw (.invalidTag "missing type")
  let some name := h.name | throw (.invalidTag "missing tag name")
  pure ⟨object, kind, name, data⟩

end Tag

end GitServer
