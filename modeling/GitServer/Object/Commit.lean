import GitServer.Object.Signature
import GitServer.Object.Kind

/-!
# Commits

A commit body is a block of header lines, an empty line and the message. The headers name
the tree, the parents in order, the author and the committer; other headers and
continuation lines (which start with a blank) are skipped when reading and not written back.
When a header repeats, the last one counts, except `parent`, which collects.
-/

namespace GitServer

/-- A commit. -/
structure Commit where
  tree : ObjectId
  parents : List ObjectId
  author : Signature
  committer : Signature
  message : String
deriving DecidableEq

namespace Commit

/-- The bytes of a commit. -/
def encode (c : Commit) : Bytes :=
  Bytes.ofString ("tree " ++ c.tree.toHex ++ "\n" ++
    String.join (c.parents.map fun p => "parent " ++ p.toHex ++ "\n") ++
    c.author.render ++ "\n" ++ c.committer.render ++ "\n\n" ++ c.message)

/-- The id of a commit. -/
def id (c : Commit) : ObjectId := ObjectId.ofObject .commit c.encode

/-- A summary of a commit, one line per header and the message last. -/
def render (c : Commit) : String :=
  "tree: " ++ c.tree.toHex ++ "\n" ++
    String.join (c.parents.map fun p => "parent: " ++ p.toHex ++ "\n") ++
    c.author.render ++ "\n" ++ c.committer.render ++ "\n" ++ c.message ++ "\n"

/-- Reads the id of a `tree` or `parent` header. -/
def parseIdField (value : Bytes) (field : String) : Except CodecError ObjectId := do
  let some text := Utf8.decode? value | throw (.invalidCommit ("non-utf8 " ++ field ++ " id"))
  match ObjectId.parse (Blank.trim text) with
  | .ok id => pure id
  | .error _ => throw (.invalidHash text)

/-- The headers read so far. -/
structure Headers where
  tree : Option ObjectId := none
  parents : List ObjectId := []
  author : Option Signature := none
  committer : Option Signature := none

/-- Takes one header line into account. -/
def readHeader (h : Headers) (line : Bytes) : Except CodecError Headers := do
  if line.head? == some 32 then return h
  let (key, value) := (Bytes.splitFirst? line 32).getD (line, [])
  if key == Bytes.ofString "tree" then
    return { h with tree := some (← parseIdField value "tree") }
  if key == Bytes.ofString "parent" then
    return { h with parents := h.parents ++ [← parseIdField value "parent"] }
  if key == Bytes.ofString "author" then
    return { h with author := some (← Signature.parse line) }
  if key == Bytes.ofString "committer" then
    return { h with committer := some (← Signature.parse line) }
  return h

/-- Reads a commit body. -/
def parse (data : Bytes) : Except CodecError Commit := do
  let (headers, message) := match Bytes.findInfix? data [10, 10] with
    | some pos => (data.take pos, data.drop (pos + 2))
    | none => (data, [])
  let h ← (Bytes.lines headers).foldlM readHeader {}
  let some tree := h.tree | throw (.invalidCommit "missing tree")
  let some author := h.author | throw (.invalidCommit "missing author")
  let some committer := h.committer | throw (.invalidCommit "missing committer")
  pure ⟨tree, h.parents, author, committer, Utf8.decodeLossy message⟩

end Commit

end GitServer
