import GitServer.Storage.Backend
import GitServer.Wire.Error
import GitServer.Object.Tree
import GitServer.Object.Commit
import GitServer.Object.Tag

/-!
# The engine's view of a repository

The protocol engine reads and writes one repository through a handful of operations: its
references with `HEAD` first, reference resolution, object reads and writes, and an atomic
reference update. Storage errors reach the engine as `ProtocolError.storage`.

Reading a commit, tree or tag checks the kind first: an object of another kind is an
invalid request, and content that does not parse is a pack error naming the object.

A reference update moves a name from an old id to a new one, either of which may be absent;
removing a reference without saying what it held is refused.
-/

namespace GitServer

/-- Engine operations over storage; changes made before a failure stay. -/
abbrev EngineM := ExceptT ProtocolError (StateM Storage)

namespace Engine

/-- Runs a storage operation in the engine. -/
def store {α} (m : StoreM α) : EngineM α := ExceptT.adapt ProtocolError.storage m

/-- Fails with a protocol error. -/
def fail {α} (e : ProtocolError) : EngineM α := throw e

/-- Runs a check that may fail. -/
def check {α} : Except ProtocolError α → EngineM α
  | .ok a => pure a
  | .error e => throw e

/-- The references of a repository, `HEAD` first when present, then by name. -/
def refs (n : RepoName) : EngineM (List Reference) := store (Storage.iterateReferences n)

/-- The id a reference finally names. -/
def resolve (n : RepoName) (ref : String) : EngineM (Option ObjectId) := store (Storage.resolve n ref)

/-- Whether an object is stored. -/
def hasObject (n : RepoName) (id : ObjectId) : EngineM Bool := store (Storage.hasObject n id)

/-- Reads an object. -/
def getObject (n : RepoName) (id : ObjectId) : EngineM GitObject := store (Storage.getObject n id)

/-- Stores an object. -/
def putObject (n : RepoName) (kind : ObjectKind) (data : Bytes) : EngineM ObjectId :=
  store (Storage.putObject n kind data)

/-- Reads an object that must be of the expected kind. -/
def getTyped (n : RepoName) (id : ObjectId) (expected : ObjectKind) : EngineM GitObject := do
  let o ← store (Storage.getObjectAs n id expected)
  if o.kind ≠ expected then
    fail (.invalidRequest ("object " ++ id.toHex ++ " is a " ++ o.kind.name ++ ", expected " ++
      expected.name))
  pure o

/-- Parses content read for an object, reporting a failure as a pack error. -/
def parsed {α} (what : String) (id : ObjectId) : Except CodecError α → EngineM α
  | .ok a => pure a
  | .error e => fail (.pack ("failed to parse " ++ what ++ " " ++ id.toHex ++ ": " ++ e.message))

/-- Reads a commit. -/
def getCommit (n : RepoName) (id : ObjectId) : EngineM Commit := do
  parsed "commit" id (Commit.parse (← getTyped n id .commit).data)

/-- Reads a tree. -/
def getTree (n : RepoName) (id : ObjectId) : EngineM Tree := do
  parsed "tree" id (Tree.parse (← getTyped n id .tree).data)

/-- Reads an annotated tag. -/
def getTag (n : RepoName) (id : ObjectId) : EngineM Tag := do
  parsed "tag" id (Tag.parse (← getTyped n id .tag).data)

/-- Moves a reference from `old` to `new`, where `none` is absent, failing on a conflict. -/
def updateReference (n : RepoName) (ref : String) (old new : Option ObjectId) : EngineM Unit := do
  let expected := old.map RefTarget.direct
  match new, expected with
  | some id, _ => store (Storage.compareAndSwap n ⟨ref, .direct id⟩ expected)
  | none, some e => store (Storage.compareAndDelete n ref e)
  | none, none => fail (.storage (.invalidRequest ("delete of " ++ ref ++ " without an old value")))

end Engine

end GitServer
