import GitServer.Storage.Remote
import GitServer.Storage.Local

/-!
# Storage

Repositories live on one of two media: a blob store (`Remote`) or a directory tree (`Local`).
`Storage` holds the medium together with what creation needs: how new repositories start
and the clock their first commit is signed with. Every operation is offered for both media
under one name; the shared ones are built from the others:

* `resolve` follows symbolic references from a name to an id, at most six lookups deep;
* `compareAndSwap` and `compareAndDelete` change a reference only when its current target is
  the expected one, and report both targets otherwise.
-/

namespace GitServer

/-- Where repositories are kept. -/
inductive Medium where
  | remote (store : BlobStore)
  | disk (d : Disk)

/-- A storage backend: its medium, how new repositories start, and the time of day. -/
structure Storage where
  medium : Medium
  init : InitOptions
  now : Int

/-- Storage operations that may fail; changes made before a failure stay. -/
abbrev StoreM := ExceptT StorageError (StateM Storage)

namespace Storage

/-- The name of the medium. -/
def kind (s : Storage) : String :=
  match s.medium with
  | .remote _ => "remote"
  | .disk _ => "local"

/-- Runs the operation for the medium at hand. -/
def onMedium {α} (r : RemoteM α) (l : DiskM α) : StoreM α :=
  ExceptT.mk fun s =>
    match s.medium with
    | .remote b =>
      let (x, b') := (r.run).run b
      (x, { s with medium := .remote b' })
    | .disk d =>
      let (x, d') := (l.run).run d
      (x, { s with medium := .disk d' })

/-- Runs a check that may fail. -/
def check {α} : Except StorageError α → StoreM α
  | .ok a => pure a
  | .error e => throw e

/-! ## Repositories -/

/-- Whether a repository exists. -/
def exists? (name : RepoName) : StoreM Bool := onMedium (Remote.exists? name) (Local.exists? name)

/-- Creates a repository with its first content. -/
def create (name : RepoName) : StoreM Unit := do
  let s ← get
  onMedium (Remote.create name s.init s.now) (Local.create name s.init s.now)

/-- Deletes a repository. -/
def delete (name : RepoName) : StoreM Unit := onMedium (Remote.delete name) (Local.delete name)

/-- Every repository, by name. -/
def list : StoreM (List RepoName) := onMedium Remote.list Local.list

/-- Checks that a repository exists before working in it. -/
def openRepo (name : RepoName) : StoreM RepoName := do
  if !(← exists? name) then throw (.notFound ("repository " ++ name.path))
  pure name

/-! ## Objects -/

/-- Stores an object; the answer is its id. -/
def putObject (n : RepoName) (kind : ObjectKind) (data : Bytes) : StoreM ObjectId :=
  onMedium (Remote.putObject n kind data) ((Local.Handle.of n).putObject kind data)

/-- Reads an object. -/
def getObject (n : RepoName) (id : ObjectId) : StoreM GitObject :=
  onMedium (Remote.getObject n id) ((Local.Handle.of n).getObject id)

/-- Reads an object the caller expects to be of a kind: a stored object without a recorded
kind is taken to be of it. -/
def getObjectAs (n : RepoName) (id : ObjectId) (expected : ObjectKind) : StoreM GitObject :=
  onMedium (Remote.getObjectAs n id expected) ((Local.Handle.of n).getObject id)

/-- Whether an object is stored. -/
def hasObject (n : RepoName) (id : ObjectId) : StoreM Bool :=
  onMedium (Remote.hasObject n id) ((Local.Handle.of n).hasObject id)

/-- The size of an object's content. -/
def objectSize (n : RepoName) (id : ObjectId) : StoreM Nat := do
  pure (← getObject n id).size

/-- Removes an object. -/
def deleteObject (n : RepoName) (id : ObjectId) : StoreM Unit :=
  onMedium (Remote.deleteObject n id) ((Local.Handle.of n).deleteObject id)

/-- Every object, by id, optionally of one kind only. -/
def iterateObjects (n : RepoName) (filter : Option ObjectKind) : StoreM (List GitObject) :=
  onMedium (Remote.iterateObjects n filter) ((Local.Handle.of n).iterateObjects filter)

/-! ## References -/

/-- Reads a reference. -/
def getReference (n : RepoName) (ref : String) : StoreM Reference :=
  onMedium (Remote.getReference n ref) ((Local.Handle.of n).getReference ref)

/-- Writes a reference. -/
def setReference (n : RepoName) (r : Reference) : StoreM Unit :=
  onMedium (Remote.setReference n r) ((Local.Handle.of n).setReference r)

/-- Removes a reference. -/
def deleteReference (n : RepoName) (ref : String) : StoreM Unit :=
  onMedium (Remote.deleteReference n ref) ((Local.Handle.of n).deleteReference ref)

/-- `HEAD` first when present, then every reference by name. -/
def iterateReferences (n : RepoName) : StoreM (List Reference) :=
  onMedium (Remote.iterateReferences n) ((Local.Handle.of n).iterateReferences)

/-- The target of a reference, none when it does not exist. -/
def currentTarget (n : RepoName) (ref : String) : StoreM (Option RefTarget) :=
  tryCatch (do pure (some (← getReference n ref).target)) fun e =>
    if e.isNotFound then pure none else throw e

/-- How a conflict names a target. -/
def describe : Option RefTarget → String
  | some t => t.render
  | none => "<absent>"

/-- Writes a reference when its current target is the expected one (`none`: absent). -/
def compareAndSwap (n : RepoName) (r : Reference) (expected : Option RefTarget) :
    StoreM Unit := do
  let current ← currentTarget n r.name
  if current ≠ expected then
    throw (.referenceConflict r.name (describe expected) (describe current))
  setReference n r

/-- Removes a reference when its current target is the expected one. -/
def compareAndDelete (n : RepoName) (ref : String) (expected : RefTarget) : StoreM Unit := do
  let current ← currentTarget n ref
  if current ≠ some expected then
    throw (.referenceConflict ref (describe (some expected)) (describe current))
  deleteReference n ref

/-- The most lookups `resolve` makes. -/
def resolveLimit : Nat := 6

/-- Follows symbolic references from a name to an id, for at most `fuel` lookups. -/
def follow (n : RepoName) (origin : String) : Nat → String → StoreM (Option ObjectId)
  | 0, _ => throw (.invalidRequest ("symbolic reference chain from " ++ origin ++ " is too deep"))
  | fuel + 1, current => do
    match ← currentTarget n current with
    | none => pure none
    | some (.direct id) => pure (some id)
    | some (.symbolic next) => follow n origin fuel next

/-- The id a reference finally names, none when the chain ends at a missing reference. -/
def resolve (n : RepoName) (ref : String) : StoreM (Option ObjectId) :=
  follow n ref resolveLimit ref

/-! ## Metadata -/

/-- The configuration. -/
def config (n : RepoName) : StoreM RepoConfig :=
  onMedium (Remote.config n) ((Local.Handle.of n).config)

/-- Writes the configuration. -/
def setConfig (n : RepoName) (c : RepoConfig) : StoreM Unit :=
  onMedium (Remote.setConfig n c) ((Local.Handle.of n).setConfig c)

/-- The shallow commits. -/
def shallow (n : RepoName) : StoreM (List ObjectId) :=
  onMedium (Remote.shallow n) ((Local.Handle.of n).shallow)

/-- Writes the shallow commits. -/
def setShallow (n : RepoName) (ids : List ObjectId) : StoreM Unit :=
  onMedium (Remote.setShallow n ids) ((Local.Handle.of n).setShallow ids)

/-- Submodules are not kept. -/
def submodule (_n : RepoName) (_name : String) : StoreM Unit :=
  throw (.unsupported "submodule storage")

/-- Alternate object stores are not offered. -/
def addAlternate (_n : RepoName) (_path : String) : StoreM Unit :=
  throw (.unsupported "alternate object stores")

/-! ## Names -/

/-- Normalises a repository name. -/
def normalize (raw : String) : StoreM RepoName := check (RepoName.normalize raw)

/-- Opens a repository by any spelling of its name. -/
def openNamed (raw : String) : StoreM RepoName := do openRepo (← normalize raw)

/-- Creates a repository by any spelling of its name; the answer is the normal name. -/
def createNamed (raw : String) : StoreM RepoName := do
  let n ← normalize raw
  create n
  pure n

/-- Opens a repository, creating it first when it is absent; losing a race to create it is
no error. -/
def openOrCreate (raw : String) : StoreM RepoName := do
  let n ← normalize raw
  if !(← exists? n) then
    tryCatch (create n) fun e =>
      match e with
      | .alreadyExists _ => pure ()
      | _ => throw e
  openRepo n

end Storage

end GitServer
