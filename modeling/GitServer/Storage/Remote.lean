import GitServer.Storage.BlobStore
import GitServer.Storage.Reference
import GitServer.Storage.Metadata
import GitServer.Storage.Seed
import GitServer.Text.Utf8

/-!
# Repositories in a blob store

Every repository lives under the keys `repositories/<name>/`: its `HEAD`, `config` and
`shallow` records, its references under `refs/`, and its objects under
`objects/<two digits>/<thirty-eight digits>`, each object carrying its kind in the
`git-type` metadata entry. An object stored without that entry takes the kind the reader
expects, and a plain read expects a blob.

A repository exists once its `HEAD` key does. Creation writes `HEAD` last, so a creation
that fails half way leaves keys behind but no repository. Listing walks the key space by
common prefixes: a prefix ending in `.git/` that holds a `HEAD` is a repository, any other
prefix is searched further.

Operations run in `RemoteM`: they read and change the store, and a failure keeps the
changes made before it.
-/

namespace GitServer

/-- Operations on a blob store that may fail; changes made before a failure stay. -/
abbrev RemoteM := ExceptT StorageError (StateM BlobStore)

namespace Remote

/-- The key prefix all repositories live under. -/
def rootPrefix : String := "repositories/"

/-- The metadata entry that records an object's kind. -/
def typeKey : String := "git-type"

/-- The prefix of a repository's keys. -/
def repoPrefix (name : RepoName) : String := rootPrefix ++ name.path ++ "/"

/-- The key of a record of a repository. -/
def key (name : RepoName) (relative : String) : String := repoPrefix name ++ relative

/-- The key of a loose object. -/
def objectKey (name : RepoName) (id : ObjectId) : String :=
  key name ("objects/" ++ id.fanout.1 ++ "/" ++ id.fanout.2)

/-- Whether a key is present. -/
def has (k : String) : RemoteM Bool := do pure ((← get).contains k)

/-- The blob under a key. -/
def fetch (k : String) : RemoteM (Option StoredBlob) := do pure ((← get).get k)

/-- Stores a blob. -/
def store (k : String) (data : Bytes) (metadata : List (String × String)) : RemoteM Unit :=
  modify (·.put k data metadata)

/-- Removes a key. -/
def remove (k : String) : RemoteM Unit := modify (·.delete k)

/-- Fails with a storage error. -/
def fail {α} (e : StorageError) : RemoteM α := throw e

/-- Runs a check that may fail. -/
def check {α} : Except StorageError α → RemoteM α
  | .ok a => pure a
  | .error e => throw e

/-- The key of a reference, once its name is checked. -/
def refKey (name : RepoName) (ref : String) : RemoteM String := do
  check (validateRefName ref)
  pure (key name ref)

/-! ## Objects -/

/-- Stores an object under the id of its kind and content; an object already there is kept. -/
def putObject (name : RepoName) (kind : ObjectKind) (data : Bytes) : RemoteM ObjectId := do
  let id := ObjectId.ofObject kind data
  let k := objectKey name id
  if ← has k then return id
  store k data [(typeKey, kind.name)]
  pure id

/-- The kind a blob records for its object; `fallback` when it records none. -/
def blobKind (b : StoredBlob) (fallback : ObjectKind) : Except StorageError ObjectKind :=
  match b.metadata.find? (·.1 == typeKey) with
  | some (_, k) => match ObjectKind.ofName? k with
    | some kind => .ok kind
    | none => .error (.backend ("The `" ++ k ++ "` is not a valid git object type."))
  | none => .ok fallback

/-- Reads an object; one stored without a recorded kind is of kind `fallback`. -/
def getObjectAs (name : RepoName) (id : ObjectId) (fallback : ObjectKind) :
    RemoteM GitObject := do
  let some b ← fetch (objectKey name id) | fail (.notFound ("object " ++ id.toHex))
  let kind ← check (blobKind b fallback)
  pure ⟨kind, b.data, id⟩

/-- Reads an object, taking an object without a recorded kind as a blob. -/
def getObject (name : RepoName) (id : ObjectId) : RemoteM GitObject :=
  getObjectAs name id .blob

/-- Whether an object is stored. -/
def hasObject (name : RepoName) (id : ObjectId) : RemoteM Bool := has (objectKey name id)

/-- Removes an object, which must be there. -/
def deleteObject (name : RepoName) (id : ObjectId) : RemoteM Unit := do
  let k := objectKey name id
  if !(← has k) then fail (.notFound ("object " ++ id.toHex))
  remove k

/-- Every stored object, in key order, optionally of one kind only. Keys whose digits do not
form an id are passed over; objects without a recorded kind count as of the kind asked for,
or as blobs. -/
def iterateObjects (name : RepoName) (filter : Option ObjectKind) : RemoteM (List GitObject) := do
  let pfx := key name "objects/"
  let mut found := []
  for k in (← get).listAll pfx do
    let hex := String.ofList ((k.toList.drop pfx.length).filter (· != '/'))
    if let .ok id := ObjectId.parse hex then
      let o ← getObjectAs name id (filter.getD .blob)
      if filter.all (· == o.kind) then found := found ++ [o]
  pure found

/-! ## References -/

/-- Reads the target stored under a key, if any. -/
def readTarget (k : String) : RemoteM (Option RefTarget) := do
  match ← fetch k with
  | some b => pure (some (← check (RefTarget.decode (Utf8.decodeLossy b.data))))
  | none => pure none

/-- Reads a reference. -/
def getReference (name : RepoName) (ref : String) : RemoteM Reference := do
  let k ← refKey name ref
  let some t ← readTarget k | fail (.notFound ("reference " ++ ref))
  pure ⟨ref, t⟩

/-- Writes a reference. -/
def setReference (name : RepoName) (r : Reference) : RemoteM Unit := do
  let k ← refKey name r.name
  store k (Bytes.ofString r.target.encode) []

/-- Removes a reference, which must be there. -/
def deleteReference (name : RepoName) (ref : String) : RemoteM Unit := do
  let k ← refKey name ref
  if !(← has k) then fail (.notFound ("reference " ++ ref))
  remove k

/-- `HEAD` first when present, then every reference under `refs/` by name. -/
def iterateReferences (name : RepoName) : RemoteM (List Reference) := do
  let pfx := repoPrefix name
  let mut refs := []
  for k in (← get).listAll (key name "refs/") do
    if let some t ← readTarget k then
      refs := refs ++ [⟨String.ofList (k.toList.drop pfx.length), t⟩]
  let sorted := refs.mergeSort (fun a b => decide (a.name ≤ b.name))
  match ← readTarget (key name headName) with
  | some t => pure (⟨headName, t⟩ :: sorted)
  | none => pure sorted

/-! ## Metadata -/

/-- The configuration, or the default one when none is stored. -/
def config (name : RepoName) : RemoteM RepoConfig := do
  match ← fetch (key name "config") with
  | some b => pure ⟨Utf8.decodeLossy b.data⟩
  | none => pure RepoConfig.default

/-- Writes the configuration. -/
def setConfig (name : RepoName) (c : RepoConfig) : RemoteM Unit :=
  store (key name "config") (Bytes.ofString c.text) []

/-- The shallow commits, none when no list is stored. -/
def shallow (name : RepoName) : RemoteM (List ObjectId) := do
  match ← fetch (key name "shallow") with
  | some b => check (decodeShallow (Utf8.decodeLossy b.data))
  | none => pure []

/-- Writes the shallow commits; an empty list removes the record. -/
def setShallow (name : RepoName) (ids : List ObjectId) : RemoteM Unit :=
  if ids.isEmpty then remove (key name "shallow")
  else store (key name "shallow") (Bytes.ofString (encodeShallow ids)) []

/-! ## Repositories -/

/-- Whether a repository exists: its `HEAD` is stored. -/
def exists? (name : RepoName) : RemoteM Bool := has (key name headName)

/-- Writes the initial objects, the default branch when there is a first commit, and `HEAD`
last. -/
def seedContent (name : RepoName) (o : InitOptions) (now : Int) : RemoteM Unit := do
  let (objects, commit) := initialContent name o now
  for x in objects do
    let _ ← putObject name x.kind x.data
  if let some c := commit then
    setReference name ⟨o.branchRef, .direct c⟩
  setReference name ⟨headName, .symbolic o.branchRef⟩

/-- Creates a repository: configuration, an empty object marker, then the seeded content. -/
def create (name : RepoName) (o : InitOptions) (now : Int) : RemoteM Unit := do
  if ← exists? name then fail (.alreadyExists name.path)
  setConfig name RepoConfig.default
  store (key name "objects/.keep") [] []
  seedContent name o now

/-- Deletes a repository: `HEAD` first, so it stops existing at once, then every key. -/
def delete (name : RepoName) : RemoteM Unit := do
  if !(← exists? name) then fail (.notFound ("repository " ++ name.path))
  remove (key name headName)
  let s ← get
  match s.deleteAll (s.listAll (repoPrefix name)) with
  | .ok s' => set s'
  | .error e => fail e

/-- The common prefixes under a prefix, page after page, for at most `fuel` pages. -/
def groupsUnder (s : BlobStore) (pfx : String) : Nat → Option String → List String
  | 0, _ => []
  | fuel + 1, continuation =>
    let page := s.listPage pfx (some "/") continuation
    match page.next with
    | some t => page.commonPrefixes ++ groupsUnder s pfx fuel (some t)
    | none => page.commonPrefixes

/-- Removes every leading copy of a prefix. -/
def stripPrefixes (pfx : String) (s : String) : String :=
  String.ofList (go s.toList s.length)
where
  go (cs : List Char) : Nat → List Char
    | 0 => cs
    | fuel + 1 =>
      if !pfx.isEmpty && pfx.toList.isPrefixOf cs then go (cs.drop pfx.length) fuel else cs

/-- Walks the prefixes on the stack, latest first, collecting repositories. -/
def walk (s : BlobStore) : Nat → List String → List RepoName → Except StorageError (List RepoName)
  | 0, _, found => .ok found
  | _, [], found => .ok found
  | fuel + 1, p :: stack, found => do
    let mut stack := stack
    let mut found := found
    for g in groupsUnder s p (s.entries.length + 1) none do
      if g.endsWith ".git/" && s.contains (g ++ headName) then
        found := found ++ [← RepoName.normalize (stripPrefixes rootPrefix g)]
      else stack := g :: stack
    walk s fuel stack found

/-- Every repository, by name. -/
def list : RemoteM (List RepoName) := do
  let s ← get
  let fuel := s.entries.foldl (fun n e => n + e.1.length) 0 + 1
  let found ← check (walk s fuel [rootPrefix] [])
  pure (found.mergeSort fun a b => decide (a.path ≤ b.path))

end Remote

end GitServer
