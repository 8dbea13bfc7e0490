import GitServer.Storage.FileTree
import GitServer.Storage.ObjectCache
import GitServer.Storage.Reference
import GitServer.Storage.Metadata
import GitServer.Storage.Seed
import GitServer.Deflate.Zlib
import GitServer.Text.Numeral
import GitServer.Text.Utf8

/-!
# Repositories in a directory tree

Each repository is a bare Git directory below the storage root: `HEAD`, `config` and
`shallow` files, reference files under `refs/`, an optional `packed-refs` file, and loose
objects, each a zlib stream of header and content at `objects/<two digits>/<the rest>`.

Decoded objects go through a cache shared by all repositories. A repository is built in a
hidden sibling directory and moved into place once complete, and deleted by moving it aside
first; both moves make the change all at once. Deleting a repository removes the directories
above it that it leaves empty, and deleting a reference does the same below `refs/<kind>/`.

`packed-refs` is read but never written: a loose reference file shadows a packed entry of the
same name, and a reference that only exists packed cannot be deleted.

Operations run in `DiskM`, over the file tree and the cache; a failure keeps the changes made
before it. Errors of the file system become `StorageError.io` with the system's message.
-/

namespace GitServer

/-- What local storage holds: the files below the root and the object cache. -/
structure Disk where
  files : FileTree
  cache : ObjectCache

/-- Operations on local storage that may fail; changes made before a failure stay. -/
abbrev DiskM := ExceptT StorageError (StateM Disk)

namespace Local

/-- The directories every repository starts with. -/
def layout : List FsPath := [["objects", "info"], ["objects", "pack"], ["refs", "heads"], ["refs", "tags"]]

/-- The directory of a repository. -/
def repoDir (name : RepoName) : FsPath := name.path.splitOn "/"

/-- A hidden sibling of a directory, for building or discarding it. Its name ends in a
backslash, which no repository name holds, so no repository lies at or below it. -/
def sibling (dir : FsPath) (tag : String) : FsPath :=
  dir.dropLast ++ ["." ++ dir.getLastD "" ++ "." ++ tag ++ "\x5c"]

/-- Runs a file-system step, turning its error into a storage error. -/
def os {α} : Except OsError α → DiskM α
  | .ok a => pure a
  | .error e => throw (.io e.message)

/-- Runs a check that may fail. -/
def check {α} : Except StorageError α → DiskM α
  | .ok a => pure a
  | .error e => throw e

/-- The current files. -/
def files : DiskM FileTree := do pure (← get).files

/-- Changes the files by a step that may fail. -/
def change (f : FileTree → Except OsError FileTree) : DiskM Unit := do
  let t ← os (f (← files))
  modify fun d => { d with files := t }

/-- Changes the files by a step whose failure is ignored. -/
def attempt (f : FileTree → Except OsError FileTree) : DiskM Unit := do
  match f (← files) with
  | .ok t => modify fun d => { d with files := t }
  | .error _ => pure ()

/-- Writes a file in one step, creating the directories above it. -/
def writeAtomic (p : FsPath) (data : Bytes) : DiskM Unit := do
  change (·.createDirAll p.dropLast)
  change (·.write p data)

/-- Where a repository's files are, and the name its cache entries go under. -/
structure Handle where
  name : RepoName
  dir : FsPath

/-- The handle of a repository in its own directory. -/
def Handle.of (name : RepoName) : Handle := ⟨name, repoDir name⟩

namespace Handle

/-- The path of a file of the repository. -/
def file (h : Handle) (relative : FsPath) : FsPath := h.dir ++ relative

/-- The path of a loose object. -/
def objectPath (h : Handle) (id : ObjectId) : FsPath := h.file ["objects", id.fanout.1, id.fanout.2]

/-- The key of an object in the cache. -/
def cacheKey (h : Handle) (id : ObjectId) : String := CacheEntry.keyOf h.name.path id.toHex

/-- The path of a reference, once its name is checked. -/
def refPath (h : Handle) (ref : String) : DiskM FsPath := do
  check (validateRefName ref)
  pure (h.file (ref.splitOn "/"))

/-! ## Objects -/

/-- Stores an object as a loose file; an object already there is kept. -/
def putObject (h : Handle) (kind : ObjectKind) (data : Bytes) : DiskM ObjectId := do
  let id := ObjectId.ofObject kind data
  let p := h.objectPath id
  if ← os ((← files).exists? p) then return id
  writeAtomic p (Zlib.compress (kind.header data.length ++ data))
  pure id

/-- Splits a text at the first occurrence of a character. -/
def splitOnce (s : String) (c : Char) : Option (String × String) :=
  match s.toList.findIdx? (· == c) with
  | some i => some (String.ofList (s.toList.take i), String.ofList (s.toList.drop (i + 1)))
  | none => none

/-- Reads the content of a loose object file: a zlib stream of `<kind> <size>`, a zero byte
and the content, whose length must be the size. -/
def decodeLoose (id : ObjectId) (raw : Bytes) : Except StorageError GitObject := do
  let corrupt := fun (why : String) =>
    StorageError.backend ("corrupt object " ++ id.toHex ++ ": " ++ why)
  let inflated ← match Zlib.decompress raw with
    | .ok d => pure d
    | .error e => throw (corrupt e.message)
  let some nul := Bytes.indexOf? inflated 0 | throw (corrupt "missing header")
  let some header := Utf8.decode? (inflated.take nul) | throw (corrupt "bad header")
  let some (kindName, len) := splitOnce header ' ' | throw (corrupt "bad header")
  let some kind := ObjectKind.ofName? kindName
    | throw (.backend ("The `" ++ kindName ++ "` is not a valid git object type."))
  let some size := Numeral.parseNat? 10 (Nat.pow 2 64) len | throw (corrupt "bad length")
  let data := inflated.drop (nul + 1)
  if data.length ≠ size then throw (corrupt "length mismatch")
  pure ⟨kind, data, id⟩

/-- Reads an object, from the cache when it is there, else from its file, which then goes
into the cache. -/
def getObject (h : Handle) (id : ObjectId) : DiskM GitObject := do
  let d ← get
  let (hit, cache) := d.cache.lookup (h.cacheKey id)
  set { d with cache := cache }
  if let some e := hit then return ⟨e.kind, e.data, id⟩
  let some raw ← os (d.files.readOptional (h.objectPath id))
    | throw (.notFound ("object " ++ id.toHex))
  let o ← check (decodeLoose id raw)
  modify fun d => { d with cache := d.cache.insert ⟨h.name.path, id.toHex, o.kind, o.data⟩ }
  pure o

/-- Whether an object's file exists. -/
def hasObject (h : Handle) (id : ObjectId) : DiskM Bool := do
  os ((← files).exists? (h.objectPath id))

/-- Removes an object's file, which must be there, and its cache entry. -/
def deleteObject (h : Handle) (id : ObjectId) : DiskM Unit := do
  match (← files).removeFile (h.objectPath id) with
  | .ok t => modify fun d => { files := t, cache := d.cache.remove (h.cacheKey id) }
  | .error .notFound => throw (.notFound ("object " ++ id.toHex))
  | .error e => throw (.io e.message)

/-- Every loose object, by id, optionally of one kind only. Only two-character directories
under `objects/` are searched, and names that do not complete an id are passed over. -/
def iterateObjects (h : Handle) (filter : Option ObjectKind) : DiskM (List GitObject) := do
  let fanout ← os ((← files).readDir (h.file ["objects"]))
  let mut found := []
  for pfx in fanout do
    let sub := h.file ["objects", pfx]
    if pfx.utf8ByteSize != 2 || !(← files).isDir sub then continue
    let names ← os ((← files).readDir sub)
    for rest in names do
      if let .ok id := ObjectId.parse (pfx ++ rest) then
        let o ← getObject h id
        if filter.all (· == o.kind) then found := found ++ [o]
  pure (found.mergeSort fun a b => Bytes.compare a.id.bytes b.id.bytes != .gt)

/-! ## References -/

/-- Reads `packed-refs`: `<id> <name>` lines, skipping comments, peeled lines and lines that
do not parse. -/
def parsePackedRefs (content : String) : List Reference :=
  (Text.lines content).filterMap fun l =>
    if l.startsWith "#" || l.startsWith "^" then none
    else match splitOnce (Blank.trim l) ' ' with
      | some (hex, name) => match ObjectId.parse hex with
        | .ok id => some ⟨Blank.trim name, .direct id⟩
        | .error _ => none
      | none => none

/-- The references in `packed-refs`, none when there is no such file. -/
def packedRefs (h : Handle) : DiskM (List Reference) := do
  match ← os ((← files).readOptional (h.file ["packed-refs"])) with
  | some data => pure (parsePackedRefs (Utf8.decodeLossy data))
  | none => pure []

/-- Reads a reference: its file, else its entry in `packed-refs`. -/
def getReference (h : Handle) (ref : String) : DiskM Reference := do
  let p ← h.refPath ref
  match ← os ((← files).readOptional p) with
  | some content => pure ⟨ref, ← check (RefTarget.decode (Utf8.decodeLossy content))⟩
  | none =>
    match (← packedRefs h).find? (·.name == ref) with
    | some r => pure r
    | none => throw (.notFound ("reference " ++ ref))

/-- Writes a reference file. -/
def setReference (h : Handle) (r : Reference) : DiskM Unit := do
  writeAtomic (← h.refPath r.name) (Bytes.ofString r.target.encode)

/-- Removes the directories a deleted reference leaves empty, up to `refs/<kind>/`. -/
def pruneRefDirs (h : Handle) : Nat → FsPath → DiskM Unit
  | 0, _ => pure ()
  | fuel + 1, current => do
    let refsRoot := h.file ["refs"]
    if current.dropLast == refsRoot || !refsRoot.isPrefixOf current then return
    match (← files).removeDir current with
    | .ok t => do
      modify fun d => { d with files := t }
      pruneRefDirs h fuel current.dropLast
    | .error _ => pure ()

/-- Removes a reference file, which must be there; a reference that only exists packed cannot
be removed. -/
def deleteReference (h : Handle) (ref : String) : DiskM Unit := do
  let p ← h.refPath ref
  match (← files).removeFile p with
  | .ok t =>
    modify fun d => { d with files := t }
    pruneRefDirs h p.length p.dropLast
  | .error .notFound =>
    if (← packedRefs h).any (·.name == ref) then throw (.unsupported "deleting packed references")
    else throw (.notFound ("reference " ++ ref))
  | .error e => throw (.io e.message)

/-- Walks the directories on the stack, latest first, reading every reference file. -/
def walkRefs (h : Handle) : Nat → List FsPath → List Reference → DiskM (List Reference)
  | 0, _, refs => pure refs
  | _, [], refs => pure refs
  | fuel + 1, d :: stack, refs => do
    let t ← files
    match t.readDir d with
    | .error .notFound => walkRefs h fuel stack refs
    | .error e => throw (.io e.message)
    | .ok names =>
      let mut stack := stack
      let mut refs := refs
      for n in names do
        let p := d ++ [n]
        if n.startsWith "." then continue
        if t.isDir p then
          stack := p :: stack
          continue
        let bytes ← os (t.read p)
        let some content := Utf8.decode? bytes | throw (.io OsError.invalidText.message)
        let target ← check (RefTarget.decode content)
        refs := refs ++ [⟨"/".intercalate (p.drop h.dir.length), target⟩]
      walkRefs h fuel stack refs

/-- `HEAD` first when present, then every reference file and every packed reference without
a file, by name. -/
def iterateReferences (h : Handle) : DiskM (List Reference) := do
  let loose ← walkRefs h ((← files).nodes.size + 1) [h.file ["refs"]] []
  let packed ← packedRefs h
  let all := packed.foldl (fun acc r => if acc.any (·.name == r.name) then acc else acc ++ [r]) loose
  let sorted := all.mergeSort fun a b => decide (a.name ≤ b.name)
  match ← os ((← files).readOptional (h.file [headName])) with
  | some content => pure (⟨headName, ← check (RefTarget.decode (Utf8.decodeLossy content))⟩ :: sorted)
  | none => pure sorted

/-! ## Metadata -/

/-- The configuration, or the default one when there is no file. -/
def config (h : Handle) : DiskM RepoConfig := do
  match ← os ((← files).readOptional (h.file ["config"])) with
  | some data => pure ⟨Utf8.decodeLossy data⟩
  | none => pure RepoConfig.default

/-- Writes the configuration. -/
def setConfig (h : Handle) (c : RepoConfig) : DiskM Unit :=
  writeAtomic (h.file ["config"]) (Bytes.ofString c.text)

/-- The shallow commits, none when there is no file. -/
def shallow (h : Handle) : DiskM (List ObjectId) := do
  match ← os ((← files).readOptional (h.file ["shallow"])) with
  | some data => check (decodeShallow (Utf8.decodeLossy data))
  | none => pure []

/-- Writes the shallow commits; an empty list removes the file. -/
def setShallow (h : Handle) (ids : List ObjectId) : DiskM Unit := do
  if ids.isEmpty then
    match (← files).removeFile (h.file ["shallow"]) with
    | .ok t => modify fun d => { d with files := t }
    | .error .notFound => pure ()
    | .error e => throw (.io e.message)
  else writeAtomic (h.file ["shallow"]) (Bytes.ofString (encodeShallow ids))

/-- Writes the configuration, the initial objects, the default branch when there is a first
commit, and `HEAD` last. -/
def seed (h : Handle) (o : InitOptions) (now : Int) : DiskM Unit := do
  setConfig h RepoConfig.default
  let (objects, commit) := initialContent h.name o now
  for x in objects do
    let _ ← putObject h x.kind x.data
  if let some c := commit then
    setReference h ⟨o.branchRef, .direct c⟩
  setReference h ⟨headName, .symbolic o.branchRef⟩

end Handle

/-! ## Repositories -/

/-- Whether a repository exists: its `HEAD` does. -/
def exists? (name : RepoName) : DiskM Bool := do
  os ((← files).exists? (repoDir name ++ [headName]))

/-- Builds a repository in a hidden sibling directory and moves it into place. A failed build
is removed; a failed move is reported as a conflict when the repository appeared meanwhile. -/
def create (name : RepoName) (o : InitOptions) (now : Int) : DiskM Unit := do
  if ← exists? name then throw (.alreadyExists name.path)
  let dir := repoDir name
  let staging := sibling dir "tmp"
  change (·.createDirAll staging.dropLast)
  let built : DiskM Unit := do
    for d in layout do change (·.createDirAll (staging ++ d))
    (Handle.mk name staging).seed o now
  tryCatch built fun e => do
    attempt (·.removeDirAll staging)
    throw e
  match (← files).rename staging dir with
  | .ok t => modify fun d => { d with files := t }
  | .error e =>
    attempt (·.removeDirAll staging)
    let again ← tryCatch (exists? name) fun _ => pure false
    if again then throw (.alreadyExists name.path) else throw (.io e.message)

/-- Removes the directories above a deleted repository that it left empty, up to the root. -/
def pruneEmptyParents : Nat → FsPath → DiskM Unit
  | 0, _ => pure ()
  | fuel + 1, current => do
    if current.isEmpty then return
    match (← files).removeDir current with
    | .ok t => do
      modify fun d => { d with files := t }
      pruneEmptyParents fuel current.dropLast
    | .error _ => pure ()

/-- Deletes a repository: moves it aside, empties the cache, removes it and the directories
it leaves empty. -/
def delete (name : RepoName) : DiskM Unit := do
  if !(← exists? name) then throw (.notFound ("repository " ++ name.path))
  let dir := repoDir name
  let tombstone := sibling dir "deleted"
  change (·.rename dir tombstone)
  modify fun d => { d with cache := d.cache.clear }
  attempt (·.removeDirAll tombstone)
  pruneEmptyParents dir.length dir.dropLast

/-- Walks the directories on the stack, latest first: a visible directory whose name ends in
`.git` and that holds a `HEAD` is a repository, any other is searched further. Names that do
not normalise are left out. -/
def walk : Nat → List FsPath → List RepoName → DiskM (List RepoName)
  | 0, _, found => pure found
  | _, [], found => pure found
  | fuel + 1, d :: stack, found => do
    let t ← files
    let names ← os (t.readDir d)
    let mut stack := stack
    let mut found := found
    for n in names do
      let p := d ++ [n]
      if n.startsWith "." || !t.isDir p then continue
      if n.endsWith ".git" && (← os (t.exists? (p ++ [headName]))) then
        if let .ok r := RepoName.normalize ("/".intercalate p) then found := found ++ [r]
      else stack := p :: stack
    walk fuel stack found

/-- Every repository, by name. -/
def list : DiskM (List RepoName) := do
  let found ← walk ((← files).nodes.size + 1) [[]] []
  pure (found.mergeSort fun a b => decide (a.path ≤ b.path))

end Local

end GitServer
