import GitServer.Config.Command
import GitServer.Config.Decode
import GitServer.Config.Listen
import GitServer.Storage.Backend

/-!
# Starting the server

Before it serves anything the server settles its settings: the configuration file's, or the
defaults when no file is named, changed by the command line and then checked. A failure is
reported with what the server was doing and, below it, the cause. With the settings it
chooses its storage: a blob store for S3 and memory storage, a directory tree for disk
storage, each new repository starting as the storage settings say.
-/

namespace GitServer.Config

/-- Why the server did not start: what it was doing, and the cause when there is one. -/
structure StartError where
  message : String
  cause : Option String
deriving DecidableEq, Repr

/-- The report of a failure to start. -/
def StartError.render (e : StartError) : String :=
  "Error: " ++ e.message ++
    (match e.cause with
      | some c => "\n\nCaused by:\n    " ++ c
      | none => "") ++ "\n"

/-- The settings the server runs with. `file` is the configuration file's name with its text,
or why it could not be read. -/
def startSettings (o : Overrides) (file : Option (String × Except String String)) :
    Except StartError Settings := do
  let base ← match file with
    | none => pure Settings.default
    | some (path, .error why) => throw ⟨"failed to read config file: " ++ path, some why⟩
    | some (path, .ok text) =>
      match Settings.fromYaml text with
      | .ok s => pure s
      | .error e => throw ⟨"failed to parse config file: " ++ path, some e.text⟩
  let s := o.apply base
  match s.validate with
  | .ok () => pure s
  | .error why => throw ⟨why, none⟩

/-- The HTTP listen address, or why the settings do not give one. -/
def httpAddress (s : Settings) : Except StartError String :=
  match s.httpListen with
  | .ok a => .ok a
  | .error e => .error ⟨e.context, some e.cause⟩

/-- The storage the settings ask for, empty, with the clock at `now`. -/
def Settings.emptyStorage (s : Settings) (now : Int) : Storage :=
  let init : InitOptions := ⟨s.storage.defaultBranch, s.storage.initialCommit⟩
  let medium := match s.storage.kind with
    | .disk => Medium.disk ⟨FileTree.empty, ObjectCache.empty s.storage.disk.cacheBytes⟩
    | _ => Medium.remote (BlobStore.empty 1000)
  ⟨medium, init, now⟩

end GitServer.Config
