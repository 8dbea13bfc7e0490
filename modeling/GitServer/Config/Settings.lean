import GitServer.Text.Blank

/-!
# Server settings

The server is configured in four sections: the HTTP listener, the SSH listener, logging, and
storage with its two media. Every setting has a default, so an empty configuration is a
complete one. Three checks go beyond the types: the default branch must not be blank, the
SSH buffer must not be empty, and S3 storage needs a bucket.
-/

namespace GitServer.Config

/-- Where repositories are kept. -/
inductive StorageType where
  /-- Files under a directory. -/
  | disk
  /-- An S3 bucket. -/
  | s3
  /-- Memory of the process. -/
  | memory
deriving DecidableEq, Repr

/-- The name of a storage type in the configuration. -/
def StorageType.name : StorageType → String
  | .disk => "local"
  | .s3 => "s3"
  | .memory => "memory"

/-- The storage types, in the order error messages list them. -/
def StorageType.all : List StorageType := [.disk, .s3, .memory]

/-- The HTTP listener. -/
structure HttpSettings where
  host : String
  port : Nat
  logs : Bool
deriving DecidableEq, Repr

/-- The SSH listener. -/
structure SshSettings where
  enabled : Bool
  host : String
  port : Nat
  hostKeyPath : String
  idleTimeoutSecs : Nat
  keepaliveIntervalSecs : Nat
  bufferBytes : Nat
deriving DecidableEq, Repr

/-- Logging. -/
structure LoggerSettings where
  level : String
  pretty : Bool
deriving DecidableEq, Repr

/-- Repositories on disk. -/
structure LocalSettings where
  path : String
  cacheBytes : Nat
deriving DecidableEq, Repr

/-- Repositories in an S3 bucket. -/
structure S3Settings where
  bucket : String
  endpoint : Option String
  region : String
  accessKey : Option String
  secretKey : Option String
  forcePathStyle : Bool
deriving DecidableEq, Repr

/-- Storage: its type, how new repositories start, and the settings of each medium. -/
structure StorageSettings where
  kind : StorageType
  defaultBranch : String
  initialCommit : Bool
  disk : LocalSettings
  s3 : S3Settings
deriving DecidableEq, Repr

/-- The whole configuration. -/
structure Settings where
  http : HttpSettings
  ssh : SshSettings
  logger : LoggerSettings
  storage : StorageSettings
deriving DecidableEq, Repr

/-! ## Defaults -/

/-- HTTP on every interface, port 8080, with request logs. -/
def HttpSettings.default : HttpSettings := ⟨"0.0.0.0", 8080, true⟩

/-- SSH on every interface, port 2222, half an hour idle, keepalives every ten seconds and
buffers of one mebibyte. -/
def SshSettings.default : SshSettings :=
  ⟨true, "0.0.0.0", 2222, "./ssh_host_key", 1800, 10, 1024 * 1024⟩

/-- Logs at level `info`, as JSON lines. -/
def LoggerSettings.default : LoggerSettings := ⟨"info", false⟩

/-- Repositories under `./repositories`, with a cache of 64 MiB. -/
def LocalSettings.default : LocalSettings := ⟨"./repositories", 64 * 1024 * 1024⟩

/-- No bucket, region `us-east-1`. -/
def S3Settings.default : S3Settings := ⟨"", none, "us-east-1", none, none, false⟩

/-- Storage on disk; new repositories start on `main` with a first commit. -/
def StorageSettings.default : StorageSettings :=
  ⟨.disk, "main", true, LocalSettings.default, S3Settings.default⟩

/-- Every section at its defaults. -/
def Settings.default : Settings :=
  ⟨HttpSettings.default, SshSettings.default, LoggerSettings.default, StorageSettings.default⟩

/-! ## Checks -/

/-- The checks the types do not express. -/
def Settings.validate (s : Settings) : Except String Unit := do
  if (Blank.trim s.storage.defaultBranch).isEmpty then
    throw "storage.default_branch must not be empty"
  if s.ssh.bufferBytes == 0 then throw "ssh.buffer_bytes must be positive"
  if s.storage.kind == .s3 && s.storage.s3.bucket.isEmpty then
    throw "storage.s3.bucket is required when storage.type is s3"

/-- The reference new repositories start on. -/
def Settings.branchRef (s : Settings) : String := "refs/heads/" ++ s.storage.defaultBranch

end GitServer.Config
