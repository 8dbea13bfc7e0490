import GitServer.Config.Settings

/-!
# The command line

The server reads its settings from a YAML file and lets the command line change five of
them: the storage type, both ports, whether SSH runs, and the directory of disk storage.
Each option may also come from an environment variable, which counts only when the option
is not on the command line. Options are written `--name value`, `--name=value`, or, for the
configuration file, `-c value`, `-cvalue` and `-c=value`.

Values are read as the settings file reads them: ports are integers up to 65535, the switch
is `true` or `false`, and the storage type is one of its names in any ASCII case. A problem
is reported with the option as the usage line writes it, `--http-port <HTTP_PORT>` for
instance.
-/

namespace GitServer.Config

/-- The program's name. -/
def programName : String := "git-smart-server"

/-- The program's version. -/
def programVersion : String := "0.1.0"

/-- What the command line and the environment change. -/
structure Overrides where
  configPath : Option String
  storageType : Option StorageType
  httpPort : Option Nat
  sshPort : Option Nat
  sshEnabled : Option Bool
  localPath : Option String
deriving DecidableEq, Repr

/-- No changes. -/
def Overrides.empty : Overrides := ⟨.none, .none, .none, .none, .none, .none⟩

/-- The options. -/
inductive Flag where
  | config
  | storageType
  | httpPort
  | sshPort
  | sshEnabled
  | localPath
deriving DecidableEq, Repr

/-- Every option, in the order the help lists them. -/
def Flag.all : List Flag := [.config, .storageType, .httpPort, .sshPort, .sshEnabled, .localPath]

/-- The long name of an option. -/
def Flag.long : Flag → String
  | .config => "config"
  | .storageType => "storage-type"
  | .httpPort => "http-port"
  | .sshPort => "ssh-port"
  | .sshEnabled => "ssh-enabled"
  | .localPath => "local-path"

/-- The name of an option's value. -/
def Flag.valueName : Flag → String
  | .config => "CONFIG"
  | .storageType => "STORAGE_TYPE"
  | .httpPort => "HTTP_PORT"
  | .sshPort => "SSH_PORT"
  | .sshEnabled => "SSH_ENABLED"
  | .localPath => "LOCAL_PATH"

/-- The environment variable an option falls back on. -/
def Flag.env (f : Flag) : String := "GSS_" ++ f.valueName

/-- The option as the usage line writes it. -/
def Flag.usage (f : Flag) : String := "--" ++ f.long ++ " <" ++ f.valueName ++ ">"

/-- Whether an option was given. -/
def Overrides.has (o : Overrides) : Flag → Bool
  | .config => o.configPath.isSome
  | .storageType => o.storageType.isSome
  | .httpPort => o.httpPort.isSome
  | .sshPort => o.sshPort.isSome
  | .sshEnabled => o.sshEnabled.isSome
  | .localPath => o.localPath.isSome

/-- The storage type a name stands for, in any ASCII case. -/
def StorageType.parse (s : String) : Except String StorageType :=
  let lower := s.map Char.toLower
  match StorageType.all.find? (·.name == lower) with
  | some k => .ok k
  | none => .error ("unknown storage type `" ++ lower ++ "` (expected local, s3 or memory)")

/-- A port: a decimal integer with an optional sign, from 0 to 65535. -/
def parsePort (s : String) : Except String Nat :=
  let (negative, digits) :=
    if s.startsWith "-" then (true, (s.drop 1).toString)
    else if s.startsWith "+" then (false, (s.drop 1).toString) else (false, s)
  if digits.isEmpty then .error "cannot parse integer from empty string"
  else if !digits.all Char.isDigit then .error "invalid digit found in string"
  else
    let n := digits.foldl (fun acc c => acc * 10 + (c.toNat - 48)) 0
    if n ≥ Nat.pow 2 63 then .error "number too large to fit in target type"
    else if negative && n != 0 then .error ("-" ++ toString n ++ " is not in 0..=65535")
    else if n > 65535 then .error (toString n ++ " is not in 0..=65535")
    else .ok n

/-- Why a value of an option was refused. -/
def invalidValue (f : Flag) (value : String) (why : Option String) : String :=
  "invalid value '" ++ value ++ "' for '" ++ f.usage ++ "'" ++
    match why with
    | some w => ": " ++ w
    | none => "\n  [possible values: true, false]"

/-- Records the value of an option. -/
def Overrides.set (o : Overrides) (f : Flag) (value : String) : Except String Overrides :=
  match f with
  | .config => .ok { o with configPath := some value }
  | .storageType =>
    match StorageType.parse value with
    | .ok k => .ok { o with storageType := some k }
    | .error why => .error (invalidValue f value (some why))
  | .httpPort =>
    match parsePort value with
    | .ok n => .ok { o with httpPort := some n }
    | .error why => .error (invalidValue f value (some why))
  | .sshPort =>
    match parsePort value with
    | .ok n => .ok { o with sshPort := some n }
    | .error why => .error (invalidValue f value (some why))
  | .sshEnabled =>
    if value == "true" then .ok { o with sshEnabled := some true }
    else if value == "false" then .ok { o with sshEnabled := some false }
    else .error (invalidValue f value none)
  | .localPath => .ok { o with localPath := some value }

/-- What the command line asks for. -/
inductive Command where
  /-- Run the server with these changes. -/
  | run (o : Overrides)
  /-- Print the help. -/
  | help
  /-- Print the version. -/
  | version
deriving DecidableEq, Repr

/-- The usage line. -/
def usageLine : String := "Usage: " ++ programName ++ " [OPTIONS]"

/-- A command line error as printed, with the pointer to the help. -/
def commandError (message : String) (withUsage : Bool) : String :=
  "error: " ++ message ++ "\n\n" ++ (if withUsage then usageLine ++ "\n\n" else "") ++
    "For more information, try '--help'.\n"

/-- How one argument reads. -/
inductive Word where
  | help
  | version
  /-- An option, with the value written in the same argument if there is one. -/
  | option (f : Flag) (inline : Option String)
  | unexpected
deriving DecidableEq, Repr

/-- Splits text at its first `=`. -/
def splitValue (s : String) : String × Option String :=
  match s.splitOn "=" with
  | name :: rest@(_ :: _) => (name, some ("=".intercalate rest))
  | _ => (s, none)

/-- How an argument reads. -/
def classify (arg : String) : Word :=
  if arg == "-h" || arg == "--help" then .help
  else if arg == "-V" || arg == "--version" then .version
  else if arg.startsWith "--" then
    let (name, inline) := splitValue (arg.drop 2).toString
    match Flag.all.find? (·.long == name) with
    | some f => .option f inline
    | none => .unexpected
  else if arg.startsWith "-c" then
    let rest := (arg.drop 2).toString
    .option .config (if rest.isEmpty then none
      else if rest.startsWith "=" then some (rest.drop 1).toString else some rest)
  else .unexpected

/-- Whether an argument is an option rather than a value. -/
def looksLikeOption (arg : String) : Bool := arg.startsWith "-" && arg.length > 1

/-- Records an option's value, refusing a second one. -/
def record (o : Overrides) (f : Flag) (value : String) : Except String Overrides :=
  if o.has f then
    .error (commandError ("the argument '" ++ f.usage ++ "' cannot be used multiple times") true)
  else
    match o.set f value with
    | .ok o => .ok o
    | .error why => .error (commandError why false)

/-- Reads the arguments into changes, or the text of the first error. -/
def parseArguments : List String → Overrides → Except String Command
  | [], o => .ok (.run o)
  | arg :: rest, o =>
    match classify arg with
    | .help => .ok .help
    | .version => .ok .version
    | .unexpected =>
      .error (commandError ("unexpected argument '" ++ arg ++ "' found") true)
    | .option f (some v) => do parseArguments rest (← record o f v)
    | .option f none =>
      match rest with
      | v :: more =>
        if looksLikeOption v then
          .error (commandError ("a value is required for '" ++ f.usage ++
            "' but none was supplied") false)
        else do parseArguments more (← record o f v)
      | [] =>
        .error (commandError ("a value is required for '" ++ f.usage ++
          "' but none was supplied") false)

/-- Fills the options the command line left out from the environment; an empty variable
counts as unset. -/
def withEnvironment (env : String → Option String) (o : Overrides) : Except String Overrides :=
  Flag.all.foldlM (fun o f =>
    if o.has f then pure o
    else match env f.env with
      | some v => if v.isEmpty then pure o else record o f v
      | none => pure o) o

/-- Reads the command line, then the environment for what it left out. -/
def Command.parse (args : List String) (env : String → Option String) : Except String Command := do
  match ← parseArguments args Overrides.empty with
  | .run o => pure (.run (← withEnvironment env o))
  | c => pure c

/-- The help text. -/
def helpText : String :=
  "Git smart HTTP and SSH server\n\n" ++ usageLine ++ "\n\nOptions:\n" ++
  "  -c, --config <CONFIG>              Path to the YAML configuration file; defaults apply " ++
  "when omitted [env: GSS_CONFIG=]\n" ++
  "      --storage-type <STORAGE_TYPE>  [env: GSS_STORAGE_TYPE=]\n" ++
  "      --http-port <HTTP_PORT>        [env: GSS_HTTP_PORT=]\n" ++
  "      --ssh-port <SSH_PORT>          [env: GSS_SSH_PORT=]\n" ++
  "      --ssh-enabled <SSH_ENABLED>    [env: GSS_SSH_ENABLED=] [possible values: true, false]\n" ++
  "      --local-path <LOCAL_PATH>      Root directory of the local backend " ++
  "[env: GSS_LOCAL_PATH=]\n" ++
  "  -h, --help                         Print help\n" ++
  "  -V, --version                      Print version\n"

/-- The version line. -/
def versionText : String := programName ++ " " ++ programVersion ++ "\n"

/-- The settings with the changes made. -/
def Overrides.apply (o : Overrides) (s : Settings) : Settings :=
  let storage := s.storage
  let storage := match o.storageType with
    | some k => { storage with kind := k }
    | none => storage
  let storage := match o.localPath with
    | some p => { storage with disk := { storage.disk with path := p } }
    | none => storage
  let http := match o.httpPort with
    | some p => { s.http with port := p }
    | none => s.http
  let ssh := match o.sshPort with
    | some p => { s.ssh with port := p }
    | none => s.ssh
  let ssh := match o.sshEnabled with
    | some e => { ssh with enabled := e }
    | none => ssh
  { s with http := http, ssh := ssh, storage := storage }

end GitServer.Config
