import GitServer.Config.Settings
import GitServer.Config.ByteSize
import GitServer.Config.Yaml.Scalar

/-!
# Reading the configuration

The configuration document is read section by section into `Settings`, each section
starting from its defaults: a key names a setting and its value replaces the default; keys
that name no setting are passed over with their values; a key given twice is refused. An
empty value stands for an empty section.

Each setting takes scalars of one kind. Texts take any scalar as written; ports and timeouts
take plain integers; switches take plain booleans; the storage type takes one of its names;
byte sizes take an integer or a text such as `64M`; optional texts take null as absent. A
value of the wrong kind is refused with what it held and what was expected.

An error names the setting's path, `storage.type` for instance, and the line and column of
the value, or of the start of the section for errors found once the section was read, such
as a duplicate key or a byte size that does not parse.

Aliases are followed where a value is read, not where one is passed over. Each alias
followed counts, and a document may follow at most a hundred for each of its items, which
stops a small document from expanding into a huge one. Collections may nest at most 128 deep,
counting the sections.
-/

namespace GitServer.Config

open Yaml

/-- Why a configuration could not be read. -/
inductive LoadError where
  /-- The text is not YAML. -/
  | malformed (f : Fault)
  /-- A value does not fit; the position, once known, is a mark and a setting path. -/
  | message (text : String) (pos : Option (Mark × String))
  /-- The document ended where a value was due. -/
  | endOfStream
  /-- The text holds more than one document. -/
  | moreThanOneDocument
  /-- An alias names no anchor. -/
  | unknownAnchor (m : Mark)
  /-- Collections nest too deep; the mark is the collection that went too deep. -/
  | recursionLimit (m : Mark)
  /-- Too many aliases were followed. -/
  | repetitionLimit
  /-- The settings break a rule of their own. -/
  | invalid (text : String)
deriving DecidableEq, Repr

/-- A mark as it ends a message: nothing at the origin. -/
def markSuffix (m : Mark) : String := if m.atOrigin then "" else " at " ++ m.describe

/-- The text of an error. -/
def LoadError.text : LoadError → String
  | .malformed f => f.message
  | .message t none => t
  | .message t (some (m, path)) =>
    (if path == "." then "" else path ++ ": ") ++ t ++ markSuffix m
  | .endOfStream => "EOF while parsing a value"
  | .moreThanOneDocument =>
    "deserializing from YAML containing more than one document is not supported"
  | .unknownAnchor m => "unknown anchor" ++ markSuffix m
  | .recursionLimit m => "recursion limit exceeded" ++ markSuffix m
  | .repetitionLimit => "repetition limit exceeded"
  | .invalid t => t

/-- Gives an error without a position the position of the value being read. -/
def LoadError.placed (m : Mark) (path : String) : LoadError → LoadError
  | .message t none => .message t (some (m, path))
  | e => e

/-- A message without a position yet. -/
def plainError (t : String) : LoadError := .message t none

/-- The path of a setting inside a section. -/
def childPath (path key : String) : String := if path == "." then key else path ++ "." ++ key

/-- Reads one item of a document, or the reason there is none. -/
def itemAt (d : Loaded) (pos : Nat) : Except LoadError (Item × Mark) :=
  match d.items[pos]? with
  | some im => .ok im
  | none =>
    match d.cut with
    | some (.fault f) => .error (.malformed f)
    | some (.unknownAnchor m) => .error (.unknownAnchor m)
    | none => .error .endOfStream

/-- Reading a document, with the number of aliases followed so far. -/
abbrev ReadM := StateT Nat (Except LoadError)

/-- The greatest number of collections that may be open at once. -/
def depthLimit : Nat := 128

/-- Counts one alias followed; one past a hundred for each item of the document is refused. -/
def countJump (d : Loaded) : ReadM Unit := do
  let n := (← get) + 1
  set n
  if n > d.items.size * 100 then throw .repetitionLimit

/-- The item an alias points at, the alias counted; any other item stands for itself. -/
def follow (d : Loaded) : Item × Mark → ReadM (Item × Mark)
  | (.alias target, m) => do
    countJump d
    pure ((d.items[target]?).getD (.void, m))
  | im => pure im

/-- The error for an item of the wrong kind. -/
def wrongKind (item : Item) (expected : String) : LoadError :=
  let invalid (what : String) := plainError ("invalid type: " ++ what ++ ", expected " ++ expected)
  match item with
  | .scalar text style tag =>
    match resolveScalar text style tag with
    | .ok r => invalid r.describe
    | .error msg => plainError msg
  | .sequenceStart _ => invalid "sequence"
  | .mappingStart _ => invalid "map"
  | _ => .endOfStream

/-- The error for an item of the wrong kind, placed at the item. -/
def wrongKindAt (item : Item) (m : Mark) (path expected : String) : LoadError :=
  (wrongKind item expected).placed m path

/-- The offset after the node at `pos`, its nested items included. -/
def skipNode (d : Loaded) (pos : Nat) : Except LoadError Nat :=
  go (d.items.size + 1) pos 0
where
  go : Nat → Nat → Nat → Except LoadError Nat
    | 0, i, _ => .ok i
    | fuel + 1, i, depth => do
      let (item, _) ← itemAt d i
      match item with
      | .sequenceStart _ | .mappingStart _ => go fuel (i + 1) (depth + 1)
      | .sequenceEnd | .mappingEnd => if depth ≤ 1 then pure (i + 1) else go fuel (i + 1) (depth - 1)
      | _ => if depth == 0 then pure (i + 1) else go fuel (i + 1) depth

/-! ## Values of any shape

A byte size may be written as a number or as a text, and a reader that accepts either first
reads the value without knowing its shape, then tries each form on it. That first reading
follows aliases and enters collections, so it can fail on its own: a collection nested too
deep, too many aliases, a scalar whose tag it does not fit, or a local tag such as `!x`, which
names a variant of a choice and cannot stand for a number or a text. Otherwise a collection
matches neither form.
-/

/-- The variant a node's tag names: a local tag such as `!s3` names `s3`; the bare `!` names
itself. -/
def variantTag : Option String → Option String
  | some t => if t.startsWith "!" then some (if t.length > 1 then (t.drop 1).toString else t) else none
  | none => none

/-- The path of an element of a sequence. -/
def elementPath (path : String) (i : Nat) : String := path ++ "[" ++ toString i ++ "]"

/-- The path of a value under a key; a key that is not a scalar is unknown. -/
def valuePath (path : String) (key : Option String) : String :=
  match key with
  | some k => childPath path k
  | none => if path == "." then "?" else path ++ ".?"

/-- The fault for a node carrying a local tag where a value of any shape is read. -/
def enumInput (m : Mark) (path : String) : LoadError :=
  (plainError "untagged and internally tagged enums do not support enum input").placed m path

mutual

/-- Reads the node at `pos` as a value of any shape, `depth` collections still allowed to
open; the answer is the offset after it. The fuel bounds the nesting of the reading, and the
caller gives enough for every collection of the document to be entered once per level. -/
def anyNode (d : Loaded) : Nat → String → Nat → Nat → ReadM Nat
  | 0, _, _, pos => pure (pos + 1)
  | fuel + 1, path, depth, pos => do
    let (item, m) ← itemAt d pos
    match item with
    | .alias t =>
      countJump d
      let _ ← anyNode d fuel path depth t
      pure (pos + 1)
    | .scalar text style tag =>
      if (variantTag tag).isSome then throw (enumInput m path)
      match resolveScalar text style tag with
      | .ok _ => pure (pos + 1)
      | .error msg => throw ((plainError msg).placed m path)
    | .sequenceStart tag =>
      if (variantTag tag).isSome then throw (enumInput m path)
      if depth == 0 then throw (.recursionLimit m)
      anyElements d fuel path (depth - 1) (pos + 1) 0
    | .mappingStart tag =>
      if (variantTag tag).isSome then throw (enumInput m path)
      if depth == 0 then throw (.recursionLimit m)
      anyPairs d fuel path (depth - 1) (pos + 1)
    | _ => pure (pos + 1)

/-- Reads the elements of a sequence from `pos`, the `i`-th next, up to its end. -/
def anyElements (d : Loaded) : Nat → String → Nat → Nat → Nat → ReadM Nat
  | 0, _, _, pos, _ => pure pos
  | fuel + 1, path, depth, pos, i => do
    let (item, _) ← itemAt d pos
    match item with
    | .sequenceEnd => pure (pos + 1)
    | _ =>
      let next ← anyNode d fuel (elementPath path i) depth pos
      anyElements d fuel path depth next (i + 1)

/-- Reads the pairs of a mapping from `pos` up to its end. -/
def anyPairs (d : Loaded) : Nat → String → Nat → Nat → ReadM Nat
  | 0, _, _, pos => pure pos
  | fuel + 1, path, depth, pos => do
    let (item, _) ← itemAt d pos
    match item with
    | .mappingEnd | .void => pure (pos + 1)
    | _ =>
      let key := match item with
        | .scalar text _ _ => some text
        | _ => none
      let afterKey ← anyNode d fuel path depth pos
      let next ← anyNode d fuel (valuePath path key) depth afterKey
      anyPairs d fuel path depth next

end

/-- Enough fuel to read any value of a document: every collection entered at every level. -/
def anyFuel (d : Loaded) : Nat := (depthLimit + 2) * (2 * d.items.size + 2)

/-! ## Settings of one value -/

/-- A text: any scalar, as written. -/
def readText (d : Loaded) (path expected : String) (pos : Nat) : ReadM (String × Nat) := do
  let (item, m) ← follow d (← itemAt d pos)
  match item with
  | .scalar text _ _ => pure (text, pos + 1)
  | other => throw (wrongKindAt other m path expected)

/-- A switch: a plain `true` or `false`. -/
def readBool (d : Loaded) (path : String) (pos : Nat) : ReadM (Bool × Nat) := do
  let (item, m) ← follow d (← itemAt d pos)
  if let .scalar text .plain _ := item then
    if let some b := parseBool text then return (b, pos + 1)
  throw (wrongKindAt item m path "a boolean")

/-- A plain unsigned integer of a width named `expected`, at most `max`. -/
def readUnsigned (d : Loaded) (path expected : String) (max : Nat) (pos : Nat) :
    ReadM (Nat × Nat) := do
  let (item, m) ← follow d (← itemAt d pos)
  if let .scalar text .plain _ := item then
    if let some n := parseUnsigned (Nat.pow 2 64) text then
      if n ≤ max then return (n, pos + 1)
      throw ((plainError ("invalid value: integer `" ++ toString n ++ "`, expected " ++
        expected)).placed m path)
  throw (wrongKindAt item m path expected)

/-- An optional text: a plain null is absent, anything else is read as a text. A value tagged
null that is not null is refused at the section, as its reader answers before it places
errors. -/
def readOptionalText (d : Loaded) (path : String) (pos : Nat) :
    ReadM (Option String × Nat) := do
  let (item, m) ← follow d (← itemAt d pos)
  match item with
  | .scalar text style tag =>
    if style != .plain then return (some text, pos + 1)
    match tag with
    | some t =>
      if t == nullTag then
        if isNull text then return (none, pos + 1)
        throw (plainError ("invalid value: string " ++ Quoted.string text ++ ", expected null"))
      return (some text, pos + 1)
    | none => return (if isNull text then none else some text, pos + 1)
  | .void => return (none, pos + 1)
  | other => throw (wrongKindAt other m path "a string")

/-- The storage type: one of its names, as a scalar or as the tag of an empty scalar. -/
def readStorageType (d : Loaded) (path : String) (pos : Nat) : ReadM (StorageType × Nat) := do
  let (item, m) ← follow d (← itemAt d pos)
  let place (t : String) : LoadError := (plainError t).placed m path
  let byName (name : String) : Except LoadError StorageType :=
    match StorageType.all.find? (·.name == name) with
    | some k => .ok k
    | none => .error (place ("unknown variant `" ++ name ++
        "`, expected one of `local`, `s3`, `memory`"))
  match item with
  | .scalar text style tag =>
    match variantTag tag with
    | some name =>
      let k ← byName name
      if style == .plain && isNull text then pure (k, pos + 1)
      else throw (place ("invalid value: string " ++ Quoted.string text ++ ", expected null"))
    | none => pure (← byName text, pos + 1)
  | .mappingStart tag =>
    match variantTag tag with
    | some name => let _ ← byName name; throw (place "invalid type: map, expected unit")
    | none => throw (place "invalid type: map, expected a YAML tag starting with '!'")
  | .sequenceStart tag =>
    match variantTag tag with
    | some name => let _ ← byName name; throw (place "invalid type: sequence, expected unit")
    | none => throw (place "invalid type: sequence, expected a YAML tag starting with '!'")
  | _ => throw .endOfStream

/-- A byte size: an unsigned integer, or a text with a unit. The value is first read as a
value of any shape, `depth` collections still allowed to open. -/
def readByteSize (d : Loaded) (path : String) (depth pos : Nat) : ReadM (Nat × Nat) := do
  let noMatch := plainError "data did not match any variant of untagged enum StringOrUSize"
  let (item, m) ← follow d (← itemAt d pos)
  match item with
  | .scalar text style tag =>
    if (variantTag tag).isSome then throw (enumInput m path)
    match resolveScalar text style tag with
    | .error msg => throw ((plainError msg).placed m path)
    | .ok (.unsigned n) => pure (n, pos + 1)
    | .ok (.signed _) => throw noMatch
    | .ok (.wide n) =>
      throw ((plainError ("invalid type: " ++ (Resolved.wide n).describe ++
        ", expected any value")).placed m path)
    | .ok (.text s) =>
      match parseByteSize s with
      | .ok n => pure (n, pos + 1)
      | .error msg => throw (plainError msg)
    | .ok _ => throw noMatch
  | .sequenceStart _ | .mappingStart _ =>
    let target := match d.items[pos]? with
      | some (.alias t, _) => t
      | _ => pos
    let _ ← anyNode d (anyFuel d) path depth target
    throw noMatch
  | _ => throw .endOfStream

/-! ## Sections -/

/-- Reads the pairs of a section from `pos` into a record. `field` reads the value of a known
key at a position, with the setting's path, and gives the record with it set. -/
def readPairs {σ} (d : Loaded) (path : String) (known : List String)
    (field : String → String → Nat → σ → ReadM (σ × Nat)) :
    Nat → Nat → List String → σ → ReadM (σ × Nat)
  | 0, pos, _, r => pure (r, pos)
  | fuel + 1, pos, seen, r => do
    let (item, km) ← itemAt d pos
    let key ← match item with
      | .mappingEnd | .void => return (r, pos + 1)
      | .scalar text _ _ => pure text
      | .alias _ =>
        match ← follow d (item, km) with
        | (.scalar text _ _, _) => pure text
        | (other, om) => throw (wrongKindAt other om path "field identifier")
      | other => throw (wrongKindAt other km path "field identifier")
    if known.contains key then
      if seen.contains key then throw (plainError ("duplicate field `" ++ key ++ "`"))
      let (r, next) ← field key (childPath path key) (pos + 1) r
      readPairs d path known field fuel next (key :: seen) r
    else
      let next ← skipNode d (pos + 1)
      readPairs d path known field fuel next seen r

/-- Reads a section named `name` (for messages) at `pos`, starting from `init`, `depth`
collections still allowed to open. An empty value leaves the defaults; errors without a
position get the section's. -/
def readSection {σ} (d : Loaded) (path name : String) (depth : Nat) (known : List String)
    (field : String → String → Nat → σ → ReadM (σ × Nat)) (init : σ) (pos : Nat) :
    ReadM (σ × Nat) := do
  let (item, m) ← itemAt d pos
  let target := match item with
    | .alias t => t
    | _ => pos
  let (item, m) ← follow d (item, m)
  let advance (r : σ × Nat) : σ × Nat := if target == pos then r else (r.1, pos + 1)
  match item with
  | .mappingStart _ =>
    if depth == 0 then throw (.recursionLimit m)
    tryCatch (do
        let r ← readPairs d path known field (d.items.size + 1) (target + 1) [] init
        pure (advance r))
      (fun e => throw (e.placed m path))
  | .scalar "" .plain _ | .void => pure (init, pos + 1)
  | other => throw (wrongKindAt other m path ("struct " ++ name))

/-- The HTTP section. -/
def readHttp (d : Loaded) (path : String) (depth : Nat) : Nat → ReadM (HttpSettings × Nat) :=
  readSection d path "HttpConfig" depth ["host", "port", "logs"] (fun key p pos r =>
    match key with
    | "host" => do let (v, n) ← readText d p "a string" pos; pure ({ r with host := v }, n)
    | "port" => do let (v, n) ← readUnsigned d p "u16" 65535 pos; pure ({ r with port := v }, n)
    | _ => do let (v, n) ← readBool d p pos; pure ({ r with logs := v }, n))
    HttpSettings.default

/-- The SSH section. -/
def readSsh (d : Loaded) (path : String) (depth : Nat) : Nat → ReadM (SshSettings × Nat) :=
  readSection d path "SshConfig" depth ["enabled", "host", "port", "host_key_path",
    "idle_timeout_secs", "keepalive_interval_secs", "buffer_bytes"] (fun key p pos r =>
    match key with
    | "enabled" => do let (v, n) ← readBool d p pos; pure ({ r with enabled := v }, n)
    | "host" => do let (v, n) ← readText d p "a string" pos; pure ({ r with host := v }, n)
    | "port" => do let (v, n) ← readUnsigned d p "u16" 65535 pos; pure ({ r with port := v }, n)
    | "host_key_path" => do
      let (v, n) ← readText d p "path string" pos
      pure ({ r with hostKeyPath := v }, n)
    | "idle_timeout_secs" => do
      let (v, n) ← readUnsigned d p "u64" (Nat.pow 2 64 - 1) pos
      pure ({ r with idleTimeoutSecs := v }, n)
    | "keepalive_interval_secs" => do
      let (v, n) ← readUnsigned d p "u64" (Nat.pow 2 64 - 1) pos
      pure ({ r with keepaliveIntervalSecs := v }, n)
    | _ => do
      let (v, n) ← readByteSize d p (depth - 1) pos
      pure ({ r with bufferBytes := v }, n))
    SshSettings.default

/-- The logging section. -/
def readLogger (d : Loaded) (path : String) (depth : Nat) :
    Nat → ReadM (LoggerSettings × Nat) :=
  readSection d path "LoggerConfig" depth ["level", "pretty"] (fun key p pos r =>
    match key with
    | "level" => do let (v, n) ← readText d p "a string" pos; pure ({ r with level := v }, n)
    | _ => do let (v, n) ← readBool d p pos; pure ({ r with pretty := v }, n))
    LoggerSettings.default

/-- The disk storage section. -/
def readLocal (d : Loaded) (path : String) (depth : Nat) : Nat → ReadM (LocalSettings × Nat) :=
  readSection d path "LocalConfig" depth ["path", "cache_bytes"] (fun key p pos r =>
    match key with
    | "path" => do let (v, n) ← readText d p "path string" pos; pure ({ r with path := v }, n)
    | _ => do
      let (v, n) ← readByteSize d p (depth - 1) pos
      pure ({ r with cacheBytes := v }, n))
    LocalSettings.default

/-- The S3 storage section. -/
def readS3 (d : Loaded) (path : String) (depth : Nat) : Nat → ReadM (S3Settings × Nat) :=
  readSection d path "S3Config" depth ["bucket", "endpoint", "region", "access_key",
    "secret_key", "force_path_style"] (fun key p pos r =>
    match key with
    | "bucket" => do let (v, n) ← readText d p "a string" pos; pure ({ r with bucket := v }, n)
    | "endpoint" => do let (v, n) ← readOptionalText d p pos; pure ({ r with endpoint := v }, n)
    | "region" => do let (v, n) ← readText d p "a string" pos; pure ({ r with region := v }, n)
    | "access_key" => do
      let (v, n) ← readOptionalText d p pos
      pure ({ r with accessKey := v }, n)
    | "secret_key" => do
      let (v, n) ← readOptionalText d p pos
      pure ({ r with secretKey := v }, n)
    | _ => do let (v, n) ← readBool d p pos; pure ({ r with forcePathStyle := v }, n))
    S3Settings.default

/-- The storage section. -/
def readStorage (d : Loaded) (path : String) (depth : Nat) :
    Nat → ReadM (StorageSettings × Nat) :=
  readSection d path "StorageConfig" depth ["type", "default_branch", "initial_commit", "local",
    "s3"] (fun key p pos r =>
    match key with
    | "type" => do let (v, n) ← readStorageType d p pos; pure ({ r with kind := v }, n)
    | "default_branch" => do
      let (v, n) ← readText d p "a string" pos
      pure ({ r with defaultBranch := v }, n)
    | "initial_commit" => do
      let (v, n) ← readBool d p pos
      pure ({ r with initialCommit := v }, n)
    | "local" => do let (v, n) ← readLocal d p (depth - 1) pos; pure ({ r with disk := v }, n)
    | _ => do let (v, n) ← readS3 d p (depth - 1) pos; pure ({ r with s3 := v }, n))
    StorageSettings.default

/-- The whole configuration. -/
def readSettings (d : Loaded) : Nat → ReadM (Settings × Nat) :=
  readSection d "." "Config" depthLimit ["http", "ssh", "logger", "storage"] (fun key p pos r =>
    match key with
    | "http" => do let (v, n) ← readHttp d p (depthLimit - 1) pos; pure ({ r with http := v }, n)
    | "ssh" => do let (v, n) ← readSsh d p (depthLimit - 1) pos; pure ({ r with ssh := v }, n)
    | "logger" => do
      let (v, n) ← readLogger d p (depthLimit - 1) pos
      pure ({ r with logger := v }, n)
    | _ => do
      let (v, n) ← readStorage d p (depthLimit - 1) pos
      pure ({ r with storage := v }, n))
    Settings.default

/-- Reads a configuration. A blank text is the default configuration; otherwise the text must
be one YAML document whose settings pass their checks. -/
def Settings.fromYaml (text : String) : Except LoadError Settings := do
  if (Blank.trim text).isEmpty then return Settings.default
  let d := load text
  let ((s, _), _) ← (readSettings d 0).run 0
  match d.cut with
  | some (.fault f) => throw (.malformed f)
  | some (.unknownAnchor m) => throw (.unknownAnchor m)
  | none => pure ()
  if d.more then throw .moreThanOneDocument
  match s.validate with
  | .ok () => pure s
  | .error e => throw (.invalid e)

end GitServer.Config
