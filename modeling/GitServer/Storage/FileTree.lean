import GitServer.Bytes
import Std.Data.TreeMap

/-!
# A file tree

Local storage keeps repositories as directories of files below one root. The tree is held as
a map from paths to nodes, a path being the list of names below the root; the root itself is
always a directory. The map is ordered by path, name by name, so a lookup takes a number of
comparisons that grows with the logarithm of the number of files. Every operation answers the way the operating system does, with the same
error for the same fault:

* a name that does not exist on the way is `No such file or directory`;
* a file where a directory is needed on the way is `Not a directory`;
* a directory where a file is needed is `Is a directory`;
* creating what exists is `File exists`, removing a directory with entries is
  `Directory not empty`, and moving a directory below itself is `Invalid argument`.

Directory listings come in name order.
-/

namespace GitServer

/-- A path below the storage root, one name a component. -/
abbrev FsPath := List String

/-- Why the file system refused an operation. -/
inductive OsError where
  | notFound
  | notADirectory
  | isADirectory
  | alreadyExists
  | notEmpty
  | invalidArgument
  /-- A text file held bytes that are not UTF-8. -/
  | invalidText
deriving DecidableEq, Repr

/-- The system's message for an error. -/
def OsError.message : OsError → String
  | .notFound => "No such file or directory (os error 2)"
  | .notADirectory => "Not a directory (os error 20)"
  | .isADirectory => "Is a directory (os error 21)"
  | .alreadyExists => "File exists (os error 17)"
  | .notEmpty => "Directory not empty (os error 39)"
  | .invalidArgument => "Invalid argument (os error 22)"
  | .invalidText => "stream did not contain valid UTF-8"

/-- A node of the tree: a file with its bytes, or a directory. -/
inductive FsNode where
  | file (data : Bytes)
  | dir
deriving DecidableEq, Repr

/-- The nodes below the root, by path. The parent of every node is a directory. -/
structure FileTree where
  nodes : Std.TreeMap FsPath FsNode

namespace FileTree

/-- The empty tree: the root alone. -/
def empty : FileTree := ⟨∅⟩

/-- The node at a path, without looking at the way there. The root is a directory. -/
def node? (t : FileTree) (p : FsPath) : Option FsNode :=
  if p.isEmpty then some .dir else t.nodes[p]?

/-- The proper prefixes of a path, shortest first, the root excluded. -/
def ancestors (p : FsPath) : List FsPath :=
  (List.range (p.length - 1)).map fun i => p.take (i + 1)

/-- Follows a path: every component on the way must be a directory. The answer is the node
at the end, if any. -/
def lookup (t : FileTree) (p : FsPath) : Except OsError (Option FsNode) := do
  for a in ancestors p do
    match t.node? a with
    | none => throw .notFound
    | some (.file _) => throw .notADirectory
    | some .dir => pure ()
  pure (t.node? p)

/-- The node at a path, which must exist. -/
def stat (t : FileTree) (p : FsPath) : Except OsError FsNode := do
  match ← t.lookup p with
  | some n => pure n
  | none => throw .notFound

/-- Whether a path exists; a file on the way is an error. -/
def exists? (t : FileTree) (p : FsPath) : Except OsError Bool :=
  match t.lookup p with
  | .ok n => .ok n.isSome
  | .error .notFound => .ok false
  | .error e => .error e

/-- Whether a path names a directory; any fault on the way means no. -/
def isDir (t : FileTree) (p : FsPath) : Bool :=
  match t.lookup p with
  | .ok (some .dir) => true
  | _ => false

/-- The bytes of a file. -/
def read (t : FileTree) (p : FsPath) : Except OsError Bytes := do
  match ← t.stat p with
  | .file d => pure d
  | .dir => throw .isADirectory

/-- The bytes of a file, or nothing when it does not exist. -/
def readOptional (t : FileTree) (p : FsPath) : Except OsError (Option Bytes) :=
  match t.read p with
  | .ok d => .ok (some d)
  | .error .notFound => .ok none
  | .error e => .error e

/-- Sets the node at a path, replacing what was there. -/
def setNode (t : FileTree) (p : FsPath) (n : FsNode) : FileTree :=
  ⟨t.nodes.insert p n⟩

/-- The parent directory of a path must exist. -/
def checkParent (t : FileTree) (p : FsPath) : Except OsError Unit := do
  match ← t.lookup p.dropLast with
  | some .dir => pure ()
  | some (.file _) => throw .notADirectory
  | none => throw .notFound

/-- Writes a file, creating or truncating it; its directory must exist. -/
def write (t : FileTree) (p : FsPath) (data : Bytes) : Except OsError FileTree := do
  t.checkParent p
  match t.node? p with
  | some .dir => throw .isADirectory
  | _ => pure (t.setNode p (.file data))

/-- Creates one directory; its parent must exist and the name must be free. -/
def mkdir (t : FileTree) (p : FsPath) : Except OsError FileTree := do
  if p.isEmpty then throw .alreadyExists
  t.checkParent p
  match t.node? p with
  | some _ => throw .alreadyExists
  | none => pure (t.setNode p .dir)

/-- Creates a directory and the missing directories above it. An existing directory is
fine; anything else in the way is an error. -/
def createDirAll (t : FileTree) : FsPath → Except OsError FileTree
  | [] => .ok t
  | p@(_ :: _) =>
    match t.mkdir p with
    | .ok t' => .ok t'
    | .error .notFound => do
      let t' ← createDirAll t p.dropLast
      match t'.mkdir p with
      | .ok t'' => pure t''
      | .error e => if t'.isDir p then pure t' else throw e
    | .error e => if t.isDir p then .ok t else .error e
termination_by p => p.length
decreasing_by all_goals (subst_vars; simp [List.length_dropLast])

/-- Whether a path lies strictly below another. -/
def isBelow (dir p : FsPath) : Bool := dir.length < p.length && dir.isPrefixOf p

/-- The names in a directory, in order. -/
def children (t : FileTree) (p : FsPath) : List String :=
  (t.nodes.keys.filterMap fun q =>
    if q.length = p.length + 1 && p.isPrefixOf q then q.getLast? else none).mergeSort
    (fun a b => decide (a ≤ b))

/-- Lists a directory: the names of its entries, in order. -/
def readDir (t : FileTree) (p : FsPath) : Except OsError (List String) := do
  match ← t.stat p with
  | .dir => pure (t.children p)
  | .file _ => throw .notADirectory

/-- Removes a file. -/
def removeFile (t : FileTree) (p : FsPath) : Except OsError FileTree := do
  match ← t.stat p with
  | .file _ => pure ⟨t.nodes.erase p⟩
  | .dir => throw .isADirectory

/-- Removes an empty directory. -/
def removeDir (t : FileTree) (p : FsPath) : Except OsError FileTree := do
  if p.isEmpty then throw .invalidArgument
  match ← t.stat p with
  | .file _ => throw .notADirectory
  | .dir =>
    if (t.children p).isEmpty then pure ⟨t.nodes.erase p⟩ else throw .notEmpty

/-- Removes a directory and everything below it. -/
def removeDirAll (t : FileTree) (p : FsPath) : Except OsError FileTree := do
  if p.isEmpty then throw .invalidArgument
  match ← t.stat p with
  | .file _ => throw .notADirectory
  | .dir => pure ⟨t.nodes.filter fun q _ => !p.isPrefixOf q⟩

/-- Moves a node and everything below it to another path, replacing a file or an empty
directory there. -/
def rename (t : FileTree) (src dst : FsPath) : Except OsError FileTree := do
  if src.isEmpty || dst.isEmpty then throw .invalidArgument
  t.checkParent src
  t.checkParent dst
  let some s := t.node? src | throw .notFound
  if src == dst then return t
  if isBelow src dst then throw .invalidArgument
  match s, t.node? dst with
  | .dir, some (.file _) => throw .notADirectory
  | .file _, some .dir => throw .isADirectory
  | .dir, some .dir => if !(t.children dst).isEmpty then throw .notEmpty
  | _, _ => pure ()
  let kept := t.nodes.filter fun q _ => !src.isPrefixOf q && q != dst
  let moved := (t.nodes.toList.filter fun (q, _) => src.isPrefixOf q).map fun (q, n) =>
    (dst ++ q.drop src.length, n)
  pure ⟨kept.insertMany moved⟩

/-- Every entry below the root as text, directories ending in a slash, in order. -/
def listing (t : FileTree) : List String :=
  (t.nodes.toList.map fun (p, n) =>
    "/".intercalate p ++ (match n with | .dir => "/" | .file _ => "")).mergeSort
    (fun a b => decide (a ≤ b))

end FileTree

end GitServer
