import GitServer.CodecError
import GitServer.Object.Kind
import GitServer.Text.Utf8

/-!
# Trees

A tree lists the entries of a directory. Each entry is written as its octal mode, a blank,
its name, a NUL byte and the twenty bytes of the id it points to. Git keeps the entries
sorted by name, a subtree's name compared as if it ended in `/`; `ofEntries` sorts them so,
keeping entries of equal key in their given order.

Reading accepts the spellings of modes that old versions of Git wrote and writes the
canonical one back.
-/

namespace GitServer

/-- What a tree entry points to. -/
inductive EntryMode where
  /-- A file. -/
  | file
  /-- An executable file. -/
  | executable
  /-- A subdirectory. -/
  | tree
  /-- A symbolic link. -/
  | link
  /-- A commit of another repository (a submodule). -/
  | gitlink
deriving DecidableEq, Repr

namespace EntryMode

/-- The canonical octal spelling. -/
def octal : EntryMode → String
  | .file => "100644"
  | .executable => "100755"
  | .tree => "40000"
  | .link => "120000"
  | .gitlink => "160000"

/-- Reads a mode; group-writable and group-only files count as plain files, and a subtree may
have a leading zero. -/
def parse (bs : Bytes) : Except CodecError EntryMode :=
  let s := Utf8.decodeLossy bs
  if s = "100644" ∨ s = "100664" ∨ s = "100640" then .ok .file
  else if s = "100755" then .ok .executable
  else if s = "40000" ∨ s = "040000" then .ok .tree
  else if s = "120000" then .ok .link
  else if s = "160000" then .ok .gitlink
  else .error (.invalidTreeItem s)

/-- The kind of object an entry of this mode points to. -/
def kind : EntryMode → ObjectKind
  | .tree => .tree
  | .gitlink => .commit
  | _ => .blob

end EntryMode

/-- One entry of a tree. -/
structure TreeEntry where
  mode : EntryMode
  id : ObjectId
  name : String
deriving DecidableEq

namespace TreeEntry

/-- The bytes of an entry. -/
def encode (e : TreeEntry) : Bytes :=
  Bytes.ofString (e.mode.octal ++ " " ++ e.name) ++ [0] ++ e.id.bytes

/-- The key Git sorts entries by: the name, and a `/` after a subtree's name. -/
def sortKey (e : TreeEntry) : Bytes :=
  Bytes.ofString e.name ++ (if e.mode = .tree then [47] else [])

/-- The line that shows an entry. -/
def render (e : TreeEntry) : String := e.mode.octal ++ " " ++ e.id.toHex ++ " " ++ e.name

end TreeEntry

/-- A tree: its entries in stored order. -/
structure Tree where
  entries : List TreeEntry
deriving DecidableEq

namespace Tree

/-- The bytes of a tree. -/
def encode (t : Tree) : Bytes := t.entries.flatMap TreeEntry.encode

/-- A tree of the given entries in Git's order; entries with equal keys keep their order. -/
def ofEntries (es : List TreeEntry) : Tree :=
  ⟨es.mergeSort fun a b => Bytes.compare a.sortKey b.sortKey != .gt⟩

/-- The id of a tree. -/
def id (t : Tree) : ObjectId := ObjectId.ofObject .tree t.encode

/-- One line per entry. -/
def render (t : Tree) : String := String.join (t.entries.map fun e => e.render ++ "\n")

/-- Reads the entries of a tree body. -/
def parseEntries : Bytes → Except CodecError (List TreeEntry)
  | [] => .ok []
  | b :: bs => do
    let rest := b :: bs
    let some space := Bytes.indexOf? rest 32 | throw (.invalidTree "entry without mode")
    let mode ← EntryMode.parse (rest.take space)
    let some nul := Bytes.indexOf? (rest.drop space) 0 | throw (.invalidTree "entry without name")
    let nul := nul + space
    let name := Utf8.decodeLossy ((rest.drop (space + 1)).take (nul - space - 1))
    let idBytes := (rest.drop (nul + 1)).take 20
    if idBytes.length < 20 then throw (.invalidTree ("truncated entry `" ++ name ++ "`"))
    else
      let id ← (ObjectId.ofBytes? idBytes).mapError fun e => CodecError.invalidHash e.message
      let more ← parseEntries (rest.drop (nul + 21))
      pure (⟨mode, id, name⟩ :: more)
termination_by rest => rest.length
decreasing_by simp only [List.length_drop, List.length_cons]; omega

/-- Reads a tree body. -/
def parse (data : Bytes) : Except CodecError Tree := (parseEntries data).map Tree.mk

end Tree

end GitServer
