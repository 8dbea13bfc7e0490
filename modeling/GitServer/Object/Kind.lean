import GitServer.ObjectId

/-!
# Object kinds

Git stores four kinds of objects: commits, trees, blobs and annotated tags. A pack also holds
two kinds of delta entries, which rebuild an object from a base found by offset or by id. Each
kind has a name and a three-bit number in pack entry headers (1, 2, 3, 4, 6, 7).

An object's id is the digest of its header, `"<kind> <size>\0"`, followed by its content.
-/

namespace GitServer

/-- The kind of an object or pack entry. -/
inductive ObjectKind where
  | commit
  | tree
  | blob
  | tag
  /-- A delta whose base is an earlier entry of the same pack, found by offset. -/
  | ofsDelta
  /-- A delta whose base is named by its id. -/
  | refDelta
deriving DecidableEq, Repr

namespace ObjectKind

/-- Every kind, in the order of their pack numbers. -/
def all : List ObjectKind := [.commit, .tree, .blob, .tag, .ofsDelta, .refDelta]

/-- The name of a kind. -/
def name : ObjectKind → String
  | .commit => "commit"
  | .tree => "tree"
  | .blob => "blob"
  | .tag => "tag"
  | .ofsDelta => "ofs-delta"
  | .refDelta => "ref-delta"

/-- The number of a kind in pack entry headers. -/
def packNumber : ObjectKind → Nat
  | .commit => 1
  | .tree => 2
  | .blob => 3
  | .tag => 4
  | .ofsDelta => 6
  | .refDelta => 7

/-- Whether the kind is a whole object rather than a delta. -/
def isBase : ObjectKind → Bool
  | .ofsDelta | .refDelta => false
  | _ => true

/-- The kind with this pack number. -/
def ofPackNumber? (n : Nat) : Option ObjectKind := all.find? (·.packNumber == n)

/-- The object kind with this name; delta kinds have no name of their own here. -/
def ofName? (s : String) : Option ObjectKind :=
  [ObjectKind.blob, .tree, .commit, .tag].find? (·.name == s)

/-- The header in front of an object's content when it is hashed or stored loose. -/
def header (k : ObjectKind) (size : Nat) : Bytes :=
  Bytes.ofString (k.name ++ " " ++ toString size) ++ [0]

theorem ofPackNumber?_packNumber (k : ObjectKind) : ofPackNumber? k.packNumber = some k := by
  cases k <;> rfl

theorem ofName?_name (k : ObjectKind) (h : k.isBase) : ofName? k.name = some k := by
  cases k <;> simp_all [isBase] <;> decide

end ObjectKind

/-- The id of an object of kind `k` with this content. -/
def ObjectId.ofObject (k : ObjectKind) (content : Bytes) : ObjectId :=
  ObjectId.digest (k.header content.length ++ content)

end GitServer
