import GitServer.Pack.Header
import GitServer.Deflate.Zlib

/-!
# Entries as stored in a pack

An entry is its header, for a delta the reference to its base, and the compressed content.
`RawEntry.read` reads the entry at an offset of the pack bytes and says where the next one
starts. It answers `none` when the bytes end before the entry does, so that a reader of a
pack that is still arriving can wait for more.
-/

namespace GitServer.Pack

/-- What an entry holds. -/
inductive RawKind where
  /-- A whole object of this kind. -/
  | base (kind : ObjectKind)
  /-- A delta against the entry that starts at this offset. -/
  | ofsDelta (baseOffset : Nat)
  /-- A delta against the object with this id. -/
  | refDelta (base : ObjectId)

/-- An entry read from a pack: what it holds, its inflated content, and where the next entry
starts. -/
structure RawEntry where
  kind : RawKind
  data : Bytes
  next : Nat

/-- The length of an object id in a pack. -/
def idLength : Nat := 20

/-- How many bytes the header readers look at. An entry header is refused before its eleventh
byte and a base distance before its twelfth, so reading either from this many bytes is
reading it from the rest of the pack. -/
def headerWindow : Nat := 32

/-- At most `n` bytes of `data` from `pos` on. -/
def window (data : Array UInt8) (pos n : Nat) : Bytes := (data.extract pos (pos + n)).toList

/-- Reads what follows the header of an entry of this kind at `pos`: the reference to a
delta's base, and where the compressed content starts. -/
def readBaseRef (data : Array UInt8) (offset pos : Nat) :
    ObjectKind → Except CodecError (Option (RawKind × Nat))
  | .ofsDelta => do
    let some (distance, len) ← readBaseDistance (window data pos headerWindow) | return none
    if distance = 0 ∨ offset < distance then
      throw (.invalidPack s!"bad delta base offset at {offset}")
    return some (.ofsDelta (offset - distance), pos + len)
  | .refDelta =>
    let idBytes := window data pos idLength
    if h : idBytes.length = 20 then .ok (some (.refDelta ⟨idBytes, h⟩, pos + idLength))
    else .ok none
  | k => .ok (some (.base k, pos))

/-- Reads the entry at `offset` of `data`. -/
def RawEntry.read (data : Array UInt8) (offset : Nat) : Except CodecError (Option RawEntry) := do
  let some (typeId, size, headerLen) ← readEntryHeader (window data offset headerWindow)
    | return none
  let some kind := ObjectKind.ofPackNumber? typeId
    | throw (.invalidObjectType s!"Invalid pack object type number: {typeId}")
  let some (raw, pos) ← readBaseRef data offset (offset + headerLen) kind | return none
  match Zlib.readEntryAt data pos size with
  | .error e => throw (.io e.message)
  | .ok .needMore => return none
  | .ok (.complete content consumed) => return some ⟨raw, content, pos + consumed⟩

end GitServer.Pack
