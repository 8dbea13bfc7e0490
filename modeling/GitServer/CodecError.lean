/-!
# Errors of the object and pack codecs

Reading or producing raw Git data (object bodies, packs, deltas, compressed streams) fails
for one of a fixed set of causes. Each cause carries the detail that its message shows; the
wording of every message is in `CodecError.message`.
-/

namespace GitServer

/-- Why raw Git data could not be read or written. -/
inductive CodecError where
  /-- A kind name or number that names no object kind. -/
  | invalidObjectType (detail : String)
  /-- A tree body that does not split into entries. -/
  | invalidTree (detail : String)
  /-- A tree entry with a mode that Git does not know. -/
  | invalidTreeItem (detail : String)
  /-- An author, committer or tagger line that does not parse. -/
  | invalidSignature (detail : String)
  /-- A commit body that lacks or garbles a header. -/
  | invalidCommit (detail : String)
  /-- A tag body that lacks or garbles a header. -/
  | invalidTag (detail : String)
  /-- A pack that cannot be read. -/
  | invalidPack (detail : String)
  /-- A pack whose signature or version is wrong. -/
  | invalidPackHeader (detail : String)
  /-- A failure while reading or writing bytes, such as a broken compressed stream. -/
  | io (detail : String)
  /-- A text that should be an object id and is not. -/
  | invalidHash (detail : String)
  /-- A delta that cannot be applied to its base. -/
  | delta (detail : String)
  /-- A delta whose base is neither in the pack nor supplied. -/
  | missingDeltaBase (detail : String)
  /-- Entries that cannot be written as a pack. -/
  | packEncode (detail : String)
deriving DecidableEq, Repr

namespace CodecError

/-- The message of an error. -/
def message : CodecError → String
  | .invalidObjectType s => "The `" ++ s ++ "` is not a valid git object type."
  | .invalidTree s => "Not a valid git tree object: " ++ s
  | .invalidTreeItem s => "The `" ++ s ++ "` is not a valid git tree item."
  | .invalidSignature s => "The `" ++ s ++ "` is not a valid git signature."
  | .invalidCommit s => "Invalid Commit: " ++ s
  | .invalidTag s => "Not a valid git tag object: " ++ s
  | .invalidPack s => "The `" ++ s ++ "` is not a valid pack file."
  | .invalidPackHeader s => "The `" ++ s ++ "` is not a valid pack header."
  | .io s => "IO Error: " ++ s
  | .invalidHash s => "The " ++ s ++ " is not a valid Hash value "
  | .delta s => "Delta Object Error Info:" ++ s
  | .missingDeltaBase s => "Cannot find delta base object: " ++ s
  | .packEncode s => "Can't encode entries to pack: " ++ s

end CodecError

end GitServer
