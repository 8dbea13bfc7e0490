import GitServer.Pack.Header
import GitServer.Deflate.Zlib
import GitServer.Object.GitObject

/-!
# Writing packs

A pack written by the server holds whole objects only: the fixed header, then for each
object its entry header and its compressed content, then the SHA-1 of all of that.
-/

namespace GitServer.Pack

/-- The entry for one object; a delta cannot be written without its base. -/
def encodeEntry (o : GitObject) : Except CodecError Bytes :=
  if o.kind.isBase then
    .ok (entryHeader (UInt8.ofNat o.kind.packNumber) o.data.length ++ Zlib.compress o.data)
  else
    .error (.packEncode ("cannot encode " ++ o.kind.name ++ " entry " ++ o.id.toHex ++
      " without a base"))

/-- A pack of the objects, in the given order. -/
def encode (objects : List GitObject) : Except CodecError Bytes := do
  let header ← Header.encode objects.length
  let entries ← objects.mapM encodeEntry
  let body := header ++ entries.flatten
  pure (body ++ Sha1.digest body)

end GitServer.Pack
