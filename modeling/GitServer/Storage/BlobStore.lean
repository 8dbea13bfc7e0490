import GitServer.Bytes
import GitServer.Storage.Error

/-!
# A key-value blob store

Remote storage is a flat store of blobs under text keys, each blob with a small map of
metadata. Keys are kept in increasing order, so a listing walks them from a starting point:
the first key at or after a prefix, or the first key after a continuation token.

A listing may roll keys up by a delimiter: a key that holds the delimiter after the prefix is
reported once, as its common prefix up to and including the delimiter. A page holds at most
`pageSize` keys and common prefixes together; a full page names the last item it returned
as the token for the next one. When the token is itself a common prefix, the keys inside it
sort after it and are skipped, so a group is never reported twice.
-/

namespace GitServer

/-- A stored blob: its bytes and its metadata, a map from names to values sorted by name. -/
structure StoredBlob where
  data : Bytes
  metadata : List (String × String)
deriving DecidableEq, Repr

/-- One page of a listing. -/
structure ListPage where
  keys : List String
  commonPrefixes : List String
  /-- The token for the next page, when this one is full. -/
  next : Option String
deriving DecidableEq, Repr

/-- A blob store: its entries in increasing key order, and the size of a listing page. -/
structure BlobStore where
  entries : List (String × StoredBlob)
  pageSize : Nat
deriving Repr

namespace BlobStore

/-- The most keys one batched delete may carry. -/
def deleteBatch : Nat := 1000

/-- An empty store; a page size of 0 is taken as 1. -/
def empty (pageSize : Nat) : BlobStore := ⟨[], max pageSize 1⟩

/-- Adds or replaces an entry, keeping keys in increasing order. -/
def insertSorted (key : String) (b : StoredBlob) :
    List (String × StoredBlob) → List (String × StoredBlob)
  | [] => [(key, b)]
  | (k, v) :: rest =>
    if key < k then (key, b) :: (k, v) :: rest
    else if key = k then (key, b) :: rest
    else (k, v) :: insertSorted key b rest

/-- A metadata map with its names in increasing order; a later value of a name wins. -/
def sortMetadata (m : List (String × String)) : List (String × String) :=
  (m.foldl (fun acc (n, v) => (acc.filter (·.1 != n)) ++ [(n, v)]) []).mergeSort
    (fun a b => decide (a.1 ≤ b.1))

/-- Stores a blob under a key, replacing what was there. -/
def put (s : BlobStore) (key : String) (data : Bytes) (metadata : List (String × String)) :
    BlobStore :=
  { s with entries := insertSorted key ⟨data, sortMetadata metadata⟩ s.entries }

/-- The blob under a key. -/
def get (s : BlobStore) (key : String) : Option StoredBlob :=
  (s.entries.find? (·.1 == key)).map (·.2)

/-- The metadata of the blob under a key, without its body. -/
def head (s : BlobStore) (key : String) : Option (List (String × String)) :=
  (s.get key).map (·.metadata)

/-- Whether a key is present. -/
def contains (s : BlobStore) (key : String) : Bool := (s.get key).isSome

/-- Removes a key; removing an absent key does nothing. -/
def delete (s : BlobStore) (key : String) : BlobStore :=
  { s with entries := s.entries.filter (·.1 != key) }

/-- Removes up to `deleteBatch` keys in one request; a larger batch is refused whole. -/
def deleteMany (s : BlobStore) (keys : List String) : Except StorageError BlobStore :=
  if keys.length > deleteBatch then
    .error (.invalidRequest s!"batch delete of {keys.length} keys exceeds {deleteBatch}")
  else .ok { s with entries := s.entries.filter fun e => !keys.contains e.1 }

/-- Every key, in order. -/
def keys (s : BlobStore) : List String := s.entries.map (·.1)

/-- The number of entries. -/
def size (s : BlobStore) : Nat := s.entries.length

/-- Where a pattern first occurs in a text, as a count of characters; the empty pattern
occurs at 0. -/
def firstMatch? (pat : List Char) : List Char → Option Nat
  | [] => if pat.isEmpty then some 0 else none
  | c :: cs => if pat.isPrefixOf (c :: cs) then some 0 else (firstMatch? pat cs).map (· + 1)

/-- The group a key rolls up into: the key up to and including the first delimiter after the
prefix. -/
def group? (pfx : String) (delimiter : Option String) (key : String) : Option String :=
  delimiter.bind fun d =>
    let rest := key.toList.drop pfx.length
    (firstMatch? d.toList rest).map fun pos =>
      String.ofList (pfx.toList ++ rest.take (pos + d.length))

/-- Whether a key lies inside the group a continuation token names. -/
def insideToken (continuation delimiter : Option String) (key : String) : Bool :=
  match continuation with
  | some t => t.endsWith (delimiter.getD "") && key.startsWith t
  | none => false

/-- Fills a page from the candidate keys, in order. The accumulators hold the keys and the
common prefixes returned so far, latest first, and the last item returned. -/
def fill (pageSize : Nat) (pfx : String) (delimiter continuation : Option String) :
    List String → List String → List String → Option String → ListPage
  | [], ks, ps, _ => ⟨ks.reverse, ps.reverse, none⟩
  | key :: rest, ks, ps, last =>
    match group? pfx delimiter key with
    | some g =>
      if last = some g ∨ insideToken continuation delimiter key then
        fill pageSize pfx delimiter continuation rest ks ps last
      else if ks.length + ps.length = pageSize then ⟨ks.reverse, ps.reverse, last⟩
      else fill pageSize pfx delimiter continuation rest ks (g :: ps) (some g)
    | none =>
      if ks.length + ps.length = pageSize then ⟨ks.reverse, ps.reverse, last⟩
      else fill pageSize pfx delimiter continuation rest (key :: ks) ps (some key)

/-- The keys a listing starts from: those after the token, or those at or after the prefix,
as long as they carry the prefix. -/
def candidates (s : BlobStore) (pfx : String) (continuation : Option String) : List String :=
  let start := match continuation with
    | some t => s.keys.dropWhile (fun k => decide (k ≤ t))
    | none => s.keys.dropWhile (fun k => decide (k < pfx))
  start.takeWhile (·.startsWith pfx)

/-- One page of the keys under a prefix. -/
def listPage (s : BlobStore) (pfx : String) (delimiter continuation : Option String) :
    ListPage :=
  fill s.pageSize pfx delimiter continuation (s.candidates pfx continuation) [] [] none

/-- Follows continuation tokens for at most `fuel` pages, collecting the keys. -/
def collectPages (s : BlobStore) (pfx : String) : Nat → Option String → List String
  | 0, _ => []
  | fuel + 1, continuation =>
    let page := s.listPage pfx none continuation
    match page.next with
    | some t => page.keys ++ collectPages s pfx fuel (some t)
    | none => page.keys

/-- Every key under a prefix, page after page. Each full page returns at least one key, so
one page per entry and a last one suffice. -/
def listAll (s : BlobStore) (pfx : String) : List String :=
  s.collectPages pfx (s.entries.length + 1) none

/-- Cuts a list into batches of at most `n` (at least one) elements. -/
def batches (n : Nat) (xs : List String) : List (List String) :=
  if xs.isEmpty then []
  else xs.take (max n 1) :: batches n (xs.drop (max n 1))
termination_by xs.length
decreasing_by
  have : 0 < xs.length := by
    cases xs with
    | nil => simp at *
    | cons _ _ => simp
  simp only [List.length_drop]
  omega

/-- Deletes keys in batches of at most `deleteBatch`. -/
def deleteAll (s : BlobStore) (keys : List String) : Except StorageError BlobStore :=
  (batches deleteBatch keys).foldlM deleteMany s

end BlobStore

end GitServer
