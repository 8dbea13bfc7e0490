import GitServer.Object.Kind

/-!
# A bounded cache of decoded objects

Local storage keeps the objects it has decoded in a least-recently-used cache bounded by a
number of bytes. Each entry costs the room its key and its content take and a fixed overhead
for the entry itself. The content takes exactly its length; the key is built by appending the
repository name, a slash and the object id to an empty buffer that grows by doubling, so its
room can be up to twice its length. Reading an entry makes it the most recent; inserting one evicts the least recent
entries until the new one fits, and an entry larger than the whole cache is not kept.
-/

namespace GitServer

/-- A cached object: the repository it belongs to, its id, kind and content. -/
structure CacheEntry where
  repo : String
  id : String
  kind : ObjectKind
  data : Bytes
deriving DecidableEq, Repr

/-- The key of an object of a repository. -/
def CacheEntry.keyOf (repo id : String) : String := repo ++ "/" ++ id

/-- The key an entry is found by. -/
def CacheEntry.key (e : CacheEntry) : String := CacheEntry.keyOf e.repo e.id

/-- An entry as the cache holds it, with its cost, counted once when it goes in. -/
structure CacheSlot where
  entry : CacheEntry
  cost : Nat
deriving DecidableEq, Repr

/-- The cache: its bound in bytes and its entries, most recently used first. -/
structure ObjectCache where
  limit : Nat
  slots : List CacheSlot
deriving Repr

namespace ObjectCache

/-- The bookkeeping an entry costs beyond its key and content. -/
def entryOverhead : Nat := 80

/-- The room of a buffer holding `len` bytes in room for `cap` once `add` more are appended:
the same room when they fit, else twice the room or the new length, whichever is more, and
never less than eight bytes. -/
def grownRoom (cap len add : Nat) : Nat :=
  if len + add ≤ cap then cap else max (max (2 * cap) (len + add)) 8

/-- The room of a buffer that starts empty and has pieces of the given lengths appended in
turn, with the length it ends with. -/
def roomAfter (pieces : List Nat) : Nat × Nat :=
  pieces.foldl (fun (cap, len) add => (grownRoom cap len add, len + add)) (0, 0)

/-- The room the key of an object of a repository takes. -/
def keyRoom (repo id : String) : Nat := (roomAfter [repo.utf8ByteSize, 1, id.utf8ByteSize]).1

/-- What an entry costs. -/
def cost (e : CacheEntry) : Nat := keyRoom e.repo e.id + e.data.length + entryOverhead

/-- An empty cache. -/
def empty (limit : Nat) : ObjectCache := ⟨limit, []⟩

/-- The entries, most recently used first. -/
def entries (c : ObjectCache) : List CacheEntry := c.slots.map (·.entry)

/-- The longest run of slots from the front whose costs fit in the budget. -/
def fitting : Nat → List CacheSlot → List CacheSlot
  | _, [] => []
  | budget, s :: ss => if s.cost ≤ budget then s :: fitting (budget - s.cost) ss else []

/-- Looks an entry up, making it the most recent. -/
def lookup (c : ObjectCache) (key : String) : Option CacheEntry × ObjectCache :=
  match c.slots.find? (·.entry.key == key) with
  | some s => (some s.entry, { c with slots := s :: c.slots.filter (·.entry.key != key) })
  | none => (none, c)

/-- Inserts an entry as the most recent, evicting the least recent ones it needs room from.
An entry that does not fit at all leaves the cache as it was. -/
def insert (c : ObjectCache) (e : CacheEntry) : ObjectCache :=
  let size := cost e
  if size > c.limit then c
  else { c with slots := ⟨e, size⟩ :: fitting (c.limit - size) (c.slots.filter (·.entry.key != e.key)) }

/-- Drops an entry. -/
def remove (c : ObjectCache) (key : String) : ObjectCache :=
  { c with slots := c.slots.filter (·.entry.key != key) }

/-- Drops every entry. -/
def clear (c : ObjectCache) : ObjectCache := { c with slots := [] }

end ObjectCache

end GitServer
