import GitServer.Pack.RawEntry
import GitServer.Pack.Delta
import GitServer.Object.GitObject

/-!
# Decoded packs

Decoding a pack checks its header and its SHA-1 trailer, reads every entry, keeps the whole
objects in pack order, and then resolves deltas: a delta whose base is known (an entry at the
base offset, an entry with the base id, or a base supplied from outside the pack) becomes the
object that the delta rebuilds, of its base's kind, one link longer in chain. Resolution goes
in rounds over the waiting deltas in pack order, each resolved object usable at once by the
deltas after it, until a round resolves nothing. Deltas whose base never appears keep waiting:
a thin pack names bases that the receiver already has, and they may be supplied later
(`supplyExternal`). A supply changes the pack in place, also when resolution fails: the round
that failed had taken the whole waiting list, and what it had not put back is gone.
-/

namespace GitServer.Pack

/-- Where a delta's base is to be found. -/
inductive BaseRef where
  /-- The entry that starts at this offset. -/
  | offset (at_ : Nat)
  /-- The object with this id. -/
  | id (base : ObjectId)
deriving DecidableEq

/-- How an error names a base: by its id, or by the offset of its entry. -/
def BaseRef.label : BaseRef → String
  | .id base => base.toHex
  | .offset at_ => s!"offset {at_}"

/-- A delta waiting for its base. -/
structure PendingDelta where
  offset : Nat
  base : BaseRef
  delta : Bytes
deriving DecidableEq

/-- An object of a pack, with the offset of its entry and the number of deltas it went
through. -/
structure PackEntry where
  offset : Nat
  object : GitObject
  chain : Nat
deriving DecidableEq

/-- A decoded pack: its entry count, its trailer, the objects resolved so far, the bases
supplied from outside, and the deltas still waiting. -/
structure Decoded where
  count : Nat
  signature : ObjectId
  entries : Array PackEntry
  external : List GitObject
  pending : List PendingDelta
deriving DecidableEq

namespace Decoded

/-- The object a base reference names: at an offset, the entry there; by id, the latest
entry with that id, else the latest base supplied from outside with it. -/
def lookup (p : Decoded) : BaseRef → Option (GitObject × Nat)
  | .offset at_ => (p.entries.findRev? (·.offset == at_)).map fun e => (e.object, e.chain)
  | .id base =>
    match p.entries.findRev? (·.object.id == base) with
    | some e => some (e.object, e.chain)
    | none => (p.external.find? (·.id == base)).map fun o => (o, 0)

/-- One waiting delta looked at in a round: if its base is known it is applied and becomes an
entry at once, else it waits again. The flag records whether anything was resolved. -/
def tryResolve (acc : Decoded × Bool) (d : PendingDelta) : Except CodecError (Decoded × Bool) :=
  let q := acc.1
  match q.lookup d.base with
  | none => .ok ({ q with pending := q.pending ++ [d] }, acc.2)
  | some (base, chain) =>
    match Delta.apply base.data d.delta with
    | .error e => .error e.toCodec
    | .ok data =>
      let e : PackEntry := ⟨d.offset, GitObject.ofContent base.kind data, chain + 1⟩
      .ok ({ q with entries := q.entries.push e }, true)

/-- One round over the waiting deltas, in order. Reports whether any was resolved. -/
def round (p : Decoded) : Except CodecError (Decoded × Bool) :=
  p.pending.foldlM tryResolve ({ p with pending := [] }, false)

/-- Runs rounds until one resolves nothing or nothing waits; each productive round resolves
at least one delta, so one round more than there are deltas is enough. -/
def resolve : Nat → Decoded → Except CodecError Decoded
  | 0, p => .ok p
  | n + 1, p => do
    let (q, progressed) ← round p
    if !progressed || q.pending.isEmpty then return q
    resolve n q

/-- Resolves all the deltas that can be resolved. -/
def settle (p : Decoded) : Except CodecError Decoded := resolve (p.pending.length + 1) p

/-- `tryResolve`, giving on failure the pack as it stood when the failing delta was met. -/
def tryResolveKeeping (acc : Decoded × Bool) (d : PendingDelta) :
    Except (CodecError × Decoded) (Decoded × Bool) :=
  (tryResolve acc d).mapError fun e => (e, acc.1)

/-- A round that, when a delta fails to apply, also gives the pack it leaves. The round takes
the whole waiting list when it starts, so in that pack the deltas before the failing one are
resolved or wait again, while the failing delta and every delta after it wait no more. -/
def roundKeeping (p : Decoded) : Except (CodecError × Decoded) (Decoded × Bool) :=
  p.pending.foldlM tryResolveKeeping ({ p with pending := [] }, false)

/-- `resolve`, giving on failure the pack that the failing round left. -/
def resolveKeeping : Nat → Decoded → Except (CodecError × Decoded) Decoded
  | 0, p => .ok p
  | n + 1, p => do
    let (q, progressed) ← roundKeeping p
    if !progressed || q.pending.isEmpty then return q
    resolveKeeping n q

/-- Supplies a base from outside the pack and resolves what it unblocks, changing the pack in
place: the answer says whether resolution failed, and the pack after the call is, on failure,
the one the failing round left. -/
def supplyExternal (p : Decoded) (base : GitObject) : Except CodecError Unit × Decoded :=
  let p := { p with external := base :: p.external.filter (·.id != base.id) }
  match resolveKeeping (p.pending.length + 1) p with
  | .ok q => (.ok (), q)
  | .error (e, q) => (.error e, q)

/-- Supplies a base from outside the pack, for a caller that gives the pack up when resolution
fails. -/
def addExternal (p : Decoded) (base : GitObject) : Except CodecError Decoded :=
  match p.supplyExternal base with
  | (.ok (), q) => .ok q
  | (.error e, _) => .error e

/-- Whether no delta waits. -/
def isComplete (p : Decoded) : Bool := p.pending.isEmpty

/-- Fails, naming the base of the first waiting delta, unless no delta waits. -/
def ensureComplete (p : Decoded) : Except CodecError Unit :=
  match p.pending with
  | [] => .ok ()
  | d :: _ => .error (.missingDeltaBase d.base.label)

/-- Inserts an id into an ascending list without duplicates. -/
def insertId (id : ObjectId) : List ObjectId → List ObjectId
  | [] => [id]
  | x :: xs =>
    match Bytes.compare id.bytes x.bytes with
    | .lt => id :: x :: xs
    | .eq => x :: xs
    | .gt => x :: insertId id xs

/-- Adds the id that a waiting delta names to the ascending list `acc`, unless some entry or
outside base has it. -/
def noteMissing (p : Decoded) (acc : List ObjectId) (d : PendingDelta) : List ObjectId :=
  match d.base with
  | .id base => if (p.lookup d.base).isSome then acc else insertId base acc
  | .offset _ => acc

/-- The ids of bases that waiting deltas name and nobody has supplied, ascending. -/
def missingBases (p : Decoded) : List ObjectId := p.pending.foldl p.noteMissing []

/-- Reads `n` entries from `offset` on, sorting them into objects and waiting deltas. -/
def readEntries (body : Array UInt8) : Nat → Nat → Decoded → Except CodecError (Decoded × Nat)
  | 0, offset, p => .ok (p, offset)
  | n + 1, offset, p => do
    let some raw ← RawEntry.read body offset
      | throw (.invalidPack s!"truncated entry at offset {offset}")
    let p := match raw.kind with
      | .base kind =>
        let e : PackEntry := ⟨offset, GitObject.ofContent kind raw.data, 0⟩
        { p with entries := p.entries.push e }
      | .ofsDelta at_ => { p with pending := p.pending ++ [⟨offset, .offset at_, raw.data⟩] }
      | .refDelta base => { p with pending := p.pending ++ [⟨offset, .id base, raw.data⟩] }
    readEntries body n raw.next p

end Decoded

/-- Reads a pack without resolving its deltas: checks the header and the trailer, keeps the
whole objects in pack order and the deltas waiting in pack order. -/
def read (data : Bytes) : Except CodecError Decoded := do
  let header ← Header.parse data
  if data.length < headerLength + idLength then throw (.invalidPack "missing trailer")
  let bodyEnd := data.length - idLength
  let body := data.take bodyEnd
  let trailer := data.drop bodyEnd
  if Sha1.digest body ≠ trailer then throw (.invalidPack "trailer checksum mismatch")
  let signature ← (ObjectId.ofBytes? trailer).mapError fun e => CodecError.invalidHash e.message
  let start : Decoded := ⟨header.count, signature, #[], [], []⟩
  let (p, offset) ← Decoded.readEntries body.toArray header.count headerLength start
  if offset ≠ bodyEnd then
    throw (.invalidPack s!"{bodyEnd - offset} unexpected bytes before trailer")
  pure p

/-- Decodes a pack: reads it and resolves every delta that can be resolved. -/
def decode (data : Bytes) : Except CodecError Decoded := do
  (← read data).settle

end GitServer.Pack
