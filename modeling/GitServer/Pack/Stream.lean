import GitServer.Pack.Encode
import GitServer.Digest.Hasher

/-!
# Streaming a pack

A pack can be written into a channel as its entries arrive: the header first, announcing a
count, then each entry as it comes, and last the SHA-1 of every chunk sent before it, which the
encoder keeps running as it sends them. The encoder holds the entries to the count it
announced: one entry more than announced, or fewer when the entries run out, stops it with an
error before the trailer, and so does an entry it cannot write. So does a receiver that is gone
when a chunk is sent.
-/

namespace GitServer.Pack

/-- A streaming encoder: the count it announced, whether the receiver is still there when the
chunk with a given index is sent, the entries written, the digest running over the chunks
sent, and the chunks the receiver took. -/
structure Encoder where
  announced : Nat
  receiver : Nat → Bool
  written : Nat := 0
  running : Sha1.Hasher := .init
  sent : List Bytes := []

/-- Encoder steps that may fail; what was sent before a failure stays sent. -/
abbrev EncodeM := ExceptT CodecError (StateM Encoder)

namespace Encoder

/-- Runs a step of the codecs in the encoder. -/
def check {α} : Except CodecError α → EncodeM α
  | .ok a => pure a
  | .error e => throw e

/-- Hands a chunk to the receiver, failing when it is gone. -/
def deliver (data : Bytes) : EncodeM Unit := do
  let e ← get
  if e.receiver e.sent.length then set { e with sent := e.sent ++ [data] }
  else throw (.packEncode "pack receiver dropped")

/-- Sends a chunk of the pack, taking it into the running digest first. -/
def send (data : Bytes) : EncodeM Unit := do
  modify fun e => { e with running := e.running.update data }
  deliver data

/-- Writes the entries in the order they arrive, refusing one more than announced. -/
def writeEntries : List GitObject → EncodeM Unit
  | [] => pure ()
  | o :: rest => do
    if (← get).written = (← get).announced then
      throw (.packEncode "more entries than announced")
    send (← check (encodeEntry o))
    modify fun e => { e with written := e.written + 1 }
    writeEntries rest

/-- Checks that every announced entry was written and sends the trailer, the digest of every
chunk sent before it; the answer is the trailer as an id. -/
def finish : EncodeM ObjectId := do
  let e ← get
  if e.written ≠ e.announced then
    throw (.packEncode s!"announced {e.announced} entries, wrote {e.written}")
  let trailer ← match ObjectId.ofBytes? e.running.finalize with
    | .ok id => pure id
    | .error err => throw (.invalidHash err.message)
  deliver trailer.bytes
  pure trailer

/-- Streams the header, the entries and the trailer; the answer is the trailer as an id. -/
def encode (entries : List GitObject) : EncodeM ObjectId := do
  send (← check (Header.encode (← get).announced))
  writeEntries entries
  finish

end Encoder

/-- Streams a pack announcing `count` entries of the entries a channel delivers, to a receiver
that is there for the chunks `receiver` accepts: how the encoder ends, and the chunks sent. -/
def streamPack (count : Nat) (receiver : Nat → Bool) (entries : List GitObject) :
    Except CodecError ObjectId × List Bytes :=
  let (r, e) := ((Encoder.encode entries).run.run { announced := count, receiver := receiver })
  (r, e.sent)

end GitServer.Pack
