import GitServer.Digest.Sha1

/-!
# SHA-1 over a stream

A digest can be taken of bytes that arrive in pieces. A hasher keeps the state after the whole
blocks it has compressed, the bytes of the block being filled, and how many bytes it took in
all. Each piece completes as many blocks as it can, and every complete block is compressed at
once; the last, partial block is padded only when the digest is asked for.
-/

namespace GitServer.Sha1

/-- Compresses the whole blocks at the front of a byte string; the answer is the state after
them and the bytes left over, fewer than a block. -/
def absorbBlocks (s : State) (bs : Bytes) : State × Bytes :=
  if 64 ≤ bs.length then absorbBlocks (compress s (bs.take 64).toArray 0) (bs.drop 64)
  else (s, bs)
termination_by bs.length

/-- What follows `length` bytes of a message to fill its last block: a one bit, zeros, and the
bit length as a 64-bit big-endian number. -/
def padding (length : Nat) : Bytes :=
  [0x80] ++ List.replicate ((119 - length % 64) % 64) 0 ++ Bytes.ofNatBE 8 (8 * length)

/-- The twenty bytes of the five words of a state. -/
def State.bytes (s : State) : Bytes :=
  wordBytes s.a ++ wordBytes s.b ++ wordBytes s.c ++ wordBytes s.d ++ wordBytes s.e

/-- A digest under way. -/
structure Hasher where
  /-- The state after the whole blocks taken so far. -/
  state : State
  /-- The bytes of the block being filled. -/
  pending : Bytes
  /-- How many bytes were taken in all. -/
  length : Nat

namespace Hasher

/-- A hasher that has taken nothing. -/
def init : Hasher := ⟨State.initial, [], 0⟩

/-- Takes more bytes, compressing every block they complete. -/
def update (h : Hasher) (data : Bytes) : Hasher :=
  let (s, rest) := absorbBlocks h.state (h.pending ++ data)
  ⟨s, rest, h.length + data.length⟩

/-- The digest of everything taken: the pending bytes padded and compressed. -/
def finalize (h : Hasher) : Bytes :=
  (absorbBlocks h.state (h.pending ++ padding h.length)).1.bytes

end Hasher

end GitServer.Sha1
