import GitServer.Bytes

/-!
# SHA-1

Git names every object by the SHA-1 digest of its encoding (FIPS 180-4). The message is
padded to whole 64-byte blocks: a one bit, zeros, and the bit length as a 64-bit big-endian
number. Each block goes through eighty rounds over five 32-bit words, whose last state is the
20-byte digest. `length_digest` says the digest always has twenty bytes.
-/

namespace GitServer.Sha1

/-- The five working words. -/
structure State where
  a : UInt32
  b : UInt32
  c : UInt32
  d : UInt32
  e : UInt32

/-- The starting words fixed by the standard. -/
def State.initial : State :=
  ⟨0x67452301, 0xEFCDAB89, 0x98BADCFE, 0x10325476, 0xC3D2E1F0⟩

/-- Left rotation of a word. -/
def rotl (x : UInt32) (k : UInt32) : UInt32 := (x <<< k) ||| (x >>> (32 - k))

/-- A big-endian word from four bytes. -/
def word (b0 b1 b2 b3 : UInt8) : UInt32 :=
  (b0.toUInt32 <<< 24) ||| (b1.toUInt32 <<< 16) ||| (b2.toUInt32 <<< 8) ||| b3.toUInt32

/-- The sixteen words of the block at `offset`, read big-endian. -/
def blockWords (msg : Array UInt8) (offset : Nat) : Array UInt32 :=
  (List.range 16).foldl (fun (acc : Array UInt32) j =>
    let i := offset + 4 * j
    acc.push (word (msg.getD i 0) (msg.getD (i + 1) 0) (msg.getD (i + 2) 0) (msg.getD (i + 3) 0)))
    (Array.mkEmpty 80)

/-- The eighty-word message schedule: each new word is the rotated exclusive-or of four
earlier ones. -/
def schedule (w : Array UInt32) : Array UInt32 :=
  (List.range 64).foldl (fun (acc : Array UInt32) t =>
    let i := t + 16
    acc.push (rotl (acc.getD (i - 3) 0 ^^^ acc.getD (i - 8) 0 ^^^ acc.getD (i - 14) 0 ^^^
      acc.getD (i - 16) 0) 1)) w

/-- The round function and constant of round `t`. -/
def roundMix (t : Nat) (b c d : UInt32) : UInt32 × UInt32 :=
  if t < 20 then ((b &&& c) ||| (~~~b &&& d), 0x5A827999)
  else if t < 40 then (b ^^^ c ^^^ d, 0x6ED9EBA1)
  else if t < 60 then ((b &&& c) ||| (b &&& d) ||| (c &&& d), 0x8F1BBCDC)
  else (b ^^^ c ^^^ d, 0xCA62C1D6)

/-- One round. -/
def round (s : State) (t : Nat) (w : UInt32) : State :=
  let (f, k) := roundMix t s.b s.c s.d
  let temp := rotl s.a 5 + f + s.e + k + w
  ⟨temp, s.a, rotl s.b 30, s.c, s.d⟩

/-- Runs the eighty rounds over the block at `offset` and adds the result to the state. -/
def compress (s : State) (msg : Array UInt8) (offset : Nat) : State :=
  let w := schedule (blockWords msg offset)
  let r := (List.range 80).foldl (fun acc t => round acc t (w.getD t 0)) s
  ⟨s.a + r.a, s.b + r.b, s.c + r.c, s.d + r.d, s.e + r.e⟩

/-- The message with its padding: a whole number of 64-byte blocks. -/
def pad (msg : Bytes) : Bytes :=
  let zeros := (119 - msg.length % 64) % 64
  msg ++ [0x80] ++ List.replicate zeros 0 ++ Bytes.ofNatBE 8 (8 * msg.length)

/-- Compresses the whole blocks from `offset` on. -/
def absorb (s : State) (msg : Array UInt8) (offset : Nat) : State :=
  if offset + 64 ≤ msg.size then absorb (compress s msg offset) msg (offset + 64) else s
termination_by msg.size - offset

/-- The four bytes of a word, big-endian. -/
def wordBytes (x : UInt32) : Bytes := Bytes.ofNatBE 4 x.toNat

/-- The SHA-1 digest of a message. -/
def digest (msg : Bytes) : Bytes :=
  let s := absorb State.initial (pad msg).toArray 0
  wordBytes s.a ++ wordBytes s.b ++ wordBytes s.c ++ wordBytes s.d ++ wordBytes s.e

theorem length_digest (msg : Bytes) : (digest msg).length = 20 := by
  simp [digest, wordBytes]

end GitServer.Sha1
