/-!
# Canonical Huffman codes

A DEFLATE block codes its symbols with canonical Huffman codes (RFC 1951, 3.2.2): only the
code length of each symbol is sent, and codes of one length are consecutive numbers, in the
order of their symbols. `Huffman.ofLengths` builds the decoding tables from the lengths, and
`Huffman.decode` reads one symbol, most significant code bit first.

A set of lengths is usable when it is not over-subscribed and leaves no bit string without a
code, except that a code may be empty, and a literal or distance code may consist of a
single one-bit code. A bit string that starts no code is noticed after its first bit, since
only those two kinds of code leave any bit string unused.
-/

namespace GitServer.Deflate

/-- Which table of a block a code is for; they differ in what counts as usable. -/
inductive TableKind where
  /-- The code that codes the code lengths of a dynamic block. -/
  | codeLengths
  /-- Literals, lengths and the end of the block. -/
  | literals
  /-- Distances of copies. -/
  | distances
deriving DecidableEq

/-- Decoding tables of a canonical code. -/
structure Huffman where
  /-- How many codes have each length, from 0 to 15. -/
  counts : Array Nat
  /-- The symbols in code order: by length, then by symbol. -/
  symbols : Array Nat
  /-- Whether every bit string starts a code, that is `unusedSpace counts = 0`; kept so that
  decoding does not recount it for every bit. -/
  complete : Bool
deriving Inhabited

/-- The unused part of the code space left by these counts of codes of each length, in units
of the longest length: negative when the lengths are over-subscribed, zero when every bit
string starts a code. -/
def unusedSpace (counts : Array Nat) : Int :=
  ((List.range 15).map (· + 1)).foldl (fun left l => 2 * left - (counts.getD l 0 : Int)) 1

namespace Huffman

/-- The tables for the given code length of each symbol (0: the symbol has no code). -/
def ofLengths (lens : List Nat) : Huffman :=
  let counts := ((List.range 16).map fun l => if l = 0 then 0 else lens.count l).toArray
  let symbols := ((List.range 15).map (· + 1)).flatMap fun l =>
    ((lens.zipIdx).filter (·.1 == l)).map (·.2)
  ⟨counts, symbols.toArray, unusedSpace counts == 0⟩

/-- The number of codes of length `l`. -/
def count (h : Huffman) (l : Nat) : Nat := h.counts.getD l 0

/-- The unused part of the code space, in units of the longest length. -/
def unused (h : Huffman) : Int := unusedSpace h.counts

/-- The longest code length, or 0 when there is no code. -/
def maxLength (h : Huffman) : Nat :=
  ((List.range 16).filter fun l => h.count l ≠ 0).foldl max 0

/-- Whether the tables may be used for a table of this kind. -/
def usable (h : Huffman) (kind : TableKind) : Bool :=
  h.unused ≥ 0 &&
    (h.unused == 0 || h.maxLength == 0 || (kind != .codeLengths && h.maxLength == 1))

/-- Reads a symbol from the bits of `bits`, first bit least significant, of which `left` are
there to read. `none` when the code needs a bit beyond them; `some (none, n)` when the first
`n` bits start no code; `some (some s, n)` when they are the code of `s`. -/
def decode (h : Huffman) (bits left : Nat) : Option (Option Nat × Nat) :=
  go 1 0 0 0
where
  /-- Reads the bit that makes a code of length `len`; `code` holds the bits so far, and
  `first` and `index` are the first code and first symbol position of this length. -/
  go (len code first index : Nat) : Option (Option Nat × Nat) :=
    if len > 15 then some (none, 15)
    else if left < len then none
    else
      let code := code + (bits >>> (len - 1)) % 2
      let n := h.count len
      if code < first + n then some (some (h.symbols.getD (index + (code - first)) 0), len)
      else if !h.complete then some (none, len)
      else go (len + 1) (2 * code) (2 * (first + n)) (index + n)
  termination_by 16 - len

end Huffman

end GitServer.Deflate
