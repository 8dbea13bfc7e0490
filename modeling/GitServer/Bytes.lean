/-!
# Byte strings

Everything the server reads or writes on a wire or a medium is a byte string. `Bytes` is a
plain list of octets, so that lengths, prefixes and concatenation keep their list lemmas.
This module holds the few operations that every codec needs: text to bytes, big-endian
numbers, the byte-wise order, and searching.
-/

namespace GitServer

/-- A byte string: the octets in order. -/
abbrev Bytes := List UInt8

namespace Bytes

/-- The UTF-8 encoding of a text. -/
def ofString (s : String) : Bytes := s.toUTF8.toList

/-- `n` as `width` big-endian octets, the high part cut off. -/
def ofNatBE : Nat → Nat → Bytes
  | 0, _ => []
  | k + 1, n => ofNatBE k (n / 256) ++ [UInt8.ofNat n]

/-- The number that big-endian octets stand for. -/
def toNatBE (bs : Bytes) : Nat := bs.foldl (fun acc b => acc * 256 + b.toNat) 0

/-- The byte-wise order of two byte strings; a proper prefix comes first. -/
def compare : Bytes → Bytes → Ordering
  | [], [] => .eq
  | [], _ :: _ => .lt
  | _ :: _, [] => .gt
  | a :: as, b :: bs =>
    match Ord.compare a b with
    | .eq => compare as bs
    | o => o

/-- The position of the first occurrence of `b`, if any. -/
def indexOf? (bs : Bytes) (b : UInt8) : Option Nat := bs.findIdx? (· == b)

/-- Splits at the first `b`: the part before it and the part after it. -/
def splitFirst? (bs : Bytes) (b : UInt8) : Option (Bytes × Bytes) :=
  (indexOf? bs b).map fun i => (bs.take i, bs.drop (i + 1))

/-- Splits at every `b`; there is one more part than there are separators. -/
def splitOn (bs : Bytes) (b : UInt8) : List Bytes :=
  let step := fun (x : UInt8) (acc : List Bytes × Bytes) =>
    if x == b then (acc.2 :: acc.1, []) else (acc.1, x :: acc.2)
  let r := bs.foldr step ([], [])
  r.2 :: r.1

/-- Whether `p` occurs in `bs` as a contiguous part. -/
def containsInfix (bs p : Bytes) : Bool :=
  match bs with
  | [] => p.isEmpty
  | _ :: rest => p.isPrefixOf bs || containsInfix rest p

/-- The position of the first occurrence of `p` as a contiguous part, if any. -/
def findInfix? (bs p : Bytes) : Option Nat :=
  go bs 0
where
  /-- Looks for `p` from position `i` on. -/
  go : Bytes → Nat → Option Nat
    | [], i => if p.isEmpty then some i else none
    | b :: rest, i => if p.isPrefixOf (b :: rest) then some i else go rest (i + 1)

/-- The position of the last occurrence of `b`, if any. -/
def lastIndexOf? (bs : Bytes) (b : UInt8) : Option Nat :=
  (bs.reverse.findIdx? (· == b)).map fun i => bs.length - 1 - i

/-- Drops `p` from the front, if `bs` starts with it. -/
def dropPrefix? (bs p : Bytes) : Option Bytes :=
  if p.isPrefixOf bs then some (bs.drop p.length) else none

/-- Drops `s` from the end, if `bs` ends with it. -/
def dropSuffix? (bs s : Bytes) : Option Bytes :=
  if s.isSuffixOf bs then some (bs.take (bs.length - s.length)) else none

/-- The lines of a byte string: split at line feeds, a carriage return before a line feed
dropped, and no empty line after a final line feed. -/
def lines (bs : Bytes) : List Bytes :=
  let parts := splitOn bs 10
  let ended := parts.dropLast.map fun l => (dropSuffix? l [13]).getD l
  match parts.getLast? with
  | some [] | none => ended
  | some last => ended ++ [last]

@[simp] theorem length_ofNatBE (k n : Nat) : (ofNatBE k n).length = k := by
  induction k generalizing n <;> simp [ofNatBE, *]

theorem toNatBE_append (l r : Bytes) :
    toNatBE (l ++ r) = r.foldl (fun acc b => acc * 256 + b.toNat) (toNatBE l) := by
  simp [toNatBE, List.foldl_append]

theorem splitFirst?_eq_some {bs : Bytes} {b : UInt8} {l r : Bytes}
    (h : splitFirst? bs b = some (l, r)) : bs = l ++ b :: r := by
  unfold splitFirst? indexOf? at h
  cases hi : bs.findIdx? (· == b) with
  | none => simp [hi] at h
  | some i =>
    simp only [hi, Option.map_some, Option.some.injEq, Prod.mk.injEq] at h
    obtain ⟨rfl, rfl⟩ := h
    obtain ⟨hlt, hval⟩ := (List.findIdx?_eq_some_iff_getElem.1 hi)
    have hb : bs[i] = b := by simpa using hval.1
    conv => lhs; rw [← List.take_append_drop i bs]
    rw [List.drop_eq_getElem_cons hlt, hb]

end Bytes

end GitServer
