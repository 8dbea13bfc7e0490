import GitServer.Digest.Sha1
import GitServer.Text.Hex
import GitServer.Text.Quoted

/-!
# Object ids

An object id is the 20-byte SHA-1 digest that names a Git object. It is written as forty
lowercase hexadecimal digits and read from forty digits of either case. The all-zero id means
"no object" on the wire. Ids are ordered byte by byte, which is also the order of their hex
text, and loose objects are filed under the first two digits (`fanout`).
-/

namespace GitServer

/-- A 20-byte object id. -/
structure ObjectId where
  bytes : Bytes
  length_bytes : bytes.length = 20

/-- Two ids are equal when their bytes are; the bytes are compared with their boolean
equality, which runs far faster than deciding equality of lists element by element. -/
instance : DecidableEq ObjectId := fun a b =>
  if h : a.bytes == b.bytes then
    isTrue (by cases a; cases b; simp only [beq_iff_eq] at h; subst h; rfl)
  else
    isFalse (by intro e; subst e; simp at h)

/-- Why a text or byte string is not an object id. -/
inductive IdError where
  /-- The text does not have forty bytes. -/
  | textLength (n : Nat)
  /-- The byte at this position is not a hexadecimal digit. -/
  | notHexDigit (c : Char) (pos : Nat)
  /-- The byte string does not have twenty bytes. -/
  | byteLength (n : Nat)
deriving DecidableEq

namespace IdError

/-- The message for a bad id. -/
def message : IdError → String
  | .textLength n => s!"Invalid hash length: {n}"
  | .notHexDigit c pos => "Invalid character " ++ Quoted.char c ++ s!" at position {pos}"
  | .byteLength n => s!"Invalid byte length: got {n}, expected 20"

end IdError

namespace ObjectId

/-- The all-zero id, "no object". -/
def zero : ObjectId := ⟨List.replicate 20 0, rfl⟩

/-- Whether this is the all-zero id. -/
def isZero (id : ObjectId) : Bool := id.bytes.all (· == 0)

/-- The forty lowercase hexadecimal digits. -/
def toHex (id : ObjectId) : String := Hex.encode id.bytes

instance : ToString ObjectId := ⟨toHex⟩

/-- The id made of exactly twenty bytes. -/
def ofBytes? (bs : Bytes) : Except IdError ObjectId :=
  if h : bs.length = 20 then .ok ⟨bs, h⟩ else .error (.byteLength bs.length)

/-- Reads hexadecimal digit pairs from the bytes of a text, reporting the first byte that is
no digit with its position. -/
def hexBytes : Nat → Bytes → Except IdError Bytes
  | pos, hi :: lo :: rest => do
    let some h := Hex.digitValue? (Char.ofNat hi.toNat)
      | .error (.notHexDigit (Char.ofNat hi.toNat) pos)
    let some l := Hex.digitValue? (Char.ofNat lo.toNat)
      | .error (.notHexDigit (Char.ofNat lo.toNat) (pos + 1))
    let r ← hexBytes (pos + 2) rest
    pure (UInt8.ofNat (h * 16 + l) :: r)
  | _, _ => .ok []

/-- Reads an id from forty hexadecimal digits of either case; the length counts bytes. -/
def parse (s : String) : Except IdError ObjectId :=
  let bs := Bytes.ofString s
  if bs.length = 40 then do
    let raw ← hexBytes 0 bs
    if h : raw.length = 20 then pure ⟨raw, h⟩ else .error (.textLength bs.length)
  else .error (.textLength bs.length)

/-- The directory and file name of a loose object: two digits and thirty-eight. -/
def fanout (id : ObjectId) : String × String :=
  let hex := id.toHex.toList
  (String.ofList (hex.take 2), String.ofList (hex.drop 2))

/-- The SHA-1 of arbitrary bytes, as an id. -/
def digest (bs : Bytes) : ObjectId := ⟨Sha1.digest bs, Sha1.length_digest bs⟩

/-- Ids ordered byte by byte. -/
instance : Ord ObjectId := ⟨fun a b => Bytes.compare a.bytes b.bytes⟩

/-- Whether `a` comes before `b`. -/
def lt (a b : ObjectId) : Bool := Bytes.compare a.bytes b.bytes == .lt

end ObjectId

end GitServer
