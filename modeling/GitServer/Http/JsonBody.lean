import GitServer.Bytes
import GitServer.Text.Utf8
import GitServer.Text.Quoted
import GitServer.Text.Binary64

/-!
# The body of a creation request

A request to create a repository carries a JSON object with one string field, `name`; a
one-element array holding the name is accepted too. Other fields are read past and ignored,
a second `name` is refused, and nothing but blanks may follow the value.

The reader reports where it failed as a line and a column, the column counted in bytes from
the last line feed. A fault is either in the syntax of the text or in what the text holds
(a missing field, a value of the wrong type); the two kinds are worded differently when the
request is refused. A fault inside a field's value names the field, or `[0]` for the element
of the array form.

Two offsets are used for positions: a fault found on the byte just consumed is reported at
the offset after it, and a fault found by looking ahead at a byte is reported at the offset
after that byte, never past the end.
-/

namespace GitServer.Http.JsonBody

/-- Whether a fault is in the syntax of the text or in what it holds. -/
inductive FaultKind where
  | grammar
  | content
deriving DecidableEq, Repr

/-- Why a body could not be read: the kind, the message, the byte offset the position is
reported at, and the field whose value holds the fault. -/
structure Fault where
  kind : FaultKind
  message : String
  offset : Nat
  field : Option String
deriving DecidableEq, Repr

/-- The syntax faults. -/
inductive GrammarCode where
  | eofList
  | eofObject
  | eofString
  | eofValue
  | expectedColon
  | listCommaOrEnd
  | objectCommaOrEnd
  | expectedIdent
  | expectedValue
  | invalidEscape
  | invalidNumber
  | numberOutOfRange
  | invalidCodePoint
  | controlCharacter
  | keyMustBeString
  | loneSurrogate
  | trailingComma
  | trailingCharacters
  | endOfHexEscape
deriving DecidableEq, Repr

/-- The message of a syntax fault. -/
def GrammarCode.message : GrammarCode → String
  | .eofList => "EOF while parsing a list"
  | .eofObject => "EOF while parsing an object"
  | .eofString => "EOF while parsing a string"
  | .eofValue => "EOF while parsing a value"
  | .expectedColon => "expected `:`"
  | .listCommaOrEnd => "expected `,` or `]`"
  | .objectCommaOrEnd => "expected `,` or `\x7d`"
  | .expectedIdent => "expected ident"
  | .expectedValue => "expected value"
  | .invalidEscape => "invalid escape"
  | .invalidNumber => "invalid number"
  | .numberOutOfRange => "number out of range"
  | .invalidCodePoint => "invalid unicode code point"
  | .controlCharacter => "control character (\\u0000-\\u001F) found while parsing a string"
  | .keyMustBeString => "key must be a string"
  | .loneSurrogate => "lone leading surrogate in hex escape"
  | .trailingComma => "trailing comma"
  | .trailingCharacters => "trailing characters"
  | .endOfHexEscape => "unexpected end of hex escape"

/-- A syntax fault reported at an offset. -/
def grammarAt (c : GrammarCode) (offset : Nat) : Fault := ⟨.grammar, c.message, offset, none⟩

/-- A syntax fault found by looking at the byte at `i`: reported after it, within the body. -/
def peekAt (bs : Array UInt8) (c : GrammarCode) (i : Nat) : Fault :=
  grammarAt c (min (i + 1) bs.size)

/-- A fault in what the text holds, reported at an offset. -/
def dataAt (message : String) (offset : Nat) : Fault := ⟨.content, message, offset, none⟩

/-- A fault placed inside a field's value; a fault already placed deeper keeps its place. -/
def Fault.inField (field : String) (f : Fault) : Fault :=
  match f.field with
  | some _ => f
  | none => { f with field := some field }

/-- The line and column of an offset: lines count from one, columns are the bytes since the
last line feed. -/
def position (bs : Array UInt8) (offset : Nat) : Nat × Nat :=
  let before := bs.toList.take offset
  (1 + before.count 10, (before.reverse.takeWhile (· != 10)).length)

/-- A fault as text: the field, the message and the position. -/
def Fault.render (bs : Array UInt8) (f : Fault) : String :=
  let (line, column) := position bs f.offset
  (match f.field with
   | some p => p ++ ": "
   | none => "") ++ f.message ++ " at line " ++ toString line ++ " column " ++ toString column

/-- The text a request is refused with when its body does not hold a creation request. -/
def Fault.rejection (bs : Array UInt8) (f : Fault) : String :=
  (match f.kind with
   | .grammar => "Failed to parse the request body as JSON: "
   | .content => "Failed to deserialize the JSON body into the target type: ") ++ f.render bs

/-! ## Blanks, digits and literals -/

/-- Whether a byte is a blank between tokens: space, line feed, tab or carriage return. -/
def isBlank (b : UInt8) : Bool := b == 32 || b == 10 || b == 9 || b == 13

/-- Whether a byte is a decimal digit. -/
def isDigit (b : UInt8) : Bool := 48 ≤ b && b ≤ 57

/-- The offset of the first byte at or after `i` that is not blank. -/
def skipBlank (bs : Array UInt8) (i : Nat) : Nat :=
  i + ((bs.toList.drop i).takeWhile isBlank).length

/-- The digits from `i` on, as numbers. -/
def digitsFrom (bs : Array UInt8) (i : Nat) : List Nat :=
  ((bs.toList.drop i).takeWhile isDigit).map (·.toNat - 48)

/-- The number that decimal digits stand for. -/
def digitValue (ds : List Nat) : Nat := Decimal.digitValue ds

/-- Reads the rest of a literal word; the answer is the offset after it. -/
def literal (bs : Array UInt8) : Nat → Bytes → Except Fault Nat
  | i, [] => .ok i
  | i, e :: rest =>
    match bs[i]? with
    | none => .error (grammarAt .eofValue bs.size)
    | some b => if b == e then literal bs (i + 1) rest else .error (grammarAt .expectedIdent (i + 1))

/-! ## Strings -/

/-- The value of a hexadecimal digit. -/
def hexValue (b : UInt8) : Option Nat :=
  if 48 ≤ b && b ≤ 57 then some (b.toNat - 48)
  else if 65 ≤ b && b ≤ 70 then some (b.toNat - 55)
  else if 97 ≤ b && b ≤ 102 then some (b.toNat - 87)
  else none

/-- The four hexadecimal digits of a `\u` escape at `i`, and the offset after them. -/
def hexEscape (bs : Array UInt8) (i : Nat) : Except Fault (Nat × Nat) :=
  if bs.size < i + 4 then .error (grammarAt .eofString bs.size)
  else
    let step (acc : Nat) (k : Nat) : Except Fault Nat :=
      match hexValue (bs.getD (i + k) 0) with
      | some v => .ok (acc * 16 + v)
      | none => .error (grammarAt .invalidEscape (i + k + 1))
    ((List.range 4).foldlM step 0).map (·, i + 4)

/-- The UTF-8 encoding of a code point. -/
def encodePoint (n : Nat) : Bytes := Bytes.ofString (String.singleton (Char.ofNat n))

/-- A `\u` escape whose digits start at `i`, with a surrogate pair read as one character. -/
def unicodeEscape (bs : Array UInt8) (i : Nat) : Except Fault (Bytes × Nat) := do
  let (n, k) ← hexEscape bs i
  if 0xDC00 ≤ n ∧ n ≤ 0xDFFF then throw (grammarAt .loneSurrogate k)
  if n < 0xD800 ∨ 0xDBFF < n then return (encodePoint n, k)
  match bs[k]? with
  | none => throw (grammarAt .eofString bs.size)
  | some b => if b != 92 then throw (grammarAt .endOfHexEscape (k + 1))
  match bs[k + 1]? with
  | none => throw (grammarAt .eofString bs.size)
  | some b => if b != 117 then throw (grammarAt .endOfHexEscape (k + 2))
  let (m, k') ← hexEscape bs (k + 2)
  if m < 0xDC00 ∨ 0xDFFF < m then throw (grammarAt .loneSurrogate k')
  return (encodePoint ((n - 0xD800) * 1024 + (m - 0xDC00) + 0x10000), k')

/-- The bytes of the escape after a backslash at `j - 1`, and the offset after it. -/
def escape (bs : Array UInt8) (j : Nat) : Except Fault (Bytes × Nat) :=
  match bs[j]? with
  | none => .error (grammarAt .eofString bs.size)
  | some b =>
    if b == 34 || b == 92 || b == 47 then .ok ([b], j + 1)
    else if b == 98 then .ok ([8], j + 1)
    else if b == 102 then .ok ([12], j + 1)
    else if b == 110 then .ok ([10], j + 1)
    else if b == 114 then .ok ([13], j + 1)
    else if b == 116 then .ok ([9], j + 1)
    else if b == 117 then unicodeEscape bs (j + 1)
    else .error (grammarAt .invalidEscape (j + 1))

/-- Reads a string whose opening quote is before `i`, the bytes so far kept in reverse; the
text must be UTF-8. -/
def stringFrom (bs : Array UInt8) : Nat → Nat → Bytes → Except Fault (String × Nat)
  | 0, _, _ => .error (grammarAt .eofString bs.size)
  | fuel + 1, i, acc =>
    match bs[i]? with
    | none => .error (grammarAt .eofString bs.size)
    | some b =>
      if b == 34 then
        match Utf8.decode? acc.reverse with
        | some s => .ok (s, i + 1)
        | none => .error (grammarAt .invalidCodePoint (i + 1))
      else if b == 92 then
        match escape bs (i + 1) with
        | .ok (out, j) => stringFrom bs fuel j (out.reverse ++ acc)
        | .error f => .error f
      else if b < 32 then .error (grammarAt .controlCharacter (i + 1))
      else stringFrom bs fuel (i + 1) (b :: acc)

/-- Reads a string whose opening quote is before `i`. -/
def string (bs : Array UInt8) (i : Nat) : Except Fault (String × Nat) :=
  stringFrom bs (bs.size + 1) i []

/-- Passes over the escape after a backslash at `j - 1`, checking only its form. -/
def skipEscape (bs : Array UInt8) (j : Nat) : Except Fault Nat :=
  match bs[j]? with
  | none => .error (grammarAt .eofString bs.size)
  | some b =>
    if [34, 92, 47, 98, 102, 110, 114, 116].contains b then .ok (j + 1)
    else if b == 117 then (hexEscape bs (j + 1)).map (·.2)
    else .error (grammarAt .invalidEscape (j + 1))

/-- Passes over a string whose opening quote is before `i`, without reading its text. -/
def skipStringFrom (bs : Array UInt8) : Nat → Nat → Except Fault Nat
  | 0, _ => .error (grammarAt .eofString bs.size)
  | fuel + 1, i =>
    match bs[i]? with
    | none => .error (grammarAt .eofString bs.size)
    | some b =>
      if b == 34 then .ok (i + 1)
      else if b == 92 then
        match skipEscape bs (i + 1) with
        | .ok j => skipStringFrom bs fuel j
        | .error f => .error f
      else if b < 32 then .error (grammarAt .controlCharacter i)
      else skipStringFrom bs fuel (i + 1)

/-! ## Numbers

A number is read with a fast conversion rather than an exactly rounded one. Its digits are gathered into a 64-bit significand; digits that no longer fit are
dropped, those before the point scaling the value by ten each. The value is then the
significand, converted to binary64, multiplied or divided by a power of ten, each step
rounded, so that a long number can land on a neighbour of the nearest value. A number too
large to be finite is refused. The exponent is a 32-bit integer: a larger one is out of range
for a nonzero number, and gives zero otherwise.
-/

/-- A number as read: an integer that fits 64 bits, or a floating point value with its sign. -/
inductive Number where
  | unsigned (n : Nat)
  | signed (n : Int)
  | float (negative : Bool) (v : Binary64)
deriving DecidableEq, Repr

/-- How a number is named in a type error. -/
def Number.describe : Number → String
  | .unsigned n => "integer `" ++ toString n ++ "`"
  | .signed n => "integer `" ++ toString n ++ "`"
  | .float neg v => "floating point `" ++ (Binary64.toDecimal .even neg v).short ++ "`"

/-- The largest significand, the largest number of 64 bits. -/
def significandLimit : Nat := Nat.pow 2 64 - 1

/-- The largest exponent, the largest signed number of 32 bits. -/
def exponentLimit : Nat := Nat.pow 2 31 - 1

/-- An exponent held to the range of 32-bit signed numbers. -/
def saturate (e : Int) : Int := max (-(Int.pow 2 31)) (min exponentLimit e)

/-- Reads digits from `i` into the significand `sig` while it stays within 64 bits, `n`
digits read so far; the answer is the significand, the offset of the first byte not read and
the number of digits read. -/
def gather (bs : Array UInt8) : Nat → Nat → Nat → Nat → Nat × Nat × Nat
  | 0, i, sig, n => (sig, i, n)
  | fuel + 1, i, sig, n =>
    match bs[i]? with
    | some b =>
      if isDigit b && sig * 10 + (b.toNat - 48) ≤ significandLimit then
        gather bs fuel (i + 1) (sig * 10 + (b.toNat - 48)) (n + 1)
      else (sig, i, n)
    | none => (sig, i, n)

/-- The number of leading digits whose value first passes the largest exponent, if it does;
`acc` is the value of the `n` digits before. -/
def exponentOverflow : List Nat → Nat → Nat → Option Nat
  | [], _, _ => none
  | d :: rest, acc, n =>
    if acc * 10 + d > exponentLimit then some (n + 1)
    else exponentOverflow rest (acc * 10 + d) (n + 1)

/-- Scales `f` by `10 ^ e`: by one multiplication or division when `10 ^ |e|` is at most
`10 ^ 308`; otherwise a zero stays zero, a larger power is out of range, and a smaller one
divides by `10 ^ 308` first. `none` is out of range. Three divisions by `10 ^ 308` bring any
64-bit significand to zero, so the fuel the caller gives is never used up; if it were, the
value reached is kept. -/
def scaleByTen : Nat → Binary64 → Int → Option Binary64
  | 0, f, _ => some f
  | fuel + 1, f, e =>
    if e.natAbs ≤ 308 then
      match Binary64.powTen e.natAbs with
      | some p => if 0 ≤ e then Binary64.mul f p else Binary64.div f p
      | none => none
    else if f.isZero then some f
    else if 0 ≤ e then none
    else
      match Binary64.powTen 308 >>= Binary64.div f with
      | some g => scaleByTen fuel g (e + 308)
      | none => none

/-- The floating point value `sig × 10 ^ e` with a sign, its text ending at `finish`. -/
def floatFromParts (negative : Bool) (sig : Nat) (e : Int) (finish : Nat) :
    Except Fault (Number × Nat) :=
  match Binary64.ofNat sig >>= (scaleByTen 8 · e) with
  | some v => .ok (.float negative v, finish)
  | none => .error (grammarAt .numberOutOfRange finish)

/-- An integer of the given sign and value; minus zero, and a negative number beyond 64
signed bits, are floating point values. -/
def integerAt (negative : Bool) (v : Nat) : Number :=
  if !negative then .unsigned v
  else if v = 0 || Nat.pow 2 63 < v then .float true ((Binary64.ofNat v).getD Binary64.zero)
  else .signed (-(v : Int))

/-- The exponent part of a number, its `e` at `k`; the number so far is `sig × 10 ^ shift`. -/
def exponentAt (bs : Array UInt8) (k : Nat) (negative : Bool) (sig : Nat) (shift : Int) :
    Except Fault (Number × Nat) := do
  let (minus, k') := match bs[k + 1]? with
    | some 43 => (false, k + 2)
    | some 45 => (true, k + 2)
    | _ => (false, k + 1)
  match bs[k']? with
  | none => throw (grammarAt .eofValue bs.size)
  | some d => if !isDigit d then throw (grammarAt .invalidNumber (k' + 1))
  let es := digitsFrom bs k'
  match exponentOverflow es 0 0 with
  | some n =>
    if sig != 0 && !minus then throw (grammarAt .numberOutOfRange (k' + n))
    else pure (.float negative Binary64.zero, k' + es.length)
  | none =>
    let e : Int := digitValue es
    floatFromParts negative sig (saturate (if minus then shift - e else shift + e))
      (k' + es.length)

/-- The fraction after the `.` at `j`; the number so far is `sig × 10 ^ shift`. -/
def fractionAt (bs : Array UInt8) (j : Nat) (negative : Bool) (sig : Nat) (shift : Int) :
    Except Fault (Number × Nat) :=
  let (sig', k, n) := gather bs bs.size (j + 1) sig 0
  let e := shift - n
  if (bs[k]?).any isDigit then
    let k' := k + (digitsFrom bs k).length
    match bs[k']? with
    | some 101 | some 69 => exponentAt bs k' negative sig' e
    | _ => floatFromParts negative sig' e k'
  else if n == 0 then
    match bs[j + 1]? with
    | some _ => .error (peekAt bs .invalidNumber (j + 1))
    | none => .error (peekAt bs .eofValue (j + 1))
  else
    match bs[k]? with
    | some 101 | some 69 => exponentAt bs k negative sig' e
    | _ => floatFromParts negative sig' e k

/-- The part of a number after its integer digits, from `j`; the digits read as `sig`. -/
def afterInteger (bs : Array UInt8) (j : Nat) (negative : Bool) (sig : Nat) :
    Except Fault (Number × Nat) :=
  match bs[j]? with
  | some 46 => fractionAt bs j negative sig 0
  | some 101 | some 69 => exponentAt bs j negative sig 0
  | _ => .ok (integerAt negative sig, j)

/-- Reads a number whose digits start at `i`, after any minus sign. -/
def number (bs : Array UInt8) (i : Nat) (negative : Bool) : Except Fault (Number × Nat) :=
  match bs[i]? with
  | none => .error (grammarAt .eofValue bs.size)
  | some b =>
    if b == 48 then
      if (bs[i + 1]?).any isDigit then .error (peekAt bs .invalidNumber (i + 1))
      else afterInteger bs (i + 1) negative 0
    else if isDigit b then
      let (sig, j, _) := gather bs bs.size i 0 0
      if (bs[j]?).any isDigit then
        let extra := (digitsFrom bs j).length
        let k := j + extra
        match bs[k]? with
        | some 46 => fractionAt bs k negative sig extra
        | some 101 | some 69 => exponentAt bs k negative sig extra
        | _ => floatFromParts negative sig extra k
      else afterInteger bs j negative sig
    else .error (grammarAt .invalidNumber (i + 1))

/-- Passes over the exponent part of a number, its `e` at `k`. -/
def skipExponent (bs : Array UInt8) (k : Nat) : Except Fault Nat :=
  let k' := match bs[k + 1]? with
    | some 43 | some 45 => k + 2
    | _ => k + 1
  match bs[k']? with
  | none => .error (grammarAt .invalidNumber k')
  | some d =>
    if isDigit d then .ok (k' + (digitsFrom bs k').length)
    else .error (grammarAt .invalidNumber (k' + 1))

/-- Passes over a number whose digits start at `i`, checking only its form. -/
def skipNumber (bs : Array UInt8) (i : Nat) : Except Fault Nat := do
  let some b := bs[i]? | throw (grammarAt .invalidNumber i)
  let j ← if b == 48 then
      if (bs[i + 1]?).any isDigit then throw (peekAt bs .invalidNumber (i + 1)) else pure (i + 1)
    else if isDigit b then pure (i + (digitsFrom bs i).length)
    else throw (grammarAt .invalidNumber (i + 1))
  match bs[j]? with
  | some 46 =>
    let fs := digitsFrom bs (j + 1)
    if fs.isEmpty then throw (peekAt bs .invalidNumber (j + 1))
    let k := j + 1 + fs.length
    match bs[k]? with
    | some 101 | some 69 => skipExponent bs k
    | _ => pure k
  | some 101 | some 69 => skipExponent bs j
  | _ => pure j

/-! ## Values -/

/-- The fault for a value at `i` that is not of the expected type: the value is read to name
it, and a fault in reading it wins. -/
def wrongType (bs : Array UInt8) (i : Nat) (expected : String) : Fault :=
  let invalid (what : String) (finish : Nat) : Fault :=
    dataAt ("invalid type: " ++ what ++ ", expected " ++ expected) finish
  let named (r : Except Fault Nat) (what : String) : Fault :=
    match r with
    | .ok j => invalid what j
    | .error f => f
  let numeric (r : Except Fault (Number × Nat)) : Fault :=
    match r with
    | .ok (n, j) => invalid n.describe j
    | .error f => f
  match bs[i]? with
  | none => peekAt bs .expectedValue i
  | some b =>
    if b == 110 then named (literal bs (i + 1) (Bytes.ofString "ull")) "null"
    else if b == 116 then named (literal bs (i + 1) (Bytes.ofString "rue")) "boolean `true`"
    else if b == 102 then named (literal bs (i + 1) (Bytes.ofString "alse")) "boolean `false`"
    else if b == 45 then numeric (number bs (i + 1) true)
    else if isDigit b then numeric (number bs i false)
    else if b == 34 then
      match string bs (i + 1) with
      | .ok (s, j) => invalid ("string " ++ Quoted.string s) j
      | .error f => f
    else if b == 91 then invalid "sequence" i
    else if b == 123 then invalid "map" i
    else peekAt bs .expectedValue i

/-- Reads a string value at or after `i`. -/
def stringValue (bs : Array UInt8) (i : Nat) : Except Fault (String × Nat) :=
  let j := skipBlank bs i
  match bs[j]? with
  | none => .error (peekAt bs .eofValue j)
  | some b => if b == 34 then string bs (j + 1) else .error (wrongType bs j "a string")

/-- Passes over a value that is not a bracket, its first byte `b` at `j`. -/
def skipScalar (bs : Array UInt8) (j : Nat) (b : UInt8) : Except Fault Nat :=
  if b == 110 then literal bs (j + 1) (Bytes.ofString "ull")
  else if b == 116 then literal bs (j + 1) (Bytes.ofString "rue")
  else if b == 102 then literal bs (j + 1) (Bytes.ofString "alse")
  else if b == 45 then skipNumber bs (j + 1)
  else if isDigit b then skipNumber bs j
  else if b == 34 then skipStringFrom bs (bs.size + 1) (j + 1)
  else .error (peekAt bs .expectedValue j)

/-- What the skipping reader expects next. -/
inductive Pending where
  /-- A value. -/
  | value
  /-- A member of the innermost bracket: for an object, its key and colon first. -/
  | member
  /-- A comma or a closing bracket; `comma` is false right after an opening bracket, where a
  member may follow directly. -/
  | after (comma : Bool)
deriving DecidableEq, Repr

/-- Passes over a value of any shape, with the open brackets innermost first (`true` for an
array); the answer is the offset after the outermost value. -/
def skipLoop (bs : Array UInt8) : Nat → Pending → Nat → List Bool → Except Fault Nat
  | 0, _, i, _ => .error (grammarAt .eofValue i)
  | fuel + 1, .value, i, stack =>
    let j := skipBlank bs i
    match bs[j]? with
    | none => .error (peekAt bs .eofValue j)
    | some b =>
      if b == 91 || b == 123 then skipLoop bs fuel (.after false) (j + 1) ((b == 91) :: stack)
      else match skipScalar bs j b with
        | .error f => .error f
        | .ok k => if stack.isEmpty then .ok k else skipLoop bs fuel (.after true) k stack
  | fuel + 1, .member, i, stack =>
    match stack with
    | false :: _ =>
      let j := skipBlank bs i
      match bs[j]? with
      | none => .error (peekAt bs .eofObject j)
      | some b =>
        if b != 34 then .error (peekAt bs .keyMustBeString j)
        else match skipStringFrom bs (bs.size + 1) (j + 1) with
          | .error f => .error f
          | .ok k =>
            let c := skipBlank bs k
            match bs[c]? with
            | some 58 => skipLoop bs fuel .value (c + 1) stack
            | some _ => .error (peekAt bs .expectedColon c)
            | none => .error (peekAt bs .eofObject c)
    | _ => skipLoop bs fuel .value i stack
  | fuel + 1, .after comma, i, stack =>
    match stack with
    | [] => .ok i
    | array :: outer =>
      let j := skipBlank bs i
      match bs[j]? with
      | none => .error (peekAt bs (if array then .eofList else .eofObject) j)
      | some b =>
        if comma && b == 44 then skipLoop bs fuel .member (j + 1) stack
        else if (array && b == 93) || (!array && b == 125) then
          if outer.isEmpty then .ok (j + 1) else skipLoop bs fuel (.after true) (j + 1) outer
        else if comma then
          .error (peekAt bs (if array then .listCommaOrEnd else .objectCommaOrEnd) j)
        else skipLoop bs fuel .member j stack

/-- Passes over a value of any shape at or after `i`. -/
def skipValue (bs : Array UInt8) (i : Nat) : Except Fault Nat :=
  skipLoop bs (3 * bs.size + 6) .value i []

/-! ## The request -/

/-- The type a creation request is read as, named in type errors. -/
def requestType : String := "struct CreateRepoRequest"

/-- The colon after a key, at or after `k`; the answer is the offset after it. -/
def colon (bs : Array UInt8) (k : Nat) : Except Fault Nat :=
  let m := skipBlank bs k
  match bs[m]? with
  | some 58 => .ok (m + 1)
  | some _ => .error (peekAt bs .expectedColon m)
  | none => .error (peekAt bs .eofObject m)

/-- The offset after an object's closing brace is looked for at `k`: blanks are passed, and
the brace too when it is there. -/
def afterClose (bs : Array UInt8) (k : Nat) : Nat :=
  let m := skipBlank bs k
  if bs[m]? == some 125 then m + 1 else m

/-- Reads the members of the request object from `i`: `first` holds before the first member,
`seen` is the name read so far. -/
def members (bs : Array UInt8) : Nat → Nat → Bool → Option String → Except Fault (String × Nat)
  | 0, i, _, _ => .error (peekAt bs .eofObject i)
  | fuel + 1, i, first, seen => do
    let j := skipBlank bs i
    let some b := bs[j]? | throw (peekAt bs .eofObject j)
    if b == 125 then
      match seen with
      | some name => return (name, j + 1)
      | none => throw (dataAt "missing field `name`" (j + 1))
    let k ← if b == 44 && !first then pure (skipBlank bs (j + 1))
      else if first then pure j
      else throw (peekAt bs .objectCommaOrEnd j)
    match bs[k]? with
    | none => throw (peekAt bs .eofValue k)
    | some 34 =>
      let (key, k') ← string bs (k + 1)
      if key == "name" then
        if seen.isSome then throw (dataAt "duplicate field `name`" (afterClose bs k'))
        let c ← colon bs k'
        let (v, e) ← (stringValue bs c).mapError (Fault.inField "name")
        members bs fuel e false (some v)
      else
        let c ← colon bs k'
        let e ← (skipValue bs c).mapError (Fault.inField key)
        members bs fuel e false seen
    | some 125 => throw (peekAt bs .trailingComma k)
    | some _ => throw (peekAt bs .keyMustBeString k)

/-- Reads the array form from `i`, after its opening bracket: one string element. -/
def element (bs : Array UInt8) (i : Nat) : Except Fault (String × Nat) := do
  let j := skipBlank bs i
  let some b := bs[j]? | throw (peekAt bs .eofList j)
  if b == 93 then
    throw (dataAt ("invalid length 0, expected " ++ requestType ++ " with 1 element") (j + 1))
  let (name, k) ← (stringValue bs j).mapError (Fault.inField "[0]")
  let m := skipBlank bs k
  match bs[m]? with
  | some 93 => return (name, m + 1)
  | some 44 =>
    let n := skipBlank bs (m + 1)
    if bs[n]? == some 93 then throw (peekAt bs .trailingComma n)
    else throw (peekAt bs .trailingCharacters n)
  | some _ => throw (peekAt bs .trailingCharacters m)
  | none => throw (peekAt bs .eofList m)

/-- The repository name a creation request's body holds. -/
def readName (body : Bytes) : Except Fault String := do
  let bs := body.toArray
  let i := skipBlank bs 0
  let some b := bs[i]? | throw (peekAt bs .eofValue i)
  let (name, j) ← if b == 91 then element bs (i + 1)
    else if b == 123 then members bs (bs.size + 1) (i + 1) true none
    else throw (wrongType bs i requestType)
  let k := skipBlank bs j
  if k < bs.size then throw (peekAt bs .trailingCharacters k)
  return name

end GitServer.Http.JsonBody
