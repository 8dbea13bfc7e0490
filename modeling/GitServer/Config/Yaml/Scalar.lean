import GitServer.Config.Yaml.Parser
import GitServer.Text.Binary64
import GitServer.Text.Quoted

/-!
# What a scalar holds

A plain scalar is read by its form, after the YAML 1.2 core schema: empty, `~` and `null`
(in three spellings) are null; `true` and `false` (likewise) are booleans; decimal, `0x`,
`0o` and `0b` numbers are integers; decimal fractions with an optional exponent and `.inf`,
`.nan` are floats; anything else is text. A number written with a leading zero, such as
`0755`, is text. Quoted and block scalars are always text, and a core tag such as `!!int`
demands its type.

When a value has the wrong type, the message names what the scalar held.
-/

namespace GitServer.Yaml

/-- A floating point value. -/
inductive FloatValue where
  | finite (negative : Bool) (v : Binary64)
  | infinity (negative : Bool)
  | nan
deriving DecidableEq, Repr

/-- What a scalar holds. -/
inductive Resolved where
  | unit
  | bool (b : Bool)
  /-- An integer that fits 64 bits without sign. -/
  | unsigned (n : Nat)
  /-- A negative integer that fits 64 bits with sign. -/
  | signed (n : Int)
  /-- An integer that needs 128 bits. -/
  | wide (n : Int)
  | float (f : FloatValue)
  | text (s : String)
deriving DecidableEq, Repr

/-- How a floating point value is named in a message: without exponent, with a decimal
point. -/
def FloatValue.describe : FloatValue → String
  | .finite neg v => Decimal.withPoint (Binary64.toDecimal .up neg v).plain
  | .infinity neg => if neg then "-inf" else "inf"
  | .nan => "NaN"

/-- How a value is named in a type error. -/
def Resolved.describe : Resolved → String
  | .unit => "unit value"
  | .bool b => "boolean `" ++ toString b ++ "`"
  | .unsigned n => "integer `" ++ toString n ++ "`"
  | .signed n => "integer `" ++ toString n ++ "`"
  | .wide n => "integer `" ++ toString n ++ "` as " ++ (if n < 0 then "i128" else "u128")
  | .float f => "floating point `" ++ f.describe ++ "`"
  | .text s => "string " ++ Quoted.string s

/-- The full names of the core tags. -/
def boolTag : String := "tag:yaml.org,2002:bool"
/-- The integer tag. -/
def intTag : String := "tag:yaml.org,2002:int"
/-- The float tag. -/
def floatTag : String := "tag:yaml.org,2002:float"
/-- The null tag. -/
def nullTag : String := "tag:yaml.org,2002:null"
/-- The string tag. -/
def strTag : String := "tag:yaml.org,2002:str"

/-- Whether a scalar is null. -/
def isNull (s : String) : Bool := ["", "~", "null", "Null", "NULL"].contains s

/-- The boolean a scalar spells, if any. -/
def parseBool (s : String) : Option Bool :=
  if ["true", "True", "TRUE"].contains s then some true
  else if ["false", "False", "FALSE"].contains s then some false
  else none

/-- The value of a digit in a radix. -/
def digitIn (radix : Nat) (c : Char) : Option Nat :=
  let v := if '0' ≤ c ∧ c ≤ '9' then c.toNat - 48
    else if 'a' ≤ c ∧ c ≤ 'z' then c.toNat - 87
    else if 'A' ≤ c ∧ c ≤ 'Z' then c.toNat - 55
    else 99
  if v < radix then some v else none

/-- The number that a nonempty string of digits in a radix stands for. -/
def digitsValue (radix : Nat) (s : String) : Option Nat :=
  if s.isEmpty then none
  else s.toList.foldlM (fun acc c => (digitIn radix c).map (acc * radix + ·)) 0

/-- An unsigned number in a radix with an optional `+`, below `limit`. -/
def unsignedIn (radix limit : Nat) (s : String) : Option Nat :=
  let body := if s.startsWith "+" then (s.drop 1).toString else s
  match digitsValue radix body with
  | some n => if n < limit then some n else none
  | none => none

/-- A signed number in a radix with an optional sign, within `bound` of zero (below `bound`
when positive, at most `bound` when negative). -/
def signedIn (radix bound : Nat) (s : String) : Option Int :=
  if s.startsWith "-" then
    match digitsValue radix (s.drop 1).toString with
    | some n => if n ≤ bound then some (-(n : Int)) else none
    | none => none
  else (unsignedIn radix bound s).map (Int.ofNat ·)

/-- Whether a scalar is a number with a leading zero, which the core schema reads as text. -/
def leadingZeroDigits (s : String) : Bool :=
  let body := if s.startsWith "-" || s.startsWith "+" then (s.drop 1).toString else s
  body.length > 1 && body.startsWith "0" && (body.drop 1).all Char.isDigit

/-- The prefixes of integers in other radixes. -/
def radixPrefixes : List (String × Nat) := [("0x", 16), ("0o", 8), ("0b", 2)]

/-- An unsigned integer below `limit`, in any radix. -/
def parseUnsigned (limit : Nat) (s : String) : Option Nat :=
  let body := if s.startsWith "+" then (s.drop 1).toString else s
  let prefixed := radixPrefixes.findSome? fun (pfx, radix) =>
    if body.startsWith pfx then
      let rest := (body.drop 2).toString
      if rest.startsWith "+" || rest.startsWith "-" then none
      else unsignedIn radix limit rest
    else none
  match prefixed with
  | some n => some n
  | none =>
    if body.startsWith "+" || body.startsWith "-" || leadingZeroDigits s then none
    else unsignedIn 10 limit body

/-- A signed integer within `bound` of zero, in any radix, a minus sign before its prefix. -/
def parseSigned (bound : Nat) (s : String) : Option Int :=
  let prefixed := radixPrefixes.findSome? fun (pfx, radix) =>
    if s.startsWith ("-" ++ pfx) then signedIn radix bound ("-" ++ (s.drop 3).toString) else none
  match prefixed with
  | some n => some n
  | none => if leadingZeroDigits s then none else signedIn 10 bound s

/-- The integer a scalar spells: 64 bits without sign, then with sign, then 128 bits. -/
def parseInteger (s : String) : Option Resolved :=
  match parseUnsigned (Nat.pow 2 64) s with
  | some n => some (.unsigned n)
  | none =>
    match parseSigned (Nat.pow 2 63) s with
    | some n => some (if n < 0 then .signed n else .unsigned n.toNat)
    | none =>
      match parseUnsigned (Nat.pow 2 128) s with
      | some n => some (.wide n)
      | none => (parseSigned (Nat.pow 2 127) s).map .wide

/-- A decimal floating point literal: digits with an optional fraction, or a fraction alone,
then an optional exponent. It stands for the binary64 value nearest to it. -/
def parseDecimal (s : String) : Option FloatValue :=
  let (negative, body) :=
    if s.startsWith "-" then (true, (s.drop 1).toString)
    else if s.startsWith "+" then (false, (s.drop 1).toString) else (false, s)
  let cs := body.toList
  let whole := cs.takeWhile Char.isDigit
  let rest := cs.drop whole.length
  let (frac, rest) := match rest with
    | '.' :: more =>
      let f := more.takeWhile Char.isDigit
      (f, more.drop f.length)
    | _ => ([], rest)
  if whole.isEmpty && frac.isEmpty then none
  else
    let exp : Option Int := match rest with
      | [] => some 0
      | c :: more =>
        if c == 'e' || c == 'E' then
          let (sign, ds) := match more with
            | '-' :: ds => (-1, ds)
            | '+' :: ds => (1, ds)
            | ds => (1, ds)
          if !ds.isEmpty && ds.all Char.isDigit then
            some (sign * (Decimal.digitValue (ds.map (·.toNat - 48)) : Int))
          else none
        else none
    exp.map fun e =>
      let digits := (whole ++ frac).map (·.toNat - 48)
      match Binary64.ofDecimal (Decimal.digitValue digits) (e - frac.length) with
      | some v => .finite negative v
      | none => .infinity negative

/-- The floating point value a scalar spells, if it is finite or one of the `.inf` and
`.nan` spellings. -/
def parseFloat (s : String) : Option FloatValue :=
  let plus := s.startsWith "+"
  let body := if plus then (s.drop 1).toString else s
  if plus && (body.startsWith "+" || body.startsWith "-") then none
  else if [".inf", ".Inf", ".INF"].contains body then some (.infinity false)
  else if ["-.inf", "-.Inf", "-.INF"].contains s then some (.infinity true)
  else if [".nan", ".NaN", ".NAN"].contains s then some .nan
  else match parseDecimal body with
    | some (.finite neg v) => some (.finite neg v)
    | _ => none

/-- What a plain scalar holds. -/
def resolvePlain (s : String) : Resolved :=
  if isNull s then .unit
  else match parseBool s with
    | some b => .bool b
    | none =>
      match parseInteger s with
      | some r => r
      | none =>
        if leadingZeroDigits s then .text s
        else match parseFloat s with
          | some f => .float f
          | none => .text s

/-- What a scalar holds, by its style and tag; a core tag the text does not fit is an error
with its message. -/
def resolveScalar (text : String) (style : ScalarStyle) (tag : Option String) :
    Except String Resolved :=
  let wrong (expected : String) : Except String Resolved :=
    .error ("invalid value: string " ++ Quoted.string text ++ ", expected " ++ expected)
  match tag with
  | some t =>
    if t == boolTag then
      match parseBool text with
      | some b => .ok (.bool b)
      | none => wrong "a boolean"
    else if t == intTag then
      match parseInteger text with
      | some r => .ok r
      | none => wrong "an integer"
    else if t == floatTag then
      match parseFloat text with
      | some f => .ok (.float f)
      | none => wrong "a float"
    else if t == nullTag then
      if isNull text then .ok .unit else wrong "null"
    else if t.startsWith "!" && style == .plain then .ok (resolvePlain text)
    else .ok (.text text)
  | none => if style == .plain then .ok (resolvePlain text) else .ok (.text text)

end GitServer.Yaml
