/-!
# Decimal numbers as text

Error messages name the floating point values they refused, in one of two spellings: the
plain one, which never uses an exponent, and the short one, which switches to an exponent
for very large and very small values. Both start from the value's significant digits and the
power of ten of the last one.
-/

namespace GitServer

/-- A decimal number: its sign, its significant digits without leading or trailing zeros
(none for zero), and the power of ten of the last digit. -/
structure Decimal where
  negative : Bool
  digits : List Nat
  exponent : Int
deriving DecidableEq, Repr

namespace Decimal

/-- The number that decimal digits stand for. -/
def digitValue (ds : List Nat) : Nat := ds.foldl (fun acc d => acc * 10 + d) 0

/-- The digits of a number. -/
def digitsOf (n : Nat) : List Nat := (toString n).toList.map (·.toNat - 48)

/-- The number `significand × 10 ^ exponent` with the given sign; the significand's trailing
zeros move into the exponent. -/
def scaled (negative : Bool) (significand : Nat) (exponent : Int) : Decimal :=
  if significand = 0 then ⟨negative, [], 0⟩
  else
    let ds := digitsOf significand
    let kept := (ds.reverse.dropWhile (· == 0)).reverse
    ⟨negative, kept, exponent + (ds.length - kept.length)⟩

/-- The number of digits before the decimal point, negative for small numbers. -/
def magnitude (d : Decimal) : Int := d.digits.length + d.exponent

/-- The digits as text. -/
def digitText (ds : List Nat) : String := String.ofList (ds.map fun d => Char.ofNat (d + 48))

/-- Zeros as text. -/
def zeros (n : Nat) : String := String.ofList (List.replicate n '0')

/-- The plain spelling: no exponent, and no decimal point for whole numbers. -/
def plain (d : Decimal) : String :=
  let sign := if d.negative then "-" else ""
  if d.digits.isEmpty then sign ++ "0"
  else
    let text := digitText d.digits
    let n := d.digits.length
    let p := d.magnitude
    if p ≤ 0 then sign ++ "0." ++ zeros p.natAbs ++ text
    else if p ≥ n then sign ++ text ++ zeros (p.toNat - n)
    else sign ++ digitText (d.digits.take p.toNat) ++ "." ++ digitText (d.digits.drop p.toNat)

/-- A spelling with `.0` added when it has no decimal point. -/
def withPoint (s : String) : String := if s.contains '.' then s else s ++ ".0"

/-- An exponent with its sign always written. -/
def exponentText (e : Int) : String :=
  if e < 0 then "-" ++ toString e.natAbs else "+" ++ toString e

/-- The short spelling: plain for magnitudes from `1e-5` up to `1e16`, with an exponent
otherwise, and always with a decimal point or an exponent. -/
def short (d : Decimal) : String :=
  let sign := if d.negative then "-" else ""
  if d.digits.isEmpty then sign ++ "0.0"
  else
    let n := d.digits.length
    let k := d.exponent
    let kk := d.magnitude
    let text := digitText d.digits
    if 0 ≤ k && kk ≤ 16 then sign ++ text ++ zeros k.toNat ++ ".0"
    else if 0 < kk && kk ≤ 16 then
      sign ++ digitText (d.digits.take kk.toNat) ++ "." ++ digitText (d.digits.drop kk.toNat)
    else if -5 < kk && kk ≤ 0 then sign ++ "0." ++ zeros kk.natAbs ++ text
    else if n == 1 then sign ++ text ++ "e" ++ exponentText (kk - 1)
    else sign ++ digitText (d.digits.take 1) ++ "." ++ digitText (d.digits.drop 1) ++ "e" ++
      exponentText (kk - 1)

end Decimal

end GitServer
