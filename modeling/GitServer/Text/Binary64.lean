import GitServer.Text.Decimal

/-!
# Binary64 values

Numbers in a configuration file or a request body are read into IEEE 754 binary64 values,
and a message that names such a value spells the value, not the text it came from:
`0.30000000000000001` reads as the value nearest to it, which is spelled `0.3`.

A value here is finite and not negative, `significand × 2 ^ exponent`; the callers carry the
sign. Every operation rounds its exact result to the nearest value, ties to the even
significand, as the hardware does, and a result too large to be finite is `none`. Reading a
decimal rounds once, from the exact number. Multiplying and dividing round each result, so a
computation that goes through several of them can land on a neighbour of the exact answer.

A value is spelled with the fewest significant digits that read back as the same value, and
of two such spellings with the same number of digits, the nearer one. When the value lies
exactly halfway between the two, writers differ: some take the upper one, others the one
whose last digit is even, so the rule is a parameter.
-/

namespace GitServer

/-- A finite binary64 value that is not negative: `significand × 2 ^ exponent`, with the
significand below `2 ^ 53` and the exponent from `-1074` to `971`. A normal value has a
significand of 53 bits; a smaller one has the least exponent. Zero is `0 × 2 ^ -1074`. -/
structure Binary64 where
  significand : Nat
  exponent : Int
deriving DecidableEq, Repr

namespace Binary64

/-- The least exponent, that of the subnormal values. -/
def minExponent : Int := -1074

/-- The greatest exponent of a finite value. -/
def maxExponent : Int := 971

/-- Zero. -/
def zero : Binary64 := ⟨0, minExponent⟩

/-- Whether the value is zero. -/
def isZero (v : Binary64) : Bool := v.significand == 0

/-- Whether `num / den × 2 ^ shift` is at least `2 ^ t`. -/
def atLeastPowTwo (num den : Nat) (shift t : Int) : Bool :=
  num * Nat.pow 2 (shift - t).toNat ≥ den * Nat.pow 2 (t - shift).toNat

/-- The integer part of the base-two logarithm of `num / den × 2 ^ shift`, for positive
`num` and `den`. With `2 ^ a ≤ num < 2 ^ (a + 1)` and `2 ^ b ≤ den < 2 ^ (b + 1)` the
logarithm lies strictly between `a - b - 1` and `a - b + 1`, so one comparison settles it. -/
def floorLog2 (num den : Nat) (shift : Int) : Int :=
  let t : Int := (num.log2 : Int) - den.log2 + shift
  if atLeastPowTwo num den shift t then t else t - 1

/-- `num / den` rounded to the nearest integer, ties to the even one. -/
def roundDiv (num den : Nat) : Nat :=
  let q := num / den
  let r := num % den
  if 2 * r > den || (2 * r == den && q % 2 == 1) then q + 1 else q

/-- `num / den × 2 ^ shift` rounded to the nearest value, for a positive `den`; `none` when
the rounded number is too large to be finite. The exponent is chosen to leave 53 bits in the
significand, or the least one below that; rounding up to `2 ^ 53` moves to the next
exponent. -/
def round (num den : Nat) (shift : Int) : Option Binary64 :=
  if num = 0 then some zero
  else
    let e := max (floorLog2 num den shift - 52) minExponent
    let m := roundDiv (num * Nat.pow 2 (shift - e).toNat) (den * Nat.pow 2 (e - shift).toNat)
    let (m, e) := if m = Nat.pow 2 53 then (Nat.pow 2 52, e + 1) else (m, e)
    if e > maxExponent then none else some ⟨m, e⟩

/-- A natural number, rounded. -/
def ofNat (n : Nat) : Option Binary64 := round n 1 0

/-- `10 ^ k`, rounded. -/
def powTen (k : Nat) : Option Binary64 := round (Nat.pow 10 k) 1 0

/-- The product, rounded. -/
def mul (a b : Binary64) : Option Binary64 :=
  round (a.significand * b.significand) 1 (a.exponent + b.exponent)

/-- The quotient by a value that is not zero, rounded. -/
def div (a b : Binary64) : Option Binary64 :=
  round a.significand b.significand (a.exponent - b.exponent)

/-- The number of decimal digits of a positive number. -/
def digitCount (n : Nat) : Nat := (toString n).length

/-- The value nearest to `significand × 10 ^ exponent`; `none` when that is too large to be
finite. A number with more than 310 digits before its decimal point is beyond every finite
value, and one below `10 ^ -330` is nearer to zero than to the least positive value, so
neither needs its power of ten computed. -/
def ofDecimal (significand : Nat) (exponent : Int) : Option Binary64 :=
  if significand = 0 then some zero
  else
    let size := (digitCount significand : Int) + exponent
    if size > 310 then none
    else if size < -330 then some zero
    else if 0 ≤ exponent then round (significand * Nat.pow 10 exponent.toNat) 1 0
    else round significand (Nat.pow 10 exponent.natAbs) 0

/-! ## Spelling a value -/

/-- The numbers that read back as a value, measured in units of `2 ^ unit`: those between
`low` and `high`, ends included when `closed`. `center` is the value itself. The ends are
halfway to the neighbouring values; the neighbour below is twice as near at the bottom of a
binade, except at the least exponent, where the spacing does not change. -/
structure Interval where
  low : Nat
  center : Nat
  high : Nat
  closed : Bool
  unit : Int
deriving DecidableEq, Repr

/-- The numbers that read back as a positive value. -/
def interval (v : Binary64) : Interval :=
  let c := 4 * v.significand
  let below := if v.significand = Nat.pow 2 52 ∧ v.exponent > minExponent then 1 else 2
  ⟨c - below, c, c + 2, v.significand % 2 == 0, v.exponent - 2⟩

/-- How a value exactly halfway between two spellings is spelled. -/
inductive TieRule where
  /-- The upper spelling. -/
  | up
  /-- The spelling whose last digit is even. -/
  | even
deriving DecidableEq, Repr

/-- The denominator and the factor of the numerator that take `x × 2 ^ unit` to a count of
`10 ^ k`: the count is `x × fst / snd`. -/
def gridScale (unit k : Int) : Nat × Nat :=
  (Nat.pow 2 unit.toNat * Nat.pow 10 (-k).toNat, Nat.pow 2 (-unit).toNat * Nat.pow 10 k.toNat)

/-- The nearest multiple of `10 ^ k` that reads back as the value, counted in `10 ^ k`, if
the interval holds one. Of two, the nearer is taken, and on a tie the one the rule names. -/
def candidate (rule : TieRule) (iv : Interval) (k : Int) : Option Nat :=
  let (f, d) := gridScale iv.unit k
  let lo := iv.low * f
  let hi := iv.high * f
  let c := iv.center * f
  let first := if iv.closed then (lo + d - 1) / d else lo / d + 1
  let last := if iv.closed then hi / d else (hi + d - 1) / d - 1
  if first > last then none
  else
    let down := c / d
    if down < first then some (down + 1)
    else if down + 1 > last then some down
    else if 2 * c > (2 * down + 1) * d then some (down + 1)
    else if 2 * c < (2 * down + 1) * d then some down
    else match rule with
      | .up => some (down + 1)
      | .even => if down % 2 == 0 then some down else some (down + 1)

/-- The integer part of the decimal logarithm of `num / den`, for positive `num` and `den`:
with `a` and `b` digits, the logarithm lies strictly between `a - b - 1` and `a - b + 1`. -/
def floorLog10 (num den : Nat) : Int :=
  let t : Int := (digitCount num : Int) - digitCount den
  if num * Nat.pow 10 (-t).toNat ≥ den * Nat.pow 10 t.toNat then t else t - 1

/-- Tries the grids `10 ^ k`, `10 ^ (k - 1)`, … in turn and stops at the first that holds
a number reading back as the value. Seventeen digits always suffice, so the fuel the caller
gives is never used up; if it were, the value's own digits at the last grid are taken. -/
def shortestFrom (rule : TieRule) (iv : Interval) : Nat → Int → Nat × Int
  | 0, k =>
    let (f, d) := gridScale iv.unit k
    (iv.center * f / d, k)
  | fuel + 1, k =>
    match candidate rule iv k with
    | some n => (n, k)
    | none => shortestFrom rule iv fuel (k - 1)

/-- The shortest spelling of a value with the given sign, ties settled by `rule`. The search
starts one grid above the value's leading digit, where `10 ^ k` itself may read back as the
value. -/
def toDecimal (rule : TieRule) (negative : Bool) (v : Binary64) : Decimal :=
  if v.isZero then Decimal.scaled negative 0 0
  else
    let iv := interval v
    let (f, d) := gridScale iv.unit 0
    let top := floorLog10 (iv.center * f) d + 1
    let (n, k) := shortestFrom rule iv 20 top
    Decimal.scaled negative n k

end Binary64

end GitServer
