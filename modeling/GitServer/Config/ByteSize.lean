import GitServer.Text.Blank

/-!
# Byte sizes

Buffer and cache sizes in the configuration may be written with a unit: a decimal number,
then optionally `B`, `K`/`KB`/`KiB`, `M`/`MB`/`MiB` or `G`/`GB`/`GiB` in any case, all
binary multiples. The result must fit in 64 bits.
-/

namespace GitServer.Config

/-- The multiplier of a unit, already trimmed and in upper case. -/
def unitMultiplier (unit : String) : Option Nat :=
  if unit = "" ∨ unit = "B" then some 1
  else if unit = "K" ∨ unit = "KB" ∨ unit = "KIB" then some (Nat.pow 2 10)
  else if unit = "M" ∨ unit = "MB" ∨ unit = "MIB" then some (Nat.pow 2 20)
  else if unit = "G" ∨ unit = "GB" ∨ unit = "GIB" then some (Nat.pow 2 30)
  else none

/-- Reads a byte size; the error text names the raw input. -/
def parseByteSize (raw : String) : Except String Nat :=
  let text := (Blank.trim raw).toList
  let digits := text.takeWhile Char.isDigit
  let unit := String.ofList ((Blank.trim (String.ofList (text.drop digits.length))).toList.map
    Char.toUpper)
  let value := digits.foldl (fun acc c => acc * 10 + (c.toNat - 48)) 0
  if digits.isEmpty ∨ value ≥ Nat.pow 2 64 then .error ("invalid byte size `" ++ raw ++ "`")
  else
    match unitMultiplier unit with
    | none => .error ("invalid byte size unit in `" ++ raw ++ "`")
    | some m =>
      if value * m ≥ Nat.pow 2 64 then .error ("byte size `" ++ raw ++ "` overflows") else .ok (value * m)

end GitServer.Config
