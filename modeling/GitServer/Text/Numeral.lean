/-!
# Reading numerals

Timestamps, sizes and pkt-line lengths are read from digit strings. A numeral is an optional
sign followed by at least one digit of the base and nothing else; a number outside the range
of the field is refused. A minus sign is allowed only where the field can be negative.
-/

namespace GitServer.Numeral

/-- The value of a digit in a base up to sixteen, either case. -/
def digitValue? (base : Nat) (c : Char) : Option Nat :=
  let v :=
    if '0' ≤ c ∧ c ≤ '9' then some (c.toNat - 48)
    else if 'a' ≤ c ∧ c ≤ 'z' then some (c.toNat - 87)
    else if 'A' ≤ c ∧ c ≤ 'Z' then some (c.toNat - 55)
    else none
  v.bind fun d => if d < base then some d else none

/-- The value of a nonempty digit string. -/
def digits? (base : Nat) (cs : List Char) : Option Nat :=
  if cs.isEmpty then none
  else cs.foldlM (fun acc c => (digitValue? base c).map (acc * base + ·)) 0

/-- Reads an unsigned numeral with an optional plus sign, below `bound`. -/
def parseNat? (base bound : Nat) (s : String) : Option Nat :=
  let cs := s.toList
  let body := match cs with
    | '+' :: rest => rest
    | _ => cs
  (digits? base body).bind fun n => if n < bound then some n else none

/-- Reads a signed decimal numeral that fits in 64 bits. -/
def parseInt64? (s : String) : Option Int :=
  match s.toList with
  | '-' :: rest => (digits? 10 rest).bind fun n =>
      if n ≤ Nat.pow 2 63 then some (-(n : Int)) else none
  | '+' :: rest => (digits? 10 rest).bind fun n => if n < Nat.pow 2 63 then some (n : Int) else none
  | cs => (digits? 10 cs).bind fun n => if n < Nat.pow 2 63 then some (n : Int) else none

end GitServer.Numeral
