import GitServer.Text.Hex
import GitServer.Text.Printable

/-!
# Quoted text in messages

Error messages show an offending character or word between quotes, so that blanks and control
characters stay visible. A character that prints stands for itself; the quote in use and the
backslash take a backslash; NUL, tab, carriage return and line feed take their usual letter;
every other character that does not print, or that would join the character before it,
is written `\u{..}` with its code point in lowercase hexadecimal.
-/

namespace GitServer.Quoted

/-- The written form of one character, given the quote that encloses the text. -/
def escapeChar (quote : Char) (c : Char) : List Char :=
  if c = '\x00' then ['\\', '0']
  else if c = '\t' then ['\\', 't']
  else if c = '\r' then ['\\', 'r']
  else if c = '\n' then ['\\', 'n']
  else if c = '\\' ∨ c = quote then ['\\', c]
  else if Printable.escaped c.toNat then
    ['\\', 'u', '\x7b'] ++ (Nat.toDigits 16 c.toNat) ++ ['\x7d']
  else [c]

/-- A character between single quotes. -/
def char (c : Char) : String := String.ofList ('\'' :: escapeChar '\'' c ++ ['\''])

/-- A text between double quotes. -/
def string (s : String) : String :=
  String.ofList ('"' :: s.toList.flatMap (escapeChar '"') ++ ['"'])

/-- A byte list as decimal numbers between brackets, for bytes that are not text. -/
def byteList (bs : Bytes) : String :=
  "[" ++ ", ".intercalate (bs.map fun b => toString b.toNat) ++ "]"

end GitServer.Quoted
