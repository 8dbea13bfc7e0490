import GitServer.Bytes

/-!
# Blank characters

Names, e-mail addresses and reference files are trimmed of blanks at both ends. A blank is a
character with the Unicode White_Space property: the ASCII tab, line feed, vertical tab, form
feed, carriage return and space, and nineteen characters beyond ASCII. Trimming bytes that
need not be UTF-8 removes the encodings of blanks and stops at the first byte that does not
start one.

`isBlank_of_isWhitespace` says that every blank that core's `Char.isWhitespace` knows is a
blank here too.
-/

namespace GitServer.Blank

/-- The code points with the White_Space property. -/
def codePoints : List Nat :=
  [0x09, 0x0A, 0x0B, 0x0C, 0x0D, 0x20, 0x85, 0xA0, 0x1680, 0x2000, 0x2001, 0x2002, 0x2003,
   0x2004, 0x2005, 0x2006, 0x2007, 0x2008, 0x2009, 0x200A, 0x2028, 0x2029, 0x202F, 0x205F,
   0x3000]

/-- Whether a character is blank. -/
def isBlank (c : Char) : Bool := codePoints.contains c.toNat

/-- The UTF-8 encodings of the blanks. -/
def encodings : List Bytes := codePoints.map fun n => Bytes.ofString (String.singleton (Char.ofNat n))

/-- Removes blanks from the front of a text. -/
def trimStart (s : String) : String := String.ofList (s.toList.dropWhile isBlank)

/-- Removes blanks from the end of a text. -/
def trimEnd (s : String) : String := String.ofList ((s.toList.reverse.dropWhile isBlank).reverse)

/-- Removes blanks from both ends of a text. -/
def trim (s : String) : String := trimEnd (trimStart s)

/-- Removes, again and again, any of the given nonempty prefixes from the front. -/
def dropPrefixes (encs : List Bytes) : Bytes → Bytes
  | [] => []
  | b :: rest =>
    match encs.find? (fun e => !e.isEmpty && e.isPrefixOf (b :: rest)) with
    | some e => if e.length = 0 then b :: rest else dropPrefixes encs ((b :: rest).drop e.length)
    | none => b :: rest
termination_by bs => bs.length
decreasing_by simp only [List.length_drop, List.length_cons]; omega

/-- Removes encoded blanks from the front of a byte string. -/
def trimBytesStart (bs : Bytes) : Bytes := dropPrefixes encodings bs

/-- Removes encoded blanks from the end of a byte string. -/
def trimBytesEnd (bs : Bytes) : Bytes :=
  (dropPrefixes (encodings.map List.reverse) bs.reverse).reverse

/-- Removes encoded blanks from both ends of a byte string. -/
def trimBytes (bs : Bytes) : Bytes := trimBytesEnd (trimBytesStart bs)

theorem isBlank_of_isWhitespace (c : Char) (h : c.isWhitespace) : isBlank c := by
  simp only [Char.isWhitespace, Bool.or_eq_true, decide_eq_true_eq] at h
  rcases h with ((h | h) | h) | h <;> simp [isBlank, codePoints, h, Char.toNat]

end GitServer.Blank
