/-!
# Reading YAML: tokens

The configuration is YAML. Its reader works in two stages, tokens and then events, the way
the usual C reader of YAML does, so that a document it refuses is refused here with the same
words at the same place.

The scanner turns characters into tokens. Indentation opens and closes block collections:
a deeper column opens a block sequence or mapping and a shallower one closes it. A key is
recognised only once its `:` is seen, so the scanner keeps, for each flow level, the place a
*simple key* could have started; when the `:` comes, a key token (and, in block context, a
mapping start) is inserted back at that place. A simple key may not span lines, and one that
stands at the indentation of a block mapping must be followed by its `:`.

Tokens are produced on demand: the parser asks for the next one, and the scanner reads ahead
only while a pending simple key could still turn the first waiting token into a key. A fault
is therefore reported when the reading reaches it, after the tokens before it were used.

A position is kept twice: as the number of characters read, to look ahead in the text, and
as a mark whose index counts the bytes of their UTF-8 encoding, as the marks of the C reader
do. Lines and columns count from zero and are shown from one; a column counts characters.
-/

namespace GitServer.Yaml

/-- A place in the text: the bytes before it, its line and its column. -/
structure Mark where
  index : Nat
  line : Nat
  column : Nat
deriving DecidableEq, Repr, Inhabited

namespace Mark

/-- Whether a mark is the first character of the text. -/
def atOrigin (m : Mark) : Bool := m.line == 0 && m.column == 0

/-- A mark as text: its line and column counted from one, or its index at the origin. -/
def describe (m : Mark) : String :=
  if m.atOrigin then "position " ++ toString m.index
  else "line " ++ toString (m.line + 1) ++ " column " ++ toString (m.column + 1)

end Mark

/-- Why a text is not YAML: the problem, where it was found, the offset of a character that
may not appear at all, and what was being read. -/
structure Fault where
  problem : String
  mark : Mark
  offset : Nat
  context : Option (String × Mark)
deriving DecidableEq, Repr

/-- A fault as text. Positions at the origin are left out, and the context's position is
given only when it differs from the problem's. -/
def Fault.message (f : Fault) : String :=
  let head :=
    if !f.mark.atOrigin then f.problem ++ " at " ++ f.mark.describe
    else if f.offset != 0 then f.problem ++ " at position " ++ toString f.offset
    else f.problem
  match f.context with
  | none => head
  | some (c, m) =>
    head ++ ", " ++ c ++
      (if !m.atOrigin && (m.line != f.mark.line || m.column != f.mark.column) then
        " at " ++ m.describe else "")

/-- How a scalar was written. -/
inductive ScalarStyle where
  | plain
  | singleQuoted
  | doubleQuoted
  | literal
  | folded
deriving DecidableEq, Repr, Inhabited

/-- The kinds of tokens. -/
inductive TokenKind where
  | streamStart
  | streamEnd
  | versionDirective (major minor : Nat)
  | tagDirective (handle pfx : String)
  | documentStart
  | documentEnd
  | blockSequenceStart
  | blockMappingStart
  | blockEnd
  | flowSequenceStart
  | flowSequenceEnd
  | flowMappingStart
  | flowMappingEnd
  | blockEntry
  | flowEntry
  | key
  | value
  | alias (name : String)
  | anchor (name : String)
  | tag (handle suffix : String)
  | scalar (text : String) (style : ScalarStyle)
deriving DecidableEq, Repr, Inhabited

/-- A token and the marks where it starts and stops. -/
structure Token where
  kind : TokenKind
  start : Mark
  stop : Mark
deriving DecidableEq, Repr, Inhabited

/-- A place where a simple key may have started: whether it still may, whether it must be
one, the number of the token it would come before, and its mark. -/
structure SimpleKey where
  possible : Bool
  required : Bool
  tokenNumber : Nat
  mark : Mark
deriving DecidableEq, Repr

/-- A simple key that cannot start anywhere. -/
def SimpleKey.none : SimpleKey := ⟨false, false, 0, ⟨0, 0, 0⟩⟩

/-- The scanner: the text, the number of characters read and the mark they reach, the tokens
waiting and how many were taken, the indentation levels, the simple keys of the flow levels
(innermost first) and the flow depth. -/
structure Scanner where
  input : Array Char
  pos : Nat
  mark : Mark
  tokens : List Token
  tokensParsed : Nat
  started : Bool
  indent : Int
  indents : List Int
  simpleKeyAllowed : Bool
  simpleKeys : List SimpleKey
  flowLevel : Nat
deriving Repr

/-- A scanner at the start of a text. The text is known to be UTF-8, so a byte order mark
that opens it is not taken away here: it is skipped as the first character of a line, and it
takes a column like any other. -/
def Scanner.start (text : String) : Scanner :=
  ⟨text.toList.toArray, 0, ⟨0, 0, 0⟩, [], 0, false, -1, [], false, [], 0⟩

/-- The character `k` places ahead, if the text goes that far. -/
def Scanner.at (s : Scanner) (k : Nat) : Option Char := s.input[s.pos + k]?

/-- Scanning steps: they move through the text and may fail. -/
abbrev ScanM := StateT Scanner (Except Fault)

/-! ## Characters -/

/-- Whether a character ends a line. -/
def isBreakChar (c : Char) : Bool :=
  c == '\r' || c == '\n' || c == '\u0085' || c == '\u2028' || c == '\u2029'

/-- A line end ahead. -/
def breakAt : Option Char → Bool
  | some c => isBreakChar c
  | none => false

/-- A space or tab ahead. -/
def blankAt : Option Char → Bool
  | some c => c == ' ' || c == '\t'
  | none => false

/-- The end of the text ahead. -/
def endAt : Option Char → Bool
  | some _ => false
  | none => true

/-- A line end or the end of the text ahead. -/
def breakzAt (c : Option Char) : Bool := breakAt c || endAt c

/-- A blank, a line end or the end of the text ahead. -/
def blankzAt (c : Option Char) : Bool := blankAt c || breakzAt c

/-- A character of an anchor name or a tag handle ahead: ASCII letters, digits, `_`, `-`. -/
def alphaAt : Option Char → Bool
  | some c => (c.isAlphanum && c.toNat < 128) || c == '_' || c == '-'
  | none => false

/-- A given character ahead. -/
def charAt (o : Option Char) (c : Char) : Bool := o == some c

/-- One of the given characters ahead. -/
def oneOf (o : Option Char) (cs : List Char) : Bool :=
  match o with
  | some c => cs.contains c
  | none => false

/-- Whether a character may appear in the text at all: tab, line ends and the printable
characters. -/
def isPrintable (c : Char) : Bool :=
  let n := c.toNat
  n == 0x9 || n == 0xA || n == 0xD || (0x20 ≤ n && n ≤ 0x7E) || n == 0x85 ||
    (0xA0 ≤ n && n ≤ 0xD7FF) || (0xE000 ≤ n && n ≤ 0xFFFD) || (0x10000 ≤ n && n ≤ 0x10FFFF)

/-- The fault for a character that may not appear, if the text has one: the offset given is
the byte offset of the first such character. -/
def checkPrintable (text : String) : Option Fault :=
  let cs := text.toList
  match cs.findIdx? (fun c => !isPrintable c) with
  | some i =>
    let offset := (String.ofList (cs.take i)).utf8ByteSize
    some ⟨"control characters are not allowed", ⟨0, 0, 0⟩, offset, none⟩
  | none => none

/-! ## Moving through the text -/

/-- The character `k` places ahead. -/
def look (k : Nat) : ScanM (Option Char) := do pure ((← get).at k)

/-- The number of bytes of the character ahead in its UTF-8 encoding. -/
def Scanner.width (s : Scanner) : Nat := ((s.at 0).map Char.utf8Size).getD 1

/-- Moves past one character of a line. -/
def skip : ScanM Unit :=
  modify fun s =>
    { s with pos := s.pos + 1, mark := ⟨s.mark.index + s.width, s.mark.line, s.mark.column + 1⟩ }

/-- Moves past `n` characters of a line. -/
def skipN : Nat → ScanM Unit
  | 0 => pure ()
  | n + 1 => do skip; skipN n

/-- Moves past one character of a line and gives it. -/
def readChar : ScanM String := do
  let c ← look 0
  skip
  pure (match c with
    | some c => String.singleton c
    | none => "")

/-- Moves past a line end and gives it as read: a carriage return with or without a line
feed, and the next-line character, read as a line feed; the line and paragraph separators
are kept. -/
def readBreak : ScanM String := do
  let s ← get
  match s.at 0 with
  | some c =>
    if c == '\r' && s.at 1 == some '\n' then
      set { s with pos := s.pos + 2, mark := ⟨s.mark.index + 2, s.mark.line + 1, 0⟩ }
      pure "\n"
    else if isBreakChar c then
      set { s with pos := s.pos + 1, mark := ⟨s.mark.index + s.width, s.mark.line + 1, 0⟩ }
      pure (if c == '\u2028' || c == '\u2029' then String.singleton c else "\n")
    else pure ""
  | none => pure ""

/-- Moves past characters while they satisfy `p`, at most `n` of them. -/
def skipWhile (p : Option Char → Bool) : Nat → ScanM Unit
  | 0 => pure ()
  | n + 1 => do
    if p (← look 0) then
      skip
      skipWhile p n

/-- Reads characters while they satisfy `p`, at most `n` of them. -/
def readWhile (p : Option Char → Bool) : Nat → ScanM String
  | 0 => pure ""
  | n + 1 => do
    if p (← look 0) then
      let c ← readChar
      pure (c ++ (← readWhile p n))
    else pure ""

/-- How many characters are left, as a bound for loops over them. -/
def remaining : ScanM Nat := do
  let s ← get
  pure (s.input.size - s.pos + 1)

/-- Fails at the current position. -/
def fault {α} (context : Option (String × Mark)) (problem : String) : ScanM α := do
  throw ⟨problem, (← get).mark, 0, context⟩

/-! ## The token queue and simple keys -/

/-- Inserts an element at a position of a list, or at its end. -/
def insertAt {α} : List α → Nat → α → List α
  | xs, 0, a => a :: xs
  | [], _, a => [a]
  | x :: xs, n + 1, a => x :: insertAt xs n a

/-- Adds a token at the end of the queue. -/
def enqueue (kind : TokenKind) (start stop : Mark) : ScanM Unit :=
  modify fun s => { s with tokens := s.tokens ++ [⟨kind, start, stop⟩] }

/-- The fault of a simple key that must be one but has no `:`. -/
def keyWithoutColon (k : SimpleKey) : ScanM Unit :=
  fault (some ("while scanning a simple key", k.mark)) "could not find expected ':'"

/-- Forgets the simple keys that can no longer be keys: those on an earlier line or more
than 1024 bytes back. A required one is a fault. -/
def staleSimpleKeys : ScanM Unit := do
  let s ← get
  for k in s.simpleKeys.reverse do
    if k.possible && k.required && (k.mark.line < s.mark.line || k.mark.index + 1024 < s.mark.index) then
      keyWithoutColon k
  let stale (k : SimpleKey) : Bool :=
    k.possible && (k.mark.line < s.mark.line || k.mark.index + 1024 < s.mark.index)
  set { s with simpleKeys := s.simpleKeys.map fun k => if stale k then { k with possible := false } else k }

/-- Forgets the simple key of the current flow level; a required one is a fault. -/
def removeSimpleKey : ScanM Unit := do
  let s ← get
  match s.simpleKeys with
  | k :: rest =>
    if k.possible && k.required then keyWithoutColon k
    set { s with simpleKeys := { k with possible := false } :: rest }
  | [] => pure ()

/-- Records that a simple key may start here, if one is allowed. It must be a key when it
stands at the indentation of a block mapping. -/
def saveSimpleKey : ScanM Unit := do
  let s ← get
  if s.simpleKeyAllowed then
    let key : SimpleKey :=
      ⟨true, s.flowLevel == 0 && s.indent == (s.mark.column : Int),
        s.tokensParsed + s.tokens.length, s.mark⟩
    removeSimpleKey
    modify fun s => { s with simpleKeys := key :: s.simpleKeys.drop 1 }

/-- Enters a flow collection. -/
def increaseFlowLevel : ScanM Unit :=
  modify fun s => { s with simpleKeys := SimpleKey.none :: s.simpleKeys,
                           flowLevel := s.flowLevel + 1 }

/-- Leaves a flow collection. -/
def decreaseFlowLevel : ScanM Unit :=
  modify fun s =>
    if s.flowLevel > 0 then
      { s with flowLevel := s.flowLevel - 1, simpleKeys := s.simpleKeys.drop 1 }
    else s

/-- In block context, opens a block collection when `column` is deeper than the current
indentation; its start token goes at the end of the queue, or before token `number`. -/
def rollIndent (column : Nat) (number : Option Nat) (kind : TokenKind) (mark : Mark) :
    ScanM Unit := do
  let s ← get
  if s.flowLevel == 0 && s.indent < (column : Int) then
    let t : Token := ⟨kind, mark, mark⟩
    set { s with
      indents := s.indent :: s.indents
      indent := column
      tokens := match number with
        | none => s.tokens ++ [t]
        | some n => insertAt s.tokens (n - s.tokensParsed) t }

/-- In block context, closes every block collection indented deeper than `column`. -/
def unrollIndent (column : Int) : ScanM Unit := do
  let s ← get
  if s.flowLevel == 0 then go (s.indents.length + 1)
where
  go : Nat → ScanM Unit
    | 0 => pure ()
    | n + 1 => do
      let s ← get
      if s.indent > column then
        match s.indents with
        | i :: rest =>
          set { s with indent := i, indents := rest,
                       tokens := s.tokens ++ [Token.mk .blockEnd s.mark s.mark] }
          go n
        | [] => pure ()

/-! ## Between tokens -/

/-- Skips blanks, comments, line ends and a byte order mark that starts a line, up to the
next token. Tabs are skipped only in
flow context or where no simple key may start; a line end in block context allows one. -/
def scanToNextToken : Nat → ScanM Unit
  | 0 => pure ()
  | n + 1 => do
    let s ← get
    if s.mark.column == 0 && s.at 0 == some '\uFEFF' then skip
    let fuel ← remaining
    let s ← get
    let tabs := s.flowLevel > 0 || !s.simpleKeyAllowed
    skipWhile (fun c => charAt c ' ' || (tabs && charAt c '\t')) fuel
    if charAt (← look 0) '#' then skipWhile (fun c => !breakzAt c) fuel
    if breakAt (← look 0) then
      let _ ← readBreak
      if (← get).flowLevel == 0 then modify fun s => { s with simpleKeyAllowed := true }
      scanToNextToken n

/-! ## Indicators -/

/-- The start of the stream. -/
def fetchStreamStart : ScanM Unit := do
  modify fun s => { s with indent := -1, simpleKeyAllowed := true, started := true,
                           simpleKeys := [SimpleKey.none] }
  let m := (← get).mark
  enqueue .streamStart m m

/-- The end of the stream: the last line is ended, every block collection closed. -/
def fetchStreamEnd : ScanM Unit := do
  let s ← get
  if s.mark.column != 0 then
    set { s with mark := { s.mark with column := 0, line := s.mark.line + 1 } }
  unrollIndent (-1)
  removeSimpleKey
  modify fun s => { s with simpleKeyAllowed := false }
  let m := (← get).mark
  enqueue .streamEnd m m

/-- A `---` or `...` line. -/
def fetchDocumentIndicator (kind : TokenKind) : ScanM Unit := do
  unrollIndent (-1)
  removeSimpleKey
  modify fun s => { s with simpleKeyAllowed := false }
  let start := (← get).mark
  skipN 3
  enqueue kind start (← get).mark

/-- A `[` or `{`. -/
def fetchFlowCollectionStart (kind : TokenKind) : ScanM Unit := do
  saveSimpleKey
  increaseFlowLevel
  modify fun s => { s with simpleKeyAllowed := true }
  let start := (← get).mark
  skip
  enqueue kind start (← get).mark

/-- A `]` or `}`. -/
def fetchFlowCollectionEnd (kind : TokenKind) : ScanM Unit := do
  removeSimpleKey
  decreaseFlowLevel
  modify fun s => { s with simpleKeyAllowed := false }
  let start := (← get).mark
  skip
  enqueue kind start (← get).mark

/-- A `,` in a flow collection. -/
def fetchFlowEntry : ScanM Unit := do
  removeSimpleKey
  modify fun s => { s with simpleKeyAllowed := true }
  let start := (← get).mark
  skip
  enqueue .flowEntry start (← get).mark

/-- A `-` entry; in block context it may open a block sequence. -/
def fetchBlockEntry : ScanM Unit := do
  let s ← get
  if s.flowLevel == 0 then
    if !s.simpleKeyAllowed then
      fault none "block sequence entries are not allowed in this context"
    rollIndent s.mark.column none .blockSequenceStart s.mark
  removeSimpleKey
  modify fun s => { s with simpleKeyAllowed := true }
  let start := (← get).mark
  skip
  enqueue .blockEntry start (← get).mark

/-- A `?` key indicator; in block context it may open a block mapping. -/
def fetchKey : ScanM Unit := do
  let s ← get
  if s.flowLevel == 0 then
    if !s.simpleKeyAllowed then fault none "mapping keys are not allowed in this context"
    rollIndent s.mark.column none .blockMappingStart s.mark
  removeSimpleKey
  modify fun s => { s with simpleKeyAllowed := s.flowLevel == 0 }
  let start := (← get).mark
  skip
  enqueue .key start (← get).mark

/-- A `:` value indicator. After a possible simple key it inserts the key token there (and
may open a block mapping at the key); otherwise it follows an explicit key. -/
def fetchValue : ScanM Unit := do
  let s ← get
  match s.simpleKeys with
  | k :: rest =>
    if k.possible then
      let keyToken : Token := ⟨.key, k.mark, k.mark⟩
      set { s with tokens := insertAt s.tokens (k.tokenNumber - s.tokensParsed) keyToken }
      rollIndent k.mark.column (some k.tokenNumber) .blockMappingStart k.mark
      modify fun s => { s with simpleKeys := { k with possible := false } :: rest,
                               simpleKeyAllowed := false }
    else complexValue
  | [] => complexValue
  let start := (← get).mark
  skip
  enqueue .value start (← get).mark
where
  complexValue : ScanM Unit := do
    let s ← get
    if s.flowLevel == 0 then
      if !s.simpleKeyAllowed then fault none "mapping values are not allowed in this context"
      rollIndent s.mark.column none .blockMappingStart s.mark
    modify fun s => { s with simpleKeyAllowed := s.flowLevel == 0 }

/-! ## Anchors, aliases and tags -/

/-- The value of a hexadecimal digit. -/
def hexDigit : Option Char → Option Nat
  | some c =>
    if '0' ≤ c ∧ c ≤ '9' then some (c.toNat - 48)
    else if 'a' ≤ c ∧ c ≤ 'f' then some (c.toNat - 87)
    else if 'A' ≤ c ∧ c ≤ 'F' then some (c.toNat - 55)
    else none
  | none => none

/-- An anchor `&name` or an alias `*name`. -/
def fetchAnchor (isAlias : Bool) : ScanM Unit := do
  saveSimpleKey
  modify fun s => { s with simpleKeyAllowed := false }
  let start := (← get).mark
  skip
  let name ← readWhile alphaAt (← remaining)
  let next ← look 0
  if name.isEmpty ||
      !(blankzAt next || oneOf next ['?', ':', ',', ']', '\x7d', '%', '@', '\x60']) then
    fault (some (if isAlias then "while scanning an alias" else "while scanning an anchor",
      start)) "did not find expected alphabetic or numeric character"
  enqueue (if isAlias then .alias name else .anchor name) start (← get).mark

/-- A character of a tag's URI ahead; a verbatim tag also allows flow indicators. -/
def uriAt (verbatim : Bool) (o : Option Char) : Bool :=
  alphaAt o || oneOf o [';', '/', '?', ':', '@', '&', '=', '+', '$', '.', '%', '!', '~', '*',
    '\'', '(', ')'] || (verbatim && oneOf o [',', '[', ']'])

/-- What is being read when a tag's URI fails: a tag, or the prefix of a `%TAG` directive. -/
def uriContext (directive : Bool) (start : Mark) : Option (String × Mark) :=
  some (if directive then "while parsing a %TAG directive" else "while parsing a tag", start)

/-- The octet of the `%` escape ahead, which stays unread. -/
def uriOctet (ctx : Option (String × Mark)) : ScanM Nat := do
  let s ← get
  match s.at 0, hexDigit (s.at 1), hexDigit (s.at 2) with
  | some '%', some h, some l => pure (h * 16 + l)
  | _, _, _ => fault ctx "did not find URI escaped octet"

/-- The number of octets of a UTF-8 sequence by its leading octet; zero if it cannot lead. -/
def sequenceLength (octet : Nat) : Nat :=
  if octet < 0x80 then 1
  else if octet / 32 == 6 then 2
  else if octet / 16 == 14 then 3
  else if octet / 8 == 30 then 4
  else 0

/-- Reads `n` escaped octets that continue a UTF-8 sequence. -/
def uriTrailing (ctx : Option (String × Mark)) : Nat → ScanM (List Nat)
  | 0 => pure []
  | n + 1 => do
    let o ← uriOctet ctx
    if o / 64 != 2 then fault ctx "found an incorrect trailing UTF-8 octet"
    skipN 3
    pure (o :: (← uriTrailing ctx n))

/-- Reads the `%` escapes of one UTF-8 sequence in a tag's URI. -/
def uriEscapes (ctx : Option (String × Mark)) : ScanM (List Nat) := do
  let first ← uriOctet ctx
  let length := sequenceLength first
  if length == 0 then fault ctx "found an incorrect leading UTF-8 octet"
  skipN 3
  pure (first :: (← uriTrailing ctx (length - 1)))

/-- Text from octets; octets that are not UTF-8 are taken one character each. -/
def textOfOctets (octets : List Nat) : String :=
  match String.fromUTF8? ⟨(octets.map Nat.toUInt8).toArray⟩ with
  | some t => t
  | none => String.ofList (octets.map Char.ofNat)

/-- Reads the characters of a tag's URI, the octets so far kept in reverse, `n` items read. -/
def uriLoop (verbatim : Bool) (ctx : Option (String × Mark)) :
    Nat → List Nat → Nat → ScanM (List Nat × Nat)
  | 0, acc, n => pure (acc, n)
  | fuel + 1, acc, n => do
    let c ← look 0
    if !uriAt verbatim c then return (acc, n)
    if charAt c '%' then
      let octets ← uriEscapes ctx
      uriLoop verbatim ctx fuel (octets.reverse ++ acc) (n + 1)
    else
      let t ← readChar
      uriLoop verbatim ctx fuel ((t.toUTF8.toList.map UInt8.toNat).reverse ++ acc) (n + 1)

/-- Reads a tag's URI with its `%` escapes decoded, after `head` without its leading `!`;
the URI and the head together must not be empty. -/
def scanTagUri (verbatim directive : Bool) (head : String) (start : Mark) : ScanM String := do
  let ctx := uriContext directive start
  let (acc, n) ← uriLoop verbatim ctx (← remaining) [] 0
  if head.isEmpty && n == 0 then fault ctx "did not find expected tag URI"
  pure ((head.drop 1).toString ++ textOfOctets acc.reverse)

/-- Reads a tag handle: `!`, then letters, digits, `_` and `-`, then `!` if there is one. A
handle in a `%TAG` directive must end in `!` unless it is the single `!`. -/
def scanTagHandle (directive : Bool) (start : Mark) : ScanM String := do
  if !charAt (← look 0) '!' then
    fault (some (if directive then "while scanning a tag directive" else "while scanning a tag",
      start)) "did not find expected '!'"
  skip
  let name ← readWhile alphaAt (← remaining)
  if charAt (← look 0) '!' then
    skip
    pure ("!" ++ name ++ "!")
  else
    if directive && !name.isEmpty then
      fault (some ("while parsing a tag directive", start)) "did not find expected '!'"
    pure ("!" ++ name)

/-- A tag: `!<uri>`, `!handle!suffix`, `!suffix` or `!`. -/
def fetchTag : ScanM Unit := do
  saveSimpleKey
  modify fun s => { s with simpleKeyAllowed := false }
  let start := (← get).mark
  let ctx := some ("while scanning a tag", start)
  let (handle, suffix) ← if charAt (← look 1) '<' then do
      skipN 2
      let suffix ← scanTagUri true false "" start
      if !charAt (← look 0) '>' then fault ctx "did not find the expected '>'"
      skip
      pure ("", suffix)
    else do
      let handle ← scanTagHandle false start
      if handle.length > 1 && handle.endsWith "!" then
        pure (handle, ← scanTagUri false false "" start)
      else
        let suffix ← scanTagUri false false handle start
        if suffix.isEmpty then pure ("", "!") else pure ("!", suffix)
  let next ← look 0
  if !blankzAt next && !((← get).flowLevel > 0 && charAt next ',') then
    fault ctx "did not find expected whitespace or line break"
  enqueue (.tag handle suffix) start (← get).mark

/-! ## Directives -/

/-- Reads a number of a `%YAML` directive: at most nine digits. -/
def versionNumber (start : Mark) : Nat → Nat → Nat → ScanM Nat
  | 0, value, _ => pure value
  | fuel + 1, value, length => do
    let ctx := some ("while scanning a %YAML directive", start)
    match hexDigit (← look 0) with
    | some d =>
      if d < 10 then
        if length + 1 > 9 then fault ctx "found extremely long version number"
        skip
        versionNumber start fuel (value * 10 + d) (length + 1)
      else if length == 0 then fault ctx "did not find expected version number"
      else pure value
    | none =>
      if length == 0 then fault ctx "did not find expected version number" else pure value

/-- A `%YAML` or `%TAG` line. -/
def fetchDirective : ScanM Unit := do
  unrollIndent (-1)
  removeSimpleKey
  modify fun s => { s with simpleKeyAllowed := false }
  let start := (← get).mark
  let ctx := some ("while scanning a directive", start)
  skip
  let name ← readWhile alphaAt (← remaining)
  if name.isEmpty then fault ctx "could not find expected directive name"
  if !blankzAt (← look 0) then fault ctx "found unexpected non-alphabetical character"
  let fuel ← remaining
  let kind ← if name == "YAML" then do
      skipWhile blankAt fuel
      let major ← versionNumber start 10 0 0
      if !charAt (← look 0) '.' then
        fault (some ("while scanning a %YAML directive", start))
          "did not find expected digit or '.' character"
      skip
      let minor ← versionNumber start 10 0 0
      pure (TokenKind.versionDirective major minor)
    else if name == "TAG" then do
      let tagCtx := some ("while scanning a %TAG directive", start)
      skipWhile blankAt fuel
      let handle ← scanTagHandle true start
      if !blankAt (← look 0) then fault tagCtx "did not find expected whitespace"
      skipWhile blankAt fuel
      let pfx ← scanTagUri true true "" start
      if !blankzAt (← look 0) then fault tagCtx "did not find expected whitespace or line break"
      pure (TokenKind.tagDirective handle pfx)
    else fault ctx "found unknown directive name"
  let stop := (← get).mark
  skipWhile blankAt fuel
  if charAt (← look 0) '#' then skipWhile (fun c => !breakzAt c) fuel
  if !breakzAt (← look 0) then fault ctx "did not find expected comment or line break"
  let _ ← readBreak
  enqueue kind start stop

/-! ## Scalars -/

/-- The text of a scalar being read, with the blanks and line ends met after it that are not
yet joined into it. -/
structure Folding where
  text : String
  leadingBreak : String
  trailingBreaks : String
  whitespaces : String
  leadingBlanks : Bool
  stop : Mark
deriving Repr

/-- An empty text at a mark. -/
def Folding.empty (m : Mark) : Folding := ⟨"", "", "", "", false, m⟩

/-- Joins the pending blanks and line ends into the text: a single line feed folds to a
space, more line feeds keep all but the first, and blanks within a line stay. -/
def Folding.join (f : Folding) : Folding :=
  if f.leadingBlanks then
    if f.leadingBreak.startsWith "\n" then
      if f.trailingBreaks.isEmpty then
        { f with text := f.text ++ " ", leadingBreak := "", leadingBlanks := false }
      else
        { f with text := f.text ++ f.trailingBreaks, trailingBreaks := "", leadingBreak := "",
                 leadingBlanks := false }
    else
      { f with text := f.text ++ f.leadingBreak ++ f.trailingBreaks, leadingBreak := "",
               trailingBreaks := "", leadingBlanks := false }
  else if !f.whitespaces.isEmpty then { f with text := f.text ++ f.whitespaces, whitespaces := "" }
  else f

/-- Reads blanks and line ends after scalar text; `tabCheck` refuses a tab in the
indentation of a continuation line. -/
def foldBlanks (tabCheck : Option (Mark × Int)) : Nat → Folding → ScanM Folding
  | 0, f => pure f
  | n + 1, f => do
    let s ← get
    let c := s.at 0
    if blankAt c then
      if let some (start, indent) := tabCheck then
        if f.leadingBlanks && (s.mark.column : Int) < indent && charAt c '\t' then
          fault (some ("while scanning a plain scalar", start))
            "found a tab character that violates indentation"
      if !f.leadingBlanks then
        let ch ← readChar
        foldBlanks tabCheck n { f with whitespaces := f.whitespaces ++ ch }
      else
        skip
        foldBlanks tabCheck n f
    else if breakAt c then
      let br ← readBreak
      if !f.leadingBlanks then
        foldBlanks tabCheck n { f with whitespaces := "", leadingBreak := br, leadingBlanks := true }
      else foldBlanks tabCheck n { f with trailingBreaks := f.trailingBreaks ++ br }
    else pure f

/-- Whether a document marker `---` or `...` starts at the current position. -/
def atDocumentMarker : ScanM Bool := do
  let s ← get
  pure (s.mark.column == 0 &&
    ((charAt (s.at 0) '-' && charAt (s.at 1) '-' && charAt (s.at 2) '-') ||
      (charAt (s.at 0) '.' && charAt (s.at 1) '.' && charAt (s.at 2) '.')) &&
    blankzAt (s.at 3))

/-- Reads the characters of a plain scalar up to a blank or an indicator that ends it. -/
def plainChars (start : Mark) : Nat → Folding → ScanM Folding
  | 0, f => pure f
  | n + 1, f => do
    let s ← get
    let c0 := s.at 0
    let c1 := s.at 1
    if blankzAt c0 then return f
    if s.flowLevel > 0 && charAt c0 ':' && oneOf c1 [',', '?', '[', ']', '\x7b', '\x7d'] then
      fault (some ("while scanning a plain scalar", start)) "found unexpected ':'"
    if (charAt c0 ':' && blankzAt c1) ||
        (s.flowLevel > 0 && oneOf c0 [',', '[', ']', '\x7b', '\x7d']) then
      return f
    let f := f.join
    let ch ← readChar
    plainChars start n { f with text := f.text ++ ch, stop := (← get).mark }

/-- Reads a plain scalar, line after line while the lines are indented enough. -/
def plainLoop (start : Mark) (indent : Int) : Nat → Folding → ScanM Folding
  | 0, f => pure f
  | n + 1, f => do
    if ← atDocumentMarker then return f
    if charAt (← look 0) '#' then return f
    let fuel ← remaining
    let f ← plainChars start fuel f
    let c ← look 0
    if !(blankAt c || breakAt c) then return f
    let f ← foldBlanks (some (start, indent)) fuel f
    let s ← get
    if s.flowLevel == 0 && (s.mark.column : Int) < indent then return f
    plainLoop start indent n f

/-- A plain scalar. A line end inside it lets a simple key start after it. -/
def fetchPlainScalar : ScanM Unit := do
  saveSimpleKey
  modify fun s => { s with simpleKeyAllowed := false }
  let s ← get
  let start := s.mark
  let f ← plainLoop start (s.indent + 1) (← remaining) (Folding.empty start)
  enqueue (.scalar f.text .plain) start f.stop
  if f.leadingBlanks then modify fun s => { s with simpleKeyAllowed := true }

/-- The text of a one-character escape in a double-quoted scalar. -/
def simpleEscape : Char → Option String
  | '0' => some "\x00"
  | 'a' => some "\x07"
  | 'b' => some "\x08"
  | 't' => some "\t"
  | '\t' => some "\t"
  | 'n' => some "\n"
  | 'v' => some "\x0B"
  | 'f' => some "\x0C"
  | 'r' => some "\r"
  | 'e' => some "\x1B"
  | ' ' => some " "
  | '"' => some "\""
  | '/' => some "/"
  | '\\' => some "\\"
  | 'N' => some "\u0085"
  | '_' => some "\u00A0"
  | 'L' => some "\u2028"
  | 'P' => some "\u2029"
  | _ => none

/-- The number of hexadecimal digits of a code escape. -/
def codeLength : Char → Option Nat
  | 'x' => some 2
  | 'u' => some 4
  | 'U' => some 8
  | _ => none

/-- The value of `n` hexadecimal digits from `k` places ahead. -/
def hexValue (s : Scanner) (k : Nat) : Nat → Option Nat
  | 0 => some 0
  | n + 1 => do
    let d ← hexDigit (s.at k)
    let rest ← hexValue s (k + 1) n
    pure (d * Nat.pow 16 n + rest)

/-- Reads an escape sequence of a double-quoted scalar, its backslash ahead. -/
def quotedEscape (start : Mark) : ScanM String := do
  let s ← get
  let ctx := some ("while parsing a quoted scalar", start)
  let c := (s.at 1).getD ' '
  match simpleEscape c with
  | some t => skipN 2; pure t
  | none =>
    match codeLength c with
    | none => fault ctx "found unknown escape character"
    | some len =>
      skipN 2
      let s ← get
      match hexValue s 0 len with
      | none => fault ctx "did not find expected hexadecimal number"
      | some v =>
        if (0xD800 ≤ v ∧ v ≤ 0xDFFF) ∨ v > 0x10FFFF then
          fault ctx "found invalid Unicode character escape code"
        skipN len
        pure (String.singleton (Char.ofNat v))

/-- Reads the non-blank characters of a quoted scalar up to a blank or its closing quote; an
escaped line end is read as a line end to be folded. -/
def quotedChars (single : Bool) (start : Mark) : Nat → Folding → ScanM Folding
  | 0, f => pure f
  | n + 1, f => do
    let s ← get
    let c0 := s.at 0
    let quote := if single then '\'' else '"'
    if blankzAt c0 then return f
    if single && charAt c0 '\'' && charAt (s.at 1) '\'' then
      skipN 2
      quotedChars single start n { f with text := f.text ++ "'" }
    else if charAt c0 quote then return f
    else if !single && charAt c0 '\\' && breakAt (s.at 1) then
      skip
      let _ ← readBreak
      return { f with leadingBlanks := true }
    else if !single && charAt c0 '\\' then
      let t ← quotedEscape start
      quotedChars single start n { f with text := f.text ++ t }
    else
      let ch ← readChar
      quotedChars single start n { f with text := f.text ++ ch }

/-- Reads a quoted scalar, line after line, up to its closing quote. -/
def quotedLoop (single : Bool) (start : Mark) : Nat → Folding → ScanM Folding
  | 0, f => pure f
  | n + 1, f => do
    let ctx := some ("while scanning a quoted scalar", start)
    if ← atDocumentMarker then fault ctx "found unexpected document indicator"
    if endAt (← look 0) then fault ctx "found unexpected end of stream"
    let fuel ← remaining
    let f ← quotedChars single start fuel { f with leadingBlanks := false }
    if charAt (← look 0) (if single then '\'' else '"') then return f
    let f ← foldBlanks none fuel f
    quotedLoop single start n f.join

/-- A single- or double-quoted scalar. -/
def fetchQuotedScalar (single : Bool) : ScanM Unit := do
  saveSimpleKey
  modify fun s => { s with simpleKeyAllowed := false }
  let start := (← get).mark
  skip
  let f ← quotedLoop single start (← remaining) (Folding.empty start)
  skip
  enqueue (.scalar f.text (if single then .singleQuoted else .doubleQuoted)) start (← get).mark

/-- Reads the indentation and empty lines of a block scalar. An indentation of zero is not
yet known: it becomes the deepest seen, at least one more than the enclosing block and at
least one. The answer is the indentation, the line ends read and the mark after them. -/
def blockBreaks (start : Mark) (outer : Int) (indent : Nat) (breaks : String) (stop : Mark) :
    Nat → Nat → ScanM (Nat × String × Mark)
  | 0, maxIndent => pure (finish maxIndent, breaks, stop)
  | n + 1, maxIndent => do
    let fuel ← remaining
    let column := (← get).mark.column
    skipWhile (fun c => charAt c ' ') (if indent == 0 then fuel else min fuel (indent - column))
    let s ← get
    let maxIndent := max maxIndent s.mark.column
    if (indent == 0 || s.mark.column < indent) && charAt (s.at 0) '\t' then
      fault (some ("while scanning a block scalar", start))
        "found a tab character where an indentation space is expected"
    if !breakAt (s.at 0) then return (finish maxIndent, breaks, stop)
    let br ← readBreak
    blockBreaks start outer indent (breaks ++ br) (← get).mark n maxIndent
where
  finish (maxIndent : Nat) : Nat :=
    if indent != 0 then indent else max (max maxIndent (outer + 1).toNat) 1

/-- The body of a block scalar at indentation `indent`: its lines, folded when `literal` is
false. The answer is the text, the last line end and the line ends after it. -/
def blockBody (literal : Bool) (start : Mark) (outer : Int) (indent : Nat) :
    Nat → String → String → String → Bool → Mark → ScanM (String × String × String × Mark)
  | 0, text, leading, trailing, _, stop => pure (text, leading, trailing, stop)
  | n + 1, text, leading, trailing, leadingBlank, stop => do
    let s ← get
    if s.mark.column != indent || endAt (s.at 0) then return (text, leading, trailing, stop)
    let trailingBlank := blankAt (s.at 0)
    let text :=
      if !literal && leading.startsWith "\n" && !leadingBlank && !trailingBlank then
        (if trailing.isEmpty then text ++ " " else text)
      else text ++ leading
    let text := text ++ trailing
    let leadingBlank := blankAt (s.at 0)
    let line ← readWhile (fun c => !breakzAt c) (← remaining)
    let leading ← readBreak
    let (_, trailing, stop) ← blockBreaks start outer indent "" (← get).mark (← remaining) 0
    blockBody literal start outer indent n (text ++ line) leading trailing leadingBlank stop

/-- A literal `|` or folded `>` block scalar, with its chomping and indentation indicators. -/
def fetchBlockScalar (literal : Bool) : ScanM Unit := do
  removeSimpleKey
  modify fun s => { s with simpleKeyAllowed := true }
  let start := (← get).mark
  let ctx := some ("while scanning a block scalar", start)
  skip
  let digitAt (o : Option Char) : Bool := oneOf o "0123456789".toList
  let mut chomping : Int := 0
  let mut increment : Nat := 0
  let c ← look 0
  if charAt c '+' || charAt c '-' then
    chomping := if charAt c '+' then 1 else -1
    skip
    let d ← look 0
    if digitAt d then
      if charAt d '0' then fault ctx "found an indentation indicator equal to 0"
      increment := (hexDigit d).getD 0
      skip
  else if digitAt c then
    if charAt c '0' then fault ctx "found an indentation indicator equal to 0"
    increment := (hexDigit c).getD 0
    skip
    let d ← look 0
    if charAt d '+' || charAt d '-' then
      chomping := if charAt d '+' then 1 else -1
      skip
  let fuel ← remaining
  skipWhile blankAt fuel
  if charAt (← look 0) '#' then skipWhile (fun c => !breakzAt c) fuel
  if !breakzAt (← look 0) then fault ctx "did not find expected comment or line break"
  let _ ← readBreak
  let outer := (← get).indent
  let indent : Nat :=
    if increment == 0 then 0 else if outer ≥ 0 then outer.toNat + increment else increment
  let (indent, trailing, stop) ← blockBreaks start outer indent "" (← get).mark (← remaining) 0
  let (text, leading, trailing, stop) ←
    blockBody literal start outer indent (← remaining) "" "" trailing false stop
  let text := if chomping != -1 then text ++ leading else text
  let text := if chomping == 1 then text ++ trailing else text
  enqueue (.scalar text (if literal then .literal else .folded)) start stop

/-! ## The next token -/

/-- Whether a plain scalar may start at the current position. -/
def plainStarts (s : Scanner) : Bool :=
  let c0 := s.at 0
  let c1 := s.at 1
  !(blankzAt c0 || oneOf c0 ['-', '?', ':', ',', '[', ']', '\x7b', '\x7d', '#', '&', '*', '!', '|',
      '>', '\'', '"', '%', '@', '\x60']) ||
    (charAt c0 '-' && !blankAt c1) ||
    (s.flowLevel == 0 && (charAt c0 '?' || charAt c0 ':') && !blankzAt c1)

/-- Reads the next token into the queue. -/
def fetchNextToken : ScanM Unit := do
  if !(← get).started then fetchStreamStart
  else
    scanToNextToken (← remaining)
    staleSimpleKeys
    unrollIndent (← get).mark.column
    let s ← get
    let c0 := s.at 0
    let c1 := s.at 1
    let c2 := s.at 2
    if endAt c0 then fetchStreamEnd
    else if s.mark.column == 0 && charAt c0 '%' then fetchDirective
    else if s.mark.column == 0 && charAt c0 '-' && charAt c1 '-' && charAt c2 '-' &&
        blankzAt (s.at 3) then fetchDocumentIndicator .documentStart
    else if s.mark.column == 0 && charAt c0 '.' && charAt c1 '.' && charAt c2 '.' &&
        blankzAt (s.at 3) then fetchDocumentIndicator .documentEnd
    else if charAt c0 '[' then fetchFlowCollectionStart .flowSequenceStart
    else if charAt c0 '\x7b' then fetchFlowCollectionStart .flowMappingStart
    else if charAt c0 ']' then fetchFlowCollectionEnd .flowSequenceEnd
    else if charAt c0 '\x7d' then fetchFlowCollectionEnd .flowMappingEnd
    else if charAt c0 ',' then fetchFlowEntry
    else if charAt c0 '-' && blankzAt c1 then fetchBlockEntry
    else if charAt c0 '?' && (s.flowLevel > 0 || blankzAt c1) then fetchKey
    else if charAt c0 ':' && (s.flowLevel > 0 || blankzAt c1) then fetchValue
    else if charAt c0 '*' then fetchAnchor true
    else if charAt c0 '&' then fetchAnchor false
    else if charAt c0 '!' then fetchTag
    else if charAt c0 '|' && s.flowLevel == 0 then fetchBlockScalar true
    else if charAt c0 '>' && s.flowLevel == 0 then fetchBlockScalar false
    else if charAt c0 '\'' then fetchQuotedScalar true
    else if charAt c0 '"' then fetchQuotedScalar false
    else if plainStarts s then fetchPlainScalar
    else
      fault (some ("while scanning for the next token", s.mark))
        "found character that cannot start any token"

/-- Whether the first waiting token is settled: there is one, and no pending simple key
could still become a key in front of it. -/
def Scanner.settled (s : Scanner) : Bool :=
  !s.tokens.isEmpty && !s.simpleKeys.any (fun k => k.possible && k.tokenNumber == s.tokensParsed)

/-- Reads tokens until the first waiting one is settled. -/
def fetchMoreTokens : Nat → ScanM Unit
  | 0 => pure ()
  | n + 1 => do
    if !(← get).tokens.isEmpty then staleSimpleKeys
    if (← get).settled then pure ()
    else
      fetchNextToken
      fetchMoreTokens n

/-- The first waiting token, once settled. -/
def Scanner.peek (s : Scanner) : Except Fault (Token × Scanner) := do
  let ((), s) ← (fetchMoreTokens (2 * s.input.size + 16)).run s
  match s.tokens with
  | t :: _ => pure (t, s)
  | [] => pure (⟨.streamEnd, s.mark, s.mark⟩, s)

/-- Takes the first waiting token. -/
def Scanner.advance (s : Scanner) : Scanner :=
  { s with tokens := s.tokens.drop 1, tokensParsed := s.tokensParsed + 1 }

end GitServer.Yaml
