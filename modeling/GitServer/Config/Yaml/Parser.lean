import GitServer.Config.Yaml.Scanner

/-!
# Reading YAML: events

The parser turns tokens into events: documents, collections opened and closed, scalars and
aliases. It is a state machine with a stack of states to return to, following the grammar
of block and flow collections; a block sequence directly under a mapping key may go without
indentation. Where a node is missing, as after a `:` with nothing behind it, the parser
gives an empty plain scalar.

`load` reads the first document the way the configuration decoder wants it: its events in
order, anchors resolved so that an alias points at the event its anchor was on, and, when
the reading stopped early, why. It also tells whether anything follows the first document.
-/

namespace GitServer.Yaml

/-- An event, with the anchor and resolved tag of a node. -/
inductive Event where
  | streamStart
  | streamEnd
  | documentStart
  | documentEnd
  | alias (name : String)
  | scalar (anchor tag : Option String) (text : String) (style : ScalarStyle)
  | sequenceStart (anchor tag : Option String)
  | sequenceEnd
  | mappingStart (anchor tag : Option String)
  | mappingEnd
deriving DecidableEq, Repr, Inhabited

/-- Where the parser is in the grammar. -/
inductive ParseState where
  | streamStart
  | implicitDocumentStart
  | documentStart
  | documentContent
  | documentEnd
  | blockNode
  | blockNodeOrIndentlessSequence
  | flowNode
  | blockSequenceFirstEntry
  | blockSequenceEntry
  | indentlessSequenceEntry
  | blockMappingFirstKey
  | blockMappingKey
  | blockMappingValue
  | flowSequenceFirstEntry
  | flowSequenceEntry
  | flowSequenceEntryMappingKey
  | flowSequenceEntryMappingValue
  | flowSequenceEntryMappingEnd
  | flowMappingFirstKey
  | flowMappingKey
  | flowMappingValue
  | flowMappingEmptyValue
  | finished
deriving DecidableEq, Repr, Inhabited

/-- The parser: its scanner, its state and the states to return to, the start marks of the
open collections, and the tag handles of the document. -/
structure Parser where
  scanner : Scanner
  state : ParseState
  states : List ParseState
  marks : List Mark
  tagDirectives : List (String × String)

/-- Parsing steps. -/
abbrev ParseM := StateT Parser (Except Fault)

/-- A parser at the start of a text. -/
def Parser.start (text : String) : Parser := ⟨Scanner.start text, .streamStart, [], [], []⟩

/-- The next token, without taking it. -/
def peekToken : ParseM Token := do
  let p ← get
  match p.scanner.peek with
  | .ok (t, sc) =>
    set { p with scanner := sc }
    pure t
  | .error f => throw f

/-- Takes the next token. -/
def skipToken : ParseM Unit := modify fun p => { p with scanner := p.scanner.advance }

/-- Sets the state. -/
def goTo (st : ParseState) : ParseM Unit := modify fun p => { p with state := st }

/-- Remembers a state to return to. -/
def pushState (st : ParseState) : ParseM Unit := modify fun p => { p with states := st :: p.states }

/-- Returns to the last remembered state. -/
def returnState : ParseM Unit :=
  modify fun p => match p.states with
    | st :: rest => { p with state := st, states := rest }
    | [] => { p with state := .finished }

/-- Remembers the start of a collection. -/
def pushMark (m : Mark) : ParseM Unit := modify fun p => { p with marks := m :: p.marks }

/-- Forgets the start of the innermost collection and gives it. -/
def popMark : ParseM Mark := do
  let p ← get
  match p.marks with
  | m :: rest =>
    set { p with marks := rest }
    pure m
  | [] => pure ⟨0, 0, 0⟩

/-- A fault of the grammar. -/
def grammarFault {α} (problem : String) (mark : Mark) : ParseM α := throw ⟨problem, mark, 0, none⟩

/-- A fault of the grammar inside a construct that started at `contextMark`. -/
def contextFault {α} (context : String) (contextMark : Mark) (problem : String) (mark : Mark) :
    ParseM α :=
  throw ⟨problem, mark, 0, some (context, contextMark)⟩

/-- An empty plain scalar at a mark, for a missing node. -/
def emptyScalar (m : Mark) : Event × Mark := (.scalar none none "" .plain, m)

/-- Whether a token is a directive. -/
def TokenKind.isDirective : TokenKind → Bool
  | .versionDirective .. | .tagDirective .. => true
  | _ => false

/-- The tag handles every document knows. -/
def defaultTagDirectives : List (String × String) := [("!", "!"), ("!!", "tag:yaml.org,2002:")]

/-- Reads the directives before a document and sets its tag handles. -/
def processDirectives : ParseM Unit := do
  let mut directives : List (String × String) := []
  let mut version := false
  for _ in List.range ((← get).scanner.input.size + 1) do
    let t ← peekToken
    match t.kind with
    | .versionDirective major minor =>
      if version then grammarFault "found duplicate %YAML directive" t.start
      if major != 1 || (minor != 1 && minor != 2) then
        grammarFault "found incompatible YAML document" t.start
      version := true
      skipToken
    | .tagDirective handle pfx =>
      if directives.any (·.1 == handle) then grammarFault "found duplicate %TAG directive" t.start
      directives := directives ++ [(handle, pfx)]
      skipToken
    | _ => break
  let defaults := defaultTagDirectives.filter fun d => !directives.any (·.1 == d.1)
  modify fun p => { p with tagDirectives := directives ++ defaults }

/-- A node: an alias, or a scalar or collection with its anchor and tag. With `indentless`,
a `-` entry opens a sequence without indentation. -/
def parseNode (block indentless : Bool) : ParseM (Event × Mark) := do
  let t ← peekToken
  if let .alias name := t.kind then
    returnState
    skipToken
    return (.alias name, t.start)
  let start := t.start
  let mut anchor : Option String := none
  let mut tag : Option (String × String) := none
  let mut tagMark := t.start
  let mut tok := t
  if let .anchor a := tok.kind then
    anchor := some a
    skipToken
    tok ← peekToken
    if let .tag h s := tok.kind then
      tag := some (h, s)
      tagMark := tok.start
      skipToken
      tok ← peekToken
  else if let .tag h s := tok.kind then
    tag := some (h, s)
    tagMark := tok.start
    skipToken
    tok ← peekToken
    if let .anchor a := tok.kind then
      anchor := some a
      skipToken
      tok ← peekToken
  let resolved ← match tag with
    | none => pure none
    | some (h, s) =>
      if h.isEmpty then pure (some s)
      else match (← get).tagDirectives.find? (·.1 == h) with
        | some (_, pfx) => pure (some (pfx ++ s))
        | none => contextFault "while parsing a node" start "found undefined tag handle" tagMark
  if indentless && tok.kind == .blockEntry then
    goTo .indentlessSequenceEntry
    return (.sequenceStart anchor resolved, start)
  match tok.kind with
  | .scalar text style =>
    returnState
    skipToken
    return (.scalar anchor resolved text style, start)
  | .flowSequenceStart =>
    goTo .flowSequenceFirstEntry
    return (.sequenceStart anchor resolved, start)
  | .flowMappingStart =>
    goTo .flowMappingFirstKey
    return (.mappingStart anchor resolved, start)
  | kind =>
    if block && kind == .blockSequenceStart then
      goTo .blockSequenceFirstEntry
      return (.sequenceStart anchor resolved, start)
    if block && kind == .blockMappingStart then
      goTo .blockMappingFirstKey
      return (.mappingStart anchor resolved, start)
    if anchor.isSome || resolved.isSome then
      returnState
      return (.scalar anchor resolved "" .plain, start)
    contextFault (if block then "while parsing a block node" else "while parsing a flow node")
      start "did not find expected node content" tok.start

/-- The start of the stream. -/
def parseStreamStart : ParseM (Event × Mark) := do
  let t ← peekToken
  if t.kind != .streamStart then grammarFault "did not find expected <stream-start>" t.start
  goTo .implicitDocumentStart
  skipToken
  return (.streamStart, t.start)

/-- The start of a document, implicit for the first one without `---`, or the end of the
stream. -/
def parseDocumentStart (implicit : Bool) : ParseM (Event × Mark) := do
  let mut t ← peekToken
  if !implicit then
    for _ in List.range ((← get).scanner.input.size + 1) do
      if t.kind == .documentEnd then
        skipToken
        t ← peekToken
      else break
  if implicit && !t.kind.isDirective && t.kind != .documentStart && t.kind != .streamEnd then
    processDirectives
    pushState .documentEnd
    goTo .blockNode
    return (.documentStart, t.start)
  if t.kind != .streamEnd then
    let start := t.start
    processDirectives
    let d ← peekToken
    if d.kind != .documentStart then grammarFault "did not find expected <document start>" d.start
    pushState .documentEnd
    goTo .documentContent
    skipToken
    return (.documentStart, start)
  goTo .finished
  skipToken
  return (.streamEnd, t.start)

/-- The content of an explicit document, empty when another document marker follows. -/
def parseDocumentContent : ParseM (Event × Mark) := do
  let t ← peekToken
  if t.kind.isDirective || t.kind == .documentStart || t.kind == .documentEnd ||
      t.kind == .streamEnd then
    returnState
    return emptyScalar t.start
  parseNode true false

/-- The end of a document, with or without `...`. -/
def parseDocumentEnd : ParseM (Event × Mark) := do
  let t ← peekToken
  if t.kind == .documentEnd then skipToken
  goTo .documentStart
  return (.documentEnd, t.start)

/-- An entry of a block sequence, or its end. -/
def parseBlockSequenceEntry (first : Bool) : ParseM (Event × Mark) := do
  if first then
    let t ← peekToken
    pushMark t.start
    skipToken
  let t ← peekToken
  if t.kind == .blockEntry then
    let m := t.stop
    skipToken
    let t ← peekToken
    if t.kind != .blockEntry && t.kind != .blockEnd then
      pushState .blockSequenceEntry
      parseNode true false
    else
      goTo .blockSequenceEntry
      return emptyScalar m
  else if t.kind == .blockEnd then
    returnState
    let _ ← popMark
    skipToken
    return (.sequenceEnd, t.start)
  else
    contextFault "while parsing a block collection" (← popMark)
      "did not find expected '-' indicator" t.start

/-- An entry of a sequence without indentation, or its end. -/
def parseIndentlessSequenceEntry : ParseM (Event × Mark) := do
  let t ← peekToken
  if t.kind == .blockEntry then
    let m := t.stop
    skipToken
    let t ← peekToken
    if t.kind != .blockEntry && t.kind != .key && t.kind != .value && t.kind != .blockEnd then
      pushState .indentlessSequenceEntry
      parseNode true false
    else
      goTo .indentlessSequenceEntry
      return emptyScalar m
  else
    returnState
    return (.sequenceEnd, t.start)

/-- A key of a block mapping, or its end. -/
def parseBlockMappingKey (first : Bool) : ParseM (Event × Mark) := do
  if first then
    let t ← peekToken
    pushMark t.start
    skipToken
  let t ← peekToken
  if t.kind == .key then
    let m := t.stop
    skipToken
    let t ← peekToken
    if t.kind != .key && t.kind != .value && t.kind != .blockEnd then
      pushState .blockMappingValue
      parseNode true true
    else
      goTo .blockMappingValue
      return emptyScalar m
  else if t.kind == .blockEnd then
    returnState
    let _ ← popMark
    skipToken
    return (.mappingEnd, t.start)
  else
    contextFault "while parsing a block mapping" (← popMark) "did not find expected key" t.start

/-- A value of a block mapping, empty when missing. -/
def parseBlockMappingValue : ParseM (Event × Mark) := do
  let t ← peekToken
  if t.kind == .value then
    let m := t.stop
    skipToken
    let t ← peekToken
    if t.kind != .key && t.kind != .value && t.kind != .blockEnd then
      pushState .blockMappingKey
      parseNode true true
    else
      goTo .blockMappingKey
      return emptyScalar m
  else
    goTo .blockMappingKey
    return emptyScalar t.start

/-- An entry of a flow sequence, or its end; a `key: value` entry is a one-pair mapping. -/
def parseFlowSequenceEntry (first : Bool) : ParseM (Event × Mark) := do
  if first then
    let t ← peekToken
    pushMark t.start
    skipToken
  let mut t ← peekToken
  if t.kind != .flowSequenceEnd then
    if !first then
      if t.kind == .flowEntry then
        skipToken
        t ← peekToken
      else
        contextFault "while parsing a flow sequence" (← popMark)
          "did not find expected ',' or ']'" t.start
    if t.kind == .key then
      goTo .flowSequenceEntryMappingKey
      skipToken
      return (.mappingStart none none, t.start)
    if t.kind != .flowSequenceEnd then
      pushState .flowSequenceEntry
      return ← parseNode false false
  returnState
  let _ ← popMark
  skipToken
  return (.sequenceEnd, t.start)

/-- The key of a one-pair mapping in a flow sequence. -/
def parseFlowSequenceEntryMappingKey : ParseM (Event × Mark) := do
  let t ← peekToken
  if t.kind != .value && t.kind != .flowEntry && t.kind != .flowSequenceEnd then
    pushState .flowSequenceEntryMappingValue
    parseNode false false
  else
    goTo .flowSequenceEntryMappingValue
    return emptyScalar t.start

/-- The value of a one-pair mapping in a flow sequence. -/
def parseFlowSequenceEntryMappingValue : ParseM (Event × Mark) := do
  let mut t ← peekToken
  if t.kind == .value then
    skipToken
    t ← peekToken
    if t.kind != .flowEntry && t.kind != .flowSequenceEnd then
      pushState .flowSequenceEntryMappingEnd
      return ← parseNode false false
  goTo .flowSequenceEntryMappingEnd
  return emptyScalar t.start

/-- The end of a one-pair mapping in a flow sequence. -/
def parseFlowSequenceEntryMappingEnd : ParseM (Event × Mark) := do
  let t ← peekToken
  goTo .flowSequenceEntry
  return (.mappingEnd, t.start)

/-- A key of a flow mapping, or its end. -/
def parseFlowMappingKey (first : Bool) : ParseM (Event × Mark) := do
  if first then
    let t ← peekToken
    pushMark t.start
    skipToken
  let mut t ← peekToken
  if t.kind != .flowMappingEnd then
    if !first then
      if t.kind == .flowEntry then
        skipToken
        t ← peekToken
      else
        contextFault "while parsing a flow mapping" (← popMark)
          "did not find expected ',' or '\x7d'" t.start
    if t.kind == .key then
      skipToken
      let k ← peekToken
      if k.kind != .value && k.kind != .flowEntry && k.kind != .flowMappingEnd then
        pushState .flowMappingValue
        return ← parseNode false false
      goTo .flowMappingValue
      return emptyScalar k.start
    if t.kind != .flowMappingEnd then
      pushState .flowMappingEmptyValue
      return ← parseNode false false
  returnState
  let _ ← popMark
  skipToken
  return (.mappingEnd, t.start)

/-- A value of a flow mapping, empty when missing or when the key stood alone. -/
def parseFlowMappingValue (empty : Bool) : ParseM (Event × Mark) := do
  let mut t ← peekToken
  if empty then
    goTo .flowMappingKey
    return emptyScalar t.start
  if t.kind == .value then
    skipToken
    t ← peekToken
    if t.kind != .flowEntry && t.kind != .flowMappingEnd then
      pushState .flowMappingKey
      return ← parseNode false false
  goTo .flowMappingKey
  return emptyScalar t.start

/-- The next event and its start mark. -/
def nextEvent : ParseM (Event × Mark) := do
  match (← get).state with
  | .streamStart => parseStreamStart
  | .implicitDocumentStart => parseDocumentStart true
  | .documentStart => parseDocumentStart false
  | .documentContent => parseDocumentContent
  | .documentEnd => parseDocumentEnd
  | .blockNode => parseNode true false
  | .blockNodeOrIndentlessSequence => parseNode true true
  | .flowNode => parseNode false false
  | .blockSequenceFirstEntry => parseBlockSequenceEntry true
  | .blockSequenceEntry => parseBlockSequenceEntry false
  | .indentlessSequenceEntry => parseIndentlessSequenceEntry
  | .blockMappingFirstKey => parseBlockMappingKey true
  | .blockMappingKey => parseBlockMappingKey false
  | .blockMappingValue => parseBlockMappingValue
  | .flowSequenceFirstEntry => parseFlowSequenceEntry true
  | .flowSequenceEntry => parseFlowSequenceEntry false
  | .flowSequenceEntryMappingKey => parseFlowSequenceEntryMappingKey
  | .flowSequenceEntryMappingValue => parseFlowSequenceEntryMappingValue
  | .flowSequenceEntryMappingEnd => parseFlowSequenceEntryMappingEnd
  | .flowMappingFirstKey => parseFlowMappingKey true
  | .flowMappingKey => parseFlowMappingKey false
  | .flowMappingValue => parseFlowMappingValue false
  | .flowMappingEmptyValue => parseFlowMappingValue true
  | .finished => pure (.streamEnd, (← get).scanner.mark)

/-! ## The first document -/

/-- An event of a loaded document: a scalar with its style and tag, an alias pointing at the
event its anchor was on, the bounds of a collection, or nothing at all for an empty stream. -/
inductive Item where
  | scalar (text : String) (style : ScalarStyle) (tag : Option String)
  | alias (target : Nat)
  | sequenceStart (tag : Option String)
  | sequenceEnd
  | mappingStart (tag : Option String)
  | mappingEnd
  | void
deriving DecidableEq, Repr, Inhabited

/-- Why a document was cut short: a fault of the text, or an alias without its anchor. -/
inductive Cut where
  | fault (f : Fault)
  | unknownAnchor (m : Mark)
deriving DecidableEq, Repr

/-- The first document: its items and their marks, why it was cut short if it was, and
whether anything follows it. -/
structure Loaded where
  items : Array (Item × Mark)
  cut : Option Cut
  more : Bool
deriving Repr

/-- Records an anchor on the item about to be added. -/
def withAnchor (anchor : Option String) (index : Nat) (anchors : List (String × Nat)) :
    List (String × Nat) :=
  match anchor with
  | some a => (a, index) :: anchors
  | none => anchors

/-- Whether the stream goes on after a document: anything but its end, a fault included. -/
def Parser.continues (p : Parser) : Bool :=
  match nextEvent.run p with
  | .ok ((.streamEnd, _), _) => false
  | _ => true

/-- Reads events of the first document, at most `fuel` of them. -/
def collect : Nat → Parser → Array (Item × Mark) → List (String × Nat) → Loaded
  | 0, _, items, _ => ⟨items, none, false⟩
  | fuel + 1, p, items, anchors =>
    match nextEvent.run p with
    | .error f => ⟨items, some (.fault f), false⟩
    | .ok ((ev, m), p) =>
      match ev with
      | .streamStart | .documentStart => collect fuel p items anchors
      | .streamEnd => ⟨if items.isEmpty then #[(.void, m)] else items, none, false⟩
      | .documentEnd => ⟨items, none, p.continues⟩
      | .alias name =>
        match anchors.find? (·.1 == name) with
        | some (_, target) => collect fuel p (items.push (.alias target, m)) anchors
        | none => ⟨items, some (.unknownAnchor m), false⟩
      | .scalar a t text style =>
        collect fuel p (items.push (.scalar text style t, m)) (withAnchor a items.size anchors)
      | .sequenceStart a t =>
        collect fuel p (items.push (.sequenceStart t, m)) (withAnchor a items.size anchors)
      | .sequenceEnd => collect fuel p (items.push (.sequenceEnd, m)) anchors
      | .mappingStart a t =>
        collect fuel p (items.push (.mappingStart t, m)) (withAnchor a items.size anchors)
      | .mappingEnd => collect fuel p (items.push (.mappingEnd, m)) anchors

/-- Reads the first document of a text. A character that may not appear anywhere stops the
reading before it starts. -/
def load (text : String) : Loaded :=
  match checkPrintable text with
  | some f => ⟨#[], some (.fault f), false⟩
  | none => collect (8 * text.length + 64) (Parser.start text) #[] []

end GitServer.Yaml
