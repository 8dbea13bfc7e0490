import GitServer.Config.Settings

/-!
# Listen addresses

A listener binds `host:port`, which must be a socket address as written: four decimal
octets without leading zeros, or an IPv6 address in brackets with an optional numeric scope,
then the port. Host names are not resolved. An address is shown in its canonical form: IPv6
in lower case hexadecimal with the longest run of two or more zero groups shortened to
`::`, and IPv4-mapped addresses with their IPv4 part in dotted form.
-/

namespace GitServer.Config

/-- A socket address. -/
inductive SocketAddr where
  | v4 (octets : List Nat) (port : Nat)
  | v6 (groups : List Nat) (scope : Nat) (port : Nat)
deriving DecidableEq, Repr

/-- The value of a digit in a radix. -/
def radixDigit (radix : Nat) (c : Char) : Option Nat :=
  let v := if '0' ≤ c ∧ c ≤ '9' then c.toNat - 48
    else if 'a' ≤ c ∧ c ≤ 'f' then c.toNat - 87
    else if 'A' ≤ c ∧ c ≤ 'F' then c.toNat - 55
    else 99
  if v < radix then some v else none

/-- Reads a number below `limit`: at least one digit, at most `maxDigits` when given, and
no leading zero unless allowed. -/
def readNumber (radix limit : Nat) (maxDigits : Option Nat) (zeroPrefix : Bool) (cs : List Char) :
    Option (Nat × List Char) :=
  let ds := cs.takeWhile fun c => (radixDigit radix c).isSome
  let tooMany := match maxDigits with
    | some m => ds.length > m
    | none => false
  let value := ds.foldl (fun acc c => acc * radix + (radixDigit radix c).getD 0) 0
  if ds.isEmpty || tooMany || value ≥ limit then none
  else if !zeroPrefix && ds.head? == some '0' && ds.length > 1 then none
  else some (value, cs.drop ds.length)

/-- Reads a given character. -/
def readGiven (c : Char) : List Char → Option (List Char)
  | d :: rest => if c == d then some rest else none
  | [] => none

/-- Reads four dotted octets. -/
def readIpv4 (cs : List Char) : Option (List Nat × List Char) := do
  let (a, cs) ← readNumber 10 256 (some 3) false cs
  let (b, cs) ← readNumber 10 256 (some 3) false (← readGiven '.' cs)
  let (c, cs) ← readNumber 10 256 (some 3) false (← readGiven '.' cs)
  let (d, cs) ← readNumber 10 256 (some 3) false (← readGiven '.' cs)
  pure ([a, b, c, d], cs)

/-- Reads up to `limit` colon-separated groups, the first without a colon; the last two may
be an IPv4 address. The answer is the groups, whether they ended in IPv4, and the rest. -/
def readGroups (limit : Nat) : Nat → List Nat → List Char → List Nat × Bool × List Char
  | 0, acc, cs => (acc, false, cs)
  | fuel + 1, acc, cs =>
    let i := acc.length
    if i ≥ limit then (acc, false, cs)
    else
      let sep (cs : List Char) : Option (List Char) := if i > 0 then readGiven ':' cs else some cs
      let v4 : Option (List Nat × List Char) :=
        if i + 1 < limit then (sep cs).bind readIpv4 else none
      match v4 with
      | some ([a, b, c, d], rest) => (acc ++ [a * 256 + b, c * 256 + d], true, rest)
      | _ =>
        match (sep cs).bind (readNumber 16 65536 (some 4) true) with
        | some (g, rest) => readGroups limit fuel (acc ++ [g]) rest
        | none => (acc, false, cs)

/-- Reads an IPv6 address: eight groups, or fewer with one `::` standing for zero groups. -/
def readIpv6 (cs : List Char) : Option (List Nat × List Char) := do
  let (head, headV4, cs) := readGroups 8 8 [] cs
  if head.length == 8 then return (head, cs)
  if headV4 then none
  let cs ← readGiven ':' cs
  let cs ← readGiven ':' cs
  let limit := 8 - (head.length + 1)
  let (tail, _, cs) := readGroups limit 8 [] cs
  pure (head ++ List.replicate (8 - head.length - tail.length) 0 ++ tail, cs)

/-- Reads a socket address that takes the whole text. -/
def SocketAddr.parse (text : String) : Option SocketAddr :=
  let cs := text.toList
  let v4 : Option SocketAddr := do
    let (octets, rest) ← readIpv4 cs
    let (port, rest) ← readNumber 10 65536 none true (← readGiven ':' rest)
    if rest.isEmpty then some (.v4 octets port) else none
  let v6 : Option SocketAddr := do
    let rest ← readGiven '[' cs
    let (groups, rest) ← readIpv6 rest
    let (scope, rest) ← match readGiven '%' rest with
      | some r => readNumber 10 (Nat.pow 2 32) none true r
      | none => some (0, rest)
    let rest ← readGiven ']' rest
    let (port, rest) ← readNumber 10 65536 none true (← readGiven ':' rest)
    if rest.isEmpty then some (.v6 groups scope port) else none
  v4 <|> v6

/-- Dotted IPv4 text. -/
def ipv4Text (octets : List Nat) : String := ".".intercalate (octets.map toString)

/-- A group in lower case hexadecimal without leading zeros. -/
def groupText (g : Nat) : String :=
  String.ofList (Nat.toDigits 16 g)

/-- The start and length of the first longest run of zero groups. -/
def longestZeros (groups : List Nat) : Nat × Nat :=
  let step (acc : (Nat × Nat) × (Nat × Nat)) (ig : Nat × Nat) : (Nat × Nat) × (Nat × Nat) :=
    let (best, cur) := acc
    let (i, g) := ig
    if g == 0 then
      let cur := if cur.2 == 0 then (i, 1) else (cur.1, cur.2 + 1)
      (if cur.2 > best.2 then cur else best, cur)
    else (best, (0, 0))
  ((groups.zipIdx.map fun (g, i) => (i, g)).foldl step ((0, 0), (0, 0))).1

/-- Canonical IPv6 text. -/
def ipv6Text (groups : List Nat) : String :=
  match groups with
  | [0, 0, 0, 0, 0, 0xffff, ab, cd] =>
    "::ffff:" ++ ipv4Text [ab / 256, ab % 256, cd / 256, cd % 256]
  | _ =>
    let (start, len) := longestZeros groups
    let join (gs : List Nat) : String := ":".intercalate (gs.map groupText)
    if len > 1 then join (groups.take start) ++ "::" ++ join (groups.drop (start + len))
    else join groups

/-- A socket address as text. -/
def SocketAddr.render : SocketAddr → String
  | .v4 octets port => ipv4Text octets ++ ":" ++ toString port
  | .v6 groups scope port =>
    "[" ++ ipv6Text groups ++ (if scope == 0 then "" else "%" ++ toString scope) ++ "]:" ++
      toString port

/-- Why a listener has no address: the address it was given, and the cause. -/
structure ListenError where
  context : String
  cause : String
deriving DecidableEq, Repr

/-- The failure on one line, the context before its cause. -/
def ListenError.text (e : ListenError) : String := e.context ++ ": " ++ e.cause

/-- The address a listener named `kind` binds, or why `host:port` is not one. -/
def listenAddress (kind host : String) (port : Nat) : Except ListenError String :=
  let text := host ++ ":" ++ toString port
  match SocketAddr.parse text with
  | some a => .ok a.render
  | none => .error ⟨"invalid " ++ kind ++ " listen address " ++ text, "invalid socket address syntax"⟩

/-- The HTTP listen address. -/
def Settings.httpListen (s : Settings) : Except ListenError String :=
  listenAddress "http" s.http.host s.http.port

/-- The SSH listen address. -/
def Settings.sshListen (s : Settings) : Except ListenError String :=
  listenAddress "ssh" s.ssh.host s.ssh.port

end GitServer.Config
