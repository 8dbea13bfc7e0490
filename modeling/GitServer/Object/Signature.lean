import GitServer.CodecError
import GitServer.Text.Blank
import GitServer.Text.Numeral
import GitServer.Text.Utf8

/-!
# Signatures

A signature line says who made a commit or tag and when:
`<role> <name> <<email>> <seconds> <zone>`. Reading is lenient where Git is: the name is
trimmed, the e-mail runs from the first `<` to the last `>`, and a missing zone reads as
`+0000`. The seconds must be a 64-bit decimal number.
-/

namespace GitServer

/-- Whose signature a line holds. -/
inductive Role where
  | author
  | committer
  | tagger
deriving DecidableEq, Repr

namespace Role

/-- The word that starts the line. -/
def name : Role → String
  | .author => "author"
  | .committer => "committer"
  | .tagger => "tagger"

/-- The role a word names. -/
def ofBytes? (bs : Bytes) : Option Role :=
  [Role.author, .committer, .tagger].find? fun r => Bytes.ofString r.name == bs

end Role

/-- A signature: role, identity and time. -/
structure Signature where
  role : Role
  name : String
  email : String
  timestamp : Int
  timezone : String
deriving DecidableEq, Repr

namespace Signature

/-- A signature at the given second, in UTC. -/
def make (role : Role) (name email : String) (now : Int) : Signature :=
  ⟨role, name, email, now, "+0000"⟩

/-- The text of a signature line, without line feed. -/
def render (s : Signature) : String :=
  s.role.name ++ " " ++ s.name ++ " <" ++ s.email ++ "> " ++ toString s.timestamp ++ " " ++
    s.timezone

/-- The bytes of a signature line, without line feed. -/
def encode (s : Signature) : Bytes := Bytes.ofString s.render

/-- Reads a signature line. -/
def parse (data : Bytes) : Except CodecError Signature := do
  let invalid := CodecError.invalidSignature (Utf8.decodeLossy data)
  let some (roleWord, rest) := Bytes.splitFirst? data 32 | throw invalid
  let some role := Role.ofBytes? roleWord
    | throw (.invalidSignature (Utf8.decodeLossy roleWord))
  let some emailStart := Bytes.indexOf? rest 60 | throw invalid
  let some emailEnd := Bytes.lastIndexOf? rest 62 | throw invalid
  if emailEnd < emailStart then throw invalid
  let name := Utf8.decodeLossy (Blank.trimBytes (rest.take emailStart))
  let email := Utf8.decodeLossy ((rest.drop (emailStart + 1)).take (emailEnd - emailStart - 1))
  let tail := Bytes.splitOn (Blank.trimBytes (rest.drop (emailEnd + 1))) 32
  let some seconds := tail.head? | throw invalid
  let some text := Utf8.decode? seconds | throw invalid
  let some timestamp := Numeral.parseInt64? text | throw invalid
  let timezone := match tail.drop 1 with
    | zone :: _ => Utf8.decodeLossy zone
    | [] => "+0000"
  pure ⟨role, name, email, timestamp, timezone⟩

end Signature

end GitServer
