import GitServer.Storage.Error
import GitServer.ObjectId
import GitServer.Text.Blank

/-!
# References

A reference names an object directly, or names another reference (a symbolic reference,
such as `HEAD`). On a medium a target is one line: the forty-digit id, or `ref: ` and the
name. Reading trims line ends and blanks and accepts either case of hex digits.

A reference name is `HEAD` or starts with `refs/`, and follows Git's rules: no empty or
hidden component, no `..` or `@{`, no blank, control or special character, and no `/`,
`.` or `.lock` at the end.
-/

namespace GitServer

/-- What a reference points to. -/
inductive RefTarget where
  | direct (id : ObjectId)
  | symbolic (name : String)
deriving DecidableEq

/-- A named reference. -/
structure Reference where
  name : String
  target : RefTarget
deriving DecidableEq

namespace RefTarget

/-- The text of a target: the id, or `ref: ` and the name. -/
def render : RefTarget → String
  | .direct id => id.toHex
  | .symbolic name => "ref: " ++ name

/-- The stored form: the text and a line feed. -/
def encode (t : RefTarget) : String := t.render ++ "\n"

/-- Reads the stored form of a target. -/
def decode (content : String) : Except StorageError RefTarget :=
  let lineEnd := String.ofList ((content.toList.reverse.dropWhile fun c => c = '\n' ∨ c = '\r').reverse)
  let text := Blank.trim lineEnd
  if text.startsWith "ref:" then
    let name := Blank.trim (String.ofList (text.toList.drop 4))
    if name.isEmpty then .error (.backend "empty symbolic reference") else .ok (.symbolic name)
  else
    match ObjectId.parse text with
    | .ok id => .ok (.direct id)
    | .error e => .error (.backend ("malformed reference `" ++ text ++ "`: " ++ e.message))

/-- The id a target names directly. -/
def id? : RefTarget → Option ObjectId
  | .direct id => some id
  | .symbolic _ => none

end RefTarget

/-- The reference every repository starts its lookups from. -/
def headName : String := "HEAD"

/-- Checks a reference name against Git's rules. -/
def validateRefName (name : String) : Except StorageError Unit :=
  let invalid := fun (why : String) =>
    Except.error (StorageError.invalidRequest ("invalid reference " ++ name ++ ": " ++ why))
  if name = headName then .ok ()
  else if !name.startsWith "refs/" then invalid "must be HEAD or start with refs/"
  else if name.endsWith "/" ∨ name.endsWith ".lock" ∨ name.endsWith "." then invalid "bad suffix"
  else if (name.splitOn "..").length > 1 ∨ (name.splitOn "@\x7b").length > 1 then
    invalid "forbidden sequence"
  else if name.toList.any (fun c => c.toNat < 0x20 || (0x7F ≤ c.toNat && c.toNat < 0xA0) ||
      " ~^:?*[\\".toList.contains c) then
    invalid "forbidden character"
  else if (name.splitOn "/").any fun c => c.isEmpty || c.startsWith "." then
    invalid "empty or hidden component"
  else .ok ()

end GitServer
