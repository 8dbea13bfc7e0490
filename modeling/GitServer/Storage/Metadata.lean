import GitServer.Storage.Error
import GitServer.ObjectId
import GitServer.Text.Blank
import GitServer.Text.Lines

/-!
# Repository metadata

Besides objects and references a repository keeps its configuration text and the list of
shallow commits. The configuration is kept as written; a repository is bare when a line of
it reads `bare = true`, blanks aside. Shallow commits are stored one id a line.
-/

namespace GitServer

/-- The stored form of a list of shallow commits: one id a line. -/
def encodeShallow (ids : List ObjectId) : String := String.join (ids.map fun id => id.toHex ++ "\n")

/-- Reads a list of shallow commits; blank lines are skipped. -/
def decodeShallow (content : String) : Except StorageError (List ObjectId) :=
  (Text.lines content).filterMap (fun l => let t := Blank.trim l; if t.isEmpty then none else some t)
    |>.mapM fun l => match ObjectId.parse l with
      | .ok id => .ok id
      | .error e => .error (.backend ("malformed shallow entry `" ++ l ++ "`: " ++ e.message))

/-- The configuration text of a repository. -/
structure RepoConfig where
  text : String
deriving DecidableEq, Repr

namespace RepoConfig

/-- The configuration of a new repository. -/
def default : RepoConfig :=
  ⟨"[core]\n\trepositoryformatversion = 0\n\tfilemode = true\n\tbare = true\n"⟩

/-- Whether a line of the text reads `bare=true` once blanks are removed. -/
def isBare (c : RepoConfig) : Bool :=
  (Text.lines c.text).any fun l =>
    String.ofList (l.toList.filter fun ch => !Blank.isBlank ch) == "bare=true"

end RepoConfig

end GitServer
