import GitServer.Storage.Error
import GitServer.Text.Blank

/-!
# Repository names

Clients name a repository by a path such as `/team/project` or `demo.git`. The name a
repository is stored under is normal: trimmed of blanks and slashes, every segment non-empty,
not `.` or `..` and free of control characters, no segment but the last ending in `.git`,
and the whole ending in `.git`. Every spelling of one repository normalises to the same name.
-/

namespace GitServer

/-- A normal repository name. -/
structure RepoName where
  /-- The name, which ends in `.git`. -/
  path : String
deriving DecidableEq, Repr

namespace RepoName

/-- The suffix of every repository name. -/
def suffix : String := ".git"

/-- Whether a character is a control character (categories Cc: C0, DEL and C1). -/
def isControl (c : Char) : Bool := c.toNat < 0x20 || (0x7F ≤ c.toNat && c.toNat < 0xA0)

/-- Removes slashes from both ends. -/
def trimSlashes (s : String) : String :=
  String.ofList (((s.toList.dropWhile (· == '/')).reverse.dropWhile (· == '/')).reverse)

/-- Checks the segments in order; the first fault found is reported. -/
def checkSegments (raw : String) : List String → Except StorageError Unit
  | [] => .ok ()
  | seg :: rest => do
    if seg.isEmpty ∨ seg = "." ∨ seg = ".." then
      throw (.invalidRequest ("invalid repository path segment in " ++ raw))
    if seg.toList.any isControl then
      throw (.invalidRequest ("repository name contains control characters: " ++ raw))
    if !rest.isEmpty ∧ seg.endsWith suffix then
      throw (.invalidRequest ("repository name is nested inside a repository: " ++ raw))
    checkSegments raw rest

/-- Normalises a repository path. -/
def normalize (raw : String) : Except StorageError RepoName := do
  let trimmed := trimSlashes (Blank.trim raw)
  if trimmed.isEmpty then throw (.invalidRequest "repository name is empty")
  if trimmed.toList.contains '\\' then
    throw (.invalidRequest ("repository name contains a backslash: " ++ raw))
  checkSegments raw (trimmed.splitOn "/")
  let name := if trimmed.endsWith suffix then trimmed else trimmed ++ suffix
  if name = suffix ∨ name.endsWith "/.git" then
    throw (.invalidRequest ("repository name has no base name: " ++ raw))
  pure ⟨name⟩

/-- The last segment without `.git`. -/
def baseName (n : RepoName) : String :=
  let last := ((n.path.splitOn "/").getLast?).getD n.path
  if last.endsWith suffix then String.ofList (last.toList.take (last.length - 4)) else last

end RepoName

end GitServer
