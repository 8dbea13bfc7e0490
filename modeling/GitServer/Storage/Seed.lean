import GitServer.Storage.RepoName
import GitServer.Object.Tree
import GitServer.Object.Commit
import GitServer.Object.GitObject

/-!
# The content of a new repository

A new repository may start with one commit on its default branch: a README that names the
repository, a tree holding it, and a commit by the server. `HEAD` always points at the
default branch, even when the branch does not exist yet.
-/

namespace GitServer

/-- How new repositories start. -/
structure InitOptions where
  defaultBranch : String := "main"
  initialCommit : Bool := true
deriving DecidableEq, Repr

/-- The full name of the default branch. -/
def InitOptions.branchRef (o : InitOptions) : String := "refs/heads/" ++ o.defaultBranch

/-- The README of a new repository. -/
def readmeText (name : RepoName) : String :=
  "# " ++ name.baseName ++ "\n\nThis repository is hosted by git-smart-server.\n"

/-- The identity that signs the first commit. -/
def serverSignature (role : Role) (now : Int) : Signature :=
  Signature.make role "Git Server" "git-server@localhost" now

/-- The objects of a new repository in the order they are stored, and its first commit. -/
def initialContent (name : RepoName) (o : InitOptions) (now : Int) :
    List GitObject × Option ObjectId :=
  if !o.initialCommit then ([], none)
  else
    let readme := GitObject.ofContent .blob (Bytes.ofString (readmeText name))
    let tree := Tree.ofEntries [⟨.file, readme.id, "README.md"⟩]
    let commit : Commit :=
      ⟨tree.id, [], serverSignature .author now, serverSignature .committer now, "Initial commit\n"⟩
    ([readme, GitObject.ofContent .tree tree.encode, GitObject.ofContent .commit commit.encode],
      some commit.id)

end GitServer
