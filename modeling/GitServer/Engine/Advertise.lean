import GitServer.Engine.Access
import GitServer.Wire.Reply

/-!
# Reference advertisement

Every exchange starts with the server listing its references, one line each with the id
they resolve to. The first line also carries the capabilities after a NUL byte: the fixed
list of the service, the agent, the object format, and the branch `HEAD` points at when it
resolves. `HEAD` comes first when it resolves; otherwise the first reference carries the
capabilities, and a repository without references sends the zero id named
`capabilities^{}`. Unborn references are left out, and each annotated tag under
`refs/tags/` is followed by the object it finally points at, named with `^{}`.
-/

namespace GitServer

namespace Engine

open Wire

/-- The name the server gives itself. -/
def agent : String := "git-smart-server/0.1.0"

/-- The fixed capabilities of a service. -/
def serviceCapabilities : Service → String
  | .uploadPack => "side-band side-band-64k ofs-delta include-tag no-progress"
  | .receivePack => "report-status delete-refs quiet no-thin ofs-delta"

/-- How deep annotated tags pointing at annotated tags are followed. -/
def peelDepth : Nat := 8

/-- Follows annotated tags from an object for at most `fuel` steps; the answer is the last
object reached, none when the first object is not a tag. -/
def peelFrom (n : RepoName) : Nat → ObjectId → Option ObjectId → EngineM (Option ObjectId)
  | 0, _, peeled => pure peeled
  | fuel + 1, current, peeled => do
    let o? ← tryCatch (do pure (some (← getObject n current))) fun e =>
      match e with
      | .storage (.notFound _) => pure none
      | _ => throw e
    match o? with
    | some o =>
      if o.kind ≠ .tag then return peeled
      let t ← getTag n current
      peelFrom n fuel t.object (some t.object)
    | none => pure peeled

/-- The object an annotated tag finally points at; none when the id is not a tag. -/
def peelTag (n : RepoName) (id : ObjectId) : EngineM (Option ObjectId) := peelFrom n peelDepth id none

/-- What the listing says about `HEAD` and the references it advertises. -/
structure Listing where
  head : Option ObjectId := none
  symref : Option String := none
  advertised : List (ObjectId × String) := []

/-- Adds one reference to the listing. -/
def listReference (n : RepoName) (l : Listing) (r : Reference) : EngineM Listing := do
  let id ← match r.target with
    | .direct id => pure (some id)
    | .symbolic _ => resolve n r.name
  if r.name = headName then
    let symref := match r.target, id with
      | .symbolic t, some _ => some t
      | _, _ => l.symref
    return { l with head := id, symref := symref }
  let some id := id | return l
  let l := { l with advertised := l.advertised ++ [(id, r.name)] }
  if r.name.startsWith "refs/tags/" then
    if let some peeled ← peelTag n id then
      return { l with advertised := l.advertised ++ [(peeled, r.name ++ "^\x7b\x7d")] }
  pure l

/-- The advertisement of a service over a binding: the reference lines framed as pkt-lines,
behind the service line over HTTP. -/
def infoRefs (n : RepoName) (service : Service) (binding : Binding) : EngineM Bytes := do
  let l ← (← refs n).foldlM (listReference n) {}
  let caps := serviceCapabilities service ++ " agent=" ++ agent ++ " object-format=sha1" ++
    (match l.symref with | some t => " symref=HEAD:" ++ t | none => "")
  let line := fun (id : ObjectId) (name : String) => id.toHex ++ " " ++ name
  let (first, rest) := match l.head, l.advertised with
    | some h, adv => (line h headName, adv)
    | none, (id, name) :: adv => (line id name, adv)
    | none, [] => (line ObjectId.zero "capabilities^\x7b\x7d", [])
  let lines := (first ++ "\x00" ++ caps ++ "\n") :: rest.map fun (id, name) => line id name ++ "\n"
  pure (smartReply binding lines service.name)

end Engine

end GitServer
