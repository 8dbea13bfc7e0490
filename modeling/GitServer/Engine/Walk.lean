import GitServer.Engine.Access

/-!
# Walking the object graph

A fetch sends every object reachable from the wanted commits that is not reachable from the
commits the client has. Both walks are depth first over a stack:

* `reachable` collects the ids reachable from the client's commits. It never loads a blob,
  and an object missing from storage ends the walk along that path;
* `collect` loads the objects reachable from the wants, in the order they are first met
  (a commit, then its tree and everything below it, then its parents, first parent
  first), skipping what `reachable` found. Submodule entries point into other repositories
  and are not followed.

Annotated tags asked for with `include-tag` are added last, each when the object it points
at is being sent.

Each round of a walk takes the first entry of the stack whose id it has not taken yet, and
drops the entries above it. A round takes a new id, so a walk of `walkBound` rounds, the number
of ids there are, ends with the stack used up, whatever the store holds, cycles included.
-/

namespace GitServer

namespace Engine

/-- The number of object ids, twenty bytes each: a walk takes at most this many. -/
def walkBound : Nat := Nat.pow 256 20

/-- Parses an object met in a walk, reporting a failure as a pack error. -/
def parsedObject {α} (id : ObjectId) : Except CodecError α → EngineM α :=
  parsed "object" id

/-- The stack entries an object adds to the walk from the client's commits: the ids it
points to, each with the kind it should have. -/
def reachableChildren (o : GitObject) : EngineM (List (ObjectId × Option ObjectKind)) := do
  match o.kind with
  | .commit =>
    let c ← parsedObject o.id (Commit.parse o.data)
    pure (c.parents.reverse.map (·, some .commit) ++ [(c.tree, some .tree)])
  | .tree =>
    let t ← parsedObject o.id (Tree.parse o.data)
    pure ((t.entries.filter (·.mode != .gitlink)).reverse.map fun e => (e.id, some e.mode.kind))
  | .tag =>
    let t ← parsedObject o.id (Tag.parse o.data)
    pure [(t.object, some t.kind)]
  | _ => pure []

/-- The walk from the client's commits. The stack has its top first; `seen` collects every
id taken off it, blobs and missing objects included. -/
def reachableFrom (n : RepoName) :
    Nat → List (ObjectId × Option ObjectKind) → List ObjectId → EngineM (List ObjectId)
  | 0, _, seen => pure seen
  | fuel + 1, stack, seen =>
    match stack.dropWhile (seen.contains ·.1) with
    | [] => pure seen
    | (id, hint) :: stack => do
      let seen := id :: seen
      if hint = some .blob then return ← reachableFrom n fuel stack seen
      let o? ← tryCatch (do pure (some (← getObject n id))) fun e =>
        match e with
        | .storage (.notFound _) => pure none
        | _ => throw e
      match o? with
      | none => reachableFrom n fuel stack seen
      | some o => reachableFrom n fuel ((← reachableChildren o) ++ stack) seen

/-- Every id reachable from the given commits, as far as storage has them. -/
def reachable (n : RepoName) (roots : List ObjectId) : EngineM (List ObjectId) :=
  reachableFrom n walkBound (roots.reverse.map (·, none)) []

/-- The ids an object sends the walk to next, first to be visited first. -/
def sentChildren (o : GitObject) : EngineM (List ObjectId) := do
  match o.kind with
  | .commit =>
    let c ← parsedObject o.id (Commit.parse o.data)
    pure (c.tree :: c.parents)
  | .tree =>
    let t ← parsedObject o.id (Tree.parse o.data)
    pure ((t.entries.filter (·.mode != .gitlink)).map (·.id))
  | .tag =>
    let t ← parsedObject o.id (Tag.parse o.data)
    pure [t.object]
  | _ => pure []

/-- The walk from the wants. The stack has its top first; `included` holds the ids taken so
far and `sent` the objects in the order they were met. -/
def collectFrom (n : RepoName) (excluded : List ObjectId) :
    Nat → List ObjectId → List ObjectId → List GitObject → EngineM (List ObjectId × List GitObject)
  | 0, _, included, sent => pure (included, sent)
  | fuel + 1, stack, included, sent =>
    match stack.dropWhile (fun id => excluded.contains id || included.contains id) with
    | [] => pure (included, sent)
    | id :: stack => do
      let o ← getObject n id
      let next ← sentChildren o
      collectFrom n excluded fuel (next ++ stack) (id :: included) (sent ++ [o])

/-- Adds the annotated tags that point at an object being sent. -/
def addTags (n : RepoName) (excluded : List ObjectId) :
    List ObjectId → List ObjectId → List GitObject → EngineM (List GitObject)
  | [], _, sent => pure sent
  | tagId :: rest, included, sent => do
    if included.contains tagId || excluded.contains tagId then
      return ← addTags n excluded rest included sent
    let t ← getTag n tagId
    if included.contains t.object then
      let o ← getObject n tagId
      addTags n excluded rest (tagId :: included) (sent ++ [o])
    else addTags n excluded rest included sent

/-- The objects to send: everything reachable from the wants and not from the haves, then the
candidate tags that point into it. -/
def collect (n : RepoName) (wants haves tags : List ObjectId) : EngineM (List GitObject) := do
  let excluded ← reachable n haves
  let (included, sent) ← collectFrom n excluded walkBound wants [] []
  addTags n excluded tags included sent

end Engine

end GitServer
