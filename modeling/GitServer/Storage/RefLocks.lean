import GitServer.Storage.Backend

/-!
# Per-reference locks

Within one process, compare-and-swap and compare-and-delete are serialised per reference by a
map from keys, one for each reference of a repository, to mutexes. Entries are made on demand
and pruned when the last call that holds their mutex lets go, so that the map holds only the
references being changed. Each call is a task of six atomic steps:

1. take the key's entry, making it when it is absent, and clone its mutex;
2. acquire that mutex, once no task holds it;
3. read the reference's target;
4. compare it with the expected target, then write, or report the conflict;
5. release the mutex, which drops the task's clone;
6. remove the key's entry if no clone of its mutex is left but the map's own.

A `LockWorld` holds the storage, the map and where each of `k` tasks is. `LockWorld.step` moves
one task one step, when it can move; `LockWorld.run` follows a schedule, the list of the tasks to
move in turn, so that every interleaving of the tasks' steps is the run of a schedule.
-/

namespace GitServer

/-- The key of a reference of a repository in the map: the repository's name, a NUL, and the
reference's name. -/
def lockKey (n : RepoName) (ref : String) : String := n.path ++ "\x00" ++ ref

/-- What a call asks of a reference: a swap writes a direct target where the expected target
stands (none: where the reference is absent); a removal deletes the reference where it holds
the expected target. -/
inductive RefChange where
  | swap (id : ObjectId) (expected : Option RefTarget)
  | remove (expected : RefTarget)

namespace RefChange

/-- The target the call must find. -/
def expected : RefChange → Option RefTarget
  | .swap _ e => e
  | .remove e => some e

/-- The target the call leaves when it succeeds. -/
def result : RefChange → Option RefTarget
  | .swap id _ => some (.direct id)
  | .remove _ => none

/-- Step 4: compare the target read with the expected one, then write, or report the conflict
with both targets. -/
def commit (n : RepoName) (ref : String) (c : RefChange) (current : Option RefTarget) :
    StoreM Unit :=
  if current ≠ c.expected then
    throw (.referenceConflict ref (Storage.describe c.expected) (Storage.describe current))
  else
    match c with
    | .swap id _ => Storage.setReference n ⟨ref, .direct id⟩
    | .remove _ => Storage.deleteReference n ref

end RefChange

/-- What one task asks: the repository and the reference it changes, and how. -/
structure RefTask where
  repo : RepoName
  ref : String
  change : RefChange

namespace RefTask

/-- The key the task locks. -/
def key (c : RefTask) : String := lockKey c.repo c.ref

/-- Step 4 from what step 3 read: a read that failed gives its error as the answer. -/
def finish (c : RefTask) : Except StorageError (Option RefTarget) → StoreM Unit
  | .ok current => c.change.commit c.repo c.ref current
  | .error e => throw e

end RefTask

/-- Where a task is among its six steps. -/
inductive TaskPhase where
  /-- It has not taken the map's entry. -/
  | start
  /-- It holds a clone of mutex `m` and waits for it. -/
  | waiting (m : Nat)
  /-- It holds mutex `m`. -/
  | locked (m : Nat)
  /-- It holds mutex `m` and has read the reference. -/
  | read (m : Nat) (current : Except StorageError (Option RefTarget))
  /-- It holds mutex `m` and has its answer. -/
  | decided (m : Nat) (answer : Except StorageError Unit)
  /-- It has released the mutex; the map's entry is yet to be pruned. -/
  | released (answer : Except StorageError Unit)
  /-- It is done. -/
  | finished (answer : Except StorageError Unit)

namespace TaskPhase

/-- The mutex the task holds a clone of: from taking the entry to releasing the mutex. -/
def clone? : TaskPhase → Option Nat
  | .waiting m | .locked m | .read m _ | .decided m _ => some m
  | _ => none

/-- The mutex the task holds: from acquiring it to releasing it. -/
def holds? : TaskPhase → Option Nat
  | .locked m | .read m _ | .decided m _ => some m
  | _ => none

/-- Whether the task has taken the map's entry and not yet pruned it. -/
def active : TaskPhase → Bool
  | .start | .finished _ => false
  | _ => true

/-- What the task read, while it holds it. -/
def current? : TaskPhase → Option (Except StorageError (Option RefTarget))
  | .read _ current => some current
  | _ => none

/-- Whether the task has written. -/
def succeeded : TaskPhase → Bool
  | .decided _ (.ok _) | .released (.ok _) | .finished (.ok _) => true
  | _ => false

/-- Whether the task has answered with an error. -/
def failed : TaskPhase → Bool
  | .decided _ (.error _) | .released (.error _) | .finished (.error _) => true
  | _ => false

/-- Whether the task is done. -/
def done : TaskPhase → Bool
  | .finished _ => true
  | _ => false

end TaskPhase

/-- The storage, the lock map with the next mutex to make, and where each of `k` tasks is. -/
structure LockWorld (k : Nat) where
  storage : Storage
  entries : String → Option Nat
  fresh : Nat
  phase : Fin k → TaskPhase

namespace LockWorld

variable {k : Nat}

/-- Before any task has moved: the map is empty. -/
def init (s : Storage) : LockWorld k := ⟨s, fun _ => none, 0, fun _ => .start⟩

/-- Task `i` goes to phase `p`. -/
def moveTo (w : LockWorld k) (i : Fin k) (p : TaskPhase) : LockWorld k :=
  { w with phase := fun j => if j = i then p else w.phase j }

/-- Whether some task holds mutex `m`. -/
def held (w : LockWorld k) (m : Nat) : Bool :=
  (List.finRange k).any fun j => (w.phase j).holds? == some m

/-- Whether some task holds a clone of mutex `m`. -/
def cloned (w : LockWorld k) (m : Nat) : Bool :=
  (List.finRange k).any fun j => (w.phase j).clone? == some m

/-- Step 1 on the map: the key's mutex, made new when the key has no entry. -/
def takeEntry (w : LockWorld k) (key : String) : Nat × LockWorld k :=
  match w.entries key with
  | some m => (m, w)
  | none =>
    (w.fresh, { w with
      entries := fun key' => if key' = key then some w.fresh else w.entries key'
      fresh := w.fresh + 1 })

/-- Step 6 on the map: the key's entry goes when no task holds a clone of its mutex. -/
def pruneEntry (w : LockWorld k) (key : String) : LockWorld k :=
  match w.entries key with
  | some m =>
    if w.cloned m then w
    else { w with entries := fun key' => if key' = key then none else w.entries key' }
  | none => w

/-- Task `i`'s next step, where each task `j` asks `tasks j`; none when it waits for a mutex
that a task holds, or is done. -/
def step (tasks : Fin k → RefTask) (w : LockWorld k) (i : Fin k) : Option (LockWorld k) :=
  match w.phase i with
  | .start =>
    let (m, w') := w.takeEntry (tasks i).key
    some (w'.moveTo i (.waiting m))
  | .waiting m => if w.held m then none else some (w.moveTo i (.locked m))
  | .locked m =>
    let (current, s) := (Storage.currentTarget (tasks i).repo (tasks i).ref).run.run w.storage
    some ({ w with storage := s }.moveTo i (.read m current))
  | .read m current =>
    let (answer, s) := ((tasks i).finish current).run.run w.storage
    some ({ w with storage := s }.moveTo i (.decided m answer))
  | .decided _ answer => some (w.moveTo i (.released answer))
  | .released answer => some ((w.moveTo i (.finished answer)).pruneEntry (tasks i).key)
  | .finished _ => none

/-- The world after task `i`'s step; the same world when task `i` cannot move. -/
def next (tasks : Fin k → RefTask) (w : LockWorld k) (i : Fin k) : LockWorld k :=
  (w.step tasks i).getD w

/-- Follows a schedule: the tasks it names move in turn. -/
def run (tasks : Fin k → RefTask) (w : LockWorld k) : List (Fin k) → LockWorld k
  | [] => w
  | i :: is => (w.next tasks i).run tasks is

end LockWorld

end GitServer
