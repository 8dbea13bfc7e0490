import GitServer.Engine.Access
import Mathlib

/-!
# Storage that does not fail

The engine reaches a repository through a handful of storage operations. What a read answers
is the state's view of the repository: `Storage.objectAt` for objects and `Storage.targetAt`
for references. `Storage.Reliable n Good` is storage that does not fail, for the repository
`n`, over a set `Good` of states closed under the engine's writes:

* reads change nothing, an object read carries the id it was read by and is of a base kind,
  and a read fails only when the object is absent;
* storing an object of a base kind answers its id and keeps it under that id, unless an object
  was there already;
* writing a direct target, or removing a reference that is there, changes that reference only;
* no write fails, and every write stays in `Good`.

From these laws come the engine's own steps: `Storage.currentTarget` answers the view,
`Storage.compareAndSwap` and `Storage.compareAndDelete` change the reference exactly when it
holds the expected target and report a conflict otherwise, and `Engine.updateReference` moves
a reference as a push asks.

A blob store keeps the laws (`remote_reliable`). A disk does not
(`Storage.Reliable.medium_remote`): there a reference file and a directory of references cannot
share a name, so some valid names fail, and reading an object fills the cache besides.
-/

namespace GitServer

/-! ## Running a step -/

section Run

variable {ε ε' σ α β : Type} {s s' : σ}

theorem run_bind_of_ok {x : ExceptT ε (StateM σ) α} {f : α → ExceptT ε (StateM σ) β} {a : α}
    (h : x.run.run s = (.ok a, s')) : (x >>= f).run.run s = (f a).run.run s' := by
  simp only [ExceptT.run_bind, StateT.run_bind, h]
  rfl

theorem run_bind_of_error {x : ExceptT ε (StateM σ) α} {f : α → ExceptT ε (StateM σ) β} {e : ε}
    (h : x.run.run s = (.error e, s')) : (x >>= f).run.run s = (.error e, s') := by
  simp only [ExceptT.run_bind, StateT.run_bind, h]
  rfl

theorem run_tryCatch_of_ok {x : ExceptT ε (StateM σ) α} {handle : ε → ExceptT ε (StateM σ) α}
    {a : α} (h : x.run.run s = (.ok a, s')) : (tryCatch x handle).run.run s = (.ok a, s') := by
  simp only [tryCatch, tryCatchThe, MonadExceptOf.tryCatch, ExceptT.tryCatch, ExceptT.run_mk,
    StateT.run_bind]
  rw [show StateT.run x s = (.ok a, s') from h]
  rfl

theorem run_tryCatch_of_error {x : ExceptT ε (StateM σ) α} {handle : ε → ExceptT ε (StateM σ) α}
    {e : ε} (h : x.run.run s = (.error e, s')) :
    (tryCatch x handle).run.run s = (handle e).run.run s' := by
  simp only [tryCatch, tryCatchThe, MonadExceptOf.tryCatch, ExceptT.tryCatch, ExceptT.run_mk,
    StateT.run_bind]
  rw [show StateT.run x s = (.error e, s') from h]
  rfl

theorem run_adapt_of_ok {x : ExceptT ε (StateM σ) α} {a : α} (g : ε → ε')
    (h : x.run.run s = (.ok a, s')) : (ExceptT.adapt g x).run.run s = (.ok a, s') := by
  simp only [ExceptT.adapt, ExceptT.run_mk, StateT.run_map]
  rw [show StateT.run x s = (.ok a, s') from h]
  rfl

theorem run_adapt_of_error {x : ExceptT ε (StateM σ) α} {e : ε} (g : ε → ε')
    (h : x.run.run s = (.error e, s')) :
    (ExceptT.adapt g x).run.run s = (.error (g e), s') := by
  simp only [ExceptT.adapt, ExceptT.run_mk, StateT.run_map]
  rw [show StateT.run x s = (.error e, s') from h]
  rfl

@[simp] theorem run_pure (a : α) (s : σ) :
    (pure a : ExceptT ε (StateM σ) α).run.run s = (.ok a, s) := rfl

@[simp] theorem run_throw (e : ε) (s : σ) :
    (throw e : ExceptT ε (StateM σ) α).run.run s = (.error e, s) := rfl

/-- A loop whose every step goes on, keeping a property of the state, runs to its end and
keeps the property. -/
theorem run_forIn_yield (P : σ → Prop) (f : α → PUnit → ExceptT ε (StateM σ) (ForInStep PUnit))
    (hf : ∀ x s, P s → ∃ s', (f x PUnit.unit).run.run s = (.ok (.yield PUnit.unit), s') ∧ P s') :
    ∀ (l : List α) s, P s → ∃ s', (forIn l PUnit.unit f).run.run s = (.ok PUnit.unit, s') ∧ P s'
  | [], s, hs => ⟨s, rfl, hs⟩
  | x :: xs, s, hs => by
    obtain ⟨s₁, hrun, hs₁⟩ := hf x s hs
    rw [List.forIn_cons, run_bind_of_ok hrun]
    exact run_forIn_yield P f hf xs s₁ hs₁

end Run

/-! ## What a repository holds, and the laws of its storage -/

namespace Storage

/-- The object a read of `id` finds in repository `n`. -/
def objectAt (n : RepoName) (s : Storage) (id : ObjectId) : Option GitObject :=
  ((getObject n id).run.run s).1.toOption

/-- The target a read of `ref` finds in repository `n`; none when it is absent. -/
def targetAt (n : RepoName) (s : Storage) (ref : String) : Option RefTarget :=
  ((currentTarget n ref).run.run s).1.toOption.join

/-- Storage that does not fail, for the repository `n`, over the states `Good`. -/
structure Reliable (n : RepoName) (Good : Storage → Prop) : Prop where
  /-- Reading an object changes nothing and fails only when the object is absent. -/
  getObject : ∀ {s} id, Good s → ((getObject n id).run.run s).2 = s ∧
    ∀ e, ((getObject n id).run.run s).1 = .error e → e.isNotFound = true
  /-- An object read carries the id it was read by and is a whole object, not a delta. -/
  objectAt_some : ∀ {s id o}, Good s → objectAt n s id = some o → o.id = id ∧ o.kind.isBase = true
  /-- Whether an object is stored is whether a read finds it. -/
  hasObject : ∀ {s} id, Good s → (hasObject n id).run.run s = (.ok (objectAt n s id).isSome, s)
  /-- Storing an object of a base kind answers its id and keeps the object under it, unless
  one was there; references stay. -/
  putObject : ∀ {s} (k : ObjectKind) data, Good s → k.isBase = true →
    ∃ s', (putObject n k data).run.run s = (.ok (ObjectId.ofObject k data), s') ∧ Good s' ∧
      (∀ id, objectAt n s' id = if id = ObjectId.ofObject k data then
        (objectAt n s id).or (some (.ofContent k data)) else objectAt n s id) ∧
      targetAt n s' = targetAt n s
  /-- Reading a reference by a valid name answers its target and changes nothing. -/
  currentTarget : ∀ {s} ref, Good s → validateRefName ref = .ok () →
    (currentTarget n ref).run.run s = (.ok (targetAt n s ref), s)
  /-- Writing a direct target changes that reference only. -/
  setDirect : ∀ {s} ref id, Good s → validateRefName ref = .ok () →
    ∃ s', (setReference n ⟨ref, .direct id⟩).run.run s = (.ok (), s') ∧ Good s' ∧
      objectAt n s' = objectAt n s ∧
      targetAt n s' = Function.update (targetAt n s) ref (some (.direct id))
  /-- Removing a reference that is there changes that reference only. -/
  deleteReference : ∀ {s} ref, Good s → validateRefName ref = .ok () → targetAt n s ref ≠ none →
    ∃ s', (deleteReference n ref).run.run s = (.ok (), s') ∧ Good s' ∧
      objectAt n s' = objectAt n s ∧ targetAt n s' = Function.update (targetAt n s) ref none

variable {n : RepoName} {Good : Storage → Prop} {s : Storage}

namespace Reliable

variable (hrel : Reliable n Good) (hs : Good s)
include hrel hs

/-- A read of a stored object answers it. -/
theorem getObject_of_some {id : ObjectId} {o : GitObject} (h : objectAt n s id = some o) :
    (Storage.getObject n id).run.run s = (.ok o, s) := by
  obtain ⟨hstate, -⟩ := hrel.getObject id hs
  have hres : ((Storage.getObject n id).run.run s).1 = .ok o := by
    simp only [objectAt] at h
    revert h
    cases ((Storage.getObject n id).run.run s).1 <;> simp [Except.toOption]
  exact Prod.ext hres hstate

/-- A read of an absent object reports it as not found. -/
theorem getObject_of_none {id : ObjectId} (h : objectAt n s id = none) :
    ∃ msg, (Storage.getObject n id).run.run s = (.error (.notFound msg), s) := by
  obtain ⟨hstate, hnotfound⟩ := hrel.getObject id hs
  simp only [objectAt] at h
  cases hres : ((Storage.getObject n id).run.run s).1 with
  | ok o => simp [hres, Except.toOption] at h
  | error e =>
    have := hnotfound e hres
    cases e <;> simp [StorageError.isNotFound] at this
    exact ⟨_, Prod.ext hres hstate⟩

/-- A swap that finds the expected target writes the new one and nothing else. -/
theorem compareAndSwap_of_eq {ref : String} (id : ObjectId) {expected : Option RefTarget}
    (hvalid : validateRefName ref = .ok ()) (hcur : targetAt n s ref = expected) :
    ∃ s', (compareAndSwap n ⟨ref, .direct id⟩ expected).run.run s = (.ok (), s') ∧ Good s' ∧
      objectAt n s' = objectAt n s ∧
      targetAt n s' = Function.update (targetAt n s) ref (some (.direct id)) := by
  obtain ⟨s', hset, hgood, hobj, htgt⟩ := hrel.setDirect ref id hs hvalid
  refine ⟨s', ?_, hgood, hobj, htgt⟩
  simp only [compareAndSwap]
  rw [run_bind_of_ok (hrel.currentTarget ref hs hvalid), hcur]
  simpa using hset

/-- A swap that finds another target reports the conflict and changes nothing. -/
theorem compareAndSwap_of_ne {ref : String} (id : ObjectId) {expected : Option RefTarget}
    (hvalid : validateRefName ref = .ok ()) (hcur : targetAt n s ref ≠ expected) :
    (compareAndSwap n ⟨ref, .direct id⟩ expected).run.run s =
      (.error (.referenceConflict ref (describe expected) (describe (targetAt n s ref))), s) := by
  simp only [compareAndSwap]
  rw [run_bind_of_ok (hrel.currentTarget ref hs hvalid)]
  simp [hcur]
  rfl

/-- A removal that finds the expected target removes the reference and nothing else. -/
theorem compareAndDelete_of_eq {ref : String} {expected : RefTarget}
    (hvalid : validateRefName ref = .ok ()) (hcur : targetAt n s ref = some expected) :
    ∃ s', (compareAndDelete n ref expected).run.run s = (.ok (), s') ∧ Good s' ∧
      objectAt n s' = objectAt n s ∧ targetAt n s' = Function.update (targetAt n s) ref none := by
  obtain ⟨s', hdel, hgood, hobj, htgt⟩ := hrel.deleteReference ref hs hvalid (by simp [hcur])
  refine ⟨s', ?_, hgood, hobj, htgt⟩
  simp only [compareAndDelete]
  rw [run_bind_of_ok (hrel.currentTarget ref hs hvalid), hcur]
  simpa using hdel

/-- A removal that finds another target reports the conflict and changes nothing. -/
theorem compareAndDelete_of_ne {ref : String} {expected : RefTarget}
    (hvalid : validateRefName ref = .ok ()) (hcur : targetAt n s ref ≠ some expected) :
    (compareAndDelete n ref expected).run.run s =
      (.error (.referenceConflict ref (describe (some expected)) (describe (targetAt n s ref))),
        s) := by
  simp only [compareAndDelete]
  rw [run_bind_of_ok (hrel.currentTarget ref hs hvalid)]
  simp [hcur]
  rfl

end Reliable

end Storage

/-! ## The engine's steps -/

namespace Engine

open Storage

variable {n : RepoName} {Good : Storage → Prop} {s : Storage}

theorem run_store_of_ok {α : Type} {m : StoreM α} {s' : Storage} {a : α}
    (h : m.run.run s = (.ok a, s')) : (store m).run.run s = (.ok a, s') :=
  run_adapt_of_ok _ h

theorem run_store_of_error {α : Type} {m : StoreM α} {s' : Storage} {e : StorageError}
    (h : m.run.run s = (.error e, s')) : (store m).run.run s = (.error (.storage e), s') :=
  run_adapt_of_error _ h

/-- What a move of a reference needs: the old target it must find, none when the old id is
absent. -/
def expectedTarget (old : Option ObjectId) : Option RefTarget := old.map RefTarget.direct

/-- What a move of a reference leaves: the new id, none when the new id is absent. -/
def movedTarget (new : Option ObjectId) : Option RefTarget := new.map RefTarget.direct

namespace Reliable

variable (hrel : Reliable n Good) (hs : Good s)
include hrel hs

theorem hasObject_run (id : ObjectId) :
    (hasObject n id).run.run s = (.ok (objectAt n s id).isSome, s) :=
  run_store_of_ok (hrel.hasObject id hs)

/-- **A move finds what it expects**: a move that is not a removal without an old id, of a
reference holding the expected target, writes the new target and nothing else. -/
theorem updateReference_of_eq {ref : String} {old new : Option ObjectId}
    (hvalid : validateRefName ref = .ok ()) (hmove : new.isSome ∨ old.isSome)
    (hcur : targetAt n s ref = expectedTarget old) :
    ∃ s', (updateReference n ref old new).run.run s = (.ok (), s') ∧ Good s' ∧
      objectAt n s' = objectAt n s ∧
      targetAt n s' = Function.update (targetAt n s) ref (movedTarget new) := by
  cases new with
  | some id =>
    obtain ⟨s', hrun, hgood, hobj, htgt⟩ := hrel.compareAndSwap_of_eq hs id hvalid hcur
    exact ⟨s', run_store_of_ok hrun, hgood, hobj, htgt⟩
  | none =>
    cases old with
    | none => simp at hmove
    | some o =>
      obtain ⟨s', hrun, hgood, hobj, htgt⟩ := hrel.compareAndDelete_of_eq hs hvalid hcur
      exact ⟨s', run_store_of_ok hrun, hgood, hobj, htgt⟩

/-- **A move finds another target**: it reports a conflict and changes nothing. -/
theorem updateReference_of_ne {ref : String} {old new : Option ObjectId}
    (hvalid : validateRefName ref = .ok ()) (hmove : new.isSome ∨ old.isSome)
    (hcur : targetAt n s ref ≠ expectedTarget old) :
    ∃ expected found, (updateReference n ref old new).run.run s =
      (.error (.storage (.referenceConflict ref expected found)), s) := by
  cases new with
  | some id =>
    exact ⟨_, _, run_store_of_error (hrel.compareAndSwap_of_ne hs id hvalid hcur)⟩
  | none =>
    cases old with
    | none => simp at hmove
    | some o => exact ⟨_, _, run_store_of_error (hrel.compareAndDelete_of_ne hs hvalid hcur)⟩

end Reliable

/-- A removal without an old id is refused before storage is asked. -/
theorem updateReference_none_none (ref : String) (s : Storage) :
    (updateReference n ref none none).run.run s =
      (.error (.storage (.invalidRequest ("delete of " ++ ref ++ " without an old value"))), s) :=
  rfl

end Engine

end GitServer
