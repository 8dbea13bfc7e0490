import GitServer.Proofs.Storage.RefStore
import Mathlib

/-!
# Objects as a content-addressed map

What the objects of a repository mean, apart from how a medium keeps them: a map from ids to
kinds and contents (`ObjMap`). Storing files an object under the digest of its header and
content, unless an object is filed there already; reading answers what the map files under an
id, or that nothing is; removing an object that is there drops it, and removing one that is
not fails as absent; the listing gives the objects of the kind asked for, each once, in
increasing order of id (`ObjMap.Listed`). A repository's life adds two steps: creating it
starts the map afresh from the objects of a new repository, and deleting it drops the map.

`Storage.ObjLaws n Holds` gathers what a medium must do for the objects of repository `n` to
refine the map over the states `Holds O` that hold the map `O`, and `Storage.LifeLaws` what it
must do across creating and deleting the repository, from the states `Vacant` where it can
be created. From the laws alone every call answers as on the map (`ObjLaws.run_answers`), and
so does every script of calls, creations and deletions (`LifeLaws.runAll_trace`).
-/

namespace GitServer

/-! ## Loops that gather -/

section Run

variable {ε σ α β : Type}

/-- **A loop over `L` whose every step goes on and gathers `g x`**, keeping a property of the
state, runs to its end and gathers `L.flatMap g` after what it started with. -/
theorem run_forIn_flatMap_of_inv {γ : Type} (Inv : σ → Prop) (g : α → List γ)
    (F : α → List γ → ExceptT ε (StateM σ) (ForInStep (List γ))) :
    ∀ (L : List α), (∀ x ∈ L, ∀ acc s, Inv s →
      ∃ s', (F x acc).run.run s = (.ok (.yield (acc ++ g x)), s') ∧ Inv s') →
    ∀ acc s, Inv s → ∃ s', (forIn L acc F).run.run s = (.ok (acc ++ L.flatMap g), s') ∧ Inv s'
  | [], _, acc, s, hs => ⟨s, by simp; rfl, hs⟩
  | x :: xs, hF, acc, s, hs => by
    obtain ⟨s₁, hrun, hs₁⟩ := hF x List.mem_cons_self acc s hs
    obtain ⟨s', hrest, hs'⟩ := run_forIn_flatMap_of_inv Inv g F xs
      (fun y hy => hF y (List.mem_cons_of_mem x hy)) (acc ++ g x) s₁ hs₁
    refine ⟨s', ?_, hs'⟩
    rw [List.forIn_cons, run_bind_of_ok hrun]
    simpa using hrest

/-- A step that succeeds into states of a property, followed by one that succeeds from each of
them, succeeds. -/
theorem exists_run_bind {γ : Type} {s : σ} {x : ExceptT ε (StateM σ) β}
    {k : β → ExceptT ε (StateM σ) γ} {a : β} {b : γ} {P Q : σ → Prop}
    (hx : ∃ s', x.run.run s = (.ok a, s') ∧ P s')
    (hk : ∀ s', P s' → ∃ s'', (k a).run.run s' = (.ok b, s'') ∧ Q s'') :
    ∃ s'', (x >>= k).run.run s = (.ok b, s'') ∧ Q s'' := by
  obtain ⟨s', hx, hs'⟩ := hx
  rw [run_bind_of_ok hx]
  exact hk s' hs'

/-- A loop over `L` whose every step leaves the state alone and gathers `g x` gathers
`L.flatMap g`. -/
theorem run_forIn_flatMap {γ : Type} (L : List α) (g : α → List γ)
    (F : α → List γ → ExceptT ε (StateM σ) (ForInStep (List γ))) (s : σ)
    (hF : ∀ x ∈ L, ∀ acc, (F x acc).run.run s = (.ok (.yield (acc ++ g x)), s)) :
    (forIn L [] F).run.run s = (.ok (L.flatMap g), s) := by
  obtain ⟨s', hrun, rfl⟩ := run_forIn_flatMap_of_inv (· = s) g F L
    (fun x hx acc s' hs' => ⟨s, by rw [hs']; exact hF x hx acc, rfl⟩) [] s rfl
  simpa using hrun

/-- A loop whose every step turns a property of the state for one value into the property for
the next runs to its end, and leaves the property for the value folded over the whole list. -/
theorem run_forIn_fold (P : β → σ → Prop) (g : β → α → β)
    (f : α → PUnit → ExceptT ε (StateM σ) (ForInStep PUnit)) :
    ∀ (l : List α), (∀ x ∈ l, ∀ a s, P a s →
      ∃ s', (f x PUnit.unit).run.run s = (.ok (.yield PUnit.unit), s') ∧ P (g a x) s') →
    ∀ (a : β) (s : σ), P a s →
      ∃ s', (forIn l PUnit.unit f).run.run s = (.ok PUnit.unit, s') ∧ P (l.foldl g a) s'
  | [], _, a, s, hP => ⟨s, rfl, hP⟩
  | x :: xs, hf, a, s, hP => by
    obtain ⟨s₁, hrun, hP₁⟩ := hf x List.mem_cons_self a s hP
    rw [List.forIn_cons, run_bind_of_ok hrun]
    exact run_forIn_fold P g f xs (fun y hy => hf y (List.mem_cons_of_mem x hy)) (g a x) s₁ hP₁

end Run

/-! ## The map -/

/-- The objects of a repository: the kind and content filed under each id, none where there is
none. -/
abbrev ObjMap := ObjectId → Option (ObjectKind × Bytes)

namespace ObjMap

/-- No objects. -/
def empty : ObjMap := fun _ => none

/-- Files an object under the id of its kind and content; an object already filed under that
id stays. -/
def put (O : ObjMap) (k : ObjectKind) (d : Bytes) : ObjMap :=
  Function.update O (ObjectId.ofObject k d) ((O (ObjectId.ofObject k d)).or (some (k, d)))

/-- What a read of `id` answers on the map. -/
def read (O : ObjMap) (id : ObjectId) : Except StorageError GitObject :=
  match O id with
  | some (k, d) => .ok ⟨k, d, id⟩
  | none => .error (.notFound ("object " ++ id.toHex))

theorem read_of_some {O : ObjMap} {id : ObjectId} {k : ObjectKind} {d : Bytes}
    (hO : O id = some (k, d)) : O.read id = .ok ⟨k, d, id⟩ := by
  simp [read, hO]

/-- The objects are whole objects, not deltas, and their sizes fit the 64 bits a header's size
is read into. -/
def Kept (O : ObjMap) : Prop :=
  ∀ id k d, O id = some (k, d) → k.isBase = true ∧ d.length < 2 ^ 64

/-- Every object is filed under the id of its kind and content. -/
def Addressed (O : ObjMap) : Prop :=
  ∀ id k d, O id = some (k, d) → id = ObjectId.ofObject k d

/-- `os` lists the objects of the map of kind `filter` (of every kind for `none`), each once,
in increasing order of id. -/
def Listed (O : ObjMap) (filter : Option ObjectKind) (os : List GitObject) : Prop :=
  os.Pairwise (fun a b => a.id.lt b.id = true) ∧
    ∀ o, o ∈ os ↔ O o.id = some (o.kind, o.data) ∧ filter.all (· == o.kind) = true

theorem put_apply (O : ObjMap) (k : ObjectKind) (d : Bytes) (id : ObjectId) :
    O.put k d id = if id = ObjectId.ofObject k d then (O id).or (some (k, d)) else O id := by
  unfold put
  split_ifs with h
  · subst h
    exact Function.update_self _ _ _
  · exact Function.update_of_ne h _ _

/-- The objects a new repository starts with, stored one after another. -/
def ofObjects (os : List GitObject) : ObjMap := os.foldl (fun O x => O.put x.kind x.data) empty

theorem Kept.put {O : ObjMap} (hO : O.Kept) {k : ObjectKind} {d : Bytes} (hk : k.isBase = true)
    (hd : d.length < 2 ^ 64) : (O.put k d).Kept := by
  intro id k' d' h
  rw [put_apply] at h
  split_ifs at h
  · cases hO' : O id with
    | none =>
      rw [hO', Option.none_or] at h
      cases h
      exact ⟨hk, hd⟩
    | some x =>
      rw [hO', Option.some_or] at h
      exact hO id k' d' (hO'.trans h)
  · exact hO id k' d' h

theorem Addressed.put {O : ObjMap} (hO : O.Addressed) (k : ObjectKind) (d : Bytes) :
    (O.put k d).Addressed := by
  intro id k' d' h
  rw [put_apply] at h
  split_ifs at h with hid
  · cases hO' : O id with
    | none =>
      rw [hO', Option.none_or] at h
      cases h
      exact hid
    | some x =>
      rw [hO', Option.some_or] at h
      exact hO id k' d' (hO'.trans h)
  · exact hO id k' d' h

theorem Kept.erase {O : ObjMap} (hO : O.Kept) (id : ObjectId) :
    ObjMap.Kept (Function.update O id none) := by
  intro id' k d h
  by_cases hid : id' = id
  · subst hid
    simp at h
  · rw [Function.update_of_ne hid] at h
    exact hO id' k d h

theorem Addressed.erase {O : ObjMap} (hO : O.Addressed) (id : ObjectId) :
    ObjMap.Addressed (Function.update O id none) := by
  intro id' k d h
  by_cases hid : id' = id
  · subst hid
    simp at h
  · rw [Function.update_of_ne hid] at h
    exact hO id' k d h

/-- Storing kept objects one after another into a map of kept objects keeps it kept. -/
theorem Kept.foldl_put {os : List GitObject}
    (hos : ∀ x ∈ os, x.kind.isBase = true ∧ x.data.length < 2 ^ 64) :
    ∀ {O : ObjMap}, O.Kept → (os.foldl (fun O x => O.put x.kind x.data) O).Kept := by
  induction os with
  | nil => exact id
  | cons x xs ih =>
    intro O hO
    have hx := hos x List.mem_cons_self
    exact ih (fun y hy => hos y (List.mem_cons_of_mem x hy)) (hO.put hx.1 hx.2)

theorem Addressed.foldl_put (os : List GitObject) :
    ∀ {O : ObjMap}, O.Addressed → (os.foldl (fun O x => O.put x.kind x.data) O).Addressed := by
  induction os with
  | nil => exact id
  | cons x xs ih => exact fun hO => ih (hO.put x.kind x.data)

/-- An id holds an object after a store exactly when it held one before or is the stored
object's id. -/
theorem isSome_put (O : ObjMap) (k : ObjectKind) (d : Bytes) (id : ObjectId) :
    (O.put k d id).isSome = ((O id).isSome || id == ObjectId.ofObject k d) := by
  rw [put_apply]
  split_ifs with h
  · subst h
    cases O (ObjectId.ofObject k d) <;> simp
  · simp [h]

theorem isSome_foldl_put (id : ObjectId) : ∀ (os : List GitObject) (O : ObjMap),
    (os.foldl (fun O x => O.put x.kind x.data) O id).isSome =
      ((O id).isSome || os.any fun x => id == ObjectId.ofObject x.kind x.data)
  | [], O => by simp
  | x :: xs, O => by
    rw [List.foldl_cons, isSome_foldl_put id xs, isSome_put, List.any_cons, Bool.or_assoc]

theorem kept_ofObjects {os : List GitObject}
    (hos : ∀ x ∈ os, x.kind.isBase = true ∧ x.data.length < 2 ^ 64) : (ofObjects os).Kept :=
  Kept.foldl_put hos fun _ _ _ h => by simp [empty] at h

theorem addressed_ofObjects (os : List GitObject) : (ofObjects os).Addressed :=
  Addressed.foldl_put os fun _ _ _ h => by simp [empty] at h

end ObjMap

/-- The objects a new repository starts with. -/
def initialObjects (n : RepoName) (o : InitOptions) (now : Int) : ObjMap :=
  ObjMap.ofObjects (initialContent n o now).1

/-- **A new repository holds its first commit.** -/
theorem isSome_initialObjects {n : RepoName} {o : InitOptions} {now : Int} {id : ObjectId}
    (h : (initialContent n o now).2 = some id) : (initialObjects n o now id).isSome := by
  unfold initialObjects ObjMap.ofObjects
  rw [ObjMap.isSome_foldl_put]
  unfold initialContent at h ⊢
  cases hc : o.initialCommit with
  | false => simp [hc] at h
  | true =>
    simp only [hc, Bool.not_true, Bool.false_eq_true, if_false, Option.some.injEq] at h ⊢
    subst h
    simp [Commit.id, GitObject.ofContent]

/-- A new repository starts with a blob, a tree and a commit, or with nothing. -/
theorem isBase_of_mem_initialContent {n : RepoName} {o : InitOptions} {now : Int} {x : GitObject}
    (hx : x ∈ (initialContent n o now).1) : x.kind.isBase = true := by
  unfold initialContent at hx
  split at hx
  · simp at hx
  · simp only [List.mem_cons, List.not_mem_nil, or_false] at hx
    rcases hx with rfl | rfl | rfl <;> rfl

/-! ## Calls on the objects of a repository -/

/-- A call on the objects of a repository. -/
inductive ObjCall where
  | put (kind : ObjectKind) (data : Bytes)
  | get (id : ObjectId)
  | has (id : ObjectId)
  | size (id : ObjectId)
  | delete (id : ObjectId)
  | iterate (filter : Option ObjectKind)

/-- What an object call answers. -/
inductive ObjAnswer where
  | id (i : ObjectId)
  | object (o : GitObject)
  | flag (b : Bool)
  | size (n : Nat)
  | done
  | objects (os : List GitObject)

namespace ObjCall

/-- Calls the store is specified for: what is stored is a whole object whose size fits a
header's 64 bits. -/
def Kept : ObjCall → Prop
  | put k d => k.isBase = true ∧ d.length < 2 ^ 64
  | _ => True

/-- The call on a handle of repository `n`. -/
def run (n : RepoName) : ObjCall → StoreM ObjAnswer
  | put k d => do pure (.id (← Storage.putObject n k d))
  | get id => do pure (.object (← Storage.getObject n id))
  | has id => do pure (.flag (← Storage.hasObject n id))
  | size id => do pure (.size (← Storage.objectSize n id))
  | delete id => do Storage.deleteObject n id; pure .done
  | iterate f => do pure (.objects (← Storage.iterateObjects n f))

/-- What one call answers on a map, and the map it leaves. -/
inductive Answers : ObjMap → ObjCall → Except StorageError ObjAnswer → ObjMap → Prop
  /-- Storing answers the id of the kind and content, and files the object unless one is filed
  there. -/
  | put (O : ObjMap) (k : ObjectKind) (d : Bytes) :
      Answers O (.put k d) (.ok (.id (ObjectId.ofObject k d))) (O.put k d)
  | get (O : ObjMap) (id : ObjectId) : Answers O (.get id) ((O.read id).map .object) O
  | has (O : ObjMap) (id : ObjectId) : Answers O (.has id) (.ok (.flag (O id).isSome)) O
  | size (O : ObjMap) (id : ObjectId) :
      Answers O (.size id) ((O.read id).map fun o => .size o.size) O
  | delete {O : ObjMap} {id : ObjectId} :
      O id ≠ none → Answers O (.delete id) (.ok .done) (Function.update O id none)
  | deleteAbsent {O : ObjMap} {id : ObjectId} :
      O id = none → Answers O (.delete id) (.error (.notFound ("object " ++ id.toHex))) O
  | iterate {O : ObjMap} {f : Option ObjectKind} {os : List GitObject} :
      O.Listed f os → Answers O (.iterate f) (.ok (.objects os)) O

/-- A kept call keeps a map of kept objects kept, and a map filed by content so filed. -/
theorem Answers.kept_addressed {O O' : ObjMap} {c : ObjCall} {a : Except StorageError ObjAnswer}
    (h : Answers O c a O') (hc : c.Kept) (hO : O.Kept) (hA : O.Addressed) :
    O'.Kept ∧ O'.Addressed := by
  cases h with
  | put k d => exact ⟨hO.put hc.1 hc.2, hA.put k d⟩
  | delete _ => exact ⟨hO.erase _, hA.erase _⟩
  | _ => exact ⟨hO, hA⟩

end ObjCall

/-! ## What a medium must do -/

namespace Storage

/-- What a medium must do for the objects of repository `n` to refine a map: `Holds O s` says
that `s` holds the map `O`. -/
structure ObjLaws (n : RepoName) (Holds : ObjMap → Storage → Prop) : Prop where
  kept : ∀ {O s}, Holds O s → O.Kept
  /-- Storing a kept object answers its id and files it. -/
  put : ∀ {O s} (k : ObjectKind) (d : Bytes), Holds O s → k.isBase = true → d.length < 2 ^ 64 →
    ∃ s', (putObject n k d).run.run s = (.ok (ObjectId.ofObject k d), s') ∧ Holds (O.put k d) s'
  /-- Reading answers the map, and keeps it. -/
  get : ∀ {O s} (id : ObjectId), Holds O s →
    ∃ s', (getObject n id).run.run s = (O.read id, s') ∧ Holds O s'
  /-- Whether an object is stored is whether the map files one; asking changes nothing. -/
  has : ∀ {O s} (id : ObjectId), Holds O s → (hasObject n id).run.run s = (.ok (O id).isSome, s)
  /-- Removing an object of the map drops it. -/
  delete : ∀ {O s} {id : ObjectId}, Holds O s → O id ≠ none →
    ∃ s', (deleteObject n id).run.run s = (.ok (), s') ∧ Holds (Function.update O id none) s'
  /-- Removing an object the map does not file fails as absent and changes nothing. -/
  deleteAbsent : ∀ {O s} {id : ObjectId}, Holds O s → O id = none →
    (deleteObject n id).run.run s = (.error (.notFound ("object " ++ id.toHex)), s)
  /-- The listing lists the map, and keeps it. -/
  iterate : ∀ {O s} (f : Option ObjectKind), Holds O s →
    ∃ os s', (iterateObjects n f).run.run s = (.ok os, s') ∧ O.Listed f os ∧ Holds O s'

namespace ObjLaws

variable {n : RepoName} {Holds : ObjMap → Storage → Prop} {O : ObjMap} {s : Storage}

/-- **One call answers as it does on the map**, and leaves a state that holds the map it
leaves. -/
theorem run_answers (L : ObjLaws n Holds) (hs : Holds O s) {c : ObjCall} (hc : c.Kept) :
    ∃ O', ObjCall.Answers O c ((c.run n).run.run s).1 O' ∧ Holds O' ((c.run n).run.run s).2 := by
  cases c with
  | put k d =>
    obtain ⟨s', hrun, hs'⟩ := L.put k d hs hc.1 hc.2
    refine ⟨O.put k d, ?_, ?_⟩ <;> rw [ObjCall.run, run_bind_of_ok hrun]
    · exact .put O k d
    · exact hs'
  | get id =>
    obtain ⟨s', hrun, hs'⟩ := L.get id hs
    have hmap : ((ObjCall.get id).run n).run.run s = ((O.read id).map .object, s') := by
      rw [ObjCall.run]
      cases hread : O.read id with
      | ok o => rw [run_bind_of_ok (hread ▸ hrun)]; rfl
      | error e => rw [run_bind_of_error (hread ▸ hrun)]; rfl
    rw [hmap]
    exact ⟨O, .get O id, hs'⟩
  | has id =>
    rw [ObjCall.run, run_bind_of_ok (L.has id hs)]
    exact ⟨O, .has O id, hs⟩
  | size id =>
    obtain ⟨s', hrun, hs'⟩ := L.get id hs
    -- the size is read through a read of the whole object
    have hmap : ((ObjCall.size id).run n).run.run s = ((O.read id).map fun o => .size o.size, s') := by
      rw [ObjCall.run]
      cases hread : O.read id with
      | ok o =>
        have hsize : (objectSize n id).run.run s = (.ok o.size, s') := by
          rw [objectSize, run_bind_of_ok (hread ▸ hrun)]
          rfl
        rw [run_bind_of_ok hsize]
        rfl
      | error e =>
        have hsize : (objectSize n id).run.run s = (.error e, s') := by
          rw [objectSize, run_bind_of_error (hread ▸ hrun)]
        rw [run_bind_of_error hsize]
        rfl
    rw [hmap]
    exact ⟨O, .size O id, hs'⟩
  | delete id =>
    by_cases hO : O id = none
    · rw [ObjCall.run, run_bind_of_error (L.deleteAbsent hs hO)]
      exact ⟨O, .deleteAbsent hO, hs⟩
    · obtain ⟨s', hrun, hs'⟩ := L.delete hs hO
      rw [ObjCall.run, run_bind_of_ok hrun]
      exact ⟨_, .delete hO, hs'⟩
  | iterate f =>
    obtain ⟨os, s', hrun, hlisted, hs'⟩ := L.iterate f hs
    rw [ObjCall.run, run_bind_of_ok hrun]
    exact ⟨O, .iterate hlisted, hs'⟩

end ObjLaws

end Storage

/-! ## A repository's life -/

/-- A step of a script on one repository: creating it, deleting it, or a call on its objects. -/
inductive RepoStep where
  | create
  | delete
  | call (c : ObjCall)

namespace RepoStep

/-- The step on repository `n`; creating and deleting answer `done`. -/
def run (n : RepoName) : RepoStep → StoreM ObjAnswer
  | create => do Storage.create n; pure .done
  | delete => do Storage.delete n; pure .done
  | call c => c.run n

/-- Runs steps one after another; a step that fails does not stop those after it. The answers
come in order. -/
def runAll (n : RepoName) : List RepoStep → Storage → List (Except StorageError ObjAnswer) × Storage
  | [], s => ([], s)
  | st :: sts, s =>
    let r := (st.run n).run.run s
    let rest := runAll n sts r.2
    (r.1 :: rest.1, rest.2)

/-- A script that calls on objects only while the repository is there (`present` says whether
it is when the script starts), and only with kept calls. -/
def Guarded : Bool → List RepoStep → Prop
  | _, [] => True
  | _, create :: rest => Guarded true rest
  | _, delete :: rest => Guarded false rest
  | present, call c :: rest => present = true ∧ c.Kept ∧ Guarded present rest

/-- What one step answers on a repository that is absent (`none`) or holds a map of objects,
and what it leaves; `init` is the map a new repository starts with. -/
inductive Answers (n : RepoName) (init : ObjMap) :
    Option ObjMap → RepoStep → Except StorageError ObjAnswer → Option ObjMap → Prop
  | create : Answers n init none .create (.ok .done) (some init)
  | createExisting {O : ObjMap} :
      Answers n init (some O) .create (.error (.alreadyExists n.path)) (some O)
  | delete {O : ObjMap} : Answers n init (some O) .delete (.ok .done) none
  | deleteAbsent : Answers n init none .delete (.error (.notFound ("repository " ++ n.path))) none
  | call {O O' : ObjMap} {c : ObjCall} {a : Except StorageError ObjAnswer} :
      ObjCall.Answers O c a O' → Answers n init (some O) (.call c) a (some O')

/-- Creating leaves the repository there, deleting leaves it absent, and a call leaves it as it
was. -/
theorem Answers.isSome_eq {n : RepoName} {init : ObjMap} {R R' : Option ObjMap} {st : RepoStep}
    {a : Except StorageError ObjAnswer} (h : Answers n init R st a R') :
    R'.isSome = match st with
      | .create => true
      | .delete => false
      | .call _ => R.isSome := by
  cases h <;> rfl

/-- What a script answers, one answer a step, and what it leaves. -/
inductive Trace (n : RepoName) (init : ObjMap) :
    Option ObjMap → List RepoStep → List (Except StorageError ObjAnswer) → Option ObjMap → Prop
  | nil (R : Option ObjMap) : Trace n init R [] [] R
  | cons {R R' R'' : Option ObjMap} {st : RepoStep} {sts : List RepoStep}
      {a : Except StorageError ObjAnswer} {as : List (Except StorageError ObjAnswer)} :
      Answers n init R st a R' → Trace n init R' sts as R'' → Trace n init R (st :: sts) (a :: as) R''

end RepoStep

namespace Storage

/-- What a medium must do for the objects of repository `n` to refine a map across the
repository's life: the object laws over the states `Holds`, and creating the repository from
the states `Vacant` where it can be created, which leaves the map `init`, and deleting it,
which leaves such a state again. -/
structure LifeLaws (n : RepoName) (init : ObjMap) (Vacant : Storage → Prop)
    (Holds : ObjMap → Storage → Prop) : Prop extends ObjLaws n Holds where
  create : ∀ {s}, Vacant s → ∃ s', (Storage.create n).run.run s = (.ok (), s') ∧ Holds init s'
  /-- Creating a repository that is there fails as existing and changes nothing. -/
  createExisting : ∀ {O s}, Holds O s →
    (Storage.create n).run.run s = (.error (.alreadyExists n.path), s)
  remove : ∀ {O s}, Holds O s → ∃ s', (Storage.delete n).run.run s = (.ok (), s') ∧ Vacant s'
  /-- Deleting a repository that is not there fails as absent and changes nothing. -/
  removeAbsent : ∀ {s}, Vacant s →
    (Storage.delete n).run.run s = (.error (.notFound ("repository " ++ n.path)), s)

namespace LifeLaws

variable {n : RepoName} {init : ObjMap} {Vacant : Storage → Prop}
  {Holds : ObjMap → Storage → Prop}

/-- The state a medium is in for a repository that is absent or holds a map. -/
def At (Vacant : Storage → Prop) (Holds : ObjMap → Storage → Prop) :
    Option ObjMap → Storage → Prop
  | none, s => Vacant s
  | some O, s => Holds O s

/-- **One step answers as it does on the repository's life.** -/
theorem run_answers (L : LifeLaws n init Vacant Holds) {R : Option ObjMap} {s : Storage}
    (hs : At Vacant Holds R s) {st : RepoStep} (hst : st = .create ∨ st = .delete ∨
      ∃ c, st = .call c ∧ c.Kept ∧ R.isSome) :
    ∃ R', RepoStep.Answers n init R st ((st.run n).run.run s).1 R' ∧
      At Vacant Holds R' ((st.run n).run.run s).2 := by
  rcases hst with rfl | rfl | ⟨c, rfl, hc, hR⟩
  · cases R with
    | none =>
      obtain ⟨s', hrun, hs'⟩ := L.create hs
      rw [RepoStep.run, run_bind_of_ok hrun]
      exact ⟨some init, .create, hs'⟩
    | some O =>
      rw [RepoStep.run, run_bind_of_error (L.createExisting hs)]
      exact ⟨some O, .createExisting, hs⟩
  · cases R with
    | none =>
      rw [RepoStep.run, run_bind_of_error (L.removeAbsent hs)]
      exact ⟨none, .deleteAbsent, hs⟩
    | some O =>
      obtain ⟨s', hrun, hs'⟩ := L.remove hs
      rw [RepoStep.run, run_bind_of_ok hrun]
      exact ⟨none, .delete, hs'⟩
  · cases R with
    | none => simp at hR
    | some O =>
      obtain ⟨O', hans, hs'⟩ := L.toObjLaws.run_answers hs hc
      exact ⟨some O', .call hans, hs'⟩

/-- **Every guarded script answers as it does on the repository's life**, step by step. -/
theorem runAll_trace (L : LifeLaws n init Vacant Holds) :
    ∀ (steps : List RepoStep) {R : Option ObjMap} {s : Storage}, At Vacant Holds R s →
      RepoStep.Guarded R.isSome steps →
      ∃ R', RepoStep.Trace n init R steps (RepoStep.runAll n steps s).1 R' ∧
        At Vacant Holds R' (RepoStep.runAll n steps s).2
  | [], R, s, hs, _ => ⟨R, .nil R, hs⟩
  | st :: sts, R, s, hs, hg => by
    -- the step is allowed, and what follows is guarded from where it leaves the repository
    have hst : st = .create ∨ st = .delete ∨ ∃ c, st = .call c ∧ c.Kept ∧ R.isSome := by
      cases st with
      | create => exact .inl rfl
      | delete => exact .inr (.inl rfl)
      | call c => exact .inr (.inr ⟨c, rfl, hg.2.1, hg.1⟩)
    obtain ⟨R₁, hans, hs₁⟩ := L.run_answers hs hst
    have hg' : RepoStep.Guarded R₁.isSome sts := by
      rw [hans.isSome_eq]
      cases st with
      | create => exact hg
      | delete => exact hg
      | call c => exact hg.2.2
    obtain ⟨R', htrace, hs'⟩ := runAll_trace L sts hs₁ hg'
    exact ⟨R', .cons hans htrace, hs'⟩

end LifeLaws

end Storage

end GitServer
