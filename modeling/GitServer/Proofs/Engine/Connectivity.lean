import GitServer.Proofs.Engine.ReadOnly
import GitServer.Proofs.Engine.PushReport
import GitServer.Proofs.Engine.SessionStorage
import GitServer.Proofs.Storage.RefMap
import GitServer.Proofs.Storage.RemoteObjects

/-!
# Which runs keep every reference's history stored

Storage is *connected* when every object reachable from a reference is stored, following a
commit to its tree and its parents, a tree to its entries other than submodules, and a tag to
the object it names, and stopping at objects storage lacks (`Connected`). Upload-pack needs it:
the pack for an advertised id is built by reading everything below that id.

A fetch changes nothing (`uploadPack_stays`), and a push never loses or changes an object that
is stored, and moves a reference only onto an object that is stored (`receivePack_movesStored`);
over a connection the same holds, since an exchange touches storage only through these steps.
So every reference of a repository made by `create` names a stored object in every state that
pushes and fetches reach (`create_runs_keep_tips_stored`).

That is all a push guarantees: receive-pack checks that the new object itself is stored and
nothing below it, so a pack that holds a commit without its tree is taken in
(`receivePack_treelessPush_disconnects`). Exactly (`connected_reachable_iff`): from a connected
state of a blob store, every state that pushes and fetches reach is connected iff every request
served along the way lands each reference it moves on an object whose history is stored.
-/

namespace GitServer

open Storage Pack Wire

/-! ## Reachability through stored objects -/

/-- The ids an object points to: a commit's tree and parents, a tree's entries other than
submodules, a tag's object. Content that does not parse points nowhere. -/
def GitObject.links (o : GitObject) : List ObjectId :=
  match o.kind with
  | .commit =>
    match Commit.parse o.data with
    | .ok c => c.tree :: c.parents
    | .error _ => []
  | .tree =>
    match Tree.parse o.data with
    | .ok t => (t.entries.filter (·.mode != .gitlink)).map (·.id)
    | .error _ => []
  | .tag =>
    match Tag.parse o.data with
    | .ok t => [t.object]
    | .error _ => []
  | _ => []

/-- `Reaches objects i k`: following links from `i` through the objects that `objects` holds
arrives at `k`. An id that holds nothing ends its path. -/
inductive Reaches (objects : ObjectId → Option GitObject) : ObjectId → ObjectId → Prop
  | refl (i : ObjectId) : Reaches objects i i
  | link {i j k : ObjectId} {o : GitObject} :
      objects i = some o → j ∈ o.links → Reaches objects j k → Reaches objects i k

/-- Everything reachable from `root` is stored. -/
def Closed (objects : ObjectId → Option GitObject) (root : ObjectId) : Prop :=
  ∀ x, Reaches objects root x → (objects x).isSome

/-- The objects of `objects'` extend those of `objects`: every id keeps what it held. -/
def Grows (objects objects' : ObjectId → Option GitObject) : Prop :=
  ∀ i o, objects i = some o → objects' i = some o

namespace Closed

variable {objects objects' : ObjectId → Option GitObject} {root : ObjectId}

/-- The history below a link of a closed object is closed. -/
theorem link (h : Closed objects root) {o : GitObject} {j : ObjectId}
    (ho : objects root = some o) (hj : j ∈ o.links) : Closed objects j :=
  fun x hx => h x (.link ho hj hx)

/-- Once a history is all stored, more objects change nothing below it: every path from it
runs through objects that were already there. -/
theorem reaches_of_grows (h : Closed objects root) (hg : Grows objects objects') {x : ObjectId}
    (hx : Reaches objects' root x) : Reaches objects root x := by
  induction hx with
  | refl i => exact .refl i
  | @link i j k o ho hj _ ih =>
    -- `i` is stored already, so it held `o` before
    obtain ⟨o', ho'⟩ := Option.isSome_iff_exists.mp (h i (.refl i))
    have hsame : o' = o := by simpa [hg i o' ho'] using ho
    subst hsame
    exact .link ho' hj (ih (h.link ho' hj))

/-- A closed history stays closed when objects are only added. -/
theorem grows (h : Closed objects root) (hg : Grows objects objects') : Closed objects' root := by
  intro x hx
  obtain ⟨o, ho⟩ := Option.isSome_iff_exists.mp (h x (h.reaches_of_grows hg hx))
  simp [hg x o ho]

end Closed

/-! ## Connected storage -/

namespace Storage

/-- The objects of repository `n` in `s'` extend those in `s`. -/
def Extends (n : RepoName) (s s' : Storage) : Prop := Grows (objectAt n s) (objectAt n s')

instance (n : RepoName) : IsPreorder Storage (Extends n) where
  refl _ _ _ h := h
  trans _ _ _ h₁ h₂ i o h := h₂ i o (h₁ i o h)

/-- Every reference of repository `n` that names an object directly names one whose history is
all stored. A symbolic reference resolves to the direct target of another, so this covers
every reference that resolves. -/
def Connected (n : RepoName) (s : Storage) : Prop :=
  ∀ ref id, targetAt n s ref = some (.direct id) → Closed (objectAt n s) id

/-- Going from `s` to `s'`, every reference that now names an object it did not name before
names one whose history is all stored in `s'`. -/
def LandsClosed (n : RepoName) (s s' : Storage) : Prop :=
  ∀ ref id, targetAt n s' ref = some (.direct id) → targetAt n s ref ≠ some (.direct id) →
    Closed (objectAt n s') id

variable {n : RepoName} {s s' : Storage}

/-- Every reference of repository `n` that names an object directly names a stored one. -/
def TipsStored (n : RepoName) (s : Storage) : Prop :=
  ∀ ref id, targetAt n s ref = some (.direct id) → (objectAt n s id).isSome

/-- Going from `s` to `s'`, every reference that now names an object it did not name before
names a stored one. -/
def LandsStored (n : RepoName) (s s' : Storage) : Prop :=
  ∀ ref id, targetAt n s' ref = some (.direct id) → targetAt n s ref ≠ some (.direct id) →
    (objectAt n s' id).isSome

/-- From `s` to `s'` objects are only added, and references move only onto stored objects. -/
structure MovesStored (n : RepoName) (s s' : Storage) : Prop where
  grows : Extends n s s'
  lands : LandsStored n s s'

/-- An id that holds an object still holds one once objects are only added. -/
theorem isSome_of_grows {objects objects' : ObjectId → Option GitObject} (hg : Grows objects objects')
    {id : ObjectId} (h : (objects id).isSome) : (objects' id).isSome := by
  obtain ⟨o, ho⟩ := Option.isSome_iff_exists.mp h
  rw [hg id o ho]
  rfl

instance (n : RepoName) : IsPreorder Storage (MovesStored n) where
  refl s := ⟨refl_of (Extends n) s, fun _ _ ht hne => absurd ht hne⟩
  trans _ mid _ h₁ h₂ := by
    refine ⟨trans_of (Extends n) h₁.grows h₂.grows, fun ref id ht hne => ?_⟩
    -- a reference that moved in the first step was already on a stored object
    by_cases hmid : targetAt n mid ref = some (.direct id)
    · exact isSome_of_grows h₂.grows (h₁.lands ref id hmid hne)
    · exact h₂.lands ref id ht hmid

/-- A connected state has its references on stored objects: each history starts at its tip. -/
theorem Connected.tipsStored (h : Connected n s) : TipsStored n s :=
  fun ref id ht => h ref id ht id (.refl id)

/-- **References stay on stored objects along a step that moves them only there.** -/
theorem TipsStored.of_movesStored (h : TipsStored n s) (hm : MovesStored n s s') :
    TipsStored n s' := by
  intro ref id ht
  by_cases hold : targetAt n s ref = some (.direct id)
  · exact isSome_of_grows hm.grows (h ref id hold)
  · exact hm.lands ref id ht hold

/-- **Only the references that move can break connectivity.** When objects are only added, a
connected state stays connected exactly when every moved reference lands on a closed history. -/
theorem connected_iff_landsClosed (hc : Connected n s) (hext : Extends n s s') :
    Connected n s' ↔ LandsClosed n s s' := by
  refine ⟨fun h ref id ht _ => h ref id ht, fun h ref id ht => ?_⟩
  by_cases hold : targetAt n s ref = some (.direct id)
  · exact (hc ref id hold).grows hext
  · exact h ref id ht hold

end Storage

/-! ## Pushes only add objects and land references on stored ones -/

namespace Engine

/-- **A command moves its reference only onto a stored object.** Accepted, it writes its new
id, which the rules require stored, or deletes; refused, it moves nothing. -/
theorem afterCommand_lands {stored : ObjectId → Bool} {refs : String → Option RefTarget}
    {c : RefCommand} {ref : String} {id : ObjectId}
    (h : afterCommand stored refs c ref = some (.direct id)) (hne : refs ref ≠ some (.direct id)) :
    stored id = true := by
  unfold afterCommand at h
  split_ifs at h with hverdict
  · obtain ⟨-, -, hpresent, -, -⟩ := commandVerdict_eq_success_iff.mp hverdict
    by_cases href : ref = c.name
    · subst href
      rw [Function.update_self] at h
      unfold RefCommand.target at h
      split_ifs at h with hzero
      cases h
      exact hpresent (by simpa using hzero)
    · rw [Function.update_of_ne href] at h
      exact absurd h hne
  · exact absurd h hne

variable {n : RepoName} {Good : Storage → Prop}

theorem check_keeps {α : Type} (x : Except ProtocolError α) :
    Keeps Good (MovesStored n) (check x) := by
  cases x with
  | ok a => exact Keeps.pure a
  | error e => exact Keeps.throw e

section Push

variable (hrel : Reliable n Good)
include hrel

/-- Unpacking a pack and storing what it brings only adds objects, whatever the pack, and
moves no reference. -/
theorem unpackAndStore_keeps (data : Bytes) :
    Keeps Good (MovesStored n) (unpackAndStore n data) := by
  intro s hs
  -- a pack that is not taken in leaves the state as it was
  have hfailed : ∀ e, (unpack n data).run.run s = (.error e, s) →
      Good ((unpackAndStore n data).run.run s).2 ∧
        MovesStored n s ((unpackAndStore n data).run.run s).2 := by
    intro e hrun
    rw [unpackAndStore, run_bind_of_error hrun]
    exact ⟨hs, refl_of (MovesStored n) s⟩
  cases hread : read data with
  | error e => exact hfailed _ (unpack_of_read_error hread)
  | ok r =>
    rcases unpack_run hrel hs hread with ⟨e, hrun, -⟩ | ⟨q, ⟨res, htr⟩, -, -, hrun⟩
    · exact hfailed _ hrun
    cases hens : q.ensureComplete with
    | error e => rw [hens] at hrun; exact hfailed _ hrun
    | ok u =>
      rw [hens] at hrun
      obtain ⟨s', hstore, hgood, htgt, hobjs⟩ :=
        storeEntries_run hrel hs (whole_of_tracks hrel hs hread htr)
      have hrun' : (unpackAndStore n data).run.run s = (.ok (), s') := by
        rw [unpackAndStore, run_bind_of_ok hrun, run_bind_of_ok hstore]
        rfl
      rw [hrun']
      exact ⟨hgood, fun i o ho => by rw [hobjs i, ho]; rfl,
        fun ref id ht hne => absurd (htgt ▸ ht) hne⟩

theorem unpackPushed_keeps (pack : Option Bytes) :
    Keeps Good (MovesStored n) (unpackPushed n pack) := by
  cases pack with
  | none => exact Keeps.pure _
  | some data =>
    unfold unpackPushed
    dsimp only
    exact Keeps.ite (Keeps.pure _)
      (Keeps.tryCatch (Keeps.bind (unpackAndStore_keeps hrel data) fun _ => Keeps.pure _)
        fun _ => Keeps.pure _)

/-- A command moves at most its reference, onto a stored object; objects stay. -/
theorem applyCommand_keeps (c : RefCommand) : Keeps Good (MovesStored n) (applyCommand n c) := by
  intro s hs
  obtain ⟨s', hrun, hgood, hobj, htgt⟩ := applyCommand_run hrel hs c
  rw [hrun]
  refine ⟨hgood, fun i o h => by rw [hobj]; exact h, fun ref id ht hne => ?_⟩
  rw [htgt] at ht
  have hstored : holds n s id = true := afterCommand_lands ht hne
  rw [hobj]
  exact hstored

theorem applyPush_keeps (req : PushRequest) (pack : Option Bytes) :
    Keeps Good (MovesStored n) (applyPush n req pack) := by
  unfold applyPush
  refine Keeps.bind (unpackPushed_keeps hrel pack) fun unpacked => ?_
  dsimp only
  -- the commands run only after an unpack; the report is built from what they answer
  split
  · exact Keeps.bind (Keeps.mapM (applyCommand_keeps hrel) _) fun _ =>
      Keeps.ite (Keeps.pure _) (Keeps.pure _)
  · exact Keeps.bind (Keeps.pure _) fun _ => Keeps.ite (Keeps.pure _) (Keeps.pure _)

/-- **A push only adds objects, and moves references only onto stored objects.** Whatever the
request and whatever it answers, receive-pack never loses or changes an object that is stored,
and a reference it moves names a stored object or nothing. -/
theorem receivePack_movesStored (request : Bytes) :
    Keeps Good (MovesStored n) (receivePack n request) := by
  unfold receivePack
  refine Keeps.bind (check_keeps _) fun ⟨req, flushed, rest⟩ => ?_
  dsimp only
  split
  · exact Keeps.pure _
  split
  · exact Keeps.bind (Keeps.throw _) fun _ => applyPush_keeps hrel req _
  · exact applyPush_keeps hrel req _

end Push

/-! ## Runs of pushes and fetches -/

/-- One request served for repository `n`, a push or a fetch over HTTP or an exchange of
either service over a connection, answered or failed: it leaves the state `s'` when run in
`s`. -/
def Serves (n : RepoName) (s s' : Storage) : Prop :=
  (∃ request, ((receivePack n request).run.run s).2 = s') ∨
    (∃ request, ((uploadPack n request).run.run s).2 = s') ∨
    ∃ service ch, ((serve n service).run.run (s, ch)).2.1 = s'

variable {s₀ s s' : Storage}

theorem inBlobStore_of_onBlobStore (hs : OnBlobStore n s) : InBlobStore s := by
  obtain ⟨b, hb, -⟩ := hs
  exact ⟨b, hb⟩

/-- An exchange over a connection keeps a blob store one, adds objects only and moves
references only onto stored objects: its reads change nothing, and its push does that. -/
theorem serve_keeps (service : Service) :
    Keeps (fun a => OnBlobStore n a.1) (OnStorage (MovesStored n)) (serve n service) := by
  have hread : ∀ {α} {m : EngineM α}, Stays InBlobStore m →
      Keeps (OnBlobStore n) (MovesStored n) m :=
    fun h => Keeps.of_stays h fun _ hs => inBlobStore_of_onBlobStore hs
  cases service with
  | uploadPack =>
    exact serveUpload_keeps (hread (infoRefs_stays _ _)) (fun _ => hread (checkWants_stays _))
      (fun _ _ => hread (takeHave_stays _ _)) (fun _ _ _ => hread (preparePack_stays _ _ _))
  | receivePack =>
    exact serveReceive_keeps (hread (infoRefs_stays _ _)) (applyPush_keeps (remote_reliable n))

/-- **One request.** Over a blob store, a request keeps the store a blob store, only adds
objects and moves references only onto stored objects: a push by `receivePack_movesStored`, a
fetch by changing nothing at all, an exchange over a connection by the steps it runs. -/
theorem Serves.movesStored (hs : OnBlobStore n s) (h : Serves n s s') :
    OnBlobStore n s' ∧ MovesStored n s s' := by
  rcases h with ⟨request, rfl⟩ | ⟨request, rfl⟩ | ⟨service, ch, rfl⟩
  · exact receivePack_movesStored (remote_reliable n) request s hs
  · exact Keeps.of_stays (uploadPack_stays request) (fun _ hs => inBlobStore_of_onBlobStore hs) s hs
  · exact serve_keeps service (s, ch) hs

/-- Every state a run reaches from a blob store is a blob store. -/
theorem onBlobStore_of_reaches (hs₀ : OnBlobStore n s₀)
    (h : Relation.ReflTransGen (Serves n) s₀ s) : OnBlobStore n s := by
  induction h with
  | refl => exact hs₀
  | tail _ hstep ih => exact (hstep.movesStored ih).1

/-- **Along runs, references stay on stored objects**, from a state of a blob store where
they are. -/
theorem tipsStored_of_reaches (hs₀ : OnBlobStore n s₀) (ht₀ : TipsStored n s₀)
    (h : Relation.ReflTransGen (Serves n) s₀ s) : TipsStored n s := by
  induction h with
  | refl => exact ht₀
  | tail hreach hstep ih =>
    exact ih.of_movesStored (hstep.movesStored (onBlobStore_of_reaches hs₀ hreach)).2

/-- **Connectivity along runs.** From a connected state of a blob store, every state that
pushes and fetches reach is connected exactly when every request served along the way lands
each reference it moves on an object whose history is stored. Fetches move nothing and pushes
only add objects, so the references that stay keep their histories; receive-pack itself checks
only that a new object is stored, not what lies below it. -/
theorem connected_reachable_iff (hs₀ : OnBlobStore n s₀) (hc₀ : Connected n s₀) :
    (∀ s, Relation.ReflTransGen (Serves n) s₀ s → Connected n s) ↔
      ∀ s s', Relation.ReflTransGen (Serves n) s₀ s → Serves n s s' → LandsClosed n s s' := by
  constructor
  · intro h s s' hreach hstep ref id ht _
    exact h s' (hreach.tail hstep) ref id ht
  · intro h s hreach
    induction hreach with
    | refl => exact hc₀
    | tail hreach hstep ih =>
      -- the step only adds objects, so only the references it moves matter
      have hext := (hstep.movesStored (onBlobStore_of_reaches hs₀ hreach)).2.grows
      exact (connected_iff_landsClosed ih hext).mpr (h _ _ hreach hstep)

/-- No reference is held in an empty blob store. -/
theorem targetAt_emptyStore (ref : String) : targetAt n emptyStore ref = none := by
  rw [targetAt_remote rfl (WellStored.empty n 1)]
  cases (validateRefName ref).toOption <;> rfl

/-- An empty blob store is connected: it holds no reference. -/
theorem connected_emptyStore : Connected n emptyStore := fun ref id ht => by
  rw [targetAt_emptyStore] at ht
  cases ht

theorem connected_reachable_iff_emptyStore :
    OnBlobStore ⟨"demo.git"⟩ emptyStore ∧ Connected ⟨"demo.git"⟩ emptyStore ∧
      ((∀ s, Relation.ReflTransGen (Serves ⟨"demo.git"⟩) emptyStore s →
          Connected ⟨"demo.git"⟩ s) ↔
        ∀ s s', Relation.ReflTransGen (Serves ⟨"demo.git"⟩) emptyStore s →
          Serves ⟨"demo.git"⟩ s s' → LandsClosed ⟨"demo.git"⟩ s s') := by
  have hs : OnBlobStore ⟨"demo.git"⟩ emptyStore := ⟨_, rfl, WellStored.empty _ 1⟩
  exact ⟨hs, connected_emptyStore, connected_reachable_iff hs connected_emptyStore⟩

/-! ## Runs from a new repository -/

/-- **A new repository has its references on stored objects.** Created in a blob store where
none of its keys is taken, the repository is there, its store reads back, and its branch, when
it starts with a commit, names that commit, which is stored. -/
theorem run_create_tipsStored {b : BlobStore} (hm : s.medium = .remote b) (hv : Remote.Vacant n b)
    (hhead : RefTarget.Kept (.symbolic s.init.branchRef))
    (hbranch : s.init.initialCommit = true → RefName.Kept s.init.branchRef)
    (hsizes : ∀ x ∈ (initialContent n s.init s.now).1, x.data.length < 2 ^ 64) :
    ∃ s₁, (create n).run.run s = (.ok (), s₁) ∧ OnBlobStore n s₁ ∧ TipsStored n s₁ := by
  have hvalid : s.init.initialCommit = true → validateRefName s.init.branchRef = .ok () :=
    fun h => (hbranch h).1
  obtain ⟨b₁, hrun, hrefs⟩ := Remote.run_create_of_fresh
    (fun ref _ => hv.free _ (Remote.startsWith_key n ref)) s.init s.now hvalid
  obtain ⟨b₂, hrun₂, hobjs, -⟩ := hv.run_create s.init s.now hvalid hsizes
  -- the references and the objects are those of the one run of `create`
  obtain rfl : b₂ = b₁ := by
    rw [hrun] at hrun₂
    exact (Prod.mk.inj hrun₂).2.symm
  have hM := @initialRefs_kept n s.init s.now hhead hbranch
  have hw : WellStored n b₂ := hobjs.wellStored hrefs hM
  refine ⟨{ s with medium := .remote b₂ }, ?_, ⟨b₂, rfl, hw⟩, fun ref id ht => ?_⟩
  · rw [run_create_eq, run_onMedium_remote _ _ hm, hrun]
  -- the one direct reference is the branch, at the first commit, which is stored
  rw [targetAt_remote rfl hw] at ht
  cases hname : validateRefName ref with
  | error e =>
    rw [hname] at ht
    cases ht
  | ok u =>
    rw [hname] at ht
    have hview : Remote.targetView n b₂ ref = some (.direct id) := ht
    rw [hrefs.targetView_eq hM hname] at hview
    rw [objectAt_isSome_remote rfl hw, hobjs.blobs id, Option.isSome_map]
    exact isSome_initialObjects (initialContent_of_initialRefs hview)

/-- **Every reference names a stored object, along every run from a new repository.** Create
repository `n` in a blob store where none of its keys is taken, with or without a first commit
on a branch of a well-formed name; then in every state that pushes and fetches reach, over HTTP
or over connections, whatever their requests and packs, every reference that names an object
names a stored one, and so does every reference that resolves. What lies below that object
need not be stored (`receivePack_commitWithoutTree`). -/
theorem create_runs_keep_tips_stored {b : BlobStore} (hm : s.medium = .remote b)
    (hv : Remote.Vacant n b) (hhead : RefTarget.Kept (.symbolic s.init.branchRef))
    (hbranch : s.init.initialCommit = true → RefName.Kept s.init.branchRef)
    (hsizes : ∀ x ∈ (initialContent n s.init s.now).1, x.data.length < 2 ^ 64) :
    ∃ s₁, (create n).run.run s = (.ok (), s₁) ∧
      ∀ s', Relation.ReflTransGen (Serves n) s₁ s' → TipsStored n s' := by
  obtain ⟨s₁, hrun, hs₁, ht₁⟩ := run_create_tipsStored hm hv hhead hbranch hsizes
  exact ⟨s₁, hrun, fun s' h => tipsStored_of_reaches hs₁ ht₁ h⟩

/-- No key is taken in an empty blob store. -/
theorem vacant_empty (n : RepoName) : Remote.Vacant n (BlobStore.empty 1) :=
  ⟨BlobStore.sorted_empty 1, by decide, fun _ _ => by simp [BlobStore.get, BlobStore.empty]⟩

/-- `refs/heads/main` is a name a reference store keeps. -/
theorem kept_refsHeadsMain : RefName.Kept "refs/heads/main" := by
  have hdots : "refs/heads/main".splitOn ".." = ["refs/heads/main"] :=
    String.splitOn_of_not_mem (by decide) (by decide)
  have hbrace : "refs/heads/main".splitOn "@\x7b" = ["refs/heads/main"] :=
    String.splitOn_of_not_mem (by decide) (by decide)
  refine ⟨?_, .inr ?_⟩
  · unfold validateRefName
    rw [hdots, hbrace, RefName.splitOn_slash]
    decide +kernel
  · rw [RefName.splitOn_slash]
    decide +kernel

/-- In an empty blob store, `demo.git` is created with its first commit on `main`, and its
references stay on stored objects along every run. -/
theorem create_runs_keep_tips_stored_emptyStore :
    Remote.Vacant ⟨"demo.git"⟩ (BlobStore.empty 1) ∧
      RefTarget.Kept (.symbolic emptyStore.init.branchRef) ∧
      (emptyStore.init.initialCommit = true → RefName.Kept emptyStore.init.branchRef) ∧
      (∀ x ∈ (initialContent ⟨"demo.git"⟩ emptyStore.init emptyStore.now).1,
        x.data.length < 2 ^ 64) ∧
      ∃ s₁, (create ⟨"demo.git"⟩).run.run emptyStore = (.ok (), s₁) ∧
        ∀ s', Relation.ReflTransGen (Serves ⟨"demo.git"⟩) s₁ s' → TipsStored ⟨"demo.git"⟩ s' := by
  have hhead : RefTarget.Kept (.symbolic emptyStore.init.branchRef) := ⟨by decide, by decide⟩
  have hbranch : emptyStore.init.initialCommit = true → RefName.Kept emptyStore.init.branchRef :=
    fun _ => kept_refsHeadsMain
  have hsizes : ∀ x ∈ (initialContent ⟨"demo.git"⟩ emptyStore.init emptyStore.now).1,
      x.data.length < 2 ^ 64 := by
    -- the name's last component is taken by splitting at slashes, which is evaluated as a list
    have h : (initialContent ⟨"demo.git"⟩ emptyStore.init emptyStore.now).1.all
        (fun x => decide (x.data.length < 2 ^ 64)) = true := by
      unfold initialContent readmeText RepoName.baseName
      simp only [RefName.splitOn_slash]
      decide +kernel
    simpa [List.all_eq_true] using h
  exact ⟨vacant_empty _, hhead, hbranch, hsizes,
    create_runs_keep_tips_stored rfl (vacant_empty _) hhead hbranch hsizes⟩

/-! ## A push that breaks connectivity -/

/-- The content of a commit whose tree is `11…11`. -/
def treelessText : Bytes := Bytes.ofString
  "tree 1111111111111111111111111111111111111111\nauthor A <a@b> 0 +0000\ncommitter A <a@b> 0 +0000\n\nm\n"

/-- That commit, of id `0c17…88f0`. -/
def treelessCommit : GitObject :=
  ⟨.commit, treelessText, ⟨[12, 23, 68, 52, 138, 209, 199, 22, 198, 166, 135, 187, 255, 142, 175, 27,
    232, 249, 136, 240], rfl⟩⟩

/-- The id of its tree. -/
def missingTree : ObjectId := ⟨List.replicate 20 0x11, ObjectId.length_replicate_17⟩

/-- A pack holding the commit and nothing else. -/
def treelessPack : Bytes :=
  [80, 65, 67, 75, 0, 0, 0, 2, 0, 0, 0, 1, 146, 6, 120, 156, 43, 41, 74, 77, 85, 48, 36, 18, 112, 37,
    150, 150, 100, 228, 23, 41, 56, 42, 216, 36, 58, 36, 217, 41, 24, 40, 104, 27, 0, 1, 87, 114, 126,
    110, 110, 102, 73, 73, 42, 166, 12, 87, 46, 23, 0, 114, 123, 23, 49, 62, 129, 122, 130, 65, 151,
    16, 223, 74, 208, 5, 115, 167, 246, 43, 98, 141, 135, 20, 36]

/-- The pack as read. -/
def treelessRead : Decoded :=
  ⟨1, ⟨[62, 129, 122, 130, 65, 151, 16, 223, 74, 208, 5, 115, 167, 246, 43, 98, 141, 135, 20, 36],
    rfl⟩, #[⟨12, treelessCommit, 0⟩], [], []⟩

/-- A command line creating `refs/heads/x` at the commit, asking for `report-status`. -/
def treelessLine : Bytes := Bytes.ofString
  "0000000000000000000000000000000000000000 0c1744348ad1c716c6a687bbff8eaf1be8f988f0 refs/heads/x\x00report-status\n"

/-- A push of that command with the pack. -/
def treelessPush : Bytes := (PktLine.data treelessLine).encode ++ flushBytes ++ treelessPack

/-- What the push asks for. -/
def treelessRequest : PushRequest :=
  { commands := [⟨ObjectId.zero, treelessCommit.id, "refs/heads/x", .pending⟩],
    caps := [.reportStatus] }

theorem read_treelessPack : read treelessPack = .ok treelessRead :=
  Except.eq_ok_of_toOption (by decide +kernel)

theorem readCommands_treelessPush :
    readCommands treelessPush {} = .ok (treelessRequest, true, treelessPack) := by
  have hline : readOne treelessPush =
      .ok (some (.data treelessLine, ⟨flushBytes ++ treelessPack, by decide +kernel⟩)) := by
    decide +kernel
  have hcommand : commandLine {} treelessLine = .ok treelessRequest := by decide +kernel
  have hflush : readOne (flushBytes ++ treelessPack) =
      .ok (some (.flush, ⟨treelessPack, by decide +kernel⟩)) := by decide +kernel
  rw [readCommands_of_data hline hcommand, readCommands_of_flush hflush]

theorem links_treelessCommit : treelessCommit.links = [missingTree] := by decide +kernel

/-- **A push can break connectivity.** In an empty blob store, which is connected, a push
creating `refs/heads/x` at a commit with a pack that holds that commit and not its tree is taken
in; the reference then names a commit whose tree is stored nowhere. -/
theorem receivePack_treelessPush_disconnects (n : RepoName) :
    Connected n emptyStore ∧ ¬ Connected n ((receivePack n treelessPush).run.run emptyStore).2 := by
  refine ⟨connected_emptyStore, fun hconn => ?_⟩
  have hs : OnBlobStore n emptyStore := ⟨_, rfl, WellStored.empty _ 1⟩
  -- the only object the pack meets is the commit
  have hcf : ∀ r, read treelessPack = .ok r → CollisionFree r (storedBases n emptyStore r) := by
    intro r hr
    rw [read_treelessPack] at hr
    cases hr
    have honly : ∀ o, Reachable treelessRead (storedBases n emptyStore treelessRead) o →
        o = treelessCommit := by
      rintro o (⟨e, he, rfl⟩ | ho | ⟨d, hreb⟩)
      · simp only [treelessRead, List.mem_singleton] at he
        rw [he]
      · simp [storedBases, treelessRead] at ho
      · exact absurd hreb.mem_pending (by simp [treelessRead])
    exact fun a b ha hb _ => (honly a ha).trans (honly b hb).symm
  obtain ⟨s', head, lines, hrun, -, hpushed⟩ :=
    applyPush_run (remote_reliable n) hs treelessRequest hcf
  -- receive-pack reads the command, then goes on with the push
  have hcheck : (check (readCommands treelessPush {})).run.run emptyStore =
      (.ok (treelessRequest, true, treelessPack), emptyStore) := by
    rw [readCommands_treelessPush]
    rfl
  have hstate : ((receivePack n treelessPush).run.run emptyStore).2 = s' := by
    have hne : treelessRequest.commands.isEmpty = false := rfl
    unfold receivePack
    rw [run_bind_of_ok hcheck]
    simp only [hne, Bool.false_eq_true, if_false, Bool.not_true]
    rw [hrun]
  rw [hstate] at hconn
  have hok : head = "unpack ok\n" :=
    hpushed.unpack_ok_iff.mpr (.inr ⟨treelessRead, read_treelessPack, fun d hd => by
      simp [treelessRead] at hd⟩)
  -- the pack brings the commit, and nothing under the tree's id
  have hcommit : objectAt n s' treelessCommit.id = some treelessCommit :=
    (hpushed.objects hok _ _).mpr (.inr ⟨objectAt_emptyStore _ _, rfl, treelessRead,
      read_treelessPack, .inl ⟨⟨12, treelessCommit, 0⟩, by simp [treelessRead], rfl⟩⟩)
  have htree : objectAt n s' missingTree = none := by
    cases h : objectAt n s' missingTree with
    | none => rfl
    | some o =>
      rcases (hpushed.objects hok _ _).mp h with hold | ⟨-, hid, r, hr, hbrings⟩
      · rw [objectAt_emptyStore] at hold
        cases hold
      · rw [read_treelessPack] at hr
        cases hr
        rcases hbrings with ⟨e, he, rfl⟩ | ⟨d, hreb⟩
        · simp only [treelessRead, List.mem_singleton] at he
          rw [he] at hid
          exact absurd hid (by decide)
        · exact absurd hreb.mem_pending (by simp [treelessRead])
  -- the command is accepted: its name is valid, its object is stored, its reference was absent
  have hvalid : validateRefName "refs/heads/x" = .ok () := by
    have hdots : "refs/heads/x".splitOn ".." = ["refs/heads/x"] :=
      String.splitOn_of_not_mem (by decide) (by decide)
    have hbrace : "refs/heads/x".splitOn "@\x7b" = ["refs/heads/x"] :=
      String.splitOn_of_not_mem (by decide) (by decide)
    unfold validateRefName
    rw [hdots, hbrace, RefName.splitOn_slash]
    decide +kernel
  have hverdict : commandVerdict (holds n s') (targetAt n emptyStore)
      ⟨ObjectId.zero, treelessCommit.id, "refs/heads/x", .pending⟩ = .success := by
    refine commandVerdict_eq_success_iff.mpr
      ⟨by decide, hvalid, fun _ => ?_, by decide, ?_⟩
    · simp [holds, hcommit]
    · rw [targetAt_emptyStore]
      rfl
  have href : targetAt n s' "refs/heads/x" = some (.direct treelessCommit.id) := by
    rw [hpushed.refs hok]
    simp only [treelessRequest, afterCommands, List.foldl_cons, List.foldl_nil, afterCommand,
      hverdict, if_true, Function.update_self]
    rfl
  -- so the reference reaches the tree, which is missing
  have hreach : Reaches (objectAt n s') treelessCommit.id missingTree :=
    .link hcommit (by simp [links_treelessCommit]) (.refl _)
  have hstored := hconn _ _ href missingTree hreach
  rw [htree] at hstored
  cases hstored

/-- The push of a commit without its tree, in the repository `demo.git`. -/
theorem receivePack_commitWithoutTree :
    Connected ⟨"demo.git"⟩ emptyStore ∧
      ¬ Connected ⟨"demo.git"⟩ ((receivePack ⟨"demo.git"⟩ treelessPush).run.run emptyStore).2 :=
  receivePack_treelessPush_disconnects _

end Engine

end GitServer
