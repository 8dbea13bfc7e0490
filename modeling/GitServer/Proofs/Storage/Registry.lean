import GitServer.Proofs.Storage.RemoteListing
import GitServer.Proofs.Storage.LocalListing
import GitServer.Proofs.Storage.RefStore
import Mathlib

/-!
# The registry refines a set of names

The registry names repositories by any spelling: every call but the listing normalises its
name first, and a name that does not normalise fails with the error normalisation gives and
changes nothing. Over the names `live` of the repositories it holds, a call answers as
`RegistryCall.apply` says: creating a name it holds fails as existing and creating another
adds it, deleting a name it holds removes it and deleting another fails as absent, the listing
gives `live` sorted by path, and a name exists, and opens, exactly when it is held.

`Storage.RegistryLaws` gathers what a medium must do for that. From the laws alone, every
sequence of calls answers call by call as on the names (`RegistryLaws.runAll_applyAll`). Both
media keep the laws for the names their listing reads back as they are: a blob store
(`remote_registryLaws`), where deleting removes exactly the keys of the repository deleted
(`run_delete_remote`), and a disk (`local_registryLaws`), where deleting leaves nothing at or
below the directory of the repository deleted and the files of every other repository as they
were (`run_delete_disk`).
-/

namespace GitServer

/-- A call on the registry; each but the listing names a repository by any spelling. -/
inductive RegistryCall where
  | create (raw : String)
  | delete (raw : String)
  | list
  | exists? (raw : String)
  | openNamed (raw : String)

/-- What a registry call answers. -/
inductive RegistryAnswer where
  | name (n : RepoName)
  | names (ns : List RepoName)
  | flag (b : Bool)
  | done
deriving DecidableEq

namespace RegistryCall

/-- Runs a call on storage. -/
def run : RegistryCall → StoreM RegistryAnswer
  | .create raw => do pure (.name (← Storage.createNamed raw))
  | .delete raw => do
    Storage.delete (← Storage.normalize raw)
    pure .done
  | .list => do pure (.names (← Storage.list))
  | .exists? raw => do pure (.flag (← Storage.exists? (← Storage.normalize raw)))
  | .openNamed raw => do pure (.name (← Storage.openNamed raw))

/-- Runs calls one after another; a call that fails does not stop those after it. The answers
come in order. -/
def runAll : List RegistryCall → Storage → List (Except StorageError RegistryAnswer) × Storage
  | [], s => ([], s)
  | c :: cs, s =>
    let r := c.run.run.run s
    let rest := runAll cs r.2
    (r.1 :: rest.1, rest.2)

/-- Names sorted by path, as the listing gives them. -/
def sorted (live : List RepoName) : List RepoName :=
  live.mergeSort fun a c => decide (a.path ≤ c.path)

/-- A call by name: the error normalisation gives, or what `f` does with the normal name. -/
def onName (live : List RepoName) (raw : String)
    (f : RepoName → Except StorageError RegistryAnswer × List RepoName) :
    Except StorageError RegistryAnswer × List RepoName :=
  match RepoName.normalize raw with
  | .error e => (.error e, live)
  | .ok n => f n

theorem onName_of_error {live : List RepoName} {raw : String} {e : StorageError}
    (hn : RepoName.normalize raw = .error e) (f : RepoName → Except StorageError RegistryAnswer × List RepoName) :
    onName live raw f = (.error e, live) := by
  rw [onName, hn]

theorem onName_of_ok {live : List RepoName} {raw : String} {n : RepoName}
    (hn : RepoName.normalize raw = .ok n) (f : RepoName → Except StorageError RegistryAnswer × List RepoName) :
    onName live raw f = f n := by
  rw [onName, hn]

/-- What a call answers on a registry of the repositories `live`, and the repositories it
leaves. -/
def apply (live : List RepoName) : RegistryCall → Except StorageError RegistryAnswer × List RepoName
  | .create raw => onName live raw fun n =>
    if n ∈ live then (.error (.alreadyExists n.path), live) else (.ok (.name n), n :: live)
  | .delete raw => onName live raw fun n =>
    if n ∈ live then (.ok .done, live.erase n) else (.error (.notFound ("repository " ++ n.path)), live)
  | .list => (.ok (.names (sorted live)), live)
  | .exists? raw => onName live raw fun n => (.ok (.flag (decide (n ∈ live))), live)
  | .openNamed raw => onName live raw fun n =>
    if n ∈ live then (.ok (.name n), live) else (.error (.notFound ("repository " ++ n.path)), live)

/-- The answers of calls one after another on a registry of the repositories `live`, and the
repositories they leave. -/
def applyAll : List RepoName → List RegistryCall →
    List (Except StorageError RegistryAnswer) × List RepoName
  | live, [] => ([], live)
  | live, c :: cs =>
    let r := apply live c
    let rest := applyAll r.2 cs
    (r.1 :: rest.1, rest.2)

/-- The names a call adds are the names it creates. -/
theorem mem_apply {live : List RepoName} {c : RegistryCall} {n : RepoName}
    (hn : n ∈ (apply live c).2) : n ∈ live ∨ ∃ raw, c = .create raw ∧ RepoName.normalize raw = .ok n := by
  -- only a creation adds a name; a deletion takes one away
  cases c with
  | create raw =>
    cases hraw : RepoName.normalize raw with
    | error e => rw [apply, onName_of_error hraw] at hn; exact .inl hn
    | ok m =>
      rw [apply, onName_of_ok hraw] at hn
      split_ifs at hn
      · exact .inl hn
      · rcases List.mem_cons.mp hn with rfl | hn
        · exact .inr ⟨raw, rfl, hraw⟩
        · exact .inl hn
  | delete raw =>
    cases hraw : RepoName.normalize raw with
    | error e => rw [apply, onName_of_error hraw] at hn; exact .inl hn
    | ok m =>
      rw [apply, onName_of_ok hraw] at hn
      split_ifs at hn
      · exact .inl (List.mem_of_mem_erase hn)
      · exact .inl hn
  | list => exact .inl hn
  | exists? raw =>
    cases hraw : RepoName.normalize raw with
    | error e => rw [apply, onName_of_error hraw] at hn; exact .inl hn
    | ok m => rw [apply, onName_of_ok hraw] at hn; exact .inl hn
  | openNamed raw =>
    cases hraw : RepoName.normalize raw with
    | error e => rw [apply, onName_of_error hraw] at hn; exact .inl hn
    | ok m =>
      rw [apply, onName_of_ok hraw] at hn
      split_ifs at hn <;> exact .inl hn

/-- A held name that normalises to itself exists and opens under its own spelling. -/
theorem apply_of_listed {live : List RepoName} {n : RepoName} (hmem : n ∈ live)
    (hnorm : RepoName.normalize n.path = .ok n) :
    apply live (.exists? n.path) = (.ok (.flag true), live) ∧
      apply live (.openNamed n.path) = (.ok (.name n), live) := by
  simp only [apply, onName_of_ok hnorm, if_pos hmem, decide_eq_true hmem, and_self]

end RegistryCall

namespace Storage

theorem run_normalize (raw : String) (s : Storage) :
    (normalize raw).run.run s = (RepoName.normalize raw, s) := by
  unfold normalize
  cases RepoName.normalize raw <;> rfl

section Normalize

variable {α : Type} {raw : String} {s : Storage} (f : RepoName → StoreM α)

theorem run_normalize_bind_of_error {e : StorageError} (hn : RepoName.normalize raw = .error e) :
    (normalize raw >>= f).run.run s = (.error e, s) :=
  run_bind_of_error (by rw [run_normalize, hn])

theorem run_normalize_bind_of_ok {n : RepoName} (hn : RepoName.normalize raw = .ok n) :
    (normalize raw >>= f).run.run s = (f n).run.run s :=
  run_bind_of_ok (by rw [run_normalize, hn])

end Normalize

/-- What a medium must do for the registry to refine a set of names: `Holds live s` says that
`s` holds the repositories `live`, and `Listable` names the repositories the listing reads back
as they are. -/
structure RegistryLaws (Listable : RepoName → Prop) (Holds : List RepoName → Storage → Prop) :
    Prop where
  probe : ∀ {live s n}, Holds live s → n.Valid →
    (Storage.exists? n).run.run s = (.ok (decide (n ∈ live)), s)
  /-- Creating a name not held adds it. -/
  createNew : ∀ {live s n}, Holds live s → n.Valid → n ∉ live →
    ∃ s', (Storage.create n).run.run s = (.ok (), s') ∧ Holds (n :: live) s'
  createHeld : ∀ {live s n}, Holds live s → n ∈ live →
    (Storage.create n).run.run s = (.error (.alreadyExists n.path), s)
  /-- Deleting a held name removes it. -/
  deleteHeld : ∀ {live s n}, Holds live s → n ∈ live →
    ∃ s', (Storage.delete n).run.run s = (.ok (), s') ∧ Holds (live.erase n) s'
  deleteAbsent : ∀ {live s n}, Holds live s → n.Valid → n ∉ live →
    (Storage.delete n).run.run s = (.error (.notFound ("repository " ++ n.path)), s)
  /-- The listing gives the held names, sorted by path, when it reads each back as it is. -/
  listing : ∀ {live s}, Holds live s → (∀ n ∈ live, Listable n) →
    Storage.list.run.run s = (.ok (RegistryCall.sorted live), s)

namespace RegistryLaws

variable {Listable : RepoName → Prop} {Holds : List RepoName → Storage → Prop}
  {live : List RepoName} {s : Storage}

/-- **One call answers as on the names**, and leaves a state that holds the names it leaves. -/
theorem run_apply (L : RegistryLaws Listable Holds) (hs : Holds live s)
    (hlive : ∀ n ∈ live, Listable n) (c : RegistryCall) :
    ∃ s', c.run.run.run s = ((c.apply live).1, s') ∧ Holds (c.apply live).2 s' := by
  cases c with
  | list =>
    refine ⟨s, ?_, hs⟩
    rw [RegistryCall.run, run_bind_of_ok (L.listing hs hlive)]
    rfl
  | create raw =>
    cases hn : RepoName.normalize raw with
    | error e =>
      rw [RegistryCall.apply, RegistryCall.onName_of_error hn]
      refine ⟨s, ?_, hs⟩
      rw [RegistryCall.run, run_bind_of_error (by
        rw [createNamed]
        exact run_normalize_bind_of_error _ hn)]
    | ok n =>
      by_cases hmem : n ∈ live
      · -- a held name: the creation fails before it writes
        rw [RegistryCall.apply, RegistryCall.onName_of_ok hn, if_pos hmem]
        refine ⟨s, ?_, hs⟩
        rw [RegistryCall.run, run_bind_of_error (by
          rw [createNamed, run_normalize_bind_of_ok _ hn]
          exact run_bind_of_error (L.createHeld hs hmem))]
      · obtain ⟨s', hrun, hs'⟩ := L.createNew hs (RepoName.valid_of_normalize hn) hmem
        rw [RegistryCall.apply, RegistryCall.onName_of_ok hn, if_neg hmem]
        refine ⟨s', ?_, hs'⟩
        rw [RegistryCall.run, run_bind_of_ok (by
          rw [createNamed, run_normalize_bind_of_ok _ hn, run_bind_of_ok hrun]
          rfl)]
        rfl
  | delete raw =>
    cases hn : RepoName.normalize raw with
    | error e =>
      rw [RegistryCall.apply, RegistryCall.onName_of_error hn]
      exact ⟨s, by rw [RegistryCall.run, run_normalize_bind_of_error _ hn], hs⟩
    | ok n =>
      by_cases hmem : n ∈ live
      · obtain ⟨s', hrun, hs'⟩ := L.deleteHeld hs hmem
        rw [RegistryCall.apply, RegistryCall.onName_of_ok hn, if_pos hmem]
        refine ⟨s', ?_, hs'⟩
        rw [RegistryCall.run, run_normalize_bind_of_ok _ hn, run_bind_of_ok hrun]
        rfl
      · rw [RegistryCall.apply, RegistryCall.onName_of_ok hn, if_neg hmem]
        refine ⟨s, ?_, hs⟩
        rw [RegistryCall.run, run_normalize_bind_of_ok _ hn,
          run_bind_of_error (L.deleteAbsent hs (RepoName.valid_of_normalize hn) hmem)]
  | exists? raw =>
    cases hn : RepoName.normalize raw with
    | error e =>
      rw [RegistryCall.apply, RegistryCall.onName_of_error hn]
      exact ⟨s, by rw [RegistryCall.run, run_normalize_bind_of_error _ hn], hs⟩
    | ok n =>
      rw [RegistryCall.apply, RegistryCall.onName_of_ok hn]
      refine ⟨s, ?_, hs⟩
      rw [RegistryCall.run, run_normalize_bind_of_ok _ hn,
        run_bind_of_ok (L.probe hs (RepoName.valid_of_normalize hn))]
      rfl
  | openNamed raw =>
    cases hn : RepoName.normalize raw with
    | error e =>
      rw [RegistryCall.apply, RegistryCall.onName_of_error hn]
      refine ⟨s, ?_, hs⟩
      rw [RegistryCall.run, run_bind_of_error (by
        rw [openNamed]
        exact run_normalize_bind_of_error _ hn)]
    | ok n =>
      have hprobe := L.probe hs (RepoName.valid_of_normalize hn)
      by_cases hmem : n ∈ live
      · rw [RegistryCall.apply, RegistryCall.onName_of_ok hn, if_pos hmem]
        refine ⟨s, ?_, hs⟩
        rw [RegistryCall.run, run_bind_of_ok (by
          rw [openNamed, run_normalize_bind_of_ok _ hn, openRepo, run_bind_of_ok hprobe,
            decide_eq_true hmem]
          rfl)]
        rfl
      · rw [RegistryCall.apply, RegistryCall.onName_of_ok hn, if_neg hmem]
        refine ⟨s, ?_, hs⟩
        rw [RegistryCall.run, run_bind_of_error (by
          rw [openNamed, run_normalize_bind_of_ok _ hn, openRepo, run_bind_of_ok hprobe,
            decide_eq_false hmem]
          rfl)]

/-- **Any sequence of calls answers as on the names**, call by call, when every name it
creates is one the listing reads back as it is. -/
theorem runAll_applyAll (L : RegistryLaws Listable Holds) :
    ∀ (calls : List RegistryCall) {live : List RepoName} {s : Storage}, Holds live s →
      (∀ n ∈ live, Listable n) →
      (∀ raw n, RegistryCall.create raw ∈ calls → RepoName.normalize raw = .ok n → Listable n) →
      (RegistryCall.runAll calls s).1 = (RegistryCall.applyAll live calls).1 ∧
        Holds (RegistryCall.applyAll live calls).2 (RegistryCall.runAll calls s).2 ∧
        ∀ n ∈ (RegistryCall.applyAll live calls).2, Listable n
  | [], _, _, hs, hlive, _ => ⟨rfl, hs, hlive⟩
  | c :: cs, live, s, hs, hlive, hnames => by
    obtain ⟨s₁, hrun, hs₁⟩ := L.run_apply hs hlive c
    -- the names after the call are listable: those before it, and the one it may create
    have hlive₁ : ∀ n ∈ (c.apply live).2, Listable n := by
      intro n hn
      rcases RegistryCall.mem_apply hn with hn | ⟨raw, rfl, hraw⟩
      · exact hlive n hn
      · exact hnames raw n List.mem_cons_self hraw
    obtain ⟨hans, hs', hlive'⟩ := runAll_applyAll L cs hs₁ hlive₁
      fun raw n hc hraw => hnames raw n (List.mem_cons_of_mem c hc) hraw
    simp only [RegistryCall.runAll, RegistryCall.applyAll, hrun]
    exact ⟨by rw [hans], hs', hlive'⟩

end RegistryLaws

/-! ## On a blob store -/

/-- The storage keeps a blob store that holds the repositories `live`, and starts new
repositories on a valid branch. -/
def RegistryOnBlobStore (live : List RepoName) (s : Storage) : Prop :=
  ∃ b, s.medium = .remote b ∧ Remote.Registry live b ∧
    (s.init.initialCommit = true → validateRefName s.init.branchRef = .ok ())

/-- **Deleting a repository from a blob store** removes exactly the keys under its prefix. -/
theorem run_delete_remote {b : BlobStore} {n : RepoName} (hm : s.medium = .remote b)
    (h : Remote.Registry live b) (hmem : n ∈ live) :
    (delete n).run.run s = (.ok (), { s with medium := (.remote
      { b with entries := b.entries.filter fun e => !e.1.startsWith (Remote.repoPrefix n) }) }) := by
  unfold delete
  rw [run_onMedium_remote _ _ hm, Remote.run_delete_of_exists h.sorted h.pageSize_pos (h.head n hmem)]

/-- A blob store keeps the laws of the registry for the names its listing reads back as they
are. -/
theorem remote_registryLaws : RegistryLaws Remote.Listable RegistryOnBlobStore where
  probe := by
    rintro live s n ⟨b, hm, h, -⟩ hv
    unfold exists?
    rw [run_onMedium_remote _ _ hm, h.run_exists? hv, with_medium_eq hm]
  createNew := by
    rintro live s n ⟨b, hm, h, hbranch⟩ hv hout
    obtain ⟨b', hrun, h', -⟩ := h.run_create_of_not_mem hv hout s.init s.now hbranch
    exact ⟨{ s with medium := .remote b' }, by rw [run_create_eq, run_onMedium_remote _ _ hm, hrun],
      b', rfl, h', hbranch⟩
  createHeld := by
    rintro live s n ⟨b, hm, h, -⟩ hmem
    rw [run_create_eq, run_onMedium_remote _ _ hm,
      h.run_create_of_mem (h.valid n hmem) hmem s.init s.now, with_medium_eq hm]
  deleteHeld := by
    rintro live s n ⟨b, hm, h, hbranch⟩ hmem
    exact ⟨_, run_delete_remote hm h hmem, _, rfl, h.erase hmem, hbranch⟩
  deleteAbsent := by
    rintro live s n ⟨b, hm, h, -⟩ hv hout
    unfold delete
    rw [run_onMedium_remote _ _ hm, h.run_delete_of_not_mem hv hout, with_medium_eq hm]
  listing := by
    rintro live s ⟨b, hm, h, -⟩ hl
    unfold list
    rw [run_onMedium_remote _ _ hm, h.run_list hl, with_medium_eq hm]
    rfl

end Storage

open Storage

/-- **The registry on a blob store refines a set of names.** From an empty store, every
sequence of calls answers call by call as on the names of the repositories created and not
yet deleted: creating a name fails as existing exactly when it is held, the listing gives the
held names sorted by path, a name exists and opens exactly when it is held. Deleting a held
name afterwards removes exactly the keys under its prefix, and every other key stays as it
was. This holds when every name created is one the listing reads back as it is. -/
theorem registry_refines_names_remote (N : Nat) (o : InitOptions) (now : Int)
    (hbranch : o.initialCommit = true → validateRefName o.branchRef = .ok ())
    (calls : List RegistryCall)
    (hnames : ∀ raw n, RegistryCall.create raw ∈ calls → RepoName.normalize raw = .ok n →
      Remote.Listable n) :
    let r := RegistryCall.runAll calls ⟨.remote (BlobStore.empty N), o, now⟩
    let live := (RegistryCall.applyAll [] calls).2
    r.1 = (RegistryCall.applyAll [] calls).1 ∧
      ∃ b, r.2.medium = .remote b ∧ Remote.Registry live b ∧
        ∀ raw n, RepoName.normalize raw = .ok n → n ∈ live →
          (RegistryCall.delete raw).run.run.run r.2 = (.ok .done, { r.2 with medium := (.remote
            { b with entries := b.entries.filter fun e => !e.1.startsWith (Remote.repoPrefix n) }) }) := by
  intro r live
  have hempty : RegistryOnBlobStore [] ⟨.remote (BlobStore.empty N), o, now⟩ :=
    ⟨BlobStore.empty N, rfl, Remote.Registry.empty N, hbranch⟩
  obtain ⟨hans, ⟨b, hm, h, -⟩, -⟩ := remote_registryLaws.runAll_applyAll calls hempty
    (fun _ h => absurd h List.not_mem_nil) hnames
  refine ⟨hans, b, hm, h, fun raw n hn hmem => ?_⟩
  rw [RegistryCall.run, run_normalize_bind_of_ok _ hn, run_bind_of_ok (run_delete_remote hm h hmem)]
  rfl

/-! ## On a disk -/

namespace Storage

/-- The storage keeps a disk that holds the repositories `live`, and starts new repositories on
a kept branch. -/
def RegistryOnDisk (live : List RepoName) (s : Storage) : Prop :=
  ∃ d, s.medium = .disk d ∧ Local.Registry live d ∧ RefTarget.Kept (.symbolic s.init.branchRef) ∧
    (s.init.initialCommit = true → RefName.Kept s.init.branchRef)

variable {live : List RepoName} {s : Storage}

/-- **Deleting a repository from a disk** leaves a disk that holds the others, nothing at or
below the directory of the repository deleted, and the files of every other repository as they
were. -/
theorem run_delete_disk {d : Disk} {n : RepoName} (hm : s.medium = .disk d)
    (h : Local.Registry live d) (hmem : n ∈ live) :
    ∃ d', (delete n).run.run s = (.ok (), { s with medium := .disk d' }) ∧
      Local.Registry (live.erase n) d' ∧ (∀ rel, d'.files.nodes[Local.repoDir n ++ rel]? = none) ∧
      ∀ m ∈ live, m ≠ n → ∀ rel,
        d'.files.nodes[Local.repoDir m ++ rel]? = d.files.nodes[Local.repoDir m ++ rel]? := by
  obtain ⟨t', hrun, h', hgone, hkeep⟩ := h.run_delete hmem
  refine ⟨_, ?_, h', hgone, hkeep⟩
  unfold delete
  rw [run_onMedium_disk _ _ hm, hrun]

/-- A disk keeps the laws of the registry for the names its listing reads back as they are. -/
theorem local_registryLaws : RegistryLaws Local.Listable RegistryOnDisk where
  probe := by
    rintro live s n ⟨d, hm, h, -⟩ hv
    unfold exists?
    rw [run_onMedium_disk _ _ hm, h.run_exists hv, with_disk_eq hm]
  createNew := by
    rintro live s n ⟨d, hm, h, hhead, hbranch⟩ hv hout
    obtain ⟨t', hrun, h', -⟩ := h.run_create hv hout s.init s.now hhead hbranch
    exact ⟨{ s with medium := .disk { d with files := t' } },
      by rw [run_create_eq, run_onMedium_disk _ _ hm, hrun], _, rfl, h', hhead, hbranch⟩
  createHeld := by
    rintro live s n ⟨d, hm, h, -⟩ hmem
    rw [run_create_eq, run_onMedium_disk _ _ hm, h.run_create_of_mem hmem s.init s.now,
      with_disk_eq hm]
  deleteHeld := by
    rintro live s n ⟨d, hm, h, hhead, hbranch⟩ hmem
    obtain ⟨d', hrun, h', -⟩ := run_delete_disk hm h hmem
    exact ⟨_, hrun, d', rfl, h', hhead, hbranch⟩
  deleteAbsent := by
    rintro live s n ⟨d, hm, h, -⟩ hv hout
    unfold delete
    rw [run_onMedium_disk _ _ hm, h.run_delete_of_not_mem hv hout, with_disk_eq hm]
  listing := by
    rintro live s ⟨d, hm, h, -⟩ hl
    unfold list
    rw [run_onMedium_disk _ _ hm, h.run_list hl, with_disk_eq hm]
    rfl

end Storage

/-- **The registry on a disk refines a set of names.** From an empty disk, every sequence of
calls answers call by call as on the names of the repositories created and not yet deleted,
and the disk holds exactly those. Deleting a held name afterwards leaves nothing at or below its
directory, and the files of every other repository as they were. This holds when new
repositories start on a kept branch and every name created is one the listing reads back as it
is. -/
theorem registry_refines_names_local (limit : Nat) (o : InitOptions) (now : Int)
    (hhead : RefTarget.Kept (.symbolic o.branchRef))
    (hbranch : o.initialCommit = true → RefName.Kept o.branchRef)
    (calls : List RegistryCall)
    (hnames : ∀ raw n, RegistryCall.create raw ∈ calls → RepoName.normalize raw = .ok n →
      Local.Listable n) :
    let r := RegistryCall.runAll calls ⟨.disk ⟨FileTree.empty, ObjectCache.empty limit⟩, o, now⟩
    let live := (RegistryCall.applyAll [] calls).2
    r.1 = (RegistryCall.applyAll [] calls).1 ∧
      ∃ d, r.2.medium = .disk d ∧ Local.Registry live d ∧
        ∀ raw n, RepoName.normalize raw = .ok n → n ∈ live →
          ∃ d', (RegistryCall.delete raw).run.run.run r.2 = (.ok .done, { r.2 with medium := .disk d' }) ∧
            (∀ rel, d'.files.nodes[Local.repoDir n ++ rel]? = none) ∧
            ∀ m ∈ live, m ≠ n → ∀ rel,
              d'.files.nodes[Local.repoDir m ++ rel]? = d.files.nodes[Local.repoDir m ++ rel]? := by
  intro r live
  have hempty : RegistryOnDisk [] ⟨.disk ⟨FileTree.empty, ObjectCache.empty limit⟩, o, now⟩ :=
    ⟨_, rfl, Local.Registry.empty limit, hhead, hbranch⟩
  obtain ⟨hans, ⟨d, hm, h, -⟩, -⟩ := local_registryLaws.runAll_applyAll calls hempty
    (fun _ h => absurd h List.not_mem_nil) hnames
  refine ⟨hans, d, hm, h, fun raw n hn hmem => ?_⟩
  obtain ⟨d', hrun, -, hgone, hkeep⟩ := run_delete_disk hm h hmem
  refine ⟨d', ?_, hgone, hkeep⟩
  rw [RegistryCall.run, run_normalize_bind_of_ok _ hn, run_bind_of_ok hrun]
  rfl

/-- **The registry refines a set of names**, on a blob store and on a disk. From empty storage,
every sequence of calls answers call by call as on the names of the repositories created and
not yet deleted: creating a name fails as existing exactly when it is held, the listing gives
the held names sorted by path, and a name exists and opens exactly when it is held. Deleting a
held name afterwards removes all of it and leaves every other repository as it was: on a blob
store exactly the keys under its prefix go, on a disk nothing is left at or below its
directory and the files of every other repository stay. This holds when new repositories start
on a valid branch and every name created is one the listing reads back as it is. -/
theorem registry_refines_names (N limit : Nat) (o : InitOptions) (now : Int)
    (calls : List RegistryCall) :
    ((o.initialCommit = true → validateRefName o.branchRef = .ok ()) →
      (∀ raw n, RegistryCall.create raw ∈ calls → RepoName.normalize raw = .ok n →
        Remote.Listable n) →
      let r := RegistryCall.runAll calls ⟨.remote (BlobStore.empty N), o, now⟩
      let live := (RegistryCall.applyAll [] calls).2
      r.1 = (RegistryCall.applyAll [] calls).1 ∧
        ∃ b, r.2.medium = .remote b ∧ Remote.Registry live b ∧
          ∀ raw n, RepoName.normalize raw = .ok n → n ∈ live →
            (RegistryCall.delete raw).run.run.run r.2 = (.ok .done, { r.2 with medium := (.remote
              { b with entries := b.entries.filter fun e => !e.1.startsWith (Remote.repoPrefix n) }) })) ∧
    (RefTarget.Kept (.symbolic o.branchRef) →
      (o.initialCommit = true → RefName.Kept o.branchRef) →
      (∀ raw n, RegistryCall.create raw ∈ calls → RepoName.normalize raw = .ok n →
        Local.Listable n) →
      let r := RegistryCall.runAll calls ⟨.disk ⟨FileTree.empty, ObjectCache.empty limit⟩, o, now⟩
      let live := (RegistryCall.applyAll [] calls).2
      r.1 = (RegistryCall.applyAll [] calls).1 ∧
        ∃ d, r.2.medium = .disk d ∧ Local.Registry live d ∧
          ∀ raw n, RepoName.normalize raw = .ok n → n ∈ live →
            ∃ d', (RegistryCall.delete raw).run.run.run r.2 =
                (.ok .done, { r.2 with medium := .disk d' }) ∧
              (∀ rel, d'.files.nodes[Local.repoDir n ++ rel]? = none) ∧
              ∀ m ∈ live, m ≠ n → ∀ rel,
                d'.files.nodes[Local.repoDir m ++ rel]? = d.files.nodes[Local.repoDir m ++ rel]?) :=
  ⟨fun hbranch hnames => registry_refines_names_remote N o now hbranch calls hnames,
    fun hhead hbranch hnames => registry_refines_names_local limit o now hhead hbranch calls hnames⟩

/-- Two repositories created and one of them deleted, on a blob store and on a disk: the
registry answers as the names do. -/
theorem registry_refines_names_createDelete :
    (RegistryCall.runAll [.create "team/demo", .create "tools", .list, .delete "team/demo.git",
        .list, .exists? "tools"] ⟨.remote (BlobStore.empty 1), { initialCommit := false }, 0⟩).1 =
      (RegistryCall.applyAll [] [.create "team/demo", .create "tools", .list,
        .delete "team/demo.git", .list, .exists? "tools"]).1 ∧
    (RegistryCall.runAll [.create "team/demo", .create "tools", .list, .delete "team/demo.git",
        .list, .exists? "tools"] ⟨.disk ⟨FileTree.empty, ObjectCache.empty 16⟩,
        { initialCommit := false }, 0⟩).1 =
      (RegistryCall.applyAll [] [.create "team/demo", .create "tools", .list,
        .delete "team/demo.git", .list, .exists? "tools"]).1 := by
  have hteam : RepoName.normalize "team/demo" = .ok ⟨"team/demo.git"⟩ := by
    apply Except.eq_ok_of_toOption
    unfold RepoName.normalize
    simp only [RefName.splitOn_slash]
    decide +kernel
  have hteam' : RepoName.normalize "team/demo.git" = .ok ⟨"team/demo.git"⟩ := by
    apply Except.eq_ok_of_toOption
    unfold RepoName.normalize
    simp only [RefName.splitOn_slash]
    decide +kernel
  have htools : RepoName.normalize "tools" = .ok ⟨"tools.git"⟩ := by
    apply Except.eq_ok_of_toOption
    unfold RepoName.normalize
    simp only [RefName.splitOn_slash]
    decide +kernel
  have htools' : RepoName.normalize "tools.git" = .ok ⟨"tools.git"⟩ := by
    apply Except.eq_ok_of_toOption
    unfold RepoName.normalize
    simp only [RefName.splitOn_slash]
    decide +kernel
  -- the names created are the two normal names
  have hcreated : ∀ raw n, RegistryCall.create raw ∈ [RegistryCall.create "team/demo",
      .create "tools", .list, .delete "team/demo.git", .list, .exists? "tools"] →
      RepoName.normalize raw = .ok n → n = ⟨"team/demo.git"⟩ ∨ n = ⟨"tools.git"⟩ := by
    intro raw n hc hn
    simp only [List.mem_cons, RegistryCall.create.injEq, reduceCtorEq, List.not_mem_nil,
      or_false] at hc
    rcases hc with rfl | rfl
    · exact .inl (Except.ok.inj (hn.symm.trans hteam))
    · exact .inr (Except.ok.inj (hn.symm.trans htools))
  obtain ⟨hremote, hlocal⟩ := registry_refines_names 1 16 { initialCommit := false } 0
    [.create "team/demo", .create "tools", .list, .delete "team/demo.git", .list, .exists? "tools"]
  refine ⟨(hremote (fun h => absurd h (by decide)) fun raw n hc hn => ?_).1,
    (hlocal ⟨by decide, by decide⟩ (fun h => absurd h (by decide)) fun raw n hc hn => ?_).1⟩
  · rcases hcreated raw n hc hn with rfl | rfl
    · exact ⟨hteam', by decide +kernel⟩
    · exact ⟨htools', by decide +kernel⟩
  · rcases hcreated raw n hc hn with rfl | rfl
    · refine ⟨hteam', ?_⟩
      simp only [Local.repoDir, RefName.splitOn_slash]
      decide +kernel
    · refine ⟨htools', ?_⟩
      simp only [Local.repoDir, RefName.splitOn_slash]
      decide +kernel

end GitServer
