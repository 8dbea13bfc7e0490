import GitServer.Proofs.Storage.RemoteObjects
import GitServer.Proofs.Storage.LocalLifecycle
import Mathlib

/-!
# The object store as a content-addressed map

On either medium the objects of a repository behave as a map from ids to kinds and contents
(`ObjMap`) across the repository's life. A blob store keeps the laws of such a map
(`Storage.remote_lifeLaws`); so does a disk (`Storage.local_lifeLaws`), where the states that
hold a map carry the cache of decoded objects along: it agrees with the loose files after every
step, and deleting the repository leaves no entry of it behind for a repository of the same
name created later.

So every guarded script of creating, deleting and calls on the objects answers as it does on
the map (`Storage.objectStore_refines_map`). What a map answers is fixed by the script: a
listing of a map is the only one (`ObjMap.Listed.unique`), and so is every answer of a trace
(`RepoStep.Trace.answers_unique`). What a script answers thus depends on neither the medium nor
what the cache holds (`Storage.runAll_answers_eq`).
-/

namespace GitServer

/-- No id comes before itself in the byte order. -/
theorem ObjectId.lt_irrefl (a : ObjectId) : a.lt a = false := by
  simp only [ObjectId.lt, Pack.Bytes.compare_eq_compareLex, Std.ReflCmp.compare_self]
  rfl

/-- Of two ids, at most one comes before the other. -/
theorem ObjectId.lt_asymm {a b : ObjectId} (hab : a.lt b = true) : b.lt a = false := by
  simp only [ObjectId.lt, beq_iff_eq, Pack.Bytes.compare_eq_compareLex] at hab ⊢
  have hswap : List.compareLex compare b.bytes a.bytes =
      (List.compareLex compare a.bytes b.bytes).swap := Std.OrientedCmp.eq_swap
  rw [hswap, hab]
  rfl

namespace ObjMap

/-- **A listing of a map is the only one**: the order of ids fixes where each object stands. -/
theorem Listed.unique {O : ObjMap} {f : Option ObjectKind} {os os' : List GitObject}
    (h : O.Listed f os) (h' : O.Listed f os') : os = os' := by
  have hnodup : ∀ {l : List GitObject}, l.Pairwise (fun a b => a.id.lt b.id = true) → l.Nodup :=
    fun hl => hl.imp fun hab heq => by simp [heq, ObjectId.lt_irrefl] at hab
  have hperm : os.Perm os' := (List.perm_ext_iff_of_nodup (hnodup h.1) (hnodup h'.1)).mpr
    fun o => (h.2 o).trans (h'.2 o).symm
  refine hperm.eq_of_pairwise (fun a b _ _ hab hba => ?_) h.1 h'.1
  simp [ObjectId.lt_asymm hab] at hba

end ObjMap

/-- A call answers one thing on a map, and leaves one map. -/
theorem ObjCall.Answers.unique {O O₁ O₂ : ObjMap} {c : ObjCall}
    {a₁ a₂ : Except StorageError ObjAnswer} (h₁ : ObjCall.Answers O c a₁ O₁)
    (h₂ : ObjCall.Answers O c a₂ O₂) : a₁ = a₂ ∧ O₁ = O₂ := by
  cases h₁ with
  | delete hO => cases h₂ with
    | delete _ => exact ⟨rfl, rfl⟩
    | deleteAbsent hO' => exact absurd hO' hO
  | deleteAbsent hO => cases h₂ with
    | delete hO' => exact absurd hO hO'
    | deleteAbsent _ => exact ⟨rfl, rfl⟩
  | iterate hl => cases h₂ with
    | iterate hl' => rw [hl.unique hl']; exact ⟨rfl, rfl⟩
  | _ => cases h₂; exact ⟨rfl, rfl⟩

namespace RepoStep

theorem Answers.unique {n : RepoName} {init : ObjMap} {R R₁ R₂ : Option ObjMap} {st : RepoStep}
    {a₁ a₂ : Except StorageError ObjAnswer} (h₁ : Answers n init R st a₁ R₁)
    (h₂ : Answers n init R st a₂ R₂) : a₁ = a₂ ∧ R₁ = R₂ := by
  cases h₁ with
  | call hc => cases h₂ with
    | call hc' =>
      obtain ⟨ha, hO⟩ := hc.unique hc'
      exact ⟨ha, hO ▸ rfl⟩
  | _ => cases h₂; exact ⟨rfl, rfl⟩

/-- **What a script answers on a map is fixed by the script.** -/
theorem Trace.answers_unique {n : RepoName} {init : ObjMap} {R R₁ R₂ : Option ObjMap}
    {steps : List RepoStep} {as₁ as₂ : List (Except StorageError ObjAnswer)}
    (h₁ : Trace n init R steps as₁ R₁) (h₂ : Trace n init R steps as₂ R₂) : as₁ = as₂ := by
  induction h₁ generalizing as₂ with
  | nil => cases h₂; rfl
  | cons hst _ ih =>
    cases h₂ with
    | cons hst' htrace' =>
      -- the first steps agree, and so leave the same map for the rest
      obtain ⟨ha, hR⟩ := hst.unique hst'
      subst hR
      rw [ha, ih htrace']

end RepoStep

namespace Storage

/-- Repository `n` is kept on a disk, is there and settled, and its objects hold the map `O`
with a cache that agrees with them; new repositories start as `o` says, signed at `now`. -/
def OnDiskObjects (n : RepoName) (o : InitOptions) (now : Int) (O : ObjMap) (s : Storage) :
    Prop :=
  s.init = o ∧ s.now = now ∧ ∃ d, s.medium = .disk d ∧ Local.DiskObjects n O d ∧
    Local.Settled d.files (Local.repoDir n)

/-- Repository `n` can be created on a disk; new repositories start as `o` says, signed at
`now`. -/
def VacantOnDisk (n : RepoName) (o : InitOptions) (now : Int) (s : Storage) : Prop :=
  s.init = o ∧ s.now = now ∧ ∃ d, s.medium = .disk d ∧ Local.VacantDisk n d

/-- **A disk keeps a repository's objects as a content-addressed map**, across creating and
deleting the repository, whatever its cache holds of other repositories. -/
theorem local_lifeLaws (n : RepoName) (o : InitOptions) (now : Int)
    (hhead : RefTarget.Kept (.symbolic o.branchRef))
    (hbranch : o.initialCommit = true → RefName.Kept o.branchRef)
    (hsizes : ∀ x ∈ (initialContent n o now).1, x.data.length < 2 ^ 64) :
    LifeLaws n (initialObjects n o now) (VacantOnDisk n o now) (OnDiskObjects n o now) where
  kept hs := by
    obtain ⟨-, -, d, -, h, -⟩ := hs
    exact h.kept
  put {O s} k data hs hk hd := by
    obtain ⟨hi, hn, d, hm, h, hset⟩ := hs
    obtain ⟨t', hrun, h', hc⟩ := h.run_putObject hk hd
    refine ⟨{ s with medium := .disk { d with files := t' } }, ?_, hi, hn, _, rfl, h',
      hset.frame (Local.repoDir_ne_nil n) hc⟩
    unfold putObject
    rw [run_onMedium_disk _ _ hm, hrun]
  get {O s} id hs := by
    obtain ⟨hi, hn, d, hm, h, hset⟩ := hs
    obtain ⟨d', hrun, hfiles, h'⟩ := h.run_getObject id
    refine ⟨{ s with medium := .disk d' }, ?_, hi, hn, d', rfl, h', hfiles ▸ hset⟩
    unfold getObject
    rw [run_onMedium_disk _ _ hm, hrun]
  has {O s} id hs := by
    obtain ⟨-, -, d, hm, h, -⟩ := hs
    unfold hasObject
    rw [run_onMedium_disk _ _ hm, h.run_hasObject, with_disk_eq hm]
  delete {O s id} hs hO := by
    obtain ⟨hi, hn, d, hm, h, hset⟩ := hs
    obtain ⟨t', hrun, h', hc⟩ := h.run_deleteObject hO
    refine ⟨{ s with medium := .disk _ }, ?_, hi, hn, _, rfl, h',
      hset.frame (Local.repoDir_ne_nil n) hc⟩
    unfold deleteObject
    rw [run_onMedium_disk _ _ hm, hrun]
  deleteAbsent {O s id} hs hO := by
    obtain ⟨-, -, d, hm, h, -⟩ := hs
    unfold deleteObject
    rw [run_onMedium_disk _ _ hm, h.run_deleteObject_absent hO, with_disk_eq hm]
  iterate {O s} f hs := by
    obtain ⟨hi, hn, d, hm, h, hset⟩ := hs
    obtain ⟨d', hrun, hfiles, h'⟩ := h.run_iterateObjects f
    refine ⟨_, { s with medium := .disk d' }, ?_, h.files.listed_gathered f, hi, hn, d', rfl, h',
      hfiles ▸ hset⟩
    unfold iterateObjects
    rw [run_onMedium_disk _ _ hm, hrun]
  create {s} hv := by
    obtain ⟨hi, hn, d, hm, hv⟩ := hv
    obtain ⟨t', hrun, h', hset⟩ := hv.run_create o now hhead hbranch hsizes
    refine ⟨{ s with medium := .disk { d with files := t' } }, ?_, hi, hn, _, rfl, h', hset⟩
    rw [run_create_eq, run_onMedium_disk _ _ hm, hi, hn, hrun]
  createExisting {O s} hs := by
    obtain ⟨hi, hn, d, hm, h, hset⟩ := hs
    rw [run_create_eq, run_onMedium_disk _ _ hm, Local.run_create_existing h.files hset,
      with_disk_eq hm]
  remove {O s} hs := by
    obtain ⟨hi, hn, d, hm, h, hset⟩ := hs
    obtain ⟨d', hrun, hv⟩ := Local.run_delete_vacant h hset
    refine ⟨{ s with medium := .disk d' }, ?_, hi, hn, d', rfl, hv⟩
    unfold delete
    rw [run_onMedium_disk _ _ hm, hrun]
  removeAbsent {s} hv := by
    obtain ⟨-, -, d, hm, hv⟩ := hv
    unfold delete
    rw [run_onMedium_disk _ _ hm, hv.run_delete, with_disk_eq hm]

namespace LifeLaws

variable {n : RepoName} {init : ObjMap} {V₁ V₂ : Storage → Prop} {H₁ H₂ : ObjMap → Storage → Prop}

/-- Two kinds of states that keep the laws keep them together. -/
theorem or (L₁ : LifeLaws n init V₁ H₁) (L₂ : LifeLaws n init V₂ H₂) :
    LifeLaws n init (fun s => V₁ s ∨ V₂ s) (fun O s => H₁ O s ∨ H₂ O s) where
  kept hs := hs.elim L₁.kept L₂.kept
  put k d hs hk hd := hs.elim
    (fun h => (L₁.put k d h hk hd).imp fun _ => And.imp_right .inl)
    (fun h => (L₂.put k d h hk hd).imp fun _ => And.imp_right .inr)
  get id hs := hs.elim
    (fun h => (L₁.get id h).imp fun _ => And.imp_right .inl)
    (fun h => (L₂.get id h).imp fun _ => And.imp_right .inr)
  has id hs := hs.elim (L₁.has id) (L₂.has id)
  delete hs hO := hs.elim
    (fun h => (L₁.delete h hO).imp fun _ => And.imp_right .inl)
    (fun h => (L₂.delete h hO).imp fun _ => And.imp_right .inr)
  deleteAbsent hs hO := hs.elim (L₁.deleteAbsent · hO) (L₂.deleteAbsent · hO)
  iterate f hs := hs.elim
    (fun h => (L₁.iterate f h).imp fun _ => Exists.imp fun _ => And.imp_right (And.imp_right .inl))
    (fun h => (L₂.iterate f h).imp fun _ => Exists.imp fun _ => And.imp_right (And.imp_right .inr))
  create hv := hv.elim
    (fun h => (L₁.create h).imp fun _ => And.imp_right .inl)
    (fun h => (L₂.create h).imp fun _ => And.imp_right .inr)
  createExisting hs := hs.elim L₁.createExisting L₂.createExisting
  remove hs := hs.elim
    (fun h => (L₁.remove h).imp fun _ => And.imp_right .inl)
    (fun h => (L₂.remove h).imp fun _ => And.imp_right .inr)
  removeAbsent hv := hv.elim L₁.removeAbsent L₂.removeAbsent

end LifeLaws

/-- Repository `n` can be created, on either medium. -/
def VacantOn (n : RepoName) (o : InitOptions) (now : Int) (s : Storage) : Prop :=
  VacantOnBlobStore n o now s ∨ VacantOnDisk n o now s

/-- Repository `n` is there and its objects hold the map `O`, on either medium. -/
def HoldsObjects (n : RepoName) (o : InitOptions) (now : Int) (O : ObjMap) (s : Storage) : Prop :=
  OnBlobStoreObjects n o now O s ∨ OnDiskObjects n o now O s

/-- **The storage keeps a repository's objects as a content-addressed map**, on either medium,
across creating and deleting the repository. -/
theorem lifeLaws (n : RepoName) (o : InitOptions) (now : Int)
    (hhead : RefTarget.Kept (.symbolic o.branchRef))
    (hbranch : o.initialCommit = true → RefName.Kept o.branchRef)
    (hsizes : ∀ x ∈ (initialContent n o now).1, x.data.length < 2 ^ 64) :
    LifeLaws n (initialObjects n o now) (VacantOn n o now) (HoldsObjects n o now) :=
  (remote_lifeLaws n o now (fun h => (hbranch h).1) hsizes).or (local_lifeLaws n o now hhead hbranch hsizes)

/-- Repository `n` can be created in the storage: in a blob store no key of it is taken; on a
disk there is room for its directory, its tombstone is free, and the cache holds no object of
it. -/
def VacantFor (n : RepoName) (s : Storage) : Prop :=
  match s.medium with
  | .remote b => Remote.Vacant n b
  | .disk d => Local.VacantDisk n d

theorem VacantFor.vacantOn {n : RepoName} {s : Storage} (hv : VacantFor n s) :
    VacantOn n s.init s.now s := by
  unfold VacantFor at hv
  split at hv
  · exact .inl ⟨rfl, rfl, _, by assumption, hv⟩
  · exact .inr ⟨rfl, rfl, _, by assumption, hv⟩

/-- **The object store refines a content-addressed map, on either medium.** From a storage
where repository `n` can be created, every guarded script of creating, deleting and calls on
its objects answers, step by step, as the script does on a map of objects that starts absent,
that creating sets to the repository's first objects and deleting drops: storing answers the
id of the kind and content and keeps what is filed there, reading and asking answer what is
filed, deleting fails as absent exactly when nothing is, and listing lists the map in order of
id. -/
theorem objectStore_refines_map {s : Storage} {n : RepoName} (hv : VacantFor n s)
    (hhead : RefTarget.Kept (.symbolic s.init.branchRef))
    (hbranch : s.init.initialCommit = true → RefName.Kept s.init.branchRef)
    (hsizes : ∀ x ∈ (initialContent n s.init s.now).1, x.data.length < 2 ^ 64)
    (steps : List RepoStep) (hg : RepoStep.Guarded false steps) :
    ∃ R, RepoStep.Trace n (initialObjects n s.init s.now) none steps
      (RepoStep.runAll n steps s).1 R := by
  obtain ⟨R, htrace, -⟩ :=
    (lifeLaws n s.init s.now hhead hbranch hsizes).runAll_trace steps (R := none) hv.vacantOn hg
  exact ⟨R, htrace⟩

/-- On an empty disk whose new repositories start without a first commit: a blob is stored in a
new repository, the repository is deleted and created again, and its objects are listed. -/
theorem objectStore_refines_map_onEmptyDisk :
    VacantFor ⟨"demo.git"⟩ ⟨.disk ⟨.empty, .empty 16⟩, { initialCommit := false }, 0⟩ ∧
    RepoStep.Guarded false [.create, .call (.put .blob [104, 105]), .delete, .create,
      .call (.iterate none)] ∧
    ∃ R, RepoStep.Trace ⟨"demo.git"⟩ (initialObjects ⟨"demo.git"⟩ { initialCommit := false } 0)
      none [.create, .call (.put .blob [104, 105]), .delete, .create, .call (.iterate none)]
      (RepoStep.runAll ⟨"demo.git"⟩ [.create, .call (.put .blob [104, 105]), .delete, .create,
        .call (.iterate none)] ⟨.disk ⟨.empty, .empty 16⟩, { initialCommit := false }, 0⟩).1 R := by
  have hv : VacantFor ⟨"demo.git"⟩ ⟨.disk ⟨.empty, .empty 16⟩, { initialCommit := false }, 0⟩ :=
    show Local.VacantDisk _ _ from ⟨Local.Room.empty _, fun q _ => by simp [FileTree.empty],
      fun e he => by simp [ObjectCache.empty, ObjectCache.entries] at he⟩
  have hg : RepoStep.Guarded false [.create, .call (.put .blob [104, 105]), .delete, .create,
      .call (.iterate none)] := by
    simp [RepoStep.Guarded, ObjCall.Kept, ObjectKind.isBase]
  exact ⟨hv, hg, objectStore_refines_map hv ⟨by decide, by decide⟩ (fun h => absurd h (by decide))
    (by simp [initialContent]) _ hg⟩

/-- **What a script answers depends on neither the medium nor the cache**: from two storages
where repository `n` can be created, with the same options for new repositories, every guarded
script answers the same. -/
theorem runAll_answers_eq {s₁ s₂ : Storage} {n : RepoName} (hv₁ : VacantFor n s₁)
    (hv₂ : VacantFor n s₂) (hinit : s₁.init = s₂.init) (hnow : s₁.now = s₂.now)
    (hhead : RefTarget.Kept (.symbolic s₁.init.branchRef))
    (hbranch : s₁.init.initialCommit = true → RefName.Kept s₁.init.branchRef)
    (hsizes : ∀ x ∈ (initialContent n s₁.init s₁.now).1, x.data.length < 2 ^ 64)
    (steps : List RepoStep) (hg : RepoStep.Guarded false steps) :
    (RepoStep.runAll n steps s₁).1 = (RepoStep.runAll n steps s₂).1 := by
  have L := lifeLaws n s₁.init s₁.now hhead hbranch hsizes
  obtain ⟨R₁, htrace₁, -⟩ := L.runAll_trace steps (R := none) hv₁.vacantOn hg
  obtain ⟨R₂, htrace₂, -⟩ := L.runAll_trace steps (R := none) (hinit ▸ hnow ▸ hv₂.vacantOn) hg
  exact htrace₁.answers_unique htrace₂

end Storage

end GitServer
