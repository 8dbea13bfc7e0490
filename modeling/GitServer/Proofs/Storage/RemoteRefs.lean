import GitServer.Proofs.Storage.RefMap
import Mathlib

/-!
# References in a blob store

A blob store keeps each reference of repository `n` as one blob under `key n ref`, holding the
record of its target. `Remote.HoldsRefs n M b` says that the blobs under the keys of valid
names are exactly the records of the map `M`. Reading a kept name answers what the map holds
(`run_getReference_of_holds`); writing and removing change the map at that name only, and a
write under a key that is no reference key (the configuration, an object, the marker of the
object directory) leaves the map alone. Creating a repository where none of its reference
keys is taken leaves the references of `initialRefs` (`run_create_of_fresh`).
-/

namespace GitServer

namespace Remote

/-- The blobs under the keys of valid names of repository `n` are the records of the targets
of `M`, and there is none where `M` has none. -/
def HoldsRefs (n : RepoName) (M : RefMap) (b : BlobStore) : Prop :=
  ∀ ref, validateRefName ref = .ok () →
    (b.get (key n ref)).map StoredBlob.data = (M ref).map fun t => Bytes.ofString t.encode

/-- No reference key of repository `n` is taken. -/
def FreshRefs (n : RepoName) (b : BlobStore) : Prop :=
  ∀ ref, validateRefName ref = .ok () → b.get (key n ref) = none

variable {n : RepoName} {M : RefMap} {b : BlobStore}

theorem FreshRefs.holds (h : FreshRefs n b) : HoldsRefs n (fun _ => none) b := by
  intro ref hvalid
  rw [h ref hvalid]
  rfl

/-- A key other than those of valid names: the map stays. -/
theorem HoldsRefs.put_other (h : HoldsRefs n M b) {k : String}
    (hk : ∀ ref, validateRefName ref = .ok () → key n ref ≠ k) (data : Bytes)
    (md : List (String × String)) : HoldsRefs n M (b.put k data md) := by
  intro ref hvalid
  rw [BlobStore.get_put, if_neg (hk ref hvalid)]
  exact h ref hvalid

theorem HoldsRefs.put_ref (h : HoldsRefs n M b) (ref : String) (t : RefTarget) :
    HoldsRefs n (Function.update M ref (some t)) (b.put (key n ref) (Bytes.ofString t.encode) []) := by
  intro ref' hvalid
  rw [BlobStore.get_put]
  by_cases href : ref' = ref
  · subst href
    simp
  · rw [if_neg (fun hk => href (key_injective hk)), Function.update_of_ne href]
    exact h ref' hvalid

theorem HoldsRefs.delete_ref (h : HoldsRefs n M b) (ref : String) :
    HoldsRefs n (Function.update M ref none) (b.delete (key n ref)) := by
  intro ref' hvalid
  rw [BlobStore.get_delete]
  by_cases href : ref' = ref
  · subst href
    simp
  · rw [if_neg (fun hk => href (key_injective hk)), Function.update_of_ne href]
    exact h ref' hvalid

theorem HoldsRefs.get_eq_none_iff (h : HoldsRefs n M b) {ref : String}
    (hvalid : validateRefName ref = .ok ()) : b.get (key n ref) = none ↔ M ref = none := by
  have href := h ref hvalid
  constructor
  · intro hnone
    rw [hnone] at href
    exact Option.map_eq_none_iff.mp href.symm
  · intro hnone
    rw [hnone] at href
    exact Option.map_eq_none_iff.mp href

/-- A key that is neither `HEAD` nor under `refs/` is no reference key. -/
theorem key_ne_of_not_ref {rel : String} (hhead : rel ≠ headName)
    (hrefs : ¬ "refs/".toList <+: rel.toList) {ref : String} (hvalid : validateRefName ref = .ok ()) :
    key n ref ≠ key n rel := by
  intro hk
  have hrel := key_injective hk
  subst hrel
  rcases head_or_refs_of_valid hvalid with h | h
  · exact hhead h
  · exact hrefs h

theorem key_ne_config {ref : String} (hvalid : validateRefName ref = .ok ()) :
    key n ref ≠ key n "config" :=
  key_ne_of_not_ref (by decide) (by simp) hvalid

theorem key_ne_keep {ref : String} (hvalid : validateRefName ref = .ok ()) :
    key n ref ≠ key n "objects/.keep" :=
  key_ne_of_not_ref (by decide) (by simp) hvalid

/-! ## Reading and writing a reference -/

/-- **Reading a kept name answers what the map holds.** -/
theorem run_getReference_of_holds (h : HoldsRefs n M b) (hM : M.Kept) {ref : String}
    (hvalid : validateRefName ref = .ok ()) :
    (getReference n ref).run.run b = (M.read ref, b) := by
  have href := h ref hvalid
  cases hget : b.get (key n ref) with
  | none =>
    have hnone : M ref = none := (h.get_eq_none_iff hvalid).mp hget
    rw [run_getReference_of_none hvalid hget, RefMap.read, hnone]
  | some blob =>
    cases ht : M ref with
    | none => exact absurd ((h.get_eq_none_iff hvalid).mpr ht) (by simp [hget])
    | some t =>
      -- the blob holds the record of the target, which reads back
      rw [hget, ht] at href
      have hdata : blob.data = Bytes.ofString t.encode := Option.some.inj href
      have hdecode : RefTarget.decode (Utf8.decodeLossy blob.data) = .ok t := by
        rw [hdata, RefTarget.decode_record (hM.targets ref t ht)]
      rw [run_getReference_of_get hvalid hget hdecode, RefMap.read, ht]

theorem run_deleteReference_of_none {ref : String} (hvalid : validateRefName ref = .ok ())
    (hget : b.get (key n ref) = none) :
    (deleteReference n ref).run.run b = (.error (.notFound ("reference " ++ ref)), b) := by
  unfold deleteReference
  rw [run_bind_of_ok (run_refKey hvalid b), run_bind_of_ok (run_has _ b)]
  simp only [hget, Option.isSome_none, Bool.not_false]
  rfl

/-! ## Creating a repository -/

theorem run_putObject_holds (h : HoldsRefs n M b) (kind : ObjectKind) (data : Bytes) :
    ∃ b', (putObject n kind data).run.run b = (.ok (ObjectId.ofObject kind data), b') ∧
      HoldsRefs n M b' := by
  rw [run_putObject]
  split_ifs
  · exact ⟨b, rfl, h⟩
  · exact ⟨_, rfl, h.put_other (fun ref hvalid => Ne.symm (objectKey_ne_key hvalid _)) _ _⟩

theorem run_seedContent_of_holds (h : HoldsRefs n (fun _ => none) b) (o : InitOptions) (now : Int)
    (hbranch : o.initialCommit = true → validateRefName o.branchRef = .ok ()) :
    ∃ b', (seedContent n o now).run.run b = (.ok (), b') ∧ HoldsRefs n (initialRefs n o now) b' := by
  unfold seedContent initialRefs
  generalize hic : initialContent n o now = ic
  obtain ⟨objects, commit⟩ := ic
  -- the objects go first and leave the references alone
  obtain ⟨b₁, hrun₁, h₁⟩ := run_forIn_yield (HoldsRefs n fun _ => none)
    (fun (x : GitObject) (_ : PUnit) => (do
      let _ ← putObject n x.kind x.data
      pure (ForInStep.yield PUnit.unit) : RemoteM (ForInStep PUnit)))
    (fun x b hb => by
      obtain ⟨b', hrun, hb'⟩ := run_putObject_holds hb x.kind x.data
      exact ⟨b', by rw [run_bind_of_ok hrun]; rfl, hb'⟩) objects b h
  simp only []
  rw [run_bind_of_ok hrun₁]
  cases commit with
  | none =>
    simp only [Option.map_none, Function.update_eq_self_iff.mpr rfl]
    exact ⟨_, run_setReference _ rfl, h₁.put_ref headName _⟩
  | some c =>
    have hvalid : validateRefName o.branchRef = .ok () := by
      apply hbranch
      rw [← initialContent_snd_isSome n o now, hic]
      rfl
    exact ⟨_, by rw [run_bind_of_ok (run_setReference _ hvalid)]; exact run_setReference _ rfl,
      (h₁.put_ref o.branchRef (.direct c)).put_ref headName _⟩

/-- The record under a valid name of a blob store holding `M` reads back as the target `M`
files there. -/
theorem HoldsRefs.decode (h : HoldsRefs n M b) (hM : M.Kept) {ref : String}
    (hvalid : validateRefName ref = .ok ()) {blob : StoredBlob} (hget : b.get (key n ref) = some blob) :
    ∃ t, M ref = some t ∧ RefTarget.decode (Utf8.decodeLossy blob.data) = .ok t := by
  have hmap := h ref hvalid
  rw [hget, Option.map_some] at hmap
  obtain ⟨t, ht, hdata⟩ := Option.map_eq_some_iff.mp hmap.symm
  refine ⟨t, ht, ?_⟩
  rw [← hdata, Utf8.decodeLossy_ofString_self]
  exact RefTarget.decode_encode (hM.targets ref t ht)

/-- **The references a blob store holding `M` shows are those of `M`**, on valid names. -/
theorem HoldsRefs.targetView_eq (h : HoldsRefs n M b) (hM : M.Kept) {ref : String}
    (hvalid : validateRefName ref = .ok ()) : targetView n b ref = M ref := by
  unfold targetView
  cases hget : b.get (key n ref) with
  | none =>
    have hmap := h ref hvalid
    rw [hget] at hmap
    exact (Option.map_eq_none_iff.mp hmap.symm).symm
  | some blob =>
    obtain ⟨t, ht, hdec⟩ := h.decode hM hvalid hget
    simp [hdec, ht, Except.toOption]

/-- **Creating a repository where none of its reference keys is taken** succeeds and leaves
the references a new repository starts with. -/
theorem run_create_of_fresh (hfresh : FreshRefs n b) (o : InitOptions) (now : Int)
    (hbranch : o.initialCommit = true → validateRefName o.branchRef = .ok ()) :
    ∃ b', (create n o now).run.run b = (.ok (), b') ∧ HoldsRefs n (initialRefs n o now) b' := by
  have habsent : (exists? n).run.run b = (.ok false, b) := by
    rw [exists?, run_has, hfresh headName rfl]
    rfl
  have hconfig := hfresh.holds.put_other (fun ref hvalid => key_ne_config (n := n) hvalid)
    (Bytes.ofString RepoConfig.default.text) []
  have hkeep := hconfig.put_other (fun ref hvalid => key_ne_keep (n := n) hvalid) [] []
  obtain ⟨b', hrun, h'⟩ := run_seedContent_of_holds hkeep o now hbranch
  refine ⟨b', ?_, h'⟩
  unfold create
  rw [run_bind_of_ok habsent]
  exact hrun

end Remote

end GitServer
