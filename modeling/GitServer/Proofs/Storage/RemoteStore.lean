import GitServer.Storage.Backend
import GitServer.Proofs.Storage.Records
import GitServer.Proofs.Storage.Reliable
import Mathlib

/-!
# A blob store does not fail

A repository kept in a blob store reads back without failing as long as every object blob
records a kind that names one and every reference blob holds a target: `WellStored`. Writes
through the repository's operations keep that, because an object is stored with its own kind
and a reference with a record that reads back (`RefTarget.decode_encode_direct`). So the
remote medium is storage that does not fail (`remote_reliable`).

The argument rests on the layout of keys: a repository's references and objects live under
its prefix, a reference under its own name and an object under `objects/` and its digits.
Different names and different ids give different keys, and no object key is the key of a
valid reference name (`objectKey_ne_key`), so each write changes the one blob it is about.
-/

namespace GitServer

/-! ## The blob store -/

namespace BlobStore

theorem find?_insertSorted (key k' : String) (b : StoredBlob) :
    ∀ l : List (String × StoredBlob), (insertSorted key b l).find? (·.1 == k') =
      if k' = key then some (key, b) else l.find? (·.1 == k')
  | [] => by
    by_cases h : k' = key
    · simp [insertSorted, h]
    · simp [insertSorted, h, Ne.symm h]
  | (k, v) :: rest => by
    have ih := find?_insertSorted key k' b rest
    by_cases h : k' = key
    · subst h
      rw [if_pos rfl] at ih ⊢
      rw [insertSorted]
      split_ifs with hlt heq
      · simp
      · simp
      · have hk : (k == k') = false := by simpa using Ne.symm heq
        rw [List.find?_cons, ih, hk]
    · rw [if_neg h] at ih ⊢
      rw [insertSorted]
      split_ifs with hlt heq
      · simp [Ne.symm h]
      · subst heq
        simp [Ne.symm h]
      · rw [List.find?_cons, ih, List.find?_cons]

@[simp] theorem get_put (s : BlobStore) (key k' : String) (data : Bytes)
    (metadata : List (String × String)) :
    (s.put key data metadata).get k' =
      if k' = key then some ⟨data, sortMetadata metadata⟩ else s.get k' := by
  simp only [get, put, find?_insertSorted]
  split <;> simp

@[simp] theorem get_delete (s : BlobStore) (key k' : String) :
    (s.delete key).get k' = if k' = key then none else s.get k' := by
  simp only [get, delete, List.find?_filter]
  by_cases h : k' = key
  · subst h
    simp
  · simp only [if_neg h]
    congr 1
    apply List.find?_congr
    intro x _
    by_cases hx : x.1 = k' <;> simp [hx, h]

@[simp] theorem contains_eq (s : BlobStore) (key : String) : s.contains key = (s.get key).isSome :=
  rfl

end BlobStore

/-! ## Keys -/

namespace Remote

variable {n : RepoName}

theorem key_injective {a b : String} (h : key n a = key n b) : a = b :=
  (String.append_right_inj _).mp h

/-- A valid reference name is `HEAD` or starts with `refs/`. -/
theorem head_or_refs_of_valid {ref : String} (h : validateRefName ref = .ok ()) :
    ref = headName ∨ "refs/".toList <+: ref.toList := by
  unfold validateRefName at h
  by_cases hhead : ref = headName
  · exact .inl hhead
  · rw [if_neg hhead] at h
    by_cases hrefs : ref.startsWith "refs/" = true
    · exact .inr (String.startsWith_string_iff.mp hrefs)
    · simp [hrefs] at h

theorem objectKey_injective {a b : ObjectId} (h : objectKey n a = objectKey n b) : a = b := by
  have hrel := key_injective h
  rw [← String.toList_inj] at hrel
  simp only [String.toList_append, List.append_assoc, List.append_cancel_left_eq] at hrel
  -- the first part of the digits has two characters in both keys
  have hsplit := List.append_inj hrel (by rw [ObjectId.length_fanout_fst, ObjectId.length_fanout_fst])
  have h2 : a.fanout.2.toList = b.fanout.2.toList := by simpa using hsplit.2
  apply ObjectId.fanout_injective
  exact Prod.ext (String.toList_inj.mp hsplit.1) (String.toList_inj.mp h2)

/-- **No object key is the key of a valid reference name.** -/
theorem objectKey_ne_key {ref : String} (hvalid : validateRefName ref = .ok ()) (id : ObjectId) :
    objectKey n id ≠ key n ref := by
  intro h
  have hrel := congrArg String.toList (key_injective h)
  simp only [String.toList_append] at hrel
  -- an object key starts with `o`, a reference with `H` or `r`
  rcases head_or_refs_of_valid hvalid with rfl | ⟨t, ht⟩
  · simp [headName] at hrel
  · rw [← ht] at hrel
    simp at hrel

end Remote

/-! ## Running the operations of a blob store -/

namespace Remote

variable {n : RepoName} {b : BlobStore}

@[simp] theorem run_fetch (k : String) (b : BlobStore) : (fetch k).run.run b = (.ok (b.get k), b) :=
  rfl

@[simp] theorem run_has (k : String) (b : BlobStore) :
    (has k).run.run b = (.ok (b.get k).isSome, b) := rfl

@[simp] theorem run_store (k : String) (data : Bytes) (md : List (String × String)) (b : BlobStore) :
    (store k data md).run.run b = (.ok (), b.put k data md) := rfl

@[simp] theorem run_remove (k : String) (b : BlobStore) : (remove k).run.run b = (.ok (), b.delete k) :=
  rfl

@[simp] theorem run_check {α : Type} (x : Except StorageError α) (b : BlobStore) :
    (check x).run.run b = (x, b) := by
  cases x <;> rfl

theorem run_refKey {ref : String} (hvalid : validateRefName ref = .ok ()) (b : BlobStore) :
    (refKey n ref).run.run b = (.ok (key n ref), b) := by
  unfold refKey
  rw [run_bind_of_ok (by rw [run_check, hvalid])]
  rfl

/-- What a read of an object answers, from the blob under its key. -/
def objectAnswer (id : ObjectId) (fallback : ObjectKind) :
    Option StoredBlob → Except StorageError GitObject
  | none => .error (.notFound ("object " ++ id.toHex))
  | some blob => (blobKind blob fallback).map fun k => ⟨k, blob.data, id⟩

theorem run_getObjectAs (id : ObjectId) (fallback : ObjectKind) (b : BlobStore) :
    (getObjectAs n id fallback).run.run b =
      (objectAnswer id fallback (b.get (objectKey n id)), b) := by
  unfold getObjectAs
  rw [run_bind_of_ok (run_fetch _ b)]
  cases hget : b.get (objectKey n id) with
  | none => rfl
  | some blob =>
    cases hk : blobKind blob fallback with
    | ok k =>
      show (check (blobKind blob fallback) >>= _).run.run b = _
      rw [run_bind_of_ok (by rw [run_check, hk])]
      simp [objectAnswer, hk]
      rfl
    | error e =>
      show (check (blobKind blob fallback) >>= _).run.run b = _
      rw [run_bind_of_error (by rw [run_check, hk])]
      simp [objectAnswer, hk]
      rfl

/-- What a read of a reference answers, from the blob under its key. -/
def targetAnswer : Option StoredBlob → Except StorageError (Option RefTarget)
  | none => .ok none
  | some blob => (RefTarget.decode (Utf8.decodeLossy blob.data)).map some

theorem run_readTarget (k : String) (b : BlobStore) :
    (readTarget k).run.run b = (targetAnswer (b.get k), b) := by
  unfold readTarget
  rw [run_bind_of_ok (run_fetch _ b)]
  cases hget : b.get k with
  | none => rfl
  | some blob =>
    cases hd : RefTarget.decode (Utf8.decodeLossy blob.data) with
    | ok t =>
      show (check _ >>= _).run.run b = _
      rw [run_bind_of_ok (by rw [run_check, hd])]
      simp [targetAnswer, hd]
      rfl
    | error e =>
      show (check _ >>= _).run.run b = _
      rw [run_bind_of_error (by rw [run_check, hd])]
      simp [targetAnswer, hd]
      rfl

theorem run_putObject (kind : ObjectKind) (data : Bytes) (b : BlobStore) :
    (putObject n kind data).run.run b =
      (.ok (ObjectId.ofObject kind data),
        if (b.get (objectKey n (ObjectId.ofObject kind data))).isSome then b
        else b.put (objectKey n (ObjectId.ofObject kind data)) data [(typeKey, kind.name)]) := by
  unfold putObject
  rw [run_bind_of_ok (run_has _ b)]
  cases (b.get (objectKey n (ObjectId.ofObject kind data))).isSome <;> rfl

theorem run_getReference_of_get {ref : String} {blob : StoredBlob} {t : RefTarget}
    (hvalid : validateRefName ref = .ok ()) (hget : b.get (key n ref) = some blob)
    (hdecode : RefTarget.decode (Utf8.decodeLossy blob.data) = .ok t) :
    (getReference n ref).run.run b = (.ok ⟨ref, t⟩, b) := by
  unfold getReference
  have hread : (readTarget (key n ref)).run.run b = (.ok (some t), b) := by
    rw [run_readTarget, hget]
    simp [targetAnswer, hdecode]
    rfl
  rw [run_bind_of_ok (run_refKey hvalid b), run_bind_of_ok hread]
  rfl

theorem run_getReference_of_none {ref : String} (hvalid : validateRefName ref = .ok ())
    (hget : b.get (key n ref) = none) :
    (getReference n ref).run.run b = (.error (.notFound ("reference " ++ ref)), b) := by
  unfold getReference
  have hread : (readTarget (key n ref)).run.run b = (.ok none, b) := by
    rw [run_readTarget, hget]
    rfl
  rw [run_bind_of_ok (run_refKey hvalid b), run_bind_of_ok hread]
  rfl

theorem run_getReference_of_invalid {ref : String} {e : StorageError}
    (hinvalid : validateRefName ref = .error e) :
    (getReference n ref).run.run b = (.error e, b) := by
  unfold getReference refKey
  rw [run_bind_of_error (run_bind_of_error (by rw [run_check, hinvalid]))]

theorem run_setReference {ref : String} (t : RefTarget) (hvalid : validateRefName ref = .ok ()) :
    (setReference n ⟨ref, t⟩).run.run b =
      (.ok (), b.put (key n ref) (Bytes.ofString t.encode) []) := by
  unfold setReference
  rw [run_bind_of_ok (run_refKey hvalid b)]
  rfl

theorem run_deleteReference {ref : String} (hvalid : validateRefName ref = .ok ())
    (hget : (b.get (key n ref)).isSome) :
    (deleteReference n ref).run.run b = (.ok (), b.delete (key n ref)) := by
  unfold deleteReference
  rw [run_bind_of_ok (run_refKey hvalid b), run_bind_of_ok (run_has _ b)]
  simp only [hget, Bool.not_true]
  rfl

end Remote

/-! ## Blob stores that read back -/

/-- Repository `n` of a blob store reads back without failing: every object blob records a
kind that names one, and every blob under a valid reference name holds a target. -/
structure WellStored (n : RepoName) (b : BlobStore) : Prop where
  kinds : ∀ id blob, b.get (Remote.objectKey n id) = some blob →
    ∃ k, Remote.blobKind blob .blob = .ok k
  targets : ∀ ref blob, validateRefName ref = .ok () → b.get (Remote.key n ref) = some blob →
    ∃ t, RefTarget.decode (Utf8.decodeLossy blob.data) = .ok t

theorem WellStored.empty (n : RepoName) (pageSize : Nat) : WellStored n (BlobStore.empty pageSize) :=
  ⟨fun _ _ h => by simp [BlobStore.get, BlobStore.empty] at h,
    fun _ _ _ h => by simp [BlobStore.get, BlobStore.empty] at h⟩

namespace Storage

/-- Repository `n` is kept in a blob store that reads back. -/
def OnBlobStore (n : RepoName) (s : Storage) : Prop := ∃ b, s.medium = .remote b ∧ WellStored n b

theorem run_onMedium_remote {α : Type} (r : RemoteM α) (l : DiskM α) {s : Storage} {b : BlobStore}
    (h : s.medium = .remote b) :
    (onMedium r l).run.run s = ((r.run.run b).1, { s with medium := .remote (r.run.run b).2 }) := by
  unfold onMedium
  simp only [ExceptT.run_mk, StateT.run]
  rw [h]
  rfl

theorem with_medium_eq {s : Storage} {b : BlobStore} (h : s.medium = .remote b) :
    { s with medium := .remote b } = s := by
  cases s
  simp_all

end Storage

namespace Remote

/-- The target a blob store holds for a reference name: none when no blob is under it, or
when its blob holds no target. -/
def targetView (n : RepoName) (b : BlobStore) (ref : String) : Option RefTarget :=
  match b.get (key n ref) with
  | none => none
  | some blob => (RefTarget.decode (Utf8.decodeLossy blob.data)).toOption

end Remote

namespace Storage

variable {n : RepoName} {s : Storage} {b : BlobStore}

section OnRemote

variable (hm : s.medium = .remote b)
include hm

theorem getObject_remote (id : ObjectId) :
    (getObject n id).run.run s =
      (Remote.objectAnswer id .blob (b.get (Remote.objectKey n id)), s) := by
  unfold getObject
  rw [run_onMedium_remote _ _ hm, Remote.getObject, Remote.run_getObjectAs, with_medium_eq hm]

theorem objectAt_remote (id : ObjectId) :
    objectAt n s id = (Remote.objectAnswer id .blob (b.get (Remote.objectKey n id))).toOption := by
  rw [objectAt, getObject_remote hm]

theorem hasObject_remote (id : ObjectId) :
    (hasObject n id).run.run s = (.ok (b.get (Remote.objectKey n id)).isSome, s) := by
  unfold hasObject
  rw [run_onMedium_remote _ _ hm, Remote.hasObject, Remote.run_has, with_medium_eq hm]

theorem putObject_remote (kind : ObjectKind) (data : Bytes) :
    (putObject n kind data).run.run s =
      (.ok (ObjectId.ofObject kind data),
        { s with medium := .remote (if (b.get (Remote.objectKey n (ObjectId.ofObject kind data))).isSome
          then b
          else b.put (Remote.objectKey n (ObjectId.ofObject kind data)) data
            [(Remote.typeKey, kind.name)]) }) := by
  unfold putObject
  rw [run_onMedium_remote _ _ hm, Remote.run_putObject]

/-- Reading a reference by a valid name answers what its blob holds. -/
theorem currentTarget_remote {ref : String} (hw : WellStored n b)
    (hvalid : validateRefName ref = .ok ()) :
    (currentTarget n ref).run.run s = (.ok (Remote.targetView n b ref), s) := by
  unfold currentTarget
  cases hget : b.get (Remote.key n ref) with
  | none =>
    have hread : (getReference n ref).run.run s = (.error (.notFound ("reference " ++ ref)), s) := by
      unfold getReference
      rw [run_onMedium_remote _ _ hm, Remote.run_getReference_of_none hvalid hget, with_medium_eq hm]
    rw [run_tryCatch_of_error (run_bind_of_error hread)]
    simp [Remote.targetView, hget, StorageError.isNotFound]
    rfl
  | some blob =>
    obtain ⟨t, ht⟩ := hw.targets ref blob hvalid hget
    have hread : (getReference n ref).run.run s = (.ok ⟨ref, t⟩, s) := by
      unfold getReference
      rw [run_onMedium_remote _ _ hm, Remote.run_getReference_of_get hvalid hget ht,
        with_medium_eq hm]
    have hanswer : (getReference n ref >>= fun r => pure (some r.target)).run.run s =
        (.ok (some t), s) := by
      rw [run_bind_of_ok hread]
      rfl
    rw [run_tryCatch_of_ok hanswer]
    simp [Remote.targetView, hget, ht, Except.toOption]

/-- The target of a reference is what its blob holds, and none for a name that is not
valid. -/
theorem targetAt_remote (hw : WellStored n b) (ref : String) :
    targetAt n s ref = (validateRefName ref).toOption.bind fun _ => Remote.targetView n b ref := by
  cases hvalid : validateRefName ref with
  | ok u =>
    rw [targetAt, currentTarget_remote hm hw hvalid]
    rfl
  | error e =>
    -- a name that is not valid fails to read, and reads as absent either way
    have hread : (getReference n ref).run.run s = (.error e, s) := by
      unfold getReference
      rw [run_onMedium_remote _ _ hm, Remote.run_getReference_of_invalid hvalid, with_medium_eq hm]
    unfold targetAt currentTarget
    rw [run_tryCatch_of_error (run_bind_of_error hread)]
    by_cases hnf : e.isNotFound = true <;> simp [hnf, Except.toOption] <;> rfl

end OnRemote

/-- Two blob stores that agree on a repository's object keys hold the same objects. -/
theorem objectAt_congr {s' : Storage} {b' : BlobStore} (hm : s.medium = .remote b)
    (hm' : s'.medium = .remote b')
    (hsame : ∀ id, b'.get (Remote.objectKey n id) = b.get (Remote.objectKey n id)) :
    objectAt n s' = objectAt n s := by
  funext id
  rw [objectAt_remote hm, objectAt_remote hm', hsame]

/-- Two blob stores that agree on a repository's valid reference keys hold the same
targets. -/
theorem targetAt_congr {s' : Storage} {b' : BlobStore} (hm : s.medium = .remote b)
    (hm' : s'.medium = .remote b') (hw : WellStored n b) (hw' : WellStored n b')
    (hsame : ∀ ref, validateRefName ref = .ok () → b'.get (Remote.key n ref) = b.get (Remote.key n ref)) :
    targetAt n s' = targetAt n s := by
  funext ref
  rw [targetAt_remote hm hw, targetAt_remote hm' hw']
  cases hvalid : validateRefName ref with
  | error e => rfl
  | ok u => simp [Except.toOption, Remote.targetView, hsame ref hvalid]

end Storage

/-! ## Writes keep a blob store readable -/

theorem sortMetadata_singleton (p : String × String) : BlobStore.sortMetadata [p] = [p] := by
  simp [BlobStore.sortMetadata]

theorem blobKind_stored {kind : ObjectKind} (hbase : kind.isBase = true) (data : Bytes)
    (fallback : ObjectKind) :
    Remote.blobKind ⟨data, BlobStore.sortMetadata [(Remote.typeKey, kind.name)]⟩ fallback = .ok kind := by
  simp [Remote.blobKind, sortMetadata_singleton, ObjectKind.ofName?_name kind hbase]

/-- A recorded kind is one of the four whole kinds, and a blob without one takes the fallback. -/
theorem blobKind_isBase {blob : StoredBlob} {fallback k : ObjectKind}
    (h : Remote.blobKind blob fallback = .ok k) (hfallback : fallback.isBase = true) :
    k.isBase = true := by
  unfold Remote.blobKind at h
  split at h
  · split at h
    · rename_i kind hname
      cases h
      have hmem := List.mem_of_find?_eq_some hname
      simp only [List.mem_cons, List.not_mem_nil, or_false] at hmem
      rcases hmem with rfl | rfl | rfl | rfl <;> rfl
    · cases h
  · cases h
    exact hfallback

namespace WellStored

variable {n : RepoName} {b : BlobStore}

theorem put_object (hw : WellStored n b) {kind : ObjectKind} (hbase : kind.isBase = true)
    (data : Bytes) :
    WellStored n (b.put (Remote.objectKey n (ObjectId.ofObject kind data)) data
      [(Remote.typeKey, kind.name)]) where
  kinds id blob h := by
    rw [BlobStore.get_put] at h
    split_ifs at h
    · cases h
      exact ⟨kind, blobKind_stored hbase data _⟩
    · exact hw.kinds id blob h
  targets ref blob hvalid h := by
    rw [BlobStore.get_put, if_neg (Ne.symm (Remote.objectKey_ne_key hvalid _))] at h
    exact hw.targets ref blob hvalid h

theorem put_direct (hw : WellStored n b) {ref : String} (hvalid : validateRefName ref = .ok ())
    (id : ObjectId) :
    WellStored n (b.put (Remote.key n ref) (Bytes.ofString (RefTarget.direct id).encode) []) where
  kinds id' blob h := by
    rw [BlobStore.get_put, if_neg (Remote.objectKey_ne_key hvalid _)] at h
    exact hw.kinds id' blob h
  targets ref' blob hvalid' h := by
    rw [BlobStore.get_put] at h
    split_ifs at h
    · -- the record just written reads back as the direct target
      cases h
      exact ⟨_, by rw [Utf8.decodeLossy_ofString (RefTarget.ascii_encode_direct id),
        RefTarget.decode_encode_direct]⟩
    · exact hw.targets ref' blob hvalid' h

theorem delete (hw : WellStored n b) (k : String) : WellStored n (b.delete k) where
  kinds id blob h := by
    rw [BlobStore.get_delete] at h
    split_ifs at h
    exact hw.kinds id blob h
  targets ref blob hvalid h := by
    rw [BlobStore.get_delete] at h
    split_ifs at h
    exact hw.targets ref blob hvalid h

end WellStored

/-! ## The remote medium does not fail -/

namespace Storage

variable {n : RepoName} {s : Storage} {b : BlobStore}

/-- In a blob store that reads back, an object is found exactly when its key holds a blob. -/
theorem objectAt_isSome_remote (hm : s.medium = .remote b) (hw : WellStored n b) (id : ObjectId) :
    (objectAt n s id).isSome = (b.get (Remote.objectKey n id)).isSome := by
  rw [objectAt_remote hm]
  cases hget : b.get (Remote.objectKey n id) with
  | none => rfl
  | some blob =>
    obtain ⟨k, hk⟩ := hw.kinds id blob hget
    simp [Remote.objectAnswer, hk, Except.map, Except.toOption]

theorem remote_getObject (id : ObjectId) (hs : OnBlobStore n s) :
    ((getObject n id).run.run s).2 = s ∧
      ∀ e, ((getObject n id).run.run s).1 = .error e → e.isNotFound = true := by
  obtain ⟨b, hm, hw⟩ := hs
  rw [getObject_remote hm]
  refine ⟨rfl, fun e he => ?_⟩
  cases hget : b.get (Remote.objectKey n id) with
  | none =>
    simp only [hget, Remote.objectAnswer, Except.error.injEq] at he
    subst he
    rfl
  | some blob =>
    obtain ⟨k, hk⟩ := hw.kinds id blob hget
    simp [hget, Remote.objectAnswer, hk, Except.map] at he

theorem remote_objectAt_some {id : ObjectId} {o : GitObject} (hs : OnBlobStore n s)
    (h : objectAt n s id = some o) : o.id = id ∧ o.kind.isBase = true := by
  obtain ⟨b, hm, hw⟩ := hs
  rw [objectAt_remote hm] at h
  cases hget : b.get (Remote.objectKey n id) with
  | none => simp [hget, Remote.objectAnswer, Except.toOption] at h
  | some blob =>
    cases hk : Remote.blobKind blob .blob with
    | error e => simp [hget, Remote.objectAnswer, hk, Except.map, Except.toOption] at h
    | ok k =>
      simp only [hget, Remote.objectAnswer, hk, Except.map, Except.toOption, Option.some.injEq] at h
      rw [← h]
      exact ⟨rfl, blobKind_isBase hk rfl⟩

theorem remote_putObject (kind : ObjectKind) (data : Bytes) (hs : OnBlobStore n s)
    (hbase : kind.isBase = true) :
    ∃ s', (putObject n kind data).run.run s = (.ok (ObjectId.ofObject kind data), s') ∧
      OnBlobStore n s' ∧
      (∀ id, objectAt n s' id = if id = ObjectId.ofObject kind data then
        (objectAt n s id).or (some (.ofContent kind data)) else objectAt n s id) ∧
      targetAt n s' = targetAt n s := by
  obtain ⟨b, hm, hw⟩ := hs
  by_cases hK : (b.get (Remote.objectKey n (ObjectId.ofObject kind data))).isSome
  · -- the id is taken: nothing is written
    refine ⟨s, ?_, ⟨b, hm, hw⟩, fun id => ?_, rfl⟩
    · rw [putObject_remote hm, if_pos hK, with_medium_eq hm]
    · split_ifs with hid
      · subst hid
        have hfound : (objectAt n s (ObjectId.ofObject kind data)).isSome := by
          rw [objectAt_isSome_remote hm hw]
          exact hK
        obtain ⟨o, ho⟩ := Option.isSome_iff_exists.mp hfound
        rw [ho]
        rfl
      · rfl
  · -- the object is written under its id, with its kind
    have hw' := hw.put_object hbase data
    have hnone : b.get (Remote.objectKey n (ObjectId.ofObject kind data)) = none := by
      simpa using hK
    refine ⟨{ s with medium := .remote _ }, ?_, ⟨_, rfl, hw'⟩, fun id => ?_, ?_⟩
    · rw [putObject_remote hm, if_neg hK]
    · rw [objectAt_remote rfl, objectAt_remote hm, BlobStore.get_put]
      by_cases hid : id = ObjectId.ofObject kind data
      · subst hid
        simp [hnone, Remote.objectAnswer, blobKind_stored hbase, Except.map, Except.toOption,
          GitObject.ofContent]
      · rw [if_neg (fun h => hid (Remote.objectKey_injective h)), if_neg hid]
    · refine targetAt_congr hm rfl hw hw' fun ref hvalid => ?_
      rw [BlobStore.get_put, if_neg (Ne.symm (Remote.objectKey_ne_key hvalid _))]

theorem remote_setDirect (ref : String) (id : ObjectId) (hs : OnBlobStore n s)
    (hvalid : validateRefName ref = .ok ()) :
    ∃ s', (setReference n ⟨ref, .direct id⟩).run.run s = (.ok (), s') ∧ OnBlobStore n s' ∧
      objectAt n s' = objectAt n s ∧
      targetAt n s' = Function.update (targetAt n s) ref (some (.direct id)) := by
  obtain ⟨b, hm, hw⟩ := hs
  have hw' := hw.put_direct hvalid id
  refine ⟨{ s with medium := .remote _ }, ?_, ⟨_, rfl, hw'⟩, ?_, ?_⟩
  · unfold setReference
    rw [run_onMedium_remote _ _ hm, Remote.run_setReference _ hvalid]
  · refine objectAt_congr hm rfl fun id' => ?_
    rw [BlobStore.get_put, if_neg (Remote.objectKey_ne_key hvalid _)]
  · funext ref'
    rw [targetAt_remote rfl hw']
    by_cases href : ref' = ref
    · -- the record just written reads back as the direct target
      subst href
      rw [Function.update_self]
      simp [hvalid, Except.toOption, Remote.targetView,
        Utf8.decodeLossy_ofString (RefTarget.ascii_encode_direct id), RefTarget.decode_encode_direct]
    · rw [Function.update_of_ne href, targetAt_remote hm hw]
      have hkey : Remote.key n ref' ≠ Remote.key n ref := fun h => href (Remote.key_injective h)
      simp [Remote.targetView, hkey]

theorem remote_deleteReference (ref : String) (hs : OnBlobStore n s)
    (hvalid : validateRefName ref = .ok ()) (hthere : targetAt n s ref ≠ none) :
    ∃ s', (deleteReference n ref).run.run s = (.ok (), s') ∧ OnBlobStore n s' ∧
      objectAt n s' = objectAt n s ∧ targetAt n s' = Function.update (targetAt n s) ref none := by
  obtain ⟨b, hm, hw⟩ := hs
  have hw' := hw.delete (Remote.key n ref)
  -- a reference that is there has a blob under its key
  have hget : (b.get (Remote.key n ref)).isSome := by
    rw [targetAt_remote hm hw, hvalid] at hthere
    cases h : b.get (Remote.key n ref) <;> simp_all [Except.toOption, Remote.targetView]
  refine ⟨{ s with medium := .remote _ }, ?_, ⟨_, rfl, hw'⟩, ?_, ?_⟩
  · unfold deleteReference
    rw [run_onMedium_remote _ _ hm, Remote.run_deleteReference hvalid hget]
  · refine objectAt_congr hm rfl fun id' => ?_
    rw [BlobStore.get_delete, if_neg (Remote.objectKey_ne_key hvalid _)]
  · funext ref'
    rw [targetAt_remote rfl hw']
    by_cases href : ref' = ref
    · subst href
      rw [Function.update_self]
      simp [Remote.targetView]
    · rw [Function.update_of_ne href, targetAt_remote hm hw]
      have hkey : Remote.key n ref' ≠ Remote.key n ref := fun h => href (Remote.key_injective h)
      simp [Remote.targetView, hkey]

end Storage

/-- **A blob store that reads back is storage that does not fail.** -/
theorem remote_reliable (n : RepoName) : Storage.Reliable n (Storage.OnBlobStore n) where
  getObject id hs := Storage.remote_getObject id hs
  objectAt_some hs h := Storage.remote_objectAt_some hs h
  hasObject id hs := by
    obtain ⟨b, hm, hw⟩ := hs
    rw [Storage.hasObject_remote hm, Storage.objectAt_isSome_remote hm hw]
  putObject kind data hs hbase := Storage.remote_putObject kind data hs hbase
  currentTarget ref hs hvalid := by
    obtain ⟨b, hm, hw⟩ := hs
    rw [Storage.currentTarget_remote hm hw hvalid, Storage.targetAt_remote hm hw, hvalid]
    rfl
  setDirect ref id hs hvalid := Storage.remote_setDirect ref id hs hvalid
  deleteReference ref hs hvalid hthere := Storage.remote_deleteReference ref hs hvalid hthere

end GitServer
