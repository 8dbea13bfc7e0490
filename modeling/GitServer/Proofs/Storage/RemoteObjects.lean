import GitServer.Proofs.Storage.ObjectMap
import GitServer.Proofs.Storage.RemoteListing
import Mathlib

/-!
# Objects in a blob store

A blob store keeps each object of a repository under its key `objects/<two digits>/<the rest>`,
with its content as the blob and its kind in the metadata (`Remote.objectBlob`). The keys of
a repository's objects hold the map `O` (`Remote.HoldsObjects`) when every object of the map
is there as its blob and every key under `objects/` whose digits read as an id is that id's
key; the marker `objects/.keep` a new repository writes reads as no id.

The listing walks the keys under `objects/` in order. Keys of one repository sort as the ids
they name (`Remote.lt_of_objectKey_lt`): the digits keep the order of the bytes, and the
slash after the first two stands at the same place in every key. So the listing lists the map
(`HoldsObjects.run_iterateObjects`), and the blob store keeps the laws of a content-addressed
map across the repository's life (`Storage.remote_lifeLaws`).
-/

namespace GitServer

/-! ## The order of object keys -/

namespace Hex

theorem digitChar_lt_digitChar_iff {a b : Nat} (ha : a < 16) (hb : b < 16) :
    digitChar a < digitChar b ↔ a < b := by
  revert a
  revert b
  decide

theorem digitChar_injective {a b : Nat} (ha : a < 16) (hb : b < 16)
    (h : digitChar a = digitChar b) : a = b := by
  revert h
  revert a
  revert b
  decide

theorem digitChar_ne_slash {a : Nat} (ha : a < 16) : digitChar a ≠ '/' := by
  revert a
  decide

/-- **Digits keep the order of bytes**: of two byte strings of one length, the one whose
digits come first comes first. -/
theorem compare_eq_lt_of_lex :
    ∀ {a b : Bytes}, a.length = b.length →
      List.Lex (· < ·) (a.flatMap byteChars) (b.flatMap byteChars) → Bytes.compare a b = .lt
  | [], [], _, h => by cases h
  | [], _ :: _, hlen, _ => by simp at hlen
  | _ :: _, [], hlen, _ => by simp at hlen
  | x :: xs, y :: ys, hlen, h => by
    have hx := x.toNat_lt
    have hy := y.toNat_lt
    simp only [List.flatMap_cons, byteChars, List.cons_append, List.nil_append,
      List.cons_lex_cons_iff] at h
    rw [Bytes.compare]
    -- the high digit decides, or else the low one, or else the bytes are equal
    rcases h with hhi | ⟨hhi, hlo | ⟨hlo, hrest⟩⟩
    · have : x.toNat / 16 < y.toNat / 16 := (digitChar_lt_digitChar_iff (by omega) (by omega)).mp hhi
      rw [Std.compare_eq_lt.mpr (UInt8.lt_iff_toNat_lt.mpr (by omega))]
    · have h1 := digitChar_injective (by omega) (by omega) hhi
      have : x.toNat % 16 < y.toNat % 16 := (digitChar_lt_digitChar_iff (by omega) (by omega)).mp hlo
      rw [Std.compare_eq_lt.mpr (UInt8.lt_iff_toNat_lt.mpr (by omega))]
    · have h1 := digitChar_injective (by omega) (by omega) hhi
      have h2 := digitChar_injective (by omega) (by omega) hlo
      have hxy : x = y := UInt8.toNat_inj.mp (by omega)
      subst hxy
      rw [Std.compare_self]
      exact compare_eq_lt_of_lex (by simpa using hlen) hrest

end Hex

namespace ObjectId

theorem slash_not_mem_toHex (id : ObjectId) : '/' ∉ id.toHex.toList := by
  rw [toHex, Hex.toList_encode, List.mem_flatMap]
  rintro ⟨b, -, hb⟩
  have := b.toNat_lt
  simp only [Hex.byteChars, List.mem_cons, List.not_mem_nil, or_false] at hb
  rcases hb with h | h
  · exact Hex.digitChar_ne_slash (by omega) h.symm
  · exact Hex.digitChar_ne_slash (by omega) h.symm

/-- Ids whose digits come first come first. -/
theorem lt_of_lex_toHex {a b : ObjectId} (h : List.Lex (· < ·) a.toHex.toList b.toHex.toList) :
    a.lt b = true := by
  rw [toHex, toHex, Hex.toList_encode, Hex.toList_encode] at h
  simp only [ObjectId.lt, beq_iff_eq]
  exact Hex.compare_eq_lt_of_lex (a.length_bytes.trans b.length_bytes.symm) h

end ObjectId

section Lex

variable {r : Char → Char → Prop} [Std.Irrefl r]

/-- A common beginning does not decide the order. -/
theorem lex_of_lex_append_left :
    ∀ (c : List Char) {x y : List Char}, List.Lex r (c ++ x) (c ++ y) → List.Lex r x y
  | [], _, _, h => h
  | a :: c, _, _, h => by
    rcases List.cons_lex_cons_iff.mp h with h | ⟨-, h⟩
    · exact absurd h (Std.Irrefl.irrefl a)
    · exact lex_of_lex_append_left c h

/-- A character standing at the same place in both lists does not decide the order. -/
theorem lex_of_lex_insert (m : Char) :
    ∀ {x x' y y' : List Char}, x.length = x'.length →
      List.Lex r (x ++ m :: y) (x' ++ m :: y') → List.Lex r (x ++ y) (x' ++ y')
  | [], [], _, _, _, h => by
    rcases List.cons_lex_cons_iff.mp h with h | ⟨-, h⟩
    · exact absurd h (Std.Irrefl.irrefl m)
    · exact h
  | [], _ :: _, _, _, hlen, _ => by simp at hlen
  | _ :: _, [], _, _, hlen, _ => by simp at hlen
  | a :: x, a' :: x', y, y', hlen, h => by
    simp only [List.cons_append] at h ⊢
    rcases List.cons_lex_cons_iff.mp h with hlt | ⟨heq, hrest⟩
    · exact List.Lex.rel hlt
    · subst heq
      exact List.Lex.cons (lex_of_lex_insert m (by simpa using hlen) hrest)

end Lex

namespace Remote

variable {n : RepoName}

theorem toList_objectKey (n : RepoName) (id : ObjectId) :
    (objectKey n id).toList =
      (key n "objects/").toList ++ (id.fanout.1.toList ++ '/' :: id.fanout.2.toList) := by
  simp [objectKey, key, String.toList_append]

/-- **The object keys of a repository sort as their ids.** -/
theorem lt_of_objectKey_lt {a b : ObjectId} (h : objectKey n a < objectKey n b) : a.lt b = true := by
  rw [String.lt_iff_toList_lt, toList_objectKey, toList_objectKey] at h
  have h' := lex_of_lex_insert '/' (by rw [ObjectId.length_fanout_fst, ObjectId.length_fanout_fst])
    (lex_of_lex_append_left _ h)
  rw [← String.toList_append, ← String.toList_append, ObjectId.fanout_append,
    ObjectId.fanout_append] at h'
  exact ObjectId.lt_of_lex_toHex h'

/-! ## Reading ids from keys -/

/-- The blob a blob store keeps for an object: its content, with its kind in the metadata. -/
def objectBlob (k : ObjectKind) (d : Bytes) : StoredBlob := ⟨d, [(typeKey, k.name)]⟩

/-- The digits the listing of repository `n`'s objects reads an id from: what follows the
objects prefix in a key, without its slashes. -/
def keyDigits (n : RepoName) (k : String) : String :=
  String.ofList ((k.toList.drop (key n "objects/").length).filter (· != '/'))

theorem keyDigits_objectKey (n : RepoName) (id : ObjectId) :
    keyDigits n (objectKey n id) = id.toHex := by
  have hnone : ∀ c ∈ id.fanout.1.toList ++ id.fanout.2.toList, (c != '/') = true := by
    intro c hc
    rw [← String.toList_append, ObjectId.fanout_append] at hc
    exact bne_iff_ne.mpr fun h => id.slash_not_mem_toHex (h ▸ hc)
  rw [keyDigits, toList_objectKey, ← String.length_toList, List.drop_left,
    show id.fanout.1.toList ++ '/' :: id.fanout.2.toList =
      id.fanout.1.toList ++ ['/'] ++ id.fanout.2.toList by simp,
    List.filter_append, List.filter_append, List.filter_singleton]
  simp only [bne_self_eq_false, cond_false, List.append_nil]
  rw [← List.filter_append, List.filter_eq_self.mpr hnone, ← String.toList_append,
    ObjectId.fanout_append, String.ofList_toList]

/-- The marker a new repository writes among its objects reads as no id. -/
theorem parse_keyDigits_keep (n : RepoName) (id : ObjectId) :
    ObjectId.parse (keyDigits n (key n "objects/.keep")) ≠ .ok id := by
  have hdigits : keyDigits n (key n "objects/.keep") = ".keep" := by
    have hkey : (key n "objects/.keep").toList = (key n "objects/").toList ++ ".keep".toList := by
      simp [key, String.toList_append]
    rw [keyDigits, hkey, ← String.length_toList, List.drop_left]
    rfl
  rw [hdigits]
  have hlen : (Bytes.ofString ".keep").length = 5 := by rw [Bytes.ofString_literal rfl]; rfl
  simp [ObjectId.parse, hlen]

/-! ## The objects of a repository -/

/-- The objects of repository `n` in blob store `b` hold the map `O`: the keys are in order and
a page lists at least one item; each id's key holds the blob of the object the map files under
it, and nothing where the map files none; and a key under `objects/` whose digits read as an id
is the key of that id. -/
structure HoldsObjects (n : RepoName) (O : ObjMap) (b : BlobStore) : Prop where
  sorted : b.Sorted
  pageSize_pos : 0 < b.pageSize
  kept : O.Kept
  blobs : ∀ id, b.get (objectKey n id) = (O id).map fun x => objectBlob x.1 x.2
  keys : ∀ k ∈ b.under (key n "objects/"), ∀ id, ObjectId.parse (keyDigits n k) = .ok id →
    k = objectKey n id

theorem blobKind_objectBlob {k : ObjectKind} (hk : k.isBase = true) (d : Bytes)
    (fallback : ObjectKind) : blobKind (objectBlob k d) fallback = .ok k := by
  rw [objectBlob, ← sortMetadata_singleton]
  exact blobKind_stored hk d fallback

theorem objectKey_startsWith (n : RepoName) (id : ObjectId) :
    (objectKey n id).startsWith (key n "objects/") := by
  rw [String.startsWith_string_iff, toList_objectKey]
  exact List.prefix_append _ _

theorem mem_under_objectKey {b : BlobStore} {id : ObjectId} (h : b.get (objectKey n id) ≠ none) :
    objectKey n id ∈ b.under (key n "objects/") :=
  List.mem_filter.mpr ⟨by simpa [get_eq_none_iff] using h, objectKey_startsWith n id⟩

/-- What the listing gathers from the key `k` over a store whose objects hold `O`: the object
the key's digits name, when the map files one of the kind asked for. -/
def gathered (n : RepoName) (O : ObjMap) (f : Option ObjectKind) (k : String) : List GitObject :=
  match ObjectId.parse (keyDigits n k) with
  | .ok id =>
    match O id with
    | some (kind, d) => if f.all (· == kind) then [⟨kind, d, id⟩] else []
    | none => []
  | .error _ => []

theorem mem_gathered {O : ObjMap} {f : Option ObjectKind} {k : String} {o : GitObject} :
    o ∈ gathered n O f k ↔ ObjectId.parse (keyDigits n k) = .ok o.id ∧
      O o.id = some (o.kind, o.data) ∧ f.all (· == o.kind) = true := by
  unfold gathered
  cases hp : ObjectId.parse (keyDigits n k) with
  | error e => simp
  | ok id =>
    simp only [Except.ok.injEq]
    cases hO : O id with
    | none =>
      simp only [List.not_mem_nil, false_iff, not_and]
      rintro rfl h
      simp [hO] at h
    | some x =>
      obtain ⟨kind, d⟩ := x
      simp only []
      split_ifs with hf
      · simp only [List.mem_singleton]
        constructor
        · rintro rfl
          exact ⟨rfl, hO, hf⟩
        · rintro ⟨rfl, h, -⟩
          rw [hO] at h
          cases h
          rfl
      · simp only [List.not_mem_nil, false_iff, not_and]
        rintro rfl h
        rw [hO] at h
        cases h
        exact hf

namespace HoldsObjects

variable {O : ObjMap} {b : BlobStore}

/-- **Reading an object answers the map**, whatever kind the reader expects. -/
theorem run_getObjectAs (h : HoldsObjects n O b) (id : ObjectId) (fallback : ObjectKind) :
    (getObjectAs n id fallback).run.run b = (O.read id, b) := by
  rw [Remote.run_getObjectAs, h.blobs id]
  cases hO : O id with
  | none => simp [objectAnswer, ObjMap.read, hO]
  | some x =>
    obtain ⟨k, d⟩ := x
    simp [objectAnswer, blobKind_objectBlob (h.kept id k d hO).1, ObjMap.read, hO, Except.map]
    rfl

theorem run_hasObject (h : HoldsObjects n O b) (id : ObjectId) :
    (hasObject n id).run.run b = (.ok (O id).isSome, b) := by
  rw [hasObject, run_has, h.blobs id]
  cases O id <;> rfl

/-- **Storing a kept object answers its id and files it**; no other key changes. -/
theorem run_putObject (h : HoldsObjects n O b) {k : ObjectKind} {d : Bytes} (hk : k.isBase = true)
    (hd : d.length < 2 ^ 64) :
    ∃ b', (putObject n k d).run.run b = (.ok (ObjectId.ofObject k d), b') ∧
      HoldsObjects n (O.put k d) b' ∧ ∀ k', k' ≠ objectKey n (ObjectId.ofObject k d) → b'.get k' = b.get k' := by
  set id := ObjectId.ofObject k d with hid
  rw [Remote.run_putObject]
  by_cases hthere : (b.get (objectKey n id)).isSome
  · -- an object is filed under the id already: it stays, and so does the store
    have hO : O.put k d = O := by
      funext id'
      rw [ObjMap.put_apply]
      split_ifs with h'
      · subst h'
        rw [h.blobs] at hthere
        obtain ⟨x, hx⟩ := Option.isSome_iff_exists.mp (by simpa using hthere)
        rw [hx, Option.some_or]
      · rfl
    rw [if_pos hthere, hO]
    exact ⟨b, rfl, h, fun _ _ => rfl⟩
  · have hnone : O id = none := by simpa [h.blobs] using hthere
    rw [if_neg hthere]
    refine ⟨_, rfl, ⟨h.sorted.put _ _ _, h.pageSize_pos, h.kept.put hk hd, fun id' => ?_,
      fun k' hk' id' hp => ?_⟩, fun k' hk' => by rw [BlobStore.get_put, if_neg hk']⟩
    · rw [BlobStore.get_put, ObjMap.put_apply]
      by_cases h' : id' = id
      · subst h'
        rw [if_pos rfl, if_pos rfl, hnone, sortMetadata_singleton]
        rfl
      · rw [if_neg (fun he => h' (objectKey_injective he)), if_neg h', h.blobs]
    · obtain ⟨hmem, hpre⟩ := List.mem_filter.mp hk'
      rcases BlobStore.mem_keys_insertSorted hmem with rfl | hold
      · rw [keyDigits_objectKey, ObjectId.parse_toHex] at hp
        cases hp
        rfl
      · exact h.keys k' (List.mem_filter.mpr ⟨hold, hpre⟩) id' hp

/-- **Removing an object the map files drops it.** -/
theorem run_deleteObject (h : HoldsObjects n O b) {id : ObjectId} (hO : O id ≠ none) :
    (deleteObject n id).run.run b = (.ok (), b.delete (objectKey n id)) ∧
      HoldsObjects n (Function.update O id none) (b.delete (objectKey n id)) := by
  have hthere : (b.get (objectKey n id)).isSome = true := by
    rw [h.blobs]
    cases hx : O id with
    | none => exact absurd hx hO
    | some x => rfl
  refine ⟨?_, h.sorted.delete _, h.pageSize_pos, h.kept.erase id, fun id' => ?_,
    fun k' hk' id' hp => ?_⟩
  · unfold deleteObject
    rw [run_bind_of_ok (run_has _ b), hthere]
    exact run_remove _ b
  · rw [BlobStore.get_delete]
    by_cases h' : id' = id
    · subst h'
      simp
    · rw [if_neg (fun he => h' (objectKey_injective he)), Function.update_of_ne h', h.blobs]
  · obtain ⟨hmem, hpre⟩ := List.mem_filter.mp hk'
    have hold : k' ∈ b.keys := (List.mem_map.mp hmem).elim fun e he =>
      List.mem_map.mpr ⟨e, (List.mem_filter.mp he.1).1, he.2⟩
    exact h.keys k' (List.mem_filter.mpr ⟨hold, hpre⟩) id' hp

/-- Removing an object the map does not file fails as absent and changes nothing. -/
theorem run_deleteObject_absent (h : HoldsObjects n O b) {id : ObjectId} (hO : O id = none) :
    (deleteObject n id).run.run b = (.error (.notFound ("object " ++ id.toHex)), b) := by
  unfold deleteObject
  rw [run_bind_of_ok (run_has _ b), h.blobs, hO]
  rfl

theorem get_ne_none_of_mem_under {k : String} (hk : k ∈ b.under (key n "objects/")) :
    b.get k ≠ none := by
  rw [Ne, get_eq_none_iff, not_not]
  exact (List.mem_filter.mp hk).1

/-- **The listing lists the map**: the objects of the kind asked for, each once, in increasing
order of id. It changes nothing. -/
theorem run_iterateObjects (h : HoldsObjects n O b) (f : Option ObjectKind) :
    (iterateObjects n f).run.run b =
        (.ok ((b.under (key n "objects/")).flatMap (gathered n O f)), b) ∧
      O.Listed f ((b.under (key n "objects/")).flatMap (gathered n O f)) := by
  refine ⟨?_, ?_, fun o => ?_⟩
  · unfold iterateObjects
    rw [run_bind_of_ok (rfl : (get : RemoteM BlobStore).run.run b = (.ok b, b)),
      BlobStore.listAll_eq h.sorted h.pageSize_pos,
      run_bind_of_ok (run_forIn_flatMap _ (gathered n O f) _ b ?step)]
    · rfl
    -- each key gathers the object its digits name, read back from its blob
    intro k hk acc
    have hget := get_ne_none_of_mem_under hk
    cases hp : ObjectId.parse (keyDigits n k) with
    | error e =>
      have hg : gathered n O f k = [] := by simp [gathered, hp]
      rw [hg, List.append_nil]
      simp only [keyDigits] at hp
      simp only [hp]
      rfl
    | ok id =>
      obtain rfl := h.keys k hk id hp
      rw [h.blobs] at hget
      obtain ⟨⟨kind, d⟩, hO⟩ := Option.ne_none_iff_exists'.mp (by simpa using hget)
      have hread : O.read id = .ok ⟨kind, d, id⟩ := ObjMap.read_of_some hO
      have hg : gathered n O f (objectKey n id) =
          if f.all (· == kind) then [⟨kind, d, id⟩] else [] := by
        simp [gathered, hp, hO]
      rw [hg]
      simp only [keyDigits] at hp
      simp only [hp]
      rw [run_bind_of_ok ((h.run_getObjectAs id _).trans (by rw [hread]))]
      split_ifs
      · rfl
      · rw [List.append_nil]
        rfl
  · -- keys come in order, and the keys of objects in the order of their ids
    rw [List.pairwise_flatMap]
    refine ⟨fun k _ => ?_, (BlobStore.pairwise_under h.sorted).imp_of_mem fun {k₁ k₂} hk₁ hk₂ hlt => ?_⟩
    · unfold gathered
      split
      · split
        · split_ifs <;> simp
        · simp
      · simp
    · intro x hx y hy
      obtain ⟨hpx, -, -⟩ := mem_gathered.mp hx
      obtain ⟨hpy, -, -⟩ := mem_gathered.mp hy
      rw [h.keys k₁ hk₁ _ hpx, h.keys k₂ hk₂ _ hpy] at hlt
      exact lt_of_objectKey_lt hlt
  · rw [List.mem_flatMap]
    constructor
    · rintro ⟨k, -, hk⟩
      exact (mem_gathered.mp hk).2
    · rintro ⟨hO, hf⟩
      have hget : b.get (objectKey n o.id) ≠ none := by simp [h.blobs, hO]
      refine ⟨objectKey n o.id, mem_under_objectKey hget, mem_gathered.mpr ⟨?_, hO, hf⟩⟩
      rw [keyDigits_objectKey, ObjectId.parse_toHex]

/-- Storing a blob under a key outside `objects/` keeps the objects. -/
theorem put_other (h : HoldsObjects n O b) {k : String} (hk : ¬ k.startsWith (key n "objects/"))
    (data : Bytes) (md : List (String × String)) : HoldsObjects n O (b.put k data md) where
  sorted := h.sorted.put k data md
  pageSize_pos := h.pageSize_pos
  kept := h.kept
  blobs id := by
    have hne : objectKey n id ≠ k := by
      rintro rfl
      exact hk (objectKey_startsWith n id)
    rw [BlobStore.get_put, if_neg hne, h.blobs]
  keys k' hk' id hp := by
    obtain ⟨hmem, hpre⟩ := List.mem_filter.mp hk'
    rcases BlobStore.mem_keys_insertSorted hmem with rfl | hold
    · exact absurd hpre hk
    · exact h.keys k' (List.mem_filter.mpr ⟨hold, hpre⟩) id hp

end HoldsObjects

/-! ## Creating and deleting a repository -/

/-- The record keys of a repository other than its objects lie outside `objects/`. -/
theorem key_not_startsWith_objects {rel : String} (hrel : ¬ "objects/".toList <+: rel.toList) :
    ¬ (key n rel).startsWith (key n "objects/") := by
  rw [String.startsWith_string_iff]
  simp only [key, String.toList_append, List.prefix_append_right_inj]
  exact hrel

theorem ref_not_startsWith_objects {ref : String} (hvalid : validateRefName ref = .ok ()) :
    ¬ (key n ref).startsWith (key n "objects/") := by
  apply key_not_startsWith_objects
  rcases head_or_refs_of_valid hvalid with rfl | ⟨t, ht⟩
  · simp [headName]
  · rw [← ht]
    simp

/-- **Seeding stores the objects a new repository starts with**, and writes its `HEAD`. -/
theorem HoldsObjects.run_seedContent {O : ObjMap} {b : BlobStore} (h : HoldsObjects n O b)
    (o : InitOptions) (now : Int)
    (hbranch : o.initialCommit = true → validateRefName o.branchRef = .ok ())
    (hsizes : ∀ x ∈ (initialContent n o now).1, x.data.length < 2 ^ 64) :
    ∃ b', (seedContent n o now).run.run b = (.ok (), b') ∧
      HoldsObjects n ((initialContent n o now).1.foldl (fun O x => O.put x.kind x.data) O) b' ∧
      b'.get (key n headName) ≠ none := by
  have hbase : ∀ x ∈ (initialContent n o now).1, x.kind.isBase = true :=
    fun x hx => isBase_of_mem_initialContent hx
  unfold seedContent
  generalize hic : initialContent n o now = ic at hsizes hbase ⊢
  obtain ⟨objects, commit⟩ := ic
  -- the objects go first, each filed in turn
  obtain ⟨b₁, hrun₁, h₁⟩ := run_forIn_fold (HoldsObjects n) (fun O x => O.put x.kind x.data)
    (fun (x : GitObject) (_ : PUnit) => (do
      let _ ← putObject n x.kind x.data
      pure (ForInStep.yield PUnit.unit) : RemoteM (ForInStep PUnit)))
    objects (fun x hx O' b' hb => by
      obtain ⟨b'', hrun, hb'', -⟩ := hb.run_putObject (hbase x hx) (hsizes x hx)
      exact ⟨b'', by rw [run_bind_of_ok hrun]; rfl, hb''⟩) O b h
  simp only []
  rw [run_bind_of_ok hrun₁]
  have hhead : ∀ b' : BlobStore, (b'.put (key n headName)
      (Bytes.ofString (RefTarget.symbolic o.branchRef).encode) []).get (key n headName) ≠ none := by
    intro b'
    simp
  -- then the references, outside `objects/`
  cases commit with
  | none =>
    exact ⟨_, run_setReference _ rfl, h₁.put_other (ref_not_startsWith_objects rfl) _ _, hhead _⟩
  | some c =>
    have hvalid : validateRefName o.branchRef = .ok () := by
      apply hbranch
      rw [← initialContent_snd_isSome n o now, hic]
      rfl
    exact ⟨_, by rw [run_bind_of_ok (run_setReference _ hvalid)]; exact run_setReference _ rfl,
      (h₁.put_other (ref_not_startsWith_objects hvalid) _ _).put_other
        (ref_not_startsWith_objects rfl) _ _, hhead _⟩

/-- Repository `n` can be created in blob store `b`: the keys are in order, a page lists at
least one item, and no key of the repository is taken. -/
structure Vacant (n : RepoName) (b : BlobStore) : Prop where
  sorted : b.Sorted
  pageSize_pos : 0 < b.pageSize
  free : ∀ k, k.startsWith (repoPrefix n) → b.get k = none

/-- **Creating a repository none of whose keys is taken** succeeds and leaves it holding the
objects a new repository starts with. -/
theorem Vacant.run_create {b : BlobStore} (hv : Vacant n b) (o : InitOptions) (now : Int)
    (hbranch : o.initialCommit = true → validateRefName o.branchRef = .ok ())
    (hsizes : ∀ x ∈ (initialContent n o now).1, x.data.length < 2 ^ 64) :
    ∃ b', (create n o now).run.run b = (.ok (), b') ∧
      HoldsObjects n (initialObjects n o now) b' ∧ b'.get (key n headName) ≠ none := by
  have habsent : (exists? n).run.run b = (.ok false, b) := by
    rw [exists?, run_has, hv.free _ (startsWith_key n headName)]
    rfl
  -- before the seed: the configuration and the marker, and no object
  have hkeep : ∀ id, objectKey n id ≠ key n "objects/.keep" := by
    intro id he
    have := keyDigits_objectKey n id
    rw [he] at this
    exact parse_keyDigits_keep n id (this ▸ ObjectId.parse_toHex id)
  have hconfig : ¬ (key n "config").startsWith (key n "objects/") :=
    key_not_startsWith_objects (by simp)
  have h₀ : HoldsObjects n ObjMap.empty ((b.put (key n "config")
      (Bytes.ofString RepoConfig.default.text) []).put (key n "objects/.keep") [] []) := by
    refine ⟨(hv.sorted.put _ _ _).put _ _ _, hv.pageSize_pos, fun _ _ _ h => by simp [ObjMap.empty] at h,
      fun id => ?_, fun k hk id hp => ?_⟩
    · have hne : objectKey n id ≠ key n "config" := by
        intro he
        exact hconfig (he ▸ objectKey_startsWith n id)
      rw [BlobStore.get_put, if_neg (hkeep id), BlobStore.get_put, if_neg hne,
        hv.free (objectKey n id) (startsWith_key n _)]
      rfl
    · obtain ⟨hmem, hpre⟩ := List.mem_filter.mp hk
      rcases BlobStore.mem_keys_insertSorted hmem with rfl | hmem'
      · exact absurd hp (parse_keyDigits_keep n id)
      rcases BlobStore.mem_keys_insertSorted hmem' with rfl | hold
      · exact absurd hpre hconfig
      · have hfree := hv.free k (String.startsWith_trans (startsWith_key n _) hpre)
        rw [get_eq_none_iff] at hfree
        exact absurd hold hfree
  obtain ⟨b', hrun, h', hhead⟩ := h₀.run_seedContent o now hbranch hsizes
  refine ⟨b', ?_, h', hhead⟩
  unfold create
  rw [run_bind_of_ok habsent]
  exact hrun

/-- A blob store holding a repository's objects and references as maps reads back. -/
theorem HoldsObjects.wellStored {O : ObjMap} {M : RefMap} {b : BlobStore}
    (ho : HoldsObjects n O b) (hr : HoldsRefs n M b) (hM : M.Kept) : WellStored n b where
  kinds id blob h := by
    rw [ho.blobs id] at h
    obtain ⟨⟨k, d⟩, hO, rfl⟩ := Option.map_eq_some_iff.mp h
    exact ⟨k, blobKind_objectBlob (ho.kept id k d hO).1 d _⟩
  targets ref blob hvalid h := by
    obtain ⟨t, -, hdec⟩ := hr.decode hM hvalid h
    exact ⟨t, hdec⟩

/-- **Deleting a repository that is there** leaves none of its keys. -/
theorem HoldsObjects.run_delete {O : ObjMap} {b : BlobStore} (h : HoldsObjects n O b)
    (hhead : b.get (key n headName) ≠ none) :
    ∃ b', (delete n).run.run b = (.ok (), b') ∧ Vacant n b' := by
  refine ⟨_, run_delete_of_exists h.sorted h.pageSize_pos hhead, h.sorted.filter _,
    h.pageSize_pos, fun k hk => ?_⟩
  rw [get_filter (fun k => !k.startsWith (repoPrefix n)), hk]
  rfl

/-- Creating a repository that is there fails as existing and changes nothing. -/
theorem run_create_of_head {b : BlobStore} (hhead : b.get (key n headName) ≠ none)
    (o : InitOptions) (now : Int) :
    (create n o now).run.run b = (.error (.alreadyExists n.path), b) := by
  have hex : (exists? n).run.run b = (.ok true, b) := by
    rw [exists?, run_has, Option.isSome_iff_ne_none.mpr hhead]
  unfold create
  rw [run_bind_of_ok hex]
  rfl

/-- Deleting a repository that is not there fails as absent and changes nothing. -/
theorem Vacant.run_delete {b : BlobStore} (hv : Vacant n b) :
    (delete n).run.run b = (.error (.notFound ("repository " ++ n.path)), b) := by
  have habsent : (exists? n).run.run b = (.ok false, b) := by
    rw [exists?, run_has, hv.free _ (startsWith_key n headName)]
    rfl
  unfold delete
  rw [run_bind_of_ok habsent]
  rfl

end Remote

/-! ## The laws on a blob store -/

namespace Storage

/-- Repository `n` is kept in a blob store, is there, and its objects hold the map `O`; new
repositories start as `o` says, signed at `now`. -/
def OnBlobStoreObjects (n : RepoName) (o : InitOptions) (now : Int) (O : ObjMap) (s : Storage) :
    Prop :=
  s.init = o ∧ s.now = now ∧ ∃ b, s.medium = .remote b ∧ Remote.HoldsObjects n O b ∧
    b.get (Remote.key n headName) ≠ none

/-- Repository `n` can be created in a blob store; new repositories start as `o` says, signed
at `now`. -/
def VacantOnBlobStore (n : RepoName) (o : InitOptions) (now : Int) (s : Storage) : Prop :=
  s.init = o ∧ s.now = now ∧ ∃ b, s.medium = .remote b ∧ Remote.Vacant n b

/-- **A blob store keeps a repository's objects as a content-addressed map**, across creating
and deleting the repository. -/
theorem remote_lifeLaws (n : RepoName) (o : InitOptions) (now : Int)
    (hbranch : o.initialCommit = true → validateRefName o.branchRef = .ok ())
    (hsizes : ∀ x ∈ (initialContent n o now).1, x.data.length < 2 ^ 64) :
    LifeLaws n (initialObjects n o now) (VacantOnBlobStore n o now) (OnBlobStoreObjects n o now) where
  kept hs := by
    obtain ⟨-, -, b, -, h, -⟩ := hs
    exact h.kept
  put {O s} k d hs hk hd := by
    obtain ⟨hi, hn, b, hm, h, hhead⟩ := hs
    obtain ⟨b', hrun, h', hframe⟩ := h.run_putObject hk hd
    refine ⟨{ s with medium := .remote b' }, ?_, hi, hn, b', rfl, h', ?_⟩
    · unfold putObject
      rw [run_onMedium_remote _ _ hm, hrun]
    · rw [hframe _ (Remote.objectKey_ne_key rfl _).symm]
      exact hhead
  get {O s} id hs := by
    obtain ⟨hi, hn, b, hm, h, hhead⟩ := hs
    refine ⟨s, ?_, hi, hn, b, hm, h, hhead⟩
    unfold getObject
    rw [run_onMedium_remote _ _ hm, Remote.getObject, h.run_getObjectAs, with_medium_eq hm]
  has {O s} id hs := by
    obtain ⟨-, -, b, hm, h, -⟩ := hs
    unfold hasObject
    rw [run_onMedium_remote _ _ hm, h.run_hasObject, with_medium_eq hm]
  delete {O s id} hs hO := by
    obtain ⟨hi, hn, b, hm, h, hhead⟩ := hs
    obtain ⟨hrun, h'⟩ := h.run_deleteObject hO
    refine ⟨{ s with medium := .remote _ }, ?_, hi, hn, _, rfl, h', ?_⟩
    · unfold deleteObject
      rw [run_onMedium_remote _ _ hm, hrun]
    · rw [BlobStore.get_delete, if_neg (Remote.objectKey_ne_key rfl _).symm]
      exact hhead
  deleteAbsent {O s id} hs hO := by
    obtain ⟨-, -, b, hm, h, -⟩ := hs
    unfold deleteObject
    rw [run_onMedium_remote _ _ hm, h.run_deleteObject_absent hO, with_medium_eq hm]
  iterate {O s} f hs := by
    obtain ⟨hi, hn, b, hm, h, hhead⟩ := hs
    obtain ⟨hrun, hlisted⟩ := h.run_iterateObjects f
    refine ⟨_, s, ?_, hlisted, hi, hn, b, hm, h, hhead⟩
    unfold iterateObjects
    rw [run_onMedium_remote _ _ hm, hrun, with_medium_eq hm]
  create {s} hv := by
    obtain ⟨hi, hn, b, hm, hv⟩ := hv
    obtain ⟨b', hrun, h', hhead⟩ := hv.run_create o now hbranch hsizes
    refine ⟨{ s with medium := .remote b' }, ?_, hi, hn, b', rfl, h', hhead⟩
    rw [run_create_eq, run_onMedium_remote _ _ hm, hi, hn, hrun]
  createExisting {O s} hs := by
    obtain ⟨-, -, b, hm, -, hhead⟩ := hs
    rw [run_create_eq, run_onMedium_remote _ _ hm, Remote.run_create_of_head hhead, with_medium_eq hm]
  remove {O s} hs := by
    obtain ⟨hi, hn, b, hm, h, hhead⟩ := hs
    obtain ⟨b', hrun, hv⟩ := h.run_delete hhead
    refine ⟨{ s with medium := .remote b' }, ?_, hi, hn, b', rfl, hv⟩
    unfold delete
    rw [run_onMedium_remote _ _ hm, hrun]
  removeAbsent {s} hv := by
    obtain ⟨-, -, b, hm, hv⟩ := hv
    unfold delete
    rw [run_onMedium_remote _ _ hm, hv.run_delete, with_medium_eq hm]

end Storage

end GitServer
