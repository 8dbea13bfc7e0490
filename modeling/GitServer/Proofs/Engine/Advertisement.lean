import GitServer.Proofs.Engine.IncludeTag
import GitServer.Engine.Advertise
import Mathlib

/-!
# The reference advertisement

Every exchange starts with `infoRefs`: the references of a repository, each with the id it
resolves to, and the capabilities of the service on the first line. Over a blob store, where
each read answers the store's view (`Storage.targetAt` for references, `Storage.objectAt` for
objects), the advertisement is a function of the listing and those views:

* a symbolic reference resolves to the end of its chain in the view of references
  (`RefMap.resolveIn`), when the chain meets only valid names and ends within the lookups
  resolution makes (`RefMap.ResolvesWithin`): `run_resolve`;
* a tag is peeled by following the targets of stored tags for at most `peelDepth` steps
  (`peelIn`): `run_peelTag`;
* the listing adds `HEAD`'s id and, for every other reference, its entries (`entriesOf`):
  `run_foldlM_listReference`.

`infoRefs_advertises` puts them together: the pkt-lines sent are the service line and a flush
over HTTP, then one line per entry in listing order with `HEAD` first and the capabilities
after a NUL on the first line only, or the zero id named `capabilities^{}` when nothing is
listed, then a flush.
-/

namespace GitServer

/-! ## Following symbolic references -/

namespace RefMap

/-- The id reached by following symbolic targets from `name` for at most `k` lookups; none
when a name on the way is absent, or when the lookups run out. -/
def resolveIn (M : RefMap) : Nat → String → Option ObjectId
  | 0, _ => none
  | k + 1, name =>
    match M name with
    | some (.direct id) => some id
    | some (.symbolic next) => M.resolveIn k next
    | none => none

/-- Following symbolic targets from `name` meets only valid names and ends within `k` lookups,
that is after at most `k - 1` hops. -/
def ResolvesWithin (M : RefMap) : Nat → String → Prop
  | 0, _ => False
  | k + 1, name =>
    validateRefName name = .ok () ∧ ∀ next, M name = some (.symbolic next) → M.ResolvesWithin k next

end RefMap

namespace Storage

variable {n : RepoName} {s : Storage}

/-- **Resolution follows the view of references**, when the chain ends in time at valid
names. -/
theorem run_follow (hs : OnBlobStore n s) (origin : String) :
    ∀ k name, RefMap.ResolvesWithin (targetAt n s) k name →
      (follow n origin k name).run.run s = (.ok (RefMap.resolveIn (targetAt n s) k name), s)
  | 0, _, h => h.elim
  | k + 1, name, ⟨hvalid, hnext⟩ => by
    rw [follow, run_bind_of_ok ((remote_reliable n).currentTarget name hs hvalid), RefMap.resolveIn]
    -- the view at `name` decides whether the chain ends here
    cases ht : targetAt n s name with
    | none => rfl
    | some t =>
      cases t with
      | direct id => rfl
      | symbolic next => exact run_follow hs origin k next (hnext next ht)

/-- Every annotated tag stored in repository `n` parses. -/
def TagsParse (n : RepoName) (s : Storage) : Prop :=
  ∀ id o, objectAt n s id = some o → o.kind = .tag → ∃ t, Tag.parse o.data = .ok t

end Storage

namespace Engine

open Storage

variable {n : RepoName} {s : Storage}

/-- **Resolving a reference answers the end of its chain.** -/
theorem run_resolve (hs : OnBlobStore n s) {ref : String}
    (h : RefMap.ResolvesWithin (targetAt n s) resolveLimit ref) :
    (resolve n ref).run.run s = (.ok (RefMap.resolveIn (targetAt n s) resolveLimit ref), s) :=
  run_adapt_of_ok _ (run_follow hs ref resolveLimit ref h)

/-! ## Peeling tags -/

/-- The object reached by following annotated tags from `id` for at most `k` steps, where a
tag points at `target` of it: `peeled` when `id` is no tag. -/
def peelIn (target : ObjectId → Option ObjectId) : Nat → ObjectId → Option ObjectId → Option ObjectId
  | 0, _, peeled => peeled
  | k + 1, id, peeled =>
    match target id with
    | some next => peelIn target k next (some next)
    | none => peeled

/-- A look-up of an absent object answers none. -/
theorem run_lookup_of_none (hs : OnBlobStore n s) {id : ObjectId} (h : objectAt n s id = none) :
    (tryCatch (do pure (some (← getObject n id))) fun e =>
      match e with
      | .storage (.notFound _) => pure none
      | _ => throw e : EngineM (Option GitObject)).run.run s = (.ok none, s) := by
  obtain ⟨msg, hread⟩ := (remote_reliable n).getObject_of_none hs h
  exact run_tryCatch_of_error (run_bind_of_error (run_adapt_of_error _ hread))

/-- A look-up of a stored object answers it. -/
theorem run_lookup_of_some (hs : OnBlobStore n s) {id : ObjectId} {o : GitObject}
    (h : objectAt n s id = some o) :
    (tryCatch (do pure (some (← getObject n id))) fun e =>
      match e with
      | .storage (.notFound _) => pure none
      | _ => throw e : EngineM (Option GitObject)).run.run s = (.ok (some o), s) := by
  obtain ⟨b, hm, -⟩ := hs
  exact run_tryCatch_of_ok (run_bind_of_ok (run_getObject_of_objectAt hm h))

/-- **Peeling follows the targets of the stored tags.** -/
theorem run_peelFrom (hs : OnBlobStore n s) (htags : TagsParse n s) :
    ∀ k id peeled,
      (peelFrom n k id peeled).run.run s = (.ok (peelIn (tagTarget n s) k id peeled), s)
  | 0, _, _ => rfl
  | k + 1, id, peeled => by
    rw [peelFrom, peelIn]
    cases ho : objectAt n s id with
    | none =>
      have htarget : tagTarget n s id = none := by simp [tagTarget, ho]
      refine (run_bind_of_ok (run_lookup_of_none hs ho)).trans ?_
      rw [htarget]
      rfl
    | some o =>
      refine (run_bind_of_ok (run_lookup_of_some hs ho)).trans ?_
      dsimp only
      by_cases hkind : o.kind = .tag
      · -- a stored tag parses, is read, and the peeling goes on at its target
        obtain ⟨t, ht⟩ := htags id o ho hkind
        have htarget : tagTarget n s id = some t.object := by
          simp [tagTarget, ho, hkind, ht, Except.toOption]
        obtain ⟨b, hm, hw⟩ := hs
        obtain ⟨t', hread, hobj⟩ := run_getTag_of_tagTarget hm htarget
        rw [if_neg (not_not.mpr hkind), run_bind_of_ok hread, htarget, hobj]
        exact run_peelFrom ⟨b, hm, hw⟩ htags k t.object (some t.object)
      · have htarget : tagTarget n s id = none := by simp [tagTarget, ho, hkind]
        rw [if_pos hkind, htarget]
        rfl

/-- **Peeling a tag reference's id follows at most `peelDepth` stored tags.** -/
theorem run_peelTag (hs : OnBlobStore n s) (htags : TagsParse n s) (id : ObjectId) :
    (peelTag n id).run.run s = (.ok (peelIn (tagTarget n s) peelDepth id none), s) :=
  run_peelFrom hs htags peelDepth id none

/-! ## The listing -/

section Entries

variable (n : RepoName) (s : Storage)

/-- The id a listed reference stands for: its own for a direct one, the end of its chain for a
symbolic one. -/
def resolvedId (r : Reference) : Option ObjectId :=
  match r.target with
  | .direct id => some id
  | .symbolic _ => RefMap.resolveIn (targetAt n s) resolveLimit r.name

/-- The name a symbolic reference that resolves points at. -/
def symrefOf (r : Reference) : Option String :=
  match r.target, resolvedId n s r with
  | .symbolic t, some _ => some t
  | _, _ => none

/-- The entries a reference other than `HEAD` adds: none when it does not resolve, else its id
and, under `refs/tags/`, the object its tag finally points at. -/
def entriesOf (r : Reference) : List (ObjectId × String) :=
  match resolvedId n s r with
  | none => []
  | some id =>
    (id, r.name) :: if r.name.startsWith "refs/tags/" then
      ((peelIn (tagTarget n s) peelDepth id none).map fun p => (p, r.name ++ "^\x7b\x7d")).toList
    else []

end Entries

/-- A reference whose chain, if it is symbolic, ends in time at valid names. -/
def Resolves (n : RepoName) (s : Storage) (r : Reference) : Prop :=
  ∀ t, r.target = .symbolic t → RefMap.ResolvesWithin (targetAt n s) resolveLimit r.name

/-- **Listing `HEAD`** records its id, and the name it points at when it is symbolic and
resolves. -/
theorem run_listReference_head (hs : OnBlobStore n s) {r : Reference} (hr : Resolves n s r)
    (hname : r.name = headName) (l : Listing) :
    (listReference n l r).run.run s =
      (.ok { l with head := resolvedId n s r, symref := (symrefOf n s r).or l.symref }, s) := by
  unfold listReference symrefOf resolvedId
  cases ht : r.target with
  | direct id =>
    dsimp only
    rw [run_bind_of_ok (run_pure _ _), if_pos hname]
    rfl
  | symbolic t =>
    dsimp only
    rw [run_bind_of_ok (run_resolve hs (hr t ht)), if_pos hname]
    cases RefMap.resolveIn (targetAt n s) resolveLimit r.name <;> rfl

/-- **Listing another reference** adds its entries. -/
theorem run_listReference_other (hs : OnBlobStore n s) (htags : TagsParse n s) {r : Reference}
    (hr : Resolves n s r) (hname : r.name ≠ headName) (l : Listing) :
    (listReference n l r).run.run s =
      (.ok { l with advertised := l.advertised ++ entriesOf n s r }, s) := by
  unfold listReference entriesOf resolvedId
  cases ht : r.target with
  | direct id =>
    dsimp only
    rw [run_bind_of_ok (run_pure _ _), if_neg hname]
    dsimp only
    -- a tag reference is followed by its peeled id, when it names a tag
    by_cases htag : r.name.startsWith "refs/tags/" = true
    · rw [if_pos htag, if_pos htag, run_bind_of_ok (run_peelTag hs htags id)]
      cases peelIn (tagTarget n s) peelDepth id none <;> simp <;> rfl
    · rw [if_neg htag, if_neg htag]
      simp
      rfl
  | symbolic t =>
    dsimp only
    rw [run_bind_of_ok (run_resolve hs (hr t ht)), if_neg hname]
    cases RefMap.resolveIn (targetAt n s) resolveLimit r.name with
    | none =>
      simp
      rfl
    | some id =>
      dsimp only
      by_cases htag : r.name.startsWith "refs/tags/" = true
      · rw [if_pos htag, if_pos htag, run_bind_of_ok (run_peelTag hs htags id)]
        cases peelIn (tagTarget n s) peelDepth id none <;> simp <;> rfl
      · rw [if_neg htag, if_neg htag]
        simp
        rfl

/-- **Listing the references other than `HEAD`** adds their entries, in order. -/
theorem run_foldlM_others (hs : OnBlobStore n s) (htags : TagsParse n s) :
    ∀ (others : List Reference) (l : Listing),
      (∀ r ∈ others, r.name ≠ headName ∧ Resolves n s r) →
      (others.foldlM (listReference n) l).run.run s =
        (.ok { l with advertised := l.advertised ++ others.flatMap (entriesOf n s) }, s)
  | [], l, _ => by
    rw [List.foldlM_nil, List.flatMap_nil, List.append_nil]
    rfl
  | r :: rest, l, hrefs => by
    obtain ⟨hname, hr⟩ := hrefs r List.mem_cons_self
    rw [List.foldlM_cons, run_bind_of_ok (run_listReference_other hs htags hr hname l),
      run_foldlM_others hs htags rest _ fun r' hr' => hrefs r' (List.mem_cons_of_mem r hr')]
    simp

/-- **The listing**: `HEAD`'s id, the name it points at when it is symbolic and resolves, and
the entries of the other references in order. -/
theorem run_foldlM_listReference (hs : OnBlobStore n s) (htags : TagsParse n s)
    {head? : Option Reference} {others : List Reference}
    (hhead : ∀ h ∈ head?, h.name = headName ∧ Resolves n s h)
    (hothers : ∀ r ∈ others, r.name ≠ headName ∧ Resolves n s r) :
    ((head?.toList ++ others).foldlM (listReference n) {}).run.run s =
      (.ok ⟨head?.bind (resolvedId n s), head?.bind (symrefOf n s),
        others.flatMap (entriesOf n s)⟩, s) := by
  cases head? with
  | none =>
    rw [Option.toList_none, List.nil_append, run_foldlM_others hs htags others {} hothers]
    rfl
  | some h =>
    obtain ⟨hname, hr⟩ := hhead h rfl
    rw [Option.toList_some, List.singleton_append, List.foldlM_cons,
      run_bind_of_ok (run_listReference_head hs hr hname {}),
      run_foldlM_others hs htags others _ hothers]
    simp

/-! ## The advertisement -/

/-- The capabilities a service advertises: its fixed list, the agent, the object format, and
the branch `HEAD` points at when there is one. -/
def capabilities (service : Wire.Service) (symref : Option String) : String :=
  serviceCapabilities service ++ " agent=" ++ agent ++ " object-format=sha1" ++
    (symref.map (" symref=HEAD:" ++ ·)).getD ""

/-- The lines advertising the given entries: one line each, the first with the capabilities
after a NUL, or the zero id named `capabilities^{}` alone when there is no entry. -/
def advertLines (caps : String) : List (ObjectId × String) → List String
  | [] => [ObjectId.zero.toHex ++ " " ++ "capabilities^\x7b\x7d" ++ "\x00" ++ caps ++ "\n"]
  | (id, name) :: rest =>
    (id.toHex ++ " " ++ name ++ "\x00" ++ caps ++ "\n") :: rest.map fun e => e.1.toHex ++ " " ++ e.2 ++ "\n"

/-- **The advertisement of a blob store**: after the line naming the service and a flush over
HTTP, one line for `HEAD` when it resolves and then for each entry of the other references in
listing order, the capabilities after a NUL on the first line only, or the zero id named
`capabilities^{}` when nothing is listed; then a flush. `HEAD`'s target is advertised exactly
when it is symbolic and resolves. The store is left as it was. -/
theorem infoRefs_advertises (hs : OnBlobStore n s) (htags : TagsParse n s)
    {head? : Option Reference} {others : List Reference}
    (hrefs : ((refs n).run.run s).1 = .ok (head?.toList ++ others))
    (hhead : ∀ h ∈ head?, h.name = headName ∧ Resolves n s h)
    (hothers : ∀ r ∈ others, r.name ≠ headName ∧ Resolves n s r) (service : Wire.Service)
    (binding : Wire.Binding) :
    (infoRefs n service binding).run.run s =
      (.ok (Wire.writeLines ((match binding with
          | .http => [.data (Bytes.ofString ("# service=" ++ service.name ++ "\n")), .flush]
          | .ssh => []) ++
        (advertLines (capabilities service (head?.bind (symrefOf n s)))
          (((head?.bind (resolvedId n s)).map (·, headName)).toList ++
            others.flatMap (entriesOf n s))).map (fun l => .data (Bytes.ofString l)) ++
        [.flush])), s) := by
  -- listing the references reads and changes nothing
  have hin : InBlobStore s := by
    obtain ⟨b, hb, -⟩ := hs
    exact ⟨b, hb⟩
  have hlist : (refs n).run.run s = (.ok (head?.toList ++ others), s) :=
    Prod.ext hrefs (refs_stays s hin).2.symm
  unfold infoRefs
  rw [run_bind_of_ok hlist, run_bind_of_ok (run_foldlM_listReference hs htags hhead hothers)]
  -- what is left is pure: the lines from `HEAD`'s id, its target and the entries
  generalize head?.bind (resolvedId n s) = headId
  generalize head?.bind (symrefOf n s) = symref
  generalize others.flatMap (entriesOf n s) = entries
  -- the first line is `HEAD`'s, else the first entry's, else the zero id's
  cases headId with
  | some h => cases symref <;> rfl
  | none =>
    cases entries with
    | nil => cases symref <;> rfl
    | cons e rest => cases symref <;> rfl

/-! ## A listing

Repository `demo` with `HEAD` pointing at `refs/heads/main`, which names a commit that is not
stored, and the tag reference `refs/tags/v1` naming an annotated tag of that commit. -/

/-- The commit `main` names. -/
def mainCommit : ObjectId := ⟨List.replicate 20 0x11, ObjectId.length_replicate_17⟩

/-- The annotated tag `v1`. -/
def v1Tag : ObjectId := ⟨List.replicate 20 0x22, rfl⟩

/-- The body of `v1`, naming `mainCommit`. -/
def v1Text : String :=
  "object 1111111111111111111111111111111111111111\ntype commit\ntag v1\n" ++
    "tagger T <t@x> 1700000000 +0000\n\nv1\n"

/-- The blobs of the listing, in key order. -/
def listedBlobs : BlobStore :=
  ⟨[(Remote.key demo headName, ⟨Bytes.ofString (RefTarget.symbolic "refs/heads/main").encode, []⟩),
    (Remote.objectKey demo v1Tag, ⟨Bytes.ofString v1Text, [("git-type", "tag")]⟩),
    (Remote.key demo "refs/heads/main", ⟨Bytes.ofString (RefTarget.direct mainCommit).encode, []⟩),
    (Remote.key demo "refs/tags/v1", ⟨Bytes.ofString (RefTarget.direct v1Tag).encode, []⟩)], 1⟩

/-- Storage holding the listing. -/
def listedStore : Storage := { medium := .remote listedBlobs, init := {}, now := 0 }

theorem mem_listedBlobs {k : String} {blob : StoredBlob} (h : listedBlobs.get k = some blob) :
    (k, blob) ∈ listedBlobs.entries := by
  obtain ⟨e, he, rfl⟩ := Option.map_eq_some_iff.mp h
  have hk : e.1 = k := by simpa using List.find?_some he
  rw [← hk]
  exact List.mem_of_find?_eq_some he

theorem validateRefName_listed : ∀ name ∈ ["refs/heads/main", "refs/tags/v1"],
    validateRefName name = .ok () := by
  intro name hname
  simp only [List.mem_cons, List.not_mem_nil, or_false] at hname
  rcases hname with rfl | rfl <;>
  · unfold validateRefName
    rw [String.splitOn_of_not_mem (by decide) (by decide),
      String.splitOn_of_not_mem (by decide) (by decide), RefName.splitOn_slash]
    decide +kernel

/-- What the listing's lemmas compute, evaluated together: the kinds its blobs carry, the targets
its reference blobs hold, the tag's body parsing, the keys under `refs/`, the targets read back
and the names cut from their keys. The lemmas below take their parts. -/
theorem listedBlobs_evaluation :
    (∀ e ∈ listedBlobs.entries, (Remote.blobKind e.2 .blob).toOption.isSome) ∧
    (RefTarget.decode (Utf8.decodeLossy
      (Bytes.ofString (RefTarget.symbolic "refs/heads/main").encode))).toOption =
        some (.symbolic "refs/heads/main") ∧
    (RefTarget.decode (Utf8.decodeLossy (Bytes.ofString (RefTarget.direct mainCommit).encode))).toOption =
      some (.direct mainCommit) ∧
    (RefTarget.decode (Utf8.decodeLossy (Bytes.ofString (RefTarget.direct v1Tag).encode))).toOption =
      some (.direct v1Tag) ∧
    (Tag.parse (Bytes.ofString v1Text)).toOption.isSome ∧
    listedBlobs.listAll (Remote.key demo "refs/") =
      [Remote.key demo "refs/heads/main", Remote.key demo "refs/tags/v1"] ∧
    (Remote.targetAnswer (listedBlobs.get (Remote.key demo "refs/heads/main"))).toOption =
      some (some (.direct mainCommit)) ∧
    (Remote.targetAnswer (listedBlobs.get (Remote.key demo "refs/tags/v1"))).toOption =
      some (some (.direct v1Tag)) ∧
    (Remote.targetAnswer (listedBlobs.get (Remote.key demo headName))).toOption =
      some (some (.symbolic "refs/heads/main")) ∧
    String.ofList ((Remote.key demo "refs/heads/main").toList.drop
      (Remote.repoPrefix demo).length) = "refs/heads/main" ∧
    String.ofList ((Remote.key demo "refs/tags/v1").toList.drop
      (Remote.repoPrefix demo).length) = "refs/tags/v1" ∧
    targetAt demo listedStore headName = some (.symbolic "refs/heads/main") ∧
    Remote.targetView demo listedBlobs "refs/heads/main" = some (.direct mainCommit) := by
  decide +kernel

theorem wellStored_listedBlobs : WellStored demo listedBlobs where
  kinds id blob h := by
    obtain ⟨k, hk⟩ :=
      Option.isSome_iff_exists.mp (listedBlobs_evaluation.1 _ (mem_listedBlobs h))
    exact ⟨k, Except.eq_ok_of_toOption hk⟩
  targets ref blob hvalid h := by
    obtain ⟨-, hsymbolic, hmain, hv1, -⟩ := listedBlobs_evaluation
    have hmem := mem_listedBlobs h
    simp only [listedBlobs, List.mem_cons, List.not_mem_nil, or_false, Prod.mk.injEq] at hmem
    -- a blob under a reference key holds a target; the tag's key is no reference key
    rcases hmem with ⟨-, rfl⟩ | ⟨hk, -⟩ | ⟨-, rfl⟩ | ⟨-, rfl⟩
    · exact ⟨.symbolic "refs/heads/main", Except.eq_ok_of_toOption hsymbolic⟩
    · exact absurd hk.symm (Remote.objectKey_ne_key hvalid v1Tag)
    · exact ⟨.direct mainCommit, Except.eq_ok_of_toOption hmain⟩
    · exact ⟨.direct v1Tag, Except.eq_ok_of_toOption hv1⟩

/-- An object read from a blob carries the blob's content. -/
theorem Remote.data_of_objectAnswer {id : ObjectId} {f : ObjectKind} {blob : StoredBlob}
    {o : GitObject} (h : Remote.objectAnswer id f (some blob) = .ok o) : o.data = blob.data := by
  simp only [Remote.objectAnswer] at h
  cases hk : Remote.blobKind blob f with
  | ok k =>
    rw [hk] at h
    cases h
    rfl
  | error e =>
    rw [hk] at h
    cases h

theorem tagsParse_listedStore : TagsParse demo listedStore := by
  intro id o ho _
  rw [objectAt_remote rfl] at ho
  cases hget : listedBlobs.get (Remote.objectKey demo id) with
  | none => simp [hget, Remote.objectAnswer, Except.toOption] at ho
  | some blob =>
    rw [hget] at ho
    have hdata := Remote.data_of_objectAnswer (Except.eq_ok_of_toOption ho)
    have hmem := mem_listedBlobs hget
    simp only [listedBlobs, List.mem_cons, List.not_mem_nil, or_false, Prod.mk.injEq] at hmem
    -- the one object key of the store holds the tag, which parses
    rcases hmem with ⟨hk, -⟩ | ⟨-, rfl⟩ | ⟨hk, -⟩ | ⟨hk, -⟩
    · exact absurd hk (Remote.objectKey_ne_key (by decide) id)
    · obtain ⟨t, ht⟩ := Option.isSome_iff_exists.mp listedBlobs_evaluation.2.2.2.2.1
      exact ⟨t, by rw [hdata]; exact Except.eq_ok_of_toOption ht⟩
    · exact absurd hk (Remote.objectKey_ne_key (validateRefName_listed _ (by simp)) id)
    · exact absurd hk (Remote.objectKey_ne_key (validateRefName_listed _ (by simp)) id)

/-- `HEAD` of the listing. -/
def listedHead : Reference := ⟨headName, .symbolic "refs/heads/main"⟩

/-- The other references of the listing, by name. -/
def listedRefs : List Reference :=
  [⟨"refs/heads/main", .direct mainCommit⟩, ⟨"refs/tags/v1", .direct v1Tag⟩]

/-- The blob store lists `HEAD`, then the other references by name. -/
theorem iterateReferences_listedBlobs :
    (Remote.iterateReferences demo).run.run listedBlobs =
      (.ok ((some listedHead).toList ++ listedRefs), listedBlobs) := by
  obtain ⟨-, -, -, -, -, hkeys, hmainAnswer, hv1Answer, hheadAnswer, hmainName, hv1Name, -⟩ :=
    listedBlobs_evaluation
  have hread : ∀ k t, Remote.targetAnswer (listedBlobs.get k) = .ok (some t) →
      (Remote.readTarget k).run.run listedBlobs = (.ok (some t), listedBlobs) := by
    intro k t h
    rw [Remote.run_readTarget, h]
  have hmain := hread (Remote.key demo "refs/heads/main") (.direct mainCommit)
    (Except.eq_ok_of_toOption hmainAnswer)
  have hv1 := hread (Remote.key demo "refs/tags/v1") (.direct v1Tag)
    (Except.eq_ok_of_toOption hv1Answer)
  have hhead := hread (Remote.key demo headName) (.symbolic "refs/heads/main")
    (Except.eq_ok_of_toOption hheadAnswer)
  -- the loop reads the two references under `refs/` in key order, then `HEAD` is read
  unfold Remote.iterateReferences
  rw [run_bind_of_ok (show (get : RemoteM BlobStore).run.run listedBlobs =
    (.ok listedBlobs, listedBlobs) from rfl)]
  simp only [hkeys, List.forIn_cons, List.forIn_nil, bind_assoc]
  rw [run_bind_of_ok hmain]
  simp only [pure_bind, bind_assoc]
  rw [run_bind_of_ok hv1]
  simp only [pure_bind]
  rw [run_bind_of_ok hhead]
  simp only [hmainName, hv1Name, List.nil_append, List.cons_append]
  -- the names are in order already, so sorting keeps them
  rw [List.mergeSort_of_pairwise (by decide)]
  rfl

/-- The listing lists `HEAD`, then the other references by name. -/
theorem refs_listedStore :
    ((refs demo).run.run listedStore).1 = .ok ((some listedHead).toList ++ listedRefs) := by
  have hrun : (Storage.iterateReferences demo).run.run listedStore =
      (.ok ((some listedHead).toList ++ listedRefs), listedStore) := by
    unfold Storage.iterateReferences
    rw [run_onMedium_remote _ _ rfl, iterateReferences_listedBlobs]
    rfl
  exact congrArg Prod.fst (run_adapt_of_ok _ hrun)

/-- Every reference of the listing resolves in time. -/
theorem resolves_listed :
    ∀ r ∈ (some listedHead).toList ++ listedRefs, Resolves demo listedStore r := by
  obtain ⟨-, -, -, -, -, -, -, -, -, -, -, hhead, hview⟩ := listedBlobs_evaluation
  have hmain : targetAt demo listedStore "refs/heads/main" = some (.direct mainCommit) := by
    rw [targetAt_remote rfl wellStored_listedBlobs, validateRefName_listed _ (by simp)]
    exact hview
  intro r hr
  simp only [Option.toList_some, listedRefs, List.cons_append, List.nil_append, List.mem_cons,
    List.not_mem_nil, or_false] at hr
  rcases hr with rfl | rfl | rfl
  · -- `HEAD` is one hop from a direct reference
    intro _ _
    refine ⟨by decide, fun next hnext => ?_⟩
    rw [show listedHead.name = headName from rfl, hhead] at hnext
    cases hnext
    exact ⟨validateRefName_listed _ (by simp), fun next' h => by rw [hmain] at h; cases h⟩
  · intro _ ht
    cases ht
  · intro _ ht
    cases ht

/-- The listing meets the assumptions of `infoRefs_advertises`, and its advertisement over HTTP
is the one that theorem gives. -/
theorem infoRefs_advertises_listed :
    OnBlobStore demo listedStore ∧ TagsParse demo listedStore ∧
    ((refs demo).run.run listedStore).1 = .ok ((some listedHead).toList ++ listedRefs) ∧
    (infoRefs demo .uploadPack .http).run.run listedStore =
      (.ok (Wire.writeLines
        ([.data (Bytes.ofString ("# service=" ++ Wire.Service.uploadPack.name ++ "\n")), .flush] ++
          (advertLines (capabilities .uploadPack ((some listedHead).bind (symrefOf demo listedStore)))
            ((((some listedHead).bind (resolvedId demo listedStore)).map (·, headName)).toList ++
              listedRefs.flatMap (entriesOf demo listedStore))).map
            (fun l => .data (Bytes.ofString l)) ++
          [.flush])), listedStore) := by
  have hs : OnBlobStore demo listedStore := ⟨listedBlobs, rfl, wellStored_listedBlobs⟩
  have hhead : ∀ h ∈ some listedHead, h.name = headName ∧ Resolves demo listedStore h := by
    intro h hh
    cases hh
    exact ⟨rfl, resolves_listed listedHead (by simp)⟩
  have hothers : ∀ r ∈ listedRefs, r.name ≠ headName ∧ Resolves demo listedStore r := by
    intro r hr
    refine ⟨?_, resolves_listed r (by simp [hr])⟩
    simp only [listedRefs, List.mem_cons, List.not_mem_nil, or_false] at hr
    rcases hr with rfl | rfl <;> decide
  exact ⟨hs, tagsParse_listedStore, refs_listedStore,
    infoRefs_advertises hs tagsParse_listedStore refs_listedStore hhead hothers .uploadPack .http⟩

end Engine

end GitServer
