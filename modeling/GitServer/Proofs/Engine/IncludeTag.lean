import GitServer.Proofs.Engine.ReadOnly
import GitServer.Proofs.Storage.Reliable
import GitServer.Proofs.Except
import GitServer.Proofs.Storage.LocalLifecycle
import Mathlib

/-!
# Tags sent with `include-tag`

After the walk, upload-pack goes once through the candidate tags in order and adds each one
that was neither sent nor excluded and whose target is among the objects taken, counting a tag
it adds as taken. `tagsAdded` is that pass over ids, for a given map from a tag to its target;
`run_addTags` says the engine's pass is it, over a blob store whose candidates are stored
annotated tags that parse.

The pass adds each tag once (`nodup_tagsAdded`). When no candidate points at another
candidate, the ones it adds are exactly the candidates outside the taken and excluded ids whose
target was taken (`mem_tagsAdded`), so the order of the candidates changes the order of the
objects sent and nothing else (`collect_unchainedTags_orderFree`). A tag that points at
another candidate is added only if that candidate came before it: with candidates `outer`,
pointing at `inner`, which points at a wanted blob, the order `outer, inner` sends the blob and
`inner`, and the order `inner, outer` sends all three (`collect_tagOrder_matters`).
-/

namespace GitServer

namespace Engine

/-! ## The pass over ids -/

/-- The candidates the include-tag pass adds, in order, where a candidate points at `target`
of it: each one neither taken nor excluded whose target is taken, a tag added counting as
taken for the candidates after it. -/
def tagsAdded (target : ObjectId → Option ObjectId) (excluded : List ObjectId) :
    List ObjectId → List ObjectId → List ObjectId
  | [], _ => []
  | c :: rest, included =>
    if included.contains c || excluded.contains c then tagsAdded target excluded rest included
    else if (target c).any included.contains then
      c :: tagsAdded target excluded rest (c :: included)
    else tagsAdded target excluded rest included

section Pass

variable (target : ObjectId → Option ObjectId) (excluded : List ObjectId)

/-- A tag already taken is not added again. -/
theorem not_mem_tagsAdded :
    ∀ (tags included : List ObjectId) {x : ObjectId}, x ∈ included →
      x ∉ tagsAdded target excluded tags included
  | [], _, _, _ => by simp [tagsAdded]
  | c :: rest, included, x, hx => by
    rw [tagsAdded]
    split
    · exact not_mem_tagsAdded rest included hx
    split
    · rintro (_ | ⟨_, hmem⟩)
      · simp_all
      · exact not_mem_tagsAdded rest (c :: included) (List.mem_cons_of_mem c hx) hmem
    · exact not_mem_tagsAdded rest included hx

/-- **Each tag is added once.** -/
theorem nodup_tagsAdded :
    ∀ tags included : List ObjectId, (tagsAdded target excluded tags included).Nodup
  | [], _ => by simp [tagsAdded]
  | c :: rest, included => by
    rw [tagsAdded]
    split
    · exact nodup_tagsAdded rest included
    split
    · exact List.nodup_cons.mpr ⟨not_mem_tagsAdded target excluded rest (c :: included)
        List.mem_cons_self, nodup_tagsAdded rest (c :: included)⟩
    · exact nodup_tagsAdded rest included

/-- No candidate points at a candidate. -/
def Unchained (tags : List ObjectId) : Prop :=
  ∀ c ∈ tags, ∀ x ∈ target c, x ∉ tags

/-- Taking a candidate takes no target of the others, when no candidate points at another. -/
theorem target_taken_cons {c : ObjectId} {rest : List ObjectId} (hun : Unchained target (c :: rest))
    {x : ObjectId} (hx : x ∈ rest) (included : List ObjectId) :
    (∃ y ∈ target x, y ∈ c :: included) ↔ ∃ y ∈ target x, y ∈ included := by
  constructor
  · rintro ⟨y, hy, hyc⟩
    rcases List.mem_cons.mp hyc with rfl | hyi
    · exact absurd List.mem_cons_self (hun x (List.mem_cons_of_mem y hx) y hy)
    · exact ⟨y, hy, hyi⟩
  · rintro ⟨y, hy, hyi⟩
    exact ⟨y, hy, List.mem_cons_of_mem c hyi⟩

/-- **Which tags are added**, when no candidate points at another: the candidates neither
taken nor excluded whose target is taken. -/
theorem mem_tagsAdded :
    ∀ {tags : List ObjectId} (included : List ObjectId), Unchained target tags →
      ∀ x, x ∈ tagsAdded target excluded tags included ↔
        x ∈ tags ∧ x ∉ included ∧ x ∉ excluded ∧ ∃ y ∈ target x, y ∈ included
  | [], _, _, x => by simp [tagsAdded]
  | c :: rest, included, hun, x => by
    have hrest : Unchained target rest := fun c' hc' y hy hyr =>
      hun c' (List.mem_cons_of_mem c hc') y hy (List.mem_cons_of_mem c hyr)
    rw [tagsAdded]
    split
    · -- `c` is skipped, being taken or excluded
      rename_i hskip
      simp only [Bool.or_eq_true, List.contains_iff_mem] at hskip
      rw [mem_tagsAdded included hrest x]
      constructor
      · rintro ⟨hx, hxi, hxe, hy⟩
        exact ⟨List.mem_cons_of_mem c hx, hxi, hxe, hy⟩
      · rintro ⟨_ | ⟨_, hx⟩, hxi, hxe, hy⟩
        · rcases hskip with h | h <;> contradiction
        · exact ⟨hx, hxi, hxe, hy⟩
    rename_i hskip
    simp only [Bool.or_eq_true, List.contains_iff_mem, not_or] at hskip
    split
    · -- `c` is added and counts as taken for the rest
      rename_i hadd
      have hc : ∃ y ∈ target c, y ∈ included := by
        simpa only [Option.any_eq_true, List.contains_iff_mem, Option.mem_def] using hadd
      rw [List.mem_cons, mem_tagsAdded (c :: included) hrest x]
      constructor
      · rintro (rfl | ⟨hx, hxi, hxe, hy⟩)
        · exact ⟨List.mem_cons_self, hskip.1, hskip.2, hc⟩
        · exact ⟨List.mem_cons_of_mem c hx, fun h => hxi (List.mem_cons_of_mem c h), hxe,
            (target_taken_cons target hun hx included).mp hy⟩
      · rintro ⟨hx, hxi, hxe, hy⟩
        by_cases hxc : x = c
        · exact Or.inl hxc
        · have hx' : x ∈ rest := (List.mem_cons.mp hx).resolve_left hxc
          exact Or.inr ⟨hx', by simp [hxc, hxi], hxe,
            (target_taken_cons target hun hx' included).mpr hy⟩
    · -- `c` is passed over: its target is not taken
      rename_i hnot
      have hc : ¬ ∃ y ∈ target c, y ∈ included := by
        simpa only [Option.any_eq_true, List.contains_iff_mem, Option.mem_def] using hnot
      rw [mem_tagsAdded included hrest x]
      constructor
      · rintro ⟨hx, hxi, hxe, hy⟩
        exact ⟨List.mem_cons_of_mem c hx, hxi, hxe, hy⟩
      · rintro ⟨_ | ⟨_, hx⟩, hxi, hxe, hy⟩
        · exact absurd hy hc
        · exact ⟨hx, hxi, hxe, hy⟩

/-- **The order of the candidates does not change which tags are added**, when no candidate
points at another. -/
theorem tagsAdded_perm {tags tags' : List ObjectId} (hperm : tags.Perm tags')
    (hun : Unchained target tags) (included : List ObjectId) :
    (tagsAdded target excluded tags included).Perm (tagsAdded target excluded tags' included) := by
  have hun' : Unchained target tags' := fun c hc y hy hyt =>
    hun c (hperm.mem_iff.mpr hc) y hy (hperm.mem_iff.mpr hyt)
  apply (List.perm_ext_iff_of_nodup (nodup_tagsAdded target excluded tags included)
    (nodup_tagsAdded target excluded tags' included)).mpr
  intro x
  rw [mem_tagsAdded target excluded included hun, mem_tagsAdded target excluded included hun',
    hperm.mem_iff]

end Pass

end Engine

/-! ## Reading the candidates -/

namespace Storage

/-- The object the annotated tag stored under `id` in repository `n` points at; none when what
is stored there is not a tag that parses. -/
def tagTarget (n : RepoName) (s : Storage) (id : ObjectId) : Option ObjectId :=
  (objectAt n s id).bind fun o =>
    if o.kind = .tag then (Tag.parse o.data).toOption.map (·.object) else none

end Storage

/-- An object read carries the id it was read by. -/
theorem Remote.id_of_objectAnswer {id : ObjectId} {f : ObjectKind} {x : Option StoredBlob}
    {o : GitObject} (h : Remote.objectAnswer id f x = .ok o) : o.id = id := by
  cases x with
  | none => cases h
  | some blob =>
    simp only [Remote.objectAnswer] at h
    cases hk : Remote.blobKind blob f with
    | ok k =>
      rw [hk] at h
      cases h
      rfl
    | error e =>
      rw [hk] at h
      cases h

/-- A blob that records a kind is read as that kind, whatever kind the reader falls back to. -/
theorem Remote.objectAnswer_fallback {id : ObjectId} {x : Option StoredBlob} {o : GitObject}
    (f : ObjectKind) (h : Remote.objectAnswer id .blob x = .ok o) (hk : o.kind ≠ .blob) :
    Remote.objectAnswer id f x = .ok o := by
  cases x with
  | none => cases h
  | some blob =>
    simp only [Remote.objectAnswer, Remote.blobKind] at h ⊢
    cases hfind : blob.metadata.find? (·.1 == Remote.typeKey) with
    | some p =>
      rw [hfind] at h
      exact h
    | none =>
      -- a blob recording no kind is read as the fallback, a blob
      rw [hfind] at h
      cases h
      exact absurd rfl hk

namespace Engine

open Storage

variable {n : RepoName} {s : Storage} {b : BlobStore}

theorem run_getObject_of_objectAt (hm : s.medium = .remote b) {id : ObjectId} {o : GitObject}
    (h : objectAt n s id = some o) : (getObject n id).run.run s = (.ok o, s) := by
  apply run_adapt_of_ok
  rw [objectAt, getObject_remote hm] at h
  have hread : Remote.objectAnswer id .blob (b.get (Remote.objectKey n id)) = .ok o :=
    Except.eq_ok_of_toOption h
  rw [getObject_remote hm, hread]

/-- An object stored with a kind other than blob reads as itself when a kind is expected. -/
theorem run_getTyped_of_objectAt (hm : s.medium = .remote b) {id : ObjectId} {o : GitObject}
    (h : objectAt n s id = some o) (hk : o.kind ≠ .blob) :
    (getTyped n id o.kind).run.run s = (.ok o, s) := by
  rw [objectAt, getObject_remote hm] at h
  have hread : Remote.objectAnswer id o.kind (b.get (Remote.objectKey n id)) = .ok o :=
    Remote.objectAnswer_fallback o.kind (Except.eq_ok_of_toOption h) hk
  have hstore : (store (Storage.getObjectAs n id o.kind)).run.run s = (.ok o, s) := by
    apply run_adapt_of_ok
    unfold Storage.getObjectAs
    rw [run_onMedium_remote _ _ hm, Remote.run_getObjectAs, hread, with_medium_eq hm]
  unfold getTyped
  rw [run_bind_of_ok hstore, if_neg (not_not.mpr rfl)]
  rfl

/-- **A candidate that is a stored tag reads as one**, answering its target. -/
theorem run_getTag_of_tagTarget (hm : s.medium = .remote b) {id x : ObjectId}
    (h : tagTarget n s id = some x) : ∃ t : Tag, (getTag n id).run.run s = (.ok t, s) ∧ t.object = x := by
  unfold tagTarget at h
  obtain ⟨o, ho, hx⟩ := Option.bind_eq_some_iff.mp h
  split at hx
  · rename_i hkind
    obtain ⟨t, ht, rfl⟩ := Option.map_eq_some_iff.mp hx
    refine ⟨t, ?_, rfl⟩
    unfold getTag
    rw [← hkind, run_bind_of_ok (run_getTyped_of_objectAt hm ho (by rw [hkind]; decide)),
      Except.eq_ok_of_toOption ht]
    rfl
  · cases hx

theorem objectAt_id (hm : s.medium = .remote b) {id : ObjectId} {o : GitObject}
    (h : objectAt n s id = some o) : o.id = id := by
  rw [objectAt, getObject_remote hm] at h
  exact Remote.id_of_objectAnswer (Except.eq_ok_of_toOption h)

theorem run_getObject_id (hm : s.medium = .remote b) {id : ObjectId} {o : GitObject} {s' : Storage}
    (h : (getObject n id).run.run s = (.ok o, s')) : o.id = id := by
  cases hread : Remote.objectAnswer id .blob (b.get (Remote.objectKey n id)) with
  | ok o' =>
    have ho' : objectAt n s id = some o' := by
      rw [objectAt, getObject_remote hm, hread]
      rfl
    rw [run_getObject_of_objectAt hm ho'] at h
    cases h
    exact Remote.id_of_objectAnswer hread
  | error e =>
    have herr : (getObject n id).run.run s = (.error (.storage e), s) :=
      run_adapt_of_error _ (by rw [getObject_remote hm, hread])
    rw [herr] at h
    cases h

theorem objectAt_of_tagTarget {id x : ObjectId} (h : tagTarget n s id = some x) :
    ∃ o, objectAt n s id = some o := by
  obtain ⟨o, ho, -⟩ := Option.bind_eq_some_iff.mp h
  exact ⟨o, ho⟩

/-- **The engine's include-tag pass is `tagsAdded`** over the targets of the stored tags: it
answers the objects sent followed by the stored objects of the tags added, and changes
nothing. -/
theorem run_addTags (hm : s.medium = .remote b) (excluded : List ObjectId) :
    ∀ (tags included : List ObjectId) (sent : List GitObject),
      (∀ c ∈ tags, (tagTarget n s c).isSome) →
      (addTags n excluded tags included sent).run.run s =
        (.ok (sent ++ (tagsAdded (tagTarget n s) excluded tags included).filterMap (objectAt n s)),
          s)
  | [], included, sent, _ => by rw [addTags, tagsAdded, List.filterMap_nil, List.append_nil]; rfl
  | c :: rest, included, sent, htags => by
    have hrest : ∀ c ∈ rest, (tagTarget n s c).isSome := fun c' hc' =>
      htags c' (List.mem_cons_of_mem c hc')
    obtain ⟨x, hx⟩ := Option.isSome_iff_exists.mp (htags c List.mem_cons_self)
    rw [addTags, tagsAdded]
    by_cases hskip : (included.contains c || excluded.contains c) = true
    · rw [if_pos hskip, if_pos hskip]
      exact run_addTags hm excluded rest included sent hrest
    rw [if_neg hskip, if_neg hskip]
    -- the candidate is read as a tag; it is added when its target was taken
    obtain ⟨t, ht, rfl⟩ := run_getTag_of_tagTarget hm hx
    rw [run_bind_of_ok ht, hx, Option.any_some]
    by_cases hadd : included.contains t.object = true
    · obtain ⟨o, ho⟩ := objectAt_of_tagTarget hx
      rw [if_pos hadd, if_pos hadd, run_bind_of_ok (run_getObject_of_objectAt hm ho),
        run_addTags hm excluded rest (c :: included) (sent ++ [o]) hrest]
      simp [ho]
    · rw [if_neg hadd, if_neg hadd]
      exact run_addTags hm excluded rest included sent hrest

/-- The stored objects of ids that are all stored carry those ids, in order. -/
theorem map_id_filterMap_objectAt (hm : s.medium = .remote b) :
    ∀ ids : List ObjectId, (∀ c ∈ ids, (objectAt n s c).isSome) →
      (ids.filterMap (objectAt n s)).map (·.id) = ids
  | [], _ => rfl
  | c :: rest, hall => by
    obtain ⟨o, ho⟩ := Option.isSome_iff_exists.mp (hall c List.mem_cons_self)
    rw [List.filterMap_cons_some ho, List.map_cons, objectAt_id hm ho,
      map_id_filterMap_objectAt hm rest fun c' hc' => hall c' (List.mem_cons_of_mem c hc')]

theorem mem_filterMap_objectAt (hm : s.medium = .remote b) {ids : List ObjectId} {o : GitObject} :
    o ∈ ids.filterMap (objectAt n s) ↔ objectAt n s o.id = some o ∧ o.id ∈ ids := by
  rw [List.mem_filterMap]
  constructor
  · rintro ⟨c, hc, ho⟩
    rw [objectAt_id hm ho]
    exact ⟨ho, hc⟩
  · rintro ⟨ho, hc⟩
    exact ⟨o.id, hc, ho⟩

/-- **The walk takes an id exactly when it sends an object read under it.** -/
theorem collectFrom_taken (excluded : List ObjectId) (fuel : Nat) :
    ∀ {s : Storage} stack included sent r s', s.InBlobStore →
      (∀ x, x ∈ included ↔ x ∈ sent.map (·.id)) →
      (collectFrom n excluded fuel stack included sent).run.run s = (.ok r, s') →
      ∀ x, x ∈ r.1 ↔ x ∈ r.2.map (·.id) := by
  induction fuel with
  | zero =>
    intro s stack included sent r s' _ hinv h
    rw [collectFrom] at h
    cases h
    exact hinv
  | succ fuel ih =>
    intro s stack included sent r s' hs hinv h
    rw [collectFrom] at h
    split at h
    · cases h
      exact hinv
    rename_i id stack _
    -- the id is taken as the object read under it is sent
    obtain ⟨b, hm⟩ := hs
    obtain ⟨o, s₁, ho, hchildren⟩ := run_bind_eq_ok h
    obtain ⟨next, s₂, hnext, hwalk⟩ := run_bind_eq_ok hchildren
    have hs₁ : s = s₁ := by
      simpa only [ho] using (getObject_stays id : Stays InBlobStore (getObject n id)) s ⟨b, hm⟩ |>.2
    have hs₂ : s₁ = s₂ := by
      simpa only [hnext] using sentChildren_stays o s₁ ⟨b, hs₁ ▸ hm⟩ |>.2
    have hm₂ : s₂.medium = .remote b := by rw [← hs₂, ← hs₁, hm]
    refine ih _ (id :: included) (sent ++ [o]) r s' ⟨b, hm₂⟩ (fun x => ?_) hwalk
    simp [hinv, run_getObject_id hm ho, or_comm]

/-- **Collecting over a blob store whose candidates are stored tags**: the walk's objects, then
the stored objects of the tags `tagsAdded` picks; storage is left as it was. -/
theorem run_collect (hm : s.medium = .remote b) (wants haves : List ObjectId) {tags : List ObjectId}
    (hstored : ∀ c ∈ tags, (tagTarget n s c).isSome) :
    (collect n wants haves tags).run.run s =
      (((reachable n haves).run.run s).1 >>= fun excluded =>
        ((collectFrom n excluded walkBound wants [] []).run.run s).1 >>= fun w =>
          .ok (w.2 ++ (tagsAdded (tagTarget n s) excluded tags w.1).filterMap (objectAt n s)),
        s) := by
  unfold collect
  rcases hr : (reachable n haves).run.run s with ⟨r, s₁⟩
  have hs₁ : s = ((reachable n haves).run.run s).2 :=
    (reachableFrom_stays walkBound _ [] s ⟨b, hm⟩).2
  rw [hr] at hs₁
  subst hs₁
  cases r with
  | error e =>
    rw [run_bind_of_error hr]
    rfl
  | ok excluded =>
    rw [run_bind_of_ok hr]
    rcases hc : (collectFrom n excluded walkBound wants [] []).run.run s with ⟨r₂, s₂⟩
    have hs₂ : s = ((collectFrom n excluded walkBound wants [] []).run.run s).2 :=
      (collectFrom_stays excluded walkBound wants [] [] s ⟨b, hm⟩).2
    rw [hc] at hs₂
    subst hs₂
    cases r₂ with
    | error e =>
      rw [run_bind_of_error hc]
      dsimp only [bind, Except.bind]
      rw [hc]
    | ok w =>
      obtain ⟨included, sent⟩ := w
      rw [run_bind_of_ok hc]
      dsimp only [bind, Except.bind]
      rw [hc]
      exact run_addTags hm excluded tags included sent hstored

/-! ## The tags a fetch sends -/

/-- **Which tags a fetch sends**, when no candidate points at another: after the walk's objects,
the stored candidates it neither sent nor excluded whose target it sent, each once. -/
theorem collect_unchainedTags (hs : s.InBlobStore) (wants haves : List ObjectId)
    {tags : List ObjectId} (hstored : ∀ c ∈ tags, (tagTarget n s c).isSome)
    (hun : Unchained (tagTarget n s) tags) {os : List GitObject}
    (h : ((collect n wants haves tags).run.run s).1 = .ok os) :
    ∃ excluded walked added, ((reachable n haves).run.run s).1 = .ok excluded ∧
      ((collect n wants haves []).run.run s).1 = .ok walked ∧ os = walked ++ added ∧
      (added.map (·.id)).Nodup ∧
      ∀ o, o ∈ added ↔ objectAt n s o.id = some o ∧ o.id ∈ tags ∧ o.id ∉ walked.map (·.id) ∧
        o.id ∉ excluded ∧ ∃ y ∈ tagTarget n s o.id, y ∈ walked.map (·.id) := by
  obtain ⟨b, hm⟩ := hs
  rw [run_collect hm wants haves hstored] at h
  obtain ⟨excluded, hr, h⟩ := Except.bind_eq_ok.mp h
  obtain ⟨w, hw, h⟩ := Except.bind_eq_ok.mp h
  cases h
  -- the walk ends where it started, having taken exactly the ids of what it sent
  have hwalk : (collectFrom n excluded walkBound wants [] []).run.run s = (.ok w, s) :=
    Prod.ext hw (collectFrom_stays excluded walkBound wants [] [] s ⟨b, hm⟩).2.symm
  have htaken := collectFrom_taken excluded walkBound wants [] [] w s ⟨b, hm⟩ (by simp) hwalk
  have hadded : ∀ c ∈ tagsAdded (tagTarget n s) excluded tags w.1, (objectAt n s c).isSome :=
    fun c hc => by
      obtain ⟨x, hx⟩ := Option.isSome_iff_exists.mp
        (hstored c ((mem_tagsAdded _ excluded w.1 hun c).mp hc).1)
      obtain ⟨o, ho⟩ := objectAt_of_tagTarget hx
      simp [ho]
  refine ⟨excluded, w.2, _, hr, ?_, rfl, ?_, fun o => ?_⟩
  · rw [run_collect hm wants haves (by simp)]
    simp only [hr, bind, Except.bind, hw, tagsAdded, List.filterMap_nil, List.append_nil]
  · rw [map_id_filterMap_objectAt hm _ hadded]
    exact nodup_tagsAdded _ excluded tags w.1
  · rw [mem_filterMap_objectAt hm, mem_tagsAdded _ excluded w.1 hun]
    simp only [htaken]

/-- For a permutation of candidates none of which points at another, a fetch sends the same
objects, each as many times. -/
theorem collect_perm_unchainedTags (hs : s.InBlobStore) (wants haves : List ObjectId)
    {tags tags' : List ObjectId} (hperm : tags.Perm tags')
    (hstored : ∀ c ∈ tags, (tagTarget n s c).isSome) (hun : Unchained (tagTarget n s) tags) :
    ((collect n wants haves tags).run.run s).1.map Multiset.ofList =
      ((collect n wants haves tags').run.run s).1.map Multiset.ofList := by
  obtain ⟨b, hm⟩ := hs
  have hstored' : ∀ c ∈ tags', (tagTarget n s c).isSome := fun c hc =>
    hstored c (hperm.mem_iff.mpr hc)
  rw [run_collect hm wants haves hstored, run_collect hm wants haves hstored']
  dsimp only
  -- the walk is the same for both orders; the tags added are a permutation of each other
  rcases ((reachable n haves).run.run s).1 with e | excluded
  · rfl
  simp only [bind, Except.bind]
  rcases ((collectFrom n excluded walkBound wants [] []).run.run s).1 with e | w
  · rfl
  exact congrArg Except.ok (Multiset.coe_eq_coe.mpr
    (((tagsAdded_perm _ excluded hperm hun w.1).filterMap _).append_left w.2))

/-- **The order of the candidate tags changes only the order of what a fetch sends**, when no
candidate points at another: for a permutation of the candidates the objects sent are the same,
each as many times, and they are the walk's objects followed by the stored candidates neither
sent by the walk nor excluded whose target the walk sent, each once. -/
theorem collect_unchainedTags_orderFree (hs : s.InBlobStore) (wants haves : List ObjectId)
    {tags tags' : List ObjectId} (hperm : tags.Perm tags')
    (hstored : ∀ c ∈ tags, (tagTarget n s c).isSome) (hun : Unchained (tagTarget n s) tags) :
    ((collect n wants haves tags).run.run s).1.map Multiset.ofList =
      ((collect n wants haves tags').run.run s).1.map Multiset.ofList ∧
    ∀ os, ((collect n wants haves tags).run.run s).1 = .ok os →
      ∃ excluded walked added, ((reachable n haves).run.run s).1 = .ok excluded ∧
        ((collect n wants haves []).run.run s).1 = .ok walked ∧ os = walked ++ added ∧
        (added.map (·.id)).Nodup ∧
        ∀ o, o ∈ added ↔ objectAt n s o.id = some o ∧ o.id ∈ tags ∧ o.id ∉ walked.map (·.id) ∧
          o.id ∉ excluded ∧ ∃ y ∈ tagTarget n s o.id, y ∈ walked.map (·.id) :=
  ⟨collect_perm_unchainedTags hs wants haves hperm hstored hun,
    fun _ h => collect_unchainedTags hs wants haves hstored hun h⟩

/-! ## A chain of tags

Repository `demo` holds the blob `x` and two annotated tags: `inner` points at the blob and
`outer` at `inner`. -/

/-- The blob `x` followed by a line feed. -/
def xBlob : ObjectId :=
  ⟨[88, 123, 230, 180, 195, 249, 63, 147, 196, 137, 192, 17, 27, 186, 85, 150, 20, 122, 38, 203],
    rfl⟩

/-- The tag `inner`. -/
def innerTag : ObjectId :=
  ⟨[6, 85, 223, 207, 116, 143, 15, 93, 145, 194, 73, 139, 92, 180, 72, 165, 65, 133, 7, 225], rfl⟩

/-- The tag `outer`. -/
def outerTag : ObjectId :=
  ⟨[18, 0, 233, 238, 58, 254, 13, 29, 206, 255, 216, 248, 109, 139, 236, 40, 115, 220, 112, 222],
    rfl⟩

/-- The repository of the chain. -/
def demo : RepoName := ⟨"demo.git"⟩

/-- The body of `inner`, naming the blob. -/
def innerText : String :=
  "object 587be6b4c3f93f93c489c0111bba5596147a26cb\ntype blob\ntag inner\n" ++
    "tagger T <t@x> 1700000000 +0000\n\ninner\n"

/-- The body of `outer`, naming `inner`. -/
def outerText : String :=
  "object 0655dfcf748f0f5d91c2498b5cb448a5418507e1\ntype tag\ntag outer\n" ++
    "tagger T <t@x> 1700000000 +0000\n\nouter\n"

/-- A blob store holding the blob and, under the ids of `inner` and `outer`, the given tag
bodies. -/
def tagStore (inner outer : String) : Storage :=
  { medium := .remote ⟨[
      (Remote.objectKey demo innerTag, ⟨Bytes.ofString inner, [("git-type", "tag")]⟩),
      (Remote.objectKey demo outerTag, ⟨Bytes.ofString outer, [("git-type", "tag")]⟩),
      (Remote.objectKey demo xBlob, ⟨Bytes.ofString "x\n", [("git-type", "blob")]⟩)], 1⟩
    init := {}
    now := 0 }

/-- **A tag pointing at another candidate is sent only after it**: fetching the blob with the
candidates `outer, inner` sends the blob and `inner`; with `inner, outer` it also sends
`outer`. -/
theorem collect_tagOrder_matters :
    tagTarget demo (tagStore innerText outerText) innerTag = some xBlob ∧
    tagTarget demo (tagStore innerText outerText) outerTag = some innerTag ∧
    ((collect demo [xBlob] [] [outerTag, innerTag]).run.run
        (tagStore innerText outerText)).1.toOption.map (·.map (·.id)) = some [xBlob, innerTag] ∧
    ((collect demo [xBlob] [] [innerTag, outerTag]).run.run
        (tagStore innerText outerText)).1.toOption.map (·.map (·.id)) =
      some [xBlob, innerTag, outerTag] :=
  ⟨by decide +kernel, by decide +kernel, by decide +kernel, by decide +kernel⟩

/-- With both tags pointing at the blob, the two orders send the same objects. -/
theorem collect_unchainedTags_orderFree_twins :
    (tagStore innerText innerText).InBlobStore ∧ [outerTag, innerTag].Perm [innerTag, outerTag] ∧
    ((collect demo [xBlob] [] [outerTag, innerTag]).run.run (tagStore innerText innerText)).1.map
        Multiset.ofList =
      ((collect demo [xBlob] [] [innerTag, outerTag]).run.run (tagStore innerText innerText)).1.map
        Multiset.ofList := by
  have hs : (tagStore innerText innerText).InBlobStore := ⟨_, rfl⟩
  have hperm : [outerTag, innerTag].Perm [innerTag, outerTag] := List.Perm.swap _ _ _
  have houter : tagTarget demo (tagStore innerText innerText) outerTag = some xBlob := by
    decide +kernel
  have hinner : tagTarget demo (tagStore innerText innerText) innerTag = some xBlob := by
    decide +kernel
  have hstored : ∀ c ∈ [outerTag, innerTag], (tagTarget demo (tagStore innerText innerText) c).isSome := by
    simp [houter, hinner]
  have hun : Unchained (tagTarget demo (tagStore innerText innerText)) [outerTag, innerTag] := by
    intro c hc x hx
    simp only [List.mem_cons, List.not_mem_nil, or_false] at hc
    rcases hc with rfl | rfl <;> simp only [houter, hinner, Option.mem_def, Option.some.injEq] at hx <;>
      subst hx <;> decide
  exact ⟨hs, hperm, (collect_unchainedTags_orderFree hs [xBlob] [] hperm hstored hun).1⟩

end Engine

end GitServer
