import GitServer.Proofs.Storage.Listing
import GitServer.Proofs.Storage.RepoNames
import GitServer.Proofs.Storage.RemoteRefs
import Mathlib

/-!
# The registry on a blob store

Every key of a repository lies under its prefix `repositories/<name>/`, and valid names do not
nest, so the prefixes of two repositories never meet. Creating a repository writes under its
own prefix only (`run_create_changedUnder`); deleting one removes exactly the keys under its
prefix (`run_delete_of_exists`), page after page of a listing that misses none.
-/

namespace GitServer.Remote

open BlobStore

variable {n : RepoName} {b : BlobStore} {pfx : String}

theorem startsWith_key (n : RepoName) (rel : String) : (key n rel).startsWith (repoPrefix n) := by
  rw [String.startsWith_string_iff, key, String.toList_append]
  exact List.prefix_append _ _

/-! ## Writing under a prefix -/

/-- `b'` differs from `b` only in keys under `pfx`, and keeps its page size and key order. -/
structure ChangedUnder (pfx : String) (b b' : BlobStore) : Prop where
  pageSize : b'.pageSize = b.pageSize
  sorted : b.Sorted → b'.Sorted
  frame : ∀ k, ¬ k.startsWith pfx → b'.get k = b.get k

theorem ChangedUnder.refl (pfx : String) (b : BlobStore) : ChangedUnder pfx b b :=
  ⟨rfl, id, fun _ _ => rfl⟩

theorem ChangedUnder.put {b' : BlobStore} (h : ChangedUnder pfx b b') {k : String}
    (hk : k.startsWith pfx) (data : Bytes) (md : List (String × String)) :
    ChangedUnder pfx b (b'.put k data md) where
  pageSize := h.pageSize
  sorted hs := (h.sorted hs).put k data md
  frame k' hk' := by
    rw [BlobStore.get_put, if_neg (by rintro rfl; exact hk' hk), h.frame k' hk']

/-- Seeding a repository writes only keys of the repository: whatever every such write keeps
holds after it. -/
theorem run_seedContent_inv (P : BlobStore → Prop)
    (hput : ∀ b rel data md, P b → P (b.put (key n rel) data md)) (o : InitOptions) (now : Int)
    (hbranch : o.initialCommit = true → validateRefName o.branchRef = .ok ()) (h : P b) :
    ∃ b', (seedContent n o now).run.run b = (.ok (), b') ∧ P b' := by
  unfold seedContent
  generalize hic : initialContent n o now = ic
  obtain ⟨objects, commit⟩ := ic
  obtain ⟨b₁, hrun₁, h₁⟩ := run_forIn_yield P
    (fun (x : GitObject) (_ : PUnit) => (do
      let _ ← putObject n x.kind x.data
      pure (ForInStep.yield PUnit.unit) : RemoteM (ForInStep PUnit)))
    (fun x b hb => by
      refine ⟨_, by rw [run_bind_of_ok (run_putObject x.kind x.data b)]; rfl, ?_⟩
      split_ifs
      · exact hb
      · exact hput b _ _ _ hb) objects b h
  simp only []
  rw [run_bind_of_ok hrun₁]
  cases commit with
  | none => exact ⟨_, run_setReference _ rfl, hput _ _ _ _ h₁⟩
  | some c =>
    have hvalid : validateRefName o.branchRef = .ok () := by
      apply hbranch
      rw [← initialContent_snd_isSome n o now, hic]
      rfl
    exact ⟨_, by rw [run_bind_of_ok (run_setReference _ hvalid)]; exact run_setReference _ rfl,
      hput _ _ _ _ (hput _ _ _ _ h₁)⟩

/-- Creating an absent repository succeeds, through writes of its own keys only. -/
theorem run_create_inv (P : BlobStore → Prop)
    (hput : ∀ b rel data md, P b → P (b.put (key n rel) data md)) (o : InitOptions) (now : Int)
    (hbranch : o.initialCommit = true → validateRefName o.branchRef = .ok ())
    (hhead : b.get (key n headName) = none) (h : P b) :
    ∃ b', (create n o now).run.run b = (.ok (), b') ∧ P b' := by
  have habsent : (exists? n).run.run b = (.ok false, b) := by
    rw [exists?, run_has, hhead]
    rfl
  obtain ⟨b', hrun, h'⟩ := run_seedContent_inv P hput o now hbranch (hput _ _ _ _ (hput _ _ _ _ h))
  refine ⟨b', ?_, h'⟩
  unfold create
  rw [run_bind_of_ok habsent]
  exact hrun

/-! ## Keys of distinct repositories -/

theorem get_eq_none_iff {k : String} : b.get k = none ↔ k ∉ b.keys := by
  simp only [BlobStore.get, BlobStore.keys, Option.map_eq_none_iff, List.find?_eq_none,
    beq_iff_eq, List.mem_map, not_exists, not_and]

/-- Keeping the entries whose keys pass a test keeps their blobs. -/
theorem get_filter (q : String → Bool) (k : String) :
    ({ b with entries := b.entries.filter fun e => q e.1 } : BlobStore).get k =
      if q k then b.get k else none := by
  simp only [BlobStore.get, List.find?_filter]
  by_cases hq : q k
  · rw [if_pos hq]
    congr 1
    apply List.find?_congr
    intro x _
    by_cases hx : x.1 = k
    · simp [hx, hq]
    · simp [hx]
  · rw [if_neg hq]
    simp only [Option.map_eq_none_iff, List.find?_eq_none, beq_iff_eq, decide_eq_true_eq]
    intro x _ hqx
    exact hq (hqx.2 ▸ hqx.1)

/-- **The prefixes of two valid repositories never meet**: a key under both belongs to one
repository. -/
theorem eq_of_startsWith_repoPrefix {m : RepoName} (hm : m.Valid) (hn : n.Valid) {k : String}
    (hkm : k.startsWith (repoPrefix m)) (hkn : k.startsWith (repoPrefix n)) : m = n := by
  have hpre : ∀ {a c : RepoName}, (repoPrefix c).startsWith (repoPrefix a) →
      a.path.toList ++ ['/'] <+: c.path.toList ++ ['/'] := by
    intro a c h
    rw [String.startsWith_string_iff] at h
    simpa [repoPrefix, List.append_assoc] using h
  rcases startsWith_or_startsWith hkm hkn with h | h
  · exact hm.eq_of_prefix hn (hpre h)
  · exact (hn.eq_of_prefix hm (hpre h)).symm

/-! ## Deleting a repository -/

/-- **Deleting a repository that exists** removes exactly the keys under its prefix: `HEAD`
first, then every key the listing of the prefix returns, page after page. -/
theorem run_delete_of_exists (hs : b.Sorted) (hN : 0 < b.pageSize)
    (hhead : b.get (key n headName) ≠ none) :
    (delete n).run.run b =
      (.ok (), { b with entries := b.entries.filter fun e => !e.1.startsWith (repoPrefix n) }) := by
  have hex : (exists? n).run.run b = (.ok true, b) := by
    rw [exists?, run_has, Option.isSome_iff_ne_none.mpr hhead]
  unfold delete
  rw [run_bind_of_ok hex]
  simp only [Bool.not_true, Bool.false_eq_true, if_false]
  rw [run_bind_of_ok (run_remove _ _)]
  simp only [deleteAll_eq]
  refine congrArg (Prod.mk (Except.ok ())) ?_
  rw [listAll_eq (hs.delete _) hN]
  congr 1
  simp only [under, BlobStore.delete, BlobStore.keys, List.filter_filter]
  apply List.filter_congr
  intro e he
  -- `HEAD` went first; every other key is removed when the listing names it
  by_cases hK : e.1 = key n headName
  · simp [hK, startsWith_key]
  · have hmem : e.1 ∈ (b.entries.filter fun e => e.1 != key n headName).map (·.1) :=
      List.mem_map.mpr ⟨e, List.mem_filter.mpr ⟨he, by simpa using hK⟩, rfl⟩
    have hc : (((b.entries.filter fun e => e.1 != key n headName).map (·.1)).filter
        (·.startsWith (repoPrefix n))).contains e.1 = e.1.startsWith (repoPrefix n) := by
      simp only [List.contains_eq_mem, List.mem_filter, hmem, true_and, Bool.decide_eq_true]
    rw [hc, bne_iff_ne.mpr hK, Bool.and_true]

/-! ## A store that holds repositories -/

/-- The store holds the repositories `live`, each once: its keys in order, pages of at least
one item, every key under the prefix of one of them, and the `HEAD` of each. -/
structure Registry (live : List RepoName) (b : BlobStore) : Prop where
  sorted : b.Sorted
  pageSize_pos : 0 < b.pageSize
  nodup : live.Nodup
  valid : ∀ n ∈ live, n.Valid
  head : ∀ n ∈ live, b.get (key n headName) ≠ none
  owned : ∀ k ∈ b.keys, ∃ n ∈ live, k.startsWith (repoPrefix n)

namespace Registry

variable {live : List RepoName}

theorem empty (N : Nat) : Registry [] (BlobStore.empty N) where
  sorted := sorted_empty N
  pageSize_pos := by simp [BlobStore.empty]
  nodup := List.nodup_nil
  valid _ h := absurd h List.not_mem_nil
  head _ h := absurd h List.not_mem_nil
  owned _ h := absurd h (by simp [BlobStore.empty, BlobStore.keys])

section

variable (h : Registry live b) (hn : n.Valid)
include h hn

/-- A valid repository the store does not hold has no key. -/
theorem get_eq_none (hout : n ∉ live) {k : String} (hk : k.startsWith (repoPrefix n)) :
    b.get k = none := by
  rw [get_eq_none_iff]
  intro hmem
  obtain ⟨m, hm, hkm⟩ := h.owned k hmem
  exact hout (eq_of_startsWith_repoPrefix (h.valid m hm) hn hkm hk ▸ hm)

/-- The store holds a valid repository exactly when its `HEAD` is there. -/
theorem run_exists? : (exists? n).run.run b = (.ok (decide (n ∈ live)), b) := by
  rw [exists?, run_has]
  by_cases hmem : n ∈ live
  · rw [Option.isSome_iff_ne_none.mpr (h.head n hmem), decide_eq_true hmem]
  · rw [h.get_eq_none hn hmem (startsWith_key n headName), decide_eq_false hmem]
    rfl

/-- **Creating a repository the store holds** fails as existing and changes nothing. -/
theorem run_create_of_mem (hmem : n ∈ live) (o : InitOptions) (now : Int) :
    (create n o now).run.run b = (.error (.alreadyExists n.path), b) := by
  unfold create
  rw [run_bind_of_ok (h.run_exists? hn), decide_eq_true hmem]
  rfl

/-- **Deleting a repository the store does not hold** fails as absent and changes nothing. -/
theorem run_delete_of_not_mem (hout : n ∉ live) :
    (delete n).run.run b = (.error (.notFound ("repository " ++ n.path)), b) := by
  unfold delete
  rw [run_bind_of_ok (h.run_exists? hn), decide_eq_false hout]
  rfl

/-- **Creating a repository the store does not hold** adds it, through writes under its own
prefix only. -/
theorem run_create_of_not_mem (hout : n ∉ live) (o : InitOptions) (now : Int)
    (hbranch : o.initialCommit = true → validateRefName o.branchRef = .ok ()) :
    ∃ b', (create n o now).run.run b = (.ok (), b') ∧ Registry (n :: live) b' ∧
      ChangedUnder (repoPrefix n) b b' := by
  have hfresh : FreshRefs n b := fun ref _ => h.get_eq_none hn hout (startsWith_key n ref)
  obtain ⟨b₁, hrun₁, hrefs⟩ := run_create_of_fresh hfresh o now hbranch
  obtain ⟨b₂, hrun₂, hch⟩ := run_create_inv (ChangedUnder (repoPrefix n) b)
    (fun _ rel data md hc => hc.put (startsWith_key n rel) data md) o now hbranch
    (hfresh headName rfl) (ChangedUnder.refl _ _)
  obtain rfl : b₁ = b₂ := (Prod.mk.inj (hrun₁.symm.trans hrun₂)).2
  -- the repositories already there keep their keys, which lie outside the new prefix
  have hother : ∀ m ∈ live, ¬ (key m headName).startsWith (repoPrefix n) := fun m hm hk =>
    hout (eq_of_startsWith_repoPrefix (h.valid m hm) hn (startsWith_key m headName) hk ▸ hm)
  refine ⟨b₁, hrun₁, ⟨hch.sorted h.sorted, hch.pageSize ▸ h.pageSize_pos,
    List.nodup_cons.mpr ⟨hout, h.nodup⟩, List.forall_mem_cons.mpr ⟨hn, h.valid⟩,
    List.forall_mem_cons.mpr ⟨?_, fun m hm => hch.frame _ (hother m hm) ▸ h.head m hm⟩, ?_⟩, hch⟩
  · rw [Ne, hrefs.get_eq_none_iff rfl]
    simp [initialRefs]
  · intro k hk
    by_cases hkn : k.startsWith (repoPrefix n)
    · exact ⟨n, List.mem_cons_self, hkn⟩
    · have hkb : k ∈ b.keys := by
        by_contra hkb
        exact get_eq_none_iff.mp ((hch.frame k hkn).trans (get_eq_none_iff.mpr hkb)) hk
      obtain ⟨m, hm, hkm⟩ := h.owned k hkb
      exact ⟨m, List.mem_cons_of_mem n hm, hkm⟩

end

/-- **Deleting a repository the store holds** removes it, and leaves the other repositories
and their keys as they were. -/
theorem erase (h : Registry live b) (hmem : n ∈ live) :
    Registry (live.erase n)
      { b with entries := b.entries.filter fun e => !e.1.startsWith (repoPrefix n) } where
  sorted := h.sorted.filter _
  pageSize_pos := h.pageSize_pos
  nodup := h.nodup.erase n
  valid m hm := h.valid m (List.mem_of_mem_erase hm)
  head m hm := by
    obtain ⟨hmn, hm⟩ := (h.nodup.mem_erase_iff).mp hm
    have hout : ¬ (key m headName).startsWith (repoPrefix n) := fun hk =>
      hmn (eq_of_startsWith_repoPrefix (h.valid m hm) (h.valid n hmem) (startsWith_key m headName) hk)
    rw [get_filter (fun k => !k.startsWith (repoPrefix n)), if_pos (by simpa using hout)]
    exact h.head m hm
  owned k hk := by
    simp only [BlobStore.keys, List.mem_map, List.mem_filter] at hk
    obtain ⟨e, ⟨he, hen⟩, rfl⟩ := hk
    obtain ⟨m, hm, hkm⟩ := h.owned e.1 (List.mem_map_of_mem he)
    have hmn : m ≠ n := by
      rintro rfl
      simp [hkm] at hen
    exact ⟨m, (h.nodup.mem_erase_iff).mpr ⟨hmn, hm⟩, hkm⟩

end Registry

end GitServer.Remote
