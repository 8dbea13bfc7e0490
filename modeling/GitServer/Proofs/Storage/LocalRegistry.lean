import GitServer.Proofs.Storage.LocalLifecycle
import GitServer.Proofs.Storage.RepoNames
import Mathlib

/-!
# Many repositories in one directory tree

A tree holds the repositories `live` (`Local.Registry`) when each of them has its directory
with its objects as loose files, a cache that agrees with them and its `HEAD`, when every other
node of the tree lies in one of them or on the way to one, and when the cache holds nothing of
a repository not there.

The directories of valid names keep apart (`eq_of_prefix_repoDir`): one never lies inside
another nor on the way to another, and a hidden sibling, whose last name holds a backslash, is
neither a repository's nor on the way to one (`sibling_apart`). So on such a tree a valid name
exists exactly when it is held (`Registry.run_exists`); creating one not held succeeds and
holds it too, and deleting one held succeeds and holds the others, each leaving the files of
every other repository as they were (`Registry.run_create`, `Registry.run_delete`).
-/

namespace GitServer

namespace Local

open FileTree

/-! ## The directories of valid names -/

/-- A path written out, its names joined by slashes. -/
def pathText (p : FsPath) : List Char := ['/'].intercalate (p.map String.toList)

theorem pathText_repoDir (n : RepoName) : pathText (repoDir n) = n.path.toList := by
  rw [pathText, repoDir, RefName.splitOn_slash, List.map_map]
  simp [Function.comp_def]

@[simp] theorem pathText_singleton (c : String) : pathText [c] = c.toList := by
  simp [pathText]

theorem pathText_append {p r : FsPath} (hp : p ≠ []) (hr : r ≠ []) :
    pathText (p ++ r) = pathText p ++ '/' :: pathText r := by
  induction p with
  | nil => contradiction
  | cons x p ih =>
    rcases p with _ | ⟨y, p⟩
    · obtain ⟨z, r, rfl⟩ := List.exists_cons_of_ne_nil hr
      simp [pathText]
    · have := ih (List.cons_ne_nil y p)
      simp only [pathText, List.cons_append, List.map_cons, List.intercalate_cons_cons] at this ⊢
      rw [this]
      simp

/-- The names of a path, joined by slashes, give the name of the repository it is the
directory of. -/
theorem intercalate_repoDir (n : RepoName) : "/".intercalate (repoDir n) = n.path := by
  rw [← String.toList_inj, String.toList_intercalate]
  exact pathText_repoDir n

/-- Every name of a path lies within its text. -/
theorem infix_pathText {c : String} : ∀ {p : FsPath}, c ∈ p → c.toList <:+: pathText p
  | x :: p, hc => by
    rcases p with _ | ⟨y, p⟩
    · rw [List.mem_singleton.mp hc]
      simp [pathText]
    · have htext : pathText (x :: y :: p) = x.toList ++ '/' :: pathText (y :: p) := by
        simp [pathText]
      rw [htext]
      rcases List.mem_cons.mp hc with rfl | hc
      · exact (List.prefix_append _ _).isInfix
      · exact (infix_pathText hc).trans ((List.suffix_cons _ _).trans (List.suffix_append _ _)).isInfix

/-- The last name of a path ends its text. -/
theorem getLast_suffix_pathText {p : FsPath} (hp : p ≠ []) : (p.getLast hp).toList <:+ pathText p := by
  have hsplit := List.dropLast_append_getLast hp
  rcases eq_or_ne p.dropLast [] with h | h
  · conv_rhs => rw [← hsplit, h, List.nil_append, pathText_singleton]
  · conv_rhs => rw [← hsplit, pathText_append h (List.cons_ne_nil _ [])]
    rw [pathText_singleton]
    exact (List.suffix_cons _ _).trans (List.suffix_append _ _)

variable {m n : RepoName} {q : FsPath}

/-- **No repository lies inside another**: the directory of a valid name lies above the
directory of another only when the names are the same. -/
theorem eq_of_prefix_repoDir (hm : m.Valid) (hn : n.Valid) (h : repoDir m <+: repoDir n) : m = n := by
  obtain ⟨r, hr⟩ := h
  rcases eq_or_ne r [] with rfl | hr0
  · rw [List.append_nil] at hr
    have hpath := RefName.splitOn_slash_injective hr
    cases m
    cases n
    cases hpath
    rfl
  · -- the path of `n` is the path of `m`, a slash and more
    refine hm.eq_of_prefix hn (show m.path.toList ++ ['/'] <+: n.path.toList ++ ['/'] from
      ⟨pathText r ++ ['/'], ?_⟩)
    rw [← pathText_repoDir, ← pathText_repoDir, ← hr, pathText_append (repoDir_ne_nil m) hr0]
    simp

/-- Two valid names whose directories both lie above one path are the same. -/
theorem eq_of_prefix_repoDir_both (hm : m.Valid) (hn : n.Valid) (hmq : repoDir m <+: q)
    (hnq : repoDir n <+: q) : m = n := by
  rcases List.prefix_or_prefix_of_prefix hmq hnq with h | h
  · exact eq_of_prefix_repoDir hm hn h
  · exact (eq_of_prefix_repoDir hn hm h).symm

/-- Nothing at or below the directory of a valid name lies on the way to the directory of a
valid name. -/
theorem not_way_of_prefix_repoDir (hm : m.Valid) (hn : n.Valid) (hmq : repoDir m <+: q) :
    ¬ q <+: (repoDir n).dropLast := by
  intro hq
  have hmn := hmq.trans hq
  obtain rfl := eq_of_prefix_repoDir hm hn (hmn.trans (List.dropLast_prefix _))
  have hlen := hmn.length_le
  have := List.length_pos_iff_ne_nil.mpr (repoDir_ne_nil m)
  rw [List.length_dropLast] at hlen
  omega

/-- No name of the directory of a valid name holds a backslash. -/
theorem backslash_not_mem (hn : n.Valid) {c : String} (hc : c ∈ repoDir n) : '\x5c' ∉ c.toList :=
  fun h => hn.no_backslash (by simpa [pathText_repoDir] using (infix_pathText hc).subset h)

/-- The directory on the way to the directory of a valid name does not end in `.git`. -/
theorem not_suffix_of_way (hn : n.Valid) {p : FsPath} (hp : p ≠ []) (hpre : p <+: (repoDir n).dropLast) :
    ¬ RepoName.suffix.toList <:+ (p.getLast hp).toList := by
  intro hsuf
  obtain ⟨r, hr⟩ := hpre.trans (List.dropLast_prefix _)
  have hr0 : r ≠ [] := by
    rintro rfl
    have hlen := congrArg List.length hr
    have hle := hpre.length_le
    have := List.length_pos_iff_ne_nil.mpr (repoDir_ne_nil n)
    rw [List.append_nil] at hlen
    rw [List.length_dropLast] at hle
    omega
  have hpath : n.path.toList = pathText p ++ '/' :: pathText r := by
    rw [← pathText_repoDir, ← hr, pathText_append hp hr0]
  exact hn.above _ _ hpath (hsuf.trans (getLast_suffix_pathText hp))

/-- The directory of a valid name ends in `.git`. -/
theorem suffix_getLast_repoDir (hn : n.Valid) :
    RepoName.suffix.toList <:+ ((repoDir n).getLast (repoDir_ne_nil n)).toList := by
  have hsplit := List.dropLast_append_getLast (repoDir_ne_nil n)
  have hends := hn.ends
  rcases eq_or_ne (repoDir n).dropLast [] with h | h
  · rwa [← pathText_repoDir n, ← hsplit, h, List.nil_append, pathText_singleton] at hends
  · rw [← pathText_repoDir n, ← hsplit, pathText_append h (List.cons_ne_nil _ []),
      pathText_singleton] at hends
    exact RepoName.suffix_of_suffix_append_cons RepoName.slash_not_mem_suffix hends

/-- The last name of a hidden sibling holds a backslash. -/
theorem backslash_mem_sibling (X : FsPath) (tag : String) :
    ∃ c ∈ sibling X tag, '\x5c' ∈ c.toList :=
  ⟨_, List.mem_append_right _ (List.mem_singleton_self _), by simp⟩

/-- A hidden sibling lies at or above no directory of a valid name. -/
theorem sibling_not_prefix (hm : m.Valid) (X : FsPath) (tag : String) :
    ¬ sibling X tag <+: repoDir m := fun h => by
  obtain ⟨c, hc, hback⟩ := backslash_mem_sibling X tag
  exact backslash_not_mem hm (h.subset hc) hback

/-- **Hidden siblings keep apart**: nothing at or below a hidden sibling of the directory of a
valid name lies at or below the directory of a valid name, nor on the way to one. -/
theorem sibling_apart (hm : m.Valid) (hn : n.Valid) (tag : String)
    (hq : sibling (repoDir n) tag <+: q) : ¬ repoDir m <+: q ∧ ¬ q <+: (repoDir m).dropLast := by
  refine ⟨fun hmq => ?_, fun hqm => sibling_not_prefix hm _ tag
    (hq.trans (hqm.trans (List.dropLast_prefix _)))⟩
  rcases List.prefix_or_prefix_of_prefix hq hmq with h | h
  · exact sibling_not_prefix hm _ tag h
  · -- the directory of `m` would be the sibling, or lie on the way to the directory of `n`
    rcases eq_or_ne (repoDir m) (sibling (repoDir n) tag) with he | he
    · exact sibling_not_prefix hm _ tag (by rw [he])
    · have hway := prefix_dropLast_of_ne h he
      rw [sibling_dropLast] at hway
      exact not_way_of_prefix_repoDir hm hn List.prefix_rfl hway

/-! ## Trees holding repositories -/

/-- The objects of a repository stay where nothing at or below its directory changed. -/
theorem HoldsObjects.of_agree {t t' : FileTree} {X : FsPath} {O : ObjMap} (h : HoldsObjects t X O)
    (hwf : t'.WellFormed) (hsame : ∀ r, t'.nodes[X ++ r]? = t.nodes[X ++ r]?) :
    HoldsObjects t' X O := by
  have hobj : t'.nodes[X ++ ["objects"]]? = some .dir := (hsame _).trans h.objects
  -- the way to the object directory is directories, the repository's own among them
  have habove := hwf (X ++ ["objects"]) (by rw [hobj]; rfl)
  refine h.move hwf (fun a ha hpre => ?_) (fun r => hsame _)
  have hanc : a ∈ ancestors (X ++ ["objects"]) := by
    have := hpre.length_le
    exact mem_ancestors.mpr ⟨ha, hpre.trans (List.prefix_append _ _), by simp; omega⟩
  have := habove a hanc
  rwa [node?_of_ne_nil ha] at this

/-- The disk holds the repositories `live` and nothing else: each has its objects as loose files
that the cache agrees with, and its `HEAD`; every other node lies in one of them or on the way
to one; and the cache holds nothing of a repository not there. -/
structure Registry (live : List RepoName) (d : Disk) : Prop where
  nodup : live.Nodup
  valid : ∀ n ∈ live, n.Valid
  wf : d.files.WellFormed
  objects : ∀ n ∈ live, ∃ O, HoldsObjects d.files (repoDir n) O ∧ CacheHolds d.cache n O
  head : ∀ n ∈ live, ∃ z, d.files.nodes[repoDir n ++ [headName]]? = some (.file z)
  owned : ∀ q, q ≠ [] → (d.files.nodes[q]?).isSome →
    ∃ n ∈ live, repoDir n <+: q ∨ q <+: (repoDir n).dropLast
  cache : ∀ n, n ∉ live → CacheHolds d.cache n ObjMap.empty

namespace Registry

variable {live : List RepoName} {d : Disk}

/-- An empty tree with an empty cache holds no repository. -/
theorem empty (limit : Nat) : Registry [] ⟨FileTree.empty, ObjectCache.empty limit⟩ where
  nodup := List.nodup_nil
  valid _ h := absurd h List.not_mem_nil
  wf p h := by simp [FileTree.empty] at h
  objects _ h := absurd h List.not_mem_nil
  head _ h := absurd h List.not_mem_nil
  owned _ _ h := by simp [FileTree.empty] at h
  cache _ _ e he := by simp [ObjectCache.empty, ObjectCache.entries] at he

/-- Nothing is at or below a hidden sibling of the directory of a valid name. -/
theorem sibling_free (h : Registry live d) (hn : n.Valid) {tag : String}
    (hq : sibling (repoDir n) tag <+: q) : d.files.nodes[q]? = none := by
  -- every node lies in a repository held or on the way to one, and a sibling is neither
  have hq0 : q ≠ [] := fun h0 => by simp [h0, sibling] at hq
  rcases hnode : d.files.nodes[q]? with _ | z
  · rfl
  · obtain ⟨m, hm, hmq | hqm⟩ := h.owned q hq0 (by simp [hnode])
    · exact absurd hmq (sibling_apart (h.valid m hm) hn tag hq).1
    · exact absurd hqm (sibling_apart (h.valid m hm) hn tag hq).2

/-- A repository held is settled. -/
theorem settled (h : Registry live d) (hn : n ∈ live) : Settled d.files (repoDir n) where
  head := h.head n hn
  staging _ hq := h.sibling_free (h.valid n hn) hq
  tombstone _ hq := h.sibling_free (h.valid n hn) hq

/-- A valid name not held can be created. -/
theorem vacant (h : Registry live d) (hn : n.Valid) (hout : n ∉ live) : VacantDisk n d where
  room :=
    { wf := h.wf
      way := fun a ha hpre z hz => by
        obtain ⟨m, hm, hma | ham⟩ := h.owned a ha (by simp [hz])
        · exact not_way_of_prefix_repoDir (h.valid m hm) hn hma hpre
        · -- a directory on the way to a repository held
          obtain ⟨O, hO, -⟩ := h.objects m hm
          rw [hO.dirs a ha (ham.trans (List.dropLast_prefix _))] at hz
          cases hz
      free := fun q hq => by
        have hq0 : q ≠ [] := fun h0 => repoDir_ne_nil n (List.prefix_nil.mp (h0 ▸ hq))
        rcases hnode : d.files.nodes[q]? with _ | z
        · rfl
        · obtain ⟨m, hm, hmq | hqm⟩ := h.owned q hq0 (by simp [hnode])
          · exact absurd (eq_of_prefix_repoDir_both (h.valid m hm) hn hmq hq ▸ hm) hout
          · exact absurd hqm (not_way_of_prefix_repoDir hn (h.valid m hm) hq)
      staging := fun _ hq => h.sibling_free hn hq }
  tombstone _ hq := h.sibling_free hn hq
  cache := h.cache n hout

/-- **A valid name exists exactly when it is held**, and asking changes nothing. -/
theorem run_exists (h : Registry live d) (hn : n.Valid) :
    (exists? n).run.run d = (.ok (decide (n ∈ live)), d) := by
  by_cases hmem : n ∈ live
  · obtain ⟨O, hO, -⟩ := h.objects n hmem
    rw [run_exists_of_settled hO (h.settled hmem), decide_eq_true hmem]
  · rw [(h.vacant hn hmem).room.not_exists, decide_eq_false hmem]

/-- Creating a repository held fails as existing and changes nothing. -/
theorem run_create_of_mem (h : Registry live d) (hmem : n ∈ live) (o : InitOptions) (now : Int) :
    (create n o now).run.run d = (.error (.alreadyExists n.path), d) := by
  obtain ⟨O, hO, -⟩ := h.objects n hmem
  exact run_create_existing hO (h.settled hmem) o now

/-- Deleting a valid name not held fails as absent and changes nothing. -/
theorem run_delete_of_not_mem (h : Registry live d) (hn : n.Valid) (hout : n ∉ live) :
    (delete n).run.run d = (.error (.notFound ("repository " ++ n.path)), d) :=
  (h.vacant hn hout).run_delete

/-- **Creating a valid name not held** succeeds and leaves a disk that holds it too; nothing at
or below the directory of a repository held changes. -/
theorem run_create (h : Registry live d) (hn : n.Valid) (hout : n ∉ live) (o : InitOptions)
    (now : Int) (hhead : RefTarget.Kept (.symbolic o.branchRef))
    (hbranch : o.initialCommit = true → RefName.Kept o.branchRef) :
    ∃ t', (create n o now).run.run d = (.ok (), { d with files := t' }) ∧
      Registry (n :: live) { d with files := t' } ∧
      ∀ m ∈ live, ∀ r, t'.nodes[repoDir m ++ r]? = d.files.nodes[repoDir m ++ r]? := by
  obtain ⟨t', hrun, hobj, hset, hframe⟩ := (h.vacant hn hout).run_create_files o now hhead hbranch
  set Y := sibling (repoDir n) "tmp"
  -- the directory of a repository held is off every path creating touched
  have hkeep : ∀ m ∈ live, ∀ r, t'.nodes[repoDir m ++ r]? = d.files.nodes[repoDir m ++ r]? := by
    intro m hm r
    have hmv := h.valid m hm
    have hq := List.prefix_append (repoDir m) r
    refine hframe _ (fun hY => ?_) (fun hY => (sibling_apart hmv hn _ hY).1 hq)
      (fun hX => hout (eq_of_prefix_repoDir_both hmv hn hq hX ▸ hm))
    -- on the way to the staging sibling: the sibling itself, or on the way to the directory
    rcases eq_or_ne (repoDir m ++ r) Y with he | he
    · exact (sibling_apart hmv hn "tmp" (he ▸ List.prefix_rfl)).1 hq
    · have hway := prefix_dropLast_of_ne hY he
      rw [sibling_dropLast] at hway
      exact not_way_of_prefix_repoDir hmv hn hq hway
  refine ⟨t', hrun, ⟨List.nodup_cons.mpr ⟨hout, h.nodup⟩, ?_, hobj.wf, ?_, ?_, ?_, ?_⟩, hkeep⟩
  · intro m hm
    rcases List.mem_cons.mp hm with rfl | hm
    · exact hn
    · exact h.valid m hm
  · intro m hm
    rcases List.mem_cons.mp hm with rfl | hm
    · exact ⟨_, hobj, (h.cache m hout).mono fun id x hx => by simp [ObjMap.empty] at hx⟩
    · obtain ⟨O, hO, hc⟩ := h.objects m hm
      exact ⟨O, hO.of_agree hobj.wf (hkeep m hm), hc⟩
  · intro m hm
    rcases List.mem_cons.mp hm with rfl | hm
    · exact hset.head
    · rw [hkeep m hm]
      exact h.head m hm
  · intro q hq hsome
    by_cases hXq : repoDir n <+: q
    · exact ⟨n, List.mem_cons_self, .inl hXq⟩
    by_cases hYq : Y <+: q
    · rw [hset.staging q hYq] at hsome
      cases hsome
    by_cases hqY : q <+: Y
    · -- on the way to the staging sibling, so on the way to the new directory
      have hqY' : q ≠ Y := fun he => hYq (he ▸ List.prefix_rfl)
      have hway := prefix_dropLast_of_ne hqY hqY'
      rw [sibling_dropLast] at hway
      exact ⟨n, List.mem_cons_self, .inr hway⟩
    · rw [hframe q hqY hYq hXq] at hsome
      obtain ⟨m, hm, hmq⟩ := h.owned q hq hsome
      exact ⟨m, List.mem_cons_of_mem n hm, hmq⟩
  · intro m hm
    exact h.cache m (fun h' => hm (List.mem_cons_of_mem n h'))

/-- **Deleting a repository held** succeeds, empties the cache and leaves a disk that holds the
others: nothing is left at or below its directory, and nothing at or below the directory of
another changes. -/
theorem run_delete (h : Registry live d) (hmem : n ∈ live) :
    ∃ t', (delete n).run.run d = (.ok (), { files := t', cache := d.cache.clear }) ∧
      Registry (live.erase n) { files := t', cache := d.cache.clear } ∧
      (∀ r, t'.nodes[repoDir n ++ r]? = none) ∧
      ∀ m ∈ live, m ≠ n → ∀ r, t'.nodes[repoDir m ++ r]? = d.files.nodes[repoDir m ++ r]? := by
  obtain ⟨O, hO, -⟩ := h.objects n hmem
  obtain ⟨t', hrun, hr⟩ := run_delete_steps hO (h.settled hmem)
  have hnv := h.valid n hmem
  set T := sibling (repoDir n) "deleted"
  have hkeep : ∀ m ∈ live, m ≠ n → ∀ r,
      t'.nodes[repoDir m ++ r]? = d.files.nodes[repoDir m ++ r]? := by
    intro m hm hne r
    have hmv := h.valid m hm
    have hq := List.prefix_append (repoDir m) r
    exact hr.off _ (not_way_of_prefix_repoDir hmv hnv hq)
      (fun hX => hne (eq_of_prefix_repoDir_both hmv hnv hq hX))
      (fun hT => (sibling_apart hmv hnv _ hT).1 hq)
  have hmem_erase : ∀ m, m ∈ live.erase n ↔ m ≠ n ∧ m ∈ live := fun m => h.nodup.mem_erase_iff
  -- a node left off the way, off the directory and off the tombstone was there, and another
  -- repository than the one deleted owns it
  have hother : ∀ k, ¬ k <+: (repoDir n).dropLast → ¬ repoDir n <+: k → ¬ T <+: k →
      (t'.nodes[k]?).isSome → ∃ m ∈ live.erase n, repoDir m <+: k ∨ k <+: (repoDir m).dropLast := by
    intro k h₁ h₂ h₃ hk
    rw [hr.off k h₁ h₂ h₃] at hk
    obtain ⟨m, hm, hmk⟩ := h.owned k (fun h0 => h₁ (h0 ▸ List.nil_prefix)) hk
    have hne : m ≠ n := by
      rintro rfl
      rcases hmk with h' | h'
      · exact h₂ h'
      · exact h₁ h'
    exact ⟨m, (hmem_erase m).mpr ⟨hne, hm⟩, hmk⟩
  have hleft : ∀ k, (t'.nodes[k]?).isSome → ¬ repoDir n <+: k ∧ ¬ T <+: k := by
    intro k hk
    refine ⟨fun h' => ?_, fun h' => ?_⟩ <;>
      · rw [hr.gone k (by tauto)] at hk
        cases hk
  refine ⟨t', hrun, ⟨h.nodup.erase n, fun m hm => h.valid m (List.mem_of_mem_erase hm), hr.wf,
    fun m hm => ?_, fun m hm => ?_, fun q hq hsome => ?_, fun _ _ => CacheHolds.clear _ _ _⟩,
    fun r => hr.gone _ (.inl (List.prefix_append _ _)), hkeep⟩
  · obtain ⟨hne, hm⟩ := (hmem_erase m).mp hm
    obtain ⟨O', hO', -⟩ := h.objects m hm
    exact ⟨O', hO'.of_agree hr.wf (hkeep m hm hne), CacheHolds.clear _ _ _⟩
  · obtain ⟨hne, hm⟩ := (hmem_erase m).mp hm
    rw [hkeep m hm hne]
    exact h.head m hm
  · obtain ⟨hXq, hTq⟩ := hleft q hsome
    by_cases hway : q <+: (repoDir n).dropLast
    · -- a directory left on the way holds something off the way, which another repository owns
      obtain ⟨k, hk, hqk, hks⟩ := hr.holds q hq hway hsome
      obtain ⟨hXk, hTk⟩ := hleft k hks
      obtain ⟨m, hm, hmk | hkm⟩ := hother k hk hXk hTk hks
      · rcases List.prefix_or_prefix_of_prefix hqk hmk with hqm | hmq
        · rcases eq_or_ne q (repoDir m) with he | he
          · exact ⟨m, hm, .inl (he ▸ List.prefix_rfl)⟩
          · exact ⟨m, hm, .inr (prefix_dropLast_of_ne hqm he)⟩
        · exact ⟨m, hm, .inl hmq⟩
      · exact ⟨m, hm, .inr (hqk.trans hkm)⟩
    · exact hother q hway hXq hTq hsome

end Registry

end Local

end GitServer
