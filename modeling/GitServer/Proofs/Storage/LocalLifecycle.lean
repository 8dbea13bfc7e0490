import GitServer.Proofs.Storage.LocalObjects
import Mathlib

/-!
# A repository's life in a directory tree

Creating repository `n` builds it in the staging sibling of its directory and moves it into
place (`run_create_steps`); deleting it moves it to the tombstone sibling, empties the cache, and
removes the tombstone and the directories it leaves empty. Where the repository can be created
(`VacantDisk`: room for its directory, a free tombstone, and no cache entry under the key of one
of its objects), creating it leaves its first objects with `HEAD` in place and both siblings
free (`VacantDisk.run_create`, `Settled`); deleting it from there leaves a disk where it can be
created again (`run_delete_vacant`).

What deleting removes is said path by path: the tombstone goes with everything below it, the
directories above it that it leaves empty go one by one (`Pruned`, `run_pruneEmptyParents`),
and nothing else on the disk changes (`Removed`, `run_delete_steps`).

What the steps of a run that succeeded did is read back from the run itself: a run that
succeeded is a first step and a rest that succeeded (`run_bind_eq_ok`), and a write that
succeeded set its file and the directories on its way (`of_run_writeAtomic`). Seeding writes
the configuration and the references beside `objects/`, and the first objects below it
(`HoldsObjects.of_seed`).
-/

namespace GitServer

section Run

variable {ε σ α β : Type} {s s' : σ}

/-- A run that succeeds is a first step that succeeds and a rest that succeeds from it. -/
theorem run_bind_eq_ok {x : ExceptT ε (StateM σ) α} {f : α → ExceptT ε (StateM σ) β} {b : β}
    (h : (x >>= f).run.run s = (.ok b, s')) :
    ∃ a s₁, x.run.run s = (.ok a, s₁) ∧ (f a).run.run s₁ = (.ok b, s') := by
  rcases hx : x.run.run s with ⟨r, s₁⟩
  cases r with
  | ok a => exact ⟨a, s₁, rfl, by rwa [run_bind_of_ok hx] at h⟩
  | error e =>
    rw [run_bind_of_error hx] at h
    cases h

end Run

/-! ## Removing below a path -/

namespace FileTree

variable {t : FileTree} {p : FsPath}

theorem nodes_removeBelow (t : FileTree) (p q : FsPath) :
    (⟨t.nodes.filter fun r _ => !p.isPrefixOf r⟩ : FileTree).nodes[q]? =
      if p <+: q then none else t.nodes[q]? := by
  rw [Std.TreeMap.getElem?_filter']
  by_cases h : p <+: q
  · simp [h, List.isPrefixOf_iff_prefix]
  · have hp : p.isPrefixOf q = false :=
      Bool.eq_false_iff.mpr fun hc => h (List.isPrefixOf_iff_prefix.mp hc)
    rw [if_neg h, hp]
    cases t.nodes[q]? <;> rfl

theorem WellFormed.removeBelow (hwf : t.WellFormed) (p : FsPath) :
    (⟨t.nodes.filter fun r _ => !p.isPrefixOf r⟩ : FileTree).WellFormed := by
  intro q hq a ha
  have ha' := mem_ancestors.mp ha
  rw [nodes_removeBelow] at hq
  split_ifs at hq with hpq
  · cases hq
  · -- what is left above a node left is left too
    have hdir := hwf q hq a ha
    rw [node?_of_ne_nil ha'.1] at hdir ⊢
    rw [nodes_removeBelow, if_neg (fun hpa => hpq (hpa.trans ha'.2.1)), hdir]

theorem removeDirAll_of_dir (hp : p ≠ []) (h : t.DirsAbove p) (hd : t.nodes[p]? = some .dir) :
    t.removeDirAll p = .ok ⟨t.nodes.filter fun r _ => !p.isPrefixOf r⟩ := by
  simp only [removeDirAll, List.isEmpty_iff, hp, if_false, stat_of_dirsAbove h,
    node?_of_ne_nil hp, hd]
  rfl

end FileTree

namespace Local

open FileTree

/-! ## Steps that succeeded -/

theorem eq_of_run_change {f : FileTree → Except OsError FileTree} {d d' : Disk}
    (h : (change f).run.run d = (.ok (), d')) :
    ∃ t, f d.files = .ok t ∧ d' = { d with files := t } := by
  cases hf : f d.files with
  | ok t =>
    rw [run_change_ok hf] at h
    exact ⟨t, rfl, (Prod.mk.inj h).2.symm⟩
  | error e =>
    rw [run_change_error hf] at h
    cases h

/-- **A write that succeeded** set its file, put a directory at every prefix of its way, and
changed nothing else; the tree stays well formed and the cache as it was. -/
theorem of_run_writeAtomic {d d' : Disk} (hwf : d.files.WellFormed) {p : FsPath} (hp : p ≠ [])
    {data : Bytes} (h : (writeAtomic p data).run.run d = (.ok (), d')) :
    d'.cache = d.cache ∧ d'.files.WellFormed ∧ ∀ q, d'.files.nodes[q]? =
      if q = p then some (.file data)
      else if q ≠ [] ∧ q <+: p.dropLast then some .dir else d.files.nodes[q]? := by
  have hlen : 0 < p.length := List.length_pos_iff_ne_nil.mpr hp
  unfold writeAtomic at h
  obtain ⟨_, d₁, h₁, h₂⟩ := run_bind_eq_ok h
  obtain ⟨t₁, hc₁, rfl⟩ := eq_of_run_change h₁
  obtain ⟨t₂, hc₂, rfl⟩ := eq_of_run_change h₂
  -- no file lies on the way, or creating the directories would have failed
  have hway : ∀ a, a ≠ [] → a <+: p.dropLast → ∀ z, d.files.nodes[a]? ≠ some (.file z) := by
    intro a ha hpre z hz
    obtain ⟨e, he⟩ := createDirAll_of_file hwf hpre ha hz
    rw [he] at hc₁
    cases hc₁
  obtain ⟨t₁', h₁', hv⟩ := createDirAll_of_noFile hwf _ hway
  rw [h₁', Except.ok.injEq] at hc₁
  subst hc₁
  have habove : t₁'.DirsAbove p := by
    intro a ha
    have ha' := mem_ancestors.mp ha
    rw [node?_of_ne_nil ha'.1, hv, if_pos ⟨ha'.1, prefix_dropLast_of_mem_ancestors ha⟩]
  -- and no directory is in the file's place, or the write would have failed
  have hnd : t₁'.nodes[p]? ≠ some .dir := by
    intro hd
    rw [write_of_dir hp habove hd] at hc₂
    cases hc₂
  rw [write_of_dirsAbove hp habove hnd data, Except.ok.injEq] at hc₂
  subst hc₂
  exact ⟨rfl, (hwf.withDirs hv).setNode_file habove hnd data, fun q => by rw [nodes_setNode, hv]⟩

/-- A path below `X` under a top name other than `objects` is not below `objects/`, nor on the
way there. -/
theorem objects_ne_of_top {X : FsPath} {x : String} {rest r : FsPath} (hx : x ≠ "objects") :
    X ++ "objects" :: r ≠ X ++ x :: rest ∧ ¬ X ++ "objects" :: r <+: (X ++ x :: rest).dropLast := by
  refine ⟨fun h => hx (List.cons.inj (List.append_cancel_left h)).1.symm, fun h => ?_⟩
  rw [List.dropLast_append_of_ne_nil (List.cons_ne_nil x rest),
    List.prefix_append_right_inj] at h
  rcases rest with _ | ⟨y, ys⟩
  · simp at h
  · rw [List.dropLast_cons_cons] at h
    exact hx (List.cons_prefix_cons.mp h).1.symm

/-- What pruning above `p` leaves of tree `t`: off the prefixes of `p` the tree as it was; on
them, directories taken away or left, and each one left still holding something off them. -/
structure Pruned (p : FsPath) (t t' : FileTree) : Prop where
  wf : t'.WellFormed
  off : ∀ q, ¬ q <+: p → t'.nodes[q]? = t.nodes[q]?
  way : ∀ q, q <+: p → t'.nodes[q]? = none ∨ t'.nodes[q]? = t.nodes[q]?
  holds : ∀ q, q ≠ [] → q <+: p → (t'.nodes[q]?).isSome →
    ∃ k, ¬ k <+: p ∧ q <+: k ∧ (t'.nodes[k]?).isSome

namespace Pruned

variable {t t' : FileTree} {p : FsPath}

/-- Above the root there is nothing to prune. -/
theorem nil (hwf : t.WellFormed) : Pruned [] t t where
  wf := hwf
  off _ _ := rfl
  way _ _ := .inr rfl
  holds _ hq hpre := absurd (List.prefix_nil.mp hpre) hq

/-- Pruning stops at a directory that holds an entry, and leaves the tree. -/
theorem stop (hwf : t.WellFormed) {x : String} (hx : (t.nodes[p ++ [x]]?).isSome) :
    Pruned p t t where
  wf := hwf
  off _ _ := rfl
  way _ _ := .inr rfl
  holds _ _ hpre _ :=
    ⟨p ++ [x], fun h => by simpa using h.length_le, hpre.trans (List.prefix_append p [x]), hx⟩

/-- Taking away the empty directory `p` and pruning above it prunes above `p`. -/
theorem erase (hp : p ≠ []) (h : Pruned p.dropLast ⟨t.nodes.erase p⟩ t') : Pruned p t t' := by
  have hlen : p.dropLast.length < p.length := by
    rw [List.length_dropLast]
    have := List.length_pos_iff_ne_nil.mpr hp
    omega
  -- `p` itself is gone, and everything below it on the way was already
  have hgone : t'.nodes[p]? = none := by
    rw [h.off p (fun hpre => by have := hpre.length_le; omega), nodes_erase, if_pos rfl]
  refine ⟨h.wf, fun q hq => ?_, fun q hq => ?_, fun q hq hpre hsome => ?_⟩
  · rw [h.off q (fun hpre => hq (hpre.trans (List.dropLast_prefix p))), nodes_erase,
      if_neg (fun hqp : q = p => hq (hqp ▸ List.prefix_rfl))]
  · by_cases hqp : q = p
    · exact .inl (hqp ▸ hgone)
    · rcases h.way q (prefix_dropLast_of_ne hq hqp) with h' | h'
      · exact .inl h'
      · rw [h', nodes_erase, if_neg hqp]
        exact .inr rfl
  · have hqp : q ≠ p := fun hqp => by rw [hqp, hgone] at hsome; cases hsome
    obtain ⟨k, hk, hqk, hks⟩ := h.holds q hq (prefix_dropLast_of_ne hpre hqp) hsome
    refine ⟨k, fun hkp => hk (prefix_dropLast_of_ne hkp fun hkp' => ?_), hqk, hks⟩
    rw [hkp', hgone] at hks
    cases hks

end Pruned

/-- **Pruning the directories above a removed repository** takes away those left empty, from
the lowest up, and stops at the first that is not. Given fuel for every directory above `p`, it
never fails and leaves the tree `Pruned`. -/
theorem run_pruneEmptyParents : ∀ (fuel : Nat) (p : FsPath) (d : Disk), d.files.WellFormed →
    (∀ a, a ≠ [] → a <+: p → d.files.nodes[a]? = some .dir) → p.length ≤ fuel →
    ∃ t' : FileTree, (pruneEmptyParents fuel p).run.run d = (.ok (), { d with files := t' }) ∧
      Pruned p d.files t'
  | 0, p, d, hwf, _, hfuel => by
    obtain rfl : p = [] := List.eq_nil_of_length_eq_zero (by omega)
    exact ⟨d.files, rfl, Pruned.nil hwf⟩
  | fuel + 1, p, d, hwf, hdirs, hfuel => by
    unfold pruneEmptyParents
    by_cases hp : p = []
    · subst hp
      exact ⟨d.files, rfl, Pruned.nil hwf⟩
    have habove : d.files.DirsAbove p := fun a ha => by
      have ha' := mem_ancestors.mp ha
      rw [node?_of_ne_nil ha'.1]
      exact hdirs a ha'.1 ha'.2.1
    simp only [List.isEmpty_iff, hp, if_false]
    rw [run_bind_of_ok (run_files d),
      removeDir_of_dirsAbove hp habove (hdirs p hp List.prefix_rfl)]
    by_cases hc : d.files.children p = []
    · -- an empty directory goes, and the one above it is next
      rw [if_pos (List.isEmpty_iff.mpr hc)]
      have hlen : 0 < p.length := List.length_pos_iff_ne_nil.mpr hp
      obtain ⟨t', hrun, hpr⟩ := run_pruneEmptyParents fuel p.dropLast
        { d with files := ⟨d.files.nodes.erase p⟩ }
        (hwf.erase (hwf.not_mem_ancestors_of_children hc)) (fun a ha hpre => by
          show (⟨d.files.nodes.erase p⟩ : FileTree).nodes[a]? = _
          rw [nodes_erase, if_neg (fun h => by
            have := hpre.length_le
            rw [h, List.length_dropLast] at this
            omega)]
          exact hdirs a ha (hpre.trans (List.dropLast_prefix p)))
        (by rw [List.length_dropLast]; omega)
      exact ⟨t', hrun, hpr.erase hp⟩
    · -- a directory that still holds something stays, and so does everything above it
      rw [if_neg (fun h => hc (List.isEmpty_iff.mp h))]
      obtain ⟨x, hx⟩ := List.exists_mem_of_ne_nil _ hc
      exact ⟨d.files, rfl, Pruned.stop hwf (mem_children.mp hx)⟩

namespace HoldsObjects

variable {O : ObjMap}

/-- **A write that succeeded beside `objects/`** keeps the loose files. -/
theorem of_writeAtomic {d d' : Disk} {X : FsPath} (h : HoldsObjects d.files X O) {x : String}
    {rest : FsPath} (hx : x ≠ "objects") {data : Bytes}
    (hrun : (writeAtomic (X ++ x :: rest) data).run.run d = (.ok (), d')) :
    HoldsObjects d'.files X O := by
  obtain ⟨-, hwf, hnodes⟩ := of_run_writeAtomic h.wf (by simp) hrun
  refine h.move hwf (fun a ha hpre => ?_) (fun r => ?_)
  · rw [hnodes, if_neg (fun hc => by have := hpre.length_le; rw [hc] at this; simp at this)]
    split_ifs
    · rfl
    · exact h.dirs a ha hpre
  · rw [hnodes, if_neg (objects_ne_of_top hx).1, if_neg (fun hc => (objects_ne_of_top hx).2 hc.2)]

/-- A reference written that succeeded keeps the loose files: a kept name is `HEAD` or lies
below `refs/`. -/
theorem of_setReference (h : Handle) {d d' : Disk} (hX : HoldsObjects d.files h.dir O)
    {r : Reference} (hr : RefName.Kept r.name)
    (hrun : (h.setReference r).run.run d = (.ok (), d')) : HoldsObjects d'.files h.dir O := by
  unfold Handle.setReference at hrun
  rw [run_bind_of_ok (Handle.run_refPath h hr.1 d)] at hrun
  rcases hr.head_or_refs with hhead | ⟨k, x, rest, hparts⟩
  · rw [hhead, RefName.splitOn_head] at hrun
    exact hX.of_writeAtomic (by decide) hrun
  · rw [hparts] at hrun
    exact hX.of_writeAtomic (by decide) hrun

/-- **Seeding that succeeded** leaves the first objects of a new repository as loose files. -/
theorem of_seed (h : Handle) {d d' : Disk} (hX : HoldsObjects d.files h.dir ObjMap.empty)
    (o : InitOptions) (now : Int) (hbranch : o.initialCommit = true → RefName.Kept o.branchRef)
    (hrun : (h.seed o now).run.run d = (.ok (), d')) :
    HoldsObjects d'.files h.dir (initialObjects h.name o now) := by
  unfold Handle.seed at hrun
  obtain ⟨_, d₁, h₁, hrest⟩ := run_bind_eq_ok hrun
  have hX₁ : HoldsObjects d₁.files h.dir ObjMap.empty := hX.of_writeAtomic (by decide) h₁
  unfold initialObjects ObjMap.ofObjects
  generalize hic : initialContent h.name o now = ic at hrest ⊢
  obtain ⟨objects, commit⟩ := ic
  -- the objects, each filed by its loose file
  obtain ⟨d₂, hloop, hX₂⟩ := run_forIn_fold (fun O (d : Disk) => HoldsObjects d.files h.dir O)
    (fun O x => O.put x.kind x.data)
    (fun (x : GitObject) (_ : PUnit) => (do
      let _ ← h.putObject x.kind x.data
      pure (ForInStep.yield PUnit.unit) : DiskM (ForInStep PUnit))) objects
    (fun x _ O s hs => by
      obtain ⟨t', hput, hX', -⟩ := hs.run_putObject h x.kind x.data
      exact ⟨_, by rw [run_bind_of_ok hput]; rfl, hX'⟩)
    ObjMap.empty d₁ hX₁
  dsimp only at hrest
  obtain ⟨_, d₃, h₃, hrefs⟩ := run_bind_eq_ok hrest
  rw [hloop, Prod.mk.injEq] at h₃
  obtain ⟨-, rfl⟩ := h₃
  -- then the references: the branch when there is a first commit, and `HEAD`
  cases commit with
  | none => exact hX₂.of_setReference h headName_kept hrefs
  | some c =>
    obtain ⟨_, d₄, h₄, h₅⟩ := run_bind_eq_ok hrefs
    have hkept : RefName.Kept o.branchRef := by
      apply hbranch
      rw [← initialContent_snd_isSome h.name o now, hic]
      rfl
    exact (hX₂.of_setReference h hkept h₄).of_setReference h headName_kept h₅

/-- A staging directory that holds exactly the layout has an empty object directory. -/
theorem of_layout {t : FileTree} {Y : FsPath} (hwf : t.WellFormed)
    (hdirs : ∀ a, a ≠ [] → a <+: Y → t.nodes[a]? = some .dir)
    (hstage : ∀ q, t.nodes[Y ++ q]? = if ∃ l ∈ layout, q <+: l then some .dir else none) :
    HoldsObjects t Y ObjMap.empty :=
  have hshort : ∀ l ∈ layout, l.length = 2 := by decide
  { wf := hwf
    dirs := hdirs
    objects := by rw [hstage, if_pos (by decide)]
    fanout := fun x z => by
      rw [hstage]
      split_ifs <;> simp
    files := fun id => by
      -- the layout goes two levels down, an object three
      rw [hstage, if_neg]
      · rfl
      · rintro ⟨l, hl, hpre⟩
        have := hpre.length_le
        simp [hshort l hl] at this
    only := fun x y hxy => by
      rw [hstage] at hxy
      split_ifs at hxy with hl
      · obtain ⟨l, hl, hpre⟩ := hl
        have := hpre.length_le
        simp [hshort l hl] at this
      · cases hxy }

end HoldsObjects

/-! ## Where a repository can be created, and where it is settled -/

theorem staging_ne_tombstone (X : FsPath) : sibling X "tmp" ≠ sibling X "deleted" := by
  intro h
  have := congrArg (fun l : FsPath => (l.getLastD "").length) h
  simp [sibling, String.length_append] at this
  exact absurd this (by decide)

/-- Nothing below the tombstone is on the way to the staging sibling or below it. -/
theorem tombstone_apart {X : FsPath} (hX : X ≠ []) {q : FsPath}
    (hq : sibling X "deleted" <+: q) : ¬ q <+: sibling X "tmp" ∧ ¬ sibling X "tmp" <+: q := by
  have hlen : (sibling X "deleted").length = (sibling X "tmp").length := by
    rw [length_sibling hX, length_sibling hX]
  refine ⟨fun h => ?_, fun h => ?_⟩
  · exact staging_ne_tombstone X ((hq.trans h).eq_of_length hlen).symm
  · rcases List.prefix_or_prefix_of_prefix h hq with h' | h'
    · exact staging_ne_tombstone X (h'.eq_of_length hlen.symm)
    · exact staging_ne_tombstone X (h'.eq_of_length hlen).symm

/-- A disk where repository `n` can be created: there is room for its directory, nothing is at
or below its tombstone sibling, and the cache holds no entry under the key of one of its
objects. -/
structure VacantDisk (n : RepoName) (d : Disk) : Prop where
  room : Room d.files (repoDir n)
  tombstone : ∀ q, sibling (repoDir n) "deleted" <+: q → d.files.nodes[q]? = none
  cache : CacheHolds d.cache n ObjMap.empty

/-- Around the repository in directory `X`: its `HEAD` file is there, and nothing is at or
below its staging and tombstone siblings. -/
structure Settled (t : FileTree) (X : FsPath) : Prop where
  head : ∃ z, t.nodes[X ++ [headName]]? = some (.file z)
  staging : ∀ q, sibling X "tmp" <+: q → t.nodes[q]? = none
  tombstone : ∀ q, sibling X "deleted" <+: q → t.nodes[q]? = none

/-- Object calls change nothing outside `objects/`, and so keep the repository settled. -/
theorem Settled.frame {t t' : FileTree} {X : FsPath} (hX : X ≠ []) (hs : Settled t X)
    (hc : ChangedBelow (X ++ ["objects"]) t t') : Settled t' X where
  head := by
    rw [hc _ (fun h => by simp [headName] at h)]
    exact hs.head
  staging q hq := by
    rw [hc q (fun h => not_prefix_of_prefix_sibling hX hq ((List.prefix_append X _).trans h))]
    exact hs.staging q hq
  tombstone q hq := by
    rw [hc q (fun h => not_prefix_of_prefix_sibling hX hq ((List.prefix_append X _).trans h))]
    exact hs.tombstone q hq

variable {n : RepoName} {O : ObjMap} {d : Disk}

/-- A settled repository exists: its `HEAD` is there, with directories on the way. -/
theorem run_exists_of_settled (hX : HoldsObjects d.files (repoDir n) O)
    (hs : Settled d.files (repoDir n)) : (exists? n).run.run d = (.ok true, d) := by
  obtain ⟨z, hz⟩ := hs.head
  have hway : ∀ a ∈ ancestors (repoDir n ++ [headName]), ∀ z',
      d.files.node? a ≠ some (.file z') := by
    intro a ha z'
    have ha' := mem_ancestors.mp ha
    rw [node?_of_ne_nil ha'.1, hX.dirs a ha'.1 (by simpa using prefix_dropLast_of_mem_ancestors ha)]
    simp
  unfold exists?
  rw [run_bind_of_ok (run_files d), exists?_of_noFile hX.wf (by simp) hway, hz]
  rfl

/-- Creating a repository that is there fails as existing and changes nothing. -/
theorem run_create_existing (hX : HoldsObjects d.files (repoDir n) O)
    (hs : Settled d.files (repoDir n)) (o : InitOptions) (now : Int) :
    (create n o now).run.run d = (.error (.alreadyExists n.path), d) := by
  unfold create
  rw [run_bind_of_ok (run_exists_of_settled hX hs)]
  rfl

namespace VacantDisk

/-- Deleting a repository that is not there fails as absent and changes nothing. -/
theorem run_delete (hv : VacantDisk n d) :
    (delete n).run.run d = (.error (.notFound ("repository " ++ n.path)), d) := by
  unfold delete
  rw [run_bind_of_ok hv.room.not_exists]
  rfl

/-- **Creating a repository where it can be created** succeeds, leaves its first objects as its
loose files, settles it, and changes nothing off the way to its staging sibling, off that
sibling and off its directory. -/
theorem run_create_files (hv : VacantDisk n d) (o : InitOptions) (now : Int)
    (hhead : RefTarget.Kept (.symbolic o.branchRef))
    (hbranch : o.initialCommit = true → RefName.Kept o.branchRef) :
    ∃ t', (create n o now).run.run d = (.ok (), { d with files := t' }) ∧
      HoldsObjects t' (repoDir n) (initialObjects n o now) ∧ Settled t' (repoDir n) ∧
      ∀ q, ¬ q <+: sibling (repoDir n) "tmp" → ¬ sibling (repoDir n) "tmp" <+: q →
        ¬ repoDir n <+: q → t'.nodes[q]? = d.files.nodes[q]? := by
  have hX : repoDir n ≠ [] := repoDir_ne_nil n
  obtain ⟨t₂, t₃, t', hrun, hwf₂, hdirs₂, hstage, hseed, hcarry, hstaging, hframe, hr⟩ :=
    run_create_steps n hv.room o now hhead hbranch
  -- the staging directory starts with no objects, and the seed files the first ones
  have hobj₃ := (HoldsObjects.of_layout hwf₂ hdirs₂ hstage).of_seed (d := { d with files := t₂ })
    ⟨n, sibling (repoDir n) "tmp"⟩ o now hbranch hseed
  have hhead' := hr.files headName (.symbolic o.branchRef) (by simp [initialRefs])
  rw [RefName.splitOn_head] at hhead'
  refine ⟨t', hrun, hobj₃.move hr.wf (fun a ha hpre => hr.dir_of_prefix_dir ha hpre)
      (fun r => hcarry _), ⟨⟨_, hhead'⟩, hstaging, fun q hq => ?_⟩, hframe⟩
  -- the tombstone is off every path creating touched
  obtain ⟨h₁, h₂⟩ := tombstone_apart hX hq
  rw [hframe q h₁ h₂ (not_prefix_of_prefix_sibling hX hq)]
  exact hv.tombstone q hq

/-- **Creating a repository where it can be created** succeeds, leaves its first objects as its
loose files with a cache that agrees with them, and settles it. -/
theorem run_create (hv : VacantDisk n d) (o : InitOptions) (now : Int)
    (hhead : RefTarget.Kept (.symbolic o.branchRef))
    (hbranch : o.initialCommit = true → RefName.Kept o.branchRef)
    (hsizes : ∀ x ∈ (initialContent n o now).1, x.data.length < 2 ^ 64) :
    ∃ t', (create n o now).run.run d = (.ok (), { d with files := t' }) ∧
      DiskObjects n (initialObjects n o now) { d with files := t' } ∧ Settled t' (repoDir n) := by
  obtain ⟨t', hrun, hobj, hset, -⟩ := hv.run_create_files o now hhead hbranch
  exact ⟨t', hrun, ⟨ObjMap.kept_ofObjects fun x hx => ⟨isBase_of_mem_initialContent hx,
    hsizes x hx⟩, hobj, hv.cache.mono fun id x hx => by simp [ObjMap.empty] at hx⟩, hset⟩

end VacantDisk

theorem run_attempt_ok {f : FileTree → Except OsError FileTree} {t : FileTree}
    (h : f d.files = .ok t) : (attempt f).run.run d = (.ok (), { d with files := t }) := by
  unfold attempt
  rw [run_bind_of_ok (run_files d), h]
  rfl

/-- What deleting the repository in `X` leaves of tree `t`: nothing at or below `X` or its
tombstone `T`; off them and off the way to `X`, the tree as it was; on the way, directories
taken away or left, and each one left still holding something off the way. -/
structure Removed (X T : FsPath) (t t' : FileTree) : Prop where
  wf : t'.WellFormed
  gone : ∀ q, X <+: q ∨ T <+: q → t'.nodes[q]? = none
  off : ∀ q, ¬ q <+: X.dropLast → ¬ X <+: q → ¬ T <+: q → t'.nodes[q]? = t.nodes[q]?
  way : ∀ q, q <+: X.dropLast → t'.nodes[q]? = none ∨ t'.nodes[q]? = t.nodes[q]?
  holds : ∀ q, q ≠ [] → q <+: X.dropLast → (t'.nodes[q]?).isSome →
    ∃ k, ¬ k <+: X.dropLast ∧ q <+: k ∧ (t'.nodes[k]?).isSome

/-- Moving the directory `X` of a settled repository to its tombstone `T`: below `T` what was
below `X`, nothing below `X`, and the rest as it was. -/
theorem rename_tombstone (hX : HoldsObjects d.files (repoDir n) O) (hs : Settled d.files (repoDir n)) :
    ∃ t₁ : FileTree, d.files.rename (repoDir n) (sibling (repoDir n) "deleted") = .ok t₁ ∧
      t₁.WellFormed ∧ ∀ q, t₁.nodes[q]? =
        if sibling (repoDir n) "deleted" <+: q then
          d.files.nodes[repoDir n ++ q.drop (sibling (repoDir n) "deleted").length]?
        else if repoDir n <+: q then none else d.files.nodes[q]? := by
  set X := repoDir n
  set T := sibling X "deleted"
  have hX0 : X ≠ [] := repoDir_ne_nil n
  have hT : T ≠ [] := by simp [T, sibling]
  have hlen : X.length = T.length := (length_sibling hX0 "deleted").symm
  -- the way to the repository and to its tombstone is directories
  have hdirsX : d.files.DirsAbove X := by
    intro a ha
    have ha' := mem_ancestors.mp ha
    rw [node?_of_ne_nil ha'.1]
    exact hX.dirs a ha'.1 ha'.2.1
  have hdirsT : d.files.DirsAbove T := by
    intro a ha
    have ha' := mem_ancestors.mp ha
    have hpre : a <+: X.dropLast := by
      rw [← sibling_dropLast X "deleted"]
      exact prefix_dropLast_of_mem_ancestors ha
    rw [node?_of_ne_nil ha'.1]
    exact hX.dirs a ha'.1 (hpre.trans (List.dropLast_prefix X))
  have hsrc : d.files.nodes[X]? = some .dir := hX.dirs X hX0 List.prefix_rfl
  have hnodes := @nodes_rename d.files X T hs.tombstone
  exact ⟨_, rename_eq hX0 hT hdirsX hdirsT hsrc (sibling_ne X "deleted").symm hlen
    (hs.tombstone T List.prefix_rfl), hX.wf.of_move hdirsT hsrc hlen hnodes, hnodes⟩

/-- **Deleting a settled repository, up to the pruning**: it is found, its directory `X` goes
to the tombstone `T`, the cache is emptied and the tombstone removed, which leaves the tree
without `X` and `T`; what is left to run is the pruning above `X`. -/
theorem run_delete_eq (hX : HoldsObjects d.files (repoDir n) O) (hs : Settled d.files (repoDir n)) :
    ∃ t₂ : FileTree, t₂.WellFormed ∧
      (∀ q, t₂.nodes[q]? = if repoDir n <+: q ∨ sibling (repoDir n) "deleted" <+: q then none
        else d.files.nodes[q]?) ∧
      (delete n).run.run d = (pruneEmptyParents (repoDir n).length (repoDir n).dropLast).run.run
        { files := t₂, cache := d.cache.clear } := by
  obtain ⟨t₁, hmove, hwf₁, hnodes₁⟩ := rename_tombstone hX hs
  set X := repoDir n with hXdef
  set T := sibling X "deleted" with hTdef
  have hX0 : X ≠ [] := repoDir_ne_nil n
  have hT : T ≠ [] := by simp [T, sibling]
  have hlen : X.length = T.length := (length_sibling hX0 "deleted").symm
  -- the tombstone is a directory, with directories above it
  have hT₁ : t₁.nodes[T]? = some .dir := by
    rw [hnodes₁, if_pos List.prefix_rfl, List.drop_length, List.append_nil]
    exact hX.dirs X hX0 List.prefix_rfl
  have hdirsT₁ : t₁.DirsAbove T := by
    intro a ha
    have ha' := mem_ancestors.mp ha
    have hpre : a <+: X.dropLast := by
      rw [← sibling_dropLast X "deleted"]
      exact prefix_dropLast_of_mem_ancestors ha
    rw [node?_of_ne_nil ha'.1, hnodes₁, if_neg (fun h => by have := h.length_le; omega),
      if_neg (fun h => by have := h.length_le; omega)]
    exact hX.dirs a ha'.1 (hpre.trans (List.dropLast_prefix X))
  refine ⟨⟨t₁.nodes.filter fun r _ => !T.isPrefixOf r⟩, hwf₁.removeBelow T, fun q => ?_, ?_⟩
  · rw [nodes_removeBelow, hnodes₁]
    by_cases hTq : T <+: q
    · simp [hTq]
    · by_cases hXq : X <+: q <;> simp [hTq, hXq]
  · unfold delete
    rw [run_bind_of_ok (run_exists_of_settled hX hs)]
    simp only [Bool.not_true, Bool.false_eq_true, if_false]
    rw [← hXdef, ← hTdef, run_bind_of_ok (run_change_ok hmove),
      run_bind_of_ok (rfl : (modify fun d' : Disk => { d' with cache := d'.cache.clear } :
        DiskM Unit).run.run { d with files := t₁ } = (.ok (), { files := t₁, cache := d.cache.clear })),
      run_bind_of_ok (run_attempt_ok (removeDirAll_of_dir hT hdirsT₁ hT₁))]

/-- **Deleting a settled repository** succeeds, empties the cache, and leaves the tree without
the repository and its tombstone, with the directories above it that it left empty pruned. -/
theorem run_delete_steps (hX : HoldsObjects d.files (repoDir n) O) (hs : Settled d.files (repoDir n)) :
    ∃ t', (delete n).run.run d = (.ok (), { files := t', cache := d.cache.clear }) ∧
      Removed (repoDir n) (sibling (repoDir n) "deleted") d.files t' := by
  obtain ⟨t₂, hwf₂, hnodes₂, hrun⟩ := run_delete_eq hX hs
  have hX0 := repoDir_ne_nil n
  have hlenT := length_sibling hX0 "deleted"
  have hlen : (repoDir n).dropLast.length < (repoDir n).length := by
    rw [List.length_dropLast]
    have := List.length_pos_iff_ne_nil.mpr hX0
    omega
  -- the way above the repository is shorter than it and than its tombstone
  have hshort : ∀ q, q <+: (repoDir n).dropLast → t₂.nodes[q]? = d.files.nodes[q]? := by
    intro q hq
    have := hq.length_le
    rw [hnodes₂, if_neg]
    rintro (h | h) <;> have := h.length_le <;> omega
  obtain ⟨t', hrun', hpr⟩ := run_pruneEmptyParents _ _ { files := t₂, cache := d.cache.clear } hwf₂
    (fun a ha hpre => (hshort a hpre).trans (hX.dirs a ha (hpre.trans (List.dropLast_prefix _))))
    (le_of_lt hlen)
  refine ⟨t', hrun.trans hrun', hpr.wf, fun q hq => ?_, fun q h₁ h₂ h₃ => ?_,
    fun q hq => ?_, hpr.holds⟩
  · have hoff : ¬ q <+: (repoDir n).dropLast := fun h => by
      have := h.length_le
      rcases hq with h' | h' <;> have := h'.length_le <;> omega
    rw [hpr.off q hoff, hnodes₂, if_pos hq]
  · rw [hpr.off q h₁, hnodes₂, if_neg (by tauto)]
  · rw [← hshort q hq]
    exact hpr.way q hq

/-- **Deleting a settled repository** succeeds and leaves a disk where it can be created
again: its directory and its tombstone gone, the directories above it that it left empty
gone, and the cache empty. -/
theorem run_delete_vacant (hd : DiskObjects n O d) (hs : Settled d.files (repoDir n)) :
    ∃ d', (delete n).run.run d = (.ok (), d') ∧ VacantDisk n d' := by
  obtain ⟨t', hrun, hr⟩ := run_delete_steps hd.files hs
  have hX := repoDir_ne_nil n
  refine ⟨_, hrun, ⟨⟨hr.wf, fun a ha hpre z => ?_, fun q hq => hr.gone q (.inl hq),
    fun q hq => ?_⟩, fun q hq => hr.gone q (.inr hq), CacheHolds.clear _ _ _⟩⟩
  · rcases hr.way a hpre with h | h
    · simp [h]
    · rw [h, hd.files.dirs a ha (hpre.trans (List.dropLast_prefix _))]
      simp
  · -- the staging sibling is off everything deleting touched
    have hoff : ¬ q <+: (repoDir n).dropLast := fun h => by
      have h₁ := h.length_le
      have h₂ := hq.length_le
      rw [length_sibling hX, List.length_dropLast] at *
      have := List.length_pos_iff_ne_nil.mpr hX
      omega
    rw [hr.off q hoff (not_prefix_of_prefix_sibling hX hq) (fun hT => (tombstone_apart hX hT).2 hq)]
    exact hs.staging q hq

end Local

end GitServer
