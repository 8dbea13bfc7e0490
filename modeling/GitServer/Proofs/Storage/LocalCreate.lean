import GitServer.Proofs.Storage.LocalRefs
import Mathlib

/-!
# Creating a repository in a directory tree

A repository is built in a hidden sibling of its directory and then moved into place. Where
there is room for it (`Room`: the tree is well formed, no file is on the way, and nothing is at
or below the directory or the sibling), creation succeeds and the directory holds the
references a new repository starts with (`run_create_of_room`).

The proof follows the build. The sibling and its layout directories come first
(`run_createDirAll_each`, `Room.run_stage`); the seed writes the configuration and the objects,
which leave the references alone (`HoldsRefs.write_other`), then the references; every write
stays inside the sibling (`ChangedBelow`). The move carries the references from the sibling to
the directory (`HoldsRefs.rename_staged`, `HoldsRefs.transport`).
-/

namespace GitServer

namespace Local

open FileTree

variable {t t' : FileTree} {X : FsPath} {M : RefMap}

/-! ## The hidden sibling -/

theorem sibling_dropLast (X : FsPath) (tag : String) : (sibling X tag).dropLast = X.dropLast := by
  simp [sibling]

theorem length_sibling (hX : X ≠ []) (tag : String) : (sibling X tag).length = X.length := by
  have := List.length_pos_iff_ne_nil.mpr hX
  simp [sibling]
  omega

theorem sibling_ne (X : FsPath) (tag : String) : sibling X tag ≠ X := by
  intro h
  have hlast : "." ++ X.getLastD "" ++ "." ++ tag ++ "\x5c" = X.getLastD "" := by
    have := congrArg (List.getLastD · "") h
    simpa [sibling] using this
  have hdot : ".".length = 1 := rfl
  have hslash : "\x5c".length = 1 := rfl
  have := congrArg String.length hlast
  simp only [String.length_append, hdot, hslash] at this
  omega

theorem not_prefix_of_prefix_sibling (hX : X ≠ []) {tag : String} {q : FsPath}
    (hs : sibling X tag <+: q) : ¬ X <+: q := by
  intro hq
  rcases List.prefix_or_prefix_of_prefix hs hq with h | h
  · exact sibling_ne X tag (h.eq_of_length (length_sibling hX tag))
  · exact sibling_ne X tag (h.eq_of_length (length_sibling hX tag).symm).symm

/-! ## Moving and writing beside the references -/

/-- A tree that agrees with one holding the map wherever references live (under `refs/`, at
`HEAD` and at `packed-refs`), and has the directories down to its own, holds the map too. -/
theorem HoldsRefs.transport {A B : FsPath} (hr : HoldsRefs t A M) (hwf : t'.WellFormed)
    (hB : ∀ a, a ≠ [] → a <+: B → t'.nodes[a]? = some .dir)
    (hrel : ∀ q, q.head? = some "refs" ∨ q = [headName] ∨ q = ["packed-refs"] →
      t'.nodes[B ++ q]? = t.nodes[A ++ q]?) :
    HoldsRefs t' B M where
  wf := hwf
  kept := hr.kept
  refs a ha := by
    have ha' := mem_ancestors.mp ha
    rw [node?_of_ne_nil ha'.1]
    exact hB a ha'.1 (by simpa using prefix_dropLast_of_mem_ancestors ha)
  refsDir := by
    rw [hrel _ (.inl rfl)]
    exact hr.refsDir
  packed := by
    rw [hrel _ (.inr (.inr rfl))]
    exact hr.packed
  head hnone := by
    rw [hrel _ (.inr (.inl rfl))]
    exact hr.head hnone
  files m r hm := by
    -- a name of the map is `HEAD` or lies below `refs/`
    rcases (hr.kept.names m (by simp [hm])).head_or_refs with rfl | ⟨k, x, rest, hparts⟩
    · rw [RefName.splitOn_head, hrel ["HEAD"] (.inr (.inl rfl)), ← RefName.splitOn_head]
      exact hr.files _ r hm
    · rw [hparts, hrel _ (.inl rfl), ← hparts]
      exact hr.files m r hm
  kinds k d := by
    rw [hrel _ (.inl rfl)]
    exact hr.kinds k d
  only q hq hlen hhead := by
    rw [hrel q (.inl hhead)] at hq
    exact hr.only q hq hlen hhead
  spare a ha hpre := absurd (List.prefix_nil.mp hpre) ha

/-- **Writing a file off the references** (below a top name other than `refs`, `HEAD` and
`packed-refs`) keeps the map. -/
theorem HoldsRefs.write_other (hr : HoldsRefs t X M) {x : String} {rest : FsPath}
    (hx : x ≠ "refs" ∧ x ≠ headName ∧ x ≠ "packed-refs") {t₁ : FileTree}
    (hv : WithDirs t t₁ (X ++ x :: rest).dropLast) {n : FsNode}
    (hwf : (t₁.setNode (X ++ x :: rest) n).WellFormed) :
    HoldsRefs (t₁.setNode (X ++ x :: rest) n) X M := by
  have hdrop : (X ++ x :: rest).dropLast = X ++ (x :: rest).dropLast :=
    List.dropLast_append_of_ne_nil (List.cons_ne_nil x rest)
  refine hr.transport hwf (fun a ha hpre => ?_) (fun q hq => ?_)
  · have hne : a ≠ X ++ x :: rest := fun h => by
      have := hpre.length_le
      rw [h] at this
      simp at this
    rw [nodes_setNode, if_neg hne, hv, if_pos ⟨ha, hpre.trans (hdrop ▸ List.prefix_append X _)⟩]
  · -- a place of the references starts with another name than the file's path
    obtain ⟨y, q', rfl, hy⟩ : ∃ y q', q = y :: q' ∧ y ≠ x := by
      rcases hq with hq | rfl | rfl
      · cases q with
        | nil => simp at hq
        | cons y q' =>
          simp only [List.head?_cons, Option.some.injEq] at hq
          exact ⟨y, q', rfl, hq ▸ hx.1.symm⟩
      · exact ⟨headName, [], rfl, hx.2.1.symm⟩
      · exact ⟨"packed-refs", [], rfl, hx.2.2.symm⟩
    have hoff : ∀ r, ¬ y :: q' <+: x :: r := fun r h => hy (List.cons_prefix_cons.mp h).1
    rw [nodes_setNode, if_neg (fun h => hoff rest (by
        rw [List.append_cancel_left_eq] at h
        rw [h])), hv, hdrop, if_neg (fun h => ?_)]
    have h2 := (List.prefix_append_right_inj X).mp h.2
    exact hoff rest (h2.trans (List.dropLast_prefix _))

/-! ## The layout -/

theorem run_createDirAll_each (Y : FsPath) : ∀ (L : List FsPath) (d : Disk), d.files.WellFormed →
    (∀ l ∈ L, ∀ a, a ≠ [] → a <+: Y ++ l → ∀ z, d.files.nodes[a]? ≠ some (.file z)) →
    ∃ t', (forIn L PUnit.unit fun l _ => do
        change (·.createDirAll (Y ++ l))
        pure (ForInStep.yield PUnit.unit) : DiskM PUnit).run.run d =
        (.ok PUnit.unit, { d with files := t' }) ∧ t'.WellFormed ∧
      ∀ q, t'.nodes[q]? = if q ≠ [] ∧ ∃ l ∈ L, q <+: Y ++ l then some .dir else d.files.nodes[q]?
  | [], d, hwf, _ => ⟨d.files, rfl, hwf, fun q => by simp⟩
  | l :: L, d, hwf, hno => by
    obtain ⟨t₁, h₁, hv⟩ := createDirAll_of_noFile hwf (Y ++ l) (hno l (by simp))
    obtain ⟨t', hrun, hwf', hnodes⟩ := run_createDirAll_each Y L { d with files := t₁ }
      (hwf.withDirs hv) (by
        intro l' hl' a ha hpre z
        show t₁.nodes[a]? ≠ _
        rw [hv]
        split_ifs
        · simp
        · exact hno l' (by simp [hl']) a ha hpre z)
    refine ⟨t', ?_, hwf', fun q => ?_⟩
    · rw [List.forIn_cons, run_bind_of_ok (by rw [run_bind_of_ok (run_change_ok h₁)]; rfl)]
      exact hrun
    · rw [hnodes q]
      show (if _ then _ else t₁.nodes[q]?) = _
      rw [hv q]
      -- a prefix of a later path, of this one, or of none
      by_cases hL : q ≠ [] ∧ ∃ l' ∈ L, q <+: Y ++ l'
      · obtain ⟨hq, l', hl', hpre⟩ := hL
        rw [if_pos ⟨hq, l', hl', hpre⟩, if_pos ⟨hq, l', List.mem_cons_of_mem l hl', hpre⟩]
      · rw [if_neg hL]
        by_cases hl : q ≠ [] ∧ q <+: Y ++ l
        · rw [if_pos hl, if_pos ⟨hl.1, l, List.mem_cons_self, hl.2⟩]
        · rw [if_neg hl, if_neg]
          rintro ⟨hq, l', hl', hpre⟩
          rcases List.mem_cons.mp hl' with rfl | hl'
          · exact hl ⟨hq, hpre⟩
          · exact hL ⟨hq, l', hl', hpre⟩

/-! ## Seeding -/

/-- The repository in `X` takes objects: its references hold `M`, and its object directory is
there with no file in place of a fan-out directory. -/
structure ObjectsWritable (t : FileTree) (X : FsPath) (M : RefMap) : Prop where
  refs : HoldsRefs t X M
  objects : t.nodes[X ++ ["objects"]]? = some .dir
  fanout : ∀ x d, t.nodes[X ++ ["objects", x]]? ≠ some (.file d)

/-- **Writing a file of the repository** off its references, its object directory and its
fan-out directories, with no file on the way and no directory in its place, succeeds, keeps
the repository writable and changes nothing outside it. -/
theorem run_writeAtomic_writable {d : Disk} (hw : ObjectsWritable d.files X M) {x : String}
    {rest : FsPath} (hx : x ≠ "refs" ∧ x ≠ headName ∧ x ≠ "packed-refs")
    (hobj : x :: rest ≠ ["objects"] ∧ ∀ y, x :: rest ≠ ["objects", y])
    (hway : ∀ a, a ≠ [] → a <+: (x :: rest).dropLast → ∀ z, d.files.nodes[X ++ a]? ≠ some (.file z))
    (hnd : d.files.nodes[X ++ x :: rest]? ≠ some .dir) (data : Bytes) :
    ∃ t', (writeAtomic (X ++ x :: rest) data).run.run d = (.ok (), { d with files := t' }) ∧
      ObjectsWritable t' X M ∧ ChangedBelow X d.files t' := by
  have hc : x :: rest ≠ [] := List.cons_ne_nil x rest
  have hp : X ++ x :: rest ≠ [] := by simp
  have hX : ∀ a, a ≠ [] → a <+: X → d.files.nodes[a]? = some .dir :=
    fun a ha hpre => hw.refs.dir_of_prefix_dir ha hpre
  -- above `X` the way is directories; below it, as the hypothesis says
  have hway' : ∀ a, a ≠ [] → a <+: (X ++ x :: rest).dropLast → ∀ z,
      d.files.nodes[a]? ≠ some (.file z) := by
    intro a ha hpre z
    rw [List.dropLast_append_of_ne_nil hc] at hpre
    rcases prefix_append_cases hpre with h1 | ⟨b, rfl, hb⟩
    · rw [hX a ha h1]
      simp
    · by_cases hb0 : b = []
      · subst hb0
        rw [List.append_nil] at ha ⊢
        rw [hX _ ha List.prefix_rfl]
        simp
      · exact hway b hb0 hb z
  obtain ⟨t₁, h₁, hv⟩ := createDirAll_of_noFile hw.refs.wf _ hway'
  have habove : t₁.DirsAbove (X ++ x :: rest) := by
    intro a ha
    have ha' := mem_ancestors.mp ha
    rw [node?_of_ne_nil ha'.1, hv, if_pos ⟨ha'.1, prefix_dropLast_of_mem_ancestors ha⟩]
  have hnd₁ : t₁.nodes[X ++ x :: rest]? ≠ some .dir := by
    rw [hv, if_neg (fun h => by simpa using h.2.length_le)]
    exact hnd
  have hwf₂ := (hw.refs.wf.withDirs hv).setNode_file habove hnd₁ data
  -- off the file's path, the written tree is the one with the new directories
  have hoff : ∀ c, c ≠ x :: rest → (t₁.setNode (X ++ x :: rest) (.file data)).nodes[X ++ c]? =
      t₁.nodes[X ++ c]? := by
    intro c hne
    rw [nodes_setNode, if_neg (fun h => hne (List.append_cancel_left h))]
  refine ⟨_, run_writeAtomic_ok h₁ (write_of_dirsAbove hp habove hnd₁ data),
    ⟨hw.refs.write_other hx hv hwf₂, ?_, fun y z => ?_⟩, changedBelow_write hc hX hv _⟩
  · rw [hoff _ (Ne.symm hobj.1), hv]
    split_ifs
    · rfl
    · exact hw.objects
  · rw [hoff _ (Ne.symm (hobj.2 y)), hv]
    split_ifs
    · simp
    · exact hw.fanout y z

theorem run_setConfig_writable (h : Handle) {d : Disk} (hw : ObjectsWritable d.files h.dir M)
    (hconfig : d.files.nodes[h.dir ++ ["config"]]? ≠ some .dir) (c : RepoConfig) :
    ∃ t', (h.setConfig c).run.run d = (.ok (), { d with files := t' }) ∧
      ObjectsWritable t' h.dir M ∧ ChangedBelow h.dir d.files t' :=
  run_writeAtomic_writable hw (by decide) (by simp)
    (fun a ha hpre => absurd (List.prefix_nil.mp hpre) ha) hconfig _

/-- **Storing an object** succeeds with its id, keeps the repository writable and changes
nothing outside it. -/
theorem run_putObject_writable (h : Handle) {d : Disk} (hw : ObjectsWritable d.files h.dir M)
    (kind : ObjectKind) (data : Bytes) :
    ∃ t', (h.putObject kind data).run.run d =
        (.ok (ObjectId.ofObject kind data), { d with files := t' }) ∧
      ObjectsWritable t' h.dir M ∧ ChangedBelow h.dir d.files t' := by
  set id := ObjectId.ofObject kind data
  -- on the way to the object: the object directory, then its fan-out directory
  have hway : ∀ a, a ≠ [] → a <+: ["objects", id.fanout.1] → ∀ z,
      d.files.nodes[h.dir ++ a]? ≠ some (.file z) := by
    intro a ha hpre z
    rcases a with _ | ⟨a₁, _ | ⟨a₂, _ | ⟨a₃, a'⟩⟩⟩
    · exact absurd rfl ha
    · obtain rfl : a₁ = "objects" := (List.cons_prefix_cons.mp hpre).1
      rw [hw.objects]
      simp
    · obtain rfl : a₁ = "objects" := (List.cons_prefix_cons.mp hpre).1
      exact hw.fanout a₂ z
    · simpa using hpre.length_le
  have hexists : d.files.exists? (h.objectPath id) =
      .ok (d.files.nodes[h.objectPath id]?).isSome := by
    refine exists?_of_noFile hw.refs.wf (by simp [Handle.objectPath, Handle.file]) fun a ha z => ?_
    have ha' := mem_ancestors.mp ha
    rw [node?_of_ne_nil ha'.1]
    have hpre : a <+: h.dir ++ ["objects", id.fanout.1] := by
      simpa [Handle.objectPath, Handle.file] using prefix_dropLast_of_mem_ancestors ha
    rcases prefix_append_cases hpre with h1 | ⟨b, rfl, hb⟩
    · rw [hw.refs.dir_of_prefix_dir ha'.1 h1]
      simp
    · by_cases hb0 : b = []
      · subst hb0
        rw [List.append_nil, hw.refs.dir_of_prefix_dir (by simpa using ha'.1) List.prefix_rfl]
        simp
      · exact hway b hb0 hb z
  unfold Handle.putObject
  rw [run_bind_of_ok (run_files d), run_bind_of_ok (by rw [hexists]; rfl)]
  cases hnode : d.files.nodes[h.objectPath id]? with
  | some n => exact ⟨d.files, rfl, hw, ChangedBelow.refl _ _⟩
  | none =>
    have hway' : ∀ a, a ≠ [] → a <+: (["objects", id.fanout.1, id.fanout.2] : FsPath).dropLast →
        ∀ z, d.files.nodes[h.dir ++ a]? ≠ some (.file z) := hway
    obtain ⟨t', hrun, hw', hc'⟩ := run_writeAtomic_writable hw (by decide) (by simp) hway'
      (by simp [Handle.objectPath, Handle.file] at hnode; simp [hnode])
      (Zlib.compress (kind.header data.length ++ data))
    have hrun' : (writeAtomic (h.objectPath id) (Zlib.compress (kind.header data.length ++ data))).run.run d =
        (.ok (), { d with files := t' }) := hrun
    refine ⟨t', ?_, hw', hc'⟩
    simp only [Option.isSome_none, Bool.false_eq_true, if_false]
    rw [run_bind_of_ok hrun']
    rfl

/-- **Seeding an empty writable repository** succeeds and leaves the references a new
repository starts with, changing nothing outside it. -/
theorem run_seed (h : Handle) {d : Disk} (hw : ObjectsWritable d.files h.dir fun _ => none)
    (hconfig : d.files.nodes[h.dir ++ ["config"]]? ≠ some .dir) (o : InitOptions) (now : Int)
    (hhead : RefTarget.Kept (.symbolic o.branchRef))
    (hbranch : o.initialCommit = true → RefName.Kept o.branchRef) :
    ∃ t', (h.seed o now).run.run d = (.ok (), { d with files := t' }) ∧
      HoldsRefs t' h.dir (initialRefs h.name o now) ∧ ChangedBelow h.dir d.files t' := by
  unfold Handle.seed initialRefs
  obtain ⟨t₁, hrun₁, hw₁, hc₁⟩ := run_setConfig_writable h hw hconfig RepoConfig.default
  rw [run_bind_of_ok hrun₁]
  generalize hic : initialContent h.name o now = ic
  obtain ⟨objects, commit⟩ := ic
  -- the objects go next and leave the references alone
  obtain ⟨d₂, hrun₂, t₂, rfl, hw₂, hc₂⟩ := run_forIn_yield
    (fun d' => ∃ t, d' = { d with files := t } ∧ ObjectsWritable t h.dir (fun _ => none) ∧
      ChangedBelow h.dir d.files t)
    (fun (x : GitObject) (_ : PUnit) => (do
      let _ ← h.putObject x.kind x.data
      pure (ForInStep.yield PUnit.unit) : DiskM (ForInStep PUnit)))
    (fun x d' ⟨t, hd', hw', hc'⟩ => by
      subst hd'
      obtain ⟨t', hrun, hw'', hc''⟩ := run_putObject_writable h
        (show ObjectsWritable ({ d with files := t } : Disk).files h.dir _ from hw') x.kind x.data
      exact ⟨_, by rw [run_bind_of_ok hrun]; rfl, t', rfl, hw'', hc'.trans hc''⟩)
    objects { d with files := t₁ } ⟨t₁, rfl, hw₁, hc₁⟩
  simp only []
  rw [run_bind_of_ok hrun₂]
  have hr₂ : HoldsRefs ({ d with files := t₂ } : Disk).files h.dir fun _ => none := hw₂.refs
  -- `HEAD` last, after the branch when there is a first commit
  let head : Reference := ⟨headName, .symbolic o.branchRef⟩
  have hhead' : RefName.Kept head.name := headName_kept
  cases commit with
  | none =>
    simp only [Option.map_none, Function.update_eq_self_iff.mpr rfl]
    obtain ⟨t₃, hrun₃, hr₃, hc₃⟩ :=
      run_setReference_of_holds h hr₂ hhead' hhead (RefMap.not_blocks_head hr₂.kept)
    exact ⟨t₃, hrun₃, hr₃, hc₂.trans hc₃⟩
  | some c =>
    let branch : Reference := ⟨o.branchRef, .direct c⟩
    have hkept : RefName.Kept branch.name := by
      apply hbranch
      rw [← initialContent_snd_isSome h.name o now, hic]
      rfl
    obtain ⟨t₃, hrun₃, hr₃, hc₃⟩ :=
      run_setReference_of_holds h hr₂ hkept trivial (fun ⟨m, hm, _⟩ => hm rfl)
    have hr₃' : HoldsRefs ({ d with files := t₃ } : Disk).files h.dir _ := hr₃
    obtain ⟨t₄, hrun₄, hr₄, hc₄⟩ :=
      run_setReference_of_holds h hr₃' hhead' hhead (RefMap.not_blocks_head hr₃.kept)
    refine ⟨t₄, ?_, hr₄, (hc₂.trans hc₃).trans hc₄⟩
    rw [run_bind_of_ok hrun₃]
    exact hrun₄

/-- A directory that holds exactly the layout, directories and nothing else, takes the seed: it
has no references yet, its object directory is there, and nothing stands where the
configuration goes. -/
theorem objectsWritable_of_layout {t : FileTree} {Y : FsPath} (hwf : t.WellFormed)
    (hdirs : ∀ a, a ≠ [] → a <+: Y → t.nodes[a]? = some .dir)
    (hstage : ∀ q, t.nodes[Y ++ q]? = if ∃ l ∈ layout, q <+: l then some .dir else none) :
    ObjectsWritable t Y (fun _ => none) ∧ t.nodes[Y ++ ["config"]]? ≠ some .dir := by
  have hshort : ∀ l ∈ layout, l.length = 2 := by decide
  refine ⟨⟨⟨hwf, ⟨fun _ h => absurd rfl h, fun _ _ h => by simp at h⟩, fun a ha => ?_, ?_, ?_,
    fun _ => ?_, fun _ _ h => by simp at h, fun k z => ?_, fun q hq hlen _ => ?_,
    fun a ha hpre => absurd (List.prefix_nil.mp hpre) ha⟩, ?_, fun x z => ?_⟩, ?_⟩
  · have ha' := mem_ancestors.mp ha
    rw [node?_of_ne_nil ha'.1]
    exact hdirs a ha'.1 (by simpa using prefix_dropLast_of_mem_ancestors ha)
  · rw [hstage, if_pos (by decide)]
  · rw [hstage, if_neg (by decide)]
  · rw [hstage, if_neg (by decide)]
  · rw [hstage]
    split_ifs <;> simp
  · -- the layout goes two levels down, a reference three
    rw [hstage] at hq
    split_ifs at hq with h
    · obtain ⟨l, hl, hpre⟩ := h
      have := hpre.length_le
      rw [hshort l hl] at this
      omega
    · simp at hq
  · rw [hstage, if_pos (by decide)]
  · rw [hstage]
    split_ifs <;> simp
  · rw [hstage, if_neg (by decide)]
    simp

/-! ## Creating -/

/-- There is room for a repository in directory `X`: the tree is well formed, no file lies on
the way to `X`, and nothing is at or below `X` or its staging sibling. -/
structure Room (t : FileTree) (X : FsPath) : Prop where
  wf : t.WellFormed
  way : ∀ a, a ≠ [] → a <+: X.dropLast → ∀ d, t.nodes[a]? ≠ some (.file d)
  free : ∀ q, X <+: q → t.nodes[q]? = none
  staging : ∀ q, sibling X "tmp" <+: q → t.nodes[q]? = none

/-- An empty tree has room for a repository anywhere. -/
theorem Room.empty (X : FsPath) : Room FileTree.empty X where
  wf p h := by simp [FileTree.empty] at h
  way _ _ _ _ := by simp [FileTree.empty]
  free _ _ := by simp [FileTree.empty]
  staging _ _ := by simp [FileTree.empty]

theorem repoDir_ne_nil (n : RepoName) : repoDir n ≠ [] := RefName.splitOn_slash_ne_nil _

theorem Room.not_exists {d : Disk} {n : RepoName} (hroom : Room d.files (repoDir n)) :
    (exists? n).run.run d = (.ok false, d) := by
  have hnone : d.files.nodes[repoDir n ++ [headName]]? = none :=
    hroom.free _ (List.prefix_append _ _)
  have hway : ∀ a ∈ ancestors (repoDir n ++ [headName]), ∀ z, d.files.node? a ≠ some (.file z) := by
    intro a ha z
    have ha' := mem_ancestors.mp ha
    have hpre : a <+: repoDir n := by simpa using prefix_dropLast_of_mem_ancestors ha
    rw [node?_of_ne_nil ha'.1]
    by_cases haX : a = repoDir n
    · rw [haX, hroom.free _ List.prefix_rfl]
      simp
    · exact hroom.way a ha'.1 (prefix_dropLast_of_ne hpre haX) z
  unfold exists?
  rw [run_bind_of_ok (run_files d), exists?_of_noFile hroom.wf (by simp) hway, hnone]
  rfl

/-- **Building the staging sibling** `Y` of `X` where there is room: the directories above `Y`
and its layout are made; `Y` holds the layout and nothing else, and off the way to `Y` and off
`Y` the tree is as it was. -/
theorem Room.run_stage {d : Disk} (hroom : Room d.files X) (hX : X ≠ []) :
    ∃ t₁ t₂, d.files.createDirAll (sibling X "tmp").dropLast = .ok t₁ ∧
      (forIn layout PUnit.unit fun l _ => do
        change (·.createDirAll (sibling X "tmp" ++ l))
        pure (ForInStep.yield PUnit.unit) : DiskM PUnit).run.run { d with files := t₁ } =
        (.ok PUnit.unit, { d with files := t₂ }) ∧
      t₂.WellFormed ∧
      (∀ a, a ≠ [] → a <+: sibling X "tmp" → t₂.nodes[a]? = some .dir) ∧
      (∀ q, t₂.nodes[sibling X "tmp" ++ q]? =
        if ∃ l ∈ layout, q <+: l then some .dir else none) ∧
      ∀ q, ¬ q <+: sibling X "tmp" → ¬ sibling X "tmp" <+: q →
        t₂.nodes[q]? = d.files.nodes[q]? := by
  set Y := sibling X "tmp" with hYdef
  have hY : Y ≠ [] := by simp [Y, sibling]
  have hlen : Y.length = X.length := length_sibling hX "tmp"
  -- the directories above the sibling
  obtain ⟨t₁, h₁, hv₁⟩ := createDirAll_of_noFile hroom.wf Y.dropLast
    (by rw [sibling_dropLast]; exact hroom.way)
  -- the layout inside it
  obtain ⟨t₂, hrun₂, hwf₂, hnodes₂⟩ := run_createDirAll_each Y layout { d with files := t₁ }
    (hroom.wf.withDirs hv₁) (by
      intro l _ a ha hpre z
      show t₁.nodes[a]? ≠ _
      rw [hv₁]
      split_ifs with h
      · simp
      · rcases prefix_append_cases hpre with h' | ⟨b, rfl, _⟩
        · by_cases haY : a = Y
          · rw [haY, hroom.staging _ List.prefix_rfl]
            simp
          · exact absurd ⟨ha, prefix_dropLast_of_ne h' haY⟩ h
        · rw [hroom.staging _ (List.prefix_append _ _)]
          simp)
  have hstage : ∀ q, t₂.nodes[Y ++ q]? = if ∃ l ∈ layout, q <+: l then some .dir else none := by
    intro q
    have hYpos := List.length_pos_iff_ne_nil.mpr hY
    rw [hnodes₂]
    simp only [List.prefix_append_right_inj, ne_eq, List.append_eq_nil_iff, hY, false_and,
      not_false_eq_true, true_and]
    split_ifs
    · rfl
    · show t₁.nodes[Y ++ q]? = none
      rw [hv₁, if_neg (fun h => by
        have := h.2.length_le
        simp only [List.length_append, List.length_dropLast] at this
        omega),
        hroom.staging _ (List.prefix_append _ _)]
  refine ⟨t₁, t₂, h₁, hrun₂, hwf₂, fun a ha hpre => ?_, hstage, fun q hqY hYq => ?_⟩
  · by_cases haY : a = Y
    · rw [haY, ← List.append_nil Y, hstage, if_pos ⟨_, List.mem_cons_self, List.nil_prefix⟩]
    · rw [hnodes₂]
      split_ifs
      · rfl
      · show t₁.nodes[a]? = _
        rw [hv₁, if_pos ⟨ha, prefix_dropLast_of_ne hpre haY⟩]
  · -- off the way to the sibling and off it, neither step made a directory
    rw [hnodes₂, if_neg]
    · show t₁.nodes[q]? = _
      rw [hv₁, if_neg (fun h => hqY (h.2.trans (List.dropLast_prefix _)))]
    · rintro ⟨-, l, -, hpre⟩
      rcases prefix_append_cases hpre with h | ⟨b, rfl, -⟩
      · exact hqY h
      · exact hYq (List.prefix_append _ _)

/-- **Moving the staged repository into place**: where the staging sibling `Y` of `X` holds
the references of a repository and nothing is at or below `X`, the move carries `Y` to `X`,
leaves nothing at `Y`, changes nothing off both, and `X` holds the references. -/
theorem HoldsRefs.rename_staged (hr : HoldsRefs t (sibling X "tmp") M) (hX : X ≠ [])
    (hfree : ∀ q, X <+: q → t.nodes[q]? = none) :
    ∃ t', t.rename (sibling X "tmp") X = .ok t' ∧
      (∀ r, t'.nodes[X ++ r]? = t.nodes[sibling X "tmp" ++ r]?) ∧
      (∀ q, sibling X "tmp" <+: q → t'.nodes[q]? = none) ∧
      (∀ q, ¬ sibling X "tmp" <+: q → ¬ X <+: q → t'.nodes[q]? = t.nodes[q]?) ∧
      HoldsRefs t' X M := by
  set Y := sibling X "tmp" with hYdef
  have hY : Y ≠ [] := by simp [Y, sibling]
  have hlen : Y.length = X.length := length_sibling hX "tmp"
  -- the directories on the way to both, and the sibling itself
  have hdirsY : t.DirsAbove Y := by
    intro a ha
    have ha' := mem_ancestors.mp ha
    rw [node?_of_ne_nil ha'.1]
    exact hr.dir_of_prefix_dir ha'.1 ha'.2.1
  have hXY : X.dropLast <+: Y := by
    rw [← sibling_dropLast X "tmp"]
    exact List.dropLast_prefix _
  have hdirsX : t.DirsAbove X := by
    intro a ha
    have ha' := mem_ancestors.mp ha
    rw [node?_of_ne_nil ha'.1]
    exact hr.dir_of_prefix_dir ha'.1 ((prefix_dropLast_of_mem_ancestors ha).trans hXY)
  have hsrc : t.nodes[Y]? = some .dir := hr.dir_of_prefix_dir hY List.prefix_rfl
  have hnodes := @nodes_rename t Y X hfree
  refine ⟨_, rename_eq hY hX hdirsY hdirsX hsrc (sibling_ne X "tmp") hlen (hfree X List.prefix_rfl),
    fun r => ?_, fun q hq => ?_, fun q hYq hXq => ?_,
    hr.transport (hr.wf.of_move hdirsX hsrc hlen hnodes) (fun a ha hpre => ?_) (fun q _ => ?_)⟩
  · rw [hnodes, if_pos (List.prefix_append _ _), List.drop_left' rfl]
  · rw [hnodes, if_neg (fun hXq => not_prefix_of_prefix_sibling hX hq hXq), if_pos hq]
  · rw [hnodes, if_neg hXq, if_neg hYq]
  · -- the directories down to the repository: its own from the sibling, the rest as they were
    rw [hnodes]
    by_cases haX : a = X
    · subst haX
      rw [if_pos List.prefix_rfl, List.drop_length, List.append_nil]
      exact hsrc
    · have hlt : a.length < X.length := lt_of_le_of_ne hpre.length_le (fun h => haX (hpre.eq_of_length h))
      rw [if_neg (fun h => haX (h.eq_of_length (by have := h.length_le; omega)).symm),
        if_neg (fun h => by have := h.length_le; omega)]
      exact hr.dir_of_prefix_dir ha ((prefix_dropLast_of_ne hpre haX).trans hXY)
  · rw [hnodes, if_pos (List.prefix_append _ _), List.drop_left' rfl]

/-- **Creating a repository where there is room for it**, step by step: the staging sibling `Y`
of its directory `X` is built with the layout (`t₂`), seeded (`t₃`), and moved into place
(`t'`), which carries `Y` to `X`, leaves nothing at `Y`, changes nothing off the way to `Y`
and off `X`, and leaves the references a new repository starts with. -/
theorem run_create_steps (n : RepoName) {d : Disk} (hroom : Room d.files (repoDir n))
    (o : InitOptions) (now : Int) (hhead : RefTarget.Kept (.symbolic o.branchRef))
    (hbranch : o.initialCommit = true → RefName.Kept o.branchRef) :
    ∃ t₂ t₃ t', (create n o now).run.run d = (.ok (), { d with files := t' }) ∧
      t₂.WellFormed ∧
      (∀ a, a ≠ [] → a <+: sibling (repoDir n) "tmp" → t₂.nodes[a]? = some .dir) ∧
      (∀ q, t₂.nodes[sibling (repoDir n) "tmp" ++ q]? =
        if ∃ l ∈ layout, q <+: l then some .dir else none) ∧
      ((Handle.mk n (sibling (repoDir n) "tmp")).seed o now).run.run { d with files := t₂ } =
        (.ok (), { d with files := t₃ }) ∧
      (∀ r, t'.nodes[repoDir n ++ r]? = t₃.nodes[sibling (repoDir n) "tmp" ++ r]?) ∧
      (∀ q, sibling (repoDir n) "tmp" <+: q → t'.nodes[q]? = none) ∧
      (∀ q, ¬ q <+: sibling (repoDir n) "tmp" → ¬ sibling (repoDir n) "tmp" <+: q →
        ¬ repoDir n <+: q → t'.nodes[q]? = d.files.nodes[q]?) ∧
      HoldsRefs t' (repoDir n) (initialRefs n o now) := by
  set X := repoDir n with hXdef
  have hX : X ≠ [] := repoDir_ne_nil n
  set Y := sibling X "tmp" with hYdef
  -- the sibling with its layout, then the seed inside it
  obtain ⟨t₁, t₂, h₁, hrun₂, hwf₂, hdirs₂, hstage, hoff₂⟩ := hroom.run_stage hX
  obtain ⟨hw₂, hconfig₂⟩ := objectsWritable_of_layout hwf₂ hdirs₂ hstage
  obtain ⟨t₃, hrun₃, hr₃, hc₃⟩ := run_seed ⟨n, Y⟩
    (show ObjectsWritable ({ d with files := t₂ } : Disk).files Y _ from hw₂)
    hconfig₂ o now hhead hbranch
  -- nothing is at or below the repository's directory yet: it lies off the sibling
  have hfree₃ : ∀ q, X <+: q → t₃.nodes[q]? = none := by
    intro q hq
    have hYq : ¬ Y <+: q := fun h => not_prefix_of_prefix_sibling hX h hq
    have hqY : ¬ q <+: Y := fun h =>
      sibling_ne X "tmp" ((hq.trans h).eq_of_length (length_sibling hX "tmp").symm).symm
    rw [hc₃ q hYq, hoff₂ q hqY hYq, hroom.free q hq]
  -- the move
  obtain ⟨t', hmove, hto, hgone, hoff, hr'⟩ := hr₃.rename_staged hX hfree₃
  refine ⟨t₂, t₃, t', ?_, hwf₂, hdirs₂, hstage, hrun₃, hto, hgone,
    fun q hqY hYq hXq => ?_, hr'⟩
  · unfold create
    rw [run_bind_of_ok hroom.not_exists]
    simp only [Bool.false_eq_true, if_false]
    rw [run_bind_of_ok (run_change_ok h₁)]
    rw [run_bind_of_ok (run_tryCatch_of_ok ((run_bind_of_ok hrun₂).trans hrun₃)),
      run_bind_of_ok (run_files _)]
    rw [← hXdef, ← hYdef, hmove]
    rfl
  · -- off the way to the sibling, off it and off the repository, every step left the node
    rw [hoff q hYq hXq, hc₃ q hYq, hoff₂ q hqY hYq]

/-- **Creating a repository where there is room for it** succeeds and leaves the references a
new repository starts with in its directory. -/
theorem run_create_of_room (n : RepoName) {d : Disk} (hroom : Room d.files (repoDir n))
    (o : InitOptions) (now : Int) (hhead : RefTarget.Kept (.symbolic o.branchRef))
    (hbranch : o.initialCommit = true → RefName.Kept o.branchRef) :
    ∃ t', (create n o now).run.run d = (.ok (), { d with files := t' }) ∧
      HoldsRefs t' (repoDir n) (initialRefs n o now) := by
  obtain ⟨-, -, t', hrun, -, -, -, -, -, -, -, hr⟩ := run_create_steps n hroom o now hhead hbranch
  exact ⟨t', hrun, hr⟩

end Local

end GitServer
