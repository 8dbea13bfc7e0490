import GitServer.Proofs.Storage.DiskSteps
import GitServer.Proofs.Storage.RefMap
import Mathlib

/-!
# References in a directory tree

Local storage keeps each reference of a repository as a file: `HEAD` in the repository's
directory `X`, any other name at the path of its components below `X`. `Local.RefsAt t X M S`
says the tree `t` holds the map `M` that way, with nothing below `refs/<kind>/` but the
directories on the way to a reference and those on the way to `S`, which a removal leaves for
pruning to take away; `HoldsRefs` is the settled form, with nothing left to prune.

A directory tree cannot hold a file where a directory of files is, so the names of a map it
holds lie apart, none above another (`RefsAt.apart`). A call on a name that no name of the map
blocks finds no file on its way (`HoldsRefs.not_file_on_way`) and answers as the map does; a
call on a blocked name meets a file on its way, or a directory where its file would be, and
fails with an error of the file system, leaving the map as it was. Removing a reference leaves
the directories above it, and pruning takes away those left empty, up to `refs/<kind>`
(`run_pruneRefDirs`).

So a disk is not storage that does not fail (`Storage.Reliable.medium_remote`): once a branch is
written, the name of its directory is a valid reference name whose read fails.
-/

namespace GitServer

namespace Local

open FileTree

/-- The reference files of the repository in directory `X` hold the map `M`; `S` is a path of
directories that a removal left and pruning has not yet taken away. -/
structure RefsAt (t : FileTree) (X : FsPath) (M : RefMap) (S : FsPath) : Prop where
  wf : t.WellFormed
  kept : M.Kept
  /-- The directory `refs/` is there, and so is every directory above it. -/
  refs : t.DirsAbove (X ++ ["refs"])
  refsDir : t.nodes[X ++ ["refs"]]? = some .dir
  /-- There is no `packed-refs` file to fall back on. -/
  packed : t.nodes[X ++ ["packed-refs"]]? = none
  head : M headName = none → t.nodes[X ++ [headName]]? = none
  /-- Each reference of the map is a file holding the record of its target. -/
  files : ∀ m r, M m = some r →
    t.nodes[X ++ m.splitOn "/"]? = some (.file (Bytes.ofString r.encode))
  /-- Directly below `refs/` there are only directories. -/
  kinds : ∀ k d, t.nodes[X ++ ["refs", k]]? ≠ some (.file d)
  /-- Below `refs/<kind>/` there is nothing off the way to a reference or to `S`. -/
  only : ∀ q, (t.nodes[X ++ q]?).isSome → 3 ≤ q.length → q.head? = some "refs" →
    (∃ m, M m ≠ none ∧ q <+: m.splitOn "/") ∨ q <+: S
  /-- The way to `S` is directories. -/
  spare : ∀ a, a ≠ [] → a <+: S → t.nodes[X ++ a]? = some .dir

/-- The tree holds the map, with nothing left to prune. -/
abbrev HoldsRefs (t : FileTree) (X : FsPath) (M : RefMap) : Prop := RefsAt t X M []

/-- A prefix of a path below `X` stops above `X`, or goes down into the path. -/
theorem prefix_append_cases {a X c : FsPath} (h : a <+: X ++ c) :
    a <+: X ∨ ∃ b, a = X ++ b ∧ b <+: c := by
  rcases List.prefix_or_prefix_of_prefix h (List.prefix_append X c) with ha | ⟨b, rfl⟩
  · exact .inl ha
  · exact .inr ⟨b, rfl, (List.prefix_append_right_inj X).mp h⟩

variable {t : FileTree} {X : FsPath} {M : RefMap} {S : FsPath}

namespace RefsAt

variable (hr : RefsAt t X M S)
include hr

/-- Every directory above a name in `X` is there. -/
theorem dirsAbove_top (x : String) : t.DirsAbove (X ++ [x]) := by
  by_cases hX : X = []
  · subst hX
    exact dirsAbove_singleton x
  · exact (dirsAbove_snoc hX x).mpr ((dirsAbove_snoc hX "refs").mp hr.refs)

/-- A nonempty prefix of `X` is a directory. -/
theorem dir_of_prefix_dir {a : FsPath} (ha : a ≠ []) (hpre : a <+: X) : t.nodes[a]? = some .dir := by
  have hanc : a ∈ ancestors (X ++ ["refs"]) :=
    mem_ancestors.mpr ⟨ha, hpre.trans (List.prefix_append X _), by
      have := hpre.length_le
      simp
      omega⟩
  rw [← node?_of_ne_nil ha]
  exact hr.refs a hanc

/-- A directory on the way to a reference is a directory. -/
theorem dir_of_proper_prefix {m : String} {r : RefTarget} (hm : M m = some r) {b : FsPath}
    (hb : b ≠ []) (hpre : b <+: m.splitOn "/") (hne : b ≠ m.splitOn "/") :
    t.nodes[X ++ b]? = some .dir := by
  have hfile := hr.files m r hm
  have hanc : X ++ b ∈ ancestors (X ++ m.splitOn "/") :=
    mem_ancestors.mpr ⟨by simp [hb], (List.prefix_append_right_inj X).mpr hpre, by
      have := lt_of_le_of_ne hpre.length_le fun hl => hne (hpre.eq_of_length hl)
      simp
      omega⟩
  have hdir := hr.wf _ (by rw [hfile]; rfl) _ hanc
  rwa [node?_of_ne_nil (by simp [hb])] at hdir

/-- **No name of the map lies above another.** -/
theorem apart {a b : String} (ha : M a ≠ none) (hb : M b ≠ none) : ¬ RefName.Above a b := by
  intro habove
  obtain ⟨ra, hra⟩ := Option.ne_none_iff_exists'.mp ha
  obtain ⟨rb, hrb⟩ := Option.ne_none_iff_exists'.mp hb
  have hdir := hr.dir_of_proper_prefix hrb (RefName.splitOn_slash_ne_nil a) habove.1
    (fun h => habove.2 (RefName.splitOn_slash_injective h))
  rw [hr.files a ra hra] at hdir
  cases hdir

end RefsAt

namespace HoldsRefs

variable (hr : HoldsRefs t X M)
include hr

/-- **On the way to a name that no name of the map blocks there is no file.** -/
theorem not_file_on_way {m : String} (hm : RefName.Kept m) (hb : ¬ M.Blocks m) {b : FsPath}
    (hne : b ≠ []) (hpre : b <+: m.splitOn "/") (hlt : b.length < (m.splitOn "/").length)
    (d : Bytes) : t.nodes[X ++ b]? ≠ some (.file d) := by
  rcases hm.head_or_refs with rfl | ⟨k, x, rest, hparts⟩
  · rw [RefName.splitOn_head, List.length_singleton] at hlt
    exact absurd (List.length_eq_zero_iff.mp (by omega)) hne
  rw [hparts] at hpre hlt
  rcases b with _ | ⟨c, _ | ⟨c', _ | ⟨c'', b'⟩⟩⟩
  · exact absurd rfl hne
  · -- `refs/` itself
    obtain rfl : c = "refs" := by simpa using hpre
    rw [hr.refsDir]
    simp
  · -- a kind directory
    obtain ⟨rfl, rfl⟩ : c = "refs" ∧ c' = k := by simpa using hpre
    exact hr.kinds c' d
  · intro hf
    have hc : c = "refs" := by simp at hpre; exact hpre.1
    rcases hr.only _ (by rw [hf]; rfl) (by simp) (by simp [hc]) with ⟨m', hm', hpre'⟩ | hS
    · obtain ⟨r', hr'⟩ := Option.ne_none_iff_exists'.mp hm'
      by_cases heq : c :: c' :: c'' :: b' = m'.splitOn "/"
      · -- the file is a reference of the map above `m`
        refine hb ⟨m', hm', .inr ⟨?_, ?_⟩⟩
        · rw [← heq, hparts]
          exact hpre
        · rintro rfl
          rw [hparts] at heq
          rw [← heq] at hlt
          simp at hlt
      · -- the node is on the way to a reference, so it is a directory
        rw [hr.dir_of_proper_prefix hr' (by simp) hpre' heq] at hf
        cases hf
    · simp at hS

/-- Along the directories of a name that no name of the map blocks there is no file. -/
theorem not_file_dropLast {m : String} (hm : RefName.Kept m) (hb : ¬ M.Blocks m) :
    ∀ a, a ≠ [] → a <+: (X ++ m.splitOn "/").dropLast → ∀ d, t.nodes[a]? ≠ some (.file d) := by
  intro a ha hpre d
  rw [List.dropLast_append_of_ne_nil (RefName.splitOn_slash_ne_nil m)] at hpre
  rcases prefix_append_cases hpre with hX | ⟨b, rfl, hb'⟩
  · rw [RefsAt.dir_of_prefix_dir hr ha hX]
    simp
  · by_cases hbne : b = []
    · subst hbne
      rw [List.append_nil] at ha ⊢
      rw [RefsAt.dir_of_prefix_dir hr ha List.prefix_rfl]
      simp
    · have hlen := List.length_pos_iff_ne_nil.mpr (RefName.splitOn_slash_ne_nil m)
      exact hr.not_file_on_way hm hb hbne (hb'.trans (List.dropLast_prefix _))
        (lt_of_le_of_lt hb'.length_le (by simp [List.length_dropLast]; omega)) d

/-- The way to a name that no name of the map blocks is free of files. -/
theorem not_file_ancestors {m : String} (hm : RefName.Kept m) (hb : ¬ M.Blocks m) :
    ∀ a ∈ ancestors (X ++ m.splitOn "/"), ∀ d, t.node? a ≠ some (.file d) := by
  intro a ha d
  have ha' := mem_ancestors.mp ha
  rw [node?_of_ne_nil ha'.1]
  exact hr.not_file_dropLast hm hb a ha'.1 (prefix_dropLast_of_mem_ancestors ha) d

/-- Where a name that no name of the map blocks has no target, there is no node. -/
theorem node_eq_none {m : String} (hm : RefName.Kept m) (hb : ¬ M.Blocks m) (hnone : M m = none) :
    t.nodes[X ++ m.splitOn "/"]? = none := by
  rcases hm.head_or_refs with rfl | ⟨k, x, rest, hparts⟩
  · rw [RefName.splitOn_head]
    exact hr.head hnone
  cases hn : t.nodes[X ++ m.splitOn "/"]? with
  | none => rfl
  | some nd =>
    -- a node there would lie on the way to a reference of the map below `m`
    exfalso
    rcases hr.only _ (by rw [hn]; rfl) (by rw [hparts]; simp) (by rw [hparts]; rfl) with
      ⟨m', hm', hpre⟩ | hS
    · refine hb ⟨m', hm', .inl ⟨hpre, ?_⟩⟩
      rintro rfl
      exact hm' hnone
    · rw [hparts] at hS
      simp at hS

/-- **Reading the file of a name that no name of the map blocks** finds the record of its
target, or nothing. -/
theorem readOptional_ref {m : String} (hm : RefName.Kept m) (hb : ¬ M.Blocks m) :
    t.readOptional (X ++ m.splitOn "/") = .ok ((M m).map fun r => Bytes.ofString r.encode) := by
  have hp : X ++ m.splitOn "/" ≠ [] := by simp [RefName.splitOn_slash_ne_nil]
  cases hM : M m with
  | some r =>
    have hfile := hr.files m r hM
    rw [readOptional_of_dirsAbove (hr.wf _ (by rw [hfile]; rfl)), node?_of_ne_nil hp, hfile]
    rfl
  | none =>
    have hnone := hr.node_eq_none hm hb hM
    by_cases habove : t.DirsAbove (X ++ m.splitOn "/")
    · rw [readOptional_of_dirsAbove habove, node?_of_ne_nil hp, hnone]
      rfl
    · exact readOptional_of_not_dirsAbove (hr.not_file_ancestors hm hb) habove

end HoldsRefs

theorem RefsAt.readOptional_packed (hr : RefsAt t X M S) :
    t.readOptional (X ++ ["packed-refs"]) = .ok none := by
  rw [readOptional_of_dirsAbove (hr.dirsAbove_top _), node?_of_ne_nil (by simp), hr.packed]

/-! ## Reading a reference -/

theorem run_packedRefs_of_refsAt (h : Handle) {d : Disk} (hr : RefsAt d.files h.dir M S) :
    h.packedRefs.run.run d = (.ok [], d) := by
  unfold Handle.packedRefs
  rw [run_bind_of_ok (run_files d), Handle.file, hr.readOptional_packed,
    run_bind_of_ok (run_os_ok _ d)]
  rfl

/-- **Reading a name that no name of the map blocks answers what the map holds.** -/
theorem run_getReference_of_holds (h : Handle) {d : Disk} (hr : HoldsRefs d.files h.dir M)
    {m : String} (hm : RefName.Kept m) (hb : ¬ M.Blocks m) :
    (h.getReference m).run.run d = (M.read m, d) := by
  unfold Handle.getReference
  rw [run_bind_of_ok (h.run_refPath hm.1 d), run_bind_of_ok (run_files d), Handle.file,
    hr.readOptional_ref hm hb, run_bind_of_ok (run_os_ok _ d)]
  cases hM : M m with
  | none =>
    simp only [Option.map_none]
    rw [run_bind_of_ok (run_packedRefs_of_refsAt h hr)]
    simp [RefMap.read, hM]
    rfl
  | some r =>
    simp only [Option.map_some]
    rw [run_bind_of_ok (by rw [run_check, RefTarget.decode_record (hr.kept.targets m r hM)])]
    simp [RefMap.read, hM]
    rfl


/-! ## Writing a reference -/

/-- The names of a kept reference lie below `refs/`, or are `HEAD`'s one: never those of
`refs/` itself, of `packed-refs`, or of a kind directory. -/
theorem parts_ne_of_kept {m : String} (hm : RefName.Kept m) :
    m.splitOn "/" ≠ ["refs"] ∧ m.splitOn "/" ≠ ["packed-refs"] ∧ ∀ k, m.splitOn "/" ≠ ["refs", k] := by
  rcases hm.head_or_refs with rfl | ⟨k, x, rest, hparts⟩
  · rw [RefName.splitOn_head]
    simp
  · rw [hparts]
    simp

/-- No directory of a kept name is `packed-refs` or `HEAD`. -/
theorem not_prefix_dropLast_of_kept {m : String} (hm : RefName.Kept m) (x : String)
    (hx : x ≠ "refs") : ¬ [x] <+: (m.splitOn "/").dropLast := by
  rcases hm.head_or_refs with rfl | ⟨k, y, rest, hparts⟩
  · rw [RefName.splitOn_head]
    simp
  · rw [hparts]
    simp [hx]

/-- The nodes after writing the file of `m`, seen from the repository's directory: the file,
the directories above it, and else what was there. -/
theorem nodes_write_rel {t₁ : FileTree} {m : String} (data : Bytes)
    (hv : WithDirs t t₁ (X ++ m.splitOn "/").dropLast) (q : FsPath) :
    (t₁.setNode (X ++ m.splitOn "/") (.file data)).nodes[X ++ q]? =
      if q = m.splitOn "/" then some (.file data)
      else if X ++ q ≠ [] ∧ q <+: (m.splitOn "/").dropLast then some .dir
      else t.nodes[X ++ q]? := by
  rw [nodes_setNode, hv (X ++ q), List.dropLast_append_of_ne_nil (RefName.splitOn_slash_ne_nil m)]
  simp only [List.prefix_append_right_inj, List.append_cancel_left_eq]

/-- **Writing the file of a name that no name of the map blocks** leaves a tree that holds the
map with that name set. -/
theorem HoldsRefs.write (hr : HoldsRefs t X M) {m : String} {r : RefTarget}
    (hm : RefName.Kept m) (ht : r.Kept) (hb : ¬ M.Blocks m) {t₁ : FileTree}
    (hv : WithDirs t t₁ (X ++ m.splitOn "/").dropLast)
    (hwf : (t₁.setNode (X ++ m.splitOn "/") (.file (Bytes.ofString r.encode))).WellFormed) :
    HoldsRefs (t₁.setNode (X ++ m.splitOn "/") (.file (Bytes.ofString r.encode))) X
      (Function.update M m (some r)) := by
  have hrel := nodes_write_rel (Bytes.ofString r.encode) hv
  obtain ⟨hnrefs, hnpacked, hnkind⟩ := parts_ne_of_kept hm
  have hX : ∀ q, q ≠ m.splitOn "/" → ¬ (X ++ q ≠ [] ∧ q <+: (m.splitOn "/").dropLast) →
      (t₁.setNode (X ++ m.splitOn "/") (.file (Bytes.ofString r.encode))).nodes[X ++ q]? =
        t.nodes[X ++ q]? := by
    intro q h1 h2
    rw [hrel, if_neg h1, if_neg h2]
  refine ⟨hwf, hr.kept.update (fun _ => hm) (fun r' hr' => by cases hr'; exact ht), ?_, ?_, ?_,
    ?_, ?_, ?_, ?_, fun a ha hpre => absurd (List.prefix_nil.mp hpre) ha⟩
  · -- the directories above `refs/` stay
    intro a ha
    have ha' := mem_ancestors.mp ha
    have hpre : a <+: X := by simpa using prefix_dropLast_of_mem_ancestors ha
    have hne : a ≠ X ++ m.splitOn "/" := by
      intro h
      have := congrArg List.length h
      have := hpre.length_le
      have := List.length_pos_iff_ne_nil.mpr (RefName.splitOn_slash_ne_nil m)
      simp at *
      omega
    have hpre' : X <+: (X ++ m.splitOn "/").dropLast := by
      rw [List.dropLast_append_of_ne_nil (RefName.splitOn_slash_ne_nil m)]
      exact List.prefix_append _ _
    rw [node?_of_ne_nil ha'.1, nodes_setNode, if_neg hne, hv, if_pos ⟨ha'.1, hpre.trans hpre'⟩]
  · rw [hrel, if_neg (Ne.symm hnrefs)]
    split_ifs
    · rfl
    · exact hr.refsDir
  · rw [hX _ (Ne.symm hnpacked) (fun h => not_prefix_dropLast_of_kept hm _ (by decide) h.2), hr.packed]
  · intro hnone
    have hmh : m ≠ headName := by
      rintro rfl
      simp at hnone
    rw [Function.update_of_ne (Ne.symm hmh)] at hnone
    rw [hX [headName] (fun h => hmh (RefName.splitOn_slash_injective
        (h.symm.trans RefName.splitOn_head.symm)))
      (fun h => not_prefix_dropLast_of_kept hm headName (by simp [headName]) h.2), hr.head hnone]
  · intro m' r' h'
    by_cases hmm : m' = m
    · subst hmm
      rw [Function.update_self] at h'
      cases h'
      rw [hrel, if_pos rfl]
    · rw [Function.update_of_ne hmm] at h'
      -- the file of another reference is off the way, or `m` would lie below it
      rw [hX _ (fun h => hmm (RefName.splitOn_slash_injective h))
        (fun h => hb ⟨m', by simp [h'], .inr ⟨h.2.trans (List.dropLast_prefix _), hmm⟩⟩),
        hr.files m' r' h']
  · intro k d
    rw [hrel, if_neg (Ne.symm (hnkind k))]
    split_ifs
    · simp
    · exact hr.kinds k d
  · intro q hq hlen hhead
    rw [hrel] at hq
    split_ifs at hq with h1 h2
    · exact .inl ⟨m, by simp, h1 ▸ List.prefix_rfl⟩
    · exact .inl ⟨m, by simp, h2.2.trans (List.dropLast_prefix _)⟩
    · rcases hr.only q hq hlen hhead with ⟨m', hm', hpre⟩ | hS
      · refine .inl ⟨m', ?_, hpre⟩
        by_cases hmm : m' = m
        · subst hmm
          simp
        · rwa [Function.update_of_ne hmm]
      · exact .inr hS

/-- **Writing a name that no name of the map blocks** succeeds and sets the name in the map; the
tree changes only inside the repository's directory. -/
theorem run_setReference_of_holds (h : Handle) {d : Disk} (hr : HoldsRefs d.files h.dir M)
    {r : Reference} (hm : RefName.Kept r.name) (ht : r.target.Kept) (hb : ¬ M.Blocks r.name) :
    ∃ t', (h.setReference r).run.run d = (.ok (), { d with files := t' }) ∧
      HoldsRefs t' h.dir (Function.update M r.name (some r.target)) ∧
      ChangedBelow h.dir d.files t' := by
  have hpne : h.dir ++ r.name.splitOn "/" ≠ [] := by simp [RefName.splitOn_slash_ne_nil]
  obtain ⟨t₁, h₁, hv⟩ := createDirAll_of_noFile hr.wf _ (hr.not_file_dropLast hm hb)
  -- the directories are there now, and where the file goes there is no directory
  have habove : t₁.DirsAbove (h.dir ++ r.name.splitOn "/") := by
    intro a ha
    have ha' := mem_ancestors.mp ha
    rw [node?_of_ne_nil ha'.1, hv, if_pos ⟨ha'.1, prefix_dropLast_of_mem_ancestors ha⟩]
  have hnd : t₁.nodes[h.dir ++ r.name.splitOn "/"]? ≠ some .dir := by
    rw [hv, if_neg (fun h' => by
      have := h'.2.length_le
      simp only [List.length_dropLast] at this
      have := List.length_pos_iff_ne_nil.mpr hpne
      omega)]
    cases hM : M r.name with
    | none => rw [hr.node_eq_none hm hb hM]; simp
    | some r' => rw [hr.files _ r' hM]; simp
  refine ⟨_, ?_, hr.write hm ht hb hv ((hr.wf.withDirs hv).setNode_file habove hnd _),
    changedBelow_write (RefName.splitOn_slash_ne_nil _) (fun a ha hpre => hr.dir_of_prefix_dir ha hpre) hv _⟩
  unfold Handle.setReference
  rw [run_bind_of_ok (h.run_refPath hm.1 d), Handle.file]
  exact run_writeAtomic_ok h₁ (write_of_dirsAbove hpne habove hnd _)

/-! ## Names the tree turns down -/

/-- A blocked name has a directory where its file would be, or a file on the way to it. -/
theorem RefsAt.blocked_cases (hr : RefsAt t X M S) {m : String} (hb : M.Blocks m) :
    t.nodes[X ++ m.splitOn "/"]? = some .dir ∨
      ∃ a d, a ∈ ancestors (X ++ m.splitOn "/") ∧ t.nodes[a]? = some (.file d) := by
  obtain ⟨m', hm', habove | habove⟩ := hb
  · -- `m` lies above a reference: its path is a directory on the way there
    obtain ⟨r', hr'⟩ := Option.ne_none_iff_exists'.mp hm'
    exact .inl (hr.dir_of_proper_prefix hr' (RefName.splitOn_slash_ne_nil m) habove.1
      (fun h => habove.2 (RefName.splitOn_slash_injective h)))
  · -- a reference lies above `m`: its file is on the way
    obtain ⟨r', hr'⟩ := Option.ne_none_iff_exists'.mp hm'
    refine .inr ⟨_, _, mem_ancestors.mpr ⟨by simp [RefName.splitOn_slash_ne_nil],
      (List.prefix_append_right_inj X).mpr habove.1, ?_⟩, hr.files m' r' hr'⟩
    have := habove.length_lt
    simp
    omega

theorem RefsAt.readOptional_of_blocks (hr : RefsAt t X M S) {m : String} (hb : M.Blocks m) :
    ∃ e, t.readOptional (X ++ m.splitOn "/") = .error e := by
  rcases hr.blocked_cases hb with hdir | ⟨a, d, ha, hf⟩
  · rw [readOptional_of_dirsAbove (hr.wf _ (by rw [hdir]; rfl)),
      node?_of_ne_nil (by simp [RefName.splitOn_slash_ne_nil]), hdir]
    exact ⟨_, rfl⟩
  · exact ⟨_, readOptional_of_file hr.wf ha hf⟩

/-- Reading a blocked name fails with an error of the file system. -/
theorem run_getReference_of_blocks (h : Handle) {d : Disk} (hr : RefsAt d.files h.dir M S)
    {m : String} (hm : RefName.Kept m) (hb : M.Blocks m) :
    ∃ msg, (h.getReference m).run.run d = (.error (.io msg), d) := by
  obtain ⟨e, he⟩ := hr.readOptional_of_blocks hb
  refine ⟨e.message, ?_⟩
  unfold Handle.getReference
  rw [run_bind_of_ok (h.run_refPath hm.1 d), run_bind_of_ok (run_files d), Handle.file, he,
    run_bind_of_error (run_os_error _ d)]

/-- Writing a blocked name fails with an error of the file system and changes nothing. -/
theorem run_setReference_of_blocks (h : Handle) {d : Disk} (hr : RefsAt d.files h.dir M S)
    {r : Reference} (hm : RefName.Kept r.name) (hb : M.Blocks r.name) :
    ∃ msg, (h.setReference r).run.run d = (.error (.io msg), d) := by
  unfold Handle.setReference
  rw [run_bind_of_ok (h.run_refPath hm.1 d), Handle.file]
  have hpne : h.dir ++ r.name.splitOn "/" ≠ [] := by simp [RefName.splitOn_slash_ne_nil]
  rcases hr.blocked_cases hb with hdir | ⟨a, d', ha, hf⟩
  · -- the directories are all there, and the file would replace one
    have habove := hr.wf _ (by rw [hdir]; rfl)
    have hdirs : d.files.createDirAll (h.dir ++ r.name.splitOn "/").dropLast = .ok d.files := by
      apply createDirAll_of_dirs
      intro a ha hpre
      have hlt : a.length < (h.dir ++ r.name.splitOn "/").length := by
        have := hpre.length_le
        simp only [List.length_dropLast] at this
        have := List.length_pos_iff_ne_nil.mpr hpne
        omega
      have hdir' := habove a (mem_ancestors.mpr ⟨ha, hpre.trans (List.dropLast_prefix _), hlt⟩)
      rwa [node?_of_ne_nil ha] at hdir'
    exact ⟨_, run_writeAtomic_of_write hdirs (write_of_dir hpne habove hdir _)⟩
  · -- a file on the way stops the directories
    have hne := (mem_ancestors.mp ha).1
    obtain ⟨e, he⟩ := createDirAll_of_file hr.wf (prefix_dropLast_of_mem_ancestors ha) hne hf
    exact ⟨_, run_writeAtomic_of_createDirAll he⟩

/-! ## Removing a reference, and pruning -/

theorem prefix_dropLast_of_ne {a l : FsPath} (h : a <+: l) (hne : a ≠ l) : a <+: l.dropLast := by
  obtain ⟨c, rfl⟩ := h
  have hc : c ≠ [] := by
    rintro rfl
    exact hne (List.append_nil a).symm
  rw [List.dropLast_append_of_ne_nil hc]
  exact List.prefix_append _ _

/-- Removing a node below `refs/<kind>` leaves `refs/`, the kind directories and the absence
of `packed-refs` as they were. -/
theorem RefsAt.erase_frame (hr : RefsAt t X M S) {c : FsPath} (hc : c ≠ [])
    (hcr : c ≠ ["refs"]) :
    (⟨t.nodes.erase (X ++ c)⟩ : FileTree).DirsAbove (X ++ ["refs"]) ∧
      (⟨t.nodes.erase (X ++ c)⟩ : FileTree).nodes[X ++ ["refs"]]? = some .dir ∧
      (⟨t.nodes.erase (X ++ c)⟩ : FileTree).nodes[X ++ ["packed-refs"]]? = none ∧
      ∀ k d, (⟨t.nodes.erase (X ++ c)⟩ : FileTree).nodes[X ++ ["refs", k]]? ≠ some (.file d) := by
  refine ⟨fun a ha => ?_, ?_, ?_, fun k d => ?_⟩
  · have ha' := mem_ancestors.mp ha
    have hpre : a <+: X := by simpa using prefix_dropLast_of_mem_ancestors ha
    have hne : a ≠ X ++ c := by
      intro h
      have := congrArg List.length h
      have := hpre.length_le
      have := List.length_pos_iff_ne_nil.mpr hc
      simp at *
      omega
    rw [node?_of_ne_nil ha'.1, nodes_erase, if_neg hne, ← node?_of_ne_nil ha'.1]
    exact hr.refs a ha
  · rw [nodes_erase, if_neg (fun h => hcr (List.append_cancel_left h).symm), hr.refsDir]
  · rw [nodes_erase, hr.packed]
    simp
  · rw [nodes_erase]
    split_ifs
    · simp
    · exact hr.kinds k d

/-- **Removing the file of a reference** leaves a tree that holds the map without it, with the
directories above it left to prune. -/
theorem HoldsRefs.erase (hr : HoldsRefs t X M) {m : String} {r : RefTarget}
    (hm : RefName.Kept m) (hM : M m = some r) :
    RefsAt ⟨t.nodes.erase (X ++ m.splitOn "/")⟩ X (Function.update M m none)
      (m.splitOn "/").dropLast := by
  obtain ⟨hnrefs, -, -⟩ := parts_ne_of_kept hm
  obtain ⟨hrefs, hrefsDir, hpacked, hkinds⟩ :=
    RefsAt.erase_frame hr (RefName.splitOn_slash_ne_nil m) hnrefs
  have hrel : ∀ q, (⟨t.nodes.erase (X ++ m.splitOn "/")⟩ : FileTree).nodes[X ++ q]? =
      if q = m.splitOn "/" then none else t.nodes[X ++ q]? := by
    intro q
    rw [nodes_erase]
    simp only [List.append_cancel_left_eq]
  refine ⟨hr.wf.erase (hr.wf.not_mem_ancestors_of_file (hr.files m r hM)),
    hr.kept.update (fun h => absurd rfl h) (fun _ h => by simp at h), hrefs, hrefsDir, hpacked,
    ?_, ?_, hkinds, ?_, ?_⟩
  · intro hnone
    by_cases hmh : m = headName
    · subst hmh
      rw [hrel, RefName.splitOn_head, if_pos (show [headName] = ["HEAD"] from rfl)]
    · rw [Function.update_of_ne (Ne.symm hmh)] at hnone
      rw [hrel, if_neg (fun h => hmh (RefName.splitOn_slash_injective
        (h.symm.trans RefName.splitOn_head.symm))), hr.head hnone]
  · intro m' r' h'
    have hmm : m' ≠ m := by
      rintro rfl
      simp at h'
    rw [Function.update_of_ne hmm] at h'
    rw [hrel, if_neg (fun h => hmm (RefName.splitOn_slash_injective h)), hr.files m' r' h']
  · intro q hq hlen hhead
    rw [hrel] at hq
    split_ifs at hq with hqm
    · simp at hq
    rcases hr.only q hq hlen hhead with ⟨m', hm', hpre⟩ | hS
    · by_cases hmm : m' = m
      · -- on the way to the removed file: left for pruning
        subst hmm
        exact .inr (prefix_dropLast_of_ne hpre hqm)
      · exact .inl ⟨m', by rwa [Function.update_of_ne hmm], hpre⟩
    · exact .inr (by simp at hS; simp [hS])
  · intro a ha hpre
    have hne : a ≠ m.splitOn "/" := by
      intro h
      have := hpre.length_le
      rw [h, List.length_dropLast] at this
      have := List.length_pos_iff_ne_nil.mpr (RefName.splitOn_slash_ne_nil m)
      omega
    rw [hrel, if_neg hne]
    exact RefsAt.dir_of_proper_prefix hr hM ha (hpre.trans (List.dropLast_prefix _)) hne

/-- Removing an empty directory on the way to `S` leaves the directories above it to prune. -/
theorem RefsAt.prune_step (hr : RefsAt t X M S) (hlen : 3 ≤ S.length)
    (hchildren : t.children (X ++ S) = []) :
    RefsAt ⟨t.nodes.erase (X ++ S)⟩ X M S.dropLast := by
  have hSne : S ≠ [] := by
    rintro rfl
    simp at hlen
  obtain ⟨hrefs, hrefsDir, hpacked, hkinds⟩ :=
    hr.erase_frame hSne (fun h => by rw [h] at hlen; simp at hlen)
  have hrel : ∀ q, (⟨t.nodes.erase (X ++ S)⟩ : FileTree).nodes[X ++ q]? =
      if q = S then none else t.nodes[X ++ q]? := by
    intro q
    rw [nodes_erase]
    simp only [List.append_cancel_left_eq]
  have hdir : t.nodes[X ++ S]? = some .dir := hr.spare S hSne List.prefix_rfl
  refine ⟨hr.wf.erase (hr.wf.not_mem_ancestors_of_children hchildren), hr.kept, hrefs, hrefsDir,
    hpacked, ?_, ?_, hkinds, ?_, ?_⟩
  · intro hnone
    rw [nodes_erase, hr.head hnone]
    simp
  · -- a reference is a file, and what goes is a directory
    intro m r hM
    have hfile := hr.files m r hM
    rw [hrel, if_neg (fun h => by rw [h, hdir] at hfile; cases hfile), hfile]
  · intro q hq hlen' hhead
    rw [hrel] at hq
    split_ifs at hq with hqS
    · simp at hq
    rcases hr.only q hq hlen' hhead with hname | hS
    · exact .inl hname
    · exact .inr (prefix_dropLast_of_ne hS hqS)
  · intro a ha hpre
    have hne : a ≠ S := by
      intro h
      have := hpre.length_le
      rw [h, List.length_dropLast] at this
      omega
    rw [hrel, if_neg hne]
    exact hr.spare a ha (hpre.trans (List.dropLast_prefix _))

/-- With no more than `refs/<kind>` on the way to `S`, nothing is left to prune. -/
theorem RefsAt.settle_of_length (hr : RefsAt t X M S) (hlen : S.length ≤ 2) :
    HoldsRefs t X M := by
  refine { hr with only := ?_, spare := fun a ha hpre => absurd (List.prefix_nil.mp hpre) ha }
  intro q hq hlen' hhead
  rcases hr.only q hq hlen' hhead with hname | hS
  · exact .inl hname
  · have := hS.length_le
    omega

/-- With `S` on the way to a reference, nothing is left to prune. -/
theorem RefsAt.settle_of_prefix (hr : RefsAt t X M S) {m : String} (hm : M m ≠ none)
    (hS : S <+: m.splitOn "/") : HoldsRefs t X M := by
  refine { hr with only := ?_, spare := fun a ha hpre => absurd (List.prefix_nil.mp hpre) ha }
  intro q hq hlen' hhead
  rcases hr.only q hq hlen' hhead with hname | hqS
  · exact .inl hname
  · exact .inl ⟨m, hm, hqS.trans hS⟩

/-- **Pruning the directories a removal left** takes away those left empty, stops at the
first one that is not, or at `refs/<kind>`, and never fails. -/
theorem run_pruneRefDirs (h : Handle) : ∀ (fuel : Nat) (S : FsPath) (d : Disk),
    RefsAt d.files h.dir M S → (S = [] ∨ ∃ k q, S = "refs" :: k :: q) → S.length ≤ fuel + 2 →
    ∃ t', (h.pruneRefDirs fuel (h.dir ++ S)).run.run d = (.ok (), { d with files := t' }) ∧
      HoldsRefs t' h.dir M
  | 0, S, d, hr, _, hlen => ⟨d.files, rfl, hr.settle_of_length (by omega)⟩
  | fuel + 1, S, d, hr, hS, hlen => by
    unfold Handle.pruneRefDirs
    rcases hS with rfl | ⟨k, q, rfl⟩
    · -- the removed file was `HEAD`: nothing below `refs/` to prune
      have hnot : (h.file ["refs"]).isPrefixOf h.dir = false := by
        rw [Bool.eq_false_iff]
        intro hp
        have := (List.isPrefixOf_iff_prefix.mp hp).length_le
        simp [Handle.file] at this
      have hcond : ((h.dir ++ []).dropLast == h.file ["refs"] ||
          !(h.file ["refs"]).isPrefixOf (h.dir ++ [])) = true := by
        simp [hnot]
      simp only [hcond, if_true]
      exact ⟨d.files, rfl, hr⟩
    by_cases hq : q = []
    · -- `refs/<kind>` stays
      subst hq
      have hcond : ((h.dir ++ ["refs", k]).dropLast == h.file ["refs"] ||
          !(h.file ["refs"]).isPrefixOf (h.dir ++ ["refs", k])) = true := by
        simp [Handle.file, List.dropLast_append_of_ne_nil]
      simp only [hcond, if_true]
      exact ⟨d.files, rfl, hr.settle_of_length (by simp)⟩
    have hcond : ((h.dir ++ "refs" :: k :: q).dropLast == h.file ["refs"] ||
        !(h.file ["refs"]).isPrefixOf (h.dir ++ "refs" :: k :: q)) = false := by
      simp [Handle.file, List.dropLast_append_of_ne_nil, List.isPrefixOf_iff_prefix,
        List.dropLast_cons_of_ne_nil hq]
    simp only [hcond, Bool.false_eq_true, if_false]
    rw [run_bind_of_ok (run_files d)]
    have hSne : "refs" :: k :: q ≠ [] := by simp
    have hdir := hr.spare _ hSne List.prefix_rfl
    have hcur : h.dir ++ "refs" :: k :: q ≠ [] := by simp
    rw [removeDir_of_dirsAbove hcur (hr.wf _ (by rw [hdir]; rfl)) hdir]
    by_cases hch : d.files.children (h.dir ++ "refs" :: k :: q) = []
    · -- an empty directory goes, and the one above it is next
      rw [if_pos (List.isEmpty_iff.mpr hch)]
      have hlen3 : 3 ≤ ("refs" :: k :: q).length := by
        have := List.length_pos_iff_ne_nil.mpr hq
        simp
        omega
      obtain ⟨t', hrun, ht'⟩ := run_pruneRefDirs h fuel ("refs" :: k :: q).dropLast
        { files := ⟨d.files.nodes.erase (h.dir ++ "refs" :: k :: q)⟩, cache := d.cache }
        (hr.prune_step hlen3 hch) (.inr ⟨k, q.dropLast, by simp [List.dropLast_cons_of_ne_nil hq]⟩)
        (by simp at hlen ⊢; omega)
      refine ⟨t', ?_, ht'⟩
      rw [← List.dropLast_append_of_ne_nil hSne] at hrun
      exact hrun
    · -- a directory that still holds something stays, and so does everything above it
      rw [if_neg (fun h' => hch (List.isEmpty_iff.mp h'))]
      refine ⟨d.files, rfl, ?_⟩
      obtain ⟨x, hx⟩ := List.exists_mem_of_ne_nil _ hch
      have hnode := mem_children.mp hx
      rw [List.append_assoc] at hnode
      rcases hr.only _ hnode (by simp) rfl with ⟨m', hm', hpre⟩ | hself
      · exact hr.settle_of_prefix hm' ((List.prefix_append _ [x]).trans hpre)
      · have := hself.length_le
        simp at this

/-- **Removing a reference of the map** succeeds and removes it from the map. -/
theorem run_deleteReference_of_some (h : Handle) {d : Disk} (hr : HoldsRefs d.files h.dir M)
    {m : String} (hm : RefName.Kept m) (hM : M m ≠ none) :
    ∃ t', (h.deleteReference m).run.run d = (.ok (), { d with files := t' }) ∧
      HoldsRefs t' h.dir (Function.update M m none) := by
  obtain ⟨r, hr'⟩ := Option.ne_none_iff_exists'.mp hM
  have hfile := hr.files m r hr'
  have hpne : h.dir ++ m.splitOn "/" ≠ [] := by simp [RefName.splitOn_slash_ne_nil]
  have hremove : d.files.removeFile (h.dir ++ m.splitOn "/") =
      .ok ⟨d.files.nodes.erase (h.dir ++ m.splitOn "/")⟩ := by
    rw [removeFile_of_dirsAbove (hr.wf _ (by rw [hfile]; rfl)), node?_of_ne_nil hpne, hfile]
  -- what is left to prune is `refs/<kind>/...`, or nothing for `HEAD`
  have hS : (m.splitOn "/").dropLast = [] ∨ ∃ k q, (m.splitOn "/").dropLast = "refs" :: k :: q := by
    rcases hm.head_or_refs with rfl | ⟨k, x, rest, hparts⟩
    · exact .inl (by rw [RefName.splitOn_head]; rfl)
    · exact .inr ⟨k, (x :: rest).dropLast, by rw [hparts]; rfl⟩
  obtain ⟨t', hrun, ht'⟩ := run_pruneRefDirs h (h.dir ++ m.splitOn "/").length
    (m.splitOn "/").dropLast
    { files := ⟨d.files.nodes.erase (h.dir ++ m.splitOn "/")⟩, cache := d.cache }
    (hr.erase hm hr') hS (by simp; omega)
  refine ⟨t', ?_, ht'⟩
  unfold Handle.deleteReference
  rw [run_bind_of_ok (h.run_refPath hm.1 d), run_bind_of_ok (run_files d), Handle.file, hremove,
    ← List.dropLast_append_of_ne_nil (RefName.splitOn_slash_ne_nil m)] at *
  exact run_bind_of_ok rfl |>.trans hrun

/-- Removing a name that the map does not hold, and that no name of it blocks, fails as
absent and changes nothing. -/
theorem run_deleteReference_of_none (h : Handle) {d : Disk} (hr : HoldsRefs d.files h.dir M)
    {m : String} (hm : RefName.Kept m) (hb : ¬ M.Blocks m) (hM : M m = none) :
    (h.deleteReference m).run.run d = (.error (.notFound ("reference " ++ m)), d) := by
  have hremove : d.files.removeFile (h.dir ++ m.splitOn "/") = .error .notFound := by
    by_cases habove : d.files.DirsAbove (h.dir ++ m.splitOn "/")
    · rw [removeFile_of_dirsAbove habove, node?_of_ne_nil (by simp [RefName.splitOn_slash_ne_nil]),
        hr.node_eq_none hm hb hM]
    · exact removeFile_of_not_dirsAbove (hr.not_file_ancestors hm hb) habove
  unfold Handle.deleteReference
  rw [run_bind_of_ok (h.run_refPath hm.1 d), run_bind_of_ok (run_files d), Handle.file, hremove]
  rw [run_bind_of_ok (run_packedRefs_of_refsAt h hr)]
  rfl

/-- Removing a blocked name fails with an error of the file system and changes nothing. -/
theorem run_deleteReference_of_blocks (h : Handle) {d : Disk} (hr : RefsAt d.files h.dir M S)
    {m : String} (hm : RefName.Kept m) (hb : M.Blocks m) :
    ∃ msg, (h.deleteReference m).run.run d = (.error (.io msg), d) := by
  have hremove : ∃ e, e ≠ .notFound ∧ d.files.removeFile (h.dir ++ m.splitOn "/") = .error e := by
    rcases hr.blocked_cases hb with hdir | ⟨a, d', ha, hf⟩
    · refine ⟨.isADirectory, by decide, ?_⟩
      rw [removeFile_of_dirsAbove (hr.wf _ (by rw [hdir]; rfl)),
        node?_of_ne_nil (by simp [RefName.splitOn_slash_ne_nil]), hdir]
    · exact ⟨.notADirectory, by decide, removeFile_of_file hr.wf ha hf⟩
  obtain ⟨e, hne, he⟩ := hremove
  refine ⟨e.message, ?_⟩
  unfold Handle.deleteReference
  rw [run_bind_of_ok (h.run_refPath hm.1 d), run_bind_of_ok (run_files d), Handle.file, he]
  cases e <;> first | exact absurd rfl hne | rfl

end Local

/-! ## Storage that does not fail is no disk -/

namespace Storage

/-- **Storage that does not fail is no disk.** On a disk, writing the branch `refs/heads/main`
leaves `refs/heads` its directory, and a read of the reference `refs/heads`, a valid name, then
fails with `Is a directory` where the laws want its target. So every state the laws hold of
keeps its repositories in a blob store. -/
theorem Reliable.medium_remote {n : RepoName} {Good : Storage → Prop} {s : Storage}
    (hrel : Reliable n Good) (hs : Good s) : ∃ b, s.medium = .remote b := by
  rcases hm : s.medium with b | d
  · exact ⟨b, rfl⟩
  exfalso
  have hsplit : "refs/heads/main".splitOn "/" = ["refs", "heads", "main"] := by
    rw [RefName.splitOn_slash]
    decide +kernel
  have hheadsSplit : "refs/heads".splitOn "/" = ["refs", "heads"] := by
    rw [RefName.splitOn_slash]
    decide +kernel
  have hbranch : validateRefName "refs/heads/main" = .ok () := by
    have hdots : "refs/heads/main".splitOn ".." = ["refs/heads/main"] :=
      String.splitOn_of_not_mem (by decide) (by decide)
    have hbrace : "refs/heads/main".splitOn "@\x7b" = ["refs/heads/main"] :=
      String.splitOn_of_not_mem (by decide) (by decide)
    unfold validateRefName
    rw [hdots, hbrace, hsplit]
    decide +kernel
  have hheads : validateRefName "refs/heads" = .ok () := by
    have hdots : "refs/heads".splitOn ".." = ["refs/heads"] :=
      String.splitOn_of_not_mem (by decide) (by decide)
    have hbrace : "refs/heads".splitOn "@\x7b" = ["refs/heads"] :=
      String.splitOn_of_not_mem (by decide) (by decide)
    unfold validateRefName
    rw [hdots, hbrace, hheadsSplit]
    decide +kernel
  -- writing the branch succeeds and keeps the laws
  obtain ⟨s', hset, hs', -⟩ := hrel.setDirect "refs/heads/main" ObjectId.zero hs hbranch
  rw [setReference, run_onMedium_disk _ _ hm] at hset
  obtain ⟨hok, rfl⟩ := Prod.mk.inj hset
  set d' := (((Local.Handle.of n).setReference ⟨"refs/heads/main", .direct ObjectId.zero⟩).run.run d).2
  have hrun : ((Local.Handle.of n).setReference ⟨"refs/heads/main", .direct ObjectId.zero⟩).run.run d =
      (.ok (), d') := Prod.ext hok rfl
  unfold Local.Handle.setReference at hrun
  rw [run_bind_of_ok ((Local.Handle.of n).run_refPath hbranch d)] at hrun
  -- so on the disk it leaves, `refs/heads` is the directory of the branch
  have hp : ((Local.Handle.of n).file ("refs/heads/main".splitOn "/")).dropLast =
      (Local.Handle.of n).file ("refs/heads".splitOn "/") := by
    rw [hsplit, hheadsSplit, Local.Handle.file, Local.Handle.file,
      List.dropLast_append_of_ne_nil (by simp)]
    rfl
  have hfail := Local.readOptional_dropLast_of_run_writeAtomic
    (by rw [hp]; simp [Local.Handle.file, RefName.splitOn_slash_ne_nil]) hrun
  rw [hp] at hfail
  -- and reading it as a reference fails with an error of the file system
  have hget : (getReference n "refs/heads").run.run { s with medium := .disk d' } =
      (.error (.io OsError.isADirectory.message), { s with medium := .disk d' }) := by
    rw [getReference, run_onMedium_disk _ _ rfl]
    unfold Local.Handle.getReference
    rw [run_bind_of_ok ((Local.Handle.of n).run_refPath hheads d'),
      run_bind_of_ok (Local.run_files d'), hfail, run_bind_of_error (Local.run_os_error _ d')]
  -- inside `Reliable`, a bare `currentTarget` names the law; the read is meant
  have hread := hrel.currentTarget "refs/heads" hs' hheads
  rw [Storage.currentTarget, run_tryCatch_of_error (run_bind_of_error hget)] at hread
  cases hread

end Storage

end GitServer
