import GitServer.Storage.FileTree
import Mathlib

/-!
# Following and changing a file tree

`FileTree` answers every operation the way the operating system does, so what an operation
does depends on the nodes on the way to its path. `lookup_eq` says once how a way is
followed: it fails at the first node above the path that is not a directory, as missing or as a
file (`wayFault`). In a `WellFormed` tree, where every node hangs below directories, that
leaves three situations, and each operation has a lemma for each: every directory on the way
exists (`DirsAbove`), a file is on the way (`lookup_of_file`), or a directory on the way is
missing with no file before it (`lookup_of_not_dirsAbove`).

The operations that change the tree are described by the nodes they leave, path by path:
writing sets one node (`nodes_setNode`), removing erases one (`nodes_erase`), and creating
directories puts a directory at every nonempty prefix of the path (`createDirAll_of_noFile`,
`WithDirs`). Each keeps the tree well formed.
-/

namespace GitServer.FileTree

variable {t : FileTree} {p q : FsPath}

/-! ## The way to a path -/

theorem mem_ancestors {a : FsPath} :
    a ∈ ancestors p ↔ a ≠ [] ∧ a <+: p ∧ a.length < p.length := by
  simp only [ancestors, List.mem_map, List.mem_range]
  constructor
  · rintro ⟨i, hi, rfl⟩
    refine ⟨?_, List.take_prefix _ _, ?_⟩
    · rw [← List.length_pos_iff_ne_nil, List.length_take]; omega
    · rw [List.length_take]; omega
  · rintro ⟨hne, hpre, hlt⟩
    have hpos : 0 < a.length := List.length_pos_iff_ne_nil.mpr hne
    refine ⟨a.length - 1, by omega, ?_⟩
    rw [Nat.sub_add_cancel hpos, ← List.prefix_iff_eq_take.mp hpre]

/-- A nonempty proper prefix of a path is on the way to it. -/
theorem mem_ancestors_of_prefix_ne {a : FsPath} (hne : a ≠ []) (hpre : a <+: p) (hap : a ≠ p) :
    a ∈ ancestors p :=
  mem_ancestors.mpr ⟨hne, hpre, lt_of_le_of_ne hpre.length_le fun hl => hap (hpre.eq_of_length hl)⟩

/-- A prefix of a path one name longer that is not longer than the path is a prefix of it. -/
theorem prefix_of_prefix_snoc {a : FsPath} {x : String} (h : a <+: p ++ [x])
    (hle : a.length ≤ p.length) : a <+: p := by
  have := List.prefix_take_iff.mpr ⟨h, hle⟩
  rwa [List.take_left'] at this
  rfl

theorem ancestors_snoc (hp : p ≠ []) (x : String) : ancestors (p ++ [x]) = ancestors p ++ [p] := by
  obtain ⟨k, hk⟩ : ∃ k, p.length = k + 1 := Nat.exists_eq_succ_of_ne_zero (by simpa using hp)
  simp only [ancestors, List.length_append, List.length_singleton, Nat.add_sub_cancel, hk,
    List.range_succ, List.map_append, List.map_cons, List.map_nil]
  congr 1
  · apply List.map_congr_left
    intro i hi
    simp only [List.mem_range] at hi
    rw [List.take_append_of_le_length (by omega)]
  · rw [List.take_append_of_le_length (by omega), ← hk, List.take_length]

/-- The first fault on the way through the given directories: a missing one, or a file. -/
def wayFault (t : FileTree) : List FsPath → Option OsError
  | [] => none
  | a :: as =>
    match t.node? a with
    | some .dir => wayFault t as
    | none => some .notFound
    | some (.file _) => some .notADirectory

theorem wayFault_append (l₁ l₂ : List FsPath) :
    t.wayFault (l₁ ++ l₂) = (t.wayFault l₁).or (t.wayFault l₂) := by
  induction l₁ with
  | nil => rfl
  | cons a as ih =>
    simp only [List.cons_append, wayFault]
    split <;> simp [ih]

theorem wayFault_eq_none_iff {l : List FsPath} :
    t.wayFault l = none ↔ ∀ a ∈ l, t.node? a = some .dir := by
  induction l with
  | nil => simp [wayFault]
  | cons a as ih =>
    simp only [wayFault, List.mem_cons, forall_eq_or_imp]
    split <;> simp_all

/-- Following a path fails at the first step that is not a directory. -/
theorem lookup_eq (t : FileTree) (p : FsPath) :
    t.lookup p = match t.wayFault (ancestors p) with
      | none => .ok (t.node? p)
      | some e => .error e := by
  unfold lookup
  generalize ancestors p = l
  induction l with
  | nil => rfl
  | cons a as ih =>
    simp only [List.forIn_cons, wayFault]
    split <;> simp_all <;> rfl

/-- Following a path one name further: the way so far must end in a directory. -/
theorem lookup_snoc (hp : p ≠ []) (x : String) :
    t.lookup (p ++ [x]) = match t.lookup p with
      | .error e => .error e
      | .ok none => .error .notFound
      | .ok (some (.file _)) => .error .notADirectory
      | .ok (some .dir) => .ok (t.node? (p ++ [x])) := by
  rw [lookup_eq, lookup_eq, ancestors_snoc hp, wayFault_append]
  cases t.wayFault (ancestors p) with
  | some e => rfl
  | none =>
    simp only [Option.none_or, wayFault]
    cases h : t.node? p with
    | none => rfl
    | some n => cases n <;> rfl

@[simp] theorem nodes_setNode (t : FileTree) (p q : FsPath) (n : FsNode) :
    (t.setNode p n).nodes[q]? = if q = p then some n else t.nodes[q]? := by
  simp only [setNode, Std.TreeMap.getElem?_insert, Std.LawfulEqOrd.compare_eq_iff_eq]
  by_cases h : q = p
  · simp [h]
  · simp [h, Ne.symm h]

@[simp] theorem nodes_erase (t : FileTree) (p q : FsPath) :
    (⟨t.nodes.erase p⟩ : FileTree).nodes[q]? = if q = p then none else t.nodes[q]? := by
  simp only [Std.TreeMap.getElem?_erase, Std.LawfulEqOrd.compare_eq_iff_eq]
  by_cases h : q = p
  · simp [h]
  · simp [h, Ne.symm h]

@[simp] theorem node?_nil (t : FileTree) : t.node? [] = some .dir := rfl

theorem node?_of_ne_nil (hp : p ≠ []) : t.node? p = t.nodes[p]? := by
  simp [node?, List.isEmpty_iff, hp]

theorem node?_setNode_of_ne (h : q ≠ p) (n : FsNode) : (t.setNode p n).node? q = t.node? q := by
  by_cases hq : q = []
  · subst hq
    rfl
  · rw [node?_of_ne_nil hq, node?_of_ne_nil hq, nodes_setNode, if_neg h]

/-! ## Trees without dangling nodes -/

/-- Every directory on the way to a path exists. -/
def DirsAbove (t : FileTree) (p : FsPath) : Prop := ∀ a ∈ ancestors p, t.node? a = some .dir

/-- Every node hangs below directories. -/
def WellFormed (t : FileTree) : Prop := ∀ p, (t.nodes[p]?).isSome → t.DirsAbove p

theorem lookup_of_dirsAbove (h : t.DirsAbove p) : t.lookup p = .ok (t.node? p) := by
  rw [lookup_eq, (wayFault_eq_none_iff).mpr h]

/-- A way followed to its end went through directories only. -/
theorem dirsAbove_of_lookup {n : Option FsNode} (h : t.lookup p = .ok n) :
    t.DirsAbove p ∧ t.node? p = n := by
  rw [lookup_eq] at h
  cases hw : t.wayFault (ancestors p) with
  | none =>
    rw [hw] at h
    exact ⟨wayFault_eq_none_iff.mp hw, Except.ok.inj h⟩
  | some e =>
    rw [hw] at h
    cases h

theorem dirsAbove_of_prefix (h : t.DirsAbove p) (hq : q <+: p) : t.DirsAbove q := by
  intro a ha
  rw [mem_ancestors] at ha
  exact h a (mem_ancestors.mpr ⟨ha.1, ha.2.1.trans hq, by
    have := hq.length_le; omega⟩)

/-- A file on the way to a path stops the way there. -/
theorem lookup_of_file (hwf : t.WellFormed) {a : FsPath} {d : Bytes} (ha : a ∈ ancestors p)
    (hf : t.nodes[a]? = some (.file d)) : t.lookup p = .error .notADirectory := by
  induction p using List.reverseRecOn with
  | nil => simp [ancestors] at ha
  | append_singleton q x ih =>
    rw [mem_ancestors] at ha
    obtain ⟨hne, hpre, hlt⟩ := ha
    have hq : q ≠ [] := by
      rintro rfl
      simp only [List.nil_append, List.length_singleton] at hlt
      exact hne (List.length_eq_zero_iff.mp (by omega))
    rw [lookup_snoc hq]
    by_cases haq : a = q
    · subst haq
      rw [lookup_of_dirsAbove (hwf a (by simp [hf])), node?_of_ne_nil hne, hf]
    · have hle : a.length ≤ q.length := by simp at hlt; omega
      have hpre' : a <+: q := prefix_of_prefix_snoc hpre hle
      have hlt' : a.length < q.length := by
        rcases Nat.lt_or_eq_of_le hle with h | h
        · exact h
        · exact absurd (hpre'.eq_of_length h) haq
      rw [ih (mem_ancestors.mpr ⟨hne, hpre', hlt'⟩)]

theorem mem_ancestors_dropLast {a : FsPath} :
    a ∈ ancestors p ↔ a ∈ ancestors p.dropLast ∨ (a = p.dropLast ∧ a ≠ []) := by
  simp only [mem_ancestors, List.length_dropLast]
  constructor
  · rintro ⟨hne, hpre, hlt⟩
    have hpre' : a <+: p.dropLast := by
      rw [List.dropLast_eq_take]
      exact List.prefix_take_iff.mpr ⟨hpre, by omega⟩
    by_cases hlen : a.length = p.length - 1
    · exact .inr ⟨hpre'.eq_of_length (by simp [hlen]), hne⟩
    · exact .inl ⟨hne, hpre', by omega⟩
  · rintro (⟨hne, hpre, hlt⟩ | ⟨rfl, hne⟩)
    · exact ⟨hne, hpre.trans (List.dropLast_prefix p), by omega⟩
    · refine ⟨hne, List.dropLast_prefix p, ?_⟩
      have : p ≠ [] := by rintro rfl; simp at hne
      simp only [List.length_dropLast]
      have := List.length_pos_iff_ne_nil.mpr this
      omega

theorem prefix_dropLast_of_mem_ancestors {a : FsPath} (ha : a ∈ ancestors p) : a <+: p.dropLast := by
  rcases mem_ancestors_dropLast.mp ha with ha' | ⟨rfl, -⟩
  · exact (mem_ancestors.mp ha').2.1
  · exact List.prefix_rfl

/-- Without a file on the way, the only fault on it is a missing directory. -/
theorem wayFault_of_noFile {l : List FsPath} (h : ∀ a ∈ l, ∀ d, t.node? a ≠ some (.file d)) :
    t.wayFault l = none ∨ t.wayFault l = some .notFound := by
  induction l with
  | nil => exact .inl rfl
  | cons a as ih =>
    simp only [wayFault]
    split
    · exact ih fun b hb => h b (List.mem_cons_of_mem a hb)
    · exact .inr rfl
    · rename_i d hd
      exact absurd hd (h a (by simp) d)

theorem lookup_of_not_dirsAbove (h : ∀ a ∈ ancestors p, ∀ d, t.node? a ≠ some (.file d))
    (hn : ¬ t.DirsAbove p) : t.lookup p = .error .notFound := by
  rw [lookup_eq]
  rcases wayFault_of_noFile h with h0 | h0
  · exact absurd ((wayFault_eq_none_iff).mp h0) hn
  · rw [h0]

/-- In a well-formed tree, a path below a missing directory is missing too. -/
theorem nodes_eq_none_of_not_dirsAbove (hwf : t.WellFormed) (hn : ¬ t.DirsAbove p) :
    t.nodes[p]? = none := by
  cases h : t.nodes[p]? with
  | none => rfl
  | some n => exact absurd (hwf p (by simp [h])) hn

/-! ## Reading -/

theorem stat_of_dirsAbove (h : t.DirsAbove p) :
    t.stat p = match t.node? p with
      | some n => .ok n
      | none => .error .notFound := by
  simp only [stat, lookup_of_dirsAbove h]
  cases t.node? p <;> rfl

theorem read_of_dirsAbove (h : t.DirsAbove p) :
    t.read p = match t.node? p with
      | some (.file d) => .ok d
      | some .dir => .error .isADirectory
      | none => .error .notFound := by
  simp only [read, stat_of_dirsAbove h]
  rcases t.node? p with _ | _ | _ <;> rfl

theorem readOptional_of_dirsAbove (h : t.DirsAbove p) :
    t.readOptional p = match t.node? p with
      | some (.file d) => .ok (some d)
      | some .dir => .error .isADirectory
      | none => .ok none := by
  simp only [readOptional, read_of_dirsAbove h]
  rcases t.node? p with _ | _ | _ <;> rfl

theorem readOptional_of_not_dirsAbove (h : ∀ a ∈ ancestors p, ∀ d, t.node? a ≠ some (.file d))
    (hn : ¬ t.DirsAbove p) : t.readOptional p = .ok none := by
  simp only [readOptional, read, stat, lookup_of_not_dirsAbove h hn]
  rfl

theorem readOptional_of_file (hwf : t.WellFormed) {a : FsPath} {d : Bytes} (ha : a ∈ ancestors p)
    (hf : t.nodes[a]? = some (.file d)) : t.readOptional p = .error .notADirectory := by
  simp only [readOptional, read, stat, lookup_of_file hwf ha hf]
  rfl

/-- Without a file on the way, a path exists exactly when the tree has a node there. -/
theorem exists?_of_noFile (hwf : t.WellFormed) (hp : p ≠ [])
    (h : ∀ a ∈ ancestors p, ∀ d, t.node? a ≠ some (.file d)) :
    t.exists? p = .ok (t.nodes[p]?).isSome := by
  by_cases habove : t.DirsAbove p
  · simp only [exists?, lookup_of_dirsAbove habove, node?_of_ne_nil hp]
  · simp only [exists?, lookup_of_not_dirsAbove h habove, nodes_eq_none_of_not_dirsAbove hwf habove]
    rfl

/-! ## Writing -/

theorem checkParent_of_dirsAbove (h : t.DirsAbove p) : t.checkParent p = .ok () := by
  have hdrop : t.lookup p.dropLast = .ok (some .dir) := by
    by_cases hd : p.dropLast = []
    · rw [hd]; rfl
    · rw [lookup_of_dirsAbove ( dirsAbove_of_prefix h (List.dropLast_prefix p)),
        h _ (mem_ancestors_dropLast.mpr (.inr ⟨rfl, hd⟩))]
  simp only [checkParent, hdrop]
  rfl

theorem checkParent_of_file (hwf : t.WellFormed) {a : FsPath} {d : Bytes} (ha : a ∈ ancestors p)
    (hf : t.nodes[a]? = some (.file d)) : t.checkParent p = .error .notADirectory := by
  rcases mem_ancestors_dropLast.mp ha with ha' | ⟨rfl, hne⟩
  · simp only [checkParent, lookup_of_file hwf ha' hf]
    rfl
  · have hl : t.lookup p.dropLast = .ok (some (.file d)) := by
      rw [lookup_of_dirsAbove (hwf _ (by rw [hf]; rfl)), node?_of_ne_nil hne, hf]
    simp only [checkParent, hl]
    rfl

theorem write_of_dirsAbove (hp : p ≠ []) (h : t.DirsAbove p) (hnd : t.nodes[p]? ≠ some .dir)
    (data : Bytes) : t.write p data = .ok (t.setNode p (.file data)) := by
  simp only [write, checkParent_of_dirsAbove h, node?_of_ne_nil hp]
  cases hn : t.nodes[p]? with
  | none => rfl
  | some n => cases n with
    | file _ => rfl
    | dir => exact absurd hn hnd

theorem write_of_dir (hp : p ≠ []) (h : t.DirsAbove p) (hd : t.nodes[p]? = some .dir)
    (data : Bytes) : t.write p data = .error .isADirectory := by
  simp only [write, checkParent_of_dirsAbove h, node?_of_ne_nil hp, hd]
  rfl

/-- A write that succeeded found the directory of its file, and set the file. -/
theorem eq_of_write {t' : FileTree} {data : Bytes} (h : t.write p data = .ok t') :
    t.lookup p.dropLast = .ok (some .dir) ∧ t' = t.setNode p (.file data) := by
  unfold write checkParent at h
  rcases hl : t.lookup p.dropLast with e | _ | _ | _
  all_goals rw [hl] at h
  · cases h
  · cases h
  · cases h
  · -- the directory is there; the file goes in unless a directory is in its place
    refine ⟨rfl, ?_⟩
    rcases hn : t.node? p with _ | _ | _
    all_goals rw [hn] at h
    · exact (Except.ok.inj h).symm
    · exact (Except.ok.inj h).symm
    · cases h

theorem write_of_file (hwf : t.WellFormed) {a : FsPath} {d : Bytes} (ha : a ∈ ancestors p)
    (hf : t.nodes[a]? = some (.file d)) (data : Bytes) :
    t.write p data = .error .notADirectory := by
  simp only [write, checkParent_of_file hwf ha hf]
  rfl

theorem dirsAbove_snoc (hp : p ≠ []) (x : String) :
    t.DirsAbove (p ++ [x]) ↔ t.DirsAbove p ∧ t.node? p = some .dir := by
  simp only [DirsAbove, ancestors_snoc hp, List.mem_append, List.mem_singleton]
  constructor
  · intro h
    exact ⟨fun a ha => h a (.inl ha), h p (.inr rfl)⟩
  · rintro ⟨h, hp'⟩ a (ha | rfl)
    · exact h a ha
    · exact hp'

theorem dirsAbove_singleton (x : String) : t.DirsAbove [x] := by
  intro a ha
  simp [ancestors] at ha

/-! ## Directories -/

theorem mkdir_of_dirsAbove (hp : p ≠ []) (h : t.DirsAbove p) :
    t.mkdir p = match t.nodes[p]? with
      | some _ => .error .alreadyExists
      | none => .ok (t.setNode p .dir) := by
  simp only [mkdir, List.isEmpty_iff, hp, if_false, checkParent_of_dirsAbove h, node?_of_ne_nil hp]
  cases t.nodes[p]? <;> rfl

theorem mkdir_of_not_dirsAbove (hp : p ≠ []) (hno : ∀ a ∈ ancestors p, ∀ d, t.node? a ≠ some (.file d))
    (hn : ¬ t.DirsAbove p) : t.mkdir p = .error .notFound := by
  -- the parent is missing, or a directory above it is
  have hparent : t.checkParent p = .error .notFound := by
    obtain ⟨q, x, rfl⟩ := List.eq_nil_or_concat' p |>.resolve_left hp
    have hq : q ≠ [] := by
      rintro rfl
      exact hn (dirsAbove_singleton x)
    simp only [checkParent, List.dropLast_concat]
    by_cases hq' : t.DirsAbove q
    · have hqn : t.node? q = none := by
        have hqa : q ∈ ancestors (q ++ [x]) := by simp [ancestors_snoc hq]
        rw [dirsAbove_snoc hq] at hn
        cases hnode : t.node? q with
        | none => rfl
        | some n => cases n with
          | dir => exact absurd ⟨hq', hnode⟩ hn
          | file d => exact absurd hnode (hno q hqa d)
      rw [lookup_of_dirsAbove hq', hqn]
      rfl
    · have hno' : ∀ a ∈ ancestors q, ∀ d, t.node? a ≠ some (.file d) := fun a ha =>
        hno a (by rw [ancestors_snoc hq]; exact List.mem_append_left _ ha)
      rw [lookup_of_not_dirsAbove hno' hq']
      rfl
  simp only [mkdir, List.isEmpty_iff, hp, if_false, hparent]
  rfl

theorem createDirAll_of_ne_nil (hp : p ≠ []) :
    t.createDirAll p = match t.mkdir p with
      | .ok t' => .ok t'
      | .error .notFound => do
        let t' ← t.createDirAll p.dropLast
        match t'.mkdir p with
        | .ok t'' => pure t''
        | .error e => if t'.isDir p then pure t' else throw e
      | .error e => if t.isDir p then .ok t else .error e := by
  obtain ⟨a, r, rfl⟩ := List.exists_cons_of_ne_nil hp
  exact createDirAll.eq_2 t a r

theorem isDir_of_dirsAbove (h : t.DirsAbove p) : t.isDir p = (t.node? p == some .dir) := by
  simp only [isDir, lookup_of_dirsAbove h]
  rcases t.node? p with _ | _ | _ <;> rfl

/-- The tree that has directories at the nonempty prefixes of `p` and else agrees with `t`. -/
def WithDirs (t t' : FileTree) (p : FsPath) : Prop :=
  ∀ q, t'.nodes[q]? = if q ≠ [] ∧ q <+: p then some .dir else t.nodes[q]?

theorem withDirs_nil (t : FileTree) : WithDirs t t [] := by
  intro q
  rw [if_neg]
  rintro ⟨hq, hpre⟩
  exact hq (List.prefix_nil.mp hpre)

/-- Where the way to a path is there and its directory too, every directory of it is there. -/
theorem withDirs_self (habove : t.DirsAbove p) (hd : t.nodes[p]? = some .dir) : WithDirs t t p := by
  intro r
  split_ifs with hpre
  · by_cases hr : r = p
    · rw [hr, hd]
    · rw [← node?_of_ne_nil hpre.1, habove r (mem_ancestors_of_prefix_ne hpre.1 hpre.2 hr)]
  · rfl

/-- Where the way to a path is there, making the directory at its end makes all of them. -/
theorem withDirs_setNode (hp : p ≠ []) (habove : t.DirsAbove p) :
    WithDirs t (t.setNode p .dir) p := by
  intro r
  rw [nodes_setNode]
  by_cases hr : r = p
  · subst hr
    simp [hp]
  · rw [if_neg hr]
    split_ifs with hpre
    · rw [← node?_of_ne_nil hpre.1, habove r (mem_ancestors_of_prefix_ne hpre.1 hpre.2 hr)]
    · rfl

/-- Once the directories of a path are made, the way to a name below it is there. -/
theorem WithDirs.dirsAbove_snoc {t' : FileTree} (hv : WithDirs t t' p) (x : String) :
    t'.DirsAbove (p ++ [x]) := by
  intro a ha
  rw [mem_ancestors] at ha
  rw [node?_of_ne_nil ha.1, hv, if_pos ⟨ha.1, prefix_of_prefix_snoc ha.2.1 (by simp at ha; omega)⟩]

/-- Making the directories of a path, then the directory of a name below it, makes the
directories of the longer path. -/
theorem WithDirs.snoc {t' : FileTree} (hv : WithDirs t t' p) (x : String) :
    WithDirs t (t'.setNode (p ++ [x]) .dir) (p ++ [x]) := by
  intro r
  rw [nodes_setNode, hv]
  by_cases hr : r = p ++ [x]
  · subst hr
    simp
  · rw [if_neg hr]
    simp only [List.prefix_concat_iff, hr, false_or]

/-- **Creating a directory and those above it**, where no file is in the way, puts a directory
at every nonempty prefix of the path and changes nothing else. -/
theorem createDirAll_of_noFile (hwf : t.WellFormed) :
    ∀ p, (∀ a, a ≠ [] → a <+: p → ∀ d, t.nodes[a]? ≠ some (.file d)) →
      ∃ t', t.createDirAll p = .ok t' ∧ WithDirs t t' p := by
  intro p
  induction p using List.reverseRecOn with
  | nil =>
    intro _
    exact ⟨t, by rw [createDirAll], withDirs_nil t⟩
  | append_singleton q x ih =>
    intro hno
    have hp : q ++ [x] ≠ [] := by simp
    rw [createDirAll_of_ne_nil hp]
    by_cases habove : t.DirsAbove (q ++ [x])
    · -- the way is there: the last directory is made, or is there already
      rw [mkdir_of_dirsAbove hp habove]
      cases hn : t.nodes[q ++ [x]]? with
      | none => exact ⟨_, rfl, withDirs_setNode hp habove⟩
      | some n =>
        cases n with
        | file d => exact absurd hn (hno _ hp List.prefix_rfl d)
        | dir =>
          simp only [isDir_of_dirsAbove habove, node?_of_ne_nil hp, hn]
          exact ⟨t, rfl, withDirs_self habove hn⟩
    · -- a directory on the way is missing: the way is made first, then the last directory
      have hno' : ∀ a ∈ ancestors (q ++ [x]), ∀ d, t.node? a ≠ some (.file d) := by
        intro a ha d
        rw [mem_ancestors] at ha
        rw [node?_of_ne_nil ha.1]
        exact hno a ha.1 ha.2.1 d
      rw [mkdir_of_not_dirsAbove hp hno' habove]
      obtain ⟨t₁, h₁, hv₁⟩ := ih fun a hne ha d => hno a hne (ha.trans (List.prefix_append q [x])) d
      have hnone : t₁.nodes[q ++ [x]]? = none := by
        rw [hv₁, if_neg (fun h => by simpa using h.2.length_le),
          nodes_eq_none_of_not_dirsAbove hwf habove]
      simp only [List.dropLast_concat, h₁, bind, Except.bind,
        mkdir_of_dirsAbove hp (hv₁.dirsAbove_snoc x), hnone]
      exact ⟨_, rfl, hv₁.snoc x⟩

/-- Where every directory of a path is there already, creating them changes nothing. -/
theorem createDirAll_of_dirs (h : ∀ a, a ≠ [] → a <+: p → t.nodes[a]? = some .dir) :
    t.createDirAll p = .ok t := by
  by_cases hp : p = []
  · subst hp
    rw [createDirAll]
  · have habove : t.DirsAbove p := by
      intro a ha
      rw [mem_ancestors] at ha
      rw [node?_of_ne_nil ha.1]
      exact h a ha.1 ha.2.1
    have hd := h p hp List.prefix_rfl
    rw [createDirAll_of_ne_nil hp, mkdir_of_dirsAbove hp habove, hd]
    simp only [isDir_of_dirsAbove habove, node?_of_ne_nil hp, hd]
    rfl

/-! ## Removing -/

theorem removeFile_of_dirsAbove (h : t.DirsAbove p) :
    t.removeFile p = match t.node? p with
      | some (.file _) => .ok ⟨t.nodes.erase p⟩
      | some .dir => .error .isADirectory
      | none => .error .notFound := by
  simp only [removeFile, stat_of_dirsAbove h]
  rcases t.node? p with _ | _ | _ <;> rfl

theorem removeFile_of_not_dirsAbove (h : ∀ a ∈ ancestors p, ∀ d, t.node? a ≠ some (.file d))
    (hn : ¬ t.DirsAbove p) : t.removeFile p = .error .notFound := by
  simp only [removeFile, stat, lookup_of_not_dirsAbove h hn]
  rfl

theorem removeFile_of_file (hwf : t.WellFormed) {a : FsPath} {d : Bytes} (ha : a ∈ ancestors p)
    (hf : t.nodes[a]? = some (.file d)) : t.removeFile p = .error .notADirectory := by
  simp only [removeFile, stat, lookup_of_file hwf ha hf]
  rfl

theorem mem_children {x : String} :
    x ∈ t.children p ↔ (t.nodes[p ++ [x]]?).isSome := by
  simp only [children, List.mem_mergeSort, List.mem_filterMap, Std.TreeMap.mem_keys,
    Std.TreeMap.mem_iff_isSome_getElem?]
  constructor
  · rintro ⟨q, hq, hx⟩
    split at hx
    · rename_i hc
      simp only [Bool.and_eq_true, decide_eq_true_eq, List.isPrefixOf_iff_prefix] at hc
      obtain ⟨r, rfl⟩ := hc.2
      have hr : r.length = 1 := by simpa using hc.1
      obtain ⟨y, rfl⟩ := List.length_eq_one_iff.mp hr
      simp only [List.getLast?_append, List.getLast?_singleton, Option.some_or,
        Option.some.injEq] at hx
      rwa [← hx]
    · cases hx
  · intro hx
    refine ⟨p ++ [x], hx, ?_⟩
    simp

theorem removeDir_of_dirsAbove (hp : p ≠ []) (h : t.DirsAbove p) (hd : t.nodes[p]? = some .dir) :
    t.removeDir p = if (t.children p).isEmpty then .ok ⟨t.nodes.erase p⟩ else .error .notEmpty := by
  simp only [removeDir, List.isEmpty_iff, hp, if_false, stat_of_dirsAbove h, node?_of_ne_nil hp, hd]
  split_ifs <;> rfl

/-! ## Moving -/

/-- Moving a directory to a free sibling path of the same length passes every check. -/
theorem rename_eq {src dst : FsPath} (hs : src ≠ []) (hd : dst ≠ []) (has : t.DirsAbove src)
    (had : t.DirsAbove dst) (hsrc : t.nodes[src]? = some .dir) (hne : src ≠ dst)
    (hlen : src.length = dst.length) (hdst : t.nodes[dst]? = none) :
    t.rename src dst = .ok ⟨(t.nodes.filter fun q _ => !src.isPrefixOf q && q != dst).insertMany
      ((t.nodes.toList.filter fun x => src.isPrefixOf x.1).map
        fun x => (dst ++ x.1.drop src.length, x.2))⟩ := by
  have hbelow : isBelow src dst = false := by simp [isBelow, hlen]
  have hse : src.isEmpty = false := by simp [hs]
  have hde : dst.isEmpty = false := by simp [hd]
  simp only [rename, hse, hde, Bool.or_false, Bool.false_eq_true,
    if_false, checkParent_of_dirsAbove has, checkParent_of_dirsAbove had, node?_of_ne_nil hs,
    hsrc, node?_of_ne_nil hd, hdst, hbelow, beq_iff_eq, hne]
  rfl

/-- What a move to a free path leaves: below `dst` what was below `src`, nothing below `src`,
and the rest as it was. -/
theorem nodes_rename {src dst : FsPath} (hfree : ∀ q, dst <+: q → t.nodes[q]? = none) (q : FsPath) :
    (⟨(t.nodes.filter fun q _ => !src.isPrefixOf q && q != dst).insertMany
      ((t.nodes.toList.filter fun x => src.isPrefixOf x.1).map
        fun x => (dst ++ x.1.drop src.length, x.2))⟩ : FileTree).nodes[q]? =
      if dst <+: q then t.nodes[src ++ q.drop dst.length]?
      else if src <+: q then none else t.nodes[q]? := by
  set moved := (t.nodes.toList.filter fun x => src.isPrefixOf x.1).map
    fun x => (dst ++ x.1.drop src.length, x.2) with hmoved
  -- an entry moved to `k` is what was at the same place below `src`
  have hmem : ∀ k v, (k, v) ∈ moved ↔ dst <+: k ∧ t.nodes[src ++ k.drop dst.length]? = some v := by
    intro k v
    simp only [hmoved, List.mem_map, List.mem_filter, List.isPrefixOf_iff_prefix, Prod.mk.injEq]
    constructor
    · rintro ⟨⟨q', v'⟩, ⟨hq', ⟨r, rfl⟩⟩, rfl, rfl⟩
      simp only [List.drop_left] at hq' ⊢
      exact ⟨List.prefix_append _ _, by simpa using hq'⟩
    · rintro ⟨⟨r, rfl⟩, hv⟩
      exact ⟨⟨src ++ r, v⟩, ⟨by simpa using hv, List.prefix_append _ _⟩, by simp, rfl⟩
  have hdistinct : moved.Pairwise (fun a b => ¬ compare a.1 b.1 = .eq) := by
    rw [hmoved, List.pairwise_map]
    refine (Std.TreeMap.distinct_keys_toList.filter _).imp_of_mem ?_
    intro a b ha hb hab heq
    simp only [List.mem_filter, List.isPrefixOf_iff_prefix] at ha hb
    obtain ⟨ra, hra⟩ := ha.2
    obtain ⟨rb, hrb⟩ := hb.2
    rw [Std.LawfulEqOrd.compare_eq_iff_eq] at hab heq
    rw [← hra, ← hrb] at heq
    simp only [List.drop_left, List.append_cancel_left_eq] at heq
    exact hab (by rw [← hra, ← hrb, heq])
  by_cases hq : ∃ v, (q, v) ∈ moved
  · obtain ⟨v, hv⟩ := hq
    obtain ⟨hd, hsv⟩ := (hmem q v).mp hv
    rw [Std.TreeMap.getElem?_insertMany_list_of_mem (Std.ReflCmp.compare_self) hdistinct hv,
      if_pos hd, hsv]
  · have hcontains : (moved.map Prod.fst).contains q = false := by
      rw [Bool.eq_false_iff]
      intro hc
      obtain ⟨⟨k, v⟩, hkv, hk⟩ := List.mem_map.mp (List.contains_iff_mem.mp hc)
      simp only at hk
      subst hk
      exact hq ⟨v, hkv⟩
    rw [Std.TreeMap.getElem?_insertMany_list_of_contains_eq_false hcontains,
      Std.TreeMap.getElem?_filter']
    split_ifs with hd hs'
    · -- below `dst`: nothing was moved there, and nothing was there before
      have hnone : t.nodes[src ++ q.drop dst.length]? = none := by
        cases h : t.nodes[src ++ q.drop dst.length]? with
        | none => rfl
        | some v => exact absurd ⟨v, (hmem q v).mpr ⟨hd, h⟩⟩ hq
      rw [hnone, hfree q hd]
      rfl
    · cases t.nodes[q]? <;> simp [List.isPrefixOf_iff_prefix, hs']
    · have hqd : q ≠ dst := fun h => hd (h ▸ List.prefix_rfl)
      have hsq : src.isPrefixOf q = false :=
        Bool.eq_false_iff.mpr fun h => hs' (List.isPrefixOf_iff_prefix.mp h)
      cases t.nodes[q]? <;> simp [hsq, hqd]

/-! ## Writes keep trees well formed -/

namespace WellFormed

variable (hwf : t.WellFormed)
include hwf

theorem setNode_dir (h : t.DirsAbove p) : (t.setNode p .dir).WellFormed := by
  intro q hq a ha
  rw [mem_ancestors] at ha
  rw [node?_of_ne_nil ha.1, nodes_setNode]
  split_ifs with hap
  · rfl
  · rw [← node?_of_ne_nil ha.1]
    by_cases hqp : q = p
    · subst hqp
      exact h a (mem_ancestors.mpr ha)
    · rw [nodes_setNode, if_neg hqp] at hq
      exact hwf q hq a (mem_ancestors.mpr ha)

theorem setNode_file (h : t.DirsAbove p) (hnd : t.nodes[p]? ≠ some .dir) (d : Bytes) :
    (t.setNode p (.file d)).WellFormed := by
  intro q hq a ha
  rw [mem_ancestors] at ha
  rw [node?_of_ne_nil ha.1, nodes_setNode]
  by_cases hqp : q = p
  · subst hqp
    rw [if_neg (fun h' => by have := ha.2.2; rw [h'] at this; omega), ← node?_of_ne_nil ha.1]
    exact h a (mem_ancestors.mpr ha)
  · rw [nodes_setNode, if_neg hqp] at hq
    have hdir := hwf q hq a (mem_ancestors.mpr ha)
    rw [node?_of_ne_nil ha.1] at hdir
    -- a directory above another node cannot be where the file goes
    rw [if_neg (fun (h' : a = p) => hnd (h' ▸ hdir)), hdir]

theorem erase (hleaf : ∀ q, (t.nodes[q]?).isSome → p ∉ ancestors q) :
    (⟨t.nodes.erase p⟩ : FileTree).WellFormed := by
  intro q hq a ha
  rw [nodes_erase] at hq
  have hq' : (t.nodes[q]?).isSome := by split_ifs at hq <;> simp_all
  have hdir := hwf q hq' a ha
  have hap : a ≠ p := fun h' => hleaf q hq' (h' ▸ ha)
  rw [mem_ancestors] at ha
  rw [node?_of_ne_nil ha.1, nodes_erase, if_neg hap, ← node?_of_ne_nil ha.1, hdir]

/-- Nothing hangs below a file. -/
theorem not_mem_ancestors_of_file {d : Bytes} (hf : t.nodes[p]? = some (.file d)) :
    ∀ q, (t.nodes[q]?).isSome → p ∉ ancestors q := by
  intro q hq ha
  have := hwf q hq p ha
  rw [mem_ancestors] at ha
  rw [node?_of_ne_nil ha.1, hf] at this
  cases this

/-- Nothing hangs below a directory without children. -/
theorem not_mem_ancestors_of_children (hc : t.children p = []) :
    ∀ q, (t.nodes[q]?).isSome → p ∉ ancestors q := by
  intro q hq ha
  rw [mem_ancestors] at ha
  obtain ⟨hne, ⟨r, rfl⟩, hlt⟩ := ha
  obtain ⟨y, r', rfl⟩ : ∃ y r', r = y :: r' := List.exists_cons_of_ne_nil (by
    rintro rfl; simp at hlt)
  -- the child of `p` on the way to `q` is a node
  have hchild : (t.nodes[p ++ [y]]?).isSome := by
    by_cases hr' : r' = []
    · subst hr'; simpa using hq
    · have := hwf _ hq (p ++ [y]) (mem_ancestors.mpr ⟨by simp, ⟨r', by simp⟩, by
        have := List.length_pos_iff_ne_nil.mpr hr'
        simp
        omega⟩)
      rw [node?_of_ne_nil (by simp)] at this
      simp [this]
  have := mem_children.mpr hchild
  rw [hc] at this
  cases this

end WellFormed

theorem WellFormed.withDirs {t' : FileTree} (hwf : t.WellFormed) (hv : WithDirs t t' p) :
    t'.WellFormed := by
  intro q hq a ha
  have ha' := mem_ancestors.mp ha
  rw [node?_of_ne_nil ha'.1, hv]
  split_ifs with hap
  · rfl
  · rw [hv] at hq
    split_ifs at hq with hqp
    · exact absurd ⟨ha'.1, ha'.2.1.trans hqp.2⟩ hap
    · rw [← node?_of_ne_nil ha'.1]
      exact hwf q hq a ha

/-- A move of a directory to a free path of the same length keeps the tree well formed. -/
theorem WellFormed.of_move {t' : FileTree} {src dst : FsPath} (hwf : t.WellFormed)
    (had : t.DirsAbove dst) (hsrc : t.nodes[src]? = some .dir) (hlen : src.length = dst.length)
    (hnodes : ∀ q, t'.nodes[q]? = if dst <+: q then t.nodes[src ++ q.drop dst.length]?
      else if src <+: q then none else t.nodes[q]?) : t'.WellFormed := by
  intro q hq a ha
  have ha' := mem_ancestors.mp ha
  rw [node?_of_ne_nil ha'.1, hnodes a]
  rw [hnodes q] at hq
  split_ifs at hq with hdq hsq
  · -- below `dst`: the way there is the way down to `dst`, then the way below `src`
    obtain ⟨r, rfl⟩ := hdq
    by_cases hda : dst <+: a
    · obtain ⟨r', rfl⟩ := hda
      have hr' : r' <+: r := (List.prefix_append_right_inj dst).mp ha'.2.1
      rw [if_pos (List.prefix_append _ _), List.drop_left]
      by_cases hr'0 : r' = []
      · subst hr'0
        simpa using hsrc
      · have hanc : src ++ r' ∈ ancestors (src ++ r) := mem_ancestors.mpr ⟨by simp [hr'0],
          (List.prefix_append_right_inj src).mpr hr', by simpa using ha'.2.2⟩
        have := hwf _ (by simpa using hq) _ hanc
        rwa [node?_of_ne_nil (by simp [hr'0])] at this
    · have hadst : a <+: dst := by
        rcases List.prefix_or_prefix_of_prefix ha'.2.1 (List.prefix_append dst r) with h | h
        · exact h
        · exact absurd h hda
      have halt : a.length < dst.length := lt_of_le_of_ne hadst.length_le
        fun hl => hda (hadst.eq_of_length hl ▸ List.prefix_rfl)
      rw [if_neg hda, if_neg (fun h => by have := h.length_le; omega), ← node?_of_ne_nil ha'.1]
      exact had a (mem_ancestors.mpr ⟨ha'.1, hadst, halt⟩)
  · simp at hq
  · -- elsewhere the way is as it was
    rw [if_neg (fun h => hdq (h.trans ha'.2.1)), if_neg (fun h => hsq (h.trans ha'.2.1)),
      ← node?_of_ne_nil ha'.1]
    exact hwf q hq a ha

/-- A file on the way stops the creation of directories. -/
theorem createDirAll_of_file (hwf : t.WellFormed) {a : FsPath} {d : Bytes} (ha : a <+: p)
    (hne : a ≠ []) (hf : t.nodes[a]? = some (.file d)) : ∃ e, t.createDirAll p = .error e := by
  have hp : p ≠ [] := by
    rintro rfl
    exact hne (List.prefix_nil.mp ha)
  rw [createDirAll_of_ne_nil hp]
  by_cases hap : a = p
  · subst hap
    have habove := hwf a (by rw [hf]; rfl)
    rw [mkdir_of_dirsAbove hne habove, hf]
    simp only [isDir_of_dirsAbove habove, node?_of_ne_nil hne, hf]
    exact ⟨_, rfl⟩
  · have hanc : a ∈ ancestors p := mem_ancestors_of_prefix_ne hne ha hap
    have hmk : t.mkdir p = .error .notADirectory := by
      simp only [mkdir, List.isEmpty_iff, hp, if_false, checkParent_of_file hwf hanc hf]
      rfl
    simp only [hmk, isDir, lookup_of_file hwf hanc hf]
    exact ⟨_, rfl⟩

/-! ## Changes below a directory -/

/-- `t'` differs from `t` only at `X` and below it. -/
def ChangedBelow (X : FsPath) (t t' : FileTree) : Prop := ∀ q, ¬ X <+: q → t'.nodes[q]? = t.nodes[q]?

theorem ChangedBelow.refl (X : FsPath) (t : FileTree) : ChangedBelow X t t := fun _ _ => rfl

theorem ChangedBelow.trans {X : FsPath} {t₁ t₂ t₃ : FileTree} (h₁ : ChangedBelow X t₁ t₂)
    (h₂ : ChangedBelow X t₂ t₃) : ChangedBelow X t₁ t₃ :=
  fun q hq => (h₂ q hq).trans (h₁ q hq)

/-- **Writing a file below `X`**, where the directories down to `X` are there, changes nothing
off `X`: the directories it creates above the file are `X` and those below it. -/
theorem changedBelow_write {X c : FsPath} {t₁ : FileTree} (hc : c ≠ [])
    (hX : ∀ a, a ≠ [] → a <+: X → t.nodes[a]? = some .dir) (hv : WithDirs t t₁ (X ++ c).dropLast)
    (n : FsNode) : ChangedBelow X t (t₁.setNode (X ++ c) n) := by
  intro q hq
  rw [nodes_setNode, if_neg (fun (h : q = X ++ c) => hq (h ▸ List.prefix_append X c)), hv]
  split_ifs with hdir
  · obtain ⟨hne, hpre⟩ := hdir
    rw [List.dropLast_append_of_ne_nil hc] at hpre
    rcases List.prefix_or_prefix_of_prefix hpre (List.prefix_append X _) with h | h
    · exact (hX q hne h).symm
    · exact absurd h hq
  · rfl

end GitServer.FileTree
