import GitServer.Proofs.Storage.LocalRegistry
import Mathlib

/-!
# Listing the repositories of a directory tree

The listing walks the tree from the root with a stack of directories still to search. A step
reads the directory on top (`run_walk_succ`): a hidden name and a name that is no directory are
passed over, a directory whose name ends in `.git` and that holds a `HEAD` is found as a
repository, and every other directory goes on the stack (`visit`).

On a tree that holds the repositories `live` (`Registry`), every directory the walk searches
lies inside no repository (`Searched`), and the repositories below it are those below its
names, one block a name (`Searched.perm_children`). When each name held is one the walk reads
back as it is (`Listable`: normal, and with no hidden name on its way), each step keeps the
names found together with the repositories below the stack, and searching a directory pays for
the directories it pushes (`sum_cost_le`). So the walk finds each repository once
(`Registry.walk_perm`), and the listing gives the names held, sorted by path
(`Registry.run_list`).
-/

namespace GitServer

namespace Local

open FileTree

/-! ## One step of the walk -/

section Step

variable {β γ : Type} {dk : Disk}

/-- A loop each of whose steps goes on, changing nothing, answers what its steps give, folded
over the names. -/
theorem run_forIn_yield {xs : List String} {f : String → β → DiskM (ForInStep β)}
    {g : β → DiskM γ} (step : String → β → β)
    (hstep : ∀ x ∈ xs, ∀ b, (f x b).run.run dk = (.ok (.yield (step x b)), dk)) (init : β) :
    (forIn xs init f >>= g).run.run dk = (g (xs.foldl (fun b x => step x b) init)).run.run dk := by
  induction xs generalizing init with
  | nil => rfl
  | cons x xs ih =>
    rw [List.forIn_cons, bind_assoc, run_bind_of_ok (hstep x List.mem_cons_self init)]
    exact ih (fun y hy => hstep y (List.mem_cons_of_mem x hy)) (step x init)

end Step

/-- Whether the walk passes over name `x` of directory `q`: it is hidden, or no directory. -/
def hidden (t : FileTree) (q : FsPath) (x : String) : Bool := x.startsWith "." || !t.isDir (q ++ [x])

/-- Whether the walk takes a name it looks at for a repository: it ends in `.git`, and `head`
says a `HEAD` is below it. -/
def takes (head : String → Bool) (x : String) : Bool := x.endsWith ".git" && head x

/-- What the walk does with name `x` of directory `q`, given whether a `HEAD` is below each
name and the repository name it reads back: passes it over, finds the repository, or puts the
directory on the stack. -/
def visit (t : FileTree) (q : FsPath) (head : String → Bool) (name : String → RepoName)
    (x : String) (b : List FsPath × List RepoName) : List FsPath × List RepoName :=
  if hidden t q x = true then b
  else if takes head x = true then (b.1, b.2 ++ [name x])
  else ((q ++ [x]) :: b.1, b.2)

/-- The names of a directory, visited in order: the directories pushed, the last on top, and
the repositories found, in order. -/
theorem foldl_visit (t : FileTree) (q : FsPath) (head : String → Bool) (name : String → RepoName) :
    ∀ (xs : List String) (stack : List FsPath) (found : List RepoName),
      xs.foldl (fun b x => visit t q head name x b) (stack, found) =
        (((xs.filter fun x => !hidden t q x && !takes head x).map (q ++ [·])).reverse ++ stack,
          found ++ (xs.filter fun x => !hidden t q x && takes head x).map name)
  | [], stack, found => by simp
  | x :: xs, stack, found => by
    rw [List.foldl_cons]
    by_cases hx : hidden t q x = true
    · rw [visit, if_pos hx, foldl_visit t q head name xs]
      simp [hx]
    · by_cases htk : takes head x = true
      · rw [visit, if_neg hx, if_pos htk, foldl_visit t q head name xs]
        simp [hx, htk]
      · rw [visit, if_neg hx, if_neg htk, foldl_visit t q head name xs]
        simp [hx, htk]

/-- **One step of the walk**: it reads the directory `q` on top of the stack and visits its
names, given that looking for a `HEAD` below a name it looks at answers `head`, and that a
name it takes reads back as `name`. -/
theorem run_walk_succ {dk : Disk} {q : FsPath} (hread : dk.files.readDir q = .ok (dk.files.children q))
    (head : String → Bool) (name : String → RepoName)
    (hex : ∀ x ∈ dk.files.children q, hidden dk.files q x = false →
      dk.files.exists? (q ++ [x] ++ [headName]) = .ok (head x))
    (hname : ∀ x ∈ dk.files.children q, hidden dk.files q x = false → takes head x = true →
      RepoName.normalize ("/".intercalate (q ++ [x])) = .ok (name x))
    (fuel : Nat) (stack : List FsPath) (found : List RepoName) :
    (walk (fuel + 1) (q :: stack) found).run.run dk =
      (walk fuel ((dk.files.children q).foldl (fun b x => visit dk.files q head name x b)
        (stack, found)).1 ((dk.files.children q).foldl (fun b x => visit dk.files q head name x b)
        (stack, found)).2).run.run dk := by
  rw [walk, run_bind_of_ok (run_files dk), run_bind_of_ok (by rw [hread]; rfl :
    (os (dk.files.readDir q)).run.run dk = (.ok (dk.files.children q), dk))]
  dsimp only
  rw [run_forIn_yield (visit dk.files q head name) ?_ (stack, found)]
  rintro x hx ⟨st, fd⟩
  by_cases hsk : hidden dk.files q x = true
  · -- a hidden name, or one that is no directory
    have hsk' : (x.startsWith "." || !dk.files.isDir (q ++ [x])) = true := hsk
    simp only [hsk', hsk, if_true, visit]
    rfl
  · have hvis : hidden dk.files q x = false := Bool.eq_false_iff.mpr hsk
    have hsk' : (x.startsWith "." || !dk.files.isDir (q ++ [x])) = false := hvis
    simp only [hsk', Bool.false_eq_true, if_false, visit, hvis]
    rw [run_bind_of_ok (by rw [hex x hx hvis]; rfl :
      (os (dk.files.exists? (q ++ [x] ++ [headName]))).run.run dk = (.ok (head x), dk))]
    by_cases htk : takes head x = true
    · -- a repository, whose name is read back
      have htk' : (x.endsWith ".git" && head x) = true := htk
      simp only [htk', htk, if_true, hname x hx hvis htk]
      rfl
    · have htk' : (x.endsWith ".git" && head x) = false := Bool.eq_false_iff.mpr htk
      simp only [htk', Bool.false_eq_true, if_false, htk]
      rfl

/-! ## What searching costs -/

/-- What searching a directory may cost the walk: the nodes strictly below it. -/
def cost (t : FileTree) (q : FsPath) : Nat := (t.nodes.keys.filter (isBelow q)).length

theorem cost_le_size (t : FileTree) (q : FsPath) : cost t q ≤ t.nodes.size :=
  List.filter_sublist.length_le.trans_eq Std.TreeMap.length_keys

/-- A node costs one more than the nodes below it: itself. -/
theorem cost_add_one {t : FileTree} {p : FsPath} (hp : (t.nodes[p]?).isSome) :
    cost t p + 1 = (t.nodes.keys.filter (p.isPrefixOf ·)).length := by
  have hnd := t.nodes.nodup_keys
  have hpk : p ∈ t.nodes.keys := by
    rwa [Std.TreeMap.mem_keys, Std.TreeMap.mem_iff_isSome_getElem?]
  have hperm : (t.nodes.keys.filter (p.isPrefixOf ·)).Perm (p :: t.nodes.keys.filter (isBelow p)) := by
    refine (List.perm_ext_iff_of_nodup (hnd.filter _)
      (List.nodup_cons.mpr ⟨by simp [isBelow], hnd.filter _⟩)).mpr fun k => ?_
    simp only [List.mem_filter, List.mem_cons, isBelow, Bool.and_eq_true, decide_eq_true_eq,
      List.isPrefixOf_iff_prefix]
    constructor
    · rintro ⟨hk, hpre⟩
      rcases eq_or_ne k p with rfl | hne
      · exact .inl rfl
      · exact .inr ⟨hk, lt_of_le_of_ne hpre.length_le fun h => hne (hpre.eq_of_length h).symm, hpre⟩
    · rintro (rfl | ⟨hk, -, hpre⟩)
      · exact ⟨hpk, List.prefix_rfl⟩
      · exact ⟨hk, hpre⟩
  rw [cost, hperm.length_eq, List.length_cons]

/-- **Searching a directory pays for the directories it pushes**: each costs the nodes below
it and itself, and no node is below two of them. -/
theorem sum_cost_le {t : FileTree} {q : FsPath} {P : List String} (hP : P.Nodup)
    (hnode : ∀ x ∈ P, (t.nodes[q ++ [x]]?).isSome) :
    (P.map fun x => cost t (q ++ [x]) + 1).sum ≤ cost t q := by
  have hblocks := perm_flatMap_filter t.nodes.nodup_keys hP
    (p := fun k => P.any fun x => (q ++ [x]).isPrefixOf k)
    (r := fun x k => (q ++ [x]).isPrefixOf k) (fun k _ => by simp) (fun k _ x _ x' _ hx hx' => by
      -- two names of `q` above one path are the same
      simp only [List.isPrefixOf_iff_prefix] at hx hx'
      have heq := (List.prefix_of_prefix_length_le hx hx' (by simp)).eq_of_length (by simp)
      simpa using heq)
  calc (P.map fun x => cost t (q ++ [x]) + 1).sum
      = (P.map fun x => (t.nodes.keys.filter ((q ++ [x]).isPrefixOf ·)).length).sum := by
        rw [List.map_congr_left fun x hx => cost_add_one (hnode x hx)]
    _ = (P.flatMap fun x => t.nodes.keys.filter ((q ++ [x]).isPrefixOf ·)).length := by
        rw [List.length_flatMap]
    _ = (t.nodes.keys.filter fun k => P.any fun x => (q ++ [x]).isPrefixOf k).length :=
        hblocks.length_eq
    _ ≤ cost t q := by
        refine (List.monotone_filter_right _ fun k hk => ?_).length_le
        obtain ⟨x, -, hx⟩ := List.any_eq_true.mp hk
        rw [List.isPrefixOf_iff_prefix] at hx
        have := hx.length_le
        simp only [isBelow, Bool.and_eq_true, decide_eq_true_eq, List.isPrefixOf_iff_prefix]
        exact ⟨by simp at this; omega, (List.prefix_append q [x]).trans hx⟩

/-! ## The directories the walk searches -/

/-- A name the walk reads back as it is: normal, and with no hidden name in its directory. -/
def Listable (m : RepoName) : Prop :=
  RepoName.normalize m.path = .ok m ∧ ∀ c ∈ repoDir m, c.startsWith "." = false

/-- The repositories of `live` at or below a path. -/
def liveUnder (live : List RepoName) (q : FsPath) : List RepoName :=
  live.filter fun m => q.isPrefixOf (repoDir m)

/-- A directory the walk searches: a directory with directories above it, inside no
repository of `live`. -/
structure Searched (live : List RepoName) (t : FileTree) (q : FsPath) : Prop where
  dir : t.node? q = some .dir
  above : t.DirsAbove q
  outside : ∀ m ∈ live, ¬ repoDir m <+: q

theorem searched_root (live : List RepoName) (t : FileTree) : Searched live t [] where
  dir := rfl
  above _ ha := by simp [ancestors] at ha
  outside m _ h := repoDir_ne_nil m (List.prefix_nil.mp h)

/-- The names of a directory, each once. -/
theorem nodup_children (t : FileTree) (q : FsPath) : (t.children q).Nodup := by
  rw [children, List.nodup_mergeSort]
  refine t.nodes.nodup_keys.filterMap fun a a' x ha ha' => ?_
  -- a name of `q` is the last name of one path only: `q` and it
  have hpath : ∀ k, (if (k.length = q.length + 1 && q.isPrefixOf k) = true then k.getLast? else none) =
      some x → k = q ++ [x] := by
    intro k hk
    split at hk
    · rename_i hcond
      simp only [Bool.and_eq_true, decide_eq_true_eq, List.isPrefixOf_iff_prefix] at hcond
      obtain ⟨⟨r, rfl⟩, hlen⟩ := hcond.symm
      obtain ⟨y, rfl⟩ : ∃ y, r = [y] := List.length_eq_one_iff.mp (by simpa using hlen)
      simp only [List.getLast?_append, List.getLast?_singleton, Option.some_or,
        Option.some.injEq] at hk
      rw [hk]
    · cases hk
  rw [hpath a ha, hpath a' ha']

namespace Searched

variable {live : List RepoName} {t : FileTree} {q : FsPath} {x : String}

theorem dirsAbove_child (hq : Searched live t q) (x : String) : t.DirsAbove (q ++ [x]) := by
  rcases eq_or_ne q [] with rfl | hq0
  · exact dirsAbove_singleton x
  · exact (dirsAbove_snoc hq0 x).mpr ⟨hq.above, hq.dir⟩

theorem readDir_eq (hq : Searched live t q) : t.readDir q = .ok (t.children q) := by
  simp only [readDir, stat_of_dirsAbove hq.above, hq.dir]
  rfl

/-- A name of a directory searched that the walk looks at is a directory. -/
theorem dir_of_shown (hq : Searched live t q) (hx : hidden t q x = false) :
    t.node? (q ++ [x]) = some .dir := by
  have hdir : t.isDir (q ++ [x]) = true := by
    simp only [hidden, Bool.or_eq_false_iff, Bool.not_eq_false'] at hx
    exact hx.2
  rw [isDir_of_dirsAbove (hq.dirsAbove_child x)] at hdir
  simpa using hdir

/-- Looking for a `HEAD` below a name the walk looks at answers whether there is one. -/
theorem exists_head (hq : Searched live t q) (hx : hidden t q x = false) :
    t.exists? (q ++ [x] ++ [headName]) = .ok (t.nodes[q ++ [x] ++ [headName]]?).isSome := by
  have habove : t.DirsAbove (q ++ [x] ++ [headName]) :=
    (dirsAbove_snoc (by simp) _).mpr ⟨hq.dirsAbove_child x, hq.dir_of_shown hx⟩
  simp only [FileTree.exists?, lookup_of_dirsAbove habove, node?_of_ne_nil (by simp : q ++ [x] ++ [headName] ≠ [])]

/-- A directory right below a directory searched, the directory of no repository of `live`, is
searched too. -/
theorem child (hq : Searched live t q) (hdir : t.node? (q ++ [x]) = some .dir)
    (hnot : ∀ m ∈ live, repoDir m ≠ q ++ [x]) : Searched live t (q ++ [x]) where
  dir := hdir
  above := hq.dirsAbove_child x
  outside m hm h := by
    rcases List.prefix_concat_iff.mp h with he | h'
    · exact hnot m hm he
    · exact hq.outside m hm h'

/-- The directories shown below a directory searched cost less, together, than it does. -/
theorem sum_cost_shown (hq : Searched live t q) {p : String → Bool}
    (hp : ∀ x, p x = true → hidden t q x = false) :
    (((t.children q).filter p).map fun x => cost t (q ++ [x]) + 1).sum ≤ cost t q :=
  sum_cost_le ((nodup_children t q).filter _) fun x hx => by
    rw [← node?_of_ne_nil (by simp), hq.dir_of_shown (hp x (List.mem_filter.mp hx).2)]
    rfl

end Searched

/-! ## The walk on a tree holding repositories -/

namespace Registry

variable {live : List RepoName} {dk : Disk} {q : FsPath} {x : String} {m : RepoName}

/-- A name of a directory searched that ends in `.git` with a `HEAD` below it is the directory
of a repository held. -/
theorem repoDir_of_head (h : Registry live dk) (hq : Searched live dk.files q)
    (hx : x.endsWith ".git" = true) (hhead : (dk.files.nodes[q ++ [x] ++ [headName]]?).isSome) :
    ∃ m ∈ live, repoDir m = q ++ [x] := by
  have hsuf : RepoName.suffix.toList <:+ x.toList := String.endsWith_iff_suffix.mp hx
  obtain ⟨m, hm, hmq | hqm⟩ := h.owned _ (by simp) hhead
  · rcases List.prefix_concat_iff.mp hmq with he | hmq
    · -- the directory of `m` would end in `HEAD`, which does not end in `.git`
      have hlast := suffix_getLast_repoDir (h.valid m hm)
      simp only [he, List.getLast_append_singleton] at hlast
      exact absurd hlast (by decide)
    · rcases List.prefix_concat_iff.mp hmq with he | hmq
      · exact ⟨m, hm, he⟩
      · exact absurd hmq (hq.outside m hm)
  · -- a name ending in `.git` lies on the way to no repository
    have hway : q ++ [x] <+: (repoDir m).dropLast := (List.prefix_append _ _).trans hqm
    have := not_suffix_of_way (h.valid m hm) (by simp) hway
    simp only [List.getLast_append_singleton] at this
    exact absurd hsuf this

/-- The directory of a repository held ends in `.git` and has its `HEAD` below it. -/
theorem head_of_repoDir (h : Registry live dk) (hm : m ∈ live) (he : repoDir m = q ++ [x]) :
    x.endsWith ".git" = true ∧ (dk.files.nodes[q ++ [x] ++ [headName]]?).isSome := by
  have hlast := suffix_getLast_repoDir (h.valid m hm)
  simp only [he, List.getLast_append_singleton] at hlast
  obtain ⟨z, hz⟩ := h.head m hm
  rw [he] at hz
  exact ⟨String.endsWith_iff_suffix.mpr hlast, by rw [hz]; rfl⟩

/-- Below a name of a directory searched that the walk passes over lies no repository held,
when none has a hidden name on its way. -/
theorem liveUnder_hidden (h : Registry live dk) (hl : ∀ m ∈ live, Listable m)
    (hq : Searched live dk.files q) (hx : hidden dk.files q x = true) :
    liveUnder live (q ++ [x]) = [] := by
  refine List.filter_eq_nil_iff.mpr fun m hm hpre => ?_
  rw [List.isPrefixOf_iff_prefix] at hpre
  -- the name is on the way to `m`: not hidden, and a directory
  have hvis := (hl m hm).2 x (hpre.subset (List.mem_append_right q (List.mem_singleton_self x)))
  obtain ⟨O, hO, -⟩ := h.objects m hm
  have hdir : dk.files.isDir (q ++ [x]) = true := by
    rw [isDir_of_dirsAbove (hq.dirsAbove_child x), node?_of_ne_nil (by simp),
      hO.dirs _ (by simp) hpre]
    rfl
  simp [hidden, hvis, hdir] at hx

/-- Below the directory of a repository held lies that repository alone. -/
theorem liveUnder_repoDir (h : Registry live dk) (hm : m ∈ live) :
    (liveUnder live (repoDir m)).Perm [m] := by
  refine (List.perm_ext_iff_of_nodup (h.nodup.filter _) (List.nodup_singleton m)).mpr fun m' => ?_
  simp only [List.mem_filter, List.mem_singleton, List.isPrefixOf_iff_prefix]
  constructor
  · rintro ⟨hm', hpre⟩
    exact (eq_of_prefix_repoDir (h.valid m hm) (h.valid m' hm') hpre).symm
  · rintro rfl
    exact ⟨hm, List.prefix_rfl⟩

/-- **The repositories below a directory searched** are those below its names, one block a
name. -/
theorem perm_children (h : Registry live dk) (hq : Searched live dk.files q) :
    ((dk.files.children q).flatMap fun x => liveUnder live (q ++ [x])).Perm (liveUnder live q) := by
  refine perm_flatMap_filter h.nodup (nodup_children _ q) (fun m hm => ?_) (fun m _ x _ x' _ hx hx' => ?_)
  · simp only [List.isPrefixOf_iff_prefix]
    constructor
    · -- the directory of `m` goes on below `q`, through one of its names
      rintro ⟨r, hr⟩
      rcases r with _ | ⟨y, r⟩
      · exact absurd (by rw [← hr, List.append_nil]) (hq.outside m hm)
      · have hpre : q ++ [y] <+: repoDir m := ⟨r, by rw [← hr]; simp⟩
        obtain ⟨O, hO, -⟩ := h.objects m hm
        refine ⟨y, mem_children.mpr ?_, hpre⟩
        rw [hO.dirs _ (by simp) hpre]
        rfl
    · rintro ⟨y, -, hpre⟩
      exact (List.prefix_append q [y]).trans hpre
  · simp only [List.isPrefixOf_iff_prefix] at hx hx'
    have heq := (List.prefix_of_prefix_length_le hx hx' (by simp)).eq_of_length (by simp)
    simpa using heq

/-- The names a step visits account for the repositories below the directory read: those found
and those below the directories pushed. -/
theorem perm_visit (hid tk : String → Bool) (S : String → List RepoName) (C : List String)
    (hhid : ∀ x ∈ C, hid x = true → S x = []) :
    ((C.filter fun x => !hid x && tk x).flatMap S ++
      (C.filter fun x => !hid x && !tk x).flatMap S).Perm (C.flatMap S) := by
  have hskip : (C.filter hid).flatMap S = [] :=
    List.flatMap_eq_nil_iff.mpr fun x hx => hhid x (List.mem_filter.mp hx).1 (List.mem_filter.mp hx).2
  -- the names looked at are those taken and those pushed
  have hsplit : ((C.filter fun x => !hid x && tk x) ++ C.filter fun x => !hid x && !tk x).Perm
      (C.filter fun x => !hid x) := by
    have := List.filter_append_perm tk (C.filter fun x => !hid x)
    simpa only [List.filter_filter, Bool.and_comm] using this
  have hall : ((C.filter fun x => !hid x) ++ C.filter hid).Perm C :=
    List.perm_append_comm.trans (List.filter_append_perm hid C)
  rw [← List.flatMap_append]
  refine (hsplit.flatMap_right S).trans ?_
  rw [← List.append_nil ((C.filter fun x => !hid x).flatMap S), ← hskip, ← List.flatMap_append]
  exact hall.flatMap_right S

/-- A name the walk takes in a directory searched is the directory of a repository held, and
its path reads back as that repository's name. -/
theorem taken_name (h : Registry live dk) (hl : ∀ m ∈ live, Listable m)
    (hq : Searched live dk.files q)
    (htk : takes (fun x => (dk.files.nodes[q ++ [x] ++ [headName]]?).isSome) x = true) :
    ∃ m ∈ live, repoDir m = q ++ [x] ∧
      RepoName.normalize ("/".intercalate (q ++ [x])) = .ok m := by
  simp only [takes, Bool.and_eq_true] at htk
  obtain ⟨m, hm, he⟩ := h.repoDir_of_head hq htk.1 htk.2
  refine ⟨m, hm, he, ?_⟩
  rw [← he, intercalate_repoDir]
  exact (hl m hm).1

/-- A directory the walk pushes is searched in turn: it is shown, and no repository's. -/
theorem searched_pushed (h : Registry live dk) (hq : Searched live dk.files q)
    (hvis : hidden dk.files q x = false)
    (htk : takes (fun x => (dk.files.nodes[q ++ [x] ++ [headName]]?).isSome) x = false) :
    Searched live dk.files (q ++ [x]) := by
  refine hq.child (hq.dir_of_shown hvis) fun m hm he => ?_
  obtain ⟨hends, hh⟩ := h.head_of_repoDir hm he
  simp only [takes, hends, Bool.true_and, hh, Bool.true_eq_false] at htk

/-- **One round of the walk accounts for the repositories below its directory**: the names it
takes are those of the repositories directly below, and the directories it pushes hold the
rest. -/
theorem perm_round (h : Registry live dk) (hl : ∀ m ∈ live, Listable m)
    (hq : Searched live dk.files q) {head : String → Bool} {name : String → RepoName}
    (htaken : ∀ x ∈ dk.files.children q, hidden dk.files q x = false → takes head x = true →
      ∃ m ∈ live, repoDir m = q ++ [x] ∧ name x = m) :
    (((dk.files.children q).filter fun x => !hidden dk.files q x && takes head x).map name ++
      (((dk.files.children q).filter fun x => !hidden dk.files q x && !takes head x).map
        (q ++ [·])).reverse.flatMap (liveUnder live)).Perm (liveUnder live q) := by
  set C := dk.files.children q
  set S := fun x => liveUnder live (q ++ [x])
  -- each name taken is the one repository below it
  have hfound : ((C.filter fun x => !hidden dk.files q x && takes head x).map name).Perm
      ((C.filter fun x => !hidden dk.files q x && takes head x).flatMap S) := by
    rw [List.map_eq_flatMap]
    refine List.Perm.flatMap_left _ fun x hx => ?_
    obtain ⟨hxC, hcond⟩ := List.mem_filter.mp hx
    simp only [Bool.and_eq_true, Bool.not_eq_true'] at hcond
    obtain ⟨m, hm, he, rfl⟩ := htaken x hxC hcond.1 hcond.2
    simp only [S, ← he]
    exact (h.liveUnder_repoDir hm).symm
  have hpushed : (((C.filter fun x => !hidden dk.files q x && !takes head x).map
      (q ++ [·])).reverse.flatMap (liveUnder live)).Perm
      ((C.filter fun x => !hidden dk.files q x && !takes head x).flatMap S) := by
    refine ((List.reverse_perm _).flatMap_right _).trans ?_
    rw [List.flatMap_map]
  exact ((hfound.append hpushed).trans (perm_visit (hidden dk.files q) (takes head) S C
    fun x _ hx => h.liveUnder_hidden hl hq hx)).trans (h.perm_children hq)

/-- **The walk finds every repository below the directories on its stack once**, when their
names read back as they are and its fuel covers what searching the stack may cost. -/
theorem walk_perm (h : Registry live dk) (hl : ∀ m ∈ live, Listable m) :
    ∀ (fuel : Nat) (stack : List FsPath) (found : List RepoName),
      (∀ q ∈ stack, Searched live dk.files q) →
      (stack.map fun q => cost dk.files q + 1).sum ≤ fuel →
      ∃ L, (walk fuel stack found).run.run dk = (.ok L, dk) ∧
        L.Perm (found ++ stack.flatMap (liveUnder live))
  | 0, [], found, _, _ => ⟨found, rfl, by simp⟩
  | 0, _ :: _, _, _, hfuel => absurd hfuel (by simp)
  | fuel + 1, [], found, _, _ => ⟨found, rfl, by simp⟩
  | fuel + 1, q :: stack, found, hsearched, hfuel => by
    have hq := hsearched q List.mem_cons_self
    set C := dk.files.children q
    let head : String → Bool := fun x => (dk.files.nodes[q ++ [x] ++ [headName]]?).isSome
    let name : String → RepoName := fun x =>
      ((RepoName.normalize ("/".intercalate (q ++ [x]))).toOption).getD ⟨""⟩
    -- a name taken is read back as the repository whose directory it is
    have htaken : ∀ x ∈ C, hidden dk.files q x = false → takes head x = true →
        ∃ m ∈ live, repoDir m = q ++ [x] ∧ name x = m := by
      intro x _ _ htk
      obtain ⟨m, hm, he, hread⟩ := h.taken_name hl hq htk
      exact ⟨m, hm, he, by simp only [name, hread]; rfl⟩
    have hname : ∀ x ∈ C, hidden dk.files q x = false → takes head x = true →
        RepoName.normalize ("/".intercalate (q ++ [x])) = .ok (name x) := by
      intro x _ _ htk
      obtain ⟨m, -, -, hread⟩ := h.taken_name hl hq htk
      simp only [name, hread]
      rfl
    set pushed := C.filter fun x => !hidden dk.files q x && !takes head x
    -- the directories pushed are searched next, within the fuel left
    have hsearched' : ∀ q' ∈ (pushed.map (q ++ [·])).reverse ++ stack,
        Searched live dk.files q' := by
      intro q' hq'
      rcases List.mem_append.mp hq' with hq' | hq'
      · obtain ⟨x, hx, rfl⟩ := List.mem_map.mp (List.mem_reverse.mp hq')
        have hcond := (List.mem_filter.mp hx).2
        simp only [Bool.and_eq_true, Bool.not_eq_true'] at hcond
        exact h.searched_pushed hq hcond.1 hcond.2
      · exact hsearched q' (List.mem_cons_of_mem q hq')
    have hfuel' : (((pushed.map (q ++ [·])).reverse ++ stack).map fun q => cost dk.files q + 1).sum ≤
        fuel := by
      have hpay : (pushed.map fun x => cost dk.files (q ++ [x]) + 1).sum ≤ cost dk.files q :=
        hq.sum_cost_shown fun x hx => by
          simp only [Bool.and_eq_true, Bool.not_eq_true'] at hx
          exact hx.1
      simp only [List.map_cons, List.sum_cons] at hfuel
      simp only [List.map_append, List.sum_append, List.map_reverse, List.sum_reverse,
        List.map_map, Function.comp_def]
      omega
    obtain ⟨L, hrun, hperm⟩ := walk_perm h hl fuel _ _ hsearched' hfuel'
    refine ⟨L, ?_, hperm.trans ?_⟩
    · rw [run_walk_succ hq.readDir_eq head name (fun x _ hx => hq.exists_head hx) hname,
        foldl_visit dk.files q head name C stack found]
      exact hrun
    · -- the names found and the directories pushed account for the repositories below `q`
      rw [List.flatMap_append, List.flatMap_cons, List.append_assoc]
      refine List.Perm.append_left found ?_
      rw [← List.append_assoc]
      exact List.Perm.append_right _ (h.perm_round hl hq htaken)

/-- **Listing a tree that holds the repositories `live`** gives their names, sorted by path,
when each reads back as it is; the disk is left as it was. -/
theorem run_list (h : Registry live dk) (hl : ∀ m ∈ live, Listable m) :
    list.run.run dk = (.ok (live.mergeSort fun a c => decide (a.path ≤ c.path)), dk) := by
  obtain ⟨L, hwalk, hperm⟩ := h.walk_perm hl (dk.files.nodes.size + 1) [[]] []
    (fun q hq => List.mem_singleton.mp hq ▸ searched_root live dk.files)
    (by simpa using cost_le_size dk.files [])
  -- every repository lies below the root
  have hall : liveUnder live [] = live := List.filter_eq_self.mpr fun m _ => by simp
  have hL : L.Perm live := by simpa [hall] using hperm
  unfold list
  rw [run_bind_of_ok (run_files dk), run_bind_of_ok hwalk, mergeSort_path_eq hL]
  rfl

end Registry

end Local

end GitServer
