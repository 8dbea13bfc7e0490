import GitServer.Proofs.Storage.RemoteRegistry
import Mathlib

/-!
# Listing the repositories of a blob store

The listing walks the key space by directories, from the root prefix down. The common prefixes
of a directory, page after page, are each either the prefix of a repository, ending in `.git/`
and holding a `HEAD`, which the walk reports, or a directory it searches further.

On a store that holds the repositories `live` (`Registry`), every directory the walk searches
lies inside no repository (`Searched`). The directories right under it then split the
repositories below it among themselves (`perm_flatMap_liveUnder`), and those that are no
repository's prefix are searched in turn. So the walk reports every repository once
(`walk_perm`), within its fuel: a directory costs at least one character of every key below it
(`sum_cost_groups_le`). Sorted, the names reported are those of `live`, sorted
(`Registry.run_list`), for the names the walk reads back as they are (`Listable`): normal, and
not themselves under the root prefix, which the walk strips as often as it leads.
-/

namespace GitServer.Remote

open BlobStore

/-! ## Blocks of a list -/

/-- Sums where every term of a nonempty list grows by one grow by one at least. -/
theorem sum_map_add_one_le {α : Type} {L : List α} (hne : L ≠ []) {f g : α → Nat}
    (hfg : ∀ x ∈ L, f x + 1 ≤ g x) : (L.map f).sum + 1 ≤ (L.map g).sum := by
  obtain ⟨x, xs, rfl⟩ := List.exists_cons_of_ne_nil hne
  have hx := hfg x List.mem_cons_self
  have hxs : (xs.map f).sum ≤ (xs.map g).sum :=
    List.sum_le_sum fun y hy => (Nat.le_succ _).trans (hfg y (List.mem_cons_of_mem x hy))
  simp only [List.map_cons, List.sum_cons]
  omega

/-! ## Prefixes -/

section Prefixes

variable {q g d k : String}

theorem String.startsWith_trans {a b c : String} (hab : b.startsWith a) (hbc : c.startsWith b) :
    c.startsWith a := by
  rw [String.startsWith_string_iff] at hab hbc ⊢
  exact hab.trans hbc

/-- A key holds a slash past a prefix: it rolls up into a group. -/
theorem group?_isSome (hslash : '/' ∈ k.toList.drop q.length) :
    (group? q (some "/") k).isSome := by
  have hfirst : ∀ l : List Char, '/' ∈ l → (firstMatch? ['/'] l).isSome := by
    intro l hl
    induction l with
    | nil => exact absurd hl List.not_mem_nil
    | cons c cs ih =>
      by_cases hc : c = '/'
      · subst hc
        simp [firstMatch?, List.isPrefixOf]
      · have hcs : '/' ∈ cs := (List.mem_cons.mp hl).resolve_left (Ne.symm hc)
        simp only [firstMatch?]
        split
        · rfl
        · simpa using ih hcs
  have hs : "/".toList = ['/'] := by simp
  simp only [group?, Option.bind_some, hs, Option.isSome_map]
  exact hfirst _ hslash

/-- A directory right under `q` that begins a text begins every longer prefix of the text that
ends in a slash. -/
theorem IsDir.startsWith_of_slash (hg : IsDir q g) (hkg : k.startsWith g) (hkd : k.startsWith d)
    {r : List Char} (hd : d.toList = q.toList ++ r ++ ['/']) : d.startsWith g := by
  rcases startsWith_or_startsWith hkg hkd with h | h
  · exact h
  · obtain ⟨seg, hseg, hgseg⟩ := hg
    rw [String.startsWith_string_iff, hgseg, hd, List.append_assoc, List.append_assoc,
      List.prefix_append_right_inj] at h
    -- the slash that ends `d` would lie inside the name `seg` unless `d` is as long as `g`
    have hlen : seg.length ≤ r.length := by
      by_contra hlt
      have hpre : r ++ ['/'] <+: seg :=
        List.prefix_of_prefix_length_le h (List.prefix_append _ _) (by simp; omega)
      exact hseg (hpre.subset (by simp))
    have hle := h.length_le
    simp only [List.length_append, List.length_singleton] at hle
    have heq : r ++ ['/'] = seg ++ ['/'] := h.eq_of_length (by simp; omega)
    rw [String.startsWith_string_iff, hgseg, hd, List.append_assoc, List.append_assoc, heq]

end Prefixes

theorem String.startsWith_refl (a : String) : a.startsWith a :=
  String.startsWith_string_iff.mpr (List.prefix_refl _)

theorem String.eq_of_startsWith_of_startsWith {a c : String} (hac : c.startsWith a)
    (hca : a.startsWith c) : a = c := by
  rw [String.startsWith_string_iff] at hac hca
  exact String.toList_inj.mp (hca.eq_of_length (Nat.le_antisymm hca.length_le hac.length_le)).symm

/-! ## Directories the walk searches -/

/-- Whether the walk takes a common prefix for a repository: it ends in `.git/` and holds a
`HEAD`. -/
def holdsRepo (s : BlobStore) (g : String) : Bool := g.endsWith ".git/" && s.contains (g ++ headName)

/-- The repositories of `live` whose prefixes lie under `q`. -/
def liveUnder (live : List RepoName) (q : String) : List RepoName :=
  live.filter fun m => (repoPrefix m).startsWith q

/-- What searching a directory may cost the walk: the characters of the keys under it, past it. -/
def cost (s : BlobStore) (q : String) : Nat := ((s.under q).map fun k => k.length - q.length).sum

/-- A directory the walk searches: under the root prefix, and inside no repository of `live`. -/
structure Searched (live : List RepoName) (q : String) : Prop where
  root : q.startsWith rootPrefix
  outside : ∀ m ∈ live, ¬ q.startsWith (repoPrefix m)

variable {live : List RepoName} {b : BlobStore} {q g : String} {m : RepoName}

theorem Registry.head_mem_keys (h : Registry live b) (hm : m ∈ live) : key m headName ∈ b.keys := by
  by_contra hk
  exact h.head m hm (get_eq_none_iff.mpr hk)

/-- The prefix of a repository ends in `.git/`. -/
theorem endsWith_repoPrefix (hv : m.Valid) : (repoPrefix m).endsWith ".git/" = true := by
  rw [String.endsWith_iff_suffix]
  obtain ⟨w, hw⟩ := hv.ends
  refine ⟨rootPrefix.toList ++ w, ?_⟩
  rw [repoPrefix, String.toList_append, String.toList_append, ← hw]
  simp [RepoName.suffix]

theorem searched_root : Searched live rootPrefix where
  root := by simp [String.startsWith_string_iff]
  outside m _ h := by
    have hlen := ((String.startsWith_string_iff).mp h).length_le
    simp [repoPrefix] at hlen

/-- A repository under a searched directory lies strictly below it: its prefix goes on past the
directory and ends in a slash. -/
theorem Searched.repoPrefix_eq (hq : Searched live q) (hm : m ∈ live)
    (hmq : (repoPrefix m).startsWith q) : ∃ r, (repoPrefix m).toList = q.toList ++ r ++ ['/'] := by
  obtain ⟨t, ht⟩ := (String.startsWith_string_iff).mp hmq
  rcases List.eq_nil_or_concat t with rfl | ⟨r, c, rfl⟩
  · exact absurd (String.toList_inj.mp (by simpa using ht) ▸ String.startsWith_string_iff.mpr
      (List.prefix_refl _)) (hq.outside m hm)
  · refine ⟨r, ?_⟩
    have hlast : c = '/' := by
      have h := congrArg List.getLast? ht
      simp [repoPrefix] at h
      exact h
    rw [← ht, hlast, List.concat_eq_append, List.append_assoc]

section

variable (h : Registry live b) (hq : Searched live q)
include h hq

/-- The repository a key under a searched directory belongs to lies below the directory. -/
theorem Searched.owner_of_mem {k : String} (hk : k ∈ b.under q) :
    ∃ m ∈ live, k.startsWith (repoPrefix m) ∧ ∃ r, (repoPrefix m).toList = q.toList ++ r ++ ['/'] := by
  obtain ⟨hkb, hkq⟩ := List.mem_filter.mp hk
  obtain ⟨m, hm, hkm⟩ := h.owned k hkb
  rcases startsWith_or_startsWith hkq hkm with hmq | hqm
  · exact ⟨m, hm, hkm, hq.repoPrefix_eq hm hmq⟩
  · exact absurd hqm (hq.outside m hm)

/-- Every key under a searched directory rolls up into a directory right under it. -/
theorem Searched.grouped : ∀ k ∈ b.under q, (group? q (some "/") k).isSome := by
  intro k hk
  obtain ⟨m, -, hkm, r, hr⟩ := hq.owner_of_mem h hk
  obtain ⟨rest, hrest⟩ := (String.startsWith_string_iff).mp hkm
  apply group?_isSome
  rw [← hrest, hr, List.append_assoc, List.append_assoc, ← String.length_toList, List.drop_left]
  simp

theorem Searched.groupsUnder_eq :
    groupsUnder b q (b.entries.length + 1) none = rollUp q none (b.under q) :=
  BlobStore.groupsUnder_eq h.sorted h.pageSize_pos (hq.grouped h)

/-- A directory right under a searched one that the walk meets lies above some repository. -/
theorem Searched.owner_of_group (hg : g ∈ rollUp q none (b.under q)) :
    IsDir q g ∧ ∃ m ∈ live, (repoPrefix m).startsWith g := by
  obtain ⟨k, hk, hkg⟩ := (mem_rollUp (groupsMono_under h.sorted)).mp hg
  obtain ⟨hdir, hkg⟩ := (group?_eq_some_iff (startsWith_of_mem_under hk)).mp hkg
  obtain ⟨m, hm, hkm, r, hr⟩ := hq.owner_of_mem h hk
  exact ⟨hdir, m, hm, IsDir.startsWith_of_slash hdir hkg hkm hr⟩

/-- **The walk takes a directory it meets for a repository** exactly when it is the prefix of
the repository below it. -/
theorem Searched.holdsRepo_iff (hdir : IsDir q g) (hm : m ∈ live)
    (hmg : (repoPrefix m).startsWith g) : holdsRepo b g = true ↔ g = repoPrefix m := by
  constructor
  · intro hrec
    by_contra hne
    have hend : ".git/".toList <:+ g.toList :=
      String.endsWith_iff_suffix.mp (Bool.and_eq_true_iff.mp hrec).1
    -- `g` is the root prefix, a path `P` and a slash
    obtain ⟨seg, -, hg⟩ := hdir
    obtain ⟨Q, hQ⟩ := String.startsWith_string_iff.mp hq.root
    have hgP : g.toList = rootPrefix.toList ++ (Q ++ seg) ++ ['/'] := by
      rw [hg, ← hQ, List.append_assoc rootPrefix.toList]
    have hpre : (Q ++ seg) ++ ['/'] <+: m.path.toList ++ ['/'] := by
      have hmg' := String.startsWith_string_iff.mp hmg
      rw [hgP, repoPrefix, String.toList_append, String.toList_append] at hmg'
      simp only [List.append_assoc, List.prefix_append_right_inj] at hmg'
      simpa using hmg'
    -- short of the whole path, `P` and a slash begin it: `P` is a directory above the name
    obtain ⟨w, hw⟩ : (Q ++ seg) ++ ['/'] <+: m.path.toList := by
      rcases List.prefix_concat_iff.mp hpre with heq | hlt
      · refine absurd ?_ hne
        rw [← String.toList_inj, hgP, List.append_cancel_right heq, repoPrefix, String.toList_append,
          String.toList_append]
        simp
      · exact hlt
    have hgit : RepoName.suffix.toList <:+ Q ++ seg := by
      have hsplit : ".git/".toList = RepoName.suffix.toList ++ ['/'] := by simp [RepoName.suffix]
      have hroot : rootPrefix.toList = "repositories".toList ++ ['/'] := by simp [rootPrefix]
      rw [hsplit, hgP] at hend
      have hend' := ((List.suffix_append_inj_of_length_eq rfl).mp hend).1
      rw [hroot, List.append_assoc, List.singleton_append] at hend'
      exact RepoName.suffix_of_suffix_append_cons RepoName.slash_not_mem_suffix hend'
    exact (h.valid m hm).above (Q ++ seg) w (by rw [← hw]; simp) hgit
  · rintro rfl
    have hc : b.contains (repoPrefix m ++ headName) = true := by
      rw [contains_eq]
      exact Option.isSome_iff_ne_none.mpr (h.head m hm)
    simp only [holdsRepo, endsWith_repoPrefix (h.valid m hm), hc, Bool.and_self]

/-- A directory the walk does not take for a repository is searched in its turn. -/
theorem Searched.of_ne (hdir : IsDir q g) (hm : m ∈ live) (hmg : (repoPrefix m).startsWith g)
    (hne : g ≠ repoPrefix m) : Searched live g where
  root := String.startsWith_trans hq.root hdir.startsWith
  outside m' hm' hgm' := by
    obtain rfl := eq_of_startsWith_repoPrefix (h.valid m' hm') (h.valid m hm)
      (String.startsWith_trans hgm' hmg) (String.startsWith_refl _)
    exact hne (String.eq_of_startsWith_of_startsWith hmg hgm')

/-- **The directories right under a searched one split the repositories below it.** -/
theorem Searched.perm_flatMap_liveUnder :
    ((rollUp q none (b.under q)).flatMap (liveUnder live)).Perm (liveUnder live q) := by
  have hmono := groupsMono_under (p := q) h.sorted
  have hdirOf : ∀ g ∈ rollUp q none (b.under q), IsDir q g := fun g hg => (hq.owner_of_group h hg).1
  apply perm_flatMap_filter h.nodup (pairwise_rollUp hmono).nodup
  · intro m hm
    constructor
    · -- the `HEAD` of the repository rolls up into the directory above it
      intro hmq
      have hk : key m headName ∈ b.under q :=
        List.mem_filter.mpr ⟨h.head_mem_keys hm, String.startsWith_trans hmq (startsWith_key m headName)⟩
      obtain ⟨g, hg⟩ := Option.isSome_iff_exists.mp (hq.grouped h _ hk)
      obtain ⟨hdir, hkg⟩ := (group?_eq_some_iff (startsWith_of_mem_under hk)).mp hg
      obtain ⟨r, hr⟩ := hq.repoPrefix_eq hm hmq
      exact ⟨g, (mem_rollUp hmono).mpr ⟨_, hk, hg⟩,
        IsDir.startsWith_of_slash hdir hkg (startsWith_key m headName) hr⟩
    · rintro ⟨g, hg, hmg⟩
      exact String.startsWith_trans (hdirOf g hg).startsWith hmg
  · intro m _ g hg g' hg' hmg hmg'
    rcases startsWith_or_startsWith hmg hmg' with hgg' | hg'g
    · exact IsDir.eq_of_startsWith (hdirOf g hg) (hdirOf g' hg') hgg'
    · exact (IsDir.eq_of_startsWith (hdirOf g' hg') (hdirOf g hg) hg'g).symm

/-- The directories right under a searched one split the keys below it. -/
theorem Searched.perm_flatMap_under :
    ((rollUp q none (b.under q)).flatMap b.under).Perm (b.under q) := by
  have hmono := groupsMono_under (p := q) h.sorted
  have hdirOf : ∀ g ∈ rollUp q none (b.under q), IsDir q g := fun g hg => (hq.owner_of_group h hg).1
  apply perm_flatMap_filter h.sorted.nodup (pairwise_rollUp hmono).nodup
  · intro k hk
    constructor
    · intro hkq
      have hk' : k ∈ b.under q := List.mem_filter.mpr ⟨hk, hkq⟩
      obtain ⟨g, hg⟩ := Option.isSome_iff_exists.mp (hq.grouped h _ hk')
      exact ⟨g, (mem_rollUp hmono).mpr ⟨k, hk', hg⟩, ((group?_eq_some_iff hkq).mp hg).2⟩
    · rintro ⟨g, hg, hkg⟩
      exact String.startsWith_trans (hdirOf g hg).startsWith hkg
  · intro k _ g hg g' hg' hkg hkg'
    rcases startsWith_or_startsWith hkg hkg' with hgg' | hg'g
    · exact IsDir.eq_of_startsWith (hdirOf g hg) (hdirOf g' hg') hgg'
    · exact (IsDir.eq_of_startsWith (hdirOf g' hg') (hdirOf g hg) hg'g).symm

/-- **Searching a directory pays for the directories right under it**: each costs at least one
character less of every key below it. -/
theorem Searched.sum_cost_groups_le :
    ((rollUp q none (b.under q)).map fun g => cost b g + 1).sum ≤ cost b q := by
  have hmono := groupsMono_under (p := q) h.sorted
  have hsplit : cost b q =
      ((rollUp q none (b.under q)).map fun g => ((b.under g).map fun k => k.length - q.length).sum).sum := by
    rw [cost, ← ((hq.perm_flatMap_under h).map _).sum_eq, List.flatMap, List.map_flatten,
      List.sum_flatten, List.map_map, List.map_map]
    rfl
  rw [hsplit]
  apply List.sum_le_sum
  intro g hg
  obtain ⟨⟨seg, -, hgseg⟩, -⟩ := hq.owner_of_group h hg
  obtain ⟨k, hk, hkg⟩ := (mem_rollUp hmono).mp hg
  have hkg' := ((group?_eq_some_iff (startsWith_of_mem_under hk)).mp hkg).2
  have hne : b.under g ≠ [] := List.ne_nil_of_mem (List.mem_filter.mpr ⟨(List.mem_filter.mp hk).1, hkg'⟩)
  apply sum_map_add_one_le hne
  intro k' hk'
  have hgq : q.length + 1 ≤ g.length := by
    rw [← String.length_toList, ← String.length_toList, hgseg]
    simp
  have hk'g : g.length ≤ k'.length := by
    have hlen := (String.startsWith_string_iff.mp (startsWith_of_mem_under hk')).length_le
    simpa only [String.length_toList] using hlen
  omega

end

/-- Adding up the lengths of the keys. -/
theorem foldl_add_length (entries : List (String × StoredBlob)) (a : Nat) :
    entries.foldl (fun n e => n + e.1.length) a = a + (entries.map fun e => e.1.length).sum := by
  induction entries generalizing a with
  | nil => simp
  | cons e es ih =>
    rw [List.foldl_cons, ih, List.map_cons, List.sum_cons]
    omega

/-- The root prefix costs no more than the keys' characters, which the listing gives the walk as
fuel. -/
theorem cost_root_le (b : BlobStore) :
    cost b rootPrefix ≤ b.entries.foldl (fun n e => n + e.1.length) 0 := by
  rw [foldl_add_length, Nat.zero_add]
  calc cost b rootPrefix ≤ ((b.under rootPrefix).map String.length).sum :=
        List.sum_le_sum fun k _ => Nat.sub_le _ _
    _ ≤ (b.keys.map String.length).sum :=
        (List.filter_sublist.map _).sum_le_sum fun _ _ => Nat.zero_le _
    _ = (b.entries.map fun e => e.1.length).sum := by rw [BlobStore.keys, List.map_map]; rfl

/-! ## The names the walk reports -/

/-- A name the walk reads back as it is: normal, and not itself under the root prefix, which
the walk strips from every name as often as it leads. -/
def Listable (m : RepoName) : Prop :=
  RepoName.normalize m.path = .ok m ∧ ¬ m.path.startsWith rootPrefix

/-- The walk strips the root prefix from the prefix of a repository once, and only once when
the name does not begin with it. -/
theorem stripPrefixes_repoPrefix (hv : m.Valid) (hl : ¬ m.path.startsWith rootPrefix) :
    stripPrefixes rootPrefix (repoPrefix m) = m.path ++ "/" := by
  have hroot : rootPrefix.toList = "repositories".toList ++ ['/'] := by simp [rootPrefix]
  have hnot : ¬ rootPrefix.toList <+: (m.path ++ "/").toList := by
    intro hpre
    rw [String.toList_append] at hpre
    rcases List.prefix_concat_iff.mp (by simpa using hpre) with heq | hpre'
    · -- the path would be `repositories`, which does not end in `.git`
      rw [hroot] at heq
      have hends := hv.ends
      rw [← List.append_cancel_right heq] at hends
      exact absurd hends (by decide)
    · exact hl (String.startsWith_string_iff.mpr hpre')
  obtain ⟨n, hn⟩ : ∃ n, (repoPrefix m).length = n + 1 :=
    ⟨_, (Nat.succ_pred_eq_of_pos (by
      have hslash : "/".length = 1 := rfl
      simp only [repoPrefix, String.length_append, hslash]
      omega)).symm⟩
  have hfirst : (!rootPrefix.isEmpty && rootPrefix.toList.isPrefixOf (repoPrefix m).toList) = true := by
    rw [List.isPrefixOf_iff_prefix.mpr (by simp [repoPrefix, List.append_assoc])]
    rfl
  have hdrop : (repoPrefix m).toList.drop rootPrefix.length = (m.path ++ "/").toList := by
    simp [repoPrefix, List.append_assoc, ← String.length_toList]
  unfold stripPrefixes
  rw [hn, stripPrefixes.go, if_pos hfirst, hdrop]
  cases n with
  | zero => simp [stripPrefixes.go]
  | succ n =>
    rw [stripPrefixes.go, if_neg fun hc => hnot (List.isPrefixOf_iff_prefix.mp (Bool.and_eq_true_iff.mp hc).2)]
    simp

/-- Below the prefix of a repository lies that repository alone. -/
theorem Registry.liveUnder_repoPrefix (h : Registry live b) (hm : m ∈ live) :
    (liveUnder live (repoPrefix m)).Perm [m] := by
  refine (List.perm_ext_iff_of_nodup (h.nodup.filter _) (List.nodup_singleton m)).mpr fun m' => ?_
  simp only [List.mem_filter, List.mem_singleton]
  constructor
  · rintro ⟨hm', hstart⟩
    exact eq_of_startsWith_repoPrefix (h.valid m' hm') (h.valid m hm) (String.startsWith_refl _) hstart
  · rintro rfl
    exact ⟨hm, String.startsWith_refl _⟩

/-! ## The walk -/

/-- One directory's loop: the directories taken for repositories add their names, in order;
the others go on the stack, the last one met on top. -/
theorem walk_loop (s : BlobStore) (fuel : Nat) (name : String → RepoName) :
    ∀ (gs stack : List String) (found : List RepoName),
      (∀ g ∈ gs, holdsRepo s g = true →
        RepoName.normalize (stripPrefixes rootPrefix g) = .ok (name g)) →
      (do
        let mut stack := stack
        let mut found := found
        for g in gs do
          if g.endsWith ".git/" && s.contains (g ++ headName) then
            found := found ++ [← RepoName.normalize (stripPrefixes rootPrefix g)]
          else stack := g :: stack
        walk s fuel stack found) =
      walk s fuel ((gs.filter fun g => !holdsRepo s g).reverse ++ stack)
        (found ++ (gs.filter (holdsRepo s)).map name)
  | [], stack, found, _ => by simp
  | g :: gs, stack, found, hname => by
    have ih := walk_loop s fuel name gs
    simp only [List.forIn_cons]
    by_cases hg : holdsRepo s g = true
    · have ih' := ih stack (found ++ [name g]) fun g' hg' => hname g' (List.mem_cons_of_mem _ hg')
      have hg' : (g.endsWith ".git/" && s.contains (g ++ headName)) = true := hg
      simp only [hg', if_true, hname g List.mem_cons_self hg, List.filter_cons, hg, Bool.not_true,
        Bool.false_eq_true, if_false, List.map_cons]
      rw [← List.singleton_append, ← List.append_assoc]
      exact ih'
    · have ih' := ih (g :: stack) found fun g' hg' => hname g' (List.mem_cons_of_mem _ hg')
      have hg' : ¬ (g.endsWith ".git/" && s.contains (g ++ headName)) = true := hg
      simp only [hg', if_false, List.filter_cons, hg, Bool.false_eq_true, Bool.not_false, if_true,
        List.reverse_cons, List.append_assoc, List.singleton_append]
      exact ih'

/-- **The walk reports every repository below the directories on its stack once**, when its
fuel covers what searching them may cost. -/
theorem Registry.walk_perm (h : Registry live b) (hl : ∀ m ∈ live, Listable m) :
    ∀ (fuel : Nat) (stack : List String) (found : List RepoName),
      (∀ q ∈ stack, Searched live q) → (stack.map fun q => cost b q + 1).sum ≤ fuel →
      ∃ L, walk b fuel stack found = .ok L ∧ L.Perm (found ++ stack.flatMap (liveUnder live))
  | 0, [], found, _, _ => ⟨found, rfl, by simp⟩
  | 0, _ :: _, _, _, hfuel => absurd hfuel (by simp)
  | fuel + 1, [], found, _, _ => ⟨found, rfl, by simp⟩
  | fuel + 1, q :: stack, found, hsearched, hfuel => by
    have hq := hsearched q List.mem_cons_self
    set G := rollUp q none (b.under q) with hG
    -- a directory taken for a repository is its prefix, and the walk reads its name back
    have hrepo : ∀ g ∈ G, holdsRepo b g = true → ∃ m ∈ live, g = repoPrefix m := by
      intro g hg hrec
      obtain ⟨hdir, m, hm, hmg⟩ := hq.owner_of_group h hg
      exact ⟨m, hm, (hq.holdsRepo_iff h hdir hm hmg).mp hrec⟩
    have hnorm : ∀ m ∈ live,
        RepoName.normalize (stripPrefixes rootPrefix (repoPrefix m)) = .ok m := by
      intro m hm
      rw [stripPrefixes_repoPrefix (h.valid m hm) (hl m hm).2]
      exact RepoName.normalize_append_slash (hl m hm).1
    let name : String → RepoName := fun g =>
      ((RepoName.normalize (stripPrefixes rootPrefix g)).toOption).getD ⟨""⟩
    have hname_eq : ∀ m ∈ live, name (repoPrefix m) = m := by
      intro m hm
      show ((RepoName.normalize (stripPrefixes rootPrefix (repoPrefix m))).toOption).getD _ = m
      rw [hnorm m hm]
      rfl
    have hname : ∀ g ∈ G, holdsRepo b g = true →
        RepoName.normalize (stripPrefixes rootPrefix g) = .ok (name g) := by
      intro g hg hrec
      obtain ⟨m, hm, rfl⟩ := hrepo g hg hrec
      rw [hname_eq m hm, hnorm m hm]
    -- the directories not taken are searched next, within the fuel left
    have hsearched' : ∀ q' ∈ (G.filter fun g => !holdsRepo b g).reverse ++ stack,
        Searched live q' := by
      intro q' hq'
      rcases List.mem_append.mp hq' with hq' | hq'
      · obtain ⟨hg, hrec⟩ := List.mem_filter.mp (List.mem_reverse.mp hq')
        obtain ⟨hdir, m, hm, hmg⟩ := hq.owner_of_group h hg
        refine hq.of_ne h hdir hm hmg fun heq => ?_
        rw [(hq.holdsRepo_iff h hdir hm hmg).mpr heq] at hrec
        exact absurd hrec (by decide)
      · exact hsearched q' (List.mem_cons_of_mem q hq')
    have hfuel' : (((G.filter fun g => !holdsRepo b g).reverse ++ stack).map
        fun q => cost b q + 1).sum ≤ fuel := by
      have hsub : ((G.filter fun g => !holdsRepo b g).map fun g => cost b g + 1).sum ≤
          (G.map fun g => cost b g + 1).sum :=
        (List.filter_sublist.map _).sum_le_sum fun _ _ => Nat.zero_le _
      have hcost : (G.map fun g => cost b g + 1).sum ≤ cost b q := hq.sum_cost_groups_le h
      simp only [List.map_cons, List.sum_cons] at hfuel
      simp only [List.map_append, List.sum_append, List.map_reverse, List.sum_reverse]
      omega
    obtain ⟨L, hrun, hperm⟩ := h.walk_perm hl fuel _ _ hsearched' hfuel'
    refine ⟨L, ?_, hperm.trans ?_⟩
    · rw [walk, hq.groupsUnder_eq h, walk_loop b fuel name G stack found hname]
      exact hrun
    · -- the names found and the directories pushed account for the repositories below `q`
      have hR : ((G.filter (holdsRepo b)).map name).Perm
          ((G.filter (holdsRepo b)).flatMap (liveUnder live)) := by
        rw [List.map_eq_flatMap]
        apply List.Perm.flatMap_left
        intro g hg
        obtain ⟨hgG, hrec⟩ := List.mem_filter.mp hg
        obtain ⟨m, hm, rfl⟩ := hrepo g hgG hrec
        rw [hname_eq m hm]
        exact (h.liveUnder_repoPrefix hm).symm
      have hsplit : ((G.filter (holdsRepo b)).flatMap (liveUnder live) ++
          (G.filter fun g => !holdsRepo b g).reverse.flatMap (liveUnder live)).Perm
            (liveUnder live q) := by
        refine (List.Perm.append_left _ ((List.reverse_perm _).flatMap_right _)).trans ?_
        rw [← List.flatMap_append]
        exact ((List.filter_append_perm _ G).flatMap_right _).trans (hq.perm_flatMap_liveUnder h)
      rw [List.flatMap_append, List.flatMap_cons, List.append_assoc, ← List.append_assoc _ _ (stack.flatMap _)]
      exact List.Perm.append_left found (List.Perm.append_right _ ((hR.append_right _).trans hsplit))

/-- **Listing a store that holds the repositories `live`** gives their names, sorted by path,
when the walk reads each back as it is; the store is left as it was. -/
theorem Registry.run_list (h : Registry live b) (hl : ∀ m ∈ live, Listable m) :
    list.run.run b = (.ok (live.mergeSort fun a c => decide (a.path ≤ c.path)), b) := by
  have hfuel : ([rootPrefix].map fun q => cost b q + 1).sum ≤
      b.entries.foldl (fun n e => n + e.1.length) 0 + 1 := by
    simpa using cost_root_le b
  obtain ⟨L, hwalk, hperm⟩ := h.walk_perm hl _ [rootPrefix] []
    (fun q hq => (List.mem_singleton.mp hq) ▸ searched_root) hfuel
  -- every repository lies under the root prefix
  have hall : liveUnder live rootPrefix = live :=
    List.filter_eq_self.mpr fun m _ => String.startsWith_string_iff.mpr (by simp [repoPrefix, List.append_assoc])
  have hL : L.Perm live := by simpa [hall] using hperm
  unfold list
  rw [run_bind_of_ok (rfl : (get : RemoteM BlobStore).run.run b = (.ok b, b))]
  simp only []
  rw [hwalk, run_bind_of_ok (run_check _ b), mergeSort_path_eq hL]
  rfl

end GitServer.Remote
