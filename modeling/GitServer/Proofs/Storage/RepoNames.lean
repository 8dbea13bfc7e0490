import GitServer.Proofs.Storage.RefMap
import Mathlib

/-!
# Normal repository names

Normalisation accepts a name only when no segment but the last ends in `.git`, and makes the
whole end in `.git`; it refuses backslashes (`valid_of_normalize`, `RepoName.Valid`). So the
directory of one repository never lies inside another's: when the path of one name followed
by a slash begins the path of another followed by a slash and more, the two names are the
same (`Valid.eq_of_prefix`). Every layout that keeps a repository under its path, as keys or
as directories, rests on that.

Normalisation looks only at the text it trims, so a normal name followed by a slash, as a
listing reads it back, is another spelling of the same name (`normalize_append_slash`). A listing that collects names
group by group and sorts them by path is the sorted list of the names, in whatever order the
groups came (`mergeSort_path_eq`).
-/

namespace GitServer

/-- A text ends with a pattern when its characters do. -/
theorem String.endsWith_iff_suffix {s pat : String} : s.endsWith pat = true ↔ pat.toList <:+ s.toList := by
  rw [String.endsWith_eq_endsWith_toSlice, String.Slice.endsWith_string_iff, String.copy_toSlice]

namespace RepoName

/-! ## What normalisation checks -/

/-- A text without a slash that ends a text ends its last segment. -/
theorem exists_splitOn_last {y : List Char} (hy : '/' ∉ y) :
    ∀ {u : List Char}, y <:+ u → ∃ pre last, u.splitOn '/' = pre ++ [last] ∧ y <:+ last
  | [], h => ⟨[], [], rfl, h⟩
  | c :: u, h => by
    rcases List.suffix_cons_iff.mp h with rfl | h
    · exact ⟨[], c :: u, List.splitOn_eq_singleton hy, List.suffix_refl _⟩
    · obtain ⟨pre, last, hsplit, hlast⟩ := exists_splitOn_last hy h
      rw [List.splitOn_cons_eq_if_modifyHead, hsplit]
      split
      · exact ⟨[] :: pre, last, rfl, hlast⟩
      · cases pre with
        | nil => exact ⟨[], c :: last, rfl, hlast.trans (List.suffix_cons _ _)⟩
        | cons x pre => exact ⟨(c :: x) :: pre, last, rfl, hlast⟩

theorem checkSegments_cons {raw seg : String} {rest : List String}
    (h : checkSegments raw (seg :: rest) = .ok ()) :
    (rest ≠ [] → seg.endsWith suffix = false) ∧ checkSegments raw rest = .ok () := by
  simp only [checkSegments, bind, Except.bind] at h
  -- the three refusals cannot have answered `ok`
  split_ifs at h with h₁ h₂ h₃
  refine ⟨fun hrest => ?_, h⟩
  simpa [hrest] using h₃

/-- **No segment but the last ends in `.git`** once the segments pass the check. -/
theorem checkSegments_not_nested {raw : String} :
    ∀ {pre : List String} {seg : String} {rest : List String},
      checkSegments raw (pre ++ seg :: rest) = .ok () → rest ≠ [] → seg.endsWith suffix = false
  | [], _, _, h, hrest => (checkSegments_cons h).1 hrest
  | _ :: _, _, _, h, hrest => checkSegments_not_nested (checkSegments_cons h).2 hrest

/-- What a successful normalisation checked, and the name it gives. -/
theorem normalize_eq_ok {raw : String} {n : RepoName} (h : normalize raw = .ok n) :
    (trimSlashes (Blank.trim raw)).toList.contains '\\' = false ∧
      checkSegments raw ((trimSlashes (Blank.trim raw)).splitOn "/") = .ok () ∧
      n.path = if (trimSlashes (Blank.trim raw)).endsWith suffix then trimSlashes (Blank.trim raw)
        else trimSlashes (Blank.trim raw) ++ suffix := by
  unfold normalize at h
  simp only [bind, Except.bind] at h
  split_ifs at h with h₁ h₂ h₃ h₄ h₄
  -- the name without a base name is refused; otherwise the name is the checked text
  · cases hc : checkSegments raw ((trimSlashes (Blank.trim raw)).splitOn "/") with
    | error e => rw [hc] at h; cases h
    | ok u => rw [hc] at h; exact absurd h (by simp [throw, throwThe, MonadExceptOf.throw])
  · cases hc : checkSegments raw ((trimSlashes (Blank.trim raw)).splitOn "/") with
    | error e => rw [hc] at h; cases h
    | ok u =>
      rw [hc] at h
      simp only [pure, Except.pure, Except.ok.injEq] at h
      subst h
      exact ⟨by simpa using h₂, rfl, by simp [h₃]⟩
  · cases hc : checkSegments raw ((trimSlashes (Blank.trim raw)).splitOn "/") with
    | error e => rw [hc] at h; cases h
    | ok u => rw [hc] at h; exact absurd h (by simp [throw, throwThe, MonadExceptOf.throw])
  · cases hc : checkSegments raw ((trimSlashes (Blank.trim raw)).splitOn "/") with
    | error e => rw [hc] at h; cases h
    | ok u =>
      rw [hc] at h
      simp only [pure, Except.pure, Except.ok.injEq] at h
      subst h
      exact ⟨by simpa using h₂, rfl, by simp [h₃]⟩

/-! ## Valid names -/

/-- What normalisation guarantees of a name: it ends in `.git`, no directory above it does,
and it holds no backslash. -/
structure Valid (n : RepoName) : Prop where
  ends : suffix.toList <:+ n.path.toList
  above : ∀ u w, n.path.toList = u ++ '/' :: w → ¬ suffix.toList <:+ u
  no_backslash : '\\' ∉ n.path.toList

theorem slash_not_mem_suffix : '/' ∉ suffix.toList := by decide

/-- A text without a character `c` that ends a text holding `c` ends what follows the last `c`. -/
theorem suffix_of_suffix_append_cons {s x p : List Char} {c : Char} (hc : c ∉ s)
    (h : s <:+ x ++ c :: p) : s <:+ p := by
  have hp : p <:+ x ++ c :: p := (List.suffix_cons c p).trans (List.suffix_append _ _)
  rcases Nat.le_total s.length p.length with hle | hle
  · exact List.suffix_of_suffix_length_le h hp hle
  · by_cases heq : s.length = p.length
    · exact List.suffix_of_suffix_length_le h hp heq.le
    · -- longer than `p`, `s` would end with `c :: p`
      have hcp : c :: p <:+ s :=
        List.suffix_of_suffix_length_le (List.suffix_append _ _) h (by simp; omega)
      exact absurd (hcp.subset List.mem_cons_self) hc

/-- **Every normal name is valid.** -/
theorem valid_of_normalize {raw : String} {n : RepoName} (h : normalize raw = .ok n) : n.Valid := by
  obtain ⟨hback, hsegs, hpath⟩ := normalize_eq_ok h
  set T := trimSlashes (Blank.trim raw)
  -- the name is the checked text, followed by `.git` when it did not end so
  obtain ⟨x, hx, hxs, hxb⟩ : ∃ x : List Char, n.path.toList = T.toList ++ x ∧ '/' ∉ x ∧ '\\' ∉ x := by
    split_ifs at hpath
    · exact ⟨[], by rw [hpath, List.append_nil], by simp, by simp⟩
    · exact ⟨suffix.toList, by rw [hpath, String.toList_append], slash_not_mem_suffix, by decide⟩
  refine ⟨?_, ?_, ?_⟩
  · split_ifs at hpath with hend
    · rw [hpath]
      exact String.endsWith_iff_suffix.mp hend
    · rw [hpath, String.toList_append]
      exact List.suffix_append _ _
  · intro u w hsplit hsuf
    -- the slash lies within the checked text, so `u` ends a segment that is not the last
    rw [hx] at hsplit
    obtain ⟨w', hT⟩ : ∃ w', T.toList = u ++ '/' :: w' := by
      rcases List.append_eq_append_iff.mp hsplit with ⟨a', -, hx'⟩ | ⟨c', hT, hc'⟩
      · rw [hx'] at hxs
        exact absurd (List.mem_append_right a' List.mem_cons_self) hxs
      · cases c' with
        | nil =>
          rw [List.nil_append] at hc'
          rw [← hc'] at hxs
          exact absurd List.mem_cons_self hxs
        | cons b c' =>
          rw [List.cons_append, List.cons.injEq] at hc'
          obtain ⟨rfl, -⟩ := hc'
          exact ⟨c', hT⟩
    obtain ⟨pre, last, hu, hlast⟩ := exists_splitOn_last slash_not_mem_suffix hsuf
    have hseg : (String.ofList last).endsWith suffix = false := by
      refine @checkSegments_not_nested raw (pre.map String.ofList) (String.ofList last)
        ((w'.splitOn '/').map String.ofList) ?_ (by simp)
      rw [← hsegs, RefName.splitOn_slash, hT, List.splitOn_append_cons_self, hu]
      simp
    rw [← Bool.not_eq_true, String.endsWith_iff_suffix, String.toList_ofList] at hseg
    exact hseg hlast
  · rw [hx, List.mem_append, not_or]
    exact ⟨by simpa using hback, hxb⟩

/-- **Repositories do not nest**: when the path of a valid name and a slash begin the path of
another valid name, a slash and more, the two names are the same. -/
theorem Valid.eq_of_prefix {m n : RepoName} (hm : m.Valid) (hn : n.Valid) {rel : List Char}
    (h : m.path.toList ++ ['/'] <+: n.path.toList ++ '/' :: rel) : m = n := by
  have hN : n.path.toList ++ ['/'] <+: n.path.toList ++ '/' :: rel := ⟨rel, by simp⟩
  rcases lt_trichotomy m.path.toList.length n.path.toList.length with hlt | heq | hgt
  · -- `m` would be a directory above `n`
    obtain ⟨w, hw⟩ : m.path.toList ++ ['/'] <+: n.path.toList :=
      List.prefix_of_prefix_length_le h (List.prefix_append _ _) (by simp; omega)
    exact absurd hm.ends (hn.above _ w (by rw [← hw]; simp))
  · have hpre : m.path.toList <+: n.path.toList :=
      List.prefix_of_prefix_length_le ((List.prefix_append _ ['/']).trans h) (List.prefix_append _ _)
        heq.le
    have hpath : m.path = n.path := String.toList_inj.mp (hpre.eq_of_length heq)
    cases m
    cases n
    cases hpath
    rfl
  · -- `n` would be a directory above `m`
    have hNM : n.path.toList ++ ['/'] <+: m.path.toList ++ ['/'] :=
      List.prefix_of_prefix_length_le hN h (by simp; omega)
    obtain ⟨w, hw⟩ : n.path.toList ++ ['/'] <+: m.path.toList :=
      List.prefix_of_prefix_length_le hNM (List.prefix_append _ _) (by simp; omega)
    exact absurd hn.ends (hm.above _ w (by rw [← hw]; simp))

/-! ## Spellings of one name -/

/-- Checking segments passes or fails whatever name its errors report. -/
theorem checkSegments_ok_iff {raw raw' : String} : ∀ {segs : List String},
    checkSegments raw segs = .ok () ↔ checkSegments raw' segs = .ok ()
  | [] => Iff.rfl
  | seg :: rest => by
    simp only [checkSegments, bind, Except.bind]
    -- the same refusals apply to both; only their messages differ
    split_ifs
    all_goals first
      | exact checkSegments_ok_iff
      | simp

/-- Two spellings that trim to the same text name the same repository. -/
theorem normalize_of_trim_eq {raw raw' : String}
    (ht : trimSlashes (Blank.trim raw') = trimSlashes (Blank.trim raw)) {n : RepoName}
    (h : normalize raw = .ok n) : normalize raw' = .ok n := by
  unfold normalize at h ⊢
  rw [ht]
  simp only [bind, Except.bind] at h ⊢
  split_ifs at h ⊢
  all_goals
    cases hc : checkSegments raw ((trimSlashes (Blank.trim raw)).splitOn "/") with
    | error e => rw [hc] at h; cases h
    | ok u =>
      rw [hc] at h
      rw [checkSegments_ok_iff.mp hc]
      first
        | exact h
        | exact absurd h (by simp [throw, throwThe, MonadExceptOf.throw])

theorem dropWhile_append_slash (Y : List Char) :
    (((Y ++ ['/']).dropWhile (· == '/')).reverse.dropWhile (· == '/')) =
      (Y.dropWhile (· == '/')).reverse.dropWhile (· == '/') := by
  rw [List.dropWhile_append]
  split
  · rename_i hY
    rw [List.isEmpty_iff.mp hY]
    rfl
  · rw [List.reverse_append]
    rfl

/-- Slashes at the ends go, whatever their number. -/
theorem trimSlashes_append_slash (y : String) : trimSlashes (y ++ "/") = trimSlashes y := by
  simp only [trimSlashes, String.toList_append]
  exact congrArg (fun l => String.ofList l.reverse) (dropWhile_append_slash y.toList)

/-- A slash after a text that ends in no blank survives the trimming of blanks. -/
theorem trim_append_slash {x : String} {c : Char} (hlast : x.toList.getLast? = some c)
    (hc : Blank.isBlank c = false) : Blank.trim (x ++ "/") = Blank.trim x ++ "/" := by
  obtain ⟨x', hx⟩ := List.getLast?_eq_some_iff.mp hlast
  -- after the blanks in front, the text still ends in `c`
  obtain ⟨d, hd⟩ : ∃ d, x.toList.dropWhile Blank.isBlank = d ++ [c] := by
    rw [hx, List.dropWhile_append]
    split
    · exact ⟨[], by simp [hc]⟩
    · exact ⟨_, rfl⟩
  have hslash : Blank.isBlank '/' = false := by decide
  rw [← String.toList_inj]
  simp only [Blank.trim, Blank.trimStart, Blank.trimEnd, String.toList_append, String.toList_ofList]
  rw [List.dropWhile_append, hd]
  simp [hc, hslash]

theorem Valid.getLast?_path {n : RepoName} (hn : n.Valid) : n.path.toList.getLast? = some 't' := by
  obtain ⟨w, hw⟩ := hn.ends
  rw [← hw]
  simp [suffix]

/-- **A normal name followed by a slash** is another spelling of it. -/
theorem normalize_append_slash {n : RepoName} (h : normalize n.path = .ok n) :
    normalize (n.path ++ "/") = .ok n := by
  have hblank : Blank.isBlank 't' = false := by decide
  refine normalize_of_trim_eq ?_ h
  rw [trim_append_slash (valid_of_normalize h).getLast?_path hblank, trimSlashes_append_slash]

end RepoName

/-! ## Listings of names -/

/-- When each element of a list that passes `p` lies in exactly one block of `G`, the blocks
one after another rearrange those elements. -/
theorem perm_flatMap_filter {α β : Type} {l : List α} (hl : l.Nodup) {G : List β} (hG : G.Nodup)
    {p : α → Bool} {r : β → α → Bool}
    (hcover : ∀ x ∈ l, p x = true ↔ ∃ g ∈ G, r g x = true)
    (hone : ∀ x ∈ l, ∀ g ∈ G, ∀ g' ∈ G, r g x = true → r g' x = true → g = g') :
    (G.flatMap fun g => l.filter (r g)).Perm (l.filter p) := by
  have hnodup : (G.flatMap fun g => l.filter (r g)).Nodup := by
    refine List.nodup_flatMap.mpr ⟨fun g _ => hl.filter _, hG.pairwise_of_forall_ne ?_⟩
    intro g hg g' hg' hne
    simp only [Function.onFun, List.disjoint_left, List.mem_filter]
    rintro x ⟨hx, hrx⟩ ⟨-, hrx'⟩
    exact hne (hone x hx g hg g' hg' hrx hrx')
  refine (List.perm_ext_iff_of_nodup hnodup (hl.filter p)).mpr fun x => ?_
  simp only [List.mem_flatMap, List.mem_filter]
  constructor
  · rintro ⟨g, hg, hx, hrx⟩
    exact ⟨hx, (hcover x hx).mpr ⟨g, hg, hrx⟩⟩
  · rintro ⟨hx, hpx⟩
    obtain ⟨g, hg, hrx⟩ := (hcover x hx).mp hpx
    exact ⟨g, hg, hx, hrx⟩

/-- Sorting by path: any two rearrangements of one list of names sort to the same list. -/
theorem mergeSort_path_eq {L L' : List RepoName} (hperm : L.Perm L') :
    L.mergeSort (fun a c => decide (a.path ≤ c.path)) =
      L'.mergeSort (fun a c => decide (a.path ≤ c.path)) := by
  have hsorted : ∀ l : List RepoName,
      (l.mergeSort fun a c => decide (a.path ≤ c.path)).Pairwise fun a c => decide (a.path ≤ c.path) :=
    List.pairwise_mergeSort (fun a b c hab hbc => by simpa using le_trans (by simpa using hab) (by simpa using hbc))
      (fun a c => by simpa using le_total a.path c.path)
  refine List.Perm.eq_of_pairwise (fun a c _ _ hac hca => ?_) (hsorted L) (hsorted L')
    ((List.mergeSort_perm L _).trans (hperm.trans (List.mergeSort_perm L' _).symm))
  have hpath : a.path = c.path := le_antisymm (by simpa using hac) (by simpa using hca)
  cases a
  cases c
  cases hpath
  rfl

end GitServer
