import GitServer.Proofs.Storage.RepoNames
import GitServer.Proofs.Except
import Mathlib

/-!
# Canonical repository names

A repository is stored under the name normalisation gives it, and a stored name is normalised
again whenever it is read back: by a listing, by a request that names it, by a delete. A
normal name is canonical (`RepoName.Canonical`, `canonical_of_normalize`): it ends in `.git`
after a base name that is not empty, it holds no backslash, and each of its `/`-segments is
non-empty, neither `.` nor `..`, free of control characters, and, but for the last, does not
end in `.git`.

Normalising a normal name again gives it back exactly when it does not begin with a blank
(`normalize_canonical`). Blanks are trimmed before slashes, so in `/ a` the slash guards the
blank and the name is `" a.git"`; normalised again, the blank is trimmed and the name is
`a.git` (`normalize_leadingBlank`).
-/

namespace GitServer

namespace RepoName

/-- A segment a normal name may have: not empty, not `.` or `..`, and with no control
character. -/
def SegmentOk (seg : String) : Prop :=
  seg ≠ "" ∧ seg ≠ "." ∧ seg ≠ ".." ∧ ∀ c ∈ seg.toList, isControl c = false

/-- What a normal name looks like. -/
structure Canonical (n : RepoName) : Prop where
  ends : n.path.endsWith suffix = true
  base : n.baseName ≠ ""
  no_backslash : '\\' ∉ n.path.toList
  segments : ∀ seg ∈ n.path.splitOn "/", SegmentOk seg
  inner : ∀ seg ∈ (n.path.splitOn "/").dropLast, seg.endsWith suffix = false

/-! ## Segments of a path -/

theorem toList_suffix : suffix.toList = ['.', 'g', 'i', 't'] := by decide

/-- Text without a slash, added at the end of a path, lengthens its last segment. -/
theorem splitOn_append_of_not_mem {ys : List Char} (hy : '/' ∉ ys) :
    ∀ xs : List Char, ∃ pre last, xs.splitOn '/' = pre ++ [last] ∧
      (xs ++ ys).splitOn '/' = pre ++ [last ++ ys]
  | [] => ⟨[], [], rfl, by simpa using List.splitOn_eq_singleton hy⟩
  | c :: xs => by
    obtain ⟨pre, last, hxs, hys⟩ := splitOn_append_of_not_mem hy xs
    rw [List.cons_append, List.splitOn_cons_eq_if_modifyHead,
      List.splitOn_cons_eq_if_modifyHead, hxs, hys]
    split
    · exact ⟨[] :: pre, last, rfl, rfl⟩
    · cases pre with
      | nil => exact ⟨[], c :: last, rfl, rfl⟩
      | cons x pre => exact ⟨(c :: x) :: pre, last, rfl, rfl⟩

/-- The base name of a name that ends in `.git` is its last segment without the `.git`. -/
theorem baseName_of_eq_append {n : RepoName} {u : List Char}
    (hu : n.path.toList = u ++ suffix.toList) :
    ∃ pre last, u.splitOn '/' = pre ++ [last] ∧ n.baseName = String.ofList last := by
  obtain ⟨pre, last, hsplit, hpath⟩ := splitOn_append_of_not_mem slash_not_mem_suffix u
  refine ⟨pre, last, hsplit, ?_⟩
  have hlast : (n.path.splitOn "/").getLast? = some (String.ofList (last ++ suffix.toList)) := by
    rw [RefName.splitOn_slash, hu, hpath]
    simp
  have hends : (String.ofList (last ++ suffix.toList)).endsWith suffix = true :=
    String.endsWith_iff_suffix.mpr (by rw [String.toList_ofList]; exact List.suffix_append _ _)
  have hlen : suffix.toList.length = 4 := by decide
  simp only [baseName, hlast, Option.getD_some, hends, if_true, String.length_ofList,
    String.toList_ofList, List.length_append, hlen, Nat.add_sub_cancel, List.take_left']

theorem ofList_eq_empty_iff {l : List Char} : String.ofList l = "" ↔ l = [] := by
  rw [← String.toList_inj, String.toList_ofList, String.toList_empty]

/-- **The base name is empty** exactly when the name is `.git` alone or ends in `/.git`. -/
theorem baseName_eq_empty_iff {n : RepoName} (hends : suffix.toList <:+ n.path.toList) :
    n.baseName = "" ↔ n.path = suffix ∨ n.path.endsWith "/.git" = true := by
  obtain ⟨u, hu⟩ := hends
  obtain ⟨pre, last, hsplit, hbase⟩ := baseName_of_eq_append hu.symm
  have hslashGit : "/.git".toList = '/' :: suffix.toList := by decide
  rw [hbase, ofList_eq_empty_iff, String.endsWith_iff_suffix, hslashGit]
  constructor
  · rintro rfl
    -- what comes before the `.git` is empty or ends in a slash
    rcases List.eq_nil_or_concat' u with rfl | ⟨u', c, rfl⟩
    · left
      rw [← String.toList_inj, ← hu, List.nil_append]
    · by_cases hc : c = '/'
      · subst hc
        right
        exact ⟨u', by rw [← hu]; simp⟩
      · exfalso
        obtain ⟨pre', last', -, hsplit'⟩ :=
          @splitOn_append_of_not_mem [c] (by simpa [eq_comm] using hc) u'
        rw [hsplit'] at hsplit
        have := List.singleton_inj.mp (List.append_inj' hsplit rfl).2
        simp at this
  · rintro (hsuf | ⟨w, hw⟩)
    · have hu' : u = [] := by
        have := congrArg List.length hu
        rw [hsuf, List.length_append] at this
        exact List.eq_nil_of_length_eq_zero (by omega)
      subst hu'
      rw [List.splitOn_nil, ← List.nil_append [[]]] at hsplit
      exact (List.singleton_inj.mp (List.append_inj' hsplit rfl).2).symm
    · -- the name ends in a slash and `.git`, so the text before the `.git` ends in a slash
      have hu' : u = w ++ ['/'] := by
        rw [← hw, show w ++ '/' :: suffix.toList = (w ++ ['/']) ++ suffix.toList by simp] at hu
        exact List.append_cancel_right hu
      rw [hu', List.splitOn_append_cons_self, List.splitOn_nil] at hsplit
      exact (List.singleton_inj.mp (List.append_inj' hsplit rfl).2).symm

/-! ## What normalisation checks -/

/-- **Checking segments** passes exactly when every segment may stand in a name and no
segment but the last ends in `.git`. -/
theorem checkSegments_eq_ok_iff {raw : String} : ∀ {segs : List String},
    checkSegments raw segs = .ok () ↔
      (∀ seg ∈ segs, SegmentOk seg) ∧ ∀ seg ∈ segs.dropLast, seg.endsWith suffix = false
  | [] => by simp [checkSegments]
  | seg :: rest => by
    have ih := @checkSegments_eq_ok_iff raw rest
    simp only [checkSegments, bind, Except.bind]
    split_ifs with h₁ h₂ h₃
    · -- an empty segment, `.` or `..`
      simp only [false_iff]
      rintro ⟨hok, -⟩
      obtain ⟨hne, hdot, hdots, -⟩ := hok seg List.mem_cons_self
      rcases h₁ with h | h | h
      · exact hne (String.isEmpty_iff.mp h)
      · exact hdot h
      · exact hdots h
    · -- a control character
      simp only [false_iff]
      rintro ⟨hok, -⟩
      obtain ⟨c, hc, hcontrol⟩ := List.any_eq_true.mp h₂
      rw [(hok seg List.mem_cons_self).2.2.2 c hc] at hcontrol
      cases hcontrol
    · -- a segment before the last that ends in `.git`
      simp only [false_iff]
      rintro ⟨-, hinner⟩
      obtain ⟨hrest, hend⟩ := h₃
      have hrest : rest ≠ [] := by simpa using hrest
      rw [List.dropLast_cons_of_ne_nil hrest] at hinner
      rw [hinner seg List.mem_cons_self] at hend
      cases hend
    · -- the segment passes; the rest decides
      rw [ih]
      have hok : SegmentOk seg := by
        refine ⟨fun h => h₁ (.inl (String.isEmpty_iff.mpr h)), fun h => h₁ (.inr (.inl h)),
          fun h => h₁ (.inr (.inr h)), fun c hc => ?_⟩
        simpa using fun h => h₂ (List.any_eq_true.mpr ⟨c, hc, h⟩)
      simp only [List.forall_mem_cons]
      by_cases hrest : rest = []
      · subst hrest
        simp [hok]
      · have hend : seg.endsWith suffix = false := by simpa [hrest] using h₃
        rw [List.dropLast_cons_of_ne_nil hrest, List.forall_mem_cons]
        simp [hok, hend]

/-- **What normalisation accepts, and the name it gives**: the trimmed text is not empty and
holds no backslash, its segments pass, and the name, the text with `.git` added unless it has
one, has a base name. -/
theorem normalize_eq_ok_iff {raw : String} {n : RepoName} :
    normalize raw = .ok n ↔
      trimSlashes (Blank.trim raw) ≠ "" ∧ '\\' ∉ (trimSlashes (Blank.trim raw)).toList ∧
        checkSegments raw ((trimSlashes (Blank.trim raw)).splitOn "/") = .ok () ∧
        n.path = (if (trimSlashes (Blank.trim raw)).endsWith suffix then trimSlashes (Blank.trim raw)
          else trimSlashes (Blank.trim raw) ++ suffix) ∧
        n.path ≠ suffix ∧ n.path.endsWith "/.git" = false := by
  unfold normalize
  simp only [bind, Except.bind]
  cases hc : checkSegments raw ((trimSlashes (Blank.trim raw)).splitOn "/") with
  | error e => split_ifs <;> simp
  | ok u =>
    cases u
    split_ifs <;> simp_all [pure, Except.pure, String.isEmpty_iff]
    -- left: the refusal of a name with no base name, and the two names given
    · intro _ hne
      simp_all
    all_goals
      constructor
      · rintro rfl
        simp_all
      · rintro ⟨hpath, -, -⟩
        cases n
        simp_all

/-! ## Normal names are canonical -/

theorem segmentOk_append_suffix {l : List Char} (hl : ∀ c ∈ l, isControl c = false) :
    SegmentOk (String.ofList (l ++ suffix.toList)) := by
  have hlen : 4 ≤ (String.ofList (l ++ suffix.toList)).length := by
    rw [String.length_ofList, List.length_append]
    exact Nat.le_add_left _ _
  have hsuffix : ∀ c ∈ suffix.toList, isControl c = false := by
    rw [toList_suffix]
    simp [isControl]
  refine ⟨fun h => ?_, fun h => ?_, fun h => ?_, fun c hc => ?_⟩
  · rw [h] at hlen
    exact absurd hlen (by decide)
  · rw [h] at hlen
    exact absurd hlen (by decide)
  · rw [h] at hlen
    exact absurd hlen (by decide)
  · rw [String.toList_ofList, List.mem_append] at hc
    exact hc.elim (hl c) (hsuffix c)

/-- **Every normal name is canonical.** Its segments are those of the checked text, the last
followed by the `.git` that normalisation adds. -/
theorem canonical_of_normalize {raw : String} {n : RepoName} (h : normalize raw = .ok n) :
    n.Canonical := by
  obtain ⟨-, -, hsegs, hpath, hsuf, hslash⟩ := normalize_eq_ok_iff.mp h
  have hvalid := valid_of_normalize h
  set T := trimSlashes (Blank.trim raw)
  obtain ⟨hok, hinner⟩ := checkSegments_eq_ok_iff.mp hsegs
  obtain ⟨x, hx, hxok⟩ : ∃ x, n.path.toList = T.toList ++ x ∧ (x = [] ∨ x = suffix.toList) := by
    split_ifs at hpath
    · exact ⟨[], by rw [hpath, List.append_nil], .inl rfl⟩
    · exact ⟨suffix.toList, by rw [hpath, String.toList_append], .inr rfl⟩
  have hxs : '/' ∉ x := by
    rcases hxok with rfl | rfl
    · exact List.not_mem_nil
    · exact slash_not_mem_suffix
  obtain ⟨pre, last, hT, hN⟩ := splitOn_append_of_not_mem hxs T.toList
  rw [RefName.splitOn_slash, hT] at hok hinner
  have hnsegs : n.path.splitOn "/" = (pre ++ [last ++ x]).map String.ofList := by
    rw [RefName.splitOn_slash, hx, hN]
  refine ⟨String.endsWith_iff_suffix.mpr hvalid.ends, ?_, hvalid.no_backslash, ?_, ?_⟩
  · rw [Ne, baseName_eq_empty_iff hvalid.ends]
    simp [hsuf, hslash]
  · rw [hnsegs]
    intro seg hseg
    simp only [List.map_append, List.map_singleton, List.mem_append, List.mem_singleton] at hseg
    rcases hseg with hseg | rfl
    · exact hok seg (by rw [List.map_append]; exact List.mem_append_left _ hseg)
    · have hlast := hok (String.ofList last) (by simp)
      rcases hxok with rfl | rfl
      · simpa using hlast
      · exact segmentOk_append_suffix (by simpa using hlast.2.2.2)
  · -- the segments before the last are the checked text's
    rw [hnsegs]
    simpa [List.map_append, List.dropLast_concat] using hinner

/-! ## Normalising a normal name again -/

theorem getLast?_of_suffix {l : List Char} (h : suffix.toList <:+ l) : l.getLast? = some 't' := by
  obtain ⟨w, rfl⟩ := h
  simp [suffix]

/-- Trimming the front of a text by `p` keeps an end of it that begins with a character `p`
rejects. -/
theorem suffix_dropWhile {p : Char → Bool} {s l : List Char} (hs : s <:+ l)
    (hp : ∀ c ∈ s.head?, p c = false) : s <:+ l.dropWhile p := by
  obtain ⟨u, rfl⟩ := hs
  rw [List.dropWhile_append]
  split
  · rw [RefTarget.dropWhile_of_head hp]
  · exact List.suffix_append _ _

/-- Trimming by `p` the end of a text whose last character `p` rejects changes nothing. -/
theorem reverse_dropWhile_reverse {p : Char → Bool} {l : List Char} {c : Char}
    (hlast : l.getLast? = some c) (hc : p c = false) : (l.reverse.dropWhile p).reverse = l := by
  rw [RefTarget.dropWhile_of_head (by rw [List.head?_reverse, hlast]; simpa using hc),
    List.reverse_reverse]

/-- **Trimming a name that ends in `.git` only takes from its front**, and the `.git` stays. -/
theorem trimmed_of_suffix {s : String} (hs : suffix.toList <:+ s.toList) :
    (trimSlashes (Blank.trim s)).toList =
        (s.toList.dropWhile Blank.isBlank).dropWhile (· == '/') ∧
      suffix.toList <:+ (s.toList.dropWhile Blank.isBlank).dropWhile (· == '/') := by
  have hblank : ∀ c ∈ suffix.toList.head?, Blank.isBlank c = false := by
    rw [toList_suffix]
    rintro c ⟨⟩
    decide
  have hslash : ∀ c ∈ suffix.toList.head?, (c == '/') = false := by
    rw [toList_suffix]
    rintro c ⟨⟩
    decide
  have h₁ := suffix_dropWhile hs hblank
  have h₂ := suffix_dropWhile h₁ hslash
  refine ⟨?_, h₂⟩
  simp only [trimSlashes, Blank.trim, Blank.trimEnd, Blank.trimStart, String.toList_ofList]
  rw [reverse_dropWhile_reverse (getLast?_of_suffix h₁) (by decide),
    reverse_dropWhile_reverse (getLast?_of_suffix h₂) (by decide)]

/-- **A canonical name that begins with no blank is its own normal form.** -/
theorem normalize_self_of_canonical {n : RepoName} (hn : n.Canonical)
    (hhead : ∀ c ∈ n.path.toList.head?, Blank.isBlank c = false) : normalize n.path = .ok n := by
  have hends := String.endsWith_iff_suffix.mp hn.ends
  have hlast := getLast?_of_suffix hends
  -- the first segment is not empty, so the name begins with no slash
  have hslash : ∀ c ∈ n.path.toList.head?, (c == '/') = false := by
    intro c hc
    obtain ⟨cs, hcs⟩ := List.head?_eq_some_iff.mp hc
    by_contra hc'
    have hempty : "" ∈ n.path.splitOn "/" := by
      rw [RefName.splitOn_slash, hcs, List.splitOn_cons_eq_if_modifyHead, if_pos (by simpa using hc')]
      simp
    exact (hn.segments _ hempty).1 rfl
  have htrim : Blank.trim n.path = n.path :=
    RefTarget.trim_of_ends hhead (by rw [List.head?_reverse, hlast]; rintro c ⟨⟩; decide)
  have htrimmed : trimSlashes (Blank.trim n.path) = n.path := by
    rw [htrim, ← String.toList_inj]
    simp only [trimSlashes, String.toList_ofList, RefTarget.dropWhile_of_head hslash]
    exact reverse_dropWhile_reverse hlast (by decide)
  have hbase := (baseName_eq_empty_iff hends).not.mp hn.base
  rw [normalize_eq_ok_iff, htrimmed, if_pos hn.ends]
  refine ⟨?_, hn.no_backslash, checkSegments_eq_ok_iff.mpr ⟨hn.segments, hn.inner⟩, rfl, ?_, ?_⟩
  · intro h
    rw [h] at hlast
    cases hlast
  · exact fun h => hbase (.inl h)
  · simpa using fun h => hbase (.inr h)

/-- **A name that begins with a blank is not its own normal form**: normalising it trims the
blank, and the name it gives is shorter. -/
theorem head_not_blank_of_normalize_self {n : RepoName} (hends : suffix.toList <:+ n.path.toList)
    (h : normalize n.path = .ok n) : ∀ c ∈ n.path.toList.head?, Blank.isBlank c = false := by
  intro c hc
  obtain ⟨cs, hcs⟩ := List.head?_eq_some_iff.mp hc
  by_contra hblank
  obtain ⟨htrimmed, hsuf⟩ := trimmed_of_suffix hends
  obtain ⟨-, -, -, hpath, -, -⟩ := normalize_eq_ok_iff.mp h
  have hT : (trimSlashes (Blank.trim n.path)).endsWith suffix = true := by
    rw [String.endsWith_iff_suffix, htrimmed]
    exact hsuf
  rw [if_pos hT] at hpath
  -- the blank in front is trimmed, so the name normalisation gives is shorter
  have hshort : (trimSlashes (Blank.trim n.path)).toList.length < n.path.toList.length := by
    rw [htrimmed, hcs, List.dropWhile_cons_of_pos (by simpa using hblank), List.length_cons]
    exact Nat.lt_succ_of_le ((List.dropWhile_suffix _).trans (List.dropWhile_suffix _)).length_le
  rw [← hpath] at hshort
  exact lt_irrefl _ hshort

/-- **Normal names are canonical, and normalising one again gives it back exactly when it
begins with no blank.** -/
theorem normalize_canonical {raw : String} {n : RepoName} (h : normalize raw = .ok n) :
    n.Canonical ∧
      (normalize n.path = .ok n ↔ ∀ c ∈ n.path.toList.head?, Blank.isBlank c = false) := by
  have hn := canonical_of_normalize h
  exact ⟨hn, head_not_blank_of_normalize_self (String.endsWith_iff_suffix.mp hn.ends),
    normalize_self_of_canonical hn⟩

/-- Normalising `/team/demo` gives `team/demo.git`, a canonical name that is its own normal
form. -/
theorem normalize_canonical_teamDemo :
    normalize "/team/demo" = .ok ⟨"team/demo.git"⟩ ∧ Canonical ⟨"team/demo.git"⟩ ∧
      (normalize "team/demo.git" = .ok ⟨"team/demo.git"⟩ ↔
        ∀ c ∈ "team/demo.git".toList.head?, Blank.isBlank c = false) := by
  have h : normalize "/team/demo" = .ok ⟨"team/demo.git"⟩ := by
    apply Except.eq_ok_of_toOption
    unfold RepoName.normalize
    simp only [RefName.splitOn_slash]
    decide +kernel
  exact ⟨h, normalize_canonical h⟩

/-- **A normal name that normalises to another.** The slash in front of `/ a` guards its blank
from trimming, so the name is `" a.git"`; normalised again, the blank is trimmed. -/
theorem normalize_leadingBlank :
    normalize "/ a" = .ok ⟨" a.git"⟩ ∧ normalize " a.git" = .ok ⟨"a.git"⟩ := by
  constructor
  all_goals
    apply Except.eq_ok_of_toOption
    unfold RepoName.normalize
    simp only [RefName.splitOn_slash]
    decide +kernel

end RepoName

end GitServer
