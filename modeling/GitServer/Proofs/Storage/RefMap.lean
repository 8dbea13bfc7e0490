import GitServer.Proofs.Text.Utf8
import GitServer.Proofs.Storage.RemoteStore
import Mathlib

/-!
# References as a map

What the references of a repository mean, apart from how a medium keeps them: a map from
names to targets (`RefMap`), and the four calls that change it (`RefCall`), each with the answer
it gives on the map (`RefCall.apply`): writing a target, removing a name that is there, and
the two conditional forms that compare the current target with an expected one first.

The store is specified for *kept* names and targets. A kept name passes `validateRefName` and
is `HEAD` or has at least three components (`refs/<kind>/<name>`); a kept symbolic target
names something and has no blanks at its ends, so that it reads back as written
(`RefTarget.decode_encode`). A directory tree cannot hold a file where a directory of files is:
a name `Blocks` a map when a name of the map lies strictly above or below it, component by
component (`RefName.Above`). Components are what `String.splitOn "/"` gives, which is the
list split of the characters (`RefName.splitOn_slash`), so two names with the same components
are the same name.
-/

namespace GitServer

/-! ## The components of a name -/

namespace String

/-- A split at a separator whose first character is not among the characters still to be
read finds no match there: the part under way runs to the end. -/
theorem splitOnAux_of_not_mem (sep : String) (l m r : List Char) (acc : List String)
    (hr : (0 : String.Pos.Raw).get sep ∉ r) :
    String.splitOnAux (String.ofList (l ++ m ++ r)) sep ⟨String.utf8Len l⟩
        ⟨String.utf8Len l + String.utf8Len m⟩ 0 acc =
      (String.ofList (m ++ r) :: acc).reverse := by
  have hpos : (⟨String.utf8Len l + String.utf8Len m⟩ : String.Pos.Raw) = ⟨String.utf8Len (l ++ m)⟩ := by
    simp [String.utf8Len_append]
  induction r generalizing m with
  | nil =>
    have hend : String.Pos.Raw.atEnd (String.ofList (l ++ m ++ [])) ⟨String.utf8Len (l ++ m)⟩ = true := by
      simpa using (String.atEnd_of_valid (l ++ m) []).mpr rfl
    rw [String.splitOnAux, hpos, if_pos hend, ← hpos]
    simpa using congrArg (fun t => (t :: acc).reverse) (String.extract_of_valid l m [])
  | cons c r ih =>
    have hc : c ≠ (0 : String.Pos.Raw).get sep := fun h => hr (h ▸ List.mem_cons_self)
    -- the position is that of `c`, which does not start the separator
    have hend : String.Pos.Raw.atEnd (String.ofList (l ++ m ++ c :: r)) ⟨String.utf8Len (l ++ m)⟩ =
        false :=
      Bool.eq_false_iff.mpr (mt (String.atEnd_of_valid (l ++ m) (c :: r)).mp (List.cons_ne_nil c r))
    have hget : String.Pos.Raw.get (String.ofList (l ++ m ++ c :: r)) ⟨String.utf8Len (l ++ m)⟩ = c :=
      String.get_of_valid (l ++ m) (c :: r)
    have hnext : String.Pos.Raw.next (String.ofList (l ++ m ++ c :: r)) ⟨String.utf8Len (l ++ m)⟩ =
        ⟨String.utf8Len l + String.utf8Len (m ++ [c])⟩ := by
      rw [String.next_of_valid (l ++ m) c r]
      simp [String.utf8Len_append, Nat.add_assoc]
    have hun : String.Pos.Raw.unoffsetBy ⟨String.utf8Len (l ++ m)⟩ 0 = ⟨String.utf8Len (l ++ m)⟩ := by
      simp [String.Pos.Raw.unoffsetBy]
    rw [String.splitOnAux, hpos, hend, if_neg Bool.false_ne_true, hget, beq_false_of_ne hc,
      if_neg Bool.false_ne_true, hun, hnext]
    -- the character joins the part under way
    have hrest := ih (m ++ [c]) (fun h => hr (List.mem_cons_of_mem c h))
      (by simp [String.utf8Len_append])
    simpa using hrest

/-- **A separator whose first character does not occur splits nothing.** -/
theorem splitOn_of_not_mem {s sep : String} (hsep : sep ≠ "")
    (hc : (0 : String.Pos.Raw).get sep ∉ s.toList) : s.splitOn sep = [s] := by
  have h := splitOnAux_of_not_mem sep [] [] s.toList [] hc
  simp only [List.nil_append, String.ofList_toList] at h
  rw [String.splitOn, if_neg (by simpa using hsep)]
  simpa using h

/-- The one character of a separator of one character, and where it ends. -/
theorem singleton_steps (c : Char) :
    (0 : String.Pos.Raw).get (String.singleton c) = c ∧
      (0 : String.Pos.Raw).next (String.singleton c) = ⟨c.utf8Size⟩ ∧
      String.Pos.Raw.atEnd (String.singleton c) ⟨c.utf8Size⟩ = true := by
  have hget := String.get_of_valid [] [c]
  have hnext := String.next_of_valid [] c []
  have hend := (String.atEnd_of_valid [c] []).mpr rfl
  simp only [List.nil_append, String.utf8Len_nil] at hget hnext
  simp only [List.append_nil, String.utf8Len_cons, String.utf8Len_nil, Nat.zero_add] at hend
  rw [String.singleton_eq_ofList]
  exact ⟨hget, by simpa using hnext, hend⟩

theorem splitOnAux_singleton (c : Char) (s : String) (b i : String.Pos.Raw) (r : List String) :
    String.splitOnAux s (String.singleton c) b i 0 r = String.splitAux s (· == c) b i r := by
  -- the separator has one character, so a match never backs up: both walks take the same steps
  obtain ⟨hsep, hnext, hatEnd⟩ := singleton_steps c
  induction h : s.rawEndPos.1 - i.1 using Nat.strong_induction_on generalizing b i r with
  | _ k ih =>
    have hraw : s.rawEndPos.byteIdx = s.utf8ByteSize := rfl
    rw [String.splitOnAux, String.splitAux]
    by_cases hend : i.atEnd s
    · simp [hend]
    · simp only [hend, dite_false, if_false, Bool.false_eq_true]
      have hlt : i.byteIdx < (i.next s).byteIdx := String.Pos.Raw.lt_next s i
      rw [hsep]
      by_cases hc : i.get s = c
      · simp only [hc, beq_self_eq_true, if_true, hnext, hatEnd]
        have hun : (i.next s).unoffsetBy ⟨c.utf8Size⟩ = i := by
          simp [String.Pos.Raw.next, String.Pos.Raw.unoffsetBy, hc]
        rw [hun]
        exact ih _ (by simp [String.Pos.Raw.atEnd] at hend; omega) _ _ _ rfl
      · simp only [beq_iff_eq, hc, if_false]
        have hun : i.unoffsetBy 0 = i := by simp [String.Pos.Raw.unoffsetBy]
        rw [hun]
        exact ih _ (by simp [String.Pos.Raw.atEnd] at hend; omega) _ _ _ rfl

/-- **Splitting a text at one character splits its characters.** -/
theorem splitOn_singleton (c : Char) (s : String) :
    s.splitOn (String.singleton c) = (s.toList.splitOn c).map String.ofList := by
  rw [String.splitOn, if_neg (by simp), splitOnAux_singleton, List.splitOn_eq_splitOnP]
  exact String.splitToList_of_valid s _

end String

namespace RefName

/-- Splitting a text at `/` splits its characters. -/
theorem splitOn_slash (s : String) : s.splitOn "/" = (s.toList.splitOn '/').map String.ofList :=
  String.splitOn_singleton '/' s

theorem splitOn_slash_ne_nil (s : String) : s.splitOn "/" ≠ [] := by
  simp [splitOn_slash]

/-- **A name is its components**: joining them with `/` gives it back. -/
theorem splitOn_slash_injective {a b : String} (h : a.splitOn "/" = b.splitOn "/") : a = b := by
  rw [splitOn_slash, splitOn_slash] at h
  have hparts : a.toList.splitOn '/' = b.toList.splitOn '/' := by
    simpa [Function.comp_def] using congrArg (List.map String.toList) h
  have ha : ['/'].intercalate (a.toList.splitOn '/') = a.toList := List.intercalate_splitOn '/'
  rw [← String.toList_inj, ← ha, hparts, List.intercalate_splitOn]

theorem splitOn_head : headName.splitOn "/" = ["HEAD"] := by
  rw [splitOn_slash]
  decide

/-- A name under `refs/` has `refs` as its first component. -/
theorem splitOn_of_refs {ref : String} (h : "refs/".toList <+: ref.toList) :
    ∃ rest, ref.splitOn "/" = "refs" :: rest := by
  obtain ⟨t, ht⟩ := h
  have hsplit : ref.toList = ['r', 'e', 'f', 's'] ++ '/' :: t := by
    rw [← ht]
    rfl
  refine ⟨(t.splitOn '/').map String.ofList, ?_⟩
  rw [splitOn_slash, hsplit, List.splitOn_append_cons_self_of_not_mem (by decide), List.map_cons]

/-- Names the reference store is specified for: valid, and `HEAD` or with at least three
components. -/
def Kept (name : String) : Prop :=
  validateRefName name = .ok () ∧ (name = headName ∨ 3 ≤ (name.splitOn "/").length)

/-- A kept name is `HEAD`, or `refs/<kind>/...` with at least one component below the kind. -/
theorem Kept.head_or_refs {name : String} (h : Kept name) :
    name = headName ∨ ∃ k x rest, name.splitOn "/" = "refs" :: k :: x :: rest := by
  rcases h.2 with hhead | hlen
  · exact .inl hhead
  rcases Remote.head_or_refs_of_valid h.1 with hhead | hrefs
  · exact .inl hhead
  obtain ⟨rest, hrest⟩ := splitOn_of_refs hrefs
  rw [hrest] at hlen ⊢
  match rest, hlen with
  | k :: x :: rest, _ => exact .inr ⟨k, x, rest, rfl⟩

/-- `a` lies strictly above `b`: its components are a proper prefix of those of `b`. -/
def Above (a b : String) : Prop := a.splitOn "/" <+: b.splitOn "/" ∧ a ≠ b

theorem Above.length_lt {a b : String} (h : Above a b) :
    (a.splitOn "/").length < (b.splitOn "/").length := by
  rcases Nat.lt_or_ge (a.splitOn "/").length (b.splitOn "/").length with hlt | hge
  · exact hlt
  · exact absurd (splitOn_slash_injective (h.1.eq_of_length (le_antisymm h.1.length_le hge))) h.2

/-- Nothing lies above `HEAD`, and no kept name lies below it. -/
theorem not_above_head (m : String) : ¬ Above m headName := by
  intro h
  have hlt := h.length_lt
  rw [splitOn_head] at hlt
  have hne := splitOn_slash_ne_nil m
  cases hparts : m.splitOn "/" with
  | nil => exact hne hparts
  | cons x xs => simp [hparts] at hlt

theorem not_head_above {m : String} (hm : Kept m) : ¬ Above headName m := by
  rintro ⟨hpre, hne⟩
  rcases hm.head_or_refs with rfl | ⟨k, x, rest, hparts⟩
  · exact hne rfl
  · rw [splitOn_head, hparts] at hpre
    simp at hpre

end RefName

/-! ## Targets that read back -/

namespace RefTarget

/-- Targets the store is specified for: a symbolic target names something and has no blanks
at its ends. -/
def Kept : RefTarget → Prop
  | .direct _ => True
  | .symbolic name => name ≠ "" ∧ Blank.trim name = name

theorem length_trimEnd_le (s : String) : (Blank.trimEnd s).toList.length ≤ s.toList.length := by
  simpa [Blank.trimEnd] using (List.dropWhile_suffix Blank.isBlank (l := s.toList.reverse)).length_le

/-- A text that trimming leaves alone starts with no blank. -/
theorem head_not_blank {s : String} (ht : Blank.trim s = s) :
    ∀ c ∈ s.toList.head?, Blank.isBlank c = false := by
  intro c hc
  obtain ⟨cs, hcs⟩ : ∃ cs, s.toList = c :: cs := by
    cases h : s.toList with
    | nil => simp [h] at hc
    | cons d ds => simp [h] at hc; exact ⟨ds, by rw [hc]⟩
  by_contra hblank
  -- a blank at the front would make the trimmed text shorter
  have hshort : (Blank.trimStart s).toList.length < s.toList.length := by
    simp only [Blank.trimStart, String.toList_ofList, hcs, Bool.not_eq_false] at hblank ⊢
    rw [List.dropWhile_cons_of_pos hblank, List.length_cons]
    exact Nat.lt_succ_of_le (List.dropWhile_suffix _).length_le
  have hle := length_trimEnd_le (Blank.trimStart s)
  rw [show Blank.trimEnd (Blank.trimStart s) = Blank.trim s from rfl, ht] at hle
  omega

/-- A text that trimming leaves alone ends with no blank. -/
theorem getLast_not_blank {s : String} (ht : Blank.trim s = s) :
    ∀ c ∈ s.toList.reverse.head?, Blank.isBlank c = false := by
  intro c hc
  obtain ⟨cs, hcs⟩ : ∃ cs, s.toList.reverse = c :: cs := by
    cases h : s.toList.reverse with
    | nil => simp [h] at hc
    | cons d ds => simp [h] at hc; exact ⟨ds, by rw [hc]⟩
  -- the front is left alone, so the end is trimmed from the text itself
  have hstart : Blank.trimStart s = s := by
    apply String.toList_inj.mp
    simp only [Blank.trimStart, String.toList_ofList]
    cases h : s.toList with
    | nil => rfl
    | cons d ds =>
      have hd := head_not_blank ht d (by simp [h])
      rw [List.dropWhile_cons_of_neg (by simp [hd])]
  by_contra hblank
  have hshort : (Blank.trimEnd s).toList.length < s.toList.length := by
    simp only [Blank.trimEnd, String.toList_ofList, List.length_reverse, Bool.not_eq_false]
      at hblank ⊢
    have hlen : s.toList.reverse.length = s.toList.length := List.length_reverse
    rw [hcs, List.dropWhile_cons_of_pos hblank, ← hlen, hcs, List.length_cons]
    exact Nat.lt_succ_of_le (List.dropWhile_suffix _).length_le
  rw [show Blank.trimEnd s = Blank.trim s by rw [Blank.trim, hstart], ht] at hshort
  omega

theorem dropWhile_of_head {p : Char → Bool} {l : List Char} (h : ∀ c ∈ l.head?, p c = false) :
    l.dropWhile p = l := by
  cases l with
  | nil => rfl
  | cons c cs => rw [List.dropWhile_cons_of_neg (by simp [h c (by simp)])]

/-- A text with no blank at either end is its own trim. -/
theorem trim_of_ends {s : String} (hfront : ∀ c ∈ s.toList.head?, Blank.isBlank c = false)
    (hback : ∀ c ∈ s.toList.reverse.head?, Blank.isBlank c = false) : Blank.trim s = s := by
  apply String.toList_inj.mp
  simp only [Blank.trim, Blank.trimEnd, Blank.trimStart, String.toList_ofList,
    dropWhile_of_head hfront, dropWhile_of_head hback, List.reverse_reverse]

/-- Trimming a kept name with blanks in front gives the name. -/
theorem trim_blanks_append {pre : List Char} {name : String} (hpre : ∀ c ∈ pre, Blank.isBlank c)
    (ht : Blank.trim name = name) : Blank.trim (String.ofList (pre ++ name.toList)) = name := by
  have hdrop : (pre ++ name.toList).dropWhile Blank.isBlank = name.toList := by
    induction pre with
    | nil => exact dropWhile_of_head (head_not_blank ht)
    | cons c cs ih =>
      rw [List.cons_append, List.dropWhile_cons_of_pos (hpre c (by simp))]
      exact ih fun d hd => hpre d (by simp [hd])
  apply String.toList_inj.mp
  simp only [Blank.trim, Blank.trimEnd, Blank.trimStart, String.toList_ofList, hdrop,
    dropWhile_of_head (getLast_not_blank ht), List.reverse_reverse]

/-- **A kept target reads back from its record.** -/
theorem decode_encode {t : RefTarget} (h : t.Kept) : decode t.encode = .ok t := by
  cases t with
  | direct id => exact decode_encode_direct id
  | symbolic name =>
    obtain ⟨hne, ht⟩ := h
    have hline : (symbolic name).encode.toList.reverse =
        '\n' :: (name.toList.reverse ++ [' ', ':', 'f', 'e', 'r']) := by
      simp [encode, render]
    -- the line feed goes; the name ends in no blank, so nothing more goes
    have hend : String.ofList (((symbolic name).encode.toList.reverse.dropWhile
        fun c => decide (c = '\n' ∨ c = '\r')).reverse) = "ref: " ++ name := by
      have hlast := getLast_not_blank ht
      have hkeep : (name.toList.reverse ++ [' ', ':', 'f', 'e', 'r']).dropWhile
          (fun c => decide (c = '\n' ∨ c = '\r')) = name.toList.reverse ++ [' ', ':', 'f', 'e', 'r'] := by
        apply dropWhile_of_head
        intro c hc
        cases hr : name.toList.reverse with
        | nil => simp [String.toList_eq_nil_iff, hne] at hr
        | cons d ds =>
          rw [hr, List.cons_append, List.head?_cons, Option.mem_some_iff] at hc
          subst hc
          have hd := hlast d (by simp [hr])
          rcases Decidable.em (d = '\n') with rfl | h1
          · simp [Blank.isBlank, Blank.codePoints] at hd
          rcases Decidable.em (d = '\r') with rfl | h2
          · simp [Blank.isBlank, Blank.codePoints] at hd
          simp [h1, h2]
      apply String.toList_inj.mp
      rw [hline, List.dropWhile_cons_of_pos (by decide), hkeep]
      simp
    have htext : Blank.trim ("ref: " ++ name) = "ref: " ++ name := by
      refine trim_of_ends (by simp [Blank.isBlank, Blank.codePoints]) ?_
      intro c hc
      cases hr : name.toList.reverse with
      | nil => simp [String.toList_eq_nil_iff, hne] at hr
      | cons d ds =>
        have hdc : d = c := by simpa [hr] using hc
        subst hdc
        exact getLast_not_blank ht d (by simp [hr])
    have hstarts : ("ref: " ++ name).startsWith "ref:" = true :=
      String.startsWith_string_iff.mpr ⟨' ' :: name.toList, by simp⟩
    have hname : Blank.trim (String.ofList (("ref: " ++ name).toList.drop 4)) = name := by
      have hdrop : ("ref: " ++ name).toList.drop 4 = [' '] ++ name.toList := by simp
      rw [hdrop]
      exact trim_blanks_append (by simp [Blank.isBlank, Blank.codePoints]) ht
    simp only [decode, hend, htext, hstarts, if_true, hname]
    simp [String.isEmpty_iff, hne]

/-- A kept target read back through the lossy UTF-8 reader of a medium. -/
theorem decode_record {t : RefTarget} (h : t.Kept) :
    decode (Utf8.decodeLossy (Bytes.ofString t.encode)) = .ok t := by
  rw [Utf8.decodeLossy_ofString_self, decode_encode h]

end RefTarget

/-! ## The map and the calls on it -/

/-- The references of a repository: the target of each name, none where there is none. -/
abbrev RefMap := String → Option RefTarget

namespace RefMap

/-- What reading a name answers on a map. -/
def read (M : RefMap) (name : String) : Except StorageError Reference :=
  match M name with
  | some t => .ok ⟨name, t⟩
  | none => .error (.notFound ("reference " ++ name))

/-- A name that cannot be a file next to the reference files of the map: a name of the map
lies strictly above or below it. -/
def Blocks (M : RefMap) (name : String) : Prop :=
  ∃ m, M m ≠ none ∧ (RefName.Above name m ∨ RefName.Above m name)

/-- Every name of the map is kept, and so is every target. -/
structure Kept (M : RefMap) : Prop where
  names : ∀ m, M m ≠ none → RefName.Kept m
  targets : ∀ m t, M m = some t → t.Kept

theorem Kept.update {M : RefMap} (hM : M.Kept) {name : String} {t : Option RefTarget}
    (hname : t ≠ none → RefName.Kept name) (ht : ∀ t', t = some t' → t'.Kept) :
    RefMap.Kept (Function.update M name t) where
  names m hm := by
    by_cases h : m = name
    · subst h
      rw [Function.update_self] at hm
      exact hname hm
    · rw [Function.update_of_ne h] at hm
      exact hM.names m hm
  targets m t' hm := by
    by_cases h : m = name
    · subst h
      rw [Function.update_self] at hm
      exact ht t' hm
    · rw [Function.update_of_ne h] at hm
      exact hM.targets m t' hm

/-- `HEAD` blocks no map of kept names. -/
theorem not_blocks_head {M : RefMap} (hM : M.Kept) : ¬ M.Blocks headName := by
  rintro ⟨m, hm, habove | habove⟩
  · exact RefName.not_head_above (hM.names m hm) habove
  · exact RefName.not_above_head m habove

end RefMap

/-! ## The references of a new repository -/

theorem headName_kept : RefName.Kept headName := ⟨rfl, .inl rfl⟩

/-- The references a new repository starts with: `HEAD` names the default branch, and the
branch names the first commit when there is one. -/
def initialRefs (n : RepoName) (o : InitOptions) (now : Int) : RefMap :=
  Function.update (Function.update (fun _ => none) o.branchRef
    ((initialContent n o now).2.map .direct)) headName (some (.symbolic o.branchRef))

/-- A new repository's one direct reference is its branch, at the first commit. -/
theorem initialContent_of_initialRefs {n : RepoName} {o : InitOptions} {now : Int} {ref : String}
    {id : ObjectId} (h : initialRefs n o now ref = some (.direct id)) :
    (initialContent n o now).2 = some id := by
  unfold initialRefs at h
  by_cases hhead : ref = headName
  · subst hhead
    rw [Function.update_self] at h
    cases h
  rw [Function.update_of_ne hhead] at h
  by_cases hbranch : ref = o.branchRef
  · subst hbranch
    rw [Function.update_self] at h
    obtain ⟨c, hc, hcid⟩ := Option.map_eq_some_iff.mp h
    cases hcid
    exact hc
  · rw [Function.update_of_ne hbranch] at h
    cases h

theorem initialContent_snd_isSome (n : RepoName) (o : InitOptions) (now : Int) :
    (initialContent n o now).2.isSome = o.initialCommit := by
  unfold initialContent
  cases o.initialCommit <;> simp

/-- A new repository's references are kept when the default branch is. -/
theorem initialRefs_kept {n : RepoName} {o : InitOptions} {now : Int}
    (hhead : RefTarget.Kept (.symbolic o.branchRef))
    (hbranch : o.initialCommit = true → RefName.Kept o.branchRef) :
    (initialRefs n o now).Kept := by
  have hempty : RefMap.Kept fun _ => none := ⟨fun _ h => absurd rfl h, fun _ _ h => by simp at h⟩
  refine (hempty.update ?_ ?_).update (fun _ => headName_kept) (fun t ht => by cases ht; exact hhead)
  · -- the branch is written only with a first commit
    intro hsome
    apply hbranch
    rw [← initialContent_snd_isSome n o now]
    cases hc : (initialContent n o now).2 with
    | none => simp [hc] at hsome
    | some c => rfl
  · intro t ht
    obtain ⟨c, -, rfl⟩ := Option.map_eq_some_iff.mp ht
    trivial

/-- A call that reads or changes one reference of a repository. -/
inductive RefCall where
  /-- Writes a target. -/
  | set (r : Reference)
  /-- Removes a reference, which must be there. -/
  | delete (name : String)
  /-- Writes a target when the current one is the expected one (`none`: absent). -/
  | swap (r : Reference) (expected : Option RefTarget)
  /-- Removes a reference when its current target is the expected one. -/
  | remove (name : String) (expected : RefTarget)

namespace RefCall

/-- The name a call is on. -/
def name : RefCall → String
  | set r => r.name
  | delete name => name
  | swap r _ => r.name
  | remove name _ => name

/-- Calls the store is specified for: the name is kept, and so is the target written. -/
def Kept : RefCall → Prop
  | set r => RefName.Kept r.name ∧ r.target.Kept
  | delete name => RefName.Kept name
  | swap r _ => RefName.Kept r.name ∧ r.target.Kept
  | remove name _ => RefName.Kept name

theorem Kept.name {c : RefCall} (h : c.Kept) : RefName.Kept c.name := by
  cases c with
  | set r => exact h.1
  | delete name => exact h
  | swap r e => exact h.1
  | remove name e => exact h

/-- The call on a handle of repository `n`. -/
def run (n : RepoName) : RefCall → StoreM Unit
  | set r => Storage.setReference n r
  | delete name => Storage.deleteReference n name
  | swap r expected => Storage.compareAndSwap n r expected
  | remove name expected => Storage.compareAndDelete n name expected

/-- What the call does to a map: the map it leaves, or the error it answers. -/
def apply (M : RefMap) : RefCall → Except StorageError RefMap
  | set r => .ok (Function.update M r.name (some r.target))
  | delete name =>
    if M name = none then .error (.notFound ("reference " ++ name))
    else .ok (Function.update M name none)
  | swap r expected =>
    if M r.name = expected then .ok (Function.update M r.name (some r.target))
    else .error (.referenceConflict r.name (Storage.describe expected) (Storage.describe (M r.name)))
  | remove name expected =>
    if M name = some expected then .ok (Function.update M name none)
    else .error (.referenceConflict name (Storage.describe (some expected))
      (Storage.describe (M name)))

/-- A kept call keeps a map of kept names and targets kept. -/
theorem Kept.apply {M M' : RefMap} {c : RefCall} (hM : M.Kept) (hc : c.Kept)
    (h : c.apply M = .ok M') : M'.Kept := by
  cases c with
  | set r =>
    cases h
    exact hM.update (fun _ => hc.1) (fun t ht => by cases ht; exact hc.2)
  | delete name =>
    simp only [RefCall.apply] at h
    split_ifs at h
    cases h
    exact hM.update (fun h => absurd rfl h) (fun _ ht => by simp at ht)
  | swap r e =>
    simp only [RefCall.apply] at h
    split_ifs at h
    cases h
    exact hM.update (fun _ => hc.1) (fun t ht => by cases ht; exact hc.2)
  | remove name e =>
    simp only [RefCall.apply] at h
    split_ifs at h
    cases h
    exact hM.update (fun h => absurd rfl h) (fun _ ht => by simp at ht)

/-- What one call answers on a map, and the map it leaves, on a medium that turns down the
calls `refuses` names. -/
inductive Answers (refuses : RefMap → String → Prop) :
    RefMap → RefCall → Except StorageError Unit → RefMap → Prop
  /-- A call the medium takes and the map allows changes the map as `apply` says. -/
  | ok {M M' : RefMap} {c : RefCall} :
      ¬ refuses M c.name → c.apply M = .ok M' → Answers refuses M c (.ok ()) M'
  /-- A call the medium takes and the map does not allow answers the map's error. -/
  | error {M : RefMap} {c : RefCall} {e : StorageError} :
      ¬ refuses M c.name → c.apply M = .error e → Answers refuses M c (.error e) M
  /-- A call the medium turns down fails with an error of the file system. -/
  | refused {M : RefMap} {c : RefCall} {msg : String} :
      refuses M c.name → Answers refuses M c (.error (.io msg)) M

/-- What a sequence of calls answers on a map, one answer a call, and the map they leave. -/
inductive Trace (refuses : RefMap → String → Prop) :
    RefMap → List RefCall → List (Except StorageError Unit) → RefMap → Prop
  | nil (M : RefMap) : Trace refuses M [] [] M
  | cons {M M' M'' : RefMap} {c : RefCall} {cs : List RefCall} {a : Except StorageError Unit}
      {as : List (Except StorageError Unit)} :
      Answers refuses M c a M' → Trace refuses M' cs as M'' → Trace refuses M (c :: cs) (a :: as) M''

end RefCall

end GitServer
