import GitServer.Proofs.Storage.Listing

/-!
# Common prefixes under any delimiter

A listing with a delimiter rolls a key up into its group: the prefix, then the key's text up
to and including the first occurrence of the delimiter after the prefix. `Listing` treats the
slash; here the delimiter is any text.

A group is the prefix, a text in which the delimiter does not begin before its end, and the
delimiter (`IsGroup`). A key under the prefix rolls up into a group exactly when it begins
with it (`group?_some_eq_some_iff`), and no group begins another (`IsGroup.eq_of_startsWith`).
So groups follow the order of their keys (`groupOf_le_of_le`), and a key that rolls up into
nothing sorts apart from every group: before the groups of the keys after it
(`lt_groupOf_of_plain`), and after the groups of the keys before it.
-/

namespace GitServer.BlobStore

/-! ## The first match of a pattern -/

section FirstMatch

variable {D : List Char}

/-- **Where a pattern first occurs**: it begins the text there, and nowhere before. -/
theorem firstMatch?_eq_some_iff : ∀ {l : List Char} {i : Nat},
    firstMatch? D l = some i ↔ D <+: l.drop i ∧ ∀ j < i, ¬ D <+: l.drop j
  | [], i => by
    cases i with
    | zero => simp [firstMatch?, List.prefix_nil]
    | succ i =>
      simp only [firstMatch?, List.drop_nil, List.prefix_nil]
      constructor
      · intro h
        split at h <;> cases h
      · rintro ⟨hD, hno⟩
        exact absurd hD (hno 0 (Nat.succ_pos i))
  | c :: cs, i => by
    rw [firstMatch?]
    split
    · rename_i hpre
      have hD : D <+: c :: cs := List.isPrefixOf_iff_prefix.mp hpre
      constructor
      · rintro ⟨⟩
        exact ⟨hD, fun j hj => absurd hj (Nat.not_lt_zero j)⟩
      · rintro ⟨-, hno⟩
        cases i with
        | zero => rfl
        | succ i => exact absurd hD (hno 0 (Nat.succ_pos i))
    · rename_i hpre
      have hD : ¬ D <+: c :: cs := fun h => hpre (List.isPrefixOf_iff_prefix.mpr h)
      rw [Option.map_eq_some_iff]
      constructor
      · rintro ⟨i, hi, rfl⟩
        obtain ⟨hat, hno⟩ := firstMatch?_eq_some_iff.mp hi
        refine ⟨by simpa using hat, fun j hj => ?_⟩
        cases j with
        | zero => exact hD
        | succ j => simpa using hno j (by omega)
      · rintro ⟨hat, hno⟩
        cases i with
        | zero => exact absurd hat hD
        | succ i =>
          refine ⟨i, firstMatch?_eq_some_iff.mpr ⟨by simpa using hat, fun j hj => ?_⟩, rfl⟩
          simpa using hno (j + 1) (by omega)

/-- A pattern does not occur in a text when it begins it nowhere. -/
theorem firstMatch?_eq_none_iff : ∀ {l : List Char},
    firstMatch? D l = none ↔ ∀ j, ¬ D <+: l.drop j
  | [] => by
    simp only [firstMatch?, List.drop_nil, List.prefix_nil]
    split
    · rename_i hD
      simpa using List.isEmpty_iff.mp hD
    · rename_i hD
      simpa using fun h => hD (List.isEmpty_iff.mpr h)
  | c :: cs => by
    rw [firstMatch?]
    split
    · rename_i hpre
      simpa using ⟨0, List.isPrefixOf_iff_prefix.mp hpre⟩
    · rename_i hpre
      rw [Option.map_eq_none_iff, firstMatch?_eq_none_iff]
      constructor
      · intro h j
        cases j with
        | zero => exact fun h' => hpre (List.isPrefixOf_iff_prefix.mpr h')
        | succ j => simpa using h j
      · intro h j
        simpa using h (j + 1)

/-- An occurrence that ends within a front of a text is an occurrence in that front. -/
theorem prefix_drop_of_append {x r : List Char} {j : Nat} (h : D <+: (x ++ r).drop j)
    (hj : j + D.length ≤ x.length) : D <+: x.drop j := by
  rw [List.drop_append_of_le_length (by omega)] at h
  exact List.prefix_of_prefix_length_le h (List.prefix_append _ _) (by simp; omega)

end FirstMatch

/-! ## Groups -/

/-- `g` is a group under `p` for the delimiter `d`: the prefix, a text in which the delimiter
does not begin before its end, and the delimiter. -/
def IsGroup (p d g : String) : Prop :=
  ∃ w, g.toList = p.toList ++ w ++ d.toList ∧ ∀ j < w.length, ¬ d.toList <+: (w ++ d.toList).drop j

/-- **The group of a key under a delimiter is the group it begins with.** -/
theorem group?_some_eq_some_iff {p d k g : String} (hk : k.startsWith p) :
    group? p (some d) k = some g ↔ IsGroup p d g ∧ k.startsWith g := by
  rw [String.startsWith_string_iff] at hk
  obtain ⟨rest, hrest⟩ := hk
  have hdrop : k.toList.drop p.length = rest := by
    rw [← hrest, ← String.length_toList, List.drop_left]
  simp only [group?, Option.bind_some, hdrop, Option.map_eq_some_iff, firstMatch?_eq_some_iff]
  constructor
  · rintro ⟨i, ⟨⟨r, hr⟩, hno⟩, rfl⟩
    -- the delimiter begins the rest at `i`, so `i` is within it
    have hi : i ≤ rest.length := by
      by_contra hlt
      have hnil : rest.drop i = [] := List.drop_eq_nil_of_le (by omega)
      rw [hnil, List.append_eq_nil_iff] at hr
      exact hno 0 (by omega) (by rw [hr.1]; exact List.nil_prefix)
    obtain ⟨w, rfl, hsplit⟩ : ∃ w, w.length = i ∧ rest = w ++ d.toList ++ r :=
      ⟨rest.take i, List.length_take_of_le hi, by rw [List.append_assoc, hr, List.take_append_drop]⟩
    subst hsplit
    have htake : (w ++ d.toList ++ r).take (w.length + d.length) = w ++ d.toList :=
      List.take_left' (by simp [String.length_toList])
    refine ⟨⟨w, by rw [String.toList_ofList, htake, List.append_assoc], fun j hj hat => ?_⟩, ?_⟩
    · refine hno j hj ?_
      rw [List.drop_append_of_le_length (by simp; omega)]
      exact hat.trans (List.prefix_append _ _)
    · rw [String.startsWith_string_iff, String.toList_ofList, htake, ← hrest]
      exact ⟨r, by simp⟩
  · rintro ⟨⟨w, hg, hno⟩, hkg⟩
    rw [String.startsWith_string_iff, hg, ← hrest] at hkg
    obtain ⟨r, hr⟩ := hkg
    have hrest' : rest = w ++ d.toList ++ r := by simpa using hr.symm
    refine ⟨w.length, ⟨?_, fun j hj hat => ?_⟩, ?_⟩
    · rw [hrest', List.append_assoc, List.drop_left]
      exact List.prefix_append _ _
    · rw [hrest'] at hat
      exact hno j hj (prefix_drop_of_append hat (by simp; omega))
    · rw [← String.toList_inj, String.toList_ofList, hg, hrest',
        List.take_left' (by simp [String.length_toList]), List.append_assoc]

namespace IsGroup

variable {p d g g' : String}

theorem startsWith (h : IsGroup p d g) : g.startsWith p := by
  obtain ⟨w, hg, -⟩ := h
  rw [String.startsWith_string_iff, hg, List.append_assoc]
  exact List.prefix_append _ _

theorem endsWith (h : IsGroup p d g) : g.endsWith d = true := by
  obtain ⟨w, hg, -⟩ := h
  rw [String.endsWith_eq_endsWith_toSlice, String.Slice.endsWith_string_iff]
  exact ⟨p.toList ++ w, by simp [hg]⟩

/-- **No group begins another.** -/
theorem eq_of_startsWith (h : IsGroup p d g) (h' : IsGroup p d g') (hpre : g'.startsWith g) :
    g = g' := by
  obtain ⟨w, hg, -⟩ := h
  obtain ⟨w', hg', hno'⟩ := h'
  rw [String.startsWith_string_iff, hg, hg', List.append_assoc, List.append_assoc,
    List.prefix_append_right_inj] at hpre
  have hle : w.length ≤ w'.length := by
    have := hpre.length_le
    simp only [List.length_append] at this
    omega
  -- a shorter `w` would make the delimiter begin inside `w'`
  have heq : w.length = w'.length := by
    refine le_antisymm hle (not_lt.mp fun hlt => hno' w.length hlt ?_)
    obtain ⟨t, ht⟩ := hpre
    rw [← ht, List.append_assoc, List.drop_left]
    exact List.prefix_append _ _
  have hw : w ++ d.toList = w' ++ d.toList := hpre.eq_of_length (by simp [heq])
  rw [← String.toList_inj, hg, hg', List.append_assoc, hw, List.append_assoc]

end IsGroup

/-! ## Groups and the order of keys -/

section Order

variable {p d k k' g g' t : String}

/-- A key that rolls up into nothing begins with no group. -/
theorem not_startsWith_of_plain (hk : k.startsWith p) (hplain : group? p (some d) k = none)
    (hg : IsGroup p d g) : ¬ k.startsWith g := fun hkg => by
  rw [(group?_some_eq_some_iff hk).mpr ⟨hg, hkg⟩] at hplain
  cases hplain

/-- **Groups follow the order of keys.** -/
theorem groupOf_le_of_le (hk : k.startsWith p) (hk' : k'.startsWith p)
    (hg : group? p (some d) k = some g) (hg' : group? p (some d) k' = some g') (hle : k ≤ k') :
    g ≤ g' := by
  obtain ⟨hgroup, hkg⟩ := (group?_some_eq_some_iff hk).mp hg
  obtain ⟨hgroup', hkg'⟩ := (group?_some_eq_some_iff hk').mp hg'
  by_contra hlt
  -- `g` would lie between `g'` and `k'`, so it would begin with `g'`
  have hin : g.startsWith g' :=
    startsWith_of_le_of_le hkg' (le_of_lt (not_le.mp hlt)) ((le_of_startsWith hkg).trans hle)
  exact hlt (hgroup'.eq_of_startsWith hgroup hin).ge

/-- A key that rolls up into nothing sorts before the group of every key after it. -/
theorem lt_groupOf_of_plain (hk : k.startsWith p) (hplain : group? p (some d) k = none)
    (hk' : k'.startsWith p) (hg' : group? p (some d) k' = some g') (hlt : k < k') : k < g' := by
  obtain ⟨hgroup', hkg'⟩ := (group?_some_eq_some_iff hk').mp hg'
  by_contra hle
  exact not_startsWith_of_plain hk hplain hgroup'
    (startsWith_of_le_of_le hkg' (not_lt.mp hle) hlt.le)

/-- After a group token, a key lies outside the group and after it exactly when its own group
sorts after the token. -/
theorem lt_groupOf_iff (ht : IsGroup p d t) (hk : k.startsWith p)
    (hg : group? p (some d) k = some g) : (t < k ∧ ¬ k.startsWith t) ↔ t < g := by
  obtain ⟨hgroup, hkg⟩ := (group?_some_eq_some_iff hk).mp hg
  constructor
  · rintro ⟨htk, hout⟩
    by_contra hle
    have hin : t.startsWith g := startsWith_of_le_of_le hkg (not_lt.mp hle) htk.le
    exact hout (hgroup.eq_of_startsWith ht hin ▸ hkg)
  · intro htg
    refine ⟨lt_of_lt_of_le htg (le_of_startsWith hkg), fun hkt => ?_⟩
    rcases startsWith_or_startsWith hkt hkg with h | h
    · exact (ne_of_lt htg) (ht.eq_of_startsWith hgroup h)
    · exact (ne_of_lt htg) (hgroup.eq_of_startsWith ht h).symm

/-- After a token that is a key rolling up into nothing, a key lies after it exactly when its
group does. -/
theorem lt_groupOf_iff_of_plain (ht : t.startsWith p) (hplain : group? p (some d) t = none)
    (hk : k.startsWith p) (hg : group? p (some d) k = some g) : t < k ↔ t < g := by
  obtain ⟨-, hkg⟩ := (group?_some_eq_some_iff hk).mp hg
  constructor
  · exact lt_groupOf_of_plain ht hplain hk hg
  · intro htg
    exact lt_of_lt_of_le htg (le_of_startsWith hkg)

end Order

end GitServer.BlobStore
