import GitServer.Proofs.Storage.Delimiters

/-!
# Paging through a listing

A listing reports items in order: each key under the prefix that rolls up into nothing, and
each group the others roll up into, once (`stream`). A page holds the first `pageSize` items
after its token and names the last of them as the next token (`listPage_eq`).

Unpaged, the items are sorted by name, and they are the item of each key under the prefix
(`stream_spec`). After a token that names one of them, a listing goes on from the item after
it (`itemsFrom_some`), provided no key the listing reports as a key ends with the delimiter:
a token is taken for a group when it ends with the delimiter, and then the keys that begin
with it are skipped. So following the tokens until a page names none reports what one page
without a bound reports, whatever the page size (`followTokens_eq_unpaged`); and a store
holding the prefix itself as a key, when the prefix ends with the delimiter, loses every group
after a page that ends on that key (`listPage_markerKey`).
-/

namespace GitServer.BlobStore

/-- An item a listing reports: a key, or a common prefix. -/
inductive Item where
  | key (k : String)
  | group (g : String)
deriving DecidableEq, Repr

namespace Item

/-- The text an item reports, which is also the token it gives. -/
def name : Item → String
  | key k => k
  | group g => g

def keyName? : Item → Option String
  | key k => some k
  | group _ => none

def groupName? : Item → Option String
  | key _ => none
  | group g => some g

theorem keyName?_eq_some_iff {i : Item} {k : String} : i.keyName? = some k ↔ i = .key k := by
  cases i <;> simp [keyName?]

theorem groupName?_eq_some_iff {i : Item} {g : String} : i.groupName? = some g ↔ i = .group g := by
  cases i <;> simp [groupName?]

/-- Items in increasing order of name. -/
def Before (a b : Item) : Prop := a.name < b.name

instance : Std.Irrefl Before := ⟨fun a => lt_irrefl a.name⟩

instance : Std.Antisymm Before := ⟨fun _ _ h h' => absurd (lt_trans h h') (lt_irrefl _)⟩

/-- Each item is a key or a group, so a page of items holds as many keys and groups. -/
theorem length_keys_add_groups : ∀ l : List Item,
    (l.filterMap keyName?).length + (l.filterMap groupName?).length = l.length
  | [] => rfl
  | key _ :: l => by
    simp only [List.filterMap_cons, keyName?, groupName?, List.length_cons]
    rw [← length_keys_add_groups l]
    omega
  | group _ :: l => by
    simp only [List.filterMap_cons, keyName?, groupName?, List.length_cons]
    rw [← length_keys_add_groups l]
    omega

end Item

/-- The item a key is reported as: the group it rolls up into, or itself. -/
def itemOf (p : String) (d : Option String) (k : String) : Item :=
  match group? p d k with
  | some g => .group g
  | none => .key k

/-- The items a listing reports from the keys `ks`, in order, as a page without a bound fills
them: a key whose group was the last item, or that lies inside a token that names a group, is
skipped. -/
def stream (p : String) (d c : Option String) : Option String → List String → List Item
  | _, [] => []
  | last, k :: ks =>
    match group? p d k with
    | some g =>
      if last = some g ∨ insideToken c d k then stream p d c last ks
      else .group g :: stream p d c (some g) ks
    | none => .key k :: stream p d c (some k) ks

section Stream

variable {p : String} {d : Option String}

theorem getLast?_map_name_cons_or (i : Item) (l : List Item) (o : Option String) :
    (((i :: l).getLast?).map Item.name).or o = ((l.getLast?).map Item.name).or (some i.name) := by
  rw [List.getLast?_cons]
  cases l.getLast? <;> rfl

/-- **A page is the front of the items**: filling with `room` places left gives the first
`room` items, and names the last of them when some are left. -/
theorem fill_eq (N : Nat) (c : Option String) :
    ∀ (ks keys ps : List String) (room : Nat) (last : Option String),
      keys.length + ps.length + room = N →
      fill N p d c ks keys ps last =
        ⟨keys.reverse ++ ((stream p d c last ks).take room).filterMap Item.keyName?,
          ps.reverse ++ ((stream p d c last ks).take room).filterMap Item.groupName?,
          if (stream p d c last ks).length ≤ room then none
          else ((((stream p d c last ks).take room).getLast?).map Item.name).or last⟩
  | [], keys, ps, room, last, _ => by simp [fill, stream]
  | k :: ks, keys, ps, room, last, hroom => by
    rw [fill]
    cases hg : group? p d k with
    | some g =>
      simp only [stream, hg]
      by_cases hskip : last = some g ∨ insideToken c d k = true
      · rw [if_pos hskip, if_pos hskip, fill_eq N c ks keys ps room last hroom]
      · rw [if_neg hskip, if_neg hskip]
        cases room with
        | zero => rw [if_pos (by omega)]; simp
        | succ r =>
          rw [if_neg (by omega), fill_eq N c ks keys (g :: ps) r (some g) (by simp; omega)]
          simp [getLast?_map_name_cons_or, List.filterMap_cons, Item.keyName?, Item.groupName?,
            Item.name]
    | none =>
      simp only [stream, hg]
      cases room with
      | zero => rw [if_pos (by omega)]; simp
      | succ r =>
        rw [if_neg (by omega), fill_eq N c ks (k :: keys) ps r (some k) (by simp; omega)]
        simp [getLast?_map_name_cons_or, List.filterMap_cons, Item.keyName?, Item.groupName?,
          Item.name]

/-- Skipping the keys inside a token is leaving them out, before the listing, when they roll
up into a group. -/
theorem stream_token (c : Option String) : ∀ (last : Option String) (ks : List String),
    stream p d c last ks =
      stream p d none last (ks.filter fun k => (group? p d k).isNone || !insideToken c d k)
  | _, [] => rfl
  | last, k :: ks => by
    have hnone : insideToken none d k = false := rfl
    cases hg : group? p d k with
    | some g =>
      by_cases hin : insideToken c d k = true
      · rw [List.filter_cons_of_neg (by simp [hg, hin])]
        simp only [stream, hg, hin, or_true, if_true]
        exact stream_token c last ks
      · rw [List.filter_cons_of_pos (by simp [hg, hin])]
        simp only [stream, hg, hin, hnone, Bool.false_eq_true, or_false]
        split_ifs
        · exact stream_token c last ks
        · rw [stream_token c (some g) ks]
    | none =>
      rw [List.filter_cons_of_pos (by simp [hg])]
      simp only [stream, hg]
      rw [stream_token c (some k) ks]

theorem length_stream_le (c : Option String) : ∀ (last : Option String) (ks : List String),
    (stream p d c last ks).length ≤ ks.length
  | _, [] => le_refl _
  | last, k :: ks => by
    simp only [stream]
    split
    · split
      · exact (length_stream_le c last ks).trans (Nat.le_succ _)
      · exact Nat.succ_le_succ (length_stream_le c _ ks)
    · exact Nat.succ_le_succ (length_stream_le c _ ks)

/-- Along the keys, the names of their items never decrease, and two keys share the name of
their items only by rolling up into one group. -/
def ItemsMono (p : String) (d : Option String) (ks : List String) : Prop :=
  ks.Pairwise fun k k' => (itemOf p d k).name ≤ (itemOf p d k').name ∧
    ((itemOf p d k).name = (itemOf p d k').name →
      ∃ g, itemOf p d k = .group g ∧ itemOf p d k' = .group g)

/-- Sorted keys under the prefix report their items in order. -/
theorem itemsMono_of_sorted {ks : List String} (hks : ks.Pairwise (· < ·))
    (hp : ∀ k ∈ ks, k.startsWith p) : ItemsMono p d ks := by
  refine hks.imp_of_mem fun {k k'} hk hk' hlt => ?_
  cases d with
  | none => exact ⟨hlt.le, fun h => absurd h (ne_of_lt hlt)⟩
  | some d =>
    have hpk := hp k hk
    have hpk' := hp k' hk'
    simp only [itemOf]
    cases hg : group? p (some d) k with
    | none =>
      cases hg' : group? p (some d) k' with
      | none => exact ⟨hlt.le, fun h => absurd h (ne_of_lt hlt)⟩
      | some g' =>
        have := lt_groupOf_of_plain hpk hg hpk' hg' hlt
        exact ⟨this.le, fun h => absurd h (ne_of_lt this)⟩
    | some g =>
      have hgk : g ≤ k := le_of_startsWith ((group?_some_eq_some_iff hpk).mp hg).2
      cases hg' : group? p (some d) k' with
      | none =>
        have := lt_of_le_of_lt hgk hlt
        exact ⟨this.le, fun h => absurd h (ne_of_lt this)⟩
      | some g' =>
        refine ⟨groupOf_le_of_le hpk hpk' hg hg' hlt.le, fun h => ⟨g, rfl, ?_⟩⟩
        simp only [Item.name] at h
        rw [h]

/-- Without a token, a listing reports the item of each key, but for a group it has just
reported. -/
theorem stream_cons_none (last : Option String) (k : String) (ks : List String) :
    stream p d none last (k :: ks) =
      if last.isSome ∧ (itemOf p d k).groupName? = last then stream p d none last ks
      else itemOf p d k :: stream p d none (some (itemOf p d k).name) ks := by
  have hinside : insideToken none d k = false := rfl
  cases hg : group? p d k with
  | some g =>
    have hk : itemOf p d k = .group g := by simp [itemOf, hg]
    simp only [stream, hg, hinside, Bool.false_eq_true, or_false, hk, Item.groupName?, Item.name]
    by_cases hl : last = some g
    · simp [hl]
    · rw [if_neg hl, if_neg fun h => hl h.2.symm]
  | none =>
    have hk : itemOf p d k = .key k := by simp [itemOf, hg]
    simp only [stream, hg, hk, Item.groupName?, Item.name]
    rw [if_neg fun h => by rw [← h.2] at h; exact Bool.false_ne_true h.1]

/-- **What a listing without a bound reports**: the item of each key once, sorted by name,
but for a group named `last`. The last name sorts at or before every item to come, and
equals one only when that one is a group. -/
theorem stream_spec {ks : List String} (hmono : ItemsMono p d ks) :
    ∀ last : Option String,
      (∀ l, last = some l → ∀ k ∈ ks, l ≤ (itemOf p d k).name ∧
        (l = (itemOf p d k).name → ∃ g, itemOf p d k = .group g)) →
      (stream p d none last ks).Pairwise Item.Before ∧
        ∀ i, i ∈ stream p d none last ks ↔ (∃ k ∈ ks, itemOf p d k = i) ∧ last ≠ some i.name := by
  induction ks with
  | nil => simp [stream]
  | cons k ks ih =>
    intro last hlast
    have hm := List.pairwise_cons.mp hmono
    have hlast' : ∀ l, last = some l → ∀ k' ∈ ks, l ≤ (itemOf p d k').name ∧
        (l = (itemOf p d k').name → ∃ g, itemOf p d k' = .group g) :=
      fun l hl k' hk' => hlast l hl k' (List.mem_cons_of_mem _ hk')
    -- the item of `k` comes first: every later item sorts after it or is the same group
    have hnext : ∀ k' ∈ ks, (itemOf p d k).name ≤ (itemOf p d k').name ∧
        ((itemOf p d k).name = (itemOf p d k').name → ∃ g, itemOf p d k' = .group g) := by
      intro k' hk'
      obtain ⟨hle, heq⟩ := hm.1 k' hk'
      exact ⟨hle, fun h => (heq h).imp fun _ hg => hg.2⟩
    rw [stream_cons_none]
    split_ifs with hskip
    · -- the key's group was the last item: the key adds nothing
      obtain ⟨hsome, hgl⟩ := hskip
      obtain ⟨g, hl⟩ := Option.isSome_iff_exists.mp hsome
      have hk : itemOf p d k = .group g := Item.groupName?_eq_some_iff.mp (hgl.trans hl)
      obtain ⟨hpw, hmem⟩ := ih hm.2 last hlast'
      refine ⟨hpw, fun i => ?_⟩
      rw [hmem i, List.exists_mem_cons_iff, hk]
      constructor
      · rintro ⟨hi, hne⟩
        exact ⟨.inr hi, hne⟩
      · rintro ⟨hi | hi, hne⟩
        · subst hi
          exact absurd hl hne
        · exact ⟨hi, hne⟩
    · -- the key's item is reported, and becomes the last
      obtain ⟨hpw, hmem⟩ := ih hm.2 (some (itemOf p d k).name) (by
        rintro l ⟨⟩ k' hk'
        exact hnext k' hk')
      have hlt : ∀ i ∈ stream p d none (some (itemOf p d k).name) ks, (itemOf p d k).name < i.name := by
        intro i hi
        obtain ⟨⟨k', hk', rfl⟩, hne⟩ := (hmem i).mp hi
        exact lt_of_le_of_ne (hnext k' hk').1 fun h => hne (congrArg some h)
      refine ⟨List.pairwise_cons.mpr ⟨hlt, hpw⟩, fun i => ?_⟩
      rw [List.mem_cons, hmem i, List.exists_mem_cons_iff]
      constructor
      · rintro (rfl | ⟨⟨k', hk', rfl⟩, hne⟩)
        · refine ⟨.inl rfl, fun hlk => hskip ?_⟩
          obtain ⟨g, hg⟩ := (hlast _ hlk k List.mem_cons_self).2 rfl
          exact ⟨by rw [hlk]; rfl, by rw [hlk, hg]; rfl⟩
        · refine ⟨.inr ⟨k', hk', rfl⟩, fun hlk => ?_⟩
          -- the last name sorts at or before `k`'s item, which sorts before this one
          have h₁ := (hlast _ hlk k List.mem_cons_self).1
          have h₂ := hlt _ ((hmem _).mpr ⟨⟨k', hk', rfl⟩, hne⟩)
          exact absurd (lt_of_le_of_lt h₁ h₂) (lt_irrefl _)
      · rintro ⟨hi | ⟨k', hk', rfl⟩, hne⟩
        · exact .inl hi.symm
        · by_cases hsame : (itemOf p d k).name = (itemOf p d k').name
          · -- one name: the two keys roll up into one group
            obtain ⟨g, hg, hg'⟩ := (hm.1 k' hk').2 hsame
            exact .inl (by rw [hg, hg'])
          · exact .inr ⟨⟨k', hk', rfl⟩, fun h => hsame (Option.some_injective _ h)⟩

end Stream

/-! ## Pages after a token -/

/-- The items a listing reports after a token: those of the keys it starts from. -/
def itemsFrom (s : BlobStore) (p : String) (d c : Option String) : List Item :=
  stream p d c none (s.candidates p c)

/-- **One page**: the first `pageSize` items after its token, and the name of the last of them
when some are left. -/
theorem listPage_eq (s : BlobStore) (p : String) (d c : Option String) :
    s.listPage p d c =
      ⟨((s.itemsFrom p d c).take s.pageSize).filterMap Item.keyName?,
        ((s.itemsFrom p d c).take s.pageSize).filterMap Item.groupName?,
        if (s.itemsFrom p d c).length ≤ s.pageSize then none
        else (((s.itemsFrom p d c).take s.pageSize).getLast?).map Item.name⟩ := by
  rw [listPage, fill_eq s.pageSize c _ [] [] s.pageSize none (by simp)]
  simp only [itemsFrom, List.reverse_nil, List.nil_append, Option.or_none]
  rfl

section Resume

variable {s : BlobStore} {p : String} {d : Option String}

theorem itemsFrom_none_spec (hs : s.Sorted) :
    (s.itemsFrom p d none).Pairwise Item.Before ∧
      ∀ i, i ∈ s.itemsFrom p d none ↔ ∃ k ∈ s.under p, itemOf p d k = i := by
  rw [itemsFrom, candidates_none hs]
  obtain ⟨hpw, hmem⟩ := stream_spec (itemsMono_of_sorted (d := d) (pairwise_under hs)
    fun _ hk => startsWith_of_mem_under hk) none (by simp)
  exact ⟨hpw, fun i => by simpa using hmem i⟩

theorem startsWith_name_itemOf {k : String} (hk : k.startsWith p) :
    (itemOf p d k).name.startsWith p := by
  simp only [itemOf]
  cases d with
  | none => exact hk
  | some d =>
    cases hg : group? p (some d) k with
    | none => exact hk
    | some g => exact ((group?_some_eq_some_iff hk).mp hg).1.startsWith

/-- After a token that names the item of a key under the prefix, a key is left to list, and
not skipped as inside the token, exactly when its item sorts after the token. -/
theorem keep_after_iff (hmark : ∀ k ∈ s.under p, group? p d k = none →
      ∀ d', d = some d' → k.endsWith d' = false)
    {k₀ k : String} (hk₀ : k₀ ∈ s.under p) (hk : k ∈ s.under p) :
    (((group? p d k).isNone || !insideToken (some (itemOf p d k₀).name) d k) &&
        decide ((itemOf p d k₀).name < k)) = true ↔
      (itemOf p d k₀).name < (itemOf p d k).name := by
  have hpk := startsWith_of_mem_under hk
  have hpk₀ := startsWith_of_mem_under hk₀
  cases hg : group? p d k with
  | none => simp [itemOf, hg, Item.name]
  | some g =>
    -- a key that rolls up into a group is only reported with a delimiter
    obtain ⟨d, rfl⟩ : ∃ d', d = some d' := by
      cases d with
      | none => cases hg
      | some d' => exact ⟨d', rfl⟩
    have hname : (itemOf p (some d) k).name = g := by simp [itemOf, hg, Item.name]
    rw [hname]
    cases hg₀ : group? p (some d) k₀ with
    | none =>
      -- the token is a key: it does not end with the delimiter, so nothing lies inside it
      have hend := hmark k₀ hk₀ hg₀ d rfl
      have ht : (itemOf p (some d) k₀).name = k₀ := by simp [itemOf, hg₀, Item.name]
      rw [ht, ← lt_groupOf_iff_of_plain hpk₀ hg₀ hpk hg]
      simp [insideToken, hend]
    | some g₀ =>
      -- the token is a group: the keys inside it are its own
      have hgroup₀ := ((group?_some_eq_some_iff hpk₀).mp hg₀).1
      have ht : (itemOf p (some d) k₀).name = g₀ := by simp [itemOf, hg₀, Item.name]
      rw [ht, ← lt_groupOf_iff hgroup₀ hpk hg]
      simp [insideToken, hgroup₀.endsWith, and_comm]

/-- **After a token, a listing goes on from the item after it**, when the token names an item
of the listing and no key reported as a key ends with the delimiter. -/
theorem itemsFrom_some (hs : s.Sorted)
    (hmark : ∀ k ∈ s.under p, group? p d k = none → ∀ d', d = some d' → k.endsWith d' = false)
    {t : String} (ht : ∃ i ∈ s.itemsFrom p d none, i.name = t) :
    s.itemsFrom p d (some t) = (s.itemsFrom p d none).filter fun i => t < i.name := by
  obtain ⟨hpw, hmem⟩ := itemsFrom_none_spec (d := d) hs
  obtain ⟨i₀, hi₀, rfl⟩ := ht
  obtain ⟨k₀, hk₀, rfl⟩ := (hmem i₀).mp hi₀
  have hpt : p ≤ (itemOf p d k₀).name :=
    le_of_startsWith (startsWith_name_itemOf (startsWith_of_mem_under hk₀))
  rw [itemsFrom, candidates_some hs hpt, stream_token, List.filter_filter]
  -- the keys left to list are sorted and under the prefix, so their listing is determined
  have hsub : ((s.under p).filter fun k =>
      ((group? p d k).isNone || !insideToken (some (itemOf p d k₀).name) d k) &&
        decide ((itemOf p d k₀).name < k)).Sublist (s.under p) := List.filter_sublist
  obtain ⟨hpw', hmem'⟩ := stream_spec (itemsMono_of_sorted (d := d)
    ((pairwise_under hs).sublist hsub) fun k hk => startsWith_of_mem_under (hsub.subset hk))
    none (by simp)
  refine List.Pairwise.eq_of_mem_iff (r := Item.Before) hpw' (hpw.filter _) fun i => ?_
  rw [hmem' i, List.mem_filter, hmem i]
  constructor
  · rintro ⟨⟨k, hk, rfl⟩, -⟩
    obtain ⟨hk, hkeep⟩ := List.mem_filter.mp hk
    exact ⟨⟨k, hk, rfl⟩, decide_eq_true ((keep_after_iff hmark hk₀ hk).mp hkeep)⟩
  · rintro ⟨⟨k, hk, rfl⟩, hlt⟩
    refine ⟨⟨k, List.mem_filter.mpr ⟨hk, ?_⟩, rfl⟩, by simp⟩
    exact (keep_after_iff hmark hk₀ hk).mpr (of_decide_eq_true hlt)

/-- On items sorted by name, those after the last of the first `n` are the ones after the
first `n`. -/
theorem filter_after_eq_drop {l : List Item} (hl : l.Pairwise Item.Before) {n : Nat} {i : Item}
    (hi : (l.take n).getLast? = some i) : l.filter (fun x => i.name < x.name) = l.drop n := by
  have hsplit := List.take_append_drop n l
  have hpw : (l.take n ++ l.drop n).Pairwise Item.Before := by rw [hsplit]; exact hl
  obtain ⟨init, hinit⟩ := List.getLast?_eq_some_iff.mp hi
  have hin : i ∈ l.take n := by rw [hinit]; simp
  conv_lhs => rw [← hsplit]
  rw [List.filter_append, List.filter_eq_nil_iff.mpr, List.nil_append, List.filter_eq_self.mpr]
  · intro x hx
    exact decide_eq_true ((List.pairwise_append.mp hpw).2.2 i hin x hx)
  · intro x hx
    have hpw' : (init ++ [i]).Pairwise Item.Before := by
      rw [← hinit]
      exact (List.pairwise_append.mp hpw).1
    rw [hinit, List.mem_append, List.mem_singleton] at hx
    rcases hx with hx | rfl
    · have hxi : x.name < i.name := (List.pairwise_append.mp hpw').2.2 x hx i (by simp)
      exact fun h => absurd (of_decide_eq_true h) (not_lt.mpr hxi.le)
    · exact fun h => absurd (of_decide_eq_true h) (lt_irrefl _)

end Resume

/-! ## What the unpaged listing reports -/

namespace Item

/-- Names in increasing order stay so among the keys, and among the groups. -/
theorem pairwise_filterMap {l : List Item} (hl : l.Pairwise Before) {f : Item → Option String}
    (hf : ∀ i x, f i = some x → i.name = x) : (l.filterMap f).Pairwise (· < ·) :=
  hl.filterMap f fun a a' h x hx x' hx' => hf a x hx ▸ hf a' x' hx' ▸ h

end Item

theorem itemOf_eq_key_iff {p : String} {d : Option String} {k k' : String} :
    itemOf p d k = .key k' ↔ group? p d k = none ∧ k = k' := by
  simp only [itemOf]
  cases group? p d k <;> simp

theorem itemOf_eq_group_iff {p : String} {d : Option String} {k g : String} :
    itemOf p d k = .group g ↔ group? p d k = some g := by
  simp only [itemOf]
  cases group? p d k <;> simp

section Unpaged

variable {s : BlobStore} {p : String} {d : Option String}

/-- **Unpaged, the keys reported are the keys under the prefix that roll up into nothing.** -/
theorem keys_itemsFrom_none (hs : s.Sorted) :
    (s.itemsFrom p d none).filterMap Item.keyName? =
      (s.under p).filter fun k => (group? p d k).isNone := by
  obtain ⟨hpw, hmem⟩ := itemsFrom_none_spec (d := d) hs
  refine List.Pairwise.eq_of_mem_iff
    (Item.pairwise_filterMap hpw fun i x h => by rw [Item.keyName?_eq_some_iff.mp h]; rfl)
    ((pairwise_under hs).filter _) fun k => ?_
  simp only [List.mem_filterMap, Item.keyName?_eq_some_iff, exists_eq_right, hmem,
    itemOf_eq_key_iff, List.mem_filter, Option.isNone_iff_eq_none]
  constructor
  · rintro ⟨k', hk', hnone, rfl⟩
    exact ⟨hk', hnone⟩
  · rintro ⟨hk, hnone⟩
    exact ⟨k, hk, hnone, rfl⟩

/-- **Unpaged, the common prefixes reported** are the groups of the keys under the prefix, each
once, in increasing order. -/
theorem groups_itemsFrom_none (hs : s.Sorted) :
    ((s.itemsFrom p d none).filterMap Item.groupName?).Pairwise (· < ·) ∧
      ∀ g, g ∈ (s.itemsFrom p d none).filterMap Item.groupName? ↔
        ∃ k ∈ s.under p, group? p d k = some g := by
  obtain ⟨hpw, hmem⟩ := itemsFrom_none_spec (d := d) hs
  refine ⟨Item.pairwise_filterMap hpw fun i x h => by rw [Item.groupName?_eq_some_iff.mp h]; rfl,
    fun g => ?_⟩
  simp only [List.mem_filterMap, Item.groupName?_eq_some_iff, exists_eq_right, hmem,
    itemOf_eq_group_iff]

/-- A page with room for every key reports all of the listing, and names no token. -/
theorem listPage_unbounded (s : BlobStore) (p : String) (d : Option String) :
    ({ s with pageSize := s.entries.length + 1 } : BlobStore).listPage p d none =
      ⟨(s.itemsFrom p d none).filterMap Item.keyName?,
        (s.itemsFrom p d none).filterMap Item.groupName?, none⟩ := by
  have hlen : (s.itemsFrom p d none).length ≤ s.entries.length + 1 := by
    have h₁ := length_stream_le (p := p) (d := d) none none (s.candidates p none)
    have h₂ := (candidates_sublist (s := s) (p := p) none).length_le
    simp only [keys, List.length_map] at h₂
    exact (h₁.trans h₂).trans (Nat.le_succ _)
  have hitems : ({ s with pageSize := s.entries.length + 1 } : BlobStore).itemsFrom p d none =
      s.itemsFrom p d none := rfl
  rw [listPage_eq, hitems]
  simp only [List.take_of_length_le hlen, if_pos hlen]

end Unpaged

/-! ## Following the tokens -/

/-- Following a listing's tokens from `c` until a page names none gives these pages. -/
inductive FollowsTokens (s : BlobStore) (p : String) (d : Option String) :
    Option String → List ListPage → Prop
  | last {c : Option String} : (s.listPage p d c).next = none →
      FollowsTokens s p d c [s.listPage p d c]
  | next {c : Option String} {t : String} {pages : List ListPage} :
      (s.listPage p d c).next = some t → FollowsTokens s p d (some t) pages →
      FollowsTokens s p d c (s.listPage p d c :: pages)

section Follow

variable {s : BlobStore} {p : String} {d : Option String}

/-- A page names no token exactly when it holds every item left. -/
theorem next_eq_none_iff (hN : 0 < s.pageSize) {c : Option String} :
    (s.listPage p d c).next = none ↔ (s.itemsFrom p d c).length ≤ s.pageSize := by
  rw [listPage_eq]
  dsimp only
  split_ifs with hfit
  · exact iff_of_true rfl hfit
  · refine iff_of_false (fun h => ?_) hfit
    have hne : (s.itemsFrom p d c).take s.pageSize ≠ [] :=
      List.ne_nil_of_length_pos (by rw [List.length_take]; omega)
    rw [List.getLast?_eq_some_getLast hne] at h
    cases h

/-- A page that names a token leaves items after it, and the token names its last item. -/
theorem next_eq_some {c : Option String} {t : String} (h : (s.listPage p d c).next = some t) :
    s.pageSize < (s.itemsFrom p d c).length ∧
      ∃ i, ((s.itemsFrom p d c).take s.pageSize).getLast? = some i ∧ i.name = t := by
  rw [listPage_eq] at h
  dsimp only at h
  split_ifs at h with hfit
  obtain ⟨i, hi, rfl⟩ := Option.map_eq_some_iff.mp h
  exact ⟨not_le.mp hfit, i, hi, rfl⟩

/-- **One step of following**: after a page of a listing that resumes the unpaged one, the
next page resumes it `pageSize` items further on. -/
theorem itemsFrom_next (hs : s.Sorted)
    (hmark : ∀ k ∈ s.under p, group? p d k = none → ∀ d', d = some d' → k.endsWith d' = false)
    {c : Option String} {n : Nat} (hc : s.itemsFrom p d c = (s.itemsFrom p d none).drop n)
    {t : String} (ht : (s.listPage p d c).next = some t) :
    s.itemsFrom p d (some t) = (s.itemsFrom p d none).drop (n + s.pageSize) := by
  obtain ⟨-, i, hi, rfl⟩ := next_eq_some ht
  set S := s.itemsFrom p d none
  have hin : i ∈ S := by
    have := List.take_subset _ _ (List.mem_of_getLast? hi)
    rw [hc] at this
    exact List.drop_subset _ _ this
  -- the token is the last of the first `n + pageSize` items
  have hlast : (S.take (n + s.pageSize)).getLast? = some i := by
    rw [List.take_add, List.getLast?_append, ← hc, hi]
    rfl
  rw [itemsFrom_some hs hmark ⟨i, hin, rfl⟩,
    filter_after_eq_drop (itemsFrom_none_spec hs).1 hlast]

/-- **What the pages report**: following the tokens from a listing that resumes the unpaged
one, every page holds at most `pageSize` items, and together they report its items. -/
theorem FollowsTokens.reports (hs : s.Sorted) (hN : 0 < s.pageSize)
    (hmark : ∀ k ∈ s.under p, group? p d k = none → ∀ d', d = some d' → k.endsWith d' = false)
    {c : Option String} {pages : List ListPage} (hf : FollowsTokens s p d c pages) :
    ∀ n, s.itemsFrom p d c = (s.itemsFrom p d none).drop n →
      (∀ pg ∈ pages, pg.keys.length + pg.commonPrefixes.length ≤ s.pageSize) ∧
      pages.flatMap ListPage.keys = (s.itemsFrom p d c).filterMap Item.keyName? ∧
      pages.flatMap ListPage.commonPrefixes = (s.itemsFrom p d c).filterMap Item.groupName? := by
  -- each page holds the first `pageSize` items left
  have hpage : ∀ c, (s.listPage p d c).keys.length + (s.listPage p d c).commonPrefixes.length ≤
      s.pageSize := by
    intro c
    rw [listPage_eq]
    exact (Item.length_keys_add_groups _).trans_le (List.length_take_le _ _)
  induction hf with
  | @last c hnext =>
    intro n _
    have hfit := (next_eq_none_iff hN).mp hnext
    refine ⟨fun pg hpg => ?_, ?_, ?_⟩
    · rw [List.mem_singleton.mp hpg]
      exact hpage c
    · rw [List.flatMap_singleton, listPage_eq, List.take_of_length_le hfit]
    · rw [List.flatMap_singleton, listPage_eq, List.take_of_length_le hfit]
  | @next c t pages hnext _ ih =>
    intro n hc
    obtain ⟨hb, hk, hg⟩ := ih (n + s.pageSize) (itemsFrom_next hs hmark hc hnext)
    rw [itemsFrom_next hs hmark hc hnext, ← List.drop_drop, ← hc] at hk hg
    refine ⟨?_, ?_, ?_⟩
    · intro pg hpg
      rcases List.mem_cons.mp hpg with rfl | hpg
      · exact hpage c
      · exact hb pg hpg
    · rw [List.flatMap_cons, hk, listPage_eq]
      rw [← List.filterMap_append, List.take_append_drop]
    · rw [List.flatMap_cons, hg, listPage_eq]
      rw [← List.filterMap_append, List.take_append_drop]

/-- **Following the tokens ends**: a page that names a token leaves fewer items. -/
theorem exists_followsTokens (hs : s.Sorted) (hN : 0 < s.pageSize)
    (hmark : ∀ k ∈ s.under p, group? p d k = none → ∀ d', d = some d' → k.endsWith d' = false) :
    ∀ (m : Nat) (c : Option String) (n : Nat), (s.itemsFrom p d c).length ≤ m →
      s.itemsFrom p d c = (s.itemsFrom p d none).drop n → ∃ pages, FollowsTokens s p d c pages
  | m, c, n, hlen, hc => by
    cases hnext : (s.listPage p d c).next with
    | none => exact ⟨_, .last hnext⟩
    | some t =>
      have hmore := (next_eq_some hnext).1
      -- the items left after the page are the ones it did not hold
      have hc' := itemsFrom_next hs hmark hc hnext
      have hshorter : (s.itemsFrom p d (some t)).length = (s.itemsFrom p d c).length - s.pageSize := by
        rw [hc', ← List.drop_drop, ← hc, List.length_drop]
      cases m with
      | zero => omega
      | succ m =>
        obtain ⟨pages, hpages⟩ :=
          exists_followsTokens hs hN hmark m (some t) (n + s.pageSize) (by omega) hc'
        exact ⟨_, .next hnext hpages⟩

end Follow

/-- A listing in one page with room for every key. -/
def unpaged (s : BlobStore) (p : String) (d : Option String) : ListPage :=
  ({ s with pageSize := s.entries.length + 1 } : BlobStore).listPage p d none

/-- **Paging does not change a listing.** On a sorted store with pages of at least one item,
following the tokens from the first page ends; every page holds at most `pageSize` items; and
the pages together report what one page with room for every key reports: each key under the
prefix that rolls up into nothing, once, in order, and each group of the others, once, in
increasing order. This needs that no key the listing reports as a key ends with the
delimiter. Without a delimiter, listing every key gives each key under the prefix once, in
order. -/
theorem followTokens_eq_unpaged {s : BlobStore} {p : String} {d : Option String}
    (hs : s.Sorted) (hN : 0 < s.pageSize)
    (hmark : ∀ k ∈ s.under p, group? p d k = none → ∀ d', d = some d' → k.endsWith d' = false) :
    (∃ pages, FollowsTokens s p d none pages) ∧
      (∀ pages, FollowsTokens s p d none pages →
        (∀ pg ∈ pages, pg.keys.length + pg.commonPrefixes.length ≤ s.pageSize) ∧
          pages.flatMap ListPage.keys = (s.unpaged p d).keys ∧
          pages.flatMap ListPage.commonPrefixes = (s.unpaged p d).commonPrefixes) ∧
      (s.unpaged p d).next = none ∧
      (s.unpaged p d).keys = (s.under p).filter (fun k => (group? p d k).isNone) ∧
      (s.unpaged p d).commonPrefixes.Pairwise (· < ·) ∧
      (∀ g, g ∈ (s.unpaged p d).commonPrefixes ↔ ∃ k ∈ s.under p, group? p d k = some g) ∧
      s.listAll p = s.under p ∧ (s.under p).Pairwise (· < ·) := by
  obtain ⟨hpw, hmem⟩ := groups_itemsFrom_none (d := d) hs
  simp only [unpaged, listPage_unbounded]
  refine ⟨exists_followsTokens hs hN hmark _ none 0 le_rfl (by simp), fun pages hf => ?_, trivial,
    keys_itemsFrom_none hs, hpw, hmem, listAll_eq hs hN, pairwise_under hs⟩
  exact hf.reports hs hN hmark 0 (by simp)

/-- Paging holds for the listing of `repositories/` by `/`, one item a page, over nested
repositories and a plain key. -/
theorem followTokens_eq_unpaged_repositories :
    let s := (((((empty 1).put "repositories/a.git/HEAD" [] []).put "repositories/a.git/config" [] []
      ).put "repositories/b.git/HEAD" [] []).put "repositories/team/c.git/HEAD" [] []).put
      "repositories/top" [] []
    s.Sorted ∧ 0 < s.pageSize ∧
      (∀ k ∈ s.under "repositories/", group? "repositories/" (some "/") k = none →
        ∀ d', some "/" = some d' → k.endsWith d' = false) ∧
      ((∃ pages, FollowsTokens s "repositories/" (some "/") none pages) ∧
        (∀ pages, FollowsTokens s "repositories/" (some "/") none pages →
          (∀ pg ∈ pages, pg.keys.length + pg.commonPrefixes.length ≤ s.pageSize) ∧
            pages.flatMap ListPage.keys = (s.unpaged "repositories/" (some "/")).keys ∧
            pages.flatMap ListPage.commonPrefixes =
              (s.unpaged "repositories/" (some "/")).commonPrefixes) ∧
        (s.unpaged "repositories/" (some "/")).next = none ∧
        (s.unpaged "repositories/" (some "/")).keys =
          (s.under "repositories/").filter (fun k => (group? "repositories/" (some "/") k).isNone) ∧
        (s.unpaged "repositories/" (some "/")).commonPrefixes.Pairwise (· < ·) ∧
        (∀ g, g ∈ (s.unpaged "repositories/" (some "/")).commonPrefixes ↔
          ∃ k ∈ s.under "repositories/", group? "repositories/" (some "/") k = some g) ∧
        s.listAll "repositories/" = s.under "repositories/" ∧
        (s.under "repositories/").Pairwise (· < ·)) := by
  intro s
  have hs : s.Sorted :=
    ((((sorted_empty 1).put _ _ _).put _ _ _).put _ _ _).put _ _ _ |>.put _ _ _
  have hN : 0 < s.pageSize := by decide
  have hmark : ∀ k ∈ s.under "repositories/", group? "repositories/" (some "/") k = none →
      ∀ d', some "/" = some d' → k.endsWith d' = false := by
    rintro k hk hplain d' ⟨⟩
    revert k hk hplain
    decide +kernel
  exact ⟨hs, hN, hmark, followTokens_eq_unpaged hs hN hmark⟩

/-- **A key that ends with the delimiter, read back as a token, hides the groups after it.**
Listing `p/` by `/` one item a page, where `p/` is itself a key: the first page reports the
key `p/` and names it as the token; the next page takes the token for a group, skips `p/a/x`
as lying inside it, and reports nothing. The group `p/a/` is never reported. -/
theorem listPage_markerKey :
    let s := ((empty 1).put "p/" [] []).put "p/a/x" [] []
    FollowsTokens s "p/" (some "/") none [⟨["p/"], [], some "p/"⟩, ⟨[], [], none⟩] ∧
      "p/a/x" ∈ s.under "p/" ∧ group? "p/" (some "/") "p/a/x" = some "p/a/" := by
  intro s
  have h₁ : s.listPage "p/" (some "/") none = ⟨["p/"], [], some "p/"⟩ := by decide +kernel
  have h₂ : s.listPage "p/" (some "/") (some "p/") = ⟨[], [], none⟩ := by decide +kernel
  refine ⟨?_, by decide +kernel, by decide +kernel⟩
  rw [← h₁, ← h₂]
  exact .next (by rw [h₁]) (.last (by rw [h₂]))

end GitServer.BlobStore
