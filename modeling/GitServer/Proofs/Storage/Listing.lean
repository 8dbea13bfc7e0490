import GitServer.Storage.Remote
import Mathlib

/-!
# Listing a blob store

A blob store keeps its keys in increasing order (`Sorted`), and every write keeps them so. On
sorted keys, the keys that carry a prefix stand together: a key at or after the prefix that
does not carry it sorts after every key that does (`startsWith_of_le_of_le`). A listing
starts at the first key at or after the prefix, or after a continuation token, and stops at
the first key without the prefix; so it sees exactly the keys under the prefix that sort
after the token (`candidates_none`, `candidates_some`).

A page holds at most `pageSize` items and names the last of them as the next token. Paging
loses and repeats nothing:

* `listAll_eq` — following the tokens gives every key under the prefix, in order;
* `groupsUnder_eq` — under a prefix that only holds subdirectories, following the tokens
  gives each common prefix once, in increasing order (`rollUp`).

Deleting in batches never fails, and removes exactly the keys asked for (`deleteAll_eq`).
-/

namespace GitServer.BlobStore

/-! ## Prefixes and the order of keys -/

section Order

variable {p k y : String}

/-- A text sorts at or after each of its prefixes. -/
theorem le_of_startsWith (h : k.startsWith p) : p ≤ k := by
  rw [String.startsWith_string_iff] at h
  rw [← not_lt, String.lt_iff_toList_lt]
  obtain ⟨t, ht⟩ := h
  rw [← ht]
  exact List.le_append_left

/-- **Texts with a prefix stand together**: a text between the prefix and a text that carries
it carries it too. -/
theorem startsWith_of_le_of_le (hy : y.startsWith p) (hk : p ≤ k) (hky : k ≤ y) :
    k.startsWith p := by
  rw [String.startsWith_string_iff] at hy ⊢
  rw [← not_lt, String.lt_iff_toList_lt] at hk hky
  generalize p.toList = P at *
  generalize k.toList = K at *
  generalize y.toList = Y at *
  -- down the prefix, one character at a time: the three texts agree on each
  induction P generalizing K Y with
  | nil => exact List.nil_prefix
  | cons c P ih =>
    obtain ⟨t, rfl⟩ := hy
    cases K with
    | nil => exact absurd List.Lex.nil hk
    | cons d K =>
      have hk' : ¬ (d < c ∨ d = c ∧ List.Lex (· < ·) K P) :=
        fun h => hk (List.cons_lex_cons_iff.mpr h)
      have hky' : ¬ (c < d ∨ c = d ∧ List.Lex (· < ·) (P ++ t) K) :=
        fun h => hky (List.cons_lex_cons_iff.mpr h)
      have hcd : c = d := by
        rcases lt_trichotomy c d with h | h | h
        · exact absurd (.inl h) hky'
        · exact h
        · exact absurd (.inl h) hk'
      subst hcd
      exact List.cons_prefix_cons.mpr ⟨rfl, ih K (fun h => hk' (.inr ⟨rfl, h⟩)) (P ++ t) ⟨t, rfl⟩
        (fun h => hky' (.inr ⟨rfl, h⟩))⟩

end Order

/-! ## Sorted keys -/

/-- The keys stand in increasing order. -/
def Sorted (s : BlobStore) : Prop := s.keys.Pairwise (· < ·)

theorem sorted_empty (pageSize : Nat) : (empty pageSize).Sorted := List.Pairwise.nil

theorem mem_keys_insertSorted {key x : String} {b : StoredBlob} :
    ∀ {l : List (String × StoredBlob)}, x ∈ (insertSorted key b l).map (·.1) →
      x = key ∨ x ∈ l.map (·.1)
  | [], h => by simpa [insertSorted] using h
  | (k, v) :: rest, h => by
    rw [insertSorted] at h
    split_ifs at h with hlt heq
    · simpa using h
    · subst heq
      simp only [List.map_cons, List.mem_cons] at h
      rcases h with h | h
      · exact .inl h
      · exact .inr (List.mem_cons_of_mem _ h)
    · simp only [List.map_cons, List.mem_cons] at h
      rcases h with h | h
      · exact .inr (h ▸ List.mem_cons_self)
      · rcases mem_keys_insertSorted h with h | h
        · exact .inl h
        · exact .inr (List.mem_cons_of_mem _ h)

theorem pairwise_insertSorted (key : String) (b : StoredBlob) :
    ∀ {l : List (String × StoredBlob)}, (l.map (·.1)).Pairwise (· < ·) →
      ((insertSorted key b l).map (·.1)).Pairwise (· < ·)
  | [], _ => by simp [insertSorted]
  | (k, v) :: rest, h => by
    rw [List.map_cons, List.pairwise_cons] at h
    rw [insertSorted]
    split_ifs with hlt heq
    · -- the new key goes first: it sorts before `k`, hence before the rest
      simp only [List.map_cons, List.pairwise_cons, List.mem_cons]
      refine ⟨?_, h.1, h.2⟩
      rintro x (rfl | hx)
      · exact hlt
      · exact lt_trans hlt (h.1 x hx)
    · subst heq
      simpa using h
    · -- `k` stays first: it sorts before the new key and before the rest
      have hk : k < key := lt_of_le_of_ne (not_lt.mp hlt) (Ne.symm heq)
      rw [List.map_cons, List.pairwise_cons]
      refine ⟨fun x hx => ?_, pairwise_insertSorted key b h.2⟩
      rcases mem_keys_insertSorted hx with rfl | hx
      · exact hk
      · exact h.1 x hx

theorem Sorted.put {s : BlobStore} (hs : s.Sorted) (key : String) (data : Bytes)
    (metadata : List (String × String)) : (s.put key data metadata).Sorted :=
  pairwise_insertSorted key _ hs

/-- Keeping some entries keeps the keys sorted. -/
theorem Sorted.filter {s : BlobStore} (hs : s.Sorted) (f : String × StoredBlob → Bool) :
    ({ s with entries := s.entries.filter f } : BlobStore).Sorted :=
  hs.sublist ((List.filter_sublist).map _)

theorem Sorted.delete {s : BlobStore} (hs : s.Sorted) (key : String) : (s.delete key).Sorted :=
  hs.filter _

/-! ## Deleting in batches -/

theorem flatten_batches (n : Nat) (xs : List String) : (batches n xs).flatten = xs := by
  fun_induction batches n xs with
  | case1 xs h => simpa using h
  | case2 xs h ih => rw [List.flatten_cons, ih, List.take_append_drop]

theorem length_le_of_mem_batches {n : Nat} {xs b : List String} (hb : b ∈ batches n xs) :
    b.length ≤ max n 1 := by
  fun_induction batches n xs with
  | case1 xs h => simp at hb
  | case2 xs h ih =>
    rcases List.mem_cons.mp hb with rfl | hb
    · exact List.length_take_le _ _
    · exact ih hb

/-- A batch within the limit removes its keys. -/
theorem deleteMany_of_le {s : BlobStore} {keys : List String} (h : keys.length ≤ deleteBatch) :
    s.deleteMany keys = .ok { s with entries := s.entries.filter fun e => !keys.contains e.1 } := by
  rw [deleteMany, if_neg (Nat.not_lt.mpr h)]

theorem foldlM_deleteMany {bs : List (List String)} (hbs : ∀ b ∈ bs, b.length ≤ deleteBatch)
    (s : BlobStore) :
    bs.foldlM deleteMany s = .ok { s with entries := s.entries.filter fun e => !bs.flatten.contains e.1 } := by
  induction bs generalizing s with
  | nil => simp [pure, Except.pure]
  | cons b bs ih =>
    rw [List.foldlM_cons, deleteMany_of_le (hbs b List.mem_cons_self)]
    simp only [bind, Except.bind]
    rw [ih (fun b' hb' => hbs b' (List.mem_cons_of_mem _ hb')), List.filter_filter]
    simp [Bool.and_comm]

/-- **Deleting in batches never fails** and removes exactly the keys asked for. -/
theorem deleteAll_eq (s : BlobStore) (keys : List String) :
    s.deleteAll keys = .ok { s with entries := s.entries.filter fun e => !keys.contains e.1 } := by
  rw [deleteAll, foldlM_deleteMany (fun b hb => length_le_of_mem_batches hb), flatten_batches]

theorem Sorted.deleteAll {s s' : BlobStore} (hs : s.Sorted) {keys : List String}
    (h : s.deleteAll keys = .ok s') : s'.Sorted := by
  rw [deleteAll_eq] at h
  cases h
  exact hs.filter _

/-! ## The keys a page starts from -/

section PrefixProperty

variable {α : Type} {P : α → Bool} {l : List α}

/-- On a list where `P` is a prefix property, an element that has it is preceded only by
elements that have it: taking while `P` holds is filtering by `P`. -/
theorem takeWhile_eq_filter (hmono : l.Pairwise fun x y => P y = true → P x = true) :
    l.takeWhile P = l.filter P := by
  induction l with
  | nil => rfl
  | cons a l ih =>
    have hm := List.pairwise_cons.mp hmono
    by_cases ha : P a = true
    · rw [List.takeWhile_cons_of_pos ha, List.filter_cons_of_pos ha, ih hm.2]
    · rw [List.takeWhile_cons_of_neg ha, List.filter_cons_of_neg ha, eq_comm,
        List.filter_eq_nil_iff]
      exact fun y hy hPy => ha (hm.1 y hy hPy)

/-- Dropping while a prefix property holds is filtering by its negation. -/
theorem dropWhile_eq_filter (hmono : l.Pairwise fun x y => P y = true → P x = true) :
    l.dropWhile P = l.filter (fun x => !P x) := by
  induction l with
  | nil => rfl
  | cons a l ih =>
    have hm := List.pairwise_cons.mp hmono
    by_cases ha : P a = true
    · rw [List.dropWhile_cons_of_pos ha, ih hm.2, List.filter_cons_of_neg (by simp [ha])]
    · rw [List.dropWhile_cons_of_neg ha, List.filter_cons_of_pos (by simpa using ha),
        List.filter_eq_self.mpr]
      intro y hy
      simpa using fun hPy => ha (hm.1 y hy hPy)

end PrefixProperty

/-- The keys under a prefix, in order. -/
def under (s : BlobStore) (pfx : String) : List String := s.keys.filter (·.startsWith pfx)

variable {s : BlobStore} {p t : String}

/-- A first page sees exactly the keys under the prefix. -/
theorem candidates_none (hs : s.Sorted) : s.candidates p none = s.under p := by
  have hbelow : s.keys.Pairwise fun x y => decide (y < p) = true → decide (x < p) = true :=
    hs.imp fun hxy hy => by simpa using lt_trans hxy (by simpa using hy)
  have hblock : (s.keys.filter fun k => !decide (k < p)).Pairwise
      fun x y => y.startsWith p = true → x.startsWith p = true := by
    rw [List.pairwise_filter]
    refine hs.imp fun hxy hx _ hy => startsWith_of_le_of_le hy ?_ hxy.le
    simpa only [Bool.not_eq_true', decide_eq_false_iff_not, not_lt] using hx
  simp only [candidates]
  rw [dropWhile_eq_filter hbelow, takeWhile_eq_filter hblock, List.filter_filter, under]
  congr 1
  funext k
  by_cases hk : k.startsWith p = true
  · simp [hk, not_lt.mpr (le_of_startsWith hk)]
  · simp [hk]

/-- A later page sees exactly the keys under the prefix after the token, when the token sorts
at or after the prefix. -/
theorem candidates_some (hs : s.Sorted) (ht : p ≤ t) :
    s.candidates p (some t) = (s.under p).filter fun k => t < k := by
  have hbelow : s.keys.Pairwise fun x y => decide (y ≤ t) = true → decide (x ≤ t) = true :=
    hs.imp fun hxy hy => by simpa using le_trans hxy.le (by simpa using hy)
  have hblock : (s.keys.filter fun k => !decide (k ≤ t)).Pairwise
      fun x y => y.startsWith p = true → x.startsWith p = true := by
    rw [List.pairwise_filter]
    refine hs.imp fun hxy hx _ hy => startsWith_of_le_of_le hy ?_ hxy.le
    simp only [Bool.not_eq_true', decide_eq_false_iff_not, not_le] at hx
    exact ht.trans hx.le
  simp only [candidates]
  rw [dropWhile_eq_filter hbelow, takeWhile_eq_filter hblock, List.filter_filter, under,
    List.filter_filter]
  congr 1
  funext k
  simp only [← decide_not, not_le, Bool.and_comm]

/-! ## One page -/

theorem getLast?_cons_or (x : String) (l : List String) (o : Option String) :
    ((x :: l).getLast?).or o = l.getLast?.or (some x) := by
  rw [List.getLast?_cons]
  cases l.getLast? <;> rfl

/-- **A page of keys** holds the first `room` candidates, and names the last of them when some
are left. -/
theorem fill_keys (N : Nat) (c : Option String) :
    ∀ (ks acc : List String) (room : Nat) (last : Option String), acc.length + room = N →
      fill N p none c ks acc [] last =
        ⟨acc.reverse ++ ks.take room, [],
          if ks.length ≤ room then none else ((ks.take room).getLast?).or last⟩
  | [], acc, room, last, _ => by simp [fill]
  | k :: ks, acc, room, last, hroom => by
    have hgroup : group? p none k = none := rfl
    rw [fill, hgroup]
    simp only [List.length_nil, Nat.add_zero]
    cases room with
    | zero => rw [if_pos (by omega)]; simp
    | succ r =>
      rw [if_neg (by omega), fill_keys N c ks (k :: acc) r (some k) (by simp; omega)]
      simp [getLast?_cons_or]

/-! ## Following the tokens -/

/-- On increasing texts, those after the last of the first `n` are the ones after the first
`n`. -/
theorem filter_lt_of_getLast?_take {l : List String} (hl : l.Pairwise (· < ·)) {n : Nat}
    {t : String} (ht : (l.take n).getLast? = some t) : l.filter (fun x => t < x) = l.drop n := by
  induction l generalizing n with
  | nil => simp at ht
  | cons a l ih =>
    have hm := List.pairwise_cons.mp hl
    cases n with
    | zero => simp at ht
    | succ m =>
      rw [List.take_succ_cons, List.getLast?_cons] at ht
      cases hlast : (l.take m).getLast? with
      | none =>
        -- `t` is `a`, the only one taken
        rw [hlast] at ht
        cases ht
        have hnil : m = 0 ∨ l = [] := List.take_eq_nil_iff.mp (List.getLast?_eq_none_iff.mp hlast)
        rw [List.filter_cons_of_neg (by simp), List.filter_eq_self.mpr (fun x hx => by simpa using hm.1 x hx)]
        rcases hnil with rfl | rfl <;> simp
      | some t' =>
        rw [hlast] at ht
        have htt : t' = t := Option.some_injective _ ht
        subst htt
        have hmem : t' ∈ l := List.take_subset m l (List.mem_of_getLast? hlast)
        have hat : ¬ decide (t' < a) = true := by
          simpa only [decide_eq_true_eq, not_lt] using (hm.1 t' hmem).le
        rw [List.filter_cons, if_neg hat, ih hm.2 hlast]
        rfl

theorem startsWith_of_mem_under {x : String} (hx : x ∈ s.under p) : x.startsWith p :=
  (List.mem_filter.mp hx).2

theorem candidates_sublist (c : Option String) : (s.candidates p c).Sublist s.keys := by
  simp only [candidates]
  cases c <;> exact (List.takeWhile_prefix _).sublist.trans (List.dropWhile_suffix _).sublist

theorem startsWith_of_mem_candidates {c : Option String} {x : String}
    (hx : x ∈ s.candidates p c) : x.startsWith p := by
  simp only [candidates] at hx
  exact List.mem_takeWhile_imp (p := fun k : String => k.startsWith p) hx

theorem pairwise_under (hs : s.Sorted) : (s.under p).Pairwise (· < ·) :=
  hs.sublist List.filter_sublist

/-- The keys a page starts from, after a token that is one of them. -/
theorem candidates_of_mem {c : Option String} (hs : s.Sorted) (hc : ∀ t, c = some t → p ≤ t)
    {t' : String} (ht' : t' ∈ s.candidates p c) :
    s.candidates p (some t') = (s.candidates p c).filter fun x => t' < x := by
  cases c with
  | none =>
    rw [candidates_none hs] at ht' ⊢
    exact candidates_some hs (le_of_startsWith (startsWith_of_mem_under ht'))
  | some t =>
    rw [candidates_some hs (hc t rfl)] at ht' ⊢
    have ht't : t < t' := (List.mem_filter.mp ht').2 |> of_decide_eq_true
    rw [candidates_some hs (le_of_startsWith (startsWith_of_mem_under (List.mem_filter.mp ht').1)),
      List.filter_filter]
    congr 1
    funext x
    by_cases hx : t' < x
    · simp [hx, lt_trans ht't hx]
    · simp [hx]

/-- **Every key, page by page**: following the tokens from `c` for more pages than there are
keys left returns each key under the prefix after `c` once, in order. -/
theorem collectPages_eq (hs : s.Sorted) (hN : 0 < s.pageSize) :
    ∀ (fuel : Nat) (c : Option String), (∀ t, c = some t → p ≤ t) →
      (s.candidates p c).length < fuel → s.collectPages p fuel c = s.candidates p c
  | 0, _, _, hlen => absurd hlen (Nat.not_lt_zero _)
  | fuel + 1, c, hc, hlen => by
    set A := s.candidates p c with hA
    have hpage : s.listPage p none c =
        ⟨A.take s.pageSize, [], if A.length ≤ s.pageSize then none else (A.take s.pageSize).getLast?⟩ := by
      rw [listPage, fill_keys s.pageSize c A [] s.pageSize none (by simp)]
      simp
    rw [collectPages]
    simp only [hpage]
    by_cases hfit : A.length ≤ s.pageSize
    · rw [if_pos hfit]
      exact List.take_of_length_le hfit
    · rw [if_neg hfit]
      -- a full page: its last key is the token for the rest
      obtain ⟨t', ht'⟩ : ∃ t', (A.take s.pageSize).getLast? = some t' := by
        have hne : A.take s.pageSize ≠ [] :=
          List.ne_nil_of_length_pos (by rw [List.length_take]; omega)
        exact ⟨_, List.getLast?_eq_some_getLast hne⟩
      have hmem : t' ∈ A := List.take_subset _ _ (List.mem_of_getLast? ht')
      have hnext : s.candidates p (some t') = A.drop s.pageSize := by
        rw [candidates_of_mem hs hc hmem,
          filter_lt_of_getLast?_take (hs.sublist (candidates_sublist c)) ht']
      simp only [ht']
      rw [collectPages_eq hs hN fuel (some t') ?_ ?_, hnext, List.take_append_drop]
      · intro t ht
        rw [← Option.some_injective _ ht]
        exact le_of_startsWith (startsWith_of_mem_candidates hmem)
      · rw [hnext, List.length_drop]
        omega

/-- **Listing every key under a prefix** gives exactly those keys, in order, whatever the page
size. -/
theorem listAll_eq (hs : s.Sorted) (hN : 0 < s.pageSize) : s.listAll p = s.under p := by
  have hlen : (s.under p).length < s.entries.length + 1 := by
    have h := (List.filter_sublist (p := fun k : String => k.startsWith p) (l := s.keys)).length_le
    simp only [keys, List.length_map] at h
    exact Nat.lt_succ_of_le h
  rw [listAll, collectPages_eq hs hN _ none (fun _ h => by cases h) (by rwa [candidates_none hs]),
    candidates_none hs]

/-! ## Directories under a prefix -/

/-- Where a slash first occurs in a text: before it, a name without one. -/
theorem firstMatch?_slash_eq_some {l : List Char} {pos : Nat} :
    firstMatch? ['/'] l = some pos ↔
      ∃ seg tail, '/' ∉ seg ∧ l = seg ++ '/' :: tail ∧ pos = seg.length := by
  induction l generalizing pos with
  | nil => simp [firstMatch?]
  | cons c cs ih =>
    by_cases hc : c = '/'
    · subst hc
      simp only [firstMatch?, List.isPrefixOf, beq_self_eq_true, Bool.and_true, if_true,
        Option.some.injEq]
      constructor
      · rintro rfl
        exact ⟨[], cs, List.not_mem_nil, rfl, rfl⟩
      · rintro ⟨seg, tail, hseg, heq, rfl⟩
        cases seg with
        | nil => rfl
        | cons a seg =>
          simp only [List.cons_append, List.cons.injEq] at heq
          exact absurd (heq.1 ▸ List.mem_cons_self) hseg
    · have hpre : List.isPrefixOf ['/'] (c :: cs) = false := by simp [List.isPrefixOf, Ne.symm hc]
      simp only [firstMatch?, hpre, Bool.false_eq_true, if_false, Option.map_eq_some_iff, ih]
      constructor
      · rintro ⟨_, ⟨seg, tail, hseg, rfl, rfl⟩, rfl⟩
        exact ⟨c :: seg, tail, by simp [hseg, Ne.symm hc], rfl, rfl⟩
      · rintro ⟨seg, tail, hseg, heq, rfl⟩
        cases seg with
        | nil => simp at heq; exact absurd heq.1 hc
        | cons a seg =>
          simp only [List.cons_append, List.cons.injEq] at heq
          obtain ⟨rfl, rfl⟩ := heq
          exact ⟨seg.length, ⟨seg, tail, fun h => hseg (List.mem_cons_of_mem _ h), rfl, rfl⟩, rfl⟩

/-- `g` is a directory right under `p`: the prefix, a name without a slash, then a slash. -/
def IsDir (p g : String) : Prop := ∃ seg, '/' ∉ seg ∧ g.toList = p.toList ++ seg ++ ['/']

theorem take_slash_append (seg tail : List Char) :
    (seg ++ '/' :: tail).take (seg.length + 1) = seg ++ ['/'] := by
  rw [List.take_append, List.take_of_length_le (by omega)]
  simp

/-- **The group of a key is the directory right under the prefix that it lies in.** -/
theorem group?_eq_some_iff {k g : String} (hk : k.startsWith p) :
    group? p (some "/") k = some g ↔ IsDir p g ∧ k.startsWith g := by
  rw [String.startsWith_string_iff] at hk
  obtain ⟨rest, hrest⟩ := hk
  have hdrop : k.toList.drop p.length = rest := by
    rw [← hrest, ← String.length_toList, List.drop_left]
  have hslash : "/".toList = ['/'] := by simp
  have hlen : "/".length = 1 := rfl
  simp only [group?, Option.bind_some, hdrop, hslash, hlen, Option.map_eq_some_iff,
    firstMatch?_slash_eq_some]
  constructor
  · rintro ⟨_, ⟨seg, tail, hseg, rfl, rfl⟩, rfl⟩
    refine ⟨⟨seg, hseg, ?_⟩, ?_⟩
    · rw [String.toList_ofList, take_slash_append, List.append_assoc]
    · rw [String.startsWith_string_iff, String.toList_ofList, take_slash_append, ← hrest]
      exact ⟨tail, by simp⟩
  · rintro ⟨⟨seg, hseg, hg⟩, hkg⟩
    rw [String.startsWith_string_iff, hg, ← hrest] at hkg
    obtain ⟨tail, htail⟩ := hkg
    have hrest' : rest = seg ++ '/' :: tail := by simpa using htail.symm
    refine ⟨seg.length, ⟨seg, tail, hseg, hrest', rfl⟩, ?_⟩
    rw [hrest', take_slash_append, ← List.append_assoc, ← hg, String.ofList_toList]

/-- Two names without a slash, each followed by one: if one is a prefix of the other, they are
the same name. -/
theorem eq_of_slash_prefix {seg seg' : List Char} (hseg : '/' ∉ seg) (hseg' : '/' ∉ seg')
    (h : seg ++ ['/'] <+: seg' ++ ['/']) : seg = seg' := by
  induction seg generalizing seg' with
  | nil =>
    cases seg' with
    | nil => rfl
    | cons b seg' =>
      have hb : '/' = b := (List.cons_prefix_cons.mp h).1
      exact absurd (hb ▸ List.mem_cons_self) hseg'
  | cons a seg ih =>
    cases seg' with
    | nil =>
      have ha : a = '/' := (List.cons_prefix_cons.mp h).1
      exact absurd (ha ▸ List.mem_cons_self) hseg
    | cons b seg' =>
      obtain ⟨hab, hrest⟩ := List.cons_prefix_cons.mp h
      rw [hab, ih (fun h => hseg (List.mem_cons_of_mem _ h)) (fun h => hseg' (List.mem_cons_of_mem _ h)) hrest]

namespace IsDir

variable {g g' : String}

theorem startsWith (h : IsDir p g) : g.startsWith p := by
  obtain ⟨seg, -, hg⟩ := h
  rw [String.startsWith_string_iff, hg, List.append_assoc]
  exact List.prefix_append _ _

theorem endsWith_slash (h : IsDir p g) : g.endsWith "/" = true := by
  obtain ⟨seg, -, hg⟩ := h
  rw [String.endsWith_eq_endsWith_toSlice, String.Slice.endsWith_string_iff]
  exact ⟨p.toList ++ seg, by simp [hg]⟩

/-- No directory right under a prefix lies inside another. -/
theorem eq_of_startsWith (h : IsDir p g) (h' : IsDir p g') (hpre : g'.startsWith g) : g = g' := by
  obtain ⟨seg, hseg, hg⟩ := h
  obtain ⟨seg', hseg', hg'⟩ := h'
  rw [String.startsWith_string_iff, hg, hg', List.append_assoc, List.append_assoc,
    List.prefix_append_right_inj] at hpre
  rw [← String.toList_inj, hg, hg', eq_of_slash_prefix hseg hseg' hpre]

end IsDir

/-- Two prefixes of one text: the shorter is a prefix of the longer. -/
theorem startsWith_or_startsWith {k a b : String} (ha : k.startsWith a) (hb : k.startsWith b) :
    b.startsWith a ∨ a.startsWith b := by
  rw [String.startsWith_string_iff] at ha hb ⊢
  rw [String.startsWith_string_iff]
  rcases Nat.le_total a.toList.length b.toList.length with h | h
  · exact .inl (List.prefix_of_prefix_length_le ha hb h)
  · exact .inr (List.prefix_of_prefix_length_le hb ha h)

section Groups

variable {k k' g g' t : String}

/-- **Groups follow the order of keys.** -/
theorem group_le_of_le (hk : k.startsWith p) (hk' : k'.startsWith p)
    (hg : group? p (some "/") k = some g) (hg' : group? p (some "/") k' = some g') (hle : k ≤ k') :
    g ≤ g' := by
  obtain ⟨hdir, hkg⟩ := (group?_eq_some_iff hk).mp hg
  obtain ⟨hdir', hkg'⟩ := (group?_eq_some_iff hk').mp hg'
  by_contra hlt
  -- `g'` would lie between itself and `k'`, through `g`, so `g` would lie inside `g'`
  have hin : g.startsWith g' :=
    startsWith_of_le_of_le hkg' (le_of_lt (not_le.mp hlt)) ((le_of_startsWith hkg).trans hle)
  exact hlt (hdir'.eq_of_startsWith hdir hin).ge

/-- A key lies after a directory token and outside it exactly when its group sorts after the
token. -/
theorem lt_group_iff (ht : IsDir p t) (hk : k.startsWith p) (hg : group? p (some "/") k = some g) :
    (t < k ∧ ¬ k.startsWith t) ↔ t < g := by
  obtain ⟨hdir, hkg⟩ := (group?_eq_some_iff hk).mp hg
  constructor
  · rintro ⟨htk, hout⟩
    by_contra hle
    have hin : t.startsWith g := startsWith_of_le_of_le hkg (not_lt.mp hle) htk.le
    exact hout (hdir.eq_of_startsWith ht hin ▸ hkg)
  · intro htg
    refine ⟨lt_of_lt_of_le htg (le_of_startsWith hkg), fun hkt => ?_⟩
    rcases startsWith_or_startsWith hkt hkg with h | h
    · exact (ne_of_lt htg) (ht.eq_of_startsWith hdir h)
    · exact (ne_of_lt htg) (hdir.eq_of_startsWith ht h).symm

end Groups

/-! ## Pages of common prefixes -/

/-- The directories right under `p` that keys, in order, roll up into, each reported once and
none equal to `last`: what pages of common prefixes report. -/
def rollUp (p : String) : Option String → List String → List String
  | _, [] => []
  | last, k :: ks =>
    match group? p (some "/") k with
    | some g => if last = some g then rollUp p last ks else g :: rollUp p (some g) ks
    | none => rollUp p last ks

/-- **A page of common prefixes**, from keys that each lie in a directory under the prefix,
holds the first `room` directories they roll up into outside the token, and names the last of
them when some are left. -/
theorem fill_groups (N : Nat) (c : Option String) (keys : List String) :
    ∀ (ks acc : List String) (room : Nat) (last : Option String),
      (∀ k ∈ ks, (group? p (some "/") k).isSome) → keys.length + acc.length + room = N →
      fill N p (some "/") c ks keys acc last =
        ⟨keys.reverse,
          acc.reverse ++ (rollUp p last (ks.filter fun k => !insideToken c (some "/") k)).take room,
          if (rollUp p last (ks.filter fun k => !insideToken c (some "/") k)).length ≤ room then none
          else (((rollUp p last (ks.filter fun k => !insideToken c (some "/") k)).take room).getLast?).or last⟩
  | [], acc, room, last, _, _ => by simp [fill, rollUp]
  | k :: ks, acc, room, last, hks, hroom => by
    obtain ⟨g, hg⟩ := Option.isSome_iff_exists.mp (hks k List.mem_cons_self)
    have hks' : ∀ k ∈ ks, (group? p (some "/") k).isSome := fun k hk => hks k (List.mem_cons_of_mem _ hk)
    rw [fill, hg]
    dsimp only
    by_cases hin : insideToken c (some "/") k = true
    · -- inside the token: skipped by both
      rw [if_pos (.inr hin), fill_groups N c keys ks acc room last hks' hroom,
        List.filter_cons_of_neg (by simp [hin])]
    rw [List.filter_cons_of_pos (by simpa using hin)]
    simp only [rollUp, hg]
    by_cases hlast : last = some g
    · rw [if_pos (.inl hlast), fill_groups N c keys ks acc room last hks' hroom, if_pos hlast]
    rw [if_neg (by simp [hlast, hin]), if_neg hlast]
    cases room with
    | zero => rw [if_pos (by omega)]; simp
    | succ r =>
      rw [if_neg (by omega), fill_groups N c keys ks (g :: acc) r (some g) hks' (by simp; omega)]
      simp [getLast?_cons_or]

section RollUp

variable {ks : List String} {x : String}

/-- The groups of keys in order follow that order. -/
def GroupsMono (p : String) (ks : List String) : Prop :=
  ks.Pairwise fun k k' => ∀ g g', group? p (some "/") k = some g → group? p (some "/") k' = some g' →
    g ≤ g'

theorem groupsMono_of_pairwise (hks : ks.Pairwise (· < ·)) (hp : ∀ k ∈ ks, k.startsWith p) :
    GroupsMono p ks :=
  hks.imp_of_mem fun hk hk' hlt _ _ hg hg' => group_le_of_le (hp _ hk) (hp _ hk') hg hg' hlt.le

/-- **What a roll-up reports**: each group of the keys once, in increasing order, except the
one named `last`. -/
theorem rollUp_spec (hmono : GroupsMono p ks) :
    ∀ {last : Option String}, (∀ l, last = some l → ∀ k ∈ ks, ∀ g, group? p (some "/") k = some g → l ≤ g) →
      (rollUp p last ks).Pairwise (· < ·) ∧
        ∀ x, x ∈ rollUp p last ks ↔ (∃ k ∈ ks, group? p (some "/") k = some x) ∧ last ≠ some x := by
  induction ks with
  | nil => simp [rollUp]
  | cons k ks ih =>
    intro last hlast
    have hm := List.pairwise_cons.mp hmono
    have hlast' : ∀ l, last = some l → ∀ k ∈ ks, ∀ g, group? p (some "/") k = some g → l ≤ g :=
      fun l hl k' hk' => hlast l hl k' (List.mem_cons_of_mem _ hk')
    cases hg : group? p (some "/") k with
    | none =>
      -- a key without a group adds nothing
      simp only [rollUp, hg]
      refine ⟨(ih hm.2 hlast').1, fun x => ?_⟩
      rw [(ih hm.2 hlast').2 x, List.exists_mem_cons_iff, hg]
      simp
    | some g =>
      simp only [rollUp, hg]
      -- every later group sorts at or after `g`
      have hafter : ∀ l, some g = some l → ∀ k ∈ ks, ∀ g', group? p (some "/") k = some g' → l ≤ g' := by
        rintro l hl k' hk' g' hg'
        cases hl
        exact hm.1 k' hk' g g' hg hg'
      split_ifs with hl
      · obtain ⟨hpw, hmem⟩ := ih hm.2 hlast'
        refine ⟨hpw, fun x => ?_⟩
        rw [hmem x, List.exists_mem_cons_iff, hg, hl]
        constructor
        · rintro ⟨hx, hne⟩
          exact ⟨.inr hx, hne⟩
        · rintro ⟨hx | hx, hne⟩
          · exact absurd hx hne
          · exact ⟨hx, hne⟩
      · obtain ⟨hpw, hmem⟩ := ih hm.2 hafter
        have hlt : ∀ x ∈ rollUp p (some g) ks, g < x := by
          intro x hx
          obtain ⟨⟨k', hk', hgx⟩, hne⟩ := (hmem x).mp hx
          exact lt_of_le_of_ne (hm.1 k' hk' g x hg hgx) (fun h => hne (congrArg some h))
        refine ⟨List.pairwise_cons.mpr ⟨hlt, hpw⟩, fun x => ?_⟩
        rw [List.mem_cons, hmem x, List.exists_mem_cons_iff, hg]
        constructor
        · rintro (rfl | ⟨hx, hne⟩)
          · exact ⟨.inl rfl, hl⟩
          · refine ⟨.inr hx, fun hlx => ?_⟩
            obtain ⟨k', hk', hgx⟩ := hx
            have h₁ : x ≤ g := hlast x hlx k List.mem_cons_self g hg
            exact hne (congrArg some (le_antisymm (hm.1 k' hk' g x hg hgx) h₁))
        · rintro ⟨hx | hx, hne⟩
          · exact .inl (Option.some_injective _ hx).symm
          · by_cases hxg : x = g
            · exact .inl hxg
            · exact .inr ⟨hx, fun h => hxg (Option.some_injective _ h).symm⟩

theorem mem_rollUp (hmono : GroupsMono p ks) :
    x ∈ rollUp p none ks ↔ ∃ k ∈ ks, group? p (some "/") k = some x := by
  rw [((rollUp_spec hmono) (by simp)).2 x]
  simp

theorem pairwise_rollUp (hmono : GroupsMono p ks) : (rollUp p none ks).Pairwise (· < ·) :=
  ((rollUp_spec hmono) (by simp)).1

theorem length_rollUp_le : ∀ (last : Option String) (ks : List String),
    (rollUp p last ks).length ≤ ks.length
  | _, [] => le_refl _
  | last, k :: ks => by
    simp only [rollUp]
    split
    · split
      · exact (length_rollUp_le last ks).trans (Nat.le_succ _)
      · exact Nat.succ_le_succ (length_rollUp_le _ ks)
    · exact (length_rollUp_le last ks).trans (Nat.le_succ _)

/-- Rolling up the keys whose group sorts after `t` reports the groups after `t`. -/
theorem rollUp_filter (hmono : GroupsMono p ks) (t : String) :
    rollUp p none (ks.filter fun k => (group? p (some "/") k).any fun g => decide (t < g)) =
      (rollUp p none ks).filter fun x => t < x := by
  have hmono' : GroupsMono p (ks.filter fun k => (group? p (some "/") k).any fun g => decide (t < g)) :=
    hmono.sublist List.filter_sublist
  refine List.Pairwise.eq_of_mem_iff (pairwise_rollUp hmono') ((pairwise_rollUp hmono).filter _)
    fun x => ?_
  rw [mem_rollUp hmono', List.mem_filter, mem_rollUp hmono]
  constructor
  · rintro ⟨k, hk, hgx⟩
    obtain ⟨hk, hany⟩ := List.mem_filter.mp hk
    rw [hgx] at hany
    exact ⟨⟨k, hk, hgx⟩, hany⟩
  · rintro ⟨⟨k, hk, hgx⟩, htx⟩
    exact ⟨k, List.mem_filter.mpr ⟨hk, by rw [hgx]; exact htx⟩, hgx⟩

end RollUp

/-! ## Following the tokens of common prefixes -/

theorem mem_under_of_mem_candidates {c : Option String} {x : String}
    (hx : x ∈ s.candidates p c) : x ∈ s.under p :=
  List.mem_filter.mpr ⟨(candidates_sublist c).subset hx, startsWith_of_mem_candidates hx⟩

theorem groupsMono_under (hs : s.Sorted) : GroupsMono p (s.under p) :=
  groupsMono_of_pairwise (pairwise_under hs) fun _ hk => startsWith_of_mem_under hk

/-- What a page of common prefixes after a directory token draws from: the groups of the keys
under the prefix that sort after the token. -/
theorem rollUp_candidates (hs : s.Sorted) (hdir : ∀ k ∈ s.under p, (group? p (some "/") k).isSome)
    {c : Option String} (hc : ∀ t, c = some t → IsDir p t) :
    rollUp p none ((s.candidates p c).filter fun k => !insideToken c (some "/") k) =
      (rollUp p none (s.under p)).filter fun x => c.all fun t => decide (t < x) := by
  cases c with
  | none =>
    rw [candidates_none hs]
    simp [insideToken]
  | some t =>
    have ht := hc t rfl
    simp only [Option.all_some]
    rw [candidates_some hs (le_of_startsWith ht.startsWith), List.filter_filter,
      ← rollUp_filter (groupsMono_under hs) t]
    congr 1
    apply List.filter_congr
    intro k hk
    obtain ⟨g, hg⟩ := Option.isSome_iff_exists.mp (hdir k hk)
    -- skipping the token's inside and starting after it is keeping the groups after it
    have hiff := lt_group_iff ht (startsWith_of_mem_under hk) hg
    simp only [insideToken, ht.endsWith_slash, Option.getD_some, Bool.true_and, hg, Option.any_some]
    rw [Bool.eq_iff_iff, Bool.and_eq_true, Bool.not_eq_true', decide_eq_true_eq, decide_eq_true_eq,
      ← hiff, Bool.not_eq_true, and_comm]

/-- Following the tokens from a directory token `c`, for more pages than there are groups left,
reports each group after `c` once, in order. -/
theorem groupsUnder_eq_filter (hs : s.Sorted) (hN : 0 < s.pageSize)
    (hdir : ∀ k ∈ s.under p, (group? p (some "/") k).isSome) :
    ∀ (fuel : Nat) (c : Option String), (∀ t, c = some t → IsDir p t) →
      ((rollUp p none (s.under p)).filter fun x => c.all fun t => decide (t < x)).length < fuel →
      Remote.groupsUnder s p fuel c =
        (rollUp p none (s.under p)).filter fun x => c.all fun t => decide (t < x)
  | 0, _, _, hlen => absurd hlen (Nat.not_lt_zero _)
  | fuel + 1, c, hc, hlen => by
    have hmono := groupsMono_under (p := p) hs
    set E := rollUp p none (s.under p) with hE
    set A := E.filter fun x => c.all fun t => decide (t < x) with hA
    have hgrouped : ∀ k ∈ s.candidates p c, (group? p (some "/") k).isSome :=
      fun k hk => hdir k (mem_under_of_mem_candidates hk)
    have hpage : s.listPage p (some "/") c =
        ⟨[], A.take s.pageSize, if A.length ≤ s.pageSize then none else (A.take s.pageSize).getLast?⟩ := by
      rw [listPage, fill_groups s.pageSize c [] _ [] s.pageSize none hgrouped (by simp),
        rollUp_candidates hs hdir hc]
      simp only [List.reverse_nil, List.nil_append, Option.or_none]
      rfl
    rw [Remote.groupsUnder]
    simp only [hpage]
    by_cases hfit : A.length ≤ s.pageSize
    · rw [if_pos hfit]
      exact List.take_of_length_le hfit
    · rw [if_neg hfit]
      -- a full page: its last group is the token for the rest
      obtain ⟨t', ht'⟩ : ∃ t', (A.take s.pageSize).getLast? = some t' := by
        have hne : A.take s.pageSize ≠ [] :=
          List.ne_nil_of_length_pos (by rw [List.length_take]; omega)
        exact ⟨_, List.getLast?_eq_some_getLast hne⟩
      have hmemA : t' ∈ A := List.take_subset _ _ (List.mem_of_getLast? ht')
      obtain ⟨hmemE, hct'⟩ := List.mem_filter.mp hmemA
      have hdir' : IsDir p t' := by
        obtain ⟨k, hk, hg⟩ := (mem_rollUp hmono).mp hmemE
        exact ((group?_eq_some_iff (startsWith_of_mem_under hk)).mp hg).1
      have hnext : (E.filter fun x => (some t').all fun t => decide (t < x)) = A.drop s.pageSize := by
        rw [← filter_lt_of_getLast?_take ((pairwise_rollUp hmono).filter _) ht', List.filter_filter]
        apply List.filter_congr
        intro x _
        cases c with
        | none => simp
        | some t =>
          have htt' : t < t' := by simpa using hct'
          by_cases hx : t' < x
          · simp only [Option.all_some, decide_eq_true hx, decide_eq_true (lt_trans htt' hx),
              Bool.and_self]
          · simp only [Option.all_some, decide_eq_false hx, Bool.false_and]
      simp only [ht']
      rw [groupsUnder_eq_filter hs hN hdir fuel (some t') ?_ ?_, hnext, List.take_append_drop]
      · intro t ht
        rw [← Option.some_injective _ ht]
        exact hdir'
      · rw [hnext, List.length_drop]
        omega

/-- **Every common prefix, page by page**: under a prefix whose keys all lie in directories
right under it, following the tokens reports each directory once, in increasing order. -/
theorem groupsUnder_eq (hs : s.Sorted) (hN : 0 < s.pageSize)
    (hdir : ∀ k ∈ s.under p, (group? p (some "/") k).isSome) :
    Remote.groupsUnder s p (s.entries.length + 1) none = rollUp p none (s.under p) := by
  have hlen : (rollUp p none (s.under p)).length < s.entries.length + 1 := by
    have h := (List.filter_sublist (p := fun k : String => k.startsWith p) (l := s.keys)).length_le
    simp only [keys, List.length_map] at h
    exact Nat.lt_succ_of_le ((length_rollUp_le none _).trans h)
  rw [groupsUnder_eq_filter hs hN hdir _ none (fun _ h => by cases h) (by simpa using hlen)]
  simp

end GitServer.BlobStore
