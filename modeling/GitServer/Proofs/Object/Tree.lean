import GitServer.Object.Tree
import GitServer.Proofs.Text.Split
import GitServer.Proofs.Text.Blank
import GitServer.Proofs.Wire.LengthGrammar
import GitServer.Proofs.Pack.Resolution
import Mathlib

/-!
# Trees written and read back

A tree entry is written as the octal digits of its mode, a blank, the UTF-8 bytes of its name,
a NUL byte and the twenty bytes of its id, with no length anywhere: the reader finds the end
of the mode at the first blank and the end of the name at the first NUL.

* Strict UTF-8 reading inverts writing: bytes that read as a text are that text's bytes
  (`Utf8.ofString_of_decode?`). This is what lets a name read from a tree be written back.
* An entry whose mode field has no blank and whose name field has no NUL is read as that
  entry, with the mode its digits spell and the name its bytes decode to
  (`Tree.parseEntries_rawEntry_append`); conversely every body the reader accepts is made of
  such entries (`Tree.spans_of_parseEntries`).
* `Tree.ofEntries` sorts by the byte-wise order of the sort keys, stably, so its entries are
  in Git's order and a permutation of the input; when no two keys are equal the order of the
  input does not matter (`Tree.ofEntries_eq_of_perm`).

Main statement (`Tree.codec_roundtrip`): a tree built from entries whose names hold no NUL reads
back as itself; permuting entries with distinct keys builds the same id; and a body the reader
accepts, in which every mode is spelt canonically and every name is UTF-8, is written back as
it was read.
-/

namespace GitServer

/-! ## Valid UTF-8 is the bytes of its text -/

namespace Utf8

theorem toNat_val_ofNat {v : Nat} (hv : v.isValidChar) : (Char.ofNat v).val.toNat = v := by
  have h := Char.toNat_ofNat v
  rw [if_pos hv] at h
  exact h

theorem ofNat_eq_of_toNat {b : UInt8} {n : Nat} (h : n = b.toNat) : UInt8.ofNat n = b := by
  subst h
  simp

/-! The four lengths of an encoding. In each, the ranges that `leadRange` admits keep the code
point out of overlong forms and surrogates, so the character is the code point itself and its
encoding has the length and the bytes it was read from. -/

theorem utf8EncodeChar_one {b0 : UInt8} (h0 : b0.toNat < 0x80) :
    String.utf8EncodeChar (Char.ofNat b0.toNat) = [b0] := by
  have hval : (Char.ofNat b0.toNat).val.toNat = b0.toNat :=
    toNat_val_ofNat (by simp only [Nat.isValidChar]; omega)
  unfold String.utf8EncodeChar
  simp only [hval]
  rw [if_pos (by omega)]
  simp

theorem utf8EncodeChar_two {b0 b1 : UInt8} (h0 : 0xC2 ≤ b0.toNat ∧ b0.toNat ≤ 0xDF)
    (h1 : 0x80 ≤ b1.toNat ∧ b1.toNat ≤ 0xBF) :
    String.utf8EncodeChar (Char.ofNat (low b0 5 * 64 + low b1 6)) = [b0, b1] := by
  generalize hv : low b0 5 * 64 + low b1 6 = v
  simp only [low, Nat.pow_eq, Nat.reducePow] at hv
  have hval : (Char.ofNat v).val.toNat = v :=
    toNat_val_ofNat (by simp only [Nat.isValidChar]; omega)
  unfold String.utf8EncodeChar
  simp only [hval]
  rw [if_neg (by omega), if_pos (by omega)]
  simp only [List.cons.injEq, and_true]
  constructor <;> apply ofNat_eq_of_toNat <;> omega

theorem utf8EncodeChar_three {b0 b1 b2 : UInt8} (h0 : 0xE0 ≤ b0.toNat ∧ b0.toNat ≤ 0xEF)
    (h1 : 0x80 ≤ b1.toNat ∧ b1.toNat ≤ 0xBF) (hE0 : b0.toNat = 0xE0 → 0xA0 ≤ b1.toNat)
    (hED : b0.toNat = 0xED → b1.toNat ≤ 0x9F) (h2 : 0x80 ≤ b2.toNat ∧ b2.toNat < 0xC0) :
    String.utf8EncodeChar (Char.ofNat (low b0 4 * 4096 + low b1 6 * 64 + low b2 6)) =
      [b0, b1, b2] := by
  generalize hv : low b0 4 * 4096 + low b1 6 * 64 + low b2 6 = v
  simp only [low, Nat.pow_eq, Nat.reducePow] at hv
  have hval : (Char.ofNat v).val.toNat = v :=
    toNat_val_ofNat (by simp only [Nat.isValidChar]; omega)
  unfold String.utf8EncodeChar
  simp only [hval]
  rw [if_neg (by omega), if_neg (by omega), if_pos (by omega)]
  simp only [List.cons.injEq, and_true]
  refine ⟨?_, ?_, ?_⟩ <;> apply ofNat_eq_of_toNat <;> omega

theorem utf8EncodeChar_four {b0 b1 b2 b3 : UInt8} (h0 : 0xF0 ≤ b0.toNat ∧ b0.toNat ≤ 0xF4)
    (h1 : 0x80 ≤ b1.toNat ∧ b1.toNat ≤ 0xBF) (hF0 : b0.toNat = 0xF0 → 0x90 ≤ b1.toNat)
    (hF4 : b0.toNat = 0xF4 → b1.toNat ≤ 0x8F) (h2 : 0x80 ≤ b2.toNat ∧ b2.toNat < 0xC0)
    (h3 : 0x80 ≤ b3.toNat ∧ b3.toNat < 0xC0) :
    String.utf8EncodeChar
        (Char.ofNat (low b0 3 * 262144 + low b1 6 * 4096 + low b2 6 * 64 + low b3 6)) =
      [b0, b1, b2, b3] := by
  generalize hv : low b0 3 * 262144 + low b1 6 * 4096 + low b2 6 * 64 + low b3 6 = v
  simp only [low, Nat.pow_eq, Nat.reducePow] at hv
  have hval : (Char.ofNat v).val.toNat = v :=
    toNat_val_ofNat (by simp only [Nat.isValidChar]; omega)
  unfold String.utf8EncodeChar
  simp only [hval]
  rw [if_neg (by omega), if_neg (by omega), if_neg (by omega)]
  simp only [List.cons.injEq, and_true]
  refine ⟨?_, ?_, ?_, ?_⟩ <;> apply ofNat_eq_of_toNat <;> omega

theorem map_some_eq_cons {p : Option Char} {ps : List (Option Char)} {cs : List Char}
    (h : p :: ps = cs.map some) : ∃ c cs', p = some c ∧ cs = c :: cs' ∧ ps = cs'.map some := by
  obtain ⟨c, cs', rfl, hc, hps⟩ := List.map_eq_cons_iff.1 h.symm
  exact ⟨c, cs', hc.symm, rfl, hps.symm⟩

/-- **Bytes read as characters only are the encoding of those characters.** The induction
follows the reader: each character it reads gives back the bytes it was read from, and an
invalid part cannot occur. -/
theorem eq_flatMap_of_pieces {bs : Bytes} {cs : List Char} (h : pieces bs = cs.map some) :
    bs = cs.flatMap String.utf8EncodeChar := by
  fun_induction pieces bs generalizing cs
  case case1 =>
    cases cs with
    | nil => rfl
    | cons c cs => simp at h
  case case2 b0 rest hlt ih =>
    obtain ⟨c, cs', hc, rfl, hrest⟩ := map_some_eq_cons h
    cases hc
    rw [List.flatMap_cons, utf8EncodeChar_one (by simpa [UInt8.lt_iff_toNat_lt] using hlt),
      ← ih hrest]
    rfl
  case case5 b0 hge lo hi b1 rest hr hlead ih =>
    obtain ⟨c, cs', hc, rfl, hrest⟩ := map_some_eq_cons h
    cases hc
    obtain ⟨hlo, hhi, hcases⟩ := leadRange_eq_some hlead
    simp only [UInt8.le_iff_toNat_le] at hr
    rw [List.flatMap_cons, utf8EncodeChar_two (by omega) (by omega), ← ih hrest]
    rfl
  case case7 b0 hge lo hi b1 hr b2 rest h2 hlead hn2 ih =>
    obtain ⟨c, cs', hc, rfl, hrest⟩ := map_some_eq_cons h
    cases hc
    obtain ⟨hlo, hhi, hcases⟩ := leadRange_eq_some hlead
    simp only [UInt8.le_iff_toNat_le] at hr
    have := toNat_of_isContinuation h2
    rw [List.flatMap_cons, utf8EncodeChar_three (by omega) (by omega) (by omega) (by omega)
      (by omega), ← ih hrest]
    rfl
  case case9 b0 hge lo hi n hlead b1 hr hn2 b2 h2 hn3 b3 rest h3 ih =>
    obtain ⟨c, cs', hc, rfl, hrest⟩ := map_some_eq_cons h
    cases hc
    obtain ⟨hlo, hhi, hcases⟩ := leadRange_eq_some hlead
    simp only [UInt8.le_iff_toNat_le] at hr
    have := toNat_of_isContinuation h2
    have := toNat_of_isContinuation h3
    rw [List.flatMap_cons, utf8EncodeChar_four (by omega) (by omega) (by omega) (by omega)
      (by omega) (by omega), ← ih hrest]
    rfl
  -- the remaining cases read an invalid part, which no list of characters has
  all_goals
    obtain ⟨c, cs', hc, -, -⟩ := map_some_eq_cons h
    cases hc

/-- **Strict UTF-8 reading inverts writing.** -/
theorem ofString_of_decode? {bs : Bytes} {s : String} (h : decode? bs = some s) :
    Bytes.ofString s = bs := by
  rw [Bytes.ofString_eq_flatMap, eq_flatMap_of_pieces (pieces_of_decode? h)]

/-- Bytes that are UTF-8 are read alike strictly and lossily. -/
theorem decodeLossy_of_decode? {bs : Bytes} {s : String} (h : decode? bs = some s) :
    decodeLossy bs = s := by
  simp [decodeLossy, pieces_of_decode? h]

theorem ofString_decodeLossy {bs : Bytes} (h : isValid bs = true) :
    Bytes.ofString (decodeLossy bs) = bs := by
  obtain ⟨s, hs⟩ := Option.isSome_iff_exists.1 h
  rw [decodeLossy_of_decode? hs, ofString_of_decode? hs]

end Utf8

/-! ## The byte-wise order of keys -/

namespace Bytes

theorem compare_ne_gt_trans {a b c : Bytes} (hab : compare a b ≠ .gt) (hbc : compare b c ≠ .gt) :
    compare a c ≠ .gt := by
  rw [Pack.Bytes.compare_eq_compareLex] at hab hbc ⊢
  exact Std.TransCmp.le_trans hab hbc

theorem compare_swap (a b : Bytes) : compare b a = (compare a b).swap := by
  rw [Pack.Bytes.compare_eq_compareLex, Pack.Bytes.compare_eq_compareLex]
  exact Std.OrientedCmp.eq_swap

theorem compare_ne_gt_total (a b : Bytes) : compare a b ≠ .gt ∨ compare b a ≠ .gt := by
  rw [compare_swap a b]
  cases compare a b <;> simp

theorem eq_of_compare_ne_gt {a b : Bytes} (hab : compare a b ≠ .gt) (hba : compare b a ≠ .gt) :
    a = b := by
  rw [compare_swap a b] at hba
  have heq : compare a b = .eq := by
    cases h : compare a b <;> simp_all
  rw [Pack.Bytes.compare_eq_compareLex] at heq
  exact Std.LawfulEqCmp.compare_eq_iff_eq.1 heq

end Bytes

/-! ## Modes -/

namespace EntryMode

theorem parse_octal (m : EntryMode) : parse (Bytes.ofString m.octal) = .ok m := by
  cases m <;> simp [parse, octal, Utf8.decodeLossy_ofString_self]

theorem space_not_mem_octal (m : EntryMode) : (32 : UInt8) ∉ Bytes.ofString m.octal := by
  cases m <;> rw [Bytes.ofString_literal rfl] <;> decide

end EntryMode

namespace Tree

/-! ## Entries as the reader cuts them -/

/-- An entry as the reader meets it: the spelling of a mode, a blank, the bytes of a name, a
NUL and the twenty bytes of an id. -/
def rawEntry (mode name : Bytes) (id : ObjectId) : Bytes := mode ++ 32 :: name ++ 0 :: id.bytes

theorem encode_eq_rawEntry (e : TreeEntry) :
    e.encode = rawEntry (Bytes.ofString e.mode.octal) (Bytes.ofString e.name) e.id := by
  have hblank : Bytes.ofString " " = [32] := Bytes.ofString_literal rfl
  simp [TreeEntry.encode, rawEntry, Bytes.ofString_append, hblank]

/-- **One entry.** A mode field without a blank and a name field without a NUL are read as the
mode the field spells and the name its bytes decode to, and reading goes on after the id. -/
theorem parseEntries_rawEntry_append {mode name : Bytes} {id : ObjectId} (rest : Bytes)
    (hmode : 32 ∉ mode) (hname : 0 ∉ name) :
    parseEntries (rawEntry mode name id ++ rest) =
      (EntryMode.parse mode).bind fun m =>
        (parseEntries rest).map (⟨m, id, Utf8.decodeLossy name⟩ :: ·) := by
  generalize hk : mode.length = k
  have hbuf : rawEntry mode name id ++ rest = mode ++ 32 :: (name ++ 0 :: (id.bytes ++ rest)) := by
    simp [rawEntry]
  have hspace : Bytes.indexOf? (rawEntry mode name id ++ rest) 32 = some k := by
    rw [hbuf, Bytes.indexOf?_append_cons hmode, hk]
  have htake : (rawEntry mode name id ++ rest).take k = mode := by
    rw [hbuf, ← hk, List.take_left]
  have hdrop : (rawEntry mode name id ++ rest).drop k = (32 :: name) ++ 0 :: (id.bytes ++ rest) := by
    rw [hbuf, ← hk, List.drop_left]
    rfl
  have hnul : Bytes.indexOf? ((rawEntry mode name id ++ rest).drop k) 0 = some (name.length + 1) := by
    rw [hdrop, Bytes.indexOf?_append_cons (by simp [hname]), List.length_cons]
  have hname' : ((rawEntry mode name id ++ rest).drop (k + 1)).take (name.length + 1 + k - k - 1) =
      name := by
    rw [← List.drop_drop, hdrop, show name.length + 1 + k - k - 1 = name.length by omega]
    simp
  -- the id and the rest lie after the whole head, mode to NUL
  have hhead : rawEntry mode name id ++ rest = (mode ++ 32 :: name ++ [0]) ++ (id.bytes ++ rest) := by
    simp [rawEntry]
  have hheadLen : (mode ++ 32 :: name ++ [0]).length = name.length + 1 + k + 1 := by
    simp [hk]
    omega
  have hid : ((rawEntry mode name id ++ rest).drop (name.length + 1 + k + 1)).take 20 = id.bytes := by
    rw [hhead, List.drop_left' hheadLen]
    simp [id.length_bytes]
  have hrest : (rawEntry mode name id ++ rest).drop (name.length + 1 + k + 21) = rest := by
    rw [hhead, show name.length + 1 + k + 21 = (name.length + 1 + k + 1) + 20 by omega,
      ← List.drop_drop, List.drop_left' hheadLen]
    simp [id.length_bytes]
  have hofBytes : ObjectId.ofBytes? id.bytes = .ok id := by
    simp [ObjectId.ofBytes?, id.length_bytes]
  obtain ⟨d, ds, hcons⟩ : ∃ d ds, rawEntry mode name id ++ rest = d :: ds :=
    List.exists_cons_of_ne_nil (by simp [rawEntry])
  rw [hcons, parseEntries.eq_2, ← hcons]
  simp only [hspace, htake, hnul, hname', hid, hrest, id.length_bytes, hofBytes]
  cases EntryMode.parse mode <;> cases parseEntries rest <;> rfl

theorem parseEntries_nil : parseEntries [] = .ok [] := by
  rw [parseEntries.eq_1]

/-- Entries whose names hold no NUL read back as themselves. -/
theorem parseEntries_encode {es : List TreeEntry} (h : ∀ e ∈ es, '\x00' ∉ e.name.toList) :
    parseEntries (es.flatMap TreeEntry.encode) = .ok es := by
  induction es with
  | nil => exact parseEntries_nil
  | cons e es ih =>
    rw [List.flatMap_cons, encode_eq_rawEntry, parseEntries_rawEntry_append _
      (EntryMode.space_not_mem_octal _) (Utf8.not_mem_ofString (by decide) (by decide) (h e (by simp))),
      EntryMode.parse_octal, ih fun e' he' => h e' (by simp [he'])]
    simp [Except.bind, Except.map, Utf8.decodeLossy_ofString_self]

/-- **Every body the reader accepts is made of entries as it cuts them**: a mode field without
a blank, a blank, a name field without a NUL, a NUL and twenty bytes of id. -/
theorem spans_of_parseEntries {d : Bytes} {es : List TreeEntry} (h : parseEntries d = .ok es) :
    ∃ raws : List (Bytes × Bytes × ObjectId),
      d = raws.flatMap (fun r => rawEntry r.1 r.2.1 r.2.2) ∧ ∀ r ∈ raws, 32 ∉ r.1 ∧ 0 ∉ r.2.1 := by
  fun_induction parseEntries d generalizing es
  case case1 => exact ⟨[], rfl, by simp⟩
  case case2 b bs rest space hspace ih =>
    obtain ⟨m, -, h⟩ := Except.bind_eq_ok.1 h
    split at h
    · rename_i nul hnul
      dsimp only at h
      -- a short id was refused, so twenty bytes follow the NUL
      split_ifs at h with hshort
      obtain ⟨id, hid, h⟩ := Except.bind_eq_ok.1 h
      obtain ⟨more, hmore, -⟩ := Except.bind_eq_ok.1 h
      obtain ⟨raws, hraws, hgood⟩ := ih nul hmore
      -- the mode field ends at the first blank, the name field at the first NUL after it
      obtain ⟨A, X, hAX, hA, hAlen⟩ := Bytes.eq_append_of_indexOf? hspace
      have hdropA : rest.drop space = 32 :: X := by rw [hAX, ← hAlen, List.drop_left]
      rw [hdropA] at hnul
      obtain ⟨N', Y, hNY, hN', hN'len⟩ := Bytes.eq_append_of_indexOf? hnul
      obtain ⟨N, rfl⟩ : ∃ N, N' = 32 :: N := by
        cases N' with
        | nil => simp at hNY
        | cons x N =>
          simp only [List.cons_append, List.cons.injEq] at hNY
          exact ⟨N, by rw [hNY.1]⟩
      simp only [List.cons_append, List.cons.injEq, true_and] at hNY
      have hN : 0 ∉ N := fun hm => hN' (List.mem_cons_of_mem _ hm)
      have hrest : rest = (A ++ 32 :: N ++ [0]) ++ Y := by simp [hAX, hNY]
      have hheadLen : (A ++ 32 :: N ++ [0]).length = nul + space + 1 := by
        simp only [List.length_append, List.length_cons, List.length_nil] at hN'len ⊢
        omega
      have hY : rest.drop (nul + space + 1) = Y := by rw [hrest, List.drop_left' hheadLen]
      -- the twenty bytes after the NUL are the id
      have hidBytes : id.bytes = Y.take 20 := by
        rw [← hY]
        unfold ObjectId.ofBytes? at hid
        split at hid
        · simp only [Except.mapError, Except.ok.injEq] at hid
          rw [← hid]
        · cases hid
      have hYlen : 20 ≤ Y.length := by
        rw [hY] at hshort
        simpa using hshort
      have hmoreY : rest.drop (nul + space + 21) = Y.drop 20 := by
        rw [show nul + space + 21 = nul + space + 1 + 20 by omega, ← List.drop_drop, hY]
      refine ⟨(A, N, id) :: raws, ?_, ?_⟩
      · rw [List.flatMap_cons, ← hraws, hmoreY]
        show rest = _
        rw [hrest, rawEntry, hidBytes]
        simp
      · intro r hr
        rcases List.mem_cons.1 hr with rfl | hr
        · exact ⟨hA, hN⟩
        · exact hgood r hr
    · cases h
  case case3 => cases h

/-- Fields with canonical mode digits and UTF-8 names are written back as they were read. -/
theorem encode_of_parseEntries {raws : List (Bytes × Bytes × ObjectId)} {es : List TreeEntry}
    (hgood : ∀ r ∈ raws, 32 ∉ r.1 ∧ 0 ∉ r.2.1)
    (hcanon : ∀ r ∈ raws, (∃ m : EntryMode, r.1 = Bytes.ofString m.octal) ∧
      Utf8.isValid r.2.1 = true)
    (h : parseEntries (raws.flatMap fun r => rawEntry r.1 r.2.1 r.2.2) = .ok es) :
    es.flatMap TreeEntry.encode = raws.flatMap fun r => rawEntry r.1 r.2.1 r.2.2 := by
  induction raws generalizing es with
  | nil =>
    rw [List.flatMap_nil, parseEntries_nil] at h
    cases h
    rfl
  | cons r raws ih =>
    obtain ⟨⟨m, hm⟩, hvalid⟩ := hcanon r (by simp)
    rw [List.flatMap_cons, parseEntries_rawEntry_append _ (hgood r (by simp)).1
      (hgood r (by simp)).2, hm, EntryMode.parse_octal] at h
    cases hrest : parseEntries (raws.flatMap fun r => rawEntry r.1 r.2.1 r.2.2) with
    | error e => simp [hrest, Except.bind, Except.map] at h
    | ok more =>
      simp only [hrest, Except.bind, Except.map, Except.ok.injEq] at h
      subst h
      rw [List.flatMap_cons, List.flatMap_cons, ih (fun r' hr' => hgood r' (by simp [hr']))
        (fun r' hr' => hcanon r' (by simp [hr'])) hrest, encode_eq_rawEntry, hm,
        Utf8.ofString_decodeLossy hvalid]

/-! ## Git's order -/

/-- `ofEntries` leaves its entries in Git's order: by the bytes of the names, a subtree's name
followed by `/`. -/
theorem ofEntries_sorted (es : List TreeEntry) :
    (ofEntries es).entries.Pairwise fun a b => Bytes.compare a.sortKey b.sortKey ≠ .gt := by
  have h := @List.pairwise_mergeSort _ (fun a b : TreeEntry =>
      Bytes.compare a.sortKey b.sortKey != .gt)
    (fun a b c hab hbc => by
      simp only [bne_iff_ne, ne_eq] at hab hbc ⊢
      exact Bytes.compare_ne_gt_trans hab hbc)
    (fun a b => by simpa using Bytes.compare_ne_gt_total a.sortKey b.sortKey) es
  simpa [ofEntries] using h

theorem ofEntries_perm (es : List TreeEntry) : (ofEntries es).entries.Perm es :=
  List.mergeSort_perm _ _

/-- **The order of the input does not matter when no two keys are equal**: sorting a
permutation gives the same list, since two entries that compare both ways have the same key,
and so are the same entry. -/
theorem ofEntries_eq_of_perm {l₁ l₂ : List TreeEntry} (hp : l₁.Perm l₂)
    (hkeys : (l₁.map TreeEntry.sortKey).Nodup) : ofEntries l₁ = ofEntries l₂ := by
  have hperm : (ofEntries l₁).entries.Perm (ofEntries l₂).entries :=
    (ofEntries_perm l₁).trans (hp.trans (ofEntries_perm l₂).symm)
  have hsame : (ofEntries l₁).entries = (ofEntries l₂).entries := by
    refine hperm.eq_of_pairwise (fun a b ha hb hab hba => ?_) (ofEntries_sorted l₁)
      (ofEntries_sorted l₂)
    have ha₁ : a ∈ l₁ := (ofEntries_perm l₁).subset ha
    have hb₁ : b ∈ l₁ := hp.symm.subset ((ofEntries_perm l₂).subset hb)
    exact List.inj_on_of_nodup_map hkeys ha₁ hb₁ (Bytes.eq_of_compare_ne_gt hab hba)
  change Tree.mk (ofEntries l₁).entries = Tree.mk (ofEntries l₂).entries
  rw [hsame]

/-! ## Trees -/

theorem parse_eq_ok_iff {d : Bytes} {t : Tree} : parse d = .ok t ↔ parseEntries d = .ok t.entries := by
  unfold parse
  cases parseEntries d <;> cases t <;> simp [Except.map]

/-- **Tree codec.** A tree built from entries whose names hold no NUL reads back as itself, so
the id of what is read is the id built; its entries are in Git's order and a permutation of
those given. Entries with pairwise distinct keys build the same id in any order. And every
body the reader accepts is made of entries cut at the first blank and the first NUL; when each
mode is spelt canonically and each name is UTF-8, writing the tree read gives back the body. -/
theorem codec_roundtrip :
    (∀ items : List TreeEntry, (∀ e ∈ items, '\x00' ∉ e.name.toList) →
      parse (ofEntries items).encode = .ok (ofEntries items) ∧
      ((ofEntries items).entries.Pairwise fun a b => Bytes.compare a.sortKey b.sortKey ≠ .gt) ∧
      (ofEntries items).entries.Perm items) ∧
    (∀ l₁ l₂ : List TreeEntry, l₁.Perm l₂ → (l₁.map TreeEntry.sortKey).Nodup →
      (ofEntries l₁).id = (ofEntries l₂).id) ∧
    (∀ (d : Bytes) (t : Tree), parse d = .ok t →
      ∃ raws : List (Bytes × Bytes × ObjectId),
        d = raws.flatMap (fun r => rawEntry r.1 r.2.1 r.2.2) ∧
        (∀ r ∈ raws, 32 ∉ r.1 ∧ 0 ∉ r.2.1) ∧
        ((∀ r ∈ raws, (∃ m : EntryMode, r.1 = Bytes.ofString m.octal) ∧
          Utf8.isValid r.2.1 = true) → t.encode = d)) := by
  refine ⟨?built, ?order, ?read⟩
  case built =>
    intro items hnul
    refine ⟨parse_eq_ok_iff.2 (parseEntries_encode fun e he => hnul e ?_), ofEntries_sorted items,
      ofEntries_perm items⟩
    exact (ofEntries_perm items).subset he
  case order =>
    intro l₁ l₂ hp hkeys
    rw [ofEntries_eq_of_perm hp hkeys]
  case read =>
    intro d t hparse
    have hentries := parse_eq_ok_iff.1 hparse
    obtain ⟨raws, rfl, hgood⟩ := spans_of_parseEntries hentries
    exact ⟨raws, rfl, hgood, fun hcanon => encode_of_parseEntries hgood hcanon hentries⟩

/-- The tree of a file and a subdirectory reads back. -/
theorem codec_roundtrip_readme :
    (∀ e ∈ [(⟨.file, .zero, "README.md"⟩ : TreeEntry), ⟨.tree, .zero, "docs"⟩],
      '\x00' ∉ e.name.toList) ∧
    parse (ofEntries [⟨.file, .zero, "README.md"⟩, ⟨.tree, .zero, "docs"⟩]).encode =
      .ok (ofEntries [⟨.file, .zero, "README.md"⟩, ⟨.tree, .zero, "docs"⟩]) := by
  have hnul : ∀ e ∈ [(⟨.file, .zero, "README.md"⟩ : TreeEntry), ⟨.tree, .zero, "docs"⟩],
      '\x00' ∉ e.name.toList := by
    intro e he
    simp only [List.mem_cons, List.not_mem_nil, or_false] at he
    rcases he with rfl | rfl <;> decide +kernel
  exact ⟨hnul, (codec_roundtrip.1 _ hnul).1⟩

end Tree

end GitServer
