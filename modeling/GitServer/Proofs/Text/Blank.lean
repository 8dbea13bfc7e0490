import GitServer.Text.Blank
import GitServer.Proofs.Text.Utf8
import Mathlib

/-!
# Trimming encoded blanks

Bytes that need not be UTF-8 are trimmed by dropping the encodings of blanks from either end
(`Blank.trimBytes`). On bytes written from a text this is trimming characters, because UTF-8
can be cut at character boundaries from both sides: an encoding that begins where a character's
encoding begins is that character's (`Utf8.eq_of_prefix_utf8EncodeChar`), and one that ends
where a character's encoding ends is that character's too (`Utf8.eq_of_suffix_utf8EncodeChar`),
since every byte of an encoding but the first is a continuation byte and the first never is.

So text that starts (ends) with a character that is not blank is left alone at that end
(`Blank.trimBytesStart_ofString`, `Blank.trimBytesEnd_ofString`), and a space is dropped
like any blank: a field written between spaces trims back to itself.
-/

namespace GitServer

namespace Utf8

/-- An encoding is a byte that starts a character followed by continuation bytes. -/
theorem utf8EncodeChar_eq_cons (c : Char) : ∃ b bs, String.utf8EncodeChar c = b :: bs ∧
    isContinuation b = false ∧ ∀ x ∈ bs, isContinuation x = true := by
  unfold String.utf8EncodeChar
  generalize c.val.toNat = v
  simp only []
  split_ifs <;> simp [isContinuation, UInt8.le_iff_toNat_le, UInt8.lt_iff_toNat_lt] <;> omega

theorem utf8EncodeChar_ne_nil (c : Char) : String.utf8EncodeChar c ≠ [] := by
  obtain ⟨b, bs, h, -⟩ := utf8EncodeChar_eq_cons c
  simp [h]

theorem utf8EncodeChar_injective : Function.Injective String.utf8EncodeChar := by
  intro b c h
  have hb := pieces_utf8EncodeChar b []
  rw [h, pieces_utf8EncodeChar] at hb
  simpa using hb.symm

/-- UTF-8 is a prefix code: an encoding at the front of a character's encoding, and whatever
follows it, is that character's. -/
theorem eq_of_prefix_utf8EncodeChar {b c : Char} {rest : Bytes}
    (h : String.utf8EncodeChar b <+: String.utf8EncodeChar c ++ rest) : b = c := by
  obtain ⟨t, ht⟩ := h
  have hpieces := pieces_utf8EncodeChar c rest
  rw [← ht, pieces_utf8EncodeChar] at hpieces
  simpa using (List.cons_eq_cons.1 hpieces).1

/-- An encoding ending another cannot start inside it, where only continuation bytes are. -/
theorem eq_of_suffix_utf8EncodeChar_self {b c : Char}
    (h : String.utf8EncodeChar b <:+ String.utf8EncodeChar c) : b = c := by
  obtain ⟨p, hp⟩ := h
  obtain ⟨x, xs, hx, hlead, -⟩ := utf8EncodeChar_eq_cons b
  obtain ⟨y, ys, hy, -, hcont⟩ := utf8EncodeChar_eq_cons c
  cases p with
  | nil => exact utf8EncodeChar_injective (by simpa using hp)
  | cons z zs =>
    -- the first byte of `b`'s encoding would be one of the continuation bytes of `c`'s
    rw [hx, hy, List.cons_append, List.cons.injEq] at hp
    have hmem : x ∈ ys := by simp [← hp.2]
    simp [hcont x hmem] at hlead

/-- UTF-8 can be read backwards: an encoding at the end of bytes that end with a character's
encoding is that character's. -/
theorem eq_of_suffix_utf8EncodeChar {b c : Char} {front : Bytes}
    (h : String.utf8EncodeChar b <:+ front ++ String.utf8EncodeChar c) : b = c := by
  -- of two suffixes of one list, one is a suffix of the other
  rcases List.suffix_or_suffix_of_suffix h (List.suffix_append front _) with hbc | hcb
  · exact eq_of_suffix_utf8EncodeChar_self hbc
  · exact (eq_of_suffix_utf8EncodeChar_self hcb).symm

/-- An ASCII byte is written for its own character only. -/
theorem toNat_of_mem_utf8EncodeChar {c : Char} {b : UInt8} (hb : b.toNat < 0x80)
    (h : b ∈ String.utf8EncodeChar c) : c.toNat = b.toNat := by
  rw [Char.toNat]
  unfold String.utf8EncodeChar at h
  generalize c.val.toNat = v at h ⊢
  simp only [] at h
  split_ifs at h <;> simp [← UInt8.toNat_inj] at h <;> omega

theorem mem_toList_of_mem_ofString {s : String} {b : UInt8} (hb : b.toNat < 0x80)
    (h : b ∈ Bytes.ofString s) : Char.ofNat b.toNat ∈ s.toList := by
  rw [Bytes.ofString_eq_flatMap, List.mem_flatMap] at h
  obtain ⟨c, hc, hbc⟩ := h
  rw [← toNat_of_mem_utf8EncodeChar hb hbc, Char.ofNat_toNat]
  exact hc

/-- An ASCII byte is missing from the bytes of a text that lacks its character. -/
theorem not_mem_ofString {s : String} {b : UInt8} {c : Char} (hb : b.toNat < 0x80)
    (hc : Char.ofNat b.toNat = c) (h : c ∉ s.toList) : b ∉ Bytes.ofString s :=
  fun hm => h (hc ▸ mem_toList_of_mem_ofString hb hm)

end Utf8

namespace Blank

theorem encodings_eq : encodings =
    [[9], [10], [11], [12], [13], [32], [0xC2, 0x85], [0xC2, 0xA0], [0xE1, 0x9A, 0x80],
     [0xE2, 0x80, 0x80], [0xE2, 0x80, 0x81], [0xE2, 0x80, 0x82], [0xE2, 0x80, 0x83],
     [0xE2, 0x80, 0x84], [0xE2, 0x80, 0x85], [0xE2, 0x80, 0x86], [0xE2, 0x80, 0x87],
     [0xE2, 0x80, 0x88], [0xE2, 0x80, 0x89], [0xE2, 0x80, 0x8A], [0xE2, 0x80, 0xA8],
     [0xE2, 0x80, 0xA9], [0xE2, 0x80, 0xAF], [0xE2, 0x81, 0x9F], [0xE3, 0x80, 0x80]] := by
  decide +kernel

theorem isBlank_of_mem_codePoints : ∀ n ∈ codePoints, isBlank (Char.ofNat n) = true := by
  decide +kernel

/-- Every encoding trimmed is the encoding of a blank. -/
theorem mem_encodings {e : Bytes} (h : e ∈ encodings) :
    ∃ b, isBlank b = true ∧ e = String.utf8EncodeChar b := by
  obtain ⟨n, hn, rfl⟩ := List.mem_map.1 h
  refine ⟨Char.ofNat n, isBlank_of_mem_codePoints n hn, ?_⟩
  simp [Bytes.ofString_eq_flatMap]

theorem isBlank_space : isBlank ' ' = true := by decide

/-- A blank is missing from text that holds no blank. -/
theorem not_mem_of_not_blank {l : List Char} {c : Char} (hl : ∀ x ∈ l, isBlank x = false)
    (hc : isBlank c = true) : c ∉ l :=
  fun h => by simp [hl c h] at hc

@[simp] theorem dropPrefixes_nil (encs : List Bytes) : dropPrefixes encs [] = [] := by
  rw [dropPrefixes]

/-- Bytes that no nonempty prefix of the list begins are left alone. -/
theorem dropPrefixes_of_forall {encs : List Bytes} {bs : Bytes}
    (h : ∀ e ∈ encs, e ≠ [] → ¬ e <+: bs) : dropPrefixes encs bs = bs := by
  cases bs with
  | nil => exact dropPrefixes_nil encs
  | cons b rest =>
    have hnone : encs.find? (fun e => !e.isEmpty && e.isPrefixOf (b :: rest)) = none := by
      rw [List.find?_eq_none]
      intro e he
      simpa [List.isPrefixOf_iff_prefix] using h e he
    rw [dropPrefixes, hnone]

theorem trimBytesStart_space (bs : Bytes) : trimBytesStart (32 :: bs) = trimBytesStart bs := by
  have hfind : encodings.find? (fun e => !e.isEmpty && e.isPrefixOf (32 :: bs)) = some [32] := by
    rw [encodings_eq]
    simp
  rw [trimBytesStart, dropPrefixes, hfind]
  rfl

theorem trimBytesEnd_append_space (bs : Bytes) : trimBytesEnd (bs ++ [32]) = trimBytesEnd bs := by
  have hfind : (encodings.map List.reverse).find?
      (fun e => !e.isEmpty && e.isPrefixOf (32 :: bs.reverse)) = some [32] := by
    rw [encodings_eq]
    simp
  rw [trimBytesEnd, List.reverse_append, List.reverse_singleton, List.singleton_append,
    dropPrefixes, hfind]
  rfl

/-- Bytes that start with the encoding of a character that is not blank are not trimmed at
the front. -/
theorem trimBytesStart_of_not_blank {c : Char} (hc : isBlank c = false) (rest : Bytes) :
    trimBytesStart (String.utf8EncodeChar c ++ rest) = String.utf8EncodeChar c ++ rest := by
  apply dropPrefixes_of_forall
  intro e he _ hpre
  obtain ⟨b, hb, rfl⟩ := mem_encodings he
  rw [Utf8.eq_of_prefix_utf8EncodeChar hpre, hc] at hb
  cases hb

/-- Bytes that end with the encoding of a character that is not blank are not trimmed at the
end. -/
theorem trimBytesEnd_of_not_blank {c : Char} (hc : isBlank c = false) (front : Bytes) :
    trimBytesEnd (front ++ String.utf8EncodeChar c) = front ++ String.utf8EncodeChar c := by
  rw [trimBytesEnd, dropPrefixes_of_forall, List.reverse_reverse]
  intro e he _ hpre
  obtain ⟨e', he', rfl⟩ := List.mem_map.1 he
  obtain ⟨b, hb, rfl⟩ := mem_encodings he'
  rw [List.reverse_prefix] at hpre
  rw [Utf8.eq_of_suffix_utf8EncodeChar hpre, hc] at hb
  cases hb

theorem trimBytesStart_ofString {s : String} {c : Char} (hhead : s.toList.head? = some c)
    (hc : isBlank c = false) (rest : Bytes) :
    trimBytesStart (Bytes.ofString s ++ rest) = Bytes.ofString s ++ rest := by
  obtain ⟨cs, hcs⟩ := List.head?_eq_some_iff.1 hhead
  rw [Bytes.ofString_eq_flatMap, hcs, List.flatMap_cons, List.append_assoc,
    trimBytesStart_of_not_blank hc]

theorem trimBytesEnd_ofString {s : String} {c : Char} (hlast : s.toList.getLast? = some c)
    (hc : isBlank c = false) (front : Bytes) :
    trimBytesEnd (front ++ Bytes.ofString s) = front ++ Bytes.ofString s := by
  obtain ⟨cs, hcs⟩ := List.getLast?_eq_some_iff.1 hlast
  rw [Bytes.ofString_eq_flatMap, hcs, List.flatMap_append, List.flatMap_singleton,
    ← List.append_assoc, trimBytesEnd_of_not_blank hc]

/-- Text that ends with a character that is not blank does not end with a carriage return. -/
theorem getLast?_ofString_ne_cr {s : String} {c : Char} (hlast : s.toList.getLast? = some c)
    (hc : isBlank c = false) : (Bytes.ofString s).getLast? ≠ some 13 := by
  obtain ⟨cs, hcs⟩ := List.getLast?_eq_some_iff.1 hlast
  intro hcr
  rw [Bytes.ofString_eq_flatMap, hcs, List.flatMap_append, List.flatMap_singleton,
    List.getLast?_append_of_ne_nil _ (Utf8.utf8EncodeChar_ne_nil c)] at hcr
  have h13 : c.toNat = 13 :=
    Utf8.toNat_of_mem_utf8EncodeChar (by decide) (List.mem_of_getLast? hcr)
  have hblank : isBlank c = true := by simp [isBlank, codePoints, h13]
  rw [hc] at hblank
  cases hblank

/-- A text with no blank at either end, followed by a space, trims back to itself. -/
theorem trimBytes_ofString_append_space {s : String}
    (hhead : ∀ c ∈ s.toList.head?, isBlank c = false)
    (hlast : ∀ c ∈ s.toList.getLast?, isBlank c = false) :
    trimBytes (Bytes.ofString s ++ [32]) = Bytes.ofString s := by
  cases hs : s.toList.head? with
  | none =>
    -- the empty text: only the space is there, and it goes
    have hnil : Bytes.ofString s = [] := by
      simp [Bytes.ofString_eq_flatMap, List.head?_eq_none_iff.1 hs]
    rw [hnil, List.nil_append, trimBytes, trimBytesStart_space]
    simp [trimBytesStart, trimBytesEnd]
  | some c =>
    have hne : s.toList ≠ [] := fun h => by simp [h] at hs
    obtain ⟨d, hd⟩ := Option.isSome_iff_exists.1 (List.getLast?_isSome.2 hne)
    rw [trimBytes, trimBytesStart_ofString hs (hhead c (by simp [hs])), trimBytesEnd_append_space,
      ← List.nil_append (Bytes.ofString s), trimBytesEnd_ofString hd (hlast d (by simp [hd]))]

end Blank

end GitServer
