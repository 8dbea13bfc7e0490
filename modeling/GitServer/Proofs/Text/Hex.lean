import GitServer.Proofs.Text.Utf8

/-!
# Object ids as hexadecimal text

An id is written as forty lowercase hexadecimal digits and read from forty bytes that are
digits of either case. `Hex.IsDigit` and `Hex.IsLowerDigit` say what a digit is, by its
character ranges alone. Reading two digits gives the byte that is written back as the same
two digits in lower case (`Hex.byteChars_digits`), so reading a text gives an id exactly
when the text has forty bytes that are all digits (`ObjectId.IsIdText`), and the id is then
written as the text in lower case (`ObjectId.parse_eq_ok_iff`). Together with the read-back
of every id from its digits and from its bytes, this is the codec's law
(`ObjectId.hexText_codec`).
-/

namespace GitServer

namespace Hex

/-- A hexadecimal digit of either case. -/
def IsDigit (c : Char) : Prop := ('0' ≤ c ∧ c ≤ '9') ∨ ('a' ≤ c ∧ c ≤ 'f') ∨ ('A' ≤ c ∧ c ≤ 'F')

/-- A lowercase hexadecimal digit. -/
def IsLowerDigit (c : Char) : Prop := ('0' ≤ c ∧ c ≤ '9') ∨ ('a' ≤ c ∧ c ≤ 'f')

instance : DecidablePred IsDigit := fun c =>
  inferInstanceAs (Decidable (('0' ≤ c ∧ c ≤ '9') ∨ ('a' ≤ c ∧ c ≤ 'f') ∨ ('A' ≤ c ∧ c ≤ 'F')))

instance : DecidablePred IsLowerDigit := fun c =>
  inferInstanceAs (Decidable (('0' ≤ c ∧ c ≤ '9') ∨ ('a' ≤ c ∧ c ≤ 'f')))

/-! ## Characters as numbers -/

theorem toNat_ofNat_byte {n : Nat} (h : n < 256) : (Char.ofNat n).toNat = n := by
  simp [Char.toNat_ofNat, Nat.isValidChar]
  omega

/-- Lower case moves `A` to `Z` up by 32 and leaves every other character alone. -/
theorem toNat_toLower (c : Char) :
    c.toLower.toNat = if 65 ≤ c.toNat ∧ c.toNat ≤ 90 then c.toNat + 32 else c.toNat := by
  unfold Char.toLower
  split_ifs with hupper hrange hrange
  · simp only [Char.toNat, UInt32.toNat_add]
    simp only [Char.toNat] at hrange
    have h32 : ('a'.val - 'A'.val).toNat = 32 := rfl
    rw [h32]
    omega
  · exact absurd ⟨UInt32.le_iff_toNat_le.mp hupper.1, UInt32.le_iff_toNat_le.mp hupper.2⟩ hrange
  · exact absurd ⟨UInt32.le_iff_toNat_le.mpr hrange.1, UInt32.le_iff_toNat_le.mpr hrange.2⟩ hupper
  · rfl

/-! ## Digits -/

theorem isSome_digitValue? (c : Char) : (digitValue? c).isSome ↔ IsDigit c := by
  unfold digitValue? IsDigit
  split_ifs <;> simp_all

theorem toNat_lt_of_isDigit {c : Char} (h : IsDigit c) : c.toNat < 128 := by
  simp only [IsDigit, Char.le_def, UInt32.le_iff_toNat_le, Char.toNat_val, Char.reduceToNat] at h
  omega

/-- A digit of either case has a value below sixteen, whose digit is the digit in lower
case. -/
theorem digitValue?_spec {c : Char} {v : Nat} (h : digitValue? c = some v) :
    v < 16 ∧ digitChar v = c.toLower := by
  unfold digitValue? at h
  simp only [Char.le_def, UInt32.le_iff_toNat_le, Char.toNat_val, Char.reduceToNat] at h
  split_ifs at h with hdec hlow hup <;> cases h
  all_goals
    refine ⟨by omega, ?_⟩
    rw [← Char.toNat_inj, toNat_toLower, digitChar]
    split_ifs <;> rw [toNat_ofNat_byte (by omega)] <;> omega

theorem isLowerDigit_digitChar : ∀ n < 16, IsLowerDigit (digitChar n) := by
  decide

/-- Two digits of either case make the byte that is written as the two digits in lower
case. -/
theorem byteChars_digits {hi lo : Char} {h l : Nat} (hh : digitValue? hi = some h)
    (hl : digitValue? lo = some l) :
    byteChars (UInt8.ofNat (h * 16 + l)) = [hi.toLower, lo.toLower] := by
  obtain ⟨hlt, hchar⟩ := digitValue?_spec hh
  obtain ⟨llt, lchar⟩ := digitValue?_spec hl
  have hbyte : (UInt8.ofNat (h * 16 + l)).toNat = h * 16 + l := by
    rw [UInt8.toNat_ofNat']
    omega
  rw [byteChars, hbyte, show (h * 16 + l) / 16 = h by omega, show (h * 16 + l) % 16 = l by omega,
    hchar, lchar]

theorem isLowerDigit_of_mem_encode {bs : Bytes} {c : Char} (hc : c ∈ (encode bs).toList) :
    IsLowerDigit c := by
  rw [toList_encode, List.mem_flatMap] at hc
  obtain ⟨b, -, hb⟩ := hc
  have hlt : b.toNat < 256 := b.toNat_lt
  simp only [byteChars, List.mem_cons, List.not_mem_nil, or_false] at hb
  rcases hb with rfl | rfl
  · exact isLowerDigit_digitChar _ (by omega)
  · exact isLowerDigit_digitChar _ (by omega)

end Hex

/-! ## ASCII bytes -/

theorem Utf8.pieces_ascii_bytes :
    ∀ {bs : Bytes}, (∀ b ∈ bs, b.toNat < 128) →
      pieces bs = bs.map fun b => some (Char.ofNat b.toNat)
  | [], _ => by simp [pieces]
  | b :: bs, h => by
    rw [pieces_cons_of_lt (h b (by simp)), List.map_cons,
      pieces_ascii_bytes fun b' hb' => h b' (by simp [hb'])]

/-- A text whose bytes are all ASCII is its bytes read one character each. -/
theorem toList_of_ascii_bytes {s : String} (h : ∀ b ∈ Bytes.ofString s, b.toNat < 128) :
    s.toList = (Bytes.ofString s).map fun b => Char.ofNat b.toNat := by
  have hpieces :
      ((Bytes.ofString s).map fun b => Char.ofNat b.toNat).map some = s.toList.map some := by
    rw [List.map_map]
    exact (Utf8.pieces_ascii_bytes h).symm.trans (Utf8.pieces_ofString s)
  exact (List.map_injective_iff.mpr (Option.some_injective Char) hpieces).symm

namespace ObjectId

/-- Two digits at the front are read into one byte ahead of the rest. -/
private theorem hexBytes_cons_cons {pos h l : Nat} {hi lo : UInt8} {rest : Bytes}
    (hh : Hex.digitValue? (Char.ofNat hi.toNat) = some h)
    (hl : Hex.digitValue? (Char.ofNat lo.toNat) = some l) :
    hexBytes pos (hi :: lo :: rest) =
      (hexBytes (pos + 2) rest).map (UInt8.ofNat (h * 16 + l) :: ·) := by
  simp only [hexBytes, hh, hl]
  cases hexBytes (pos + 2) rest <;> rfl

/-- What the digit reader accepts: bytes of an even count that are all digits, read as the
bytes whose digits are those bytes in lower case. -/
theorem hexBytes_spec : ∀ (pos : Nat) (bs raw : Bytes), bs.length % 2 = 0 →
    hexBytes pos bs = .ok raw →
      (∀ b ∈ bs, Hex.IsDigit (Char.ofNat b.toNat)) ∧
        raw.flatMap Hex.byteChars = bs.map fun b => (Char.ofNat b.toNat).toLower
  | _, [], raw, _, hread => by
    simp only [hexBytes, Except.ok.injEq] at hread
    subst hread
    simp
  | _, [_], _, heven, _ => by simp at heven
  | pos, hi :: lo :: rest, raw, heven, hread => by
    cases hh : Hex.digitValue? (Char.ofNat hi.toNat) with
    | none => simp [hexBytes, hh] at hread
    | some h =>
      cases hl : Hex.digitValue? (Char.ofNat lo.toNat) with
      | none => simp [hexBytes, hh, hl] at hread
      | some l =>
        rw [hexBytes_cons_cons hh hl] at hread
        cases hrest : hexBytes (pos + 2) rest with
        | error e => simp [hrest, Except.map] at hread
        | ok r =>
          simp only [hrest, Except.map, Except.ok.injEq] at hread
          subst hread
          have ih := hexBytes_spec (pos + 2) rest r
            (by simp only [List.length_cons] at heven; omega) hrest
          refine ⟨?_, ?_⟩
          · intro b hb
            rcases List.mem_cons.mp hb with rfl | hb
            · exact (Hex.isSome_digitValue? _).mp (by simp [hh])
            rcases List.mem_cons.mp hb with rfl | hb
            · exact (Hex.isSome_digitValue? _).mp (by simp [hl])
            · exact ih.1 b hb
          · rw [List.flatMap_cons, Hex.byteChars_digits hh hl, ih.2]
            rfl

/-- Bytes of an even count that are all digits are read. -/
theorem hexBytes_of_digits : ∀ (pos : Nat) (bs : Bytes), bs.length % 2 = 0 →
    (∀ b ∈ bs, Hex.IsDigit (Char.ofNat b.toNat)) → ∃ raw, hexBytes pos bs = .ok raw
  | _, [], _, _ => ⟨[], by simp [hexBytes]⟩
  | _, [_], heven, _ => by simp at heven
  | pos, hi :: lo :: rest, heven, hdigits => by
    obtain ⟨h, hh⟩ := Option.isSome_iff_exists.mp
      ((Hex.isSome_digitValue? _).mpr (hdigits hi (by simp)))
    obtain ⟨l, hl⟩ := Option.isSome_iff_exists.mp
      ((Hex.isSome_digitValue? _).mpr (hdigits lo (by simp)))
    obtain ⟨r, hr⟩ := hexBytes_of_digits (pos + 2) rest
      (by simp only [List.length_cons] at heven; omega) fun b hb => hdigits b (by simp [hb])
    exact ⟨_, by rw [hexBytes_cons_cons hh hl, hr]; rfl⟩

theorem length_flatMap_byteChars (raw : Bytes) :
    (raw.flatMap Hex.byteChars).length = 2 * raw.length := by
  rw [← Hex.toList_encode, Hex.length_toList_encode]

/-- A text an id is read from: forty bytes, each a hexadecimal digit of either case. -/
def IsIdText (s : String) : Prop :=
  (Bytes.ofString s).length = 40 ∧ ∀ b ∈ Bytes.ofString s, Hex.IsDigit (Char.ofNat b.toNat)

/-- The bytes of a text of digits are its characters, so its lower case is its bytes' digits
in lower case. -/
theorem toList_toLower_of_digits {s : String}
    (hdigits : ∀ b ∈ Bytes.ofString s, Hex.IsDigit (Char.ofNat b.toNat)) :
    s.toLower.toList = (Bytes.ofString s).map fun b => (Char.ofNat b.toNat).toLower := by
  have hascii : ∀ b ∈ Bytes.ofString s, b.toNat < 128 := by
    intro b hb
    have := Hex.toNat_lt_of_isDigit (hdigits b hb)
    rwa [Hex.toNat_ofNat_byte b.toNat_lt] at this
  rw [String.toLower, String.toList_map, toList_of_ascii_bytes hascii, List.map_map]
  rfl

/-- What is read is an id text, and the id read is written as the text in lower case. -/
theorem parse_spec {s : String} {id : ObjectId} (hparse : parse s = .ok id) :
    IsIdText s ∧ id.toHex = s.toLower := by
  unfold parse at hparse
  dsimp only at hparse
  split_ifs at hparse with hlen
  cases hread : hexBytes 0 (Bytes.ofString s) with
  | error e => simp [hread, bind, Except.bind] at hparse
  | ok raw =>
    simp only [hread, bind, Except.bind] at hparse
    split_ifs at hparse with hraw
    simp only [pure, Except.pure, Except.ok.injEq] at hparse
    subst hparse
    obtain ⟨hdigits, hchars⟩ := hexBytes_spec 0 _ raw (by omega) hread
    refine ⟨⟨hlen, hdigits⟩, ?_⟩
    rw [← String.toList_inj, toHex, Hex.toList_encode, hchars, toList_toLower_of_digits hdigits]

/-- Every id text is read. -/
theorem parse_of_isIdText {s : String} (htext : IsIdText s) : ∃ id, parse s = .ok id := by
  obtain ⟨hlen, hdigits⟩ := htext
  obtain ⟨raw, hread⟩ := hexBytes_of_digits 0 _ (by omega) hdigits
  -- forty digits make twenty bytes
  have hraw : raw.length = 20 := by
    have := congrArg List.length (hexBytes_spec 0 _ raw (by omega) hread).2
    rw [length_flatMap_byteChars, List.length_map, hlen] at this
    omega
  refine ⟨⟨raw, hraw⟩, ?_⟩
  simp only [parse, hlen, if_true, hread, bind, Except.bind]
  rw [dif_pos hraw]
  rfl

/-- **An id is read from exactly the id texts**, and is the id written as the text in lower
case. -/
theorem parse_eq_ok_iff (s : String) (id : ObjectId) :
    parse s = .ok id ↔ IsIdText s ∧ id.toHex = s.toLower := by
  refine ⟨parse_spec, fun hread => ?_⟩
  obtain ⟨htext, hlower⟩ := hread
  obtain ⟨id', hparse⟩ := parse_of_isIdText htext
  -- the id read is written as the text in lower case, as `id` is, so it is `id`
  rwa [toHex_injective ((parse_spec hparse).2.trans hlower.symm)] at hparse

/-- **The hexadecimal codec of ids.** Every id is written as forty lowercase digits, reads
back from them and from its bytes, and its loose-object key parts join into its text; a text
is read as an id exactly when it has forty bytes that are all digits of either case, and the
id is then written as the text in lower case. -/
theorem hexText_codec :
    (∀ id : ObjectId, id.toHex.length = 40 ∧ (∀ c ∈ id.toHex.toList, Hex.IsLowerDigit c) ∧
      parse id.toHex = .ok id ∧ ofBytes? id.bytes = .ok id ∧
      id.fanout.1 ++ id.fanout.2 = id.toHex) ∧
    (∀ s : String, (∃ id, parse s = .ok id) ↔ IsIdText s) ∧
    (∀ (s : String) (id : ObjectId), parse s = .ok id → id.toHex = s.toLower) := by
  refine ⟨fun id => ⟨?_, fun c hc => Hex.isLowerDigit_of_mem_encode hc, parse_toHex id, ?_,
    fanout_append id⟩,
    fun s => ⟨fun hread => hread.elim fun _ hparse => (parse_spec hparse).1, parse_of_isIdText⟩,
    fun _ _ hparse => (parse_spec hparse).2⟩
  · rw [← String.length_toList, length_toHex]
  · simp [ofBytes?, id.length_bytes]

end ObjectId

end GitServer
