import GitServer.Storage.Reference
import GitServer.Text.Utf8
import Mathlib

/-!
# Records in text: object ids and reference targets

Storage keeps ids and reference targets as text: an id as forty lowercase hexadecimal
digits, a loose object under a key made of them, a direct reference as its id and a line
feed. All of it is ASCII, so its bytes are its characters, and reading the bytes back as
UTF-8 gives the text again (`Utf8.decodeLossy_ofString`).

Main statements: every id reads back from its digits (`ObjectId.parse_toHex`), so the digits
name one id only (`ObjectId.toHex_injective`) and so do the two parts of a loose object's key
(`ObjectId.fanout_injective`); and a direct target reads back from its record
(`RefTarget.decode_encode_direct`).
-/

namespace ByteArray

theorem toList_loop_eq (bs : ByteArray) (i : Nat) (r : List UInt8) :
    toList.loop bs i r = r.reverse ++ bs.data.toList.drop i := by
  fun_induction toList.loop bs i r with
  | case1 i r h ih =>
    have hi : i < bs.data.toList.length := by simpa using h
    rw [ih, List.drop_eq_getElem_cons hi]
    simp [ByteArray.get!, h]
  | case2 i r h =>
    rw [List.drop_eq_nil_of_le (by simpa using Nat.le_of_not_lt h)]
    simp

theorem toList_eq_data_toList (bs : ByteArray) : bs.toList = bs.data.toList := by
  simp [toList, toList_loop_eq]

end ByteArray

namespace GitServer

/-! ## ASCII text -/

theorem Bytes.ofString_eq_flatMap (s : String) :
    Bytes.ofString s = s.toList.flatMap String.utf8EncodeChar := by
  rw [Bytes.ofString, String.toUTF8_eq_toByteArray, ← String.utf8Encode_toList,
    ByteArray.toList_eq_data_toList, List.utf8Encode, List.data_toByteArray, List.toList_toArray]

/-- A character below 128 is written as its one byte. -/
theorem utf8EncodeChar_ascii {c : Char} (h : c.toNat < 128) :
    String.utf8EncodeChar c = [UInt8.ofNat c.toNat] := by
  have hv : c.val.toNat ≤ 127 := by simp only [Char.toNat] at h; omega
  simp only [String.utf8EncodeChar, hv, if_true]
  rfl

/-- An ASCII text is written one byte a character. -/
theorem Bytes.ofString_ascii {s : String} (h : ∀ c ∈ s.toList, c.toNat < 128) :
    Bytes.ofString s = s.toList.map fun c => UInt8.ofNat c.toNat := by
  have general : ∀ l : List Char, (∀ c ∈ l, c.toNat < 128) →
      l.flatMap String.utf8EncodeChar = l.map fun c => UInt8.ofNat c.toNat := by
    intro l
    induction l with
    | nil => intro _; rfl
    | cons c l ih =>
      intro hl
      rw [List.flatMap_cons, utf8EncodeChar_ascii (hl c (by simp)),
        ih fun c' hc' => hl c' (by simp [hc'])]
      rfl
  rw [Bytes.ofString_eq_flatMap, general _ h]

/-- The bytes of an ASCII literal, read off its characters. The check that every character is
ASCII is a `Bool` the elaborator evaluates, so `Bytes.ofString_literal rfl` spells out a literal
without a kernel-only evaluation of its UTF-8 encoding. -/
theorem Bytes.ofString_literal {s : String}
    (h : (s.toList.all fun c => decide (c.toNat < 128)) = true) :
    Bytes.ofString s = s.toList.map fun c => UInt8.ofNat c.toNat :=
  Bytes.ofString_ascii fun c hc => of_decide_eq_true (List.all_eq_true.mp h c hc)

theorem toNat_ofNat_ascii {c : Char} (h : c.toNat < 128) : (UInt8.ofNat c.toNat).toNat = c.toNat :=
  Nat.mod_eq_of_lt (by omega)

theorem Utf8.pieces_ascii_map :
    ∀ {l : List Char}, (∀ c ∈ l, c.toNat < 128) →
      pieces (l.map fun c => UInt8.ofNat c.toNat) = l.map some
  | [], _ => by simp [pieces]
  | c :: l, h => by
    have hc : c.toNat < 128 := h c (by simp)
    have hbyte : UInt8.ofNat c.toNat < 0x80 := by
      simp only [UInt8.lt_iff_toNat_lt, toNat_ofNat_ascii hc]
      exact hc
    rw [List.map_cons, pieces_ascii hbyte, pieces_ascii_map fun c' hc' => h c' (by simp [hc'])]
    simp [toNat_ofNat_ascii hc, Char.ofNat_toNat]

/-- **ASCII text reads back from its bytes.** -/
theorem Utf8.decodeLossy_ofString {s : String} (h : ∀ c ∈ s.toList, c.toNat < 128) :
    decodeLossy (Bytes.ofString s) = s := by
  rw [decodeLossy, Bytes.ofString_ascii h, pieces_ascii_map h]
  simp

/-! ## Hexadecimal digits -/

namespace Hex

/-- A digit is ASCII, no blank, and no `r`. -/
theorem digitChar_plain {n : Nat} (h : n < 16) :
    (digitChar n).toNat < 128 ∧ Blank.isBlank (digitChar n) = false ∧ digitChar n ≠ 'r' := by
  revert n
  decide

theorem toList_encode (bs : Bytes) : (encode bs).toList = bs.flatMap byteChars := by
  simp [encode]

theorem length_toList_encode (bs : Bytes) : (encode bs).toList.length = 2 * bs.length := by
  rw [toList_encode]
  induction bs with
  | nil => rfl
  | cons b bs ih => simp [byteChars, ih]; omega

theorem plain_of_mem_encode {bs : Bytes} {c : Char} (hc : c ∈ (encode bs).toList) :
    c.toNat < 128 ∧ Blank.isBlank c = false ∧ c ≠ 'r' := by
  rw [toList_encode, List.mem_flatMap] at hc
  obtain ⟨b, -, hb⟩ := hc
  have hlt : b.toNat < 256 := b.toNat_lt
  simp only [byteChars, List.mem_cons, List.not_mem_nil, or_false] at hb
  rcases hb with rfl | rfl
  · exact digitChar_plain (by omega)
  · exact digitChar_plain (by omega)

end Hex

/-! ## Object ids -/

namespace ObjectId

/-- Reading the bytes of the digits of a byte string gives the byte string. -/
theorem hexBytes_digits :
    ∀ (pos : Nat) (bs : Bytes),
      hexBytes pos ((bs.flatMap Hex.byteChars).map fun c => UInt8.ofNat c.toNat) = .ok bs
  | _, [] => by simp [hexBytes]
  | pos, b :: bs => by
    have hlt : b.toNat < 256 := b.toNat_lt
    have hhi := Hex.digitChar_plain (n := b.toNat / 16) (by omega)
    have hlo := Hex.digitChar_plain (n := b.toNat % 16) (by omega)
    -- each digit's byte reads back as the digit, and the digit as its value
    have hv1 := Hex.digitValue?_digitChar (b.toNat / 16) (by omega)
    have hv2 := Hex.digitValue?_digitChar (b.toNat % 16) (by omega)
    have hb : UInt8.ofNat (b.toNat / 16 * 16 + b.toNat % 16) = b := by
      rw [Nat.div_add_mod']
      exact UInt8.ofNat_toNat
    simp only [List.flatMap_cons, Hex.byteChars, List.cons_append, List.nil_append, List.map_cons,
      hexBytes, toNat_ofNat_ascii hhi.1, toNat_ofNat_ascii hlo.1, Char.ofNat_toNat, hv1, hv2,
      hexBytes_digits (pos + 2) bs, hb]
    rfl

theorem plain_of_mem_toHex {id : ObjectId} {c : Char} (hc : c ∈ id.toHex.toList) :
    c.toNat < 128 ∧ Blank.isBlank c = false ∧ c ≠ 'r' :=
  Hex.plain_of_mem_encode hc

theorem length_toHex (id : ObjectId) : id.toHex.toList.length = 40 := by
  rw [toHex, Hex.length_toList_encode, id.length_bytes]

theorem ofString_toHex (id : ObjectId) :
    Bytes.ofString id.toHex = (id.bytes.flatMap Hex.byteChars).map fun c => UInt8.ofNat c.toNat := by
  rw [Bytes.ofString_ascii fun c hc => (plain_of_mem_toHex hc).1, toHex, Hex.toList_encode]

/-- **Every id reads back from its forty digits.** -/
theorem parse_toHex (id : ObjectId) : parse id.toHex = .ok id := by
  have hlen : (Bytes.ofString id.toHex).length = 40 := by
    rw [Bytes.ofString_ascii fun c hc => (plain_of_mem_toHex hc).1, List.length_map, length_toHex]
  have hraw : hexBytes 0 (Bytes.ofString id.toHex) = .ok id.bytes := by
    rw [ofString_toHex, hexBytes_digits]
  simp only [parse, hlen, if_true, hraw, bind, Except.bind]
  rw [dif_pos id.length_bytes]
  rfl

theorem toHex_injective : Function.Injective toHex := by
  intro a b h
  have hparse := parse_toHex a
  rw [h, parse_toHex b] at hparse
  exact (Except.ok.inj hparse).symm

theorem fanout_append (id : ObjectId) : id.fanout.1 ++ id.fanout.2 = id.toHex := by
  rw [← String.toList_inj, String.toList_append]
  simp only [fanout, String.toList_ofList, List.take_append_drop]

theorem length_fanout_fst (id : ObjectId) : id.fanout.1.toList.length = 2 := by
  simp [fanout, length_toHex]

/-- The two parts of a loose object's key name one id only. -/
theorem fanout_injective {a b : ObjectId} (h : a.fanout = b.fanout) : a = b := by
  apply toHex_injective
  rw [← fanout_append a, ← fanout_append b, h]

/-- Twenty bytes `0x11`, the id of the worked examples, are as long as an id. Stated once and
cited by name, so that every example id built from them carries this one proof. -/
theorem length_replicate_17 : (List.replicate 20 (0x11 : UInt8)).length = 20 :=
  List.length_replicate

end ObjectId

/-! ## Reference targets -/

namespace RefTarget

theorem dropWhile_toHex {p : Char → Bool} {id : ObjectId}
    (hp : ∀ c, Blank.isBlank c = false → p c = false) :
    id.toHex.toList.dropWhile p = id.toHex.toList := by
  -- the first digit is no blank, so nothing is dropped
  cases h : id.toHex.toList with
  | nil => rfl
  | cons c cs =>
    have hc := @ObjectId.plain_of_mem_toHex id c (by rw [h]; exact List.mem_cons_self)
    simp [hp c hc.2.1]

theorem reverse_dropWhile_toHex {p : Char → Bool} {id : ObjectId}
    (hp : ∀ c, Blank.isBlank c = false → p c = false) :
    id.toHex.toList.reverse.dropWhile p = id.toHex.toList.reverse := by
  cases h : id.toHex.toList.reverse with
  | nil => rfl
  | cons c cs =>
    have hc := @ObjectId.plain_of_mem_toHex id c (List.mem_reverse.mp (by simp [h]))
    simp [hp c hc.2.1]

theorem trim_toHex (id : ObjectId) : Blank.trim id.toHex = id.toHex := by
  apply String.ext
  have hp : ∀ c, Blank.isBlank c = false → Blank.isBlank c = false := fun _ h => h
  simp [Blank.trim, Blank.trimStart, Blank.trimEnd, dropWhile_toHex hp, reverse_dropWhile_toHex hp]

theorem not_startsWith_toHex (id : ObjectId) : id.toHex.startsWith "ref:" = false := by
  -- the first digit is no `r`
  rw [Bool.eq_false_iff]
  intro h
  obtain ⟨t, ht⟩ := String.startsWith_string_iff.mp h
  have hr : 'r' ∈ id.toHex.toList := by
    rw [← ht]
    simp
  exact (ObjectId.plain_of_mem_toHex hr).2.2 rfl

/-- **A direct target reads back from its record.** -/
theorem decode_encode_direct (id : ObjectId) : decode (direct id).encode = .ok (.direct id) := by
  -- the line feed goes, the digits stay and parse back
  have hline : String.ofList (((direct id).encode.toList.reverse.dropWhile
      fun c => decide (c = '\n' ∨ c = '\r')).reverse) = id.toHex := by
    have hp : ∀ c, Blank.isBlank c = false → decide (c = '\n' ∨ c = '\r') = false := by
      intro c hc
      rcases Decidable.em (c = '\n') with rfl | h1
      · simp [Blank.isBlank, Blank.codePoints] at hc
      rcases Decidable.em (c = '\r') with rfl | h2
      · simp [Blank.isBlank, Blank.codePoints] at hc
      simp [h1, h2]
    have henc : (direct id).encode.toList = id.toHex.toList ++ ['\n'] := by
      simp [encode, render]
    rw [henc, List.reverse_append, List.reverse_singleton, List.singleton_append,
      List.dropWhile_cons_of_pos (by decide), reverse_dropWhile_toHex hp, List.reverse_reverse,
      String.ofList_toList]
  simp only [decode, hline, trim_toHex, not_startsWith_toHex, ObjectId.parse_toHex]
  rfl

theorem ascii_encode_direct (id : ObjectId) : ∀ c ∈ (direct id).encode.toList, c.toNat < 128 := by
  intro c hc
  simp only [encode, render, String.toList_append, List.mem_append] at hc
  rcases hc with hc | hc
  · exact (ObjectId.plain_of_mem_toHex hc).1
  · simp at hc
    subst hc
    decide

end RefTarget

end GitServer
