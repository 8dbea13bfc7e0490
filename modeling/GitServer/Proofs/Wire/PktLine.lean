import GitServer.Wire.PktLine
import GitServer.Proofs.Text.Utf8
import Mathlib
/-!
# Pkt-lines written and read back

A pkt-line starts with its length in four lowercase hexadecimal digits, the digits counted.
For every length a line can have (4 to `maxPktLength`), the digits are four ASCII characters
that read back as that length (`parseLength_lengthPrefix`), so reading a line from the front
of a buffer gives the line written and leaves exactly what followed it
(`readOne_encode_append`).

Main statement: reading a buffer line by line gives back every line written into it, flushes
included, and stops at the end of the buffer with nothing left (`readBuffered_writeLines`),
for every payload of at most 65516 bytes, the empty one too.
-/

namespace GitServer

/-! ## Hexadecimal numerals -/

namespace Numeral

theorem digitValue?_digitChar {d : Nat} (h : d < 16) :
    digitValue? 16 (Nat.digitChar d) = some d := by
  revert d
  decide

/-- Leading zeros leave a numeral at zero. -/
theorem foldlM_replicate_zero (k : Nat) :
    (List.replicate k '0').foldlM (fun acc c => (digitValue? 16 c).map (acc * 16 + ·)) 0 =
      some 0 := by
  induction k with
  | zero => rfl
  | succ k ih =>
    have h0 : digitValue? 16 '0' = some 0 := by decide
    rw [List.replicate_succ, List.foldlM_cons]
    simp [h0, ih]

/-- The hexadecimal digits of `n` read back as `n`. -/
theorem foldlM_toDigits (n : Nat) :
    (Nat.toDigits 16 n).foldlM (fun acc c => (digitValue? 16 c).map (acc * 16 + ·)) 0 =
      some n := by
  induction n using Nat.strong_induction_on with
  | _ n ih =>
    -- `Nat.toDigits` peels the last digit off: the digits of `n / 16`, then `n % 16`.
    rw [Nat.toDigits_eq_if (by decide)]
    split
    · rename_i h
      simp [digitValue?_digitChar h]
    · rename_i h
      rw [List.foldlM_append, ih (n / 16) (by omega)]
      simp [digitValue?_digitChar (Nat.mod_lt n (by decide : 16 > 0)), Nat.div_add_mod']

theorem mem_toDigits {n : Nat} {c : Char} (hc : c ∈ Nat.toDigits 16 n) :
    ∃ d < 16, c = Nat.digitChar d := by
  induction n using Nat.strong_induction_on with
  | _ n ih =>
    rw [Nat.toDigits_eq_if (by decide)] at hc
    split at hc
    · exact ⟨n, by omega, by simpa using hc⟩
    · rcases List.mem_append.1 hc with h | h
      · exact ih (n / 16) (by omega) h
      · exact ⟨n % 16, Nat.mod_lt n (by decide), by simpa using h⟩

end Numeral

/-! ## Four length digits -/

namespace Hex

theorem toList_ofNatPadded (n : Nat) :
    (ofNatPadded 4 n).toList =
      List.replicate (4 - (Nat.toDigits 16 n).length) '0' ++ Nat.toDigits 16 n := by
  simp [ofNatPadded]

theorem length_ofNatPadded {n : Nat} (hn : n < 16 ^ 4) : (ofNatPadded 4 n).toList.length = 4 := by
  have hlen : (Nat.toDigits 16 n).length ≤ 4 :=
    (Nat.length_toDigits_le_iff (by decide) (by decide)).2 hn
  rw [toList_ofNatPadded n, List.length_append, List.length_replicate]
  omega

theorem digitChar_ascii {d : Nat} (hd : d < 16) :
    (Nat.digitChar d).toNat < 128 ∧ Nat.digitChar d ≠ '+' := by
  revert d
  decide

/-- Padded digits are ASCII and carry no sign. -/
theorem ascii_ofNatPadded (n : Nat) :
    ∀ c ∈ (ofNatPadded 4 n).toList, c.toNat < 128 ∧ c ≠ '+' := by
  intro c hc
  rw [toList_ofNatPadded n] at hc
  rcases List.mem_append.1 hc with h | h
  · rw [List.eq_of_mem_replicate h]
    decide
  · obtain ⟨d, hd, rfl⟩ := Numeral.mem_toDigits h
    exact digitChar_ascii hd

/-- Four padded digits read back as the number they write. -/
theorem parseNat?_ofNatPadded {n : Nat} (hn : n < 16 ^ 4) :
    Numeral.parseNat? 16 (Nat.pow 2 64) (ofNatPadded 4 n) = some n := by
  have hplus : ∀ c ∈ (ofNatPadded 4 n).toList, c ≠ '+' :=
    fun c hc => (ascii_ofNatPadded n c hc).2
  have hne : (ofNatPadded 4 n).toList ≠ [] := by
    intro h
    have := length_ofNatPadded hn
    simp [h] at this
  have hdigits : Numeral.digits? 16 (ofNatPadded 4 n).toList = some n := by
    rw [Numeral.digits?, if_neg (by simpa using hne), toList_ofNatPadded n, List.foldlM_append,
      Numeral.foldlM_replicate_zero]
    exact Numeral.foldlM_toDigits n
  have hbound : n < Nat.pow 2 64 := by
    have : (16 : Nat) ^ 4 < Nat.pow 2 64 := by decide
    omega
  simp only [Numeral.parseNat?]
  -- The first digit is no plus sign, so the whole text is the numeral.
  split
  · rename_i rest h
    exact absurd rfl (hplus '+' (by simp [h]))
  · simp only [hdigits, Option.bind_some, if_pos hbound]

end Hex

theorem Bytes.ofString_append (a b : String) :
    Bytes.ofString (a ++ b) = Bytes.ofString a ++ Bytes.ofString b := by
  simp [Bytes.ofString_eq_flatMap]

namespace Wire

/-- A word ends at a blank or a NUL; a word of printable bytes is read whole. -/
theorem readWord_append {w rest : Bytes} {d : UInt8} (hw : ∀ b ∈ w, 32 < b.toNat)
    (hd : d = 32 ∨ d = 10) : readWord (w ++ d :: rest) = (Utf8.decodeLossy w, rest) := by
  have hword : (w ++ d :: rest).takeWhile
      (fun b => !(b == 32 || b == 9 || b == 10 || b == 12 || b == 13 || b == 0)) = w := by
    rw [List.takeWhile_append_of_pos]
    · rcases hd with rfl | rfl <;> simp
    · intro b hb
      have := hw b hb
      have h32 : b ≠ 32 := fun h => by subst h; simp at this
      have h9 : b ≠ 9 := fun h => by subst h; simp at this
      have h10 : b ≠ 10 := fun h => by subst h; simp at this
      have h12 : b ≠ 12 := fun h => by subst h; simp at this
      have h13 : b ≠ 13 := fun h => by subst h; simp at this
      have h0 : b ≠ 0 := fun h => by subst h; simp at this
      simp [h32, h9, h10, h12, h13, h0]
  simp only [readWord, hword]
  simp

/-! ## One line -/

/-- A line fits in one pkt-line: with its four length digits it is at most `maxPktLength`
long, so a payload has at most 65516 bytes. -/
def PktLine.Fits : PktLine → Prop
  | .data p => p.length + 4 ≤ maxPktLength
  | .flush => True

instance : DecidablePred PktLine.Fits
  | .data p => inferInstanceAs (Decidable (p.length + 4 ≤ maxPktLength))
  | .flush => inferInstanceAs (Decidable True)

theorem length_lengthPrefix {k : Nat} (hk : k + 4 ≤ maxPktLength) :
    (lengthPrefix k).length = 4 := by
  have hn : k + 4 < 16 ^ 4 := by simp only [maxPktLength] at hk; omega
  rw [lengthPrefix, Bytes.ofString_ascii fun c hc => (Hex.ascii_ofNatPadded _ c hc).1,
    List.length_map, Hex.length_ofNatPadded hn]

theorem parseLength_lengthPrefix {k : Nat} (hk : k + 4 ≤ maxPktLength) :
    parseLength (lengthPrefix k) = .ok (some k) := by
  have hn : k + 4 < 16 ^ 4 := by simp only [maxPktLength] at hk; omega
  simp only [parseLength, lengthPrefix, Utf8.decode?_ofString, Hex.parseNat?_ofNatPadded hn]
  simp [show ¬ k + 4 > maxPktLength by omega]

theorem flushBytes_eq : flushBytes = [48, 48, 48, 48] := by
  decide +kernel

/-- A flush is four zero digits, read back as no length. -/
theorem parseLength_flush : parseLength [48, 48, 48, 48] = .ok none := by
  rw [← flushBytes_eq]
  simp only [parseLength, flushBytes, Utf8.decode?_ofString]
  decide

/-- A data line that fits is four length bytes that read back as its payload length, then the
payload. -/
theorem encode_data {p : Bytes} (hp : p.length + 4 ≤ maxPktLength) :
    ∃ b0 b1 b2 b3, (PktLine.data p).encode = b0 :: b1 :: b2 :: b3 :: p ∧
      parseLength [b0, b1, b2, b3] = .ok (some p.length) := by
  obtain ⟨b0, b1, b2, b3, hb⟩ := List.length_eq_four.1 (length_lengthPrefix hp)
  refine ⟨b0, b1, b2, b3, by simp [PktLine.encode, hb], ?_⟩
  rw [← hb]
  exact parseLength_lengthPrefix hp

/-- Reading the front of a buffer that starts with a line gives that line and what follows it. -/
theorem readOne_encode_append {l : PktLine} (hl : l.Fits) (rest : Bytes) :
    ∃ h, readOne (l.encode ++ rest) = .ok (some (l, ⟨rest, h⟩)) := by
  -- The rest carries a proof about the buffer's length, so the buffer is first named and then
  -- replaced by its four length bytes in front of the payload.
  generalize hbuf : l.encode ++ rest = buf
  cases l with
  | flush =>
    rw [PktLine.encode, flushBytes_eq] at hbuf
    simp only [List.cons_append, List.nil_append] at hbuf
    subst hbuf
    simp only [readOne]
    rw [parseLength_flush]
    simp [bind, Except.bind, pure, Except.pure]
    omega
  | data p =>
    obtain ⟨b0, b1, b2, b3, hb, hparse⟩ := encode_data (show p.length + 4 ≤ maxPktLength from hl)
    rw [hb] at hbuf
    simp only [List.cons_append] at hbuf
    subst hbuf
    simp only [readOne]
    rw [hparse]
    simp [bind, Except.bind, pure, Except.pure]
    omega

/-- Only an empty buffer has no line in front: four length bytes always give a line or an
error. -/
theorem readOne_eq_none_iff {buf : Bytes} : readOne buf = .ok none ↔ buf = [] := by
  constructor
  · intro h
    unfold readOne at h
    split at h
    · rfl
    · rename_i b0 b1 b2 b3 rest
      cases hp : parseLength [b0, b1, b2, b3] with
      | error e => simp [hp, bind, Except.bind] at h
      | ok k =>
        cases k with
        | none => simp [hp, bind, Except.bind, pure, Except.pure] at h
        | some k =>
          simp only [hp, bind, Except.bind, pure, Except.pure] at h
          split at h <;> simp_all [throw, throwThe, MonadExceptOf.throw]
    · simp at h
  · rintro rfl
    rfl

/-! ## A buffer of lines -/

@[simp] theorem writeLines_nil : writeLines [] = [] := rfl

@[simp] theorem writeLines_cons (l : PktLine) (ls : List PktLine) :
    writeLines (l :: ls) = l.encode ++ writeLines ls := by
  simp [writeLines]

@[simp] theorem writeLines_append (ls ls' : List PktLine) :
    writeLines (ls ++ ls') = writeLines ls ++ writeLines ls' := by
  simp [writeLines]

/-- Each line that fits takes at least its four length bytes. -/
theorem length_le_length_writeLines {ls : List PktLine} (hls : ∀ l ∈ ls, l.Fits) :
    4 * ls.length ≤ (writeLines ls).length := by
  induction ls with
  | nil => simp
  | cons l ls ih =>
    have hl : 4 ≤ l.encode.length := by
      cases l with
      | flush => simp [PktLine.encode, flushBytes_eq]
      | data p =>
        obtain ⟨b0, b1, b2, b3, hb, -⟩ := encode_data (show p.length + 4 ≤ maxPktLength from
          hls (.data p) (by simp))
        simp [hb]
    have := ih fun l' hl' => hls l' (by simp [hl'])
    simp only [writeLines_cons, List.length_append, List.length_cons]
    omega

theorem readBuffered_nil : readBuffered [] = ([], .eof) := by
  rw [readBuffered]
  rfl

/-- Reading lines written whole gives them back, and reading goes on into what follows. -/
theorem readBuffered_writeLines_append {ls : List PktLine} (hls : ∀ l ∈ ls, l.Fits)
    (rest : Bytes) :
    readBuffered (writeLines ls ++ rest) = (ls ++ (readBuffered rest).1, (readBuffered rest).2) := by
  induction ls with
  | nil => rfl
  | cons l ls ih =>
    obtain ⟨h, hread⟩ := readOne_encode_append (hls l (by simp)) (writeLines ls ++ rest)
    rw [writeLines_cons, List.append_assoc, readBuffered, hread]
    simp [ih fun l' hl' => hls l' (by simp [hl'])]

/-- **Pkt-lines read back.** Reading the bytes of lines that each fit, one line at a time from
the front, gives every line in order, flushes included, and ends at the end of the buffer:
the last read finds it empty (`readOne_eq_none_iff`). -/
theorem readBuffered_writeLines {ls : List PktLine} (hls : ∀ l ∈ ls, l.Fits) :
    readBuffered (writeLines ls) = (ls, .eof) := by
  simpa [readBuffered_nil] using readBuffered_writeLines_append hls []

/-- The empty payload, the longest payload and a flush read back. -/
theorem readBuffered_writeLines_extremes :
    (∀ l ∈ [PktLine.data [], .data (List.replicate 65516 0x61), .flush], l.Fits) ∧
      readBuffered (writeLines [.data [], .data (List.replicate 65516 0x61), .flush]) =
        ([.data [], .data (List.replicate 65516 0x61), .flush], .eof) :=
  have hfits : ∀ l ∈ [PktLine.data [], .data (List.replicate 65516 0x61), .flush], l.Fits := by
    intro l hl
    simp only [List.mem_cons, List.not_mem_nil, or_false] at hl
    rcases hl with rfl | rfl | rfl
    · simp [PktLine.Fits, maxPktLength]
    · simp only [PktLine.Fits, List.length_replicate, maxPktLength]
      omega
    · trivial
  ⟨hfits, readBuffered_writeLines hfits⟩

end Wire

end GitServer
