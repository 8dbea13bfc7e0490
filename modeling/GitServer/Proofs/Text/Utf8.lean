import GitServer.Proofs.Storage.Records
import Mathlib

/-!
# UTF-8 written and read back

`Bytes.ofString` writes a text as UTF-8, one to four bytes a character, and `Utf8.pieces` reads
bytes back by the maximal-subpart rule. Every character's encoding falls in the ranges the
reader admits: the lead byte picks the length, the second byte stays out of overlong forms,
surrogates and code points past `10FFFF`, and the rest are continuation bytes. So every text
reads back as itself (`pieces_ofString`), strictly (`decode?_ofString`) and lossily
(`decodeLossy_ofString_self`), which is what lets stored references and names of any script
survive a round through storage.
-/

namespace GitServer.Utf8

theorem pieces_cons_of_lt {b : UInt8} (h : b.toNat < 0x80) (rest : Bytes) :
    pieces (b :: rest) = some (Char.ofNat b.toNat) :: pieces rest :=
  pieces_ascii (by simpa [UInt8.lt_iff_toNat_lt] using h) rest

theorem pieces_two {b0 b1 : UInt8} {lo hi : UInt8} (h0 : 0x80 ≤ b0.toNat)
    (hlead : leadRange b0 = some (lo, hi, 2)) (h1 : lo ≤ b1 ∧ b1 ≤ hi) (rest : Bytes) :
    pieces (b0 :: b1 :: rest) = some (Char.ofNat (low b0 5 * 64 + low b1 6)) :: pieces rest := by
  rw [pieces.eq_def]
  simp only [hlead, h1, and_self, if_true]
  rw [if_neg (by simp [UInt8.lt_iff_toNat_lt]; omega)]

theorem pieces_three {b0 b1 b2 : UInt8} {lo hi : UInt8} (h0 : 0x80 ≤ b0.toNat)
    (hlead : leadRange b0 = some (lo, hi, 3)) (h1 : lo ≤ b1 ∧ b1 ≤ hi)
    (h2 : isContinuation b2 = true) (rest : Bytes) :
    pieces (b0 :: b1 :: b2 :: rest) =
      some (Char.ofNat (low b0 4 * 4096 + low b1 6 * 64 + low b2 6)) :: pieces rest := by
  rw [pieces.eq_def]
  simp only [hlead, h1, h2, and_self, if_true]
  rw [if_neg (by simp [UInt8.lt_iff_toNat_lt]; omega)]
  simp

theorem pieces_four {b0 b1 b2 b3 : UInt8} {lo hi : UInt8} (h0 : 0x80 ≤ b0.toNat)
    (hlead : leadRange b0 = some (lo, hi, 4)) (h1 : lo ≤ b1 ∧ b1 ≤ hi)
    (h2 : isContinuation b2 = true) (h3 : isContinuation b3 = true) (rest : Bytes) :
    pieces (b0 :: b1 :: b2 :: b3 :: rest) =
      some (Char.ofNat (low b0 3 * 262144 + low b1 6 * 4096 + low b2 6 * 64 + low b3 6)) ::
        pieces rest := by
  rw [pieces.eq_def]
  simp only [hlead, h1, h2, h3, and_self, if_true]
  rw [if_neg (by simp [UInt8.lt_iff_toNat_lt]; omega)]
  simp

theorem toNat_ofNat_lt {n : Nat} (h : n < 256) : (UInt8.ofNat n).toNat = n := by
  simp [Nat.mod_eq_of_lt h]

theorem isContinuation_of_toNat {b : UInt8} (h1 : 0x80 ≤ b.toNat) (h2 : b.toNat < 0xC0) :
    isContinuation b = true := by
  simp [isContinuation, UInt8.le_iff_toNat_le, UInt8.lt_iff_toNat_lt]
  omega

/-- The lead byte of a multi-byte character admits the second byte of its encoding. -/
theorem leadRange_of_toNat {a b : UInt8} (n : Nat) (h : 0xC2 ≤ a.toNat ∧ a.toNat ≤ 0xF4)
    (hn : n = if a.toNat ≤ 0xDF then 2 else if a.toNat ≤ 0xEF then 3 else 4)
    (hb : 0x80 ≤ b.toNat ∧ b.toNat ≤ 0xBF)
    (hE0 : a.toNat = 0xE0 → 0xA0 ≤ b.toNat) (hED : a.toNat = 0xED → b.toNat ≤ 0x9F)
    (hF0 : a.toNat = 0xF0 → 0x90 ≤ b.toNat) (hF4 : a.toNat = 0xF4 → b.toNat ≤ 0x8F) :
    ∃ lo hi, leadRange a = some (lo, hi, n) ∧ lo ≤ b ∧ b ≤ hi := by
  subst hn
  unfold leadRange
  simp only [UInt8.le_iff_toNat_le, ← UInt8.toNat_inj, UInt8.reduceToNat] at *
  split_ifs <;> simp_all <;> omega

/-- **A character's UTF-8 bytes read back as the character**, whatever follows them. -/
theorem pieces_utf8EncodeChar (c : Char) (rest : Bytes) :
    pieces (String.utf8EncodeChar c ++ rest) = some c :: pieces rest := by
  have hv := c.valid
  simp only [UInt32.isValidChar, Nat.isValidChar] at hv
  have hc : Char.ofNat c.val.toNat = c := Char.ofNat_toNat c
  unfold String.utf8EncodeChar
  generalize hvdef : c.val.toNat = v at hv hc
  simp only []
  split_ifs with h1 h2 h3
  · -- one byte
    rw [List.singleton_append, pieces_cons_of_lt (by rw [toNat_ofNat_lt (by omega)]; omega),
      toNat_ofNat_lt (by omega), hc]
  · -- two bytes: a lead byte from `C2` to `DF`
    have hb0 := toNat_ofNat_lt (n := v / 64 % 32 + 0xc0) (by omega)
    have hb1 := toNat_ofNat_lt (n := v % 64 + 0x80) (by omega)
    obtain ⟨lo, hi, hlead, hrange⟩ := leadRange_of_toNat (a := UInt8.ofNat (v / 64 % 32 + 0xc0))
      (b := UInt8.ofNat (v % 64 + 0x80)) 2 (by omega) (by rw [hb0, if_pos (by omega)]) (by omega) (by omega) (by omega) (by omega)
      (by omega)
    rw [List.cons_append, List.singleton_append, pieces_two (by rw [hb0]; omega) hlead hrange]
    simp only [low, hb0, hb1, Nat.pow_eq, Nat.reducePow]
    rw [← hc]
    apply congrArg (fun n => some (Char.ofNat n) :: pieces rest)
    omega
  · -- three bytes: no surrogate, no overlong form
    have hb0 := toNat_ofNat_lt (n := v / 4096 % 16 + 0xe0) (by omega)
    have hb1 := toNat_ofNat_lt (n := v / 64 % 64 + 0x80) (by omega)
    have hb2 := toNat_ofNat_lt (n := v % 64 + 0x80) (by omega)
    obtain ⟨lo, hi, hlead, hrange⟩ := leadRange_of_toNat (a := UInt8.ofNat (v / 4096 % 16 + 0xe0))
      (b := UInt8.ofNat (v / 64 % 64 + 0x80)) 3 (by omega) (by rw [hb0, if_neg (by omega), if_pos (by omega)]) (by omega) (by omega)
      (by omega) (by omega) (by omega)
    rw [List.cons_append, List.cons_append, List.singleton_append,
      pieces_three (by rw [hb0]; omega) hlead hrange
        (isContinuation_of_toNat (by rw [hb2]; omega) (by rw [hb2]; omega))]
    simp only [low, hb0, hb1, hb2, Nat.pow_eq, Nat.reducePow]
    rw [← hc]
    apply congrArg (fun n => some (Char.ofNat n) :: pieces rest)
    omega
  · -- four bytes: up to `10FFFF`
    have hb0 := toNat_ofNat_lt (n := v / 262144 % 8 + 0xf0) (by omega)
    have hb1 := toNat_ofNat_lt (n := v / 4096 % 64 + 0x80) (by omega)
    have hb2 := toNat_ofNat_lt (n := v / 64 % 64 + 0x80) (by omega)
    have hb3 := toNat_ofNat_lt (n := v % 64 + 0x80) (by omega)
    obtain ⟨lo, hi, hlead, hrange⟩ := leadRange_of_toNat (a := UInt8.ofNat (v / 262144 % 8 + 0xf0))
      (b := UInt8.ofNat (v / 4096 % 64 + 0x80)) 4 (by omega) (by rw [hb0, if_neg (by omega), if_neg (by omega)]) (by omega) (by omega)
      (by omega) (by omega) (by omega)
    rw [List.cons_append, List.cons_append, List.cons_append, List.singleton_append,
      pieces_four (by rw [hb0]; omega) hlead hrange
        (isContinuation_of_toNat (by rw [hb2]; omega) (by rw [hb2]; omega))
        (isContinuation_of_toNat (by rw [hb3]; omega) (by rw [hb3]; omega))]
    simp only [low, hb0, hb1, hb2, hb3, Nat.pow_eq, Nat.reducePow]
    rw [← hc]
    apply congrArg (fun n => some (Char.ofNat n) :: pieces rest)
    omega

theorem pieces_flatMap (cs : List Char) :
    pieces (cs.flatMap String.utf8EncodeChar) = cs.map some := by
  induction cs with
  | nil => simp [pieces]
  | cons c cs ih => rw [List.flatMap_cons, pieces_utf8EncodeChar, ih, List.map_cons]

/-- **Text written as UTF-8 reads back**, character for character. -/
theorem pieces_ofString (s : String) : pieces (Bytes.ofString s) = s.toList.map some := by
  rw [Bytes.ofString_eq_flatMap, pieces_flatMap]

theorem decode?_ofString (s : String) : decode? (Bytes.ofString s) = some s := by
  have hsome : ∀ l : List Char, l.mapM some = some l := by
    intro l
    induction l with
    | nil => rfl
    | cons c l ih => simp [List.mapM_cons, ih]
  simp [decode?, pieces_ofString, List.mapM_map, hsome]

theorem decodeLossy_ofString_self (s : String) : decodeLossy (Bytes.ofString s) = s := by
  simp [decodeLossy, pieces_ofString]

end GitServer.Utf8
