import GitServer.Proofs.Wire.ReadersAgree
import Mathlib

/-!
# Which lengths a pkt-line reader accepts

A pkt-line begins with its length. The reader takes the four bytes as UTF-8 text and reads a
hexadecimal numeral from it, and a numeral may begin with a plus sign. UTF-8 writes ASCII
characters as themselves and nothing else with a byte below `0x80` (`pieces_head_ge`,
`eq_ofString_of_decode?`), so the text is read byte for byte: the reader accepts four
hexadecimal digits, either case, or a plus sign and three (`parseLength_eq_ok_iff`).

Main statement (`readOne_grammar`): a non-empty buffer gives a line exactly when it begins
with a length so spelt that is 0, a flush of four bytes, or from 4 to `maxPktLength` and
held by the buffer, a line of that many bytes; in every other case reading fails with a
malformed request and leaves the buffer as it was. A length spelt with a plus sign is not
four hexadecimal digits, yet it is read (`readBuffered_plusLength`).
-/

namespace GitServer

/-! ## ASCII bytes in UTF-8 -/

namespace Utf8

/-- What a lead byte admits: the length of its sequence and the range of its second byte. -/
theorem leadRange_eq_some {b lo hi : UInt8} {n : Nat} (h : leadRange b = some (lo, hi, n)) :
    0x80 ≤ lo.toNat ∧ hi.toNat ≤ 0xBF ∧
      ((n = 2 ∧ 0xC2 ≤ b.toNat ∧ b.toNat ≤ 0xDF) ∨
       (n = 3 ∧ 0xE0 ≤ b.toNat ∧ b.toNat ≤ 0xEF ∧ (b.toNat = 0xE0 → 0xA0 ≤ lo.toNat) ∧
          (b.toNat = 0xED → hi.toNat ≤ 0x9F)) ∨
       (n = 4 ∧ 0xF0 ≤ b.toNat ∧ b.toNat ≤ 0xF4 ∧ (b.toNat = 0xF0 → 0x90 ≤ lo.toNat) ∧
          (b.toNat = 0xF4 → hi.toNat ≤ 0x8F))) := by
  unfold leadRange at h
  simp only [UInt8.le_iff_toNat_le, ← UInt8.toNat_inj, UInt8.reduceToNat] at h
  split_ifs at h <;> cases h <;> simp <;> omega

theorem le_toNat_ofNat {v : Nat} (hv : 0x80 ≤ v) (hvalid : v.isValidChar) :
    0x80 ≤ (Char.ofNat v).toNat := by
  rw [Char.toNat_ofNat, if_pos hvalid]
  exact hv

theorem toNat_of_isContinuation {b : UInt8} (h : isContinuation b = true) :
    0x80 ≤ b.toNat ∧ b.toNat < 0xC0 := by
  simpa [isContinuation, UInt8.le_iff_toNat_le, UInt8.lt_iff_toNat_lt] using h

/-- **A byte from `0x80` up begins no ASCII character**: the character it begins, if any, lies
beyond ASCII. The lead byte's ranges keep every sequence out of overlong forms and surrogates,
so its value is a character of its own. -/
theorem pieces_head_ge {b : UInt8} (hb : 0x80 ≤ b.toNat) (rest : Bytes) {c : Char}
    (h : (pieces (b :: rest)).head? = some (some c)) : 0x80 ≤ c.toNat := by
  rw [pieces.eq_def] at h
  simp only [show ¬ b < 0x80 by simp [UInt8.lt_iff_toNat_lt]; omega, if_false] at h
  split at h
  · simp at h
  · rename_i lo hi n hlead
    obtain ⟨hlo, hhi, hcases⟩ := leadRange_eq_some hlead
    split at h
    · simp at h
    · rename_i b1 rest1
      split_ifs at h with hr hn2 hn3
      · -- two bytes
        obtain rfl : Char.ofNat (low b 5 * 64 + low b1 6) = c := by simpa using h
        simp only [UInt8.le_iff_toNat_le] at hr
        apply le_toNat_ofNat <;> simp only [low, Nat.pow_eq, Nat.reducePow, Nat.isValidChar] <;>
          omega
      · -- three bytes
        split at h
        · simp at h
        · rename_i b2 rest2
          split_ifs at h with h2
          · obtain rfl : Char.ofNat (low b 4 * 4096 + low b1 6 * 64 + low b2 6) = c := by
              simpa using h
            simp only [UInt8.le_iff_toNat_le] at hr
            have := toNat_of_isContinuation h2
            apply le_toNat_ofNat <;> simp only [low, Nat.pow_eq, Nat.reducePow, Nat.isValidChar] <;>
              omega
          · simp at h
      · -- four bytes
        split at h
        · simp at h
        · rename_i b2 rest2
          split_ifs at h with h2
          · split at h
            · simp at h
            · rename_i b3 _
              split_ifs at h with h3
              · obtain rfl : Char.ofNat (low b 3 * 262144 + low b1 6 * 4096 + low b2 6 * 64 +
                    low b3 6) = c := by simpa using h
                simp only [UInt8.le_iff_toNat_le] at hr
                have := toNat_of_isContinuation h2
                have := toNat_of_isContinuation h3
                apply le_toNat_ofNat <;>
                  simp only [low, Nat.pow_eq, Nat.reducePow, Nat.isValidChar] <;> omega
              · simp at h
          · simp at h
      · simp at h

theorem pieces_cons_ne_nil (b : UInt8) (rest : Bytes) : pieces (b :: rest) ≠ [] := by
  rw [pieces.eq_def]
  repeat' split
  all_goals simp_all

/-- **ASCII text is read byte for byte**: bytes whose pieces are ASCII characters are those
characters' bytes. -/
theorem eq_map_of_pieces : ∀ {bs : Bytes} {cs : List Char}, pieces bs = cs.map some →
    (∀ c ∈ cs, c.toNat < 128) → bs = cs.map fun c => UInt8.ofNat c.toNat
  | [], cs, h, _ => by
    have hnil : pieces ([] : Bytes) = [] := by simp [pieces]
    rw [hnil] at h
    cases cs with
    | nil => rfl
    | cons c cs => simp at h
  | b :: rest, cs, h, hcs => by
    by_cases hb : b.toNat < 0x80
    · rw [pieces_cons_of_lt hb] at h
      obtain ⟨c, cs', rfl, hc, hrest⟩ : ∃ c cs', cs = c :: cs' ∧ Char.ofNat b.toNat = c ∧
          pieces rest = cs'.map some := by
        cases cs with
        | nil => simp at h
        | cons c cs' => exact ⟨c, cs', rfl, by simpa using h⟩
      rw [eq_map_of_pieces hrest fun c' hc' => hcs c' (List.mem_cons_of_mem c hc'), ← hc]
      have hval : (Char.ofNat b.toNat).toNat = b.toNat := by
        rw [Char.toNat_ofNat, if_pos (by simp only [Nat.isValidChar]; omega)]
      simp [hval]
    · -- a first byte beyond ASCII would begin a character beyond ASCII
      obtain ⟨c, cs', rfl⟩ : ∃ c cs', cs = c :: cs' := by
        cases cs with
        | nil => exact absurd (by simpa using h) (pieces_cons_ne_nil b rest)
        | cons c cs' => exact ⟨c, cs', rfl⟩
      have hhead := pieces_head_ge (b := b) (by omega) rest (c := c) (by rw [h]; rfl)
      exact absurd (hcs c List.mem_cons_self) (by omega)

theorem pieces_of_decode? {bs : Bytes} {t : String} (h : decode? bs = some t) :
    pieces bs = t.toList.map some := by
  have hmap : ∀ {ps : List (Option Char)} {cs : List Char}, ps.mapM id = some cs → ps = cs.map some := by
    intro ps
    induction ps with
    | nil => intro cs h; simp at h; simp [← h]
    | cons p ps ih =>
      intro cs h
      cases p with
      | none => simp at h
      | some c =>
        cases hps : ps.mapM id with
        | none => simp [List.mapM_cons, hps] at h
        | some cs' =>
          simp only [List.mapM_cons, id, hps] at h
          have hcs : c :: cs' = cs := by simpa using h
          rw [← hcs, ih hps]
          rfl
  simp only [decode?, Option.map_eq_some_iff] at h
  obtain ⟨cs, hcs, rfl⟩ := h
  rw [hmap hcs, String.toList_ofList]

/-- **A UTF-8 reading that is ASCII is exact**: the bytes are the text's own bytes. -/
theorem eq_ofString_of_decode? {bs : Bytes} {t : String} (h : decode? bs = some t)
    (ht : ∀ c ∈ t.toList, c.toNat < 128) : bs = Bytes.ofString t := by
  rw [Bytes.ofString_ascii ht]
  exact eq_map_of_pieces (pieces_of_decode? h) ht

end Utf8

namespace Wire

/-! ## Hexadecimal digits -/

/-- The value of a hexadecimal digit: `0`–`9`, `a`–`f` or `A`–`F`. -/
def hexDigit? (b : UInt8) : Option Nat :=
  if 0x30 ≤ b.toNat ∧ b.toNat ≤ 0x39 then some (b.toNat - 0x30)
  else if 0x61 ≤ b.toNat ∧ b.toNat ≤ 0x66 then some (b.toNat - 0x57)
  else if 0x41 ≤ b.toNat ∧ b.toNat ≤ 0x46 then some (b.toNat - 0x37)
  else none

/-- The number that hexadecimal digits write, the most significant first; `none` unless every
byte is a digit. -/
def hexValue? (ds : Bytes) : Option Nat :=
  ds.foldlM (fun acc b => (hexDigit? b).map (acc * 16 + ·)) 0

/-- The length that four bytes spell for the reader: four hexadecimal digits, or a plus sign
and three. -/
def spelledLength? : Bytes → Option Nat
  | [0x2B, b1, b2, b3] => hexValue? [b1, b2, b3]
  | [b0, b1, b2, b3] => hexValue? [b0, b1, b2, b3]
  | _ => none

/-- The character an ASCII byte stands for. -/
def asciiChar (b : UInt8) : Char := Char.ofNat b.toNat

section Digits

variable {ds : Bytes}

/-- A digit of the numeral reader is an ASCII hexadecimal digit of the same value. -/
theorem digitValue?_asciiChar {b : UInt8} (hb : b.toNat < 128) :
    Numeral.digitValue? 16 (asciiChar b) = hexDigit? b := by
  have hall : ∀ n, n < 128 → Numeral.digitValue? 16 (Char.ofNat n) = hexDigit? (UInt8.ofNat n) := by
    decide
  simpa [asciiChar] using hall b.toNat hb

theorem lt_of_digitValue? {c : Char} {d : Nat} (h : Numeral.digitValue? 16 c = some d) :
    c.toNat < 128 := by
  simp only [Numeral.digitValue?] at h
  split_ifs at h with h1 h2 h3
  · have := Char.le_def.mp h1.2
    simp only [UInt32.le_iff_toNat_le] at this
    exact lt_of_le_of_lt this (by decide)
  · have := Char.le_def.mp h2.2
    simp only [UInt32.le_iff_toNat_le] at this
    exact lt_of_le_of_lt this (by decide)
  · have := Char.le_def.mp h3.2
    simp only [UInt32.le_iff_toNat_le] at this
    exact lt_of_le_of_lt this (by decide)
  · simp at h

theorem lt_of_hexDigit? {b : UInt8} {d : Nat} (h : hexDigit? b = some d) : b.toNat < 128 := by
  simp only [hexDigit?] at h
  split_ifs at h <;> omega

/-- Reading ASCII digits as characters is reading them as bytes, from any accumulator. -/
theorem foldlM_asciiChar (hds : ∀ b ∈ ds, b.toNat < 128) (acc : Nat) :
    (ds.map asciiChar).foldlM (fun acc c => (Numeral.digitValue? 16 c).map (acc * 16 + ·)) acc =
      ds.foldlM (fun acc b => (hexDigit? b).map (acc * 16 + ·)) acc := by
  induction ds generalizing acc with
  | nil => rfl
  | cons b ds ih =>
    rw [List.map_cons, List.foldlM_cons, List.foldlM_cons,
      digitValue?_asciiChar (hds b List.mem_cons_self)]
    cases hexDigit? b with
    | none => rfl
    | some d => exact ih (fun b' hb' => hds b' (List.mem_cons_of_mem b hb')) _

/-- Each byte a digit, from any accumulator. -/
theorem ascii_of_foldlM {acc n : Nat}
    (h : ds.foldlM (fun acc b => (hexDigit? b).map (acc * 16 + ·)) acc = some n) :
    ∀ b ∈ ds, b.toNat < 128 := by
  induction ds generalizing acc with
  | nil => simp
  | cons b ds ih =>
    rw [List.foldlM_cons] at h
    cases hd : hexDigit? b with
    | none => simp [hd] at h
    | some d =>
      rw [hd] at h
      intro b' hb'
      rcases List.mem_cons.mp hb' with rfl | hb'
      · exact lt_of_hexDigit? hd
      · exact ih h b' hb'

/-- `k` digits after an accumulator write less than the accumulator, plus one, shifted by them. -/
theorem lt_of_foldlM {acc n : Nat}
    (h : ds.foldlM (fun acc b => (hexDigit? b).map (acc * 16 + ·)) acc = some n) :
    n < (acc + 1) * 16 ^ ds.length := by
  induction ds generalizing acc with
  | nil =>
    simp only [List.foldlM_nil, Option.pure_def, Option.some.injEq] at h
    simp [h]
  | cons b ds ih =>
    rw [List.foldlM_cons] at h
    cases hd : hexDigit? b with
    | none => simp [hd] at h
    | some d =>
      rw [hd] at h
      have hd16 : d < 16 := by
        simp only [hexDigit?] at hd
        split_ifs at hd <;> cases hd <;> omega
      have := ih h
      rw [List.length_cons, pow_succ]
      calc n < (acc * 16 + d + 1) * 16 ^ ds.length := this
        _ ≤ (acc + 1) * 16 * 16 ^ ds.length := Nat.mul_le_mul_right _ (by omega)
        _ = (acc + 1) * (16 ^ ds.length * 16) := by ring

theorem ascii_of_spelledLength? {n : Nat} (h : spelledLength? ds = some n) :
    ∀ b ∈ ds, b.toNat < 128 := by
  unfold spelledLength? at h
  split at h
  · intro b hb
    simp only [List.mem_cons, List.not_mem_nil, or_false] at hb
    rcases hb with rfl | hb
    · decide
    · exact ascii_of_foldlM h b (by simpa using hb)
  · exact ascii_of_foldlM h
  · cases h

/-- The characters of a numeral the reader accepts are ASCII: a plus sign, then digits. -/
theorem ascii_of_parseNat? {t : String} {bound n : Nat} (h : Numeral.parseNat? 16 bound t = some n) :
    ∀ c ∈ t.toList, c.toNat < 128 := by
  have hdigits : ∀ {cs : List Char} {m : Nat}, Numeral.digits? 16 cs = some m →
      ∀ c ∈ cs, c.toNat < 128 := by
    intro cs m hm
    simp only [Numeral.digits?] at hm
    split at hm
    · cases hm
    · -- every character passed the digit test on the way
      have key : ∀ (cs : List Char) (acc : Nat),
          cs.foldlM (fun acc c => (Numeral.digitValue? 16 c).map (acc * 16 + ·)) acc = some m →
            ∀ c ∈ cs, c.toNat < 128 := by
        intro cs
        induction cs with
        | nil => simp
        | cons c cs ih =>
          intro acc hfold c' hc'
          rw [List.foldlM_cons] at hfold
          cases hd : Numeral.digitValue? 16 c with
          | none => simp [hd] at hfold
          | some d =>
            rw [hd] at hfold
            rcases List.mem_cons.mp hc' with rfl | hc'
            · exact lt_of_digitValue? hd
            · exact ih _ hfold c' hc'
      exact key cs 0 hm
  simp only [Numeral.parseNat?, Option.bind_eq_some_iff] at h
  obtain ⟨m, hm, -⟩ := h
  split at hm
  · rename_i rest heq
    intro c hc
    rw [heq] at hc
    rcases List.mem_cons.mp hc with rfl | hc
    · decide
    · exact hdigits hm c hc
  · exact hdigits hm

theorem digits?_map_asciiChar (hds : ∀ b ∈ ds, b.toNat < 128) (hne : ds ≠ []) :
    Numeral.digits? 16 (ds.map asciiChar) = hexValue? ds := by
  rw [Numeral.digits?, if_neg (by simpa using hne), foldlM_asciiChar hds 0]
  rfl

/-- Four digits or fewer never reach the reader's bound. -/
theorem bind_bound_hexValue? (hlen : ds.length ≤ 4) :
    (hexValue? ds).bind (fun n => if n < Nat.pow 2 64 then some n else none) = hexValue? ds := by
  cases h : hexValue? ds with
  | none => rfl
  | some n =>
    have hlt := lt_of_foldlM h
    have h16 : (0 + 1) * 16 ^ ds.length ≤ Nat.pow 2 64 := by
      calc (0 + 1) * 16 ^ ds.length ≤ 16 ^ 4 := by
            rw [Nat.zero_add, Nat.one_mul]
            exact Nat.pow_le_pow_right (by decide) hlen
        _ ≤ Nat.pow 2 64 := by decide
    simp only [Option.bind_some, if_pos (lt_of_lt_of_le hlt h16)]

theorem parseNat?_plus (bound : Nat) (cs : List Char) :
    Numeral.parseNat? 16 bound (String.ofList ('+' :: cs)) =
      (Numeral.digits? 16 cs).bind fun n => if n < bound then some n else none := by
  simp [Numeral.parseNat?]

theorem parseNat?_of_ne_plus (bound : Nat) {c : Char} (hc : c ≠ '+') (cs : List Char) :
    Numeral.parseNat? 16 bound (String.ofList (c :: cs)) =
      (Numeral.digits? 16 (c :: cs)).bind fun n => if n < bound then some n else none := by
  simp only [Numeral.parseNat?, String.toList_ofList]
  split
  · rename_i rest heq
    exact absurd (List.cons.inj heq).1 hc
  · rfl

/-- **The reader's numeral, on ASCII bytes**, is the spelt length: four hexadecimal digits, or
a plus sign and three. -/
theorem parseNat?_spelledLength? (hds : ∀ b ∈ ds, b.toNat < 128) (hlen : ds.length = 4) :
    Numeral.parseNat? 16 (Nat.pow 2 64) (String.ofList (ds.map asciiChar)) = spelledLength? ds := by
  obtain ⟨b0, b1, b2, b3, rfl⟩ := List.length_eq_four.mp hlen
  by_cases hplus : b0 = 0x2B
  · subst hplus
    have hc : asciiChar 0x2B = '+' := by decide
    have htail : ∀ b ∈ [b1, b2, b3], b.toNat < 128 :=
      fun b hb => hds b (List.mem_cons_of_mem _ hb)
    rw [List.map_cons, hc, parseNat?_plus, digits?_map_asciiChar htail (by simp),
      bind_bound_hexValue? (by simp)]
    rfl
  · -- without a plus sign the four characters are the numeral
    have hc : asciiChar b0 ≠ '+' := by
      intro h
      have hval := congrArg Char.toNat h
      simp only [asciiChar, Char.toNat_ofNat, if_pos (show b0.toNat.isValidChar by
        simp only [Nat.isValidChar]; have := hds b0 List.mem_cons_self; omega)] at hval
      exact hplus (UInt8.toNat_inj.mp (by rw [hval]; rfl))
    rw [List.map_cons, parseNat?_of_ne_plus _ hc, ← List.map_cons,
      digits?_map_asciiChar hds (by simp), bind_bound_hexValue? (by simp)]
    unfold spelledLength?
    split
    · rename_i heq
      exact absurd (List.cons.inj heq).1 hplus
    · rename_i heq
      rw [← heq]
    · rename_i hne
      exact absurd rfl (hne _ _ _ _)

theorem ofString_asciiChar (hds : ∀ b ∈ ds, b.toNat < 128) :
    Bytes.ofString (String.ofList (ds.map asciiChar)) = ds := by
  have hval : ∀ b ∈ ds, (asciiChar b).toNat = b.toNat := by
    intro b hb
    rw [asciiChar, Char.toNat_ofNat, if_pos (by simp only [Nat.isValidChar]; have := hds b hb; omega)]
  have hchars : ∀ c ∈ (String.ofList (ds.map asciiChar)).toList, c.toNat < 128 := by
    intro c hc
    rw [String.toList_ofList] at hc
    obtain ⟨b, hb, rfl⟩ := List.mem_map.mp hc
    rw [hval b hb]
    exact hds b hb
  rw [Bytes.ofString_ascii hchars, String.toList_ofList, List.map_map]
  conv_rhs => rw [← List.map_id ds]
  refine List.map_congr_left fun b hb => ?_
  simp [hval b hb]

theorem map_asciiChar_ofString {t : String} (ht : ∀ c ∈ t.toList, c.toNat < 128) :
    (Bytes.ofString t).map asciiChar = t.toList := by
  rw [Bytes.ofString_ascii ht, List.map_map]
  conv_rhs => rw [← List.map_id t.toList]
  refine List.map_congr_left fun c hc => ?_
  simp [asciiChar, Utf8.toNat_ofNat_lt (show c.toNat < 256 by have := ht c hc; omega)]

end Digits

/-! ## The length of a line -/

/-- What the reader makes of a length it has read. -/
theorem parseLength_of_parseNat? {ds : Bytes} {t : String} {n : Nat} (hdec : Utf8.decode? ds = some t)
    (hnum : Numeral.parseNat? 16 (Nat.pow 2 64) t = some n) :
    parseLength ds = if n = 0 then .ok none
      else if n < 4 then .error (.decode s!"invalid pkt-line length {n} (must be 0 or >= 4)")
      else if n > maxPktLength then .error (.decode s!"pkt-line length {n} exceeds {maxPktLength}")
      else .ok (some (n - 4)) := by
  simp only [parseLength, hdec, hnum]

/-- **The lengths a reader accepts**: four bytes read as a length exactly when they spell one,
as four hexadecimal digits of either case or as a plus sign and three, that is 0, a flush, or
from 4 to `maxPktLength`, a line with four fewer bytes of payload. -/
theorem parseLength_eq_ok_iff {ds : Bytes} (hlen : ds.length = 4) {r : Option Nat} :
    parseLength ds = .ok r ↔ ∃ n, spelledLength? ds = some n ∧
      ((n = 0 ∧ r = none) ∨ (4 ≤ n ∧ n ≤ maxPktLength ∧ r = some (n - 4))) := by
  -- the length is read from the bytes' text; both ways round that text is ASCII
  have hcheck : ∀ {t : String} {n : Nat}, Utf8.decode? ds = some t →
      Numeral.parseNat? 16 (Nat.pow 2 64) t = some n →
      (parseLength ds = .ok r ↔ ((n = 0 ∧ r = none) ∨ (4 ≤ n ∧ n ≤ maxPktLength ∧ r = some (n - 4)))) := by
    intro t n hdec hnum
    rw [parseLength_of_parseNat? hdec hnum]
    split_ifs with h0 h4 hmax
    · simp [h0, eq_comm]
    · simp [h0]
      omega
    · simp [h0]
      omega
    · simp only [Except.ok.injEq, h0, false_and, false_or]
      constructor
      · rintro rfl
        exact ⟨by omega, by omega, rfl⟩
      · rintro ⟨-, -, rfl⟩
        rfl
  constructor
  · intro h
    cases hdec : Utf8.decode? ds with
    | none => simp [parseLength, hdec] at h
    | some t =>
      cases hnum : Numeral.parseNat? 16 (Nat.pow 2 64) t with
      | none => simp [parseLength, hdec, hnum] at h
      | some n =>
        have ht := ascii_of_parseNat? hnum
        have hds : ds = Bytes.ofString t := Utf8.eq_ofString_of_decode? hdec ht
        have hspelt : spelledLength? ds = some n := by
          have hascii : ∀ b ∈ ds, b.toNat < 128 := by
            intro b hb
            rw [hds, Bytes.ofString_ascii ht] at hb
            obtain ⟨c, hc, rfl⟩ := List.mem_map.mp hb
            rw [Utf8.toNat_ofNat_lt (by have := ht c hc; omega)]
            exact ht c hc
          rw [← parseNat?_spelledLength? hascii hlen, hds, map_asciiChar_ofString ht,
            String.ofList_toList, hnum]
        exact ⟨n, hspelt, (hcheck hdec hnum).mp h⟩
  · rintro ⟨n, hspelt, hn⟩
    have hascii := ascii_of_spelledLength? hspelt
    have hdec : Utf8.decode? ds = some (String.ofList (ds.map asciiChar)) := by
      conv_lhs => rw [← ofString_asciiChar hascii]
      exact Utf8.decode?_ofString _
    exact (hcheck hdec (by rw [parseNat?_spelledLength? hascii hlen, hspelt])).mpr hn

/-! ## A line at the front of a buffer -/

/-- A buffer begins with a pkt-line, then `rest`, with lengths spelt as the reader reads them: a
length of 0 is a flush of four bytes, and a length from 4 to `maxPktLength` that the buffer
holds is a line of that many bytes, whose payload follows the four digits. -/
inductive StartsWithLine (buf : Bytes) : PktLine → Bytes → Prop
  | flush : spelledLength? (buf.take 4) = some 0 → StartsWithLine buf .flush (buf.drop 4)
  | data {n : Nat} : spelledLength? (buf.take 4) = some n → 4 ≤ n → n ≤ maxPktLength →
      n ≤ buf.length → StartsWithLine buf (.data ((buf.take n).drop 4)) (buf.drop n)

theorem spelledLength?_of_length_lt {ds : Bytes} (h : ds.length < 4) : spelledLength? ds = none := by
  unfold spelledLength?
  split
  · simp at h
  · simp at h
  · rfl

theorem not_startsWith_of_length_lt {buf : Bytes} (h : buf.length < 4) {l : PktLine}
    {rest : Bytes} : ¬ StartsWithLine buf l rest := by
  have hnone : spelledLength? (buf.take 4) = none :=
    spelledLength?_of_length_lt (by rw [List.length_take]; omega)
  rintro (hs | ⟨hs, -, -, -⟩) <;> simp [hnone] at hs

/-- What a buffer that begins with four bytes starts with, as the reader spells them. -/
theorem startsWithLine_cons_iff {b0 b1 b2 b3 : UInt8} {rest' rest : Bytes} {l : PktLine} :
    StartsWithLine (b0 :: b1 :: b2 :: b3 :: rest') l rest ↔
      (spelledLength? [b0, b1, b2, b3] = some 0 ∧ l = .flush ∧ rest = rest') ∨
      ∃ n, spelledLength? [b0, b1, b2, b3] = some n ∧ 4 ≤ n ∧ n ≤ maxPktLength ∧
        n - 4 ≤ rest'.length ∧ l = .data (rest'.take (n - 4)) ∧ rest = rest'.drop (n - 4) := by
  constructor
  · rintro (hs | ⟨hs, h4, hmax, hlen⟩)
    · exact .inl ⟨hs, rfl, rfl⟩
    · rename_i n
      obtain ⟨k, rfl⟩ : ∃ k, n = k + 4 := ⟨n - 4, by omega⟩
      refine .inr ⟨k + 4, hs, h4, hmax, by simp at hlen; omega, ?_, ?_⟩ <;> simp
  · rintro (⟨hs, rfl, rfl⟩ | ⟨n, hs, h4, hmax, hlen, rfl, rfl⟩)
    · exact .flush hs
    · obtain ⟨k, rfl⟩ : ∃ k, n = k + 4 := ⟨n - 4, by omega⟩
      have hline : StartsWithLine (b0 :: b1 :: b2 :: b3 :: rest') _ _ :=
        StartsWithLine.data hs h4 hmax (by simp; omega)
      simpa using hline

/-- **A line read is a line spelt**, and back: reading the front of a buffer gives a line and
what follows it exactly when the buffer begins with that line. -/
theorem readOne_eq_line_iff {buf : Bytes} {l : PktLine} {rest : Bytes} :
    (∃ h, readOne buf = .ok (some (l, ⟨rest, h⟩))) ↔ StartsWithLine buf l rest := by
  match buf with
  | [] => simp [readOne, not_startsWith_of_length_lt]
  | [_] | [_, _] | [_, _, _] => simp [readOne, not_startsWith_of_length_lt]
  | b0 :: b1 :: b2 :: b3 :: rest' =>
    rw [startsWithLine_cons_iff]
    cases hp : parseLength [b0, b1, b2, b3] with
    | error e =>
      -- a length that does not parse spells nothing a line could have
      have hnot : ∀ n, spelledLength? [b0, b1, b2, b3] = some n →
          n ≠ 0 ∧ (4 ≤ n → maxPktLength < n) := by
        intro n hs
        constructor
        · rintro rfl
          have := (parseLength_eq_ok_iff (r := none) rfl).mpr ⟨0, hs, .inl ⟨rfl, rfl⟩⟩
          rw [hp] at this
          cases this
        · intro h4
          by_contra hmax
          have := (parseLength_eq_ok_iff (r := some (n - 4)) rfl).mpr
            ⟨n, hs, .inr ⟨h4, by omega, rfl⟩⟩
          rw [hp] at this
          cases this
      simp only [readOne, hp, bind, Except.bind]
      constructor
      · rintro ⟨_, h⟩
        cases h
      · rintro (⟨hs, -, -⟩ | ⟨n, hs, h4, hmax, -⟩)
        · exact absurd rfl (hnot 0 hs).1
        · exact absurd hmax (not_le.mpr ((hnot n hs).2 h4))
    | ok r =>
      obtain ⟨n, hs, hn⟩ := (parseLength_eq_ok_iff rfl).mp hp
      rcases hn with ⟨rfl, rfl⟩ | ⟨h4, hmax, rfl⟩
      · -- a flush
        simp only [readOne, hp, bind, Except.bind, pure, Except.pure, Except.ok.injEq,
          Option.some.injEq, Prod.mk.injEq, Subtype.mk.injEq]
        constructor
        · rintro ⟨-, rfl, rfl⟩
          exact .inl ⟨hs, rfl, rfl⟩
        · rintro (⟨-, rfl, rfl⟩ | ⟨m, hm, h4, -⟩)
          · exact ⟨by simp only [List.length_cons]; omega, rfl, rfl⟩
          · rw [hs] at hm
            cases hm
            omega
      · -- a line of `n` bytes, held by the buffer or cut short
        simp only [readOne, hp, bind, Except.bind]
        by_cases hshort : (rest'.take (n - 4)).length < n - 4
        · have hlen : rest'.length < n - 4 := by
            simp only [List.length_take] at hshort
            omega
          simp only [hshort, if_true, throw, throwThe, MonadExceptOf.throw]
          constructor
          · rintro ⟨_, h⟩
            cases h
          · rintro (⟨hs0, -, -⟩ | ⟨m, hm, -, -, hle, -⟩)
            · rw [hs] at hs0
              cases hs0
              omega
            · rw [hs] at hm
              cases hm
              omega
        · have hlen : n - 4 ≤ rest'.length := by
            simp only [List.length_take] at hshort
            omega
          simp only [hshort, if_false, pure, Except.pure, Except.ok.injEq, Option.some.injEq,
            Prod.mk.injEq, Subtype.mk.injEq]
          constructor
          · rintro ⟨-, rfl, rfl⟩
            exact .inr ⟨n, hs, h4, hmax, hlen, rfl, rfl⟩
          · rintro (⟨hs0, -, -⟩ | ⟨m, hm, -, -, -, rfl, rfl⟩)
            · rw [hs] at hs0
              cases hs0
              omega
            · rw [hs] at hm
              cases hm
              exact ⟨by simp; omega, rfl, rfl⟩

/-- A read of a buffer that fails says the request does not decode. -/
theorem readOne_error {buf : Bytes} {e : ProtocolError} (h : readOne buf = .error e) :
    ∃ m, e = .decode m := by
  match buf with
  | [] => simp [readOne] at h
  | [_] | [_, _] | [_, _, _] =>
    simp only [readOne, Except.error.injEq] at h
    exact ⟨_, h.symm⟩
  | b0 :: b1 :: b2 :: b3 :: rest' =>
    cases hp : parseLength [b0, b1, b2, b3] with
    | error e' =>
      simp only [readOne, hp, bind, Except.bind, Except.error.injEq] at h
      exact h ▸ parseLength_error hp
    | ok r =>
      simp only [readOne, hp, bind, Except.bind] at h
      split at h
      · simp [pure, Except.pure] at h
      · split at h
        · simp only [throw, throwThe, MonadExceptOf.throw, Except.error.injEq] at h
          exact ⟨_, h.symm⟩
        · simp [pure, Except.pure] at h

/-- **The pkt-line grammar of a buffer**, as the reader spells lengths. A non-empty buffer gives
a line, and the bytes after it, exactly when it begins with that line: a length of 0, a flush
of four bytes, or a length from 4 to `maxPktLength` that the buffer holds, a line of that many
bytes. Otherwise reading fails with a malformed request, and the buffer is left whole. -/
theorem readOne_grammar (buf : Bytes) (hne : buf ≠ []) :
    (∀ l rest, (∃ h, readOne buf = .ok (some (l, ⟨rest, h⟩))) ↔ StartsWithLine buf l rest) ∧
      ((¬ ∃ l rest, StartsWithLine buf l rest) →
        ∃ m, readOne buf = .error (.decode m) ∧ readBuffered buf = ([], .failed (.decode m) buf)) := by
  refine ⟨fun l rest => readOne_eq_line_iff, fun hnone => ?_⟩
  cases hread : readOne buf with
  | error e =>
    obtain ⟨m, rfl⟩ := readOne_error hread
    exact ⟨m, rfl, readBuffered_of_error hread⟩
  | ok r =>
    cases r with
    | none => exact absurd (readOne_eq_none_iff.mp hread) hne
    | some p =>
      obtain ⟨l, ⟨rest, hr⟩⟩ := p
      exact absurd ⟨l, rest, readOne_eq_line_iff.mp ⟨hr, hread⟩⟩ hnone

/-- The grammar at a line `0009done` followed by a flush. -/
theorem readOne_grammar_doneLine :
    Bytes.ofString "0009done\n0000" ≠ [] ∧
      (∀ l rest, (∃ h, readOne (Bytes.ofString "0009done\n0000") = .ok (some (l, ⟨rest, h⟩))) ↔
          StartsWithLine (Bytes.ofString "0009done\n0000") l rest) ∧
        ((¬ ∃ l rest, StartsWithLine (Bytes.ofString "0009done\n0000") l rest) →
          ∃ m, readOne (Bytes.ofString "0009done\n0000") = .error (.decode m) ∧
            readBuffered (Bytes.ofString "0009done\n0000") =
              ([], .failed (.decode m) (Bytes.ofString "0009done\n0000"))) :=
  have hne : Bytes.ofString "0009done\n0000" ≠ [] := by decide +kernel
  ⟨hne, readOne_grammar _ hne⟩

/-- **A length with a plus sign is read.** The four bytes `+00a` are no four hexadecimal
digits, yet the reader takes them for the length 10 and returns a line of six bytes. -/
theorem readBuffered_plusLength :
    hexValue? (Bytes.ofString "+00a") = none ∧
      readBuffered (Bytes.ofString "+00aabcdef") = ([.data (Bytes.ofString "abcdef")], .eof) := by
  have hbuf : Bytes.ofString "+00aabcdef" = [43, 48, 48, 97, 97, 98, 99, 100, 101, 102] := by
    decide +kernel
  have hdigits : Bytes.ofString "+00a" = [43, 48, 48, 97] := by decide +kernel
  have hpayload : Bytes.ofString "abcdef" = [97, 98, 99, 100, 101, 102] := by decide +kernel
  rw [hbuf, hdigits, hpayload]
  refine ⟨by decide, ?_⟩
  have hline : StartsWithLine [43, 48, 48, 97, 97, 98, 99, 100, 101, 102]
      (.data [97, 98, 99, 100, 101, 102]) [] :=
    startsWithLine_cons_iff.mpr (.inr ⟨10, by decide, by decide, by decide, by decide, rfl, rfl⟩)
  rw [readBuffered_of_line (readOne_eq_line_iff.mpr hline), readBuffered_nil]

end Wire

end GitServer
