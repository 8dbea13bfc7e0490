import GitServer.Config.ByteSize
import Mathlib

/-!
# Byte sizes are read exactly

A byte size is read from its text trimmed of blanks: the leading run of ASCII digits is the
number, and what follows, trimmed again and in upper case, is the unit. `SpellsByteSize`
says when a text spells a size, without the reader: a nonempty run of digits denoting a
number below `2 ^ 64`, followed by one of the units of `byteUnits`, whose product with the
number is below `2 ^ 64` too. The reader accepts exactly the texts that spell a size, and
answers that size (`parseByteSize_eq_ok_iff`); every other text is refused, so no size
wraps around.

The split into digits and unit is unique because no unit starts with a digit: a digit is no
blank, so it would survive trimming, and upper case leaves it alone, while no unit name
holds a digit (`unit_head_not_digit`).
-/

namespace GitServer.Config

/-- The units a byte size may carry, trimmed and in upper case, with their multipliers. -/
def byteUnits : List (String × Nat) :=
  [("", 1), ("B", 1), ("K", 2 ^ 10), ("KB", 2 ^ 10), ("KIB", 2 ^ 10), ("M", 2 ^ 20),
   ("MB", 2 ^ 20), ("MIB", 2 ^ 20), ("G", 2 ^ 30), ("GB", 2 ^ 30), ("GIB", 2 ^ 30)]

/-- The number a run of decimal digits denotes, most significant digit first. -/
def decimalValue (digits : List Char) : Nat :=
  Nat.ofDigits 10 (digits.reverse.map fun c => c.toNat - 48)

/-- `raw` spells the byte size `v`: trimmed, it is a nonempty run of ASCII digits and a unit
that, trimmed and in upper case, is in `byteUnits` with multiplier `m`; the number and its
product with `m` are below `2 ^ 64`, and `v` is that product. -/
def SpellsByteSize (raw : String) (v : Nat) : Prop :=
  ∃ (digits : List Char) (unit : String) (m : Nat),
    (Blank.trim raw).toList = digits ++ unit.toList ∧ digits ≠ [] ∧ (∀ c ∈ digits, c.isDigit) ∧
    ((Blank.trim unit).toUpper, m) ∈ byteUnits ∧
    decimalValue digits < 2 ^ 64 ∧ decimalValue digits * m < 2 ^ 64 ∧ v = decimalValue digits * m

/-! ## The unit table -/

theorem unitMultiplier_eq_some_iff (unit : String) (m : Nat) :
    unitMultiplier unit = some m ↔ (unit, m) ∈ byteUnits := by
  unfold unitMultiplier
  split_ifs with h1 h2 h3 h4
  · rcases h1 with rfl | rfl <;> simp [byteUnits] <;> omega
  · rcases h2 with rfl | rfl | rfl <;> simp [byteUnits] <;> omega
  · rcases h3 with rfl | rfl | rfl <;> simp [byteUnits] <;> omega
  · rcases h4 with rfl | rfl | rfl <;> simp [byteUnits] <;> omega
  · -- a name outside the table
    simp only [byteUnits, List.mem_cons, Prod.mk.injEq, List.not_mem_nil, or_false, false_iff]
    grind

theorem not_isDigit_of_mem_byteUnits : ∀ u ∈ byteUnits, ∀ c ∈ u.1.toList, c.isDigit = false := by
  simp [byteUnits]

/-! ## Digits -/

/-- The reader's running value is the number the digits denote. -/
theorem foldl_eq_decimalValue (digits : List Char) :
    digits.foldl (fun acc c => acc * 10 + (c.toNat - 48)) 0 = decimalValue digits := by
  rw [decimalValue, Nat.ofDigits_eq_foldr, List.map_reverse, List.foldr_reverse, List.foldl_map]
  congr 1
  funext acc c
  simp only [Nat.cast_id]
  ring

theorem toNat_of_isDigit {c : Char} (h : c.isDigit) : 48 ≤ c.toNat ∧ c.toNat ≤ 57 := by
  simp only [Char.isDigit, Bool.and_eq_true, decide_eq_true_eq] at h
  exact ⟨h.1, h.2⟩

theorem isBlank_of_isDigit {c : Char} (h : c.isDigit) : Blank.isBlank c = false := by
  have hc := toNat_of_isDigit h
  rw [Bool.eq_false_iff]
  intro hblank
  simp [Blank.isBlank, Blank.codePoints] at hblank
  omega

theorem toUpper_of_isDigit {c : Char} (h : c.isDigit) : c.toUpper = c := by
  have hc := toNat_of_isDigit h
  rw [Char.toUpper, dif_neg]
  rintro ⟨hlow, -⟩
  have : 97 ≤ c.toNat := UInt32.le_iff_toNat_le.mp hlow
  omega

/-! ## Trimming keeps what is not blank -/

theorem mem_dropWhile {α : Type} {p : α → Bool} {c : α} (hp : p c = false) :
    ∀ {l : List α}, c ∈ l → c ∈ l.dropWhile p
  | a :: l, hc => by
    rw [List.dropWhile_cons]
    split
    · rcases List.mem_cons.mp hc with rfl | hl
      · simp_all
      · exact mem_dropWhile hp hl
    · exact hc

theorem mem_trim {s : String} {c : Char} (hc : c ∈ s.toList) (hb : Blank.isBlank c = false) :
    c ∈ (Blank.trim s).toList := by
  simp only [Blank.trim, Blank.trimEnd, Blank.trimStart, String.toList_ofList, List.mem_reverse]
  exact mem_dropWhile hb (List.mem_reverse.mpr (mem_dropWhile hb hc))

/-- **No unit starts with a digit**, so the digits of a size are all of its leading ones. -/
theorem unit_head_not_digit {unit : String} {m : Nat}
    (hu : ((Blank.trim unit).toUpper, m) ∈ byteUnits) :
    ∀ c ∈ unit.toList.head?, c.isDigit = false := by
  intro c hc
  by_contra hdigit
  have hd : c.isDigit := by simpa using hdigit
  -- the digit survives trimming and upper case, and no unit name holds one
  have hkept : c ∈ (Blank.trim unit).toUpper.toList := by
    rw [String.toUpper, String.toList_map, ← toUpper_of_isDigit hd]
    exact List.mem_map_of_mem (mem_trim (List.mem_of_mem_head? hc) (isBlank_of_isDigit hd))
  rw [not_isDigit_of_mem_byteUnits _ hu c hkept] at hd
  cases hd

/-- A text that is its digits and then a part that starts with no digit splits there. -/
theorem takeWhile_isDigit {digits rest : List Char} (hd : ∀ c ∈ digits, c.isDigit)
    (hr : ∀ c ∈ rest.head?, c.isDigit = false) :
    (digits ++ rest).takeWhile Char.isDigit = digits := by
  rw [List.takeWhile_append_of_pos hd]
  cases rest with
  | nil => simp
  | cons c rest => simp [List.takeWhile_cons_of_neg, hr c rfl]

/-- The unit as the reader sees it. -/
theorem unitText_eq (unit : String) :
    String.ofList ((Blank.trim (String.ofList unit.toList)).toList.map Char.toUpper) =
      (Blank.trim unit).toUpper := by
  rw [String.ofList_toList, String.toUpper, ← String.toList_map, String.ofList_toList]

/-! ## The reader -/

/-- **A byte size is read exactly**: the reader answers `v` precisely on the texts that spell
the size `v`, and refuses every other text. -/
theorem parseByteSize_eq_ok_iff (raw : String) (v : Nat) :
    parseByteSize raw = .ok v ↔ SpellsByteSize raw v := by
  constructor
  · intro h
    -- the reader's own split: the leading digits and the rest
    set text := (Blank.trim raw).toList with htext
    refine ⟨text.takeWhile Char.isDigit, String.ofList (text.dropWhile Char.isDigit), ?_⟩
    have hsplit : text = text.takeWhile Char.isDigit ++
        (String.ofList (text.dropWhile Char.isDigit)).toList := by
      rw [String.toList_ofList, List.takeWhile_append_dropWhile]
    have hdrop : text.drop (text.takeWhile Char.isDigit).length =
        (String.ofList (text.dropWhile Char.isDigit)).toList := by
      calc text.drop (text.takeWhile Char.isDigit).length
          = (text.takeWhile Char.isDigit ++ text.dropWhile Char.isDigit).drop
              (text.takeWhile Char.isDigit).length := by rw [List.takeWhile_append_dropWhile]
        _ = (String.ofList (text.dropWhile Char.isDigit)).toList := by
          rw [List.drop_left, String.toList_ofList]
    simp only [parseByteSize, ← htext, hdrop, unitText_eq, foldl_eq_decimalValue] at h
    split_ifs at h with hbad
    split at h
    · cases h
    · rename_i m hm
      split_ifs at h with hover
      cases h
      simp only [List.isEmpty_iff, not_or, not_le] at hbad hover
      exact ⟨m, hsplit, hbad.1, fun c hc => List.mem_takeWhile_imp hc,
        (unitMultiplier_eq_some_iff _ _).mp hm, hbad.2, hover, rfl⟩
  · rintro ⟨digits, unit, m, hsplit, hne, hd, hunit, hval, hprod, rfl⟩
    have htake : (Blank.trim raw).toList.takeWhile Char.isDigit = digits := by
      rw [hsplit, takeWhile_isDigit hd (unit_head_not_digit hunit)]
    have hdrop : (Blank.trim raw).toList.drop digits.length = unit.toList := by
      rw [hsplit]
      exact List.drop_left
    have hm := (unitMultiplier_eq_some_iff _ _).mpr hunit
    have h64 : Nat.pow 2 64 = 2 ^ 64 := rfl
    simp only [parseByteSize, htake, hdrop, unitText_eq, foldl_eq_decimalValue, hm, h64]
    rw [if_neg (by simpa [List.isEmpty_iff, hne] using hval), if_neg (by omega)]

example : parseByteSize " 17179869183 gib " = .ok (2 ^ 64 - 2 ^ 30) := by decide +kernel

end GitServer.Config
