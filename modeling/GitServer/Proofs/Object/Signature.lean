import GitServer.Object.Signature
import GitServer.Proofs.Text.Blank
import GitServer.Proofs.Text.Split
import GitServer.Proofs.Storage.LooseObjects
import GitServer.Proofs.Storage.RefMap
import GitServer.Proofs.Wire.PktLine
import Mathlib

/-!
# Signature lines read back

A signature line is the role, the name, the e-mail address between `<` and `>`, the seconds
since the epoch and the time zone, separated by spaces. The reader takes the address from the
first `<` to the last `>`, trims the name, and splits what follows the address at spaces. So
a line gives back the signature it was written from when its fields stay clear of what the
reader looks for (`Signature.Readable`): no `<` in the name and no blank at its ends, a time
zone without blanks or `>`, and seconds that fit in 64 bits. The address may hold anything
but a line feed, `<` and `>` included.

* `Numeral.parseInt64?_toString`: a 64-bit number written in decimal reads back.
* `Signature.parse_fields`: the reader on a line cut into its fields, where each cut falls.
* `Signature.parse_encode`: a readable signature reads back from its line.
-/

namespace GitServer

/-! ## Seconds in decimal -/

namespace Numeral

theorem toList_toString_ofNat (m : Nat) :
    (toString (Int.ofNat m)).toList = Nat.toDigits 10 m := by
  simp [toString, Int.repr, Nat.repr]

theorem toList_toString_negSucc (m : Nat) :
    (toString (Int.negSucc m)).toList = '-' :: Nat.toDigits 10 (m + 1) := by
  simp [toString, Int.repr, Nat.repr]

theorem digits?_toDigits (n : Nat) : digits? 10 (Nat.toDigits 10 n) = some n := by
  rw [digits?, if_neg (by simp [Nat.toDigits_ne_nil])]
  exact foldlM_toDigits_ten n

theorem digitChar_ne_sign : ∀ d < 10, Nat.digitChar d ≠ '-' ∧ Nat.digitChar d ≠ '+' := by
  decide

theorem digitChar_plain : ∀ d < 10, Blank.isBlank (Nat.digitChar d) = false ∧ Nat.digitChar d ≠ '>' := by
  decide

/-- The characters of a written integer: a minus sign and decimal digits. -/
theorem mem_toString_int {t : Int} {c : Char} (hc : c ∈ (toString t).toList) :
    c = '-' ∨ ∃ d < 10, c = Nat.digitChar d := by
  cases t with
  | ofNat m =>
    rw [toList_toString_ofNat] at hc
    exact .inr (mem_toDigits_ten hc)
  | negSucc m =>
    rw [toList_toString_negSucc, List.mem_cons] at hc
    rcases hc with rfl | hc
    · exact .inl rfl
    · exact .inr (mem_toDigits_ten hc)

/-- No character of a written integer is blank or `>`. -/
theorem plain_of_mem_toString_int {t : Int} {c : Char} (hc : c ∈ (toString t).toList) :
    Blank.isBlank c = false ∧ c ≠ '>' := by
  rcases mem_toString_int hc with rfl | ⟨d, hd, rfl⟩
  · decide
  · exact digitChar_plain d hd

theorem toString_int_ne_nil (t : Int) : (toString t).toList ≠ [] := by
  cases t with
  | ofNat m =>
    rw [toList_toString_ofNat]
    exact Nat.toDigits_ne_nil
  | negSucc m =>
    rw [toList_toString_negSucc]
    exact List.cons_ne_nil _ _

/-- **A 64-bit number written in decimal reads back**, negative ones included. -/
theorem parseInt64?_toString {t : Int} (hlo : -2 ^ 63 ≤ t) (hhi : t < 2 ^ 63) :
    parseInt64? (toString t) = some t := by
  cases t with
  | ofNat m =>
    have hm : m < 2 ^ 63 := by
      rw [Int.ofNat_eq_natCast] at hhi
      omega
    unfold parseInt64?
    rw [toList_toString_ofNat]
    -- the first digit is no sign, so the whole text is the numeral
    split
    · rename_i rest h
      obtain ⟨d, hd, hc⟩ := mem_toDigits_ten (h ▸ List.mem_cons_self : '-' ∈ Nat.toDigits 10 m)
      exact absurd hc.symm (digitChar_ne_sign d hd).1
    · rename_i rest h
      obtain ⟨d, hd, hc⟩ := mem_toDigits_ten (h ▸ List.mem_cons_self : '+' ∈ Nat.toDigits 10 m)
      exact absurd hc.symm (digitChar_ne_sign d hd).2
    · simp [digits?_toDigits]
      omega
  | negSucc m =>
    have hm : m + 1 ≤ 2 ^ 63 := by omega
    unfold parseInt64?
    rw [toList_toString_negSucc]
    simp [digits?_toDigits, Int.negSucc_eq]
    omega

end Numeral

/-! ## The reader on a line cut into fields -/

namespace Role

/-- The bytes of a role's word, read off its characters. -/
theorem ofString_name (r : Role) :
    Bytes.ofString r.name = r.name.toList.map fun c => UInt8.ofNat c.toNat := by
  cases r <;> exact Bytes.ofString_literal rfl

theorem ofBytes?_name (r : Role) : ofBytes? (Bytes.ofString r.name) = some r := by
  cases r <;> simp only [ofBytes?, ofString_name] <;> decide

theorem space_not_mem_name (r : Role) : (32 : UInt8) ∉ Bytes.ofString r.name := by
  cases r <;> rw [ofString_name] <;> decide

end Role

namespace Signature

open Blank in
/-- **Where the reader cuts a line.** A line made of a role word, a name, an address between
`<` and `>`, seconds and a zone, joined by spaces, is read field by field, when the name holds
no `<`, the seconds and the zone hold no `>` and no space, and trimming leaves the name and the
part after the address as they are. -/
theorem parse_fields {R N E T Z : Bytes} {r : Role} {text : String} {seconds : Int}
    (hrole : Role.ofBytes? R = some r) (hR : 32 ∉ R) (hN : 60 ∉ N)
    (hT : 32 ∉ T ∧ 62 ∉ T) (hZ : 32 ∉ Z ∧ 62 ∉ Z)
    (htrimN : trimBytes (N ++ [32]) = N) (htrimTZ : trimBytes (32 :: (T ++ 32 :: Z)) = T ++ 32 :: Z)
    (htext : Utf8.decode? T = some text) (hseconds : Numeral.parseInt64? text = some seconds) :
    parse (R ++ 32 :: (N ++ 32 :: 60 :: (E ++ 62 :: 32 :: (T ++ 32 :: Z)))) =
      .ok ⟨r, Utf8.decodeLossy N, Utf8.decodeLossy E, seconds, Utf8.decodeLossy Z⟩ := by
  generalize hrest : N ++ 32 :: 60 :: (E ++ 62 :: 32 :: (T ++ 32 :: Z)) = rest
  have hsplit : Bytes.splitFirst? (R ++ 32 :: rest) 32 = some (R, rest) :=
    Bytes.splitFirst?_append_cons hR
  -- the address starts at the first `<`, after the name and its space
  have hstart : Bytes.indexOf? rest 60 = some (N.length + 1) := by
    have h := @Bytes.indexOf?_append_cons (N ++ [32]) (E ++ 62 :: 32 :: (T ++ 32 :: Z)) 60
      (by simp [hN])
    simpa [← hrest] using h
  -- and ends at the last `>`, after which only the seconds and the zone come
  have hend : Bytes.lastIndexOf? rest 62 = some (N.length + 2 + E.length) := by
    have h := @Bytes.lastIndexOf?_append_cons (N ++ 32 :: 60 :: E) (32 :: (T ++ 32 :: Z)) 62
      (by simp [hT.2, hZ.2])
    simp only [List.append_assoc, List.cons_append, List.length_append, List.length_cons] at h
    rw [← hrest, h]
    congr 1
    omega
  have hname : rest.take (N.length + 1) = N ++ [32] := by
    rw [show rest = (N ++ [32]) ++ 60 :: (E ++ 62 :: 32 :: (T ++ 32 :: Z)) by simp [← hrest]]
    exact List.take_left' (by simp)
  have hemail : (rest.drop (N.length + 1 + 1)).take (N.length + 2 + E.length - (N.length + 1) - 1)
      = E := by
    rw [show rest = (N ++ [32, 60]) ++ (E ++ 62 :: 32 :: (T ++ 32 :: Z)) by simp [← hrest],
      List.drop_left' (by simp), show N.length + 2 + E.length - (N.length + 1) - 1 = E.length by omega]
    exact List.take_left' rfl
  have htail : rest.drop (N.length + 2 + E.length + 1) = 32 :: (T ++ 32 :: Z) := by
    rw [show rest = (N ++ 32 :: 60 :: E ++ [62]) ++ 32 :: (T ++ 32 :: Z) by simp [← hrest]]
    exact List.drop_left' (by simp; omega)
  have hparts : Bytes.splitOn (T ++ 32 :: Z) 32 = [T, Z] := by
    rw [Bytes.splitOn_append_cons hT.1, Bytes.splitOn_of_not_mem hZ.1]
  simp only [parse, hsplit, hrole, hstart, hend, hname, hemail, htail, htrimN, htrimTZ, hparts]
  rw [if_neg (by omega)]
  simp only [List.head?_cons, htext, hseconds, List.drop_succ_cons, List.drop_zero]
  rfl

/-! ## Readable signatures -/

/-- A signature that its line gives back and that stays on one line: a name with no `<` and no
line feed that trimming leaves alone, an address with no line feed, a zone that is not empty
and holds no blank and no `>`, and seconds that fit in 64 bits. -/
structure Readable (s : Signature) : Prop where
  lt_not_mem_name : '<' ∉ s.name.toList
  lf_not_mem_name : '\n' ∉ s.name.toList
  trim_name : Blank.trim s.name = s.name
  lf_not_mem_email : '\n' ∉ s.email.toList
  timezone_ne_nil : s.timezone.toList ≠ []
  not_blank_timezone : ∀ c ∈ s.timezone.toList, Blank.isBlank c = false
  gt_not_mem_timezone : '>' ∉ s.timezone.toList
  le_timestamp : -2 ^ 63 ≤ s.timestamp
  timestamp_lt : s.timestamp < 2 ^ 63

-- The zone's characters are checked through `List.all`: a bounded `∀` over characters would be
-- decided by trying every character.
instance (s : Signature) : Decidable s.Readable :=
  decidable_of_iff ('<' ∉ s.name.toList ∧ '\n' ∉ s.name.toList ∧ Blank.trim s.name = s.name ∧
      '\n' ∉ s.email.toList ∧ s.timezone.toList ≠ [] ∧
      (s.timezone.toList.all fun c => !Blank.isBlank c) = true ∧ '>' ∉ s.timezone.toList ∧
      -2 ^ 63 ≤ s.timestamp ∧ s.timestamp < 2 ^ 63) <| by
    simp only [List.all_eq_true, Bool.not_eq_true']
    exact ⟨fun ⟨h1, h2, h3, h4, h5, h6, h7, h8, h9⟩ => ⟨h1, h2, h3, h4, h5, h6, h7, h8, h9⟩,
      fun ⟨h1, h2, h3, h4, h5, h6, h7, h8, h9⟩ => ⟨h1, h2, h3, h4, h5, h6, h7, h8, h9⟩⟩

/-- The bytes of a signature line, field by field. -/
theorem encode_eq (s : Signature) : s.encode =
    Bytes.ofString s.role.name ++ 32 :: (Bytes.ofString s.name ++ 32 :: 60 ::
      (Bytes.ofString s.email ++ 62 :: 32 :: (Bytes.ofString (toString s.timestamp) ++
        32 :: Bytes.ofString s.timezone))) := by
  have hsp : Bytes.ofString " " = [32] := Bytes.ofString_literal rfl
  have hlt : Bytes.ofString " <" = [32, 60] := Bytes.ofString_literal rfl
  have hgt : Bytes.ofString "> " = [62, 32] := Bytes.ofString_literal rfl
  simp [encode, render, Bytes.ofString_append, hsp, hlt, hgt]

variable {s : Signature}

/-- Between the address and the end of the line, trimming takes the space after `>` only. -/
theorem trimBytes_seconds_zone (hs : s.Readable) :
    Blank.trimBytes (32 :: (Bytes.ofString (toString s.timestamp) ++ 32 ::
      Bytes.ofString s.timezone)) =
      Bytes.ofString (toString s.timestamp) ++ 32 :: Bytes.ofString s.timezone := by
  obtain ⟨c, hc⟩ := Option.isSome_iff_exists.1
    (List.isSome_head?.2 (Numeral.toString_int_ne_nil s.timestamp))
  obtain ⟨d, hd⟩ := Option.isSome_iff_exists.1 (List.getLast?_isSome.2 hs.timezone_ne_nil)
  rw [Blank.trimBytes, Blank.trimBytesStart_space,
    Blank.trimBytesStart_ofString hc (Numeral.plain_of_mem_toString_int (List.mem_of_head? hc)).1,
    ← List.singleton_append, ← List.append_assoc,
    Blank.trimBytesEnd_ofString hd (hs.not_blank_timezone d (List.mem_of_getLast? hd))]

/-- **A readable signature reads back from its line.** -/
theorem parse_encode (hs : s.Readable) : parse s.encode = .ok s := by
  have hT : ∀ c ∈ (toString s.timestamp).toList, Blank.isBlank c = false ∧ c ≠ '>' :=
    fun _ hc => Numeral.plain_of_mem_toString_int hc
  have hname : Blank.trimBytes (Bytes.ofString s.name ++ [32]) = Bytes.ofString s.name :=
    Blank.trimBytes_ofString_append_space (RefTarget.head_not_blank hs.trim_name)
      (by simpa [List.head?_reverse] using RefTarget.getLast_not_blank hs.trim_name)
  rw [encode_eq, parse_fields (Role.ofBytes?_name s.role) (Role.space_not_mem_name s.role)
    (Utf8.not_mem_ofString (by decide) (by decide) hs.lt_not_mem_name)
    ⟨Utf8.not_mem_ofString (by decide) (by decide)
        (Blank.not_mem_of_not_blank (fun c hc => (hT c hc).1) Blank.isBlank_space),
      Utf8.not_mem_ofString (by decide) (by decide) fun h => (hT _ h).2 rfl⟩
    ⟨Utf8.not_mem_ofString (by decide) (by decide)
        (Blank.not_mem_of_not_blank hs.not_blank_timezone Blank.isBlank_space),
      Utf8.not_mem_ofString (by decide) (by decide) hs.gt_not_mem_timezone⟩
    hname (trimBytes_seconds_zone hs) (Utf8.decode?_ofString _)
    (Numeral.parseInt64?_toString hs.le_timestamp hs.timestamp_lt)]
  simp only [Utf8.decodeLossy_ofString_self]

/-! ## A signature line is one line -/

theorem lf_not_mem_render (hs : s.Readable) : '\n' ∉ s.render.toList := by
  have hrole : '\n' ∉ s.role.name.toList := by cases s.role <;> decide
  have hlf : Blank.isBlank '\n' = true := by decide
  have hseconds : '\n' ∉ (toString s.timestamp).toList :=
    Blank.not_mem_of_not_blank (fun _ hc => (Numeral.plain_of_mem_toString_int hc).1) hlf
  have hzone : '\n' ∉ s.timezone.toList := Blank.not_mem_of_not_blank hs.not_blank_timezone hlf
  simpa [render, hrole, hzone, hs.lf_not_mem_name, hs.lf_not_mem_email] using hseconds

theorem lf_not_mem_encode (hs : s.Readable) : (10 : UInt8) ∉ s.encode :=
  Utf8.not_mem_ofString (by decide) (by decide) (lf_not_mem_render hs)

/-- The line ends with the last character of the zone, which is no carriage return. -/
theorem getLast?_encode_ne (hs : s.Readable) : s.encode.getLast? ≠ some 13 := by
  obtain ⟨d, hd⟩ := Option.isSome_iff_exists.1 (List.getLast?_isSome.2 hs.timezone_ne_nil)
  have hrender : s.render.toList.getLast? = some d := by
    rw [render, String.toList_append, List.getLast?_append_of_ne_nil _ hs.timezone_ne_nil, hd]
  exact Blank.getLast?_ofString_ne_cr hrender (hs.not_blank_timezone d (List.mem_of_getLast? hd))

end Signature

end GitServer
