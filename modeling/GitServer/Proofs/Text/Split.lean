import GitServer.Bytes
import Mathlib

/-!
# Cutting bytes at separators

The readers of object bodies cut bytes at separators: at the first occurrence of a byte
(`Bytes.indexOf?`, `Bytes.splitFirst?`), at the last (`Bytes.lastIndexOf?`), at every one
(`Bytes.splitOn`, `Bytes.lines`) and at the first occurrence of two bytes in a row
(`Bytes.findInfix?`). The lemmas here say where the cut falls in bytes written as parts and
separators, when a part does not hold the separator the reader looks for: between the parts,
which come back as they were written.
-/

namespace GitServer.Bytes

/-! ## The first and the last occurrence of a byte -/

theorem indexOf?_append_cons {p q : Bytes} {b : UInt8} (h : b ∉ p) :
    indexOf? (p ++ b :: q) b = some p.length := by
  induction p with
  | nil => simp [indexOf?, List.findIdx?_cons]
  | cons x p ih =>
    have hx : x ≠ b := fun hx => h (by simp [hx])
    have := ih (fun hp => h (by simp [hp]))
    simp only [indexOf?, List.cons_append, List.findIdx?_cons] at this ⊢
    simp [hx, this]

/-- The first occurrence found cuts the bytes into a part without it, the byte, and the rest. -/
theorem eq_append_of_indexOf? {bs : Bytes} {b : UInt8} {i : Nat} (h : indexOf? bs b = some i) :
    ∃ p q, bs = p ++ b :: q ∧ b ∉ p ∧ p.length = i := by
  obtain ⟨hlt, hval, hbefore⟩ := List.findIdx?_eq_some_iff_getElem.1 h
  have hb : bs[i] = b := by simpa using hval
  refine ⟨bs.take i, bs.drop (i + 1), ?_, ?_, by simp; omega⟩
  · conv => lhs; rw [← List.take_append_drop i bs]
    rw [List.drop_eq_getElem_cons hlt, hb]
  · intro hmem
    obtain ⟨j, hj, hjb⟩ := List.getElem_of_mem hmem
    rw [List.length_take] at hj
    have := hbefore j (by omega)
    simp only [List.getElem_take] at hjb
    simp [hjb] at this

theorem splitFirst?_append_cons {p q : Bytes} {b : UInt8} (h : b ∉ p) :
    splitFirst? (p ++ b :: q) b = some (p, q) := by
  simp [splitFirst?, indexOf?_append_cons h]

/-- The last occurrence is the first one of the reversed bytes. -/
theorem lastIndexOf?_append_cons {p q : Bytes} {b : UInt8} (h : b ∉ q) :
    lastIndexOf? (p ++ b :: q) b = some p.length := by
  have hfind : (q.reverse ++ b :: p.reverse).findIdx? (· == b) = some q.length := by
    simpa [indexOf?] using @indexOf?_append_cons q.reverse p.reverse b (by simpa using h)
  have hrev : (p ++ b :: q).reverse = q.reverse ++ b :: p.reverse := by simp
  simp only [lastIndexOf?, hrev, hfind, Option.map_some, List.length_append, List.length_cons]
  congr 1
  omega

/-! ## Every occurrence -/

theorem splitOn_cons_self (b : UInt8) (bs : Bytes) :
    splitOn (b :: bs) b = [] :: splitOn bs b := by
  simp [splitOn]

theorem splitOn_cons_of_ne {x b : UInt8} {bs p : Bytes} {ps : List Bytes} (hx : x ≠ b)
    (h : splitOn bs b = p :: ps) : splitOn (x :: bs) b = (x :: p) :: ps := by
  simp only [splitOn, List.foldr_cons, beq_iff_eq, List.cons.injEq] at h ⊢
  simp [hx, h]

theorem exists_splitOn_eq_cons (bs : Bytes) (b : UInt8) : ∃ p ps, splitOn bs b = p :: ps :=
  ⟨_, _, rfl⟩

theorem splitOn_of_not_mem {bs : Bytes} {b : UInt8} (h : b ∉ bs) : splitOn bs b = [bs] := by
  induction bs with
  | nil => rfl
  | cons x bs ih =>
    have hx : x ≠ b := fun hx => h (hx ▸ List.mem_cons_self)
    exact splitOn_cons_of_ne hx (ih fun hb => h (List.mem_cons_of_mem x hb))

/-- A part without the separator, then the separator, is split off as it was. -/
theorem splitOn_append_cons {p q : Bytes} {b : UInt8} (h : b ∉ p) :
    splitOn (p ++ b :: q) b = p :: splitOn q b := by
  induction p with
  | nil => exact splitOn_cons_self b q
  | cons x p ih =>
    have hx : x ≠ b := fun hx => h (hx ▸ List.mem_cons_self)
    exact splitOn_cons_of_ne hx (ih fun hb => h (List.mem_cons_of_mem x hb))

/-! ## Lines -/

/-- A line that does not end with a carriage return keeps its last byte. -/
theorem dropSuffix?_cr {l : Bytes} (hcr : l.getLast? ≠ some 13) : dropSuffix? l [13] = none := by
  rw [dropSuffix?, if_neg]
  rw [List.isSuffixOf_iff_suffix]
  rintro ⟨t, rfl⟩
  simp at hcr

theorem lines_append_cons {l rest : Bytes} (hlf : 10 ∉ l) (hcr : l.getLast? ≠ some 13) :
    lines (l ++ 10 :: rest) = l :: lines rest := by
  obtain ⟨p, ps, hps⟩ := exists_splitOn_eq_cons rest 10
  simp only [lines, splitOn_append_cons hlf, hps, List.dropLast_cons_cons, List.map_cons,
    dropSuffix?_cr hcr, Option.getD_none, List.getLast?_cons_cons]
  split <;> simp

/-- Lines joined by line feeds are read back, when none is empty or ends with a carriage
return. -/
theorem lines_intercalate {ls : List Bytes}
    (hls : ∀ l ∈ ls, l ≠ [] ∧ 10 ∉ l ∧ l.getLast? ≠ some 13) :
    lines ([10].intercalate ls) = ls := by
  induction ls with
  | nil => rfl
  | cons l ls ih =>
    obtain ⟨hne, hlf, hcr⟩ := hls l List.mem_cons_self
    cases ls with
    | nil =>
      obtain ⟨x, xs, rfl⟩ := List.exists_cons_of_ne_nil hne
      simp [lines, splitOn_of_not_mem hlf]
    | cons l' ls =>
      rw [List.intercalate_cons_cons, List.append_assoc, List.singleton_append,
        lines_append_cons hlf hcr, ih fun l hl => hls l (List.mem_cons_of_mem _ hl)]

theorem intercalate_append_singleton (sep : Bytes) (ls : List Bytes) (l : Bytes) :
    sep.intercalate (ls ++ [l]) = ls.flatMap (· ++ sep) ++ l := by
  induction ls with
  | nil => simp
  | cons a ls ih =>
    obtain ⟨b, rest, h⟩ := List.exists_cons_of_ne_nil (List.append_ne_nil_of_right_ne_nil ls
      (List.cons_ne_nil l []))
    rw [List.cons_append, h, List.intercalate_cons_cons, ← h, ih]
    simp

/-! ## Two bytes in a row -/

/-- Bytes without a line feed hold no two line feeds in a row. -/
theorem findInfix?_go_append {l : Bytes} (rest : Bytes) (i : Nat) (hl : 10 ∉ l) :
    findInfix?.go [10, 10] (l ++ rest) i = findInfix?.go [10, 10] rest (i + l.length) := by
  induction l generalizing i with
  | nil => rfl
  | cons x l ih =>
    have hx : x ≠ 10 := fun hx => hl (hx ▸ List.mem_cons_self)
    rw [List.cons_append, findInfix?.go.eq_2, if_neg (by simp [Ne.symm hx]),
      ih (i + 1) fun h => hl (List.mem_cons_of_mem x h)]
    simp only [List.length_cons]
    congr 1
    omega

/-- The first two line feeds in a row after lines joined by line feeds, none of them empty,
are the ones that end the last line and follow it. -/
theorem findInfix?_go_intercalate {ls : List Bytes} (hls : ∀ l ∈ ls, l ≠ [] ∧ 10 ∉ l)
    (msg : Bytes) (i : Nat) :
    findInfix?.go [10, 10] ([10].intercalate ls ++ 10 :: 10 :: msg) i =
      some (i + ([10].intercalate ls).length) := by
  induction ls generalizing i with
  | nil => simp [findInfix?.go]
  | cons l ls ih =>
    obtain ⟨hne, hlf⟩ := hls l List.mem_cons_self
    cases ls with
    | nil =>
      rw [List.intercalate_singleton, findInfix?_go_append _ _ hlf]
      simp [findInfix?.go]
    | cons l' ls =>
      -- the line feed ending `l` is followed by the first byte of the next line, no line feed
      obtain ⟨y, ys, hl'⟩ := List.exists_cons_of_ne_nil (hls l' (by simp)).1
      have hy : y ≠ 10 := fun hy => (hls l' (by simp)).2 (by simp [hl', ← hy])
      have hnext := ih (fun l hl => hls l (List.mem_cons_of_mem _ hl)) (i + l.length + 1)
      rw [List.intercalate_cons_cons, List.append_assoc, List.append_assoc,
        findInfix?_go_append _ _ hlf, List.singleton_append, findInfix?.go.eq_2, if_neg
          (by simp [hl', Ne.symm hy]), hnext]
      simp only [List.length_append, List.length_singleton]
      congr 1
      omega

theorem findInfix?_intercalate {ls : List Bytes} (hls : ∀ l ∈ ls, l ≠ [] ∧ 10 ∉ l)
    (msg : Bytes) :
    findInfix? ([10].intercalate ls ++ 10 :: 10 :: msg) [10, 10] =
      some ([10].intercalate ls).length := by
  rw [findInfix?, findInfix?_go_intercalate hls, Nat.zero_add]

end GitServer.Bytes
