import GitServer.Proofs.Storage.RefMap
import GitServer.Proofs.Storage.RepoNames
import GitServer.Storage.Metadata
import Mathlib

/-!
# Stored records read back

Both media keep a reference target as one line of text and the shallow commits as one id a
line. This module states the laws of the two codecs as a whole:

* a direct target, and a symbolic one whose name is nonempty and its own trim, reads back from
  its record (`RefTarget.decode_encode`, from the map of references);
* whatever reading accepts is such a target (`RefTarget.kept_of_decode`), so writing what was
  read and reading it again gives the same answer;
* reading ignores a line feed added at the end (`RefTarget.decode_append_lineFeed`);
* a list of shallow commits reads back from its record, in order and with its repetitions
  (`decodeShallow_encodeShallow`), since the lines of the record are the ids' digits
  (`lines_encodeShallow`).

`records_read_back` gathers the four.
-/

namespace GitServer

/-! ## Trimming -/

namespace Blank

/-- Trimming the end of a text that starts with no blank keeps that start. -/
theorem dropWhile_rdropWhile {l : List Char} (hl : ∀ c ∈ l.head?, isBlank c = false) :
    (l.rdropWhile isBlank).dropWhile isBlank = l.rdropWhile isBlank := by
  apply RefTarget.dropWhile_of_head
  intro c hc
  -- what is left is a nonempty start of `l`, so it starts where `l` does
  obtain ⟨t, ht⟩ := List.rdropWhile_prefix isBlank l
  obtain ⟨cs, hcs⟩ : ∃ cs, l.rdropWhile isBlank = c :: cs := by
    cases h : l.rdropWhile isBlank with
    | nil => simp [h] at hc
    | cons d ds => simp [h] at hc; exact ⟨ds, by rw [hc]⟩
  rw [hcs] at ht
  exact hl c (by simp [← ht])

/-- **Trimming twice trims no more than once.** -/
theorem trim_trim (s : String) : trim (trim s) = trim s := by
  have hstart : ∀ c ∈ (s.toList.dropWhile isBlank).head?, isBlank c = false := by
    intro c hc
    cases h : s.toList.dropWhile isBlank with
    | nil => simp [h] at hc
    | cons d ds =>
      have hd := List.head_dropWhile_not isBlank (l := s.toList) (by simp [h])
      simp only [h, Option.mem_def, List.head?_cons, Option.some.injEq] at hc hd
      exact hc ▸ hd
  apply String.toList_inj.mp
  simp only [trim, trimEnd, trimStart, String.toList_ofList]
  rw [← List.rdropWhile.eq_1, ← List.rdropWhile.eq_1, dropWhile_rdropWhile hstart,
    List.rdropWhile_idempotent]

end Blank

/-! ## Reference targets -/

namespace RefTarget

/-- **A line feed at the end is not read.** -/
theorem decode_append_lineFeed (c : String) : decode (c ++ "\n") = decode c := by
  -- line ends are dropped first, and the added one is the first of them
  have hline : (c ++ "\n").toList.reverse.dropWhile (fun ch => decide (ch = '\n' ∨ ch = '\r')) =
      c.toList.reverse.dropWhile (fun ch => decide (ch = '\n' ∨ ch = '\r')) := by
    rw [String.toList_append, List.reverse_append]
    exact List.dropWhile_cons_of_pos (by decide)
  unfold decode
  rw [hline]

/-- **What reading accepts reads back from its record**: a symbolic name read is nonempty and
trimmed. -/
theorem kept_of_decode {c : String} {t : RefTarget} (h : decode c = .ok t) : t.Kept := by
  unfold decode at h
  dsimp only at h
  split at h
  · -- a symbolic target: its name is trimmed and, since it was accepted, nonempty
    split at h
    · cases h
    · rename_i hne
      cases h
      exact ⟨fun h0 => hne (by rw [h0]; rfl), Blank.trim_trim _⟩
  · cases t with
    | direct _ => trivial
    | symbolic _ => split at h <;> cases h

end RefTarget

/-! ## Shallow commits -/

/-- The record of shallow commits is the digits of each id joined with line feeds, and a
final line feed. -/
theorem toList_encodeShallow (ids : List ObjectId) :
    (encodeShallow ids).toList = ['\n'].intercalate (ids.map (·.toHex.toList) ++ [[]]) := by
  induction ids with
  | nil => rfl
  | cons id ids ih =>
    rw [encodeShallow, List.map_cons, String.join_cons, String.toList_append, ← encodeShallow, ih]
    cases ids with
    | nil => simp
    | cons _ _ => simp [List.intercalate_cons_cons]

/-- The lines of the record of shallow commits are the ids' digits. -/
theorem lines_encodeShallow (ids : List ObjectId) :
    Text.lines (encodeShallow ids) = ids.map (·.toHex) := by
  have hparts : (encodeShallow ids).splitOn "\n" = ids.map (·.toHex) ++ [""] := by
    -- no digit is a line feed, so splitting undoes the joining
    have hsep : ∀ l ∈ ids.map (·.toHex.toList) ++ [[]], '\n' ∉ l := by
      simp only [List.mem_append, List.mem_map, List.mem_singleton]
      rintro l (⟨id, -, rfl⟩ | rfl) hl
      · exact absurd (ObjectId.plain_of_mem_toHex hl).2.1 (by decide)
      · simp at hl
    rw [show "\n" = String.singleton '\n' from rfl, String.splitOn_singleton, toList_encodeShallow,
      List.splitOn_intercalate '\n' hsep (by simp)]
    simp [Function.comp_def]
  have hcr : ∀ id : ObjectId, id.toHex.endsWith "\r" = false := by
    intro id
    rw [Bool.eq_false_iff]
    intro h
    have hr : '\r' ∈ id.toHex.toList := (String.endsWith_iff_suffix.mp h).subset (by simp)
    exact absurd (ObjectId.plain_of_mem_toHex hr).2.1 (by decide)
  simp [Text.lines, hparts, hcr]

/-- Reading each of a list of ids back from its digits reads the list back. -/
theorem mapM_toHex {ε : Type} (ids : List ObjectId) {f : String → Except ε ObjectId}
    (hf : ∀ id : ObjectId, f id.toHex = .ok id) : (ids.map (·.toHex)).mapM f = .ok ids := by
  induction ids with
  | nil => rfl
  | cons id ids ih =>
    simp only [List.map_cons, List.mapM_cons, hf, ih]
    rfl

/-- **A list of shallow commits reads back from its record**, in order and with its
repetitions. -/
theorem decodeShallow_encodeShallow (ids : List ObjectId) :
    decodeShallow (encodeShallow ids) = .ok ids := by
  have hlines : ((Text.lines (encodeShallow ids)).filterMap fun l =>
      let t := Blank.trim l; if t.isEmpty then none else some t) = ids.map (·.toHex) := by
    rw [lines_encodeShallow, List.filterMap_map]
    apply List.filterMap_eq_map_iff_forall_eq_some.mpr
    intro id _
    have hne : id.toHex ≠ "" := by
      intro h
      simpa [h] using ObjectId.length_toHex id
    simp [RefTarget.trim_toHex, hne]
  rw [decodeShallow, hlines]
  exact mapM_toHex ids fun id => by simp only [ObjectId.parse_toHex]

/-! ## The laws together -/

/-- **Stored records read back**: a direct target, and a symbolic one whose name is nonempty
and its own trim, read back from their records; writing what reading accepted and reading it
again gives the same answer; a line feed added at the end is not read; and a list of shallow
commits reads back from its record, in order, with its repetitions, the empty list included. -/
theorem records_read_back :
    (∀ id : ObjectId, RefTarget.decode (RefTarget.direct id).encode = .ok (.direct id)) ∧
    (∀ name : String, name ≠ "" → Blank.trim name = name →
      RefTarget.decode (RefTarget.symbolic name).encode = .ok (.symbolic name)) ∧
    (∀ (c : String) (t : RefTarget), RefTarget.decode c = .ok t →
      RefTarget.decode t.encode = RefTarget.decode c) ∧
    (∀ c : String, RefTarget.decode (c ++ "\n") = RefTarget.decode c) ∧
    (∀ ids : List ObjectId, decodeShallow (encodeShallow ids) = .ok ids) :=
  ⟨fun id => RefTarget.decode_encode_direct id,
   fun _ hne ht => RefTarget.decode_encode ⟨hne, ht⟩,
   fun _ _ h => (RefTarget.decode_encode (RefTarget.kept_of_decode h)).trans h.symm,
   RefTarget.decode_append_lineFeed,
   decodeShallow_encodeShallow⟩

/-- The symbolic target of `HEAD` in a new repository reads back from its record. -/
theorem records_read_back_mainBranch :
    "refs/heads/main" ≠ "" ∧ Blank.trim "refs/heads/main" = "refs/heads/main" ∧
      RefTarget.decode (RefTarget.symbolic "refs/heads/main").encode =
        .ok (.symbolic "refs/heads/main") :=
  have hne : "refs/heads/main" ≠ "" := by decide
  have ht : Blank.trim "refs/heads/main" = "refs/heads/main" := by decide +kernel
  ⟨hne, ht, records_read_back.2.1 _ hne ht⟩

end GitServer
