import GitServer.Object.Commit
import GitServer.Proofs.Object.Signature
import GitServer.Proofs.Storage.Records
import Mathlib

/-!
# Commits read back

A commit body is its header lines joined by line feeds, an empty line and the message. The
reader cuts the body at the first two line feeds in a row, splits the headers into lines and
reads each by its keyword. Written header lines are never empty and hold no line feed, so the
first two line feeds in a row are the ones after the last header
(`Bytes.findInfix?_intercalate`) and the lines come back as written (`Bytes.lines_intercalate`);
a `tree` or `parent` line gives back its id from the forty digits, and a signature line gives
back its signature when it is readable (`Signature.parse_encode`).

Main statement (`Commit.readable_roundtrip`): a commit whose author and committer sign as such
and are readable reads back as itself, with its parents in order and whatever its message, so
the commit read has the id of the commit written; and a readable signature reads back from its
line.
-/

namespace GitServer

namespace Commit

/-! ## Header lines -/

/-- A header line that names an object: a keyword, a space and the forty digits of the id. -/
def idLine (key : String) (id : ObjectId) : Bytes := Bytes.ofString (key ++ " " ++ id.toHex)

/-- The header lines of a commit, in the order they are written. -/
def headerLines (c : Commit) : List Bytes :=
  idLine "tree" c.tree :: c.parents.map (idLine "parent") ++ [c.author.encode, c.committer.encode]

theorem ofString_join (ss : List String) : Bytes.ofString (String.join ss) = ss.flatMap Bytes.ofString := by
  induction ss with
  | nil => simp [Bytes.ofString_eq_flatMap]
  | cons s ss ih => rw [String.join_cons, Bytes.ofString_append, ih, List.flatMap_cons]

/-- A body is its header lines joined by line feeds, an empty line and the message. -/
theorem encode_eq (c : Commit) :
    c.encode = [10].intercalate c.headerLines ++ 10 :: 10 :: Bytes.ofString c.message := by
  have hshape : c.headerLines =
      (idLine "tree" c.tree :: c.parents.map (idLine "parent") ++ [c.author.encode]) ++
        [c.committer.encode] := by
    simp [headerLines]
  have hlf : Bytes.ofString "\n" = [10] := Bytes.ofString_literal rfl
  have hlf2 : Bytes.ofString "\n\n" = [10, 10] := Bytes.ofString_literal rfl
  have htree : Bytes.ofString "tree " = Bytes.ofString "tree" ++ Bytes.ofString " " := by
    rw [← Bytes.ofString_append]; rfl
  have hparent : Bytes.ofString "parent " = Bytes.ofString "parent" ++ Bytes.ofString " " := by
    rw [← Bytes.ofString_append]; rfl
  rw [hshape, Bytes.intercalate_append_singleton]
  simp [encode, idLine, Signature.encode, Bytes.ofString_append, ofString_join, hlf, hlf2, htree,
    hparent, List.flatMap_map]

/-! ## Reading each header -/

theorem idLine_eq (key : String) (id : ObjectId) :
    idLine key id = Bytes.ofString key ++ 32 :: Bytes.ofString id.toHex := by
  have hsp : Bytes.ofString " " = [32] := Bytes.ofString_literal rfl
  rw [idLine, Bytes.ofString_append, Bytes.ofString_append, hsp, List.append_assoc,
    List.singleton_append]

theorem splitFirst?_idLine {key : String} (hkey : (32 : UInt8) ∉ Bytes.ofString key)
    (id : ObjectId) :
    Bytes.splitFirst? (idLine key id) 32 = some (Bytes.ofString key, Bytes.ofString id.toHex) := by
  rw [idLine_eq, Bytes.splitFirst?_append_cons hkey]

theorem parseIdField_toHex (id : ObjectId) (field : String) :
    parseIdField (Bytes.ofString id.toHex) field = .ok id := by
  simp [parseIdField, Utf8.decode?_ofString, RefTarget.trim_toHex, ObjectId.parse_toHex]
  rfl

/-! The keywords the reader compares with, byte by byte. -/

theorem ofString_tree : Bytes.ofString "tree" = [116, 114, 101, 101] :=
  Bytes.ofString_literal rfl

theorem ofString_parent : Bytes.ofString "parent" = [112, 97, 114, 101, 110, 116] :=
  Bytes.ofString_literal rfl

theorem ofString_author : Bytes.ofString "author" = [97, 117, 116, 104, 111, 114] :=
  Bytes.ofString_literal rfl

theorem ofString_committer :
    Bytes.ofString "committer" = [99, 111, 109, 109, 105, 116, 116, 101, 114] :=
  Bytes.ofString_literal rfl

theorem head?_idLine (key : String) (id : ObjectId) :
    (idLine key id).head? = (Bytes.ofString key).head?.or (some 32) := by
  rw [idLine_eq, List.head?_append]
  rfl

theorem readHeader_tree (h : Headers) (id : ObjectId) :
    readHeader h (idLine "tree" id) = .ok { h with tree := some id } := by
  rw [readHeader, head?_idLine, splitFirst?_idLine (by rw [ofString_tree]; decide) id]
  simp [parseIdField_toHex, ofString_tree]

theorem readHeader_parent (h : Headers) (id : ObjectId) :
    readHeader h (idLine "parent" id) = .ok { h with parents := h.parents ++ [id] } := by
  rw [readHeader, head?_idLine, splitFirst?_idLine (by rw [ofString_parent]; decide) id]
  simp [parseIdField_toHex, ofString_tree, ofString_parent]

/-- A signature line is cut after its role word. -/
theorem splitFirst?_encode (s : Signature) :
    Bytes.splitFirst? s.encode 32 = some (Bytes.ofString s.role.name,
      Bytes.ofString s.name ++ 32 :: 60 :: (Bytes.ofString s.email ++ 62 :: 32 ::
        (Bytes.ofString (toString s.timestamp) ++ 32 :: Bytes.ofString s.timezone))) := by
  rw [Signature.encode_eq]
  exact Bytes.splitFirst?_append_cons (Role.space_not_mem_name s.role)

theorem head?_encode (s : Signature) :
    s.encode.head? = (Bytes.ofString s.role.name).head?.or (some 32) := by
  rw [Signature.encode_eq, List.head?_append]
  rfl

theorem readHeader_author {s : Signature} (hrole : s.role = .author) (hs : s.Readable)
    (h : Headers) : readHeader h s.encode = .ok { h with author := some s } := by
  rw [readHeader, head?_encode, splitFirst?_encode, hrole]
  simp [Role.name, Signature.parse_encode hs, ofString_tree, ofString_parent, ofString_author]

theorem readHeader_committer {s : Signature} (hrole : s.role = .committer) (hs : s.Readable)
    (h : Headers) : readHeader h s.encode = .ok { h with committer := some s } := by
  rw [readHeader, head?_encode, splitFirst?_encode, hrole]
  simp [Role.name, Signature.parse_encode hs, ofString_tree, ofString_parent, ofString_author,
    ofString_committer]

theorem foldlM_readHeader_parents (h : Headers) (ps : List ObjectId) :
    (ps.map (idLine "parent")).foldlM readHeader h = .ok { h with parents := h.parents ++ ps } := by
  induction ps generalizing h with
  | nil => simp; rfl
  | cons p ps ih =>
    rw [List.map_cons, List.foldlM_cons, readHeader_parent]
    simp [bind, Except.bind, ih]

/-! ## Readable commits -/

/-- A commit that its body gives back: its author and committer sign as such, and each is a
readable signature. -/
structure Readable (c : Commit) : Prop where
  author_role : c.author.role = .author
  committer_role : c.committer.role = .committer
  author : c.author.Readable
  committer : c.committer.Readable

instance (c : Commit) : Decidable c.Readable :=
  decidable_of_iff (c.author.role = .author ∧ c.committer.role = .committer ∧ c.author.Readable ∧
      c.committer.Readable)
    ⟨fun ⟨h1, h2, h3, h4⟩ => ⟨h1, h2, h3, h4⟩, fun ⟨h1, h2, h3, h4⟩ => ⟨h1, h2, h3, h4⟩⟩

/-- A line naming an object is not empty, holds no line feed and ends with a digit. -/
theorem idLine_plain {key : String} (hkey : '\n' ∉ key.toList) (id : ObjectId) :
    idLine key id ≠ [] ∧ 10 ∉ idLine key id ∧ (idLine key id).getLast? ≠ some 13 := by
  have hhex : id.toHex.toList ≠ [] := fun h => by simpa [h] using ObjectId.length_toHex id
  obtain ⟨d, hd⟩ := Option.isSome_iff_exists.1 (List.getLast?_isSome.2 hhex)
  have hlf : '\n' ∉ id.toHex.toList :=
    fun h => absurd (ObjectId.plain_of_mem_toHex h).2.1 (by decide)
  have hc : Char.ofNat (10 : UInt8).toNat = '\n' := by decide
  refine ⟨by simp [idLine_eq], Utf8.not_mem_ofString (by decide) hc ?_, ?_⟩
  · simp [hkey, hlf]
  · refine Blank.getLast?_ofString_ne_cr ?_ (ObjectId.plain_of_mem_toHex (List.mem_of_getLast? hd)).2.1
    rw [String.toList_append, List.getLast?_append_of_ne_nil _ hhex, hd]

variable {c : Commit}

/-- No header line is empty, holds a line feed or ends with a carriage return. -/
theorem headerLines_plain (hc : c.Readable) :
    ∀ l ∈ c.headerLines, l ≠ [] ∧ 10 ∉ l ∧ l.getLast? ≠ some 13 := by
  have hsig : ∀ {s : Signature}, s.Readable →
      s.encode ≠ [] ∧ 10 ∉ s.encode ∧ s.encode.getLast? ≠ some 13 :=
    fun hs => ⟨by simp [Signature.encode_eq], Signature.lf_not_mem_encode hs,
      Signature.getLast?_encode_ne hs⟩
  intro l hl
  simp only [headerLines, List.cons_append, List.mem_cons, List.mem_append, List.mem_map,
    List.not_mem_nil, or_false] at hl
  rcases hl with rfl | ⟨p, -, rfl⟩ | rfl | rfl
  · exact idLine_plain (by decide) c.tree
  · exact idLine_plain (by decide) p
  · exact hsig hc.author
  · exact hsig hc.committer

/-- The headers of a readable commit give back its tree, parents, author and committer. -/
theorem foldlM_headerLines (hc : c.Readable) :
    c.headerLines.foldlM readHeader {} =
      .ok ⟨some c.tree, c.parents, some c.author, some c.committer⟩ := by
  simp [headerLines, List.foldlM_append, readHeader_tree, foldlM_readHeader_parents,
    readHeader_author hc.author_role hc.author, readHeader_committer hc.committer_role hc.committer,
    bind, Except.bind]
  rfl

/-- **A readable commit reads back from its body**, the empty line found after the last header
whatever the message holds. -/
theorem parse_encode (hc : c.Readable) : parse c.encode = .ok c := by
  have hlines := headerLines_plain hc
  have hfind := Bytes.findInfix?_intercalate (fun l hl => ⟨(hlines l hl).1, (hlines l hl).2.1⟩)
    (Bytes.ofString c.message)
  -- the headers are cut before the empty line and the message after it
  have hheaders : ([10].intercalate c.headerLines ++ 10 :: 10 :: Bytes.ofString c.message).take
      ([10].intercalate c.headerLines).length = [10].intercalate c.headerLines :=
    List.take_left' rfl
  have hmessage : ([10].intercalate c.headerLines ++ 10 :: 10 :: Bytes.ofString c.message).drop
      (([10].intercalate c.headerLines).length + 2) = Bytes.ofString c.message := by
    rw [show [10].intercalate c.headerLines ++ 10 :: 10 :: Bytes.ofString c.message =
      ([10].intercalate c.headerLines ++ [10, 10]) ++ Bytes.ofString c.message by simp]
    exact List.drop_left' (by simp)
  rw [encode_eq, parse, hfind]
  simp only [hheaders, hmessage, Bytes.lines_intercalate hlines, foldlM_headerLines hc,
    Utf8.decodeLossy_ofString_self]
  rfl

/-- **Commits and signatures read back.** A commit whose author and committer sign as such and
are readable is read back from its body as itself: the same tree, the parents in order, the same
author and committer, and the message, whatever it holds; the commit read therefore has the id
of the commit written. A readable signature is read back from its line. -/
theorem readable_roundtrip :
    (∀ c : Commit, c.Readable → parse c.encode = .ok c) ∧
      ∀ s : Signature, s.Readable → Signature.parse s.encode = .ok s :=
  ⟨fun _ hc => parse_encode hc, fun _ hs => Signature.parse_encode hs⟩

/-- A merge commit by an author before 1970 west of Greenwich, whose committer's address holds
`<` and `>` and whose message holds an empty line, reads back. -/
theorem readable_roundtrip_merge :
    Readable ⟨.zero, [.zero, .zero], ⟨.author, "A U Thor", "author@example.com", -86400, "-0700"⟩,
      ⟨.committer, "C O Mitter", "<c@example.com>", 1700000000, "+0100"⟩,
      "Merge\n\nTwo parents.\n"⟩ ∧
    parse (Commit.encode ⟨.zero, [.zero, .zero],
      ⟨.author, "A U Thor", "author@example.com", -86400, "-0700"⟩,
      ⟨.committer, "C O Mitter", "<c@example.com>", 1700000000, "+0100"⟩,
      "Merge\n\nTwo parents.\n"⟩) =
      .ok ⟨.zero, [.zero, .zero], ⟨.author, "A U Thor", "author@example.com", -86400, "-0700"⟩,
        ⟨.committer, "C O Mitter", "<c@example.com>", 1700000000, "+0100"⟩,
        "Merge\n\nTwo parents.\n"⟩ :=
  ⟨by decide +kernel, readable_roundtrip.1 _ (by decide +kernel)⟩

end Commit

end GitServer
