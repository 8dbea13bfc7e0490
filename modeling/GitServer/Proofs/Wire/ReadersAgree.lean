import GitServer.Wire.Chunks
import GitServer.Proofs.Wire.PktLine
import Mathlib

/-!
# Reading pkt-lines from a connection and from a buffer

A connection may hand the client's bytes over in any chunks; what a reader makes of them
depends only on the bytes, in order. Each read step is described by the bytes delivered,
flattened: a read takes the front of what is left (`readSome_spec`), the length digits are the
first four bytes left when there are four (`readDigits_of_le`), and an exact read is the next
bytes when there are enough (`readExact_of_le`). So reading lines from chunks is reading them
from the whole input as one connection (`readLines_eq_readStream`).

A connection and a buffer holding the whole request differ only in what a failed line leaves
behind and in the words of the error; they read the same lines, and both stop at the end of
the input or both at the same malformed line (`readStream_alike`).

Main statement: for every byte string and every way of delivering it in non-empty chunks,
reading line after line from the connection gives the lines read from the buffer, and ends as
the buffer's reading ends (`readLines_agree`).
-/

namespace GitServer.Wire

/-! ## One read -/

section Reads

variable {chunks : List Bytes}

theorem flatten_eq_nil_iff (hc : [] ∉ chunks) : chunks.flatten = [] ↔ chunks = [] := by
  constructor
  · intro h
    cases chunks with
    | nil => rfl
    | cons c cs =>
      have hc' : c ≠ [] := fun hnil => hc (hnil ▸ List.mem_cons_self)
      exact absurd (List.append_eq_nil_iff.mp (List.flatten_cons ▸ h)).1 hc'
  · rintro rfl
    rfl

/-- **One read** from chunks that are not empty, with room for something: nothing exactly when
nothing is left, and otherwise the front of what is left, no more than there is room for. -/
theorem readSome_spec {room : Nat} (hroom : 0 < room) (hc : [] ∉ chunks) :
    (readSome room chunks).1 ++ (readSome room chunks).2.flatten = chunks.flatten ∧
      ((readSome room chunks).1 = [] ↔ chunks = []) ∧ [] ∉ (readSome room chunks).2 := by
  refine ⟨readSome_append room chunks, ?_⟩
  cases chunks with
  | nil => exact ⟨iff_of_true rfl rfl, List.not_mem_nil⟩
  | cons c cs =>
    have hc' : c ≠ [] := fun hnil => hc (hnil ▸ List.mem_cons_self)
    have hcs : [] ∉ cs := fun h => hc (List.mem_cons_of_mem c h)
    simp only [readSome]
    split
    · -- a read that splits the chunk leaves its tail, which is not empty
      rename_i hlt
      refine ⟨iff_of_false (by simpa using ⟨by omega, hc'⟩) (List.cons_ne_nil _ _), ?_⟩
      intro hmem
      rcases List.mem_cons.mp hmem with h | h
      · exact absurd (List.drop_eq_nil_iff.mp h.symm) (by omega)
      · exact hcs h
    · exact ⟨iff_of_false hc' (List.cons_ne_nil _ _), hcs⟩

/-- A read with room for something that returns nothing found nothing left. -/
theorem eq_nil_of_readSome {room : Nat} {rest : List Bytes} (hroom : 0 < room) (hc : [] ∉ chunks)
    (h : readSome room chunks = ([], rest)) : chunks = [] :=
  (readSome_spec hroom hc).2.1.mp (by rw [h])

end Reads

/-! ## The length digits and the payload -/

section Steps

variable {got : Bytes} {chunks : List Bytes}

/-- **Four digits are there**: they are the first four bytes delivered, and the rest is left to
deliver, in chunks that are not empty. -/
theorem readDigits_of_le (hc : [] ∉ chunks) (hgot : got.length ≤ 4)
    (hlen : 4 ≤ (got ++ chunks.flatten).length) :
    ∃ rest, readDigits got chunks = .ok (some ((got ++ chunks.flatten).take 4, rest)) ∧
      rest.flatten = (got ++ chunks.flatten).drop 4 ∧ [] ∉ rest := by
  induction got, chunks using readDigits.induct with
  | case1 chunks rest hlt hsome =>
    -- nothing came, so nothing was left
    obtain rfl := eq_nil_of_readSome (by simp) hc hsome
    simp at hlen
  | case2 got chunks hlt rest hne hsome =>
    obtain rfl := eq_nil_of_readSome (by omega) hc hsome
    simp only [List.flatten_nil, List.append_nil] at hlen
    omega
  | case3 got chunks hlt more rest hsome hm ih =>
    obtain ⟨happ, -, hrest⟩ := readSome_spec (Nat.sub_pos_of_lt hlt) hc
    have hroom := length_readSome_le (4 - got.length) chunks
    rw [hsome] at happ hroom hrest
    have hjoin : got ++ more ++ rest.flatten = got ++ chunks.flatten := by
      rw [List.append_assoc, happ]
    obtain ⟨rest', hread, hflat, hrest'⟩ :=
      ih hrest (by simp only [List.length_append] at hroom ⊢; omega) (by rwa [hjoin])
    refine ⟨rest', ?_, by rw [hflat, hjoin], hrest'⟩
    rw [readDigits, if_pos hlt]
    simp only [hsome, dif_neg hm]
    rw [hread, hjoin]
  | case4 got chunks hge =>
    have h4 : got.length = 4 := by omega
    refine ⟨chunks, ?_, ?_, hc⟩
    · rw [readDigits, if_neg hge, List.take_append_of_le_length (by omega),
        List.take_of_length_le (by omega)]
    · rw [List.drop_append_of_le_length (by omega), List.drop_of_length_le (by omega),
        List.nil_append]

/-- **Fewer than four digits**: the end of the input when nothing came at all, else a close
inside the length. -/
theorem readDigits_of_lt (hc : [] ∉ chunks) (hlen : (got ++ chunks.flatten).length < 4) :
    readDigits got chunks = if got ++ chunks.flatten = [] then .ok none
      else .error (.decode "connection closed inside pkt-line length") := by
  induction got, chunks using readDigits.induct with
  | case1 chunks rest hlt hsome =>
    obtain rfl := eq_nil_of_readSome (by simp) hc hsome
    rw [readDigits, if_pos hlt]
    simp [readSome]
  | case2 got chunks hlt rest hne hsome =>
    obtain rfl := eq_nil_of_readSome (by omega) hc hsome
    rw [readDigits, if_pos hlt]
    simp [readSome, hne]
  | case3 got chunks hlt more rest hsome hm ih =>
    obtain ⟨happ, -, hrest⟩ := readSome_spec (Nat.sub_pos_of_lt hlt) hc
    rw [hsome] at happ hrest
    have hjoin : got ++ more ++ rest.flatten = got ++ chunks.flatten := by
      rw [List.append_assoc, happ]
    rw [readDigits, if_pos hlt]
    simp only [hsome, dif_neg hm]
    rw [ih hrest (by rwa [hjoin]), hjoin]
  | case4 got chunks hge =>
    simp only [List.length_append] at hlen
    omega

/-- **An exact read with enough left** returns the next `need` bytes and leaves the rest. -/
theorem readExact_of_le {need : Nat} (hc : [] ∉ chunks) (hlen : need ≤ chunks.flatten.length) :
    ∃ rest, readExact need got chunks = some (got ++ chunks.flatten.take need, rest) ∧
      rest.flatten = chunks.flatten.drop need ∧ [] ∉ rest := by
  induction need, got, chunks using readExact.induct with
  | case1 got chunks =>
    exact ⟨chunks, by rw [readExact, if_pos rfl]; simp, by simp, hc⟩
  | case2 need got chunks hzero rest hsome =>
    obtain rfl := eq_nil_of_readSome (Nat.pos_of_ne_zero hzero) hc hsome
    simp at hlen
    omega
  | case3 need got chunks hzero more rest hsome hm ih =>
    obtain ⟨happ, -, hrest⟩ := readSome_spec (Nat.pos_of_ne_zero hzero) hc
    have hroom := length_readSome_le need chunks
    rw [hsome] at happ hroom hrest
    have hrest_len : need - more.length ≤ rest.flatten.length := by
      have := congrArg List.length happ
      simp only [List.length_append] at this
      omega
    obtain ⟨rest', hread, hflat, hrest'⟩ := ih hrest hrest_len
    refine ⟨rest', ?_, ?_, hrest'⟩
    · rw [readExact, if_neg hzero]
      simp only [hsome, dif_neg hm]
      rw [hread, ← happ, List.take_append, List.take_of_length_le hroom, List.append_assoc]
    · rw [hflat, ← happ, List.drop_append, List.drop_eq_nil_of_le hroom, List.nil_append]

/-- **An exact read with too little left** finds the connection closed. -/
theorem readExact_of_lt {need : Nat} (hc : [] ∉ chunks) (hlen : chunks.flatten.length < need) :
    readExact need got chunks = none := by
  induction need, got, chunks using readExact.induct with
  | case1 got chunks => simp at hlen
  | case2 need got chunks hzero rest hsome =>
    rw [readExact, if_neg hzero]
    simp [hsome]
  | case3 need got chunks hzero more rest hsome hm ih =>
    obtain ⟨happ, -, hrest⟩ := readSome_spec (Nat.pos_of_ne_zero hzero) hc
    have hroom := length_readSome_le need chunks
    rw [hsome] at happ hroom hrest
    have hrest_len : rest.flatten.length < need - more.length := by
      have := congrArg List.length happ
      simp only [List.length_append] at this
      omega
    rw [readExact, if_neg hzero]
    simp only [hsome, dif_neg hm]
    exact ih hrest hrest_len

end Steps

/-! ## Line after line from a connection -/

/-- **Chunks do not matter**: reading line after line from a connection that delivers its
bytes in non-empty chunks is reading them from one connection that delivers them all. -/
theorem readLines_eq_readStream (bytes : Bytes) :
    ∀ chunks : List Bytes, [] ∉ chunks → chunks.flatten = bytes →
      readLines chunks = readStream bytes := by
  induction bytes using readStream.induct with
  | case1 =>
    intro chunks hc hflat
    obtain rfl := (flatten_eq_nil_iff hc).mp hflat
    have hdig : readDigits [] [] = .ok none := by
      rw [readDigits_of_lt List.not_mem_nil (by simp)]
      simp
    rw [@readLines_of_none _ [] (by rw [readLineFrom, hdig]), readStream]
  | case2 b0 b1 b2 b3 rest e hparse =>
    intro chunks hc hflat
    obtain ⟨rc, hdig, hrc, -⟩ := @readDigits_of_le [] _ hc (by simp) (by simp [hflat])
    simp only [List.nil_append, hflat] at hdig hrc
    have hline : readLineFrom chunks = (.error e, rc) := by simp [readLineFrom, hdig, hparse]
    rw [readLines_of_error hline, readStream, hparse]
    simp [hrc]
  | case3 b0 b1 b2 b3 rest hparse ih =>
    intro chunks hc hflat
    obtain ⟨rc, hdig, hrc, hrcne⟩ := @readDigits_of_le [] _ hc (by simp) (by simp [hflat])
    simp only [List.nil_append, hflat] at hdig hrc
    have hline : readLineFrom chunks = (.ok (some .flush), rc) := by
      simp [readLineFrom, hdig, hparse]
    rw [readLines_of_line hline, readStream, hparse, ih rc hrcne (by simpa using hrc)]
  | case4 b0 b1 b2 b3 rest k hparse payload hshort =>
    have hshort' : rest.length < k := by simpa [payload] using hshort
    intro chunks hc hflat
    obtain ⟨rc, hdig, hrc, hrcne⟩ := @readDigits_of_le [] _ hc (by simp) (by simp [hflat])
    simp only [List.nil_append, hflat] at hdig hrc
    -- the payload is cut short by the close
    have hlt : rc.flatten.length < k := by
      simp only [List.drop_succ_cons, List.drop_zero] at hrc
      rw [hrc]
      simpa using hshort'
    have hline : readLineFrom chunks = (.error (.decode "connection closed inside pkt-line"), []) := by
      simp [readLineFrom, hdig, hparse, @readExact_of_lt [] _ _ hrcne hlt]
    rw [readLines_of_error hline, readStream, hparse]
    simp [hshort']
  | case5 b0 b1 b2 b3 rest k hparse payload hfull ih =>
    have hfull' : k ≤ rest.length := by simpa [payload] using hfull
    intro chunks hc hflat
    obtain ⟨rc, hdig, hrc, hrcne⟩ := @readDigits_of_le [] _ hc (by simp) (by simp [hflat])
    simp only [List.nil_append, hflat] at hdig hrc
    simp only [List.drop_succ_cons, List.drop_zero] at hrc
    have hle : k ≤ rc.flatten.length := by
      rw [hrc]
      exact hfull'
    obtain ⟨rc', hexact, hrc', hrcne'⟩ := @readExact_of_le [] _ _ hrcne hle
    have hline : readLineFrom chunks = (.ok (some (.data (rc.flatten.take k))), rc') := by
      simp [readLineFrom, hdig, hparse, hexact]
    rw [readLines_of_line hline, readStream, hparse, ih rc' hrcne' (by rw [hrc', hrc])]
    simp [hfull', hrc]
  | case6 bytes hnil hshort =>
    intro chunks hc hflat
    -- fewer than four bytes, and at least one
    have hlen : bytes.length < 4 := by
      match bytes, hshort with
      | [], _ => simp
      | [_], _ => simp
      | [_, _], _ => simp
      | [_, _, _], _ => simp
      | b0 :: b1 :: b2 :: b3 :: rest, h => exact absurd rfl (h b0 b1 b2 b3 rest)
    have hdig : readDigits [] chunks = .error (.decode "connection closed inside pkt-line length") := by
      rw [readDigits_of_lt hc (by simpa [hflat] using hlen), List.nil_append, hflat, if_neg hnil]
    rw [@readLines_of_error _ [] _ (by rw [readLineFrom, hdig]), readStream]
    · rfl
    · exact hnil
    · exact hshort

/-! ## A connection and a buffer -/

/-- Two readings end alike: both at the end of the input, or both at a line that does not read,
whatever the words of the errors and the bytes left behind. -/
inductive ReadEnd.Alike : ReadEnd → ReadEnd → Prop
  | eof : ReadEnd.Alike .eof .eof
  | decode (m m' : String) (r r' : Bytes) :
      ReadEnd.Alike (.failed (.decode m) r) (.failed (.decode m') r')

/-- A length that does not parse is a malformed request. -/
theorem parseLength_error {digits : Bytes} {e : ProtocolError}
    (h : parseLength digits = .error e) : ∃ m, e = .decode m := by
  unfold parseLength at h
  split at h
  · cases h
    exact ⟨_, rfl⟩
  · split at h
    · cases h
      exact ⟨_, rfl⟩
    · split_ifs at h <;> cases h <;> exact ⟨_, rfl⟩

section Buffered

variable {buf : Bytes}

theorem readBuffered_of_error {e : ProtocolError} (h : readOne buf = .error e) :
    readBuffered buf = ([], .failed e buf) := by
  rw [readBuffered, h]

theorem readBuffered_of_line {l : PktLine} {rest : Bytes}
    (h : ∃ hr, readOne buf = .ok (some (l, ⟨rest, hr⟩))) :
    readBuffered buf = (l :: (readBuffered rest).1, (readBuffered rest).2) := by
  obtain ⟨hr, h⟩ := h
  rw [readBuffered, h]

end Buffered

/-- **A connection reads what a buffer reads**: the same lines, then both the end of the input
or both a malformed line. Only the bytes left after a malformed line differ: the buffer keeps
the line, the connection has consumed what it read of it. -/
theorem readStream_alike (bytes : Bytes) :
    (readStream bytes).1 = (readBuffered bytes).1 ∧
      (readStream bytes).2.Alike (readBuffered bytes).2 := by
  induction bytes using readStream.induct with
  | case1 =>
    rw [readStream, readBuffered_nil]
    exact ⟨rfl, .eof⟩
  | case2 b0 b1 b2 b3 rest e hparse =>
    obtain ⟨m, rfl⟩ := parseLength_error hparse
    have hread : readOne (b0 :: b1 :: b2 :: b3 :: rest) = .error (.decode m) := by
      simp [readOne, hparse, bind, Except.bind]
    simp only [readStream, hparse, readBuffered_of_error hread]
    exact ⟨trivial, .decode _ _ _ _⟩
  | case3 b0 b1 b2 b3 rest hparse ih =>
    have hread : ∃ hr, readOne (b0 :: b1 :: b2 :: b3 :: rest) = .ok (some (.flush, ⟨rest, hr⟩)) :=
      ⟨by simp only [List.length_cons]; omega,
        by simp [readOne, hparse, bind, Except.bind, pure, Except.pure]⟩
    simp only [readStream, hparse, readBuffered_of_line hread]
    exact ⟨by rw [ih.1], ih.2⟩
  | case4 b0 b1 b2 b3 rest k hparse payload hshort =>
    have hshort' : rest.length < k := by simpa [payload] using hshort
    have hread : readOne (b0 :: b1 :: b2 :: b3 :: rest) =
        .error (.decode s!"truncated pkt-line: need {k + 4} bytes, have {rest.length + 4}") := by
      simp [readOne, hparse, bind, Except.bind, hshort', throw, throwThe, MonadExceptOf.throw]
    simp only [readStream, hparse, readBuffered_of_error hread, List.length_take,
      if_pos (show min k rest.length < k by omega)]
    exact ⟨trivial, .decode _ _ _ _⟩
  | case5 b0 b1 b2 b3 rest k hparse payload hfull ih =>
    have hfull' : k ≤ rest.length := by simpa [payload] using hfull
    have hread : ∃ hr, readOne (b0 :: b1 :: b2 :: b3 :: rest) =
        .ok (some (.data (rest.take k), ⟨rest.drop k, hr⟩)) :=
      ⟨by simp only [List.length_drop, List.length_cons]; omega,
        by simp [readOne, hparse, bind, Except.bind, pure, Except.pure, hfull']⟩
    simp only [readStream, hparse, readBuffered_of_line hread, List.length_take,
      if_neg (show ¬ min k rest.length < k by omega)]
    exact ⟨by rw [ih.1], ih.2⟩
  | case6 bytes hnil hshort =>
    have hread : readOne bytes = .error (.decode "truncated pkt-line length") := by
      rw [readOne]
      · exact hnil
      · exact hshort
    rw [readStream, readBuffered_of_error hread]
    · exact ⟨rfl, .decode _ _ _ _⟩
    · exact hnil
    · exact hshort

/-- **The readers agree.** For every byte string and every way a connection delivers it in
non-empty chunks, reading line after line from the connection gives exactly the lines read
from the whole buffer, and the two end alike: both at the end of the input, or both at the
same malformed line, with an error that says the request does not decode. -/
theorem readLines_agree (bytes : Bytes) (chunks : List Bytes) (hflat : chunks.flatten = bytes)
    (hc : [] ∉ chunks) :
    (readLines chunks).1 = (readBuffered bytes).1 ∧
      (readLines chunks).2.Alike (readBuffered bytes).2 := by
  rw [readLines_eq_readStream bytes chunks hc hflat]
  exact readStream_alike bytes

/-- A length and a payload that arrive split across chunks. -/
theorem readLines_agree_splitChunks :
    [Bytes.ofString "00", Bytes.ofString "0ahel", Bytes.ofString "lo\n00", Bytes.ofString "00"].flatten =
        Bytes.ofString "000ahello\n0000" ∧
      [] ∉ [Bytes.ofString "00", Bytes.ofString "0ahel", Bytes.ofString "lo\n00", Bytes.ofString "00"] ∧
      (readLines [Bytes.ofString "00", Bytes.ofString "0ahel", Bytes.ofString "lo\n00",
          Bytes.ofString "00"]).1 = (readBuffered (Bytes.ofString "000ahello\n0000")).1 ∧
      (readLines [Bytes.ofString "00", Bytes.ofString "0ahel", Bytes.ofString "lo\n00",
          Bytes.ofString "00"]).2.Alike (readBuffered (Bytes.ofString "000ahello\n0000")).2 :=
  have hflat : [Bytes.ofString "00", Bytes.ofString "0ahel", Bytes.ofString "lo\n00",
      Bytes.ofString "00"].flatten = Bytes.ofString "000ahello\n0000" := by decide +kernel
  have hc : [] ∉ [Bytes.ofString "00", Bytes.ofString "0ahel", Bytes.ofString "lo\n00",
      Bytes.ofString "00"] := by decide +kernel
  ⟨hflat, hc, readLines_agree _ _ hflat hc⟩

end GitServer.Wire
