import GitServer.Wire.PktLine

/-!
# Pkt-lines from a connection that delivers chunks

A connection hands the client's bytes over in chunks, as the network delivers them: a read
returns bytes of the chunk at hand only, at most as many as there is room for, and a read
that returns nothing means the client has closed. The chunks are a list of byte strings; a
chunk list that holds an empty chunk stops there, as a close does.

A pkt-line is read from a connection in two steps: its four length digits, gathered over as
many reads as it takes (`readDigits`), then exactly the payload that the length announces
(`readExact`). A close before the first digit ends the input; a close anywhere later fails
the line. Each step returns the chunks still to deliver, so that reading line after line
(`readLines`) goes on where the last line ended.
-/

namespace GitServer.Wire

/-- One read into room for `room` bytes: the front of the first chunk, as much as fits, and the
chunks still to deliver. A read after the last chunk returns nothing. -/
def readSome (room : Nat) : List Bytes → Bytes × List Bytes
  | [] => ([], [])
  | c :: cs => if room < c.length then (c.take room, c.drop room :: cs) else (c, cs)

/-- Gathers the four length digits, read after read, after the `got` already read. A close
before the first digit is the end of the input (`none`); a close after it fails. -/
def readDigits (got : Bytes) (chunks : List Bytes) :
    Except ProtocolError (Option (Bytes × List Bytes)) :=
  if got.length < 4 then
    match readSome (4 - got.length) chunks with
    | (more, rest) =>
      if _hm : more = [] then
        if got = [] then .ok none
        else .error (.decode "connection closed inside pkt-line length")
      else readDigits (got ++ more) rest
  else .ok (some (got, chunks))
termination_by 4 - got.length
decreasing_by
  have := List.length_pos_iff.mpr _hm
  simp only [List.length_append]
  omega

/-- Reads exactly `need` more bytes after the `got` already read, read after read; `none` when
the connection closes first. -/
def readExact (need : Nat) (got : Bytes) (chunks : List Bytes) : Option (Bytes × List Bytes) :=
  if need = 0 then some (got, chunks)
  else
    match readSome need chunks with
    | (more, rest) =>
      if _hm : more = [] then none
      else readExact (need - more.length) (got ++ more) rest
termination_by need
decreasing_by
  have := List.length_pos_iff.mpr _hm
  omega

/-- Reads one pkt-line from a connection, with the chunks left to deliver: `none` when the
connection closed before the line began. A length that does not parse has consumed its
digits; a close inside the line has consumed everything. -/
def readLineFrom (chunks : List Bytes) : Except ProtocolError (Option PktLine) × List Bytes :=
  match readDigits [] chunks with
  | .error e => (.error e, [])
  | .ok none => (.ok none, [])
  | .ok (some (digits, rest)) =>
    match parseLength digits with
    | .error e => (.error e, rest)
    | .ok none => (.ok (some .flush), rest)
    | .ok (some k) =>
      match readExact k [] rest with
      | none => (.error (.decode "connection closed inside pkt-line"), [])
      | some (payload, rest') => (.ok (some (.data payload)), rest')

/-! ## What each read consumes -/

theorem readSome_append (room : Nat) (chunks : List Bytes) :
    (readSome room chunks).1 ++ (readSome room chunks).2.flatten = chunks.flatten := by
  cases chunks with
  | nil => rfl
  | cons c cs =>
    simp only [readSome]
    split
    · simp only [List.flatten_cons, ← List.append_assoc, List.take_append_drop]
    · simp

theorem length_readSome_le (room : Nat) (chunks : List Bytes) :
    (readSome room chunks).1.length ≤ room := by
  cases chunks with
  | nil => exact Nat.zero_le _
  | cons c cs =>
    simp only [readSome]
    split
    · simp only [List.length_take]
      omega
    · simp only
      omega

/-- Gathered digits are the bytes delivered, in order, and there are four of them. -/
theorem readDigits_append {got : Bytes} {chunks rest : List Bytes} {digits : Bytes}
    (hgot : got.length ≤ 4) (h : readDigits got chunks = .ok (some (digits, rest))) :
    got ++ chunks.flatten = digits ++ rest.flatten ∧ digits.length = 4 := by
  revert h
  fun_induction readDigits got chunks with
  | case1 => simp
  | case2 => simp
  | case3 got chunks _ more rest' hsome _ ih =>
    intro h
    -- each read has room for the missing digits only
    have hroom := length_readSome_le (4 - got.length) chunks
    have hread := readSome_append (4 - got.length) chunks
    rw [hsome] at hroom hread
    obtain ⟨happ, hlen⟩ := ih (by simp only [List.length_append] at hroom ⊢; omega) h
    refine ⟨?_, hlen⟩
    rw [← hread, ← List.append_assoc, happ]
  | case4 got chunks hge =>
    intro h
    cases h
    exact ⟨rfl, by omega⟩

/-- What an exact read returns is the bytes delivered, in order. -/
theorem readExact_append {need : Nat} {got : Bytes} {chunks rest : List Bytes} {payload : Bytes}
    (h : readExact need got chunks = some (payload, rest)) :
    got ++ chunks.flatten = payload ++ rest.flatten := by
  revert h
  fun_induction readExact need got chunks with
  | case1 =>
    intro h
    cases h
    rfl
  | case2 => simp
  | case3 need got chunks _ more rest' hsome _ ih =>
    intro h
    have hread := readSome_append need chunks
    rw [hsome] at hread
    rw [← hread, ← List.append_assoc, ih h]

/-- A line read consumes at least its four length digits. -/
theorem readLineFrom_shorter {chunks rest : List Bytes} {l : PktLine}
    (h : readLineFrom chunks = (.ok (some l), rest)) :
    rest.flatten.length < chunks.flatten.length := by
  unfold readLineFrom at h
  split at h
  · cases h
  · cases h
  · rename_i digits rest₁ hdigits
    obtain ⟨happ, hlen⟩ := readDigits_append (Nat.zero_le _) hdigits
    rw [List.nil_append] at happ
    have hshort : rest₁.flatten.length < chunks.flatten.length := by
      rw [happ, List.length_append]
      omega
    split at h
    · cases h
    · cases h
      exact hshort
    · split at h
      · cases h
      · rename_i payload rest₂ hexact
        cases h
        have hpay := readExact_append hexact
        rw [List.nil_append] at hpay
        rw [hpay, List.length_append] at hshort
        omega

/-- Reads line after line from a connection until it closes between lines or a line fails;
a failure keeps the bytes still undelivered. -/
def readLines (chunks : List Bytes) : List PktLine × ReadEnd :=
  match _h : readLineFrom chunks with
  | (.ok (some l), rest) =>
    let r := readLines rest
    (l :: r.1, r.2)
  | (.ok none, _) => ([], .eof)
  | (.error e, rest) => ([], .failed e rest.flatten)
termination_by chunks.flatten.length
decreasing_by exact readLineFrom_shorter _h

theorem readLines_of_line {chunks rest : List Bytes} {l : PktLine}
    (h : readLineFrom chunks = (.ok (some l), rest)) :
    readLines chunks = (l :: (readLines rest).1, (readLines rest).2) := by
  rw [readLines]
  split <;> simp_all

theorem readLines_of_none {chunks rest : List Bytes} (h : readLineFrom chunks = (.ok none, rest)) :
    readLines chunks = ([], .eof) := by
  rw [readLines]
  split <;> simp_all

theorem readLines_of_error {chunks rest : List Bytes} {e : ProtocolError}
    (h : readLineFrom chunks = (.error e, rest)) :
    readLines chunks = ([], .failed e rest.flatten) := by
  rw [readLines]
  split <;> simp_all

end GitServer.Wire
