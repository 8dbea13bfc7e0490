import GitServer.Pack.Stream
import GitServer.Proofs.Pack.Codec
import GitServer.Proofs.Storage.Reliable
import GitServer.Proofs.Except
import Mathlib

/-!
# A streamed pack is the pack written at once

The streaming encoder sends a pack chunk by chunk and takes the trailer from a digest kept
running over the chunks; `Pack.encode` builds the same pack in memory and digests it whole.
They agree because a SHA-1 computation does not see where its input was cut: compressing a
block reads only the block's 64 bytes (`Sha1.compress_append`), so absorbing a message in two
pieces absorbs it whole (`Sha1.absorbBlocks_append`), and a hasher fed any pieces holds what
it would hold fed their concatenation (`Hasher.foldl_update`) and finishes with its digest
(`Hasher.finalize_foldl_update`).

For the encoder itself, `Encoder.run_writeEntries_of_fits` says what writing entries that fit
the announced count does, and `Encoder.run_writeEntries_stops` that one entry too many, or one
that is not a whole object, stops it with an encoding error after the entries before it. The
main statement, `streamPack_refines_encode`, puts them together: with exactly the announced number of whole
objects and a receiver that stays, the chunks concatenate to what `Pack.encode` writes and the
answer is the trailer's id, and both fail alike when the count does not fit a header; with
another number of entries or a delta among them, the encoder fails with an encoding error
having sent the header and entries only.
-/

namespace GitServer

/-! ## SHA-1 does not see where its input was cut -/

namespace Sha1

/-- The words of a block read its 64 bytes only. -/
theorem blockWords_congr {m₁ m₂ : Array UInt8} {o₁ o₂ : Nat}
    (h : ∀ i < 64, m₁.getD (o₁ + i) 0 = m₂.getD (o₂ + i) 0) :
    blockWords m₁ o₁ = blockWords m₂ o₂ := by
  unfold blockWords
  apply List.foldl_ext
  intro acc j hj
  have hj : j < 16 := List.mem_range.mp hj
  -- the four bytes of word `j` lie inside the block
  have hfirst : m₁.getD (o₁ + 4 * j) 0 = m₂.getD (o₂ + 4 * j) 0 := h (4 * j) (by omega)
  have hnext : ∀ k < 4, m₁.getD (o₁ + 4 * j + k) 0 = m₂.getD (o₂ + 4 * j + k) 0 := by
    intro k hk
    simpa only [Nat.add_assoc] using h (4 * j + k) (by omega)
  dsimp only
  rw [hfirst, hnext 1 (by omega), hnext 2 (by omega), hnext 3 (by omega)]

theorem getD_toArray_append (a b : Bytes) (i : Nat) :
    (a ++ b).toArray.getD (a.length + i) 0 = b.toArray.getD i 0 := by
  simp [Array.getD_eq_getD_getElem?, List.getElem?_append_right]

theorem getD_toArray_take {b : Bytes} {i : Nat} (h : i < 64) :
    (b.take 64).toArray.getD i 0 = b.toArray.getD i 0 := by
  simp [Array.getD_eq_getD_getElem?, h]

/-- **Compressing a block reads that block only**: what comes before it and after it does not
matter. -/
theorem compress_append (s : State) (a b : Bytes) :
    compress s (a ++ b).toArray a.length = compress s (b.take 64).toArray 0 := by
  have hw : blockWords (a ++ b).toArray a.length = blockWords (b.take 64).toArray 0 :=
    blockWords_congr fun i hi => by
      rw [getD_toArray_append, Nat.zero_add, getD_toArray_take hi]
  unfold compress
  rw [hw]

/-- Compressing the whole blocks of a message from an offset is absorbing what follows it. -/
theorem absorb_append (s : State) (a b : Bytes) :
    absorb s (a ++ b).toArray a.length = (absorbBlocks s b).1 := by
  fun_induction absorbBlocks s b generalizing a with
  | case1 s b hlong ih =>
    -- one block is compressed; the next starts after it
    have hsplit : a ++ b = (a ++ b.take 64) ++ b.drop 64 := by simp
    have hlen : (a ++ b.take 64).length = a.length + 64 := by simp; omega
    rw [absorb, if_pos (by simp; omega), compress_append, hsplit, ← hlen, ih]
  | case2 s b hshort =>
    rw [absorb, if_neg (by simp; omega)]

/-- **Absorbing a message in two pieces absorbs it whole**: the bytes left over from the first
piece start the blocks of the second. -/
theorem absorbBlocks_append (s : State) (a b : Bytes) :
    absorbBlocks s (a ++ b) = absorbBlocks (absorbBlocks s a).1 ((absorbBlocks s a).2 ++ b) := by
  fun_induction absorbBlocks s a with
  | case1 s a hlong ih =>
    have htake : (a ++ b).take 64 = a.take 64 := List.take_append_of_le_length hlong
    have hdrop : (a ++ b).drop 64 = a.drop 64 ++ b := List.drop_append_of_le_length hlong
    rw [absorbBlocks, if_pos (by simp; omega), htake, hdrop, ih]
  | case2 s a hshort => rfl

theorem State.length_bytes (s : State) : s.bytes.length = 20 := by
  simp [State.bytes, wordBytes]

/-- The padded message is the message and its padding. -/
theorem pad_eq (msg : Bytes) : pad msg = msg ++ padding msg.length := by
  simp [pad, padding]

theorem digest_eq (msg : Bytes) : digest msg = (absorbBlocks State.initial (pad msg)).1.bytes := by
  have h := absorb_append State.initial [] (pad msg)
  simp only [List.nil_append, List.length_nil] at h
  simp only [digest, h, State.bytes]

namespace Hasher

/-- The hasher that has taken exactly the bytes of a message. -/
def ofBytes (msg : Bytes) : Hasher :=
  ⟨(absorbBlocks State.initial msg).1, (absorbBlocks State.initial msg).2, msg.length⟩

theorem init_eq : init = ofBytes [] := by
  simp [init, ofBytes, absorbBlocks]

theorem update_ofBytes (msg data : Bytes) : (ofBytes msg).update data = ofBytes (msg ++ data) := by
  simp [update, ofBytes, absorbBlocks_append State.initial msg data]

theorem finalize_ofBytes (msg : Bytes) : (ofBytes msg).finalize = digest msg := by
  rw [digest_eq, pad_eq, absorbBlocks_append]
  rfl

/-- **A hasher fed pieces holds what it would hold fed them joined.** -/
theorem foldl_update (chunks : List Bytes) (msg : Bytes) :
    chunks.foldl update (ofBytes msg) = ofBytes (msg ++ chunks.flatten) := by
  induction chunks generalizing msg with
  | nil => simp
  | cons c cs ih => rw [List.foldl_cons, update_ofBytes, ih, List.flatten_cons, List.append_assoc]

/-- **A digest kept running over pieces is the digest of the whole.** -/
theorem finalize_foldl_update (chunks : List Bytes) :
    (chunks.foldl update init).finalize = digest chunks.flatten := by
  rw [init_eq, foldl_update, List.nil_append, finalize_ofBytes]

end Hasher

end Sha1

/-! ## The encoder, step by step -/

namespace Pack

open Sha1

/-- What `encodeEntry` refuses is refused with an encoding error. -/
theorem encodeEntry_eq_error {o : GitObject} {err : CodecError} (h : encodeEntry o = .error err) :
    ∃ msg, err = .packEncode msg := by
  unfold encodeEntry at h
  split at h
  · cases h
  · cases h
    exact ⟨_, rfl⟩

theorem mapM_encodeEntry_cons {o : GitObject} {l : List GitObject} {encs : List Bytes}
    (h : (o :: l).mapM encodeEntry = .ok encs) :
    ∃ b bs, encodeEntry o = .ok b ∧ l.mapM encodeEntry = .ok bs ∧ encs = b :: bs := by
  rw [List.mapM_cons, Except.bind_eq_ok] at h
  obtain ⟨b, hb, h⟩ := h
  rw [Except.bind_eq_ok] at h
  obtain ⟨bs, hbs, h⟩ := h
  exact ⟨b, bs, hb, hbs, (Except.ok.inj h).symm⟩

theorem length_mapM_encodeEntry :
    ∀ {l : List GitObject} {encs : List Bytes}, l.mapM encodeEntry = .ok encs →
      encs.length = l.length
  | [], _, h => by cases h; rfl
  | _ :: _, _, h => by
    obtain ⟨_, _, -, hbs, rfl⟩ := mapM_encodeEntry_cons h
    simp [length_mapM_encodeEntry hbs]

namespace Encoder

/-- The encoder after it has written entries encoded as `body`. -/
def wrote (e : Encoder) (body : List Bytes) : Encoder :=
  { e with
    written := e.written + body.length
    running := body.foldl Hasher.update e.running
    sent := e.sent ++ body }

@[simp] theorem wrote_nil (e : Encoder) : e.wrote [] = e := by
  simp [wrote]

theorem wrote_cons (e : Encoder) (b : Bytes) (body : List Bytes) :
    e.wrote (b :: body) =
      ({ e with written := e.written + 1, running := e.running.update b, sent := e.sent ++ [b] } :
        Encoder).wrote body := by
  simp only [wrote, List.length_cons, List.foldl_cons, List.append_assoc, List.cons_append,
    List.nil_append, Nat.add_assoc, Nat.add_comm 1 body.length]

variable {e : Encoder}

theorem run_get (e : Encoder) : (get : EncodeM Encoder).run.run e = (.ok e, e) := rfl

theorem run_modify (f : Encoder → Encoder) (e : Encoder) :
    (modify f : EncodeM PUnit).run.run e = (.ok PUnit.unit, f e) := rfl

theorem run_check_ok {α : Type} (a : α) (e : Encoder) : (check (.ok a)).run.run e = (.ok a, e) :=
  rfl

theorem run_deliver (h : ∀ i, e.receiver i = true) (data : Bytes) :
    (deliver data).run.run e = (.ok (), { e with sent := e.sent ++ [data] }) := by
  unfold deliver
  rw [run_bind_of_ok (run_get e), if_pos (h _)]
  rfl

/-- Sending to a receiver that stays takes the chunk into the digest and hands it over. -/
theorem run_send (h : ∀ i, e.receiver i = true) (data : Bytes) :
    (send data).run.run e =
      (.ok (), { e with running := e.running.update data, sent := e.sent ++ [data] }) := by
  unfold send
  rw [run_bind_of_ok (run_modify _ e)]
  exact run_deliver (e := { e with running := e.running.update data }) h data

/-- An entry with room for it is sent and counted. -/
theorem run_writeEntries_cons_of_ok (h : ∀ i, e.receiver i = true) {o : GitObject} {b : Bytes}
    (hb : encodeEntry o = .ok b) (hroom : e.written ≠ e.announced) (rest : List GitObject) :
    (writeEntries (o :: rest)).run.run e =
      (writeEntries rest).run.run
        { e with
          written := e.written + 1
          running := e.running.update b
          sent := e.sent ++ [b] } := by
  rw [writeEntries.eq_2, hb, run_bind_of_ok (run_get e), run_bind_of_ok (run_get e), if_neg hroom]
  dsimp only
  rw [run_bind_of_ok (run_check_ok b e), run_bind_of_ok (run_send h b),
    run_bind_of_ok (run_modify _ _)]

/-- An entry with no room left stops the encoder. -/
theorem run_writeEntries_cons_of_full {o : GitObject} (hfull : e.written = e.announced)
    (rest : List GitObject) :
    (writeEntries (o :: rest)).run.run e =
      (.error (.packEncode "more entries than announced"), e) := by
  rw [writeEntries.eq_2, run_bind_of_ok (run_get e), run_bind_of_ok (run_get e), if_pos hfull]
  rfl

/-- An entry that cannot be written stops the encoder. -/
theorem run_writeEntries_cons_of_error {o : GitObject} {err : CodecError}
    (hb : encodeEntry o = .error err) (hroom : e.written ≠ e.announced) (rest : List GitObject) :
    (writeEntries (o :: rest)).run.run e = (.error err, e) := by
  rw [writeEntries.eq_2, hb, run_bind_of_ok (run_get e), run_bind_of_ok (run_get e), if_neg hroom]
  rfl

/-- **Entries that fit the count are all written**: each is sent, taken into the digest and
counted. -/
theorem run_writeEntries_of_fits :
    ∀ {l : List GitObject} {encs : List Bytes} {e : Encoder}, (∀ i, e.receiver i = true) →
      l.mapM encodeEntry = .ok encs → e.written + l.length ≤ e.announced →
      (writeEntries l).run.run e = (.ok (), e.wrote encs)
  | [], _, _, _, hencs, _ => by
    cases hencs
    rw [List.reverse_nil, wrote_nil]
    rfl
  | o :: rest, _, e, h, hencs, hfit => by
    obtain ⟨b, bs, hb, hbs, rfl⟩ := mapM_encodeEntry_cons hencs
    rw [run_writeEntries_cons_of_ok h hb (by simp at hfit; omega), wrote_cons]
    exact run_writeEntries_of_fits h hbs (by simp at hfit ⊢; omega)

/-- **One entry too many, or one that is not a whole object, stops the writing** with an
encoding error, after the entries before it were sent. -/
theorem run_writeEntries_stops :
    ∀ {l : List GitObject} {e : Encoder}, (∀ i, e.receiver i = true) →
      e.written ≤ e.announced →
      (e.announced < e.written + l.length ∨ ∃ o ∈ l, o.kind.isBase = false) →
      ∃ msg k body, (l.take k).mapM encodeEntry = .ok body ∧
        (writeEntries l).run.run e = (.error (.packEncode msg), e.wrote body)
  | [], e, _, hle, hstop => by
    simp only [List.length_nil, Nat.add_zero, List.not_mem_nil, false_and, exists_false,
      or_false] at hstop
    omega
  | o :: rest, e, h, hle, hstop => by
    by_cases hfull : e.written = e.announced
    · exact ⟨_, 0, [], rfl, by rw [wrote_nil]; exact run_writeEntries_cons_of_full hfull rest⟩
    cases hb : encodeEntry o with
    | error err =>
      obtain ⟨msg, rfl⟩ := encodeEntry_eq_error hb
      refine ⟨msg, 0, [], rfl, ?_⟩
      rw [wrote_nil]
      exact run_writeEntries_cons_of_error hb hfull rest
    | ok b =>
      -- the entry is written; what stops the writing lies further on
      have hbase : o.kind.isBase = true := (Pack.encodeEntry_eq_ok hb).1
      have hrest : e.announced < (e.written + 1) + rest.length ∨
          ∃ o' ∈ rest, o'.kind.isBase = false := by
        rcases hstop with hlong | ⟨o', ho', hdelta⟩
        · exact .inl (by simp at hlong; omega)
        · rcases List.mem_cons.mp ho' with rfl | hmem
          · simp [hbase] at hdelta
          · exact .inr ⟨o', hmem, hdelta⟩
      let e' : Encoder :=
        { e with written := e.written + 1, running := e.running.update b, sent := e.sent ++ [b] }
      obtain ⟨msg, k, body, hbody, hrun⟩ :=
        run_writeEntries_stops (e := e') h (by simp [e']; omega) hrest
      refine ⟨msg, k + 1, b :: body, ?_, ?_⟩
      · simp only [List.take_succ_cons, List.mapM_cons, hb, hbody]
        rfl
      · rw [run_writeEntries_cons_of_ok h hb hfull, hrun, wrote_cons]

/-- With every announced entry written, the trailer is the digest of all sent before it. -/
theorem run_finish_of_eq (h : ∀ i, e.receiver i = true) (hw : e.written = e.announced) :
    (finish : EncodeM ObjectId).run.run e =
      (.ok ⟨e.running.finalize, State.length_bytes _⟩,
        { e with sent := e.sent ++ [e.running.finalize] }) := by
  have hid :
      ObjectId.ofBytes? e.running.finalize = .ok ⟨e.running.finalize, State.length_bytes _⟩ :=
    dif_pos (State.length_bytes _)
  unfold finish
  rw [run_bind_of_ok (run_get e), if_neg (not_not.mpr hw)]
  dsimp only
  rw [hid]
  dsimp only
  rw [run_bind_of_ok (run_pure _ e), run_bind_of_ok (run_deliver h _)]
  rfl

/-- With fewer entries written than announced, no trailer is sent. -/
theorem run_finish_of_ne (hw : e.written ≠ e.announced) :
    ∃ msg, (finish : EncodeM ObjectId).run.run e = (.error (.packEncode msg), e) := by
  unfold finish
  rw [run_bind_of_ok (run_get e), if_pos hw]
  exact ⟨_, rfl⟩

theorem run_encode_of_header_error {err : CodecError}
    (hhdr : Header.encode e.announced = .error err) (entries : List GitObject) : (encode entries).run.run e = (.error err, e) := by
  unfold encode
  rw [run_bind_of_ok (run_get e), hhdr]
  rfl

theorem run_encode_of_header (h : ∀ i, e.receiver i = true) {hdr : Bytes}
    (hhdr : Header.encode e.announced = .ok hdr) (entries : List GitObject) :
    (encode entries).run.run e =
      (writeEntries entries >>= fun _ => finish).run.run
        { e with running := e.running.update hdr, sent := e.sent ++ [hdr] } := by
  unfold encode
  rw [run_bind_of_ok (run_get e), hhdr, run_bind_of_ok (run_check_ok hdr e),
    run_bind_of_ok (run_send h hdr)]

end Encoder

/-! ## The stream and the pack -/

/-- Chunks of a pack stopped before its trailer: nothing, or the header of `count` entries and
the entries written from the front of `entries`. -/
def StoppedBeforeTrailer (count : Nat) (entries : List GitObject) (chunks : List Bytes) : Prop :=
  chunks = [] ∨ ∃ header k body, Header.encode count = .ok header ∧
    (entries.take k).mapM encodeEntry = .ok body ∧ chunks = header :: body

/-- A fresh encoder announcing `count` entries to a receiver that stays. -/
abbrev fresh (count : Nat) : Encoder := { announced := count, receiver := fun _ => true }

theorem streamPack_eq (count : Nat) (entries : List GitObject) :
    streamPack count (fun _ => true) entries =
      (((Encoder.encode entries).run.run (fresh count)).1,
        ((Encoder.encode entries).run.run (fresh count)).2.sent) := rfl

/-- After the header, entries that fit the count and a trailer. -/
theorem run_encode_of_fits {count : Nat} {entries : List GitObject} {hdr : Bytes}
    {encs : List Bytes} (hhdr : Header.encode count = .ok hdr)
    (hencs : entries.mapM encodeEntry = .ok encs) (hlen : entries.length = count) :
    (Encoder.encode entries).run.run (fresh count) =
      (.ok ⟨digest (hdr ++ encs.flatten), Sha1.length_digest _⟩,
        { fresh count with
          written := encs.length
          running := (hdr :: encs).foldl Hasher.update .init
          sent := [hdr] ++ encs ++ [digest (hdr ++ encs.flatten)] }) := by
  have hcount : encs.length = count := (length_mapM_encodeEntry hencs).trans hlen
  rw [Encoder.run_encode_of_header (fun _ => rfl) hhdr, run_bind_of_ok
    (Encoder.run_writeEntries_of_fits (fun _ => rfl) hencs (by simp [hlen])),
    Encoder.run_finish_of_eq (fun _ => rfl) (by simp [Encoder.wrote, hcount])]
  -- the running digest is the digest of the header and the entries
  have hfin : ((fresh count).running.update hdr |> encs.foldl Hasher.update).finalize =
      digest (hdr ++ encs.flatten) := by
    rw [← List.foldl_cons, Hasher.finalize_foldl_update, List.flatten_cons]
  simp only [Encoder.wrote, hfin]
  simp

/-- A stream whose header cannot be written sends nothing. -/
theorem streamPack_of_header_error {count : Nat} {err : CodecError}
    (hhdr : Header.encode count = .error err) (entries : List GitObject) :
    streamPack count (fun _ => true) entries = (.error err, []) := by
  rw [streamPack_eq, Encoder.run_encode_of_header_error hhdr]

/-- **A stream that does not end as announced stops before its trailer**, with an encoding
error, having sent the header and the entries before the stop. -/
theorem streamPack_stops {count : Nat} {entries : List GitObject}
    (hmismatch : entries.length ≠ count ∨ ∃ o ∈ entries, o.kind.isBase = false) :
    (∃ msg, (streamPack count (fun _ => true) entries).1 = .error (.packEncode msg)) ∧
      StoppedBeforeTrailer count entries (streamPack count (fun _ => true) entries).2 := by
  rcases Nat.lt_or_ge count (2 ^ 32) with hsmall | hlarge
  swap
  · obtain ⟨msg, hmsg⟩ := Header.encode_of_le hlarge
    rw [streamPack_of_header_error hmsg]
    exact ⟨⟨msg, rfl⟩, .inl rfl⟩
  obtain ⟨hdr, hhdr⟩ := Header.encode_of_lt hsmall
  -- after the header, the entries are written from this state
  let e₁ : Encoder :=
    { fresh count with running := (fresh count).running.update hdr, sent := [hdr] }
  have hstart : (Encoder.encode entries).run.run (fresh count) =
      (Encoder.writeEntries entries >>= fun _ => Encoder.finish).run.run e₁ :=
    Encoder.run_encode_of_header (fun _ => rfl) hhdr entries
  by_cases hfit : (∀ o ∈ entries, o.kind.isBase = true) ∧ entries.length ≤ count
  · -- every entry is written, and the count comes out short
    obtain ⟨encs, hencs⟩ := mapM_encodeEntry_ok hfit.1
    have hshort : entries.length ≠ count := by
      rcases hmismatch with hne | ⟨o, ho, hdelta⟩
      · exact hne
      · simp [hfit.1 o ho] at hdelta
    have hwritten : (e₁.wrote encs).written ≠ count := by
      simpa [e₁, Encoder.wrote, length_mapM_encodeEntry hencs] using hshort
    obtain ⟨msg, hmsg⟩ := Encoder.run_finish_of_ne hwritten
    rw [run_bind_of_ok (Encoder.run_writeEntries_of_fits (e := e₁) (fun _ => rfl) hencs
      (by simpa [e₁] using hfit.2)), hmsg] at hstart
    refine ⟨⟨msg, by rw [streamPack_eq, hstart]⟩,
      .inr ⟨hdr, entries.length, encs, hhdr, ?_, ?_⟩⟩
    · rwa [List.take_length]
    · rw [streamPack_eq, hstart]
      simp [e₁, Encoder.wrote]
  · -- an entry past the count, or one that is not a whole object, stops the writing
    have hstop : count < 0 + entries.length ∨ ∃ o ∈ entries, o.kind.isBase = false := by
      simp only [not_and_or, not_forall, Bool.not_eq_true, not_le, exists_prop] at hfit
      rcases hfit with ⟨o, ho, hdelta⟩ | hlong
      · exact .inr ⟨o, ho, hdelta⟩
      · exact .inl (by simpa using hlong)
    obtain ⟨msg, k, body, hbody, hrun⟩ :=
      Encoder.run_writeEntries_stops (e := e₁) (fun _ => rfl) (by simp [e₁]) hstop
    rw [run_bind_of_error hrun] at hstart
    refine ⟨⟨msg, by rw [streamPack_eq, hstart]⟩, .inr ⟨hdr, k, body, hhdr, hbody, ?_⟩⟩
    rw [streamPack_eq, hstart]
    simp [e₁, Encoder.wrote]

/-- Whole objects, as many as announced and fewer than `2 ^ 32`, stream as the pack `encode`
writes for them, and the answer is the pack's last twenty bytes as an id. -/
theorem streamPack_of_fits {n : Nat} {entries : List GitObject} (hlen : entries.length = n)
    (hbase : ∀ o ∈ entries, o.kind.isBase = true) (hsmall : n < 2 ^ 32) :
    ∃ pack, encode entries = .ok pack ∧
      (streamPack n (fun _ => true) entries).2.flatten = pack ∧
      ∃ id, (streamPack n (fun _ => true) entries).1 = .ok id ∧
        id.bytes = pack.drop (pack.length - 20) := by
  obtain ⟨hdr, hhdr⟩ := Header.encode_of_lt hsmall
  obtain ⟨encs, hencs⟩ := mapM_encodeEntry_ok hbase
  have hpack : encode entries = .ok (hdr ++ encs.flatten ++ digest (hdr ++ encs.flatten)) := by
    simp only [encode, hlen, hhdr, hencs, bind, Except.bind]
    rfl
  refine ⟨_, hpack, ?_, ⟨digest (hdr ++ encs.flatten), Sha1.length_digest _⟩, ?_, ?_⟩
  · rw [streamPack_eq, run_encode_of_fits hhdr hencs hlen]
    simp
  · rw [streamPack_eq, run_encode_of_fits hhdr hencs hlen]
  · -- the trailer is the last twenty bytes
    have hlast := Sha1.length_digest (hdr ++ encs.flatten)
    rw [List.length_append, hlast, Nat.add_sub_cancel, List.drop_left]

/-- **A streamed pack is the pack written at once.** With exactly the announced number of
entries, all whole objects, and a receiver that stays: when the count fits a header the chunks
sent concatenate to the bytes `encode` writes for the entries and the answer is the id made of
their last twenty bytes, and when it does not both fail alike, the stream having sent nothing.
With more or fewer entries than announced, or a delta among them, the stream fails with an
encoding error before sending a trailer. -/
theorem streamPack_refines_encode (n : Nat) (entries : List GitObject) :
    (entries.length = n → (∀ o ∈ entries, o.kind.isBase = true) → n < 2 ^ 32 →
      ∃ pack, encode entries = .ok pack ∧
        (streamPack n (fun _ => true) entries).2.flatten = pack ∧
        ∃ id, (streamPack n (fun _ => true) entries).1 = .ok id ∧
          id.bytes = pack.drop (pack.length - 20)) ∧
    (entries.length = n → 2 ^ 32 ≤ n →
      ∃ err, encode entries = .error err ∧
        streamPack n (fun _ => true) entries = (.error err, [])) ∧
    (entries.length ≠ n ∨ (∃ o ∈ entries, o.kind.isBase = false) →
      (∃ msg, (streamPack n (fun _ => true) entries).1 = .error (.packEncode msg)) ∧
      StoppedBeforeTrailer n entries (streamPack n (fun _ => true) entries).2) := by
  refine ⟨fun hlen hbase hsmall => streamPack_of_fits hlen hbase hsmall, fun hlen hlarge => ?_,
    streamPack_stops⟩
  · obtain ⟨msg, hmsg⟩ := Header.encode_of_le hlarge
    refine ⟨.packEncode msg, ?_, streamPack_of_header_error hmsg entries⟩
    simp [encode, hlen, hmsg, bind, Except.bind]

/-- A pack of one empty blob streams as the pack written at once. -/
theorem streamPack_refines_encode_emptyBlob :
    [GitObject.ofContent .blob []].length = 1 ∧
      (∀ o ∈ [GitObject.ofContent .blob []], o.kind.isBase = true) ∧ 1 < 2 ^ 32 ∧
      ∃ pack, encode [GitObject.ofContent .blob []] = .ok pack ∧
        (streamPack 1 (fun _ => true) [GitObject.ofContent .blob []]).2.flatten = pack ∧
        ∃ id, (streamPack 1 (fun _ => true) [GitObject.ofContent .blob []]).1 = .ok id ∧
          id.bytes = pack.drop (pack.length - 20) :=
  have hbase : ∀ o ∈ [GitObject.ofContent .blob []], o.kind.isBase = true := by
    simp [ObjectKind.isBase]
  ⟨rfl, hbase, by decide, (streamPack_refines_encode 1 _).1 rfl hbase (by decide)⟩

end Pack

end GitServer
