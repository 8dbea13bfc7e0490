import GitServer.Proofs.Deflate.Stored
import GitServer.Proofs.Deflate.Prefix
import Mathlib

/-!
# Compressed entries read back

A pack entry is a zlib stream whose data size the entry header declares, and the reader of
entries (`readEntry`) must say where the stream ends, so that the next entry can follow it.
This file puts together what the reader does with a stream written by `compress`:

* with the declared size right, it returns the data and the length of the stream, whatever
  follows the stream (`readEntryAt_compress`);
* with any other size it fails: a stream that finishes with another size than declared is an
  error, however large the buffer grows (`readEntryAt_finished_ne`);
* given only a proper beginning of the stream, it asks for more input: the stream finishes past
  the end of what it was given (`readEntryAt_shorter`).

Main statement: `readEntry_inverts_compress`, with the whole-stream reader `decompress`.
-/

namespace GitServer.Zlib

open Deflate Inflate

/-- A stream that finishes with another size than declared is an error at once. -/
theorem settle_finished_ne {t : Trace} {start declared n : Nat} (hstop : t.stop = .finished n)
    (hne : t.output.size ≠ declared) : settle t start declared =
      .error (.sizeMismatch t.output.size declared) := by
  unfold settle
  rw [hstop]
  simp only [if_neg hne]

/-- **A size other than the stream's is refused.** Whether the first buffer holds the stream's
data or the grown one does, the reader either meets the end of the stream with the wrong size
or finds more data than declared. -/
theorem readEntryAt_finished_ne {input : Array UInt8} {start declared n : Nat}
    (hstop : (traceAt input start).stop = .finished n)
    (hne : (traceAt input start).output.size ≠ declared) :
    ∃ e, readEntryAt input start declared = .error e := by
  unfold readEntryAt
  dsimp only
  split_ifs
  · exact ⟨_, settle_finished_ne hstop hne⟩
  · exact ⟨_, rfl⟩
  · exact ⟨_, settle_finished_ne hstop hne⟩
  · exact ⟨_, rfl⟩

theorem readEntry_compress (data rest : Bytes) :
    readEntry (compress data ++ rest) data.length =
      .ok (.complete data (compress data).length) := by
  simpa [readEntry] using readEntryAt_compress [] data rest

/-- Every size but the data's is refused, whatever follows the stream. -/
theorem readEntry_compress_ne (data rest : Bytes) {declared : Nat}
    (hne : declared ≠ data.length) :
    ∃ e, readEntry (compress data ++ rest) declared = .error e := by
  have htrace := traceAt_compress [] data rest
  simp only [List.nil_append, List.length_nil, Nat.zero_add] at htrace
  refine @readEntryAt_finished_ne _ 0 declared (compress data).length ?_ ?_
  · rw [htrace]
  · rw [htrace]
    simpa using hne.symm

/-- A proper beginning of a written stream asks for more input. -/
theorem readEntry_prefix_compress (data : Bytes) {p : Bytes} (hp : p <+: compress data)
    (hshort : p.length < (compress data).length) : readEntry p data.length = .ok .needMore := by
  have hB : readEntryAt (compress data).toArray 0 data.length =
      .ok (.complete data (compress data).length) := by
    simpa using readEntryAt_compress [] data []
  have hAB : p.toArray.toList <+: (compress data).toArray.toList := by simpa using hp
  rw [readEntry, readEntryAt_shorter hAB hB, if_neg (by simpa using hshort)]

/-- **Inflating an entry inverts compression.** For every data and whatever follows its
stream: read with its own size, the stream gives back the data and the number of bytes the
stream takes; read with any other size, it is an error; cut short anywhere before its end,
it asks for more input; and read as a whole stream it gives back the data. -/
theorem readEntry_inverts_compress (data : Bytes) :
    (∀ rest : Bytes, readEntry (compress data ++ rest) data.length =
      .ok (.complete data (compress data).length)) ∧
    (∀ (rest : Bytes) (declared : Nat), declared ≠ data.length →
      ∃ e, readEntry (compress data ++ rest) declared = .error e) ∧
    (∀ p : Bytes, p <+: compress data → p.length < (compress data).length →
      readEntry p data.length = .ok .needMore) ∧
    decompress (compress data) = .ok data :=
  ⟨readEntry_compress data, fun rest _ hne => readEntry_compress_ne data rest hne,
    fun _ hp hshort => readEntry_prefix_compress data hp hshort, decompress_compress data⟩

/-- Three bytes read with a declared size of four are refused. -/
theorem readEntry_inverts_compress_abc :
    4 ≠ ([97, 98, 99] : Bytes).length ∧
      ∃ e, readEntry (compress [97, 98, 99] ++ []) 4 = .error e :=
  ⟨by decide, (readEntry_inverts_compress [97, 98, 99]).2.1 [] 4 (by decide)⟩

end GitServer.Zlib
