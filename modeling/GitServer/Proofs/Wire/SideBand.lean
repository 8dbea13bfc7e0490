import GitServer.Engine.Upload
import GitServer.Proofs.Wire.PktLine
import Mathlib

/-!
# Side-band frames read back

Under side-band the server cuts what it sends into chunks of at most the negotiated size and
writes each chunk as one data pkt-line whose payload starts with the band's byte. The chunks
are taken from the front (`chunks`): all of them but the last have exactly the size, so there
are as many as the size goes into the data, rounded up (`length_chunks`), and together they
are the data (`flatten_chunks`). A frame is the pkt-line of its band byte and its chunk
(`frames_eq_writeLines`), and a chunk of at most 65515 bytes makes a line that fits, so the
frames read back line by line (`readBuffered_frames`).

Main statement (`sideBand_frames_read_back`): reading the frames of any data gives one line
per chunk, band byte first, and then the end of the input; this holds of frames written one
chunk of a stream after another; and the pack that follows a negotiation arrives unchanged on
band 1, in frames of 65515 bytes under `side-band-64k` and of 995 under plain `side-band`,
closed by one flush.
-/

namespace GitServer.Wire

/-! ## Chunks -/

section Chunks

variable {m : Nat} {data : Bytes}

/-- A size of at least one is taken as it is. -/
theorem max_one_eq (hm : 1 ≤ m) : Nat.max m 1 = m := Nat.max_eq_left hm

@[simp] theorem chunks_nil (m : Nat) : chunks m [] = [] := by
  rw [chunks]

/-- A non-empty input gives its first `m` bytes and the chunks of the rest. -/
theorem chunks_of_ne_nil (hm : 1 ≤ m) (h : data ≠ []) :
    chunks m data = data.take m :: chunks m (data.drop m) := by
  obtain ⟨b, bs, rfl⟩ := List.exists_cons_of_ne_nil h
  rw [chunks, max_one_eq hm]

theorem chunks_eq_nil_iff (hm : 1 ≤ m) : chunks m data = [] ↔ data = [] := by
  constructor
  · intro h
    by_contra hne
    rw [chunks_of_ne_nil hm hne] at h
    cases h
  · rintro rfl
    exact chunks_nil m

/-- The chunks are the data, cut. -/
@[simp] theorem flatten_chunks (m : Nat) (data : Bytes) : (chunks m data).flatten = data := by
  fun_induction chunks m data with
  | case1 => rfl
  | case2 b bs data ih => simp [data, ih]

theorem ne_nil_of_mem_chunks {c : Bytes} (hc : c ∈ chunks m data) : c ≠ [] := by
  fun_induction chunks m data with
  | case1 => simp at hc
  | case2 b bs data ih =>
    rcases List.mem_cons.1 hc with rfl | hc
    · simp [data]
    · exact ih hc

theorem length_le_of_mem_chunks (hm : 1 ≤ m) {c : Bytes} (hc : c ∈ chunks m data) :
    c.length ≤ m := by
  fun_induction chunks m data with
  | case1 => simp at hc
  | case2 b bs data ih =>
    rcases List.mem_cons.1 hc with rfl | hc
    · simp [max_one_eq hm]
    · exact ih hc

/-- The chunks of the pieces of a stream, one piece after another, are the stream, cut. -/
@[simp] theorem flatten_flatMap_chunks (m : Nat) (pieces : List Bytes) :
    (pieces.flatMap fun p => chunks m p).flatten = pieces.flatten := by
  induction pieces with
  | nil => rfl
  | cons p ps ih => simp [ih]

theorem length_le_of_mem_flatMap_chunks (hm : 1 ≤ m) {pieces : List Bytes} {c : Bytes}
    (hc : c ∈ pieces.flatMap fun p => chunks m p) : c.length ≤ m := by
  obtain ⟨p, -, hp⟩ := List.mem_flatMap.1 hc
  exact length_le_of_mem_chunks hm hp

/-- Every chunk but the last is full. -/
theorem length_of_mem_dropLast_chunks (hm : 1 ≤ m) {c : Bytes}
    (hc : c ∈ (chunks m data).dropLast) : c.length = m := by
  fun_induction chunks m data with
  | case1 => simp at hc
  | case2 b bs data ih =>
    rw [max_one_eq hm] at ih hc
    by_cases hrest : data.drop m = []
    · simp [hrest] at hc
    · -- the first chunk is followed by another, so the data holds more than `m` bytes
      rw [List.dropLast_cons_of_ne_nil (fun h => hrest ((chunks_eq_nil_iff hm).1 h))] at hc
      rcases List.mem_cons.1 hc with rfl | hc
      · have : m < data.length := by
          by_contra hle
          exact hrest (List.drop_eq_nil_of_le (by omega))
        simp only [List.length_take]
        omega
      · exact ih hc

/-- There are as many chunks as `m` goes into the data, rounded up. -/
theorem length_chunks (hm : 1 ≤ m) (data : Bytes) :
    (chunks m data).length = (data.length + m - 1) / m := by
  fun_induction chunks m data with
  | case1 => simp [Nat.div_eq_of_lt (show m - 1 < m by omega)]
  | case2 b bs data ih =>
    rw [max_one_eq hm] at ih ⊢
    show (chunks m (data.drop m)).length + 1 = (data.length + m - 1) / m
    rw [ih, List.length_drop]
    have hpos : 1 ≤ data.length := by simp [data]
    rcases Nat.lt_or_ge data.length m with hlt | hge
    · -- one short chunk
      rw [Nat.sub_eq_zero_of_le hlt.le, Nat.zero_add, Nat.div_eq_of_lt (by omega)]
      exact (Nat.div_eq_of_lt_le (by omega) (by omega)).symm
    · -- a full chunk, and the rest counts one less
      have hsplit : data.length + m - 1 = (data.length - m + m - 1) + m := by omega
      rw [hsplit, Nat.add_div_right _ (by omega)]

end Chunks

/-! ## Frames as pkt-lines -/

theorem readBuffered_flushBytes : readBuffered flushBytes = ([.flush], .eof) := by
  simpa [PktLine.encode] using @readBuffered_writeLines [.flush] (by simp [PktLine.Fits])

/-- The line that carries one chunk on a band. -/
def bandLine (band : Band) (c : Bytes) : PktLine := .data (band.code :: c)

/-- Frames are the lines of their chunks. -/
theorem frames_eq_writeLines (band : Band) (data : Bytes) (m : Nat) :
    frames band data m = writeLines ((chunks m data).map (bandLine band)) := by
  simp [frames, writeLines, bandLine, PktLine.encode, List.flatMap_map]

/-- A chunk of at most `sideBand64kMax` bytes and its band byte fit in one pkt-line. -/
theorem bandLine_fits (band : Band) {c : Bytes} (hc : c.length ≤ sideBand64kMax) :
    (bandLine band c).Fits := by
  simp only [bandLine, PktLine.Fits, List.length_cons, maxPktLength]
  simp only [sideBand64kMax] at hc
  omega

theorem fits_map_bandLine (band : Band) {cs : List Bytes}
    (hcs : ∀ c ∈ cs, c.length ≤ sideBand64kMax) : ∀ l ∈ cs.map (bandLine band), l.Fits := by
  intro l hl
  obtain ⟨c, hc, rfl⟩ := List.mem_map.1 hl
  exact bandLine_fits band (hcs c hc)

section Frames

variable {m : Nat} (hm1 : 1 ≤ m) (hm : m ≤ sideBand64kMax)
include hm1 hm

theorem fits_frames (band : Band) (data : Bytes) :
    ∀ l ∈ (chunks m data).map (bandLine band), l.Fits :=
  fits_map_bandLine band fun _ hc => (length_le_of_mem_chunks hm1 hc).trans hm

/-- Frames read back as the lines of their chunks, and reading goes on into what follows. -/
theorem readBuffered_frames_append (band : Band) (data rest : Bytes) :
    readBuffered (frames band data m ++ rest) =
      ((chunks m data).map (bandLine band) ++ (readBuffered rest).1, (readBuffered rest).2) := by
  rw [frames_eq_writeLines]
  exact readBuffered_writeLines_append (fits_frames hm1 hm band data) rest

theorem readBuffered_frames (band : Band) (data : Bytes) :
    readBuffered (frames band data m) = ((chunks m data).map (bandLine band), .eof) := by
  simpa [readBuffered_nil] using readBuffered_frames_append hm1 hm band data []

/-- Frames written for one chunk of a stream after another read back as the lines of each
chunk's chunks, in order. -/
theorem readBuffered_flatMap_frames (band : Band) (pieces : List Bytes) (rest : Bytes) :
    readBuffered ((pieces.flatMap fun p => frames band p m) ++ rest) =
      ((pieces.flatMap fun p => chunks m p).map (bandLine band) ++ (readBuffered rest).1,
        (readBuffered rest).2) := by
  induction pieces with
  | nil => simp
  | cons p ps ih =>
    rw [List.flatMap_cons, List.append_assoc, readBuffered_frames_append hm1 hm, ih]
    simp

end Frames

end GitServer.Wire

/-! ## The pack after a negotiation -/

namespace GitServer.Engine

open Wire

theorem sideBandLimit_of_sideBand64k {caps : List Capability} (h : .sideBand64k ∈ caps) :
    sideBandLimit caps = some sideBand64kMax := by
  simp [sideBandLimit, h]

theorem sideBandLimit_of_sideBand {caps : List Capability} (h64 : .sideBand64k ∉ caps)
    (h : .sideBand ∈ caps) : sideBandLimit caps = some sideBandMax := by
  simp [sideBandLimit, h64, h]

/-- Under side-band the frame size is 65515 bytes when `side-band-64k` was asked for, and 995
otherwise. -/
theorem sideBandLimit_of_mem {caps : List Capability}
    (h : .sideBand ∈ caps ∨ .sideBand64k ∈ caps) :
    sideBandLimit caps =
      some (if .sideBand64k ∈ caps then sideBand64kMax else sideBandMax) := by
  by_cases h64 : .sideBand64k ∈ caps
  · rw [if_pos h64, sideBandLimit_of_sideBand64k h64]
  · rw [if_neg h64, sideBandLimit_of_sideBand h64 (h.resolve_right h64)]

/-- A negotiated frame size is one from 1 to 65515. -/
theorem sideBandLimit_bounds {caps : List Capability} {max : Nat}
    (hlimit : sideBandLimit caps = some max) : 1 ≤ max ∧ max ≤ sideBand64kMax := by
  unfold sideBandLimit at hlimit
  split_ifs at hlimit <;> cases hlimit <;> simp [sideBand64kMax, sideBandMax]

/-- Under side-band the pack is read back as the chunks of its pieces, one piece after
another, on band 1, then a flush, then the end. -/
theorem readBuffered_packResponse {caps : List Capability} {max : Nat}
    (hlimit : sideBandLimit caps = some max) (pack : List Bytes) :
    readBuffered (packResponse caps pack) =
      ((pack.flatMap fun c => chunks max c).map (bandLine .data) ++ [.flush], .eof) := by
  have hmax := sideBandLimit_bounds hlimit
  rw [packResponse, hlimit]
  dsimp only
  rw [readBuffered_flatMap_frames hmax.1 hmax.2, readBuffered_flushBytes]

/-- Without side-band the pack's pieces go out as they are. -/
theorem packResponse_of_none {caps : List Capability} (hlimit : sideBandLimit caps = none)
    (pack : List Bytes) : packResponse caps pack = pack.flatten := by
  rw [packResponse, hlimit]

/-- **Side-band frames read back.** For every band, data and frame size `m` from 1 to 65515,
reading the frames line by line gives `⌈|data| / m⌉` data lines, each the band's byte and then
at most `m` bytes of data, exactly `m` in all but the last, and then the end of the input; the
data carried is the data framed. The same holds of frames written chunk after chunk of a
stream, which carry the stream's concatenation. And under side-band (`side-band-64k` before
`side-band`) the pack that follows a negotiation, framed piece by piece as the encoder sends
it, arrives on band 1 as the concatenation of its pieces, followed by exactly one flush. -/
theorem sideBand_frames_read_back :
    (∀ (band : Band) (data : Bytes) (m : Nat), 1 ≤ m → m ≤ sideBand64kMax →
      ∃ cs : List Bytes,
        readBuffered (frames band data m) = (cs.map (bandLine band), .eof) ∧
        cs.length = (data.length + m - 1) / m ∧ cs.flatten = data ∧
        (∀ c ∈ cs, c.length ≤ m) ∧ ∀ c ∈ cs.dropLast, c.length = m) ∧
    (∀ (band : Band) (pieces : List Bytes) (m : Nat), 1 ≤ m → m ≤ sideBand64kMax →
      ∃ cs : List Bytes,
        readBuffered ((pieces.flatMap fun p => frames band p m) ++ flushBytes) =
          (cs.map (bandLine band) ++ [.flush], .eof) ∧
        cs.flatten = pieces.flatten ∧ ∀ c ∈ cs, c.length ≤ m) ∧
    (∀ (caps : List Capability) (pack : List Bytes), .sideBand ∈ caps ∨ .sideBand64k ∈ caps →
      ∃ cs : List Bytes,
        readBuffered (packResponse caps pack) =
          (cs.map (bandLine .data) ++ [.flush], .eof) ∧
        cs.flatten = pack.flatten ∧
        ∀ c ∈ cs, c.length ≤ if .sideBand64k ∈ caps then sideBand64kMax else sideBandMax) := by
  refine ⟨?frames, ?stream, ?pack⟩
  case frames =>
    intro band data m hm1 hm
    exact ⟨chunks m data, readBuffered_frames hm1 hm band data, length_chunks hm1 data,
      flatten_chunks m data, fun c hc => length_le_of_mem_chunks hm1 hc,
      fun c hc => length_of_mem_dropLast_chunks hm1 hc⟩
  case stream =>
    intro band pieces m hm1 hm
    refine ⟨pieces.flatMap fun p => chunks m p, ?_, flatten_flatMap_chunks m pieces,
      fun c hc => length_le_of_mem_flatMap_chunks hm1 hc⟩
    rw [readBuffered_flatMap_frames hm1 hm, readBuffered_flushBytes]
  case pack =>
    intro caps pack hcaps
    have hlimit := sideBandLimit_of_mem hcaps
    refine ⟨pack.flatMap fun p => chunks _ p, readBuffered_packResponse hlimit pack,
      flatten_flatMap_chunks _ pack,
      fun c hc => length_le_of_mem_flatMap_chunks (sideBandLimit_bounds hlimit).1 hc⟩

/-- Ten bytes in frames of four: three lines, of four, four and two bytes. -/
theorem sideBand_frames_read_back_tenBytes :
    1 ≤ 4 ∧ 4 ≤ sideBand64kMax ∧
      ∃ cs : List Bytes,
        readBuffered (frames .data (List.replicate 10 7) 4) = (cs.map (bandLine .data), .eof) ∧
        cs.length = ((List.replicate 10 7).length + 4 - 1) / 4 ∧
        cs.flatten = List.replicate 10 7 ∧
        (∀ c ∈ cs, c.length ≤ 4) ∧ ∀ c ∈ cs.dropLast, c.length = 4 :=
  ⟨by decide, by decide,
    sideBand_frames_read_back.1 .data (List.replicate 10 7) 4 (by decide) (by decide)⟩

end GitServer.Engine
