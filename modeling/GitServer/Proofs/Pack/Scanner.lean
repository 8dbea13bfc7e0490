import GitServer.Pack.Scanner
import GitServer.Proofs.Deflate.Prefix
import GitServer.Proofs.Pack.Resolution
import Mathlib

/-!
# Finding the end of a pack that is still arriving

The scanner is fed the bytes a connection has brought so far, again and again. For a pack `P`
whose header and entries parse (`Parses`), followed by anything, every feed answers `none`
while the bytes fed end inside the pack and the length of the pack once they hold it, and
never fails, whether the scanner is fresh or has been fed before (`feedPrefixes_pack`).

It rests on reading an entry from a beginning of the bytes (`RawEntry.read_shorter`): the entry
is read alike when the beginning holds it, and is missing (`none`) otherwise, never an error.
Its parts are read so in turn: the entry header and the distance of an offset delta, bytes of
which are read one at a time until one ends the number (`Cut`), the base reference, and the
compressed content (`Zlib.readEntryAt_shorter`).
-/

namespace GitServer.Pack

/-! ## Numbers cut short -/

/-- A read of a beginning `l₁` of some bytes, `a`, against the read of all of them, `b`, where
`used` says how many bytes a read that succeeds took and `n` is the length of `l₁`: the same
answer, or none where the read of all the bytes takes more than `l₁` holds. -/
def Cut {α : Type} (n : Nat) (used : α → Nat) (a b : Except CodecError (Option α)) : Prop :=
  a = b ∨ (a = .ok none ∧ ∀ r, b = .ok (some r) → n < used r)

namespace Cut

variable {α : Type} {n : Nat} {used : α → Nat} {a b : Except CodecError (Option α)}

/-- What the read of all the bytes finds, the read of a beginning finds when it holds it. -/
theorem eq_of_some (h : Cut n used a b) (hwithin : ∀ r, a = .ok (some r) → used r ≤ n) {r : α}
    (hb : b = .ok (some r)) : a = if used r ≤ n then .ok (some r) else .ok none := by
  rcases h with rfl | ⟨ha, hlong⟩
  · rw [if_pos (hwithin r hb)]
    exact hb
  · rw [if_neg (Nat.not_le.mpr (hlong r hb))]
    exact ha

/-- What the read of a beginning finds, the read of all the bytes finds alike. -/
theorem extend (h : Cut n used a b) {r : α} (ha : a = .ok (some r)) : b = .ok (some r) := by
  rcases h with rfl | ⟨hnone, -⟩
  · exact ha
  · rw [hnone] at ha
    cases ha

end Cut

variable {l₁ l₂ : Bytes}

theorem readEntryHeader.go_within {t : Nat} :
    ∀ {l : Bytes} {size shift len : Nat} {r : Nat × Nat × Nat},
      readEntryHeader.go t size shift len l = .ok (some r) → r.2.2 ≤ len + l.length
  | [], _, _, _, _, h => by cases h
  | b :: rest, size, shift, len, r, h => by
    rw [readEntryHeader.go] at h
    split_ifs at h
    · cases h
      simp
    · have := readEntryHeader.go_within h
      simp only [List.length_cons]
      omega

/-- The size bytes of an entry header are read alike from a beginning of them. -/
theorem readEntryHeader.go_cut {t : Nat} : ∀ {l₁ l₂ : Bytes}, l₁ <+: l₂ →
    ∀ {size shift len : Nat}, Cut (len + l₁.length) (·.2.2)
      (readEntryHeader.go t size shift len l₁) (readEntryHeader.go t size shift len l₂)
  | [], _, _, _, _, len =>
    .inr ⟨by rw [readEntryHeader.go], fun _ hr => by simpa using readEntryHeader.go_len hr⟩
  | _ :: _, [], hpre, _, _, _ => absurd hpre.length_le (by simp)
  | b :: l₁, c :: l₂, hpre, size, shift, len => by
    obtain ⟨rfl, hrest⟩ := List.cons_prefix_cons.mp hpre
    rw [readEntryHeader.go, readEntryHeader.go]
    by_cases hshift : 57 ≤ shift
    · rw [if_pos hshift, if_pos hshift]
      exact .inl rfl
    rw [if_neg hshift, if_neg hshift]
    dsimp only
    by_cases hb : b < 0x80
    · rw [if_pos hb, if_pos hb]
      exact .inl rfl
    rw [if_neg hb, if_neg hb, List.length_cons, show len + (l₁.length + 1) = len + 1 + l₁.length by omega]
    exact readEntryHeader.go_cut hrest

theorem readEntryHeader_within {l : Bytes} {r : Nat × Nat × Nat}
    (h : readEntryHeader l = .ok (some r)) : r.2.2 ≤ l.length := by
  unfold readEntryHeader at h
  split at h
  · cases h
  · dsimp only at h
    split_ifs at h
    · cases h
      simp
    · have := readEntryHeader.go_within h
      simp only [List.length_cons]
      omega

/-- **An entry header is read alike from a beginning of it**, or found missing. -/
theorem readEntryHeader_cut (h : l₁ <+: l₂) :
    Cut l₁.length (·.2.2) (readEntryHeader l₁) (readEntryHeader l₂) := by
  match l₁, l₂, h with
  | [], _, _ => exact .inr ⟨rfl, fun _ hr => readEntryHeader_len_pos hr⟩
  | _ :: _, [], hpre => exact absurd hpre.length_le (by simp)
  | b :: l₁, c :: l₂, hpre =>
    obtain ⟨rfl, hrest⟩ := List.cons_prefix_cons.mp hpre
    unfold readEntryHeader
    dsimp only
    by_cases hb : b < 0x80
    · rw [if_pos hb, if_pos hb]
      exact .inl rfl
    rw [if_neg hb, if_neg hb, List.length_cons, Nat.add_comm]
    exact readEntryHeader.go_cut hrest

theorem readBaseDistance.go_within :
    ∀ {l : Bytes} {value len : Nat} {r : Nat × Nat},
      readBaseDistance.go value len l = .ok (some r) → r.2 ≤ len + l.length
  | [], _, _, _, h => by cases h
  | b :: rest, value, len, r, h => by
    rw [readBaseDistance.go] at h
    split_ifs at h
    · cases h
      simp
    · have := readBaseDistance.go_within h
      simp only [List.length_cons]
      omega

theorem readBaseDistance.go_len :
    ∀ {l : Bytes} {value len : Nat} {r : Nat × Nat},
      readBaseDistance.go value len l = .ok (some r) → len < r.2
  | [], _, _, _, h => by cases h
  | b :: rest, value, len, r, h => by
    rw [readBaseDistance.go] at h
    split_ifs at h
    · cases h
      simp
    · have := readBaseDistance.go_len h
      omega

/-- The bytes of a base distance are read alike from a beginning of them. -/
theorem readBaseDistance.go_cut : ∀ {l₁ l₂ : Bytes}, l₁ <+: l₂ →
    ∀ {value len : Nat}, Cut (len + l₁.length) (·.2)
      (readBaseDistance.go value len l₁) (readBaseDistance.go value len l₂)
  | [], _, _, _, len =>
    .inr ⟨by rw [readBaseDistance.go], fun _ hr => by simpa using readBaseDistance.go_len hr⟩
  | _ :: _, [], hpre, _, _ => absurd hpre.length_le (by simp)
  | b :: l₁, c :: l₂, hpre, value, len => by
    obtain ⟨rfl, hrest⟩ := List.cons_prefix_cons.mp hpre
    rw [readBaseDistance.go, readBaseDistance.go]
    by_cases hover : (value + 1) * 128 ≥ Nat.pow 2 64
    · rw [if_pos hover, if_pos hover]
      exact .inl rfl
    rw [if_neg hover, if_neg hover]
    dsimp only
    by_cases hb : b < 0x80
    · rw [if_pos hb, if_pos hb]
      exact .inl rfl
    rw [if_neg hb, if_neg hb, List.length_cons, show len + (l₁.length + 1) = len + 1 + l₁.length by omega]
    exact readBaseDistance.go_cut hrest

theorem readBaseDistance_within {l : Bytes} {r : Nat × Nat}
    (h : readBaseDistance l = .ok (some r)) : r.2 ≤ l.length := by
  unfold readBaseDistance at h
  split at h
  · cases h
  · split_ifs at h
    · cases h
      simp
    · have := readBaseDistance.go_within h
      simp only [List.length_cons]
      omega

/-- **The distance of an offset delta is read alike from a beginning of it**, or found
missing. -/
theorem readBaseDistance_cut (h : l₁ <+: l₂) :
    Cut l₁.length (·.2) (readBaseDistance l₁) (readBaseDistance l₂) := by
  match l₁, l₂, h with
  | [], l₂, _ =>
    refine .inr ⟨rfl, fun r hr => ?_⟩
    unfold readBaseDistance at hr
    split at hr
    · cases hr
    · split_ifs at hr
      · cases hr
        simp
      · have := readBaseDistance.go_len hr
        simp only [List.length_nil]
        omega
  | _ :: _, [], hpre => exact absurd hpre.length_le (by simp)
  | b :: l₁, c :: l₂, hpre =>
    obtain ⟨rfl, hrest⟩ := List.cons_prefix_cons.mp hpre
    unfold readBaseDistance
    dsimp only
    by_cases hb : b < 0x80
    · rw [if_pos hb, if_pos hb]
      exact .inl rfl
    rw [if_neg hb, if_neg hb, List.length_cons, Nat.add_comm]
    exact readBaseDistance.go_cut hrest

/-! ## Entries cut short -/

variable {A B : Array UInt8}

theorem prefix_window (hAB : A.toList <+: B.toList) (pos n : Nat) :
    window A pos n <+: window B pos n :=
  Deflate.Inflate.prefix_extract hAB pos (pos + n)

theorem length_window (data : Array UInt8) (pos n : Nat) :
    (window data pos n).length = min n (data.size - pos) := by
  simp only [window, Array.length_toList, Array.size_extract]
  omega

theorem window_of_le (hAB : A.toList <+: B.toList) {pos n : Nat} (h : pos + n ≤ A.size) :
    window A pos n = window B pos n := by
  rw [window, window, Deflate.Inflate.prefix_extract_of_le hAB h]

/-- **A base reference is read alike from a beginning of the pack**, or found missing. -/
theorem readBaseRef_shorter (hAB : A.toList <+: B.toList) {offset p : Nat} {kind : ObjectKind}
    {rk : RawKind} {q : Nat} (hB : readBaseRef B offset p kind = .ok (some (rk, q)))
    (hp : p ≤ A.size) :
    readBaseRef A offset p kind = if q ≤ A.size then .ok (some (rk, q)) else .ok none := by
  cases kind with
  | ofsDelta =>
    simp only [readBaseRef] at hB ⊢
    cases hd : readBaseDistance (window B p headerWindow) with
    | error e => simp [hd, bind, Except.bind] at hB
    | ok v =>
      rcases v with _ | ⟨distance, len⟩
      · simp [hd, bind, Except.bind, pure, Except.pure] at hB
      have hdA := (readBaseDistance_cut (prefix_window hAB p headerWindow)).eq_of_some
        (fun _ => readBaseDistance_within) hd
      have hlenB := readBaseDistance_within hd
      rw [length_window] at hlenB
      simp only [hd, bind, Except.bind] at hB
      split at hB
      · simp [throw, throwThe, MonadExceptOf.throw] at hB
      simp only [pure, Except.pure, Except.ok.injEq, Option.some.injEq, Prod.mk.injEq] at hB
      obtain ⟨rfl, rfl⟩ := hB
      rw [length_window] at hdA
      split_ifs at hdA with hfit
      · -- the distance lies inside the beginning
        simp only [hdA, bind, Except.bind]
        rw [if_neg ‹_›, if_pos (by unfold headerWindow at *; omega)]
        rfl
      · simp only [hdA, bind, Except.bind]
        rw [if_neg (by unfold headerWindow at *; omega)]
        rfl
  | refDelta =>
    simp only [readBaseRef] at hB ⊢
    split at hB
    · rename_i hlen
      simp only [Except.ok.injEq, Option.some.injEq, Prod.mk.injEq] at hB
      obtain ⟨rfl, rfl⟩ := hB
      rw [length_window] at hlen
      by_cases hfit : p + idLength ≤ A.size
      · rw [if_pos hfit]
        simp only [window_of_le hAB hfit]
        rw [dif_pos (by rw [length_window]; omega)]
      · rw [if_neg hfit, dif_neg (by rw [length_window]; unfold idLength at *; omega)]
    · cases hB
  | commit | tree | blob | tag =>
    simp only [readBaseRef, Except.ok.injEq, Option.some.injEq, Prod.mk.injEq] at hB ⊢
    obtain ⟨rfl, rfl⟩ := hB
    rw [if_pos hp]

/-- A base reference read in full is read alike from more of the pack. -/
theorem readBaseRef_extend (hAB : A.toList <+: B.toList) {offset p : Nat} {kind : ObjectKind}
    {rk : RawKind} {q : Nat} (hA : readBaseRef A offset p kind = .ok (some (rk, q))) :
    readBaseRef B offset p kind = .ok (some (rk, q)) := by
  cases kind with
  | ofsDelta =>
    simp only [readBaseRef] at hA ⊢
    cases hd : readBaseDistance (window A p headerWindow) with
    | error e => simp [hd, bind, Except.bind] at hA
    | ok v =>
      rcases v with _ | ⟨distance, len⟩
      · simp [hd, bind, Except.bind, pure, Except.pure] at hA
      rw [(readBaseDistance_cut (prefix_window hAB p headerWindow)).extend hd]
      rw [hd] at hA
      exact hA
  | refDelta =>
    simp only [readBaseRef] at hA ⊢
    split at hA
    · rename_i hlen
      have hfit : p + idLength ≤ A.size := by rw [length_window] at hlen; unfold idLength; omega
      rw [← window_of_le hAB hfit]
      rw [dif_pos hlen]
      exact hA
    · cases hA
  | commit | tree | blob | tag => exact hA

/-- The parts of an entry read in full: its header, its kind, its base reference and its
compressed content. -/
theorem RawEntry.read_eq_some {data : Array UInt8} {offset : Nat} {raw : RawEntry}
    (h : RawEntry.read data offset = .ok (some raw)) :
    ∃ typeId size hl kind pos consumed,
      readEntryHeader (window data offset headerWindow) = .ok (some (typeId, size, hl)) ∧
      ObjectKind.ofPackNumber? typeId = some kind ∧
      readBaseRef data offset (offset + hl) kind = .ok (some (raw.kind, pos)) ∧
      Zlib.readEntryAt data pos size = .ok (.complete raw.data consumed) ∧
      raw.next = pos + consumed := by
  simp only [RawEntry.read] at h
  cases hh : readEntryHeader (window data offset headerWindow) with
  | error e => simp [hh, bind, Except.bind] at h
  | ok v =>
    rcases v with _ | ⟨typeId, size, hl⟩
    · simp [hh, bind, Except.bind, pure, Except.pure] at h
    simp only [hh, bind, Except.bind] at h
    cases hk : ObjectKind.ofPackNumber? typeId with
    | none => simp [hk, throw, throwThe, MonadExceptOf.throw] at h
    | some kind =>
      cases hb : readBaseRef data offset (offset + hl) kind with
      | error e => simp [hk, hb] at h
      | ok w =>
        rcases w with _ | ⟨rk, pos⟩
        · simp [hk, hb, pure, Except.pure] at h
        simp only [hk, hb] at h
        split at h
        · simp [throw, throwThe, MonadExceptOf.throw] at h
        · simp [pure, Except.pure] at h
        · rename_i content consumed hentry
          simp only [pure, Except.pure, Except.ok.injEq, Option.some.injEq] at h
          subst h
          exact ⟨typeId, size, hl, kind, pos, consumed, rfl, hk, hb, hentry, rfl⟩

section parts

variable {data : Array UInt8} {offset typeId size hl pos : Nat} {kind : ObjectKind} {rk : RawKind}

theorem RawEntry.read_of_header_none
    (hh : readEntryHeader (window data offset headerWindow) = .ok none) :
    RawEntry.read data offset = .ok none := by
  simp only [RawEntry.read, hh, bind, Except.bind]
  rfl

theorem RawEntry.read_of_baseRef_none
    (hh : readEntryHeader (window data offset headerWindow) = .ok (some (typeId, size, hl)))
    (hk : ObjectKind.ofPackNumber? typeId = some kind)
    (hb : readBaseRef data offset (offset + hl) kind = .ok none) :
    RawEntry.read data offset = .ok none := by
  simp only [RawEntry.read, hh, hk, hb, bind, Except.bind]
  rfl

theorem RawEntry.read_of_needMore
    (hh : readEntryHeader (window data offset headerWindow) = .ok (some (typeId, size, hl)))
    (hk : ObjectKind.ofPackNumber? typeId = some kind)
    (hb : readBaseRef data offset (offset + hl) kind = .ok (some (rk, pos)))
    (he : Zlib.readEntryAt data pos size = .ok .needMore) :
    RawEntry.read data offset = .ok none := by
  simp only [RawEntry.read, hh, hk, hb, he, bind, Except.bind]
  rfl

theorem RawEntry.read_of_complete {content : Bytes} {consumed : Nat}
    (hh : readEntryHeader (window data offset headerWindow) = .ok (some (typeId, size, hl)))
    (hk : ObjectKind.ofPackNumber? typeId = some kind)
    (hb : readBaseRef data offset (offset + hl) kind = .ok (some (rk, pos)))
    (he : Zlib.readEntryAt data pos size = .ok (.complete content consumed)) :
    RawEntry.read data offset = .ok (some ⟨rk, content, pos + consumed⟩) := by
  simp only [RawEntry.read, hh, hk, hb, he, bind, Except.bind]
  rfl

end parts

/-- **An entry is read alike from a beginning of the pack that holds it**, and is missing
(`none`) from one that does not, never an error. -/
theorem RawEntry.read_shorter (hAB : A.toList <+: B.toList) {offset : Nat} {raw : RawEntry}
    (hB : RawEntry.read B offset = .ok (some raw)) :
    RawEntry.read A offset = if raw.next ≤ A.size then .ok (some raw) else .ok none := by
  obtain ⟨typeId, size, hl, kind, pos, consumed, hh, hk, hb, he, hnext⟩ := RawEntry.read_eq_some hB
  have hpos := readBaseRef_pos hb
  have hhl := readEntryHeader_len_pos hh
  have hhlB := readEntryHeader_within hh
  rw [length_window] at hhlB
  have hhA := (readEntryHeader_cut (prefix_window hAB offset headerWindow)).eq_of_some
    (fun _ => readEntryHeader_within) hh
  rw [length_window] at hhA
  dsimp only at hhA hhl hhlB
  split_ifs at hhA with hfit
  · -- the header lies inside the beginning
    have hbA := readBaseRef_shorter hAB hb (by omega)
    split_ifs at hbA with hq
    · have heA := Zlib.readEntryAt_shorter hAB he
      split_ifs at heA with hc
      · rw [if_pos (by omega), RawEntry.read_of_complete hhA hk hbA heA, ← hnext]
      · rw [if_neg (by omega)]
        exact RawEntry.read_of_needMore hhA hk hbA heA
    · rw [if_neg (by omega)]
      exact RawEntry.read_of_baseRef_none hhA hk hbA
  · rw [if_neg (by unfold headerWindow at *; omega)]
    exact RawEntry.read_of_header_none hhA

/-- **An entry read in full is read alike from more of the pack.** -/
theorem RawEntry.read_extend (hAB : A.toList <+: B.toList) {offset : Nat} {raw : RawEntry}
    (hA : RawEntry.read A offset = .ok (some raw)) :
    RawEntry.read B offset = .ok (some raw) := by
  obtain ⟨typeId, size, hl, kind, pos, consumed, hh, hk, hb, he, hnext⟩ := RawEntry.read_eq_some hA
  rw [RawEntry.read_of_complete ((readEntryHeader_cut (prefix_window hAB offset headerWindow)).extend hh)
    hk (readBaseRef_extend hAB hb) (Zlib.readEntryAt_extend hAB he), ← hnext]

/-! ## Packs whose entries parse -/

/-- `n` entries of `data`, read one after another from `offset`, end at `last`. -/
inductive EntriesEnd (data : Array UInt8) : Nat → Nat → Nat → Prop
  | nil (offset : Nat) : EntriesEnd data 0 offset offset
  | cons {n offset last : Nat} (raw : RawEntry) : RawEntry.read data offset = .ok (some raw) →
      EntriesEnd data n raw.next last → EntriesEnd data (n + 1) offset last

/-- A pack whose header and entries parse: the entries its header announces, read one after
another from the end of the header, end where the twenty bytes of its trailer begin. -/
def Parses (P : Bytes) : Prop :=
  ∃ h, Header.parse P = .ok h ∧ EntriesEnd P.toArray h.count headerLength (P.length - idLength)

namespace EntriesEnd

theorem le {data : Array UInt8} {n offset last : Nat} (h : EntriesEnd data n offset last) :
    offset ≤ last := by
  induction h with
  | nil => exact le_rfl
  | cons raw hread _ ih => exact le_trans (RawEntry.read_next hread).1.le ih

/-- Entries read in full are read alike from more bytes. -/
theorem extend (hAB : A.toList <+: B.toList) {n offset last : Nat}
    (h : EntriesEnd A n offset last) : EntriesEnd B n offset last := by
  induction h with
  | nil => exact .nil _
  | cons raw hread _ ih => exact .cons raw (RawEntry.read_extend hAB hread) ih

end EntriesEnd

/-- Reading the entries of a pack body reads them one after another. -/
theorem entriesEnd_of_readEntries {body : Array UInt8} :
    ∀ {n offset : Nat} {p q : Decoded} {last : Nat},
      Decoded.readEntries body n offset p = .ok (q, last) → EntriesEnd body n offset last
  | 0, _, _, _, _, h => by
    cases h
    exact .nil _
  | n + 1, offset, p, q, last, h => by
    rw [Decoded.readEntries] at h
    obtain ⟨o, hread, hrest⟩ := Except.bind_eq_ok.mp h
    rcases o with _ | raw
    · simp [throw, throwThe, MonadExceptOf.throw] at hrest
    · exact .cons raw hread (entriesEnd_of_readEntries hrest)

/-- **A pack that reads is a pack whose entries parse.** -/
theorem Parses.of_read {P : Bytes} {p : Decoded} (h : read P = .ok p) : Parses P := by
  unfold read at h
  obtain ⟨header, hheader, h⟩ := Except.bind_eq_ok.mp h
  dsimp only at h
  split at h
  · simp [throw, throwThe, MonadExceptOf.throw, bind, Except.bind] at h
  split at h
  · simp [throw, throwThe, MonadExceptOf.throw, bind, Except.bind] at h
  obtain ⟨sig, -, h⟩ := Except.bind_eq_ok.mp h
  obtain ⟨⟨q, last⟩, hentries, h⟩ := Except.bind_eq_ok.mp h
  dsimp only at h
  split at h
  · simp [throw, throwThe, MonadExceptOf.throw, bind, Except.bind] at h
  rename_i hlast
  refine ⟨header, hheader, ?_⟩
  rw [← Decidable.not_not.mp hlast]
  -- the entries were read from the pack without its trailer, and read alike from all of it
  exact (entriesEnd_of_readEntries hentries).extend (by simpa using List.take_prefix _ P)

/-- A pack whose entries parse holds its header and its trailer. -/
theorem Parses.length_ge {P : Bytes} (hP : Parses P) : headerLength + idLength ≤ P.length := by
  obtain ⟨_, _, hentries⟩ := hP
  have := hentries.le
  unfold headerLength idLength at *
  omega

/-- A pack header is read from the first twelve bytes alone. -/
theorem Header.parse_take {data : Bytes} (h : headerLength ≤ data.length) :
    Header.parse (data.take headerLength) = Header.parse data := by
  have hlen : (data.take headerLength).length = headerLength := List.length_take_of_le h
  unfold Header.parse
  rw [hlen, if_neg (Nat.lt_irrefl _), if_neg (Nat.not_lt.mpr h)]
  simp only [List.take_take, List.drop_take, headerLength]
  rfl

/-! ## The scanner -/

namespace Scanner

/-- What the scanner knows of a pack whose entries end at `last`: nothing yet, or the entries
still to be read from `next` on. -/
def Tracks (data : Array UInt8) (last : Nat) : Scanner → Prop
  | .fresh => True
  | .reading remaining next => EntriesEnd data remaining next last

/-- **The scanner reads the entries the buffer holds.** From a buffer that holds a beginning
of the pack's entries, or all of them, it reads entries as long as the buffer holds the next
one whole, and stops there, with no error. -/
theorem advance_entries {A D : Array UInt8} {last : Nat}
    (hread : ∀ {o : Nat} {raw : RawEntry}, RawEntry.read D o = .ok (some raw) → raw.next ≤ last →
      RawEntry.read A o = if raw.next ≤ A.size then .ok (some raw) else .ok none) :
    ∀ {r next : Nat}, EntriesEnd D r next last →
      ∃ r' next', advance A r next = .ok (.reading r' next') ∧ EntriesEnd D r' next' last ∧
        (r' = 0 ∨ A.size < last)
  | _, _, .nil next => ⟨0, next, rfl, .nil next, .inl rfl⟩
  | _, next, .cons (n := n) raw hraw hrest => by
    rw [advance, hread hraw hrest.le]
    by_cases hfit : raw.next ≤ A.size
    · -- the buffer holds the entry: read it and go on from where it ends
      rw [if_pos hfit]
      exact advance_entries hread hrest
    · -- it does not: wait for more bytes before this entry
      rw [if_neg hfit]
      exact ⟨n + 1, next, rfl, .cons raw hraw hrest, .inr (by have := hrest.le; omega)⟩

/-- What a feed answers once the scanner has read what it could. -/
def answer (remaining next length : Nat) : Option Nat :=
  if remaining = 0 ∧ next + idLength ≤ length then some (next + idLength) else none

theorem feed_reading {buffer : Bytes} {r next r' next' : Nat}
    (hadv : advance buffer.toArray r next = .ok (.reading r' next')) :
    (Scanner.reading r next).feed buffer =
      .ok (.reading r' next', answer r' next' buffer.length) := by
  unfold feed answer
  simp only [pure, Except.pure, bind, Except.bind, hadv]
  cases r' <;> simp

theorem feed_fresh_short {buffer : Bytes} (h : buffer.length < headerLength) :
    Scanner.fresh.feed buffer = .ok (.fresh, none) := by
  unfold feed
  simp only [h, if_true]
  rfl

theorem feed_fresh {buffer : Bytes} {hdr : Header} {r' next' : Nat}
    (h : ¬ buffer.length < headerLength) (hparse : Header.parse buffer = .ok hdr)
    (hadv : advance buffer.toArray hdr.count headerLength = .ok (.reading r' next')) :
    Scanner.fresh.feed buffer = .ok (.reading r' next', answer r' next' buffer.length) := by
  unfold feed answer
  simp only [h, if_false, pure, Except.pure, bind, Except.bind, hparse, hadv]
  cases r' <;> simp

/-- **One feed answers for the pack**: `none` while the bytes fed end inside it, its length
once they hold it, never an error; and the scanner goes on knowing the pack. -/
theorem feed_pack {P : Bytes} (hP : Parses P) (T : Bytes) {s : Scanner}
    (hs : s.Tracks P.toArray (P.length - idLength)) (l : Nat) :
    ∃ s', s.feed ((P ++ T).take l) = .ok (s', if l < P.length then none else some P.length) ∧
      s'.Tracks P.toArray (P.length - idLength) := by
  have hlong := hP.length_ge
  obtain ⟨hdr, hparse, hentries⟩ := hP
  have hbuf : ((P ++ T).take l).length = min l (P.length + T.length) := by simp
  -- an entry of the pack is read from the bytes fed as far as they hold it
  have hread : ∀ {o : Nat} {raw : RawEntry}, RawEntry.read P.toArray o = .ok (some raw) →
      raw.next ≤ P.length - idLength →
      RawEntry.read ((P ++ T).take l).toArray o =
        if raw.next ≤ ((P ++ T).take l).toArray.size then .ok (some raw) else .ok none := by
    intro o raw hraw hnext
    have hbS : (P ++ T).take l <+: P ++ T := List.take_prefix _ _
    have hPS : P <+: P ++ T := List.prefix_append _ _
    rcases le_total ((P ++ T).take l).length P.length with hle | hle
    · exact RawEntry.read_shorter (by simpa using List.prefix_of_prefix_length_le hbS hPS hle) hraw
    · rw [RawEntry.read_extend (by simpa using List.prefix_of_prefix_length_le hPS hbS hle) hraw,
        if_pos (by simp only [List.size_toArray]; omega)]
  -- once the scanner has read what it could, it answers for the pack
  have hanswer : ∀ {r' next'}, EntriesEnd P.toArray r' next' (P.length - idLength) →
      (r' = 0 ∨ ((P ++ T).take l).toArray.size < P.length - idLength) →
      answer r' next' ((P ++ T).take l).length = if l < P.length then none else some P.length := by
    intro r' next' hend hcase
    -- with no entry left, the scanner stands at the trailer
    have hzero : r' = 0 → next' = P.length - idLength := by
      rintro rfl
      cases hend
      rfl
    simp only [List.size_toArray] at hcase
    unfold answer
    unfold idLength at *
    by_cases hl : l < P.length
    · rw [if_pos hl, if_neg fun ⟨h0, hle⟩ => (by have := hzero h0; omega)]
    · have h0 : r' = 0 := hcase.resolve_right (by omega)
      have := hzero h0
      rw [if_neg hl, if_pos ⟨h0, by omega⟩]
      congr 2
      omega
  cases s with
  | fresh =>
    by_cases hshort : ((P ++ T).take l).length < headerLength
    · refine ⟨.fresh, ?_, trivial⟩
      rw [feed_fresh_short hshort, if_pos (by unfold headerLength idLength at *; omega)]
    -- the header is read from the first twelve bytes, which are the pack's
    have hparse' : Header.parse ((P ++ T).take l) = .ok hdr := by
      rw [← Header.parse_take (by omega), List.take_take, Nat.min_eq_left (by omega),
        List.take_append_of_le_length (by omega), Header.parse_take (by omega), hparse]
    obtain ⟨r', next', hadv, hend, hcase⟩ := advance_entries hread hentries
    exact ⟨.reading r' next', by rw [feed_fresh hshort hparse' hadv, hanswer hend hcase], hend⟩
  | reading r next =>
    obtain ⟨r', next', hadv, hend, hcase⟩ := advance_entries hread hs
    exact ⟨.reading r' next', by rw [feed_reading hadv, hanswer hend hcase], hend⟩

/-- Feeds one scanner the beginnings of the bytes `S` of the given lengths, in turn: its
answers. -/
def feedPrefixes (s : Scanner) (S : Bytes) : List Nat → Except CodecError (List (Option Nat))
  | [] => .ok []
  | l :: ls => do
    let (s', found) ← s.feed (S.take l)
    let rest ← s'.feedPrefixes S ls
    return found :: rest

/-- Fed in turn, a scanner that knows the pack answers for it each time. -/
theorem feedPrefixes_of_tracks {P : Bytes} (hP : Parses P) (T : Bytes) :
    ∀ (ls : List Nat) {s : Scanner}, s.Tracks P.toArray (P.length - idLength) →
      s.feedPrefixes (P ++ T) ls =
        .ok (ls.map fun l => if l < P.length then none else some P.length)
  | [], _, _ => rfl
  | l :: ls, s, hs => by
    obtain ⟨s', hfeed, hs'⟩ := feed_pack hP T hs l
    rw [feedPrefixes, hfeed]
    simp only [bind, Except.bind, feedPrefixes_of_tracks hP T ls hs', pure, Except.pure,
      List.map_cons]

end Scanner

/-- **The scanner finds the end of a pack**, whatever bytes follow it. Fed the beginnings of
the bytes of any lengths in turn (a connection brings ever longer ones), one scanner answers
`none` for each that ends inside the pack and the length of the pack for each that holds it,
and never fails; a fresh scanner answers the same for each. -/
theorem feedPrefixes_pack {P : Bytes} (hP : Parses P) (T : Bytes) (ls : List Nat) :
    Scanner.fresh.feedPrefixes (P ++ T) ls =
        .ok (ls.map fun l => if l < P.length then none else some P.length) ∧
      ∀ l, (Scanner.fresh.feed ((P ++ T).take l)).map Prod.snd =
        .ok (if l < P.length then none else some P.length) := by
  refine ⟨Scanner.feedPrefixes_of_tracks hP T ls trivial, fun l => ?_⟩
  obtain ⟨s', hfeed, -⟩ := Scanner.feed_pack hP T (s := .fresh) trivial l
  rw [hfeed]
  rfl

/-- A pack of one blob, followed by two more bytes, fed in five beginnings. -/
theorem feedPrefixes_blobPack :
    ∃ P, encode [GitObject.ofContent .blob [1, 2, 3]] = .ok P ∧ Parses P ∧
      Scanner.fresh.feedPrefixes (P ++ [0, 0]) [0, 12, P.length - 1, P.length, P.length + 2] =
        .ok [none, none, none, some P.length, some P.length] := by
  have hwhole : ¬ EncodeRefused [GitObject.ofContent .blob [1, 2, 3]] :=
    not_encodeRefused.mpr ⟨by simp [GitObject.ofContent, ObjectKind.isBase], by decide⟩
  obtain ⟨P, henc⟩ := encode_ok_of_not_refused hwhole
  obtain ⟨es, hread, -⟩ := read_encode henc (by simp [GitObject.ofContent])
  have hP := Parses.of_read hread
  have hlen := hP.length_ge
  refine ⟨P, henc, hP, ?_⟩
  rw [(feedPrefixes_pack hP [0, 0] _).1]
  unfold headerLength idLength at hlen
  simp only [List.map_cons, List.map_nil]
  rw [if_pos (by omega), if_pos (by omega), if_pos (by omega), if_neg (by omega),
    if_neg (by omega)]

end GitServer.Pack
