import GitServer.Proofs.Deflate.Stored
import GitServer.Pack.Encode
import GitServer.Pack.Decoded
import Mathlib
/-!
# Packs written and read back

A pack the server writes holds whole objects only. Each entry header is read back as the
kind and size written, each compressed content as its bytes, and so the whole pack reads back
as its count, its objects in order and the digest of everything before its trailer. Writing
fails exactly on a delta or on a count that does not fit the 32-bit header field, always with
an encoding error. Sizes must stay below `2 ^ 60`, the widest size an entry header is read
with.
-/

namespace GitServer.Pack

/-! ## Entry headers -/

/-- The first byte of an entry header holds the kind number above the low four size bits. -/
theorem toNat_firstByte (t : UInt8) (r : Nat) (ht : t.toNat < 8) (hr : r < 16) :
    ((t <<< 4) ||| UInt8.ofNat r).toNat = t.toNat * 16 + r := by
  rw [UInt8.toNat_or, UInt8.toNat_shiftLeft, UInt8.toNat_ofNat']
  have h4 : UInt8.toNat 4 % 8 = 4 := rfl
  rw [h4, Nat.shiftLeft_eq, Nat.mod_eq_of_lt (by omega : t.toNat * 2 ^ 4 < 2 ^ 8),
    Nat.mod_eq_of_lt (by omega : r < 2 ^ 8), ← Nat.shiftLeft_eq, ← Nat.shiftLeft_add_eq_or_of_lt hr,
    Nat.shiftLeft_eq]

/-- Setting the continuation bit of a byte below `0x80` adds 128. -/
theorem toNat_or_continuation (b : UInt8) (h : b.toNat < 128) : (b ||| 0x80).toNat = b.toNat + 128 := by
  rw [UInt8.toNat_or]
  exact @Nat.or_two_pow_eq_add_of_lt _ 7 h

/-- The size groups of `m` read back from the bit position `shift` on: the size grows by `m`
placed at that position, as long as it stays below `2 ^ 60`. -/
theorem go_sizeGroups (t : Nat) (rest : Bytes) :
    ∀ (m acc shift len : Nat), shift % 7 = 4 → shift < 57 → m * 2 ^ shift < 2 ^ 60 →
      readEntryHeader.go t acc shift len (sizeGroups m ++ rest) =
        .ok (some (t, acc + m * 2 ^ shift, len + (sizeGroups m).length)) := by
  intro m
  induction m using Nat.strongRecOn with
  | ind m ih =>
    intro acc shift len hmod hshift hbound
    rw [sizeGroups]
    split
    · rename_i hm
      simp only [List.cons_append, readEntryHeader.go, if_neg (by omega : ¬ 57 ≤ shift), Nat.pow_eq]
      have hb : (UInt8.ofNat m).toNat = m := by simp only [UInt8.toNat_ofNat']; omega
      rw [if_pos (by rw [UInt8.lt_iff_toNat_lt, hb]; exact hm), hb, Nat.mod_eq_of_lt hm]
      rfl
    · rename_i hm
      have hb : (UInt8.ofNat (m % 128 + 128)).toNat = m % 128 + 128 := by
        simp only [UInt8.toNat_ofNat']; omega
      -- a continuation byte moves the next group seven bits up, still below bit 57
      have hpow : 2 ^ (shift + 7) = 2 ^ shift * 128 := by rw [Nat.pow_add]
      have hlt : 2 ^ (shift + 7) < 2 ^ 60 := by
        calc 2 ^ (shift + 7) = 2 ^ shift * 128 := hpow
          _ ≤ m * 2 ^ shift := by rw [Nat.mul_comm]; exact Nat.mul_le_mul_right _ (by omega)
          _ < 2 ^ 60 := hbound
      have hnext : shift + 7 < 57 := by
        have := (Nat.pow_lt_pow_iff_right (by decide : 1 < 2)).mp hlt
        omega
      have hbound' : m / 128 * 2 ^ (shift + 7) < 2 ^ 60 := by
        calc m / 128 * 2 ^ (shift + 7) = m / 128 * 128 * 2 ^ shift := by rw [hpow]; ring
          _ ≤ m * 2 ^ shift := Nat.mul_le_mul_right _ (Nat.div_mul_le_self m 128)
          _ < 2 ^ 60 := hbound
      simp only [List.cons_append, readEntryHeader.go, if_neg (by omega : ¬ 57 ≤ shift), Nat.pow_eq]
      rw [if_neg (by rw [UInt8.lt_iff_toNat_lt, hb]; show ¬ (m % 128 + 128 < 128); omega), hb,
        ih (m / 128) (by omega) _ _ _ (by omega) hnext hbound']
      have hval : acc + (m % 128 + 128) % 128 * 2 ^ shift + m / 128 * 2 ^ (shift + 7) =
          acc + m * 2 ^ shift := by
        have hm_eq : m = m % 128 + 128 * (m / 128) := (Nat.mod_add_div m 128).symm
        rw [hpow, Nat.add_mod_right, Nat.mod_mod, Nat.add_assoc]
        conv_rhs => rw [hm_eq]
        ring
      rw [hval, List.length_cons, show len + 1 + (sizeGroups (m / 128)).length =
        len + ((sizeGroups (m / 128)).length + 1) by omega]

/-- **Entry headers read back.** A kind number below 8 and a size below `2 ^ 60` come back
from the header written for them, with the header's length, whatever follows it. -/
theorem readEntryHeader_entryHeader (t : UInt8) (size : Nat) (rest : Bytes) (ht : t.toNat < 8)
    (hsize : size < 2 ^ 60) :
    readEntryHeader (entryHeader t size ++ rest) =
      .ok (some (t.toNat, size, (entryHeader t size).length)) := by
  have hfirst := toNat_firstByte t (size % 16) ht (Nat.mod_lt _ (by decide))
  unfold entryHeader
  dsimp only
  split
  · rename_i hsmall
    rw [List.singleton_append, readEntryHeader,
      if_pos (by rw [UInt8.lt_iff_toNat_lt, hfirst]; show t.toNat * 16 + size % 16 < 128; omega),
      hfirst]
    simp only [List.length_singleton, Except.ok.injEq, Option.some.injEq, Prod.mk.injEq, and_true]
    omega
  · rename_i hbig
    have hcont := toNat_or_continuation _ (by rw [hfirst]; omega)
    rw [hfirst] at hcont
    rw [List.cons_append, readEntryHeader,
      if_neg (by rw [UInt8.lt_iff_toNat_lt, hcont]; show ¬ (t.toNat * 16 + size % 16 + 128 < 128); omega),
      hcont, go_sizeGroups _ _ _ _ _ _ rfl (by decide) (by omega), List.length_cons,
      show (2 : Nat) ^ 4 = 16 from rfl]
    simp only [Except.ok.injEq, Option.some.injEq, Prod.mk.injEq]
    omega

/-- A number below `128 ^ (k + 1)` takes at most `k + 1` size groups. -/
theorem length_sizeGroups_le (k : Nat) : ∀ m, m < 128 ^ (k + 1) → (sizeGroups m).length ≤ k + 1 := by
  induction k with
  | zero =>
    intro m hm
    rw [sizeGroups, if_pos (by simpa using hm)]
    simp
  | succ k ih =>
    intro m hm
    rw [sizeGroups]
    split
    · simp
    · have := ih (m / 128) (by rw [Nat.pow_succ] at hm; omega)
      simp only [List.length_cons]
      omega

/-- The header of an entry of fewer than `2 ^ 60` bytes takes at most nine bytes. -/
theorem length_entryHeader_le (t : UInt8) (size : Nat) (hsize : size < 2 ^ 60) :
    (entryHeader t size).length ≤ 9 := by
  unfold entryHeader
  dsimp only
  split
  · simp
  · have := length_sizeGroups_le 7 (size / 16) (by omega)
    simp only [List.length_cons]
    omega

/-- The window read at the end of a prefix is the start of what follows it. -/
theorem window_append (pre mid : Bytes) (n : Nat) :
    window (pre ++ mid).toArray pre.length n = mid.take n := by
  simp [window, List.extract]

/-! ## Entries and packs -/

/-- The fixed part of a pack read back: version 2 and the count written. -/
theorem Header.parse_encode {count : Nat} {hdr : Bytes} (he : Header.encode count = .ok hdr)
    (rest : Bytes) : Header.parse (hdr ++ rest) = .ok ⟨2, count⟩ := by
  unfold Header.encode at he
  split at he
  · rename_i hc
    cases he
    have hpack : Bytes.ofString "PACK" = [80, 65, 67, 75] := by decide +kernel
    have h2 : Bytes.toNatBE (Bytes.ofNatBE 4 2) = 2 := Bytes.toNatBE_ofNatBE 4 2 (by decide)
    have hn : Bytes.toNatBE (Bytes.ofNatBE 4 count) = count := Bytes.toNatBE_ofNatBE 4 count hc
    unfold Header.parse
    simp only [hpack, List.append_assoc, List.cons_append, List.nil_append, List.length_cons,
      List.length_append, Bytes.length_ofNatBE, List.take_succ_cons, List.take_zero, List.drop_succ_cons,
      List.drop_zero, headerLength]
    rw [if_neg (by omega), if_neg (by simp)]
    simp [h2, hn]
  · cases he

/-- The bytes `encodeEntry` writes for a whole object. -/
theorem encodeEntry_of_isBase {o : GitObject} (h : o.kind.isBase) :
    encodeEntry o = .ok (entryHeader (UInt8.ofNat o.kind.packNumber) o.data.length ++
      Zlib.compress o.data) := by
  rw [encodeEntry, if_pos h]

theorem toNat_packNumber (k : ObjectKind) : (UInt8.ofNat k.packNumber).toNat = k.packNumber := by
  cases k <;> rfl

/-- **An entry written for a whole object is read back**: its kind, its content, and where the
next entry starts. -/
theorem RawEntry.read_encoded (pre rest : Bytes) (o : GitObject) (hbase : o.kind.isBase)
    (hsize : o.data.length < 2 ^ 60) :
    RawEntry.read (pre ++ (entryHeader (UInt8.ofNat o.kind.packNumber) o.data.length ++
        Zlib.compress o.data ++ rest)).toArray pre.length =
      .ok (some ⟨.base o.kind, o.data, pre.length +
        (entryHeader (UInt8.ofNat o.kind.packNumber) o.data.length).length +
        (Zlib.compress o.data).length⟩) := by
  have hlen := length_entryHeader_le (UInt8.ofNat o.kind.packNumber) o.data.length hsize
  have hwin : window (pre ++ (entryHeader (UInt8.ofNat o.kind.packNumber) o.data.length ++
      Zlib.compress o.data ++ rest)).toArray pre.length headerWindow =
      entryHeader (UInt8.ofNat o.kind.packNumber) o.data.length ++
        (Zlib.compress o.data ++ rest).take (headerWindow - (entryHeader (UInt8.ofNat o.kind.packNumber) o.data.length).length) := by
    rw [window_append, List.append_assoc, List.take_append, List.take_of_length_le (by unfold headerWindow; omega)]
  have hpk : o.kind.packNumber < 8 := by cases o.kind <;> decide
  have hz : pre ++ (entryHeader (UInt8.ofNat o.kind.packNumber) o.data.length ++
      Zlib.compress o.data ++ rest) =
      (pre ++ entryHeader (UInt8.ofNat o.kind.packNumber) o.data.length) ++
        (Zlib.compress o.data ++ rest) := by
    simp only [List.append_assoc]
  have hbase' : readBaseRef (pre ++ (entryHeader (UInt8.ofNat o.kind.packNumber) o.data.length ++
      Zlib.compress o.data ++ rest)).toArray pre.length
      (pre.length + (entryHeader (UInt8.ofNat o.kind.packNumber) o.data.length).length) o.kind =
      .ok (some (.base o.kind, pre.length + (entryHeader (UInt8.ofNat o.kind.packNumber) o.data.length).length)) := by
    cases h : o.kind <;> simp_all [ObjectKind.isBase, readBaseRef]
  simp only [RawEntry.read, hwin, readEntryHeader_entryHeader _ _ _ (by rw [toNat_packNumber]; exact hpk) hsize,
    toNat_packNumber, ObjectKind.ofPackNumber?_packNumber, hbase', bind, Except.bind]
  rw [hz, show pre.length + (entryHeader (UInt8.ofNat o.kind.packNumber) o.data.length).length =
    (pre ++ entryHeader (UInt8.ofNat o.kind.packNumber) o.data.length).length by simp,
    Zlib.readEntryAt_compress]
  rfl

/-- What `encodeEntry` accepts: a whole object, written as its header and compressed content. -/
theorem encodeEntry_eq_ok {o : GitObject} {b : Bytes} (h : encodeEntry o = .ok b) :
    o.kind.isBase ∧ b = entryHeader (UInt8.ofNat o.kind.packNumber) o.data.length ++
      Zlib.compress o.data := by
  unfold encodeEntry at h
  split at h
  · cases h; exact ⟨‹_›, rfl⟩
  · cases h

/-- **Entries written one after another are read back in order**, each a whole object made
from its kind and content, the waiting deltas untouched. -/
theorem readEntries_encoded (objs : List GitObject) (hsize : ∀ o ∈ objs, o.data.length < 2 ^ 60) :
    ∀ (bs : List Bytes), objs.mapM encodeEntry = .ok bs → ∀ (pre rest : Bytes) (p : Decoded),
      ∃ es : List PackEntry,
        Decoded.readEntries (pre ++ (bs.flatten ++ rest)).toArray objs.length pre.length p =
          .ok ({ p with entries := p.entries ++ es.toArray }, pre.length + bs.flatten.length) ∧
        es.map (·.object) = objs.map (fun o => GitObject.ofContent o.kind o.data) ∧
        ∀ e ∈ es, e.chain = 0 := by
  induction objs with
  | nil =>
    intro bs hbs pre rest p
    simp only [List.mapM_nil, pure, Except.pure, Except.ok.injEq] at hbs
    subst hbs
    refine ⟨[], ?_, rfl, by simp⟩
    simp [Decoded.readEntries]
  | cons o os ih =>
    intro bs hbs pre rest p
    simp only [List.mapM_cons, bind, Except.bind] at hbs
    split at hbs
    · cases hbs
    rename_i b hb
    split at hbs
    · cases hbs
    rename_i bs' hbs'
    simp only [pure, Except.pure, Except.ok.injEq] at hbs
    subst hbs
    obtain ⟨hbase, rfl⟩ := encodeEntry_eq_ok hb
    have hread := RawEntry.read_encoded pre (bs'.flatten ++ rest) o hbase (hsize o (by simp))
    obtain ⟨es, hes, hobj, hchain⟩ := ih (fun o' h => hsize o' (by simp [h])) bs' hbs'
      (pre ++ (entryHeader (UInt8.ofNat o.kind.packNumber) o.data.length ++ Zlib.compress o.data))
      rest { p with entries := p.entries.push ⟨pre.length, GitObject.ofContent o.kind o.data, 0⟩ }
    refine ⟨⟨pre.length, GitObject.ofContent o.kind o.data, 0⟩ :: es, ?_, by simp [hobj], ?_⟩
    · simp only [List.append_assoc, List.length_append, Nat.add_assoc] at hread hes
      rw [List.length_cons, Decoded.readEntries]
      simp only [List.flatten_cons, List.append_assoc, hread, bind, Except.bind, hes,
        List.length_append]
      congr 3
      simp
    · intro e he
      simp only [List.mem_cons] at he
      rcases he with rfl | he
      · rfl
      · exact hchain e he

/-- What `encode` writes: the fixed part, the entries, and the digest of both. -/
theorem encode_eq_ok {objs : List GitObject} {bytes : Bytes} (h : encode objs = .ok bytes) :
    ∃ hdr bs, Header.encode objs.length = .ok hdr ∧ objs.mapM encodeEntry = .ok bs ∧
      bytes = hdr ++ bs.flatten ++ Sha1.digest (hdr ++ bs.flatten) := by
  unfold encode at h
  simp only [bind, Except.bind] at h
  split at h
  · cases h
  rename_i hdr hhdr
  split at h
  · cases h
  rename_i bs hbs
  cases h
  exact ⟨hdr, bs, hhdr, hbs, rfl⟩

/-- **A written pack reads back** as its count, the digest of everything before the trailer,
and one whole object for each object written, in order, with no delta waiting. -/
theorem read_encode {objs : List GitObject} {bytes : Bytes} (h : encode objs = .ok bytes)
    (hsize : ∀ o ∈ objs, o.data.length < 2 ^ 60) :
    ∃ es : List PackEntry,
      read bytes = .ok ⟨objs.length, ObjectId.digest (bytes.take (bytes.length - idLength)),
        es.toArray, [], []⟩ ∧
      es.map (·.object) = objs.map (fun o => GitObject.ofContent o.kind o.data) ∧
      ∀ e ∈ es, e.chain = 0 := by
  obtain ⟨hdr, bs, hhdr, hbs, rfl⟩ := encode_eq_ok h
  have hhlen : hdr.length = headerLength := by
    unfold Header.encode at hhdr
    split at hhdr
    · cases hhdr; simp [headerLength]; decide +kernel
    · cases hhdr
  obtain ⟨es, hes, hobj, hchain⟩ := readEntries_encoded objs hsize bs hbs hdr []
    ⟨objs.length, ObjectId.digest (hdr ++ bs.flatten), #[], [], []⟩
  refine ⟨es, ?_, hobj, hchain⟩
  have hdig := Sha1.length_digest (hdr ++ bs.flatten)
  have hend : (hdr ++ (bs.flatten ++ Sha1.digest (hdr ++ bs.flatten))).length - idLength =
      headerLength + bs.flatten.length := by
    simp only [List.length_append, hdig, hhlen, idLength]; omega
  have htake : (hdr ++ (bs.flatten ++ Sha1.digest (hdr ++ bs.flatten))).take
      (headerLength + bs.flatten.length) = hdr ++ bs.flatten := by
    rw [← List.append_assoc, ← hhlen, ← List.length_append]
    exact List.take_left' rfl
  have hdrop : (hdr ++ (bs.flatten ++ Sha1.digest (hdr ++ bs.flatten))).drop
      (headerLength + bs.flatten.length) = Sha1.digest (hdr ++ bs.flatten) := by
    rw [← List.append_assoc, ← hhlen, ← List.length_append]
    exact List.drop_left' rfl
  have hlong : ¬ (hdr ++ (bs.flatten ++ Sha1.digest (hdr ++ bs.flatten))).length <
      headerLength + idLength := by
    simp only [List.length_append, hdig, hhlen, idLength]; omega
  have hid : ObjectId.ofBytes? (Sha1.digest (hdr ++ bs.flatten)) =
      .ok (ObjectId.digest (hdr ++ bs.flatten)) := by
    simp [ObjectId.ofBytes?, hdig, ObjectId.digest]
  have hparse := Header.parse_encode hhdr (bs.flatten ++ Sha1.digest (hdr ++ bs.flatten))
  simp only [List.append_nil, hhlen] at hes
  simp only [List.append_assoc, hend, htake]
  unfold read
  simp only [hparse, hend, htake, hdrop, hlong, hid, hes, bind, Except.bind, if_false,
    Except.mapError, ne_eq, not_true_eq_false]
  simp [pure, Except.pure]

/-! ## When writing fails, and the round trip -/

/-- Settling a pack with no delta waiting changes nothing. -/
theorem Decoded.settle_of_pending_nil {p : Decoded} (h : p.pending = []) : p.settle = .ok p := by
  cases p
  simp_all [Decoded.settle, Decoded.resolve, Decoded.round, pure, Except.pure, bind, Except.bind]

/-- **A written pack decodes** to one whole object per object written, in order. -/
theorem decode_of_encode {objs : List GitObject} {bytes : Bytes} (h : encode objs = .ok bytes)
    (hsize : ∀ o ∈ objs, o.data.length < 2 ^ 60) :
    ∃ es : List PackEntry,
      decode bytes = .ok ⟨objs.length, ObjectId.digest (bytes.take (bytes.length - idLength)),
        es.toArray, [], []⟩ ∧
      es.map (·.object) = objs.map (fun o => GitObject.ofContent o.kind o.data) ∧
      ∀ e ∈ es, e.chain = 0 := by
  obtain ⟨es, hread, hobj, hchain⟩ := read_encode h hsize
  refine ⟨es, ?_, hobj, hchain⟩
  simp only [decode, hread, bind, Except.bind]
  exact Decoded.settle_of_pending_nil rfl

theorem Header.encode_of_lt {count : Nat} (h : count < 2 ^ 32) :
    ∃ hdr, Header.encode count = .ok hdr :=
  ⟨_, by rw [Header.encode, if_pos (show count < Nat.pow 2 32 from h)]⟩

theorem Header.encode_of_le {count : Nat} (h : 2 ^ 32 ≤ count) :
    ∃ msg, Header.encode count = .error (.packEncode msg) :=
  ⟨_, by rw [Header.encode, if_neg (show ¬ count < Nat.pow 2 32 from Nat.not_lt.mpr h)]⟩

/-- Every list of whole objects has its entries written. -/
theorem mapM_encodeEntry_ok :
    ∀ {objs : List GitObject}, (∀ o ∈ objs, o.kind.isBase) → ∃ bs, objs.mapM encodeEntry = .ok bs
  | [], _ => ⟨[], rfl⟩
  | o :: objs, h => by
    obtain ⟨bs, hbs⟩ := mapM_encodeEntry_ok fun o' ho' => h o' (List.mem_cons_of_mem o ho')
    exact ⟨_ :: bs, by
      simp only [List.mapM_cons, encodeEntry_of_isBase (h o List.mem_cons_self), hbs, bind,
        Except.bind]; rfl⟩

/-- A delta among the objects stops the writing with an encoding error. -/
theorem mapM_encodeEntry_error :
    ∀ {objs : List GitObject}, (∃ o ∈ objs, o.kind.isBase = false) →
      ∃ msg, objs.mapM encodeEntry = .error (.packEncode msg)
  | o :: objs, ⟨o', ho', hdelta⟩ => by
    by_cases ho : o.kind.isBase
    · have hlater : o' ∈ objs := by
        rcases List.mem_cons.mp ho' with rfl | h
        · simp_all
        · exact h
      obtain ⟨msg, hmsg⟩ := mapM_encodeEntry_error ⟨o', hlater, hdelta⟩
      exact ⟨msg, by simp [List.mapM_cons, encodeEntry_of_isBase ho, hmsg, bind, Except.bind]⟩
    · exact ⟨_, by simp only [List.mapM_cons, encodeEntry, if_neg ho, bind, Except.bind]; rfl⟩

/-- What makes writing a pack fail: a delta among the objects, or too many objects. -/
abbrev EncodeRefused (objs : List GitObject) : Prop :=
  (∃ o ∈ objs, o.kind.isBase = false) ∨ 2 ^ 32 ≤ objs.length

theorem not_encodeRefused {objs : List GitObject} :
    ¬ EncodeRefused objs ↔ (∀ o ∈ objs, o.kind.isBase) ∧ objs.length < 2 ^ 32 := by
  simp only [EncodeRefused, not_or, not_exists, not_and, Bool.not_eq_false, Nat.not_le]

theorem encode_error_of_refused {objs : List GitObject} (h : EncodeRefused objs) :
    ∃ msg, encode objs = .error (.packEncode msg) := by
  by_cases hlen : 2 ^ 32 ≤ objs.length
  · obtain ⟨msg, hmsg⟩ := Header.encode_of_le hlen
    exact ⟨msg, by simp [encode, hmsg, bind, Except.bind]⟩
  · obtain ⟨hdr, hhdr⟩ := Header.encode_of_lt (Nat.lt_of_not_le hlen)
    obtain ⟨msg, hmsg⟩ := mapM_encodeEntry_error (h.resolve_right hlen)
    exact ⟨msg, by simp [encode, hhdr, hmsg, bind, Except.bind]⟩

theorem encode_ok_of_not_refused {objs : List GitObject} (h : ¬ EncodeRefused objs) :
    ∃ bytes, encode objs = .ok bytes := by
  rw [not_encodeRefused] at h
  obtain ⟨hdr, hhdr⟩ := Header.encode_of_lt h.2
  obtain ⟨bs, hbs⟩ := mapM_encodeEntry_ok h.1
  exact ⟨_, by simp only [encode, hhdr, hbs, bind, Except.bind]; rfl⟩

/-- **Packs round trip.** Writing a list of objects fails with an encoding error exactly when
one of them is a delta or there are `2 ^ 32` of them or more, and succeeds otherwise. A list of
whole objects, each filed under the id its content hashes to and smaller than `2 ^ 60` bytes,
fewer than `2 ^ 32` of them, is written to bytes that decode to a complete pack of that many
objects: the same objects in the same order, none through a delta, under the digest of the
bytes before the trailer. -/
theorem decode_encode_roundtrip (objs : List GitObject) :
    ((∃ msg, encode objs = .error (.packEncode msg)) ↔
        (∃ o ∈ objs, o.kind.isBase = false) ∨ 2 ^ 32 ≤ objs.length) ∧
    ((∃ bytes, encode objs = .ok bytes) ↔
        (∀ o ∈ objs, o.kind.isBase) ∧ objs.length < 2 ^ 32) ∧
    ((∀ o ∈ objs, o = GitObject.ofContent o.kind o.data ∧ o.kind.isBase ∧
        o.data.length < 2 ^ 60) → objs.length < 2 ^ 32 →
      ∃ bytes p, encode objs = .ok bytes ∧ decode bytes = .ok p ∧
        p.count = objs.length ∧ p.isComplete ∧
        p.entries.toList.map (·.object) = objs ∧ (∀ e ∈ p.entries, e.chain = 0) ∧
        p.signature = ObjectId.digest (bytes.take (bytes.length - idLength))) := by
  refine ⟨⟨fun ⟨msg, hmsg⟩ => ?_, encode_error_of_refused⟩, ⟨fun ⟨bytes, hbytes⟩ => ?_, ?_⟩, ?_⟩
  · by_contra hno
    obtain ⟨bytes, hbytes⟩ := encode_ok_of_not_refused hno
    simp [hbytes] at hmsg
  · rw [← not_encodeRefused]
    intro hrefused
    obtain ⟨msg, hmsg⟩ := encode_error_of_refused hrefused
    simp [hbytes] at hmsg
  · intro hok
    exact encode_ok_of_not_refused (not_encodeRefused.mpr hok)
  · intro hobjs hlen
    have hok : ¬ EncodeRefused objs :=
      not_encodeRefused.mpr ⟨fun o ho => (hobjs o ho).2.1, hlen⟩
    obtain ⟨bytes, hbytes⟩ := encode_ok_of_not_refused hok
    obtain ⟨es, hdec, hobj, hchain⟩ := decode_of_encode hbytes fun o ho => (hobjs o ho).2.2
    have hsame : objs.map (fun o => GitObject.ofContent o.kind o.data) = objs := by
      conv_rhs => rw [← List.map_id objs]
      exact List.map_congr_left fun o ho => ((hobjs o ho).1).symm
    refine ⟨bytes, _, hbytes, hdec, rfl, rfl, ?_, fun e he => hchain e (by simpa using he), rfl⟩
    simpa [hsame] using hobj

/-- A pack of one empty blob round trips. -/
theorem decode_encode_empty_blob :
    ∃ bytes p, encode [GitObject.ofContent .blob []] = .ok bytes ∧ decode bytes = .ok p ∧
      p.count = 1 ∧ p.isComplete ∧
      p.entries.toList.map (·.object) = [GitObject.ofContent .blob []] ∧
      (∀ e ∈ p.entries, e.chain = 0) ∧
      p.signature = ObjectId.digest (bytes.take (bytes.length - idLength)) :=
  (decode_encode_roundtrip _).2.2 (by simp [GitObject.ofContent, ObjectKind.isBase]) (by decide)

end GitServer.Pack
