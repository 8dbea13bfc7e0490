import GitServer.Proofs.Pack.Scanner

/-!
# The two numbers at the start of a pack entry

An entry header holds a size in seven-bit groups after a first group of four bits, least
significant first. The distance from an offset delta to its base is spelt the other way
round, most significant group first, and every group before the last is stored less one, so
that each distance has one spelling (`distanceBytes`, Git's offset encoding).

Main statements:
* a header reads back as its kind and size, a proper prefix of it as missing, and a size of
  60 bits or more as the overflow error (`readEntryHeader_overflow`);
* a distance reads back when it is below `2 ^ 64`, and as the overflow error otherwise
  (`readBaseDistance_distanceBytes`); a proper prefix of its spelling is the spelling of the
  groups read so far, all continued (`prefix_distanceBytes`), and reads as missing exactly when
  those groups spell less than `2 ^ 64`: so a prefix of a distance too wide for 64 bits is
  refused once it is itself too wide, before the distance ends;
* an offset delta at offset `o` with distance `v` names the entry at `o - v`, and is refused
  when `v` is zero or larger than `o` (`RawEntry.read_ofsDelta`).
-/

namespace GitServer.Pack

/-! ## Sizes of 60 bits and more -/

theorem sizeGroups_ne_nil (m : Nat) : sizeGroups m ≠ [] := by
  rw [sizeGroups]
  split <;> simp

/-- Size groups that reach bit 60 are refused at the group that starts at bit 60 or above. -/
theorem go_sizeGroups_overflow (t : Nat) (rest : Bytes) :
    ∀ (m acc shift len : Nat), shift % 7 = 4 → 2 ^ 60 ≤ m * 2 ^ shift →
      readEntryHeader.go t acc shift len (sizeGroups m ++ rest) =
        .error (.invalidPack "entry size overflow") := by
  intro m
  induction m using Nat.strongRecOn with
  | ind m ih =>
    intro acc shift len hmod hbound
    obtain ⟨b, bs, hgroups⟩ := List.exists_cons_of_ne_nil (sizeGroups_ne_nil m)
    by_cases hshift : 57 ≤ shift
    · rw [hgroups, List.cons_append, readEntryHeader.go, if_pos hshift]
    -- below bit 57 the group is a continuation, and the rest still reaches bit 60
    have hpow : 2 ^ 60 = 2 ^ (53 - shift) * 128 * 2 ^ shift := by
      rw [show (128 : Nat) = 2 ^ 7 from rfl, ← Nat.pow_add, ← Nat.pow_add]
      congr 1
      omega
    have hm : 2 ^ (53 - shift) * 128 ≤ m :=
      Nat.le_of_mul_le_mul_right (hpow ▸ hbound) (Nat.two_pow_pos shift)
    have hbig : ¬ m < 128 := by
      have := Nat.one_le_two_pow (n := 53 - shift)
      omega
    have hb : (UInt8.ofNat (m % 128 + 128)).toNat = m % 128 + 128 := by
      simp only [UInt8.toNat_ofNat']
      omega
    have hbound' : 2 ^ 60 ≤ m / 128 * 2 ^ (shift + 7) := by
      have hdiv : 2 ^ (53 - shift) ≤ m / 128 := (Nat.le_div_iff_mul_le (by decide)).mpr hm
      calc 2 ^ 60 = 2 ^ (53 - shift) * 2 ^ (shift + 7) := by rw [← Nat.pow_add]; congr 1; omega
        _ ≤ m / 128 * 2 ^ (shift + 7) := Nat.mul_le_mul_right _ hdiv
    rw [sizeGroups, if_neg hbig, List.cons_append, readEntryHeader.go, if_neg hshift]
    dsimp only
    rw [if_neg (by rw [UInt8.lt_iff_toNat_lt, hb]; show ¬ (m % 128 + 128 < 128); omega)]
    exact ih (m / 128) (by omega) _ _ _ (by omega) hbound'

/-- **A size of 60 bits or more is refused**, whatever kind number and bytes come with it,
rather than read as a wrong size. -/
theorem readEntryHeader_overflow (t : UInt8) (size : Nat) (rest : Bytes) (hsize : 2 ^ 60 ≤ size) :
    readEntryHeader (entryHeader t size ++ rest) = .error (.invalidPack "entry size overflow") := by
  unfold entryHeader
  dsimp only
  rw [if_neg (by omega), List.cons_append, readEntryHeader]
  have hcont : 128 ≤ ((t <<< 4 ||| UInt8.ofNat (size % 16)) ||| 0x80).toNat := by
    rw [UInt8.toNat_or]
    exact Nat.right_le_or
  rw [if_neg (by rw [UInt8.lt_iff_toNat_lt]; show ¬ (_ < 128); omega)]
  exact go_sizeGroups_overflow _ _ _ _ _ _ rfl (by omega)

/-- A proper prefix of an entry header reads as missing. -/
theorem prefix_readEntryHeader_none {t : UInt8} {size : Nat} {p : Bytes} (ht : t.toNat < 8)
    (hsize : size < 2 ^ 60) (hp : p <+: entryHeader t size)
    (hshort : p.length < (entryHeader t size).length) : readEntryHeader p = .ok none := by
  have hfull := readEntryHeader_entryHeader t size [] ht hsize
  rw [List.append_nil] at hfull
  rw [(readEntryHeader_cut hp).eq_of_some (fun _ => readEntryHeader_within) hfull,
    if_neg (Nat.not_le.mpr hshort)]

/-! ## Base distances -/

/-- The groups of a base distance before its last one, given the distance divided by 128:
most significant first, each stored less one and with the continuation bit. -/
def distanceLead : Nat → Bytes
  | 0 => []
  | q + 1 => distanceLead (q / 128) ++ [UInt8.ofNat (q % 128 + 128)]

/-- A base distance in Git's offset encoding: its seven-bit groups, most significant first,
every group before the last stored less one and with the continuation bit. -/
def distanceBytes (v : Nat) : Bytes := distanceLead (v / 128) ++ [UInt8.ofNat (v % 128)]

theorem toNat_continued {n : Nat} (h : n < 128) : (UInt8.ofNat (n + 128)).toNat = n + 128 := by
  rw [UInt8.toNat_ofNat']
  omega

/-- **The continued groups of a distance read as the number they spell**: reading them leaves
the reader at that number, ready for more groups, unless the number passes `2 ^ 64`, which is
refused at the group that passes it. -/
theorem readBaseDistance_distanceLead : ∀ (p : Nat) (tail : Bytes),
    readBaseDistance (distanceLead (p + 1) ++ tail) =
      if p < 2 ^ 64 then readBaseDistance.go p (distanceLead (p + 1)).length tail
      else .error (.invalidPack "delta offset overflow") := by
  intro p
  induction p using Nat.strongRecOn with
  | ind p ih =>
    intro tail
    have hb := toNat_continued (Nat.mod_lt p (by decide : 0 < 128))
    rw [distanceLead]
    rcases hq : p / 128 with _ | r
    · -- one group: the first byte, continued
      have hp : p < 128 := by omega
      rw [distanceLead, List.nil_append, List.singleton_append, readBaseDistance,
        if_neg (by rw [UInt8.lt_iff_toNat_lt, hb]; show ¬ (p % 128 + 128 < 128); omega),
        if_pos (by omega), hb]
      simp only [List.length_singleton]
      congr 1
      omega
    · -- the groups of `p / 128 - 1`, then one more
      have hr : r < p := by omega
      rw [List.append_assoc, List.singleton_append, ih r hr]
      have hval : (r + 1) * 128 + (UInt8.ofNat (p % 128 + 128)).toNat % 128 = p := by
        rw [hb]
        omega
      by_cases hrsmall : r < 2 ^ 64
      · rw [if_pos hrsmall, readBaseDistance.go]
        -- the check before the new group is the check that `p` stays below `2 ^ 64`
        by_cases hp : p < 2 ^ 64
        · rw [if_neg (by show ¬ ((r + 1) * 128 ≥ Nat.pow 2 64); rw [Nat.pow_eq]; omega), if_pos hp]
          dsimp only
          rw [if_neg (by rw [UInt8.lt_iff_toNat_lt, hb]; show ¬ (p % 128 + 128 < 128); omega), hval,
            List.length_append, List.length_singleton]
        · rw [if_pos (by show (r + 1) * 128 ≥ Nat.pow 2 64; rw [Nat.pow_eq]; omega), if_neg hp]
      · rw [if_neg hrsmall, if_neg (by omega)]

/-- **A distance reads back when it is below `2 ^ 64`**, with the length of its spelling and
whatever follows, and is refused as too wide otherwise. -/
theorem readBaseDistance_distanceBytes (v : Nat) (rest : Bytes) :
    readBaseDistance (distanceBytes v ++ rest) =
      if v < 2 ^ 64 then .ok (some (v, (distanceBytes v).length))
      else .error (.invalidPack "delta offset overflow") := by
  have hlast : (UInt8.ofNat (v % 128)).toNat = v % 128 := by
    rw [UInt8.toNat_ofNat']
    omega
  have hfinal : UInt8.ofNat (v % 128) < 0x80 := by
    rw [UInt8.lt_iff_toNat_lt, hlast]
    exact Nat.mod_lt v (by decide)
  unfold distanceBytes
  rcases hq : v / 128 with _ | p
  · -- a distance below 128 is its one byte
    rw [distanceLead, List.nil_append, List.singleton_append, readBaseDistance, if_pos hfinal,
      if_pos (by omega), hlast, Nat.mod_eq_of_lt (by omega)]
    rfl
  · rw [List.append_assoc, List.singleton_append, readBaseDistance_distanceLead]
    by_cases hp : p < 2 ^ 64
    · rw [if_pos hp, readBaseDistance.go]
      by_cases hv : v < 2 ^ 64
      · rw [if_neg (by show ¬ ((p + 1) * 128 ≥ Nat.pow 2 64); rw [Nat.pow_eq]; omega), if_pos hv]
        dsimp only
        rw [if_pos hfinal, hlast, List.length_append, List.length_singleton]
        congr 3
        omega
      · rw [if_pos (by show (p + 1) * 128 ≥ Nat.pow 2 64; rw [Nat.pow_eq]; omega), if_neg hv]
    · rw [if_neg hp, if_neg (by omega)]

/-- The continued groups alone read as missing while they spell less than `2 ^ 64`. -/
theorem readBaseDistance_distanceLead_self (u : Nat) :
    readBaseDistance (distanceLead u) =
      if u ≤ 2 ^ 64 then .ok none else .error (.invalidPack "delta offset overflow") := by
  rcases u with _ | p
  · rw [distanceLead, if_pos (by omega)]
    rfl
  · have h := readBaseDistance_distanceLead p []
    rw [List.append_nil] at h
    rw [h]
    by_cases hp : p < 2 ^ 64
    · rw [if_pos hp, if_pos (by omega)]
      rfl
    · rw [if_neg hp, if_neg (by omega)]

/-- A beginning of the continued groups of a distance is the continued groups of a smaller
one. -/
theorem prefix_distanceLead : ∀ (q : Nat) {p : Bytes}, p <+: distanceLead q →
    ∃ u ≤ q, p = distanceLead u := by
  intro q
  induction q using Nat.strongRecOn with
  | ind q ih =>
    intro p hp
    rcases q with _ | r
    · rw [distanceLead] at hp
      exact ⟨0, le_refl 0, by rw [distanceLead]; exact List.eq_nil_of_prefix_nil hp⟩
    · rw [distanceLead, List.prefix_concat_iff] at hp
      rcases hp with heq | hshorter
      · exact ⟨r + 1, le_refl _, by rw [heq, distanceLead]⟩
      · obtain ⟨u, hu, rfl⟩ := ih (r / 128) (by omega) hshorter
        exact ⟨u, by omega, rfl⟩

/-- **A proper prefix of a distance's spelling is the continued groups of a number of at most
the distance divided by 128.** -/
theorem prefix_distanceBytes {v : Nat} {p : Bytes} (hp : p <+: distanceBytes v)
    (hshort : p.length < (distanceBytes v).length) : ∃ u ≤ v / 128, p = distanceLead u := by
  rw [distanceBytes, List.prefix_concat_iff] at hp
  rcases hp with heq | hlead
  · rw [heq, ← distanceBytes] at hshort
    exact absurd hshort (lt_irrefl _)
  · exact prefix_distanceLead _ hlead

/-- A proper prefix of the spelling of a distance below `2 ^ 64` reads as missing. -/
theorem prefix_readBaseDistance_none {v : Nat} {p : Bytes} (hv : v < 2 ^ 64)
    (hp : p <+: distanceBytes v) (hshort : p.length < (distanceBytes v).length) :
    readBaseDistance p = .ok none := by
  obtain ⟨u, hu, rfl⟩ := prefix_distanceBytes hp hshort
  rw [readBaseDistance_distanceLead_self, if_pos (by omega)]

/-- A distance below `2 ^ 64` is spelt in at most ten bytes. -/
theorem length_distanceLead_le (k : Nat) : ∀ q, q < 128 ^ k → (distanceLead q).length ≤ k := by
  induction k with
  | zero =>
    intro q hq
    rw [show q = 0 by simpa using hq, distanceLead]
    rfl
  | succ k ih =>
    intro q hq
    rcases q with _ | r
    · simp [distanceLead]
    · rw [distanceLead, List.length_append, List.length_singleton]
      have := ih (r / 128) (by rw [Nat.pow_succ] at hq; omega)
      omega

theorem length_distanceBytes_le {v : Nat} (hv : v < 2 ^ 64) : (distanceBytes v).length ≤ 10 := by
  rw [distanceBytes, List.length_append, List.length_singleton]
  have := length_distanceLead_le 9 (v / 128) (by
    rw [show (128 : Nat) ^ 9 = 2 ^ 63 from rfl]
    omega)
  omega

/-! ## Offset deltas -/

/-- An entry whose base reference is refused is refused with the same error. -/
theorem RawEntry.read_of_baseRef_error {data : Array UInt8} {offset typeId size hl : Nat}
    {kind : ObjectKind} {e : CodecError}
    (hh : readEntryHeader (window data offset headerWindow) = .ok (some (typeId, size, hl)))
    (hk : ObjectKind.ofPackNumber? typeId = some kind)
    (hb : readBaseRef data offset (offset + hl) kind = .error e) :
    RawEntry.read data offset = .error e := by
  simp only [RawEntry.read, hh, hk, hb, bind, Except.bind]

section ofsDelta

variable (pre rest : Bytes) (size v : Nat)

/-- The bytes of a pack with, after `pre`, an offset delta entry of content size `size`
whose base is `v` bytes back. -/
abbrev ofsDeltaPack : Array UInt8 :=
  (pre ++ (entryHeader 6 size ++ (distanceBytes v ++ rest))).toArray

/-- Where the compressed content of that entry starts. -/
abbrev ofsDeltaContent : Nat :=
  pre.length + (entryHeader 6 size).length + (distanceBytes v).length

variable {pre rest size v}

/-- The base reference of an offset delta names the entry `v` bytes back, and is refused
when that is no entry: a zero distance or one past the start of the pack. -/
theorem readBaseRef_ofsDelta (hv : v < 2 ^ 64) :
    readBaseRef (ofsDeltaPack pre rest size v) pre.length
        (pre.length + (entryHeader 6 size).length) .ofsDelta =
      if v = 0 ∨ pre.length < v then .error (.invalidPack s!"bad delta base offset at {pre.length}")
      else .ok (some (.ofsDelta (pre.length - v), ofsDeltaContent pre size v)) := by
  have hlen := length_distanceBytes_le hv
  have hwin : window (ofsDeltaPack pre rest size v) (pre.length + (entryHeader 6 size).length)
      headerWindow = distanceBytes v ++ rest.take (headerWindow - (distanceBytes v).length) := by
    have h := window_append (pre ++ entryHeader 6 size) (distanceBytes v ++ rest) headerWindow
    rw [List.append_assoc, List.length_append] at h
    rw [ofsDeltaPack, h, List.take_append, List.take_of_length_le (by unfold headerWindow; omega)]
  simp only [readBaseRef, hwin, readBaseDistance_distanceBytes, if_pos hv, bind, Except.bind]
  split_ifs with hbad
  · rfl
  · rfl

/-- **An offset delta names the entry `v` bytes back**: read at offset `o`, it is refused when
`v` is zero or larger than `o`, whatever its content, and otherwise is read as a delta against
the entry at `o - v` with its inflated content. -/
theorem RawEntry.read_ofsDelta (hsize : size < 2 ^ 60) (hv : v < 2 ^ 64) :
    (v = 0 ∨ pre.length < v → RawEntry.read (ofsDeltaPack pre rest size v) pre.length =
        .error (.invalidPack s!"bad delta base offset at {pre.length}")) ∧
    (0 < v → v ≤ pre.length → ∀ content consumed,
      Zlib.readEntryAt (ofsDeltaPack pre rest size v) (ofsDeltaContent pre size v) size =
        .ok (.complete content consumed) →
      RawEntry.read (ofsDeltaPack pre rest size v) pre.length =
        .ok (some ⟨.ofsDelta (pre.length - v), content,
          ofsDeltaContent pre size v + consumed⟩)) := by
  have hheader : readEntryHeader (window (ofsDeltaPack pre rest size v) pre.length headerWindow) =
      .ok (some (6, size, (entryHeader 6 size).length)) := by
    have hlen := length_entryHeader_le 6 size hsize
    rw [ofsDeltaPack, window_append, List.take_append,
      List.take_of_length_le (by unfold headerWindow; omega),
      readEntryHeader_entryHeader 6 size _ (by decide) hsize]
    rfl
  have hkind : ObjectKind.ofPackNumber? 6 = some .ofsDelta := rfl
  have hbase := @readBaseRef_ofsDelta pre rest size v hv
  constructor
  · intro hbad
    rw [if_pos hbad] at hbase
    exact RawEntry.read_of_baseRef_error hheader hkind hbase
  · intro hpos hle content consumed hz
    rw [if_neg (by omega)] at hbase
    exact RawEntry.read_of_complete hheader hkind hbase hz

end ofsDelta

/-! ## The numbers of an entry together -/

/-- **The numbers at the start of an entry read exactly.** An entry header with a kind number
below 8 and a size below `2 ^ 60` reads back whatever follows it, each proper prefix of it
reads as missing, and a size of `2 ^ 60` or more is refused. A base distance reads back when
below `2 ^ 64` and is refused otherwise; a proper prefix of its spelling is the continued
groups of some `u`, read as missing when `u ≤ 2 ^ 64` and refused otherwise, hence missing
whenever the distance is below `2 ^ 64`. An offset delta at offset `o` with distance `v` is
refused when `v = 0` or `v > o`, and otherwise is a delta against the entry at `o - v`. -/
theorem entryNumbers_read_exactly :
    (∀ (t : UInt8) (size : Nat) (rest : Bytes), t.toNat < 8 → size < 2 ^ 60 →
      readEntryHeader (entryHeader t size ++ rest) =
        .ok (some (t.toNat, size, (entryHeader t size).length))) ∧
    (∀ (t : UInt8) (size : Nat) (p : Bytes), t.toNat < 8 → size < 2 ^ 60 →
      p <+: entryHeader t size → p.length < (entryHeader t size).length →
        readEntryHeader p = .ok none) ∧
    (∀ (t : UInt8) (size : Nat) (rest : Bytes), 2 ^ 60 ≤ size →
      readEntryHeader (entryHeader t size ++ rest) = .error (.invalidPack "entry size overflow")) ∧
    (∀ (v : Nat) (rest : Bytes), readBaseDistance (distanceBytes v ++ rest) =
      if v < 2 ^ 64 then .ok (some (v, (distanceBytes v).length))
      else .error (.invalidPack "delta offset overflow")) ∧
    (∀ (v : Nat) (p : Bytes), p <+: distanceBytes v → p.length < (distanceBytes v).length →
      ∃ u ≤ v / 128, p = distanceLead u ∧
        readBaseDistance p =
          if u ≤ 2 ^ 64 then .ok none else .error (.invalidPack "delta offset overflow")) ∧
    (∀ (v : Nat) (p : Bytes), v < 2 ^ 64 → p <+: distanceBytes v →
      p.length < (distanceBytes v).length → readBaseDistance p = .ok none) ∧
    (∀ (pre rest : Bytes) (size v : Nat), size < 2 ^ 60 → v < 2 ^ 64 →
      (v = 0 ∨ pre.length < v → RawEntry.read (ofsDeltaPack pre rest size v) pre.length =
          .error (.invalidPack s!"bad delta base offset at {pre.length}")) ∧
      (0 < v → v ≤ pre.length → ∀ content consumed,
        Zlib.readEntryAt (ofsDeltaPack pre rest size v) (ofsDeltaContent pre size v) size =
          .ok (.complete content consumed) →
        RawEntry.read (ofsDeltaPack pre rest size v) pre.length =
          .ok (some ⟨.ofsDelta (pre.length - v), content,
            ofsDeltaContent pre size v + consumed⟩))) :=
  ⟨fun t size rest ht hsize => readEntryHeader_entryHeader t size rest ht hsize,
   fun _ _ _ ht hsize hp hshort => prefix_readEntryHeader_none ht hsize hp hshort,
   fun t size rest hsize => readEntryHeader_overflow t size rest hsize,
   readBaseDistance_distanceBytes,
   fun _ _ hp hshort => by
     obtain ⟨u, hu, rfl⟩ := prefix_distanceBytes hp hshort
     exact ⟨u, hu, rfl, readBaseDistance_distanceLead_self u⟩,
   fun _ _ hv hp hshort => prefix_readBaseDistance_none hv hp hshort,
   fun _ _ _ _ hsize hv => RawEntry.read_ofsDelta hsize hv⟩

/-- An offset delta at the very start of a pack, one byte back, names no entry. -/
theorem entryNumbers_read_exactly_firstEntry :
    0 < 2 ^ 60 ∧ 1 < 2 ^ 64 ∧
      RawEntry.read (ofsDeltaPack [] [] 0 1) 0 =
        .error (.invalidPack "bad delta base offset at 0") :=
  ⟨by decide, by decide, (entryNumbers_read_exactly.2.2.2.2.2.2 [] [] 0 1 (by decide) (by decide)).1
    (.inr (by decide))⟩

/-- **A distance too wide for 64 bits is refused before it ends**: the first ten of the
eleven bytes of `2 ^ 72` already spell more than `2 ^ 64` and are refused, where a reader that
waits for the rest would answer missing. -/
theorem overlong_distance_prefix_refused :
    distanceLead (2 ^ 65) <+: distanceBytes (2 ^ 72) ∧
      (distanceLead (2 ^ 65)).length < (distanceBytes (2 ^ 72)).length ∧
      readBaseDistance (distanceLead (2 ^ 65)) = .error (.invalidPack "delta offset overflow") := by
  have hspell : distanceBytes (2 ^ 72) = distanceLead (2 ^ 65) ++ [0] := by
    rw [distanceBytes]
    norm_num
    rfl
  refine ⟨hspell ▸ List.prefix_append _ _, by rw [hspell]; simp, ?_⟩
  rw [readBaseDistance_distanceLead_self, if_neg (by norm_num)]

end GitServer.Pack
