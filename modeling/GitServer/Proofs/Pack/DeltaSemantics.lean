import GitServer.Pack.Delta
import GitServer.Proofs.Except
import Mathlib
/-!
# What a delta means

A delta is read here as a grammar, the way the format is described rather than the way the
reader walks it. It is two sizes, each spelt in groups of seven bits, least significant first,
with the high bit set on every group but the last (`Groups`), then instructions (`Instr`): a
byte from 1 to 127 inserts that many following bytes, and a byte with its high bit set copies
a range of the base, the bytes of whose offset and length follow it at the positions that
bits 0 to 3 and bits 4 to 6 of the byte mark (`present`, `scatter`), a length of zero standing
for 65536 (`copyLength`).

The main statement, `apply_eq_ok_iff`: applying a delta succeeds with `r` exactly when the
delta reads as a base size equal to the base's length, a result size equal to the length of
`r`, and instructions that stay inside the base and write `r` one after another. The sizes are
read as a 64-bit reader reads them, from at most ten groups and modulo 2^64 (`Groups64`): read
as unbounded numbers, the grammar also admits a size spelt in eleven groups, which `apply`
refuses (`overlong_size_refused`).
-/

namespace GitServer.Delta

/-! ## The grammar -/

/-- A size spelt in groups of seven bits, least significant first, the high bit set on every
group but the last, with its value as an unbounded number. -/
inductive Groups : Bytes → Nat → Prop
  | last {b : UInt8} : b.toNat < 128 → Groups [b] b.toNat
  | more {b : UInt8} {g : Bytes} {v : Nat} :
      128 ≤ b.toNat → Groups g v → Groups (b :: g) (b.toNat % 128 + 128 * v)

/-- A size as a 64-bit reader takes it: at most ten groups, the value modulo 2^64. -/
def Groups64 (g : Bytes) (n : Nat) : Prop :=
  ∃ v, Groups g v ∧ g.length ≤ 10 ∧ n = v % 2 ^ 64

/-- The byte positions, among `width` from bit `first` of the opcode on, whose bit is set:
where the bytes of a copy operand that are present go. -/
def present (op : UInt8) (first width : Nat) : List Nat :=
  (List.range width).filter fun k => op.toNat.testBit (first + k)

/-- The little-endian number with the given bytes at the given positions and zeros
elsewhere. -/
def scatter (positions : List Nat) (bytes : Bytes) : Nat :=
  ((positions.zip bytes).map fun p => p.2.toNat * 256 ^ p.1).sum

/-- The length that a copy operand stands for: zero means 65536. -/
def copyLength (n : Nat) : Nat := if n = 0 then 0x10000 else n

/-- One instruction of a delta against `base`, and what it writes. -/
inductive Instr (base : Bytes) : Bytes → Bytes → Prop
  /-- A byte from 1 to 127 inserts that many following bytes. -/
  | insert {op : UInt8} {data : Bytes} :
      0 < op.toNat → op.toNat < 128 → data.length = op.toNat → Instr base (op :: data) data
  /-- A byte with its high bit set copies `size` bytes of the base from `offset`; the bytes of
  the offset that are present follow it, then those of the size. -/
  | copy {op : UInt8} {off len : Bytes} {offset size : Nat} :
      128 ≤ op.toNat →
      off.length = (present op 0 4).length → offset = scatter (present op 0 4) off →
      len.length = (present op 4 3).length → size = copyLength (scatter (present op 4 3) len) →
      offset + size ≤ base.length →
      Instr base (op :: (off ++ len)) ((base.drop offset).take size)

/-- Instructions one after another, and the concatenation of what they write. -/
inductive Instrs (base : Bytes) : Bytes → Bytes → Prop
  | nil : Instrs base [] []
  | cons {i rest out more : Bytes} :
      Instr base i out → Instrs base rest more → Instrs base (i ++ rest) (out ++ more)

/-- A delta read against `base`, its sizes read by `Size`: the size of the base, the size of
the result, and instructions that write the result. -/
def Yields (Size : Bytes → Nat → Prop) (base delta result : Bytes) : Prop :=
  ∃ g₁ g₂ body, delta = g₁ ++ g₂ ++ body ∧ Size g₁ base.length ∧ Size g₂ result.length ∧
    Instrs base body result

/-! ## Sizes -/

theorem Groups.ne_nil {g : Bytes} {v : Nat} (h : Groups g v) : g ≠ [] := by
  cases h <;> simp

/-- Reading the groups of a size as its `k`-th group on, with `acc` read before them, ends
right after them. -/
theorem readSize_groups {g : Bytes} {v : Nat} (hg : Groups g v) :
    ∀ (k acc : Nat) (rest : Bytes), k + g.length ≤ 10 →
      readSize (7 * k) acc (g ++ rest) = .ok ((acc + v * 2 ^ (7 * k)) % 2 ^ 64, rest) := by
  induction hg with
  | @last b hb =>
    intro k acc rest hk
    have hshift : ¬ 64 ≤ 7 * k := by simp only [List.length_singleton] at hk; omega
    have hlt : b < 128 := UInt8.lt_iff_toNat_lt.mpr hb
    simp [readSize, hshift, hlt, Nat.mod_eq_of_lt hb]
  | @more b g v hb hg ih =>
    intro k acc rest hk
    simp only [List.length_cons] at hk
    have hshift : ¬ 64 ≤ 7 * k := by omega
    have hge : ¬ b < 128 := fun h => by simp [UInt8.lt_iff_toNat_lt] at h; omega
    have hnext := ih (k + 1) (acc + b.toNat % 128 * 2 ^ (7 * k)) rest (by omega)
    rw [List.cons_append, readSize, if_neg hshift]
    simp only [Nat.pow_eq, if_neg hge]
    rw [show 7 * k + 7 = 7 * (k + 1) by ring, hnext]
    -- the group's bits and the value of the later groups, shifted past it
    congr 3
    rw [show 7 * (k + 1) = 7 * k + 7 by ring, pow_add]
    ring

/-- What reading a size from its `k`-th group on takes: the groups of a size, of at most ten
groups in all. -/
theorem groups_of_readSize :
    ∀ {s : Bytes} {k acc n : Nat} {rest : Bytes}, readSize (7 * k) acc s = .ok (n, rest) →
      ∃ g v, s = g ++ rest ∧ Groups g v ∧ k + g.length ≤ 10 ∧
        n = (acc + v * 2 ^ (7 * k)) % 2 ^ 64
  | [], _, _, _, _, h => by simp [readSize] at h
  | b :: s, k, acc, n, rest, h => by
    rw [readSize] at h
    split at h
    · cases h
    · rename_i hshift
      simp only [Nat.pow_eq] at h
      split at h
      · rename_i hlt
        have hb : b.toNat < 128 := UInt8.lt_iff_toNat_lt.mp hlt
        cases h
        refine ⟨[b], b.toNat, rfl, .last hb, by simp; omega, ?_⟩
        rw [Nat.mod_eq_of_lt hb]
      · rename_i hge
        have hb : 128 ≤ b.toNat := by simp [UInt8.lt_iff_toNat_lt] at hge; omega
        rw [show 7 * k + 7 = 7 * (k + 1) by ring] at h
        obtain ⟨g, v, rfl, hg, hk, rfl⟩ := groups_of_readSize h
        refine ⟨b :: g, _, rfl, .more hb hg, by simp; omega, ?_⟩
        congr 1
        rw [show 7 * (k + 1) = 7 * k + 7 by ring, pow_add]
        ring

/-- **A size is read from the groups that spell it**, as a 64-bit number. -/
theorem readSize_eq_ok_iff {s rest : Bytes} {n : Nat} :
    readSize 0 0 s = .ok (n, rest) ↔ ∃ g, s = g ++ rest ∧ Groups64 g n := by
  constructor
  · intro h
    obtain ⟨g, v, rfl, hg, hk, rfl⟩ := groups_of_readSize (k := 0) h
    exact ⟨g, rfl, v, hg, by omega, by simp⟩
  · rintro ⟨g, rfl, v, hg, hk, rfl⟩
    simpa using readSize_groups hg 0 0 rest (by omega)

/-! ## Copy operands -/

/-- Reading the positions `ks` of a partial number takes one byte for each position whose bit
is set in the mask, in order, and puts it at that position. -/
theorem foldlM_partialByte {mask : Nat} {s : Bytes} :
    ∀ (ks : List Nat) (v : Nat) (cur : { r : Bytes // r.length ≤ s.length }) {v' : Nat}
      {r : { r : Bytes // r.length ≤ s.length }},
      ks.foldlM (partialByte mask s) (v, cur) = .ok (v', r) ↔
        ∃ fields, cur.1 = fields ++ r.1 ∧ fields.length = (ks.filter mask.testBit).length ∧
          v' = v + scatter (ks.filter mask.testBit) fields
  | [], v, cur, v', r => by
    simp only [List.foldlM_nil, List.filter_nil, List.length_nil, List.length_eq_zero_iff]
    constructor
    · intro h
      cases h
      exact ⟨[], rfl, rfl, by simp [scatter]⟩
    · rintro ⟨fields, hcur, rfl, rfl⟩
      simp only [List.nil_append] at hcur
      simp [Subtype.ext hcur, pure, Except.pure]
  | k :: ks, v, cur, v', r => by
    rw [List.foldlM_cons, Except.bind_eq_ok]
    by_cases hk : mask.testBit k
    · obtain ⟨cs, hcs⟩ := cur
      cases cs with
      | nil =>
        -- the stream has ended where a byte is present
        simp only [partialByte, hk, if_true]
        constructor
        · rintro ⟨acc, hacc, -⟩
          cases hacc
        · rintro ⟨fields, hcur, hlen, -⟩
          simp only [List.filter_cons, hk, if_true, List.length_cons] at hlen
          cases fields with
          | nil => simp at hlen
          | cons b fs => simp at hcur
      | cons b rest =>
        have hstep : partialByte mask s (v, ⟨b :: rest, hcs⟩) k =
            .ok (v + b.toNat * 256 ^ k, ⟨rest, by simp at hcs; omega⟩) := by
          simp [partialByte, hk]
        simp only [hstep, Except.ok.injEq, exists_eq_left', foldlM_partialByte ks,
          List.filter_cons, hk, if_true]
        constructor
        · rintro ⟨fields, hrest, hlen, rfl⟩
          refine ⟨b :: fields, by simp [hrest], by simp [hlen], ?_⟩
          simp [scatter]
          ring
        · rintro ⟨fields, hcur, hlen, rfl⟩
          cases fields with
          | nil => simp at hlen
          | cons b' fs =>
            simp only [List.cons_append, List.cons.injEq] at hcur
            obtain ⟨rfl, hrest⟩ := hcur
            refine ⟨fs, hrest, by simpa using hlen, ?_⟩
            simp [scatter]
            ring
    · have hstep : partialByte mask s (v, cur) k = .ok (v, cur) := by simp [partialByte, hk]
      simp only [hstep, Except.ok.injEq, exists_eq_left', foldlM_partialByte ks, List.filter_cons,
        hk, Bool.false_eq_true, if_false]

/-- **A partial number is read from the bytes present**, put at the positions whose bit is set
in the mask. -/
theorem readPartial_eq_ok_iff {mask width : Nat} {s : Bytes} {v : Nat}
    {r : { r : Bytes // r.length ≤ s.length }} :
    readPartial mask width s = .ok (v, r) ↔
      ∃ fields, s = fields ++ r.1 ∧
        fields.length = ((List.range width).filter mask.testBit).length ∧
        v = scatter ((List.range width).filter mask.testBit) fields := by
  rw [readPartial, foldlM_partialByte]
  simp

theorem present_offset (op : UInt8) : (List.range 4).filter op.toNat.testBit = present op 0 4 := by
  simp [present]

/-- The length bytes are marked by bits 4 to 6 of the opcode. -/
theorem present_length (op : UInt8) :
    (List.range 3).filter (op.toNat / 16).testBit = present op 4 3 := by
  unfold present
  congr 1
  funext k
  rw [show (16 : Nat) = 2 ^ 4 by rfl, Nat.testBit_div_two_pow, Nat.add_comm]

/-! ## Instructions -/

/-- **What running instructions gives**: instructions of the grammar, their outputs added after
the pieces collected so far. -/
theorem instrs_of_run {base : Bytes} :
    ∀ (n : Nat) {s : Bytes} {pieces out : List Bytes}, s.length ≤ n →
      run base s pieces = .ok out →
        ∃ r, Instrs base s r ∧ out.reverse.flatten = pieces.reverse.flatten ++ r := by
  intro n
  induction n with
  | zero =>
    intro s pieces out hs hrun
    obtain rfl : s = [] := List.eq_nil_of_length_eq_zero (by omega)
    rw [run] at hrun
    cases hrun
    exact ⟨[], .nil, by simp⟩
  | succ n ih =>
    intro s pieces out hs hrun
    cases s with
    | nil =>
      rw [run] at hrun
      cases hrun
      exact ⟨[], .nil, by simp⟩
    | cons op rest =>
      rw [run] at hrun
      simp only [List.length_cons] at hs
      split at hrun
      · -- an insert
        rename_i hlow
        split at hrun
        · cases hrun
        · rename_i hzero
          dsimp only at hrun
          split at hrun
          · cases hrun
          · rename_i hlong
            have hop : 0 < op.toNat := by
              have : op.toNat ≠ 0 := fun h => hzero (UInt8.toNat_inj.mp h)
              omega
            have hlen : (rest.take op.toNat).length = op.toNat := by simp at hlong ⊢; omega
            obtain ⟨r, hr, hout⟩ := ih (by simp; omega) hrun
            refine ⟨rest.take op.toNat ++ r, ?_, by simp [hout]⟩
            have hsplit : op :: rest = (op :: rest.take op.toNat) ++ rest.drop op.toNat := by simp
            rw [hsplit]
            exact .cons (.insert hop (UInt8.lt_iff_toNat_lt.mp hlow) hlen) hr
      · -- a copy: the offset's bytes, the length's bytes, then the rest
        rename_i hhigh
        have hop : 128 ≤ op.toNat := by simp [UInt8.lt_iff_toNat_lt] at hhigh; omega
        split at hrun
        · cases hrun
        · rename_i offset r₁ hoff
          split at hrun
          · cases hrun
          · rename_i size r₂ hsize
            dsimp only at hrun
            rw [← copyLength] at hrun
            split at hrun
            · rename_i hin
              obtain ⟨off, hrest, hofflen, rfl⟩ := readPartial_eq_ok_iff.mp hoff
              obtain ⟨len, hr₁, hlenlen, rfl⟩ := readPartial_eq_ok_iff.mp hsize
              rw [present_offset] at hofflen hin hrun
              rw [present_length] at hlenlen hin hrun
              have hshort : r₂.1.length ≤ n := by
                have := r₂.2
                have := r₁.2
                omega
              obtain ⟨r, hr, hout⟩ := ih hshort hrun
              have hcopy := Instr.copy hop hofflen rfl hlenlen rfl hin
              have hsplit : op :: rest = (op :: (off ++ len)) ++ r₂.1 := by simp [hrest, hr₁]
              refine ⟨_ ++ r, hsplit ▸ Instrs.cons hcopy hr, ?_⟩
              rw [hout]
              simp
            · cases hrun

/-- **What instructions of the grammar give when run**: their outputs added after the pieces
collected so far. -/
theorem run_of_instrs {base : Bytes} {s r : Bytes} (h : Instrs base s r) :
    ∀ pieces, ∃ out, run base s pieces = .ok out ∧
      out.reverse.flatten = pieces.reverse.flatten ++ r := by
  induction h with
  | nil => intro pieces; exact ⟨pieces, by rw [run], by simp⟩
  | @cons i rest out more hi _ ih =>
    intro pieces
    cases hi with
    | @insert op _ hpos hlow hlen =>
      obtain ⟨res, hrun, hres⟩ := ih (out :: pieces)
      refine ⟨res, ?_, by simp [hres]⟩
      have hlt : op < 128 := UInt8.lt_iff_toNat_lt.mpr hlow
      have hne : op ≠ 0 := fun h => by simp [h] at hpos
      rw [List.cons_append, run, if_pos hlt, if_neg hne]
      simp only [List.take_left' hlen, List.drop_left' hlen, hlen, Nat.lt_irrefl, if_false]
      exact hrun
    | @copy op off len offset size hop hofflen hoffset hlenlen hsize hin =>
      obtain ⟨res, hrun, hres⟩ := ih (((base.drop offset).take size) :: pieces)
      refine ⟨res, ?_, by simp [hres]⟩
      have hge : ¬ op < 128 := fun h => by simp [UInt8.lt_iff_toNat_lt] at h; omega
      -- the offset's bytes are read first, then the length's
      have hreadOff : readPartial op.toNat 4 (off ++ (len ++ rest)) =
          .ok (offset, ⟨len ++ rest, by simp⟩) :=
        readPartial_eq_ok_iff.mpr ⟨off, rfl, by rw [present_offset]; exact hofflen,
          by rw [present_offset]; exact hoffset⟩
      have hreadLen : readPartial (op.toNat / 16) 3 (len ++ rest) =
          .ok (scatter (present op 4 3) len, ⟨rest, by simp⟩) :=
        readPartial_eq_ok_iff.mpr ⟨len, rfl, by rw [present_length]; exact hlenlen,
          by rw [present_length]⟩
      rw [List.cons_append, List.append_assoc, run, if_neg hge]
      simp only [hreadOff, hreadLen]
      rw [← copyLength, ← hsize, if_pos hin]
      exact hrun

/-! ## Applying a delta -/

/-- **Applying a delta follows the grammar.** A delta applies to `base` and gives `r` exactly
when it reads as the base's size and `r`'s size, each spelt in at most ten groups and read
modulo 2^64, and instructions that stay inside the base and write `r`. -/
theorem apply_eq_ok_iff {base delta r : Bytes} :
    apply base delta = .ok r ↔ Yields Groups64 base delta r := by
  constructor
  · intro h
    unfold apply at h
    obtain ⟨⟨n₁, rest₁⟩, h₁, h⟩ := Except.bind_eq_ok.mp h
    dsimp only at h
    split at h
    · cases h
    · rename_i hbase
      obtain ⟨⟨n₂, rest₂⟩, h₂, h⟩ := Except.bind_eq_ok.mp h
      obtain ⟨out, hrun, h⟩ := Except.bind_eq_ok.mp h
      dsimp only at h
      split at h
      · cases h
      · rename_i hresult
        cases h
        obtain ⟨g₁, rfl, hg₁⟩ := readSize_eq_ok_iff.mp h₁
        obtain ⟨g₂, rfl, hg₂⟩ := readSize_eq_ok_iff.mp h₂
        obtain ⟨r, hr, hout⟩ := instrs_of_run rest₂.length (Nat.le_refl _) hrun
        simp only [List.reverse_nil, List.flatten_nil, List.nil_append] at hout
        refine ⟨g₁, g₂, rest₂, by simp, ?_, ?_, by rw [hout]; exact hr⟩
        · rwa [not_not.mp hbase]
        · rwa [not_not.mp hresult]
  · rintro ⟨g₁, g₂, body, rfl, hg₁, hg₂, hr⟩
    obtain ⟨out, hrun, hout⟩ := run_of_instrs hr []
    simp only [List.reverse_nil, List.flatten_nil, List.nil_append] at hout
    have h₁ : readSize 0 0 (g₁ ++ (g₂ ++ body)) = .ok (base.length, g₂ ++ body) :=
      readSize_eq_ok_iff.mpr ⟨g₁, rfl, hg₁⟩
    have h₂ : readSize 0 0 (g₂ ++ body) = .ok (r.length, body) :=
      readSize_eq_ok_iff.mpr ⟨g₂, rfl, hg₂⟩
    simp [apply, h₁, h₂, hrun, hout, bind, Except.bind, pure, Except.pure]

/-! ## Sizes are 64-bit -/

/-- A base size spelt in eleven groups: ten groups of zero bits that continue, then a last one,
then a result size of zero and no instructions. -/
def overlongSize : Bytes := List.replicate 10 0x80 ++ [0, 0]

/-- **A size of eleven groups is refused.** Read as unbounded numbers, the sizes of
`overlongSize` are zero and zero, so the grammar has it rebuild the empty object from the empty
base; `apply` refuses it, since a 64-bit size has at most ten groups. -/
theorem overlong_size_refused :
    Yields Groups [] overlongSize [] ∧ apply [] overlongSize = .error .sizeOverflow := by
  refine ⟨⟨List.replicate 10 0x80 ++ [0], [0], [], by simp [overlongSize], ?_, .last (by decide),
    .nil⟩, by decide⟩
  -- ten groups that continue, each of zero bits, then the last group, zero
  have hlast : Groups [0] 0 := .last (by decide)
  have hmore : ∀ {g : Bytes}, Groups g 0 → Groups (0x80 :: g) 0 := fun hg => by
    simpa using Groups.more (b := 0x80) (by decide) hg
  simpa using hmore (hmore (hmore (hmore (hmore (hmore (hmore (hmore (hmore (hmore hlast)))))))))

end GitServer.Delta
