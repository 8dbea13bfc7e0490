import GitServer.Deflate.Zlib
import Mathlib
/-!
# Stored blocks read back

`Zlib.compress` writes its data in stored blocks: a five-byte header (the final-block flag, the
length and its complement), then the bytes themselves, at most `storedMax` of them a block.
This file follows the reader over such a stream. `headerStep_stored` is one block, and
`run_storedBlocks` the whole chain of them by induction along `storedBlocks`; with the
checksum read back (`trailer_checksum`), `traceAt_compress` says that a written stream is read
whole, ending exactly where it was written to end, whatever follows it. The reader of pack
entries then returns the data and the length of its stream (`readEntryAt_compress`).
-/

namespace GitServer.Bytes

/-- A number that fits in `k` octets is read back from its `k` big-endian octets. -/
theorem toNatBE_ofNatBE (k n : Nat) (h : n < 256 ^ k) : toNatBE (ofNatBE k n) = n := by
  induction k generalizing n with
  | zero => simp_all [ofNatBE, toNatBE]
  | succ k ih =>
    have hq : n / 256 < 256 ^ k := by rw [Nat.pow_succ] at h; omega
    rw [ofNatBE, toNatBE_append, ih _ hq]
    simp
    omega

end GitServer.Bytes

namespace GitServer.Adler32

theorem foldl_step_lt (bs : List UInt8) (acc : Nat × Nat) (h1 : acc.1 < modulus)
    (h2 : acc.2 < modulus) :
    (bs.foldl step acc).1 < modulus ∧ (bs.foldl step acc).2 < modulus := by
  induction bs generalizing acc with
  | nil => exact ⟨h1, h2⟩
  | cons b bs ih => exact ih _ (Nat.mod_lt _ (by decide)) (Nat.mod_lt _ (by decide))

/-- Both sums stay below the modulus, so the checksum fits in 32 bits. -/
theorem checksum_lt (bs : Array UInt8) : checksum bs < 2 ^ 32 := by
  have h := foldl_step_lt bs.toList (1, 0) (by decide) (by decide)
  rw [Array.foldl_toList] at h
  unfold checksum
  simp only [modulus] at h
  dsimp only
  omega

end GitServer.Adler32

namespace GitServer.Zlib

/-- The five bytes in front of a stored block of `n` bytes: the final-block flag, then the
length and its complement, low byte first. -/
def storedHeader (last : Bool) (n : Nat) : Bytes :=
  [if last then 1 else 0, UInt8.ofNat n, UInt8.ofNat (n / 256), UInt8.ofNat (0xFFFF - n),
    UInt8.ofNat ((0xFFFF - n) / 256)]

@[simp] theorem length_storedHeader (last : Bool) (n : Nat) : (storedHeader last n).length = 5 :=
  rfl

theorem storedBlocks_of_le {data : Bytes} (h : data.length ≤ storedMax) :
    storedBlocks data = storedHeader true data.length ++ data := by
  rw [storedBlocks, if_pos h]; rfl

theorem storedBlocks_of_gt {data : Bytes} (h : ¬ data.length ≤ storedMax) :
    storedBlocks data = storedHeader false storedMax ++ (data.take storedMax ++
      storedBlocks (data.drop storedMax)) := by
  rw [storedBlocks, if_neg h]; rfl

/-- The blocks hold the data itself, so they are at least as long. -/
theorem length_le_storedBlocks (data : Bytes) : data.length ≤ (storedBlocks data).length := by
  induction data using storedBlocks.induct with
  | case1 data hle => rw [storedBlocks_of_le hle]; simp
  | case2 data hgt ih =>
    rw [storedBlocks_of_gt hgt]
    simp only [List.length_append, length_storedHeader, List.length_take]
    simp only [List.length_drop] at ih
    omega

end GitServer.Zlib

namespace GitServer.Deflate.Inflate

/-- At a byte boundary the first three bits are the low bits of that byte. -/
theorem bits?_three_aligned (l : List UInt8) (P : Nat) (b : UInt8) (hb : l[P]? = some b) :
    bits? l.toArray (8 * P) 3 = some (b.toNat % 8) := by
  have hP : P < l.length := by
    rcases Nat.lt_or_ge P l.length with h | h
    · exact h
    · simp [List.getElem?_eq_none h] at hb
  unfold bits? remaining window
  rw [if_pos (by simp; omega)]
  have e1 : 8 * P / 8 = P := by omega
  have e2 : 8 * P % 8 = 0 := by omega
  simp only [e1, e2, Nat.shiftRight_zero, Array.getD_eq_getD_getElem?, List.getElem?_toArray, hb,
    Option.getD_some, Nat.pow_eq, Nat.reducePow]
  congr 1
  omega

theorem align_header (P : Nat) : align (8 * P + 3) / 8 = P + 1 := by
  unfold align; omega

/-- **One stored block.** Its header is read at a byte boundary and its bytes are copied to
the output; the reader then stops at the end of the last block, or looks for the next
header. -/
theorem headerStep_stored (raw last : Bool) (pre chunk rest : Bytes) (out : Array UInt8)
    (h : chunk.length ≤ 65535) :
    headerStep raw (pre ++ (Zlib.storedHeader last chunk.length ++ chunk ++ rest)).toArray
      (8 * pre.length) out =
    if last then .stop (finish raw (pre ++ (Zlib.storedHeader last chunk.length ++ chunk ++ rest)).toArray
        ((pre.length + 5 + chunk.length) * 8) (out ++ chunk.toArray))
    else .next .header ((pre.length + 5 + chunk.length) * 8) (out ++ chunk.toArray) := by
  generalize hl : pre ++ (Zlib.storedHeader last chunk.length ++ chunk ++ rest) = l
  have at_ : ∀ k (hk : k < 5), l[pre.length + k]? = (Zlib.storedHeader last chunk.length)[k]? := by
    intro k hk
    rw [← hl, List.getElem?_append_right (by omega), Nat.add_sub_cancel_left, List.append_assoc,
      List.getElem?_append_left (by simp; omega)]
  have hsize : pre.length + 5 + chunk.length ≤ l.length := by
    rw [← hl]; simp; omega
  have hb := bits?_three_aligned l pre.length _ (at_ 0 (by omega))
  have byte : ∀ k (hk : k < 5), l.toArray.getD (pre.length + k) 0 =
      (Zlib.storedHeader last chunk.length).getD k 0 := by
    intro k hk
    simp only [Array.getD_eq_getD_getElem?, List.getElem?_toArray, at_ k hk,
      List.getD_eq_getElem?_getD]
  have hext : l.toArray.extract (pre.length + 5) (pre.length + 5 + chunk.length) =
      chunk.toArray := by
    have hd : (Zlib.storedHeader last chunk.length).drop 5 = [] := List.drop_eq_nil_of_le (by simp)
    rw [← hl]
    simp [List.extract, List.drop_append, List.drop_eq_nil_of_le (Nat.le_add_right pre.length 5), hd]
  -- the length and its complement, as the reader puts them together from two bytes each
  have hlen : (UInt8.ofNat chunk.length).toNat + 256 * (UInt8.ofNat (chunk.length / 256)).toNat =
      chunk.length := by
    simp only [UInt8.toNat_ofNat', Nat.reducePow]; omega
  have hnlen : (UInt8.ofNat (0xFFFF - chunk.length)).toNat +
      256 * (UInt8.ofNat ((0xFFFF - chunk.length) / 256)).toNat = 0xFFFF - chunk.length := by
    simp only [UInt8.toNat_ofNat', Nat.reducePow]; omega
  have hkind : ((if last then 1 else 0 : UInt8).toNat % 8) / 2 = 0 := by cases last <;> decide
  have hfinal : ((if last then 1 else 0 : UInt8).toNat % 8 % 2 = 1) = (last = true) := by
    cases last <;> decide
  have b1 := byte 1 (by omega)
  have b2 := byte 2 (by omega)
  have b3 := byte 3 (by omega)
  have b4 := byte 4 (by omega)
  simp only [Zlib.storedHeader, List.getD_cons_succ, List.getD_cons_zero] at b1 b2 b3 b4
  rw [headerStep, hb]
  simp only [hkind, hfinal, align_header, ↓reduceIte, b1, b2, b3, b4, hlen, hnlen]
  have e5 : pre.length + 1 + 4 = pre.length + 5 := by omega
  rw [e5, List.size_toArray, if_neg (by omega), if_neg (by omega), if_neg (by omega), hext]

/-- **Stored blocks of `data` are read whole**, up to the end of their last block, given one
step of fuel for every block. -/
theorem run_storedBlocks (raw : Bool) (data : Bytes) : ∀ (pre rest : Bytes) (out : Array UInt8)
    (fuel : Nat), data.length < Zlib.storedMax * fuel →
    run raw (pre ++ (Zlib.storedBlocks data ++ rest)).toArray fuel .header (8 * pre.length) out =
      finish raw (pre ++ (Zlib.storedBlocks data ++ rest)).toArray
        ((pre.length + (Zlib.storedBlocks data).length) * 8) (out ++ data.toArray) := by
  induction data using Zlib.storedBlocks.induct with
  | case1 data hle =>
    intro pre rest out fuel hfuel
    obtain ⟨fuel, rfl⟩ : ∃ f, fuel = f + 1 :=
      ⟨fuel - 1, by unfold Zlib.storedMax at hfuel hle; omega⟩
    rw [Zlib.storedBlocks_of_le hle, run, step, headerStep_stored raw true pre data rest out hle]
    simp only [↓reduceIte, List.length_append, Zlib.length_storedHeader]
    congr 2
    omega
  | case2 data hgt ih =>
    intro pre rest out fuel hfuel
    obtain ⟨fuel, rfl⟩ : ∃ f, fuel = f + 1 :=
      ⟨fuel - 1, by unfold Zlib.storedMax at hfuel hgt; omega⟩
    have hchunk : (data.take Zlib.storedMax).length = Zlib.storedMax := by
      simp only [List.length_take]; omega
    -- the first block holds the first `storedMax` bytes; the rest is the stream of the others
    have hin : pre ++ (Zlib.storedBlocks data ++ rest) =
        pre ++ (Zlib.storedHeader false (data.take Zlib.storedMax).length ++
          data.take Zlib.storedMax ++ (Zlib.storedBlocks (data.drop Zlib.storedMax) ++ rest)) := by
      rw [hchunk, Zlib.storedBlocks_of_gt hgt]; simp only [List.append_assoc]
    have hlen : (Zlib.storedBlocks data).length = 5 + (data.take Zlib.storedMax).length +
        (Zlib.storedBlocks (data.drop Zlib.storedMax)).length := by
      rw [Zlib.storedBlocks_of_gt hgt, hchunk]
      simp only [List.length_append, Zlib.length_storedHeader]
      omega
    have hrest := ih (pre ++ Zlib.storedHeader false (data.take Zlib.storedMax).length ++
      data.take Zlib.storedMax) rest (out ++ (data.take Zlib.storedMax).toArray) fuel
      (by simp only [List.length_drop]; unfold Zlib.storedMax at *; omega)
    simp only [List.append_assoc, List.length_append, Zlib.length_storedHeader] at hrest
    rw [hin, run, step, headerStep_stored raw false pre _ _ out (by rw [hchunk]; decide)]
    simp only [Bool.false_eq_true, ↓reduceIte, List.append_assoc, Nat.add_assoc]
    have harr : out ++ (data.take Zlib.storedMax).toArray ++ (data.drop Zlib.storedMax).toArray =
        out ++ data.toArray := by
      simp
    rw [Nat.mul_comm, hrest, hlen, harr]
    congr 2
    omega

/-- The checksum at the end of a stream is read back as the number it was written from. -/
theorem trailer_checksum (pre rest : Bytes) (out : Array UInt8) :
    trailer (pre ++ (Bytes.ofNatBE 4 (Adler32.checksum out) ++ rest)).toArray (pre.length * 8) out =
      ⟨out, .finished (pre.length + 4)⟩ := by
  have hat : align (pre.length * 8) / 8 = pre.length := by unfold align; omega
  have hword : ((pre ++ (Bytes.ofNatBE 4 (Adler32.checksum out) ++ rest)).toArray.extract pre.length
      (pre.length + 4)).foldl (fun acc b => acc * 256 + b.toNat) 0 = Adler32.checksum out := by
    rw [← Array.foldl_toList]
    have : ((pre ++ (Bytes.ofNatBE 4 (Adler32.checksum out) ++ rest)).toArray.extract pre.length
        (pre.length + 4)).toList = Bytes.ofNatBE 4 (Adler32.checksum out) := by
      simp [List.extract]
    rw [this]
    exact Bytes.toNatBE_ofNatBE 4 _ (Adler32.checksum_lt out)
  unfold trailer
  dsimp only
  rw [hat, hword, if_neg (by simp), if_pos rfl]

end GitServer.Deflate.Inflate

namespace GitServer.Zlib

open Deflate Inflate

/-- **A stream written by `compress` is read back whole**, and ends where it was written to
end, whatever follows it. -/
theorem traceAt_compress (pre data rest : Bytes) :
    traceAt (pre ++ (compress data ++ rest)).toArray pre.length =
      ⟨data.toArray, .finished (pre.length + (compress data).length)⟩ := by
  have hin : pre ++ (compress data ++ rest) = (pre ++ [0x78, 0x01]) ++
      (storedBlocks data ++ (Bytes.ofNatBE 4 (Adler32.checksum data.toArray) ++ rest)) := by
    simp [compress]
  have h0 : (pre ++ (compress data ++ rest)).toArray[pre.length]? = some 0x78 := by
    simp [compress]
  have h1 : (pre ++ (compress data ++ rest)).toArray[pre.length + 1]? = some 0x01 := by
    simp [compress]
  unfold traceAt
  rw [h0, h1]
  simp only [show (8 * pre.length + 16) = 8 * (pre ++ [0x78, 0x01]).length by simp; omega]
  simp only [show UInt8.toNat 120 = 120 from rfl, show UInt8.toNat 1 = 1 from rfl]
  -- the header `78 01` passes every check: no dictionary, deflate with a 32 KiB window
  rw [if_neg (by decide), if_neg (by decide), if_neg (by decide), if_neg (by decide), hin,
    run_storedBlocks false data _ _ #[] _
      (by have := length_le_storedBlocks data; simp; unfold storedMax; omega), Array.empty_append]
  have hlast : pre ++ [0x78, 0x01] ++ (storedBlocks data ++
      (Bytes.ofNatBE 4 (Adler32.checksum data.toArray) ++ rest)) =
      (pre ++ [0x78, 0x01] ++ storedBlocks data) ++
        (Bytes.ofNatBE 4 (Adler32.checksum data.toArray) ++ rest) := by
    simp only [List.append_assoc]
  rw [finish, if_neg Bool.false_ne_true, hlast,
    show (pre ++ ([0x78, 0x01] : Bytes)).length + (storedBlocks data).length =
      (pre ++ ([0x78, 0x01] : Bytes) ++ storedBlocks data).length by simp; omega, trailer_checksum]
  simp [compress]
  omega

/-- **A whole stream written by `compress` reads back whole.** -/
theorem decompress_compress (data : Bytes) : decompress (compress data) = .ok data := by
  have h := traceAt_compress [] data []
  simp only [List.nil_append, List.append_nil, List.length_nil, Nat.zero_add] at h
  simp [decompress, Deflate.Inflate.trace, h]

/-- **A compressed entry written by `compress` is read back whole**, with the number of bytes
its stream took, whatever follows it. -/
theorem readEntryAt_compress (pre data rest : Bytes) :
    readEntryAt (pre ++ (compress data ++ rest)).toArray pre.length data.length =
      .ok (.complete data (compress data).length) := by
  unfold readEntryAt
  rw [traceAt_compress]
  simp only [reaches, settle, List.size_toArray, ↓reduceIte, Nat.add_sub_cancel_left]
  rw [if_pos (by simp)]

end GitServer.Zlib
