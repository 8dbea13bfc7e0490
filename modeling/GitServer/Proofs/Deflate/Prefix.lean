import GitServer.Deflate.Zlib
import GitServer.Proofs.Except
import Mathlib

/-!
# Reading a stream cut short

A stream that arrives over a connection is read again and again as more of it comes in. This
file compares a read of the input cut to its first bytes, `A`, with the same read of the whole
input, `B`. The reader only ever looks at the bits in front of it, and asks for more input as
soon as a bit it needs is missing, so (`Agrees`, `StepAgrees`, `TraceAgrees`):

* the cut input gives the answer of the whole input, or runs out of input (`starved`) with a
  beginning of its output;
* what the cut input reads to the end, it reads inside itself;
* what the whole input reads to an end inside the cut one, the cut input reads alike.

Every reader of a stream is shown to agree so, from the bits and the codes up to the blocks;
the run of the blocks then agrees step by step, whatever its fuel (`run_agrees`), and so does
the reading of a zlib stream (`traceAt_agrees`).
-/

namespace GitServer.Deflate.Inflate

variable {A B : Array UInt8}

/-! ## The input cut short -/

theorem prefix_size_le (hAB : A.toList <+: B.toList) : A.size ≤ B.size := by
  simpa using hAB.length_le

/-- A byte the cut input has is the byte of the whole input. -/
theorem prefix_getElem? (hAB : A.toList <+: B.toList) {i : Nat} (hi : i < A.size) :
    A[i]? = B[i]? := by
  have htake := List.prefix_iff_eq_take.mp hAB
  rw [← Array.getElem?_toList, ← Array.getElem?_toList, htake, List.getElem?_take,
    if_pos (by simpa using hi)]

theorem prefix_getD (hAB : A.toList <+: B.toList) {i : Nat} (hi : i < A.size) :
    A.getD i 0 = B.getD i 0 := by
  simp only [Array.getD_eq_getD_getElem?, prefix_getElem? hAB hi]

/-- The bits of a window that lie inside the cut input are those of the whole input. -/
theorem prefix_window_mod (hAB : A.toList <+: B.toList) {pos n : Nat}
    (hn : n ≤ remaining A pos) : window A pos % 2 ^ n = window B pos % 2 ^ n := by
  rcases Nat.eq_zero_or_pos n with rfl | hpos
  · simp [Nat.mod_one]
  unfold remaining at hn
  have hbyte : ∀ t, pos / 8 + t < A.size →
      (A.getD (pos / 8 + t) 0).toNat = (B.getD (pos / 8 + t) 0).toNat := fun t ht => by
    rw [prefix_getD hAB ht]
  have h0 := hbyte 0 (by omega)
  simp only [Nat.add_zero] at h0
  by_cases h4 : pos / 8 + 3 < A.size
  · -- the whole window lies inside the cut input
    unfold window
    simp only [h0, hbyte 1 (by omega), hbyte 2 (by omega), hbyte 3 h4]
  unfold window
  simp only [Nat.shiftRight_eq_div_pow]
  have a1 := UInt8.toNat_lt (A.getD (pos / 8 + 1) 0)
  have a2 := UInt8.toNat_lt (A.getD (pos / 8 + 2) 0)
  have a3 := UInt8.toNat_lt (A.getD (pos / 8 + 3) 0)
  have b0 := UInt8.toNat_lt (B.getD (pos / 8) 0)
  have b1 := UInt8.toNat_lt (B.getD (pos / 8 + 1) 0)
  have b2 := UInt8.toNat_lt (B.getD (pos / 8 + 2) 0)
  have b3 := UInt8.toNat_lt (B.getD (pos / 8 + 3) 0)
  -- the low `8 k` bits of the four bytes agree, for the `k < 4` bytes inside the cut input,
  -- and the bits asked for lie in them
  obtain ⟨k, hrn, hlow⟩ : ∃ k, pos % 8 + n ≤ 8 * k ∧
      ((A.getD (pos / 8) 0).toNat + (A.getD (pos / 8 + 1) 0).toNat * 256 +
        (A.getD (pos / 8 + 2) 0).toNat * 65536 + (A.getD (pos / 8 + 3) 0).toNat * 16777216) %
          2 ^ (8 * k) =
      ((B.getD (pos / 8) 0).toNat + (B.getD (pos / 8 + 1) 0).toNat * 256 +
        (B.getD (pos / 8 + 2) 0).toNat * 65536 + (B.getD (pos / 8 + 3) 0).toNat * 16777216) %
          2 ^ (8 * k) := by
    by_cases h3 : pos / 8 + 2 < A.size
    · refine ⟨3, by omega, ?_⟩
      rw [h0, hbyte 1 (by omega), hbyte 2 h3, show 2 ^ (8 * 3) = 16777216 from rfl]
      omega
    by_cases h2 : pos / 8 + 1 < A.size
    · refine ⟨2, by omega, ?_⟩
      rw [h0, hbyte 1 h2, show 2 ^ (8 * 2) = 65536 from rfl]
      omega
    · refine ⟨1, by omega, ?_⟩
      rw [h0, show 2 ^ (8 * 1) = 256 from rfl]
      omega
  rw [← Nat.mod_mul_right_div_self, ← Nat.mod_mul_right_div_self, ← pow_add,
    ← Nat.mod_mod_of_dvd _ (pow_dvd_pow 2 hrn), hlow, Nat.mod_mod_of_dvd _ (pow_dvd_pow 2 hrn)]

/-- **Bits inside the cut input are read alike**; past its end the cut input has none. -/
theorem prefix_bits? (hAB : A.toList <+: B.toList) {pos n : Nat}
    (hn : n ≤ remaining A pos) : bits? A pos n = bits? B pos n := by
  have hsize := prefix_size_le hAB
  have hnB : n ≤ remaining B pos := by unfold remaining at *; omega
  unfold bits?
  rw [if_pos hn, if_pos hnB, Nat.pow_eq, prefix_window_mod hAB hn]

/-- The bytes of the cut input from `s` to `e` begin those of the whole input. -/
theorem prefix_extract (hAB : A.toList <+: B.toList) (s e : Nat) :
    (A.extract s e).toList <+: (B.extract s e).toList := by
  rw [Array.toList_extract, Array.toList_extract, List.extract_eq_drop_take',
    List.extract_eq_drop_take', List.prefix_iff_eq_take.mp hAB, List.take_take, List.drop_take,
    List.drop_take]
  exact List.take_prefix_take_left (by omega)

/-- Bytes inside the cut input are those of the whole input. -/
theorem prefix_extract_of_le (hAB : A.toList <+: B.toList) {s e : Nat} (he : e ≤ A.size) :
    A.extract s e = B.extract s e := by
  apply Array.ext'
  rw [Array.toList_extract, Array.toList_extract, List.extract_eq_drop_take',
    List.extract_eq_drop_take', List.prefix_iff_eq_take.mp hAB, List.take_take,
    Nat.min_eq_left (by simpa using he)]

theorem le_align (p : Nat) : p ≤ 8 * (align p / 8) := by
  unfold align
  omega

theorem align_le {p n : Nat} (hp : p ≤ 8 * n) : align p / 8 ≤ n := by
  unfold align
  omega

/-! ## Reads that agree -/

/-- A read of the cut input, `a`, against the same read of the whole input, `b`, where `lim` is
the number of bits the cut input holds and `at_` says where a read that succeeds ends: the cut
input gives the same answer or runs out of input; a read of it that succeeds ends inside it;
and a read of the whole input that ends inside the cut one is a read of the cut one alike. -/
structure Agrees {γ : Type} (lim : Nat) (at_ : γ → Nat) (a b : Except Stop γ) : Prop where
  eq_or_starved : a = b ∨ a = .error .starved
  within : ∀ x, a = .ok x → at_ x ≤ lim
  eq_of_within : ∀ x, b = .ok x → at_ x ≤ lim → a = b

/-- A read that ends no earlier than `start`. -/
def EndsAfter {γ : Type} (start : Nat) (at_ : γ → Nat) (b : Except Stop γ) : Prop :=
  ∀ x, b = .ok x → start ≤ at_ x

namespace Agrees

variable {α β : Type} {lim : Nat}

theorem pure {at_ : α → Nat} {x : α} (h : at_ x ≤ lim) :
    Agrees lim at_ (Pure.pure x) (Pure.pure x) :=
  ⟨.inl rfl, fun _ hx => (by cases hx; exact h), fun _ _ _ => rfl⟩

theorem throw {at_ : α → Nat} (e : Stop) :
    Agrees lim at_ (MonadExcept.throw e) (MonadExcept.throw e) :=
  ⟨.inl rfl, fun _ hx => (by cases hx), fun _ _ _ => rfl⟩

/-- **Reads in sequence agree** when the first ones do, the rest agree from wherever the first
ones end inside the cut input, and the whole input's rest goes on no earlier than that. -/
theorem bind {a b : Except Stop α} {f g : α → Except Stop β} {atα : α → Nat} {atβ : β → Nat}
    (h : Agrees lim atα a b) (hfg : ∀ x, atα x ≤ lim → Agrees lim atβ (f x) (g x))
    (hmono : ∀ x, EndsAfter (atα x) atβ (g x)) :
    Agrees lim atβ (a >>= f) (b >>= g) := by
  rcases h.eq_or_starved with rfl | hstarved
  · cases ha : a with
    | error e =>
      exact ⟨.inl rfl, fun _ hx => (by cases hx), fun _ _ _ => rfl⟩
    | ok x =>
      exact hfg x (h.within x ha)
  · -- the first read ran out: so does the whole, and the whole input's read ends beyond
    refine ⟨.inr (by rw [hstarved]; rfl), fun _ hx => (by rw [hstarved] at hx; cases hx),
      fun y hy hyin => ?_⟩
    cases hb : b with
    | error e => rw [hb] at hy; cases hy
    | ok x =>
      rw [hb] at hy
      have heq := h.eq_of_within x hb (le_trans (hmono x y hy) hyin)
      rw [hstarved, hb] at heq
      cases heq

end Agrees

theorem EndsAfter.bind {α β : Type} {start : Nat} {a : Except Stop α} {g : α → Except Stop β}
    {atα : α → Nat} {atβ : β → Nat} (ha : EndsAfter start atα a)
    (hg : ∀ x, EndsAfter (atα x) atβ (g x)) : EndsAfter start atβ (a >>= g) := by
  intro y hy
  cases hx : a with
  | error e => rw [hx] at hy; cases hy
  | ok x =>
    rw [hx] at hy
    exact le_trans (ha x hx) (hg x y hy)

/-- A read from `start` that agrees whenever it starts inside the cut input, and that ends
no earlier than it starts on the whole input. Reads so described compose in sequence with no
further condition (`ReadsAlike.bind`). -/
structure ReadsAlike {γ : Type} (lim start : Nat) (at_ : γ → Nat) (a b : Except Stop γ) :
    Prop where
  agrees : start ≤ lim → Agrees lim at_ a b
  endsAfter : EndsAfter start at_ b
  /-- A read fails; only the stream as a whole finishes. -/
  noFinish : ∀ e n, b = .error e → e ≠ .finished n

namespace ReadsAlike

variable {α β : Type} {lim start : Nat}

theorem pure {at_ : α → Nat} {x : α} (h : at_ x = start) :
    ReadsAlike lim start at_ (Pure.pure x) (Pure.pure x) :=
  ⟨fun hs => Agrees.pure (h ▸ hs), fun _ hx => (by cases hx; exact h.ge),
    fun _ _ hx => (by cases hx)⟩

theorem fail {at_ : α → Nat} (r : String) :
    ReadsAlike lim start at_ (MonadExcept.throw (.failed r)) (MonadExcept.throw (.failed r)) :=
  ⟨fun _ => Agrees.throw _, fun _ hx => (by cases hx),
    fun _ _ hx => (by cases hx; exact Stop.noConfusion)⟩

theorem fail_bind {at_ : β → Nat} (r : String) (f g : α → Except Stop β) :
    ReadsAlike lim start at_ (MonadExcept.throw (.failed r) >>= f)
      (MonadExcept.throw (.failed r) >>= g) :=
  ⟨fun _ => ⟨.inl rfl, fun _ hx => (by cases hx), fun _ hx _ => (by cases hx)⟩,
    fun _ hx => (by cases hx), fun _ _ hx => (by cases hx; exact Stop.noConfusion)⟩

/-- **Reads in sequence read alike**, the rest from where the first part ends. -/
theorem bind {a b : Except Stop α} {f g : α → Except Stop β} {atα : α → Nat} {atβ : β → Nat}
    (h : ReadsAlike lim start atα a b) (hfg : ∀ x, ReadsAlike lim (atα x) atβ (f x) (g x)) :
    ReadsAlike lim start atβ (a >>= f) (b >>= g) := by
  refine ⟨fun hs => (h.agrees hs).bind (fun x hx => (hfg x).agrees hx) (fun x => (hfg x).endsAfter),
    h.endsAfter.bind fun x => (hfg x).endsAfter, fun e n he => ?_⟩
  cases hb : b with
  | error e' =>
    rw [hb] at he
    cases he
    exact h.noFinish e n hb
  | ok x =>
    rw [hb] at he
    exact (hfg x).noFinish e n he

end ReadsAlike

/-! ## Bits and codes -/

/-- **Bits are read alike** while the cut input has them. -/
theorem take_agrees (hAB : A.toList <+: B.toList) {pos : Nat} (hpos : pos ≤ 8 * A.size) (n : Nat) :
    Agrees (8 * A.size) (fun _ => pos + n) (take A pos n) (take B pos n) := by
  by_cases hn : n ≤ remaining A pos
  · have heq : take A pos n = take B pos n := by unfold take; rw [prefix_bits? hAB hn]
    refine ⟨.inl heq, fun _ _ => by unfold remaining at hn; omega, fun _ _ _ => heq⟩
  · have hnone : take A pos n = .error .starved := by
      unfold take bits?; rw [if_neg hn]
    refine ⟨.inr hnone, fun _ hx => (by rw [hnone] at hx; cases hx), fun _ _ hin => ?_⟩
    unfold remaining at hn
    omega

/-- Bit `j` of two numbers that agree below `m > j`. -/
theorem shiftRight_mod_two_of_mod_eq {x y m j : Nat} (h : x % 2 ^ m = y % 2 ^ m) (hj : j < m) :
    (x >>> j) % 2 = (y >>> j) % 2 := by
  have hdvd : 2 ^ (j + 1) ∣ 2 ^ m := pow_dvd_pow 2 hj
  simp only [Nat.shiftRight_eq_div_pow]
  rw [← Nat.mod_mul_right_div_self, ← Nat.mod_mul_right_div_self, ← pow_succ,
    ← Nat.mod_mod_of_dvd x hdvd, h, Nat.mod_mod_of_dvd y hdvd]

/-- A code read from length `len` on is at least that long, or the fifteen bits of a bit
string that starts no code. -/
theorem decode_go_length {h : Huffman} {bits left : Nat} :
    ∀ {len code first index : Nat} {x : Option Nat} {n : Nat},
      Huffman.decode.go h bits left len code first index = some (x, n) → min len 15 ≤ n := by
  intro len code first index x n hgo
  induction len, code, first, index using Huffman.decode.go.induct h bits left with
  | case1 len code first index hlen =>
    rw [Huffman.decode.go, if_pos hlen] at hgo
    cases hgo
    omega
  | case2 len code first index hlen hleft =>
    rw [Huffman.decode.go, if_neg hlen, if_pos hleft] at hgo
    cases hgo
  | case3 len code first index hlen hleft =>
    rw [Huffman.decode.go, if_neg hlen, if_neg hleft] at hgo
    dsimp only at hgo
    split_ifs at hgo <;> cases hgo <;> omega
  | case4 len code first index hlen hleft =>
    rw [Huffman.decode.go, if_neg hlen, if_neg hleft] at hgo
    dsimp only at hgo
    split_ifs at hgo <;> cases hgo <;> omega
  | case5 len code first index hlen hleft _ _ _ _ ih =>
    rw [Huffman.decode.go, if_neg hlen, if_neg hleft] at hgo
    dsimp only at hgo
    split_ifs at hgo
    · cases hgo; omega
    · have := ih hgo
      omega

theorem decode_go_of_gt {h : Huffman} {bits left len code first index : Nat} (hlen : len > 15) :
    Huffman.decode.go h bits left len code first index = some (none, 15) := by
  rw [Huffman.decode.go, if_pos hlen]

theorem decode_go_of_lt {h : Huffman} {bits left len code first index : Nat} (hlen : ¬ len > 15)
    (hleft : left < len) : Huffman.decode.go h bits left len code first index = none := by
  rw [Huffman.decode.go, if_neg hlen, if_pos hleft]

/-- Reading the bit that makes a code of length `len`, when there is one to read. -/
theorem decode_go_read {h : Huffman} {bits left len code first index : Nat} (hlen : ¬ len > 15)
    (hleft : ¬ left < len) :
    Huffman.decode.go h bits left len code first index =
      if code + (bits >>> (len - 1)) % 2 < first + h.count len then
        some (some (h.symbols.getD (index + (code + (bits >>> (len - 1)) % 2 - first)) 0), len)
      else if !h.complete then some (none, len)
      else Huffman.decode.go h bits left (len + 1) (2 * (code + (bits >>> (len - 1)) % 2))
        (2 * (first + h.count len)) (index + h.count len) := by
  rw [Huffman.decode.go, if_neg hlen, if_neg hleft]

/-- **A code is read alike from bits that agree.** With `leftA ≤ leftB` bits left, the bits
agreeing below `leftA` (up to the fifteen a code may take), the reading with fewer bits gives
the same symbol or asks for more bits; a symbol it reads lies within its bits; and a symbol the
other reads within them, it reads alike. -/
theorem decode_go_agrees (h : Huffman) {bitsA bitsB leftA leftB : Nat} (hleft : leftA ≤ leftB)
    (hbits : bitsA % 2 ^ min leftA 15 = bitsB % 2 ^ min leftA 15) :
    ∀ (k len code first index : Nat), 16 - len = k → 1 ≤ len → len - 1 ≤ leftA →
      (Huffman.decode.go h bitsA leftA len code first index =
          Huffman.decode.go h bitsB leftB len code first index ∨
        Huffman.decode.go h bitsA leftA len code first index = none) ∧
      (∀ r, Huffman.decode.go h bitsA leftA len code first index = some r → r.2 ≤ leftA) ∧
      (∀ r, Huffman.decode.go h bitsB leftB len code first index = some r → r.2 ≤ leftA →
        Huffman.decode.go h bitsA leftA len code first index =
          Huffman.decode.go h bitsB leftB len code first index) := by
  intro k
  induction k with
  | zero =>
    -- past fifteen bits: no code starts the bit string
    intro len code first index hk _ hlen
    have hgt : len > 15 := by omega
    rw [decode_go_of_gt hgt, decode_go_of_gt hgt]
    exact ⟨.inl rfl, fun r hr => (by cases hr; simp; omega), fun _ _ _ => rfl⟩
  | succ k ih =>
    intro len code first index hk hone hlen
    have hle : ¬ len > 15 := by omega
    by_cases hB : leftB < len
    · -- neither has the bit
      have hA : leftA < len := by omega
      rw [decode_go_of_lt hle hA, decode_go_of_lt hle hB]
      exact ⟨.inl rfl, fun _ hr => (nomatch hr), fun _ hr _ => (nomatch hr)⟩
    by_cases hA : leftA < len
    · -- only the whole input has it; what it reads from there is longer than the cut input
      have hnone : Huffman.decode.go h bitsA leftA len code first index = none :=
        decode_go_of_lt hle hA
      refine ⟨.inr hnone, fun r hr => (by rw [hnone] at hr; cases hr), fun r hr hin => ?_⟩
      have := decode_go_length hr
      omega
    -- both read the same bit
    have hbit : (bitsA >>> (len - 1)) % 2 = (bitsB >>> (len - 1)) % 2 :=
      shiftRight_mod_two_of_mod_eq hbits (by omega)
    obtain ⟨heq, hwithin, hcomplete⟩ := ih (len + 1) (2 * (code + (bitsB >>> (len - 1)) % 2))
      (2 * (first + h.count len)) (index + h.count len) (by omega) (by omega) (by omega)
    rw [decode_go_read hle hA, decode_go_read hle hB, hbit]
    split_ifs
    · exact ⟨.inl rfl, fun r hr => (by cases hr; exact Nat.not_lt.mp hA), fun _ _ _ => rfl⟩
    · exact ⟨.inl rfl, fun r hr => (by cases hr; exact Nat.not_lt.mp hA), fun _ _ _ => rfl⟩
    · exact ⟨heq, hwithin, hcomplete⟩

/-- **A symbol is read alike** while the cut input holds its code. -/
theorem symbol?_agrees (hAB : A.toList <+: B.toList) (h : Huffman) {pos : Nat}
    (hpos : pos ≤ 8 * A.size) :
    Agrees (8 * A.size) Prod.snd (symbol? A h pos) (symbol? B h pos) := by
  have hsize := prefix_size_le hAB
  have hleft : remaining A pos ≤ remaining B pos := by unfold remaining; omega
  obtain ⟨heq, hwithin, hcomplete⟩ := decode_go_agrees h hleft
    (prefix_window_mod hAB (Nat.min_le_left _ 15)) 15 1 0 0 0 rfl le_rfl (Nat.zero_le _)
  have hrem : remaining A pos = 8 * A.size - pos := rfl
  unfold symbol? Huffman.decode
  cases hA : Huffman.decode.go h (window A pos) (remaining A pos) 1 0 0 0 with
  | none =>
    refine ⟨.inr rfl, fun _ hx => (nomatch hx), fun x hx hin => ?_⟩
    cases hB : Huffman.decode.go h (window B pos) (remaining B pos) 1 0 0 0 with
    | none => rw [hB] at hx
    | some r =>
      obtain ⟨sym, n⟩ := r
      rw [hB] at hx
      cases hx
      -- the code the whole input reads ends inside the cut input, so the cut input reads it
      have hsame := hcomplete (sym, n) hB (by simp only at hin; omega)
      rw [hA, hB] at hsame
      cases hsame
  | some r =>
    obtain ⟨sym, n⟩ := r
    have hin : n ≤ remaining A pos := hwithin (sym, n) hA
    have hB : Huffman.decode.go h (window B pos) (remaining B pos) 1 0 0 0 = some (sym, n) := by
      rcases heq with heq | hnone
      · rw [← heq, hA]
      · rw [hA] at hnone; cases hnone
    rw [hB]
    exact ⟨.inl rfl, fun x hx => (by cases hx; simp only; omega), fun _ _ _ => rfl⟩

theorem symbol?_endsAfter (input : Array UInt8) (h : Huffman) (pos : Nat) :
    EndsAfter pos Prod.snd (symbol? input h pos) := by
  intro x hx
  unfold symbol? at hx
  split at hx
  · cases hx
  · cases hx; simp

theorem take_readsAlike (hAB : A.toList <+: B.toList) (pos n : Nat) :
    ReadsAlike (8 * A.size) pos (fun _ => pos + n) (take A pos n) (take B pos n) := by
  refine ⟨fun hpos => take_agrees hAB hpos n, fun _ _ => Nat.le_add_right pos n, fun e _ he => ?_⟩
  unfold take at he
  split at he <;> cases he
  exact Stop.noConfusion

theorem symbol?_readsAlike (hAB : A.toList <+: B.toList) (h : Huffman) (pos : Nat) :
    ReadsAlike (8 * A.size) pos Prod.snd (symbol? A h pos) (symbol? B h pos) := by
  refine ⟨fun hpos => symbol?_agrees hAB h hpos, symbol?_endsAfter B h pos, fun e _ he => ?_⟩
  unfold symbol? at he
  split at he <;> cases he
  exact Stop.noConfusion

/-! ## The code lengths of a dynamic block -/

/-- **Code lengths are read alike.** -/
theorem readLengths_readsAlike (hAB : A.toList <+: B.toList) (h : Huffman) (total : Nat) :
    ∀ (k pos : Nat) (acc : Array Nat), total - acc.size = k →
      ReadsAlike (8 * A.size) pos Prod.snd (readLengths A h total pos acc)
        (readLengths B h total pos acc) := by
  intro k
  induction k using Nat.strong_induction_on with
  | _ k ih =>
  intro pos acc hk
  rw [readLengths.eq_1 A, readLengths.eq_1 B]
  by_cases hlt : acc.size < total
  · simp only [hlt, if_true]
    refine (symbol?_readsAlike hAB h pos).bind fun ⟨s, p⟩ => ?_
    dsimp only
    by_cases hs : s.getD 0 < 16
    · simp only [hs, if_true]
      exact ih _ (by simp only [Array.size_push]; omega) p _ rfl
    · simp only [hs, if_false]
      refine (take_readsAlike hAB p _).bind fun r => ?_
      by_cases hc : s.getD 0 = 16 ∧ acc.size = 0
      · rw [if_pos hc, if_pos hc]
        exact ReadsAlike.fail_bind _ _ _
      · rw [if_neg hc, if_neg hc]
        by_cases hcount : acc.size + (r + 3 + if s.getD 0 = 18 then 8 else 0) > total
        · rw [if_pos hcount, if_pos hcount]
          exact ReadsAlike.fail_bind _ _ _
        · rw [if_neg hcount, if_neg hcount]
          exact ih _ (by simp only [Array.size_append, Array.size_replicate]; omega) _ _ rfl
  · simp only [hlt, if_false]
    exact ReadsAlike.pure rfl

/-- The lengths of the code length code, three bits each, are read alike. -/
theorem mapM_take_readsAlike (hAB : A.toList <+: B.toList) (q : Nat) : ∀ m : Nat,
    ReadsAlike (8 * A.size) q (fun _ => q + 3 * m)
      ((List.range m).mapM fun i => take A (q + 3 * i) 3)
      ((List.range m).mapM fun i => take B (q + 3 * i) 3)
  | 0 => ReadsAlike.pure rfl
  | m + 1 => by
    rw [List.range_succ, List.mapM_append, List.mapM_append]
    refine (mapM_take_readsAlike hAB q m).bind fun a => ?_
    simp only [List.mapM_cons, List.mapM_nil, pure_bind, bind_assoc]
    refine (take_readsAlike hAB (q + 3 * m) 3).bind fun b => ReadsAlike.pure ?_
    omega

/-- **The code tables of a dynamic block are read alike.** -/
theorem readTables_readsAlike (hAB : A.toList <+: B.toList) (pos : Nat) :
    ReadsAlike (8 * A.size) pos (fun t => t.2.2) (readTables A pos) (readTables B pos) := by
  unfold readTables
  refine (take_readsAlike hAB pos 5).bind fun v1 => ?_
  refine (take_readsAlike hAB (pos + 5) 5).bind fun v2 => ?_
  refine (take_readsAlike hAB (pos + 5 + 5) 4).bind fun v3 => ?_
  dsimp only
  split_ifs with hcounts
  · exact ReadsAlike.fail_bind _ _ _
  refine (mapM_take_readsAlike hAB (pos + 14) (v3 + 4)).bind fun sent => ?_
  split_ifs
  · exact ReadsAlike.fail_bind _ _ _
  refine (readLengths_readsAlike hAB _ _ _ _ _ rfl).bind fun ⟨lens, p⟩ => ?_
  dsimp only
  split_ifs
  all_goals first
    | exact ReadsAlike.fail_bind _ _ _
    | exact ReadsAlike.pure rfl

/-- **The rest of a copy is read alike**: its extra length bits, its distance code and the
distance's extra bits. -/
theorem readCopy_readsAlike (hAB : A.toList <+: B.toList) (dist : Huffman) (s pos : Nat) :
    ReadsAlike (8 * A.size) pos (fun c => c.2.2) (readCopy A dist s pos) (readCopy B dist s pos) := by
  unfold readCopy
  refine (take_readsAlike hAB pos _).bind fun e => ?_
  refine (symbol?_readsAlike hAB dist _).bind fun ⟨d, p⟩ => ?_
  cases d with
  | none => exact ReadsAlike.fail _
  | some d =>
    dsimp only
    split_ifs
    · exact ReadsAlike.fail_bind _ _ _
    · exact (take_readsAlike hAB p _).bind fun _ => ReadsAlike.pure rfl

/-! ## Steps that agree -/

namespace Step

/-- Where a step leaves the reader, in bits: where it goes on, or where the stream it ends
finishes. A stream that stops otherwise is nowhere. -/
def reach : Step → Option Nat
  | .next _ pos _ => some pos
  | .stop ⟨_, .finished n⟩ => some (8 * n)
  | .stop _ => none

/-- The output a step leaves. -/
def output : Step → Array UInt8
  | .next _ _ out => out
  | .stop t => t.output

theorem reach_fault {o : Array UInt8} {e : Stop} (he : ∀ n, e ≠ .finished n) :
    (Step.stop ⟨o, e⟩).reach = none := by
  cases e with
  | finished n => exact absurd rfl (he n)
  | _ => rfl

end Step

/-- A step of the reader on the cut input, `a`, against the same step on the whole input, `b`,
as `Agrees` has it for reads: the same step, or a stop for want of input with a beginning of
the other's output; a place the cut input's step reaches lies inside it; and a place inside it
that the whole input's step reaches, the cut input's step reaches alike. -/
structure StepAgrees (lim : Nat) (a b : Step) : Prop where
  eq_or_starved : a = b ∨ ∃ o, a = .stop ⟨o, .starved⟩ ∧ o.toList <+: b.output.toList
  within : ∀ r, a.reach = some r → r ≤ lim
  eq_of_within : ∀ r, b.reach = some r → r ≤ lim → a = b

/-- A step from `pos` with output `out` reaches no place before `pos` and keeps `out`. -/
structure StepAfter (pos : Nat) (out : Array UInt8) (b : Step) : Prop where
  reach : ∀ r, b.reach = some r → pos ≤ r
  output : out.toList <+: b.output.toList

/-- Steps from `pos` with output `out` that agree whenever they start inside the cut input. -/
structure StepsAlike (lim pos : Nat) (out : Array UInt8) (a b : Step) : Prop where
  agrees : pos ≤ lim → StepAgrees lim a b
  after : StepAfter pos out b

theorem StepAfter.fault {pos : Nat} {out o : Array UInt8} {e : Stop}
    (he : ∀ n, e ≠ .finished n) (ho : out.toList <+: o.toList) :
    StepAfter pos out (.stop ⟨o, e⟩) :=
  ⟨fun r hr => (by rw [Step.reach_fault he] at hr; cases hr), ho⟩

theorem StepAfter.weaken {pos p : Nat} {out o : Array UInt8} {b : Step} (h : StepAfter p o b)
    (hp : pos ≤ p) (ho : out.toList <+: o.toList) : StepAfter pos out b :=
  ⟨fun r hr => le_trans hp (h.reach r hr), ho.trans h.output⟩

namespace StepsAlike

variable {lim pos : Nat} {out : Array UInt8}

/-- A step that stops the stream with a fault, alike on both inputs. -/
theorem fault {o : Array UInt8} {e : Stop} (he : ∀ n, e ≠ .finished n)
    (ho : out.toList <+: o.toList) : StepsAlike lim pos out (.stop ⟨o, e⟩) (.stop ⟨o, e⟩) :=
  ⟨fun _ => ⟨.inl rfl, fun r hr => (by rw [Step.reach_fault he] at hr; cases hr),
    fun _ _ _ => rfl⟩, StepAfter.fault he ho⟩

/-- A step that goes on at `p`, alike on both inputs. -/
theorem next (ph : Phase) (p : Nat) {o : Array UInt8} (ho : out.toList <+: o.toList) :
    StepsAlike lim p out (.next ph p o) (.next ph p o) :=
  ⟨fun hp => ⟨.inl rfl, fun r hr => (by cases hr; exact hp), fun _ _ _ => rfl⟩,
    ⟨fun r hr => (by cases hr; exact le_rfl), ho⟩⟩

/-- Steps known from a later place `p` and a longer output `o`. -/
theorem weaken {p : Nat} {o : Array UInt8} {a b : Step} (h : StepsAlike lim p o a b)
    (hp : pos ≤ p) (hlim : pos ≤ lim → p ≤ lim) (ho : out.toList <+: o.toList) :
    StepsAlike lim pos out a b :=
  ⟨fun hpos => h.agrees (hlim hpos),
    ⟨fun r hr => le_trans hp (h.after.reach r hr), ho.trans h.after.output⟩⟩

/-- A step that stops for want of input on the cut input, against a step of the whole input
that reaches no place before `q`, past the cut input's end. -/
theorem starved {q : Nat} {o o' : Array UInt8} {b : Step} (hafter : StepAfter q o' b)
    (hpq : pos ≤ q) (hbeyond : lim < q) (ho : o.toList <+: o'.toList)
    (hout : out.toList <+: o'.toList) : StepsAlike lim pos out (.stop ⟨o, .starved⟩) b :=
  ⟨fun _ => ⟨.inr ⟨o, rfl, ho.trans hafter.output⟩, fun r hr => (by cases hr),
      fun r hr hin => absurd (hafter.reach r hr) (by omega)⟩,
    ⟨fun r hr => le_trans hpq (hafter.reach r hr), hout.trans hafter.output⟩⟩

/-- **Steps that start with a read agree** when the read does: they stop where it fails, and
go on alike from where it ends. -/
theorem of_read {γ : Type} {at_ : γ → Nat} (a b : Except Stop γ) (FA FB : Except Stop γ → Step)
    (h : ReadsAlike lim pos at_ a b)
    (hA : ∀ e, FA (.error e) = .stop ⟨out, e⟩) (hB : ∀ e, FB (.error e) = .stop ⟨out, e⟩)
    (hk : ∀ x, StepsAlike lim (at_ x) out (FA (.ok x)) (FB (.ok x))) :
    StepsAlike lim pos out (FA a) (FB b) := by
  have hafter : StepAfter pos out (FB b) := by
    cases b with
    | error e =>
      rw [hB]
      exact StepAfter.fault (fun n => h.noFinish e n rfl) (List.prefix_refl _)
    | ok x =>
      exact ⟨fun r hr => le_trans (h.endsAfter x rfl) ((hk x).after.reach r hr),
        (hk x).after.output⟩
  refine ⟨fun hpos => ?_, hafter⟩
  have hag := h.agrees hpos
  rcases hag.eq_or_starved with rfl | hstarved
  · cases a with
    | error e =>
      rw [hA, hB]
      exact (fault (fun n => h.noFinish e n rfl) (List.prefix_refl _)).agrees hpos
    | ok x => exact (hk x).agrees (hag.within x rfl)
  · -- the cut input ran out during the read: the whole input's step reaches past it
    rw [hstarved, hA]
    refine ⟨.inr ⟨out, rfl, hafter.output⟩, fun r hr => (by cases hr), fun r hr hin => ?_⟩
    cases b with
    | error e =>
      rw [hB, Step.reach_fault (fun n => h.noFinish e n rfl)] at hr
      cases hr
    | ok x =>
      have heq := hag.eq_of_within x rfl (le_trans ((hk x).after.reach r hr) hin)
      rw [hstarved] at heq
      cases heq

end StepsAlike

theorem trailer_after (input : Array UInt8) (p : Nat) (out : Array UInt8) :
    StepAfter p out (.stop (trailer input p out)) := by
  have hle := le_align p
  unfold trailer
  dsimp only
  split_ifs
  · exact StepAfter.fault (fun _ => Stop.noConfusion) (List.prefix_refl _)
  · exact ⟨fun r hr => (by cases hr; omega), List.prefix_refl _⟩
  · exact StepAfter.fault (fun _ => Stop.noConfusion) (List.prefix_refl _)

/-- **The checksum is read alike** while the cut input holds it. -/
theorem trailer_stepsAlike (hAB : A.toList <+: B.toList) (p : Nat) (out : Array UInt8) :
    StepsAlike (8 * A.size) p out (.stop (trailer A p out)) (.stop (trailer B p out)) := by
  have hle := le_align p
  by_cases hA : A.size < align p / 8 + 4
  · have hstarved : trailer A p out = ⟨out, .starved⟩ := by
      unfold trailer
      rw [if_pos hA]
    rw [hstarved]
    refine ⟨fun hp => ?_, trailer_after B p out⟩
    refine ⟨.inr ⟨out, rfl, (trailer_after B p out).output⟩, fun r hr => (by cases hr),
      fun r hr hin => ?_⟩
    -- the whole input's checksum ends past the cut input
    unfold trailer at hr
    dsimp only at hr
    split_ifs at hr <;> cases hr
    omega
  · have hB : ¬ B.size < align p / 8 + 4 := by
      have := prefix_size_le hAB
      omega
    have heq : trailer A p out = trailer B p out := by
      unfold trailer
      rw [if_neg hA, if_neg hB, prefix_extract_of_le hAB (by omega)]
    rw [← heq]
    refine ⟨fun _ => ⟨.inl rfl, fun r hr => ?_, fun _ _ _ => rfl⟩, heq ▸ trailer_after B p out⟩
    unfold trailer at hr
    dsimp only at hr
    rw [if_neg hA] at hr
    split_ifs at hr <;> cases hr
    omega

/-- **The end of the stream is read alike**: the next byte boundary for a raw stream, the
checksum for a zlib stream. -/
theorem finish_stepsAlike (hAB : A.toList <+: B.toList) (raw : Bool) (p : Nat)
    (out : Array UInt8) :
    StepsAlike (8 * A.size) p out (.stop (finish raw A p out)) (.stop (finish raw B p out)) := by
  cases raw with
  | true =>
    have hle := le_align p
    refine ⟨fun hp => ⟨.inl rfl, fun r hr => ?_, fun _ _ _ => rfl⟩,
      ⟨fun r hr => (by cases hr; exact hle), List.prefix_refl _⟩⟩
    cases hr
    have := align_le hp
    omega
  | false => exact trailer_stepsAlike hAB p out

theorem prefix_append_bytes (out more : Array UInt8) : out.toList <+: (out ++ more).toList := by
  rw [Array.toList_append]
  exact List.prefix_append _ _

theorem prefix_push (out : Array UInt8) (x : UInt8) : out.toList <+: (out.push x).toList := by
  rw [Array.toList_push]
  exact List.prefix_append _ _

theorem finish_after (input : Array UInt8) (raw : Bool) (p : Nat) (out : Array UInt8) :
    StepAfter p out (.stop (finish raw input p out)) :=
  (finish_stepsAlike (List.prefix_refl input.toList) raw p out).after

/-- A stored block reaches no place before the end of its two lengths. -/
theorem headerStep_stored_after (input : Array UInt8) (raw : Bool) (pos : Nat) (out : Array UInt8)
    {hdr : Nat} (hbits : bits? input pos 3 = some hdr) (hkind : hdr / 2 = 0) :
    StepAfter (8 * (align (pos + 3) / 8 + 4)) out (headerStep raw input pos out) := by
  unfold headerStep
  rw [hbits]
  dsimp only
  rw [if_pos hkind]
  split_ifs
  · exact StepAfter.fault (fun _ => Stop.noConfusion) (List.prefix_refl _)
  · exact StepAfter.fault (fun _ => Stop.noConfusion) (List.prefix_refl _)
  · exact StepAfter.fault (fun _ => Stop.noConfusion) (prefix_append_bytes _ _)
  · exact (finish_after input raw _ _).weaken (by omega) (prefix_append_bytes _ _)
  · exact ⟨fun r hr => (by cases hr; omega), prefix_append_bytes _ _⟩

/-- A copy only appends to the output. -/
theorem prefix_copyBack (dist : Nat) : ∀ (n : Nat) (out : Array UInt8),
    out.toList <+: (copyBack out dist n).toList
  | 0, _ => List.prefix_refl _
  | n + 1, out => (prefix_push out _).trans (prefix_copyBack dist n _)

/-- **A symbol of a block is read alike**: a literal, the end of the block or a copy. -/
theorem symbolStep_stepsAlike (hAB : A.toList <+: B.toList) (raw last : Bool) (lit dist : Huffman)
    (pos : Nat) (out : Array UInt8) :
    StepsAlike (8 * A.size) pos out (symbolStep raw A last lit dist pos out)
      (symbolStep raw B last lit dist pos out) := by
  unfold symbolStep
  have h := symbol?_readsAlike hAB lit pos
  generalize symbol? A lit pos = ra at h ⊢
  generalize symbol? B lit pos = rb at h ⊢
  apply StepsAlike.of_read ra rb _ _ h (fun _ => rfl) (fun _ => rfl)
  rintro ⟨s?, p⟩
  cases s? with
  | none => exact StepsAlike.fault (fun _ => Stop.noConfusion) (List.prefix_refl _)
  | some s =>
    dsimp only
    by_cases hlit : s < 256
    · rw [if_pos hlit, if_pos hlit]
      exact StepsAlike.next _ _ (prefix_push out _)
    rw [if_neg hlit, if_neg hlit]
    by_cases hend : s = 256
    · rw [if_pos hend, if_pos hend]
      cases last
      · exact StepsAlike.next _ _ (List.prefix_refl _)
      · exact finish_stepsAlike hAB raw p out
    rw [if_neg hend, if_neg hend]
    by_cases hbad : s > 285
    · rw [if_pos hbad, if_pos hbad]
      exact StepsAlike.fault (fun _ => Stop.noConfusion) (List.prefix_refl _)
    rw [if_neg hbad, if_neg hbad]
    -- a copy: its length and distance, then the bytes it appends
    have hc := readCopy_readsAlike hAB dist s p
    generalize readCopy A dist s p = ca at hc ⊢
    generalize readCopy B dist s p = cb at hc ⊢
    apply StepsAlike.of_read ca cb _ _ hc (fun _ => rfl) (fun _ => rfl)
    rintro ⟨length, d, q⟩
    dsimp only
    split_ifs
    · exact StepsAlike.fault (fun _ => Stop.noConfusion) (List.prefix_refl _)
    · exact StepsAlike.next _ _ (prefix_copyBack d length out)

theorem headerStep_stored_stepsAlike (hAB : A.toList <+: B.toList) (raw : Bool) (pos : Nat)
    (out : Array UInt8) {hdr : Nat} (hA : bits? A pos 3 = some hdr) (hB : bits? B pos 3 = some hdr)
    (hkind : hdr / 2 = 0) :
    StepsAlike (8 * A.size) (pos + 3) out (headerStep raw A pos out) (headerStep raw B pos out) := by
  have hsize := prefix_size_le hAB
  have hstart := le_align (pos + 3)
  by_cases hA4 : A.size < align (pos + 3) / 8 + 4
  · -- the cut input ends inside the two lengths
    have hstop : headerStep raw A pos out = .stop ⟨out, .starved⟩ := by
      unfold headerStep
      rw [hA]
      dsimp only
      rw [if_pos hkind, if_pos hA4]
    rw [hstop]
    exact StepsAlike.starved (headerStep_stored_after B raw pos out hB hkind) (by omega)
      (by omega) (List.prefix_refl _) (List.prefix_refl _)
  have hB4 : ¬ B.size < align (pos + 3) / 8 + 4 := by omega
  unfold headerStep
  rw [hA, hB]
  dsimp only
  rw [if_pos hkind, if_pos hkind, if_neg hA4, if_neg hB4, prefix_getD hAB (by omega),
    prefix_getD hAB (i := align (pos + 3) / 8 + 1) (by omega),
    prefix_getD hAB (i := align (pos + 3) / 8 + 2) (by omega),
    prefix_getD hAB (i := align (pos + 3) / 8 + 3) (by omega)]
  set at_ := align (pos + 3) / 8
  set len := (B.getD at_ 0).toNat + 256 * (B.getD (at_ + 1) 0).toNat
  have hbad : StepsAlike (8 * A.size) (pos + 3) out
      (.stop ⟨out, .failed "invalid stored block lengths"⟩)
      (.stop ⟨out, .failed "invalid stored block lengths"⟩) :=
    StepsAlike.fault (fun _ => Stop.noConfusion) (List.prefix_refl _)
  by_cases hAlen : A.size < at_ + 4 + len
  · -- the cut input ends inside the block's bytes
    have hpart := prefix_extract hAB (at_ + 4) (at_ + 4 + len)
    rw [if_pos hAlen]
    by_cases hBlen : B.size < at_ + 4 + len
    · rw [if_pos hBlen]
      split_ifs
      · exact hbad
      · refine ⟨fun _ => ⟨.inr ⟨_, rfl, ?_⟩, fun r hr => (by cases hr), fun r hr => (by cases hr)⟩,
          StepAfter.fault (fun _ => Stop.noConfusion) (prefix_append_bytes _ _)⟩
        simpa [Step.output, Array.toList_append] using hpart
    · rw [if_neg hBlen]
      have hpart' : (out ++ A.extract (at_ + 4) (at_ + 4 + len)).toList <+:
          (out ++ B.extract (at_ + 4) (at_ + 4 + len)).toList := by
        simpa [Array.toList_append] using hpart
      split_ifs
      · exact hbad
      · exact StepsAlike.starved (finish_after B raw _ _) (by omega) (by omega) hpart'
          (prefix_append_bytes _ _)
      · exact StepsAlike.starved ⟨fun r hr => (by cases hr; exact le_rfl), List.prefix_refl _⟩
          (by omega) (by omega) hpart' (prefix_append_bytes _ _)
  · -- the block lies inside the cut input
    have hBlen : ¬ B.size < at_ + 4 + len := by omega
    rw [if_neg hAlen, if_neg hBlen, prefix_extract_of_le hAB (by omega)]
    split_ifs
    · exact hbad
    · exact (finish_stepsAlike hAB raw _ _).weaken (by omega) (fun _ => by omega)
        (prefix_append_bytes _ _)
    · exact (StepsAlike.next _ _ (prefix_append_bytes _ _)).weaken (by omega) (fun _ => by omega)
        (List.prefix_refl _)

/-- A block header reaches no place before its three bits. -/
theorem headerStep_after (input : Array UInt8) (raw : Bool) (pos : Nat) (out : Array UInt8) :
    StepAfter (pos + 3) out (headerStep raw input pos out) := by
  have htables := readTables_readsAlike (List.prefix_refl input.toList) (pos + 3)
  cases hbits : bits? input pos 3 with
  | none =>
    unfold headerStep
    rw [hbits]
    exact StepAfter.fault (fun _ => Stop.noConfusion) (List.prefix_refl _)
  | some hdr =>
    by_cases hkind0 : hdr / 2 = 0
    · have := le_align (pos + 3)
      exact (headerStep_stored_after input raw pos out hbits hkind0).weaken (by omega)
        (List.prefix_refl _)
    unfold headerStep
    rw [hbits]
    dsimp only
    rw [if_neg hkind0]
    split_ifs
    · exact ⟨fun r hr => (by cases hr; exact le_rfl), List.prefix_refl _⟩
    · split
      · exact StepAfter.fault (fun n => htables.noFinish _ n ‹_›) (List.prefix_refl _)
      · exact ⟨fun r hr => (by cases hr; exact htables.endsAfter _ ‹_›), List.prefix_refl _⟩
    · exact StepAfter.fault (fun _ => Stop.noConfusion) (List.prefix_refl _)

/-- The block a header announces, once its three bits are read alike. -/
theorem headerStep_block_stepsAlike (hAB : A.toList <+: B.toList) (raw : Bool) (pos : Nat)
    (out : Array UInt8) {hdr : Nat} (hA : bits? A pos 3 = some hdr) (hB : bits? B pos 3 = some hdr) :
    StepsAlike (8 * A.size) (pos + 3) out (headerStep raw A pos out) (headerStep raw B pos out) := by
  by_cases hkind0 : hdr / 2 = 0
  · exact headerStep_stored_stepsAlike hAB raw pos out hA hB hkind0
  unfold headerStep
  rw [hA, hB]
  dsimp only
  rw [if_neg hkind0, if_neg hkind0]
  by_cases hkind1 : hdr / 2 = 1
  · rw [if_pos hkind1, if_pos hkind1]
    exact StepsAlike.next _ _ (List.prefix_refl _)
  rw [if_neg hkind1, if_neg hkind1]
  by_cases hkind2 : hdr / 2 = 2
  · rw [if_pos hkind2, if_pos hkind2]
    have h := readTables_readsAlike hAB (pos + 3)
    generalize readTables A (pos + 3) = ra at h ⊢
    generalize readTables B (pos + 3) = rb at h ⊢
    apply StepsAlike.of_read ra rb _ _ h (fun _ => rfl) (fun _ => rfl)
    rintro ⟨lit, dist, p⟩
    exact StepsAlike.next _ _ (List.prefix_refl _)
  rw [if_neg hkind2, if_neg hkind2]
  exact StepsAlike.fault (fun _ => Stop.noConfusion) (List.prefix_refl _)

/-- **A block header is read alike**, and a stored block whole. -/
theorem headerStep_stepsAlike (hAB : A.toList <+: B.toList) (raw : Bool) (pos : Nat)
    (out : Array UInt8) :
    StepsAlike (8 * A.size) pos out (headerStep raw A pos out) (headerStep raw B pos out) := by
  by_cases h3 : 3 ≤ remaining A pos
  · have hbits := prefix_bits? hAB h3
    cases hB : bits? B pos 3 with
    | none =>
      unfold headerStep
      rw [hbits, hB]
      exact StepsAlike.fault (fun _ => Stop.noConfusion) (List.prefix_refl _)
    | some hdr =>
      unfold remaining at h3
      exact (headerStep_block_stepsAlike hAB raw pos out (hbits.trans hB) hB).weaken (by omega)
        (fun _ => by omega) (List.prefix_refl _)
  · -- the cut input ends inside the header
    have hA : headerStep raw A pos out = .stop ⟨out, .starved⟩ := by
      unfold headerStep bits?
      rw [if_neg h3]
    rw [hA]
    unfold remaining at h3
    exact StepsAlike.starved (headerStep_after B raw pos out) (by omega) (by omega)
      (List.prefix_refl _) (List.prefix_refl _)

/-- **A step of the reader is read alike**, whatever the phase. -/
theorem step_stepsAlike (hAB : A.toList <+: B.toList) (raw : Bool) :
    ∀ (ph : Phase) (pos : Nat) (out : Array UInt8),
      StepsAlike (8 * A.size) pos out (step raw A ph pos out) (step raw B ph pos out)
  | .header, pos, out => headerStep_stepsAlike hAB raw pos out
  | .symbols last lit dist, pos, out => symbolStep_stepsAlike hAB raw last lit dist pos out

/-! ## Runs that agree -/

/-- Two reads of a stream agree as steps that stop the stream do. -/
abbrev TraceAgrees (lim : Nat) (a b : Trace) : Prop := StepAgrees lim (.stop a) (.stop b)

/-- A run reaches no place before where it starts, and only appends to the output. -/
theorem run_after (input : Array UInt8) (raw : Bool) :
    ∀ (fuel : Nat) (ph : Phase) (pos : Nat) (out : Array UInt8),
      StepAfter pos out (.stop (run raw input fuel ph pos out))
  | 0, _, _, _ => StepAfter.fault (fun _ => Stop.noConfusion) (List.prefix_refl _)
  | fuel + 1, ph, pos, out => by
    have hs := (step_stepsAlike (List.prefix_refl input.toList) raw ph pos out).after
    rw [run]
    cases hstep : step raw input ph pos out with
    | stop t => rw [hstep] at hs; exact hs
    | next ph' p o =>
      rw [hstep] at hs
      exact (run_after input raw fuel ph' p o).weaken (hs.reach p rfl) hs.output

/-- **A run agrees step by step**, for any fuel: on the cut input it gives the whole input's
trace or runs out of input with a beginning of its output, and where either finishes inside the
cut input, both finish alike. -/
theorem run_agrees (hAB : A.toList <+: B.toList) (raw : Bool) :
    ∀ (fuel : Nat) (ph : Phase) (pos : Nat) (out : Array UInt8), pos ≤ 8 * A.size →
      TraceAgrees (8 * A.size) (run raw A fuel ph pos out) (run raw B fuel ph pos out)
  | 0, _, _, _, _ => ⟨.inl rfl, fun r hr => (by cases hr), fun _ _ _ => rfl⟩
  | fuel + 1, ph, pos, out, hpos => by
    have hs := (step_stepsAlike hAB raw ph pos out).agrees hpos
    rw [run, run]
    rcases hs.eq_or_starved with heq | ⟨o, hstarved, ho⟩
    · rw [heq] at hs ⊢
      cases hstep : step raw B ph pos out with
      | stop t =>
        rw [hstep] at hs
        exact ⟨.inl rfl, hs.within, fun _ _ _ => rfl⟩
      | next ph' p o' =>
        rw [hstep] at hs
        exact run_agrees hAB raw fuel ph' p o' (hs.within p rfl)
    · -- the cut input ran out in this step; the whole input's run ends past it, if it ends
      rw [hstarved]
      cases hstep : step raw B ph pos out with
      | stop t =>
        rw [hstep] at hs ho
        refine ⟨.inr ⟨o, rfl, ho⟩, fun r hr => (by cases hr), fun r hr hin => ?_⟩
        rw [← hstarved]
        exact hs.eq_of_within r hr hin
      | next ph' p o' =>
        rw [hstep] at hs ho
        have hafter := run_after B raw fuel ph' p o'
        refine ⟨.inr ⟨o, rfl, ho.trans hafter.output⟩, fun r hr => (by cases hr),
          fun r hr hin => ?_⟩
        have heq := hs.eq_of_within p rfl (le_trans (hafter.reach r hr) hin)
        rw [hstarved] at heq
        cases heq

/-! ## Enough fuel -/

/-- A symbol's code takes at least one bit. -/
theorem symbol?_advances {input : Array UInt8} {h : Huffman} {pos : Nat} {s : Option Nat}
    {p : Nat} (hsym : symbol? input h pos = .ok (s, p)) : pos + 1 ≤ p := by
  unfold symbol? Huffman.decode at hsym
  split at hsym
  · cases hsym
  · rename_i n hgo
    cases hsym
    have := decode_go_length hgo
    omega

/-- With no bit left, a step stops for want of input. -/
theorem step_of_end (input : Array UInt8) (raw : Bool) (ph : Phase) {pos : Nat}
    (out : Array UInt8) (hend : 8 * input.size ≤ pos) :
    step raw input ph pos out = .stop ⟨out, .starved⟩ := by
  have hnone : ¬ 3 ≤ remaining input pos := by unfold remaining; omega
  cases ph with
  | header =>
    rw [step, headerStep, bits?, if_neg hnone]
  | symbols last lit dist =>
    rw [step, symbolStep, symbol?, Huffman.decode,
      decode_go_of_lt (by omega) (by unfold remaining; omega)]

/-- **A step that goes on has read at least one bit.** -/
theorem step_advances {input : Array UInt8} {raw : Bool} {ph ph' : Phase} {pos p : Nat}
    {out o : Array UInt8} (h : step raw input ph pos out = .next ph' p o) : pos < p := by
  cases ph with
  | header =>
    rw [step] at h
    have := (headerStep_after input raw pos out).reach p (by rw [h]; rfl)
    omega
  | symbols last lit dist =>
    rw [step, symbolStep] at h
    split at h
    · cases h
    · cases h
    · rename_i s q hsym
      have hq := symbol?_advances hsym
      split_ifs at h
      · cases h
        omega
      · cases h
        omega
      · -- a copy goes on from where its distance ends
        split at h
        · cases h
        · rename_i copy hcopy
          have := (readCopy_readsAlike (List.prefix_refl input.toList) dist s q).endsAfter _ hcopy
          split_ifs at h
          cases h
          dsimp only at this
          omega

/-- **Fuel for one step per bit is enough**: a run from `pos` with fuel that reaches the end of
the input gives the same trace with any more fuel. -/
theorem run_add_fuel (input : Array UInt8) (raw : Bool) (k : Nat) :
    ∀ (f : Nat) (ph : Phase) (pos : Nat) (out : Array UInt8), 8 * input.size ≤ pos + f →
      run raw input (f + k) ph pos out = run raw input f ph pos out
  | 0, ph, pos, out, hend => by
    cases k with
    | zero => rfl
    | succ k =>
      rw [Nat.zero_add, run.eq_2, step_of_end input raw ph out (by omega)]
      rfl
  | f + 1, ph, pos, out, hend => by
    rw [show f + 1 + k = f + k + 1 by omega, run, run]
    cases hstep : step raw input ph pos out with
    | stop t => rfl
    | next ph' p o =>
      have := step_advances hstep
      exact run_add_fuel input raw k f ph' p o (by omega)

/-! ## A zlib stream cut short -/

theorem Step.reach_finished {t : Trace} {n : Nat} (h : t.stop = .finished n) :
    (Step.stop t).reach = some (8 * n) := by
  obtain ⟨o, e⟩ := t
  cases h
  rfl

/-- A stream reaches a place only where it finishes. -/
theorem Step.finished_of_reach {t : Trace} {r : Nat} (h : (Step.stop t).reach = some r) :
    ∃ n, t.stop = .finished n ∧ r = 8 * n := by
  obtain ⟨o, e⟩ := t
  cases e with
  | finished n =>
    cases h
    exact ⟨n, rfl, rfl⟩
  | _ => cases h

theorem StepAgrees.fault {lim : Nat} {o : Array UInt8} {e : Stop} (he : ∀ n, e ≠ .finished n) :
    StepAgrees lim (.stop ⟨o, e⟩) (.stop ⟨o, e⟩) :=
  ⟨.inl rfl, fun r hr => (by rw [Step.reach_fault he] at hr; cases hr), fun _ _ _ => rfl⟩

/-- A zlib stream finishes after its two header bytes. -/
theorem traceAt_finished_ge (input : Array UInt8) (start : Nat) {n : Nat}
    (h : (traceAt input start).stop = .finished n) : start + 2 ≤ n := by
  unfold traceAt at h
  split at h
  · split_ifs at h
    have := (run_after input false _ _ _ _).reach _ (Step.reach_finished h)
    omega
  · cases h

theorem traceAt_agrees (hAB : A.toList <+: B.toList) (start : Nat) :
    TraceAgrees (8 * A.size) (traceAt A start) (traceAt B start) := by
  have hsize := prefix_size_le hAB
  by_cases hlen : start + 1 < A.size
  · have h0 := prefix_getElem? hAB (i := start) (by omega)
    have h1 := prefix_getElem? hAB (i := start + 1) hlen
    unfold traceAt
    rw [← h0, ← h1, Array.getElem?_eq_getElem (by omega), Array.getElem?_eq_getElem hlen]
    dsimp only
    split_ifs
    · exact StepAgrees.fault fun _ => Stop.noConfusion
    · exact StepAgrees.fault fun _ => Stop.noConfusion
    · exact StepAgrees.fault fun _ => Stop.noConfusion
    · exact StepAgrees.fault fun _ => Stop.noConfusion
    · exact ⟨.inr ⟨#[], rfl, List.nil_prefix⟩, fun r hr => (by cases hr), fun r hr => (by cases hr)⟩
    · omega
    · exact StepAgrees.fault fun _ => Stop.noConfusion
    · -- the blocks: with fuel for every bit of the whole input, the cut input's run is the same
      have hfuel : run false A (8 * A.size + 8) .header (8 * start + 16) #[] =
          run false A (8 * B.size + 8) .header (8 * start + 16) #[] := by
        rw [show 8 * B.size + 8 = 8 * A.size + 8 + (8 * B.size - 8 * A.size) by omega,
          run_add_fuel A false (8 * B.size - 8 * A.size) (8 * A.size + 8) _ _ _ (by omega)]
      rw [hfuel]
      exact run_agrees hAB false _ _ _ _ (by omega)
  · -- the cut input ends inside the header: the whole input's stream finishes past it
    have hA : traceAt A start = ⟨#[], .starved⟩ := by
      unfold traceAt
      split
      · rename_i cmf flg _ h1
        rw [Array.getElem?_eq_none (by omega)] at h1
        cases h1
      · rfl
    rw [hA]
    refine ⟨.inr ⟨#[], rfl, List.nil_prefix⟩, fun r hr => (by cases hr), fun r hr hin => ?_⟩
    obtain ⟨n, hn, rfl⟩ := Step.finished_of_reach hr
    have := traceAt_finished_ge B start hn
    omega

end GitServer.Deflate.Inflate

namespace GitServer.Zlib

open Deflate Inflate

variable {A B : Array UInt8}

/-- An entry is read from the trace of its stream alone. -/
theorem readEntryAt_congr {start declared : Nat} (h : traceAt A start = traceAt B start) :
    readEntryAt A start declared = readEntryAt B start declared := by
  unfold readEntryAt
  rw [h]

theorem settle_complete {t : Trace} {start declared consumed : Nat} {data : Bytes}
    (h : settle t start declared = .ok (.complete data consumed)) :
    ∃ n, t.stop = .finished n ∧ t.output.size = declared ∧ consumed = n - start := by
  unfold settle at h
  split at h
  · rename_i n hn
    split_ifs at h with hsize
    cases h
    exact ⟨n, hn, hsize, rfl⟩
  · cases h
  · cases h
  · cases h
  · split_ifs at h
    cases h

/-- An entry read in full comes from a stream that finished with the declared size. -/
theorem readEntryAt_complete {input : Array UInt8} {start declared consumed : Nat} {data : Bytes}
    (h : readEntryAt input start declared = .ok (.complete data consumed)) :
    ∃ n, (traceAt input start).stop = .finished n ∧
      (traceAt input start).output.size = declared ∧ consumed = n - start := by
  unfold readEntryAt at h
  dsimp only at h
  split_ifs at h <;> exact settle_complete h

/-- A stream that ran out of input with no more than the declared data asks for more. -/
theorem readEntryAt_needMore {input : Array UInt8} {start declared : Nat}
    (hstop : (traceAt input start).stop = .starved)
    (hsize : (traceAt input start).output.size ≤ declared) :
    readEntryAt input start declared = .ok .needMore := by
  have hreach : reaches (traceAt input start) (max declared 64) = true := by
    unfold reaches
    rw [hstop]
    simp only [decide_eq_true_eq]
    omega
  unfold readEntryAt
  simp only [hreach, if_true]
  unfold settle
  rw [hstop]
  simp only [gt_iff_lt, if_neg (Nat.not_lt.mpr hsize)]

/-- **A compressed entry cut short asks for more input.** Where the whole input holds an entry
that ends at byte `start + consumed`, the cut input reads it alike when it reaches that byte,
and otherwise answers that it needs more, never with an error. -/
theorem readEntryAt_shorter (hAB : A.toList <+: B.toList) {start declared consumed : Nat}
    {data : Bytes} (hB : readEntryAt B start declared = .ok (.complete data consumed)) :
    readEntryAt A start declared =
      if start + consumed ≤ A.size then .ok (.complete data consumed) else .ok .needMore := by
  obtain ⟨n, hn, hsize, rfl⟩ := readEntryAt_complete hB
  have hstart := traceAt_finished_ge B start hn
  have hagree := traceAt_agrees hAB start
  split_ifs with hin
  · -- the stream finishes inside the cut input
    rw [readEntryAt_congr (Step.stop.inj (hagree.eq_of_within _ (Step.reach_finished hn)
      (by omega))), hB]
  · -- it finishes past the cut input, so the cut input's read ran out first
    rcases hagree.eq_or_starved with heq | ⟨o, hstarved, ho⟩
    · have := hagree.within _ (heq ▸ Step.reach_finished hn)
      omega
    · have ht := Step.stop.inj hstarved
      have hlen := ho.length_le
      simp only [Step.output, Array.length_toList] at hlen
      exact readEntryAt_needMore (by rw [ht]) (by rw [ht]; exact le_trans hlen hsize.le)

/-- **A compressed entry read in full is read alike from more input.** -/
theorem readEntryAt_extend (hAB : A.toList <+: B.toList) {start declared consumed : Nat}
    {data : Bytes} (hA : readEntryAt A start declared = .ok (.complete data consumed)) :
    readEntryAt B start declared = .ok (.complete data consumed) := by
  obtain ⟨n, hn, -, -⟩ := readEntryAt_complete hA
  rcases (traceAt_agrees hAB start).eq_or_starved with heq | ⟨o, hstarved, -⟩
  · rw [← readEntryAt_congr (Step.stop.inj heq), hA]
  · rw [Step.stop.inj hstarved] at hn
    cases hn

end GitServer.Zlib
