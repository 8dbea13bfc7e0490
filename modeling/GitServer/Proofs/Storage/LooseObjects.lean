import GitServer.Proofs.Deflate.Stored
import GitServer.Proofs.Storage.ObjectMap
import GitServer.Proofs.Text.Utf8
import GitServer.Storage.Local
import Mathlib

/-!
# Loose objects and the object cache

A directory tree keeps each object as a loose file: a zlib stream of the object's header, the
kind's name, a space and the size in decimal, then a zero byte and the content. Written by
`Zlib.compress`, such a file reads back as the object it was written for, as long as the size
fits the 64 bits the reader allows (`Local.decodeLoose_compress`).

Decoded objects also go through a cache shared by every repository, keyed by the repository's
name and the object's id. Looking an entry up, inserting one and dropping some only ever keep
entries that were there, the one inserted apart (`ObjectCache.entries_lookup`,
`ObjectCache.entries_insert`, `ObjectCache.entries_remove`). So a cache whose entries for a
repository agree with its objects (`CacheHolds`) keeps agreeing as long as what goes in agrees
too.
-/

namespace GitServer

/-! ## Reading back a loose file -/

namespace Numeral

theorem digitValue?_ten_digitChar {d : Nat} (h : d < 10) :
    digitValue? 10 (Nat.digitChar d) = some d := by
  revert d
  decide

theorem digitChar_ten_plain {d : Nat} (h : d < 10) :
    (Nat.digitChar d).toNat < 128 ∧ (Nat.digitChar d).toNat ≠ 0 ∧ Nat.digitChar d ≠ ' ' ∧
      Nat.digitChar d ≠ '+' := by
  revert d
  decide

/-- The decimal digits of `n` read back as `n`. -/
theorem foldlM_toDigits_ten (n : Nat) :
    (Nat.toDigits 10 n).foldlM (fun acc c => (digitValue? 10 c).map (acc * 10 + ·)) 0 =
      some n := by
  induction n using Nat.strong_induction_on with
  | _ n ih =>
    -- `Nat.toDigits` peels the last digit off: the digits of `n / 10`, then `n % 10`.
    rw [Nat.toDigits_eq_if (by decide)]
    split
    · rename_i h
      simp [digitValue?_ten_digitChar h]
    · rename_i h
      rw [List.foldlM_append, ih (n / 10) (by omega)]
      simp [digitValue?_ten_digitChar (Nat.mod_lt n (by decide : 10 > 0)), Nat.div_add_mod']

theorem mem_toDigits_ten {n : Nat} {c : Char} (hc : c ∈ Nat.toDigits 10 n) :
    ∃ d < 10, c = Nat.digitChar d := by
  induction n using Nat.strong_induction_on with
  | _ n ih =>
    rw [Nat.toDigits_eq_if (by decide)] at hc
    split at hc
    · exact ⟨n, by omega, by simpa using hc⟩
    · rcases List.mem_append.1 hc with h | h
      · exact ih (n / 10) (by omega) h
      · exact ⟨n % 10, Nat.mod_lt n (by decide), by simpa using h⟩

theorem toList_toString (n : Nat) : (toString n).toList = Nat.toDigits 10 n := by
  simp [toString, Nat.repr]

theorem digit_of_mem_toString {n : Nat} {c : Char} (hc : c ∈ (toString n).toList) :
    c.toNat < 128 ∧ c.toNat ≠ 0 ∧ c ≠ ' ' ∧ c ≠ '+' := by
  rw [toList_toString] at hc
  obtain ⟨d, hd, rfl⟩ := mem_toDigits_ten hc
  exact digitChar_ten_plain hd

/-- **A size written in decimal reads back**, below any bound above it. -/
theorem parseNat?_toString {n bound : Nat} (h : n < bound) :
    parseNat? 10 bound (toString n) = some n := by
  have hdigits : digits? 10 (toString n).toList = some n := by
    rw [digits?, if_neg (by simp [Nat.toDigits_ne_nil]), toList_toString]
    exact foldlM_toDigits_ten n
  simp only [parseNat?]
  -- the first digit is no plus sign, so the whole text is the numeral
  split
  · rename_i rest hplus
    exact absurd rfl (digit_of_mem_toString (n := n) (c := '+') (by rw [hplus]; simp)).2.2.2
  · simp only [hdigits, Option.bind_some, if_pos h]

end Numeral

namespace ObjectKind

theorem plain_of_mem_name (k : ObjectKind) :
    ∀ c ∈ k.name.toList, c.toNat < 128 ∧ c.toNat ≠ 0 ∧ c ≠ ' ' := by
  have h : k.name.toList.all (fun c => decide (c.toNat < 128 ∧ c.toNat ≠ 0 ∧ c ≠ ' ')) = true := by
    cases k <;> rfl
  simpa using h

/-- The text of a header: the kind's name, a space, and the size in decimal. -/
theorem header_eq (k : ObjectKind) (size : Nat) :
    k.header size = Bytes.ofString (k.name ++ " " ++ toString size) ++ [0] := rfl

theorem ascii_header_text (k : ObjectKind) (size : Nat) :
    ∀ c ∈ (k.name ++ " " ++ toString size).toList, c.toNat < 128 ∧ c.toNat ≠ 0 := by
  intro c hc
  simp only [String.toList_append, List.mem_append] at hc
  rcases hc with (hc | hc) | hc
  · exact ⟨(k.plain_of_mem_name c hc).1, (k.plain_of_mem_name c hc).2.1⟩
  · have : c = ' ' := by simpa using hc
    subst this
    decide
  · exact ⟨(Numeral.digit_of_mem_toString hc).1, (Numeral.digit_of_mem_toString hc).2.1⟩

/-- The zero byte that ends a header is the first one. -/
theorem indexOf?_header (k : ObjectKind) (size : Nat) (d : Bytes) :
    Bytes.indexOf? (k.header size ++ d) 0 =
      some (Bytes.ofString (k.name ++ " " ++ toString size)).length := by
  have hascii := k.ascii_header_text size
  have hnone : (Bytes.ofString (k.name ++ " " ++ toString size)).findIdx? (· == 0) = none := by
    rw [List.findIdx?_eq_none_iff, Bytes.ofString_ascii fun c hc => (hascii c hc).1]
    intro b hb
    obtain ⟨c, hc, rfl⟩ := List.mem_map.mp hb
    have hlt := (hascii c hc).1
    have hne := (hascii c hc).2
    rw [beq_eq_false_iff_ne]
    intro h0
    have := congrArg UInt8.toNat h0
    rw [toNat_ofNat_ascii hlt] at this
    exact hne this
  rw [header_eq, List.append_assoc, Bytes.indexOf?, List.findIdx?_append, hnone]
  simp [List.findIdx?_cons]

end ObjectKind

namespace Local.Handle

/-- The name and the size of a header split at the space between them. -/
theorem splitOnce_header (k : ObjectKind) (size : Nat) :
    splitOnce (k.name ++ " " ++ toString size) ' ' = some (k.name, toString size) := by
  have hnone : k.name.toList.findIdx? (· == ' ') = none := by
    rw [List.findIdx?_eq_none_iff]
    intro c hc
    simpa using (k.plain_of_mem_name c hc).2.2
  have hsplit : (k.name ++ " " ++ toString size).toList =
      k.name.toList ++ ' ' :: (toString size).toList := by
    simp [String.toList_append]
  have hidx : (k.name ++ " " ++ toString size).toList.findIdx? (· == ' ') =
      some k.name.toList.length := by
    rw [hsplit, List.findIdx?_append, hnone]
    simp [List.findIdx?_cons]
  have htake : (k.name ++ " " ++ toString size).toList.take k.name.toList.length =
      k.name.toList := by
    rw [hsplit, List.take_left]
  have hdrop : (k.name ++ " " ++ toString size).toList.drop (k.name.toList.length + 1) =
      (toString size).toList := by
    rw [hsplit]
    simp
  simp only [splitOnce, hidx, htake, hdrop, String.ofList_toList]

/-- **A loose file written for an object reads back as the object**, when the object is whole
and its size fits 64 bits. -/
theorem decodeLoose_compress (id : ObjectId) {k : ObjectKind} (hk : k.isBase = true) {d : Bytes}
    (hd : d.length < 2 ^ 64) :
    decodeLoose id (Zlib.compress (k.header d.length ++ d)) = .ok ⟨k, d, id⟩ := by
  have htake : (k.header d.length ++ d).take
      (Bytes.ofString (k.name ++ " " ++ toString d.length)).length =
        Bytes.ofString (k.name ++ " " ++ toString d.length) := by
    rw [ObjectKind.header_eq, List.append_assoc, List.take_left]
  have hdrop : (k.header d.length ++ d).drop
      ((Bytes.ofString (k.name ++ " " ++ toString d.length)).length + 1) = d := by
    rw [ObjectKind.header_eq, List.append_assoc]
    simp
  simp only [decodeLoose, Zlib.decompress_compress, ObjectKind.indexOf?_header, htake,
    Utf8.decode?_ofString, splitOnce_header, ObjectKind.ofName?_name k hk,
    Numeral.parseNat?_toString (show d.length < Nat.pow 2 64 from hd), hdrop, pure_bind, ne_eq,
    not_true_eq_false, if_false]
  rfl

end Local.Handle

/-! ## The object cache -/

namespace ObjectCache

theorem mem_fitting : ∀ {budget : Nat} {l : List CacheSlot} {s : CacheSlot},
    s ∈ fitting budget l → s ∈ l
  | _, [], _, h => by simp [fitting] at h
  | budget, x :: xs, s, h => by
    simp only [fitting] at h
    split at h
    · rcases List.mem_cons.1 h with rfl | h
      · exact List.mem_cons_self
      · exact List.mem_cons_of_mem _ (mem_fitting h)
    · simp at h

theorem mem_entries {c : ObjectCache} {e : CacheEntry} :
    e ∈ c.entries ↔ ∃ s ∈ c.slots, s.entry = e := by
  simp [entries]

/-- A hit is an entry of the cache, under the key asked for. -/
theorem lookup_fst {c : ObjectCache} {key : String} {e : CacheEntry}
    (h : (c.lookup key).1 = some e) : e ∈ c.entries ∧ e.key = key := by
  simp only [lookup] at h
  split at h
  · rename_i s hs
    cases h
    obtain ⟨hkey, hmem⟩ := List.find?_eq_some_iff_append.1 hs |>.imp_left (by simpa using ·)
    exact ⟨mem_entries.2 ⟨s, List.mem_of_find?_eq_some hs, rfl⟩, hkey⟩
  · cases h

/-- Looking up only moves an entry to the front. -/
theorem entries_lookup {c : ObjectCache} {key : String} {e : CacheEntry}
    (h : e ∈ (c.lookup key).2.entries) : e ∈ c.entries := by
  simp only [lookup] at h
  split at h
  · rename_i s hs
    obtain ⟨t, ht, rfl⟩ := mem_entries.1 h
    rcases List.mem_cons.1 ht with rfl | ht
    · exact mem_entries.2 ⟨t, List.mem_of_find?_eq_some hs, rfl⟩
    · exact mem_entries.2 ⟨t, List.mem_of_mem_filter ht, rfl⟩
  · exact h

/-- Inserting keeps the new entry and some of the old ones. -/
theorem entries_insert {c : ObjectCache} {e e' : CacheEntry} (h : e' ∈ (c.insert e).entries) :
    e' = e ∨ e' ∈ c.entries := by
  simp only [insert] at h
  split at h
  · exact .inr h
  · obtain ⟨t, ht, rfl⟩ := mem_entries.1 h
    rcases List.mem_cons.1 ht with rfl | ht
    · exact .inl rfl
    · exact .inr (mem_entries.2 ⟨t, List.mem_of_mem_filter (mem_fitting ht), rfl⟩)

/-- Removing keeps the entries under other keys. -/
theorem entries_remove {c : ObjectCache} {key : String} {e : CacheEntry}
    (h : e ∈ (c.remove key).entries) : e ∈ c.entries ∧ e.key ≠ key := by
  obtain ⟨t, ht, rfl⟩ := mem_entries.1 h
  obtain ⟨hmem, hkey⟩ := List.mem_filter.1 ht
  exact ⟨mem_entries.2 ⟨t, hmem, rfl⟩, by simpa using hkey⟩

@[simp] theorem entries_clear (c : ObjectCache) : c.clear.entries = [] := rfl

end ObjectCache

theorem CacheEntry.keyOf_inj {repo a b : String} :
    CacheEntry.keyOf repo a = CacheEntry.keyOf repo b ↔ a = b := by
  simp [CacheEntry.keyOf, String.append_assoc]

/-- The cache agrees with a repository's objects: an entry under the key of one of its objects
holds that object's kind and content. Keys are compared whole, so the entries of another
repository whose key happens to read the same are held to it as well. -/
def CacheHolds (c : ObjectCache) (n : RepoName) (O : ObjMap) : Prop :=
  ∀ e ∈ c.entries, ∀ id : ObjectId, e.key = CacheEntry.keyOf n.path id.toHex →
    O id = some (e.kind, e.data)

namespace CacheHolds

variable {c : ObjectCache} {n : RepoName} {O : ObjMap}

theorem mono (h : CacheHolds c n O) {O' : ObjMap} (hO : ∀ id x, O id = some x → O' id = some x) :
    CacheHolds c n O' :=
  fun e he id hkey => hO id _ (h e he id hkey)

theorem lookup (h : CacheHolds c n O) (key : String) : CacheHolds (c.lookup key).2 n O :=
  fun e he => h e (ObjectCache.entries_lookup he)

/-- **A hit holds the object looked up.** -/
theorem hit (h : CacheHolds c n O) {id : ObjectId} {e : CacheEntry}
    (hhit : (c.lookup (CacheEntry.keyOf n.path id.toHex)).1 = some e) :
    O id = some (e.kind, e.data) :=
  h e (ObjectCache.lookup_fst hhit).1 id (ObjectCache.lookup_fst hhit).2

/-- An entry of an object the repository holds keeps the cache agreeing. -/
theorem insert (h : CacheHolds c n O) {id : ObjectId} {k : ObjectKind} {d : Bytes}
    (hO : O id = some (k, d)) : CacheHolds (c.insert ⟨n.path, id.toHex, k, d⟩) n O := by
  intro e he id' hkey
  rcases ObjectCache.entries_insert he with rfl | he
  · -- the new entry's key names `id` alone
    have hid : id.toHex = id'.toHex := CacheEntry.keyOf_inj.1 hkey
    have : id = id' := by simpa [ObjectId.parse_toHex] using congrArg ObjectId.parse hid
    subst this
    exact hO
  · exact h e he id' hkey

/-- Dropping an object's entry keeps the cache agreeing with the object gone. -/
theorem remove (h : CacheHolds c n O) (id : ObjectId) :
    CacheHolds (c.remove (CacheEntry.keyOf n.path id.toHex)) n (Function.update O id none) := by
  intro e he id' hkey
  obtain ⟨he, hne⟩ := ObjectCache.entries_remove he
  have hid : id' ≠ id := by
    rintro rfl
    exact hne hkey
  rw [Function.update_of_ne hid]
  exact h e he id' hkey

theorem clear (c : ObjectCache) (n : RepoName) (O : ObjMap) : CacheHolds c.clear n O := by
  simp [CacheHolds]

end CacheHolds

end GitServer
