import GitServer.Proofs.Engine.Delivery
import GitServer.Proofs.Wire.PktLine
import GitServer.Proofs.Storage.Reliable
import GitServer.Proofs.Storage.Records
import GitServer.Proofs.Storage.RemoteStore
import Mathlib
/-!
# Negotiation of an upload

After its wants a client sends `have` lines, flushes, other commands and at last `done`. The
rules the server answers by are `reply` and `replies`: one `ACK`, for the first `have` of a
stored object, a `NAK` at a flush or at `done` while no `have` named one, and nothing for other
commands (`replies_of_not_ends`). Over HTTP the answer stops at the first flush
(`negotiate_ongoing` and the `uploadPack_at_*` lemmas); over a connection the answers are held
back until the next flush and the exchange goes on until `done` (`readHaves_lines`).
`uploadPack_negotiation` gathers both, with requests that carry no wants.
-/

namespace GitServer

namespace ObjectId

theorem mem_toHex {id : ObjectId} {c : Char} (hc : c ∈ id.toHex.toList) :
    ∃ d < 16, c = Hex.digitChar d := by
  rw [toHex, Hex.toList_encode, List.mem_flatMap] at hc
  obtain ⟨b, -, hb⟩ := hc
  simp only [Hex.byteChars, List.mem_cons, List.not_mem_nil, or_false] at hb
  rcases hb with rfl | rfl
  · exact ⟨b.toNat / 16, by have := b.toNat_lt; omega, rfl⟩
  · exact ⟨b.toNat % 16, Nat.mod_lt _ (by decide), rfl⟩

/-- The digits of an id are printable bytes. -/
theorem printable_ofString_toHex (id : ObjectId) : ∀ b ∈ Bytes.ofString id.toHex, 32 < b.toNat := by
  intro b hb
  rw [Bytes.ofString_ascii fun c hc => (plain_of_mem_toHex hc).1, List.mem_map] at hb
  obtain ⟨c, hc, rfl⟩ := hb
  obtain ⟨d, hd, rfl⟩ := mem_toHex hc
  exact (by decide : ∀ d < 16, 32 < (UInt8.ofNat (Hex.digitChar d).toNat).toNat) d hd

end ObjectId

namespace Engine

open Wire

/-! ## What the client says -/

/-- A line of the negotiation as a client sends it: `have` with an id, `done`, a line with
another command, or a flush. -/
inductive ClientLine where
  | have (id : ObjectId)
  | done
  | other (line : Bytes)
  | flush
deriving DecidableEq

namespace ClientLine

/-- The pkt-line a client sends. -/
def toPkt : ClientLine → PktLine
  | .have id => .data (Bytes.ofString ("have " ++ id.toHex ++ "\n"))
  | .done => .data (Bytes.ofString "done\n")
  | .other line => .data line
  | .flush => .flush

/-- A line a client can send: a line with another command fits in a pkt-line and its first
word is neither `have` nor `done`. -/
def Sendable : ClientLine → Prop
  | .other line => line.length + 4 ≤ maxPktLength ∧ (readWord line).1 ≠ "have" ∧
      (readWord line).1 ≠ "done"
  | _ => True

theorem fits_toPkt {x : ClientLine} (hx : x.Sendable) : x.toPkt.Fits := by
  match x, hx with
  | .have id, _ =>
    have hlen : (Bytes.ofString ("have " ++ id.toHex ++ "\n")).length = 46 := by
      rw [Bytes.ofString_append, Bytes.ofString_append, List.length_append, List.length_append,
        Bytes.ofString_ascii fun c hc => (ObjectId.plain_of_mem_toHex hc).1, List.length_map,
        ObjectId.length_toHex, Bytes.ofString_literal rfl, Bytes.ofString_literal rfl]
      rfl
    simp [toPkt, PktLine.Fits, hlen, maxPktLength]
  | .done, _ =>
    have hlen : (Bytes.ofString "done\n").length = 5 := by rw [Bytes.ofString_literal rfl]; rfl
    simp [toPkt, PktLine.Fits, hlen, maxPktLength]
  | .other _, hx => exact hx.1
  | .flush, _ => trivial

/-- Each line a client sends takes four bytes at least. -/
theorem length_writeLines {ls : List ClientLine} (hls : ∀ x ∈ ls, x.Sendable) :
    4 * ls.length ≤ (writeLines (ls.map toPkt)).length := by
  have hfits : ∀ l ∈ ls.map toPkt, l.Fits := by
    intro l hl
    obtain ⟨x, hx, rfl⟩ := List.mem_map.1 hl
    exact fits_toPkt (hls x hx)
  simpa using length_le_length_writeLines hfits

end ClientLine

theorem parse_have (id : ObjectId) :
    NegotiationLine.parse (Bytes.ofString ("have " ++ id.toHex ++ "\n")) = .ok (.have id) := by
  have hbytes : Bytes.ofString ("have " ++ id.toHex ++ "\n") =
      [104, 97, 118, 101] ++ 32 :: (Bytes.ofString id.toHex ++ 10 :: []) := by
    rw [Bytes.ofString_append, Bytes.ofString_append]
    have h1 : Bytes.ofString "have " = [104, 97, 118, 101, 32] := Bytes.ofString_literal rfl
    have h2 : Bytes.ofString "\n" = [10] := Bytes.ofString_literal rfl
    simp [h1, h2]
  have hword : Utf8.decodeLossy [104, 97, 118, 101] = "have" := by
    rw [show ([104, 97, 118, 101] : Bytes) = Bytes.ofString "have" from
      (Bytes.ofString_literal (s := "have") rfl).symm]
    exact Utf8.decodeLossy_ofString_self _
  have hcommand : readWord ([104, 97, 118, 101] ++ 32 :: (Bytes.ofString id.toHex ++ [10])) =
      ("have", Bytes.ofString id.toHex ++ [10]) := by
    rw [readWord_append (by simp) (.inl rfl), hword]
  have hdigits : readWord (Bytes.ofString id.toHex ++ [10]) = (id.toHex, []) := by
    rw [readWord_append (ObjectId.printable_ofString_toHex id) (.inr rfl),
      Utf8.decodeLossy_ofString fun c hc => (ObjectId.plain_of_mem_toHex hc).1]
  rw [NegotiationLine.parse, hbytes, hcommand]
  simp only [hdigits]
  simp [parseId, ObjectId.parse_toHex, bind, Except.bind, pure, Except.pure]

theorem parse_done : NegotiationLine.parse (Bytes.ofString "done\n") = .ok .done := by
  have hbytes : Bytes.ofString "done\n" = [100, 111, 110, 101] ++ 10 :: [] :=
    Bytes.ofString_literal rfl
  have hword : Utf8.decodeLossy [100, 111, 110, 101] = "done" := by
    rw [show ([100, 111, 110, 101] : Bytes) = Bytes.ofString "done" from
      (Bytes.ofString_literal (s := "done") rfl).symm]
    exact Utf8.decodeLossy_ofString_self _
  rw [NegotiationLine.parse, hbytes, readWord_append (by simp) (.inr rfl), hword]
  rfl

theorem parse_other {line : Bytes} (hhave : (readWord line).1 ≠ "have")
    (hdone : (readWord line).1 ≠ "done") :
    NegotiationLine.parse line = .ok (.other (readWord line).1) := by
  unfold NegotiationLine.parse
  rcases h : readWord line with ⟨command, rest⟩
  rw [h] at hhave hdone
  simp only at hhave hdone ⊢
  rfl

/-! ## Requests without wants -/

/-- The first words of the lines of a want list that ask for no object: shallow and depth
requests, and filters. -/
def optionWords : List String := ["shallow", "deepen", "deepen-since", "deepen-not", "filter"]

/-- How a want list without wants can stop: the request ends, a flush ends the list, or the
next pkt-line does not decode. -/
inductive WantListEnd : Bytes → Prop
  | eof : WantListEnd []
  | flush (rest : Bytes) : WantListEnd (flushBytes ++ rest)
  | undecodable {buf : Bytes} {e : ProtocolError} : readOne buf = .error e → WantListEnd buf

theorem wantLine_option {line : Bytes} (h : (readWord line).1 ∈ optionWords) (first : Bool) :
    wantLine line first = .ok (none, []) := by
  unfold wantLine
  rcases hw : readWord line with ⟨command, rest⟩
  rw [hw] at h
  simp only [optionWords, List.mem_cons, List.not_mem_nil, or_false] at h
  rcases h with rfl | rfl | rfl | rfl | rfl <;> rfl

theorem readWants_option {o : Bytes} (ho : o.length + 4 ≤ maxPktLength ∧ (readWord o).1 ∈ optionWords)
    (rest : Bytes) (caps : List Capability) :
    readWants ((PktLine.data o).encode ++ rest) [] caps = readWants rest [] caps := by
  obtain ⟨h, hread⟩ := readOne_encode_append (show (PktLine.data o).Fits from ho.1) rest
  rw [readWants, hread]
  simp [wantLine_option ho.2]

/-- A want list of lines that ask for no object, however it stops, gives no wants. -/
theorem readWants_without_wants (opts : List Bytes)
    (hopts : ∀ o ∈ opts, o.length + 4 ≤ maxPktLength ∧ (readWord o).1 ∈ optionWords)
    {tail : Bytes} (htail : WantListEnd tail) (caps : List Capability) :
    ∃ caps' rest, readWants (writeLines (opts.map .data) ++ tail) [] caps = .ok ([], caps', rest) := by
  induction opts with
  | nil =>
    rw [List.map_nil, writeLines_nil, List.nil_append]
    cases htail with
    | eof =>
      refine ⟨caps, [], ?_⟩
      rw [readWants]
      rfl
    | flush rest =>
      obtain ⟨h, hread⟩ := readOne_encode_append (show PktLine.flush.Fits from trivial) rest
      refine ⟨caps, rest, ?_⟩
      rw [readWants, ← PktLine.encode, hread]
    | undecodable hbad =>
      refine ⟨caps, tail, ?_⟩
      rw [readWants, hbad]
      rfl
  | cons o opts ih =>
    rw [List.map_cons, writeLines_cons, List.append_assoc, readWants_option (hopts o (by simp))]
    exact ih fun o' ho' => hopts o' (by simp [ho'])

/-- **A request without wants is answered with nothing.** Over HTTP a request whose want list
is empty, or holds only lines that ask for no object, and stops at its end, at a flush or at a
line that does not decode, gets an empty answer without an error, and storage is not read. -/
theorem uploadPack_without_wants (n : RepoName) (opts : List Bytes)
    (hopts : ∀ o ∈ opts, o.length + 4 ≤ maxPktLength ∧ (readWord o).1 ∈ optionWords)
    {tail : Bytes} (htail : WantListEnd tail) (s : Storage) :
    (uploadPack n (writeLines (opts.map .data) ++ tail)).run.run s = (.ok [], s) := by
  obtain ⟨caps, rest, hw⟩ := readWants_without_wants opts hopts htail []
  simp only [uploadPack, hw, check, pure_bind, List.isEmpty_nil, if_true]
  rfl

/-! ## The rules of the negotiation -/

/-- Whether a line ends the negotiation of a request: a flush or `done`. -/
def ClientLine.ends : ClientLine → Bool
  | .flush | .done => true
  | _ => false

section Rules

variable (stored : ObjectId → Bool)

/-- Whether a line is a `have` of a stored object. -/
def ClientLine.namesStored : ClientLine → Bool
  | .have id => stored id
  | _ => false

/-- Whether some `have` among the lines named a stored object. -/
def found (before : List ClientLine) : Bool := before.any (ClientLine.namesStored stored)

/-- The stored object a `have` names. -/
def ClientLine.storedHave? : ClientLine → Option ObjectId
  | .have id => if stored id then some id else none
  | _ => none

/-- The stored objects the `have` lines name, each once, in the order first named. -/
def commonOf (ls : List ClientLine) : List ObjectId :=
  (ls.filterMap (ClientLine.storedHave? stored)).eraseDups

/-- The acknowledgement of a common object. -/
def ackLine (id : ObjectId) : Bytes := textLine ("ACK " ++ id.toHex ++ "\n")

/-- The answer that nothing is in common. -/
def nakLine : Bytes := textLine "NAK\n"

/-- The answer to one line after the lines `before`: `ACK` for a `have` of a stored object when
no earlier `have` named one, `NAK` at a flush or at `done` when none did, and nothing else. -/
def reply (before : List ClientLine) : ClientLine → Bytes
  | .have id => if stored id && !found stored before then ackLine id else []
  | .done | .flush => if found stored before then [] else nakLine
  | .other _ => []

/-- The answers to the lines `ls`, each after the lines `before` and those of `ls` before it. -/
def replies (before : List ClientLine) : List ClientLine → Bytes
  | [] => []
  | x :: xs => reply stored before x ++ replies (before ++ [x]) xs

theorem replies_append (before xs ys : List ClientLine) :
    replies stored before (xs ++ ys) = replies stored before xs ++ replies stored (before ++ xs) ys := by
  induction xs generalizing before with
  | nil => simp [replies]
  | cons x xs ih => simp [replies, ih, List.append_assoc]

theorem replies_singleton (before : List ClientLine) (x : ClientLine) :
    replies stored before [x] = reply stored before x := by
  simp [replies]

theorem storedHave?_eq_some {x : ClientLine} {id : ObjectId} :
    x.storedHave? stored = some id ↔ x = .have id ∧ stored id = true := by
  match x with
  | .have i =>
    simp only [ClientLine.storedHave?]
    by_cases hi : stored i = true
    · rw [if_pos hi]
      constructor
      · intro h
        cases h
        exact ⟨rfl, hi⟩
      · rintro ⟨h, -⟩
        cases h
        rfl
    · rw [if_neg hi]
      constructor
      · intro h
        cases h
      · rintro ⟨h, hs⟩
        cases h
        exact absurd hs hi
  | .done | .flush | .other _ => simp [ClientLine.storedHave?]

theorem mem_commonOf {ls : List ClientLine} {id : ObjectId} :
    id ∈ commonOf stored ls ↔ ClientLine.have id ∈ ls ∧ stored id = true := by
  simp only [commonOf, List.mem_eraseDups, List.mem_filterMap, storedHave?_eq_some]
  constructor
  · rintro ⟨x, hx, rfl, hs⟩
    exact ⟨hx, hs⟩
  · rintro ⟨hx, hs⟩
    exact ⟨.have id, hx, rfl, hs⟩

theorem commonOf_eq_nil_iff {ls : List ClientLine} :
    commonOf stored ls = [] ↔ found stored ls = false := by
  rw [List.eq_nil_iff_forall_not_mem]
  simp only [mem_commonOf, found, List.any_eq_false]
  constructor
  · intro h x hx
    match x with
    | .have id =>
      intro hs
      exact h id ⟨hx, hs⟩
    | .done | .flush | .other _ => simp [ClientLine.namesStored]
  · intro h id ⟨hx, hs⟩
    simpa [ClientLine.namesStored, hs] using h _ hx

theorem removeAll_singleton {α : Type} [BEq α] [LawfulBEq α] (a : α) (ys : List α) :
    [a].removeAll ys = if a ∈ ys then [] else [a] := by
  by_cases h : a ∈ ys <;> simp [List.removeAll, h]

theorem commonOf_append_have (ls : List ClientLine) (id : ObjectId) :
    commonOf stored (ls ++ [.have id]) =
      if stored id = true ∧ id ∉ commonOf stored ls then commonOf stored ls ++ [id]
      else commonOf stored ls := by
  have hmem : id ∈ commonOf stored ls ↔ id ∈ ls.filterMap (ClientLine.storedHave? stored) := by
    simp only [commonOf, List.mem_eraseDups]
  by_cases hs : stored id = true
  · have hone : [ClientLine.have id].filterMap (ClientLine.storedHave? stored) = [id] := by
      simp [ClientLine.storedHave?, hs]
    by_cases hm : id ∈ commonOf stored ls
    · rw [if_neg fun h => h.2 hm]
      simp only [commonOf, List.filterMap_append, List.eraseDups_append, hone,
        removeAll_singleton, if_pos (hmem.1 hm), List.eraseDups_nil, List.append_nil]
    · rw [if_pos ⟨hs, hm⟩]
      simp only [commonOf, List.filterMap_append, List.eraseDups_append, hone,
        removeAll_singleton, if_neg (fun h => hm (hmem.2 h)), List.eraseDups_cons,
        List.filter_nil, List.eraseDups_nil]
  · have hnone : [ClientLine.have id].filterMap (ClientLine.storedHave? stored) = [] := by
      simp [ClientLine.storedHave?, hs]
    rw [if_neg fun h => hs h.1]
    simp only [commonOf, List.filterMap_append, hnone, List.append_nil]

theorem commonOf_append_of_not_have {ls : List ClientLine} {x : ClientLine}
    (hx : ∀ id, x ≠ .have id) : commonOf stored (ls ++ [x]) = commonOf stored ls := by
  have hnone : [x].filterMap (ClientLine.storedHave? stored) = [] := by
    match x, hx with
    | .done, _ | .flush, _ | .other _, _ => rfl
    | .have id, hx => exact absurd rfl (hx id)
  simp only [commonOf, List.filterMap_append, hnone, List.append_nil]

theorem found_eq {ls : List ClientLine} : found stored ls = !(commonOf stored ls).isEmpty := by
  cases h : found stored ls
  · simp [(commonOf_eq_nil_iff stored).2 h]
  · have : commonOf stored ls ≠ [] := fun he => by
      rw [(commonOf_eq_nil_iff stored).1 he] at h
      exact Bool.false_ne_true h
    simp [this]

/-- The server's closing answer, from the objects in common, is the rule's answer at a flush
or at `done`. -/
theorem closing_commonOf (before : List ClientLine) :
    closing (commonOf stored before) = reply stored before .flush := by
  simp only [closing, reply, found_eq]
  cases (commonOf stored before).isEmpty <;> rfl

theorem reply_done (before : List ClientLine) :
    reply stored before .done = reply stored before .flush := rfl

@[simp] theorem commonOf_nil : commonOf stored [] = [] := rfl

/-- The acknowledgement of the first `have` among the lines that names a stored object, if
there is one. -/
def firstAck (ls : List ClientLine) : Bytes :=
  match ls.findSome? (ClientLine.storedHave? stored) with
  | some id => ackLine id
  | none => []

theorem found_append_singleton (before : List ClientLine) (x : ClientLine) :
    found stored (before ++ [x]) = (found stored before || x.namesStored stored) := by
  simp [found]

/-- **One acknowledgement.** Between flushes and `done` the answers are a single `ACK`, for the
first `have` of a stored object, and none at all once an earlier `have` named one. -/
theorem replies_of_not_ends {ls : List ClientLine} (hls : ∀ x ∈ ls, x.ends = false)
    (before : List ClientLine) :
    replies stored before ls = if found stored before then [] else firstAck stored ls := by
  induction ls generalizing before with
  | nil => simp [replies, firstAck]
  | cons x xs ih =>
    have hxs : ∀ y ∈ xs, y.ends = false := fun y hy => hls y (by simp [hy])
    rw [replies, ih hxs, found_append_singleton]
    match x, hls x (by simp) with
    | .have id, _ =>
      cases hf : found stored before <;> cases hs : stored id <;>
        simp [reply, firstAck, hf, hs, ClientLine.namesStored, ClientLine.storedHave?]
    | .other _, _ =>
      cases found stored before <;>
        simp [reply, firstAck, ClientLine.namesStored, ClientLine.storedHave?, List.findSome?_cons]
    | .flush, h | .done, h => simp [ClientLine.ends] at h

/-- The answers to a request's lines, up to the flush or `done` that ends them. -/
theorem replies_request {pre : List ClientLine} (hpre : ∀ x ∈ pre, x.ends = false)
    (x : ClientLine) :
    replies stored [] (pre ++ [x]) = firstAck stored pre ++ reply stored pre x := by
  rw [replies_append, replies_singleton, replies_of_not_ends stored hpre]
  simp [found]

end Rules

/-! ## The negotiation step by step -/

section Lines

variable {n : RepoName} {caps : List Capability} {wants : List ObjectId} {common : Common}
  {out : Bytes}

theorem negotiate_have (id : ObjectId) (rest : Bytes) :
    negotiate n caps wants ((ClientLine.have id).toPkt.encode ++ rest) common out =
      takeHave n common id >>= fun r => negotiate n caps wants rest r.1 (out ++ r.2) := by
  obtain ⟨h, hread⟩ := readOne_encode_append (ClientLine.fits_toPkt (show (ClientLine.have id).Sendable from trivial)) rest
  rw [negotiate, hread]
  simp only [ClientLine.toPkt, parse_have, check]
  rfl

theorem negotiate_other {line : Bytes} (hx : (ClientLine.other line).Sendable) (rest : Bytes) :
    negotiate n caps wants ((ClientLine.other line).toPkt.encode ++ rest) common out =
      negotiate n caps wants rest common out := by
  obtain ⟨h, hread⟩ := readOne_encode_append (ClientLine.fits_toPkt hx) rest
  rw [negotiate, hread]
  simp only [ClientLine.toPkt, parse_other hx.2.1 hx.2.2, check]
  rfl

theorem negotiate_flush (rest : Bytes) :
    negotiate n caps wants (ClientLine.flush.toPkt.encode ++ rest) common out =
      pure (out ++ closing common) := by
  obtain ⟨h, hread⟩ := readOne_encode_append (ClientLine.fits_toPkt (show ClientLine.flush.Sendable from trivial)) rest
  rw [negotiate, hread]
  rfl

theorem negotiate_done (rest : Bytes) :
    negotiate n caps wants (ClientLine.done.toPkt.encode ++ rest) common out =
      (fun pack => out ++ closing common ++ packResponse caps pack) <$>
        preparePack n caps wants common := by
  obtain ⟨h, hread⟩ := readOne_encode_append (ClientLine.fits_toPkt (show ClientLine.done.Sendable from trivial)) rest
  rw [negotiate, hread]
  simp only [ClientLine.toPkt, parse_done, check]
  rfl

theorem negotiate_nil : negotiate n caps wants [] common out = pure out := by
  rw [negotiate]
  rfl

end Lines

section Steps

variable {n : RepoName} {s : Storage} {stored : ObjectId → Bool}
  (hhas : ∀ id, (Storage.hasObject n id).run.run s = (.ok (stored id), s))
include hhas

theorem takeHave_run (before : List ClientLine) (id : ObjectId) :
    (takeHave n (commonOf stored before) id).run.run s =
      (.ok (commonOf stored (before ++ [.have id]), reply stored before (.have id)), s) := by
  have hhas' : (hasObject n id).run.run s = (.ok (stored id), s) := run_store_of_ok (hhas id)
  by_cases hm : id ∈ commonOf stored before
  · -- a repeated `have`: nothing changes and nothing is said
    have hfound : found stored before = true := by
      rw [found_eq]
      simpa [List.isEmpty_iff] using List.ne_nil_of_mem hm
    rw [commonOf_append_have, if_neg fun h => h.2 hm]
    simp [takeHave, hm, reply, hfound]
    rfl
  · have hc : (commonOf stored before).contains id = false := by simpa using hm
    simp only [takeHave, hc, Bool.false_eq_true, if_false]
    rw [run_bind_of_ok hhas', commonOf_append_have]
    cases hs : stored id
    · simp [reply, hs]
      rfl
    · have hlen : (commonOf stored before ++ [id]).length = 1 ↔ commonOf stored before = [] := by
        simp
      simp only [Bool.not_true, Bool.false_eq_true, if_false, hlen, reply, found_eq, hs, hm,
        not_false_eq_true, and_self, if_true, Bool.true_and, Bool.not_not, List.isEmpty_iff]
      rfl

/-- **Haves and other commands, over HTTP.** Reading `have` lines and lines of other commands
answers each as the rules say and collects the stored objects the `have` lines name. -/
theorem negotiate_ongoing (caps : List Capability) (wants : List ObjectId) (ls : List ClientLine) :
    ∀ (before : List ClientLine) (out rest : Bytes), (∀ x ∈ ls, x.Sendable ∧ x.ends = false) →
      (negotiate n caps wants (writeLines (ls.map ClientLine.toPkt) ++ rest)
          (commonOf stored before) out).run.run s =
        (negotiate n caps wants rest (commonOf stored (before ++ ls))
          (out ++ replies stored before ls)).run.run s := by
  induction ls with
  | nil => intro before out rest _; simp [replies]
  | cons x xs ih =>
    intro before out rest hls
    have hx := hls x (by simp)
    have hxs : ∀ y ∈ xs, y.Sendable ∧ y.ends = false := fun y hy => hls y (by simp [hy])
    rw [List.map_cons, writeLines_cons, List.append_assoc]
    match x, hx with
    | .have id, _ =>
      rw [negotiate_have, run_bind_of_ok (takeHave_run hhas before id), ih _ _ _ hxs]
      simp [replies, List.append_assoc]
    | .other line, hx =>
      rw [negotiate_other hx.1, ← commonOf_append_of_not_have stored
        (show ∀ id, ClientLine.other line ≠ .have id from fun _ h => by cases h), ih _ _ _ hxs]
      simp [replies, reply, List.append_assoc]
    | .flush, hx | .done, hx => simp [ClientLine.ends] at hx

theorem checkWants_run {wants : List ObjectId} (hpresent : ∀ w ∈ wants, stored w = true) :
    (checkWants n wants).run.run s = (.ok (), s) := by
  have hhas' : ∀ id, (hasObject n id).run.run s = (.ok (stored id), s) :=
    fun id => run_store_of_ok (hhas id)
  unfold checkWants
  induction wants with
  | nil => rfl
  | cons w ws ih =>
    rw [List.forIn_cons]
    simp only [bind_assoc]
    rw [run_bind_of_ok (hhas' w)]
    simp only [hpresent w (by simp), Bool.not_true, Bool.false_eq_true, if_false, pure_bind]
    exact ih fun w' hw' => hpresent w' (by simp [hw'])

theorem uploadPack_of_wants {req rest : Bytes} {wants : List ObjectId} {caps : List Capability}
    (hw : readWants req [] [] = .ok (wants, caps, rest)) (hne : wants ≠ [])
    (hpresent : ∀ w ∈ wants, stored w = true) :
    (uploadPack n req).run.run s = (negotiate n caps wants rest [] []).run.run s := by
  have hempty : wants.isEmpty = false := by simpa [List.isEmpty_iff] using hne
  simp only [uploadPack, hw, check, pure_bind, hempty, Bool.false_eq_true, if_false]
  rw [run_bind_of_ok (checkWants_run hhas hpresent)]

section Request

variable {req tail : Bytes} {wants : List ObjectId} {caps : List Capability}
  {pre : List ClientLine}

/-- Over HTTP a flush ends the negotiation: the answer is the replies up to it, and what
follows is not read. -/
theorem uploadPack_at_flush (hw : readWants req [] [] = .ok (wants, caps,
      writeLines ((pre ++ [ClientLine.flush]).map ClientLine.toPkt) ++ tail))
    (hne : wants ≠ []) (hpresent : ∀ w ∈ wants, stored w = true)
    (hpre : ∀ x ∈ pre, x.Sendable ∧ x.ends = false) :
    (uploadPack n req).run.run s = (.ok (replies stored [] (pre ++ [.flush])), s) := by
  rw [uploadPack_of_wants hhas hw hne hpresent, List.map_append, writeLines_append,
    List.append_assoc, ← commonOf_nil stored, negotiate_ongoing hhas caps wants pre [] [] _ hpre]
  simp only [List.map_cons, List.map_nil, writeLines_cons, writeLines_nil, List.append_nil,
    negotiate_flush, List.nil_append, closing_commonOf, replies_append, replies_singleton]
  rfl

/-- Over HTTP `done` ends the negotiation: the answer is the replies up to it, then the pack
for the wants and the objects found in common. -/
theorem uploadPack_at_done (hw : readWants req [] [] = .ok (wants, caps,
      writeLines ((pre ++ [ClientLine.done]).map ClientLine.toPkt) ++ tail))
    (hne : wants ≠ []) (hpresent : ∀ w ∈ wants, stored w = true)
    (hpre : ∀ x ∈ pre, x.Sendable ∧ x.ends = false) :
    (uploadPack n req).run.run s =
      ((fun pack => replies stored [] (pre ++ [.done]) ++ packResponse caps pack) <$>
        preparePack n caps wants (commonOf stored pre)).run.run s := by
  rw [uploadPack_of_wants hhas hw hne hpresent, List.map_append, writeLines_append,
    List.append_assoc, ← commonOf_nil stored, negotiate_ongoing hhas caps wants pre [] [] _ hpre]
  simp only [List.map_cons, List.map_nil, writeLines_cons, writeLines_nil, List.append_nil,
    negotiate_done, List.nil_append, closing_commonOf, replies_append, replies_singleton,
    reply_done]

/-- Over HTTP a request may end before any flush or `done`: the answer is the replies so far. -/
theorem uploadPack_at_end (hw : readWants req [] [] = .ok (wants, caps,
      writeLines (pre.map ClientLine.toPkt)))
    (hne : wants ≠ []) (hpresent : ∀ w ∈ wants, stored w = true)
    (hpre : ∀ x ∈ pre, x.Sendable ∧ x.ends = false) :
    (uploadPack n req).run.run s = (.ok (replies stored [] pre), s) := by
  rw [uploadPack_of_wants hhas hw hne hpresent, ← List.append_nil (writeLines _),
    ← commonOf_nil stored, negotiate_ongoing hhas caps wants pre [] [] _ hpre, negotiate_nil]
  rfl

end Request

end Steps

/-! ## Over a connection -/

section Connection

variable {n : RepoName} {s : Storage} {stored : ObjectId → Bool}

theorem readHaves_flush (before : List ClientLine) (held rest out : Bytes) (fuel : Nat) (st : Storage) :
    (readHaves n (fuel + 1) (commonOf stored before) held).run.run
        (st, ⟨atOnce (ClientLine.flush.toPkt.encode ++ rest), out⟩) =
      (readHaves n fuel (commonOf stored before) []).run.run
        (st, ⟨atOnce rest, out ++ (held ++ reply stored before .flush)⟩) := by
  simp only [readHaves]
  rw [run_bind_of_ok (readLine_encode_append (ClientLine.fits_toPkt
    (show ClientLine.flush.Sendable from trivial)) rest out st)]
  simp only [ClientLine.toPkt, closing_commonOf]
  rfl

theorem readHaves_done (before : List ClientLine) (held rest out : Bytes) (fuel : Nat) (st : Storage) :
    (readHaves n (fuel + 1) (commonOf stored before) held).run.run
        (st, ⟨atOnce (ClientLine.done.toPkt.encode ++ rest), out⟩) =
      (.ok (commonOf stored before, held ++ reply stored before .done), (st, ⟨atOnce rest, out⟩)) := by
  simp only [readHaves]
  rw [run_bind_of_ok (readLine_encode_append (ClientLine.fits_toPkt
    (show ClientLine.done.Sendable from trivial)) rest out st)]
  simp only [ClientLine.toPkt, parse_done, verify, pure_bind, closing_commonOf, reply_done]
  rfl

theorem readHaves_eof (common : Common) (held out : Bytes) (fuel : Nat) (st : Storage) :
    (readHaves n (fuel + 1) common held).run.run (st, ⟨[], out⟩) =
      (.error (.decode "connection closed before done"), (st, ⟨[], out⟩)) := by
  simp only [readHaves]
  rw [run_bind_of_ok (readLine_nil out st)]
  rfl

section Loop

variable (hhas : ∀ id, (Storage.hasObject n id).run.run s = (.ok (stored id), s))
include hhas

theorem readHaves_ongoing {x : ClientLine} (hx : x.Sendable ∧ x.ends = false)
    (before : List ClientLine) (held rest out : Bytes) (fuel : Nat) :
    (readHaves n (fuel + 1) (commonOf stored before) held).run.run
        (s, ⟨atOnce (x.toPkt.encode ++ rest), out⟩) =
      (readHaves n fuel (commonOf stored (before ++ [x])) (held ++ reply stored before x)).run.run
        (s, ⟨atOnce rest, out⟩) := by
  simp only [readHaves]
  rw [run_bind_of_ok (readLine_encode_append (ClientLine.fits_toPkt hx.1) rest out s)]
  -- a `have` is looked up and answered, another line is passed over; neither ends the reading
  rcases x with id | _ | line | _
  · simp only [ClientLine.toPkt, parse_have, verify, pure_bind]
    rw [run_bind_of_ok (by rw [run_engine, takeHave_run hhas before id])]
  · simp [ClientLine.ends] at hx
  · simp only [ClientLine.toPkt, parse_other hx.1.2.1 hx.1.2.2, verify, pure_bind]
    rw [commonOf_append_of_not_have stored
      (show ∀ id, ClientLine.other line ≠ .have id from fun _ h => by cases h)]
    simp [reply]
  · simp [ClientLine.ends] at hx

/-- Lines that are empty or end with a flush: over a connection, every one of them has been
answered. -/
def EndsAtFlush (P : List ClientLine) : Prop := P = [] ∨ ∃ P0, P = P0 ++ [.flush]

omit hhas in
/-- Every list of lines is lines up to its last flush, then lines without a flush. -/
theorem exists_flushSplit (ls : List ClientLine) :
    ∃ P Q, ls = P ++ Q ∧ EndsAtFlush P ∧ ∀ x ∈ Q, x ≠ .flush := by
  induction ls using List.reverseRecOn with
  | nil => exact ⟨[], [], rfl, .inl rfl, by simp⟩
  | append_singleton ls x ih =>
    by_cases hx : x = .flush
    · exact ⟨ls ++ [x], [], by simp, .inr ⟨ls, by rw [hx]⟩, by simp⟩
    · obtain ⟨P, Q, rfl, hP, hQ⟩ := ih
      refine ⟨P, Q ++ [x], by simp, hP, ?_⟩
      intro y hy
      rcases List.mem_append.1 hy with hy | hy
      · exact hQ y hy
      · rw [List.mem_singleton.1 hy]
        exact hx

/-- **The negotiation over a connection, line by line.** After lines without `done`, the
answers to the lines up to the last flush have been written, the answers to the lines after it
are held back, and the objects in common are those the `have` lines named. -/
theorem readHaves_lines (pre : List ClientLine) (hpre : ∀ x ∈ pre, x.Sendable ∧ x ≠ .done) :
    ∀ (P Q : List ClientLine), pre = P ++ Q → EndsAtFlush P → (∀ x ∈ Q, x ≠ .flush) →
      ∀ (fuel : Nat) (rest out : Bytes), pre.length ≤ fuel →
        (readHaves n fuel [] []).run.run (s, ⟨atOnce (writeLines (pre.map ClientLine.toPkt) ++ rest), out⟩) =
          (readHaves n (fuel - pre.length) (commonOf stored pre) (replies stored P Q)).run.run
            (s, ⟨atOnce rest, out ++ replies stored [] P⟩) := by
  induction pre using List.reverseRecOn with
  | nil =>
    intro P Q hsplit _ _ fuel rest out _
    obtain ⟨rfl, rfl⟩ := List.append_eq_nil_iff.1 hsplit.symm
    simp [replies]
  | append_singleton pre x ih =>
    intro P Q hsplit hP hQ fuel rest out hfuel
    have hx := hpre x (by simp)
    have hpre' : ∀ y ∈ pre, y.Sendable ∧ y ≠ .done := fun y hy => hpre y (by simp [hy])
    obtain ⟨k, hk⟩ : ∃ k, fuel - pre.length = k + 1 := ⟨fuel - pre.length - 1, by
      simp only [List.length_append, List.length_singleton] at hfuel
      omega⟩
    have hlen : fuel - (pre ++ [x]).length = k := by
      simp only [List.length_append, List.length_singleton]
      omega
    rw [List.map_append, writeLines_append, List.map_singleton, writeLines_cons, writeLines_nil,
      List.append_nil, List.append_assoc, hlen]
    by_cases hflush : x = .flush
    · -- a flush: what was held back goes out with the flush's answer
      subst hflush
      obtain ⟨P0, Q0, hsplit0, hP0, hQ0⟩ := exists_flushSplit pre
      have hQnil : Q = [] := by
        rcases List.eq_nil_or_concat' Q with hnil | ⟨L, b, rfl⟩
        · exact hnil
        · rw [← List.append_assoc] at hsplit
          have hb := (List.append_inj' hsplit rfl).2
          simp only [List.cons.injEq, and_true] at hb
          exact absurd hb.symm (hQ b (by simp))
      subst hQnil
      rw [List.append_nil] at hsplit
      subst hsplit
      rw [ih hpre' P0 Q0 hsplit0 hP0 hQ0 fuel _ out (by simp at hfuel; omega), hk,
        readHaves_flush, commonOf_append_of_not_have stored (fun _ h => by cases h)]
      simp [replies, replies_append, hsplit0, List.append_assoc]
    · -- another line is held back with its answer
      have hends : x.ends = false := by
        match x, hx.2, hflush with
        | .have _, _, _ | .other _, _, _ => rfl
      obtain ⟨Q', rfl⟩ : ∃ Q', Q = Q' ++ [x] := by
        rcases List.eq_nil_or_concat' Q with rfl | ⟨L, b, rfl⟩
        · rcases hP with rfl | ⟨P0, rfl⟩
          · simp at hsplit
          · simp only [List.append_nil] at hsplit
            have := (List.append_inj' hsplit rfl).2
            simp only [List.cons.injEq, and_true] at this
            exact absurd this hflush
        · rw [← List.append_assoc] at hsplit
          have hb := (List.append_inj' hsplit rfl).2
          simp only [List.cons.injEq, and_true] at hb
          exact ⟨L, by rw [hb]⟩
      have hsplit' : pre = P ++ Q' := by
        rw [← List.append_assoc] at hsplit
        exact (List.append_inj' hsplit rfl).1
      rw [ih hpre' P Q' hsplit' hP (fun y hy => hQ y (by simp [hy])) fuel _ out
          (by simp at hfuel; omega), hk, readHaves_ongoing hhas ⟨hx.1, hends⟩, replies_append,
        replies_singleton, hsplit']

/-- Over a connection `done` ends the negotiation: the answers up to the last flush before it
have been written, and the answers after that flush, `done`'s own included, are held back for
the pack. -/
theorem readHaves_until_done {pre P Q : List ClientLine}
    (hpre : ∀ x ∈ pre, x.Sendable ∧ x ≠ .done) (hsplit : pre = P ++ Q) (hP : EndsAtFlush P)
    (hQ : ∀ x ∈ Q, x ≠ .flush) (rest out : Bytes) :
    let input := writeLines ((pre ++ [ClientLine.done]).map ClientLine.toPkt) ++ rest
    (readHaves n (input.length + 1) [] []).run.run (s, ⟨atOnce input, out⟩) =
      (.ok (commonOf stored pre, replies stored P (Q ++ [ClientLine.done])),
        (s, ⟨atOnce rest, out ++ replies stored [] P⟩)) := by
  intro input
  have hbound : 4 * (pre.length + 1) ≤
      (writeLines ((pre ++ [ClientLine.done]).map ClientLine.toPkt)).length := by
    have hsend : ∀ x ∈ pre ++ [ClientLine.done], x.Sendable := by
      intro x hx
      rcases List.mem_append.1 hx with hx | hx
      · exact (hpre x hx).1
      · rw [List.mem_singleton.1 hx]
        trivial
    simpa using ClientLine.length_writeLines hsend
  have hinput : input.length =
      (writeLines ((pre ++ [ClientLine.done]).map ClientLine.toPkt)).length + rest.length := by
    simp only [input, List.length_append]
  have hsplitInput : input =
      writeLines (pre.map ClientLine.toPkt) ++ (ClientLine.done.toPkt.encode ++ rest) := by
    simp [input]
  generalize hfuel : input.length + 1 = fuel
  obtain ⟨k, hk⟩ : ∃ k, fuel - pre.length = k + 1 := ⟨fuel - pre.length - 1, by omega⟩
  rw [hsplitInput, readHaves_lines hhas pre hpre P Q hsplit hP hQ fuel _ out (by omega), hk,
    readHaves_done, replies_append, replies_singleton, ← hsplit]

/-- Over a connection the input may end before `done`: the answers up to the last flush have
been written, and the negotiation fails. -/
theorem readHaves_until_eof {pre P Q : List ClientLine}
    (hpre : ∀ x ∈ pre, x.Sendable ∧ x ≠ .done) (hsplit : pre = P ++ Q) (hP : EndsAtFlush P)
    (hQ : ∀ x ∈ Q, x ≠ .flush) (out : Bytes) :
    let input := writeLines (pre.map ClientLine.toPkt)
    (readHaves n (input.length + 1) [] []).run.run (s, ⟨atOnce input, out⟩) =
      (.error (.decode "connection closed before done"), (s, ⟨[], out ++ replies stored [] P⟩)) := by
  intro input
  have hbound : 4 * pre.length ≤ input.length :=
    ClientLine.length_writeLines fun x hx => (hpre x hx).1
  generalize hfuel : input.length + 1 = fuel
  obtain ⟨k, hk⟩ : ∃ k, fuel - pre.length = k + 1 := ⟨fuel - pre.length - 1, by omega⟩
  rw [show input = writeLines (pre.map ClientLine.toPkt) ++ [] from (List.append_nil _).symm,
    readHaves_lines hhas pre hpre P Q hsplit hP hQ fuel [] out (by omega), hk, atOnce_nil,
    readHaves_eof]

end Loop

end Connection

/-! ## The negotiation as a whole -/

/-- **The negotiation of an upload.** For a repository whose storage says of every id, without
failing or changing, whether it holds the object:

* over HTTP a request without wants is answered with nothing;
* over HTTP, after wants that are all stored, the lines of the negotiation are answered with one
  `ACK`, for the first `have` of a stored object; at the first flush the answer ends, with a
  `NAK` if no `have` named a stored object; at `done` the same comes before the pack; at the
  end of the request the `ACK` is all;
* over a connection, the answers up to each flush are written at that flush, those after it
  are held back, and the exchange goes on until `done`, or fails when the input ends first. -/
theorem uploadPack_negotiation (n : RepoName) (s : Storage) (stored : ObjectId → Bool)
    (hhas : ∀ id, (Storage.hasObject n id).run.run s = (.ok (stored id), s)) :
    (∀ (opts : List Bytes) (tail : Bytes),
      (∀ o ∈ opts, o.length + 4 ≤ maxPktLength ∧ (readWord o).1 ∈ optionWords) →
      WantListEnd tail →
      (uploadPack n (writeLines (opts.map .data) ++ tail)).run.run s = (.ok [], s)) ∧
    (∀ (req tail : Bytes) (wants : List ObjectId) (caps : List Capability)
      (pre : List ClientLine),
      wants ≠ [] → (∀ w ∈ wants, stored w = true) → (∀ x ∈ pre, x.Sendable ∧ x.ends = false) →
      (readWants req [] [] = .ok (wants, caps,
          writeLines ((pre ++ [ClientLine.flush]).map ClientLine.toPkt) ++ tail) →
        (uploadPack n req).run.run s =
          (.ok (firstAck stored pre ++ if found stored pre then [] else nakLine), s)) ∧
      (readWants req [] [] = .ok (wants, caps,
          writeLines ((pre ++ [ClientLine.done]).map ClientLine.toPkt) ++ tail) →
        (uploadPack n req).run.run s =
          ((fun pack => firstAck stored pre ++ (if found stored pre then [] else nakLine) ++
              packResponse caps pack) <$>
            preparePack n caps wants (commonOf stored pre)).run.run s) ∧
      (readWants req [] [] = .ok (wants, caps, writeLines (pre.map ClientLine.toPkt)) →
        (uploadPack n req).run.run s = (.ok (firstAck stored pre), s))) ∧
    (∀ (pre P Q : List ClientLine) (rest out : Bytes),
      (∀ x ∈ pre, x.Sendable ∧ x ≠ .done) → pre = P ++ Q → EndsAtFlush P →
      (∀ x ∈ Q, x ≠ .flush) →
      (∀ fuel, pre.length ≤ fuel →
        (readHaves n fuel [] []).run.run (s, ⟨atOnce (writeLines (pre.map ClientLine.toPkt) ++ rest), out⟩) =
          (readHaves n (fuel - pre.length) (commonOf stored pre) (replies stored P Q)).run.run
            (s, ⟨atOnce rest, out ++ replies stored [] P⟩)) ∧
      (let input := writeLines ((pre ++ [ClientLine.done]).map ClientLine.toPkt) ++ rest
       (readHaves n (input.length + 1) [] []).run.run (s, ⟨atOnce input, out⟩) =
         (.ok (commonOf stored pre, replies stored P (Q ++ [ClientLine.done])),
           (s, ⟨atOnce rest, out ++ replies stored [] P⟩))) ∧
      (let input := writeLines (pre.map ClientLine.toPkt)
       (readHaves n (input.length + 1) [] []).run.run (s, ⟨atOnce input, out⟩) =
         (.error (.decode "connection closed before done"),
           (s, ⟨[], out ++ replies stored [] P⟩)))) := by
  refine ⟨fun opts tail hopts htail => uploadPack_without_wants n opts hopts htail s, ?_, ?_⟩
  · -- over HTTP the replies are one acknowledgement and the closing answer
    intro req tail wants caps pre hne hpresent hpre
    have hends : ∀ x ∈ pre, x.ends = false := fun x hx => (hpre x hx).2
    refine ⟨fun hw => ?_, fun hw => ?_, fun hw => ?_⟩
    · rw [uploadPack_at_flush hhas hw hne hpresent hpre, replies_request stored hends]
      rfl
    · rw [uploadPack_at_done hhas hw hne hpresent hpre, replies_request stored hends]
      rfl
    · rw [uploadPack_at_end hhas hw hne hpresent hpre, replies_of_not_ends stored hends]
      simp [found]
  · intro pre P Q rest out hpre hsplit hP hQ
    exact ⟨fun fuel hfuel => readHaves_lines hhas pre hpre P Q hsplit hP hQ fuel rest out hfuel,
      readHaves_until_done hhas hpre hsplit hP hQ rest out,
      readHaves_until_eof hhas hpre hsplit hP hQ out⟩

/-- A repository `demo.git` kept in an empty blob store. -/
def emptyDemoStore : Storage := { medium := .remote (BlobStore.empty 1), init := {}, now := 0 }

theorem uploadPack_negotiation_emptyDemoStore :
    let stored := fun id => ((BlobStore.empty 1).get (Remote.objectKey ⟨"demo.git"⟩ id)).isSome
    let pre := [ClientLine.have ObjectId.zero, ClientLine.flush]
    let input := writeLines ((pre ++ [ClientLine.done]).map ClientLine.toPkt) ++ []
    (readHaves ⟨"demo.git"⟩ (input.length + 1) [] []).run.run (emptyDemoStore, ⟨atOnce input, []⟩) =
      (.ok (commonOf stored pre, replies stored pre ([] ++ [ClientLine.done])),
        (emptyDemoStore, ⟨atOnce [], [] ++ replies stored [] pre⟩)) := by
  intro stored pre input
  have hhas : ∀ id, (Storage.hasObject ⟨"demo.git"⟩ id).run.run emptyDemoStore =
      (.ok (stored id), emptyDemoStore) := fun id => Storage.hasObject_remote rfl id
  exact ((uploadPack_negotiation ⟨"demo.git"⟩ emptyDemoStore stored hhas).2.2 pre pre [] [] []
    (by simp [pre, ClientLine.Sendable]) (List.append_nil pre).symm
    (.inr ⟨[ClientLine.have ObjectId.zero], rfl⟩) (by simp)).2.1

end Engine

end GitServer
