import GitServer.Transport.Session
import GitServer.Proofs.Engine.Negotiation
import GitServer.Proofs.Engine.PushReport
import GitServer.Proofs.Engine.ReadOnly
import GitServer.Proofs.Pack.Scanner
import GitServer.Proofs.Storage.LocalLifecycle
import Mathlib

/-!
# One exchange over HTTP and over a connection

Over HTTP a request arrives whole and is answered whole; over a connection the server reads
the client's lines one at a time, from the chunks the network delivers, and writes as it goes.
The two bindings run the same operations against storage in the same order, so they answer
alike, however the connection cuts the request (`connection_agrees_with_http`):

* the HTTP advertisement is the one sent over a connection behind a service line and a flush
  (`advertise_http`);
* an upload of want lines, a flush, `have` lines and lines of other commands, and `done` is
  answered over a connection with the advertisement followed by exactly the HTTP answer, and
  leaves storage as HTTP leaves it (`serveUpload_of_uploadPack`): the negotiation read line by
  line does what the HTTP one does (`readHaves_of_negotiate`), and the upload reads only lines,
  so it does from every cut what it does from the request delivered at once;
* a push of command lines and a flush, then nothing when every command deletes and otherwise
  one pack that reads, is answered alike (`serveReceive_of_receivePack`): the pack scanner
  stops at the pack's trailer however the pack arrives (`readPackFrom_pack`), and applying a
  push never fails (`applyPush_neverFails`).
-/

namespace GitServer

/-! ## Computations that always answer -/

/-- `m` answers from every state: nothing it does can fail. -/
def NeverFails {ε σ α : Type} (m : ExceptT ε (StateM σ) α) : Prop :=
  ∀ s, ∃ a s', m.run.run s = (.ok a, s')

namespace NeverFails

variable {ε σ α β : Type}

theorem pure (a : α) : NeverFails (Pure.pure a : ExceptT ε (StateM σ) α) :=
  fun s => ⟨a, s, rfl⟩

theorem bind {x : ExceptT ε (StateM σ) α} {f : α → ExceptT ε (StateM σ) β} (hx : NeverFails x)
    (hf : ∀ a, NeverFails (f a)) : NeverFails (x >>= f) := by
  intro s
  obtain ⟨a, s₁, h₁⟩ := hx s
  obtain ⟨b, s₂, h₂⟩ := hf a s₁
  exact ⟨b, s₂, by rw [run_bind_of_ok h₁, h₂]⟩

/-- A failure that is caught and answered is no failure. -/
theorem tryCatch (x : ExceptT ε (StateM σ) α) {handle : ε → ExceptT ε (StateM σ) α}
    (hh : ∀ e, NeverFails (handle e)) : NeverFails (tryCatch x handle) := by
  intro s
  rcases hx : x.run.run s with ⟨r, s₁⟩
  cases r with
  | ok a => exact ⟨a, s₁, run_tryCatch_of_ok hx⟩
  | error e =>
    obtain ⟨b, s₂, h⟩ := hh e s₁
    exact ⟨b, s₂, by rw [run_tryCatch_of_error hx, h]⟩

theorem mapM {f : α → ExceptT ε (StateM σ) β} (hf : ∀ a, NeverFails (f a)) :
    ∀ l : List α, NeverFails (l.mapM f)
  | [] => pure []
  | a :: l => by
    rw [List.mapM_cons]
    exact bind (hf a) fun b => bind (mapM hf l) fun bs => pure (b :: bs)

end NeverFails

section Run

variable {ε σ α β : Type} {s s' : σ}

/-- A run of `f <$> x` that succeeds is a run of `x` that succeeds, its value mapped. -/
theorem run_map_eq_ok {x : ExceptT ε (StateM σ) α} {f : α → β} {b : β}
    (h : (f <$> x).run.run s = (.ok b, s')) : ∃ a, x.run.run s = (.ok a, s') ∧ b = f a := by
  rw [map_eq_bind_pure_comp] at h
  obtain ⟨a, s₁, hx, hpure⟩ := run_bind_eq_ok h
  simp only [Function.comp_apply, run_pure] at hpure
  obtain ⟨rfl, rfl⟩ := hpure
  exact ⟨a, hx, rfl⟩

theorem run_map_of_ok {x : ExceptT ε (StateM σ) α} {a : α} (f : α → β)
    (h : x.run.run s = (.ok a, s')) : (f <$> x).run.run s = (.ok (f a), s') := by
  rw [map_eq_bind_pure_comp, run_bind_of_ok h]
  rfl

end Run

namespace Wire

/-- Over HTTP the advertisement frame has a service line and a flush in front. -/
theorem smartReply_http (lines : List String) (service : String) :
    smartReply .http lines service =
      writeLines [.data (Bytes.ofString ("# service=" ++ service ++ "\n")), .flush] ++
        smartReply .ssh lines service := by
  simp [smartReply]

end Wire

namespace Engine

open Wire

/-! ## The advertisement -/

theorem infoRefs_http (n : RepoName) (service : Service) :
    infoRefs n service .http =
      (writeLines [.data (Bytes.ofString ("# service=" ++ service.name ++ "\n")), .flush] ++ ·) <$>
        infoRefs n service .ssh := by
  simp only [infoRefs, map_bind, map_pure, smartReply_http]

/-- **The HTTP advertisement is the one sent over a connection behind a service line and a
flush**, for every repository name and service, whatever storage holds. -/
theorem advertise_http (raw : String) (service : Service) :
    Transport.advertise raw service .http =
      (writeLines [.data (Bytes.ofString ("# service=" ++ service.name ++ "\n")), .flush] ++ ·) <$>
        Transport.advertise raw service .ssh := by
  simp only [Transport.advertise, map_bind, infoRefs_http]

/-! ## The want list -/

section WantList

variable {st : Storage} {out : Bytes}

theorem readWants_data_ok {w : Bytes} (hw : (PktLine.data w).Fits) (rest : Bytes)
    {W : List ObjectId} {C : List Capability} {x : Option ObjectId} {c : List Capability}
    (hx : wantLine w W.isEmpty = .ok (x, c)) :
    readWants ((PktLine.data w).encode ++ rest) W C = readWants rest (W ++ x.toList) (C ++ c) := by
  obtain ⟨h, hread⟩ := readOne_encode_append hw rest
  rw [readWants]
  simp only [hread, hx]

theorem readWants_data_error {w : Bytes} (hw : (PktLine.data w).Fits) (rest : Bytes)
    {W : List ObjectId} {C : List Capability} {e : ProtocolError}
    (he : wantLine w W.isEmpty = .error e) :
    readWants ((PktLine.data w).encode ++ rest) W C = .error e := by
  obtain ⟨h, hread⟩ := readOne_encode_append hw rest
  rw [readWants]
  simp only [hread, he]

theorem readWants_flush (rest : Bytes) (W : List ObjectId) (C : List Capability) :
    readWants (flushBytes ++ rest) W C = .ok (W, C, rest) := by
  obtain ⟨h, hread⟩ := readOne_encode_append (show PktLine.flush.Fits from trivial) rest
  rw [readWants, ← PktLine.encode, hread]

theorem readWantList_data {w : Bytes} (hw : (PktLine.data w).Fits) (rest : Bytes)
    {W : List ObjectId} {C : List Capability} {x : Option ObjectId} {c : List Capability}
    (h : wantLine w W.isEmpty = .ok (x, c)) (fuel : Nat) :
    (readWantList (fuel + 1) W C).run.run (st, ⟨atOnce ((PktLine.data w).encode ++ rest), out⟩) =
      (readWantList fuel (W ++ x.toList) (C ++ c)).run.run (st, ⟨atOnce rest, out⟩) := by
  simp only [readWantList]
  rw [run_bind_of_ok (readLine_encode_append hw rest out st)]
  simp only [h, verify, pure_bind]

theorem readWantList_flush (rest : Bytes) (fuel : Nat) (W : List ObjectId) (C : List Capability) :
    (readWantList (fuel + 1) W C).run.run (st, ⟨atOnce (flushBytes ++ rest), out⟩) =
      (.ok (W, C), (st, ⟨atOnce rest, out⟩)) := by
  simp only [readWantList]
  rw [← PktLine.encode,
    run_bind_of_ok (readLine_encode_append (show PktLine.flush.Fits from trivial) rest out st)]
  rfl

/-- **A want list closed by a flush is read over a connection as over HTTP**: the same wants
and capabilities, the same lines left. -/
theorem readWantList_of_readWants {ws : List Bytes} (hws : ∀ w ∈ ws, (PktLine.data w).Fits)
    (rest out : Bytes) (st : Storage) :
    ∀ {W W' : List ObjectId} {C C' : List Capability} {rest' : Bytes} (fuel : Nat),
      ws.length < fuel →
      readWants (writeLines (ws.map .data) ++ (flushBytes ++ rest)) W C = .ok (W', C', rest') →
      rest' = rest ∧ (readWantList fuel W C).run.run
          (st, ⟨atOnce (writeLines (ws.map .data) ++ (flushBytes ++ rest)), out⟩) =
        (.ok (W', C'), (st, ⟨atOnce rest, out⟩)) := by
  induction ws with
  | nil =>
    intro W W' C C' rest' fuel hfuel h
    obtain ⟨k, rfl⟩ : ∃ k, fuel = k + 1 := ⟨fuel - 1, by simp at hfuel; omega⟩
    simp only [List.map_nil, writeLines_nil, List.nil_append] at h ⊢
    rw [readWants_flush] at h
    simp only [Except.ok.injEq, Prod.mk.injEq] at h
    obtain ⟨rfl, rfl, rfl⟩ := h
    exact ⟨rfl, readWantList_flush rest k W C⟩
  | cons w ws ih =>
    intro W W' C C' rest' fuel hfuel h
    obtain ⟨k, rfl⟩ : ∃ k, fuel = k + 1 := ⟨fuel - 1, by simp at hfuel; omega⟩
    have hw := hws w List.mem_cons_self
    simp only [List.map_cons, writeLines_cons, List.append_assoc] at h ⊢
    rcases hline : wantLine w W.isEmpty with e | ⟨x, c⟩
    · rw [readWants_data_error hw _ hline] at h
      cases h
    · rw [readWants_data_ok hw _ hline] at h
      rw [readWantList_data hw _ hline]
      exact ih (fun w' hw' => hws w' (List.mem_cons_of_mem w hw')) k
        (by simp at hfuel; omega) h

end WantList

/-! ## The negotiation -/

section Negotiation

variable {n : RepoName} {caps : List Capability} {wants : List ObjectId} {st : Storage}
  {out : Bytes}

theorem readHaves_of_takeHave {common c : Common} {held sent rest : Bytes} {id : ObjectId}
    {st₁ : Storage} (h : (takeHave n common id).run.run st = (.ok (c, sent), st₁)) (fuel : Nat) :
    (readHaves n (fuel + 1) common held).run.run
        (st, ⟨atOnce ((ClientLine.have id).toPkt.encode ++ rest), out⟩) =
      (readHaves n fuel c (held ++ sent)).run.run (st₁, ⟨atOnce rest, out⟩) := by
  simp only [readHaves]
  rw [run_bind_of_ok (readLine_encode_append (ClientLine.fits_toPkt
    (show (ClientLine.have id).Sendable from trivial)) rest out st)]
  simp only [ClientLine.toPkt, parse_have, verify, pure_bind]
  rw [run_bind_of_ok (run_engine_of_ok h _)]

theorem readHaves_other {line : Bytes} (hx : (ClientLine.other line).Sendable) (rest : Bytes)
    (common : Common) (held : Bytes) (fuel : Nat) :
    (readHaves n (fuel + 1) common held).run.run
        (st, ⟨atOnce ((ClientLine.other line).toPkt.encode ++ rest), out⟩) =
      (readHaves n fuel common held).run.run (st, ⟨atOnce rest, out⟩) := by
  simp only [readHaves]
  rw [run_bind_of_ok (readLine_encode_append (ClientLine.fits_toPkt hx) rest out st)]
  simp only [ClientLine.toPkt, parse_other hx.2.1 hx.2.2, verify, pure_bind]

theorem readHaves_done_closing (rest : Bytes) (common : Common) (held : Bytes) (fuel : Nat) :
    (readHaves n (fuel + 1) common held).run.run
        (st, ⟨atOnce (ClientLine.done.toPkt.encode ++ rest), out⟩) =
      (.ok (common, held ++ closing common), (st, ⟨atOnce rest, out⟩)) := by
  simp only [readHaves]
  rw [run_bind_of_ok (readLine_encode_append (ClientLine.fits_toPkt
    (show ClientLine.done.Sendable from trivial)) rest out st)]
  simp only [ClientLine.toPkt, parse_done, verify, pure_bind]
  rfl

/-- **The negotiation over a connection does what the HTTP one does.** When HTTP answers
`have` lines and lines of other commands, then `done`, the connection reads the same lines
through the same steps against storage and holds back the same answers; HTTP's answer is those
answers followed by the pack for the objects in common. -/
theorem readHaves_of_negotiate {pre : List ClientLine}
    (hpre : ∀ x ∈ pre, x.Sendable ∧ x.ends = false) (tail out : Bytes) :
    ∀ {common : Common} {held b : Bytes} {st st'' : Storage} (fuel : Nat), pre.length < fuel →
      (negotiate n caps wants (writeLines ((pre ++ [ClientLine.done]).map ClientLine.toPkt) ++ tail)
          common held).run.run st = (.ok b, st'') →
      ∃ c h st' pack, (readHaves n fuel common held).run.run
          (st, ⟨atOnce (writeLines ((pre ++ [ClientLine.done]).map ClientLine.toPkt) ++ tail), out⟩) =
          (.ok (c, h), (st', ⟨atOnce tail, out⟩)) ∧
        (preparePack n caps wants c).run.run st' = (.ok pack, st'') ∧
        b = h ++ packResponse caps pack := by
  induction pre with
  | nil =>
    intro common held b st st'' fuel hfuel h
    obtain ⟨k, rfl⟩ : ∃ k, fuel = k + 1 := ⟨fuel - 1, by simp at hfuel; omega⟩
    simp only [List.nil_append, List.map_cons, List.map_nil, writeLines_cons, writeLines_nil,
      List.append_nil] at h ⊢
    rw [negotiate_done] at h
    obtain ⟨pack, hprep, rfl⟩ := run_map_eq_ok h
    exact ⟨common, held ++ closing common, st, pack, readHaves_done_closing tail common held k,
      hprep, rfl⟩
  | cons x pre ih =>
    intro common held b st st'' fuel hfuel h
    obtain ⟨k, rfl⟩ : ∃ k, fuel = k + 1 := ⟨fuel - 1, by simp at hfuel; omega⟩
    have hfuel' : pre.length < k := by simp at hfuel; omega
    have hpre' : ∀ y ∈ pre, y.Sendable ∧ y.ends = false :=
      fun y hy => hpre y (List.mem_cons_of_mem x hy)
    simp only [List.cons_append, List.map_cons, writeLines_cons, List.append_assoc] at h ⊢
    match x, hpre x List.mem_cons_self with
    | .have id, _ =>
      -- a `have` is looked up in storage on both sides, and its answer held back
      rw [negotiate_have] at h
      obtain ⟨⟨c, sent⟩, st₁, htake, hrest⟩ := run_bind_eq_ok h
      rw [readHaves_of_takeHave htake]
      exact ih hpre' k hfuel' hrest
    | .other line, hx =>
      rw [negotiate_other hx.1] at h
      rw [readHaves_other hx.1]
      exact ih hpre' k hfuel' h
    | .flush, hx | .done, hx => simp [ClientLine.ends] at hx

end Negotiation

/-! ## Upload-pack -/

section Upload

variable {n : RepoName} {s s' : Storage} {adv out tail : Bytes} {ws : List Bytes}
  {pre : List ClientLine}

/-- An upload delivered at once is answered as over HTTP: the server writes the advertisement
and then exactly the HTTP answer, and leaves storage as HTTP does. -/
theorem serveUpload_atOnce_of_uploadPack
    (hadv : (infoRefs n .uploadPack .ssh).run.run s = (.ok adv, s))
    (hws : ∀ w ∈ ws, (PktLine.data w).Fits) (hpre : ∀ x ∈ pre, x.Sendable ∧ x.ends = false)
    (hhttp : (uploadPack n (writeLines (ws.map .data) ++ (flushBytes ++
      (writeLines ((pre ++ [ClientLine.done]).map ClientLine.toPkt) ++ tail)))).run.run s =
      (.ok out, s')) :
    ∃ rest, (serveUpload n).run.run (s, ⟨atOnce (writeLines (ws.map .data) ++ (flushBytes ++
      (writeLines ((pre ++ [ClientLine.done]).map ClientLine.toPkt) ++ tail))), []⟩) =
        (.ok (), (s', ⟨atOnce rest, adv ++ out⟩)) := by
  generalize hneg : writeLines ((pre ++ [ClientLine.done]).map ClientLine.toPkt) ++ tail = neg
    at hhttp ⊢
  unfold uploadPack at hhttp
  rcases hw : readWants (writeLines (ws.map .data) ++ (flushBytes ++ neg)) [] [] with
    e | ⟨W, C, rest'⟩
  · rw [hw] at hhttp
    cases hhttp
  have hbound : ws.length <
      (atOnce (writeLines (ws.map .data) ++ (flushBytes ++ neg))).flatten.length + 1 := by
    have := @length_le_length_writeLines (ws.map .data) (by simpa using hws)
    simp only [flatten_atOnce, List.length_map, List.length_append] at this ⊢
    omega
  obtain ⟨rfl, hlist⟩ := readWantList_of_readWants hws neg ([] ++ adv) s _ hbound hw
  have hcheck : (check (Except.ok (W, C, rest'))).run.run s = (.ok (W, C, rest'), s) := rfl
  rw [hw, run_bind_of_ok hcheck] at hhttp
  unfold serveUpload
  rw [run_bind_of_ok (run_engine_of_ok hadv _), run_bind_of_ok (run_write _ _ _),
    run_bind_of_ok (run_readBound _ _), run_bind_of_ok hlist]
  simp only at hhttp ⊢
  by_cases hW : W.isEmpty
  · -- no wants: HTTP answers nothing, and the connection stops after the advertisement
    rw [if_pos hW] at hhttp ⊢
    simp only [run_pure] at hhttp
    obtain ⟨rfl, rfl⟩ := hhttp
    exact ⟨rest', by rw [List.append_nil]; rfl⟩
  rw [if_neg hW] at hhttp ⊢
  obtain ⟨_, s₁, hwants, hnegotiate⟩ := run_bind_eq_ok hhttp
  subst hneg
  have hsend : ∀ x ∈ pre ++ [ClientLine.done], x.Sendable := by
    intro x hx
    rcases List.mem_append.1 hx with hx | hx
    · exact (hpre x hx).1
    · rw [List.mem_singleton.1 hx]
      trivial
  have hfuel := ClientLine.length_writeLines hsend
  obtain ⟨c, held, st', pack, hhaves, hprepare, rfl⟩ := readHaves_of_negotiate hpre tail
    ([] ++ adv)
    ((atOnce (writeLines ((pre ++ [ClientLine.done]).map ClientLine.toPkt) ++ tail)).flatten.length
      + 1)
    (by simp only [flatten_atOnce, List.length_append, List.length_singleton] at hfuel ⊢; omega)
    hnegotiate
  rw [run_bind_of_ok (run_engine_of_ok hwants _), run_bind_of_ok (run_readBound _ _),
    run_bind_of_ok hhaves, run_bind_of_ok (run_write _ _ _),
    run_bind_of_ok (run_tryCatch_of_ok (run_engine_of_ok hprepare _)), run_write]
  exact ⟨tail, by simp⟩

/-- **An upload over a connection is answered as over HTTP, however the connection delivers
it.** For a request of want lines, a flush, `have` lines and lines of other commands, and
`done`, that HTTP answers, over storage that sends the advertisement without changing: cut
into chunks in any way, over a connection the server writes the advertisement and then
exactly the HTTP answer, and leaves storage as HTTP does. -/
theorem serveUpload_of_uploadPack
    (hadv : (infoRefs n .uploadPack .ssh).run.run s = (.ok adv, s))
    (hws : ∀ w ∈ ws, (PktLine.data w).Fits) (hpre : ∀ x ∈ pre, x.Sendable ∧ x.ends = false)
    (hhttp : (uploadPack n (writeLines (ws.map .data) ++ (flushBytes ++
      (writeLines ((pre ++ [ClientLine.done]).map ClientLine.toPkt) ++ tail)))).run.run s =
      (.ok out, s'))
    {chunks : List Bytes} (hc : [] ∉ chunks) (hflat : chunks.flatten = writeLines (ws.map .data) ++
      (flushBytes ++ (writeLines ((pre ++ [ClientLine.done]).map ClientLine.toPkt) ++ tail))) :
    ∃ rest, (serveUpload n).run.run (s, ⟨chunks, []⟩) = (.ok (), (s', ⟨rest, adv ++ out⟩)) := by
  obtain ⟨rest, hrun⟩ := serveUpload_atOnce_of_uploadPack hadv hws hpre hhttp
  obtain ⟨cs, -, -, hcut⟩ := CutFree.run_of_atOnce serveUpload_cutFree hrun hc hflat
  exact ⟨cs, hcut⟩

end Upload

/-! ## Receive-pack -/

section Receive

variable {st : Storage} {out : Bytes}

/-- **A command list closed by a flush is read over a connection as over HTTP**: the same
request, and the same bytes left after the flush. -/
theorem readCommandList_of_readCommands {req' : PushRequest} {P : Bytes} (out : Bytes)
    (st : Storage) : ∀ (fuel : Nat) {buf : Bytes} {req : PushRequest}, buf.length < fuel →
      readCommands buf req = .ok (req', true, P) →
      (readCommandList fuel req).run.run (st, ⟨atOnce buf, out⟩) =
        (.ok req', (st, ⟨atOnce P, out⟩))
  | 0, _, _, hlt, _ => absurd hlt (Nat.not_lt_zero _)
  | fuel + 1, buf, req, hlt, h => by
    rw [readCommands] at h
    rcases hone : readOne buf with e | (_ | ⟨l, rest⟩)
    · rw [hone] at h
      cases h
    · rw [hone] at h
      cases h
    rw [hone] at h
    simp only [readCommandList]
    rw [run_bind_of_ok (readLine_atOnce_of_readOne hone out st)]
    cases l with
    | flush =>
      simp only [Except.ok.injEq, Prod.mk.injEq] at h
      obtain ⟨rfl, -, rfl⟩ := h
      rfl
    | data line =>
      rcases hc : commandLine req line with e | req''
      · simp only [hc] at h
        cases h
      simp only [hc] at h
      simp only [hc, verify, pure_bind]
      exact readCommandList_of_readCommands out st fuel (by have := rest.2; omega) h

/-- What one read hands over is the front of the unread bytes: after `m` bytes of `P` the
bytes read are the next ones, and what is left unread is the rest of `P`. -/
theorem take_append_of_readSome {P more : Bytes} {m : Nat} {rest : List Bytes}
    (h : more ++ rest.flatten = P.drop m) :
    P.take m ++ more = P.take (m + more.length) ∧ rest.flatten = P.drop (m + more.length) := by
  constructor
  · rw [List.take_add, ← h, List.take_left]
  · rw [← List.drop_drop, ← h, List.drop_left]

/-- **A pack is read up to its trailer, however the connection delivers it.** Fed what has
arrived, read after read, the scanner stops exactly at the trailer of a pack that reads: the
bytes read are the pack and all of it is consumed. The induction is on the reads left; each
read hands over at least one byte, and the scanner goes on knowing the pack
(`Pack.Scanner.feed_pack`). -/
theorem readPackFrom_pack {P : Bytes} (hP : Pack.Parses P) (out : Bytes) (st : Storage) :
    ∀ (fuel m : Nat) (sc : Pack.Scanner) (cs : List Bytes), [] ∉ cs → cs.flatten = P.drop m →
      sc.Tracks P.toArray (P.length - Pack.idLength) → P.length - m < fuel →
      (readPackFrom fuel sc (P.take m)).run.run (st, ⟨cs, out⟩) = (.ok P, (st, ⟨[], out⟩)) := by
  intro fuel
  induction fuel with
  | zero => intro m sc cs _ _ _ hfuel; omega
  | succ fuel ih =>
    intro m sc cs hc hflat hsc hfuel
    obtain ⟨sc', hfeed, hsc'⟩ := Pack.Scanner.feed_pack hP [] hsc m
    rw [List.append_nil] at hfeed
    by_cases hm : m < P.length
    case neg =>
      -- the bytes read hold the whole pack, and nothing is left to read
      rw [if_neg hm] at hfeed
      have hnil : cs = [] := (flatten_eq_nil_iff hc).1 (by rw [hflat]; simp; omega)
      subst hnil
      simp only [readPackFrom, hfeed, List.take_take, Nat.min_eq_left (Nat.le_of_not_lt hm),
        List.take_length]
      rfl
    case pos =>
      -- the pack goes on past what was read: read what the next chunk holds
      rw [if_pos hm] at hfeed
      have hroom : 0 < readChunk := by unfold readChunk; omega
      obtain ⟨happend, hempty, hrest⟩ := readSome_spec hroom hc
      rcases hread : readSome readChunk cs with ⟨more, rest⟩
      rw [hread] at happend hempty hrest
      have hcs : cs ≠ [] := by
        rintro rfl
        simp only [List.flatten_nil] at hflat
        exact absurd hflat.symm (by simp; omega)
      have hmore : more.isEmpty = false := by
        rw [List.isEmpty_eq_false_iff]
        exact fun h => hcs (hempty.1 h)
      obtain ⟨htake, hdrop⟩ := take_append_of_readSome (happend.trans hflat)
      have hlen : more.length ≤ P.length - m := by
        have := congrArg List.length (happend.trans hflat)
        simp only [List.length_append, List.length_drop] at this
        omega
      have hpos : 0 < more.length := List.length_pos_iff.2 (List.isEmpty_eq_false_iff.1 hmore)
      simp only [readPackFrom, hfeed]
      rw [run_bind_of_ok (run_pending _ _)]
      simp only [hread, hmore, Bool.false_eq_true, if_false]
      rw [run_bind_of_ok (run_consume _ _ _), htake]
      exact ih (m + more.length) sc' rest hrest hdrop hsc' (by omega)

/-! ### Applying a push never fails -/

theorem moveReference_neverFails (n : RepoName) (c : RefCommand) :
    NeverFails (moveReference n c) := by
  unfold moveReference
  exact NeverFails.bind (NeverFails.tryCatch _ fun _ => NeverFails.pure _) fun o => by
    cases o <;> exact NeverFails.pure _

theorem applyCommand_neverFails (n : RepoName) (c : RefCommand) :
    NeverFails (applyCommand n c) := by
  unfold applyCommand
  dsimp only
  split
  · exact NeverFails.pure _
  split
  · -- a command that does not delete first asks storage for its new object
    refine NeverFails.bind (NeverFails.tryCatch _ fun _ => NeverFails.pure _) fun stored => ?_
    rcases stored with (_ | _) | _
    · exact NeverFails.pure _
    · exact moveReference_neverFails n c
    · exact NeverFails.pure _
  · exact moveReference_neverFails n c

theorem unpackPushed_neverFails (n : RepoName) (pack : Option Bytes) :
    NeverFails (unpackPushed n pack) := by
  unfold unpackPushed
  split
  · split
    · exact NeverFails.pure _
    · exact NeverFails.tryCatch _ fun _ => NeverFails.pure _
  · exact NeverFails.pure _

/-- **Applying a push never fails**: whatever storage does, the unpack and every command record
their outcome in the report instead of failing. -/
theorem applyPush_neverFails (n : RepoName) (req : PushRequest) (pack : Option Bytes) :
    NeverFails (applyPush n req pack) := by
  unfold applyPush
  refine NeverFails.bind (unpackPushed_neverFails n pack) fun unpacked => ?_
  dsimp only
  -- the commands' outcomes are recorded whichever way the unpack went, then reported
  split
  · refine NeverFails.bind (NeverFails.mapM (applyCommand_neverFails n) _) fun _ => ?_
    split <;> exact NeverFails.pure _
  · refine NeverFails.bind (NeverFails.pure _) fun _ => ?_
    split <;> exact NeverFails.pure _

/-- A push whose command lines read and end in a flush is answered over HTTP: the unpack and
the commands record their outcomes instead of failing. -/
theorem receivePack_answers_of_flushed (n : RepoName) (s : Storage) {R P : Bytes}
    {req : PushRequest} (hread : readCommands R {} = .ok (req, true, P)) :
    ∃ out s', (receivePack n R).run.run s = (.ok out, s') := by
  have hcheck : (check (readCommands R {})).run.run s = (.ok (req, true, P), s) := by
    rw [hread]
    rfl
  unfold receivePack
  rw [run_bind_of_ok hcheck]
  dsimp only
  split
  · exact ⟨[], s, rfl⟩
  · exact applyPush_neverFails n req _ s

/-- **A push over a connection is answered as over HTTP, however the connection delivers
it.** For a request whose command lines read as a push and end in a flush, followed by nothing
when every command deletes and otherwise by one pack that reads, over storage that sends the
advertisement without changing, and the answer HTTP gives it: cut into chunks in any way, over
a connection the server reads the whole request, writes the advertisement and then exactly the
HTTP answer, and leaves storage as HTTP leaves it. -/
theorem serveReceive_of_receivePack {n : RepoName} {s s' : Storage} {adv out R P : Bytes}
    {req : PushRequest} (hadv : (infoRefs n .receivePack .ssh).run.run s = (.ok adv, s))
    (hread : readCommands R {} = .ok (req, true, P))
    (hpack : if req.commands.any (·.kind != .delete) then Pack.Parses P else P = [])
    (hhttp : (receivePack n R).run.run s = (.ok out, s'))
    {chunks : List Bytes} (hc : [] ∉ chunks) (hflat : chunks.flatten = R) :
    (serveReceive n).run.run (s, ⟨chunks, []⟩) = (.ok (), (s', ⟨[], adv ++ out⟩)) := by
  have hcheck : (check (readCommands R {})).run.run s = (.ok (req, true, P), s) := by
    rw [hread]
    rfl
  -- the command lines are read as from the request delivered at once
  obtain ⟨cs, hcs, hcsflat, hlist⟩ := CutFree.run_of_atOnce (readCommandList_cutFree _ _)
    (readCommandList_of_readCommands ([] ++ adv) s (R.length + 1) (Nat.lt_succ_self _) hread)
    hc hflat
  rw [flatten_atOnce] at hcsflat
  unfold receivePack at hhttp
  rw [run_bind_of_ok hcheck] at hhttp
  unfold serveReceive
  rw [run_bind_of_ok (run_engine_of_ok hadv _), run_bind_of_ok (run_write _ _ _),
    run_bind_of_ok (run_readBound _ _)]
  simp only [hflat]
  rw [run_bind_of_ok hlist]
  dsimp only at hhttp ⊢
  by_cases hempty : req.commands.isEmpty
  · -- no command: both answer nothing, storage is not touched, and nothing follows the flush
    have hnone : (req.commands.any fun c => c.kind != .delete) = false := by
      rw [List.isEmpty_iff.1 hempty]
      rfl
    rw [if_neg (by rw [hnone]; decide)] at hpack
    subst hpack
    obtain rfl : cs = [] := (flatten_eq_nil_iff hcs).1 hcsflat
    rw [if_pos hempty] at hhttp ⊢
    rw [run_pure] at hhttp
    obtain ⟨hout, rfl⟩ := Prod.mk.inj hhttp
    obtain rfl : [] = out := Except.ok.inj hout
    rw [List.append_nil]
    rfl
  rw [if_neg hempty] at hhttp ⊢
  simp only [Bool.not_true, Bool.false_eq_true, if_false] at hhttp ⊢
  by_cases hneeds : (req.commands.any fun c => c.kind != .delete) = true
  · -- a pack is needed: the connection reads exactly the bytes HTTP takes for the pack
    rw [if_pos hneeds] at hpack ⊢
    have hlong := hpack.length_ge
    have hsome : P.isEmpty = false := by
      rw [List.isEmpty_eq_false_iff, ← List.length_pos_iff]
      unfold Pack.headerLength Pack.idLength at hlong
      omega
    simp only [hsome, Bool.false_eq_true, if_false] at hhttp
    have hpackRead := readPackFrom_pack hpack ([] ++ adv) s (P.length + 1) 0 .fresh cs hcs
      (by rw [List.drop_zero, hcsflat]) trivial (by omega)
    rw [List.take_zero] at hpackRead
    rw [run_bind_of_ok (run_pending _ _), hcsflat, run_bind_of_ok (run_map_of_ok some hpackRead),
      run_bind_of_ok (run_engine_of_ok hhttp _), run_write]
    rfl
  · -- every command deletes: nothing follows the flush and no pack is read
    rw [if_neg hneeds] at hpack ⊢
    subst hpack
    obtain rfl : cs = [] := (flatten_eq_nil_iff hcs).1 hcsflat
    simp only [List.isEmpty_nil, if_true] at hhttp
    rw [run_bind_of_ok (run_pure _ _), run_bind_of_ok (run_engine_of_ok hhttp _), run_write]
    rfl

end Receive

/-! ## The two bindings -/

/-- **Over a connection an exchange is answered as over HTTP, however the connection cuts the
request into chunks.**

* For every repository name and service, the HTTP advertisement is the one sent over a
  connection behind the pkt-line `# service=<service>` and a flush.
* For an upload request of want lines, a flush, `have` lines and lines of other commands (no
  flush among them) and `done`, that HTTP answers, over storage that sends the advertisement
  without failing or changing: delivered in any chunks, none empty, over a connection the
  server writes the advertisement followed by exactly the HTTP answer, and storage ends as
  HTTP leaves it.
* For a push request whose command lines read and end in a flush, followed by nothing when
  every command deletes and otherwise by one pack that reads up to its trailer and nothing
  after it, over the same storage: HTTP answers, and delivered in any chunks, none empty, over
  a connection the server reads the whole request, writes the advertisement followed by
  exactly the HTTP answer, and storage ends as HTTP leaves it.

Lines are read exactly whatever the cut (`CutFree.run_of_atOnce`); the pack is read a chunk at
a time, and the pack scanner answers alike for every cut of the bytes that have arrived
(`Pack.Scanner.feed_pack`). -/
theorem connection_agrees_with_http :
    (∀ (raw : String) (service : Service),
      Transport.advertise raw service .http =
        (writeLines [.data (Bytes.ofString ("# service=" ++ service.name ++ "\n")), .flush] ++ ·) <$>
          Transport.advertise raw service .ssh) ∧
    (∀ (n : RepoName) (s s' : Storage) (adv out tail : Bytes) (ws : List Bytes)
      (pre : List ClientLine),
      (infoRefs n .uploadPack .ssh).run.run s = (.ok adv, s) →
      (∀ w ∈ ws, (PktLine.data w).Fits) → (∀ x ∈ pre, x.Sendable ∧ x.ends = false) →
      let request := writeLines (ws.map .data) ++
        (flushBytes ++ (writeLines ((pre ++ [ClientLine.done]).map ClientLine.toPkt) ++ tail))
      (uploadPack n request).run.run s = (.ok out, s') →
      ∀ chunks : List Bytes, [] ∉ chunks → chunks.flatten = request →
        ∃ rest, (serve n .uploadPack).run.run (s, ⟨chunks, []⟩) =
          (.ok (), (s', ⟨rest, adv ++ out⟩))) ∧
    (∀ (n : RepoName) (s : Storage) (adv request P : Bytes) (req : PushRequest),
      (infoRefs n .receivePack .ssh).run.run s = (.ok adv, s) →
      readCommands request {} = .ok (req, true, P) →
      (if req.commands.any (·.kind != .delete) then Pack.Parses P else P = []) →
      ∃ out s', (receivePack n request).run.run s = (.ok out, s') ∧
        ∀ chunks : List Bytes, [] ∉ chunks → chunks.flatten = request →
          (serve n .receivePack).run.run (s, ⟨chunks, []⟩) =
            (.ok (), (s', ⟨[], adv ++ out⟩))) := by
  refine ⟨advertise_http, ?_, ?_⟩
  · intro n s s' adv out tail ws pre hadv hws hpre _ hhttp chunks hc hflat
    exact serveUpload_of_uploadPack hadv hws hpre hhttp hc hflat
  · intro n s adv request P req hadv hread hpack
    obtain ⟨out, s', hhttp⟩ := receivePack_answers_of_flushed n s hread
    exact ⟨out, s', hhttp, fun _ hc hflat => serveReceive_of_receivePack hadv hread hpack hhttp hc hflat⟩

/-- An empty blob store holds no reference of `demo.git`. -/
theorem refs_emptyDemo : (refs ⟨"demo.git"⟩).run.run emptyDemo = (.ok [], emptyDemo) := by
  have hnone :
      ((Remote.iterateReferences ⟨"demo.git"⟩).run.run (BlobStore.empty 1)).1 = .ok [] := by
    decide +kernel
  have hsame := (Remote.iterateReferences_stays ⟨"demo.git"⟩ (BlobStore.empty 1) trivial).2
  unfold refs store Storage.iterateReferences
  rw [run_adapt_of_ok _ (by rw [Storage.run_onMedium_remote _ _ rfl, hnone, ← hsame])]
  rfl

/-- An empty repository advertises without failing or changing. -/
theorem infoRefs_emptyDemo (service : Service) (binding : Binding) :
    ∃ adv, (infoRefs ⟨"demo.git"⟩ service binding).run.run emptyDemo = (.ok adv, emptyDemo) := by
  unfold infoRefs
  rw [run_bind_of_ok refs_emptyDemo]
  exact ⟨_, rfl⟩

/-- A command line deleting `refs/heads/main` at the id `11…11`, asking for `report-status`. -/
def deleteMainLine : Bytes := Bytes.ofString
  ("1111111111111111111111111111111111111111 0000000000000000000000000000000000000000 " ++
    "refs/heads/main\x00report-status\n")

/-- A push of that one command: it deletes, so no pack follows the flush. -/
def deleteMainPush : Bytes := (PktLine.data deleteMainLine).encode ++ flushBytes

/-- What the command line asks for. -/
def deleteMainRequest : PushRequest :=
  { commands := [⟨⟨List.replicate 20 0x11, ObjectId.length_replicate_17⟩, ObjectId.zero, "refs/heads/main", .pending⟩],
    caps := [.reportStatus] }

theorem readCommands_deleteMainPush :
    readCommands deleteMainPush {} = .ok (deleteMainRequest, true, []) := by
  have hline : readOne deleteMainPush =
      .ok (some (.data deleteMainLine, ⟨flushBytes, by decide +kernel⟩)) := by decide +kernel
  have hcommand : commandLine {} deleteMainLine = .ok deleteMainRequest := by decide +kernel
  have hflush : readOne flushBytes = .ok (some (.flush, ⟨[], by decide +kernel⟩)) := by
    decide +kernel
  rw [readCommands_of_data hline hcommand, readCommands_of_flush hflush]

/-- Over an empty blob store, with the request delivered one byte at a time: an upload of an
empty want list and `done`, which HTTP answers with nothing, is answered with the advertisement
alone; a push deleting `main` is answered with the advertisement and the HTTP report. -/
theorem connection_agrees_with_http_emptyDemo :
    let upload := writeLines [] ++ (flushBytes ++ (writeLines [ClientLine.done.toPkt] ++ []))
    ∃ advU advR,
      (infoRefs ⟨"demo.git"⟩ .uploadPack .ssh).run.run emptyDemo = (.ok advU, emptyDemo) ∧
      (uploadPack ⟨"demo.git"⟩ upload).run.run emptyDemo = (.ok [], emptyDemo) ∧
      [] ∉ oneByOne upload ∧ (oneByOne upload).flatten = upload ∧
      (∃ rest, (serve ⟨"demo.git"⟩ .uploadPack).run.run (emptyDemo, ⟨oneByOne upload, []⟩) =
        (.ok (), (emptyDemo, ⟨rest, advU ++ []⟩))) ∧
      (infoRefs ⟨"demo.git"⟩ .receivePack .ssh).run.run emptyDemo = (.ok advR, emptyDemo) ∧
      readCommands deleteMainPush {} = .ok (deleteMainRequest, true, []) ∧
      ∃ out s', (receivePack ⟨"demo.git"⟩ deleteMainPush).run.run emptyDemo = (.ok out, s') ∧
        [] ∉ oneByOne deleteMainPush ∧ (oneByOne deleteMainPush).flatten = deleteMainPush ∧
        (serve ⟨"demo.git"⟩ .receivePack).run.run (emptyDemo, ⟨oneByOne deleteMainPush, []⟩) =
          (.ok (), (s', ⟨[], advR ++ out⟩)) := by
  intro upload
  obtain ⟨advU, hadvU⟩ := infoRefs_emptyDemo .uploadPack .ssh
  obtain ⟨advR, hadvR⟩ := infoRefs_emptyDemo .receivePack .ssh
  have hhttp : (uploadPack ⟨"demo.git"⟩ upload).run.run emptyDemo = (.ok [], emptyDemo) :=
    uploadPack_without_wants ⟨"demo.git"⟩ [] (by simp)
      (.flush (writeLines [ClientLine.done.toPkt] ++ [])) emptyDemo
  obtain ⟨out, s', hpush, hserve⟩ := connection_agrees_with_http.2.2 _ _ _ _ _ _ hadvR
    readCommands_deleteMainPush (by rw [if_neg (by decide)])
  exact ⟨advU, advR, hadvU, hhttp, nil_not_mem_oneByOne upload, flatten_oneByOne upload,
    connection_agrees_with_http.2.1 _ emptyDemo emptyDemo advU [] [] [] [] hadvU (by simp)
      (by simp) hhttp _ (nil_not_mem_oneByOne upload) (flatten_oneByOne upload),
    hadvR, readCommands_deleteMainPush, out, s', hpush, nil_not_mem_oneByOne deleteMainPush,
    flatten_oneByOne deleteMainPush,
    hserve _ (nil_not_mem_oneByOne deleteMainPush) (flatten_oneByOne deleteMainPush)⟩

end Engine

end GitServer
