import GitServer.Engine.Connection
import GitServer.Proofs.Wire.ReadersAgree
import GitServer.Proofs.Storage.Reliable
import Mathlib

/-!
# Reading from a connection, however it delivers

A connection hands the client's bytes over in chunks, as the network delivers them. A line is
read exactly, over as many chunks as it spans, so the line reader answers the same from every
cut of the same bytes into chunks (`readLineFrom_congr`). Two states of an exchange that
differ only in how the unread input is cut (`Recut`) are then told apart by no step that reads
lines: such a computation (`CutFree`) answers alike from both and leaves two such states. The
monad's combinators keep it, so the want list, the negotiation, the command list and the whole
upload exchange are cut-free (`serveUpload_cutFree`). Only the pack is read a chunk at a time;
its reader is treated with the pack.

The exchange lemmas compute with the bytes delivered at once (`atOnce`), where reading a line
leaves the rest delivered at once (`readLine_atOnce_of_readOne`); a cut-free computation does
from every cut what it does from that one (`CutFree.run_of_atOnce`).
-/

namespace GitServer

namespace Engine

open Wire

/-! ## Steps of an exchange -/

section Steps

variable {α : Type} {st st' : Storage}

theorem run_engine (m : EngineM α) (st : Storage) (ch : Channel) :
    (engine m).run.run (st, ch) = ((m.run.run st).1, ((m.run.run st).2, ch)) := rfl

theorem run_engine_of_ok {m : EngineM α} {a : α} (h : m.run.run st = (.ok a, st')) (ch : Channel) :
    (engine m).run.run (st, ch) = (.ok a, (st', ch)) := by
  rw [run_engine, h]

theorem run_pending (st : Storage) (ch : Channel) :
    pending.run.run (st, ch) = (.ok ch.input, (st, ch)) := rfl

theorem run_consume (rest : List Bytes) (st : Storage) (ch : Channel) :
    (consume rest).run.run (st, ch) = (.ok (), (st, { ch with input := rest })) := rfl

theorem run_write (bs : Bytes) (st : Storage) (ch : Channel) :
    (write bs).run.run (st, ch) = (.ok (), (st, { ch with output := ch.output ++ bs })) := rfl

theorem run_readBound (st : Storage) (ch : Channel) :
    readBound.run.run (st, ch) = (.ok (ch.input.flatten.length + 1), (st, ch)) := rfl

/-- Reading a line answers what the line reader makes of the chunks at hand, and leaves the
chunks it did not consume. -/
theorem run_readLine (st : Storage) (ch : Channel) :
    readLine.run.run (st, ch) =
      ((readLineFrom ch.input).1, (st, { ch with input := (readLineFrom ch.input).2 })) := by
  unfold readLine
  rw [run_bind_of_ok (run_pending _ _)]
  rcases readLineFrom ch.input with ⟨_ | _, rest⟩ <;> rfl

end Steps

/-! ## One line, however the bytes are cut -/

section OneLine

variable {cs cs' : List Bytes}

/-- Too few bytes for a length: the end of the input when there are none, else a failure;
either way everything is consumed. -/
theorem readLineFrom_of_short (hc : [] ∉ cs) (hshort : cs.flatten.length < 4) :
    readLineFrom cs = (if cs.flatten = [] then .ok none
      else .error (.decode "connection closed inside pkt-line length"), []) := by
  have hdig := @readDigits_of_lt [] cs hc (by simpa using hshort)
  rw [List.nil_append] at hdig
  unfold readLineFrom
  rw [hdig]
  split_ifs <;> rfl

/-- Four digits and more: the digits are the first four bytes, and what follows depends on
what they say and on the bytes after them only. -/
theorem readLineFrom_of_long (hc : [] ∉ cs) (hlong : 4 ≤ cs.flatten.length) :
    ∃ rest, [] ∉ rest ∧ rest.flatten = cs.flatten.drop 4 ∧
      readLineFrom cs = match parseLength (cs.flatten.take 4) with
        | .error e => (.error e, rest)
        | .ok none => (.ok (some .flush), rest)
        | .ok (some k) =>
          match readExact k [] rest with
          | none => (.error (.decode "connection closed inside pkt-line"), [])
          | some (payload, rest') => (.ok (some (.data payload)), rest') := by
  obtain ⟨rest, hdig, hflat, hrest⟩ := @readDigits_of_le [] cs hc (by simp) (by simpa using hlong)
  rw [List.nil_append] at hdig hflat
  refine ⟨rest, hrest, hflat, ?_⟩
  rewrite [readLineFrom, hdig]
  rfl

/-- **A line read does not see the cut**: from two cuts of the same bytes into chunks that are
not empty, the line reader answers alike, and leaves two such cuts of the same bytes. -/
theorem readLineFrom_congr (hc : [] ∉ cs) (hc' : [] ∉ cs') (hflat : cs.flatten = cs'.flatten) :
    (readLineFrom cs).1 = (readLineFrom cs').1 ∧
      (readLineFrom cs).2.flatten = (readLineFrom cs').2.flatten ∧
      [] ∉ (readLineFrom cs).2 ∧ [] ∉ (readLineFrom cs').2 := by
  by_cases hshort : cs.flatten.length < 4
  · rw [readLineFrom_of_short hc hshort, readLineFrom_of_short hc' (hflat ▸ hshort), hflat]
    exact ⟨rfl, rfl, List.not_mem_nil, List.not_mem_nil⟩
  obtain ⟨r, hr, hrflat, hline⟩ := readLineFrom_of_long hc (by omega)
  obtain ⟨r', hr', hrflat', hline'⟩ := readLineFrom_of_long hc' (by rw [← hflat]; omega)
  rw [hline, hline', hflat]
  rw [hflat] at hrflat
  -- the digits agree; past them the two rests hold the same bytes
  rcases parseLength (cs'.flatten.take 4) with e | _ | k
  · exact ⟨rfl, by rw [hrflat, hrflat'], hr, hr'⟩
  · exact ⟨rfl, by rw [hrflat, hrflat'], hr, hr'⟩
  by_cases hfull : k ≤ (cs'.flatten.drop 4).length
  · obtain ⟨q, hq, hqflat, hq'⟩ := @readExact_of_le [] r k hr (by rwa [hrflat])
    obtain ⟨q', hq₂, hqflat', hq₂'⟩ := @readExact_of_le [] r' k hr' (by rwa [hrflat'])
    simp only [hq, hq₂]
    rw [hrflat, hrflat'] at *
    exact ⟨by rw [hrflat, hrflat'], by rw [hqflat, hqflat', hrflat, hrflat'], hq', hq₂'⟩
  · have hnone := @readExact_of_lt [] r k hr (by rw [hrflat]; omega)
    have hnone' := @readExact_of_lt [] r' k hr' (by rw [hrflat']; omega)
    dsimp only
    rw [hnone, hnone']
    exact ⟨rfl, rfl, List.not_mem_nil, List.not_mem_nil⟩

/-- A line that a buffer holds is read from every cut of the buffer, and leaves a cut of the
buffer's rest. -/
theorem readLineFrom_of_readOne {buf : Bytes} {l : PktLine}
    {rest : {r : Bytes // r.length < buf.length}} (h : readOne buf = .ok (some (l, rest)))
    (hc : [] ∉ cs) (hflat : cs.flatten = buf) :
    (readLineFrom cs).1 = .ok (some l) ∧ (readLineFrom cs).2.flatten = rest.1 ∧
      [] ∉ (readLineFrom cs).2 := by
  match buf, rest, h with
  | [], _, h | [_], _, h | [_, _], _, h | [_, _, _], _, h => simp [readOne] at h
  | b0 :: b1 :: b2 :: b3 :: bs, rest, h =>
    obtain ⟨r, hr, hrflat, hline⟩ := readLineFrom_of_long hc (by simp [hflat])
    rw [hline]
    simp only [hflat, List.take_succ_cons, List.take_zero, List.drop_succ_cons,
      List.drop_zero] at hrflat ⊢
    simp only [readOne] at h
    rcases hlen : parseLength [b0, b1, b2, b3] with e | _ | k
    · simp [hlen, bind, Except.bind] at h
    · simp only [hlen, bind, Except.bind, pure, Except.pure, Except.ok.injEq, Option.some.injEq,
        Prod.mk.injEq] at h
      obtain ⟨rfl, rfl⟩ := h
      exact ⟨rfl, hrflat, hr⟩
    · simp only [hlen, bind, Except.bind] at h
      by_cases hshort : (bs.take k).length < k
      · rw [if_pos hshort] at h
        cases h
      rw [if_neg hshort] at h
      simp only [pure, Except.pure, Except.ok.injEq, Option.some.injEq, Prod.mk.injEq] at h
      obtain ⟨rfl, rfl⟩ := h
      have hfull : k ≤ r.flatten.length := by
        rw [hrflat]
        simp only [List.length_take] at hshort
        omega
      obtain ⟨q, hq, hqflat, hq'⟩ := @readExact_of_le [] r k hr hfull
      dsimp only
      rw [hq]
      exact ⟨by rw [hrflat]; rfl, by rw [hqflat, hrflat], hq'⟩

end OneLine

/-! ## Bytes delivered at once -/

section AtOnce

@[simp] theorem atOnce_nil : atOnce [] = [] := rfl

@[simp] theorem flatten_atOnce (bs : Bytes) : (atOnce bs).flatten = bs := by
  unfold atOnce
  split <;> simp_all

theorem nil_not_mem_atOnce (bs : Bytes) : [] ∉ atOnce bs := by
  unfold atOnce
  split
  · exact List.not_mem_nil
  · rename_i hne
    simpa [eq_comm] using hne

/-- Chunks that are not empty and at most one are the bytes delivered at once. -/
theorem eq_atOnce {cs : List Bytes} (hc : [] ∉ cs) (hlen : cs.length ≤ 1) :
    cs = atOnce cs.flatten := by
  match cs, hlen with
  | [], _ => rfl
  | [c], _ =>
    have hne : c ≠ [] := fun h => hc (by simp [h])
    simp [atOnce, hne]

theorem length_readSome_le_one {room : Nat} {cs : List Bytes} (h : cs.length ≤ 1) :
    (readSome room cs).2.length ≤ 1 := by
  match cs, h with
  | [], _ => simp [readSome]
  | [c], _ =>
    simp only [readSome]
    split <;> simp

theorem readDigits_single {got : Bytes} {cs : List Bytes} (h : cs.length ≤ 1) :
    ∀ {digits : Bytes} {rest : List Bytes}, readDigits got cs = .ok (some (digits, rest)) →
      rest.length ≤ 1 := by
  induction got, cs using readDigits.induct with
  | case1 chunks rest hlt hsome =>
    intro _ _ hr
    rw [readDigits, if_pos hlt, hsome] at hr
    simp at hr
  | case2 got chunks hlt rest hne hsome =>
    intro _ _ hr
    rw [readDigits, if_pos hlt, hsome] at hr
    simp [hne] at hr
  | case3 got chunks hlt more rest hsome hm ih =>
    intro _ _ hr
    rw [readDigits, if_pos hlt] at hr
    simp only [hsome, dif_neg hm] at hr
    have hone := @length_readSome_le_one (4 - got.length) chunks h
    rw [hsome] at hone
    exact ih hone hr
  | case4 got chunks hge =>
    intro _ _ hr
    rw [readDigits, if_neg hge] at hr
    cases hr
    exact h

theorem readExact_single {need : Nat} {got : Bytes} {cs : List Bytes} (h : cs.length ≤ 1) :
    ∀ {payload : Bytes} {rest : List Bytes}, readExact need got cs = some (payload, rest) →
      rest.length ≤ 1 := by
  induction need, got, cs using readExact.induct with
  | case1 got chunks =>
    intro _ _ hr
    rw [readExact, if_pos rfl] at hr
    cases hr
    exact h
  | case2 need got chunks hzero rest hsome =>
    intro _ _ hr
    rw [readExact, if_neg hzero] at hr
    simp [hsome] at hr
  | case3 need got chunks hzero more rest hsome hm ih =>
    intro _ _ hr
    rw [readExact, if_neg hzero] at hr
    simp only [hsome, dif_neg hm] at hr
    have hone := @length_readSome_le_one need chunks h
    rw [hsome] at hone
    exact ih hone hr

/-- A line read from at most one chunk leaves at most one. -/
theorem readLineFrom_single {cs : List Bytes} (h : cs.length ≤ 1) :
    (readLineFrom cs).2.length ≤ 1 := by
  unfold readLineFrom
  split
  · simp
  · simp
  · rename_i digits rest hdig
    have hrest := readDigits_single h hdig
    split
    · exact hrest
    · exact hrest
    · split
      · simp
      · rename_i payload rest' hexact
        exact readExact_single hrest hexact

/-- **A line of the buffer, from the buffer delivered at once**: the line is read, and the
rest of the buffer is left delivered at once. -/
theorem readLineFrom_atOnce_of_readOne {buf : Bytes} {l : PktLine}
    {rest : {r : Bytes // r.length < buf.length}} (h : readOne buf = .ok (some (l, rest))) :
    readLineFrom (atOnce buf) = (.ok (some l), atOnce rest.1) := by
  obtain ⟨hline, hflat, hne⟩ := readLineFrom_of_readOne h (nil_not_mem_atOnce buf)
    (flatten_atOnce buf)
  have hone : (atOnce buf).length ≤ 1 := by
    unfold atOnce
    split <;> simp
  rw [← hflat, ← eq_atOnce hne (readLineFrom_single hone), ← hline]

theorem readLine_atOnce_of_readOne {buf : Bytes} {l : PktLine}
    {rest : {r : Bytes // r.length < buf.length}} (h : readOne buf = .ok (some (l, rest)))
    (out : Bytes) (st : Storage) :
    readLine.run.run (st, ⟨atOnce buf, out⟩) = (.ok (some l), (st, ⟨atOnce rest.1, out⟩)) := by
  rw [run_readLine, readLineFrom_atOnce_of_readOne h]

theorem readLine_encode_append {l : PktLine} (hl : l.Fits) (rest out : Bytes) (st : Storage) :
    readLine.run.run (st, ⟨atOnce (l.encode ++ rest), out⟩) =
      (.ok (some l), (st, ⟨atOnce rest, out⟩)) := by
  obtain ⟨_, hread⟩ := readOne_encode_append hl rest
  exact readLine_atOnce_of_readOne hread out st

/-- The client's bytes delivered one at a time, the finest cut there is. -/
def oneByOne (bs : Bytes) : List Bytes := bs.map fun b => [b]

@[simp] theorem flatten_oneByOne (bs : Bytes) : (oneByOne bs).flatten = bs := by
  induction bs with
  | nil => rfl
  | cons b bs ih =>
    simp only [oneByOne, List.map_cons, List.flatten_cons] at ih ⊢
    rw [ih]
    rfl

theorem nil_not_mem_oneByOne (bs : Bytes) : [] ∉ oneByOne bs := by
  simp [oneByOne]

theorem readLine_nil (out : Bytes) (st : Storage) :
    readLine.run.run (st, ⟨[], out⟩) = (.ok none, (st, ⟨[], out⟩)) := by
  rw [run_readLine, readLineFrom_of_short List.not_mem_nil (by simp)]
  rfl

end AtOnce

/-! ## Computations that do not see the cut -/

/-- Two states of an exchange that differ at most in how the unread input is cut into chunks,
none of them empty. -/
structure Recut (a b : Storage × Channel) : Prop where
  storage : a.1 = b.1
  output : a.2.output = b.2.output
  flatten : a.2.input.flatten = b.2.input.flatten
  left : [] ∉ a.2.input
  right : [] ∉ b.2.input

/-- `m` does not see how the input is cut: from two states that differ only there it answers
alike, and leaves two states that differ only there. -/
def CutFree {α : Type} (m : SessionM α) : Prop :=
  ∀ a b, Recut a b → (m.run.run a).1 = (m.run.run b).1 ∧ Recut (m.run.run a).2 (m.run.run b).2

namespace CutFree

variable {α β : Type}

theorem pure (x : α) : CutFree (Pure.pure x : SessionM α) := fun _ _ h => ⟨rfl, h⟩

theorem abort (e : ProtocolError) : CutFree (Engine.abort e : SessionM α) := fun _ _ h => ⟨rfl, h⟩

theorem verify (x : Except ProtocolError α) : CutFree (Engine.verify x) := by
  cases x with
  | ok a => exact pure a
  | error e => exact abort e

theorem bind {x : SessionM α} {f : α → SessionM β} (hx : CutFree x) (hf : ∀ a, CutFree (f a)) :
    CutFree (x >>= f) := by
  intro a b hab
  obtain ⟨hr, hs⟩ := hx a b hab
  rcases hxa : x.run.run a with ⟨r, a₁⟩
  rcases hxb : x.run.run b with ⟨r', b₁⟩
  rw [hxa, hxb] at hr hs
  simp only at hr hs
  subst hr
  cases r with
  | ok v =>
    rw [run_bind_of_ok hxa, run_bind_of_ok hxb]
    exact hf v a₁ b₁ hs
  | error e =>
    rw [run_bind_of_error hxa, run_bind_of_error hxb]
    exact ⟨rfl, hs⟩

theorem tryCatch {x : SessionM α} {handle : ProtocolError → SessionM α} (hx : CutFree x)
    (hh : ∀ e, CutFree (handle e)) : CutFree (tryCatch x handle) := by
  intro a b hab
  obtain ⟨hr, hs⟩ := hx a b hab
  rcases hxa : x.run.run a with ⟨r, a₁⟩
  rcases hxb : x.run.run b with ⟨r', b₁⟩
  rw [hxa, hxb] at hr hs
  simp only at hr hs
  subst hr
  cases r with
  | ok v =>
    rw [run_tryCatch_of_ok hxa, run_tryCatch_of_ok hxb]
    exact ⟨rfl, hs⟩
  | error e =>
    rw [run_tryCatch_of_error hxa, run_tryCatch_of_error hxb]
    exact hh e a₁ b₁ hs

theorem ite {c : Prop} [Decidable c] {x y : SessionM α} (hx : CutFree x) (hy : CutFree y) :
    CutFree (if c then x else y) := by
  split
  · exact hx
  · exact hy

theorem write (bs : Bytes) : CutFree (Engine.write bs) := by
  rintro ⟨st, ch⟩ ⟨st', ch'⟩ h
  rw [run_write, run_write]
  have hout : ch.output = ch'.output := h.output
  exact ⟨rfl, h.storage, by rw [hout], h.flatten, h.left, h.right⟩

/-- Storage does not see the channel: an engine step answers alike from the same storage. -/
theorem engine (m : EngineM α) : CutFree (Engine.engine m) := by
  rintro ⟨st, ch⟩ ⟨st', ch'⟩ h
  obtain rfl : st = st' := h.storage
  rw [run_engine, run_engine]
  exact ⟨rfl, rfl, h.output, h.flatten, h.left, h.right⟩

theorem readBound : CutFree Engine.readBound := by
  rintro ⟨st, ch⟩ ⟨st', ch'⟩ h
  rw [run_readBound, run_readBound]
  exact ⟨by simp only [h.flatten], h⟩

theorem readLine : CutFree Engine.readLine := by
  rintro ⟨st, ch⟩ ⟨st', ch'⟩ h
  obtain ⟨hline, hflat, hl, hr⟩ := readLineFrom_congr h.left h.right h.flatten
  rw [run_readLine, run_readLine]
  exact ⟨hline, h.storage, h.output, hflat, hl, hr⟩

/-- **What a cut-free computation does from the bytes delivered at once, it does from every cut
of them** into chunks that are not empty: the same answer, storage and output, and the same
bytes left unread. -/
theorem run_of_atOnce {m : SessionM α} (hm : CutFree m) {st st' : Storage} {bs out : Bytes}
    {r : Except ProtocolError α} {ch' : Channel}
    (h : m.run.run (st, ⟨atOnce bs, out⟩) = (r, (st', ch'))) {cs : List Bytes} (hc : [] ∉ cs)
    (hflat : cs.flatten = bs) :
    ∃ cs', [] ∉ cs' ∧ cs'.flatten = ch'.input.flatten ∧
      m.run.run (st, ⟨cs, out⟩) = (r, (st', ⟨cs', ch'.output⟩)) := by
  obtain ⟨hans, hcut⟩ := hm (st, ⟨cs, out⟩) (st, ⟨atOnce bs, out⟩)
    ⟨rfl, rfl, by rw [flatten_atOnce, hflat], hc, nil_not_mem_atOnce bs⟩
  rw [h] at hans hcut
  rcases hrun : m.run.run (st, ⟨cs, out⟩) with ⟨r₀, st₀, cs₀, out₀⟩
  rw [hrun] at hans hcut
  obtain ⟨hst, hout, hflat', hc₀, -⟩ := hcut
  simp only at hans hst hout hflat' hc₀
  subst hans hst hout
  exact ⟨cs₀, hc₀, hflat', rfl⟩

end CutFree

/-! ## The line loops -/

section Loops

variable {n : RepoName}

theorem readWantList_cutFree :
    ∀ (fuel : Nat) (wants : List ObjectId) (caps : List Capability),
      CutFree (readWantList fuel wants caps)
  | 0, _, _ => CutFree.pure _
  | fuel + 1, wants, caps => by
    unfold readWantList
    refine CutFree.bind CutFree.readLine fun line => ?_
    rcases line with _ | w | _
    · exact CutFree.ite (CutFree.pure _) (CutFree.abort _)
    · exact CutFree.bind (CutFree.verify _) fun x => readWantList_cutFree fuel _ _
    · exact CutFree.pure _

theorem readHaves_cutFree :
    ∀ (fuel : Nat) (common : Common) (held : Bytes), CutFree (readHaves n fuel common held)
  | 0, _, _ => CutFree.pure _
  | fuel + 1, common, held => by
    unfold readHaves
    refine CutFree.bind CutFree.readLine fun line => ?_
    rcases line with _ | w | _
    · exact CutFree.abort _
    · -- a `have` is looked up, `done` ends the reading, another line is passed over
      refine CutFree.bind (CutFree.verify _) fun x => ?_
      rcases x with id | _ | _
      · exact CutFree.bind (CutFree.engine _) fun y => readHaves_cutFree fuel _ _
      · exact CutFree.pure _
      · exact readHaves_cutFree fuel _ _
    · exact CutFree.bind (CutFree.write _) fun _ => readHaves_cutFree fuel _ _

theorem readCommandList_cutFree :
    ∀ (fuel : Nat) (req : PushRequest), CutFree (readCommandList fuel req)
  | 0, _ => CutFree.pure _
  | fuel + 1, req => by
    unfold readCommandList
    refine CutFree.bind CutFree.readLine fun line => ?_
    rcases line with _ | w | _
    · exact CutFree.ite (CutFree.pure _) (CutFree.abort _)
    · exact CutFree.bind (CutFree.verify _) fun req' => readCommandList_cutFree fuel req'
    · exact CutFree.pure _

/-- **An upload over a connection does not see the cut**: it reads only lines. -/
theorem serveUpload_cutFree : CutFree (serveUpload n) := by
  unfold serveUpload
  refine CutFree.bind (CutFree.engine _) fun adv => CutFree.bind (CutFree.write _) fun _ =>
    CutFree.bind CutFree.readBound fun fuel =>
      CutFree.bind (readWantList_cutFree _ _ _) fun x => ?_
  obtain ⟨wants, caps⟩ := x
  dsimp only
  split
  · exact CutFree.pure _
  refine CutFree.bind (CutFree.engine _) fun _ => CutFree.bind CutFree.readBound fun fuel' =>
    CutFree.bind (readHaves_cutFree _ _ _) fun y => ?_
  obtain ⟨common, held⟩ := y
  dsimp only
  refine CutFree.bind (CutFree.write _) fun _ =>
    CutFree.bind (CutFree.tryCatch (CutFree.engine _) fun e => ?_) fun pack => CutFree.write _
  -- a pack that cannot be built is reported on band 3 when side-band was asked for
  split
  · exact CutFree.bind (CutFree.write _) fun _ => CutFree.abort _
  · exact CutFree.abort _

end Loops

end Engine

end GitServer
