import GitServer.Engine.Receive
import GitServer.Proofs.Storage.Reliable
import GitServer.Proofs.Storage.RemoteStore
import GitServer.Proofs.Pack.Thin
import Mathlib

/-!
# Taking in a pushed pack

A pushed pack is read, its deltas resolved, and the bases a thin pack leaves out are fetched
from storage round after round (`Engine.completeFrom`); when every delta is resolved, every
object is stored (`Engine.unpack`, `Engine.storeEntries`). Over storage that does not fail
(`Storage.Reliable`):

* the completion reads storage and never writes it; it fails only where some delta misapplies
  (`FailsWith`), and it stops by its own test, each round that supplies a base shortening the
  waiting list (`completeFrom_add`);
* when it ends, no waiting delta names a stored object, so the pack is complete exactly when
  every delta is rooted (`Tracks.isComplete_iff`);
* storing keeps the first object of each id.

The main statements: `unpack_completes_thin_pack` (`TakesIn`), unpacking succeeds exactly when
the pack decodes, no delta misapplies and every delta is rooted in the pack or the stored objects
it names, and otherwise fails with the error of the first delta that misapplies, else with a
missing base; and `unpackAndStore_spec`, after a push the repository holds, besides what it
held, exactly the objects the pack brings, and a failure changes nothing.
-/

namespace GitServer

open Pack Storage

namespace Engine

variable {n : RepoName} {Good : Storage → Prop} {s : Storage}

/-- The stored objects that the deltas of the read pack `r` name by id: the outside bases a
receiver can supply. -/
def storedBases (n : RepoName) (s : Storage) (r : Decoded) : List GitObject :=
  r.pending.filterMap fun d => match d.base with
    | .id i => objectAt n s i
    | .offset _ => none

theorem mem_storedBases {r : Decoded} {o : GitObject} :
    o ∈ storedBases n s r ↔ ∃ d ∈ r.pending, ∃ i, d.base = .id i ∧ objectAt n s i = some o := by
  simp only [storedBases, List.mem_filterMap]
  constructor
  · rintro ⟨d, hd, hsome⟩
    cases hb : d.base with
    | offset at_ => simp [hb] at hsome
    | id i => exact ⟨d, hd, i, hb, by simpa [hb] using hsome⟩
  · rintro ⟨d, hd, i, hb, hsome⟩
    exact ⟨d, hd, by simpa [hb] using hsome⟩

/-- A pushed pack can be taken in: it reads, and every delta in it rebuilds an object from the
pack and the stored objects it names. -/
def Unpacks (n : RepoName) (s : Storage) (data : Bytes) : Prop :=
  ∃ r, read data = .ok r ∧ ∀ d ∈ r.pending, ∃ o, Rebuilds r (storedBases n s r) d o

/-- The objects a pushed pack brings: its whole objects and the objects its deltas rebuild. -/
def Brings (n : RepoName) (s : Storage) (data : Bytes) (o : GitObject) : Prop :=
  ∃ r, read data = .ok r ∧
    ((∃ e ∈ r.entries.toList, e.object = o) ∨ ∃ d, Rebuilds r (storedBases n s r) d o)

/-! ## Runs that keep the state -/

/-- A run of the completion over the read pack `r` with the outside bases `ext`: it keeps the
state and answers a value with `P`, or it fails with a decode error, the error of a delta of `r`
that misapplies. -/
def AnswersOrFails {α : Type} (r : Decoded) (ext : List GitObject) (s : Storage)
    (m : EngineM α) (P : α → Prop) : Prop :=
  (∃ a, m.run.run s = (.ok a, s) ∧ P a) ∨
    ∃ e, m.run.run s = (.error (.decode e.message), s) ∧ FailsWith r ext e

namespace AnswersOrFails

variable {α β : Type} {r : Decoded} {ext : List GitObject}

theorem pure {a : α} {P : α → Prop} (h : P a) : AnswersOrFails r ext s (pure a) P :=
  .inl ⟨a, rfl, h⟩

theorem bind {m : EngineM α} {f : α → EngineM β} {P : α → Prop} {Q : β → Prop}
    (hm : AnswersOrFails r ext s m P) (hf : ∀ a, P a → AnswersOrFails r ext s (f a) Q) :
    AnswersOrFails r ext s (m >>= f) Q := by
  rcases hm with ⟨a, hrun, ha⟩ | ⟨e, hrun, hbad⟩
  · rcases hf a ha with ⟨b, hrun', hb⟩ | ⟨e, hrun', hbad⟩
    · exact .inl ⟨b, by rw [run_bind_of_ok hrun, hrun'], hb⟩
    · exact .inr ⟨e, by rw [run_bind_of_ok hrun, hrun'], hbad⟩
  · exact .inr ⟨e, run_bind_of_error hrun, hbad⟩

theorem imp {m : EngineM α} {P Q : α → Prop} (hm : AnswersOrFails r ext s m P)
    (hPQ : ∀ a, P a → Q a) : AnswersOrFails r ext s m Q := by
  rcases hm with ⟨a, hrun, ha⟩ | hfail
  · exact .inl ⟨a, hrun, hPQ a ha⟩
  · exact .inr hfail

end AnswersOrFails

/-! ## Supplying bases from storage -/

section Supply

variable (hrel : Reliable n Good) (hs : Good s)
include hrel hs

/-- A supply reads storage only: it supplies the stored object of the id, when there is one. -/
theorem supplyBase_run (acc : Decoded × Bool) (base : ObjectId) :
    (supplyBase n acc base).run.run s =
      (match objectAt n s base with
        | none => .ok acc
        | some o => match acc.1.addExternal o with
          | .ok p' => .ok (p', true)
          | .error e => .error (.decode e.message), s) := by
  unfold supplyBase
  cases hobj : objectAt n s base with
  | none =>
    obtain ⟨msg, hget⟩ := hrel.getObject_of_none hs hobj
    rw [run_bind_of_ok (a := none) (run_tryCatch_of_error
      (run_bind_of_error (run_store_of_error hget)))]
    rfl
  | some o =>
    rw [run_bind_of_ok (run_tryCatch_of_ok (run_bind_of_ok (x := getObject n base)
      (f := fun o => pure (some o)) (run_store_of_ok (hrel.getObject_of_some hs hobj))))]
    cases hadd : acc.1.addExternal o <;> simp only [hadd] <;> rfl

end Supply

/-- What the supplies of one round keep, from the round's start `p`: the state tracked and
settled, untouched until a base is supplied, and then with fewer deltas waiting. -/
structure SupplyInv (r : Decoded) (ext : List GitObject) (p : Decoded) (acc : Decoded × Bool) :
    Prop where
  tracks : ∃ res, Tracks r ext res [] acc.1
  settled : acc.1.Settled
  untouched : acc.2 = false → acc.1 = p
  shrunk : acc.2 = true → acc.1.pending.length < p.pending.length

section Complete

variable {r : Decoded} {ext : List GitObject} (hrel : Reliable n Good) (hs : Good s)
  (hnamed : ∀ d ∈ r.pending, ∀ i o, d.base = .id i → objectAt n s i = some o → o ∈ ext)
  (hstored : ∀ o ∈ ext, objectAt n s o.id = some o)
include hrel hs hnamed

/-- **One supply of a round.** A missing id that storage lacks changes nothing; a stored one
is supplied, and the first supplied in a round resolves a delta that waited on it. -/
theorem supplyBase_step {p : Decoded} (hp : ∃ res, Tracks r ext res [] p) {acc : Decoded × Bool}
    {i : ObjectId} (hi : i ∈ p.missingBases) (hinv : SupplyInv r ext p acc) :
    AnswersOrFails r ext s (supplyBase n acc i) fun out =>
      SupplyInv r ext p out ∧ (out.2 = false → acc.2 = false ∧ objectAt n s i = none) := by
  unfold AnswersOrFails
  rw [supplyBase_run hrel hs]
  cases hobj : objectAt n s i with
  | none => exact .inl ⟨acc, rfl, hinv, fun h => ⟨h, rfl⟩⟩
  | some o =>
    have hid : o.id = i := (hrel.objectAt_some hs hobj).1
    -- the id is missing because a waiting delta of `p`, so of `r`, names it
    obtain ⟨d, hd, hbase, -, -⟩ := ((Decoded.missingBases_spec p).2 i).mp hi
    obtain ⟨resp, htrp⟩ := hp
    have hdr : d ∈ r.pending := htrp.perm.symm.subset (by simp [hd])
    have ho : o ∈ ext := hnamed d hdr i o hbase hobj
    obtain ⟨res, htr⟩ := hinv.tracks
    cases hadd : acc.1.addExternal o with
    | error e => exact .inr ⟨e, by simp only [hadd], htr.addExternal_error ho hadd⟩
    | ok p' =>
      obtain ⟨res', htr', hset', -⟩ := htr.addExternal ho hadd
      refine .inl ⟨(p', true), by simp only [hadd], ⟨⟨res', htr'⟩, hset', by simp, fun _ => ?_⟩,
        by simp⟩
      cases hflag : acc.2
      · -- the first supply of the round starts from `p`
        have hstart := hinv.untouched hflag
        rw [hstart] at hadd htr
        exact Tracks.addExternal_shrinks htr ho hadd hd (by rw [hbase, hid])
      · exact lt_of_le_of_lt (Decoded.addExternal_sublist hadd).length_le (hinv.shrunk hflag)

/-- **The supplies of one round**, over missing ids of its start `p`: when none was supplied,
storage has none of them. -/
theorem foldlM_supplyBase {p : Decoded} (hp : ∃ res, Tracks r ext res [] p) :
    ∀ (l : List ObjectId) (acc : Decoded × Bool), (∀ i ∈ l, i ∈ p.missingBases) →
      SupplyInv r ext p acc →
      AnswersOrFails r ext s (l.foldlM (supplyBase n) acc) fun out =>
        SupplyInv r ext p out ∧ (out.2 = false → acc.2 = false ∧ ∀ i ∈ l, objectAt n s i = none)
  | [], acc, _, hinv => .inl ⟨acc, rfl, hinv, fun h => ⟨h, by simp⟩⟩
  | i :: l, acc, hl, hinv => by
    rw [List.foldlM_cons]
    refine (supplyBase_step hrel hs hnamed hp (hl i (by simp)) hinv).bind ?_
    rintro mid ⟨hinv', hmid⟩
    refine (foldlM_supplyBase hp l mid (fun j hj => hl j (by simp [hj])) hinv').imp ?_
    rintro out ⟨hinv'', hout⟩
    refine ⟨hinv'', fun hflag => ?_⟩
    obtain ⟨hmidflag, hrest⟩ := hout hflag
    obtain ⟨hacc, hi⟩ := hmid hmidflag
    exact ⟨hacc, List.forall_mem_cons.mpr ⟨hi, hrest⟩⟩

/-- **A round that supplies a base shortens the waiting list**; one that supplies none leaves
the state as it was. -/
theorem supplyRound {p : Decoded} (hp : ∃ res, Tracks r ext res [] p) (hset : p.Settled) :
    AnswersOrFails r ext s (p.missingBases.foldlM (supplyBase n) (p, false)) fun out =>
      SupplyInv r ext p out ∧ (out.2 = false → ∀ i ∈ p.missingBases, objectAt n s i = none) :=
  (foldlM_supplyBase hrel hs hnamed hp _ _ (fun i hi => hi) ⟨hp, hset, fun _ => rfl, by simp⟩).imp
    fun _ ⟨hinv, hnone⟩ => ⟨hinv, fun h => (hnone h).2⟩

include hstored

/-- **Completion from storage.** From a tracked settled state with fewer waiting deltas than
rounds left, the rounds of supplies end in a tracked settled state where no waiting delta
names a stored base: a round either supplies a base, and then fewer deltas wait, or finds
storage without any of the missing ids. -/
theorem completeFrom_run :
    ∀ (fuel : Nat) (p : Decoded), (∃ res, Tracks r ext res [] p) → p.Settled →
      p.pending.length < fuel →
      AnswersOrFails r ext s (completeFrom n fuel p) fun q =>
        (∃ res, Tracks r ext res [] q) ∧ q.Settled ∧
          ∀ d ∈ q.pending, ∀ o ∈ ext, d.base ≠ .id o.id
  | 0, _, _, _, hlt => absurd hlt (Nat.not_lt_zero _)
  | fuel + 1, p, hp, hset, hlt => by
    rw [completeFrom]
    by_cases hmiss : p.missingBases.isEmpty
    · -- nothing missing: no waiting delta names an id at all
      simp only [hmiss, if_true]
      refine .pure ⟨hp, hset, fun d hd o _ hid => ?_⟩
      have hmem := Decoded.mem_missingBases_of_waiting hset hd hid
      simp [List.isEmpty_iff.mp hmiss] at hmem
    · simp only [hmiss, Bool.false_eq_true, if_false]
      refine (supplyRound hrel hs hnamed hp hset).bind ?_
      rintro ⟨q, added⟩ ⟨hinv, hnone⟩
      cases added with
      | true =>
        have hshrunk := hinv.shrunk rfl
        exact completeFrom_run fuel q hinv.tracks hinv.settled (by simp at hshrunk; omega)
      | false =>
        -- no base was supplied: storage lacks every missing id, so none is an outside base
        have hq : q = p := hinv.untouched rfl
        subst hq
        refine .pure ⟨hp, hset, fun d hd o ho hid => ?_⟩
        have hmem := Decoded.mem_missingBases_of_waiting hset hd hid
        have habsent := hnone rfl o.id hmem
        rw [hstored o ho] at habsent
        cases habsent

omit hstored in
/-- **The completion stops by its own test.** From a tracked settled state with fewer waiting
deltas than rounds allowed, allowing more rounds changes nothing: every round that goes on
supplied a base, and so shortened the waiting list. -/
theorem completeFrom_add :
    ∀ (fuel k : Nat) (p : Decoded), (∃ res, Tracks r ext res [] p) → p.Settled →
      p.pending.length < fuel →
      (completeFrom n (fuel + k) p).run.run s = (completeFrom n fuel p).run.run s
  | 0, _, _, _, _, hlt => absurd hlt (Nat.not_lt_zero _)
  | fuel + 1, k, p, hp, hset, hlt => by
    rw [show fuel + 1 + k = fuel + k + 1 by omega, completeFrom, completeFrom]
    by_cases hmiss : p.missingBases.isEmpty
    · simp only [hmiss, if_true]
    · simp only [hmiss, Bool.false_eq_true, if_false]
      rcases supplyRound hrel hs hnamed hp hset with ⟨⟨q, added⟩, hrun, hinv, -⟩ | ⟨e, hrun, -⟩
      · rw [run_bind_of_ok hrun, run_bind_of_ok hrun]
        cases added with
        | false => rfl
        | true =>
          have hshrunk := hinv.shrunk rfl
          exact completeFrom_add fuel k q hinv.tracks hinv.settled (by simp at hshrunk; omega)
      · rw [run_bind_of_error hrun, run_bind_of_error hrun]

end Complete

/-! ## Storing the objects -/

/-- An object list with one object for each id finds, by id, the object of that id. -/
theorem find?_id_eq_some {objs : List GitObject}
    (huniq : ∀ a ∈ objs, ∀ b ∈ objs, a.id = b.id → a = b) {i : ObjectId} {o : GitObject} :
    objs.find? (·.id == i) = some o ↔ o ∈ objs ∧ o.id = i := by
  constructor
  · intro h
    exact ⟨List.mem_of_find?_eq_some h, by simpa using List.find?_some h⟩
  · rintro ⟨ho, hid⟩
    cases hfind : objs.find? (·.id == i) with
    | none => exact absurd (by simpa using hid) (List.find?_eq_none.mp hfind o ho)
    | some o' =>
      have hid' : o'.id = i := by simpa using List.find?_some hfind
      rw [huniq o' (List.mem_of_find?_eq_some hfind) o ho (hid'.trans hid.symm)]

/-- **Storing objects keeps the first object of each id.** Storing whole objects of base
kinds one after another leaves each id with what it held, else with the first object stored
under it, and the references as they were. -/
theorem forM_putObject_run (hrel : Reliable n Good) :
    ∀ (es : List PackEntry) {s : Storage}, Good s →
      (∀ e ∈ es, e.object.kind.isBase = true ∧ e.object = .ofContent e.object.kind e.object.data) →
      ∃ s', (es.forM fun e => do let _ ← putObject n e.object.kind e.object.data).run.run s =
          (.ok (), s') ∧ Good s' ∧ targetAt n s' = targetAt n s ∧
        ∀ i, objectAt n s' i = (objectAt n s i).or ((es.map (·.object)).find? (·.id == i))
  | [], s, hs, _ => ⟨s, rfl, hs, rfl, fun i => by simp⟩
  | e :: es, s, hs, hwhole => by
    obtain ⟨hbase, hobj⟩ := hwhole e (by simp)
    obtain ⟨s₁, hput, hgood₁, hobjs₁, htgt₁⟩ := hrel.putObject e.object.kind e.object.data hs hbase
    obtain ⟨s₂, hrest, hgood₂, htgt₂, hobjs₂⟩ :=
      forM_putObject_run hrel es hgood₁ fun e' he' => hwhole e' (by simp [he'])
    refine ⟨s₂, ?_, hgood₂, htgt₂.trans htgt₁, fun i => ?_⟩
    · have hstep : (do let _ ← putObject n e.object.kind e.object.data; pure PUnit.unit :
          EngineM PUnit).run.run s = (.ok (), s₁) := run_bind_of_ok (run_store_of_ok hput)
      simp only [List.forM]
      rw [run_bind_of_ok hstep, hrest]
    · have hid : e.object.id = ObjectId.ofObject e.object.kind e.object.data := by
        rw [congrArg GitObject.id hobj]
        rfl
      rw [hobjs₂ i, hobjs₁ i, List.map_cons, List.find?_cons, ← hobj]
      -- the id of the object just stored: the first object stored under it wins
      by_cases hi : i = ObjectId.ofObject e.object.kind e.object.data
      · have hbeq : (e.object.id == i) = true := by simp [hid, hi]
        rw [if_pos hi, hbeq]
        cases objectAt n s i <;> rfl
      · have hbeq : (e.object.id == i) = false := by simpa [hid] using Ne.symm hi
        rw [if_neg hi, hbeq]

/-- **Storing a decoded pack** of whole objects writes each object, keeping the first object
of each id, leaves the references alone, and answers the number of entries. -/
theorem storeEntries_run (hrel : Reliable n Good) {q : Decoded} (hs : Good s)
    (hwhole : q.WholeEntries) :
    ∃ s', (storeEntries n q).run.run s = (.ok q.entries.size, s') ∧ Good s' ∧
      targetAt n s' = targetAt n s ∧
      ∀ i, objectAt n s' i = (objectAt n s i).or ((q.entries.toList.map (·.object)).find? (·.id == i)) := by
  obtain ⟨s', hrun, hgood, htgt, hobjs⟩ := forM_putObject_run hrel q.entries.toList hs hwhole
  refine ⟨s', ?_, hgood, htgt, hobjs⟩
  unfold storeEntries
  rw [run_bind_of_ok hrun]
  rfl

/-! ## Unpacking -/

/-- The stored objects named by the deltas of a pack are the outside bases a completion can
supply: every stored object a delta names is one, and each is stored under its id. -/
theorem storedBases_named (hrel : Reliable n Good) (hs : Good s) {r : Decoded} :
    (∀ d ∈ r.pending, ∀ i o, d.base = .id i → objectAt n s i = some o → o ∈ storedBases n s r) ∧
      ∀ o ∈ storedBases n s r, objectAt n s o.id = some o := by
  refine ⟨fun d hd i o hb ho => mem_storedBases.mpr ⟨d, hd, i, hb, ho⟩, fun o ho => ?_⟩
  obtain ⟨d, -, i, -, hsome⟩ := mem_storedBases.mp ho
  rw [(hrel.objectAt_some hs hsome).1]
  exact hsome

/-- A pack as read is tracked with nothing resolved yet: it holds no outside base. -/
theorem tracks_read {data : Bytes} {r : Decoded} (hread : read data = .ok r)
    (ext : List GitObject) : Tracks r ext [] [] r := by
  obtain ⟨-, hnoext, -⟩ := read_offsets hread
  exact ⟨by simp, by simp, by simp, by simp [hnoext]⟩

/-- A pack that does not decode fails to unpack with the decoder's error, before any access. -/
theorem unpack_of_decode_error {data : Bytes} {e : CodecError} (hdec : decode data = .error e) :
    (unpack n data).run.run s = (.error (.decode e.message), s) := by
  unfold unpack
  rw [hdec]
  exact run_bind_of_error rfl

/-- A pack that does not read fails to unpack with the reader's error. -/
theorem unpack_of_read_error {data : Bytes} {e : CodecError} (hread : read data = .error e) :
    (unpack n data).run.run s = (.error (.decode e.message), s) :=
  unpack_of_decode_error (by simp [decode, hread, bind, Except.bind])

/-- **What unpacking a pack that reads does.** It reads storage only. It fails with the error
of a delta that misapplies, or it completes the pack as far as storage allows, to a tracked
settled state where no waiting delta names a stored base, and then answers that state when
nothing waits and fails with a missing base otherwise. -/
theorem unpack_run (hrel : Reliable n Good) (hs : Good s) {data : Bytes} {r : Decoded}
    (hread : read data = .ok r) :
    (∃ e, (unpack n data).run.run s = (.error (.decode e.message), s) ∧
        FailsWith r (storedBases n s r) e) ∨
      ∃ q, (∃ res, Tracks r (storedBases n s r) res [] q) ∧ q.Settled ∧
        (∀ d ∈ q.pending, ∀ o ∈ storedBases n s r, d.base ≠ .id o.id) ∧
        (unpack n data).run.run s = match q.ensureComplete with
          | .ok () => (.ok q, s)
          | .error e => (.error (.decode e.message), s) := by
  obtain ⟨hnamed, hstored⟩ := storedBases_named hrel hs (r := r)
  have hstart := tracks_read hread (storedBases n s r)
  cases hsettle : r.settle with
  | error e =>
    -- the pack's own deltas already fail
    have hdec : decode data = .error e := by simp [decode, hread, hsettle, bind, Except.bind]
    exact .inl ⟨e, unpack_of_decode_error hdec, hstart.resolve_error hsettle⟩
  | ok p₀ =>
    have hdec : decode data = .ok p₀ := by simp [decode, hread, hsettle, bind, Except.bind]
    obtain ⟨res₀, h₀, -⟩ := hstart.settle hsettle
    unfold unpack
    simp only [hdec, pure_bind]
    rcases completeFrom_run hrel hs hnamed hstored (p₀.pending.length + 1) p₀ ⟨res₀, h₀⟩
        (Decoded.settle_settled hsettle) (Nat.lt_succ_self _) with
      ⟨q, hrunq, hq, hset, hwait⟩ | ⟨e, hrunq, hfails⟩
    · refine .inr ⟨q, hq, hset, hwait, ?_⟩
      rw [run_bind_of_ok hrunq]
      cases q.ensureComplete <;> rfl
    · exact .inl ⟨e, run_bind_of_error hrunq, hfails⟩

/-- The error of a pack that is not complete names the base of a waiting delta. -/
theorem Decoded.ensureComplete_eq_error {p : Decoded} {e : CodecError}
    (h : p.ensureComplete = .error e) : ∃ d ∈ p.pending, e = .missingDeltaBase d.base.label := by
  unfold Decoded.ensureComplete at h
  split at h
  · cases h
  · rename_i d rest hpending
    cases h
    exact ⟨d, by simp [hpending], rfl⟩

/-- **Unpacking a pushed pack.** Over storage that does not fail, and with no two objects the
pack meets sharing an id, unpacking succeeds exactly when the pack reads and every delta in it
is rooted (`Unpacks`), and then holds the pack's whole objects followed by one entry for each
delta, the object it rebuilds; it reads storage only, and a failure is a decode error. -/
theorem unpack_spec (hrel : Reliable n Good) (hs : Good s) {data : Bytes}
    (hcf : ∀ r, read data = .ok r → CollisionFree r (storedBases n s r)) :
    (Unpacks n s data → ∃ q r res, (unpack n data).run.run s = (.ok q, s) ∧ read data = .ok r ∧
        Tracks r (storedBases n s r) res [] q ∧ q.pending = []) ∧
    (¬ Unpacks n s data → ∃ why, (unpack n data).run.run s = (.error (.decode why), s)) := by
  cases hread : read data with
  | error e =>
    exact ⟨fun ⟨r, hr, _⟩ => by simp [hread] at hr,
      fun _ => ⟨e.message, unpack_of_read_error hread⟩⟩
  | ok r =>
    obtain ⟨hoff, -, -⟩ := read_offsets hread
    have hcf := hcf r hread
    -- the pack read is `r`, so `Unpacks` speaks of it
    have hunpacks : Unpacks n s data ↔ ∀ d ∈ r.pending, ∃ o, Rebuilds r (storedBases n s r) d o :=
      ⟨fun ⟨r', hr', hall⟩ => by rw [hread] at hr'; cases hr'; exact hall,
        fun hall => ⟨r, hread, hall⟩⟩
    rw [hunpacks]
    rcases unpack_run hrel hs hread with ⟨e, hrun, hfails⟩ | ⟨q, ⟨res, htr⟩, hset, hwait, hrun⟩
    · obtain ⟨d, hd, hnot⟩ := hfails.unrooted hoff hcf
      exact ⟨fun hall => absurd (hall d hd) hnot, fun _ => ⟨e.message, hrun⟩⟩
    · have hiff : q.ensureComplete = .ok () ↔
          ∀ d ∈ r.pending, ∃ o, Rebuilds r (storedBases n s r) d o :=
        (Decoded.ensureComplete_eq_ok_iff q).trans (htr.isComplete_iff hset hwait hoff hcf)
      refine ⟨fun hall => ⟨q, r, res, ?_, rfl, htr, ?_⟩, fun hnot => ?_⟩
      · rw [hrun, hiff.mpr hall]
      · have hc := (Decoded.ensureComplete_eq_ok_iff q).mp (hiff.mpr hall)
        simpa [Decoded.isComplete] using hc
      · cases hens : q.ensureComplete with
        | ok u => exact absurd (hiff.mp hens) hnot
        | error e =>
          refine ⟨e.message, ?_⟩
          rw [hrun, hens]

/-- **Unpacking and storing a pushed pack.** Over storage that does not fail, and with no two
objects the pack meets sharing an id, unpacking succeeds exactly when the pack reads and every
delta in it is rooted in the pack or the stored objects it names. Then the references stay, and
an id holds what it held, else an object the pack brings; a failure is a decode error and
changes nothing. -/
theorem unpackAndStore_spec (hrel : Reliable n Good) (hs : Good s) {data : Bytes}
    (hcf : ∀ r, read data = .ok r → CollisionFree r (storedBases n s r)) :
    (Unpacks n s data → ∃ s', (unpackAndStore n data).run.run s = (.ok (), s') ∧ Good s' ∧
      targetAt n s' = targetAt n s ∧
      ∀ i o, objectAt n s' i = some o ↔
        objectAt n s i = some o ∨ objectAt n s i = none ∧ o.id = i ∧ Brings n s data o) ∧
    (¬ Unpacks n s data → ∃ why, (unpackAndStore n data).run.run s = (.error (.decode why), s)) := by
  obtain ⟨hok, hfail⟩ := unpack_spec hrel hs hcf
  refine ⟨fun hunpacks => ?_, fun hnot => ?_⟩
  · obtain ⟨q, r, res, hrun, hread, htr, hnil⟩ := hok hunpacks
    obtain ⟨hoff, -, hentries⟩ := read_offsets hread
    have hcf := hcf r hread
    obtain ⟨-, hstored⟩ := storedBases_named hrel hs (r := r)
    -- nothing waits, so the state is settled and waits on no stored base
    have hset : q.Settled := fun d hd => by simp [hnil] at hd
    have hwait : ∀ d ∈ q.pending, ∀ o ∈ storedBases n s r, d.base ≠ .id o.id :=
      fun d hd => by simp [hnil] at hd
    have hwhole := htr.whole hentries fun o ho => (hrel.objectAt_some hs (hstored o ho)).2
    obtain ⟨s', hstore, hgood, htgt, hobjs⟩ := storeEntries_run hrel hs hwhole
    have hbrings : ∀ o, Brings n s data o ↔
        (∃ e ∈ r.entries.toList, e.object = o) ∨ ∃ d, Rebuilds r (storedBases n s r) d o :=
      fun o => ⟨fun ⟨r', hr', ho⟩ => by rw [hread] at hr'; cases hr'; exact ho,
        fun ho => ⟨r, hread, ho⟩⟩
    refine ⟨s', ?_, hgood, htgt, fun i o => ?_⟩
    · unfold unpackAndStore
      rw [run_bind_of_ok hrun, run_bind_of_ok hstore]
      rfl
    · -- the objects stored are those the pack brings, one for each id
      have huniq : ∀ a ∈ q.entries.toList.map (·.object), ∀ b ∈ q.entries.toList.map (·.object),
          a.id = b.id → a = b := by
        intro a ha b hb hid
        refine hcf a b ?_ ?_ hid
        · rcases (htr.mem_objects_iff hset hwait hoff hcf).mp ha with h | h
          · exact .inl h
          · exact .inr (.inr h)
        · rcases (htr.mem_objects_iff hset hwait hoff hcf).mp hb with h | h
          · exact .inl h
          · exact .inr (.inr h)
      rw [hobjs i, Option.or_eq_some_iff, find?_id_eq_some huniq,
        htr.mem_objects_iff hset hwait hoff hcf, ← hbrings]
      tauto
  · obtain ⟨why, hrun⟩ := hfail hnot
    refine ⟨why, ?_⟩
    unfold unpackAndStore
    exact run_bind_of_error hrun

/-! ## Taking in a thin pack -/

/-- A pack that unpacks can be taken in. -/
theorem unpacks_of_ok (hrel : Reliable n Good) (hs : Good s) {data : Bytes}
    (hcf : ∀ r, read data = .ok r → CollisionFree r (storedBases n s r)) {q : Decoded}
    {s' : Storage} (hrun : (unpack n data).run.run s = (.ok q, s')) : Unpacks n s data := by
  by_contra hnot
  obtain ⟨why, hfail⟩ := (unpack_spec hrel hs hcf).2 hnot
  rw [hrun] at hfail
  cases hfail

/-- **What a successful unpacking answers**: it keeps the state, and holds the pack read,
followed by one entry for each of its deltas, the object that delta rebuilds. -/
theorem unpack_ok (hrel : Reliable n Good) (hs : Good s) {data : Bytes}
    (hcf : ∀ r, read data = .ok r → CollisionFree r (storedBases n s r)) {q : Decoded}
    {s' : Storage} (hrun : (unpack n data).run.run s = (.ok q, s')) :
    s' = s ∧ ∃ r res, read data = .ok r ∧ Tracks r (storedBases n s r) res [] q ∧
      q.pending = [] := by
  obtain ⟨q', r, res, hrun', hread, htr, hnil⟩ :=
    (unpack_spec hrel hs hcf).1 (unpacks_of_ok hrel hs hcf hrun)
  rw [hrun] at hrun'
  cases hrun'
  exact ⟨rfl, r, res, hread, htr, hnil⟩

/-- The objects a completion holds are whole objects of base kinds: those of the pack are, and
so are the stored objects it supplies. -/
theorem whole_of_tracks (hrel : Reliable n Good) (hs : Good s) {data : Bytes} {r q : Decoded}
    {res : List (PendingDelta × PackEntry)} (hread : read data = .ok r)
    (htr : Tracks r (storedBases n s r) res [] q) : q.WholeEntries := by
  obtain ⟨-, -, hentries⟩ := read_offsets hread
  obtain ⟨-, hstored⟩ := storedBases_named hrel hs (r := r)
  exact htr.whole hentries fun o ho => (hrel.objectAt_some hs (hstored o ho)).2

/-- What unpacking the pushed pack `data` does over the storage `s` of repository `n`. The
completion from storage stops by its own test. Unpacking succeeds exactly when the pack reads,
no delta misapplies and every delta is rooted in the pack or in the stored objects it names;
it then answers the pack's whole objects followed by every delta resolved, and storing that
writes exactly those. Otherwise it fails with a decode error: the reader's, else the error of a
delta that misapplies, else a missing base. -/
structure TakesIn (n : RepoName) (Good : Storage → Prop) (s : Storage) (data : Bytes) :
    Prop where
  /-- From what the pack decodes to, rounds beyond one for each waiting delta change nothing. -/
  stops : ∀ p, decode data = .ok p → ∀ k,
    (completeFrom n (p.pending.length + 1 + k) p).run.run s =
      (completeFrom n (p.pending.length + 1) p).run.run s
  /-- Unpacking succeeds, keeping the state, exactly when the pack reads and decodes, no delta
  misapplies and every delta is rooted. -/
  succeeds_iff : (∃ q, (unpack n data).run.run s = (.ok q, s)) ↔
    ∃ r, read data = .ok r ∧ (∃ p, decode data = .ok p) ∧
      (∀ d ∈ r.pending, ∀ err, ¬ Misapplies r (storedBases n s r) d err) ∧
      ∀ d ∈ r.pending, ∃ o, Rebuilds r (storedBases n s r) d o
  /-- What it answers is the pack's whole objects, followed by one entry for each delta, the
  object that delta rebuilds. -/
  entries : ∀ q, (unpack n data).run.run s = (.ok q, s) →
    ∃ r, ∃ res : List (PendingDelta × PackEntry), read data = .ok r ∧
      q.entries.toList = r.entries.toList ++ res.map (·.2) ∧
      r.pending.Perm (res.map (·.1)) ∧
      ∀ x ∈ res, x.2.offset = x.1.offset ∧ Rebuilds r (storedBases n s r) x.1 x.2.object
  /-- Storing what it answers writes those entries, keeping the first object of each id and the
  references, and answers their number. -/
  stores : ∀ q, (unpack n data).run.run s = (.ok q, s) →
    ∃ s', (storeEntries n q).run.run s = (.ok q.entries.size, s') ∧ Good s' ∧
      targetAt n s' = targetAt n s ∧
      ∀ i, objectAt n s' i =
        (objectAt n s i).or ((q.entries.toList.map (·.object)).find? (·.id == i))
  /-- A pack that does not read fails with the reader's error. -/
  unreadable : ∀ e, read data = .error e →
    (unpack n data).run.run s = (.error (.decode e.message), s)
  /-- A pack where some delta misapplies fails with the error of a delta that misapplies. -/
  misapplied : ∀ r, read data = .ok r →
    (∃ d ∈ r.pending, ∃ err, Misapplies r (storedBases n s r) d err) →
    ∃ e, FailsWith r (storedBases n s r) e ∧
      (unpack n data).run.run s = (.error (.decode e.message), s)
  /-- A pack where no delta misapplies and some delta is not rooted fails with a missing base,
  named by a delta that is not rooted. -/
  unrooted : ∀ r, read data = .ok r →
    (∀ d ∈ r.pending, ∀ err, ¬ Misapplies r (storedBases n s r) d err) →
    (∃ d ∈ r.pending, ¬ ∃ o, Rebuilds r (storedBases n s r) d o) →
    ∃ d ∈ r.pending, (¬ ∃ o, Rebuilds r (storedBases n s r) d o) ∧
      (unpack n data).run.run s =
        (.error (.decode (CodecError.missingDeltaBase d.base.label).message), s)

/-- **Taking in a thin pack.** Over storage that does not fail, and with no two objects the
pack meets sharing an id, unpacking a pushed pack does what `TakesIn` says. -/
theorem unpack_completes_thin_pack (hrel : Reliable n Good) (hs : Good s) {data : Bytes}
    (hcf : ∀ r, read data = .ok r → CollisionFree r (storedBases n s r)) :
    TakesIn n Good s data where
  stops p hdec k := by
    obtain ⟨r, hread, hsettle⟩ := Except.bind_eq_ok.mp hdec
    obtain ⟨res, htr, -⟩ := (tracks_read hread (storedBases n s r)).settle hsettle
    exact completeFrom_add hrel hs (storedBases_named hrel hs).1 _ k p ⟨res, htr⟩
      (Decoded.settle_settled hsettle) (Nat.lt_succ_self _)
  succeeds_iff := by
    constructor
    · rintro ⟨q, hrun⟩
      obtain ⟨r, hread, hall⟩ := unpacks_of_ok hrel hs hcf hrun
      obtain ⟨hoff, -, -⟩ := read_offsets hread
      -- a pack that does not decode fails before the completion
      have hdec : ∃ p, decode data = .ok p := by
        cases hdec : decode data with
        | ok p => exact ⟨p, rfl⟩
        | error e =>
          rw [unpack_of_decode_error hdec] at hrun
          cases hrun
      exact ⟨r, hread, hdec, fun d hd err hmis => hmis.not_rooted hoff (hcf r hread) (hall d hd),
        hall⟩
    · rintro ⟨r, hread, -, -, hall⟩
      obtain ⟨q, -, -, hrun, -⟩ := (unpack_spec hrel hs hcf).1 ⟨r, hread, hall⟩
      exact ⟨q, hrun⟩
  entries q hrun := by
    obtain ⟨-, r, res, hread, htr, hnil⟩ := unpack_ok hrel hs hcf hrun
    refine ⟨r, res, hread, htr.entries, ?_, htr.rebuilt⟩
    simpa [hnil] using htr.perm
  stores q hrun := by
    obtain ⟨-, r, res, hread, htr, -⟩ := unpack_ok hrel hs hcf hrun
    exact storeEntries_run hrel hs (whole_of_tracks hrel hs hread htr)
  unreadable _ hread := unpack_of_read_error hread
  misapplied r hread := by
    rintro ⟨d, hd, err, hmis⟩
    obtain ⟨hoff, -, -⟩ := read_offsets hread
    rcases unpack_run hrel hs hread with ⟨e, hrun, hfails⟩ | ⟨q, ⟨res, htr⟩, hset, hwait, -⟩
    · exact ⟨e, hfails, hrun⟩
    · exact absurd hmis (htr.not_misapplies hset hwait hoff (hcf r hread) hd)
  unrooted r hread hnomis := by
    rintro ⟨d₀, hd₀, hnot⟩
    obtain ⟨hoff, -, -⟩ := read_offsets hread
    rcases unpack_run hrel hs hread with
      ⟨e, -, d, hd, err, hmis, -⟩ | ⟨q, ⟨res, htr⟩, hset, hwait, hrun⟩
    · exact absurd hmis (hnomis d hd err)
    · cases hens : q.ensureComplete with
      | ok u =>
        -- a complete state roots every delta, `d₀` too
        have hall := ((Decoded.ensureComplete_eq_ok_iff q).trans
          (htr.isComplete_iff hset hwait hoff (hcf r hread))).mp hens
        exact absurd (hall d₀ hd₀) hnot
      | error e =>
        obtain ⟨d, hd, rfl⟩ := Decoded.ensureComplete_eq_error hens
        refine ⟨d, htr.perm.symm.subset (by simp [hd]),
          htr.not_rooted_of_waiting hset hwait hoff (hcf r hread) hd, ?_⟩
        rw [hrun, hens]

/-! ## A delta error comes before a missing base -/

/-- A pack of three entries: the blob `abc`; a delta on it, by id, that declares a base of five
bytes; and a delta on an id that no object has. -/
def mixedPack : Bytes :=
  [80, 65, 67, 75, 0, 0, 0, 2, 0, 0, 0, 3, 51, 120, 156, 75, 76, 74, 6, 0, 2, 77, 1, 39, 116,
    242, 186, 143, 132, 171, 92, 27, 206, 132, 167, 180, 65, 203, 25, 89, 207, 199, 9, 59, 127,
    120, 156, 99, 101, 100, 172, 0, 0, 0, 149, 0, 128, 116, 17, 17, 17, 17, 17, 17, 17, 17, 17,
    17, 17, 17, 17, 17, 17, 17, 17, 17, 17, 17, 120, 156, 99, 96, 100, 172, 4, 0, 0, 130, 0, 124,
    186, 188, 54, 238, 91, 104, 21, 103, 247, 254, 42, 253, 61, 223, 133, 61, 189, 61, 98, 142]

/-- The mixed pack as read. -/
def mixedPackRead : Decoded :=
  ⟨3, ⟨[186, 188, 54, 238, 91, 104, 21, 103, 247, 254, 42, 253, 61, 223, 133, 61, 189, 61, 98,
      142], rfl⟩,
    #[⟨12, .ofContent .blob [97, 98, 99], 0⟩], [],
    [⟨24, .id ⟨[242, 186, 143, 132, 171, 92, 27, 206, 132, 167, 180, 65, 203, 25, 89, 207, 199,
        9, 59, 127], rfl⟩, [5, 1, 1, 120]⟩,
      ⟨57, .id ⟨List.replicate 20 17, ObjectId.length_replicate_17⟩, [0, 1, 1, 121]⟩]⟩

/-- Storage over an empty blob store. -/
def emptyStore : Storage := { medium := .remote (BlobStore.empty 1), init := {}, now := 0 }

theorem read_mixedPack : read mixedPack = .ok mixedPackRead :=
  Except.eq_ok_of_toOption (by decide +kernel)

/-- Nothing is stored in an empty blob store. -/
theorem objectAt_emptyStore (n : RepoName) (i : ObjectId) : objectAt n emptyStore i = none := by
  rw [objectAt_remote rfl]
  rfl

theorem storedBases_mixedPack (n : RepoName) : storedBases n emptyStore mixedPackRead = [] := by
  simp [storedBases, mixedPackRead, objectAt_emptyStore]

/-- No delta of the mixed pack rebuilds anything: the first does not apply to `abc`, and the
second names an id `abc` does not have. -/
theorem mixedPack_rebuilds_nothing {d : PendingDelta} {o : GitObject} :
    ¬ Rebuilds mixedPackRead [] d o := by
  intro h
  induction h with
  | onEntry hd he hn happly =>
    have hfail : Delta.apply [97, 98, 99] [5, 1, 1, 120] = .error (.baseSize 3 5) :=
      Except.eq_error_of_error? (by decide +kernel)
    simp only [mixedPackRead, List.mem_cons, List.not_mem_nil, or_false] at hd he
    subst he
    rcases hd with rfl | rfl
    · simp [hfail] at happly
    · rw [BaseRef.names_id] at hn
      exact absurd hn (by decide +kernel)
  | onDelta _ _ _ _ ih => exact ih
  | onExternal _ ho => simp at ho

/-- The only object the mixed pack lets resolution meet is `abc`. -/
theorem reachable_mixedPack {o : GitObject} (h : Reachable mixedPackRead [] o) :
    o = .ofContent .blob [97, 98, 99] := by
  rcases h with ⟨e, he, rfl⟩ | ho | ⟨d, hreb⟩
  · simp only [mixedPackRead, List.mem_cons, List.not_mem_nil, or_false] at he
    subst he
    rfl
  · simp at ho
  · exact absurd hreb mixedPack_rebuilds_nothing

theorem unpack_completes_mixedPack :
    OnBlobStore ⟨"demo.git"⟩ emptyStore ∧
      CollisionFree mixedPackRead (storedBases ⟨"demo.git"⟩ emptyStore mixedPackRead) ∧
      TakesIn ⟨"demo.git"⟩ (OnBlobStore ⟨"demo.git"⟩) emptyStore mixedPack := by
  have hs : OnBlobStore ⟨"demo.git"⟩ emptyStore := ⟨_, rfl, WellStored.empty _ 1⟩
  have hcf : CollisionFree mixedPackRead (storedBases ⟨"demo.git"⟩ emptyStore mixedPackRead) := by
    rw [storedBases_mixedPack]
    exact fun a b ha hb _ => (reachable_mixedPack ha).trans (reachable_mixedPack hb).symm
  refine ⟨hs, hcf, unpack_completes_thin_pack (remote_reliable _) hs fun r hr => ?_⟩
  rw [read_mixedPack] at hr
  cases hr
  exact hcf

/-- The message of a delta error is not that of a missing base. -/
theorem message_delta_ne_missingDeltaBase (detail x : String) :
    (CodecError.delta detail).message ≠ (CodecError.missingDeltaBase x).message := by
  show "Delta Object Error Info:" ++ detail ≠ "Cannot find delta base object: " ++ x
  -- the two texts differ in their first character
  intro h
  have hhead := congrArg (fun t => t.toList.head?) h
  simp at hhead

/-- **A delta error is reported before a missing base.** Into an empty repository, the mixed
pack has a delta whose base is nowhere, neither in the pack nor in storage; yet unpacking it
fails with the error of the delta that does not apply, which is no missing base. -/
theorem unpack_mixedPack_misapplied_before_missing :
    read mixedPack = .ok mixedPackRead ∧
      (∃ d ∈ mixedPackRead.pending, ∀ b,
        ¬ d.base.Source mixedPackRead (storedBases ⟨"demo.git"⟩ emptyStore mixedPackRead) b) ∧
      (unpack ⟨"demo.git"⟩ mixedPack).run.run emptyStore =
        (.error (.decode (Delta.DeltaError.baseSize 3 5).toCodec.message), emptyStore) ∧
      ∀ x, (Delta.DeltaError.baseSize 3 5).toCodec.message ≠ (CodecError.missingDeltaBase x).message := by
  have hsettle : mixedPackRead.settle = .error (Delta.DeltaError.baseSize 3 5).toCodec :=
    Except.eq_error_of_error? (by decide +kernel)
  refine ⟨read_mixedPack, ⟨⟨57, .id ⟨List.replicate 20 17, rfl⟩, [0, 1, 1, 121]⟩, by
    simp [mixedPackRead], fun b hsrc => ?_⟩, unpack_of_decode_error ?_, fun x h => ?_⟩
  · -- the base id is not `abc`'s, no delta rebuilds anything, and storage holds nothing
    rw [storedBases_mixedPack] at hsrc
    rcases hsrc with ⟨e, he, hn, -⟩ | ⟨d', hreb, -⟩ | ⟨o, ho, -⟩
    · simp only [mixedPackRead, List.mem_cons, List.not_mem_nil, or_false] at he
      subst he
      rw [BaseRef.names_id] at hn
      exact absurd hn (by decide +kernel)
    · exact mixedPack_rebuilds_nothing hreb
    · simp at ho
  · rw [decode, read_mixedPack]
    exact hsettle
  · exact message_delta_ne_missingDeltaBase _ x h

end Engine

end GitServer
