import GitServer.Proofs.Pack.Thin
import Mathlib

/-!
# A supply that fails

Supplying an outside base changes the pack in place (`Decoded.supplyExternal`), and it does so
also when resolution fails. A round takes the whole waiting list when it starts and puts back,
one at a time, the deltas whose base is still unknown; when a delta does not apply to the base
it finds, the round stops there. The pack it leaves holds the entries resolved so far and the
deltas put back before the failing one. The failing delta, and every delta after it in that
round, is neither resolved nor waiting any more.

The main statement is that a failed supply always loses a delta
(`supplyExternal_error_loses_delta`): afterwards the entries and the waiting deltas are fewer
than before, although entries are only ever added. A pack decoded with two deltas waiting, on
`abc` and on an id that no object has, is left waiting on nothing once `abc` is supplied and
the first delta does not apply to it: it is then complete and reports no base missing, with
neither delta resolved (`supplyExternal_misfit_loses_waiting`).
-/

namespace GitServer.Pack

namespace Decoded

/-! ## Looking at deltas, counted -/

/-- The pack `q` is the pack `p` after a round has looked at the deltas `l`, none failing: the
outside bases are the same, entries were only added, the deltas waiting are some of those that
waited and of `l`, in order, and each delta of `l` that does not wait is a new entry. -/
structure Advances (p q : Decoded) (l : List PendingDelta) : Prop where
  external : q.external = p.external
  entries : p.entries.toList <+: q.entries.toList
  pending : q.pending.Sublist (p.pending ++ l)
  count : q.entries.size + q.pending.length = p.entries.size + p.pending.length + l.length

theorem Advances.refl (p : Decoded) : Advances p p [] :=
  ⟨rfl, List.prefix_refl _, by simp, by simp⟩

theorem Advances.trans {p q r : Decoded} {l l' : List PendingDelta} (h : Advances p q l)
    (h' : Advances q r l') : Advances p r (l ++ l') where
  external := h'.external.trans h.external
  entries := h.entries.trans h'.entries
  pending := by
    refine h'.pending.trans ?_
    rw [← List.append_assoc]
    exact h.pending.append_right l'
  count := by
    have := h.count
    have := h'.count
    simp only [List.length_append]
    omega

/-- **One delta looked at, none failing**: it waits again, or it is a new entry. -/
theorem Advances.of_tryResolve {acc acc' : Decoded × Bool} {d : PendingDelta}
    (h : tryResolve acc d = .ok acc') : Advances acc.1 acc'.1 [d] := by
  rcases tryResolve_eq_ok h with ⟨-, rfl⟩ | ⟨b, c, data, -, -, rfl⟩
  · refine ⟨rfl, List.prefix_refl _, List.Sublist.refl _, ?_⟩
    simp only [List.length_append, List.length_singleton]
    omega
  · refine ⟨rfl, ?_, by simp, ?_⟩
    · simp
    · simp only [Array.size_push, List.length_singleton]
      omega

theorem Advances.of_foldlM :
    ∀ {l : List PendingDelta} {acc out : Decoded × Bool},
      l.foldlM tryResolve acc = .ok out → Advances acc.1 out.1 l
  | [], _, _, h => by cases h; exact .refl _
  | d :: l, acc, out, h => by
    rw [List.foldlM_cons] at h
    obtain ⟨acc', hstep, hrest⟩ := Except.bind_eq_ok.mp h
    exact (Advances.of_tryResolve hstep).trans (Advances.of_foldlM hrest)

/-- A round that succeeds loses no delta: every delta that waited before waits again or is a
new entry. -/
theorem Advances.of_round {p : Decoded} {out : Decoded × Bool} (h : p.round = .ok out) :
    Advances p out.1 [] := by
  have hrun := Advances.of_foldlM h
  exact ⟨hrun.external, hrun.entries, by simpa using hrun.pending, by simpa using hrun.count⟩

/-! ## Where a round fails -/

/-- The pack `q` that a resolution of `p`, failing with `e`, leaves: it has `p`'s outside bases
and entries and perhaps more entries; it waits on some of `p`'s deltas, in order, but no more on
the delta `d` where resolution failed, which does not apply to the base `q` finds for it; and
the entries and the waiting deltas are fewer than `p` had. -/
structure FailedAt (p q : Decoded) (e : CodecError) (d : PendingDelta) : Prop where
  external : q.external = p.external
  entries : p.entries.toList <+: q.entries.toList
  pending : (q.pending ++ [d]).Sublist p.pending
  count : q.entries.size + q.pending.length < p.entries.size + p.pending.length
  misapplies : ∃ b c err, q.lookup d.base = some (b, c) ∧
    Delta.apply b.data d.delta = .error err ∧ e = err.toCodec

/-- A failure after a successful round is a failure from before that round. -/
theorem FailedAt.of_advances {p p' q : Decoded} {e : CodecError} {d : PendingDelta}
    (hadv : Advances p p' []) (h : FailedAt p' q e d) : FailedAt p q e d where
  external := h.external.trans hadv.external
  entries := hadv.entries.trans h.entries
  pending := h.pending.trans (by simpa using hadv.pending)
  count := by
    have := hadv.count
    have := h.count
    simp only [List.length_nil, Nat.add_zero] at *
    omega
  misapplies := h.misapplies

/-- A fold that keeps its state fails at one delta, with the pack the deltas before it left. -/
theorem foldlM_tryResolveKeeping_eq_error :
    ∀ {l : List PendingDelta} {acc : Decoded × Bool} {e : CodecError} {q : Decoded},
      l.foldlM tryResolveKeeping acc = .error (e, q) →
        ∃ pre d post flag, l = pre ++ d :: post ∧ pre.foldlM tryResolve acc = .ok (q, flag) ∧
          tryResolve (q, flag) d = .error e
  | [], _, _, _, h => by cases h
  | d :: l, acc, e, q, h => by
    rw [List.foldlM_cons] at h
    cases hstep : tryResolve acc d with
    | error e' =>
      -- the failing delta is this one, and the pack is the one the round was given
      simp only [tryResolveKeeping, hstep, Except.mapError, bind, Except.bind,
        Except.error.injEq, Prod.mk.injEq] at h
      obtain ⟨rfl, rfl⟩ := h
      exact ⟨[], d, l, acc.2, rfl, rfl, hstep⟩
    | ok acc' =>
      simp only [tryResolveKeeping, hstep, Except.mapError, bind, Except.bind] at h
      obtain ⟨pre, d', post, flag, rfl, hpre, hfail⟩ := foldlM_tryResolveKeeping_eq_error h
      refine ⟨d :: pre, d', post, flag, rfl, ?_, hfail⟩
      rw [List.foldlM_cons, hstep]
      exact hpre

/-- **A failing round loses the failing delta**, and every delta after it. -/
theorem roundKeeping_eq_error {p q : Decoded} {e : CodecError} (h : p.roundKeeping = .error (e, q)) :
    ∃ d, FailedAt p q e d := by
  obtain ⟨pre, d, post, flag, hsplit, hpre, hfail⟩ := foldlM_tryResolveKeeping_eq_error h
  have hadv := Advances.of_foldlM hpre
  obtain ⟨b, c, err, hl, happly, rfl⟩ := tryResolve_eq_error hfail
  refine ⟨d, ⟨hadv.external, hadv.entries, ?_, ?_, ⟨b, c, err, hl, happly, rfl⟩⟩⟩
  · -- what waits again came from before the failing delta
    rw [hsplit]
    have hpend : q.pending.Sublist pre := by simpa using hadv.pending
    exact (hpend.append_right [d]).trans (by simp)
  · have := hadv.count
    simp only [List.length_nil, Nat.add_zero] at this
    rw [hsplit, List.length_append, List.length_cons]
    omega

/-- A round that keeps its state and succeeds is the plain round. -/
theorem round_of_roundKeeping {p : Decoded} {out : Decoded × Bool}
    (h : p.roundKeeping = .ok out) : p.round = .ok out := by
  have hmap : (roundKeeping p).mapError Prod.fst = p.round := foldlM_tryResolveKeeping _ _
  rw [h] at hmap
  exact hmap.symm

/-- **A failed resolution loses a delta**: rounds before the failing one lose none, and the
failing one loses the delta where it failed. -/
theorem resolveKeeping_eq_error :
    ∀ {n : Nat} {p q : Decoded} {e : CodecError},
      p.resolveKeeping n = .error (e, q) → ∃ d, FailedAt p q e d
  | 0, _, _, _, h => by cases h
  | n + 1, p, q, e, h => by
    rw [resolveKeeping] at h
    rcases Except.bind_eq_error.mp h with hround | ⟨⟨q', progressed⟩, hround, hrest⟩
    · exact roundKeeping_eq_error hround
    · have hadv := Advances.of_round (round_of_roundKeeping hround)
      dsimp only at hrest
      split at hrest
      · cases hrest
      · obtain ⟨d, hfail⟩ := resolveKeeping_eq_error hrest
        exact ⟨d, hfail.of_advances hadv⟩

/-- **A failed supply loses a delta.** When resolution fails after a base is supplied, the pack
keeps that base among its outside ones and its entries, and it waits on some of the deltas that
waited before, in order; but the delta `d` that did not apply to the base it finds waits no
more, and the entries and the waiting deltas together are fewer than before. A delta that
waited and was not resolved can so be lost. -/
theorem supplyExternal_error_loses_delta {p q : Decoded} {base : GitObject} {e : CodecError}
    (h : p.supplyExternal base = (.error e, q)) :
    q.external = base :: p.external.filter (·.id != base.id) ∧
      p.entries.toList <+: q.entries.toList ∧
      q.entries.size + q.pending.length < p.entries.size + p.pending.length ∧
      ∃ d, (q.pending ++ [d]).Sublist p.pending ∧
        ∃ b c err, q.lookup d.base = some (b, c) ∧ Delta.apply b.data d.delta = .error err ∧
          e = err.toCodec := by
  simp only [supplyExternal] at h
  split at h
  · cases h
  · rename_i e' q' hres
    simp only [Prod.mk.injEq, Except.error.injEq] at h
    obtain ⟨rfl, rfl⟩ := h
    obtain ⟨d, hfail⟩ := resolveKeeping_eq_error hres
    exact ⟨hfail.external, hfail.entries, hfail.count, d, hfail.pending, hfail.misapplies⟩

/-! ## A pack left complete with nothing resolved -/

/-- The blob `abc`. -/
def abcBlob : GitObject := .ofContent .blob [97, 98, 99]

/-- A thin pack of two deltas by id: one on `abc` that declares a base of five bytes, and one
on an id that no object has. -/
def lostDeltaPack : Bytes :=
  [80, 65, 67, 75, 0, 0, 0, 2, 0, 0, 0, 2, 116, 242, 186, 143, 132, 171, 92, 27, 206, 132, 167,
    180, 65, 203, 25, 89, 207, 199, 9, 59, 127, 120, 156, 99, 101, 100, 172, 0, 0, 0, 149, 0,
    128, 116, 17, 17, 17, 17, 17, 17, 17, 17, 17, 17, 17, 17, 17, 17, 17, 17, 17, 17, 17, 17,
    120, 156, 99, 96, 100, 172, 4, 0, 0, 130, 0, 124, 61, 46, 179, 234, 218, 200, 73, 57, 184,
    255, 22, 128, 144, 87, 210, 103, 208, 168, 112, 215]

/-- The id that no object has. -/
def nowhereId : ObjectId := ⟨List.replicate 20 17, List.length_replicate⟩

/-- The thin pack decoded: nothing resolved, both deltas waiting. -/
def lostDeltaDecoded : Decoded :=
  ⟨2, ⟨[61, 46, 179, 234, 218, 200, 73, 57, 184, 255, 22, 128, 144, 87, 210, 103, 208, 168, 112,
      215], rfl⟩, #[], [],
    [⟨12, .id abcBlob.id, [5, 1, 1, 120]⟩, ⟨45, .id nowhereId, [0, 1, 1, 121]⟩]⟩

/-- What supplying `abc` leaves: `abc` outside, no entry and nothing waiting. -/
def lostDeltaLeft : Decoded := { lostDeltaDecoded with external := [abcBlob], pending := [] }

theorem decode_lostDeltaPack : decode lostDeltaPack = .ok lostDeltaDecoded :=
  Except.eq_ok_of_toOption (by decide +kernel)

theorem supplyExternal_lostDelta :
    lostDeltaDecoded.supplyExternal abcBlob =
      (.error (Delta.DeltaError.baseSize 3 5).toCodec, lostDeltaLeft) := by
  have hleft : (lostDeltaDecoded.supplyExternal abcBlob).2 = lostDeltaLeft := by decide +kernel
  have herr : (lostDeltaDecoded.supplyExternal abcBlob).1 =
      .error (Delta.DeltaError.baseSize 3 5).toCodec :=
    Except.eq_error_of_error? (by decide +kernel)
  exact Prod.ext herr hleft

/-- The loss at the decoded thin pack: supplying `abc` fails on the first delta and leaves
nothing waiting. -/
theorem supplyExternal_error_loses_delta_lostDelta :
    lostDeltaDecoded.supplyExternal abcBlob =
        (.error (Delta.DeltaError.baseSize 3 5).toCodec, lostDeltaLeft) ∧
      (lostDeltaLeft.external = abcBlob :: lostDeltaDecoded.external.filter (·.id != abcBlob.id) ∧
        lostDeltaDecoded.entries.toList <+: lostDeltaLeft.entries.toList ∧
        lostDeltaLeft.entries.size + lostDeltaLeft.pending.length <
          lostDeltaDecoded.entries.size + lostDeltaDecoded.pending.length ∧
        ∃ d, (lostDeltaLeft.pending ++ [d]).Sublist lostDeltaDecoded.pending ∧
          ∃ b c err, lostDeltaLeft.lookup d.base = some (b, c) ∧
            Delta.apply b.data d.delta = .error err ∧
            (Delta.DeltaError.baseSize 3 5).toCodec = err.toCodec) :=
  ⟨supplyExternal_lostDelta, supplyExternal_error_loses_delta supplyExternal_lostDelta⟩

/-- **A failed supply can leave a pack complete with nothing resolved.** Decoding the thin pack
leaves both its deltas waiting, and reports both bases missing. Supplying `abc`, to which the
first delta does not apply, fails; the pack is then waiting on nothing, so it is complete,
`ensureComplete` succeeds and no base is reported missing, although neither delta was resolved
and no object has the second one's base. -/
theorem supplyExternal_misfit_loses_waiting :
    decode lostDeltaPack = .ok lostDeltaDecoded ∧
      lostDeltaDecoded.missingBases = [nowhereId, abcBlob.id] ∧
      lostDeltaDecoded.supplyExternal abcBlob =
        (.error (Delta.DeltaError.baseSize 3 5).toCodec, lostDeltaLeft) ∧
      lostDeltaLeft.entries = lostDeltaDecoded.entries ∧ lostDeltaLeft.isComplete = true ∧
      lostDeltaLeft.ensureComplete = .ok () ∧ lostDeltaLeft.missingBases = [] :=
  ⟨decode_lostDeltaPack, by decide +kernel, supplyExternal_lostDelta, rfl, rfl, rfl, rfl⟩

end Decoded

end GitServer.Pack
