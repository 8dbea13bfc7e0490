import GitServer.Proofs.Pack.Resolution
import Mathlib

/-!
# Completing a thin pack

A thin pack names bases it does not carry, and a receiver completes it by supplying outside
bases one at a time (`Decoded.addExternal`). Three facts about one supply carry a completion
loop:

* a supply that fails failed where a delta misapplies, that is, does not apply to a base its
  reference finds (`Tracks.addExternal_error`), and a delta that misapplies is not rooted
  (`Misapplies.not_rooted`); in a settled state where no waiting delta names an outside base,
  no delta misapplies (`Tracks.not_misapplies`);
* resolution only takes deltas out of the waiting list, and supplying the base a waiting delta
  names takes that delta out, so the list shrinks (`Tracks.addExternal_shrinks`);
* every object resolution holds is whole, of a base kind, when the pack's own entries and the
  outside bases are (`Tracks.whole`).
-/

namespace GitServer.Pack

namespace Decoded

/-- Looking at one delta fails only when its base is known and the delta does not apply to
it. -/
theorem tryResolve_eq_error {acc : Decoded × Bool} {d : PendingDelta} {e : CodecError}
    (h : tryResolve acc d = .error e) :
    ∃ b c err, acc.1.lookup d.base = some (b, c) ∧ Delta.apply b.data d.delta = .error err ∧
      e = err.toCodec := by
  simp only [tryResolve] at h
  split at h
  · cases h
  · rename_i b c hl
    split at h
    · rename_i err hd
      cases h
      exact ⟨b, c, err, hl, hd, rfl⟩
    · cases h

/-! ## Resolution only takes deltas out -/

theorem foldlM_tryResolve_sublist :
    ∀ {l : List PendingDelta} {acc out : Decoded × Bool},
      l.foldlM tryResolve acc = .ok out → List.Sublist out.1.pending (acc.1.pending ++ l)
  | [], _, _, h => by cases h; simp
  | d :: l, acc, out, h => by
    rw [List.foldlM_cons] at h
    obtain ⟨acc', hstep, hrest⟩ := Except.bind_eq_ok.mp h
    have ih := foldlM_tryResolve_sublist hrest
    rcases tryResolve_eq_ok hstep with ⟨-, rfl⟩ | ⟨b, c, data, -, -, rfl⟩
    · simpa using ih
    · -- the resolved delta is dropped
      exact ih.trans (List.Sublist.append_left (List.sublist_cons_self d l) _)

theorem round_sublist {p : Decoded} {out : Decoded × Bool} (h : p.round = .ok out) :
    List.Sublist out.1.pending p.pending := by
  simpa using foldlM_tryResolve_sublist h

theorem resolve_sublist :
    ∀ {n : Nat} {p q : Decoded}, p.resolve n = .ok q → List.Sublist q.pending p.pending
  | 0, _, _, h => by cases h; exact List.Sublist.refl _
  | n + 1, p, q, h => by
    obtain ⟨q', progressed, hround, hstop | ⟨-, -, hnext⟩⟩ := resolve_succ_eq_ok h
    · obtain ⟨-, rfl⟩ := hstop
      exact round_sublist hround
    · exact (resolve_sublist hnext).trans (round_sublist hround)

theorem addExternal_sublist {p q : Decoded} {o : GitObject} (h : p.addExternal o = .ok q) :
    List.Sublist q.pending p.pending := by
  rw [addExternal_eq_settle, settle] at h
  -- the pack with the base supplied waits on the same deltas
  have hsub := resolve_sublist h
  exact hsub

/-- In a settled state, the id a waiting delta names is missing. -/
theorem mem_missingBases_of_waiting {p : Decoded} (hs : p.Settled) {d : PendingDelta}
    (hd : d ∈ p.pending) {i : ObjectId} (hid : d.base = .id i) : i ∈ p.missingBases := by
  have hnone := hs d hd
  rw [hid] at hnone
  obtain ⟨hent, hext⟩ := lookup_id_eq_none.mp hnone
  exact ((missingBases_spec p).2 i).mpr ⟨d, hd, hid, hent, hext⟩

end Decoded

namespace Tracks

variable {r : Decoded} {ext : List GitObject} {res : List (PendingDelta × PackEntry)}

/-- **Supplying the base a waiting delta names resolves that delta**: the supplied base is
looked up by that id, and nothing waits on a base that is looked up. -/
theorem addExternal_shrinks {p q : Decoded} {o : GitObject} {d : PendingDelta}
    (h : Tracks r ext res [] p) (ho : o ∈ ext) (hadd : p.addExternal o = .ok q)
    (hd : d ∈ p.pending) (hid : d.base = .id o.id) : q.pending.length < p.pending.length := by
  obtain ⟨-, -, hs, hext⟩ := h.addExternal ho hadd
  have hfound : (q.lookup d.base).isSome := by
    rw [hid]
    exact Decoded.lookup_isSome_of_external (by simp [hext])
  have hgone : d ∉ q.pending := fun hq => by simp [hs d hq] at hfound
  have hsub := Decoded.addExternal_sublist hadd
  -- a sublist that misses an element is shorter
  refine lt_of_le_of_ne hsub.length_le fun hlen => hgone ?_
  rw [hsub.eq_of_length hlen]
  exact hd

end Tracks

/-! ## Failures -/

/-- The delta `d` of the read pack `r` does not apply, failing with `err`, to a base its
reference finds once the bases `ext` are supplied from outside. -/
def Misapplies (r : Decoded) (ext : List GitObject) (d : PendingDelta) (err : Delta.DeltaError) :
    Prop :=
  ∃ b, d.base.Source r ext b ∧ Delta.apply b.data d.delta = .error err

/-- Resolution over the read pack `r` failed with `e`: some delta of `r` misapplies, and `e`
is its error. -/
def FailsWith (r : Decoded) (ext : List GitObject) (e : CodecError) : Prop :=
  ∃ d ∈ r.pending, ∃ err, Misapplies r ext d err ∧ e = err.toCodec

namespace Tracks

variable {r : Decoded} {ext : List GitObject} {res : List (PendingDelta × PackEntry)}

/-- **Resolution fails only where a delta misapplies**: the base looked up for the delta that
fails is one its reference finds. -/
theorem tryResolve_error {d : PendingDelta} {rest : List PendingDelta} {q : Decoded}
    {flag : Bool} {e : CodecError} (h : Tracks r ext res (d :: rest) q)
    (hstep : Decoded.tryResolve (q, flag) d = .error e) : FailsWith r ext e := by
  obtain ⟨b, c, err, hl, hfail, rfl⟩ := Decoded.tryResolve_eq_error hstep
  exact ⟨d, h.perm.symm.subset (by simp), err, ⟨b, h.lookup_source hl, hfail⟩, rfl⟩

theorem foldlM_tryResolve_error :
    ∀ {res : List (PendingDelta × PackEntry)} {l : List PendingDelta} {acc : Decoded × Bool}
      {e : CodecError}, Tracks r ext res l acc.1 → l.foldlM Decoded.tryResolve acc = .error e →
        FailsWith r ext e
  | _, [], _, _, _, hrun => by cases hrun
  | _, d :: l, acc, e, h, hrun => by
    rw [List.foldlM_cons] at hrun
    rcases Except.bind_eq_error.mp hrun with hstep | ⟨acc', hstep, hrest⟩
    · exact h.tryResolve_error hstep
    · obtain ⟨res', h', -⟩ := h.tryResolve hstep
      exact foldlM_tryResolve_error h' hrest

theorem resolve_error :
    ∀ {n : Nat} {res : List (PendingDelta × PackEntry)} {p : Decoded} {e : CodecError},
      Tracks r ext res [] p → p.resolve n = .error e → FailsWith r ext e
  | 0, _, _, _, _, hrun => by cases hrun
  | n + 1, res, p, e, h, hrun => by
    rw [Decoded.resolve] at hrun
    rcases Except.bind_eq_error.mp hrun with hround | ⟨⟨q', progressed⟩, hround, hrest⟩
    · have hstart : Tracks r ext res p.pending { p with pending := [] } :=
        ⟨h.entries, by simpa using h.perm, h.rebuilt, h.external⟩
      exact foldlM_tryResolve_error hstart hround
    · obtain ⟨res', h', -⟩ := h.round hround
      dsimp only at hrest
      split at hrest
      · cases hrest
      · exact resolve_error h' hrest

/-- **A supply that fails failed where a delta misapplies.** -/
theorem addExternal_error {p : Decoded} {o : GitObject} {e : CodecError}
    (h : Tracks r ext res [] p) (ho : o ∈ ext) (hadd : p.addExternal o = .error e) :
    FailsWith r ext e := by
  have hstart : Tracks r ext res [] { p with external := o :: p.external.filter (·.id != o.id) } := by
    refine ⟨h.entries, h.perm, h.rebuilt, ?_⟩
    intro x hx
    rcases List.mem_cons.mp hx with rfl | hx
    · exact ho
    · exact h.external x (List.mem_of_mem_filter hx)
  rw [Decoded.addExternal_eq_settle] at hadd
  exact resolve_error hstart hadd

end Tracks

section Unrooted

variable {r : Decoded} {ext : List GitObject} (hoff : r.offsets.Nodup)
  (hcf : CollisionFree r ext)
include hoff hcf

/-- **A delta that misapplies is not rooted**: a rooted delta applies to the base its
reference finds, and there is only one. -/
theorem Misapplies.not_rooted {d : PendingDelta} {err : Delta.DeltaError}
    (h : Misapplies r ext d err) : ¬ ∃ o, Rebuilds r ext d o := by
  rintro ⟨o, hreb⟩
  obtain ⟨b, hsrc, hfail⟩ := h
  obtain ⟨b', data, hsrc', happly, -⟩ := hreb.base
  rw [BaseRef.Source.unique hoff hcf hsrc hsrc', happly] at hfail
  cases hfail

/-- A failed resolution left some delta unrooted. -/
theorem FailsWith.unrooted {e : CodecError} (h : FailsWith r ext e) :
    ∃ d ∈ r.pending, ¬ ∃ o, Rebuilds r ext d o := by
  obtain ⟨d, hd, err, hmis, -⟩ := h
  exact ⟨d, hd, hmis.not_rooted hoff hcf⟩

end Unrooted

namespace Tracks

variable {r : Decoded} {ext : List GitObject} {res : List (PendingDelta × PackEntry)}

/-- **The objects of a complete state**: in a settled state where no waiting delta names an
outside base, with no two objects met sharing an id, the objects held are the pack's whole
objects and the objects its deltas rebuild. -/
theorem mem_objects_iff {q : Decoded} (h : Tracks r ext res [] q) (hs : q.Settled)
    (hwait : ∀ d ∈ q.pending, ∀ o ∈ ext, d.base ≠ .id o.id) (hoff : r.offsets.Nodup)
    (hcf : CollisionFree r ext) {o : GitObject} :
    o ∈ q.entries.toList.map (·.object) ↔
      (∃ e ∈ r.entries.toList, e.object = o) ∨ ∃ d, Rebuilds r ext d o := by
  rw [h.entries, List.map_append, List.mem_append, List.map_map]
  refine or_congr (by simp) ⟨fun hmem => ?_, fun ⟨d, hreb⟩ => ?_⟩
  · obtain ⟨x, hx, rfl⟩ := List.mem_map.mp hmem
    exact ⟨x.1, (h.mem_resolved_iff hs hwait hoff hcf).mp ⟨x, hx, rfl, rfl⟩⟩
  · obtain ⟨x, hx, -, rfl⟩ := (h.mem_resolved_iff hs hwait hoff hcf).mpr hreb
    exact List.mem_map_of_mem hx

/-- **A waiting delta finds no base** in a settled state where no waiting delta names an
outside base: a whole object of the pack, or an object another delta rebuilds, would be looked
up among the entries. -/
theorem no_source_of_waiting {q : Decoded} (h : Tracks r ext res [] q) (hs : q.Settled)
    (hwait : ∀ d ∈ q.pending, ∀ o ∈ ext, d.base ≠ .id o.id) (hoff : r.offsets.Nodup)
    (hcf : CollisionFree r ext) {d : PendingDelta} (hd : d ∈ q.pending) {b : GitObject} :
    ¬ d.base.Source r ext b := by
  have hnone := hs d hd
  rintro (⟨e, he, hn, -⟩ | ⟨d', hreb, hn⟩ | ⟨o, ho, hid, -⟩)
  · have hmem : e ∈ q.entries.toList := by rw [h.entries]; exact List.mem_append_left _ he
    have hsome := Decoded.lookup_isSome_of_entry hmem hn
    simp [hnone] at hsome
  · -- the delta that rebuilds the base is resolved, and its entry holds that base
    obtain ⟨x, hx, rfl⟩ := h.resolved_of_rebuilds hs hwait hoff hcf hreb
    obtain ⟨hoffx, hrebx⟩ := h.rebuilt x hx
    have hobj := Rebuilds.unique hoff hcf hrebx hreb
    have hmem : x.2 ∈ q.entries.toList := by
      rw [h.entries]; exact List.mem_append_right _ (List.mem_map_of_mem hx)
    have hn' : d.base.Names x.2.offset x.2.object := by rw [hoffx, hobj]; exact hn
    have hsome := Decoded.lookup_isSome_of_entry hmem hn'
    simp [hnone] at hsome
  · exact hwait d hd o ho hid

/-- **A waiting delta is not rooted** in a settled state where no waiting delta names an
outside base: what it rebuilds would come from a base its reference finds. -/
theorem not_rooted_of_waiting {q : Decoded} (h : Tracks r ext res [] q) (hs : q.Settled)
    (hwait : ∀ d ∈ q.pending, ∀ o ∈ ext, d.base ≠ .id o.id) (hoff : r.offsets.Nodup)
    (hcf : CollisionFree r ext) {d : PendingDelta} (hd : d ∈ q.pending) :
    ¬ ∃ o, Rebuilds r ext d o := by
  rintro ⟨o, hreb⟩
  obtain ⟨b, -, hsrc, -, -⟩ := hreb.base
  exact h.no_source_of_waiting hs hwait hoff hcf hd hsrc

/-- **No delta misapplies** when resolution ends settled with no waiting delta naming an outside
base: a resolved delta is rooted, and a waiting one finds no base. -/
theorem not_misapplies {q : Decoded} (h : Tracks r ext res [] q) (hs : q.Settled)
    (hwait : ∀ d ∈ q.pending, ∀ o ∈ ext, d.base ≠ .id o.id) (hoff : r.offsets.Nodup)
    (hcf : CollisionFree r ext) {d : PendingDelta} (hd : d ∈ r.pending)
    {err : Delta.DeltaError} : ¬ Misapplies r ext d err := by
  intro hmis
  rcases h.resolved_or_waiting hd with ⟨x, hx, rfl⟩ | hwaiting
  · exact hmis.not_rooted hoff hcf ⟨_, (h.rebuilt x hx).2⟩
  · obtain ⟨b, hsrc, -⟩ := hmis
    exact h.no_source_of_waiting hs hwait hoff hcf hwaiting hsrc

/-- **Resolution holds whole objects**: when the pack's entries and the outside bases are
whole objects of base kinds, so is every entry of a tracked state. -/
theorem whole {q : Decoded} (h : Tracks r ext res [] q) (hr : r.WholeEntries)
    (hext : ∀ o ∈ ext, o.kind.isBase = true) : q.WholeEntries := by
  intro e he
  rw [h.entries, List.mem_append] at he
  rcases he with he | he
  · exact hr e he
  · obtain ⟨x, hx, rfl⟩ := List.mem_map.mp he
    obtain ⟨-, hreb⟩ := h.rebuilt x hx
    obtain ⟨b, data, -, -, hobj⟩ := hreb.base
    -- a rebuilt object has the kind its chain starts at
    obtain ⟨root, hroot, hkind⟩ := hreb.root
    refine ⟨?_, by rw [hobj]; rfl⟩
    rw [hkind]
    rcases hroot with ⟨e', he', rfl⟩ | hroot
    · exact (hr e' he').1
    · exact hext root hroot

end Tracks

end GitServer.Pack
