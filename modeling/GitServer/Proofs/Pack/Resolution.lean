import GitServer.Proofs.Pack.Codec
import GitServer.Proofs.Except
import Mathlib
/-!
# Resolving deltas

What resolution computes, said without rounds: a delta `d` of a read pack *rebuilds* an
object `o` (`Rebuilds`) when its base reference names a whole object of the pack, an object
that another delta rebuilds, or a base supplied from outside, and applying `d` to that base
gives the content of `o`, of the base's kind. The main statement is that decoding a pack and
then supplying outside bases, in any order in which no call fails, ends with the whole objects
of the pack in pack order followed by exactly one entry for each delta that rebuilds anything,
the object it rebuilds, and with exactly the other deltas waiting.
-/

namespace GitServer.Pack

/-- A base reference names an object of a pack entry at `offset`: by that offset, or by the
object's id. -/
def BaseRef.Names : BaseRef → Nat → GitObject → Prop
  | .offset at_, pos, _ => pos = at_
  | .id base, _, o => o.id = base

@[simp] theorem BaseRef.names_offset {at_ pos : Nat} {o : GitObject} :
    (BaseRef.offset at_).Names pos o ↔ pos = at_ := Iff.rfl

@[simp] theorem BaseRef.names_id {base : ObjectId} {pos : Nat} {o : GitObject} :
    (BaseRef.id base).Names pos o ↔ o.id = base := Iff.rfl

/-- What the deltas of the read pack `r` rebuild once the bases `ext` are supplied from
outside. The three rules are the three places a base is found: a whole object of the pack, an
object another delta rebuilds, an outside base (by id only). -/
inductive Rebuilds (r : Decoded) (ext : List GitObject) : PendingDelta → GitObject → Prop
  | onEntry {d : PendingDelta} {e : PackEntry} {data : Bytes} :
      d ∈ r.pending → e ∈ r.entries.toList → d.base.Names e.offset e.object →
      Delta.apply e.object.data d.delta = .ok data →
      Rebuilds r ext d (.ofContent e.object.kind data)
  | onDelta {d d' : PendingDelta} {b : GitObject} {data : Bytes} :
      d ∈ r.pending → Rebuilds r ext d' b → d.base.Names d'.offset b →
      Delta.apply b.data d.delta = .ok data →
      Rebuilds r ext d (.ofContent b.kind data)
  | onExternal {d : PendingDelta} {o : GitObject} {data : Bytes} :
      d ∈ r.pending → o ∈ ext → d.base = .id o.id →
      Delta.apply o.data d.delta = .ok data →
      Rebuilds r ext d (.ofContent o.kind data)

theorem Rebuilds.mem_pending {r : Decoded} {ext : List GitObject} {d : PendingDelta}
    {o : GitObject} (h : Rebuilds r ext d o) : d ∈ r.pending := by
  cases h <;> assumption

/-- A rebuilt object has the kind of the whole object or outside base its chain starts at. -/
theorem Rebuilds.root {r : Decoded} {ext : List GitObject} {d : PendingDelta} {o : GitObject}
    (h : Rebuilds r ext d o) :
    ∃ root, ((∃ e ∈ r.entries.toList, e.object = root) ∨ root ∈ ext) ∧ o.kind = root.kind := by
  induction h with
  | onEntry _ he => exact ⟨_, .inl ⟨_, he, rfl⟩, rfl⟩
  | onDelta _ _ _ _ ih => exact ih
  | onExternal _ ho => exact ⟨_, .inr ho, rfl⟩

/-- The objects resolution can meet: whole objects of the pack, outside bases, rebuilt
objects. -/
def Reachable (r : Decoded) (ext : List GitObject) (o : GitObject) : Prop :=
  (∃ e ∈ r.entries.toList, e.object = o) ∨ o ∈ ext ∨ ∃ d, Rebuilds r ext d o

/-- No two objects resolution can meet share an id: no digest collision among them. -/
def CollisionFree (r : Decoded) (ext : List GitObject) : Prop :=
  ∀ a b, Reachable r ext a → Reachable r ext b → a.id = b.id → a = b

/-- Where a base reference finds an object: a whole object of the pack it names, an object
that a delta it names rebuilds, or an outside base of its id. -/
def BaseRef.Source (r : Decoded) (ext : List GitObject) (ref : BaseRef) (b : GitObject) : Prop :=
  (∃ e ∈ r.entries.toList, ref.Names e.offset e.object ∧ b = e.object) ∨
    (∃ d', Rebuilds r ext d' b ∧ ref.Names d'.offset b) ∨
    (∃ o ∈ ext, ref = .id o.id ∧ b = o)

/-! ## Looking up a base -/

namespace Decoded

@[simp] theorem lookup_pending (p : Decoded) (l : List PendingDelta) :
    ({ p with pending := l } : Decoded).lookup = p.lookup := rfl

/-- A base that is looked up is an entry the reference names or, by id, an outside base. -/
theorem lookup_eq_some {p : Decoded} {ref : BaseRef} {b : GitObject} {c : Nat}
    (h : p.lookup ref = some (b, c)) :
    (∃ e ∈ p.entries.toList, ref.Names e.offset e.object ∧ b = e.object) ∨
    (∃ o ∈ p.external, ref = .id o.id ∧ b = o) := by
  cases ref with
  | offset at_ =>
    simp only [lookup, Array.findRev?_eq_find?_reverse, Option.map_eq_some_iff] at h
    obtain ⟨e, he, heq⟩ := h
    cases heq
    refine .inl ⟨e, ?_, ?_, rfl⟩
    · simpa using Array.mem_of_find?_eq_some he
    · simpa using Array.find?_some he
  | id base =>
    simp only [lookup, Array.findRev?_eq_find?_reverse] at h
    split at h
    · rename_i e he
      cases h
      refine .inl ⟨e, ?_, ?_, rfl⟩
      · simpa using Array.mem_of_find?_eq_some he
      · simpa using Array.find?_some he
    · obtain ⟨o, ho, heq⟩ := Option.map_eq_some_iff.mp h
      simp only [Prod.mk.injEq] at heq
      have hid : o.id = base := by simpa using List.find?_some ho
      exact .inr ⟨o, List.mem_of_find?_eq_some ho, by rw [hid], heq.1.symm⟩

theorem lookup_isSome_of_entry {p : Decoded} {ref : BaseRef} {e : PackEntry}
    (he : e ∈ p.entries.toList) (hn : ref.Names e.offset e.object) : (p.lookup ref).isSome := by
  have he' : e ∈ p.entries.reverse := by simpa using he
  cases ref with
  | offset at_ =>
    simp only [lookup, Array.findRev?_eq_find?_reverse, Option.isSome_map]
    exact Option.isSome_iff_ne_none.mpr fun hnone =>
      Array.find?_eq_none.mp hnone e he' (by simpa using hn)
  | id base =>
    simp only [lookup, Array.findRev?_eq_find?_reverse]
    split
    · rfl
    · rename_i hnone
      exact absurd (Array.find?_eq_none.mp hnone e he' (by simpa using hn)) id

theorem lookup_isSome_of_external {p : Decoded} {o : GitObject} (ho : o ∈ p.external) :
    (p.lookup (.id o.id)).isSome := by
  simp only [lookup, Array.findRev?_eq_find?_reverse]
  split
  · rfl
  · simp only [Option.isSome_map]
    exact Option.isSome_iff_ne_none.mpr fun hnone =>
      List.find?_eq_none.mp hnone o ho (by simp)

/-- An id is not looked up exactly when neither an entry nor an outside base has it. -/
theorem lookup_id_eq_none {p : Decoded} {i : ObjectId} :
    p.lookup (.id i) = none ↔
      (∀ e ∈ p.entries.toList, e.object.id ≠ i) ∧ ∀ o ∈ p.external, o.id ≠ i := by
  constructor
  · intro h
    refine ⟨fun e he hid => ?_, fun o ho hid => ?_⟩
    · have : (p.lookup (.id i)).isSome := lookup_isSome_of_entry he hid
      simp [h] at this
    · have : (p.lookup (.id o.id)).isSome := lookup_isSome_of_external ho
      simp [hid, h] at this
  · rintro ⟨hent, hext⟩
    cases hl : p.lookup (.id i) with
    | none => rfl
    | some bc =>
      obtain ⟨b, c⟩ := bc
      rcases lookup_eq_some hl with ⟨e, he, hn, -⟩ | ⟨o, ho, hid, -⟩
      · exact absurd hn (hent e he)
      · cases hid
        exact absurd rfl (hext o ho)

end Decoded

/-! ## One delta, one round -/

namespace Decoded

/-- What looking at one waiting delta does: it waits again, its base unknown, or its base is
known, the delta applies, and the rebuilt object becomes an entry. -/
theorem tryResolve_eq_ok {acc acc' : Decoded × Bool} {d : PendingDelta}
    (h : tryResolve acc d = .ok acc') :
    (acc.1.lookup d.base = none ∧ acc' = ({ acc.1 with pending := acc.1.pending ++ [d] }, acc.2)) ∨
    (∃ b c data, acc.1.lookup d.base = some (b, c) ∧ Delta.apply b.data d.delta = .ok data ∧
      acc' = ({ acc.1 with entries := acc.1.entries.push ⟨d.offset, .ofContent b.kind data, c + 1⟩ },
        true)) := by
  simp only [tryResolve] at h
  split at h
  · rename_i hl
    cases h
    exact .inl ⟨hl, rfl⟩
  · rename_i b c hl
    split at h
    · cases h
    · rename_i data hd
      cases h
      exact .inr ⟨b, c, data, hl, hd, rfl⟩

end Decoded

/-- A state of resolution over the read pack `r` with the outside bases `ext`: its entries
are the whole objects of `r` followed by one entry for each delta of `res`, the object that
delta rebuilds; the deltas of `r` are those of `res`, those waiting, and `rest`, those a round
has still to look at; its outside bases are among `ext`. -/
structure Tracks (r : Decoded) (ext : List GitObject) (res : List (PendingDelta × PackEntry))
    (rest : List PendingDelta) (q : Decoded) : Prop where
  entries : q.entries.toList = r.entries.toList ++ res.map (·.2)
  perm : r.pending.Perm (res.map (·.1) ++ q.pending ++ rest)
  rebuilt : ∀ x ∈ res, x.2.offset = x.1.offset ∧ Rebuilds r ext x.1 x.2.object
  external : ∀ o ∈ q.external, o ∈ ext

namespace Tracks

variable {r : Decoded} {ext : List GitObject} {res : List (PendingDelta × PackEntry)}
  {rest : List PendingDelta} {q : Decoded}

/-- A base looked up in a tracked state is a whole object of the pack, an object some delta
rebuilds, or an outside base, named by the reference. -/
theorem lookup_source (h : Tracks r ext res rest q) {ref : BaseRef} {b : GitObject} {c : Nat}
    (hl : q.lookup ref = some (b, c)) : ref.Source r ext b := by
  rcases Decoded.lookup_eq_some hl with ⟨e, he, hn, rfl⟩ | ⟨o, ho, hid, rfl⟩
  · rw [h.entries, List.mem_append] at he
    rcases he with he | he
    · exact .inl ⟨e, he, hn, rfl⟩
    · obtain ⟨x, hx, rfl⟩ := List.mem_map.mp he
      obtain ⟨hoff, hreb⟩ := h.rebuilt x hx
      refine .inr (.inl ⟨x.1, hreb, ?_⟩)
      cases ref <;> simp_all
  · exact .inr (.inr ⟨_, h.external _ ho, hid, rfl⟩)

/-- A delta of the pack whose base is looked up and that applies rebuilds what it gives. -/
theorem rebuilds_of_lookup (h : Tracks r ext res rest q) {d : PendingDelta} (hd : d ∈ r.pending)
    {b : GitObject} {c : Nat} {data : Bytes} (hl : q.lookup d.base = some (b, c))
    (happly : Delta.apply b.data d.delta = .ok data) :
    Rebuilds r ext d (.ofContent b.kind data) := by
  rcases h.lookup_source hl with ⟨e, he, hn, rfl⟩ | ⟨d', hreb, hn⟩ | ⟨o, ho, hid, rfl⟩
  · exact .onEntry hd he hn happly
  · exact .onDelta hd hreb hn happly
  · exact .onExternal hd ho hid happly

/-- **One delta keeps the state tracked**: one waiting again goes to the waiting list, one
resolved goes to the resolved list with the object it rebuilds. -/
theorem tryResolve {d : PendingDelta} {flag : Bool} {acc' : Decoded × Bool}
    (h : Tracks r ext res (d :: rest) q) (hstep : Decoded.tryResolve (q, flag) d = .ok acc') :
    ∃ res', Tracks r ext res' rest acc'.1 ∧ acc'.1.external = q.external := by
  have hd : d ∈ r.pending := h.perm.symm.subset (by simp)
  rcases Decoded.tryResolve_eq_ok hstep with ⟨-, rfl⟩ | ⟨b, c, data, hl, happly, rfl⟩
  · refine ⟨res, ⟨h.entries, ?_, h.rebuilt, h.external⟩, rfl⟩
    exact h.perm.trans (by simp)
  · refine ⟨res ++ [(d, ⟨d.offset, .ofContent b.kind data, c + 1⟩)], ⟨?_, ?_, ?_, h.external⟩, rfl⟩
    · simp [h.entries]
    · refine h.perm.trans ?_
      simpa using List.Perm.append_left _ List.perm_middle
    · intro x hx
      rcases List.mem_append.mp hx with hx | hx
      · exact h.rebuilt x hx
      · obtain rfl := List.mem_singleton.mp hx
        exact ⟨rfl, h.rebuilds_of_lookup hd hl happly⟩

end Tracks

namespace Decoded

/-- Once a round has resolved a delta it reports progress. -/
theorem foldlM_tryResolve_true :
    ∀ {l : List PendingDelta} {q : Decoded} {out : Decoded × Bool},
      l.foldlM tryResolve (q, true) = .ok out → out.2 = true
  | [], _, _, h => by cases h; rfl
  | d :: l, q, out, h => by
    rw [List.foldlM_cons] at h
    obtain ⟨acc', hstep, hrest⟩ := Except.bind_eq_ok.mp h
    rcases tryResolve_eq_ok hstep with ⟨-, rfl⟩ | ⟨b, c, data, -, -, rfl⟩
    · exact foldlM_tryResolve_true hrest
    · exact foldlM_tryResolve_true hrest

/-- A round that resolves nothing puts every delta back in order, each with a base that is not
looked up. -/
theorem foldlM_tryResolve_false :
    ∀ {l : List PendingDelta} {q out : Decoded},
      l.foldlM tryResolve (q, false) = .ok (out, false) →
        out = { q with pending := q.pending ++ l } ∧ ∀ d ∈ l, q.lookup d.base = none
  | [], q, out, h => by cases h; simp
  | d :: l, q, out, h => by
    rw [List.foldlM_cons] at h
    obtain ⟨acc', hstep, hrest⟩ := Except.bind_eq_ok.mp h
    rcases tryResolve_eq_ok hstep with ⟨hl, rfl⟩ | ⟨b, c, data, -, -, rfl⟩
    · obtain ⟨rfl, hnone⟩ := foldlM_tryResolve_false hrest
      refine ⟨by simp, ?_⟩
      intro d' hd'
      rcases List.mem_cons.mp hd' with rfl | hd'
      · exact hl
      · simpa using hnone d' hd'
    · simpa using foldlM_tryResolve_true hrest

/-- A round never makes the waiting list longer, and one that reports progress makes it
shorter. -/
theorem foldlM_tryResolve_length :
    ∀ {l : List PendingDelta} {acc out : Decoded × Bool},
      l.foldlM tryResolve acc = .ok out →
        out.1.pending.length + out.2.toNat ≤ acc.1.pending.length + l.length + acc.2.toNat
  | [], _, _, h => by cases h; simp
  | d :: l, acc, out, h => by
    rw [List.foldlM_cons] at h
    obtain ⟨acc', hstep, hrest⟩ := Except.bind_eq_ok.mp h
    have ih := foldlM_tryResolve_length hrest
    rcases tryResolve_eq_ok hstep with ⟨-, rfl⟩ | ⟨b, c, data, -, -, rfl⟩
    · simp only [List.length_append, List.length_cons, List.length_nil] at ih ⊢
      omega
    · simp only [Bool.toNat_true, List.length_cons] at ih ⊢
      have := Bool.toNat_le acc.2
      omega

end Decoded

namespace Tracks

variable {r : Decoded} {ext : List GitObject}

/-- **A round keeps the state tracked**, and leaves the outside bases alone. -/
theorem foldlM_tryResolve :
    ∀ {l : List PendingDelta} {res : List (PendingDelta × PackEntry)} {acc out : Decoded × Bool},
      Tracks r ext res l acc.1 → l.foldlM Decoded.tryResolve acc = .ok out →
        ∃ res', Tracks r ext res' [] out.1 ∧ out.1.external = acc.1.external
  | [], res, _, _, h, hrun => by cases hrun; exact ⟨res, h, rfl⟩
  | d :: l, _, acc, out, h, hrun => by
    rw [List.foldlM_cons] at hrun
    obtain ⟨acc', hstep, hrest⟩ := Except.bind_eq_ok.mp hrun
    obtain ⟨res', h', hext'⟩ := h.tryResolve hstep
    obtain ⟨res'', h'', hext''⟩ := foldlM_tryResolve h' hrest
    exact ⟨res'', h'', hext''.trans hext'⟩

theorem round {res : List (PendingDelta × PackEntry)} {p : Decoded} {out : Decoded × Bool}
    (h : Tracks r ext res [] p) (hround : p.round = .ok out) :
    ∃ res', Tracks r ext res' [] out.1 ∧ out.1.external = p.external := by
  have hstart : Tracks r ext res p.pending { p with pending := [] } :=
    ⟨h.entries, by simpa using h.perm, h.rebuilt, h.external⟩
  exact foldlM_tryResolve hstart hround

end Tracks

/-! ## Rounds until nothing changes -/

/-- No waiting delta has a base that can be looked up: a round would resolve nothing. -/
def Decoded.Settled (p : Decoded) : Prop := ∀ d ∈ p.pending, p.lookup d.base = none

namespace Decoded

/-- A round that resolves nothing leaves the pack as it was, and it was settled. -/
theorem round_false {p q : Decoded} (h : p.round = .ok (q, false)) : q = p ∧ p.Settled := by
  obtain ⟨rfl, hnone⟩ := foldlM_tryResolve_false h
  exact ⟨by simp, fun d hd => by simpa using hnone d hd⟩

theorem round_length {p : Decoded} {out : Decoded × Bool} (h : p.round = .ok out) :
    out.1.pending.length + out.2.toNat ≤ p.pending.length := by
  simpa using foldlM_tryResolve_length h

/-- What one call of `resolve` does: a round, then either a stop or the next call. -/
theorem resolve_succ_eq_ok {n : Nat} {p q : Decoded} (h : p.resolve (n + 1) = .ok q) :
    ∃ q' progressed, p.round = .ok (q', progressed) ∧
      ((progressed = false ∨ q'.pending = []) ∧ q = q' ∨
        progressed = true ∧ q'.pending ≠ [] ∧ q'.resolve n = .ok q) := by
  rw [resolve] at h
  obtain ⟨⟨q', progressed⟩, hround, hrest⟩ := Except.bind_eq_ok.mp h
  refine ⟨q', progressed, hround, ?_⟩
  dsimp only at hrest
  split at hrest
  · rename_i hstop
    cases hrest
    refine .inl ⟨?_, rfl⟩
    simpa using hstop
  · rename_i hgo
    simp only [Bool.or_eq_true, Bool.not_eq_true', List.isEmpty_iff, not_or] at hgo
    exact .inr ⟨by simpa using hgo.1, hgo.2, hrest⟩

/-- **Resolution reaches its fixpoint**: given more rounds than deltas wait, it stops only when
a round would resolve nothing, since each round that resolves something shortens the waiting
list. -/
theorem resolve_settled :
    ∀ {n : Nat} {p q : Decoded}, p.pending.length < n → p.resolve n = .ok q → q.Settled
  | 0, _, _, hn, _ => absurd hn (Nat.not_lt_zero _)
  | n + 1, p, q, hn, h => by
    obtain ⟨q', progressed, hround, hstop | ⟨rfl, hne, hnext⟩⟩ := resolve_succ_eq_ok h
    · obtain ⟨hprog | hempty, rfl⟩ := hstop
      · subst hprog
        obtain ⟨rfl, hsettled⟩ := round_false hround
        exact hsettled
      · intro d hd
        simp [hempty] at hd
    · have hlen := round_length hround
      simp only [Bool.toNat_true] at hlen
      exact resolve_settled (by omega) hnext

theorem settle_settled {p q : Decoded} (h : p.settle = .ok q) : q.Settled :=
  resolve_settled (Nat.lt_succ_self _) h

end Decoded

namespace Tracks

variable {r : Decoded} {ext : List GitObject}

theorem resolve :
    ∀ {n : Nat} {res : List (PendingDelta × PackEntry)} {p q : Decoded},
      Tracks r ext res [] p → p.resolve n = .ok q →
        ∃ res', Tracks r ext res' [] q ∧ q.external = p.external
  | 0, res, _, _, h, hres => by cases hres; exact ⟨res, h, rfl⟩
  | n + 1, _, p, q, h, hres => by
    obtain ⟨q', progressed, hround, hstop | ⟨-, -, hnext⟩⟩ := Decoded.resolve_succ_eq_ok hres
    · obtain ⟨-, rfl⟩ := hstop
      exact h.round hround
    · obtain ⟨res', h', hext'⟩ := h.round hround
      obtain ⟨res'', h'', hext''⟩ := resolve h' hnext
      exact ⟨res'', h'', hext''.trans hext'⟩

theorem settle {res : List (PendingDelta × PackEntry)} {p q : Decoded}
    (h : Tracks r ext res [] p) (hsettle : p.settle = .ok q) :
    ∃ res', Tracks r ext res' [] q ∧ q.external = p.external :=
  h.resolve hsettle

end Tracks

/-! ## Supplying outside bases -/

namespace Decoded

/-- A round that keeps its state fails where the plain round fails, with the same error. -/
theorem foldlM_tryResolveKeeping :
    ∀ (l : List PendingDelta) (acc : Decoded × Bool),
      (l.foldlM tryResolveKeeping acc).mapError Prod.fst = l.foldlM tryResolve acc
  | [], _ => rfl
  | d :: l, acc => by
    rw [List.foldlM_cons, List.foldlM_cons]
    cases hstep : tryResolve acc d with
    | error e => simp [tryResolveKeeping, hstep, Except.mapError, bind, Except.bind]
    | ok acc' =>
      simpa [tryResolveKeeping, hstep, Except.mapError, bind, Except.bind] using
        foldlM_tryResolveKeeping l acc'

theorem resolveKeeping_mapError :
    ∀ (n : Nat) (p : Decoded), (p.resolveKeeping n).mapError Prod.fst = p.resolve n
  | 0, _ => rfl
  | n + 1, p => by
    have hround : (roundKeeping p).mapError Prod.fst = p.round := foldlM_tryResolveKeeping _ _
    rw [resolveKeeping, resolve, ← hround]
    cases roundKeeping p with
    | error f => rfl
    | ok out =>
      obtain ⟨q, progressed⟩ := out
      show Except.mapError Prod.fst (if _ then _ else _) = if _ then _ else _
      split
      · rfl
      · exact resolveKeeping_mapError n q

/-- Supplying a base, as a caller that gives the pack up on failure sees it, settles the pack
with that base among the outside ones. -/
theorem addExternal_eq_settle (p : Decoded) (base : GitObject) :
    p.addExternal base =
      settle { p with external := base :: p.external.filter (·.id != base.id) } := by
  rw [settle, ← resolveKeeping_mapError]
  simp only [addExternal, supplyExternal]
  split <;> rename_i h <;> split at h <;> simp_all [Except.mapError]

end Decoded

namespace Tracks

variable {r : Decoded} {ext : List GitObject}

/-- **Supplying an outside base keeps the state tracked and settled**, with that base kept
and the earlier bases of other ids kept too. -/
theorem addExternal {res : List (PendingDelta × PackEntry)} {p q : Decoded} {o : GitObject}
    (h : Tracks r ext res [] p) (ho : o ∈ ext) (hadd : p.addExternal o = .ok q) :
    ∃ res', Tracks r ext res' [] q ∧ q.Settled ∧
      q.external = o :: p.external.filter (·.id != o.id) := by
  have hstart : Tracks r ext res [] { p with external := o :: p.external.filter (·.id != o.id) } := by
    refine ⟨h.entries, h.perm, h.rebuilt, ?_⟩
    intro x hx
    rcases List.mem_cons.mp hx with rfl | hx
    · exact ho
    · exact h.external x (List.mem_of_mem_filter hx)
  rw [Decoded.addExternal_eq_settle] at hadd
  obtain ⟨res', h', hext'⟩ := hstart.settle hadd
  exact ⟨res', h', Decoded.settle_settled hadd, hext'⟩

/-- Supplying outside bases one after another, none failing, keeps the state tracked and
settled, and every id supplied, or supplied before, has an outside base in the end. -/
theorem foldlM_addExternal :
    ∀ {exts : List GitObject} {res : List (PendingDelta × PackEntry)} {p q : Decoded},
      Tracks r ext res [] p → p.Settled → (∀ o ∈ exts, o ∈ ext) →
      exts.foldlM Decoded.addExternal p = .ok q →
        ∃ res', Tracks r ext res' [] q ∧ q.Settled ∧
          ∀ x ∈ p.external ++ exts, ∃ y ∈ q.external, y.id = x.id
  | [], res, p, q, h, hs, _, hrun => by
    cases hrun
    exact ⟨res, h, hs, fun x hx => ⟨x, by simpa using hx, rfl⟩⟩
  | o :: exts, _, p, q, h, _, hexts, hrun => by
    rw [List.foldlM_cons] at hrun
    obtain ⟨p', hadd, hrest⟩ := Except.bind_eq_ok.mp hrun
    obtain ⟨res', h', hs', hext'⟩ := h.addExternal (hexts o (by simp)) hadd
    obtain ⟨res'', h'', hs'', hcov⟩ :=
      foldlM_addExternal h' hs' (fun o' ho' => hexts o' (by simp [ho'])) hrest
    refine ⟨res'', h'', hs'', fun x hx => ?_⟩
    -- an earlier base of the id just supplied is covered by the new one
    have hcov' : ∀ y ∈ p'.external, ∃ z ∈ q.external, z.id = y.id :=
      fun y hy => hcov y (List.mem_append_left _ hy)
    rcases List.mem_append.mp hx with hx | hx
    · by_cases hid : x.id = o.id
      · obtain ⟨z, hz, hzid⟩ := hcov' o (by simp [hext'])
        exact ⟨z, hz, hzid.trans hid.symm⟩
      · exact hcov' x (by simp [hext', hx, hid])
    · rcases List.mem_cons.mp hx with rfl | hx
      · exact hcov' x (by simp [hext'])
      · exact hcov x (List.mem_append_right _ hx)

end Tracks

/-! ## Reading a pack: distinct offsets -/

/-- An entry header read from a size byte on ends past it. -/
theorem readEntryHeader.go_len {t : Nat} :
    ∀ {rest : Bytes} {size shift len : Nat} {res : Nat × Nat × Nat},
      readEntryHeader.go t size shift len rest = .ok (some res) → len < res.2.2
  | [], _, _, _, _, h => by simp [readEntryHeader.go] at h
  | b :: rest, size, shift, len, res, h => by
    unfold readEntryHeader.go at h
    split at h
    · cases h
    · dsimp only at h
      split at h
      · cases h
        exact Nat.lt_succ_self len
      · exact Nat.lt_of_succ_lt (readEntryHeader.go_len h)

/-- An entry header takes at least one byte. -/
theorem readEntryHeader_len_pos {data : Bytes} {res : Nat × Nat × Nat}
    (h : readEntryHeader data = .ok (some res)) : 0 < res.2.2 := by
  unfold readEntryHeader at h
  split at h
  · cases h
  · dsimp only at h
    split at h
    · cases h
      exact Nat.one_pos
    · exact Nat.lt_of_le_of_lt (Nat.zero_le 1) (readEntryHeader.go_len h)

/-- The content of an entry starts after its base reference. -/
theorem readBaseRef_pos {data : Array UInt8} {offset pos : Nat} {kind : ObjectKind}
    {raw : RawKind} {pos' : Nat} (h : readBaseRef data offset pos kind = .ok (some (raw, pos'))) :
    pos ≤ pos' := by
  cases kind with
  | ofsDelta =>
    simp only [readBaseRef] at h
    cases hd : readBaseDistance (window data pos headerWindow) with
    | error e => simp [hd, bind, Except.bind] at h
    | ok v =>
      rcases v with _ | ⟨distance, len⟩
      · simp [hd, bind, Except.bind, pure, Except.pure] at h
      · simp only [hd, bind, Except.bind] at h
        split at h
        · simp [throw, throwThe, MonadExceptOf.throw] at h
        · simp only [pure, Except.pure, Except.ok.injEq, Option.some.injEq, Prod.mk.injEq] at h
          omega
  | refDelta =>
    simp only [readBaseRef] at h
    split at h
    · simp only [Except.ok.injEq, Option.some.injEq, Prod.mk.injEq] at h
      omega
    · cases h
  | commit | tree | blob | tag =>
    simp only [readBaseRef, Except.ok.injEq, Option.some.injEq, Prod.mk.injEq] at h
    omega

/-- A whole object read after an entry header is of a base kind. -/
theorem readBaseRef_base {data : Array UInt8} {offset pos : Nat} {kind k : ObjectKind}
    {pos' : Nat} (h : readBaseRef data offset pos kind = .ok (some (.base k, pos'))) :
    k.isBase = true := by
  cases kind with
  | ofsDelta =>
    simp only [readBaseRef] at h
    cases hd : readBaseDistance (window data pos headerWindow) with
    | error e => simp [hd, bind, Except.bind] at h
    | ok v =>
      rcases v with _ | ⟨distance, len⟩
      · simp [hd, bind, Except.bind, pure, Except.pure] at h
      · simp only [hd, bind, Except.bind] at h
        split at h
        · simp [throw, throwThe, MonadExceptOf.throw] at h
        · simp [pure, Except.pure] at h
  | refDelta =>
    simp only [readBaseRef] at h
    split at h <;> simp at h
  | commit | tree | blob | tag =>
    simp only [readBaseRef, Except.ok.injEq, Option.some.injEq, Prod.mk.injEq, RawKind.base.injEq] at h
    rw [← h.1]
    rfl

/-- **Entries move forward**: the next entry starts after the one read, and a whole object
read is of a base kind. -/
theorem RawEntry.read_next {data : Array UInt8} {offset : Nat} {raw : RawEntry}
    (h : RawEntry.read data offset = .ok (some raw)) :
    offset < raw.next ∧ ∀ k, raw.kind = .base k → k.isBase = true := by
  simp only [RawEntry.read] at h
  cases hh : readEntryHeader (window data offset headerWindow) with
  | error e => simp [hh, bind, Except.bind] at h
  | ok v =>
    rcases v with _ | ⟨typeId, size, headerLen⟩
    · simp [hh, bind, Except.bind, pure, Except.pure] at h
    · have hlen := readEntryHeader_len_pos hh
      simp only [hh, bind, Except.bind] at h
      cases hk : ObjectKind.ofPackNumber? typeId with
      | none => simp [hk, throw, throwThe, MonadExceptOf.throw] at h
      | some kind =>
        cases hb : readBaseRef data offset (offset + headerLen) kind with
        | error e => simp [hk, hb] at h
        | ok w =>
          rcases w with _ | ⟨rk, pos⟩
          · simp [hk, hb, pure, Except.pure] at h
          · have hpos := readBaseRef_pos hb
            simp only [hk, hb] at h
            split at h
            · simp [throw, throwThe, MonadExceptOf.throw] at h
            · simp [pure, Except.pure] at h
            · simp only [pure, Except.pure, Except.ok.injEq, Option.some.injEq] at h
              subst h
              dsimp only at hlen ⊢
              refine ⟨by omega, fun k hk => ?_⟩
              rw [hk] at hb
              exact readBaseRef_base hb

/-- Where the entries and waiting deltas of a pack start. -/
def Decoded.offsets (p : Decoded) : List Nat :=
  p.entries.toList.map (·.offset) ++ p.pending.map (·.offset)

/-- Every entry holds an object of a base kind, named by its kind and content. -/
def Decoded.WholeEntries (p : Decoded) : Prop :=
  ∀ e ∈ p.entries.toList, e.object.kind.isBase = true ∧ e.object = .ofContent e.object.kind e.object.data

/-- Reading entries gives each its own offset, keeps every entry a whole object, and supplies
no outside base. -/
theorem readEntries_offsets {body : Array UInt8} :
    ∀ {n offset : Nat} {p q : Decoded} {off' : Nat},
      Decoded.readEntries body n offset p = .ok (q, off') →
      (∀ x ∈ p.offsets, x < offset) → p.offsets.Nodup → p.WholeEntries →
        q.offsets.Nodup ∧ q.external = p.external ∧ q.WholeEntries
  | 0, _, p, q, _, h, _, hnd, hwhole => by cases h; exact ⟨hnd, rfl, hwhole⟩
  | n + 1, offset, p, q, off', h, hlt, hnd, hwhole => by
    rw [Decoded.readEntries] at h
    obtain ⟨o, hread, hrest⟩ := Except.bind_eq_ok.mp h
    rcases o with _ | raw
    · simp [throw, throwThe, MonadExceptOf.throw] at hrest
    · obtain ⟨hnext, hbase⟩ := RawEntry.read_next hread
      -- the entry read adds its offset, below the next one and above all before it
      have step : ∀ p' : Decoded, Decoded.readEntries body n raw.next p' = .ok (q, off') →
          p'.offsets.Perm (offset :: p.offsets) → p'.external = p.external → p'.WholeEntries →
            q.offsets.Nodup ∧ q.external = p.external ∧ q.WholeEntries := by
        intro p' hrun hperm hext' hwhole'
        have hlt' : ∀ x ∈ p'.offsets, x < raw.next := by
          intro x hx
          rcases List.mem_cons.mp (hperm.subset hx) with rfl | hx
          · exact hnext
          · exact Nat.lt_trans (hlt x hx) hnext
        have hnd' : p'.offsets.Nodup :=
          hperm.nodup_iff.mpr (List.nodup_cons.mpr ⟨fun hmem => Nat.lt_irrefl _ (hlt _ hmem), hnd⟩)
        obtain ⟨hq, hqext, hqwhole⟩ := readEntries_offsets hrun hlt' hnd' hwhole'
        exact ⟨hq, hqext.trans hext', hqwhole⟩
      dsimp only at hrest
      split at hrest
      · rename_i kind hkind
        refine step _ hrest (by simp [Decoded.offsets, List.perm_middle]) rfl ?_
        intro e he
        simp only [Array.toList_push, List.mem_append, List.mem_singleton] at he
        rcases he with he | rfl
        · exact hwhole e he
        · exact ⟨hbase kind hkind, rfl⟩
      all_goals
        refine step _ hrest ?_ rfl hwhole
        simp only [Decoded.offsets, List.map_append, List.map_cons, List.map_nil,
          ← List.append_assoc]
        exact List.perm_append_singleton _ _

/-- **A read pack gives each entry and each waiting delta its own offset**, has no outside
base, and holds whole objects of base kinds. -/
theorem read_offsets {data : Bytes} {r : Decoded} (h : read data = .ok r) :
    r.offsets.Nodup ∧ r.external = [] ∧ r.WholeEntries := by
  unfold read at h
  obtain ⟨header, -, h⟩ := Except.bind_eq_ok.mp h
  dsimp only at h
  split at h
  · simp [throw, throwThe, MonadExceptOf.throw, bind, Except.bind] at h
  split at h
  · simp [throw, throwThe, MonadExceptOf.throw, bind, Except.bind] at h
  obtain ⟨sig, -, h⟩ := Except.bind_eq_ok.mp h
  obtain ⟨⟨p, off⟩, hentries, h⟩ := Except.bind_eq_ok.mp h
  dsimp only at h
  split at h
  · simp [throw, throwThe, MonadExceptOf.throw, bind, Except.bind] at h
  cases h
  exact readEntries_offsets hentries (by simp [Decoded.offsets]) (by simp [Decoded.offsets])
    (by simp [Decoded.WholeEntries])

/-! ## One object per delta, and nothing rooted left waiting -/

/-- Two references by one base reference agree on the offset, or on the id. -/
theorem BaseRef.Names.agree {ref : BaseRef} {pos pos' : Nat} {b b' : GitObject}
    (h : ref.Names pos b) (h' : ref.Names pos' b') : pos = pos' ∨ b.id = b'.id := by
  cases ref with
  | offset at_ => exact .inl (h.trans h'.symm)
  | id base => exact .inr (h.trans h'.symm)

section Unique

variable {r : Decoded} {ext : List GitObject}

theorem Reachable.ofEntry {e : PackEntry} (he : e ∈ r.entries.toList) :
    Reachable r ext e.object := .inl ⟨e, he, rfl⟩

theorem Reachable.ofRebuilds {d : PendingDelta} {o : GitObject} (h : Rebuilds r ext d o) :
    Reachable r ext o := .inr (.inr ⟨d, h⟩)

theorem Reachable.ofExternal {o : GitObject} (ho : o ∈ ext) : Reachable r ext o := .inr (.inl ho)

/-- The base of a delta that rebuilds something: where it is found, and what it gives. -/
theorem Rebuilds.base {d : PendingDelta} {o : GitObject} (h : Rebuilds r ext d o) :
    ∃ b data, d.base.Source r ext b ∧ Delta.apply b.data d.delta = .ok data ∧
      o = .ofContent b.kind data := by
  cases h with
  | onEntry _ he hn happly => exact ⟨_, _, .inl ⟨_, he, hn, rfl⟩, happly, rfl⟩
  | onDelta _ hreb hn happly => exact ⟨_, _, .inr (.inl ⟨_, hreb, hn⟩), happly, rfl⟩
  | onExternal _ ho hid happly => exact ⟨_, _, .inr (.inr ⟨_, ho, hid, rfl⟩), happly, rfl⟩

theorem rebuilt_eq {b b' : GitObject} {δ data data' : Bytes} (hb : b = b')
    (h : Delta.apply b.data δ = .ok data) (h' : Delta.apply b'.data δ = .ok data') :
    GitObject.ofContent b.kind data = .ofContent b'.kind data' := by
  subst hb
  rw [h] at h'
  cases h'
  rfl

variable (hoff : r.offsets.Nodup) (hcf : CollisionFree r ext)
include hoff

theorem entry_eq_of_offset {e e' : PackEntry} (he : e ∈ r.entries.toList)
    (he' : e' ∈ r.entries.toList) (h : e.offset = e'.offset) : e = e' :=
  List.inj_on_of_nodup_map (List.nodup_append.mp hoff).1 he he' h

theorem delta_eq_of_offset {d d' : PendingDelta} (hd : d ∈ r.pending) (hd' : d' ∈ r.pending)
    (h : d.offset = d'.offset) : d = d' :=
  List.inj_on_of_nodup_map (List.nodup_append.mp hoff).2.1 hd hd' h

theorem entry_offset_ne {e : PackEntry} {d : PendingDelta} (he : e ∈ r.entries.toList)
    (hd : d ∈ r.pending) : e.offset ≠ d.offset :=
  (List.nodup_append.mp hoff).2.2 _ (List.mem_map_of_mem he) _ (List.mem_map_of_mem hd)

include hcf

/-- A base found as a whole object of the pack is the one the reference finds. -/
theorem BaseRef.Source.eq_of_entry {ref : BaseRef} {e : PackEntry} {b' : GitObject}
    (he : e ∈ r.entries.toList) (hn : ref.Names e.offset e.object) (hb' : ref.Source r ext b') :
    e.object = b' := by
  rcases hb' with ⟨e', he', hn', rfl⟩ | ⟨d'', hreb', hn'⟩ | ⟨o'', ho'', hid', rfl⟩
  · rcases hn.agree hn' with hpos | hid
    · rw [entry_eq_of_offset hoff he he' hpos]
    · exact hcf _ _ (.ofEntry he) (.ofEntry he') hid
  · rcases hn.agree hn' with hpos | hid
    · exact absurd hpos (entry_offset_ne hoff he hreb'.mem_pending)
    · exact hcf _ _ (.ofEntry he) (.ofRebuilds hreb') hid
  · rw [hid'] at hn
    exact hcf _ _ (.ofEntry he) (.ofExternal ho'') hn

omit hoff in
/-- A base found as an outside base is the one the reference finds. -/
theorem BaseRef.Source.eq_of_external {ref : BaseRef} {o b' : GitObject} (ho : o ∈ ext)
    (hid : ref = .id o.id) (hb' : ref.Source r ext b') : o = b' := by
  rcases hb' with ⟨e', he', hn', rfl⟩ | ⟨d'', hreb', hn'⟩ | ⟨o'', ho'', hid', rfl⟩
  · rw [hid] at hn'
    exact hcf _ _ (.ofExternal ho) (.ofEntry he') hn'.symm
  · rw [hid] at hn'
    exact hcf _ _ (.ofExternal ho) (.ofRebuilds hreb') hn'.symm
  · rw [hid] at hid'
    exact hcf _ _ (.ofExternal ho) (.ofExternal ho'') (BaseRef.id.inj hid')

/-- A base rebuilt by a delta that rebuilds one object only is the one the reference
finds. -/
theorem BaseRef.Source.eq_of_delta {ref : BaseRef} {d' : PendingDelta} {b b' : GitObject}
    (hreb : Rebuilds r ext d' b) (hn : ref.Names d'.offset b)
    (honly : ∀ {o'}, Rebuilds r ext d' o' → b = o') (hb' : ref.Source r ext b') : b = b' := by
  rcases hb' with ⟨e', he', hn', rfl⟩ | ⟨d'', hreb', hn'⟩ | ⟨o'', ho'', hid', rfl⟩
  · rcases hn.agree hn' with hpos | hid
    · exact absurd hpos.symm (entry_offset_ne hoff he' hreb.mem_pending)
    · exact hcf _ _ (.ofRebuilds hreb) (.ofEntry he') hid
  · rcases hn.agree hn' with hpos | hid
    · -- the same offset is the same delta
      rw [← delta_eq_of_offset hoff hreb.mem_pending hreb'.mem_pending hpos] at hreb'
      exact honly hreb'
    · exact hcf _ _ (.ofRebuilds hreb) (.ofRebuilds hreb') hid
  · rw [hid'] at hn
    exact hcf _ _ (.ofRebuilds hreb) (.ofExternal ho'') hn

/-- **A delta rebuilds at most one object**: its base is at one offset of the pack, or it is
the one object meeting resolution with that id; by induction, the base delta of a delta
rebuilds one object too. -/
theorem Rebuilds.unique {d : PendingDelta} {o : GitObject} (h : Rebuilds r ext d o) :
    ∀ {o'}, Rebuilds r ext d o' → o = o' := by
  induction h with
  | onEntry _ he hn happly =>
    intro o' h'
    obtain ⟨b', data', hsrc, happly', rfl⟩ := h'.base
    exact rebuilt_eq (BaseRef.Source.eq_of_entry hoff hcf he hn hsrc) happly happly'
  | onDelta _ hreb hn happly ih =>
    intro o' h'
    obtain ⟨b', data', hsrc, happly', rfl⟩ := h'.base
    exact rebuilt_eq (BaseRef.Source.eq_of_delta hoff hcf hreb hn ih hsrc) happly happly'
  | onExternal _ ho hid happly =>
    intro o' h'
    obtain ⟨b', data', hsrc, happly', rfl⟩ := h'.base
    exact rebuilt_eq (BaseRef.Source.eq_of_external hcf ho hid hsrc) happly happly'

/-- **A base reference finds at most one object.** -/
theorem BaseRef.Source.unique {ref : BaseRef} {b b' : GitObject} (hb : ref.Source r ext b)
    (hb' : ref.Source r ext b') : b = b' := by
  rcases hb with ⟨e, he, hn, rfl⟩ | ⟨d', hreb, hn⟩ | ⟨o, ho, hid, rfl⟩
  · exact BaseRef.Source.eq_of_entry hoff hcf he hn hb'
  · exact BaseRef.Source.eq_of_delta hoff hcf hreb hn (Rebuilds.unique hoff hcf hreb) hb'
  · exact BaseRef.Source.eq_of_external hcf ho hid hb'

end Unique

namespace Tracks

variable {r : Decoded} {ext : List GitObject} {res : List (PendingDelta × PackEntry)}
  {q : Decoded}

/-- A delta of the pack is resolved or waiting. -/
theorem resolved_or_waiting (h : Tracks r ext res [] q) {d : PendingDelta} (hd : d ∈ r.pending) :
    (∃ x ∈ res, x.1 = d) ∨ d ∈ q.pending := by
  have hmem := h.perm.subset hd
  simp only [List.append_nil, List.mem_append, List.mem_map] at hmem
  exact hmem

/-- No delta is both resolved and waiting. -/
theorem not_resolved_of_waiting (h : Tracks r ext res [] q) (hoff : r.offsets.Nodup)
    {d : PendingDelta} (hd : d ∈ q.pending) : ¬ ∃ x ∈ res, x.1 = d := by
  rintro ⟨x, hx, rfl⟩
  have hnd : (res.map (·.1) ++ q.pending).Nodup := by
    have hpending : r.pending.Nodup := (List.nodup_append.mp hoff).2.1.of_map _
    simpa using h.perm.nodup_iff.mp hpending
  exact (List.nodup_append.mp hnd).2.2 _ (List.mem_map_of_mem hx) _ hd rfl

/-- In a settled state whose outside bases cover `ext`, no waiting delta names one of them. -/
theorem waiting_ne_of_cover (hs : q.Settled) (hcov : ∀ x ∈ ext, ∃ y ∈ q.external, y.id = x.id) :
    ∀ d ∈ q.pending, ∀ o ∈ ext, d.base ≠ .id o.id := by
  intro d hd o ho hid
  obtain ⟨y, hy, hyid⟩ := hcov o ho
  have hsome := Decoded.lookup_isSome_of_external hy
  rw [hyid, ← hid, hs d hd] at hsome
  simp at hsome

variable (h : Tracks r ext res [] q) (hs : q.Settled)
  (hwait : ∀ d ∈ q.pending, ∀ o ∈ ext, d.base ≠ .id o.id) (hoff : r.offsets.Nodup)
  (hcf : CollisionFree r ext)
include h hs hwait hoff hcf

/-- **Nothing rooted is left waiting**: in a settled state where no waiting delta names an
outside base, every delta that rebuilds something has been resolved. -/
theorem resolved_of_rebuilds {d : PendingDelta} {o : GitObject} (hreb : Rebuilds r ext d o) :
    ∃ x ∈ res, x.1 = d := by
  -- a delta not resolved waits, so its base is not looked up
  have waiting : ∀ {d : PendingDelta}, d ∈ r.pending → ¬ (∃ x ∈ res, x.1 = d) →
      q.lookup d.base = none := fun hd hnot =>
    hs _ ((h.resolved_or_waiting hd).resolve_left hnot)
  induction hreb with
  | @onEntry d e data hd he hn _ =>
    refine Classical.byContradiction fun hnot => ?_
    have hmem : e ∈ q.entries.toList := by rw [h.entries]; exact List.mem_append_left _ he
    have hsome := Decoded.lookup_isSome_of_entry hmem hn
    simp [waiting hd hnot] at hsome
  | @onDelta d d' b data hd hreb hn _ ih =>
    refine Classical.byContradiction fun hnot => ?_
    obtain ⟨x, hx, rfl⟩ := ih
    obtain ⟨hoffx, hrebx⟩ := h.rebuilt x hx
    -- the entry of the base delta holds the very base, which is found there
    have hobj := Rebuilds.unique hoff hcf hrebx hreb
    have hmem : x.2 ∈ q.entries.toList := by
      rw [h.entries]; exact List.mem_append_right _ (List.mem_map_of_mem hx)
    have hn' : d.base.Names x.2.offset x.2.object := by rw [hoffx, hobj]; exact hn
    have hsome := Decoded.lookup_isSome_of_entry hmem hn'
    simp [waiting hd hnot] at hsome
  | onExternal hd ho hid _ =>
    refine Classical.byContradiction fun hnot => ?_
    exact hwait _ ((h.resolved_or_waiting hd).resolve_left hnot) _ ho hid

/-- **The resolved deltas are exactly those that rebuild something**, each with the object
it rebuilds. -/
theorem mem_resolved_iff {d : PendingDelta} {o : GitObject} :
    (∃ x ∈ res, x.1 = d ∧ x.2.object = o) ↔ Rebuilds r ext d o := by
  constructor
  · rintro ⟨x, hx, rfl, rfl⟩
    exact (h.rebuilt x hx).2
  · intro hreb
    obtain ⟨x, hx, rfl⟩ := h.resolved_of_rebuilds hs hwait hoff hcf hreb
    exact ⟨x, hx, rfl, Rebuilds.unique hoff hcf (h.rebuilt x hx).2 hreb⟩

/-- **Nothing waits exactly when every delta is rooted.** -/
theorem isComplete_iff : q.isComplete ↔ ∀ d ∈ r.pending, ∃ o, Rebuilds r ext d o := by
  constructor
  · intro hc d hd
    have hnil : q.pending = [] := by simpa [Decoded.isComplete] using hc
    obtain ⟨x, hx, rfl⟩ := (h.resolved_or_waiting hd).resolve_right (by simp [hnil])
    exact ⟨_, (h.rebuilt x hx).2⟩
  · intro hall
    cases hq : q.pending with
    | nil => simp [Decoded.isComplete, hq]
    | cons d ds =>
      have hd : d ∈ q.pending := by simp [hq]
      obtain ⟨o, hreb⟩ := hall d (h.perm.symm.subset (by simp [hd]))
      exact absurd (h.resolved_of_rebuilds hs hwait hoff hcf hreb)
        (h.not_resolved_of_waiting hoff hd)

end Tracks

/-! ## Missing bases -/

/-- The byte-wise order is the lexicographic order of the byte lists. -/
theorem Bytes.compare_eq_compareLex :
    ∀ a b : Bytes, Bytes.compare a b = List.compareLex compare a b
  | [], [] => rfl
  | [], _ :: _ => rfl
  | _ :: _, [] => rfl
  | x :: xs, y :: ys => by
    rw [Bytes.compare, List.compareLex_cons_cons, ← Bytes.compare_eq_compareLex xs ys]
    cases compare x y <;> rfl

theorem ObjectId.lt_trans {a b c : ObjectId} (hab : a.lt b) (hbc : b.lt c) : a.lt c := by
  simp only [ObjectId.lt, beq_iff_eq, Bytes.compare_eq_compareLex] at *
  exact Std.TransCmp.lt_trans hab hbc

namespace Decoded

theorem mem_insertId {i x : ObjectId} :
    ∀ {l : List ObjectId}, x ∈ insertId i l ↔ x = i ∨ x ∈ l
  | [] => by simp [insertId]
  | y :: l => by
    rw [insertId]
    split
    · simp
    · rename_i heq
      -- an id comparing equal to one already there is that one
      have hiy : i = y := by
        rw [Bytes.compare_eq_compareLex] at heq
        cases i; cases y
        simpa using Std.LawfulEqCmp.compare_eq_iff_eq.mp heq
      subst hiy
      simp
    · simp only [List.mem_cons, mem_insertId]
      tauto

theorem pairwise_insertId {i : ObjectId} :
    ∀ {l : List ObjectId}, l.Pairwise (fun a b => a.lt b) →
      (insertId i l).Pairwise (fun a b => a.lt b)
  | [], _ => by simp [insertId]
  | y :: l, h => by
    rw [insertId]
    have hy := List.pairwise_cons.mp h
    split
    · rename_i hlt
      have hiy : i.lt y := by simp [ObjectId.lt, hlt]
      refine List.pairwise_cons.mpr ⟨?_, h⟩
      intro z hz
      rcases List.mem_cons.mp hz with rfl | hz
      · exact hiy
      · exact ObjectId.lt_trans hiy (hy.1 z hz)
    · exact h
    · rename_i hgt
      have hyi : y.lt i := by
        simp only [ObjectId.lt, beq_iff_eq, Bytes.compare_eq_compareLex] at hgt ⊢
        exact Std.OrientedCmp.gt_iff_lt.mp hgt
      refine List.pairwise_cons.mpr ⟨?_, pairwise_insertId hy.2⟩
      intro z hz
      rcases mem_insertId.mp hz with rfl | hz
      · exact hyi
      · exact hy.1 z hz

/-- **The missing bases are the ids that waiting deltas name and nobody has, ascending and
each once.** -/
theorem missingBases_spec (p : Decoded) :
    p.missingBases.Pairwise (fun a b => a.lt b) ∧
    ∀ i, i ∈ p.missingBases ↔ ∃ d ∈ p.pending, d.base = .id i ∧
      (∀ e ∈ p.entries.toList, e.object.id ≠ i) ∧ ∀ o ∈ p.external, o.id ≠ i := by
  -- the fold over the waiting deltas keeps its list ascending and adds exactly the ids missing
  have fold : ∀ (l : List PendingDelta) (acc : List ObjectId),
      acc.Pairwise (fun a b => a.lt b) →
      (l.foldl p.noteMissing acc).Pairwise (fun a b => a.lt b) ∧
        ∀ i, i ∈ l.foldl p.noteMissing acc ↔
          i ∈ acc ∨ ∃ d ∈ l, d.base = .id i ∧ p.lookup (.id i) = none := by
    intro l
    induction l with
    | nil => intro acc hacc; simpa using hacc
    | cons d l ih =>
      intro acc hacc
      rw [List.foldl_cons]
      cases hbase : d.base with
      | offset at_ =>
        have hnote : p.noteMissing acc d = acc := by simp [noteMissing, hbase]
        obtain ⟨hsorted, hmem⟩ := ih acc hacc
        refine ⟨by rw [hnote]; exact hsorted, fun i => ?_⟩
        rw [hnote, hmem i]
        simp [hbase]
      | id base =>
        by_cases hfound : (p.lookup (.id base)).isSome
        · have hnote : p.noteMissing acc d = acc := by simp [noteMissing, hbase, hfound]
          obtain ⟨hsorted, hmem⟩ := ih acc hacc
          refine ⟨by rw [hnote]; exact hsorted, fun i => ?_⟩
          rw [hnote, hmem i]
          constructor
          · rintro (h | ⟨d', hd', h⟩)
            · exact .inl h
            · exact .inr ⟨d', List.mem_cons_of_mem d hd', h⟩
          · rintro (h | ⟨d', hd', hid, hnone⟩)
            · exact .inl h
            · rcases List.mem_cons.mp hd' with rfl | hd'
              · rw [hbase, BaseRef.id.injEq] at hid
                subst hid
                simp [hnone] at hfound
              · exact .inr ⟨d', hd', hid, hnone⟩
        · have hnote : p.noteMissing acc d = insertId base acc := by
            simp [noteMissing, hbase, hfound]
          obtain ⟨hsorted, hmem⟩ := ih (insertId base acc) (pairwise_insertId hacc)
          refine ⟨by rw [hnote]; exact hsorted, fun i => ?_⟩
          rw [hnote, hmem i, mem_insertId]
          have hnone : p.lookup (.id base) = none := by simpa using hfound
          constructor
          · rintro ((rfl | h) | ⟨d', hd', h⟩)
            · exact .inr ⟨d, List.mem_cons_self, hbase, hnone⟩
            · exact .inl h
            · exact .inr ⟨d', List.mem_cons_of_mem d hd', h⟩
          · rintro (h | ⟨d', hd', hid, hnone'⟩)
            · exact .inl (.inr h)
            · rcases List.mem_cons.mp hd' with rfl | hd'
              · rw [hbase, BaseRef.id.injEq] at hid
                exact .inl (.inl hid.symm)
              · exact .inr ⟨d', hd', hid, hnone'⟩
  obtain ⟨hsorted, hmem⟩ := fold p.pending [] List.Pairwise.nil
  refine ⟨hsorted, fun i => ?_⟩
  rw [missingBases, hmem i]
  simp [lookup_id_eq_none]

end Decoded

/-! ## The order outside bases come in -/

theorem Decoded.ensureComplete_eq_ok_iff (p : Decoded) :
    p.ensureComplete = .ok () ↔ p.isComplete := by
  unfold Decoded.ensureComplete Decoded.isComplete
  cases p.pending <;> simp

/-- Only which outside bases there are matters, not how often or in which order. -/
theorem Rebuilds.mono {r : Decoded} {ext ext' : List GitObject} (hsub : ∀ o ∈ ext, o ∈ ext')
    {d : PendingDelta} {o : GitObject} (h : Rebuilds r ext d o) : Rebuilds r ext' d o := by
  induction h with
  | onEntry hd he hn happly => exact .onEntry hd he hn happly
  | onDelta hd _ hn happly ih => exact .onDelta hd ih hn happly
  | onExternal hd ho hid happly => exact .onExternal hd (hsub _ ho) hid happly

namespace Tracks

variable {r : Decoded} {ext : List GitObject} {res : List (PendingDelta × PackEntry)}
  {q : Decoded}

theorem mono {ext' : List GitObject} (h : Tracks r ext res [] q)
    (hsame : ∀ o, o ∈ ext ↔ o ∈ ext') : Tracks r ext' res [] q :=
  ⟨h.entries, h.perm, fun x hx => ⟨(h.rebuilt x hx).1,
    Rebuilds.mono (fun o ho => (hsame o).mp ho) (h.rebuilt x hx).2⟩,
    fun o ho => (hsame o).mp (h.external o ho)⟩

theorem resolved_nodup (h : Tracks r ext res [] q) (hoff : r.offsets.Nodup) :
    (res.map (fun x => (x.1, x.2.object))).Nodup := by
  have hpending : r.pending.Nodup := (List.nodup_append.mp hoff).2.1.of_map _
  have hnd : (res.map (·.1) ++ q.pending).Nodup := by
    simpa using h.perm.nodup_iff.mp hpending
  have hfst : ((res.map (fun x => (x.1, x.2.object))).map Prod.fst).Nodup := by
    rw [List.map_map]
    exact (List.nodup_append.mp hnd).1
  exact hfst.of_map _

/-- **The objects a settled state holds do not depend on how it was reached**: two settled
states over the same pack and the same outside bases, each base supplied, hold the same
objects, as many times each. -/
theorem objects_perm {res' : List (PendingDelta × PackEntry)} {q' : Decoded}
    (h : Tracks r ext res [] q) (hs : q.Settled)
    (hwait : ∀ d ∈ q.pending, ∀ o ∈ ext, d.base ≠ .id o.id)
    (h' : Tracks r ext res' [] q') (hs' : q'.Settled)
    (hwait' : ∀ d ∈ q'.pending, ∀ o ∈ ext, d.base ≠ .id o.id)
    (hoff : r.offsets.Nodup) (hcf : CollisionFree r ext) :
    (q.entries.toList.map (·.object)).Perm (q'.entries.toList.map (·.object)) := by
  -- both resolved lists pair each rooted delta with the object it rebuilds
  have hpairs : (res.map (fun x => (x.1, x.2.object))).Perm
      (res'.map (fun x => (x.1, x.2.object))) := by
    refine (List.perm_ext_iff_of_nodup (h.resolved_nodup hoff) (h'.resolved_nodup hoff)).mpr ?_
    rintro ⟨d, o⟩
    have hiff : (∃ x ∈ res, x.1 = d ∧ x.2.object = o) ↔ ∃ x ∈ res', x.1 = d ∧ x.2.object = o :=
      (h.mem_resolved_iff hs hwait hoff hcf).trans (h'.mem_resolved_iff hs' hwait' hoff hcf).symm
    simpa using hiff
  rw [h.entries, h'.entries, List.map_append, List.map_append]
  refine List.Perm.append_left _ ?_
  have hobjs := hpairs.map Prod.snd
  rw [List.map_map, List.map_map] at hobjs ⊢
  exact hobjs

end Tracks

/-! ## Decoding, then supplying outside bases -/

/-- What decoding a pack and then supplying outside bases, none failing, reaches: a settled
state tracked over the read pack, every base supplied. -/
theorem decode_addExternal_tracks {data : Bytes} {r p₀ p : Decoded} {exts : List GitObject}
    (hread : read data = .ok r) (hdec : decode data = .ok p₀)
    (hext : exts.foldlM Decoded.addExternal p₀ = .ok p) :
    ∃ res, r.offsets.Nodup ∧ Tracks r exts res [] p ∧ p.Settled ∧
      ∀ x ∈ exts, ∃ y ∈ p.external, y.id = x.id := by
  have hsettle : r.settle = .ok p₀ := by
    simpa [decode, hread, bind, Except.bind] using hdec
  obtain ⟨hoff, hnoext, -⟩ := read_offsets hread
  have hstart : Tracks r exts [] [] r :=
    ⟨by simp, by simp, by simp, by simp [hnoext]⟩
  obtain ⟨res₀, h₀, hext₀⟩ := hstart.settle hsettle
  obtain ⟨res, h, hs, hcov⟩ := h₀.foldlM_addExternal (Decoded.settle_settled hsettle)
    (fun o ho => ho) hext
  refine ⟨res, hoff, h, hs, fun x hx => hcov x ?_⟩
  simpa [hext₀, hnoext] using hx

/-- **Decoding resolves deltas to their fixpoint.** After a pack is decoded and outside bases
are supplied, none failing, its entries are its whole objects in pack order followed by one
entry for each delta of `res`, each with its own offset and the object the delta rebuilds, of
the kind its chain starts at; every delta is resolved or waits, not both; the missing bases
are the ids waiting deltas name that nobody has, ascending. When no two objects met share an
id, the resolved deltas are exactly those that rebuild something, the pack is complete
exactly when every delta does, and supplying the same bases in another order ends with the
same objects. -/
theorem decode_resolves_to_fixpoint {data : Bytes} {r p₀ p : Decoded} {exts : List GitObject}
    (hread : read data = .ok r) (hdec : decode data = .ok p₀)
    (hext : exts.foldlM Decoded.addExternal p₀ = .ok p) :
    ∃ res : List (PendingDelta × PackEntry),
      p.entries.toList = r.entries.toList ++ res.map (·.2) ∧
      r.pending.Perm (res.map (·.1) ++ p.pending) ∧
      (∀ x ∈ res, x.2.offset = x.1.offset ∧ Rebuilds r exts x.1 x.2.object ∧
        ∃ root, ((∃ e ∈ r.entries.toList, e.object = root) ∨ root ∈ exts) ∧
          x.2.object.kind = root.kind) ∧
      (p.missingBases.Pairwise (fun a b => a.lt b) ∧
        ∀ i, i ∈ p.missingBases ↔ ∃ d ∈ p.pending, d.base = .id i ∧
          (∀ e ∈ p.entries.toList, e.object.id ≠ i) ∧ ∀ o ∈ p.external, o.id ≠ i) ∧
      (CollisionFree r exts →
        (∀ d o, (∃ x ∈ res, x.1 = d ∧ x.2.object = o) ↔ Rebuilds r exts d o) ∧
        (p.isComplete ↔ ∀ d ∈ r.pending, ∃ o, Rebuilds r exts d o) ∧
        (p.ensureComplete = .ok () ↔ ∀ d ∈ r.pending, ∃ o, Rebuilds r exts d o) ∧
        ∀ (exts' : List GitObject) (p' : Decoded), (∀ o, o ∈ exts' ↔ o ∈ exts) →
          exts'.foldlM Decoded.addExternal p₀ = .ok p' →
            (p'.entries.toList.map (·.object)).Perm (p.entries.toList.map (·.object))) := by
  obtain ⟨res, hoff, h, hs, hcov⟩ := decode_addExternal_tracks hread hdec hext
  refine ⟨res, h.entries, by simpa using h.perm, fun x hx => ?_,
    Decoded.missingBases_spec p, fun hcf => ?_⟩
  · obtain ⟨hoffx, hreb⟩ := h.rebuilt x hx
    exact ⟨hoffx, hreb, hreb.root⟩
  · have hwait := Tracks.waiting_ne_of_cover hs hcov
    have hcomplete := h.isComplete_iff hs hwait hoff hcf
    refine ⟨fun d o => h.mem_resolved_iff hs hwait hoff hcf, hcomplete,
      (Decoded.ensureComplete_eq_ok_iff p).trans hcomplete, fun exts' p' hsame hext' => ?_⟩
    -- the other order is tracked over the read pack as well, with the same bases
    obtain ⟨res', -, h', hs', hcov'⟩ := decode_addExternal_tracks hread hdec hext'
    have hcov'' : ∀ x ∈ exts, ∃ y ∈ p'.external, y.id = x.id :=
      fun x hx => hcov' x ((hsame x).mpr hx)
    exact (h'.mono hsame).objects_perm hs' (Tracks.waiting_ne_of_cover hs' hcov'') h hs hwait
      hoff hcf

/-- A thin pack of three entries: the blob "abc" at offset 12, a delta by offset on it giving
"abcd" at offset 27, and a delta by id on the blob "xyz", not in the pack, giving "xyz!" at
offset 46. -/
def thinPack : Bytes :=
  [80, 65, 67, 75, 0, 0, 0, 2, 0, 0, 0, 3, 51, 120, 1, 1, 3, 0, 252, 255, 97, 98, 99, 2, 77, 1,
    39, 102, 15, 120, 1, 1, 6, 0, 249, 255, 3, 4, 144, 3, 1, 100, 2, 219, 1, 0, 118, 214, 109,
    157, 117, 143, 116, 224, 132, 157, 126, 11, 154, 57, 220, 242, 155, 7, 23, 145, 36, 120, 1,
    1, 6, 0, 249, 255, 3, 4, 144, 3, 1, 33, 2, 152, 0, 189, 77, 142, 231, 160, 124, 49, 142, 254,
    175, 107, 126, 4, 92, 42, 215, 81, 40, 243, 236, 33]

/-- The blob "xyz" that the thin pack's second delta is against. -/
def outsideBlob : GitObject := .ofContent .blob [120, 121, 122]

/-- The id of the outside blob, as the thin pack names it. -/
def outsideId : ObjectId :=
  ⟨[214, 109, 157, 117, 143, 116, 224, 132, 157, 126, 11, 154, 57, 220, 242, 155, 7, 23, 145, 36],
    rfl⟩

/-- The thin pack as read: its blob, and its two deltas waiting. -/
def thinPackRead : Decoded :=
  ⟨3, ⟨[77, 142, 231, 160, 124, 49, 142, 254, 175, 107, 126, 4, 92, 42, 215, 81, 40, 243, 236,
      33], rfl⟩,
    #[⟨12, .ofContent .blob [97, 98, 99], 0⟩], [],
    [⟨27, .offset 12, [3, 4, 144, 3, 1, 100]⟩,
      ⟨46, .id outsideId, [3, 4, 144, 3, 1, 33]⟩]⟩

/-- The thin pack decoded: the delta by offset resolved, the one by id waiting. -/
def thinPackDecoded : Decoded :=
  { thinPackRead with
    entries := thinPackRead.entries.push ⟨27, .ofContent .blob [97, 98, 99, 100], 1⟩,
    pending := thinPackRead.pending.drop 1 }

/-- The thin pack completed by the outside blob. -/
def thinPackCompleted : Decoded :=
  { thinPackDecoded with
    entries := thinPackDecoded.entries.push ⟨46, .ofContent .blob [120, 121, 122, 33], 1⟩,
    external := [outsideBlob], pending := [] }

/-- Everything the thin pack's example computes, evaluated together: the read, the round that
resolves the delta by offset, the outside blob added, the two deltas applied, and the ids of the
objects met. The lemmas below take their parts, so that the inflation and the hashing are run
once. -/
theorem thinPack_evaluation :
    (read thinPack).toOption = some thinPackRead ∧
    thinPackRead.settle.toOption = some thinPackDecoded ∧
    (thinPackDecoded.addExternal outsideBlob).toOption = some thinPackCompleted ∧
    (Delta.apply [97, 98, 99] [3, 4, 144, 3, 1, 100]).toOption = some [97, 98, 99, 100] ∧
    (Delta.apply [120, 121, 122] [3, 4, 144, 3, 1, 33]).toOption = some [120, 121, 122, 33] ∧
    (∀ o ∈ [GitObject.ofContent .blob [97, 98, 99], .ofContent .blob [97, 98, 99, 100],
      .ofContent .blob [120, 121, 122, 33]], o.id ≠ outsideId) ∧
    ([GitObject.ofContent .blob [97, 98, 99], outsideBlob, .ofContent .blob [97, 98, 99, 100],
      .ofContent .blob [120, 121, 122, 33]].map (·.id)).Nodup := by
  decide +kernel

theorem read_thinPack : read thinPack = .ok thinPackRead :=
  Except.eq_ok_of_toOption thinPack_evaluation.1

theorem decode_thinPack : decode thinPack = .ok thinPackDecoded := by
  have hsettle : thinPackRead.settle = .ok thinPackDecoded :=
    Except.eq_ok_of_toOption thinPack_evaluation.2.1
  simp only [decode, read_thinPack, bind, Except.bind, hsettle]

theorem addExternal_thinPack :
    [outsideBlob].foldlM Decoded.addExternal thinPackDecoded = .ok thinPackCompleted := by
  have hadd : thinPackDecoded.addExternal outsideBlob = .ok thinPackCompleted :=
    Except.eq_ok_of_toOption thinPack_evaluation.2.2.1
  simp [hadd]

/-- The two deltas of the thin pack rebuild "abcd" and "xyz!", and nothing else. -/
theorem rebuilds_thinPack {d : PendingDelta} {o : GitObject}
    (h : Rebuilds thinPackRead [outsideBlob] d o) :
    o = .ofContent .blob [97, 98, 99, 100] ∨ o = .ofContent .blob [120, 121, 122, 33] := by
  obtain ⟨-, -, -, happly₁, happly₂, hids, -⟩ := thinPack_evaluation
  replace happly₁ := Except.eq_ok_of_toOption happly₁
  replace happly₂ := Except.eq_ok_of_toOption happly₂
  -- `hids`: no object of the pack, whole or rebuilt, has the outside blob's id
  induction h with
  | @onEntry d e data hd he hn happly =>
    simp only [thinPackRead, List.mem_cons, List.not_mem_nil, or_false, List.toList_toArray] at hd he
    subst he
    rcases hd with rfl | rfl <;> simp only [GitObject.data_ofContent, GitObject.kind_ofContent] at hn happly ⊢
    · rw [happly₁] at happly
      cases happly
      exact .inl rfl
    · exact absurd hn (hids _ (by simp))
  | @onDelta d d' b data hd hreb hn happly ih =>
    have hd' := hreb.mem_pending
    simp only [thinPackRead, List.mem_cons, List.not_mem_nil, or_false] at hd hd'
    rcases hd with rfl | rfl
    · rcases hd' with rfl | rfl <;> simp at hn
    · dsimp only at hn
      rcases ih with rfl | rfl <;> exact absurd hn (hids _ (by simp))
  | @onExternal d o' data hd ho hid happly =>
    simp only [thinPackRead, List.mem_cons, List.not_mem_nil, or_false] at hd ho
    subst ho
    rcases hd with rfl | rfl
    · cases hid
    · simp only [outsideBlob, GitObject.data_ofContent, GitObject.kind_ofContent] at happly ⊢
      rw [happly₂] at happly
      cases happly
      exact .inr rfl

/-- The objects the thin pack meets, with the outside blob supplied, have four different ids. -/
theorem collisionFree_thinPack : CollisionFree thinPackRead [outsideBlob] := by
  have hmem : ∀ o, Reachable thinPackRead [outsideBlob] o →
      o ∈ [.ofContent .blob [97, 98, 99], outsideBlob, .ofContent .blob [97, 98, 99, 100],
        .ofContent .blob [120, 121, 122, 33]] := by
    rintro o (⟨e, he, rfl⟩ | ho | ⟨d, hreb⟩)
    · simp only [thinPackRead, List.mem_cons, List.not_mem_nil, or_false,
        List.toList_toArray] at he
      subst he
      simp
    · simp only [List.mem_cons, List.not_mem_nil, or_false] at ho
      simp [ho]
    · rcases rebuilds_thinPack hreb with rfl | rfl <;> simp
  have hnodup := thinPack_evaluation.2.2.2.2.2.2
  intro a b ha hb hid
  exact List.inj_on_of_nodup_map hnodup (hmem a ha) (hmem b hb) hid

/-- The thin pack decoded and completed by the outside blob resolves to its fixpoint. -/
theorem thinPack_resolves_to_fixpoint :
    read thinPack = .ok thinPackRead ∧ decode thinPack = .ok thinPackDecoded ∧
    [outsideBlob].foldlM Decoded.addExternal thinPackDecoded = .ok thinPackCompleted ∧
    CollisionFree thinPackRead [outsideBlob] ∧
    ∃ res : List (PendingDelta × PackEntry),
      thinPackCompleted.entries.toList = thinPackRead.entries.toList ++ res.map (·.2) ∧
      thinPackRead.pending.Perm (res.map (·.1) ++ thinPackCompleted.pending) ∧
      (∀ x ∈ res, x.2.offset = x.1.offset ∧ Rebuilds thinPackRead [outsideBlob] x.1 x.2.object ∧
        ∃ root, ((∃ e ∈ thinPackRead.entries.toList, e.object = root) ∨ root ∈ [outsideBlob]) ∧
          x.2.object.kind = root.kind) ∧
      (thinPackCompleted.missingBases.Pairwise (fun a b => a.lt b) ∧
        ∀ i, i ∈ thinPackCompleted.missingBases ↔ ∃ d ∈ thinPackCompleted.pending,
          d.base = .id i ∧ (∀ e ∈ thinPackCompleted.entries.toList, e.object.id ≠ i) ∧
          ∀ o ∈ thinPackCompleted.external, o.id ≠ i) ∧
      (CollisionFree thinPackRead [outsideBlob] →
        (∀ d o, (∃ x ∈ res, x.1 = d ∧ x.2.object = o) ↔ Rebuilds thinPackRead [outsideBlob] d o) ∧
        (thinPackCompleted.isComplete ↔
          ∀ d ∈ thinPackRead.pending, ∃ o, Rebuilds thinPackRead [outsideBlob] d o) ∧
        (thinPackCompleted.ensureComplete = .ok () ↔
          ∀ d ∈ thinPackRead.pending, ∃ o, Rebuilds thinPackRead [outsideBlob] d o) ∧
        ∀ (exts' : List GitObject) (p' : Decoded), (∀ o, o ∈ exts' ↔ o ∈ [outsideBlob]) →
          exts'.foldlM Decoded.addExternal thinPackDecoded = .ok p' →
            (p'.entries.toList.map (·.object)).Perm
              (thinPackCompleted.entries.toList.map (·.object))) :=
  ⟨read_thinPack, decode_thinPack, addExternal_thinPack, collisionFree_thinPack,
    decode_resolves_to_fixpoint read_thinPack decode_thinPack addExternal_thinPack⟩

end GitServer.Pack
