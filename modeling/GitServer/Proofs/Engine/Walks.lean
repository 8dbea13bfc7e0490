import GitServer.Proofs.Engine.ObjectGraph
import Mathlib

/-!
# What the walks of a fetch find

Over storage that does not fail, both walks of a fetch answer and change nothing.

The walk from the client's commits sees exactly the ids they reach (`reachable_run`), provided
each object it reads parses and each link it is told is a blob is one where stored: it does
not look into a blob, so a tree entry whose mode says blob over a tree would hide that tree's
contents. The walk from the wants, kept clear of a set of excluded ids, reads exactly the
objects the wants reach outside that set, each once (`collectFrom_run`). Together, with the
commits the client has as the excluded set's roots, a fetch without tags sends every object
the wants reach and the client's commits do not, each once (`collect_run`).

Each proof follows its walk round by round: a round passes over entries already taken
(`beyond_dropWhile`) and takes the next one (`beyond_visit`). No round is wasted, as each takes
a new id, so `walkBound` rounds are enough to use up the stack.
-/

namespace GitServer

namespace Engine

open Storage

/-- The entry a round takes is on the stack and is not passed over. -/
theorem dropWhile_eq_cons {α : Type} {p : α → Bool} {entries rest : List α} {e : α}
    (h : entries.dropWhile p = e :: rest) : e ∈ entries ∧ p e = false := by
  refine ⟨(List.dropWhile_suffix p).subset (h ▸ List.mem_cons_self), ?_⟩
  have hhead := List.head_dropWhile_not p (l := entries) (by simp [h])
  simpa [h] using hhead

/-! ## Reading an object's links -/

/-- The walk from the wants reads an object's links, in order. -/
theorem run_sentChildren {o : GitObject} {ls : List (ObjectId × ObjectKind)}
    (h : o.links? = .ok ls) (s : Storage) :
    (sentChildren o).run.run s = (.ok (ls.map Prod.fst), s) := by
  unfold GitObject.links? at h
  unfold sentChildren
  cases hk : o.kind <;> simp only [hk] at h ⊢
  case commit =>
    obtain ⟨c, hc, rfl⟩ := Except.map_eq_ok.mp h
    simp [parsedObject, parsed, hc, List.map_map, Function.comp_def]
    rfl
  case tree =>
    obtain ⟨t, ht, rfl⟩ := Except.map_eq_ok.mp h
    simp [parsedObject, parsed, ht, List.map_map, Function.comp_def]
    rfl
  case tag =>
    obtain ⟨t, ht, rfl⟩ := Except.map_eq_ok.mp h
    simp [parsedObject, parsed, ht]
    rfl
  -- a blob or a delta links nowhere
  all_goals
    cases h
    rfl

/-- The walk from the client's commits reads an object's links last first, each with the kind
it is named as. -/
theorem run_reachableChildren {o : GitObject} {ls : List (ObjectId × ObjectKind)}
    (h : o.links? = .ok ls) (s : Storage) :
    (reachableChildren o).run.run s = (.ok (ls.reverse.map fun l => (l.1, some l.2)), s) := by
  unfold GitObject.links? at h
  unfold reachableChildren
  cases hk : o.kind <;> simp only [hk] at h ⊢
  case commit =>
    obtain ⟨c, hc, rfl⟩ := Except.map_eq_ok.mp h
    simp [parsedObject, parsed, hc, List.map_reverse, List.map_map, Function.comp_def]
    rfl
  case tree =>
    obtain ⟨t, ht, rfl⟩ := Except.map_eq_ok.mp h
    simp [parsedObject, parsed, ht, List.map_reverse, List.map_map, Function.comp_def]
    rfl
  case tag =>
    obtain ⟨t, ht, rfl⟩ := Except.map_eq_ok.mp h
    simp [parsedObject, parsed, ht]
    rfl
  all_goals
    cases h
    rfl

/-! ## Reads of storage that does not fail -/

namespace Reliable

variable {n : RepoName} {Good : Storage → Prop} {s : Storage}
variable (hrel : Reliable n Good) (hs : Good s)
include hrel hs

theorem run_getObject {id : ObjectId} {o : GitObject} (h : objectAt n s id = some o) :
    (getObject n id).run.run s = (.ok o, s) :=
  run_store_of_ok (hrel.getObject_of_some hs h)

/-- A read that takes an absent object as none answers what storage holds. -/
theorem run_lookup (id : ObjectId) :
    (tryCatch (do pure (some (← getObject n id))) fun e =>
      match e with
      | .storage (.notFound _) => pure none
      | _ => throw e : EngineM (Option GitObject)).run.run s = (.ok (objectAt n s id), s) := by
  cases h : objectAt n s id with
  | none =>
    obtain ⟨msg, hread⟩ := hrel.getObject_of_none hs h
    exact run_tryCatch_of_error (run_bind_of_error (run_store_of_error hread))
  | some o => exact run_tryCatch_of_ok (run_bind_of_ok (run_getObject hrel hs h))

end Reliable

/-! ## The walk from the client's commits -/

section Walks

variable {n : RepoName} {Good : Storage → Prop} {s : Storage}
variable (hrel : Reliable n Good) (hs : Good s)
include hrel hs

/-- **One round of the walk from the client's commits.** The round takes the first entry not
seen yet and goes on with the entries of its links pushed: none when the entry is hinted as a
blob or nothing is stored under it. What it pushes are the links of what is stored there, and
those hinted as blobs are blobs where stored. -/
theorem reachableFrom_round (fuel : Nat) {stack rest : List (ObjectId × Option ObjectKind)}
    {seen : List ObjectId} {a : ObjectId} {hint : Option ObjectKind}
    (htake : stack.dropWhile (seen.contains ·.1) = (a, hint) :: rest)
    (hwell : WellLinked n s a)
    (hblob : hint = some .blob → ∀ o, objectAt n s a = some o → o.kind = .blob) :
    ∃ next : List (ObjectId × Option ObjectKind),
      (reachableFrom n (fuel + 1) stack seen).run.run s =
        (reachableFrom n fuel (next ++ rest) (a :: seen)).run.run s ∧
      (∀ c, Linked n s a c ↔ c ∈ next.map Prod.fst) ∧
      (∀ e ∈ next, e.2 = some .blob → ∀ o, objectAt n s e.1 = some o → o.kind = .blob) := by
  rw [reachableFrom, htake]
  dsimp only
  split
  · rename_i hhint
    exact ⟨[], rfl, fun c => iff_of_false (not_linked_of_blob (hblob hhint)) (by simp),
      by simp⟩
  -- the entry is looked up, the look-up matched up to the name of its handler's `match`
  cases ho : objectAt n s a with
  | none =>
    refine ⟨[], (run_bind_of_ok (Reliable.run_lookup hrel hs a)).trans ?_,
      fun c => iff_of_false (not_linked_of_blob (by simp [ho])) (by simp), by simp⟩
    rw [ho]
    rfl
  | some o =>
    obtain ⟨ls, hls, hlsBlob⟩ := hwell o ho
    refine ⟨ls.reverse.map fun l => (l.1, some l.2),
      (run_bind_of_ok (Reliable.run_lookup hrel hs a)).trans ?_,
      fun c => by simp [linked_iff_of_links? ho hls], fun e he hb o' ho' => ?_⟩
    · rw [ho]
      exact run_bind_of_ok (run_reachableChildren hls s)
    · obtain ⟨l, hl, rfl⟩ := List.mem_map.1 he
      rw [List.mem_reverse] at hl
      exact hlsBlob l hl (Option.some_injective _ hb) o' ho'

/-- **The walk from the client's commits.** From a stack of ids with kind hints, with a round
for every id not seen yet, where what lies beyond the seen ids is well linked and every entry
hinted as a blob is one where stored, the walk answers and changes nothing: it has then seen
the ids it had seen and those beyond them. -/
theorem reachableFrom_run :
    ∀ (fuel : Nat) (stack : List (ObjectId × Option ObjectKind)) (seen : List ObjectId),
      seen.Nodup → walkBound ≤ fuel + seen.length →
      (∀ x, Beyond n s (· ∈ seen) (stack.map Prod.fst) x → WellLinked n s x) →
      (∀ e ∈ stack, e.2 = some .blob → ∀ o, objectAt n s e.1 = some o → o.kind = .blob) →
      ∃ seen', (reachableFrom n fuel stack seen).run.run s = (.ok seen', s) ∧
        ∀ x, x ∈ seen' ↔ x ∈ seen ∨ Beyond n s (· ∈ seen) (stack.map Prod.fst) x
  | 0, stack, seen, hnd, hfuel, _, _ => by
    -- no round is left: every id has been seen, and nothing lies beyond
    have hall : ∀ y, y ∈ seen := ObjectId.mem_of_walkBound_le hnd (by omega)
    exact ⟨seen, by rw [reachableFrom]; rfl, fun x => by simp [hall x]⟩
  | fuel + 1, stack, seen, hnd, hfuel, hwell, hblob => by
    have hskip : ∀ x, Beyond n s (· ∈ seen)
        ((stack.dropWhile (seen.contains ·.1)).map Prod.fst) x ↔
          Beyond n s (· ∈ seen) (stack.map Prod.fst) x := fun x =>
      beyond_dropWhile Prod.fst (seen.contains ·.1) (fun e he => by simpa using he) stack
    cases htake : stack.dropWhile (seen.contains ·.1) with
    | nil =>
      refine ⟨seen, by rw [reachableFrom, htake]; rfl, fun x => ?_⟩
      rw [← hskip, htake]
      simp [not_beyond_nil]
    | cons e rest =>
      obtain ⟨a, hint⟩ := e
      obtain ⟨hmem, hfresh⟩ := dropWhile_eq_cons htake
      have ha : a ∉ seen := by simpa using hfresh
      have hbeyond : Beyond n s (· ∈ seen) (stack.map Prod.fst) a := by
        rw [← hskip, htake, List.map_cons]
        exact ⟨a, List.mem_cons_self, .refl ha⟩
      obtain ⟨next, hround, hnext, hnextBlob⟩ :=
        reachableFrom_round hrel hs fuel htake (hwell a hbeyond) (hblob _ hmem)
      -- the round moves `a` into the seen ids; the rest of the walk finds the remainder
      have hV' : ∀ y, y ∈ a :: seen ↔ y ∈ seen ∨ y = a := fun y => by
        rw [List.mem_cons, or_comm]
      have hvisit : ∀ x, Beyond n s (· ∈ seen) (stack.map Prod.fst) x ↔
          x = a ∨ Beyond n s (· ∈ a :: seen) ((next ++ rest).map Prod.fst) x := fun x => by
        rw [← hskip, htake, List.map_cons, List.map_append]
        exact beyond_visit hV' ha hnext
      have hrestBlob : ∀ e ∈ rest, e.2 = some .blob → ∀ o, objectAt n s e.1 = some o →
          o.kind = .blob := fun e he =>
        hblob e ((List.dropWhile_suffix _).subset (htake ▸ List.mem_cons_of_mem _ he))
      obtain ⟨seen', hrun, hseen'⟩ := reachableFrom_run fuel (next ++ rest) (a :: seen)
        (List.nodup_cons.2 ⟨ha, hnd⟩) (by simp only [List.length_cons]; omega)
        (fun x hx => hwell x ((hvisit x).2 (.inr hx)))
        (fun e he => (List.mem_append.1 he).elim (hnextBlob e) (hrestBlob e))
      refine ⟨seen', hround.trans hrun, fun x => ?_⟩
      rw [hseen', hvisit, List.mem_cons]
      tauto

/-- **The walk from the client's commits sees what they reach.** Where what the roots reach is
well linked, the walk answers, changes nothing, and has seen exactly the ids the roots reach. -/
theorem reachable_run (roots : List ObjectId)
    (hwell : ∀ x, Reach n s roots x → WellLinked n s x) :
    ∃ seen, (reachable n roots).run.run s = (.ok seen, s) ∧
      ∀ x, x ∈ seen ↔ Reach n s roots x := by
  have hkeys : (roots.reverse.map (·, (none : Option ObjectKind))).map Prod.fst =
      roots.reverse := by
    simp [Function.comp_def]
  have hroots : ∀ x, Beyond n s (· ∈ ([] : List ObjectId))
      ((roots.reverse.map (·, (none : Option ObjectKind))).map Prod.fst) x ↔
        Reach n s roots x := fun x => by
    rw [hkeys, beyond_nil_iff]
    simp [Reach]
  obtain ⟨seen, hrun, hseen⟩ := reachableFrom_run hrel hs walkBound
    (roots.reverse.map (·, none)) [] List.nodup_nil (by simp)
    (fun x hx => hwell x ((hroots x).1 hx)) (by simp)
  exact ⟨seen, hrun, fun x => by rw [hseen, hroots]; simp⟩

/-! ## The walk from the wants -/

/-- **The walk from the wants.** Kept clear of `excluded`, from a stack whose reach outside the
excluded and taken ids is stored and parses, with a round for every id not taken yet, the walk
answers and changes nothing. It reads exactly the objects stored under the ids beyond, each
once, adds them to what it sent in the order it meets them, and counts their ids as taken. -/
theorem collectFrom_run (excluded : List ObjectId) :
    ∀ (fuel : Nat) (stack included : List ObjectId) (sent : List GitObject),
      included.Nodup → walkBound ≤ fuel + included.length →
      (∀ x, Beyond n s (· ∈ excluded ++ included) stack x →
        ∃ o ls, objectAt n s x = some o ∧ o.links? = .ok ls) →
      ∃ found : List GitObject,
        (collectFrom n excluded fuel stack included sent).run.run s =
          (.ok ((found.map (·.id)).reverse ++ included, sent ++ found), s) ∧
        (found.map (·.id)).Nodup ∧
        (∀ x, x ∈ found.map (·.id) ↔ Beyond n s (· ∈ excluded ++ included) stack x) ∧
        ∀ o ∈ found, objectAt n s o.id = some o
  | 0, stack, included, sent, hnd, hfuel, _ => by
    -- no round is left: every id has been taken, and nothing lies beyond
    have hall : ∀ y, y ∈ excluded ++ included := fun y =>
      List.mem_append_right _ (ObjectId.mem_of_walkBound_le hnd (by omega) y)
    refine ⟨[], ?_, List.nodup_nil, fun x => iff_of_false (by simp) (not_beyond_of_forall hall),
      by simp⟩
    rw [collectFrom, List.map_nil, List.reverse_nil, List.nil_append, List.append_nil]
    rfl
  | fuel + 1, stack, included, sent, hnd, hfuel, hstored => by
    have hskip : ∀ x, Beyond n s (· ∈ excluded ++ included)
        (stack.dropWhile fun id => excluded.contains id || included.contains id) x ↔
          Beyond n s (· ∈ excluded ++ included) stack x := fun x => by
      simpa using beyond_dropWhile (n := n) (s := s) (x := x) (V := (· ∈ excluded ++ included))
        id (fun id => excluded.contains id || included.contains id)
        (fun e he => by simpa using he) stack
    rw [collectFrom]
    split
    · rename_i hnil
      refine ⟨[], ?_, List.nodup_nil, fun x => ?_, by simp⟩
      · rw [List.map_nil, List.reverse_nil, List.nil_append, List.append_nil]
        rfl
      rw [← hskip, hnil]
      simp [not_beyond_nil]
    rename_i a rest htake
    have ha : a ∉ excluded ++ included := by simpa using (dropWhile_eq_cons htake).2
    have hbeyond : Beyond n s (· ∈ excluded ++ included) stack a := by
      rw [← hskip, htake]
      exact ⟨a, List.mem_cons_self, .refl ha⟩
    obtain ⟨o, ls, ho, hls⟩ := hstored a hbeyond
    have hid : o.id = a := (hrel.objectAt_some hs ho).1
    -- the round takes `a` and pushes its links
    have hV' : ∀ y, y ∈ excluded ++ a :: included ↔ y ∈ excluded ++ included ∨ y = a :=
      fun y => by simp only [List.mem_append, List.mem_cons]; tauto
    have hvisit : ∀ x, Beyond n s (· ∈ excluded ++ included) stack x ↔
        x = a ∨ Beyond n s (· ∈ excluded ++ a :: included) (ls.map Prod.fst ++ rest) x :=
      fun x => by
        rw [← hskip, htake]
        exact beyond_visit hV' ha fun c => linked_iff_of_links? ho hls
    obtain ⟨found, hrun, hnd', hfound, hstored'⟩ := collectFrom_run excluded fuel
      (ls.map Prod.fst ++ rest) (a :: included) (sent ++ [o])
      (List.nodup_cons.2 ⟨fun h => ha (List.mem_append_right _ h), hnd⟩)
      (by simp only [List.length_cons]; omega) (fun x hx => hstored x ((hvisit x).2 (.inr hx)))
    have hnew : a ∉ found.map (·.id) := fun h => by
      obtain ⟨_, _, hr⟩ := (hfound a).1 h
      exact hr.not_mem (by simp)
    refine ⟨o :: found, ?_, ?_, fun x => ?_, ?_⟩
    · rw [run_bind_of_ok (Reliable.run_getObject hrel hs ho),
        run_bind_of_ok (run_sentChildren hls s), hrun]
      simp [hid]
    · rw [List.map_cons, hid]
      exact List.nodup_cons.2 ⟨hnew, hnd'⟩
    · rw [List.map_cons, hid, List.mem_cons, hfound, hvisit]
    · rintro o' (_ | ⟨_, ho'⟩)
      · rwa [hid]
      · exact hstored' o' ho'

/-- **A fetch without tags sends the difference of two reaches.** Over storage that does not
fail, where everything the wants reach is stored and everything the wants and the client's
commits reach is well linked, collecting answers and changes nothing: it sends the objects
stored under the ids the wants reach and the client's commits do not, each once. -/
theorem collect_run (wants haves : List ObjectId)
    (hpresent : ∀ x, Reach n s wants x → (objectAt n s x).isSome)
    (hwell : ∀ x, Reach n s (wants ++ haves) x → WellLinked n s x) :
    ∃ objs : List GitObject, (collect n wants haves []).run.run s = (.ok objs, s) ∧
      (objs.map (·.id)).Nodup ∧
      (∀ x, x ∈ objs.map (·.id) ↔ Reach n s wants x ∧ ¬ Reach n s haves x) ∧
      ∀ o ∈ objs, objectAt n s o.id = some o := by
  have hreach : ∀ {roots : List ObjectId} {x : ObjectId}, roots ⊆ wants ++ haves →
      Reach n s roots x → Reach n s (wants ++ haves) x :=
    fun hsub ⟨r, hr, hpath⟩ => ⟨r, hsub hr, hpath⟩
  obtain ⟨excluded, hex, hexcl⟩ := reachable_run hrel hs haves
    fun x hx => hwell x (hreach (List.subset_append_right wants haves) hx)
  -- the excluded ids are everything the client's commits reach, a set closed under links
  have hclosed : ∀ y z, y ∈ excluded ++ [] → Linked n s y z → z ∈ excluded ++ [] := by
    intro y z hy hyz
    rw [List.append_nil, hexcl] at hy ⊢
    exact hy.tail hyz
  have hbeyond : ∀ x, Beyond n s (· ∈ excluded ++ []) wants x ↔
      Reach n s wants x ∧ ¬ Reach n s haves x := fun x => by
    rw [beyond_closed hclosed, List.append_nil, hexcl]
  obtain ⟨objs, hrun, hnd, hmem, hstored⟩ := collectFrom_run hrel hs excluded walkBound wants
    [] [] List.nodup_nil (by simp) fun x hx => by
      obtain ⟨hw, -⟩ := (hbeyond x).1 hx
      obtain ⟨o, ho⟩ := Option.isSome_iff_exists.1 (hpresent x hw)
      obtain ⟨ls, hls, -⟩ := hwell x (hreach (List.subset_append_left wants haves) hw) o ho
      exact ⟨o, ls, ho, hls⟩
  refine ⟨objs, ?_, hnd, fun x => by rw [hmem, hbeyond], hstored⟩
  unfold collect
  rw [run_bind_of_ok hex, run_bind_of_ok hrun]
  rfl

end Walks

end Engine

end GitServer
