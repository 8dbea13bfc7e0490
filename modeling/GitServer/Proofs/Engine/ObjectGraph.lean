import GitServer.Proofs.Storage.Reliable
import GitServer.Proofs.Engine.Connectivity
import GitServer.Engine.Walk
import Mathlib

/-!
# The object graph of a repository

A commit links to its tree and its parents, a tree to its entries other than submodules, and
an annotated tag to its target (`GitObject.links?`, which also says what kind each link is
named as). The ids reached from a list of roots along the links of stored objects are
`Storage.Reach`: an id that is not stored ends its path.

A walk over the graph keeps a set `V` of ids it does not enter again. What is left for it to
find from a stack of ids is `Beyond V stack`: the ids reached from an entry through ids none of
which is in `V`. An entry in `V` is passed over (`beyond_skip`); taking an entry `a` outside
`V` finds `a`, moves it into `V` and puts its links on the stack (`beyond_visit`). When `V` is
closed under links, what lies beyond `V` from the roots is what the roots reach outside `V`
(`beyond_closed`).

There are `walkBound` ids (`ObjectId.card_eq_walkBound`), so a walk that takes a new id at each
round has taken every id after `walkBound` rounds (`ObjectId.mem_of_walkBound_le`), whatever the
graph, cycles included.

The paths of `Reach` are those of `Reaches` over the stored objects (`Storage.reaches_iff`), so
roots whose histories are stored in the sense of `Closed` reach stored objects only. On a given
repository, what roots reach is bounded by any set closed under the links read from storage
(`Storage.Reach.mem_of_closed`), and `WellLinked` is decided by reading the objects.
-/

namespace GitServer

/-! ## Counting ids -/

namespace ObjectId

/-- An id is its twenty bytes. -/
def equivVector : ObjectId ≃ List.Vector UInt8 20 where
  toFun id := ⟨id.bytes, id.length_bytes⟩
  invFun v := ⟨v.1, v.2⟩
  left_inv _ := rfl
  right_inv _ := rfl

instance : Fintype ObjectId := Fintype.ofEquiv _ equivVector.symm

/-- There are `walkBound` ids. -/
theorem card_eq_walkBound : Fintype.card ObjectId = Engine.walkBound := by
  rw [Fintype.card_congr equivVector, card_vector, ← FinEnum.card_eq_fintypeCard,
    FinEnum.card_UInt8]
  rfl

/-- A list of `walkBound` different ids holds every id. -/
theorem mem_of_walkBound_le {ids : List ObjectId} (hnd : ids.Nodup)
    (hlen : Engine.walkBound ≤ ids.length) (x : ObjectId) : x ∈ ids := by
  have hcard : ids.toFinset.card = Fintype.card ObjectId := by
    have hle := hnd.length_le_card
    rw [List.toFinset_card_of_nodup hnd]
    rw [card_eq_walkBound] at hle ⊢
    omega
  -- `Finset.univ` is kept folded: unfolding it would list every id
  have huniv := Finset.eq_univ_iff_forall.mp (Finset.eq_univ_of_card _ hcard)
  exact List.mem_toFinset.mp (huniv x)

end ObjectId

/-! ## Links -/

namespace GitObject

/-- The ids an object links to, each with the kind the object names it as: a commit's tree and
then its parents, a tree's entries other than submodules, in order, and a tag's target. A blob
links nowhere; content that does not parse is an error. -/
def links? (o : GitObject) : Except CodecError (List (ObjectId × ObjectKind)) :=
  match o.kind with
  | .commit => (Commit.parse o.data).map fun c => (c.tree, .tree) :: c.parents.map (·, .commit)
  | .tree => (Tree.parse o.data).map fun t =>
    (t.entries.filter (·.mode != .gitlink)).map fun e => (e.id, e.mode.kind)
  | .tag => (Tag.parse o.data).map fun t => [(t.object, t.kind)]
  | _ => .ok []

/-- The links of an object that parses are the ids `links?` names. -/
theorem links_of_links? {o : GitObject} {ls : List (ObjectId × ObjectKind)}
    (h : o.links? = .ok ls) : o.links = ls.map Prod.fst := by
  unfold links? at h
  unfold links
  cases hk : o.kind <;> simp only [hk] at h ⊢
  case commit =>
    obtain ⟨c, hc, rfl⟩ := Except.map_eq_ok.mp h
    simp [hc, Function.comp_def]
  case tree =>
    obtain ⟨t, ht, rfl⟩ := Except.map_eq_ok.mp h
    simp [ht, Function.comp_def]
  case tag =>
    obtain ⟨t, ht, rfl⟩ := Except.map_eq_ok.mp h
    simp [ht]
  all_goals
    cases h
    rfl

@[simp] theorem links?_of_blob {o : GitObject} (h : o.kind = .blob) : o.links? = .ok [] := by
  rw [links?, h]

@[simp] theorem links_of_blob {o : GitObject} (h : o.kind = .blob) : o.links = [] := by
  rw [links_of_links? (links?_of_blob h), List.map_nil]

end GitObject

/-! ## Reaching ids -/

namespace Storage

variable (n : RepoName) (s : Storage)

/-- `y` is a link of the object stored under `x`. -/
def Linked (x y : ObjectId) : Prop := ∃ o, objectAt n s x = some o ∧ y ∈ o.links

/-- The ids reached from `roots` along links; an id that is not stored ends its path. -/
def Reach (roots : List ObjectId) (x : ObjectId) : Prop :=
  ∃ r ∈ roots, Relation.ReflTransGen (Linked n s) r x

/-- `x` is reached from `a` through ids none of which is in `V`, both ends included. -/
def ReachOutside (V : ObjectId → Prop) (a x : ObjectId) : Prop :=
  ¬ V a ∧ Relation.ReflTransGen (fun y z => Linked n s y z ∧ ¬ V z) a x

/-- The ids reached from an entry of `stack` through ids outside `V`. -/
def Beyond (V : ObjectId → Prop) (stack : List ObjectId) (x : ObjectId) : Prop :=
  ∃ a ∈ stack, ReachOutside n s V a x

/-- The object stored under `x`, if any, parses, and the links it names as blobs are blobs
where they are stored. -/
def WellLinked (x : ObjectId) : Prop :=
  ∀ o, objectAt n s x = some o → ∃ ls, o.links? = .ok ls ∧
    ∀ l ∈ ls, l.2 = .blob → ∀ o', objectAt n s l.1 = some o' → o'.kind = .blob

variable {n s} {V V' W : ObjectId → Prop} {a b x y : ObjectId} {stack : List ObjectId}

/-- What the roots reach is closed under links. -/
theorem Reach.tail {roots : List ObjectId} (h : Reach n s roots x) (hl : Linked n s x y) :
    Reach n s roots y :=
  let ⟨r, hr, hpath⟩ := h
  ⟨r, hr, hpath.tail hl⟩

/-- The links of a stored object that parses are the ids its `links?` names. -/
theorem linked_iff_of_links? {o : GitObject} {ls : List (ObjectId × ObjectKind)}
    (ho : objectAt n s x = some o) (hls : o.links? = .ok ls) :
    Linked n s x y ↔ y ∈ ls.map Prod.fst := by
  simp [Linked, ho, GitObject.links_of_links? hls]

/-- An id that holds a blob, or nothing, links nowhere. -/
theorem not_linked_of_blob (h : ∀ o, objectAt n s x = some o → o.kind = .blob) :
    ¬ Linked n s x y := by
  rintro ⟨o, ho, hy⟩
  rw [GitObject.links_of_blob (h o ho)] at hy
  exact List.not_mem_nil hy

namespace ReachOutside

theorem refl (ha : ¬ V a) : ReachOutside n s V a a := ⟨ha, .refl⟩

theorem tail (h : ReachOutside n s V a x) (hl : Linked n s x y) (hy : ¬ V y) :
    ReachOutside n s V a y :=
  ⟨h.1, h.2.tail ⟨hl, hy⟩⟩

theorem head (hl : Linked n s a b) (ha : ¬ V a) (h : ReachOutside n s V b x) :
    ReachOutside n s V a x :=
  ⟨ha, .head ⟨hl, h.1⟩ h.2⟩

/-- A path outside `V` is one outside any smaller set. -/
theorem mono (hWV : ∀ y, W y → V y) (h : ReachOutside n s V a x) : ReachOutside n s W a x :=
  ⟨fun hw => h.1 (hWV a hw),
    Relation.ReflTransGen.mono (fun _ z hyz => ⟨hyz.1, fun hw => hyz.2 (hWV z hw)⟩) _ _ h.2⟩

/-- The end of a path outside `V` is outside `V`. -/
theorem not_mem (h : ReachOutside n s V a x) : ¬ V x := by
  rcases h.2.cases_tail with rfl | ⟨_, -, -, hx⟩
  · exact h.1
  · exact hx

/-- A path outside `V` reaches its end from its start. -/
theorem reach (h : ReachOutside n s V a x) : Relation.ReflTransGen (Linked n s) a x :=
  Relation.ReflTransGen.mono (fun _ _ hyz => hyz.1) _ _ h.2

end ReachOutside

section Visit

variable (hV' : ∀ y, V' y ↔ V y ∨ y = a) (ha : ¬ V a)
include hV' ha

/-- A path outside `V` keeps clear of `a`, or has a last stretch from `a`. -/
theorem ReachOutside.clear_or_from (h : ReachOutside n s V b x) :
    ReachOutside n s V' b x ∨ ReachOutside n s V a x := by
  obtain ⟨hb, hpath⟩ := h
  induction hpath with
  | refl =>
    by_cases hba : b = a
    · subst hba
      exact .inr (.refl ha)
    · exact .inl (.refl (by rw [hV']; tauto))
  | @tail y z _ hyz ih =>
    by_cases hza : z = a
    · subst hza
      exact .inr (.refl ha)
    rcases ih with h' | h'
    · exact .inl (h'.tail hyz.1 (by rw [hV']; tauto))
    · exact .inr (h'.tail hyz.1 hyz.2)

/-- From `a`, outside `V`, lie `a` itself and what its links reach outside `V` and `a`. -/
theorem reachOutside_self_iff :
    ReachOutside n s V a x ↔ x = a ∨ ∃ c, Linked n s a c ∧ ReachOutside n s V' c x := by
  constructor
  · rintro ⟨-, hpath⟩
    -- the last visit to `a` splits the path
    induction hpath with
    | refl => exact .inl rfl
    | @tail y z _ hyz ih =>
      by_cases hza : z = a
      · exact .inl hza
      have hz : ¬ V' z := by rw [hV']; tauto
      rcases ih with rfl | ⟨c, hc, h'⟩
      · exact .inr ⟨z, hyz.1, .refl hz⟩
      · exact .inr ⟨c, hc, h'.tail hyz.1 hz⟩
  · rintro (rfl | ⟨c, hc, h'⟩)
    · exact .refl ha
    · exact .head hc ha (h'.mono fun y hy => (hV' y).2 (.inl hy))

/-- Beyond `V`, a stack topped by `a` leads to what `a` leads to and to what the rest leads to
clear of `a`. -/
theorem beyond_cons_iff :
    Beyond n s V (a :: stack) x ↔ ReachOutside n s V a x ∨ Beyond n s V' stack x := by
  constructor
  · rintro ⟨b, hb, hbx⟩
    rcases List.mem_cons.1 hb with rfl | hb
    · exact .inl hbx
    · exact (hbx.clear_or_from hV' ha).symm.imp_right fun h => ⟨b, hb, h⟩
  · rintro (h | ⟨b, hb, hbx⟩)
    · exact ⟨a, List.mem_cons_self, h⟩
    · exact ⟨b, List.mem_cons_of_mem a hb, hbx.mono fun y hy => (hV' y).2 (.inl hy)⟩

end Visit

theorem beyond_append {xs ys : List ObjectId} :
    Beyond n s V (xs ++ ys) x ↔ Beyond n s V xs x ∨ Beyond n s V ys x := by
  simp only [Beyond, List.mem_append, or_and_right, exists_or]

theorem not_beyond_nil : ¬ Beyond n s V [] x := by
  simp [Beyond]

/-- Nothing lies beyond a set that holds every id. -/
theorem not_beyond_of_forall (hall : ∀ y, V y) : ¬ Beyond n s V stack x :=
  fun ⟨a, _, h⟩ => h.1 (hall a)

/-- **Passing over an entry.** An entry in `V` leads nowhere beyond it. -/
theorem beyond_skip (ha : V a) : Beyond n s V (a :: stack) x ↔ Beyond n s V stack x := by
  constructor
  · rintro ⟨b, hb, hbx⟩
    rcases List.mem_cons.1 hb with rfl | hb
    · exact absurd ha hbx.1
    · exact ⟨b, hb, hbx⟩
  · rintro ⟨b, hb, hbx⟩
    exact ⟨b, List.mem_cons_of_mem a hb, hbx⟩

/-- Dropping entries in `V` from the top of a stack changes nothing beyond `V`; the entries
are anything with an id (`key`). -/
theorem beyond_dropWhile {α : Type} (key : α → ObjectId) (p : α → Bool)
    (hp : ∀ e, p e = true → V (key e)) (entries : List α) :
    Beyond n s V ((entries.dropWhile p).map key) x ↔ Beyond n s V (entries.map key) x := by
  induction entries with
  | nil => rfl
  | cons e rest ih =>
    rw [List.dropWhile_cons]
    split
    · rw [ih, List.map_cons, beyond_skip (hp e ‹_›)]
    · rfl

/-- **Taking an entry.** Beyond `V`, a stack topped by `a`, outside `V`, leads to `a` and to what
lies beyond `V` and `a` from the links of `a` put on the rest. -/
theorem beyond_visit (hV' : ∀ y, V' y ↔ V y ∨ y = a) (ha : ¬ V a) {next : List ObjectId}
    (hnext : ∀ c, Linked n s a c ↔ c ∈ next) :
    Beyond n s V (a :: stack) x ↔ x = a ∨ Beyond n s V' (next ++ stack) x := by
  have hlinks : (∃ c, Linked n s a c ∧ ReachOutside n s V' c x) ↔ Beyond n s V' next x :=
    exists_congr fun c => and_congr_left fun _ => hnext c
  rw [beyond_cons_iff hV' ha, reachOutside_self_iff hV' ha, beyond_append, hlinks, or_assoc]

/-- **Outside a closed set.** When `V` holds every link of its stored members, the ids reached
from the roots through ids outside `V` are the ids the roots reach that are not in `V`. -/
theorem beyond_closed (hclosed : ∀ y z, V y → Linked n s y z → V z) :
    Beyond n s V stack x ↔ Reach n s stack x ∧ ¬ V x := by
  constructor
  · rintro ⟨r, hr, hrx⟩
    exact ⟨⟨r, hr, hrx.reach⟩, hrx.not_mem⟩
  · rintro ⟨⟨r, hr, hpath⟩, hx⟩
    refine ⟨r, hr, ?_⟩
    -- a path into `V` stays in it, so a path ending outside `V` never entered it
    induction hpath with
    | refl => exact .refl hx
    | @tail y z _ hyz ih =>
      have hy : ¬ V y := fun hy => hx (hclosed y z hy hyz)
      exact (ih hy).tail hyz hx

/-- With nothing set aside, what lies beyond is what the roots reach. -/
theorem beyond_nil_iff : Beyond n s (· ∈ ([] : List ObjectId)) stack x ↔ Reach n s stack x := by
  rw [beyond_closed fun _ _ hy => absurd hy List.not_mem_nil]
  simp

/-! ## Reaching ids, computed

The graph of a repository is read off storage, so what a set of roots reaches can be bounded,
and `WellLinked` decided, by reading the objects under the ids in question. -/

variable (n s) in
/-- The links of the object stored under `x`; none when nothing is stored there. -/
def linksAt (x : ObjectId) : List ObjectId := ((objectAt n s x).map GitObject.links).getD []

theorem linked_iff_mem_linksAt : Linked n s x y ↔ y ∈ linksAt n s x := by
  unfold Linked linksAt
  cases objectAt n s x <;> simp

/-- **What the roots reach stays in a closed set**: one that holds the roots and the links of
the objects stored under its ids. -/
theorem Reach.mem_of_closed {roots S : List ObjectId} (hroots : ∀ r ∈ roots, r ∈ S)
    (hclosed : ∀ y ∈ S, ∀ z ∈ linksAt n s y, z ∈ S) (h : Reach n s roots x) : x ∈ S := by
  obtain ⟨r, hr, hpath⟩ := h
  induction hpath with
  | refl => exact hroots r hr
  | tail _ hl ih => exact hclosed _ ih _ (linked_iff_mem_linksAt.mp hl)

variable (n s) in
/-- Whether the object stored under `x`, if any, parses with the links it names as blobs
stored as blobs or not stored. -/
def wellLinkedAt (x : ObjectId) : Bool :=
  match objectAt n s x with
  | none => true
  | some o =>
    match o.links? with
    | .ok ls => ls.all fun l => l.2 != .blob || (objectAt n s l.1).all (·.kind == .blob)
    | .error _ => false

theorem wellLinked_iff : WellLinked n s x ↔ wellLinkedAt n s x = true := by
  unfold WellLinked wellLinkedAt
  cases objectAt n s x with
  | none => simp
  | some o =>
    cases hl : o.links? with
    | error e => simp [hl]
    | ok ls =>
      simp only [hl, Option.some.injEq, forall_eq', Except.ok.injEq, exists_eq_left',
        List.all_eq_true, Bool.or_eq_true, bne_iff_ne, ne_eq, Option.all_eq_true, beq_iff_eq]
      exact forall_congr' fun _ => forall_congr' fun _ => imp_iff_not_or

instance : DecidablePred (WellLinked n s) := fun _ => decidable_of_iff _ wellLinked_iff.symm

/-- The paths of `Reaches` over the stored objects are the paths along `Linked`. -/
theorem reaches_iff : Reaches (objectAt n s) a x ↔ Relation.ReflTransGen (Linked n s) a x := by
  constructor
  · intro h
    induction h with
    | refl => exact .refl
    | link ho hj _ ih => exact .head ⟨_, ho, hj⟩ ih
  · intro h
    induction h using Relation.ReflTransGen.head_induction_on with
    | refl => exact .refl _
    | head hl _ ih =>
      obtain ⟨o, ho, hj⟩ := hl
      exact .link ho hj ih

/-- Roots whose histories are all stored reach stored objects only; the references of a
connected repository name such roots. -/
theorem Reach.isSome_of_closed {roots : List ObjectId}
    (hroots : ∀ r ∈ roots, Closed (objectAt n s) r) (h : Reach n s roots x) :
    (objectAt n s x).isSome := by
  obtain ⟨r, hr, hpath⟩ := h
  exact hroots r hr x (reaches_iff.mpr hpath)

end Storage

end GitServer
