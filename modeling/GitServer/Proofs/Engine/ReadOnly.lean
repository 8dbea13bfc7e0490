import GitServer.Proofs.Storage.RemoteStore
import GitServer.Engine.Upload
import GitServer.Engine.Advertise

/-!
# A fetch changes nothing

Upload-pack only reads: it looks objects up, lists references and walks the object graph, and
the pack it answers is built from what it read. Over a blob store every read leaves the store
as it found it, so a fetch leaves storage exactly as it was, whatever it answers
(`uploadPack_stays`). So does the advertisement, which resolves references and peels tags
(`infoRefs_stays`).

`Stays P m` says that `m`, started in a state of `P`, ends in the state it started in, whether
it answers or fails. The monad's combinators keep it, so each function of the engine inherits
it from the reads it makes, and a recursion inherits it by induction over its own calls.
-/

namespace GitServer

/-! ## What a computation does to the state -/

/-- `m`, started in a state of `P`, ends in a state of `P` that `R` relates to its start,
whether it answers or fails. -/
def Keeps {ε σ α : Type} (P : σ → Prop) (R : σ → σ → Prop) (m : ExceptT ε (StateM σ) α) :
    Prop :=
  ∀ s, P s → P (m.run.run s).2 ∧ R s (m.run.run s).2

/-- `m`, started in a state of `P`, ends in the state it started in. -/
abbrev Stays {ε σ α : Type} (P : σ → Prop) (m : ExceptT ε (StateM σ) α) : Prop :=
  Keeps P (· = ·) m

namespace Keeps

variable {ε ε' σ α β : Type} {P : σ → Prop} {R : σ → σ → Prop} [IsPreorder σ R]

theorem pure (a : α) : Keeps (ε := ε) P R (Pure.pure a) := fun s hs => ⟨hs, refl_of R s⟩

theorem throw (e : ε) : Keeps P R (MonadExcept.throw e : ExceptT ε (StateM σ) α) :=
  fun s hs => ⟨hs, refl_of R s⟩

theorem get : Keeps (ε := ε) P R (MonadState.get : ExceptT ε (StateM σ) σ) :=
  fun s hs => ⟨hs, refl_of R s⟩

theorem bind {x : ExceptT ε (StateM σ) α} {f : α → ExceptT ε (StateM σ) β} (hx : Keeps P R x)
    (hf : ∀ a, Keeps P R (f a)) : Keeps P R (x >>= f) := by
  intro s hs
  rcases hrun : x.run.run s with ⟨r, s₁⟩
  obtain ⟨hs₁, hR₁⟩ : P s₁ ∧ R s s₁ := by simpa [hrun] using hx s hs
  cases r with
  | ok a =>
    -- the rest starts where the first part ended
    rw [run_bind_of_ok hrun]
    obtain ⟨hs₂, hR₂⟩ := hf a s₁ hs₁
    exact ⟨hs₂, trans_of R hR₁ hR₂⟩
  | error e => rw [run_bind_of_error hrun]; exact ⟨hs₁, hR₁⟩

theorem tryCatch {x : ExceptT ε (StateM σ) α} {handle : ε → ExceptT ε (StateM σ) α}
    (hx : Keeps P R x) (hh : ∀ e, Keeps P R (handle e)) : Keeps P R (tryCatch x handle) := by
  intro s hs
  rcases hrun : x.run.run s with ⟨r, s₁⟩
  obtain ⟨hs₁, hR₁⟩ : P s₁ ∧ R s s₁ := by simpa [hrun] using hx s hs
  cases r with
  | ok a => rw [run_tryCatch_of_ok hrun]; exact ⟨hs₁, hR₁⟩
  | error e =>
    rw [run_tryCatch_of_error hrun]
    obtain ⟨hs₂, hR₂⟩ := hh e s₁ hs₁
    exact ⟨hs₂, trans_of R hR₁ hR₂⟩

omit [IsPreorder σ R] in
theorem ite {c : Prop} [Decidable c] {x y : ExceptT ε (StateM σ) α} (hx : Keeps P R x)
    (hy : Keeps P R y) : Keeps P R (if c then x else y) := by
  split
  · exact hx
  · exact hy

omit [IsPreorder σ R] in
theorem adapt {x : ExceptT ε (StateM σ) α} (g : ε → ε') (hx : Keeps P R x) :
    Keeps P R (ExceptT.adapt g x) := by
  intro s hs
  rcases hrun : x.run.run s with ⟨r, s₁⟩
  obtain ⟨hs₁, hR₁⟩ : P s₁ ∧ R s s₁ := by simpa [hrun] using hx s hs
  cases r with
  | ok a => rw [run_adapt_of_ok g hrun]; exact ⟨hs₁, hR₁⟩
  | error e => rw [run_adapt_of_error g hrun]; exact ⟨hs₁, hR₁⟩

/-- A loop whose every step keeps `P` along `R` keeps it too. -/
theorem forIn {f : α → β → ExceptT ε (StateM σ) (ForInStep β)} (hf : ∀ a b, Keeps P R (f a b)) :
    ∀ (xs : List α) (init : β), Keeps P R (ForIn.forIn xs init f)
  | [], _ => pure _
  | x :: xs, init => by
    rw [List.forIn_cons]
    refine bind (hf x init) fun step => ?_
    cases step with
    | done b => exact pure b
    | yield b => exact forIn hf xs b

/-- Mapping a function whose every call keeps `P` along `R` keeps it too. -/
theorem mapM {f : α → ExceptT ε (StateM σ) β} (hf : ∀ a, Keeps P R (f a)) :
    ∀ xs : List α, Keeps P R (xs.mapM f)
  | [] => by rw [List.mapM_nil]; exact pure _
  | x :: xs => by
    rw [List.mapM_cons]
    exact bind (hf x) fun _ => bind (mapM hf xs) fun _ => pure _

/-- What changes nothing, from the states of `Q`, keeps every property of states of `Q`. -/
theorem of_stays {Q : σ → Prop} {x : ExceptT ε (StateM σ) α} (hx : Stays Q x)
    (hPQ : ∀ s, P s → Q s) : Keeps P R x := by
  intro s hs
  obtain ⟨-, hsame⟩ := hx s (hPQ s hs)
  rw [← hsame]
  exact ⟨hs, refl_of R s⟩

/-- A fold whose every step keeps `P` along `R` keeps it too. -/
theorem foldlM {f : β → α → ExceptT ε (StateM σ) β} (hf : ∀ b a, Keeps P R (f b a)) :
    ∀ (xs : List α) (init : β), Keeps P R (xs.foldlM f init)
  | [], init => pure init
  | x :: xs, init => by
    rw [List.foldlM_cons]
    exact bind (hf init x) fun b => foldlM hf xs b

end Keeps

/-! ## Reads of a blob store -/

namespace Remote

theorem has_stays (k : String) : Stays (fun _ => True) (has k) :=
  Keeps.bind Keeps.get fun _ => Keeps.pure _

theorem fetch_stays (k : String) : Stays (fun _ => True) (fetch k) :=
  Keeps.bind Keeps.get fun _ => Keeps.pure _

theorem check_stays {α : Type} (x : Except StorageError α) : Stays (fun _ => True) (check x) := by
  cases x with
  | ok a => exact Keeps.pure a
  | error e => exact Keeps.throw e

theorem getObjectAs_stays (name : RepoName) (id : ObjectId) (fallback : ObjectKind) :
    Stays (fun _ => True) (getObjectAs name id fallback) := by
  unfold getObjectAs
  refine Keeps.bind (fetch_stays _) fun b => ?_
  cases b with
  | none => exact Keeps.throw _
  | some b => exact Keeps.bind (check_stays _) fun _ => Keeps.pure _

theorem readTarget_stays (k : String) : Stays (fun _ => True) (readTarget k) := by
  unfold readTarget
  refine Keeps.bind (fetch_stays _) fun b => ?_
  cases b with
  | none => exact Keeps.pure _
  | some b => exact Keeps.bind (check_stays _) fun _ => Keeps.pure _

theorem getReference_stays (name : RepoName) (ref : String) :
    Stays (fun _ => True) (getReference name ref) := by
  unfold getReference refKey
  refine Keeps.bind (Keeps.bind (check_stays _) fun _ => Keeps.pure _) fun k =>
    Keeps.bind (readTarget_stays k) fun t => ?_
  cases t with
  | none => exact Keeps.throw _
  | some t => exact Keeps.pure _

theorem iterateReferences_stays (name : RepoName) :
    Stays (fun _ => True) (iterateReferences name) := by
  unfold iterateReferences
  refine Keeps.bind Keeps.get fun st => Keeps.bind (Keeps.forIn (fun k refs => ?_) _ _) fun refs => ?_
  · exact Keeps.bind (readTarget_stays k) fun t => by cases t <;> exact Keeps.pure _
  · exact Keeps.bind (readTarget_stays _) fun t => by cases t <;> exact Keeps.pure _

end Remote

/-! ## The engine's reads -/

/-- Storage kept in a blob store. -/
def Storage.InBlobStore (s : Storage) : Prop := ∃ b, s.medium = .remote b

namespace Storage

/-- A read of a blob store that does not change it changes no storage kept there. -/
theorem onMedium_stays {α : Type} {r : RemoteM α} {l : DiskM α} (hr : Stays (fun _ => True) r) :
    Stays InBlobStore (onMedium r l) := by
  intro s ⟨b, hb⟩
  rw [run_onMedium_remote r l hb, ← (hr b trivial).2]
  exact ⟨⟨b, rfl⟩, (with_medium_eq hb).symm⟩

variable {n : RepoName}

theorem currentTarget_stays (ref : String) : Stays InBlobStore (currentTarget n ref) := by
  unfold currentTarget
  refine Keeps.tryCatch (Keeps.bind (onMedium_stays (Remote.getReference_stays n ref)) fun _ =>
    Keeps.pure _) fun e => ?_
  split
  · exact Keeps.pure _
  · exact Keeps.throw _

/-- Following a chain of symbolic references only reads them. -/
theorem follow_stays (origin : String) :
    ∀ fuel current, Stays InBlobStore (follow n origin fuel current)
  | 0, _ => by rw [follow]; exact Keeps.throw _
  | fuel + 1, current => by
    rw [follow]
    refine Keeps.bind (currentTarget_stays current) fun t => ?_
    rcases t with _ | _ | next
    · exact Keeps.pure _
    · exact Keeps.pure _
    · exact follow_stays origin fuel next

end Storage

namespace Engine

open Storage

/-- A storage operation that reads a blob store without changing it changes nothing in the
engine either. -/
theorem store_stays {α : Type} {r : RemoteM α} {l : DiskM α} (hr : Stays (fun _ => True) r) :
    Stays InBlobStore (store (onMedium r l)) :=
  Keeps.adapt _ (onMedium_stays hr)

variable {n : RepoName}

theorem hasObject_stays (id : ObjectId) : Stays InBlobStore (hasObject n id) :=
  store_stays (Remote.has_stays _)

theorem getObject_stays (id : ObjectId) : Stays InBlobStore (getObject n id) :=
  store_stays (Remote.getObjectAs_stays _ _ _)

theorem refs_stays : Stays InBlobStore (refs n) :=
  store_stays (Remote.iterateReferences_stays _)

theorem check_stays {α : Type} (x : Except ProtocolError α) : Stays InBlobStore (check x) := by
  cases x with
  | ok a => exact Keeps.pure a
  | error e => exact Keeps.throw e

theorem parsed_stays {α : Type} (what : String) (id : ObjectId) (x : Except CodecError α) :
    Stays InBlobStore (parsed what id x) := by
  cases x with
  | ok a => exact Keeps.pure a
  | error e => exact Keeps.throw _

theorem getTag_stays (id : ObjectId) : Stays InBlobStore (getTag n id) := by
  unfold getTag getTyped
  refine Keeps.bind (Keeps.bind (store_stays (Remote.getObjectAs_stays _ _ _)) fun o => ?_)
    fun o => parsed_stays _ _ _
  dsimp only
  split
  · exact Keeps.bind (Keeps.throw _) fun _ => Keeps.pure _
  · exact Keeps.pure _

/-! ## The walks -/

theorem reachableChildren_stays (o : GitObject) : Stays InBlobStore (reachableChildren o) := by
  unfold reachableChildren
  -- each kind that points anywhere parses first; the others point nowhere
  split
  · exact Keeps.bind (parsed_stays _ _ _) fun _ => Keeps.pure _
  · exact Keeps.bind (parsed_stays _ _ _) fun _ => Keeps.pure _
  · exact Keeps.bind (parsed_stays _ _ _) fun _ => Keeps.pure _
  · exact Keeps.pure _

theorem sentChildren_stays (o : GitObject) : Stays InBlobStore (sentChildren o) := by
  unfold sentChildren
  split
  · exact Keeps.bind (parsed_stays _ _ _) fun _ => Keeps.pure _
  · exact Keeps.bind (parsed_stays _ _ _) fun _ => Keeps.pure _
  · exact Keeps.bind (parsed_stays _ _ _) fun _ => Keeps.pure _
  · exact Keeps.pure _

/-- A read of an object that takes its absence as `none`. -/
theorem lookup_stays (id : ObjectId) :
    Stays InBlobStore (tryCatch (do pure (some (← getObject n id))) fun e =>
      match e with
      | .storage (.notFound _) => pure none
      | _ => throw e) := by
  refine Keeps.tryCatch (Keeps.bind (getObject_stays id) fun _ => Keeps.pure _) fun e => ?_
  split
  · exact Keeps.pure _
  · exact Keeps.throw _

theorem reachableFrom_stays (fuel : Nat) :
    ∀ stack seen, Stays InBlobStore (reachableFrom n fuel stack seen) := by
  induction fuel with
  | zero => intro stack seen; rw [reachableFrom]; exact Keeps.pure _
  | succ fuel ih =>
    intro stack seen
    rw [reachableFrom]
    -- the round ends the walk, or takes the first entry not seen yet
    split
    · exact Keeps.pure _
    rename_i id hint _ _
    dsimp only
    split
    · exact ih _ _
    refine Keeps.bind (lookup_stays id) fun o? => ?_
    cases o? with
    | none => exact ih _ _
    | some o => exact Keeps.bind (reachableChildren_stays o) fun _ => ih _ _

theorem collectFrom_stays (excluded : List ObjectId) (fuel : Nat) :
    ∀ stack included sent, Stays InBlobStore (collectFrom n excluded fuel stack included sent) := by
  induction fuel with
  | zero => intro stack included sent; rw [collectFrom]; exact Keeps.pure _
  | succ fuel ih =>
    intro stack included sent
    rw [collectFrom]
    split
    · exact Keeps.pure _
    rename_i id _ _
    exact Keeps.bind (getObject_stays id) fun o =>
      Keeps.bind (sentChildren_stays o) fun _ => ih _ _ _

theorem addTags_stays (excluded : List ObjectId) :
    ∀ tags included sent, Stays InBlobStore (addTags n excluded tags included sent)
  | [], _, _ => by rw [addTags]; exact Keeps.pure _
  | tagId :: rest, included, sent => by
    rw [addTags]
    split
    · exact addTags_stays excluded rest _ _
    refine Keeps.bind (getTag_stays tagId) fun t => ?_
    split
    · exact Keeps.bind (getObject_stays tagId) fun _ => addTags_stays excluded rest _ _
    · exact addTags_stays excluded rest _ _

theorem collect_stays (wants haves tags : List ObjectId) :
    Stays InBlobStore (collect n wants haves tags) :=
  Keeps.bind (reachableFrom_stays _ _ _) fun _ =>
    Keeps.bind (collectFrom_stays _ _ _ _ _) fun _ => addTags_stays _ _ _ _

/-! ## The advertisement -/

theorem resolve_stays (ref : String) : Stays InBlobStore (resolve n ref) :=
  Keeps.adapt _ (follow_stays _ _ _)

theorem peelFrom_stays : ∀ fuel id peeled, Stays InBlobStore (peelFrom n fuel id peeled)
  | 0, _, _ => by rw [peelFrom]; exact Keeps.pure _
  | fuel + 1, id, peeled => by
    rw [peelFrom]
    refine Keeps.bind (lookup_stays id) fun o? => ?_
    rcases o? with _ | o
    · exact Keeps.pure _
    -- a tag is read and the peeling goes on at its target; any other object ends it
    dsimp only
    split
    · exact Keeps.pure _
    · exact Keeps.bind (getTag_stays id) fun t => peelFrom_stays fuel _ _

theorem listReference_stays (l : Listing) (r : Reference) :
    Stays InBlobStore (listReference n l r) := by
  unfold listReference
  dsimp only
  -- the id is the reference's own or the end of its chain; what follows is the same
  split
  on_goal 1 => refine Keeps.bind (Keeps.pure _) fun id => ?_
  on_goal 2 => refine Keeps.bind (resolve_stays _) fun id => ?_
  -- `HEAD` records its id; another reference is listed, and a tag's peeled object after it
  all_goals
    split
    · exact Keeps.pure _
    rcases id with _ | id
    · exact Keeps.pure _
    dsimp only
    split
    · refine Keeps.bind (peelFrom_stays peelDepth id none : Stays InBlobStore (peelTag n id))
        fun peeled => ?_
      cases peeled <;> exact Keeps.pure _
    · exact Keeps.pure _

/-- **The advertisement changes nothing**: it lists the references, resolves the symbolic ones
and peels the tags, all by reading. -/
theorem infoRefs_stays (service : Wire.Service) (binding : Wire.Binding) :
    Stays InBlobStore (infoRefs n service binding) := by
  unfold infoRefs
  exact Keeps.bind refs_stays fun rs =>
    Keeps.bind (Keeps.foldlM listReference_stays rs _) fun _ => Keeps.pure _

/-! ## Upload-pack -/

theorem tagCandidates_stays : Stays InBlobStore (tagCandidates n) := by
  unfold tagCandidates
  refine Keeps.bind refs_stays fun rs =>
    Keeps.bind (Keeps.forIn (fun r found => ?_) _ _) fun _ => Keeps.pure _
  -- a reference is passed over, or the object it names is read
  split
  · exact Keeps.pure _
  split
  · dsimp only
    refine Keeps.bind (lookup_stays _) fun o? => ?_
    split
    · split <;> exact Keeps.pure _
    · exact Keeps.pure _
  · exact Keeps.pure _

/-- After the tags, the walk and the encoding change nothing. -/
theorem encodeCollected_stays (wants : List ObjectId) (common : Common) (tags : List ObjectId) :
    Stays InBlobStore (do
      let objects ← collect n wants common tags
      pure (Pack.streamPack objects.length (fun _ => true) objects).2) :=
  Keeps.bind (collect_stays _ _ _) fun _ => Keeps.pure _

theorem preparePack_stays (caps : List Wire.Capability) (wants : List ObjectId) (common : Common) :
    Stays InBlobStore (preparePack n caps wants common) := by
  unfold preparePack
  dsimp only
  split
  · exact Keeps.bind tagCandidates_stays (encodeCollected_stays wants common)
  · exact Keeps.bind (Keeps.pure _) (encodeCollected_stays wants common)

theorem takeHave_stays (common : Common) (id : ObjectId) :
    Stays InBlobStore (takeHave n common id) := by
  unfold takeHave
  split
  · exact Keeps.pure _
  refine Keeps.bind (hasObject_stays id) fun stored => ?_
  split <;> exact Keeps.pure _

theorem checkWants_stays (wants : List ObjectId) : Stays InBlobStore (checkWants n wants) := by
  unfold checkWants
  refine Keeps.bind (Keeps.forIn (fun w _ => ?_) _ _) fun _ => Keeps.pure _
  refine Keeps.bind (hasObject_stays w) fun stored => ?_
  split
  · exact Keeps.bind (Keeps.throw _) fun _ => Keeps.pure _
  · exact Keeps.pure _

theorem negotiate_stays (caps : List Wire.Capability) (wants : List ObjectId) (buf : Bytes)
    (common : Common) (out : Bytes) : Stays InBlobStore (negotiate n caps wants buf common out) := by
  fun_induction negotiate n caps wants buf common out with
  | case1 => exact Keeps.throw _
  | case2 => exact Keeps.pure _
  | case3 => exact Keeps.pure _
  | case4 buf common out line rest hread ihHave ihOther =>
    -- one line: a `have` and any other line go on with the rest, `done` answers the pack
    refine Keeps.bind (check_stays _) fun l => ?_
    rcases l with id | _ | _
    · exact Keeps.bind (takeHave_stays _ _) fun ⟨common', sent⟩ => ihHave common' sent
    · exact Keeps.bind (preparePack_stays _ _ _) fun _ => Keeps.pure _
    · exact ihOther

/-- **A fetch changes nothing.** Over a blob store, upload-pack leaves storage exactly as it
found it, whatever the request and whatever it answers. -/
theorem uploadPack_stays (request : Bytes) : Stays InBlobStore (uploadPack n request) := by
  unfold uploadPack
  refine Keeps.bind (check_stays _) fun ⟨wants, caps, rest⟩ => ?_
  dsimp only
  split
  · exact Keeps.pure _
  · exact Keeps.bind (checkWants_stays _) fun _ => negotiate_stays _ _ _ _ _

end Engine

end GitServer
