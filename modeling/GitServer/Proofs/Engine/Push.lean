import GitServer.Proofs.Engine.Unpack

/-!
# Applying the commands of a push

The rules a push's commands are judged by, stated on what storage holds and on the references
as they stand when each command comes (`Engine.commandVerdict`):

* a command whose name is `HEAD` or no valid reference is a `funny refname`;
* a command that does not delete needs its new object stored (`missing object`);
* a delete must say what it removes;
* the reference must hold the command's old id, or be absent when that id is zero
  (`stale old value`), and it then takes the new id, or goes for a delete.

Over storage that does not fail, `applyCommand` gives each command exactly this outcome and
moves the reference exactly when the outcome is a success (`applyCommand_run`), so applying the
commands in order is the rules run one after another (`mapM_applyCommand_run`).
-/

namespace GitServer

open Pack Storage Wire

namespace Wire.RefCommand

/-- The target a command expects its reference to hold: its old id, none when that is zero. -/
def expected (c : RefCommand) : Option RefTarget :=
  if c.old.isZero then none else some (.direct c.old)

/-- The target a command leaves its reference with: its new id, none for a delete. -/
def target (c : RefCommand) : Option RefTarget :=
  if c.new.isZero then none else some (.direct c.new)

theorem kind_eq_delete (c : RefCommand) : c.kind = .delete ↔ c.new.isZero = true := by
  unfold kind
  split_ifs with hnew <;> simp [hnew]

end Wire.RefCommand

/-- Whether repository `n` holds an object of this id. -/
def Storage.holds (n : RepoName) (s : Storage) (id : ObjectId) : Bool := (objectAt n s id).isSome

namespace Engine

variable {n : RepoName} {Good : Storage → Prop} {s : Storage}

/-! ## The rules -/

/-- The outcome the rules give a command, against the objects stored and the references held
when it comes. -/
def commandVerdict (stored : ObjectId → Bool) (refs : String → Option RefTarget)
    (c : RefCommand) : CommandStatus :=
  if c.name = headName ∨ (validateRefName c.name).isOk = false then .failed "funny refname"
  else if c.new.isZero = false ∧ stored c.new = false then .failed "missing object"
  else if c.new.isZero = true ∧ c.old.isZero = true then
    .failed (singleLine (ProtocolError.storage
      (.invalidRequest ("delete of " ++ c.name ++ " without an old value"))).message)
  else if refs c.name = c.expected then .success
  else .failed "stale old value"

/-- **When the rules accept a command**: its name is a valid reference other than `HEAD`, its
new object is stored unless it deletes, it is no delete without an old id, and the reference
holds what it expects. -/
theorem commandVerdict_eq_success_iff {stored : ObjectId → Bool}
    {refs : String → Option RefTarget} {c : RefCommand} :
    commandVerdict stored refs c = .success ↔
      c.name ≠ headName ∧ validateRefName c.name = .ok () ∧
      (c.new.isZero = false → stored c.new = true) ∧ ¬ (c.new.isZero = true ∧ c.old.isZero = true) ∧
      refs c.name = c.expected := by
  constructor
  · intro h
    unfold commandVerdict at h
    split_ifs at h with hfunny hmissing hnoold hcur
    -- only the fourth branch is a success
    refine ⟨fun hh => hfunny (.inl hh), ?_, fun hnew => ?_, hnoold, hcur⟩
    · cases hv : validateRefName c.name with
      | error e => exact absurd (.inr (by simp [hv, Except.isOk, Except.toBool])) hfunny
      | ok u => rfl
    · by_contra hst
      exact hmissing ⟨hnew, by simpa using hst⟩
  · rintro ⟨hname, hvalid, hpresent, hnoold, hcur⟩
    have hok : (validateRefName c.name).isOk = true := by rw [hvalid]; rfl
    have hmissing : ¬ (c.new.isZero = false ∧ stored c.new = false) := fun ⟨hnew, habsent⟩ => by
      simp [hpresent hnew] at habsent
    simp [commandVerdict, hname, hok, hmissing, hnoold, hcur]

/-- The references after a command: its reference moved when the rules accept it. -/
def afterCommand (stored : ObjectId → Bool) (refs : String → Option RefTarget)
    (c : RefCommand) : String → Option RefTarget :=
  if commandVerdict stored refs c = .success then Function.update refs c.name c.target else refs

/-- The references after the commands of a push, applied in order. -/
def afterCommands (stored : ObjectId → Bool) (refs : String → Option RefTarget)
    (cs : List RefCommand) : String → Option RefTarget :=
  cs.foldl (afterCommand stored) refs

/-- A command with the outcome the rules give it after the commands `before`. -/
def judgedAfter (stored : ObjectId → Bool) (refs : String → Option RefTarget)
    (before : List RefCommand) (c : RefCommand) : RefCommand :=
  { c with status := commandVerdict stored (afterCommands stored refs before) c }

/-- The commands of a push with the outcomes the rules give them, one after another. -/
def reported (stored : ObjectId → Bool) :
    (String → Option RefTarget) → List RefCommand → List RefCommand
  | _, [] => []
  | refs, c :: cs =>
    { c with status := commandVerdict stored refs c } :: reported stored (afterCommand stored refs c) cs

@[simp] theorem length_reported (stored : ObjectId → Bool) :
    ∀ (refs : String → Option RefTarget) (cs : List RefCommand),
      (reported stored refs cs).length = cs.length
  | _, [] => rfl
  | refs, c :: cs => by simp [reported, length_reported stored _ cs]

/-- **Command `k` is judged against the references after the commands before it.** -/
theorem getElem?_reported (stored : ObjectId → Bool) :
    ∀ (refs : String → Option RefTarget) (cs : List RefCommand) (k : Nat),
      (reported stored refs cs)[k]? = cs[k]?.map (judgedAfter stored refs (cs.take k))
  | _, [], _ => rfl
  | refs, c :: cs, 0 => by simp [reported, judgedAfter, afterCommands]
  | refs, c :: cs, k + 1 => by
    rw [reported, List.getElem?_cons_succ, getElem?_reported stored _ cs k]
    -- judging after `c` and then the first `k` of the rest is judging after the first `k + 1`
    rfl

/-! ## Moving a reference -/

theorem expectedTarget_old (c : RefCommand) :
    expectedTarget (if c.old.isZero then none else some c.old) = c.expected := by
  unfold expectedTarget RefCommand.expected
  split_ifs <;> rfl

theorem movedTarget_new (c : RefCommand) :
    movedTarget (if c.kind = .delete then none else some c.new) = c.target := by
  unfold movedTarget RefCommand.target
  by_cases hnew : c.new.isZero = true
  · simp [(RefCommand.kind_eq_delete c).mpr hnew, hnew]
  · have hkind : c.kind ≠ .delete := fun h => hnew ((RefCommand.kind_eq_delete c).mp h)
    simp [hkind, hnew]

/-- A delete that names no old id is refused before storage is asked. -/
theorem moveReference_of_no_old {c : RefCommand} (hnew : c.new.isZero = true)
    (hold : c.old.isZero = true) (s : Storage) :
    (moveReference n c).run.run s = (.ok { c with status := .failed (singleLine (ProtocolError.storage
      (.invalidRequest ("delete of " ++ c.name ++ " without an old value"))).message) }, s) := by
  have hkind := (RefCommand.kind_eq_delete c).mpr hnew
  unfold moveReference
  simp only [hold, hkind, if_true]
  rw [run_bind_of_ok (run_tryCatch_of_error
    (run_bind_of_error (updateReference_none_none c.name s)))]
  rfl

section Move

variable (hrel : Reliable n Good) (hs : Good s)
include hrel hs

/-- **A move that finds what it expects** writes the command's target and nothing else. -/
theorem moveReference_of_eq {c : RefCommand} (hvalid : validateRefName c.name = .ok ())
    (hmove : ¬ (c.new.isZero = true ∧ c.old.isZero = true))
    (hcur : targetAt n s c.name = c.expected) :
    ∃ s', (moveReference n c).run.run s = (.ok { c with status := .success }, s') ∧ Good s' ∧
      objectAt n s' = objectAt n s ∧
      targetAt n s' = Function.update (targetAt n s) c.name c.target := by
  have hsome : (if c.kind = .delete then none else some c.new).isSome ∨
      (if c.old.isZero then none else some c.old).isSome := by
    by_cases hnew : c.new.isZero = true
    · have hold : c.old.isZero = false := by simpa [hnew] using hmove
      simp [hold]
    · have hkind : c.kind ≠ .delete := fun h => hnew ((RefCommand.kind_eq_delete c).mp h)
      simp [hkind]
  obtain ⟨s', hrun, hgood, hobj, htgt⟩ :=
    Engine.Reliable.updateReference_of_eq hrel hs hvalid hsome (by rw [expectedTarget_old, hcur])
  refine ⟨s', ?_, hgood, hobj, by rw [htgt, movedTarget_new]⟩
  unfold moveReference
  dsimp only
  rw [run_bind_of_ok (run_tryCatch_of_ok (run_bind_of_ok (f := fun _ => pure none) hrun))]
  rfl

/-- **A move that finds another target** is a stale old value, and changes nothing. -/
theorem moveReference_of_ne {c : RefCommand} (hvalid : validateRefName c.name = .ok ())
    (hmove : ¬ (c.new.isZero = true ∧ c.old.isZero = true))
    (hcur : targetAt n s c.name ≠ c.expected) :
    (moveReference n c).run.run s = (.ok { c with status := .failed "stale old value" }, s) := by
  have hsome : (if c.kind = .delete then none else some c.new).isSome ∨
      (if c.old.isZero then none else some c.old).isSome := by
    by_cases hnew : c.new.isZero = true
    · have hold : c.old.isZero = false := by simpa [hnew] using hmove
      simp [hold]
    · have hkind : c.kind ≠ .delete := fun h => hnew ((RefCommand.kind_eq_delete c).mp h)
      simp [hkind]
  obtain ⟨expected, found, hrun⟩ :=
    Engine.Reliable.updateReference_of_ne hrel hs hvalid hsome (by rw [expectedTarget_old]; exact hcur)
  unfold moveReference
  dsimp only
  rw [run_bind_of_ok (run_tryCatch_of_error (run_bind_of_error (f := fun _ => pure none) hrun))]
  rfl

end Move

/-! ## Applying a command -/

/-- A command whose name is `HEAD` or no valid reference is refused before storage is asked. -/
theorem applyCommand_of_funny {c : RefCommand}
    (h : c.name = headName ∨ (validateRefName c.name).isOk = false) (s : Storage) :
    (applyCommand n c).run.run s = (.ok { c with status := .failed "funny refname" }, s) := by
  have hcond : (decide (c.name = headName) ||
      decide ((validateRefName c.name).toBool = false)) = true := by
    rcases h with h | h
    · simp [h]
    · simp only [Except.isOk] at h
      simp [h]
  simp only [applyCommand, hcond, if_true]
  rfl

section Apply

variable (hrel : Reliable n Good) (hs : Good s)
include hrel hs

/-- The object check of a command that does not delete reads storage only. -/
theorem applyCommand_of_checked {c : RefCommand} (hname : c.name ≠ headName)
    (hvalid : validateRefName c.name = .ok ())
    (hpresent : c.new.isZero = false → objectAt n s c.new ≠ none) :
    (applyCommand n c).run.run s = (moveReference n c).run.run s := by
  have hcond : (decide (c.name = headName) ||
      decide ((validateRefName c.name).toBool = false)) = false := by
    simp [hname, hvalid, Except.toBool]
  by_cases hnew : c.new.isZero = true
  · have hkind := (RefCommand.kind_eq_delete c).mpr hnew
    simp only [applyCommand, hcond, hkind, Bool.false_eq_true, if_false, ne_eq, not_true_eq_false]
  · have hkind : c.kind ≠ .delete := fun h => hnew ((RefCommand.kind_eq_delete c).mp h)
    have hstored : (objectAt n s c.new).isSome = true :=
      Option.isSome_iff_ne_none.mpr (hpresent (by simpa using hnew))
    simp only [applyCommand, hcond, hkind, Bool.false_eq_true, if_false, ne_eq, not_false_eq_true,
      if_true]
    rw [run_bind_of_ok (run_tryCatch_of_ok (run_bind_of_ok (x := hasObject n c.new)
      (f := fun b => pure (Sum.inl b)) (Engine.Reliable.hasObject_run hrel hs c.new))), hstored]

/-- A command that writes an object storage lacks is refused, and changes nothing. -/
theorem applyCommand_of_missing {c : RefCommand} (hname : c.name ≠ headName)
    (hvalid : validateRefName c.name = .ok ()) (hnew : c.new.isZero = false)
    (habsent : objectAt n s c.new = none) :
    (applyCommand n c).run.run s = (.ok { c with status := .failed "missing object" }, s) := by
  have hcond : (decide (c.name = headName) ||
      decide ((validateRefName c.name).toBool = false)) = false := by
    simp [hname, hvalid, Except.toBool]
  have hkind : c.kind ≠ .delete := fun h => by simp [(RefCommand.kind_eq_delete c).mp h] at hnew
  simp only [applyCommand, hcond, hkind, Bool.false_eq_true, if_false, ne_eq, not_false_eq_true,
    if_true]
  rw [run_bind_of_ok (run_tryCatch_of_ok (run_bind_of_ok (x := hasObject n c.new)
    (f := fun b => pure (Sum.inl b)) (Engine.Reliable.hasObject_run hrel hs c.new))), habsent]
  rfl

/-- **One command.** Over storage that does not fail, a command gets the outcome the rules give
it against the objects and references of the state, and its reference moves exactly when that
outcome is a success; objects stay. -/
theorem applyCommand_run (c : RefCommand) :
    ∃ s', (applyCommand n c).run.run s =
        (.ok { c with status := commandVerdict (holds n s) (targetAt n s) c }, s') ∧ Good s' ∧
      objectAt n s' = objectAt n s ∧
      targetAt n s' = afterCommand (holds n s) (targetAt n s) c := by
  by_cases hfunny : c.name = headName ∨ (validateRefName c.name).isOk = false
  · have hverdict : commandVerdict (holds n s) (targetAt n s) c = .failed "funny refname" := by
      simp [commandVerdict, hfunny]
    refine ⟨s, ?_, hs, rfl, by simp [afterCommand, hverdict]⟩
    rw [applyCommand_of_funny hfunny, hverdict]
  have hname : c.name ≠ headName := fun h => hfunny (.inl h)
  have hvalid : validateRefName c.name = .ok () := by
    cases hv : validateRefName c.name with
    | error e => exact absurd (.inr (by simp [hv, Except.isOk, Except.toBool])) hfunny
    | ok u => rfl
  -- past the name, the object check
  by_cases hmissing : c.new.isZero = false ∧ holds n s c.new = false
  · have hverdict : commandVerdict (holds n s) (targetAt n s) c = .failed "missing object" := by
      simp [commandVerdict, hfunny, hmissing]
    have habsent : objectAt n s c.new = none := by simpa [holds] using hmissing.2
    refine ⟨s, ?_, hs, rfl, by simp [afterCommand, hverdict]⟩
    rw [applyCommand_of_missing hrel hs hname hvalid hmissing.1 habsent, hverdict]
  have hpresent : c.new.isZero = false → objectAt n s c.new ≠ none := fun hnew habsent =>
    hmissing ⟨hnew, by simp [holds, habsent]⟩
  rw [applyCommand_of_checked hrel hs hname hvalid hpresent]
  -- past the object check, the move
  by_cases hnoold : c.new.isZero = true ∧ c.old.isZero = true
  · have hverdict : commandVerdict (holds n s) (targetAt n s) c = .failed (singleLine
        (ProtocolError.storage (.invalidRequest
          ("delete of " ++ c.name ++ " without an old value"))).message) := by
      simp [commandVerdict, hfunny, hnoold]
    refine ⟨s, ?_, hs, rfl, by simp [afterCommand, hverdict]⟩
    rw [moveReference_of_no_old hnoold.1 hnoold.2, hverdict]
  by_cases hcur : targetAt n s c.name = c.expected
  · have hverdict : commandVerdict (holds n s) (targetAt n s) c = .success := by
      simp [commandVerdict, hfunny, hmissing, hnoold, hcur]
    obtain ⟨s', hrun, hgood, hobj, htgt⟩ := moveReference_of_eq hrel hs hvalid hnoold hcur
    refine ⟨s', by rw [hrun, hverdict], hgood, hobj, by simp [afterCommand, hverdict, htgt]⟩
  · have hverdict : commandVerdict (holds n s) (targetAt n s) c = .failed "stale old value" := by
      simp [commandVerdict, hfunny, hmissing, hnoold, hcur]
    refine ⟨s, ?_, hs, rfl, by simp [afterCommand, hverdict]⟩
    rw [moveReference_of_ne hrel hs hvalid hnoold hcur, hverdict]

end Apply

/-- **The commands of a push**, applied in order over storage that does not fail, get the
outcomes the rules give them one after another, and leave the references the rules leave;
objects stay. -/
theorem mapM_applyCommand_run (hrel : Reliable n Good) :
    ∀ (cs : List RefCommand) {s : Storage}, Good s →
      ∃ s', (cs.mapM (applyCommand n)).run.run s =
          (.ok (reported (holds n s) (targetAt n s) cs), s') ∧ Good s' ∧
        objectAt n s' = objectAt n s ∧ targetAt n s' = afterCommands (holds n s) (targetAt n s) cs
  | [], s, hs => ⟨s, rfl, hs, rfl, rfl⟩
  | c :: cs, s, hs => by
    obtain ⟨s₁, hrun₁, hgood₁, hobj₁, htgt₁⟩ := applyCommand_run hrel hs c
    obtain ⟨s₂, hrun₂, hgood₂, hobj₂, htgt₂⟩ := mapM_applyCommand_run hrel cs hgood₁
    -- the command keeps the objects, so the rest is judged against the same ones
    have hholds : holds n s₁ = holds n s := by
      funext id
      simp [holds, hobj₁]
    rw [hholds, htgt₁] at hrun₂ htgt₂
    refine ⟨s₂, ?_, hgood₂, hobj₂.trans hobj₁, htgt₂⟩
    rw [List.mapM_cons, run_bind_of_ok hrun₁, run_bind_of_ok hrun₂]
    rfl

end Engine

end GitServer
