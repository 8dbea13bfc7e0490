import GitServer.Proofs.Storage.RemoteRefs
import GitServer.Proofs.Storage.LocalCreate
import Mathlib

/-!
# The reference store refines a map

Both media keep a repository's references so that every call answers as it would on a map
from names to targets. `RefLaws n refuses Holds` gathers what a medium must do for that: over
the states `Holds M` that hold the map `M`, reading a name answers the map, writing and
removing change it at that name, and the calls on names `refuses` turns down fail with an
error of the file system and leave the map alone. From these alone come the conditional calls
(`Storage.compareAndSwap`, `Storage.compareAndDelete`), one call at a time
(`RefLaws.run_answers`), and any sequence of calls (`RefLaws.runAll_trace`).

The blob store turns nothing down (`remote_refLaws`). The directory tree turns down the names
that lie above or below a name of the map, since a file cannot also be a directory of files
(`local_refLaws`). A repository created where it can go holds the references it starts with
(`run_create_of_freshFor`), so from there every sequence of calls answers as on the map
(`referenceStore_refines_map`).
-/

namespace GitServer

/-- Runs calls one after another on a handle of repository `n`; a call that fails does not stop
those after it. The answers come in order. -/
def RefCall.runAll (n : RepoName) : List RefCall → Storage → List (Except StorageError Unit) × Storage
  | [], s => ([], s)
  | c :: cs, s =>
    let r := (c.run n).run.run s
    let rest := runAll n cs r.2
    (r.1 :: rest.1, rest.2)

namespace Storage

/-- What a medium must do for the references of repository `n` to refine a map: `Holds M s`
says that `s` holds the map `M`, and `refuses M name` that the medium turns down calls on
`name`. -/
structure RefLaws (n : RepoName) (refuses : RefMap → String → Prop)
    (Holds : RefMap → Storage → Prop) : Prop where
  kept : ∀ {M s}, Holds M s → M.Kept
  /-- Reading a name the medium takes answers the map and changes nothing. -/
  read : ∀ {M s name}, Holds M s → RefName.Kept name → ¬ refuses M name →
    (getReference n name).run.run s = (M.read name, s)
  /-- Reading a name the medium turns down fails and changes nothing. -/
  readRefused : ∀ {M s name}, Holds M s → RefName.Kept name → refuses M name →
    ∃ msg, (getReference n name).run.run s = (.error (.io msg), s)
  /-- Writing a name the medium takes sets it. -/
  set : ∀ {M s} (r : Reference), Holds M s → RefName.Kept r.name → r.target.Kept →
    ¬ refuses M r.name → ∃ s', (setReference n r).run.run s = (.ok (), s') ∧
      Holds (Function.update M r.name (some r.target)) s'
  setRefused : ∀ {M s} (r : Reference), Holds M s → RefName.Kept r.name → refuses M r.name →
    ∃ msg s', (setReference n r).run.run s = (.error (.io msg), s') ∧ Holds M s'
  /-- Removing a name of the map removes it. -/
  delete : ∀ {M s name}, Holds M s → RefName.Kept name → M name ≠ none → ¬ refuses M name →
    ∃ s', (deleteReference n name).run.run s = (.ok (), s') ∧ Holds (Function.update M name none) s'
  /-- Removing a name the map does not hold fails as absent. -/
  deleteAbsent : ∀ {M s name}, Holds M s → RefName.Kept name → M name = none → ¬ refuses M name →
    ∃ s', (deleteReference n name).run.run s = (.error (.notFound ("reference " ++ name)), s') ∧
      Holds M s'
  deleteRefused : ∀ {M s name}, Holds M s → RefName.Kept name → refuses M name →
    ∃ msg s', (deleteReference n name).run.run s = (.error (.io msg), s') ∧ Holds M s'

namespace RefLaws

variable {n : RepoName} {refuses : RefMap → String → Prop} {Holds : RefMap → Storage → Prop}
  {M : RefMap} {s : Storage}

section

variable (L : RefLaws n refuses Holds) (hs : Holds M s)
include L hs

/-- The current target of a name the medium takes is the map's. -/
theorem currentTarget_eq {name : String} (hname : RefName.Kept name) (hr : ¬ refuses M name) :
    (currentTarget n name).run.run s = (.ok (M name), s) := by
  have hread := L.read hs hname hr
  unfold currentTarget
  cases hM : M name with
  | none =>
    rw [RefMap.read, hM] at hread
    rw [run_tryCatch_of_error (run_bind_of_error hread)]
    rfl
  | some t =>
    rw [RefMap.read, hM] at hread
    exact run_tryCatch_of_ok (by rw [run_bind_of_ok hread]; rfl)

theorem currentTarget_refused {name : String} (hname : RefName.Kept name) (hr : refuses M name) :
    ∃ msg, (currentTarget n name).run.run s = (.error (.io msg), s) := by
  obtain ⟨msg, hread⟩ := L.readRefused hs hname hr
  refine ⟨msg, ?_⟩
  unfold currentTarget
  rw [run_tryCatch_of_error (run_bind_of_error hread)]
  rfl

/-- **One call answers as it does on the map**, and leaves a state that holds the map it
leaves. -/
theorem run_answers {c : RefCall} (hc : c.Kept) :
    ∃ M', RefCall.Answers refuses M c ((c.run n).run.run s).1 M' ∧ Holds M' ((c.run n).run.run s).2 := by
  by_cases hr : refuses M c.name
  · -- a refused call fails at its first step on the medium
    cases c with
    | set r =>
      obtain ⟨msg, s', hrun, hs'⟩ := L.setRefused r hs hc.1 hr
      exact ⟨M, by rw [RefCall.run, hrun]; exact .refused hr, by rw [RefCall.run, hrun]; exact hs'⟩
    | delete name =>
      obtain ⟨msg, s', hrun, hs'⟩ := L.deleteRefused hs hc hr
      exact ⟨M, by rw [RefCall.run, hrun]; exact .refused hr, by rw [RefCall.run, hrun]; exact hs'⟩
    | swap r e =>
      obtain ⟨msg, hcur⟩ := L.currentTarget_refused hs hc.1 hr
      have hrun : (RefCall.run n (.swap r e)).run.run s = (.error (.io msg), s) := by
        rw [RefCall.run, compareAndSwap, run_bind_of_error hcur]
      exact ⟨M, by rw [hrun]; exact .refused hr, by rw [hrun]; exact hs⟩
    | remove name e =>
      obtain ⟨msg, hcur⟩ := L.currentTarget_refused hs hc hr
      have hrun : (RefCall.run n (.remove name e)).run.run s = (.error (.io msg), s) := by
        rw [RefCall.run, compareAndDelete, run_bind_of_error hcur]
      exact ⟨M, by rw [hrun]; exact .refused hr, by rw [hrun]; exact hs⟩
  cases c with
  | set r =>
    obtain ⟨s', hrun, hs'⟩ := L.set r hs hc.1 hc.2 hr
    exact ⟨_, by rw [RefCall.run, hrun]; exact .ok hr rfl, by rw [RefCall.run, hrun]; exact hs'⟩
  | delete name =>
    by_cases hM : M name = none
    · obtain ⟨s', hrun, hs'⟩ := L.deleteAbsent hs hc hM hr
      exact ⟨M, by rw [RefCall.run, hrun]; exact .error hr (by simp [RefCall.apply, hM]),
        by rw [RefCall.run, hrun]; exact hs'⟩
    · obtain ⟨s', hrun, hs'⟩ := L.delete hs hc hM hr
      exact ⟨Function.update M name none, by rw [RefCall.run, hrun]; exact .ok hr (by simp [RefCall.apply, hM]),
        by rw [RefCall.run, hrun]; exact hs'⟩
  | swap r e =>
    have hcur := L.currentTarget_eq hs hc.1 hr
    by_cases he : M r.name = e
    · -- the comparison holds: the target is written
      obtain ⟨s', hrun, hs'⟩ := L.set r hs hc.1 hc.2 hr
      have hrun' : (RefCall.run n (.swap r e)).run.run s = (.ok (), s') := by
        rw [RefCall.run, compareAndSwap, run_bind_of_ok hcur, if_neg (by simp [he])]
        exact hrun
      exact ⟨Function.update M r.name (some r.target), by rw [hrun']; exact .ok hr (by simp [RefCall.apply, he]),
        by rw [hrun']; exact hs'⟩
    · -- the comparison fails: a conflict naming both targets
      have hrun' : (RefCall.run n (.swap r e)).run.run s =
          (.error (.referenceConflict r.name (describe e) (describe (M r.name))), s) := by
        rw [RefCall.run, compareAndSwap, run_bind_of_ok hcur, if_pos he]
        rfl
      exact ⟨M, by rw [hrun']; exact .error hr (by simp [RefCall.apply, he]), by rw [hrun']; exact hs⟩
  | remove name e =>
    have hcur := L.currentTarget_eq hs hc hr
    by_cases he : M name = some e
    · obtain ⟨s', hrun, hs'⟩ := L.delete hs hc (by simp [he]) hr
      have hrun' : (RefCall.run n (.remove name e)).run.run s = (.ok (), s') := by
        rw [RefCall.run, compareAndDelete, run_bind_of_ok hcur, if_neg (by simp [he])]
        exact hrun
      exact ⟨Function.update M name none, by rw [hrun']; exact .ok hr (by simp [RefCall.apply, he]),
        by rw [hrun']; exact hs'⟩
    · have hrun' : (RefCall.run n (.remove name e)).run.run s =
          (.error (.referenceConflict name (describe (some e)) (describe (M name))), s) := by
        rw [RefCall.run, compareAndDelete, run_bind_of_ok hcur, if_pos he]
        rfl
      exact ⟨M, by rw [hrun']; exact .error hr (by simp [RefCall.apply, he]), by rw [hrun']; exact hs⟩

end

/-- **Any sequence of calls answers as it does on the map**, call by call. -/
theorem runAll_trace (L : RefLaws n refuses Holds) :
    ∀ (calls : List RefCall) {M : RefMap} {s : Storage}, Holds M s → (∀ c ∈ calls, c.Kept) →
      ∃ M', RefCall.Trace refuses M calls (RefCall.runAll n calls s).1 M' ∧
        Holds M' (RefCall.runAll n calls s).2
  | [], M, s, hs, _ => ⟨M, .nil M, hs⟩
  | c :: cs, M, s, hs, hcalls => by
    obtain ⟨M₁, hans, hs₁⟩ := L.run_answers hs (hcalls c (by simp))
    obtain ⟨M', htrace, hs'⟩ := runAll_trace L cs hs₁ fun c' hc' => hcalls c' (by simp [hc'])
    exact ⟨M', .cons hans htrace, hs'⟩

end RefLaws

/-! ## The two media -/

/-- Repository `n` is kept in a blob store that holds the map `M` of kept references. -/
def OnBlobStoreRefs (n : RepoName) (M : RefMap) (s : Storage) : Prop :=
  ∃ b, s.medium = .remote b ∧ Remote.HoldsRefs n M b ∧ M.Kept

/-- Repository `n` is kept in a directory tree that holds the map `M`. -/
def OnDiskRefs (n : RepoName) (M : RefMap) (s : Storage) : Prop :=
  ∃ d, s.medium = .disk d ∧ Local.HoldsRefs d.files (Local.repoDir n) M

/-- **A blob store keeps references as a map**, and turns no call down. -/
theorem remote_refLaws (n : RepoName) : RefLaws n (fun _ _ => False) (OnBlobStoreRefs n) where
  kept hs := by
    obtain ⟨_, _, _, hM⟩ := hs
    exact hM
  read {M s name} hs hname _ := by
    obtain ⟨b, hm, hb, hM⟩ := hs
    unfold getReference
    rw [run_onMedium_remote _ _ hm, Remote.run_getReference_of_holds hb hM hname.1, with_medium_eq hm]
  readRefused _ _ hr := hr.elim
  set {M s} r hs hname ht _ := by
    obtain ⟨b, hm, hb, hM⟩ := hs
    obtain ⟨name, t⟩ := r
    refine ⟨{ s with medium := .remote _ }, ?_, ⟨_, rfl, hb.put_ref name t,
      hM.update (fun _ => hname) (fun t' h => by cases h; exact ht)⟩⟩
    unfold setReference
    rw [run_onMedium_remote _ _ hm, Remote.run_setReference t hname.1]
  setRefused _ _ _ hr := hr.elim
  delete {M s name} hs hname hthere _ := by
    obtain ⟨b, hm, hb, hM⟩ := hs
    have hget : (b.get (Remote.key n name)).isSome := by
      cases h : b.get (Remote.key n name) with
      | none => exact absurd ((hb.get_eq_none_iff hname.1).mp h) hthere
      | some _ => rfl
    refine ⟨{ s with medium := .remote _ }, ?_, ⟨_, rfl, hb.delete_ref name,
      hM.update (fun h => absurd rfl h) (fun _ h => by simp at h)⟩⟩
    unfold deleteReference
    rw [run_onMedium_remote _ _ hm, Remote.run_deleteReference hname.1 hget]
  deleteAbsent {M s name} hs hname habsent _ := by
    obtain ⟨b, hm, hb, hM⟩ := hs
    refine ⟨s, ?_, ⟨b, hm, hb, hM⟩⟩
    unfold deleteReference
    rw [run_onMedium_remote _ _ hm,
      Remote.run_deleteReference_of_none hname.1 ((hb.get_eq_none_iff hname.1).mpr habsent),
      with_medium_eq hm]
  deleteRefused _ _ hr := hr.elim

/-- **A directory tree keeps references as a map**, and turns down the calls on names that a
name of the map lies above or below. -/
theorem local_refLaws (n : RepoName) : RefLaws n RefMap.Blocks (OnDiskRefs n) where
  kept hs := by
    obtain ⟨_, _, hd⟩ := hs
    exact hd.kept
  read {M s name} hs hname hb := by
    obtain ⟨d, hm, hd⟩ := hs
    unfold getReference
    rw [run_onMedium_disk _ _ hm, Local.run_getReference_of_holds _ hd hname hb, with_disk_eq hm]
  readRefused {M s name} hs hname hb := by
    obtain ⟨d, hm, hd⟩ := hs
    obtain ⟨msg, hrun⟩ := Local.run_getReference_of_blocks (Local.Handle.of n) hd hname hb
    refine ⟨msg, ?_⟩
    unfold getReference
    rw [run_onMedium_disk _ _ hm, hrun, with_disk_eq hm]
  set {M s} r hs hname ht hb := by
    obtain ⟨d, hm, hd⟩ := hs
    obtain ⟨t', hrun, ht', -⟩ := Local.run_setReference_of_holds (Local.Handle.of n) hd hname ht hb
    refine ⟨{ s with medium := .disk { d with files := t' } }, ?_, ⟨_, rfl, ht'⟩⟩
    unfold setReference
    rw [run_onMedium_disk _ _ hm, hrun]
  setRefused {M s} r hs hname hb := by
    obtain ⟨d, hm, hd⟩ := hs
    obtain ⟨msg, hrun⟩ := Local.run_setReference_of_blocks (Local.Handle.of n) hd hname hb
    refine ⟨msg, s, ?_, ⟨d, hm, hd⟩⟩
    unfold setReference
    rw [run_onMedium_disk _ _ hm, hrun, with_disk_eq hm]
  delete {M s name} hs hname hthere _ := by
    obtain ⟨d, hm, hd⟩ := hs
    obtain ⟨t', hrun, ht'⟩ := Local.run_deleteReference_of_some (Local.Handle.of n) hd hname hthere
    refine ⟨{ s with medium := .disk { d with files := t' } }, ?_, ⟨_, rfl, ht'⟩⟩
    unfold deleteReference
    rw [run_onMedium_disk _ _ hm, hrun]
  deleteAbsent {M s name} hs hname habsent hb := by
    obtain ⟨d, hm, hd⟩ := hs
    refine ⟨s, ?_, ⟨d, hm, hd⟩⟩
    unfold deleteReference
    rw [run_onMedium_disk _ _ hm,
      Local.run_deleteReference_of_none (Local.Handle.of n) hd hname hb habsent, with_disk_eq hm]
  deleteRefused {M s name} hs hname hb := by
    obtain ⟨d, hm, hd⟩ := hs
    obtain ⟨msg, hrun⟩ := Local.run_deleteReference_of_blocks (Local.Handle.of n) hd hname hb
    refine ⟨msg, s, ?_, ⟨d, hm, hd⟩⟩
    unfold deleteReference
    rw [run_onMedium_disk _ _ hm, hrun, with_disk_eq hm]

/-! ## From a new repository -/

/-- What one medium answers for a map: from a state that holds it, a sequence of calls answers
call by call as on the map, and then every name the medium takes reads what the map leaves. -/
theorem RefLaws.refines {n : RepoName} {refuses : RefMap → String → Prop}
    {Holds : RefMap → Storage → Prop} (L : RefLaws n refuses Holds) {M : RefMap} {s : Storage}
    (hs : Holds M s) (calls : List RefCall) (hcalls : ∀ c ∈ calls, c.Kept) :
    ∃ M', RefCall.Trace refuses M calls (RefCall.runAll n calls s).1 M' ∧
      ∀ name, RefName.Kept name → ¬ refuses M' name →
        (getReference n name).run.run (RefCall.runAll n calls s).2 =
          (M'.read name, (RefCall.runAll n calls s).2) := by
  obtain ⟨M', htrace, hs'⟩ := L.runAll_trace calls hs hcalls
  exact ⟨M', htrace, fun name hname hr => L.read hs' hname hr⟩

/-- Repository `n` can be created in `s`: on a blob store none of its reference keys is taken,
and on disk there is room for its directory. -/
def FreshFor (n : RepoName) (s : Storage) : Prop :=
  match s.medium with
  | .remote b => Remote.FreshRefs n b
  | .disk d => Local.Room d.files (Local.repoDir n)

/-- The names the medium of `s` turns down besides what the map says: none on a blob store, and
on disk those that lie above or below a name of the map. -/
def Refuses (s : Storage) (M : RefMap) (name : String) : Prop :=
  match s.medium with
  | .remote _ => False
  | .disk _ => M.Blocks name

theorem run_create_eq (n : RepoName) (s : Storage) :
    (create n).run.run s =
      (onMedium (Remote.create n s.init s.now) (Local.create n s.init s.now)).run.run s := by
  unfold create
  rw [run_bind_of_ok (rfl : (get : StoreM Storage).run.run s = (.ok s, s))]

theorem run_create_of_blobStore {n : RepoName} {s : Storage} {b : BlobStore}
    (hm : s.medium = .remote b) (hfresh : Remote.FreshRefs n b)
    (hhead : RefTarget.Kept (.symbolic s.init.branchRef))
    (hbranch : s.init.initialCommit = true → RefName.Kept s.init.branchRef) :
    ∃ s₁, (create n).run.run s = (.ok (), s₁) ∧ OnBlobStoreRefs n (initialRefs n s.init s.now) s₁ := by
  obtain ⟨b', hrun, hb'⟩ := Remote.run_create_of_fresh hfresh s.init s.now fun h => (hbranch h).1
  refine ⟨{ s with medium := .remote b' }, ?_, b', rfl, hb', initialRefs_kept hhead hbranch⟩
  rw [run_create_eq, run_onMedium_remote _ _ hm, hrun]

theorem run_create_of_disk {n : RepoName} {s : Storage} {d : Disk} (hm : s.medium = .disk d)
    (hroom : Local.Room d.files (Local.repoDir n))
    (hhead : RefTarget.Kept (.symbolic s.init.branchRef))
    (hbranch : s.init.initialCommit = true → RefName.Kept s.init.branchRef) :
    ∃ s₁, (create n).run.run s = (.ok (), s₁) ∧ OnDiskRefs n (initialRefs n s.init s.now) s₁ := by
  obtain ⟨t', hrun, ht'⟩ := Local.run_create_of_room n hroom s.init s.now hhead hbranch
  refine ⟨{ s with medium := .disk { d with files := t' } }, ?_, _, rfl, ht'⟩
  rw [run_create_eq, run_onMedium_disk _ _ hm, hrun]

/-- **The reference store refines a map.** Creating repository `n` where it can go succeeds;
from the references it starts with, every sequence of calls on kept names and targets answers
call by call as on a map: a write sets the name, a removal of a name the map holds erases it
and of one it does not hold fails as absent, a compare-and-swap or compare-and-delete changes
the map exactly when the name holds the expected target and otherwise fails with a conflict,
and a failed call leaves the map as it was. No call fails otherwise, except on disk a call on a
name that lies above or below a name of the map. Afterwards every kept name the medium takes
reads what the map holds. -/
theorem referenceStore_refines_map {s₀ : Storage} {n : RepoName} (hfresh : FreshFor n s₀)
    (hhead : RefTarget.Kept (.symbolic s₀.init.branchRef))
    (hbranch : s₀.init.initialCommit = true → RefName.Kept s₀.init.branchRef)
    (calls : List RefCall) (hcalls : ∀ c ∈ calls, c.Kept) :
    ∃ s₁, (create n).run.run s₀ = (.ok (), s₁) ∧
      ∃ M, RefCall.Trace s₀.Refuses (initialRefs n s₀.init s₀.now) calls
          (RefCall.runAll n calls s₁).1 M ∧
        ∀ name, RefName.Kept name → ¬ s₀.Refuses M name →
          (getReference n name).run.run (RefCall.runAll n calls s₁).2 =
            (M.read name, (RefCall.runAll n calls s₁).2) := by
  cases hm : s₀.medium with
  | remote b =>
    have hrefuses : s₀.Refuses = fun _ _ => False := by
      funext M name
      simp [Refuses, hm]
    rw [FreshFor, hm] at hfresh
    obtain ⟨s₁, hrun, hs₁⟩ := run_create_of_blobStore hm hfresh hhead hbranch
    exact ⟨s₁, hrun, hrefuses ▸ (remote_refLaws n).refines hs₁ calls hcalls⟩
  | disk d =>
    have hrefuses : s₀.Refuses = RefMap.Blocks := by
      funext M name
      simp [Refuses, hm]
    rw [FreshFor, hm] at hfresh
    obtain ⟨s₁, hrun, hs₁⟩ := run_create_of_disk hm hfresh hhead hbranch
    exact ⟨s₁, hrun, hrefuses ▸ (local_refLaws n).refines hs₁ calls hcalls⟩

/-- On an empty disk whose new repositories start without a first commit: `HEAD` is removed,
written back as a direct reference, and swapped back to the branch. -/
theorem referenceStore_refines_map_onEmptyDisk :
    FreshFor ⟨"demo.git"⟩ ⟨.disk ⟨.empty, .empty 16⟩, { initialCommit := false }, 0⟩ ∧
    RefTarget.Kept (.symbolic "refs/heads/main") ∧
    (∀ c ∈ [.delete headName, .set ⟨headName, .direct .zero⟩,
      .swap ⟨headName, .symbolic "refs/heads/main"⟩ (some (.direct .zero))], RefCall.Kept c) ∧
    ∃ s₁, (create ⟨"demo.git"⟩).run.run ⟨.disk ⟨.empty, .empty 16⟩, { initialCommit := false }, 0⟩ =
        (.ok (), s₁) ∧
      ∃ M, RefCall.Trace (Refuses ⟨.disk ⟨.empty, .empty 16⟩, { initialCommit := false }, 0⟩)
          (initialRefs ⟨"demo.git"⟩ { initialCommit := false } 0)
          [.delete headName, .set ⟨headName, .direct .zero⟩,
            .swap ⟨headName, .symbolic "refs/heads/main"⟩ (some (.direct .zero))]
          (RefCall.runAll ⟨"demo.git"⟩ [.delete headName, .set ⟨headName, .direct .zero⟩,
            .swap ⟨headName, .symbolic "refs/heads/main"⟩ (some (.direct .zero))] s₁).1 M ∧
        ∀ name, RefName.Kept name →
          ¬ Refuses ⟨.disk ⟨.empty, .empty 16⟩, { initialCommit := false }, 0⟩ M name →
          (getReference ⟨"demo.git"⟩ name).run.run (RefCall.runAll ⟨"demo.git"⟩
              [.delete headName, .set ⟨headName, .direct .zero⟩,
                .swap ⟨headName, .symbolic "refs/heads/main"⟩ (some (.direct .zero))] s₁).2 =
            (M.read name, (RefCall.runAll ⟨"demo.git"⟩ [.delete headName, .set ⟨headName, .direct .zero⟩,
              .swap ⟨headName, .symbolic "refs/heads/main"⟩ (some (.direct .zero))] s₁).2) := by
  have hfresh : FreshFor ⟨"demo.git"⟩ ⟨.disk ⟨.empty, .empty 16⟩, { initialCommit := false }, 0⟩ :=
    Local.Room.empty _
  have hhead : RefTarget.Kept (.symbolic "refs/heads/main") := ⟨by decide, by decide⟩
  have hcalls : ∀ c ∈ [RefCall.delete headName, .set ⟨headName, .direct .zero⟩,
      .swap ⟨headName, .symbolic "refs/heads/main"⟩ (some (.direct .zero))], RefCall.Kept c := by
    intro c hc
    simp only [List.mem_cons, List.not_mem_nil, or_false] at hc
    rcases hc with rfl | rfl | rfl
    · exact headName_kept
    · exact ⟨headName_kept, trivial⟩
    · exact ⟨headName_kept, hhead⟩
  exact ⟨hfresh, hhead, hcalls, referenceStore_refines_map hfresh hhead (fun h => absurd h (by decide))
    _ hcalls⟩

end Storage

end GitServer
