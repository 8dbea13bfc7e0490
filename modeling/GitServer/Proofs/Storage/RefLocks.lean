import GitServer.Storage.RefLocks
import GitServer.Proofs.Storage.Reliable
import GitServer.Proofs.Storage.RemoteStore
import Mathlib

/-!
# Per-reference locks serialise compare-and-swap

Every run of the tasks of `LockWorld`, in any interleaving, keeps `LockInv`: a task that holds a
clone holds the mutex of its key's entry, a mutex has one holder at most, an entry stays while
some task of its key is between taking it and pruning it, and no two keys share a mutex. Hence
no two tasks of one key are ever between acquiring and releasing at once, though entries are
removed and made again (`LockInv.exclusive`), and the map is empty once every task is done
(`LockInv.entries_eq_none`).

Over storage that does not fail, and tasks on one repository, every run also keeps `RefInv`:
the tasks that have written on a reference, in some order, each found the target the one
before it left (`Linearized`). Of tasks that all swap a reference from its first target to
another, exactly one writes.
-/

namespace GitServer

namespace TaskPhase

theorem active_of_done {p : TaskPhase} (h : p.done = true) : p.active = false := by
  cases p <;> simp_all [done, active]

theorem succeeded_or_failed_of_done {p : TaskPhase} (h : p.done = true) :
    p.succeeded = true ∨ p.failed = true := by
  cases p with
  | finished answer => cases answer <;> simp [succeeded, failed]
  | _ => simp [done] at h

theorem clone?_of_holds? {p : TaskPhase} {m : Nat} (h : p.holds? = some m) : p.clone? = some m := by
  cases p <;> simp_all [holds?, clone?]

theorem active_of_clone? {p : TaskPhase} {m : Nat} (h : p.clone? = some m) : p.active = true := by
  cases p <;> simp_all [clone?, active]

end TaskPhase

namespace LockWorld

variable {k : Nat} {tasks : Fin k → RefTask} {w w' : LockWorld k} {i : Fin k}

/-! ## The world after one step -/

@[simp] theorem moveTo_phase (p : TaskPhase) (j : Fin k) :
    (w.moveTo i p).phase j = if j = i then p else w.phase j := rfl

@[simp] theorem moveTo_entries (p : TaskPhase) : (w.moveTo i p).entries = w.entries := rfl

@[simp] theorem moveTo_fresh (p : TaskPhase) : (w.moveTo i p).fresh = w.fresh := rfl

@[simp] theorem moveTo_storage (p : TaskPhase) : (w.moveTo i p).storage = w.storage := rfl

theorem held_iff {m : Nat} : w.held m = true ↔ ∃ j, (w.phase j).holds? = some m := by
  simp [held]

theorem cloned_iff {m : Nat} : w.cloned m = true ↔ ∃ j, (w.phase j).clone? = some m := by
  simp [cloned]

@[simp] theorem takeEntry_storage (key : String) : (w.takeEntry key).2.storage = w.storage := by
  unfold takeEntry
  split <;> rfl

@[simp] theorem takeEntry_phase (key : String) : (w.takeEntry key).2.phase = w.phase := by
  unfold takeEntry
  split <;> rfl

@[simp] theorem pruneEntry_storage (key : String) : (w.pruneEntry key).storage = w.storage := by
  unfold pruneEntry
  repeat' split
  all_goals rfl

@[simp] theorem pruneEntry_phase (key : String) : (w.pruneEntry key).phase = w.phase := by
  unfold pruneEntry
  repeat' split
  all_goals rfl

theorem step_start (h : w.phase i = .start) :
    w.step tasks i = some ((w.takeEntry (tasks i).key).2.moveTo i
      (.waiting (w.takeEntry (tasks i).key).1)) := by
  simp only [step, h]

theorem step_waiting {m : Nat} (h : w.phase i = .waiting m) :
    w.step tasks i = if w.held m then none else some (w.moveTo i (.locked m)) := by
  simp only [step, h]

theorem step_locked {m : Nat} {current : Except StorageError (Option RefTarget)} {s : Storage}
    (h : w.phase i = .locked m)
    (hrun : (Storage.currentTarget (tasks i).repo (tasks i).ref).run.run w.storage = (current, s)) :
    w.step tasks i = some ({ w with storage := s }.moveTo i (.read m current)) := by
  simp only [step, h, hrun]

theorem step_read {m : Nat} {current : Except StorageError (Option RefTarget)}
    {answer : Except StorageError Unit} {s : Storage} (h : w.phase i = .read m current)
    (hrun : ((tasks i).finish current).run.run w.storage = (answer, s)) :
    w.step tasks i = some ({ w with storage := s }.moveTo i (.decided m answer)) := by
  simp only [step, h, hrun]

theorem step_decided {m : Nat} {answer : Except StorageError Unit}
    (h : w.phase i = .decided m answer) :
    w.step tasks i = some (w.moveTo i (.released answer)) := by
  simp only [step, h]

theorem step_released {answer : Except StorageError Unit} (h : w.phase i = .released answer) :
    w.step tasks i = some ((w.moveTo i (.finished answer)).pruneEntry (tasks i).key) := by
  simp only [step, h]

theorem step_finished {answer : Except StorageError Unit} (h : w.phase i = .finished answer) :
    w.step tasks i = none := by
  simp only [step, h]

/-! ## The lock map -/

variable (tasks) in
/-- What the lock map keeps through every run. -/
structure LockInv (w : LockWorld k) : Prop where
  /-- A task that holds a clone holds the mutex of its key's entry. -/
  clone_entry : ∀ i m, (w.phase i).clone? = some m → w.entries (tasks i).key = some m
  /-- A mutex has one holder at most. -/
  holder_unique : ∀ i j m, (w.phase i).holds? = some m → (w.phase j).holds? = some m → i = j
  /-- An entry stays while a task of its key is between taking and pruning it. -/
  entry_active : ∀ key m, w.entries key = some m →
    ∃ i, (tasks i).key = key ∧ (w.phase i).active = true
  /-- No two keys share a mutex. -/
  entry_unique : ∀ key key' m, w.entries key = some m → w.entries key' = some m → key = key'
  /-- Every mutex of the map was made before the next one. -/
  entry_lt_fresh : ∀ key m, w.entries key = some m → m < w.fresh

theorem lockInv_init (s : Storage) : LockInv tasks (init s : LockWorld k) where
  clone_entry _ _ h := by simp [init, TaskPhase.clone?] at h
  holder_unique _ _ _ h := by simp [init, TaskPhase.holds?] at h
  entry_active _ _ h := by simp [init] at h
  entry_unique _ _ _ h := by simp [init] at h
  entry_lt_fresh _ _ h := by simp [init] at h

namespace LockInv

variable (hinv : LockInv tasks w)
include hinv

/-- A move of one task that makes it hold no more than it held, and leaves the map as it was,
keeps the invariant: steps 3, 4 and 5. -/
theorem of_moveTo (i : Fin k) (hentries : w'.entries = w.entries) (hfresh : w'.fresh = w.fresh)
    (hphase : ∀ j, j ≠ i → w'.phase j = w.phase j)
    (hclone : (w'.phase i).clone? = none ∨ (w'.phase i).clone? = (w.phase i).clone?)
    (hholds : (w'.phase i).holds? = none ∨ (w'.phase i).holds? = (w.phase i).holds?)
    (hactive : (w'.phase i).active = (w.phase i).active) : LockInv tasks w' := by
  have clone_of : ∀ j m, (w'.phase j).clone? = some m → (w.phase j).clone? = some m := by
    intro j m hj
    by_cases hji : j = i
    · subst hji
      rcases hclone with h | h <;> simp_all
    · rwa [hphase j hji] at hj
  have holds_of : ∀ j m, (w'.phase j).holds? = some m → (w.phase j).holds? = some m := by
    intro j m hj
    by_cases hji : j = i
    · subst hji
      rcases hholds with h | h <;> simp_all
    · rwa [hphase j hji] at hj
  have active_eq : ∀ j, (w'.phase j).active = (w.phase j).active := by
    intro j
    by_cases hji : j = i
    · subst hji
      exact hactive
    · rw [hphase j hji]
  refine ⟨?_, ?_, ?_, ?_, ?_⟩
  · intro j m hj
    rw [hentries]
    exact hinv.clone_entry j m (clone_of j m hj)
  · intro j j' m hj hj'
    exact hinv.holder_unique j j' m (holds_of j m hj) (holds_of j' m hj')
  · intro key m hk
    rw [hentries] at hk
    obtain ⟨j, hjk, hja⟩ := hinv.entry_active key m hk
    exact ⟨j, hjk, by rw [active_eq j, hja]⟩
  · intro key key' m hk hk'
    rw [hentries] at hk hk'
    exact hinv.entry_unique key key' m hk hk'
  · intro key m hk
    rw [hentries] at hk
    rw [hfresh]
    exact hinv.entry_lt_fresh key m hk

/-- Step 1 keeps the invariant: the task clones the mutex of its key's entry, and the entry
is made, with a new mutex, when the key has none. -/
theorem take (hi : w.phase i = .start) :
    LockInv tasks ((w.takeEntry (tasks i).key).2.moveTo i
      (.waiting (w.takeEntry (tasks i).key).1)) := by
  have holds_of : ∀ {w₁ : LockWorld k} {m : Nat}, (∀ j, j ≠ i → w₁.phase j = w.phase j) →
      ∀ j m', ((w₁.moveTo i (.waiting m)).phase j).holds? = some m' →
        j ≠ i ∧ (w.phase j).holds? = some m' := by
    intro w₁ m hw₁ j m' hj
    by_cases hji : j = i
    · simp [hji, TaskPhase.holds?] at hj
    · simp only [moveTo_phase, hji, if_false, hw₁ j hji] at hj
      exact ⟨hji, hj⟩
  have active_of : ∀ {w₁ : LockWorld k} {m : Nat}, (∀ j, j ≠ i → w₁.phase j = w.phase j) →
      ∀ j, (w.phase j).active = true → ((w₁.moveTo i (.waiting m)).phase j).active = true := by
    intro w₁ m hw₁ j hj
    by_cases hji : j = i
    · simp [hji, TaskPhase.active]
    · simpa [hji, hw₁ j hji] using hj
  cases hkey : w.entries (tasks i).key with
  | some m =>
    simp only [takeEntry, hkey]
    refine ⟨?_, ?_, ?_, hinv.entry_unique, hinv.entry_lt_fresh⟩
    · intro j m' hj
      by_cases hji : j = i
      · subst hji
        simp only [moveTo_phase, if_true, TaskPhase.clone?, Option.some.injEq] at hj
        rw [moveTo_entries, hkey, hj]
      · simp only [moveTo_phase, hji, if_false] at hj
        exact hinv.clone_entry j m' hj
    · intro j j' m' hj hj'
      exact hinv.holder_unique j j' m' (holds_of (fun _ _ => rfl) j m' hj).2
        (holds_of (fun _ _ => rfl) j' m' hj').2
    · intro key m' hk
      obtain ⟨j, hjk, hja⟩ := hinv.entry_active key m' hk
      exact ⟨j, hjk, active_of (fun _ _ => rfl) j hja⟩
  | none =>
    simp only [takeEntry, hkey]
    refine ⟨?_, ?_, ?_, ?_, ?_⟩
    · intro j m' hj
      by_cases hji : j = i
      · subst hji
        simp only [moveTo_phase, if_true, TaskPhase.clone?, Option.some.injEq] at hj
        simp [hj]
      · simp only [moveTo_phase, hji, if_false] at hj
        have hold := hinv.clone_entry j m' hj
        have hne : (tasks j).key ≠ (tasks i).key := fun h => by rw [h, hkey] at hold; cases hold
        simp [hne, hold]
    · intro j j' m' hj hj'
      exact hinv.holder_unique j j' m' (holds_of (fun _ _ => rfl) j m' hj).2
        (holds_of (fun _ _ => rfl) j' m' hj').2
    · intro key m' hk
      by_cases hki : key = (tasks i).key
      · exact ⟨i, hki.symm, by simp [TaskPhase.active]⟩
      · simp only [moveTo_entries, hki, if_false] at hk
        obtain ⟨j, hjk, hja⟩ := hinv.entry_active key m' hk
        exact ⟨j, hjk, active_of (fun _ _ => rfl) j hja⟩
    · intro key key' m' hk hk'
      simp only [moveTo_entries] at hk hk'
      by_cases hki : key = (tasks i).key <;> by_cases hki' : key' = (tasks i).key
      · rw [hki, hki']
      · simp only [hki, hki', if_true, if_false, Option.some.injEq] at hk hk'
        have := hinv.entry_lt_fresh key' m' hk'
        omega
      · simp only [hki, hki', if_true, if_false, Option.some.injEq] at hk hk'
        have := hinv.entry_lt_fresh key m' hk
        omega
      · simp only [hki, hki', if_false] at hk hk'
        exact hinv.entry_unique key key' m' hk hk'
    · intro key m' hk
      simp only [moveTo_entries, moveTo_fresh] at hk ⊢
      by_cases hki : key = (tasks i).key
      · simp only [hki, if_true, Option.some.injEq] at hk
        omega
      · simp only [hki, if_false] at hk
        have := hinv.entry_lt_fresh key m' hk
        omega

/-- Step 2 keeps the invariant: a task acquires its mutex only when no task holds it. -/
theorem acquire {m : Nat} (hi : w.phase i = .waiting m) (hfree : w.held m = false) :
    LockInv tasks (w.moveTo i (.locked m)) := by
  have clone_eq : ∀ j, ((w.moveTo i (.locked m)).phase j).clone? = (w.phase j).clone? := by
    intro j
    by_cases hji : j = i
    · simp [hji, hi, TaskPhase.clone?]
    · simp [hji]
  have active_eq : ∀ j, ((w.moveTo i (.locked m)).phase j).active = (w.phase j).active := by
    intro j
    by_cases hji : j = i
    · simp [hji, hi, TaskPhase.active]
    · simp [hji]
  -- a holder of `m` other than `i` would have held it before, against `hfree`
  have holds_of : ∀ j m', ((w.moveTo i (.locked m)).phase j).holds? = some m' →
      j = i ∧ m' = m ∨ j ≠ i ∧ (w.phase j).holds? = some m' := by
    intro j m' hj
    by_cases hji : j = i
    · simp only [moveTo_phase, hji, if_true, TaskPhase.holds?, Option.some.injEq] at hj
      exact .inl ⟨hji, hj.symm⟩
    · simp only [moveTo_phase, hji, if_false] at hj
      exact .inr ⟨hji, hj⟩
  have not_held : ∀ j, (w.phase j).holds? ≠ some m := fun j hj => by
    have := held_iff.2 ⟨j, hj⟩
    rw [hfree] at this
    cases this
  refine ⟨?_, ?_, ?_, hinv.entry_unique, hinv.entry_lt_fresh⟩
  · intro j m' hj
    rw [clone_eq] at hj
    exact hinv.clone_entry j m' hj
  · intro j j' m' hj hj'
    rcases holds_of j m' hj with ⟨hji, hm⟩ | ⟨hji, hj⟩ <;>
      rcases holds_of j' m' hj' with ⟨hji', hm'⟩ | ⟨hji', hj'⟩
    · rw [hji, hji']
    · exact absurd (hm ▸ hj') (not_held j')
    · exact absurd (hm' ▸ hj) (not_held j)
    · exact hinv.holder_unique j j' m' hj hj'
  · intro key m' hk
    obtain ⟨j, hjk, hja⟩ := hinv.entry_active key m' hk
    exact ⟨j, hjk, by rw [active_eq, hja]⟩

/-- Step 6 keeps the invariant: the entry goes only when no task holds a clone of its mutex,
and stays while one does, for that task is of the entry's key. -/
theorem prune {answer : Except StorageError Unit} (hi : w.phase i = .released answer) :
    LockInv tasks ((w.moveTo i (.finished answer)).pruneEntry (tasks i).key) := by
  have clone_eq : ∀ j, ((w.moveTo i (.finished answer)).phase j).clone? = (w.phase j).clone? := by
    intro j
    by_cases hji : j = i
    · simp [hji, hi, TaskPhase.clone?]
    · simp [hji]
  have holds_eq : ∀ j, ((w.moveTo i (.finished answer)).phase j).holds? = (w.phase j).holds? := by
    intro j
    by_cases hji : j = i
    · simp [hji, hi, TaskPhase.holds?]
    · simp [hji]
  -- a witness of another key's entry is another task, whose phase the step leaves
  have witness : ∀ key m, key ≠ (tasks i).key → w.entries key = some m →
      ∃ j, (tasks j).key = key ∧ ((w.moveTo i (.finished answer)).phase j).active = true := by
    intro key m hki hk
    obtain ⟨j, hjk, hja⟩ := hinv.entry_active key m hk
    have hji : j ≠ i := fun h => hki (by rw [← hjk, h])
    exact ⟨j, hjk, by simpa [hji] using hja⟩
  -- where the entry stays, only the entries' witnesses need a look
  have keep : (∀ key m, w.entries key = some m →
      ∃ j, (tasks j).key = key ∧ ((w.moveTo i (.finished answer)).phase j).active = true) →
      LockInv tasks (w.moveTo i (.finished answer)) := fun hwitness =>
    ⟨fun j m hj => by rw [clone_eq] at hj; exact hinv.clone_entry j m hj,
      fun j j' m hj hj' => by rw [holds_eq] at hj hj'; exact hinv.holder_unique j j' m hj hj',
      hwitness, hinv.entry_unique, hinv.entry_lt_fresh⟩
  cases hkey : w.entries (tasks i).key with
  | none =>
    simp only [pruneEntry, moveTo_entries, hkey]
    exact keep fun key m hk => witness key m (fun h => by rw [h, hkey] at hk; cases hk) hk
  | some m =>
    simp only [pruneEntry, moveTo_entries, hkey]
    split
    · -- a clone of the entry's mutex is left: its holder is a task of this key
      rename_i hcloned
      obtain ⟨j, hj⟩ := cloned_iff.1 hcloned
      rw [clone_eq] at hj
      have hjkey : (tasks j).key = (tasks i).key :=
        hinv.entry_unique _ _ m (hinv.clone_entry j m hj) hkey
      refine keep fun key m' hk => ?_
      by_cases hki : key = (tasks i).key
      · refine ⟨j, hjkey.trans hki.symm, ?_⟩
        exact TaskPhase.active_of_clone? (by rw [clone_eq]; exact hj)
      · exact witness key m' hki hk
    · -- no clone is left: the entry goes
      rename_i hcloned
      refine ⟨fun j m' hj => ?_, fun j j' m' hj hj' => ?_, fun key m' hk => ?_,
        fun key key' m' hk hk' => ?_, fun key m' hk => ?_⟩
      · simp only [moveTo_phase] at hj
        rw [← moveTo_phase, clone_eq] at hj
        have hold := hinv.clone_entry j m' hj
        by_cases hji : (tasks j).key = (tasks i).key
        · rw [hji, hkey, Option.some.injEq] at hold
          subst hold
          exact absurd (cloned_iff.2 ⟨j, by rw [clone_eq]; exact hj⟩) (by simpa using hcloned)
        · simp [hji, hold]
      · simp only [moveTo_phase] at hj hj'
        rw [← moveTo_phase, holds_eq] at hj hj'
        exact hinv.holder_unique j j' m' hj hj'
      · by_cases hki : key = (tasks i).key
        · simp [hki] at hk
        · simp only [hki, if_false] at hk
          exact witness key m' hki hk
      · by_cases hki : key = (tasks i).key
        · simp [hki] at hk
        · by_cases hki' : key' = (tasks i).key
          · simp [hki'] at hk'
          · simp only [hki, hki', if_false] at hk hk'
            exact hinv.entry_unique key key' m' hk hk'
      · by_cases hki : key = (tasks i).key
        · simp [hki] at hk
        · simp only [hki, if_false] at hk
          exact hinv.entry_lt_fresh key m' hk

/-- Every step keeps the invariant. -/
theorem step (h : w.step tasks i = some w') : LockInv tasks w' := by
  cases hp : w.phase i with
  | start =>
    rw [step_start hp, Option.some.injEq] at h
    subst h
    exact hinv.take hp
  | waiting m =>
    rw [step_waiting hp] at h
    split at h
    · cases h
    · rename_i hfree
      rw [Option.some.injEq] at h
      subst h
      exact hinv.acquire hp (by simpa using hfree)
  | locked m =>
    rcases hrun : (Storage.currentTarget (tasks i).repo (tasks i).ref).run.run w.storage with
      ⟨current, s⟩
    rw [step_locked hp hrun, Option.some.injEq] at h
    subst h
    exact hinv.of_moveTo i rfl rfl (fun j hj => by simp [hj])
      (.inr (by simp [hp, TaskPhase.clone?])) (.inr (by simp [hp, TaskPhase.holds?]))
      (by simp [hp, TaskPhase.active])
  | read m current =>
    rcases hrun : ((tasks i).finish current).run.run w.storage with ⟨answer, s⟩
    rw [step_read hp hrun, Option.some.injEq] at h
    subst h
    exact hinv.of_moveTo i rfl rfl (fun j hj => by simp [hj])
      (.inr (by simp [hp, TaskPhase.clone?])) (.inr (by simp [hp, TaskPhase.holds?]))
      (by simp [hp, TaskPhase.active])
  | decided m answer =>
    rw [step_decided hp, Option.some.injEq] at h
    subst h
    exact hinv.of_moveTo i rfl rfl (fun j hj => by simp [hj])
      (.inl (by simp [TaskPhase.clone?])) (.inl (by simp [TaskPhase.holds?]))
      (by simp [hp, TaskPhase.active])
  | released answer =>
    rw [step_released hp, Option.some.injEq] at h
    subst h
    exact hinv.prune hp
  | finished answer =>
    rw [step_finished hp] at h
    cases h

theorem next (i : Fin k) : LockInv tasks (w.next tasks i) := by
  unfold LockWorld.next
  cases h : w.step tasks i with
  | none => exact hinv
  | some w' => exact hinv.step h

/-- **Mutual exclusion.** Two tasks of one key that hold mutexes are one task: both hold the
mutex of the key's entry, and it has one holder. -/
theorem exclusive {j : Fin k} {m m' : Nat} (hkey : (tasks i).key = (tasks j).key)
    (hi : (w.phase i).holds? = some m) (hj : (w.phase j).holds? = some m') : i = j := by
  have hmi := hinv.clone_entry i m (TaskPhase.clone?_of_holds? hi)
  have hmj := hinv.clone_entry j m' (TaskPhase.clone?_of_holds? hj)
  rw [hkey, hmj, Option.some.injEq] at hmi
  subst hmi
  exact hinv.holder_unique i j m' hi hj

/-- With every task out of the lock's code, the map is empty. -/
theorem entries_eq_none (hdone : ∀ i, (w.phase i).active = false) (key : String) :
    w.entries key = none := by
  cases hk : w.entries key with
  | none => rfl
  | some m =>
    obtain ⟨i, -, ha⟩ := hinv.entry_active key m hk
    rw [hdone i] at ha
    cases ha

end LockInv

/-- The invariant holds along every schedule. -/
theorem LockInv.run {w : LockWorld k} (hinv : LockInv tasks w) (sched : List (Fin k)) :
    LockInv tasks (w.run tasks sched) := by
  induction sched generalizing w with
  | nil => exact hinv
  | cons i sched ih => exact ih (hinv.next i)

end LockWorld

/-! ## The references -/

namespace RefChange

/-- The changes `cs`, one after another, take a reference from target `v` to target `v'`: each
found the target the one before it left. -/
def Linked : Option RefTarget → List RefChange → Option RefTarget → Prop
  | v, [], v' => v = v'
  | v, c :: cs, v' => c.expected = v ∧ Linked c.result cs v'

theorem linked_append_singleton {v v' : Option RefTarget} {cs : List RefChange} {c : RefChange}
    (h : Linked v cs v') (hc : c.expected = v') : Linked v (cs ++ [c]) c.result := by
  induction cs generalizing v with
  | nil =>
    have hv : v = v' := h
    subst hv
    exact ⟨hc, rfl⟩
  | cons d cs ih => exact ⟨h.1, ih h.2⟩

/-- Changes that each expect `e` and leave another target cannot follow one another, so at
most one of them is linked from `e`. -/
theorem length_le_one_of_linked {e v : Option RefTarget} {cs : List RefChange}
    (hcs : ∀ c ∈ cs, c.expected = e ∧ c.result ≠ e) (h : Linked e cs v) : cs.length ≤ 1 := by
  match cs, h with
  | [], _ => simp
  | [_], _ => simp
  | c :: d :: _, h =>
    simp only [Linked] at h
    exact absurd (h.2.1.symm.trans (hcs d (by simp)).1) (hcs c (by simp)).2

section Reliable

variable {n : RepoName} {Good : Storage → Prop} (hrel : Storage.Reliable n Good) {s : Storage}
  {ref : String} {c : RefChange}

omit hrel in
/-- A change that finds another target than it expects reports the conflict and writes
nothing. -/
theorem commit_of_ne (n : RepoName) (ref : String) (s : Storage) {current : Option RefTarget}
    (hc : current ≠ c.expected) :
    ∃ e, (c.commit n ref current).run.run s = (.error e, s) :=
  ⟨_, by simp only [commit, if_pos hc]; rfl⟩

include hrel in
/-- A change that finds the target it expects leaves its result on the reference, and every
other reference as it was. -/
theorem commit_of_eq (hs : Good s) (hvalid : validateRefName ref = .ok ())
    (hcur : Storage.targetAt n s ref = c.expected) :
    ∃ s', (c.commit n ref c.expected).run.run s = (.ok (), s') ∧ Good s' ∧
      Storage.targetAt n s' = Function.update (Storage.targetAt n s) ref c.result := by
  cases c with
  | swap id e =>
    obtain ⟨s', hset, hgood, -, htgt⟩ := hrel.setDirect ref id hs hvalid
    exact ⟨s', by simpa [commit] using hset, hgood, htgt⟩
  | remove e =>
    obtain ⟨s', hdel, hgood, -, htgt⟩ :=
      hrel.deleteReference ref hs hvalid (by simp [hcur, expected])
    exact ⟨s', by simpa [commit] using hdel, hgood, htgt⟩

end Reliable

end RefChange

theorem TaskPhase.holds?_of_current? {p : TaskPhase} {c : Except StorageError (Option RefTarget)}
    (h : p.current? = some c) : ∃ m, p.holds? = some m := by
  cases p <;> simp_all [TaskPhase.current?, TaskPhase.holds?]

namespace LockWorld

variable {k : Nat} {tasks : Fin k → RefTask} {w w' : LockWorld k} {i : Fin k}
  {n : RepoName} {Good : Storage → Prop} {s₀ : Storage}

variable (n) in
/-- The tasks that have written on reference `r`, in some order, each found the target the
one before left, from `r`'s target in the first storage `s₀` to its target now. -/
def Linearized (s₀ : Storage) (tasks : Fin k → RefTask) (w : LockWorld k) (r : String) : Prop :=
  ∃ order : List (Fin k), order.Nodup ∧
    (∀ i, i ∈ order ↔ (tasks i).ref = r ∧ (w.phase i).succeeded = true) ∧
    RefChange.Linked (Storage.targetAt n s₀ r) (order.map fun i => (tasks i).change)
      (Storage.targetAt n w.storage r)

/-- A reference no call has written on holds its first target. -/
theorem Linearized.first_or_written {r : String} (h : Linearized n s₀ tasks w r) :
    Storage.targetAt n w.storage r = Storage.targetAt n s₀ r ∨
      ∃ j, (tasks j).ref = r ∧ (w.phase j).succeeded = true := by
  obtain ⟨order, -, hmem, hlinked⟩ := h
  cases order with
  | nil => exact .inl (Eq.symm hlinked)
  | cons j _ => exact .inr ⟨j, (hmem j).1 (by simp)⟩

/-- A task that has read holds the mutex of its reference, so another task that has read is on
another reference. -/
theorem LockInv.ref_ne_of_current (hlock : LockInv tasks w) (hrepo : ∀ i, (tasks i).repo = n)
    {m : Nat} {current : Except StorageError (Option RefTarget)} (hp : w.phase i = .read m current)
    {j : Fin k} {c : Except StorageError (Option RefTarget)} (hji : j ≠ i)
    (hj : (w.phase j).current? = some c) : (tasks j).ref ≠ (tasks i).ref := by
  intro href
  obtain ⟨mj, hmj⟩ := TaskPhase.holds?_of_current? hj
  have hkey : (tasks j).key = (tasks i).key := by simp [RefTask.key, hrepo, href]
  exact hji (hlock.exclusive hkey hmj (show (w.phase i).holds? = some m by
    simp [hp, TaskPhase.holds?]))

/-- What the references keep through every run over storage that does not fail, from the
first storage `s₀`. -/
structure RefInv (n : RepoName) (Good : Storage → Prop) (s₀ : Storage) (tasks : Fin k → RefTask)
    (w : LockWorld k) : Prop where
  good : Good w.storage
  /-- A task that has read, and holds its mutex, read the target its reference holds now. -/
  current_eq : ∀ i c, (w.phase i).current? = some c →
    c = .ok (Storage.targetAt n w.storage (tasks i).ref)
  linearized : ∀ r, Linearized n s₀ tasks w r
  /-- A call fails only when it expected another target than its reference's first, or after
  a call on its reference wrote. -/
  failed_after : ∀ i, (w.phase i).failed = true →
    (tasks i).change.expected ≠ Storage.targetAt n s₀ (tasks i).ref ∨
      ∃ j, (tasks j).ref = (tasks i).ref ∧ (w.phase j).succeeded = true

theorem refInv_init (hs₀ : Good s₀) : RefInv n Good s₀ tasks (init s₀ : LockWorld k) where
  good := hs₀
  current_eq _ _ h := by simp [init, TaskPhase.current?] at h
  linearized _ := ⟨[], List.nodup_nil, fun _ => by simp [init, TaskPhase.succeeded], rfl⟩
  failed_after _ h := by simp [init, TaskPhase.failed] at h

namespace RefInv

variable (hinv : RefInv n Good s₀ tasks w)
include hinv

/-- A move of one task that leaves the storage, neither writes nor fails, and reads only the
target its reference holds keeps the invariant: every step but the comparison. -/
theorem of_moveTo (i : Fin k) (hstorage : w'.storage = w.storage)
    (hphase : ∀ j, j ≠ i → w'.phase j = w.phase j)
    (hcurrent : (w'.phase i).current? = none ∨
      (w'.phase i).current? = some (.ok (Storage.targetAt n w.storage (tasks i).ref)))
    (hsucc : (w'.phase i).succeeded = (w.phase i).succeeded)
    (hfailed : (w'.phase i).failed = (w.phase i).failed) : RefInv n Good s₀ tasks w' := by
  have succ_eq : ∀ j, (w'.phase j).succeeded = (w.phase j).succeeded := by
    intro j
    by_cases hji : j = i
    · subst hji
      exact hsucc
    · rw [hphase j hji]
  have failed_eq : ∀ j, (w'.phase j).failed = (w.phase j).failed := by
    intro j
    by_cases hji : j = i
    · subst hji
      exact hfailed
    · rw [hphase j hji]
  refine ⟨hstorage ▸ hinv.good, fun j c hj => ?_, fun r => ?_, fun j hj => ?_⟩
  · rw [hstorage]
    by_cases hji : j = i
    · subst hji
      rcases hcurrent with h | h <;> rw [h] at hj
      · cases hj
      · exact (Option.some.inj hj).symm
    · rw [hphase j hji] at hj
      exact hinv.current_eq j c hj
  · obtain ⟨order, hnodup, hmem, hlinked⟩ := hinv.linearized r
    exact ⟨order, hnodup, fun j => by rw [succ_eq]; exact hmem j, by rw [hstorage]; exact hlinked⟩
  · rw [failed_eq] at hj
    simp only [succ_eq]
    exact hinv.failed_after j hj

/-- A write after the last on its reference puts the task last in the order of those that
wrote there, and leaves the orders on the other references. -/
theorem linearized_written {m : Nat} (hnot : (w.phase i).succeeded = false)
    (heq : Storage.targetAt n w.storage (tasks i).ref = (tasks i).change.expected) {s' : Storage}
    (htgt : Storage.targetAt n s' =
      Function.update (Storage.targetAt n w.storage) (tasks i).ref (tasks i).change.result)
    (r : String) :
    Linearized n s₀ tasks ({ w with storage := s' }.moveTo i (.decided m (.ok ()))) r := by
  obtain ⟨order, hnodup, hmem, hlinked⟩ := hinv.linearized r
  by_cases hr : r = (tasks i).ref
  · -- the task's own reference: it comes last
    subst hr
    have hi : i ∉ order := fun h => by simp [((hmem i).1 h).2] at hnot
    refine ⟨order ++ [i], List.nodup_append.2 ⟨hnodup, List.nodup_singleton i, ?_⟩, ?_, ?_⟩
    · intro a ha b hb hab
      rw [List.mem_singleton] at hb
      rw [hab, hb] at ha
      exact hi ha
    · intro j
      by_cases hji : j = i
      · subst hji
        simp [TaskPhase.succeeded]
      · simp [hji, hmem j]
    · simp only [moveTo_storage, List.map_append, List.map_singleton, htgt,
        Function.update_self]
      exact RefChange.linked_append_singleton hlinked heq.symm
  · -- another reference: the same order, and its target stays
    refine ⟨order, hnodup, fun j => ?_, ?_⟩
    · by_cases hji : j = i
      · subst hji
        simp only [hmem, moveTo_phase, if_true]
        constructor
        · rintro ⟨h, -⟩
          exact absurd h.symm hr
        · rintro ⟨h, -⟩
          exact absurd h.symm hr
      · simp [hji, hmem j]
    · simp only [moveTo_storage]
      rw [htgt, Function.update_of_ne hr]
      exact hlinked

/-- **A comparison that matches writes**: the task comes last among those that wrote on its
reference, and every other reference keeps its target. -/
theorem written (hrepo : ∀ i, (tasks i).repo = n) (hlock : LockInv tasks w) {m : Nat}
    {current : Except StorageError (Option RefTarget)} (hp : w.phase i = .read m current)
    (heq : Storage.targetAt n w.storage (tasks i).ref = (tasks i).change.expected)
    {s' : Storage} (hgood : Good s')
    (htgt : Storage.targetAt n s' =
      Function.update (Storage.targetAt n w.storage) (tasks i).ref (tasks i).change.result) :
    RefInv n Good s₀ tasks ({ w with storage := s' }.moveTo i (.decided m (.ok ()))) := by
  have hnot : (w.phase i).succeeded = false := by simp [hp, TaskPhase.succeeded]
  refine ⟨hgood, fun j c hj => ?_, hinv.linearized_written hnot heq htgt, fun j hj => ?_⟩
  · -- a task that has read is on another reference, whose target stays
    have hji : j ≠ i := fun h => by simp [h, TaskPhase.current?] at hj
    simp only [moveTo_phase, hji, if_false] at hj
    simp only [moveTo_storage]
    rw [htgt, Function.update_of_ne (hlock.ref_ne_of_current hrepo hp hji hj)]
    exact hinv.current_eq j c hj
  · have hji : j ≠ i := fun h => by simp [h, TaskPhase.failed] at hj
    simp only [moveTo_phase, hji, if_false] at hj
    rcases hinv.failed_after j hj with h | ⟨j', hj'r, hj's⟩
    · exact .inl h
    · refine .inr ⟨j', hj'r, ?_⟩
      by_cases hj'i : j' = i
      · simp [hj'i, TaskPhase.succeeded]
      · simpa [hj'i] using hj's

/-- **A comparison that does not match fails** and leaves the storage: the task expected
another target than its reference's first, or a call on it wrote before. -/
theorem refused {m : Nat} {current : Except StorageError (Option RefTarget)}
    (hp : w.phase i = .read m current)
    (heq : Storage.targetAt n w.storage (tasks i).ref ≠ (tasks i).change.expected)
    (e : StorageError) : RefInv n Good s₀ tasks (w.moveTo i (.decided m (.error e))) := by
  have hnot : (w.phase i).succeeded = false := by simp [hp, TaskPhase.succeeded]
  have hfailed : (TaskPhase.decided m (.error e)).succeeded = false := rfl
  have succ_of : ∀ j, (w.phase j).succeeded = true →
      ((w.moveTo i (.decided m (.error e))).phase j).succeeded = true := by
    intro j hj
    have hji : j ≠ i := fun h => by rw [h, hnot] at hj; cases hj
    simpa [hji] using hj
  refine ⟨hinv.good, fun j c hj => ?_, fun r => ?_, fun j hj => ?_⟩
  · have hji : j ≠ i := fun h => by simp [h, TaskPhase.current?] at hj
    simp only [moveTo_phase, hji, if_false] at hj
    exact hinv.current_eq j c hj
  · obtain ⟨order, hnodup, hmem, hlinked⟩ := hinv.linearized r
    refine ⟨order, hnodup, fun j => ?_, hlinked⟩
    by_cases hji : j = i
    · subst hji
      simp [hmem, hnot, hfailed]
    · simp [hji, hmem j]
  · by_cases hji : j = i
    · -- the failure of this step: the target read was not the expected one
      subst hji
      rcases (hinv.linearized (tasks j).ref).first_or_written with hfirst | ⟨j', hj'r, hj's⟩
      · exact .inl fun h => heq (hfirst.trans h.symm)
      · exact .inr ⟨j', hj'r, succ_of j' hj's⟩
    · simp only [moveTo_phase, hji, if_false] at hj
      rcases hinv.failed_after j hj with h | ⟨j', hj'r, hj's⟩
      · exact .inl h
      · exact .inr ⟨j', hj'r, succ_of j' hj's⟩

section Comparison

variable (hrel : Storage.Reliable n Good) (hrepo : ∀ i, (tasks i).repo = n)
  (hvalid : ∀ i, validateRefName (tasks i).ref = .ok ())
include hrel hrepo hvalid

/-- Step 4 keeps the invariant. The task holds its reference's mutex, so the target it read is
still there: on a match it writes, after the last call that wrote; otherwise it fails, and
then either it expected another target than the first or a call wrote before. -/
theorem commit (hlock : LockInv tasks w) {m : Nat}
    {current : Except StorageError (Option RefTarget)} (hp : w.phase i = .read m current)
    {answer : Except StorageError Unit} {s : Storage}
    (hrun : ((tasks i).finish current).run.run w.storage = (answer, s)) :
    RefInv n Good s₀ tasks ({ w with storage := s }.moveTo i (.decided m answer)) := by
  -- the task holds its reference's mutex, so the target it read is still there
  have hcur := hinv.current_eq i current (by simp [hp, TaskPhase.current?])
  subst hcur
  have hfinish : (tasks i).finish (.ok (Storage.targetAt n w.storage (tasks i).ref)) =
      (tasks i).change.commit n (tasks i).ref (Storage.targetAt n w.storage (tasks i).ref) := by
    simp [RefTask.finish, hrepo i]
  by_cases heq : Storage.targetAt n w.storage (tasks i).ref = (tasks i).change.expected
  · -- the expected target: the call writes
    obtain ⟨s', hcommit, hgood, htgt⟩ := RefChange.commit_of_eq hrel hinv.good (hvalid i) heq
    rw [hfinish, heq, hcommit, Prod.mk.injEq] at hrun
    obtain ⟨rfl, rfl⟩ := hrun
    exact hinv.written hrepo hlock hp heq hgood htgt
  · -- another target: the call fails and the storage stays
    obtain ⟨e, hcommit⟩ := RefChange.commit_of_ne n (tasks i).ref w.storage heq
    rw [hfinish, hcommit, Prod.mk.injEq] at hrun
    obtain ⟨rfl, rfl⟩ := hrun
    exact hinv.refused hp heq e

/-- Every step keeps the invariant. -/
theorem step (hlock : LockInv tasks w) (h : w.step tasks i = some w') :
    RefInv n Good s₀ tasks w' := by
  cases hp : w.phase i with
  | start =>
    rw [step_start hp, Option.some.injEq] at h
    subst h
    exact hinv.of_moveTo i (by simp) (fun j hj => by simp [hj]) (.inl (by simp [TaskPhase.current?]))
      (by simp [hp, TaskPhase.succeeded]) (by simp [hp, TaskPhase.failed])
  | waiting m =>
    rw [step_waiting hp] at h
    split at h
    · cases h
    · rw [Option.some.injEq] at h
      subst h
      exact hinv.of_moveTo i rfl (fun j hj => by simp [hj])
        (.inl (by simp [TaskPhase.current?])) (by simp [hp, TaskPhase.succeeded])
        (by simp [hp, TaskPhase.failed])
  | locked m =>
    have hrun := hrel.currentTarget (tasks i).ref hinv.good (hvalid i)
    rw [← hrepo i] at hrun
    rw [step_locked hp hrun, Option.some.injEq] at h
    subst h
    exact hinv.of_moveTo i rfl (fun j hj => by simp [hj])
      (.inr (by simp [hrepo i, TaskPhase.current?])) (by simp [hp, TaskPhase.succeeded])
      (by simp [hp, TaskPhase.failed])
  | read m current =>
    rcases hrun : ((tasks i).finish current).run.run w.storage with ⟨answer, s⟩
    rw [step_read hp hrun, Option.some.injEq] at h
    subst h
    exact hinv.commit hrel hrepo hvalid hlock hp hrun
  | decided m answer =>
    rw [step_decided hp, Option.some.injEq] at h
    subst h
    exact hinv.of_moveTo i rfl (fun j hj => by simp [hj]) (.inl (by simp [TaskPhase.current?]))
      (by cases answer <;> simp [hp, TaskPhase.succeeded])
      (by cases answer <;> simp [hp, TaskPhase.failed])
  | released answer =>
    rw [step_released hp, Option.some.injEq] at h
    subst h
    exact hinv.of_moveTo i (by simp) (fun j hj => by simp [hj])
      (.inl (by simp [TaskPhase.current?]))
      (by cases answer <;> simp [hp, TaskPhase.succeeded])
      (by cases answer <;> simp [hp, TaskPhase.failed])
  | finished answer =>
    rw [step_finished hp] at h
    cases h

end Comparison

/-- **One winner.** Where every task on `r` expects `r`'s first target and leaves another, once
every task is done exactly one task on `r` has written: those that wrote follow one another
from the first target, which no two of them can, and a task fails only after one wrote. -/
theorem existsUnique_winner {r : String}
    (hfrom : ∀ i, (tasks i).ref = r → (tasks i).change.expected = Storage.targetAt n s₀ r ∧
      (tasks i).change.result ≠ Storage.targetAt n s₀ r)
    (hsome : ∃ i, (tasks i).ref = r) (hdone : ∀ i, (w.phase i).done = true) :
    ∃! i, (tasks i).ref = r ∧ (w.phase i).succeeded = true := by
  obtain ⟨order, -, hmem, hlinked⟩ := hinv.linearized r
  have hlen : order.length ≤ 1 := by
    have hcs : ∀ c ∈ order.map fun i => (tasks i).change,
        c.expected = Storage.targetAt n s₀ r ∧ c.result ≠ Storage.targetAt n s₀ r := by
      intro c hc
      obtain ⟨j, hj, rfl⟩ := List.mem_map.1 hc
      exact hfrom j ((hmem j).1 hj).1
    simpa using RefChange.length_le_one_of_linked hcs hlinked
  -- the written tasks are all in `order`, which has one element at most
  have hone : ∀ a ∈ order, ∀ b ∈ order, a = b := by
    intro a ha b hb
    match order, hlen, ha, hb with
    | [_], _, ha, hb =>
      rw [List.mem_singleton] at ha hb
      rw [ha, hb]
  obtain ⟨i, hi⟩ := hsome
  obtain ⟨j, hjr, hjs⟩ : ∃ j, (tasks j).ref = r ∧ (w.phase j).succeeded = true := by
    rcases TaskPhase.succeeded_or_failed_of_done (hdone i) with hs | hf
    · exact ⟨i, hi, hs⟩
    · rcases hinv.failed_after i hf with hne | ⟨j, hjr, hjs⟩
      · rw [hi] at hne
        exact absurd (hfrom i hi).1 hne
      · exact ⟨j, hjr.trans hi, hjs⟩
  exact ⟨j, ⟨hjr, hjs⟩, fun j' hj' => hone j' ((hmem j').2 hj') j ((hmem j).2 ⟨hjr, hjs⟩)⟩

end RefInv

/-- Both invariants hold along every schedule. -/
theorem invariants_run (hrel : Storage.Reliable n Good) (hrepo : ∀ i, (tasks i).repo = n)
    (hvalid : ∀ i, validateRefName (tasks i).ref = .ok ()) (sched : List (Fin k)) :
    ∀ w : LockWorld k, LockInv tasks w → RefInv n Good s₀ tasks w →
      LockInv tasks (w.run tasks sched) ∧ RefInv n Good s₀ tasks (w.run tasks sched) := by
  induction sched with
  | nil => exact fun w hlock href => ⟨hlock, href⟩
  | cons i sched ih =>
    intro w hlock href
    apply ih
    · exact hlock.next i
    · unfold LockWorld.next
      cases h : w.step tasks i with
      | none => exact href
      | some w' => exact href.step hrel hrepo hvalid hlock h

/-- **Compare-and-swap under per-reference locks.** For any number of tasks, in every
interleaving of their steps from an empty map, no two tasks of one key hold their mutexes at
once, though entries are pruned and made again, and once every task is done the map is empty.
Over storage that does not fail, for tasks on one repository with valid reference names, the
tasks that wrote on a reference follow one another, each finding what the one before left,
and of tasks that all swap a reference from its first target to another, exactly one writes. -/
theorem compareAndSwap_linearizable {k : Nat} (tasks : Fin k → RefTask) (s₀ : Storage)
    (sched : List (Fin k)) :
    let w := (init s₀ : LockWorld k).run tasks sched
    (∀ i j, (tasks i).key = (tasks j).key → ((w.phase i).holds?).isSome →
      ((w.phase j).holds?).isSome → i = j) ∧
    ((∀ i, (w.phase i).done = true) → ∀ key, w.entries key = none) ∧
    ∀ (n : RepoName) (Good : Storage → Prop), Storage.Reliable n Good → Good s₀ →
      (∀ i, (tasks i).repo = n) → (∀ i, validateRefName (tasks i).ref = .ok ()) →
      (∀ r, Linearized n s₀ tasks w r) ∧
      ∀ r, (∀ i, (tasks i).ref = r → (tasks i).change.expected = Storage.targetAt n s₀ r ∧
          (tasks i).change.result ≠ Storage.targetAt n s₀ r) →
        (∃ i, (tasks i).ref = r) → (∀ i, (w.phase i).done = true) →
        ∃! i, (tasks i).ref = r ∧ (w.phase i).succeeded = true := by
  intro w
  have hlock : LockInv tasks w := (lockInv_init s₀).run sched
  refine ⟨fun i j hkey hi hj => ?_, fun hdone key => ?_, fun n Good hrel hs₀ hrepo hvalid => ?_⟩
  · obtain ⟨m, hm⟩ := Option.isSome_iff_exists.1 hi
    obtain ⟨m', hm'⟩ := Option.isSome_iff_exists.1 hj
    exact hlock.exclusive hkey hm hm'
  · exact hlock.entries_eq_none (fun i => TaskPhase.active_of_done (hdone i)) key
  · have hinv := (invariants_run hrel hrepo hvalid sched _ (lockInv_init s₀) (refInv_init hs₀)).2
    exact ⟨hinv.linearized, fun r hfrom hsome hdone => hinv.existsUnique_winner hfrom hsome hdone⟩

/-- Two swaps of `HEAD` of `demo.git` from absent, on an empty blob store. -/
def headSwaps : Fin 2 → RefTask :=
  fun i => ⟨⟨"demo.git"⟩, headName, .swap ⟨List.replicate 20 i.val.toUInt8, by simp⟩ none⟩

theorem compareAndSwap_linearizable_headSwaps :
    Storage.OnBlobStore ⟨"demo.git"⟩ ⟨.remote (BlobStore.empty 1), {}, 0⟩ ∧
      ∀ r, Linearized ⟨"demo.git"⟩ ⟨.remote (BlobStore.empty 1), {}, 0⟩ headSwaps
        ((init ⟨.remote (BlobStore.empty 1), {}, 0⟩ : LockWorld 2).run headSwaps
          [0, 1, 0, 1, 0, 1, 0, 1, 0, 1, 0, 1]) r := by
  have hs : Storage.OnBlobStore ⟨"demo.git"⟩ ⟨.remote (BlobStore.empty 1), {}, 0⟩ :=
    ⟨_, rfl, WellStored.empty _ 1⟩
  exact ⟨hs, ((compareAndSwap_linearizable headSwaps _ _).2.2 _ _ (remote_reliable _) hs
    (fun _ => rfl) (fun _ => by simp [headSwaps, validateRefName])).1⟩

end LockWorld

end GitServer
