import GitServer.Proofs.Storage.FileTree
import GitServer.Proofs.Storage.Reliable
import Mathlib

/-!
# Running the steps of local storage

Local storage runs in `DiskM`: reads of the file tree, steps of the file system whose errors
become `StorageError.io` with the system's message, and changes of the tree. Each step has a
run lemma here, in the form the proofs about repositories use: the answer and the disk after
it, from what the file tree answers. A change that fails leaves the disk as it was; writing a
file in one step (`writeAtomic`) may fail after its directories were made, and then keeps them.
-/

namespace GitServer

namespace Local

variable {α : Type} {d : Disk}

@[simp] theorem run_files (d : Disk) : files.run.run d = (.ok d.files, d) := rfl

@[simp] theorem run_os_ok (a : α) (d : Disk) : (os (.ok a)).run.run d = (.ok a, d) := rfl

@[simp] theorem run_os_error (e : OsError) (d : Disk) :
    (os (.error e) : DiskM α).run.run d = (.error (.io e.message), d) := rfl

@[simp] theorem run_check (x : Except StorageError α) (d : Disk) :
    (check x).run.run d = (x, d) := by
  cases x <;> rfl

theorem run_change_ok {f : FileTree → Except OsError FileTree} {t : FileTree}
    (h : f d.files = .ok t) : (change f).run.run d = (.ok (), { d with files := t }) := by
  unfold change
  rw [run_bind_of_ok (run_files d), run_bind_of_ok (by rw [h]; rfl)]
  rfl

theorem run_change_error {f : FileTree → Except OsError FileTree} {e : OsError}
    (h : f d.files = .error e) : (change f).run.run d = (.error (.io e.message), d) := by
  unfold change
  rw [run_bind_of_ok (run_files d), run_bind_of_error (by rw [h]; rfl)]

theorem run_writeAtomic_ok {p : FsPath} {data : Bytes} {t₁ t₂ : FileTree}
    (h₁ : d.files.createDirAll p.dropLast = .ok t₁) (h₂ : t₁.write p data = .ok t₂) :
    (writeAtomic p data).run.run d = (.ok (), { d with files := t₂ }) := by
  unfold writeAtomic
  rw [run_bind_of_ok (run_change_ok h₁), run_change_ok h₂]

theorem run_writeAtomic_of_createDirAll {p : FsPath} {data : Bytes} {e : OsError}
    (h₁ : d.files.createDirAll p.dropLast = .error e) :
    (writeAtomic p data).run.run d = (.error (.io e.message), d) := by
  unfold writeAtomic
  rw [run_bind_of_error (run_change_error h₁)]

theorem run_writeAtomic_of_write {p : FsPath} {data : Bytes} {t₁ : FileTree} {e : OsError}
    (h₁ : d.files.createDirAll p.dropLast = .ok t₁) (h₂ : t₁.write p data = .error e) :
    (writeAtomic p data).run.run d = (.error (.io e.message), { d with files := t₁ }) := by
  unfold writeAtomic
  rw [run_bind_of_ok (run_change_ok h₁), run_change_error h₂]

/-- After a write that succeeded, the directory of the file is there: reading it as a file
fails. -/
theorem readOptional_dropLast_of_run_writeAtomic {d' : Disk} {p : FsPath} {data : Bytes}
    (hp : p.dropLast ≠ []) (h : (writeAtomic p data).run.run d = (.ok (), d')) :
    d'.files.readOptional p.dropLast = .error .isADirectory := by
  cases h₁ : d.files.createDirAll p.dropLast with
  | error e =>
    rw [run_writeAtomic_of_createDirAll h₁] at h
    cases h
  | ok t₁ =>
    cases h₂ : t₁.write p data with
    | error e =>
      rw [run_writeAtomic_of_write h₁ h₂] at h
      cases h
    | ok t₂ =>
      rw [run_writeAtomic_ok h₁ h₂] at h
      cases h
      obtain ⟨hdir, rfl⟩ := FileTree.eq_of_write h₂
      obtain ⟨habove, hnode⟩ := FileTree.dirsAbove_of_lookup hdir
      -- the file lies below every node on the way to its directory, so setting it moves none
      have hne : ∀ a, a.length ≤ p.dropLast.length → a ≠ p := by
        intro a ha hap
        subst hap
        have : a ≠ [] := fun h => hp (by simp [h])
        simp only [List.length_dropLast] at ha
        have := List.length_pos_iff_ne_nil.mpr this
        omega
      have habove' : (t₁.setNode p (.file data)).DirsAbove p.dropLast := by
        intro a ha
        rw [FileTree.node?_setNode_of_ne (hne a (FileTree.mem_ancestors.mp ha).2.2.le), habove a ha]
      rw [FileTree.readOptional_of_dirsAbove habove', FileTree.node?_setNode_of_ne (hne _ le_rfl),
        hnode]

namespace Handle

theorem run_refPath (h : Handle) {ref : String} (hvalid : validateRefName ref = .ok ()) (d : Disk) :
    (h.refPath ref).run.run d = (.ok (h.file (ref.splitOn "/")), d) := by
  unfold refPath
  rw [run_bind_of_ok (by rw [run_check, hvalid])]
  rfl

end Handle

end Local

namespace Storage

theorem run_onMedium_disk {α : Type} (r : RemoteM α) (l : DiskM α) {s : Storage} {d : Disk}
    (h : s.medium = .disk d) :
    (onMedium r l).run.run s = ((l.run.run d).1, { s with medium := .disk (l.run.run d).2 }) := by
  unfold onMedium
  simp only [ExceptT.run_mk, StateT.run]
  rw [h]
  rfl

theorem with_disk_eq {s : Storage} {d : Disk} (h : s.medium = .disk d) :
    { s with medium := .disk d } = s := by
  cases s
  simp_all

end Storage

end GitServer
