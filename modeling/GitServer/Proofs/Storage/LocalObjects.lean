import GitServer.Proofs.Pack.Resolution
import GitServer.Proofs.Storage.LooseObjects
import Mathlib

/-!
# Objects in a directory tree

The repository in directory `X` keeps each object as a loose file
`objects/<two digits>/<thirty-eight digits>` below `X`. `HoldsObjects t X O` says that the loose
files of tree `t` are the map `O`: every object of the map is the loose file of its kind and
content, there is no file where the map has no object, nothing else lies two levels below
`objects/`, and no file lies where a fan-out directory goes. With a cache that agrees with the
map (`CacheHolds`) and objects that are kept, a disk holds the map (`DiskObjects`), and every
object call on the handle of the repository answers as the map does: storing writes the file
unless it is there (`run_putObject`), reading answers from the cache or decodes the file
(`run_getObject`), removing drops the file and the cache entry (`run_deleteObject`), and the
listing walks the fan-out directories and sorts what it found by id (`run_iterateObjects`).
Storing and removing change nothing outside `objects/`.
-/

namespace GitServer

/-! ## Directories and files -/

namespace FileTree

variable {t : FileTree} {p : FsPath}

theorem eq_append_of_mem_childName {q : FsPath} {x : String}
    (h : x ∈ (if q.length = p.length + 1 && p.isPrefixOf q then q.getLast? else none)) :
    q = p ++ [x] := by
  split at h
  · rename_i hc
    simp only [Bool.and_eq_true, decide_eq_true_eq, List.isPrefixOf_iff_prefix] at hc
    obtain ⟨r, rfl⟩ := hc.2
    have hr : r.length = 1 := by simpa using hc.1
    obtain ⟨y, rfl⟩ := List.length_eq_one_iff.mp hr
    simp only [Option.mem_def, List.getLast?_append, List.getLast?_singleton, Option.some_or,
      Option.some.injEq] at h
    rw [h]
  · cases h

/-- A directory lists each name once. -/
theorem nodup_children (t : FileTree) (p : FsPath) : (t.children p).Nodup :=
  (List.mergeSort_perm _ _).nodup_iff.2 <| Std.TreeMap.nodup_keys.filterMap
    fun _ _ _ h₁ h₂ => (eq_append_of_mem_childName h₁).trans (eq_append_of_mem_childName h₂).symm

theorem readDir_of_dir (h : t.DirsAbove p) (hp : p ≠ []) (hd : t.nodes[p]? = some .dir) :
    t.readDir p = .ok (t.children p) := by
  simp only [readDir, stat_of_dirsAbove h, node?_of_ne_nil hp, hd]
  rfl

theorem isDir_of_dir (h : t.DirsAbove p) (hp : p ≠ []) (hd : t.nodes[p]? = some .dir) :
    t.isDir p = true := by
  rw [isDir_of_dirsAbove h, node?_of_ne_nil hp, hd]
  rfl

end FileTree

theorem ObjectId.utf8ByteSize_fanout_fst (id : ObjectId) : id.fanout.1.utf8ByteSize = 2 := by
  obtain ⟨a, b, rest, h⟩ : ∃ a b rest, id.toHex.toList = a :: b :: rest := by
    have hlen := ObjectId.length_toHex id
    match hl : id.toHex.toList, hlen with
    | a :: b :: rest, _ => exact ⟨a, b, rest, rfl⟩
  have hone : ∀ c ∈ id.toHex.toList, c.utf8Size = 1 := fun c hc =>
    Char.utf8Size_eq_one_iff.mpr (by
      have := (ObjectId.plain_of_mem_toHex hc).1
      simp only [Char.toNat] at this
      exact UInt32.le_iff_toNat_le.mpr (by simpa using Nat.lt_succ_iff.mp this))
  simp [ObjectId.fanout, h, hone a (by simp [h]), hone b (by simp [h])]

theorem ObjectId.eq_of_bytes {a b : ObjectId} (h : a.bytes = b.bytes) : a = b := by
  cases a
  cases b
  simp_all

namespace ObjMap

/-- Storing keeps every object the map files. -/
theorem put_of_some {O : ObjMap} {k : ObjectKind} {d : Bytes} {id : ObjectId}
    {x : ObjectKind × Bytes} (hx : O id = some x) : O.put k d id = some x := by
  rw [put_apply]
  split_ifs with h
  · rw [h] at hx
    rw [h, hx]
    rfl
  · exact hx

/-- Storing an object the map files already leaves the map as it is. -/
theorem put_eq_self {O : ObjMap} {k : ObjectKind} {d : Bytes}
    (h : O (ObjectId.ofObject k d) ≠ none) : O.put k d = O := by
  obtain ⟨x, hx⟩ := Option.ne_none_iff_exists'.mp h
  funext id
  cases hid : O id with
  | none =>
    rw [put_apply, if_neg (fun h' => by rw [h'] at hid; rw [hid] at hx; cases hx)]
    exact hid
  | some y => exact put_of_some hid

end ObjMap

namespace Local

open FileTree

/-- **Writing a file in one step** where no file is on the way and no directory is in its
place puts the file there and a directory at every prefix of the way, and changes nothing
else. -/
theorem run_writeAtomic_nodes {d : Disk} (hwf : d.files.WellFormed) {p : FsPath} (hp : p ≠ [])
    (hway : ∀ a, a ≠ [] → a <+: p.dropLast → ∀ z, d.files.nodes[a]? ≠ some (.file z))
    (hnd : d.files.nodes[p]? ≠ some .dir) (data : Bytes) :
    ∃ t', (writeAtomic p data).run.run d = (.ok (), { d with files := t' }) ∧ t'.WellFormed ∧
      ∀ q, t'.nodes[q]? = if q = p then some (.file data)
        else if q ≠ [] ∧ q <+: p.dropLast then some .dir else d.files.nodes[q]? := by
  have hlen : 0 < p.length := List.length_pos_iff_ne_nil.mpr hp
  obtain ⟨t₁, h₁, hv⟩ := createDirAll_of_noFile hwf _ hway
  have habove : t₁.DirsAbove p := by
    intro a ha
    have ha' := mem_ancestors.mp ha
    rw [node?_of_ne_nil ha'.1, hv, if_pos ⟨ha'.1, prefix_dropLast_of_mem_ancestors ha⟩]
  have hnd₁ : t₁.nodes[p]? ≠ some .dir := by
    rw [hv, if_neg fun h => by
      have := h.2.length_le
      rw [List.length_dropLast] at this
      omega]
    exact hnd
  refine ⟨_, run_writeAtomic_ok h₁ (write_of_dirsAbove hp habove hnd₁ data),
    (hwf.withDirs hv).setNode_file habove hnd₁ data, fun q => ?_⟩
  rw [nodes_setNode, hv]

/-! ## Loose files -/

/-- The loose file of an object: its header and content, compressed. -/
def looseFile (k : ObjectKind) (d : Bytes) : FsNode :=
  .file (Zlib.compress (k.header d.length ++ d))

/-- The loose files of the repository in directory `X` are the map `O`. -/
structure HoldsObjects (t : FileTree) (X : FsPath) (O : ObjMap) : Prop where
  wf : t.WellFormed
  /-- The way to the repository is directories, and so is its object directory. -/
  dirs : ∀ a, a ≠ [] → a <+: X → t.nodes[a]? = some .dir
  objects : t.nodes[X ++ ["objects"]]? = some .dir
  /-- Directly below `objects/` there are no files. -/
  fanout : ∀ x z, t.nodes[X ++ ["objects", x]]? ≠ some (.file z)
  /-- Each object of the map is the loose file of its kind and content, and there is nothing
  where the map has no object. -/
  files : ∀ id : ObjectId, t.nodes[X ++ ["objects", id.fanout.1, id.fanout.2]]? =
    (O id).map fun x => looseFile x.1 x.2
  /-- Two levels below `objects/` there is nothing but where objects go. -/
  only : ∀ x y, (t.nodes[X ++ ["objects", x, y]]?).isSome → ∃ id : ObjectId, id.fanout = (x, y)

namespace HoldsObjects

variable {t : FileTree} {X : FsPath} {O : ObjMap}

/-- **Loose files carried to another directory** hold the same map there, when the way to it
is directories. With the same directory, this is the frame of the object directory. -/
theorem move {t' : FileTree} {Y : FsPath} (h : HoldsObjects t Y O) (hwf : t'.WellFormed)
    (hdirs : ∀ a, a ≠ [] → a <+: X → t'.nodes[a]? = some .dir)
    (hsame : ∀ r, t'.nodes[X ++ "objects" :: r]? = t.nodes[Y ++ "objects" :: r]?) :
    HoldsObjects t' X O where
  wf := hwf
  dirs := hdirs
  objects := (hsame []).trans h.objects
  fanout x := by
    rw [hsame [x]]
    exact h.fanout x
  files id := (hsame _).trans (h.files id)
  only x y := by
    rw [hsame [x, y]]
    exact h.only x y

/-- A prefix of the way to a fan-out directory stops at the repository, or is below
`objects/`. -/
theorem prefix_fanout_cases {a : FsPath} {x : String} (ha : a <+: X ++ ["objects", x]) :
    a <+: X ∨ X ++ ["objects"] <+: a := by
  rcases Local.prefix_append_cases ha with h | ⟨b, rfl, hb⟩
  · exact .inl h
  · rcases b with _ | ⟨b₁, b'⟩
    · exact .inl (by simp)
    · obtain ⟨rfl, -⟩ := List.cons_prefix_cons.mp hb
      exact .inr (by simp)

/-- No file lies on the way to a fan-out directory. -/
theorem noFile_way (h : HoldsObjects t X O) (x : String) :
    ∀ a, a ≠ [] → a <+: X ++ ["objects", x] → ∀ z, t.nodes[a]? ≠ some (.file z) := by
  intro a ha hpre z
  rcases prefix_fanout_cases hpre with hX | ⟨b, rfl⟩
  · rw [h.dirs a ha hX]
    simp
  · -- below `objects/`: the object directory or the fan-out directory
    have hb : b <+: [x] := by simpa using hpre
    rcases b with _ | ⟨b₁, b'⟩
    · rw [List.append_nil, h.objects]
      simp
    · obtain ⟨rfl, hb'⟩ := List.cons_prefix_cons.mp hb
      obtain rfl := List.prefix_nil.mp hb'
      simpa using h.fanout _ z

/-- No file lies on the way to where an object goes. -/
theorem noFile_above (h : HoldsObjects t X O) (id : ObjectId) :
    ∀ a ∈ ancestors (X ++ ["objects", id.fanout.1, id.fanout.2]), ∀ z,
      t.node? a ≠ some (.file z) := by
  intro a ha z
  have ha' := mem_ancestors.mp ha
  rw [node?_of_ne_nil ha'.1]
  exact h.noFile_way _ a ha'.1 (by simpa using prefix_dropLast_of_mem_ancestors ha) z

theorem exists?_object (h : HoldsObjects t X O) (id : ObjectId) :
    t.exists? (X ++ ["objects", id.fanout.1, id.fanout.2]) = .ok (O id).isSome := by
  rw [exists?_of_noFile h.wf (by simp) (h.noFile_above id), h.files]
  cases O id <;> rfl

theorem readOptional_object (h : HoldsObjects t X O) (id : ObjectId) :
    t.readOptional (X ++ ["objects", id.fanout.1, id.fanout.2]) =
      .ok ((O id).map fun x => Zlib.compress (x.1.header x.2.length ++ x.2)) := by
  by_cases habove : t.DirsAbove (X ++ ["objects", id.fanout.1, id.fanout.2])
  · rw [readOptional_of_dirsAbove habove, node?_of_ne_nil (by simp), h.files]
    cases O id <;> rfl
  · -- without the directories above it, there is no file, and so no object
    have hnone := nodes_eq_none_of_not_dirsAbove h.wf habove
    rw [readOptional_of_not_dirsAbove (h.noFile_above id) habove]
    rw [h.files] at hnone
    simp only [Option.map_eq_none_iff] at hnone
    rw [hnone]
    rfl

theorem removeFile_object (h : HoldsObjects t X O) (id : ObjectId) :
    t.removeFile (X ++ ["objects", id.fanout.1, id.fanout.2]) =
      if O id = none then .error .notFound
      else .ok ⟨t.nodes.erase (X ++ ["objects", id.fanout.1, id.fanout.2])⟩ := by
  by_cases habove : t.DirsAbove (X ++ ["objects", id.fanout.1, id.fanout.2])
  · rw [removeFile_of_dirsAbove habove, node?_of_ne_nil (by simp), h.files]
    cases O id <;> rfl
  · have hnone := nodes_eq_none_of_not_dirsAbove h.wf habove
    rw [removeFile_of_not_dirsAbove (h.noFile_above id) habove]
    rw [h.files] at hnone
    simp only [Option.map_eq_none_iff] at hnone
    rw [if_pos hnone]

theorem dropLast_object (X : FsPath) (id : ObjectId) :
    (X ++ ["objects", id.fanout.1, id.fanout.2]).dropLast = X ++ ["objects", id.fanout.1] := by
  simp

theorem object_inj {X : FsPath} {a b : ObjectId}
    (h : X ++ ["objects", a.fanout.1, a.fanout.2] = X ++ ["objects", b.fanout.1, b.fanout.2]) :
    a = b := by
  apply ObjectId.fanout_injective
  simpa [Prod.ext_iff] using h

/-- **Filing a new object's loose file**, with the directories on its way, keeps the files
holding the map with the object, and changes nothing outside `objects/`. -/
theorem write_object (h : HoldsObjects t X O) {t' : FileTree} (hwf : t'.WellFormed)
    {k : ObjectKind} {data : Bytes} (hO : O (ObjectId.ofObject k data) = none)
    (hnodes : ∀ q, t'.nodes[q]? =
      if q = X ++ ["objects", (ObjectId.ofObject k data).fanout.1,
        (ObjectId.ofObject k data).fanout.2] then some (looseFile k data)
      else if q ≠ [] ∧ q <+: X ++ ["objects", (ObjectId.ofObject k data).fanout.1]
        then some .dir
      else t.nodes[q]?) :
    HoldsObjects t' X (O.put k data) ∧ ChangedBelow (X ++ ["objects"]) t t' := by
  set id := ObjectId.ofObject k data
  -- a path no longer than the fan-out directory is not the object's
  have hshort : ∀ q : FsPath, q.length ≤ X.length + 2 →
      q ≠ X ++ ["objects", id.fanout.1, id.fanout.2] := by
    rintro q hq rfl
    simp at hq
  refine ⟨⟨hwf, fun a ha hpre => ?_, ?_, fun x z => ?_, fun id' => ?_, fun x y hxy => ?_⟩, ?_⟩
  · rw [hnodes, if_neg (hshort a (by have := hpre.length_le; omega))]
    split_ifs
    · rfl
    · exact h.dirs a ha hpre
  · rw [hnodes, if_neg (hshort _ (by simp)), if_pos ⟨by simp, by simp⟩]
  · rw [hnodes, if_neg (hshort _ (by simp))]
    split_ifs
    · simp
    · exact h.fanout x z
  · rw [hnodes, ObjMap.put_apply]
    by_cases hid : id' = id
    · subst hid
      rw [if_pos rfl, if_pos rfl, hO]
      rfl
    · have hlong : ¬ (X ++ ["objects", id'.fanout.1, id'.fanout.2] ≠ [] ∧
          X ++ ["objects", id'.fanout.1, id'.fanout.2] <+: X ++ ["objects", id.fanout.1]) :=
        fun hc => by simpa using hc.2.length_le
      rw [if_neg (fun hc => hid (object_inj hc)), if_neg hlong, if_neg hid]
      exact h.files id'
  · rw [hnodes] at hxy
    split_ifs at hxy with h₁ h₂
    · exact ⟨id, by simpa [Prod.ext_iff, eq_comm] using h₁⟩
    · simpa using h₂.2.length_le
    · exact h.only x y hxy
  · intro q hq
    rw [hnodes, if_neg (fun hc => hq (by rw [hc]; simp))]
    split_ifs with hdir
    · rcases prefix_fanout_cases hdir.2 with hX | hobj
      · exact (h.dirs q hdir.1 hX).symm
      · exact absurd hobj hq
    · rfl

/-- **Removing an object's loose file** keeps the files holding the map without the object,
and changes nothing outside `objects/`. -/
theorem erase_object (h : HoldsObjects t X O) {id : ObjectId} (hO : O id ≠ none) :
    HoldsObjects ⟨t.nodes.erase (X ++ ["objects", id.fanout.1, id.fanout.2])⟩ X
        (Function.update O id none) ∧
      ChangedBelow (X ++ ["objects"]) t ⟨t.nodes.erase (X ++ ["objects", id.fanout.1, id.fanout.2])⟩ := by
  obtain ⟨x, hx⟩ := Option.ne_none_iff_exists'.mp hO
  have hfile := h.files id
  rw [hx] at hfile
  have hshort : ∀ q : FsPath, q.length ≤ X.length + 2 →
      q ≠ X ++ ["objects", id.fanout.1, id.fanout.2] := by
    rintro q hq rfl
    simp at hq
  refine ⟨⟨h.wf.erase (h.wf.not_mem_ancestors_of_file hfile), fun a ha hpre => ?_, ?_,
    fun y z => ?_, fun id' => ?_, fun y w hyw => ?_⟩, fun q hq => ?_⟩
  · rw [nodes_erase, if_neg (hshort a (by have := hpre.length_le; omega))]
    exact h.dirs a ha hpre
  · rw [nodes_erase, if_neg (hshort _ (by simp))]
    exact h.objects
  · rw [nodes_erase, if_neg (hshort _ (by simp))]
    exact h.fanout y z
  · rw [nodes_erase]
    by_cases hid : id' = id
    · subst hid
      simp
    · rw [if_neg (fun hc => hid (object_inj hc)), Function.update_of_ne hid]
      exact h.files id'
  · rw [nodes_erase] at hyw
    split_ifs at hyw
    · cases hyw
    · exact h.only y w hyw
  · rw [nodes_erase, if_neg (fun hc => hq (by rw [hc]; simp))]

end HoldsObjects

/-- A disk holds the objects `O` of repository `n`: the objects are kept, the loose files are
the map, and the cache agrees with it. -/
structure DiskObjects (n : RepoName) (O : ObjMap) (d : Disk) : Prop where
  kept : O.Kept
  files : HoldsObjects d.files (repoDir n) O
  cache : CacheHolds d.cache n O

@[simp] theorem dir_of (n : RepoName) : (Handle.of n).dir = repoDir n := rfl

/-- **Storing an object through any handle** whose directory holds the map answers its id and
files it, changing nothing outside `objects/`. -/
theorem HoldsObjects.run_putObject (h : Handle) {d : Disk} {O : ObjMap}
    (hX : HoldsObjects d.files h.dir O) (k : ObjectKind) (data : Bytes) :
    ∃ t', (h.putObject k data).run.run d =
        (.ok (ObjectId.ofObject k data), { d with files := t' }) ∧
      HoldsObjects t' h.dir (O.put k data) ∧ ChangedBelow (h.dir ++ ["objects"]) d.files t' := by
  set id := ObjectId.ofObject k data
  unfold Handle.putObject
  rw [run_bind_of_ok (run_files d),
    run_bind_of_ok (by rw [Handle.objectPath, Handle.file, hX.exists?_object id]; rfl)]
  cases hO : O id with
  | some x =>
    -- the object is filed already, and the map keeps it
    rw [ObjMap.put_eq_self (by simp [id, hO])]
    exact ⟨d.files, rfl, hX, ChangedBelow.refl _ _⟩
  | none =>
    obtain ⟨t', hrun, hwf, hnodes⟩ := run_writeAtomic_nodes hX.wf
      (p := h.dir ++ ["objects", id.fanout.1, id.fanout.2]) (by simp)
      (fun a ha hpre => hX.noFile_way id.fanout.1 a ha (by simpa using hpre))
      (by rw [hX.files, hO]; simp) (Zlib.compress (k.header data.length ++ data))
    obtain ⟨hfiles, hframe⟩ := hX.write_object hwf hO fun q => by
      rw [hnodes q, HoldsObjects.dropLast_object]
      rfl
    refine ⟨t', ?_, hfiles, hframe⟩
    simp only [Option.isSome_none, Bool.false_eq_true, if_false]
    rw [Handle.objectPath, Handle.file, run_bind_of_ok hrun]
    rfl

theorem objectPath_of (n : RepoName) (id : ObjectId) :
    (Handle.of n).objectPath id = repoDir n ++ ["objects", id.fanout.1, id.fanout.2] := rfl

namespace DiskObjects

variable {n : RepoName} {O : ObjMap} {d : Disk}

/-- **Storing a kept object** answers its id and files it, changing nothing outside
`objects/`. -/
theorem run_putObject (hd : DiskObjects n O d) {k : ObjectKind} {data : Bytes}
    (hk : k.isBase = true) (hlen : data.length < 2 ^ 64) :
    ∃ t', ((Handle.of n).putObject k data).run.run d =
        (.ok (ObjectId.ofObject k data), { d with files := t' }) ∧
      DiskObjects n (O.put k data) { d with files := t' } ∧
      ChangedBelow (repoDir n ++ ["objects"]) d.files t' := by
  obtain ⟨t', hrun, hfiles, hframe⟩ := hd.files.run_putObject (Handle.of n) k data
  exact ⟨t', hrun, ⟨hd.kept.put hk hlen, hfiles, hd.cache.mono fun _ _ => ObjMap.put_of_some⟩,
    hframe⟩

/-- **Reading an object** answers as the map does: a cache hit holds the object, and a miss
decodes its loose file and caches it. -/
theorem run_getObject (hd : DiskObjects n O d) (id : ObjectId) :
    ∃ d', ((Handle.of n).getObject id).run.run d = (O.read id, d') ∧ d'.files = d.files ∧
      DiskObjects n O d' := by
  have hkey : (Handle.of n).cacheKey id = CacheEntry.keyOf n.path id.toHex := rfl
  unfold Handle.getObject
  rw [run_bind_of_ok (rfl : (get : DiskM Disk).run.run d = (.ok d, d)), hkey]
  rcases hl : d.cache.lookup (CacheEntry.keyOf n.path id.toHex) with ⟨hit, cache'⟩
  have hcache' : CacheHolds cache' n O := by
    simpa [hl] using hd.cache.lookup (CacheEntry.keyOf n.path id.toHex)
  dsimp only
  rw [run_bind_of_ok (rfl : (set ({ files := d.files, cache := cache' } : Disk) : DiskM Unit).run.run d
    = (.ok (), { files := d.files, cache := cache' }))]
  cases hit with
  | some e =>
    -- a hit holds the object under its id
    have hO := hd.cache.hit (e := e) (by rw [hl])
    exact ⟨{ files := d.files, cache := cache' }, by simp [ObjMap.read, hO]; rfl, rfl,
      ⟨hd.kept, hd.files, hcache'⟩⟩
  | none =>
    dsimp only
    rw [objectPath_of, hd.files.readOptional_object id]
    cases hO : O id with
    | none =>
      exact ⟨{ files := d.files, cache := cache' }, by simp [ObjMap.read, hO]; rfl, rfl,
        ⟨hd.kept, hd.files, hcache'⟩⟩
    | some x =>
      obtain ⟨k, data⟩ := x
      have hkd := hd.kept id k data hO
      -- the loose file decodes to the object
      have hcheck : (check (Handle.decodeLoose id (Zlib.compress (k.header data.length ++ data))) :
          DiskM GitObject).run.run { files := d.files, cache := cache' } =
            (.ok ⟨k, data, id⟩, { files := d.files, cache := cache' }) := by
        rw [Handle.decodeLoose_compress id hkd.1 hkd.2]
        rfl
      refine ⟨{ files := d.files, cache := cache'.insert ⟨n.path, id.toHex, k, data⟩ }, ?_, rfl,
        ⟨hd.kept, hd.files, hcache'.insert hO⟩⟩
      simp only [Option.map_some]
      rw [run_bind_of_ok (run_os_ok _ _)]
      dsimp only
      rw [run_bind_of_ok hcheck]
      simp [ObjMap.read, hO]
      rfl

/-- Whether an object is stored is whether the map files one; asking changes nothing. -/
theorem run_hasObject (hd : DiskObjects n O d) (id : ObjectId) :
    ((Handle.of n).hasObject id).run.run d = (.ok (O id).isSome, d) := by
  unfold Handle.hasObject
  rw [run_bind_of_ok (run_files d), objectPath_of, hd.files.exists?_object id]
  rfl

/-- **Removing an object of the map** drops its loose file and its cache entry, changing
nothing outside `objects/`. -/
theorem run_deleteObject (hd : DiskObjects n O d) {id : ObjectId} (hO : O id ≠ none) :
    ∃ t', ((Handle.of n).deleteObject id).run.run d =
        (.ok (), { files := t', cache := d.cache.remove (CacheEntry.keyOf n.path id.toHex) }) ∧
      DiskObjects n (Function.update O id none)
        { files := t', cache := d.cache.remove (CacheEntry.keyOf n.path id.toHex) } ∧
      ChangedBelow (repoDir n ++ ["objects"]) d.files t' := by
  obtain ⟨hfiles, hframe⟩ := hd.files.erase_object hO
  refine ⟨_, ?_, ⟨hd.kept.erase id, hfiles, hd.cache.remove id⟩, hframe⟩
  unfold Handle.deleteObject
  rw [run_bind_of_ok (run_files d), objectPath_of, hd.files.removeFile_object id, if_neg hO]
  rfl

/-- Removing an object the map does not file fails as absent and changes nothing. -/
theorem run_deleteObject_absent (hd : DiskObjects n O d) {id : ObjectId} (hO : O id = none) :
    ((Handle.of n).deleteObject id).run.run d =
      (.error (.notFound ("object " ++ id.toHex)), d) := by
  unfold Handle.deleteObject
  rw [run_bind_of_ok (run_files d), objectPath_of, hd.files.removeFile_object id, if_pos hO]
  rfl

end DiskObjects

/-! ## The listing -/

/-- What the listing gathers for the name `y` in the fan-out directory `x`: the object the two
names spell, when the map files it and it is of the kind asked for. -/
def gatheredOne (O : ObjMap) (f : Option ObjectKind) (x y : String) : List GitObject :=
  match ObjectId.parse (x ++ y) with
  | .ok id => match O id with
    | some (k, d) => if f.all (· == k) then [⟨k, d, id⟩] else []
    | none => []
  | .error _ => []

/-- What the listing gathers for the entry `x` of `objects/`: nothing unless it is a fan-out
directory, else what each name in it gathers. -/
def gatheredIn (t : FileTree) (X : FsPath) (O : ObjMap) (f : Option ObjectKind) (x : String) :
    List GitObject :=
  if (x.utf8ByteSize != 2 || !t.isDir (X ++ ["objects", x])) = true then []
  else (t.children (X ++ ["objects", x])).flatMap (gatheredOne O f x)

theorem gatheredOne_of_error {O : ObjMap} {f : Option ObjectKind} {x y : String}
    {e : IdError} (hp : ObjectId.parse (x ++ y) = .error e) : gatheredOne O f x y = [] := by
  simp [gatheredOne, hp]

theorem gatheredOne_of_some {O : ObjMap} {f : Option ObjectKind} {x y : String} {id : ObjectId}
    {k : ObjectKind} {data : Bytes} (hp : ObjectId.parse (x ++ y) = .ok id)
    (hO : O id = some (k, data)) :
    gatheredOne O f x y = if f.all (· == k) then [⟨k, data, id⟩] else [] := by
  simp [gatheredOne, hp, hO]

theorem mem_gatheredOne {O : ObjMap} {f : Option ObjectKind} {x y : String} {o : GitObject} :
    o ∈ gatheredOne O f x y ↔ ObjectId.parse (x ++ y) = .ok o.id ∧
      O o.id = some (o.kind, o.data) ∧ f.all (· == o.kind) = true := by
  unfold gatheredOne
  split
  · rename_i id hp
    cases hO : O id with
    | none =>
      simp only [List.not_mem_nil, false_iff]
      rintro ⟨hp', hO', -⟩
      rw [hp, Except.ok.injEq] at hp'
      rw [← hp', hO] at hO'
      cases hO'
    | some x =>
      obtain ⟨k, d⟩ := x
      simp only
      split_ifs with hf
      · rw [List.mem_singleton]
        constructor
        · rintro rfl
          exact ⟨hp, hO, hf⟩
        · rintro ⟨hp', hO', -⟩
          rw [hp, Except.ok.injEq] at hp'
          subst hp'
          rw [hO, Option.some.injEq, Prod.mk.injEq] at hO'
          obtain ⟨rfl, rfl⟩ := hO'
          rfl
      · simp only [List.not_mem_nil, false_iff]
        rintro ⟨hp', hO', hf'⟩
        rw [hp, Except.ok.injEq] at hp'
        rw [← hp', hO, Option.some.injEq, Prod.mk.injEq] at hO'
        rw [← hO'.1] at hf'
        exact hf hf'
  · rename_i e hp
    simp only [List.not_mem_nil, false_iff]
    rintro ⟨hp', -⟩
    rw [hp] at hp'
    cases hp'

namespace HoldsObjects

variable {t : FileTree} {X : FsPath} {O : ObjMap}

theorem dirsAbove_fanout (h : HoldsObjects t X O) (x : String) :
    t.DirsAbove (X ++ ["objects", x]) := by
  intro a ha
  have ha' := mem_ancestors.mp ha
  have hpre : a <+: X ++ ["objects"] := by simpa using prefix_dropLast_of_mem_ancestors ha
  rw [node?_of_ne_nil ha'.1]
  rcases Local.prefix_append_cases hpre with hX | ⟨b, rfl, hb⟩
  · exact h.dirs a ha'.1 hX
  · rcases b with _ | ⟨b₁, b'⟩
    · exact h.dirs _ (by simpa using ha'.1) (by simp)
    · obtain ⟨rfl, hb'⟩ := List.cons_prefix_cons.mp hb
      obtain rfl := List.prefix_nil.mp hb'
      exact h.objects

/-- A name in a fan-out directory that completes an id completes the id filed there. -/
theorem fanout_of_parse (h : HoldsObjects t X O) {x y : String}
    (hy : y ∈ t.children (X ++ ["objects", x])) {id : ObjectId}
    (hp : ObjectId.parse (x ++ y) = .ok id) : id.fanout = (x, y) := by
  have hsome : (t.nodes[X ++ ["objects", x, y]]?).isSome := by
    simpa using mem_children.mp hy
  obtain ⟨id', hid'⟩ := h.only x y hsome
  have hhex : x ++ y = id'.toHex := by
    rw [← ObjectId.fanout_append, hid']
  rw [hhex, ObjectId.parse_toHex, Except.ok.injEq] at hp
  rw [← hp, hid']

/-- The fan-out directory of an object of the map is there. -/
theorem fanout_dir (h : HoldsObjects t X O) (id : ObjectId) (hO : O id ≠ none) :
    t.nodes[X ++ ["objects", id.fanout.1]]? = some .dir := by
  have hsome : (t.nodes[X ++ ["objects", id.fanout.1, id.fanout.2]]?).isSome := by
    rw [h.files]
    simpa [Option.isSome_iff_ne_none] using hO
  have ha : X ++ ["objects", id.fanout.1] ∈ ancestors (X ++ ["objects", id.fanout.1, id.fanout.2]) :=
    mem_ancestors.mpr ⟨by simp, ⟨[id.fanout.2], by simp⟩, by simp⟩
  rw [← node?_of_ne_nil (by simp)]
  exact h.wf _ hsome _ ha

/-- A name in a fan-out directory that completes an id is the file of an object of the map. -/
theorem filed_of_parse (h : HoldsObjects t X O) {x y : String}
    (hy : y ∈ t.children (X ++ ["objects", x])) {id : ObjectId}
    (hp : ObjectId.parse (x ++ y) = .ok id) : ∃ k data, O id = some (k, data) := by
  have hfile := h.files id
  rw [h.fanout_of_parse hy hp] at hfile
  have hsome : (t.nodes[X ++ ["objects", x, y]]?).isSome := by
    simpa using mem_children.mp hy
  rw [hfile] at hsome
  obtain ⟨⟨k, data⟩, hO⟩ := Option.isSome_iff_exists.mp (by simpa using hsome)
  exact ⟨k, data, hO⟩

/-- An entry of `objects/` that the listing searches is a fan-out directory, which it reads. -/
theorem readDir_fanout (h : HoldsObjects t X O) {x : String}
    (hc : ¬ (x.utf8ByteSize != 2 || !t.isDir (X ++ ["objects", x])) = true) :
    t.readDir (X ++ ["objects", x]) = .ok (t.children (X ++ ["objects", x])) := by
  have hdir : t.nodes[X ++ ["objects", x]]? = some .dir := by
    simp only [Bool.or_eq_true, bne_iff_ne, ne_eq, Bool.not_eq_eq_eq_not, Bool.not_true,
      not_or, Decidable.not_not, Bool.not_eq_false] at hc
    rw [isDir_of_dirsAbove (h.dirsAbove_fanout x), node?_of_ne_nil (by simp)] at hc
    simpa using hc.2
  exact readDir_of_dir (h.dirsAbove_fanout x) (by simp) hdir

/-- **The entry `x` of `objects/` gathers the objects of the map of the kind asked for whose
fan-out directory it is.** -/
theorem mem_gatheredIn (h : HoldsObjects t X O) {f : Option ObjectKind} {x : String}
    {o : GitObject} :
    o ∈ gatheredIn t X O f x ↔
      o.id.fanout.1 = x ∧ O o.id = some (o.kind, o.data) ∧ f.all (· == o.kind) = true := by
  unfold gatheredIn
  constructor
  · intro ho
    split_ifs at ho
    · cases ho
    · obtain ⟨y, hy, ho⟩ := List.mem_flatMap.mp ho
      obtain ⟨hp, hO, hf⟩ := mem_gatheredOne.mp ho
      exact ⟨by rw [h.fanout_of_parse hy hp], hO, hf⟩
  · rintro ⟨rfl, hO, hf⟩
    have hdir := h.fanout_dir o.id (by simp [hO])
    rw [if_neg (by simp [ObjectId.utf8ByteSize_fanout_fst,
      isDir_of_dir (h.dirsAbove_fanout _) (by simp) hdir])]
    refine List.mem_flatMap.mpr ⟨o.id.fanout.2, mem_children.mpr ?_, mem_gatheredOne.mpr
      ⟨by rw [ObjectId.fanout_append, ObjectId.parse_toHex], hO, hf⟩⟩
    simp [h.files, hO]

/-- Sorting by the byte order of ids puts distinct ids in increasing order. -/
theorem lt_of_le_of_ne {a b : GitObject} (hle : (a.id.bytes.compare b.id.bytes != .gt) = true)
    (hne : a.id ≠ b.id) : a.id.lt b.id = true := by
  simp only [ObjectId.lt, beq_iff_eq]
  cases hc : a.id.bytes.compare b.id.bytes with
  | lt => rfl
  | eq =>
    rw [Pack.Bytes.compare_eq_compareLex, Std.LawfulEqCmp.compare_eq_iff_eq] at hc
    exact absurd (ObjectId.eq_of_bytes hc) hne
  | gt => simp [hc] at hle

/-- **What the listing gathers and sorts lists the map.** -/
theorem listed_gathered (h : HoldsObjects t X O) (f : Option ObjectKind) :
    O.Listed f (((t.children (X ++ ["objects"])).flatMap (gatheredIn t X O f)).mergeSort
      fun a b => a.id.bytes.compare b.id.bytes != .gt) := by
  set L := (t.children (X ++ ["objects"])).flatMap (gatheredIn t X O f)
  -- no two objects gathered share an id: each has its own fan-out directory and name
  have hdistinct : L.Pairwise fun a b => a.id ≠ b.id := by
    refine List.pairwise_flatMap.mpr ⟨fun x _ => ?_,
      (nodup_children t _).imp_of_mem fun {x₁ x₂} _ _ hne a ha b hb hab => hne ?_⟩
    · unfold gatheredIn
      split_ifs
      · exact List.Pairwise.nil
      · refine List.pairwise_flatMap.mpr ⟨fun y _ => ?_,
          (nodup_children t _).imp_of_mem fun {y₁ y₂} hy₁ hy₂ hne a ha b hb hab => hne ?_⟩
        · unfold gatheredOne
          split
          · split
            · split_ifs <;> simp
            · simp
          · simp
        · have h₁ := h.fanout_of_parse hy₁ (mem_gatheredOne.mp ha).1
          have h₂ := h.fanout_of_parse hy₂ (mem_gatheredOne.mp hb).1
          rw [hab, h₂] at h₁
          exact (Prod.mk.inj h₁).2.symm
    · rw [← (h.mem_gatheredIn.mp ha).1, ← (h.mem_gatheredIn.mp hb).1, hab]
  have hsorted : (L.mergeSort fun a b => a.id.bytes.compare b.id.bytes != .gt).Pairwise
      fun a b => (a.id.bytes.compare b.id.bytes != .gt) = true := List.pairwise_mergeSort
    (fun a b c hab hbc => by
      simp only [bne_iff_ne, ne_eq] at hab hbc ⊢
      rw [Pack.Bytes.compare_eq_compareLex] at hab hbc ⊢
      exact Std.TransCmp.le_trans hab hbc)
    (fun a b => by
      simp only [Bool.or_eq_true, bne_iff_ne, ne_eq]
      have hswap : List.compareLex compare b.id.bytes a.id.bytes =
          (List.compareLex compare a.id.bytes b.id.bytes).swap := Std.OrientedCmp.eq_swap
      rw [Pack.Bytes.compare_eq_compareLex, Pack.Bytes.compare_eq_compareLex, hswap]
      cases List.compareLex compare a.id.bytes b.id.bytes <;> simp) L
  refine ⟨(hsorted.and (((List.mergeSort_perm L _).pairwise_iff Ne.symm).mpr hdistinct)).imp
    fun hab => lt_of_le_of_ne hab.1 hab.2, fun o => ?_⟩
  rw [List.mem_mergeSort, List.mem_flatMap]
  constructor
  · rintro ⟨x, -, ho⟩
    exact (h.mem_gatheredIn.mp ho).2
  · rintro ⟨hO, hf⟩
    refine ⟨o.id.fanout.1, mem_children.mpr ?_, h.mem_gatheredIn.mpr ⟨rfl, hO, hf⟩⟩
    simp [h.fanout_dir o.id (by simp [hO])]

theorem dirsAbove_objects (h : HoldsObjects t X O) : t.DirsAbove (X ++ ["objects"]) := by
  intro a ha
  have ha' := mem_ancestors.mp ha
  rw [node?_of_ne_nil ha'.1]
  exact h.dirs a ha'.1 (by simpa using prefix_dropLast_of_mem_ancestors ha)

end HoldsObjects

namespace DiskObjects

variable {n : RepoName} {O : ObjMap} {d : Disk}

/-- **The listing** walks the entries of `objects/`, gathers the objects of the fan-out
directories and sorts them by id; it keeps the files, and the disk holding the map. -/
theorem run_iterateObjects (hd : DiskObjects n O d) (f : Option ObjectKind) :
    ∃ d', ((Handle.of n).iterateObjects f).run.run d =
        (.ok (((d.files.children (repoDir n ++ ["objects"])).flatMap
          (gatheredIn d.files (repoDir n) O f)).mergeSort
            fun a b => a.id.bytes.compare b.id.bytes != .gt), d') ∧
      d'.files = d.files ∧ DiskObjects n O d' := by
  have hread : d.files.readDir (repoDir n ++ ["objects"]) =
      .ok (d.files.children (repoDir n ++ ["objects"])) :=
    readDir_of_dir hd.files.dirsAbove_objects (by simp) hd.files.objects
  unfold Handle.iterateObjects
  simp only [Handle.file, dir_of]
  rw [run_bind_of_ok (run_files d), run_bind_of_ok (by rw [hread]; rfl)]
  -- the walk keeps the files, and the disk holding the map; each entry gathers what it should
  refine exists_run_bind (P := fun d' => d'.files = d.files ∧ DiskObjects n O d')
    (run_forIn_flatMap_of_inv (fun d' => d'.files = d.files ∧ DiskObjects n O d')
      (gatheredIn d.files (repoDir n) O f) _ _ ?entry [] d ⟨rfl, hd⟩)
    fun d' hd' => ⟨d', by simp; rfl, hd'⟩
  intro x hx acc d₁ hstate
  obtain ⟨hf₁, hd₁⟩ := hstate
  rw [run_bind_of_ok (run_files d₁), hf₁]
  unfold gatheredIn
  split_ifs with hc
  · exact ⟨d₁, by simp; rfl, hf₁, hd₁⟩
  -- a fan-out directory: its names, each gathering the object it completes
  rw [run_bind_of_ok (run_files d₁), hf₁,
    run_bind_of_ok (by rw [hd.files.readDir_fanout hc]; rfl)]
  refine exists_run_bind (P := fun d' => d'.files = d.files ∧ DiskObjects n O d')
    (run_forIn_flatMap_of_inv (fun d' => d'.files = d.files ∧ DiskObjects n O d')
      (gatheredOne O f x) _ _ ?name acc d₁ ⟨hf₁, hd₁⟩)
    fun d' hd' => ⟨d', rfl, hd'⟩
  intro y hy acc' d₂ hstate'
  obtain ⟨hf₂, hd₂⟩ := hstate'
  cases hp : ObjectId.parse (x ++ y) with
  | error e =>
    rw [gatheredOne_of_error hp, List.append_nil]
    dsimp only
    exact ⟨d₂, rfl, hf₂, hd₂⟩
  | ok id =>
    -- the name completes the id filed there, and the map files an object under it
    obtain ⟨k, data, hO⟩ := hd.files.filed_of_parse hy hp
    obtain ⟨d₃, hrun, hf₃, hd₃⟩ := hd₂.run_getObject id
    rw [ObjMap.read_of_some hO] at hrun
    rw [gatheredOne_of_some hp hO]
    dsimp only
    rw [run_bind_of_ok hrun]
    refine ⟨d₃, ?_, hf₃.trans hf₂, hd₃⟩
    split_ifs
    · rfl
    · rw [List.append_nil]
      rfl

end DiskObjects

end Local

end GitServer
