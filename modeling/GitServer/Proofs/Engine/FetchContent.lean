import GitServer.Proofs.Engine.Walks
import GitServer.Proofs.Engine.Bindings
import GitServer.Proofs.Wire.SideBand
import GitServer.Proofs.Pack.Codec
import GitServer.Proofs.Pack.Streaming
import GitServer.Proofs.Engine.IncludeTag
import Mathlib

/-!
# What a fetch sends

After the negotiation of an upload ends in `done`, the server sends a pack of every object the
wants reach that the client's common commits do not, and nothing else
(`uploadPack_sends_reach_difference`). Three facts make it up:

* the walks send the objects stored under the ids of `Reach wants \ Reach common`, each once
  (`collect_run`), where the repository holds everything the wants reach and everything the
  wants and the common commits reach parses, with the links trees and tags name as blobs being
  blobs;
* those objects are streamed as a pack that decodes back to them, whole and in order
  (`Pack.streamPack_of_fits`, `Pack.decode_of_encode`), as long as they fit the pack format:
  fewer than `2 ^ 32` of them, each shorter than `2 ^ 60` bytes;
* the pack's pieces follow the acknowledgements as they are, or each framed on band 1 and
  closed by a flush under side-band (`readBuffered_packResponse`), and over a connection after
  the advertisement as over HTTP, however the connection cuts the request
  (`serveUpload_of_uploadPack`).

Without `include-tag` no tag is added. The walks need no bound on the repository: each of their
rounds takes a new id, and there are finitely many ids.
-/

namespace GitServer

namespace Engine

open Storage Wire

/-! ## The request and the answer -/

/-- An upload request: want lines, a flush, the lines of the negotiation, `done`, and whatever
the client sends after it. -/
def fetchRequest (ws : List Bytes) (pre : List ClientLine) (tail : Bytes) : Bytes :=
  writeLines (ws.map .data) ++
    (flushBytes ++ (writeLines ((pre ++ [ClientLine.done]).map ClientLine.toPkt) ++ tail))

/-- What a client reads as the pack in the bytes after the acknowledgements: under side-band,
the frames of band 1 up to a flush, their payloads joined; otherwise the bytes themselves. -/
def CarriesPack (caps : List Capability) (response pack : Bytes) : Prop :=
  match sideBandLimit caps with
  | some _ => ∃ cs : List Bytes,
      readBuffered response = (cs.map (bandLine .data) ++ [.flush], .eof) ∧ cs.flatten = pack
  | none => response = pack

/-- The objects are those stored under the ids of `S`, each once. -/
def StoredOnce (n : RepoName) (s : Storage) (objs : List GitObject) (S : ObjectId → Prop) :
    Prop :=
  (objs.map (·.id)).Nodup ∧ (∀ x, x ∈ objs.map (·.id) ↔ S x) ∧
    ∀ o ∈ objs, objectAt n s o.id = some o

/-- The bytes decode to a complete pack whose count is its number of entries and whose entries
are the objects, in order, each as its kind and content give it. -/
def DecodesTo (pack : Bytes) (objs : List GitObject) : Prop :=
  ∃ p : Pack.Decoded, Pack.decode pack = .ok p ∧ p.count = p.entries.size ∧
    p.entries.size = objs.length ∧ p.isComplete ∧
    p.entries.toList.map (·.object) = objs.map fun o => GitObject.ofContent o.kind o.data

/-! ## The pack -/

/-- Under side-band the answer carries the pack's pieces, joined, on band 1; without it, the
pieces joined are the answer. -/
theorem carriesPack_packResponse (caps : List Capability) (pack : List Bytes) :
    CarriesPack caps (packResponse caps pack) pack.flatten := by
  unfold CarriesPack
  split
  · rename_i max hlimit
    exact ⟨pack.flatMap fun c => chunks max c, readBuffered_packResponse hlimit pack,
      flatten_flatMap_chunks max pack⟩
  · rename_i hlimit
    exact packResponse_of_none hlimit pack

/-- Objects that fit the pack format, none a delta, are written as a pack that decodes to
them. -/
theorem decodesTo_encode {objs : List GitObject} (hbase : ∀ o ∈ objs, o.kind.isBase)
    (hcount : objs.length < 2 ^ 32) (hsize : ∀ o ∈ objs, o.data.length < 2 ^ 60) :
    ∃ bytes, Pack.encode objs = .ok bytes ∧ DecodesTo bytes objs := by
  obtain ⟨bytes, hbytes⟩ :=
    Pack.encode_ok_of_not_refused (Pack.not_encodeRefused.mpr ⟨hbase, hcount⟩)
  obtain ⟨es, hdec, hobj, -⟩ := Pack.decode_of_encode hbytes hsize
  have hlen : es.length = objs.length := by
    simpa using congrArg List.length hobj
  exact ⟨bytes, hbytes, _, hdec, by simp [hlen], by simp [hlen], rfl, by simpa using hobj⟩

/-- Objects that fit the pack format, none a delta, are streamed as a pack that decodes to
them. -/
theorem decodesTo_streamPack {objs : List GitObject} (hbase : ∀ o ∈ objs, o.kind.isBase)
    (hcount : objs.length < 2 ^ 32) (hsize : ∀ o ∈ objs, o.data.length < 2 ^ 60) :
    DecodesTo (Pack.streamPack objs.length (fun _ => true) objs).2.flatten objs := by
  obtain ⟨pack, henc, hflat, -⟩ := Pack.streamPack_of_fits rfl hbase hcount
  obtain ⟨bytes, hbytes, hdec⟩ := decodesTo_encode hbase hcount hsize
  have hsame : pack = bytes := Except.ok.inj (henc.symm.trans hbytes)
  rw [hflat, hsame]
  exact hdec

section Reliable

variable {n : RepoName} {Good : Storage → Prop} {s : Storage}
variable (hrel : Reliable n Good) (hs : Good s)
include hrel hs

/-- **The pack prepared without `include-tag`**: the pieces the encoder streams for the objects
the walks send. -/
theorem run_preparePack {caps : List Capability} (hnotag : Capability.includeTag ∉ caps)
    (wants common : List ObjectId)
    (hpresent : ∀ x, Reach n s wants x → (objectAt n s x).isSome)
    (hwell : ∀ x, Reach n s (wants ++ common) x → WellLinked n s x) :
    ∃ objs : List GitObject,
      (preparePack n caps wants common).run.run s =
        (.ok (Pack.streamPack objs.length (fun _ => true) objs).2, s) ∧
      StoredOnce n s objs fun x => Reach n s wants x ∧ ¬ Reach n s common x := by
  obtain ⟨objs, hrun, hnd, hmem, hstored⟩ := collect_run hrel hs wants common hpresent hwell
  refine ⟨objs, ?_, hnd, hmem, hstored⟩
  have hnone : caps.contains .includeTag = false := by simpa using hnotag
  unfold preparePack
  simp only [hnone, Bool.false_eq_true, if_false]
  rw [run_bind_of_ok (run_pure _ _), run_bind_of_ok hrun]
  rfl

/-- **What a fetch sends.** Over storage that does not fail, take an upload request of want
lines, a flush, `have` lines and lines of other commands, and `done`, that asks for wants and
not for `include-tag`. Suppose the repository holds every object the wants reach, and every
object the wants and the common commits (the `have`s of stored objects) reach parses, the
links trees and tags name as blobs being blobs. Then over HTTP the answer is the
acknowledgements followed by the pack's bytes, and over a connection, whatever chunks it
delivers the request in, the same after the advertisement, storage unchanged either way. The pack's pieces, joined, are carried on band 1
under side-band, and are the rest of the answer otherwise. The objects the pack is made of are
those stored under the ids the wants reach and the common commits do not, each once; and when
they fit the pack format, fewer than `2 ^ 32` objects each shorter than `2 ^ 60` bytes, the
pieces joined decode to exactly those objects, complete, the count the number of entries. -/
theorem uploadPack_sends_reach_difference {ws : List Bytes} {pre : List ClientLine}
    {tail : Bytes} {wants : List ObjectId} {caps : List Capability}
    (hws : ∀ w ∈ ws, (PktLine.data w).Fits) (hpre : ∀ x ∈ pre, x.Sendable ∧ x.ends = false)
    (hread : readWants (fetchRequest ws pre tail) [] [] =
      .ok (wants, caps, writeLines ((pre ++ [ClientLine.done]).map ClientLine.toPkt) ++ tail))
    (hne : wants ≠ []) (hnotag : Capability.includeTag ∉ caps)
    (hpresent : ∀ x, Reach n s wants x → (objectAt n s x).isSome)
    (hwell : ∀ x, Reach n s (wants ++ commonOf (Storage.holds n s) pre) x → WellLinked n s x) :
    ∃ (pack : List Bytes) (objs : List GitObject),
      let out := replies (Storage.holds n s) [] (pre ++ [ClientLine.done]) ++
        packResponse caps pack
      (uploadPack n (fetchRequest ws pre tail)).run.run s = (.ok out, s) ∧
      (∀ adv, (infoRefs n .uploadPack .ssh).run.run s = (.ok adv, s) →
        ∀ chunks : List Bytes, [] ∉ chunks → chunks.flatten = fetchRequest ws pre tail →
          ∃ rest, (serve n .uploadPack).run.run (s, ⟨chunks, []⟩) =
            (.ok (), (s, ⟨rest, adv ++ out⟩))) ∧
      CarriesPack caps (packResponse caps pack) pack.flatten ∧
      StoredOnce n s objs (fun x => Reach n s wants x ∧
        ¬ Reach n s (commonOf (Storage.holds n s) pre) x) ∧
      (objs.length < 2 ^ 32 → (∀ o ∈ objs, o.data.length < 2 ^ 60) →
        DecodesTo pack.flatten objs) := by
  have hhas : ∀ id, (Storage.hasObject n id).run.run s = (.ok (Storage.holds n s id), s) :=
    fun id => hrel.hasObject id hs
  have hwants : ∀ w ∈ wants, Storage.holds n s w = true :=
    fun w hw => hpresent w ⟨w, hw, .refl⟩
  obtain ⟨objs, hprep, honce⟩ := run_preparePack hrel hs hnotag wants _ hpresent hwell
  -- over HTTP `done` ends the negotiation, and the prepared pack follows its answers
  have hhttp := (uploadPack_at_done hhas hread hne hwants hpre).trans
    (run_map_of_ok (fun pack => replies (Storage.holds n s) [] (pre ++ [.done]) ++
      packResponse caps pack) hprep)
  refine ⟨_, objs, hhttp, fun adv hadv chunks hc hflat => ?_, carriesPack_packResponse caps _,
    honce, fun hcount hsize => ?_⟩
  · exact serveUpload_of_uploadPack hadv hws hpre hhttp hc hflat
  · -- the objects read are whole objects, so they are written
    have hbase : ∀ o ∈ objs, o.kind.isBase := fun o ho =>
      (hrel.objectAt_some hs (honce.2.2 o ho)).2
    exact decodesTo_streamPack hbase hcount hsize

end Reliable

/-! ## A fetch from a small repository

Repository `demo` holds a commit, its tree, and the one file of the tree. A client that has
the tree and wants the commit is sent the commit alone. -/

/-- The file. -/
def fileBlob : ObjectId := ⟨List.replicate 20 0x22, List.length_replicate⟩

/-- The tree, holding the file as `a`. -/
def rootTree : ObjectId := ⟨List.replicate 20 0x11, ObjectId.length_replicate_17⟩

/-- The commit of the tree. -/
def tipCommit : ObjectId := ⟨List.replicate 20 0x33, List.length_replicate⟩

/-- The body of the commit, naming the tree. -/
def tipText : String :=
  "tree 1111111111111111111111111111111111111111\nauthor A <a@b> 0 +0000\n" ++
    "committer A <a@b> 0 +0000\n\nm\n"

/-- The blobs of the repository, in key order. -/
def fetchBlobs : BlobStore :=
  ⟨[(Remote.objectKey demo rootTree,
      ⟨Bytes.ofString "100644 a" ++ [0] ++ fileBlob.bytes, [("git-type", "tree")]⟩),
    (Remote.objectKey demo fileBlob, ⟨Bytes.ofString "x\n", [("git-type", "blob")]⟩),
    (Remote.objectKey demo tipCommit, ⟨Bytes.ofString tipText, [("git-type", "commit")]⟩)], 1⟩

/-- Storage holding the repository. -/
def fetchStore : Storage := { medium := .remote fetchBlobs, init := {}, now := 0 }

theorem wellStored_fetchBlobs : WellStored demo fetchBlobs where
  kinds id blob h := by
    have hkinds : ∀ e ∈ fetchBlobs.entries, (Remote.blobKind e.2 .blob).toOption.isSome := by
      decide +kernel
    obtain ⟨e, he, rfl⟩ := Option.map_eq_some_iff.mp h
    obtain ⟨k, hk⟩ := Option.isSome_iff_exists.mp (hkinds e (List.mem_of_find?_eq_some he))
    exact ⟨k, Except.eq_ok_of_toOption hk⟩
  targets ref blob hvalid h := by
    -- every blob sits under an object key, which no reference key is
    obtain ⟨e, he, rfl⟩ := Option.map_eq_some_iff.mp h
    have hkey : e.1 = Remote.key demo ref := by simpa using List.find?_some he
    have hmem := List.mem_of_find?_eq_some he
    simp only [fetchBlobs, List.mem_cons, List.not_mem_nil, or_false] at hmem
    rcases hmem with rfl | rfl | rfl <;>
      exact absurd hkey (Remote.objectKey_ne_key hvalid _)

/-- The want line of the commit. -/
def tipWant : Bytes := Bytes.ofString ("want " ++ tipCommit.toHex ++ "\n")

/-- The client's `have` of the tree. -/
def treeHave : List ClientLine := [.have rootTree]

/-- The ids of the repository. -/
def fetchIds : List ObjectId := [rootTree, fileBlob, tipCommit]

/-- The tree is common, so only the commit is sent: the pack holds the objects the commit
reaches and the tree does not. -/
theorem uploadPack_sends_commit_over_tree :
    ∃ (pack : List Bytes) (objs : List GitObject),
      let out := replies (Storage.holds demo fetchStore) [] (treeHave ++ [ClientLine.done]) ++
        packResponse [] pack
      (uploadPack demo (fetchRequest [tipWant] treeHave [])).run.run fetchStore =
        (.ok out, fetchStore) ∧
      (∀ adv, (infoRefs demo .uploadPack .ssh).run.run fetchStore = (.ok adv, fetchStore) →
        ∀ chunks : List Bytes, [] ∉ chunks → chunks.flatten = fetchRequest [tipWant] treeHave [] →
          ∃ rest, (serve demo .uploadPack).run.run (fetchStore, ⟨chunks, []⟩) =
            (.ok (), (fetchStore, ⟨rest, adv ++ out⟩))) ∧
      CarriesPack [] (packResponse [] pack) pack.flatten ∧
      StoredOnce demo fetchStore objs (fun x => Reach demo fetchStore [tipCommit] x ∧
        ¬ Reach demo fetchStore (commonOf (Storage.holds demo fetchStore) treeHave) x) ∧
      (objs.length < 2 ^ 32 → (∀ o ∈ objs, o.data.length < 2 ^ 60) →
        DecodesTo pack.flatten objs) := by
  have hs : OnBlobStore demo fetchStore := ⟨_, rfl, wellStored_fetchBlobs⟩
  have hfits : (PktLine.data tipWant).Fits := by decide +kernel
  have hwant : wantLine tipWant ([] : List ObjectId).isEmpty = .ok (some tipCommit, []) :=
    Except.eq_ok_of_toOption (by decide +kernel)
  have hread : readWants (fetchRequest [tipWant] treeHave []) [] [] =
      .ok ([tipCommit], [], writeLines ((treeHave ++ [ClientLine.done]).map ClientLine.toPkt) ++
        []) := by
    rw [fetchRequest, writeLines, List.map_singleton, List.flatMap_singleton,
      readWants_data_ok hfits _ hwant, readWants_flush]
    rfl
  -- everything either end reaches lies in the repository, whose objects are all well linked;
  -- the checks run as `List.all`, which the kernel evaluates where bounded quantifiers recurse
  -- too deep
  have hclosed : ∀ y ∈ fetchIds, ∀ z ∈ linksAt demo fetchStore y, z ∈ fetchIds := by
    have h : fetchIds.all (fun y => (linksAt demo fetchStore y).all fetchIds.contains) = true := by
      decide +kernel
    simpa [List.all_eq_true] using h
  have hroots : ∀ r ∈ [tipCommit] ++ commonOf (Storage.holds demo fetchStore) treeHave,
      r ∈ fetchIds := by
    have h : ([tipCommit] ++ commonOf (Storage.holds demo fetchStore) treeHave).all
        fetchIds.contains = true := by
      decide +kernel
    simpa [List.all_eq_true] using h
  have hstored : ∀ x ∈ fetchIds, (objectAt demo fetchStore x).isSome := by
    have h : fetchIds.all (fun x => (objectAt demo fetchStore x).isSome) = true := by
      decide +kernel
    simpa [List.all_eq_true] using h
  have hlinked : ∀ x ∈ fetchIds, WellLinked demo fetchStore x := by
    have h : fetchIds.all (wellLinkedAt demo fetchStore) = true := by decide +kernel
    simp only [List.all_eq_true] at h
    exact fun x hx => wellLinked_iff.mpr (h x hx)
  have hreach : ∀ x, Reach demo fetchStore ([tipCommit] ++
      commonOf (Storage.holds demo fetchStore) treeHave) x → x ∈ fetchIds :=
    fun x hx => Reach.mem_of_closed hroots hclosed hx
  exact uploadPack_sends_reach_difference (remote_reliable demo) hs
    (by simpa using hfits) (by simp [treeHave, ClientLine.Sendable, ClientLine.ends]) hread
    (List.cons_ne_nil _ _) (List.not_mem_nil)
    (fun x hx => hstored x (hreach x (hx.imp fun r hr => ⟨List.mem_append_left _ hr.1, hr.2⟩)))
    (fun x hx => hlinked x (hreach x hx))

end Engine

end GitServer
