import GitServer.Proofs.Engine.Delivery
import GitServer.Proofs.Engine.ReadOnly
import Mathlib

/-!
# What an exchange over a connection does to storage

Over a connection the server reads the client's lines and pack from the channel and writes its
answers to it; storage is touched only by the engine steps the exchange runs (`engine`). So a
property of storage that those steps keep is kept by the whole exchange, read on the storage of
its states (`OnStorage`): an upload keeps whatever its advertisement, want check, negotiation
and pack keep (`serveUpload_keeps`), and over a blob store it changes nothing
(`serveUpload_stays`); a push keeps whatever its advertisement and the push it applies keep
(`serveReceive_keeps`).
-/

namespace GitServer

namespace Engine

open Storage Wire

/-- A relation between states of storage, read on the storage of two states of an exchange. -/
def OnStorage (R : Storage → Storage → Prop) (a b : Storage × Channel) : Prop := R a.1 b.1

instance (R : Storage → Storage → Prop) [IsPreorder Storage R] :
    IsPreorder (Storage × Channel) (OnStorage R) where
  refl a := refl_of R a.1
  trans _ _ _ h₁ h₂ := trans_of R h₁ h₂

variable {P : Storage → Prop} {R : Storage → Storage → Prop} [IsPreorder Storage R] {α : Type}

/-! ## The steps of an exchange -/

section Steps

omit [IsPreorder Storage R] in
/-- An engine step keeps on the exchange what it keeps on storage. -/
theorem engine_keeps {m : EngineM α} (h : Keeps P R m) :
    Keeps (fun a => P a.1) (OnStorage R) (engine m) := by
  rintro ⟨st, ch⟩ hst
  rw [run_engine]
  exact h st hst

/-- A step that leaves storage as it is keeps every property of it. -/
theorem keeps_of_storage {m : SessionM α} (h : ∀ a, (m.run.run a).2.1 = a.1) :
    Keeps (fun a => P a.1) (OnStorage R) m := by
  intro a ha
  have hsame := h a
  refine ⟨?_, ?_⟩
  · show P (m.run.run a).2.1
    rw [hsame]
    exact ha
  · show R a.1 (m.run.run a).2.1
    rw [hsame]
    exact refl_of R a.1

theorem abort_keeps (e : ProtocolError) : Keeps (fun a => P a.1) (OnStorage R) (abort e : SessionM α) :=
  Keeps.throw e

theorem verify_keeps (x : Except ProtocolError α) : Keeps (fun a => P a.1) (OnStorage R) (verify x) := by
  cases x with
  | ok a => exact Keeps.pure a
  | error e => exact Keeps.throw e

theorem write_keeps (bs : Bytes) : Keeps (fun a => P a.1) (OnStorage R) (write bs) :=
  keeps_of_storage fun _ => rfl

theorem readLine_keeps : Keeps (fun a => P a.1) (OnStorage R) readLine :=
  keeps_of_storage fun ⟨st, ch⟩ => by rw [run_readLine]

theorem readBound_keeps : Keeps (fun a => P a.1) (OnStorage R) readBound :=
  keeps_of_storage fun _ => rfl

theorem pending_keeps : Keeps (fun a => P a.1) (OnStorage R) pending :=
  keeps_of_storage fun _ => rfl

theorem consume_keeps (rest : List Bytes) : Keeps (fun a => P a.1) (OnStorage R) (consume rest) :=
  keeps_of_storage fun _ => rfl

end Steps

/-! ## The readers -/

section Readers

variable {n : RepoName}

theorem readWantList_keeps :
    ∀ (fuel : Nat) (wants : List ObjectId) (caps : List Capability),
      Keeps (fun a => P a.1) (OnStorage R) (readWantList fuel wants caps)
  | 0, _, _ => Keeps.pure _
  | fuel + 1, wants, caps => by
    unfold readWantList
    refine Keeps.bind readLine_keeps fun line => ?_
    rcases line with _ | w | _
    · exact Keeps.ite (Keeps.pure _) (abort_keeps _)
    · exact Keeps.bind (verify_keeps _) fun x => readWantList_keeps fuel _ _
    · exact Keeps.pure _

theorem readCommandList_keeps :
    ∀ (fuel : Nat) (req : PushRequest), Keeps (fun a => P a.1) (OnStorage R) (readCommandList fuel req)
  | 0, _ => Keeps.pure _
  | fuel + 1, req => by
    unfold readCommandList
    refine Keeps.bind readLine_keeps fun line => ?_
    rcases line with _ | w | _
    · exact Keeps.ite (Keeps.pure _) (abort_keeps _)
    · exact Keeps.bind (verify_keeps _) fun req' => readCommandList_keeps fuel req'
    · exact Keeps.pure _

theorem readPackFrom_keeps :
    ∀ (fuel : Nat) (sc : Pack.Scanner) (buffer : Bytes),
      Keeps (fun a => P a.1) (OnStorage R) (readPackFrom fuel sc buffer)
  | 0, _, _ => Keeps.pure _
  | fuel + 1, sc, buffer => by
    unfold readPackFrom
    split
    · exact Keeps.pure _
    · exact Keeps.pure _
    · refine Keeps.bind pending_keeps fun cs => ?_
      dsimp only
      split
      · exact Keeps.pure _
      · exact Keeps.bind (consume_keeps _) fun _ => readPackFrom_keeps fuel _ _

variable (hhave : ∀ common id, Keeps P R (takeHave n common id))
include hhave

theorem readHaves_keeps :
    ∀ (fuel : Nat) (common : Common) (held : Bytes),
      Keeps (fun a => P a.1) (OnStorage R) (readHaves n fuel common held)
  | 0, _, _ => Keeps.pure _
  | fuel + 1, common, held => by
    unfold readHaves
    refine Keeps.bind readLine_keeps fun line => ?_
    rcases line with _ | w | _
    · exact abort_keeps _
    · -- a `have` is looked up, `done` ends the reading, another line is passed over
      refine Keeps.bind (verify_keeps _) fun x => ?_
      rcases x with id | _ | _
      · exact Keeps.bind (engine_keeps (hhave common id)) fun y => readHaves_keeps fuel _ _
      · exact Keeps.pure _
      · exact readHaves_keeps fuel _ _
    · exact Keeps.bind (write_keeps _) fun _ => readHaves_keeps fuel _ _

end Readers

/-! ## The two exchanges -/

section Exchanges

variable {n : RepoName}

/-- **An upload over a connection keeps what its engine steps keep**: the advertisement, the
check of the wants, the look-up of each `have` and the preparation of the pack. -/
theorem serveUpload_keeps (hadv : Keeps P R (infoRefs n .uploadPack .ssh))
    (hwants : ∀ wants, Keeps P R (checkWants n wants))
    (hhave : ∀ common id, Keeps P R (takeHave n common id))
    (hpack : ∀ caps wants common, Keeps P R (preparePack n caps wants common)) :
    Keeps (fun a => P a.1) (OnStorage R) (serveUpload n) := by
  unfold serveUpload
  refine Keeps.bind (engine_keeps hadv) fun adv => Keeps.bind (write_keeps _) fun _ =>
    Keeps.bind readBound_keeps fun fuel =>
      Keeps.bind (readWantList_keeps _ _ _) fun x => ?_
  obtain ⟨wants, caps⟩ := x
  dsimp only
  split
  · exact Keeps.pure _
  refine Keeps.bind (engine_keeps (hwants _)) fun _ => Keeps.bind readBound_keeps fun fuel' =>
    Keeps.bind (readHaves_keeps hhave _ _ _) fun y => ?_
  obtain ⟨common, held⟩ := y
  dsimp only
  refine Keeps.bind (write_keeps _) fun _ =>
    Keeps.bind (Keeps.tryCatch (engine_keeps (hpack _ _ _)) fun e => ?_) fun pack => write_keeps _
  -- a pack that cannot be built is reported on band 3 when side-band was asked for
  split
  · exact Keeps.bind (write_keeps _) fun _ => abort_keeps _
  · exact abort_keeps _

/-- **An upload over a connection changes no blob store**, whatever the client sends. -/
theorem serveUpload_stays :
    Keeps (fun a => InBlobStore a.1) (OnStorage (· = ·)) (serveUpload n) :=
  serveUpload_keeps (infoRefs_stays _ _) checkWants_stays takeHave_stays preparePack_stays

/-- **A push over a connection keeps what its engine steps keep**: the advertisement, and the
push it applies once it has read the commands and the pack. -/
theorem serveReceive_keeps (hadv : Keeps P R (infoRefs n .receivePack .ssh))
    (hpush : ∀ req pack, Keeps P R (applyPush n req pack)) :
    Keeps (fun a => P a.1) (OnStorage R) (serveReceive n) := by
  unfold serveReceive
  refine Keeps.bind (engine_keeps hadv) fun adv => Keeps.bind (write_keeps _) fun _ =>
    Keeps.bind readBound_keeps fun fuel =>
      Keeps.bind (readCommandList_keeps _ _) fun req => ?_
  split
  · exact Keeps.pure _
  have hanswer : ∀ pack, Keeps (fun a => P a.1) (OnStorage R)
      (do write (← engine (applyPush n req pack)) : SessionM Unit) := fun pack =>
    Keeps.bind (engine_keeps (hpush req pack)) fun answer => write_keeps _
  dsimp only
  -- the pack is read only when some command does not delete
  split
  · refine Keeps.bind pending_keeps fun cs => Keeps.bind ?_ hanswer
    rw [map_eq_bind_pure_comp]
    exact Keeps.bind (readPackFrom_keeps _ _ _) fun _ => Keeps.pure _
  · exact Keeps.bind (Keeps.pure _) hanswer

end Exchanges

end Engine

end GitServer
