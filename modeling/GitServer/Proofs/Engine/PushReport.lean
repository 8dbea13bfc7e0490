import GitServer.Proofs.Engine.Push
import GitServer.Proofs.Storage.RemoteStore

/-!
# What a push answers

A receive-pack request carries push commands, a flush and a pack. Over storage that does not
fail, the answer is determined by the rules (`receivePack_answers_push`):

* with no command, the answer is empty and nothing changes;
* otherwise the report holds an unpack line and one line per command, then a flush, delivered
  as the client asked (`deliver`);
* the unpack line is `unpack ok` exactly when the pack is empty, or reads with every delta
  rooted in the pack and the stored objects it names (`Unpacks`);
* after a failed unpack every command reports `unpacker error` and nothing changes;
* after a successful one, an id holds what it held, else an object the pack brings, and each
  command reports the outcome the rules give it against the references the commands before it
  left (`Pushed`).
-/

namespace GitServer

open Pack Storage Wire

namespace Engine

variable {n : RepoName} {Good : Storage → Prop} {s : Storage}

/-! ## The report -/

/-- A push report: the unpack line, a line for each command, then a flush. -/
def pushReport (head : String) (lines : List String) : Bytes :=
  textLine head ++ (lines.map textLine).flatten ++ flushBytes

/-- What a client receives of a report: nothing without `report-status`; under side-band, the
report on band 1 followed by a flush; else the report itself. -/
def deliver (caps : List Capability) (report : Bytes) : Bytes :=
  if caps.contains .reportStatus then
    match sideBandLimit caps with
    | some max => frames .data report max ++ flushBytes
    | none => report
  else []

theorem length_singleLine (x : String) : (singleLine x).length = x.length := by
  simp [singleLine, String.length_toList]

theorem message_decode (why : String) :
    (ProtocolError.decode why).message = "protocol decode error: " ++ why := rfl

/-- The unpack line of a failure is never the unpack line of a success: it is longer. -/
theorem unpackFailed_ne_ok (why : String) :
    "unpack " ++ singleLine (ProtocolError.decode why).message ++ "\n" ≠ "unpack ok\n" := by
  intro h
  rw [message_decode] at h
  have hlen : ("unpack " ++ singleLine ("protocol decode error: " ++ why) ++ "\n").length =
      "unpack ok\n".length := by rw [h]
  have hprefix : "protocol decode error: ".length = 23 := rfl
  have hhead : "unpack ".length = 7 := rfl
  have hok : "unpack ok\n".length = 10 := rfl
  have hnl : "\n".length = 1 := rfl
  rw [String.length_append, String.length_append, length_singleLine, String.length_append,
    hprefix, hhead, hok, hnl] at hlen
  omega

theorem statusLine_unpackerError (c : RefCommand) :
    ({ c with status := .failed "unpacker error" } : RefCommand).statusLine =
      "ng " ++ c.name ++ " unpacker error\n" := by
  simp [RefCommand.statusLine, String.append_assoc]

/-- **What the rules say a push does**, from the state `s` to `s'`, for the commands `cs` and
the pack bytes `pack`, reported with the unpack line `head` and the command lines `lines`. -/
structure Pushed (n : RepoName) (s s' : Storage) (cs : List RefCommand) (pack : Bytes)
    (head : String) (lines : List String) : Prop where
  /-- One line for each command. -/
  length_lines : lines.length = cs.length
  /-- The pack is taken in when it is empty, or reads with every delta rooted. -/
  unpack_ok_iff : head = "unpack ok\n" ↔ pack = [] ∨ Unpacks n s pack
  /-- A failed unpack fails every command and changes nothing. -/
  unpack_failed : head ≠ "unpack ok\n" →
    lines = cs.map (fun c => "ng " ++ c.name ++ " unpacker error\n") ∧
      objectAt n s' = objectAt n s ∧ targetAt n s' = targetAt n s
  /-- After an unpack, an id holds what it held, else an object the pack brings. -/
  objects : head = "unpack ok\n" → ∀ i o, objectAt n s' i = some o ↔
    objectAt n s i = some o ∨ objectAt n s i = none ∧ o.id = i ∧ Brings n s pack o
  /-- After an unpack, command `k` reports the outcome the rules give it against the
  references the commands before it left. -/
  lines_get : head = "unpack ok\n" → ∀ k c, cs[k]? = some c →
    lines[k]? = some (judgedAfter (holds n s') (targetAt n s) (cs.take k) c).statusLine
  /-- After an unpack, the references are those the rules leave. -/
  refs : head = "unpack ok\n" → targetAt n s' = afterCommands (holds n s') (targetAt n s) cs

/-! ## Unpacking the pack of a push -/

/-- An empty request body is no pack: it does not read. -/
theorem read_nil (r : Decoded) : read [] ≠ .ok r := by
  intro h
  simp [Pack.read, Header.parse, headerLength, bind, Except.bind] at h

section Run

variable (hrel : Reliable n Good) (hs : Good s)
include hrel hs

/-- **The unpack stage of a push.** The pack is taken in exactly when it is empty or
`Unpacks`; then an id holds what it held, else an object the pack brings; a failure is kept
as a decode error and changes nothing. -/
theorem unpackPushed_run {rest : Bytes}
    (hcf : ∀ r, read rest = .ok r → CollisionFree r (storedBases n s r)) :
    ((rest = [] ∨ Unpacks n s rest) →
      ∃ s', (unpackPushed n (if rest.isEmpty then none else some rest)).run.run s =
          (.ok (.ok ()), s') ∧ Good s' ∧ targetAt n s' = targetAt n s ∧
        ∀ i o, objectAt n s' i = some o ↔
          objectAt n s i = some o ∨ objectAt n s i = none ∧ o.id = i ∧ Brings n s rest o) ∧
    (¬ (rest = [] ∨ Unpacks n s rest) →
      ∃ why, (unpackPushed n (if rest.isEmpty then none else some rest)).run.run s =
        (.ok (.error (.decode why)), s)) := by
  by_cases hnil : rest = []
  · -- no pack: nothing to take in, and nothing brought
    subst hnil
    refine ⟨fun _ => ⟨s, rfl, hs, rfl, fun i o => ?_⟩, fun h => absurd (.inl rfl) h⟩
    have hnone : ¬ Brings n s [] o := fun ⟨r, hr, _⟩ => read_nil r hr
    simp [hnone]
  · have hpack : (if rest.isEmpty then none else some rest) = some rest := by
      simp [List.isEmpty_iff, hnil]
    rw [hpack]
    obtain ⟨hok, hfail⟩ := unpackAndStore_spec hrel hs hcf
    refine ⟨fun h => ?_, fun h => ?_⟩
    · obtain ⟨s', hrun, hgood, htgt, hobjs⟩ := hok (h.resolve_left hnil)
      refine ⟨s', ?_, hgood, htgt, hobjs⟩
      simp only [unpackPushed, List.isEmpty_iff, hnil, if_false]
      rw [run_tryCatch_of_ok ((run_bind_of_ok
        (f := fun _ => (pure (.ok ()) : EngineM (Except ProtocolError Unit))) hrun).trans rfl)]
    · obtain ⟨why, hrun⟩ := hfail fun hu => h (.inr hu)
      refine ⟨why, ?_⟩
      simp only [unpackPushed, List.isEmpty_iff, hnil, if_false]
      rw [run_tryCatch_of_error (run_bind_of_error
        (f := fun _ => (pure (.ok ()) : EngineM (Except ProtocolError Unit))) hrun)]
      rfl

/-- **A push, past its commands.** The answer is the report the rules give, delivered as the
client asked, and the push does what the rules say. -/
theorem applyPush_run (req : PushRequest) {rest : Bytes}
    (hcf : ∀ r, read rest = .ok r → CollisionFree r (storedBases n s r)) :
    ∃ s' head lines, (applyPush n req (if rest.isEmpty then none else some rest)).run.run s =
        (.ok (deliver req.caps (pushReport head lines)), s') ∧ Good s' ∧
      Pushed n s s' req.commands rest head lines := by
  -- the report reaches the client as `deliver` says
  have hdeliver : ∀ (head : String) (commands : List RefCommand) (s' : Storage),
      ((if (!req.caps.contains .reportStatus) = true then pure [] else
        pure (match sideBandLimit req.caps with
          | some max => frames .data (textLine head ++
              (commands.map fun c => textLine c.statusLine).flatten ++ flushBytes) max ++ flushBytes
          | none => textLine head ++
              (commands.map fun c => textLine c.statusLine).flatten ++ flushBytes)) :
          EngineM Bytes).run.run s' =
        (.ok (deliver req.caps (pushReport head (commands.map RefCommand.statusLine))), s') := by
    intro head commands s'
    have hlines : textLine head ++ (commands.map fun c => textLine c.statusLine).flatten ++
        flushBytes = pushReport head (commands.map RefCommand.statusLine) := by
      simp [pushReport, Function.comp_def]
    cases hc : req.caps.contains .reportStatus
    · simp only [deliver, hc, Bool.not_false, Bool.false_eq_true, if_true, if_false]
      rfl
    · simp only [deliver, hc, Bool.not_true, Bool.false_eq_true, if_true, if_false, hlines]
      rfl
  obtain ⟨hok, hfail⟩ := unpackPushed_run hrel hs hcf
  by_cases hunpack : rest = [] ∨ Unpacks n s rest
  · obtain ⟨s₁, hrun₁, hgood₁, htgt₁, hobjs₁⟩ := hok hunpack
    obtain ⟨s₂, hrun₂, hgood₂, hobj₂, htgt₂⟩ := mapM_applyCommand_run hrel req.commands hgood₁
    -- the commands keep the objects the unpack left
    have hholds : holds n s₂ = holds n s₁ := by
      funext id
      simp [holds, hobj₂]
    refine ⟨s₂, "unpack ok\n",
      (reported (holds n s₁) (targetAt n s₁) req.commands).map RefCommand.statusLine, ?_, hgood₂,
      ⟨by simp, iff_of_true rfl hunpack, fun h => absurd rfl h, fun _ i o => ?_,
        fun _ k c hk => ?_, fun _ => ?_⟩⟩
    · unfold applyPush
      rw [run_bind_of_ok hrun₁]
      dsimp only
      rw [run_bind_of_ok hrun₂]
      exact hdeliver _ _ _
    · rw [hobj₂]
      exact hobjs₁ i o
    · rw [List.getElem?_map, getElem?_reported, hk, hholds, htgt₁]
      rfl
    · rw [htgt₂, hholds, htgt₁]
  · obtain ⟨why, hrun₁⟩ := hfail hunpack
    refine ⟨s, "unpack " ++ singleLine (ProtocolError.decode why).message ++ "\n",
      req.commands.map (fun c => "ng " ++ c.name ++ " unpacker error\n"), ?_, hs,
      ⟨by simp, iff_of_false (unpackFailed_ne_ok why) hunpack, fun _ => ⟨rfl, rfl, rfl⟩,
        fun h => absurd h (unpackFailed_ne_ok why), fun h => absurd h (unpackFailed_ne_ok why),
        fun h => absurd h (unpackFailed_ne_ok why)⟩⟩
    unfold applyPush
    rw [run_bind_of_ok hrun₁]
    dsimp only
    rw [run_bind_of_ok (run_pure _ s)]
    refine (hdeliver _ _ _).trans ?_
    simp [Function.comp_def, statusLine_unpackerError]

/-- **Receive-pack answers a push as the rules say.** Over storage that does not fail, for a
request whose command list reads and, when it holds a command, ends in a flush, and with no
two objects the pack meets sharing an id: with no command the answer is empty and nothing
changes; otherwise the answer is the report of the unpack and of each command, in order,
delivered as the client asked, and the push does what the rules say (`Pushed`). -/
theorem receivePack_answers_push {request rest : Bytes} {req : PushRequest} {flushed : Bool}
    (hread : readCommands request {} = .ok (req, flushed, rest))
    (hflush : req.commands ≠ [] → flushed = true)
    (hcf : ∀ r, read rest = .ok r → CollisionFree r (storedBases n s r)) :
    (req.commands = [] → (receivePack n request).run.run s = (.ok [], s)) ∧
    (req.commands ≠ [] → ∃ s' head lines, (receivePack n request).run.run s =
        (.ok (deliver req.caps (pushReport head lines)), s') ∧ Good s' ∧
      Pushed n s s' req.commands rest head lines) := by
  have hcheck : (check (readCommands request {})).run.run s = (.ok (req, flushed, rest), s) := by
    rw [hread]
    rfl
  refine ⟨fun hnil => ?_, fun hcmds => ?_⟩
  · unfold receivePack
    rw [run_bind_of_ok hcheck]
    simp [hnil]
    rfl
  · obtain ⟨s', head, lines, hrun, hgood, hpushed⟩ := applyPush_run hrel hs req hcf
    refine ⟨s', head, lines, ?_, hgood, hpushed⟩
    have hne : req.commands.isEmpty = false := by simpa [List.isEmpty_iff] using hcmds
    unfold receivePack
    rw [run_bind_of_ok hcheck]
    simp only [hne, hflush hcmds, Bool.false_eq_true, if_false, Bool.not_true]
    exact hrun

end Run

/-! ## A push of one command -/

theorem readCommands_of_data {buf : Bytes} {req req' : PushRequest} {line : Bytes}
    {rest : {r : Bytes // r.length < buf.length}}
    (h : readOne buf = .ok (some (.data line, rest))) (hc : commandLine req line = .ok req') :
    readCommands buf req = readCommands rest.1 req' := by
  rw [readCommands, h]
  simp only [hc]

theorem readCommands_of_flush {buf : Bytes} {req : PushRequest}
    {rest : {r : Bytes // r.length < buf.length}}
    (h : readOne buf = .ok (some (.flush, rest))) :
    readCommands buf req = .ok (req, true, rest.1) := by
  rw [readCommands, h]

/-- A command line creating `refs/heads/main` at the id `11…11`, asking for `report-status`. -/
def createMainLine : Bytes := Bytes.ofString
  "0000000000000000000000000000000000000000 1111111111111111111111111111111111111111 refs/heads/main\x00report-status\n"

/-- A push of that one command, with no pack. -/
def createMainPush : Bytes := (PktLine.data createMainLine).encode ++ flushBytes

/-- What the command line asks for. -/
def createMainRequest : PushRequest :=
  { commands := [⟨ObjectId.zero, ⟨List.replicate 20 0x11, ObjectId.length_replicate_17⟩, "refs/heads/main", .pending⟩],
    caps := [.reportStatus] }

theorem readCommands_createMainPush :
    readCommands createMainPush {} = .ok (createMainRequest, true, []) := by
  have hline : readOne createMainPush =
      .ok (some (.data createMainLine, ⟨flushBytes, by decide +kernel⟩)) := by decide +kernel
  have hcommand : commandLine {} createMainLine = .ok createMainRequest := by decide +kernel
  have hflush : readOne flushBytes = .ok (some (.flush, ⟨[], by decide +kernel⟩)) := by
    decide +kernel
  rw [readCommands_of_data hline hcommand, readCommands_of_flush hflush]

/-- An empty repository `demo.git` kept in a blob store. -/
def emptyDemo : Storage := { medium := .remote (BlobStore.empty 1), init := {}, now := 0 }

theorem receivePack_createMainPush :
    OnBlobStore ⟨"demo.git"⟩ emptyDemo ∧
      readCommands createMainPush {} = .ok (createMainRequest, true, []) ∧
      ∃ s' head lines, (receivePack ⟨"demo.git"⟩ createMainPush).run.run emptyDemo =
          (.ok (deliver [.reportStatus] (pushReport head lines)), s') ∧
        OnBlobStore ⟨"demo.git"⟩ s' ∧
        Pushed ⟨"demo.git"⟩ emptyDemo s' createMainRequest.commands [] head lines := by
  have hs : OnBlobStore ⟨"demo.git"⟩ emptyDemo := ⟨_, rfl, WellStored.empty _ 1⟩
  refine ⟨hs, readCommands_createMainPush, ?_⟩
  exact (receivePack_answers_push (remote_reliable _) hs readCommands_createMainPush
    (fun _ => rfl) fun r h => absurd h (read_nil r)).2 (by simp [createMainRequest])

end Engine

end GitServer
