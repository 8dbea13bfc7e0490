import GitServer.Wire.Error
import GitServer.Text.Blank

/-!
# Capabilities

A client names the protocol features it wants on its first request line, separated by
blanks. Known names map to their feature; `agent=` and `object-format=` carry a value; any
other word is kept as an unknown capability. Writing a capability gives back the word it
was read from.
-/

namespace GitServer.Wire

/-- A protocol capability. -/
inductive Capability where
  | sideBand
  | sideBand64k
  | ofsDelta
  | includeTag
  | noProgress
  | reportStatus
  | deleteRefs
  | quiet
  | noThin
  | thinPack
  | multiAck
  | multiAckDetailed
  | objectFormat (format : String)
  | agent (name : String)
  | unknown (word : String)
deriving DecidableEq, Repr

namespace Capability

/-- The capabilities that are a bare word, with their words. -/
def named : List (Capability × String) :=
  [(.sideBand, "side-band"), (.sideBand64k, "side-band-64k"), (.ofsDelta, "ofs-delta"),
   (.includeTag, "include-tag"), (.noProgress, "no-progress"), (.reportStatus, "report-status"),
   (.deleteRefs, "delete-refs"), (.quiet, "quiet"), (.noThin, "no-thin"),
   (.thinPack, "thin-pack"), (.multiAck, "multi_ack"), (.multiAckDetailed, "multi_ack_detailed")]

/-- The word of a capability. -/
def word : Capability → String
  | .objectFormat f => "object-format=" ++ f
  | .agent a => "agent=" ++ a
  | .unknown w => w
  | c => ((named.find? (·.1 == c)).map (·.2)).getD ""

/-- The capability a word names. -/
def ofWord (w : String) : Capability :=
  if w.startsWith "agent=" then .agent (String.ofList (w.toList.drop 6))
  else if w.startsWith "object-format=" then .objectFormat (String.ofList (w.toList.drop 14))
  else ((named.find? (·.2 == w)).map (·.1)).getD (.unknown w)

/-- The words of a text, split at blanks. -/
def words (s : String) : List String :=
  (s.toList.splitBy fun a b => Blank.isBlank a == Blank.isBlank b).filterMap fun w =>
    match w.head? with
    | some c => if Blank.isBlank c then none else some (String.ofList w)
    | none => none

/-- The capabilities in a blank-separated list. -/
def parseList (s : String) : List Capability := (words s).map ofWord

end Capability

end GitServer.Wire
