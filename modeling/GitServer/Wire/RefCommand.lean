import GitServer.ObjectId

/-!
# Reference commands

A push asks for reference updates, one command a line: the old id, the new id and the
reference name. The zero id stands for "none": a zero new id deletes, a zero old id creates,
anything else updates. Each command ends with a status that the report sends back.
-/

namespace GitServer.Wire

/-- What a command does to its reference. -/
inductive CommandKind where
  | create
  | update
  | delete
deriving DecidableEq, Repr

/-- Where a command stands. -/
inductive CommandStatus where
  | pending
  | success
  | failed (reason : String)
deriving DecidableEq, Repr

/-- A reference update asked for by a push. -/
structure RefCommand where
  old : ObjectId
  new : ObjectId
  name : String
  status : CommandStatus := .pending
deriving DecidableEq

namespace RefCommand

/-- What the command does: a zero new id deletes, a zero old id creates. -/
def kind (c : RefCommand) : CommandKind :=
  if c.new.isZero then .delete else if c.old.isZero then .create else .update

/-- The report line: `ok <name>`, or `ng <name> <reason>` for a failed command. -/
def statusLine (c : RefCommand) : String :=
  match c.status with
  | .failed reason => "ng " ++ c.name ++ " " ++ reason ++ "\n"
  | _ => "ok " ++ c.name ++ "\n"

end RefCommand

end GitServer.Wire
