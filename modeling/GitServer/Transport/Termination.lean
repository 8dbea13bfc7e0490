import GitServer.Wire.Error

/-!
# Closing an SSH channel

When a service run over SSH ends, the channel is closed in steps. On success: end of data,
a pause of 200 ms so that the client reads everything, and the close. On failure: the error
on the standard error stream, exit status 1, end of data, a pause of 100 ms, and the close.
-/

namespace GitServer.Transport

/-- One step of closing a channel. -/
inductive TerminationStep where
  | stderr (text : String)
  | exitStatus (code : Nat)
  | eof
  | pauseMs (ms : Nat)
  | close
deriving DecidableEq, Repr

/-- The steps that close a channel after a failure with this message: the message on the
standard error stream, exit status 1, end of data, a pause of 100 ms, and the close. -/
def failurePlan (message : String) : List TerminationStep :=
  [.stderr ("error: " ++ message ++ "\n"), .exitStatus 1, .eof, .pauseMs 100, .close]

/-- The steps that close a channel after a service ended with this outcome. -/
def terminationPlan : Except ProtocolError Unit → List TerminationStep
  | .ok () => [.eof, .pauseMs 200, .close]
  | .error e => failurePlan e.message

end GitServer.Transport
