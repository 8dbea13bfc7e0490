import GitServer.Wire.PktLine
import GitServer.Wire.Service

/-!
# Reference advertisements

The first reply of a service lists references, one pkt-line each, and ends with a flush.
Over HTTP it is preceded by a line naming the service and a flush.
-/

namespace GitServer.Wire

/-- The advertisement frame around the given reference lines. -/
def smartReply (binding : Binding) (refLines : List String) (service : String) : Bytes :=
  let head := match binding with
    | .http => [PktLine.data (Bytes.ofString ("# service=" ++ service ++ "\n")), .flush]
    | .ssh => []
  writeLines (head ++ refLines.map (fun l => .data (Bytes.ofString l)) ++ [.flush])

end GitServer.Wire
