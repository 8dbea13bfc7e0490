/-!
# Lines of text

A text is split into lines at line feeds; a carriage return just before a line feed belongs
to the line end, and a final line feed does not start another line.
-/

namespace GitServer.Text

/-- The lines of a text. -/
def lines (s : String) : List String :=
  let parts := s.splitOn "\n"
  let ended := parts.dropLast.map fun l =>
    if l.endsWith "\r" then String.ofList l.toList.dropLast else l
  match parts.getLast? with
  | some "" | none => ended
  | some last => ended ++ [last]

end GitServer.Text
