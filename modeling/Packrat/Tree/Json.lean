/-
Trees as compact JSON text: strings for texts and matches, arrays for lists, and for nodes objects
that begin with the node's kind.
-/
import Packrat.Tree.Basic
import Packrat.Text.Json

namespace Packrat

mutual

/-- The JSON text of a tree. -/
def Tree.json : Tree → String
  | .text _ chars => Json.string chars
  | .found _ groups => Json.string (matchedText groups)
  | .list _ items => Json.array (jsonItems items)
  | .node _ lineage fields =>
    Json.object (("node", Json.string (kindOf lineage).toList) :: jsonFields fields)

/-- The JSON texts of some trees. -/
def Tree.jsonItems : List Tree → List String
  | [] => []
  | t :: rest => t.json :: jsonItems rest

/-- The names and JSON texts of the fields of a node. -/
def Tree.jsonFields : List (String × Tree) → List (String × String)
  | [] => []
  | (name, t) :: rest => (name, t.json) :: jsonFields rest

end

/-- The JSON text of a location. -/
def Location.json (l : Location) : String :=
  Json.object [("line", toString l.line), ("column", toString l.column)]

/-- The JSON text of a span. -/
def Span.json (s : Span) : String :=
  Json.object [("start", s.start.json), ("end", s.stop.json), ("source_text", Json.string s.text)]

end Packrat
