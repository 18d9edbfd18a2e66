/-
Productions turn the result of a rule into a node with named fields.
-/
import Packrat.Grammar.Error
import Packrat.Tree.Basic

namespace Packrat

/-- How to make a node: its kind with the ancestors of that kind, and its fields in order. -/
structure Production where
  lineage : List String
  fields : List String

namespace Production

/-- The field that holds the whole result when no fields are named. -/
def soleField : String := "lexeme"

/-- A production for a kind; without fields it has the sole one. -/
def new (lineage fields : List String) : Production :=
  ⟨lineage, if fields.isEmpty then [soleField] else fields⟩

/-- The kind of the nodes. -/
def kind (p : Production) : String := Tree.kindOf p.lineage

/-- Makes the node for the result of a rule. One field takes the whole result; several fields take
the items of a list, one each. The node stands where the result's extent is. -/
def node (p : Production) (rule : String) (tree : Tree) : Except GrammarError Tree :=
  match p.fields with
  | [field] => .ok (.node (.own tree.extent) p.lineage [(field, tree)])
  | fields =>
    let items := tree.items?.getD []
    if items.length = fields.length then .ok (.node (.own tree.extent) p.lineage (fields.zip items))
    else .error (.wrongFieldCount rule fields.length (tree.items?.elim 1 List.length))

end Production

end Packrat
