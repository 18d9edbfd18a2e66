/-
Kinds of nodes. Each kind is declared once, below a parent kind that was declared before it or
below none, so following parents always leads back to an earlier declaration.
-/
import Packrat.Grammar.Error

namespace Packrat

/-- Declared kinds with their parents, latest first. -/
structure Kinds where
  declared : List (String × Option String)

namespace Kinds

/-- No kinds. -/
def empty : Kinds := ⟨[]⟩

/-- Whether a kind is declared. -/
def contains (kinds : Kinds) (name : String) : Bool := kinds.declared.any (·.1 == name)

/-- Declares a kind. -/
def add (kinds : Kinds) (name : String) (parent : Option String) : Except GrammarError Kinds :=
  if kinds.contains name then .error (.duplicateKind name)
  else match parent.filter (!kinds.contains ·) with
    | some missing => .error (.unknownParent name missing)
    | none => .ok ⟨(name, parent) :: kinds.declared⟩

/-- The lineage of a kind among some declarations. -/
def lineageIn : List (String × Option String) → String → Option (List String)
  | [], _ => none
  | (kind, parent) :: earlier, name =>
    if kind = name then
      match parent with
      | none => some [name]
      | some parent => (lineageIn earlier parent).map (name :: ·)
    else lineageIn earlier name

/-- A declared kind followed by its ancestors, nearest first. -/
def lineage? (kinds : Kinds) (name : String) : Option (List String) := lineageIn kinds.declared name

end Kinds

end Packrat
