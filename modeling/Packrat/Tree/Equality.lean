/-
Equality of trees looks at content alone: spans do not count, and a text equals a match of the same
text. What a tree contributes to a hash is a list of items that equal trees share.
-/
import Packrat.Tree.Basic

namespace Packrat

/-- A thing written to a hash. -/
inductive HashItem where
  | number (n : Nat)
  | text (chars : List Char)
deriving DecidableEq

instance : Hashable HashItem where
  hash
    | .number n => mixHash 11 (hash n)
    | .text chars => mixHash 13 (hash (String.ofList chars))

namespace Tree

mutual

/-- Equal content. -/
def same : Tree → Tree → Bool
  | .text _ a, .text _ b => a == b
  | .text _ a, .found _ groups => a == matchedText groups
  | .found _ groups, .text _ b => matchedText groups == b
  | .found _ groups, .found _ groups' => matchedText groups == matchedText groups'
  | .list _ items, .list _ items' => sameAll items items'
  | .node _ lineage fields, .node _ lineage' fields' => lineage == lineage' && sameFields fields fields'
  | _, _ => false

/-- Equal content item by item. -/
def sameAll : List Tree → List Tree → Bool
  | [], [] => true
  | t :: ts, u :: us => t.same u && sameAll ts us
  | _, _ => false

/-- Equal names and content field by field. -/
def sameFields : List (String × Tree) → List (String × Tree) → Bool
  | [], [] => true
  | (name, t) :: ts, (name', u) :: us => name == name' && t.same u && sameFields ts us
  | _, _ => false

end

instance : BEq Tree := ⟨same⟩

mutual

/-- What a tree writes to a hash. A text or a match writes that it has a text, and then the text. -/
def hashItems : Tree → List HashItem
  | .text _ chars => [.number 0, .number 1, .text chars]
  | .found _ groups => [.number 0, .number 1, .text (matchedText groups)]
  | .list _ items => .number 1 :: .number items.length :: hashItemsAll items
  | .node _ lineage fields =>
    .number 2 :: .text (kindOf lineage).toList :: .number lineage.length ::
      lineage.map (fun kind => .text kind.toList) ++ .number fields.length :: hashItemsFields fields

/-- What a list of trees writes to a hash. -/
def hashItemsAll : List Tree → List HashItem
  | [] => []
  | t :: ts => t.hashItems ++ hashItemsAll ts

/-- What the fields of a node write to a hash. -/
def hashItemsFields : List (String × Tree) → List HashItem
  | [] => []
  | (name, t) :: rest => .text name.toList :: t.hashItems ++ hashItemsFields rest

end

instance : Hashable Tree := ⟨fun t => hash t.hashItems⟩

end Tree

end Packrat
