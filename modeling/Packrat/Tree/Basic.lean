/-
Results of parsing: text, a regular-expression match with its groups, a list of results, or a node
that a production built. Every tree carries the span it was read from. A tree taken out of a list
whose only member it was may carry that list's span as an outer span beside its own.
-/
import Packrat.Text.Span
import Packrat.Text.Scan

namespace Packrat

/-- Where a tree stands in the text. -/
structure Placement where
  span : Span
  outer : Option Span
deriving DecidableEq, Inhabited

/-- A result of parsing. -/
inductive Tree where
  | text (place : Placement) (chars : List Char)
  /-- A match by its groups; group 0 is the whole match, and a group may not have taken part. -/
  | found (place : Placement) (groups : List (Option (List Char)))
  | list (place : Placement) (items : List Tree)
  /-- A node: its kind followed by the ancestors of that kind, and its named fields. -/
  | node (place : Placement) (lineage : List String) (fields : List (String × Tree))

namespace Placement

/-- Stands at a span, with no outer span. -/
def own (span : Span) : Placement := ⟨span, none⟩

/-- The stretch of text that is accounted for: the outer span if there is one. -/
def extent (p : Placement) : Span := p.outer.getD p.span

end Placement

namespace Tree

/-! ## Building -/

/-- Text that begins at a location and ends where reading it ends. -/
def ofText (chars : List Char) (start : Location) : Tree :=
  .text (.own ⟨start, start.after chars, chars⟩) chars

/-- The empty list, at the beginning of the text. -/
def nil : Tree := .list (.own (.empty .origin)) []

instance : Inhabited Tree := ⟨nil⟩

/-! ## Placement -/

/-- Where a tree stands. -/
def place : Tree → Placement
  | .text p _ | .found p _ | .list p _ | .node p _ _ => p

/-- The same tree elsewhere. -/
def setPlace (place : Placement) : Tree → Tree
  | .text _ chars => .text place chars
  | .found _ groups => .found place groups
  | .list _ items => .list place items
  | .node _ lineage fields => .node place lineage fields

/-- The tree's own span. -/
def span (t : Tree) : Span := t.place.span

/-- The span of the list the tree was taken out of, if it differs from the tree's own. -/
def outer (t : Tree) : Option Span := t.place.outer

/-- The stretch of text that the tree accounts for. -/
def extent (t : Tree) : Span := t.place.extent

/-- The tree taken out of a stretch of text, which becomes its outer span unless it is its own. -/
def inside (t : Tree) (outer : Span) : Tree :=
  t.setPlace ⟨t.span, if outer = t.span then none else some outer⟩

/-- Makes the extent the tree's own span. -/
def widened (t : Tree) : Tree := t.setPlace (.own t.extent)

/-- Puts the tree at a span. -/
def movedTo (t : Tree) (span : Span) : Tree := t.setPlace (.own span)

/-! ## Content -/

/-- The text of a whole match; nothing if group 0 is missing. -/
def matchedText (groups : List (Option (List Char))) : List Char := groups.head?.join.getD []

/-- The text of a text or of a match. -/
def text? : Tree → Option (List Char)
  | .text _ chars => some chars
  | .found _ groups => some (matchedText groups)
  | .list .. | .node .. => none

/-- The items of a list. -/
def items? : Tree → Option (List Tree)
  | .list _ items => some items
  | .text .. | .found .. | .node .. => none

/-- The list without items. -/
def isNil : Tree → Bool
  | .list _ items => items.isEmpty
  | .text .. | .found .. | .node .. => false

/-- The kind that a lineage begins with; the empty text if there is none. -/
def kindOf (lineage : List String) : String := lineage.head?.getD ""

/-- Whether a tree is a node of a kind or of one that descends from it. -/
def isKind (kind : String) : Tree → Bool
  | .node _ lineage _ => lineage.contains kind
  | .text .. | .found .. | .list .. => false

/-- The first field of a node with a name. -/
def field? (name : String) : Tree → Option Tree
  | .node _ _ fields => fields.lookup name
  | .text .. | .found .. | .list .. => none

/-! ## Laws of placement -/

@[simp] theorem place_setPlace (t : Tree) (p : Placement) : (t.setPlace p).place = p := by
  cases t <;> rfl

@[simp] theorem extent_inside (t : Tree) (outer : Span) : (t.inside outer).extent = outer := by
  unfold inside extent Placement.extent
  split
  · next h => simp [h]
  · simp

@[simp] theorem span_inside (t : Tree) (outer : Span) : (t.inside outer).span = t.span := by
  simp [inside, span]

@[simp] theorem extent_widened (t : Tree) : t.widened.extent = t.extent := by
  simp [widened, extent, Placement.own, Placement.extent]

@[simp] theorem extent_movedTo (t : Tree) (span : Span) : (t.movedTo span).extent = span := by
  simp [movedTo, extent, Placement.own, Placement.extent]

end Tree

end Packrat
