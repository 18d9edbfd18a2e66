/-
Results collected while a sequence or a repetition takes input. The stretch from `start` to `stop`
is what the results account for; the cursor, where the next part is tried, may lie past it when
trailing input was skipped.
-/
import Packrat.Tree.Basic

namespace Packrat

/-- What a sequence or a repetition has collected. -/
structure Accumulator where
  start : Position
  stop : Position
  cursor : Position
  /-- Input was taken, so it is settled where the collected stretch starts. -/
  begun : Bool
  results : Array Tree

namespace Accumulator

/-- Nothing collected yet. -/
def new (origin : Position) : Accumulator := ⟨origin, origin, origin, false, #[]⟩

/-- Takes input up to a location without a result. -/
def pass (input : List Char) (acc : Accumulator) (stop : Location) : Accumulator :=
  let cursor := acc.cursor.moveTo input stop
  { acc with
    begun := true
    cursor
    stop := if acc.stop.location < cursor.location then cursor else acc.stop }

/-- Takes a result with the input that it accounts for. -/
def add (input : List Char) (acc : Accumulator) (tree : Tree) : Accumulator :=
  let start := if acc.begun then acc.start else acc.cursor.moveTo input tree.extent.start
  let acc := acc.pass input tree.extent.stop
  { acc with start, results := acc.results.push tree }

/-- Moves the cursor past input between tokens. What is skipped before the first result lies
outside the collected stretch, and so does what is skipped after the last. -/
def skip (input : List Char) (acc : Accumulator) (stop : Location) : Accumulator :=
  let cursor := acc.cursor.moveTo input stop
  if acc.begun then { acc with cursor } else { acc with cursor, start := cursor, stop := cursor }

/-- The collected stretch. Results that claim columns past the end of a line can make it stop before it starts, and then there
is no such stretch of the text: `Position.text` says what is read. -/
def span (input : List Char) (acc : Accumulator) : Span := .ofPositions input acc.start acc.stop

/-- The results as one tree: a single result stands for itself, inside the collected stretch, and
otherwise the results form a list. -/
def tree (input : List Char) (acc : Accumulator) : Tree :=
  match acc.results.toList with
  | [tree] => tree.inside (acc.span input)
  | trees => .list (.own (acc.span input)) trees

end Accumulator

end Packrat
