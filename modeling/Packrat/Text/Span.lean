/-
Positions and spans. A position is a place in one text, given both as the number of code points
before it and as its location; a span is the stretch of text that a result covers.
-/
import Packrat.Text.Location
import Packrat.Text.Lines

namespace Packrat

/-- A place in a text: how many code points precede it, and its location. -/
structure Position where
  offset : Nat
  location : Location
deriving DecidableEq, Inhabited

namespace Position

/-- Where every text begins. -/
def origin : Position := ⟨0, .origin⟩

/-- The text from a position on. -/
def rest (p : Position) (input : List Char) : List Char := input.drop p.offset

/-- Moves forward to the location `target`; a location that does not lie ahead changes nothing. -/
def moveTo (input : List Char) (p : Position) (target : Location) : Position :=
  if target ≤ p.location then p
  else ⟨p.offset + (between (p.rest input) p.location target).length, target⟩

/-- The text between two positions. There is none if the one to stop at lies before the one to start at: then a program that
slices its text breaks off, where an empty text is read here. -/
def text (input : List Char) (start stop : Position) : List Char :=
  (start.rest input).take (stop.offset - start.offset)

end Position

/-- Where a result starts, where it ends, and the text in between. -/
structure Span where
  start : Location
  stop : Location
  text : List Char
deriving DecidableEq, Inhabited

namespace Span

/-- A span without width. -/
def empty (location : Location) : Span := ⟨location, location, []⟩

/-- Covers nothing: it ends where it starts. -/
def isEmpty (s : Span) : Bool := s.start = s.stop

/-- The span between two positions of a text. -/
def ofPositions (input : List Char) (start stop : Position) : Span :=
  ⟨start.location, stop.location, Position.text input start stop⟩

end Span

end Packrat
