/-
Matchers to plug into expressions from outside: for single characters, whole lines and pairs of
characters, matchers that always fail, and matchers whose results claim a place other than the text
they were given.
-/
import Packrat.Parse.Session
import Packrat.Text.Scan

namespace Packrat

namespace Matcher

/-- A failure with a message of its own. -/
def failure (message : String) (stop : Location) : Failure := ⟨.reported message, stop⟩

/-- A text at a span that need not be its own. -/
def placed (text : List Char) (span : Span) : Tree := .text (.own span) text

/-- Matches one given character. -/
def character (c : Char) : Matcher := fun rest location =>
  if rest.head? = some c then .ok (.ofText [c] location)
  else .error (failure ("expected an " ++ String.singleton c) location)

/-- Matches the empty text. -/
def nothing : Matcher := fun _ location => .ok (.ofText [] location)

/-- Matches all that is left. -/
def everything : Matcher := fun rest location => .ok (.ofText rest location)

/-- Fails where it is tried. -/
def failsHere (message : String) : Matcher := fun _ location => .error (failure message location)

/-- Fails at the end of the text. -/
def failsAtEnd (message : String) : Matcher := fun rest location =>
  .error (failure message (location.after rest))

/-- Fails at the beginning of the text. -/
def failsAtOrigin (message : String) : Matcher := fun _ _ => .error (failure message .origin)

/-- Matches up to and including the first line break. -/
def line : Matcher := fun rest location =>
  match splitLine rest with
  | some (line, _) => .ok (.ofText line location)
  | none => .error (failure "no line break" (location.after rest))

/-- Matches two characters, as a list of two texts. -/
def pair : Matcher := fun rest location =>
  match rest with
  | c :: d :: _ =>
    let first := Tree.ofText [c] location
    let second := Tree.ofText [d] first.span.stop
    .ok (.list (.own ⟨location, second.span.stop, [c, d]⟩) [first, second])
  | _ => .error (failure "need two characters" location)

/-- Gives a result at the beginning of the text, wherever it is tried. -/
def stale : Matcher := fun _ _ => .ok (placed "stale".toList (.empty .origin))

/-- Gives a result that ends three lines further on, unless nothing is left. -/
def beyond : Matcher := fun rest location =>
  if rest.isEmpty then .error (failure "nothing left" location)
  else .ok (placed "beyond".toList ⟨location, ⟨location.line + 3, 2⟩, "beyond".toList⟩)

/-- Gives a result that starts one column further on, unless nothing is left. -/
def late : Matcher := fun rest location =>
  if rest.isEmpty then .error (failure "nothing left" location)
  else
    let column (n : Nat) : Location := ⟨location.line, location.column + n⟩
    .ok (placed "late".toList ⟨column 1, column 2, "late".toList⟩)

end Matcher

/-- Matchers that all match the empty text. -/
def Externals.nothing : Externals := ⟨fun _ => .nothing, 0⟩

end Packrat
