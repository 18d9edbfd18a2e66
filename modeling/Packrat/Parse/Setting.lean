/-
Where an expression is tried: at which position, inside which rule, and with which skipper between
tokens.
-/
import Packrat.Expr.Equality
import Packrat.Text.Span

namespace Packrat

/-- Which skipper is in effect. The same expression at the same place can match differently under
another skipper. -/
inductive SkipMode where
  /-- The grammar's own, if it has one. -/
  | standard
  /-- The one that a rule put in its place. -/
  | special (skipper : Expr)
  /-- A rule turned skipping off. -/
  | off

namespace SkipMode

/-- Equal modes with equal skippers. -/
def same : SkipMode → SkipMode → Bool
  | .standard, .standard => true
  | .special a, .special b => a.same b
  | .off, .off => true
  | _, _ => false

instance : BEq SkipMode := ⟨same⟩

end SkipMode

/-- Where an expression is tried. -/
structure Setting where
  position : Position
  /-- The rule whose body is being tried. -/
  rule : Option String
  skipping : SkipMode

namespace Setting

/-- The beginning of the text, outside of all rules. -/
def start : Setting := ⟨.origin, none, .standard⟩

/-- The same rule and skipper at another position. -/
def moved (s : Setting) (position : Position) : Setting := { s with position }

/-- The location of a setting's position. -/
def location (s : Setting) : Location := s.position.location

/-- The text that is left. -/
def rest (s : Setting) (input : List Char) : List Char := s.position.rest input

end Setting

end Packrat
