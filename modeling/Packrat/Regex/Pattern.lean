/-
Patterns: texts that denote a regular expression for the beginning of the remaining input. Any text may
stand for one: it depends on the engine whether it is read, and as what. A pattern carries along what the
engine of this library makes of it.
-/
import Packrat.Regex.Match
import Packrat.Regex.Read

namespace Packrat

/-- The text that is read for a pattern: it anchors the pattern to where matching starts. The
anchor is put around the pattern as text, so a pattern with unbalanced parentheses can close the
group that the anchor opens. -/
def Regex.anchored (source : List Char) : List Char := "\\A(?:".toList ++ source ++ [')']

/-- The program that a pattern denotes, if the pattern is well-formed. -/
def Regex.programOf? (source : List Char) : Option Regex.Program :=
  (Regex.ofPattern? (Regex.anchored source)).map Regex.program

/-- A pattern together with the program that it denotes, if it denotes one. -/
structure Pattern where
  source : List Char
  program? : Option Regex.Program
  program_eq : Regex.programOf? source = program?

namespace Pattern

/-- The pattern with a text. -/
def ofSource (source : List Char) : Pattern := ⟨source, _, rfl⟩

/-- A pattern, if its text is well-formed. -/
def ofSource? (source : List Char) : Option Pattern :=
  let p := ofSource source
  if p.program?.isSome then some p else none

/-- Patterns are the same when their texts are. -/
theorem ext_source {p q : Pattern} (h : p.source = q.source) : p = q := by
  obtain ⟨s, r, hr⟩ := p
  obtain ⟨t, r', hr'⟩ := q
  subst hr hr'
  simp only at h
  subst h
  rfl

instance : DecidableEq Pattern := fun p q =>
  if h : p.source = q.source then .isTrue (ext_source h) else .isFalse fun e => h (e ▸ rfl)

/-- Patterns are shown between slashes. -/
def display (p : Pattern) : String := "/" ++ String.ofList p.source ++ "/"

end Pattern

end Packrat
